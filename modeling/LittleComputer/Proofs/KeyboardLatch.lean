import LittleComputer.Proofs.Access
import LittleComputer.Proofs.InputConservation

set_option autoImplicit false

namespace LittleComputer

namespace Core

structure Shows (core : Core) (queue : Array Word) : Prop where
  settled : core.keyRead = false
  front : core.keyLatched = true → queue[0]? = some (core.load Address.keyboardData)

def LoadsKey (core : Core) : Prop :=
  ∃ instruction, Instruction.decode core.word = .ok instruction ∧ Address.keyboardData ∈ core.loads instruction

def StoresToDevice (core : Core) : Prop :=
  ∃ instruction pair, Instruction.decode core.word = .ok instruction ∧ core.stores? instruction = some pair ∧
    Address.isDevice pair.1 = true

inductive Hears (before after : Core) : List Dequeue → Prop where
  | nothing : Hears before after []
  | getc (lowered : after.keyLatched = false) : Hears before after [.getc (after.registers.get 0)]
  | key (loaded : before.LoadsKey) (lowered : after.keyLatched = false) :
      Hears before after [.key (some (before.load Address.keyboardData))]

theorem key_latched_unlatch (core : Core) : core.unlatch.keyLatched = false := by
  have lowered (status : Word) : (status &&& ~~~Address.readyBit) &&& Address.readyBit = 0 := by
    rw [UInt16.and_assoc]
    exact UInt16.and_zero
  simp only [keyLatched, unlatch, store, Memory.read_write, if_true, lowered]
  rfl

theorem key_latched_same (left right : Core)
    (same : left.load Address.keyboardStatus = right.load Address.keyboardStatus) :
    left.keyLatched = right.keyLatched := by
  unfold load at same
  simp only [keyLatched, same]

theorem computed_device (core : Core) (instruction : Instruction) (address : Word)
    (decoded : Instruction.decode core.word = .ok instruction) (apart : ¬core.StoresToDevice)
    (device : Address.isDevice address = true) : (core.computed instruction).load address = core.load address := by
  simp only [load, computed_memory]
  cases stored : core.stores? instruction with
  | none => rfl
  | some pair =>
      have other : pair.1 ≠ address := by
        rintro rfl
        exact apart ⟨instruction, pair, decoded, stored, device⟩
      simp only [Option.elim_some, Memory.read_write, if_neg other]

theorem shows_same (left right : Core) (queue : Array Word) (shows : right.Shows queue)
    (settled : left.keyRead = false)
    (status : left.load Address.keyboardStatus = right.load Address.keyboardStatus)
    (data : left.load Address.keyboardData = right.load Address.keyboardData) : left.Shows queue where
  settled := settled
  front latched := by
    rw [data]
    exact shows.front (by rw [← key_latched_same left right status]; exact latched)

theorem shows_lowered (core : Core) (queue : Array Word) (settled : core.keyRead = false)
    (lowered : core.keyLatched = false) : core.Shows queue where
  settled := settled
  front latched := by rw [lowered] at latched; cases latched

theorem shows_latch (core : Core) (queue : Array Word) (code : Word) (shows : core.Shows queue)
    (front : queue[0]? = some code) : (core.latch code).Shows queue where
  settled := shows.settled
  front _ := by rw [load_latch, front]

theorem recorder_write_all (token : Token) (bytes : List UInt8) (state : Panel × List Dequeue) :
    (Panel.recorder token).writeAll bytes state = (true, state) := by
  obtain ⟨later, written, rfl⟩ := write_all_accepts (Panel.recorder token) (· = state)
    (fun byte same kept => ⟨same, rfl, kept⟩) bytes state rfl
  exact written

def Consistent (before : Core) (answer : Core × Panel × List Dequeue) : Prop :=
  answer.1.Shows answer.2.1.keyboard.queue ∧ before.Hears answer.1 answer.2.2

theorem getc_consistent (token : Token) (core : Core) (next : Word) (panel : Panel)
    (shows : core.Shows panel.keyboard.queue) :
    core.Consistent (core.getc (Panel.recorder token) next (panel, [])).2 := by
  simp only [getc, Panel.recorder, Panel.console, Keyboard.pop]
  cases front : panel.keyboard.queue[0]? with
  | none =>
      have empty : panel.keyboard.queue = #[] := by simpa using front
      refine ⟨⟨shows.settled, fun latched => ?_⟩, .nothing⟩
      rw [shows.front latched] at front
      cases front
  | some code =>
      have lowered : (((core.setRegister 0 code).unlatch).setPc next).keyLatched = false :=
        key_latched_unlatch (core.setRegister 0 code)
      refine ⟨shows_lowered _ _ shows.settled lowered, ?_⟩
      have given : (((core.setRegister 0 code).unlatch).setPc next).registers.get 0 = code := by
        exact (Registers.get_set core.registers 0 0 code).trans (if_pos rfl)
      have heard : core.Hears _ _ := .getc lowered
      rw [given] at heard
      exact heard

theorem serve_consistent (token : Token) (core : Core) (service : Service) (next : Word) (panel : Panel)
    (shows : core.Shows panel.keyboard.queue) :
    core.Consistent (core.serve (Panel.recorder token) service next (panel, [])).2 := by
  have printed (bytes : List UInt8) :
      core.Consistent (core.print (Panel.recorder token) next bytes (panel, [])).2 := by
    simp only [print, recorder_write_all]
    exact ⟨⟨shows.settled, shows.front⟩, .nothing⟩
  cases service with
  | getc => exact getc_consistent token core next panel shows
  | halt => exact ⟨⟨shows.settled, shows.front⟩, .nothing⟩
  | out =>
      simp only [serve, output?]
      exact printed _
  | puts =>
      simp only [serve]
      cases core.output? .puts with
      | none => exact ⟨shows, .nothing⟩
      | some bytes => exact printed bytes

theorem plain_consistent (token : Token) (core : Core) (instruction : Instruction) (panel : Panel)
    (shows : core.Shows panel.keyboard.queue) (decoded : Instruction.decode core.word = .ok instruction)
    (apart : ¬core.StoresToDevice) :
    core.Consistent ((core.computed instruction).settleKey (Panel.recorder token) (panel, [])) := by
  have kept (address : Word) (device : Address.isDevice address = true) :=
    computed_device core instruction address decoded apart device
  have keyRead := computed_key_read core instruction
  rw [shows.settled, Bool.false_or] at keyRead
  unfold settleKey
  by_cases read : (core.computed instruction).keyRead = true
  · rw [if_pos read]
    rw [read] at keyRead
    obtain ⟨loaded, latched⟩ := Bool.and_eq_true_iff.mp keyRead.symm
    have lowered : (core.computed instruction).forgetKey.unlatch.keyLatched = false := key_latched_unlatch _
    refine ⟨shows_lowered _ _ rfl lowered, ?_⟩
    have heard : core.Hears _ _ := .key ⟨instruction, decoded, of_decide_eq_true loaded⟩ lowered
    rw [← shows.front latched] at heard
    exact heard
  · rw [if_neg read]
    exact ⟨shows_same _ core _ shows (by simpa using read) (kept _ rfl) (kept _ rfl), .nothing⟩

theorem step_consistent (token : Token) (core : Core) (panel : Panel) (shows : core.Shows panel.keyboard.queue)
    (apart : ¬core.StoresToDevice) :
    core.Consistent (core.step (Panel.recorder token) (panel, [])).2 := by
  obtain ⟨fault, decoded⟩ | ⟨service, decoded⟩ | ⟨instruction, decoded, plain⟩ := decode_cases core.word
  · rw [step_fault _ _ _ fault decoded]
    exact ⟨shows, .nothing⟩
  · have served := serve_consistent token core service (core.registers.pc + 1) panel shows
    rw [step_trap_idle _ _ _ service decoded served.1.settled]
    exact served
  · rw [step_plain _ _ _ instruction decoded plain]
    exact plain_consistent token core instruction panel shows decoded apart

end Core

namespace Machine

def turned (machine : Machine) : Option (Token × Attempt) → Core
  | some (token, attempt) => (attempt.turn token machine).1.core
  | none => machine.core

structure Turns (machine : Machine) (attempt? : Option (Token × Attempt)) (core : Core) : Prop where
  memory : core.memory = (machine.turned attempt?).memory
  keyRead : core.keyRead = (machine.turned attempt?).keyRead

theorem step_turns (call : StepCall) (machine : Machine) :
    machine.Turns (Call.step call).attempt? (call.turn machine).1.core := by
  cases call with
  | filling linked => cases linked <;> exact ⟨rfl, rfl⟩
  | attempting token linked attempt =>
      obtain ⟨result, rfl⟩ | ⟨rfl, rfl⟩ | turned := Call.attempting_cases token linked attempt machine
      · cases linked <;> exact ⟨rfl, rfl⟩
      · exact ⟨rfl, rfl⟩
      · rw [turned]
        exact ⟨rfl, rfl⟩
  | _ => exact ⟨rfl, rfl⟩

theorem conclude_turns (token : Token) (steps : Nat) (result : Except Fault Outcome) (machine : Machine) :
    machine.Turns (some (token, .done result)) (Execution.conclude steps result machine).1.core := by
  rcases result with fault | _ | _ | _ | _
  · unfold Execution.conclude
    cases machine.config.policy <;> exact ⟨rfl, rfl⟩
  all_goals exact ⟨rfl, rfl⟩

theorem execution_turns (token : Token) (execution : Execution) (drain : Drain) (machine : Machine) :
    machine.Turns (Call.run (.active token execution drain)).attempt? (execution.turn token machine).1.core := by
  rcases execution with ⟨steps, phase⟩
  cases phase with
  | attempt attempt =>
      by_cases finished : ∃ result, attempt = .done result
      · obtain ⟨result, rfl⟩ := finished
        exact conclude_turns token steps result machine
      · rw [Call.execution_turn_attempt token steps attempt machine fun result same => finished ⟨result, same⟩]
        exact ⟨rfl, rfl⟩
  | _ => exact ⟨rfl, rfl⟩

theorem run_turns (call : RunCall) (machine : Machine) :
    machine.Turns (Call.run call).attempt? (call.mainTurn machine).1.core := by
  unfold RunCall.mainTurn
  split
  · exact ⟨rfl, rfl⟩
  · exact ⟨rfl, rfl⟩
  · rename_i token execution drain apart
    have turns := execution_turns token execution drain machine
    rcases turned : execution.turn token machine with ⟨after, _ | next⟩ <;> rw [turned] at turns <;> exact turns
  · exact ⟨rfl, rfl⟩

end Machine

namespace Core

theorem shows_grow (core : Core) (queue later : Array Word) (more : List Word) (shows : core.Shows queue)
    (grown : later.toList = queue.toList ++ more) : core.Shows later where
  settled := shows.settled
  front latched := by
    have front := shows.front latched
    rw [← Array.getElem?_toList] at front ⊢
    rw [grown, List.getElem?_append_left, front]
    exact (List.getElem?_eq_some_iff.mp front).1

theorem turned_shows (machine : Machine) (attempt? : Option (Token × Attempt)) (later : Array Word)
    (shows : machine.core.Shows machine.panel.keyboard.queue)
    (apart : ∀ token, attempt? = some (token, .execute) → ¬machine.core.StoresToDevice)
    (grows : ∃ more, machine.drawn attempt? ++ later.toList = machine.panel.keyboard.queue.toList ++ more) :
    (machine.turned attempt?).Shows later := by
  obtain ⟨more, grown⟩ := grows
  rcases attempt? with _ | ⟨token, attempt⟩
  · exact shows_grow _ _ later more shows grown
  · cases attempt with
    | execute =>
        have consistent := step_consistent token machine.core machine.panel shows (apart token rfl)
        have recorded := Panel.step_recorded token machine.core machine.panel
        have left : later.toList =
            (machine.core.step (Panel.recorder token) (machine.panel, [])).2.2.1.keyboard.queue.toList ++ more := by
          rw [Machine.drawn_execute, ← recorded.queue, List.append_assoc] at grown
          exact List.append_cancel_left grown
        simp only [Machine.turned, Attempt.turn, Attempt.executing_machine]
        exact shows_grow _ _ later more consistent.1 left
    | latch =>
        refine shows_grow _ _ later more ?_ grown
        simp only [Machine.turned, Attempt.turn, Machine.latchKeyboard, Keyboard.front?]
        cases front : machine.panel.keyboard.queue[0]? with
        | none => exact shows
        | some code =>
            cases latched : machine.core.keyLatched with
            | true => exact shows
            | false => exact shows_latch machine.core _ code shows front
    | _ => exact shows_grow _ _ later more shows grown

end Core

def Executed.heard (executed : Executed) : List Word :=
  executed.dequeues.map fun
    | .getc _ => executed.after.r0
    | .key _ => executed.before.load Address.keyboardData

def History.heard (history : History) : List Word := history.executed.flatMap Executed.heard

theorem heard_taken (history : History)
    (hears : ∀ executed ∈ history.executed, executed.before.Hears executed.after executed.dequeues) :
    history.heard = history.taken := by
  have each (executed : Executed) (heard : executed.before.Hears executed.after executed.dequeues) :
      executed.heard = executed.taken := by
    unfold Executed.heard Executed.taken
    generalize executed.dequeues = dequeues at heard ⊢
    cases heard <;> rfl
  rw [History.heard, History.taken, List.flatMap_def, List.flatMap_def]
  exact congrArg List.flatten (List.map_congr_left fun executed member => each executed (hears executed member))

namespace World

def Apart (world : World) : Prop := ∀ executed ∈ world.history.executed, ¬executed.before.StoresToDevice

structure Latched (world : World) : Prop where
  shows : world.machine.core.Shows world.machine.panel.keyboard.queue
  hears : ∀ executed ∈ world.history.executed, executed.before.Hears executed.after executed.dequeues

structure Quiet (world next : World) : Prop where
  core : next.machine.core = world.machine.core
  executed : next.history.executed = world.history.executed
  queue : ∃ more, next.machine.panel.keyboard.queue.toList = world.machine.panel.keyboard.queue.toList ++ more

theorem quiet_same (world next : World) (core : next.machine.core = world.machine.core)
    (executed : next.history.executed = world.history.executed)
    (queue : next.machine.panel.keyboard.queue = world.machine.panel.keyboard.queue) : Quiet world next :=
  ⟨core, executed, [], by rw [queue, List.append_nil]⟩

theorem drain_core (world : World) : world.drain.machine.core = world.machine.core := by
  rcases world with ⟨machine, call, unsent, hangsUp, tokens, history⟩
  cases call with
  | none => rfl
  | step call => rfl
  | run call =>
      show (call.drainTurn machine).1.core = machine.core
      unfold RunCall.drainTurn
      split
      · rename_i token execution drain
        rcases drain.turn token machine.panel with ⟨after, _ | next⟩ <;> rfl
      · rfl

theorem drain_quiet (world : World) : Quiet world world.drain where
  core := drain_core world
  executed := by rw [drain_turned world]
  queue := (drain_passes world).queue

theorem perform_quiet (world : World) (task : Task) (other : task ≠ .main) : Quiet world (world.perform task) := by
  obtain main | rfl | ⟨source, sink, unsent, sent, turned⟩ := perform_cases world task
  · exact absurd main other
  · exact drain_quiet world
  · rw [turned]
    exact quiet_same _ _ rfl rfl rfl

theorem step_quiet (world : World) : Quiet world world.step := by
  have taken := Panel.keyboard_take_source world.machine.panel
  obtain same | ⟨-, enters⟩ := step_cases world
  · exact quiet_same _ _ (by rw [same]) (by rw [same]) (by rw [same])
  · rw [enters]
    exact quiet_same _ _ rfl rfl (congrArg Keyboard.queue taken)

theorem start_quiet (world : World) (token : Token) : Quiet world (world.start token) := by
  obtain same | ⟨-, claims⟩ := start_cases world token
  · exact quiet_same _ _ (by rw [same]) (by rw [same]) (by rw [same])
  · rw [claims]
    unfold RunCall.claim
    cases world.machine.panel.mode <;> exact quiet_same _ _ rfl rfl rfl

theorem act_quiet (world : World) (action : Action) (other : action ≠ .task .main) :
    Quiet world (world.act action) := by
  cases action with
  | task task => exact perform_quiet world task fun same => other (congrArg Action.task same)
  | step => exact step_quiet world
  | start token => exact start_quiet world token
  | cancel token =>
      unfold act
      dsimp only
      split <;> exact quiet_same _ _ rfl rfl rfl
  | fireSlot => exact quiet_same _ _ rfl rfl (Panel.fire_slot_same world.machine.panel).queue
  | _ => exact quiet_same _ _ rfl rfl rfl

theorem latched_quiet (world next : World) (kept : world.Latched) (quiet : Quiet world next) : next.Latched where
  shows := by
    obtain ⟨more, grown⟩ := quiet.queue
    rw [quiet.core]
    exact Core.shows_grow _ _ _ more kept.shows grown
  hears := by rw [quiet.executed]; exact kept.hears

theorem main_executed (world : World) :
    world.main.history.executed = world.history.executed ++ world.machine.executes world.call.attempt? := by
  rw [main_turned world, History.note_executed]

theorem main_turns (world : World) : world.machine.Turns world.call.attempt? world.main.machine.core := by
  rcases world with ⟨machine, call, unsent, hangsUp, tokens, history⟩
  cases call with
  | none => exact ⟨rfl, rfl⟩
  | step call => exact Machine.step_turns call machine
  | run call => exact Machine.run_turns call machine

theorem main_latched (world : World) (kept : world.Latched) (apart : world.main.Apart) : world.main.Latched := by
  have now (executed : Executed) (member : executed ∈ world.machine.executes world.call.attempt?) :
      ¬executed.before.StoresToDevice := by
    apply apart
    rw [main_executed]
    exact List.mem_append_right _ member
  refine ⟨?_, fun executed member => ?_⟩
  · have turns := main_turns world
    have shown := Core.turned_shows world.machine world.call.attempt? world.main.machine.panel.keyboard.queue
      kept.shows (fun token same => now (world.machine.executed token) (by rw [same]; exact List.mem_singleton_self _))
      (main_passes world).queue
    exact Core.shows_same _ _ _ shown (by rw [turns.keyRead]; exact shown.settled)
      (by unfold Core.load; rw [turns.memory]) (by unfold Core.load; rw [turns.memory])
  · rw [main_executed] at member
    cases List.mem_append.mp member with
    | inl before => exact kept.hears executed before
    | inr latest =>
        have apart := now executed latest
        unfold Machine.executes at latest
        split at latest
        · rename_i token same
          obtain rfl := List.mem_singleton.mp latest
          exact (Core.step_consistent token _ _ kept.shows apart).2
        · cases latest

theorem act_latched (world : World) (action : Action) (kept : world.Latched) (apart : (world.act action).Apart) :
    (world.act action).Latched := by
  by_cases main : action = .task .main
  · subst main
    exact main_latched world kept apart
  · exact latched_quiet world _ kept (act_quiet world action main)

theorem act_apart (world : World) (action : Action) (apart : (world.act action).Apart) : world.Apart := by
  intro executed member
  apply apart
  by_cases main : action = .task .main
  · subst main
    exact (main_executed world).symm ▸ List.mem_append_left _ member
  · rw [(act_quiet world action main).executed]
    exact member

theorem run_latched (world : World) (actions : List Action) (kept : world.Apart → world.Latched)
    (apart : (world.run actions).Apart) : (world.run actions).Latched := by
  induction actions generalizing world with
  | nil => exact kept apart
  | cons action rest ih =>
      exact ih (world.act action)
        (fun now => act_latched world action (kept (act_apart world action now)) now) apart

/-- The latch shows the first character of the queue at every moment, and so directly after it is set and between two
instructions. -/
theorem keyboard_latch_is_consistent (registers : Registers) (memory : Memory) (panel : Panel) (config : Config)
    (text : List Char) (hangsUp : Bool) (tokens : List Token) (actions : List Action) (world : World)
    (reached : world = World.run
      { machine := { core := { registers, memory }, panel, config }, unsent := text, hangsUp, tokens } actions)
    (clear : memory.read Address.keyboardStatus &&& Address.readyBit = 0)
    (apart : ∀ executed ∈ world.history.executed, ¬executed.before.StoresToDevice) :
    (world.machine.core.keyLatched = true →
        world.machine.panel.keyboard.front? = some (world.machine.core.load Address.keyboardData)) ∧
      (∀ executed ∈ world.history.executed, ∀ code?, .key code? ∈ executed.dequeues →
        executed.before.LoadsKey ∧ code? = some (executed.before.load Address.keyboardData)) ∧
      (∀ executed ∈ world.history.executed, ∀ code, .getc code ∈ executed.dequeues →
        executed.after.registers.get 0 = code ∧ executed.after.keyLatched = false) ∧
      world.history.heard ++ world.machine.panel.keyboard.queue.toList <+:
        panel.keyboard.queue.toList ++ codes (panel.channel ++ world.history.sent) := by
  subst reached
  -- a latch that is down shows nothing
  have initial : Latched
      { machine := { core := { registers, memory }, panel, config }, unsent := text, hangsUp, tokens } := by
    refine ⟨Core.shows_lowered _ _ rfl ?_, fun executed member => by cases member⟩
    simp only [Core.keyLatched, clear]
    rfl
  have latched := run_latched _ actions (fun _ => initial) apart
  refine ⟨latched.shows.front, ?_, ?_, ?_⟩
  · intro executed member code? key
    have heard := latched.hears executed member
    generalize executed.dequeues = dequeues at heard key
    cases heard with
    | nothing => cases key
    | getc lowered => cases List.mem_singleton.mp key
    | key loaded lowered =>
        cases List.mem_singleton.mp key
        exact ⟨loaded, rfl⟩
  · intro executed member code getc
    have heard := latched.hears executed member
    generalize executed.dequeues = dequeues at heard getc
    cases heard with
    | nothing => cases getc
    | getc lowered =>
        cases List.mem_singleton.mp getc
        exact ⟨rfl, lowered⟩
    | key loaded lowered => cases List.mem_singleton.mp getc
  -- what is heard is what has been taken, and the input is conserved
  · have kept := run_conserves _ actions
      (conserved_initial { core := { registers, memory }, panel, config } text hangsUp tokens)
    have balance := kept.balance
    rw [← heard_taken _ latched.hears] at balance
    simp only [Panel.stored, Option.toList_none, codes, List.filterMap_nil, List.append_nil] at balance
    rw [codes_append, ← List.append_assoc]
    exact ⟨_, by simpa only [codes, List.append_assoc] using balance⟩

-- A GETC, then an LD that polls the keyboard.
def mixedMemory : Memory := (Memory.zero.write 0xFDFE 0xF020).write 0xFDFF 0x2202

def mixedActions : List Action :=
  (.step :: List.replicate 6 (.task .main)) ++ (.step :: List.replicate 6 (.task .main))

def mixed (memory : Memory) : World := World.run
  { machine := { core := { registers := { pc := 0xFDFE }, memory }
                 panel := { keyboard := { queue := #[0x41, 0x42] } } } }
  mixedActions

open Turns

theorem mixed_words (memory : Memory) (first : memory.read 0xFDFE = 0xF020) (second : memory.read 0xFDFF = 0x2202)
    (clear : memory.read 0xFE00 = 0) :
    (mixed memory).history.executed.map (·.before.word) = [0xF020, 0x2202] := by
  have getc : Instruction.decode 0xF020 = .ok (.trap .getc) := rfl
  have load : Instruction.decode 0x2202 = .ok (.ld 1 2) := rfl
  simp [mixed, mixedActions, List.replicate, Core.word, first, second, clear, getc, load]

theorem keyboard_latch_is_consistent_mixed :
    mixedMemory.read Address.keyboardStatus &&& Address.readyBit = 0 ∧
      (∀ executed ∈ (mixed mixedMemory).history.executed, ¬executed.before.StoresToDevice) ∧
      (mixed mixedMemory).history.executed.length = 2 ∧
      (mixed mixedMemory).history.heard ++ (mixed mixedMemory).machine.panel.keyboard.queue.toList <+:
        [0x41, 0x42] ++ codes (mixed mixedMemory).history.sent := by
  have first : mixedMemory.read 0xFDFE = 0xF020 := by simp [mixedMemory, Memory.read_write]
  have second : mixedMemory.read 0xFDFF = 0x2202 := by simp [mixedMemory, Memory.read_write]
  have status : mixedMemory.read Address.keyboardStatus = 0 := by
    simp [mixedMemory, Memory.read_write, Memory.read_zero, Address.keyboardStatus]
  have words := mixed_words mixedMemory first second status
  have clear : mixedMemory.read Address.keyboardStatus &&& Address.readyBit = 0 := by rw [status]; rfl
  have apart : ∀ executed ∈ (mixed mixedMemory).history.executed, ¬executed.before.StoresToDevice := by
    rintro executed member ⟨instruction, pair, decoded, stored, -⟩
    have word : executed.before.word ∈ [0xF020, 0x2202] := words ▸ List.mem_map_of_mem member
    have getc : Instruction.decode 0xF020 = .ok (.trap .getc) := rfl
    have load : Instruction.decode 0x2202 = .ok (.ld 1 2) := rfl
    simp only [List.mem_cons, List.not_mem_nil, or_false] at word
    rcases word with word | word
    · rw [word, getc] at decoded
      cases decoded
      cases stored
    · rw [word, load] at decoded
      cases decoded
      cases stored
  have consistent := keyboard_latch_is_consistent _ mixedMemory { keyboard := { queue := #[0x41, 0x42] } } _ _ _ _ _
    (mixed mixedMemory) rfl clear apart
  have unplugged : Panel.channel { keyboard := { queue := #[0x41, 0x42] } } = [] := rfl
  rw [unplugged, List.nil_append] at consistent
  exact ⟨clear, apart, by simpa using congrArg List.length words, consistent.2.2.2⟩

end World

end LittleComputer
