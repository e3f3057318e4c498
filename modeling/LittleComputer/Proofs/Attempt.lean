import LittleComputer.Machine.Attempt
import LittleComputer.Proofs.Step
import LittleComputer.Proofs.Strings

set_option autoImplicit false

namespace LittleComputer

theorem Core.output_length (core : Core) (service : Service) (bytes : List UInt8)
    (output : core.output? service = some bytes) : bytes.length < Memory.size := by
  cases service with
  | puts =>
      obtain ⟨string, found, rfl⟩ := Option.map_eq_some_iff.mp output
      rw [List.length_map]
      exact Memory.string_length _ _ _ found
  | _ =>
      cases output
      simp [Memory.size]

-- The core once its latch shows the first character of the queue, unless it shows one already.
def Core.shown (core : Core) (queue : Array Word) : Core :=
  match queue[0]? with
  | none => core
  | some code => if core.keyLatched then core else core.latch code

theorem Core.shown_cases (core : Core) (queue : Array Word) :
    ((core.keyLatched = true ∨ queue = #[]) ∧ core.shown queue = core) ∨
      (core.keyLatched = false ∧ queue ≠ #[] ∧ ∃ code, core.shown queue = core.latch code) := by
  unfold shown
  cases front : queue[0]? with
  | none => exact .inl ⟨.inr (by simpa using front), rfl⟩
  | some code =>
      have queued : queue ≠ #[] := by
        rintro rfl
        cases front
      cases latched : core.keyLatched with
      | true => exact .inl ⟨.inl rfl, rfl⟩
      | false => exact .inr ⟨rfl, queued, code, rfl⟩

theorem Core.shown_read (core : Core) (queue : Array Word) (address : Word) (apart : Address.isDevice address = false) :
    (core.shown queue).memory.read address = core.memory.read address := by
  obtain ⟨status, data⟩ : address ≠ Address.keyboardStatus ∧ address ≠ Address.keyboardData := by
    simpa [Address.isDevice] using apart
  obtain ⟨-, same⟩ | ⟨-, -, code, shows⟩ := core.shown_cases queue
  · rw [same]
  · simp only [shows, latch, store, Memory.read_write, if_neg (Ne.symm status), if_neg (Ne.symm data)]

theorem Core.shown_same (core : Core) (queue : Array Word) :
    core.shown queue = core ↔ core.keyLatched = true ∨ queue = #[] := by
  obtain ⟨reason, same⟩ | ⟨clear, queued, code, shows⟩ := core.shown_cases queue
  · exact ⟨fun _ => reason, fun _ => same⟩
  · refine ⟨fun same => .inl ?_, fun reason => ?_⟩
    · rw [← same, shows]
      exact core.key_latched_latch code
    · obtain latched | empty := reason
      · rw [clear] at latched
        cases latched
      · exact absurd empty queued

theorem Machine.latch_keyboard_shown (machine : Machine) :
    machine.latchKeyboard = { machine with core := machine.core.shown machine.panel.keyboard.queue } := by
  unfold latchKeyboard Core.shown Keyboard.front?
  cases machine.panel.keyboard.queue[0]? with
  | none => rfl
  | some code =>
      dsimp only
      cases machine.core.keyLatched <;> rfl

theorem Machine.latch_keyboard_keeps (machine : Machine) :
    machine.latchKeyboard.panel = machine.panel ∧ machine.latchKeyboard.config = machine.config := by
  rw [machine.latch_keyboard_shown]
  exact ⟨rfl, rfl⟩

def Keyboard.console : Console Keyboard where
  readChar := Keyboard.pop
  writeChar _ keyboard := (true, keyboard)
  acknowledgeKey keyboard := keyboard.pop.2
  halt keyboard := keyboard

theorem Panel.console_views (token : Token) : (Panel.console token).Views Keyboard.console Panel.keyboard :=
  ⟨fun _ => rfl, fun _ _ => rfl, fun _ => rfl, fun _ => rfl⟩

theorem Core.step_results (core : Core) (keyboard : Keyboard) (result : Except Fault Outcome)
    (stepped : (core.step Keyboard.console keyboard).1 = some result) :
    (∃ fault, result = .error fault ∧ (core.step Keyboard.console keyboard).2 = (core, keyboard)) ∨
      result = .ok .retired ∨ (result = .ok .halted ∧ Instruction.decode core.word = .ok (.trap .halt)) ∨
      (result = .ok .interrupted ∧ Instruction.decode core.word = .ok (.trap .getc) ∧ keyboard.queue = #[]) := by
  obtain ⟨fault, decoded⟩ | ⟨service, decoded⟩ | ⟨instruction, decoded, plain⟩ := decode_cases core.word
  · rw [step_fault _ core keyboard fault decoded] at stepped ⊢
    cases stepped
    exact .inl ⟨fault, rfl, rfl⟩
  · rw [step_trap _ core keyboard service decoded] at stepped
    have printed (next : Word) (bytes : List UInt8) :
        (core.print Keyboard.console next bytes keyboard).1 = .retired := by
      obtain ⟨later, written, -⟩ := write_all_accepts Keyboard.console (fun _ => True)
        (fun byte state _ => ⟨state, rfl, trivial⟩) bytes keyboard trivial
      simp only [print, written]
    cases service with
    | getc =>
        cases front : keyboard.queue[0]? with
        | none =>
            simp only [serve, getc, Keyboard.console, Keyboard.pop, front] at stepped
            cases stepped
            exact .inr (.inr (.inr ⟨rfl, decoded, by simpa using front⟩))
        | some code =>
            simp only [serve, getc, Keyboard.console, Keyboard.pop, front] at stepped
            cases stepped
            exact .inr (.inl rfl)
    | halt =>
        cases stepped
        exact .inr (.inr (.inl ⟨rfl, decoded⟩))
    | out =>
        have retires := printed (core.registers.pc + 1) [core.r0.lowByte]
        simp only [serve, output?] at stepped
        rw [retires] at stepped
        cases stepped
        exact .inr (.inl rfl)
    | puts =>
        simp only [serve] at stepped
        cases output : core.output? .puts with
        | none =>
            rw [output] at stepped
            cases stepped
        | some bytes =>
            rw [output] at stepped
            dsimp only at stepped
            rw [printed] at stepped
            cases stepped
            exact .inr (.inl rfl)
  · rw [step_plain _ core keyboard instruction decoded plain] at stepped
    cases stepped
    exact .inr (.inl rfl)

structure Machine.Alike (left right : Machine) : Prop where
  core : left.core = right.core
  keyboard : left.panel.keyboard = right.panel.keyboard
  sink : left.panel.sink = right.panel.sink
  config : left.config = right.config

structure Machine.Untouched (before after : Machine) : Prop where
  source : after.panel.source = before.panel.source
  closed : after.panel.keyboard.closed = before.panel.keyboard.closed
  config : after.config = before.config

structure Panel.SameRun (before after : Panel) : Prop where
  mode : after.mode = before.mode
  slot : after.slot = before.slot
  signals : after.signals = before.signals

theorem Machine.untouched_trans (before middle after : Machine) (first : before.Untouched middle)
    (second : middle.Untouched after) : before.Untouched after :=
  ⟨second.source.trans first.source, second.closed.trans first.closed, second.config.trans first.config⟩

theorem Panel.same_run_trans (before middle after : Panel) (first : before.SameRun middle)
    (second : middle.SameRun after) : before.SameRun after :=
  ⟨second.mode.trans first.mode, second.slot.trans first.slot, second.signals.trans first.signals⟩

theorem Panel.same_run_fired (before after : Panel) (same : before.SameRun after) (token : Token) :
    after.isFired token = before.isFired token := congrArg (·.isFired token) same.signals

theorem Panel.take_char_run (panel : Panel) : panel.SameRun panel.takeChar.2 := by
  unfold takeChar
  cases panel.source <;> exact ⟨rfl, rfl, rfl⟩

theorem Panel.take_source_run (panel : Panel) : panel.SameRun panel.takeSource.2 := by
  unfold takeSource
  split <;> exact ⟨rfl, rfl, rfl⟩

theorem Panel.fire_fired (panel : Panel) (token : Token) : (panel.fire token).isFired token = true := by
  simp only [fire, isFired, Signals.is_fired_fire, decide_true, Bool.true_or]

namespace Attempt

section
variable (machine : Machine)

theorem prospect_fault (fault : Fault) (decoded : Instruction.decode machine.core.word = .error fault) :
    prospect machine = .execute := by
  unfold Core.word at decoded
  simp only [prospect, decoded]

theorem prospect_trap (service : Service) (decoded : Instruction.decode machine.core.word = .ok (.trap service)) :
    prospect machine =
      match service with
      | .getc => if machine.panel.keyboard.queue.isEmpty then .await else .execute
      | .halt => .execute
      | service =>
          match machine.core.output? service with
          | some bytes => .handOver (bytes.map fun byte => Char.ofNat byte.toNat)
          | none => .endless := by
  unfold Core.word at decoded
  simp only [prospect, decoded]
  cases service <;> rfl

theorem prospect_plain (instruction : Instruction)
    (decoded : Instruction.decode machine.core.word = .ok instruction) (plain : instruction.Plain) :
    prospect machine = .execute := by
  unfold Core.word at decoded
  simp only [prospect, decoded]
  cases instruction <;> first | rfl | exact absurd rfl (plain _)

theorem prospect_ready (executes : prospect machine = .execute)
    (getc : Instruction.decode machine.core.word = .ok (.trap .getc)) : machine.panel.keyboard.queue ≠ #[] := by
  rw [prospect_trap machine .getc getc] at executes
  intro empty
  rw [empty] at executes
  cases executes

theorem prospect_cases :
    prospect machine = .execute ∨ prospect machine = .endless ∨
      (prospect machine = .await ∧ machine.panel.keyboard.queue = #[]) ∨
      ∃ text : List Char, prospect machine = .handOver text ∧ text.length < Memory.size := by
  obtain ⟨fault, decoded⟩ | ⟨service, decoded⟩ | ⟨instruction, decoded, plain⟩ := decode_cases machine.core.word
  · exact .inl (prospect_fault machine fault decoded)
  · rw [prospect_trap machine service decoded]
    have handed (prospect : Attempt) (endless : machine.core.output? service = none → prospect = .endless)
        (hands : ∀ bytes, machine.core.output? service = some bytes →
          prospect = .handOver (bytes.map fun byte => Char.ofNat byte.toNat)) :
        prospect = .endless ∨ ∃ text : List Char, prospect = .handOver text ∧ text.length < Memory.size := by
      cases output : machine.core.output? service with
      | none => exact .inl (endless output)
      | some bytes =>
          refine .inr ⟨_, hands bytes output, ?_⟩
          rw [List.length_map]
          exact machine.core.output_length service bytes output
    cases service with
    | getc =>
        dsimp only
        by_cases empty : machine.panel.keyboard.queue.isEmpty = true
        · rw [if_pos empty]
          exact .inr (.inr (.inl ⟨rfl, by simpa using empty⟩))
        · rw [if_neg empty]
          exact .inl rfl
    | halt => exact .inl rfl
    | out =>
        refine .inr (Or.imp_right .inr (handed _ (fun same => ?_) fun bytes same => ?_)) <;> simp only [same]
    | puts =>
        refine .inr (Or.imp_right .inr (handed _ (fun same => ?_) fun bytes same => ?_)) <;> simp only [same]
  · exact .inl (prospect_plain machine instruction decoded plain)

end

theorem turn_offer (token : Token) (char : Char) (rest : List Char) (machine : Machine) :
    turn token (.offer char rest) machine =
      ({ machine with panel := (offering token char rest machine.panel).1 },
        (offering token char rest machine.panel).2) := rfl

theorem turn_execute (token : Token) (machine : Machine) :
    turn token .execute machine = ((executing token machine).1, some (executing token machine).2) := rfl

theorem awaiting_cases (token : Token) (panel : Panel) (next : Attempt) (goes : awaiting token panel = some next) :
    (next = .latch ∧ panel.keyboard.queue ≠ #[]) ∨
      (next = .done (.ok .interrupted) ∧ panel.isFired token = true) ∨
      (next = .done (.ok .inputClosed) ∧ panel.keyboard.queue = #[]) := by
  simp only [awaiting, Keyboard.wait?] at goes
  cases fired : panel.isFired token with
  | true =>
      rw [fired] at goes
      cases goes
      exact .inr (.inl ⟨rfl, rfl⟩)
  | false =>
      cases empty : panel.keyboard.queue.isEmpty with
      | false =>
          rw [fired, empty] at goes
          cases goes
          exact .inl ⟨rfl, by simpa using empty⟩
      | true =>
          cases closed : panel.keyboard.closed <;> rw [fired, empty, closed] at goes <;> cases goes
          exact .inr (.inr ⟨rfl, by simpa using empty⟩)

theorem handing_over_cases (token : Token) (panel : Panel) (rest : List Char) :
    handingOver token panel rest = .execute ∨
      (handingOver token panel rest = .done (.ok .interrupted) ∧ panel.isFired token = true) ∨
      ∃ char left, rest = char :: left ∧ handingOver token panel rest = .offer char left := by
  cases rest with
  | nil => exact .inl rfl
  | cons char left =>
      unfold handingOver
      cases panel.sink.isNone with
      | true => exact .inl rfl
      | false =>
          cases fired : panel.isFired token with
          | true => exact .inr (.inl ⟨rfl, rfl⟩)
          | false => exact .inr (.inr ⟨char, left, rfl, rfl⟩)

theorem offering_goes (token : Token) (char : Char) (rest : List Char) (panel : Panel) (next : Attempt)
    (goes : (offering token char rest panel).2 = some next) :
    next = .handOver rest ∨ next = .execute ∨ (next = .done (.ok .interrupted) ∧ panel.isFired token = true) := by
  have refused (stays : (if panel.isFired token then some (done (.ok .interrupted)) else none) = some next) :
      next = .done (.ok .interrupted) ∧ panel.isFired token = true := by
    cases fired : panel.isFired token <;> rw [fired] at stays <;> cases stays
    exact ⟨rfl, rfl⟩
  unfold offering at goes
  cases sink : panel.sink with
  | none =>
      rw [sink] at goes
      cases goes
      exact .inr (.inl rfl)
  | some line =>
      rw [sink] at goes
      dsimp only at goes
      generalize line.offer char = answer at goes
      rcases answer with ⟨_ | _ | _ | _, after⟩
      · cases goes
        exact .inl rfl
      · exact .inr (.inr (refused goes))
      · exact .inr (.inr (refused goes))
      · cases goes
        exact .inr (.inl rfl)

theorem turn_waits (token : Token) (attempt : Attempt) (machine later : Machine)
    (turned : attempt.turn token machine = (later, none)) : later = machine := by
  have offers (char : Char) (rest : List Char) (waits : (offering token char rest machine.panel).2 = none) :
      (offering token char rest machine.panel).1 = machine.panel := by
    unfold offering at waits ⊢
    cases sink : machine.panel.sink with
    | none => rfl
    | some line =>
        rw [sink] at waits
        dsimp only at waits ⊢
        generalize line.offer char = answer at waits ⊢
        rcases answer with ⟨_ | _ | _ | _, after⟩
        · cases waits
        all_goals rfl
  obtain ⟨rfl, waits⟩ := Prod.mk.inj turned
  cases attempt with
  | offer char rest => exact congrArg (fun panel => { machine with panel }) (offers char rest waits)
  | latch => cases waits
  | execute => cases waits
  | _ => rfl

theorem executing_seen (token : Token) (machine : Machine) :
    (executing token machine).2 =
        (match (machine.core.step Keyboard.console machine.panel.keyboard).1 with
          | some result => .done result
          | none => .endless) ∧
      (executing token machine).1.core = (machine.core.step Keyboard.console machine.panel.keyboard).2.1 ∧
      (executing token machine).1.panel.keyboard = (machine.core.step Keyboard.console machine.panel.keyboard).2.2 ∧
      (executing token machine).1.config = machine.config := by
  rw [Core.step_views (Panel.console_views token)]
  unfold executing
  rcases machine.core.step (Panel.console token) machine.panel with ⟨_ | result, core, panel⟩ <;>
    exact ⟨rfl, rfl, rfl, rfl⟩

theorem executing_keeps (token : Token) (machine : Machine) :
    (executing token machine).1.panel.sink = machine.panel.sink ∧ machine.Untouched (executing token machine).1 := by
  have kept : ∀ left : Panel, left = (machine.core.step (Panel.console token) machine.panel).2.2 →
      left.sink = machine.panel.sink ∧ left.source = machine.panel.source ∧
        left.keyboard.closed = machine.panel.keyboard.closed := by
    rintro left rfl
    apply Core.step_keeps (Panel.console token)
      (fun panel => panel.sink = machine.panel.sink ∧ panel.source = machine.panel.source ∧
        panel.keyboard.closed = machine.panel.keyboard.closed)
    · exact fun panel same => same
    · exact fun byte panel same => same
    · exact fun panel same => same
    · exact fun panel same => same
    · exact ⟨rfl, rfl, rfl⟩
  unfold executing
  generalize machine.core.step (Panel.console token) machine.panel = answer at kept ⊢
  rcases answer with ⟨_ | result, core, panel⟩ <;>
    exact ⟨(kept panel rfl).1, (kept panel rfl).2.1, (kept panel rfl).2.2, rfl⟩

theorem executing_keeps_run (token : Token) (machine : Machine) :
    machine.panel.SameRun (executing token machine).1.panel ∨
      (executing token machine).2 = .done (.ok .halted) := by
  have kept := Core.step_leaves (Panel.console token) machine.panel.SameRun (fun _ => True)
    (fun panel same => ⟨same.mode, same.slot, same.signals⟩) (fun byte panel same => same)
    (fun panel same => ⟨same.mode, same.slot, same.signals⟩) (fun _ _ => trivial) (fun _ _ => trivial) machine.core
    machine.panel ⟨rfl, rfl, rfl⟩
  unfold executing
  generalize machine.core.step (Panel.console token) machine.panel = answer at kept ⊢
  rcases answer with ⟨_ | result, core, panel⟩
  · exact .inl (kept.resolve_right nofun)
  · refine kept.imp_right fun halted => ?_
    cases halted.1
    rfl

theorem offering_alike (token other : Token) (char : Char) (rest : List Char) (left right : Panel)
    (sink : left.sink = right.sink) (fired : left.isFired token = right.isFired other) :
    (offering token char rest left).2 = (offering other char rest right).2 ∧
      (offering token char rest left).1.sink = (offering other char rest right).1.sink := by
  unfold offering
  rw [sink, fired]
  cases right.sink with
  | none => exact ⟨rfl, sink⟩
  | some line =>
      dsimp only
      rcases line.offer char with ⟨_ | _ | _ | _, after⟩
      · exact ⟨rfl, rfl⟩
      · exact ⟨rfl, sink⟩
      · exact ⟨rfl, sink⟩
      · exact ⟨rfl, sink⟩

theorem offering_keeps (token : Token) (char : Char) (rest : List Char) (panel : Panel) :
    ∃ sink, (offering token char rest panel).1 = { panel with sink } := by
  unfold offering
  cases panel.sink with
  | none => exact ⟨panel.sink, rfl⟩
  | some line =>
      dsimp only
      rcases line.offer char with ⟨_ | _ | _ | _, after⟩
      · exact ⟨some after, rfl⟩
      · exact ⟨panel.sink, rfl⟩
      · exact ⟨panel.sink, rfl⟩
      · exact ⟨panel.sink, rfl⟩

theorem turn_alike (token other : Token) (attempt : Attempt) (left right : Machine) (alike : left.Alike right)
    (fired : left.panel.isFired token = right.panel.isFired other) :
    (attempt.turn token left).2 = (attempt.turn other right).2 ∧
      (attempt.turn token left).1.Alike (attempt.turn other right).1 := by
  have core := alike.core
  have keyboard := alike.keyboard
  have sink := alike.sink
  cases attempt with
  | latch =>
      refine ⟨rfl, ?_⟩
      simp only [turn, Machine.latch_keyboard_shown, core, keyboard]
      exact ⟨rfl, keyboard, sink, alike.config⟩
  | look =>
      refine ⟨congrArg some ?_, alike⟩
      unfold prospect
      rw [core, keyboard]
  | await =>
      refine ⟨?_, alike⟩
      simp only [turn, awaiting, keyboard, fired]
  | handOver rest =>
      refine ⟨congrArg some ?_, alike⟩
      cases rest with
      | nil => rfl
      | cons char rest => simp only [handingOver, sink, fired]
  | offer char rest =>
      obtain ⟨next, later⟩ := offering_alike token other char rest left.panel right.panel sink fired
      obtain ⟨leftSink, leftKept⟩ := offering_keeps token char rest left.panel
      obtain ⟨rightSink, rightKept⟩ := offering_keeps other char rest right.panel
      refine ⟨next, core, ?_, later, alike.config⟩
      simp only [turn_offer, leftKept, rightKept, keyboard]
  | execute =>
      obtain ⟨next, after, queue, config⟩ := executing_seen token left
      obtain ⟨otherNext, otherAfter, otherQueue, otherConfig⟩ := executing_seen other right
      rw [turn_execute, turn_execute, next, otherNext]
      refine ⟨?_, ?_, ?_, ?_, ?_⟩
      · rw [core, keyboard]
      · exact after.trans (by rw [core, keyboard]; exact otherAfter.symm)
      · exact queue.trans (by rw [core, keyboard]; exact otherQueue.symm)
      · exact (executing_keeps token left).1.trans (sink.trans (executing_keeps other right).1.symm)
      · exact config.trans (alike.config.trans otherConfig.symm)
  | endless => exact ⟨rfl, alike⟩
  | done result => exact ⟨rfl, alike⟩

theorem turn_keeps (token : Token) (attempt : Attempt) (machine : Machine) :
    machine.Untouched (attempt.turn token machine).1 ∧
      (machine.panel.SameRun (attempt.turn token machine).1.panel ∨
        (attempt.turn token machine).2 = some (.done (.ok .halted))) := by
  cases attempt with
  | latch =>
      rw [turn, Machine.latch_keyboard_shown]
      exact ⟨⟨rfl, rfl, rfl⟩, .inl ⟨rfl, rfl, rfl⟩⟩
  | offer char rest =>
      obtain ⟨sink, kept⟩ := offering_keeps token char rest machine.panel
      rw [turn_offer, kept]
      exact ⟨⟨rfl, rfl, rfl⟩, .inl ⟨rfl, rfl, rfl⟩⟩
  | execute =>
      exact ⟨(executing_keeps token machine).2, (executing_keeps_run token machine).imp_right (congrArg some)⟩
  | _ => exact ⟨⟨rfl, rfl, rfl⟩, .inl ⟨rfl, rfl, rfl⟩⟩

-- An attempt comes to `result` in `count` turns, in which nobody else has one.
inductive Settles (token : Token) : Nat → Attempt → Machine → Except Fault Outcome → Machine → Prop where
  | done (result : Except Fault Outcome) (machine : Machine) : Settles token 0 (.done result) machine result machine
  | turn (count : Nat) (attempt next : Attempt) (machine later last : Machine) (result : Except Fault Outcome)
      (turned : attempt.turn token machine = (later, some next))
      (rest : Settles token count next later result last) :
      Settles token (count + 1) attempt machine result last

theorem settles_done (token : Token) (count : Nat) (result other : Except Fault Outcome) (machine last : Machine)
    (settles : Settles token count (.done result) machine other last) :
    count = 0 ∧ other = result ∧ last = machine := by
  cases settles with
  | done => exact ⟨rfl, rfl, rfl⟩
  | turn _ _ _ _ _ _ _ turned => cases turned

theorem turn_unfired (token : Token) (attempt next : Attempt) (machine later : Machine)
    (turned : attempt.turn token machine = (later, some next)) (unfired : machine.panel.isFired token = false) :
    later.panel.isFired token = false ∨ next = .done (.ok .halted) := by
  have kept := (turn_keeps token attempt machine).2
  rw [turned] at kept
  exact kept.imp (fun same => (Panel.same_run_fired _ _ same token).trans unfired) Option.some.inj

theorem settles_alike (token other : Token) (count : Nat) (attempt : Attempt) (left right last : Machine)
    (result : Except Fault Outcome) (settles : Settles token count attempt left result last)
    (alike : left.Alike right) (unfired : left.panel.isFired token = false)
    (otherUnfired : right.panel.isFired other = false) :
    ∃ otherLast, Settles other count attempt right result otherLast ∧ last.Alike otherLast := by
  induction settles generalizing right with
  | done result machine => exact ⟨right, .done result right, alike⟩
  | turn count attempt next machine later last result turned rest ih =>
      obtain ⟨sameNext, sameLater⟩ :=
        turn_alike token other attempt machine right alike (unfired.trans otherUnfired.symm)
      have otherTurned : attempt.turn other right = ((attempt.turn other right).1, some next) := by
        rw [turned] at sameNext
        exact Prod.ext rfl sameNext.symm
      rw [turned] at sameLater
      obtain still | rfl := turn_unfired token attempt next machine later turned unfired
      · obtain otherStill | halted := turn_unfired other attempt next right _ otherTurned otherUnfired
        · obtain ⟨otherLast, settles, same⟩ := ih _ sameLater still otherStill
          exact ⟨otherLast, .turn count attempt next right _ otherLast result otherTurned settles, same⟩
        · subst halted
          obtain ⟨rfl, rfl, rfl⟩ := settles_done token count _ result later last rest
          exact ⟨_, .turn 0 attempt _ right _ _ _ otherTurned (.done _ _), sameLater⟩
      · obtain ⟨rfl, rfl, rfl⟩ := settles_done token count _ result later last rest
        exact ⟨_, .turn 0 attempt _ right _ _ _ otherTurned (.done _ _), sameLater⟩

theorem settles_keeps (token : Token) (count : Nat) (attempt : Attempt) (machine last : Machine)
    (result : Except Fault Outcome) (settles : Settles token count attempt machine result last) :
    machine.Untouched last ∧ (result ≠ .ok .halted → machine.panel.SameRun last.panel) := by
  induction settles with
  | done result machine => exact ⟨⟨rfl, rfl, rfl⟩, fun _ => ⟨rfl, rfl, rfl⟩⟩
  | turn count attempt next machine later last result turned rest ih =>
      have kept := turn_keeps token attempt machine
      rw [turned] at kept
      refine ⟨Machine.untouched_trans machine later last kept.1 ih.1, fun going => ?_⟩
      obtain same | halted := kept.2
      · exact Panel.same_run_trans _ _ _ same (ih.2 going)
      · obtain rfl := Option.some.inj halted
        exact absurd (settles_done token count _ result later last rest).2.1 going

def Ready (attempt : Attempt) (machine : Machine) : Prop :=
  match attempt with
  | .handOver _ => Instruction.decode machine.core.word ≠ .ok (.trap .getc)
  | .offer _ _ => Instruction.decode machine.core.word ≠ .ok (.trap .getc)
  | .execute => Instruction.decode machine.core.word = .ok (.trap .getc) → machine.panel.keyboard.queue ≠ #[]
  | _ => True

theorem look_ready (machine : Machine) : (prospect machine).Ready machine := by
  have handed (text : List Char) (hands : prospect machine = .handOver text) :
      Instruction.decode machine.core.word ≠ .ok (.trap .getc) := by
    intro getc
    rw [prospect_trap machine .getc getc] at hands
    dsimp only at hands
    split at hands <;> cases hands
  cases prospect : prospect machine with
  | handOver text => exact handed text prospect
  | execute => exact prospect_ready machine prospect
  | offer char rest =>
      obtain same | same | ⟨same, -⟩ | ⟨text, same, -⟩ := prospect_cases machine <;> rw [prospect] at same <;>
        cases same
  | _ => trivial

theorem turn_ready (token : Token) (attempt next : Attempt) (machine later : Machine)
    (turned : attempt.turn token machine = (later, some next)) (ready : attempt.Ready machine) : next.Ready later := by
  cases attempt with
  | latch =>
      cases turned
      trivial
  | look =>
      cases turned
      exact look_ready machine
  | await =>
      obtain ⟨rfl, -⟩ | ⟨rfl, -⟩ | ⟨rfl, -⟩ := awaiting_cases token machine.panel next (congrArg Prod.snd turned) <;>
        trivial
  | handOver rest =>
      cases turned
      obtain same | ⟨same, -⟩ | ⟨char, left, -, same⟩ := handing_over_cases token machine.panel rest <;> rw [same]
      · exact fun getc => absurd getc ready
      · trivial
      · exact ready
  | offer char rest =>
      rw [turn_offer] at turned
      obtain ⟨rfl, goes⟩ := Prod.mk.inj turned
      obtain rfl | rfl | ⟨rfl, -⟩ := offering_goes token char rest machine.panel next goes
      · exact ready
      · exact fun getc => absurd getc ready
      · trivial
  | execute =>
      rw [turn_execute, (executing_seen token machine).1] at turned
      obtain ⟨-, goes⟩ := Prod.mk.inj turned
      obtain rfl := Option.some.inj goes
      split <;> trivial
  | endless => cases turned
  | done result => cases turned

theorem executing_results (token : Token) (machine : Machine) (result : Except Fault Outcome)
    (ready : Ready .execute machine) (answers : (executing token machine).2 = .done result) :
    (∃ fault, result = .error fault ∧ (executing token machine).1.core = machine.core ∧
        (executing token machine).1.panel.keyboard = machine.panel.keyboard) ∨
      result = .ok .retired ∨ result = .ok .halted := by
  obtain ⟨seen, after, queue, -⟩ := executing_seen token machine
  rw [seen] at answers
  cases stepped : (machine.core.step Keyboard.console machine.panel.keyboard).1 with
  | none =>
      rw [stepped] at answers
      cases answers
  | some answer =>
      rw [stepped] at answers
      cases answers
      obtain ⟨fault, failed, same⟩ | retired | ⟨halted, -⟩ | ⟨-, getc, empty⟩ :=
        machine.core.step_results _ result stepped
      · exact .inl ⟨fault, failed, after.trans (congrArg Prod.fst same), queue.trans (congrArg Prod.snd same)⟩
      · exact .inr (.inl retired)
      · exact .inr (.inr halted)
      · exact absurd empty (ready getc)

theorem executing_halts (token : Token) (machine : Machine)
    (halts : (executing token machine).2 = .done (.ok .halted)) :
    (executing token machine).1.panel.mode = .stopped := by
  have decoded : Instruction.decode machine.core.word = .ok (.trap .halt) := by
    rw [(executing_seen token machine).1] at halts
    cases stepped : (machine.core.step Keyboard.console machine.panel.keyboard).1 with
    | none =>
        rw [stepped] at halts
        cases halts
    | some result =>
        rw [stepped] at halts
        obtain rfl := Attempt.done.inj halts
        obtain ⟨fault, same, -⟩ | same | ⟨-, decoded⟩ | ⟨same, -⟩ := machine.core.step_results _ _ stepped
        · cases same
        · cases same
        · exact decoded
        · cases same
  unfold executing
  rw [Core.step_trap _ _ _ _ decoded]
  simp only [Core.serve, Core.settleKey]
  split <;> rfl

-- Only an executed instruction can complete an attempt. The other ways out are a fired token and a closed queue.
theorem turn_done (token : Token) (attempt : Attempt) (machine later : Machine) (result : Except Fault Outcome)
    (turned : attempt.turn token machine = (later, some (.done result))) :
    (attempt = .execute ∧ executing token machine = (later, .done result)) ∨
      (result = .ok .interrupted ∧ machine.panel.isFired token = true) ∨ result = .ok .inputClosed := by
  have goes := congrArg Prod.snd turned
  cases attempt with
  | latch => cases goes
  | look =>
      obtain same | same | ⟨same, -⟩ | ⟨text, same, -⟩ := prospect_cases machine <;>
        cases same.symm.trans (Option.some.inj goes)
  | await =>
      obtain ⟨same, -⟩ | ⟨same, fired⟩ | ⟨same, -⟩ := awaiting_cases token machine.panel _ goes
      · cases same
      · exact .inr (.inl ⟨Attempt.done.inj same, fired⟩)
      · exact .inr (.inr (Attempt.done.inj same))
  | handOver rest =>
      obtain same | ⟨same, fired⟩ | ⟨char, left, -, same⟩ := handing_over_cases token machine.panel rest
      · cases same.symm.trans (Option.some.inj goes)
      · exact .inr (.inl ⟨Attempt.done.inj ((Option.some.inj goes).symm.trans same), fired⟩)
      · cases same.symm.trans (Option.some.inj goes)
  | offer char rest =>
      obtain same | same | ⟨same, fired⟩ := offering_goes token char rest machine.panel _ goes
      · cases same
      · cases same
      · exact .inr (.inl ⟨Attempt.done.inj same, fired⟩)
  | execute =>
      obtain ⟨rfl, same⟩ := Prod.mk.inj turned
      exact .inl ⟨rfl, Prod.ext rfl (Option.some.inj same)⟩
  | endless => cases goes
  | done _ => cases goes

theorem turn_interrupted (token : Token) (attempt : Attempt) (machine later : Machine) (ready : attempt.Ready machine)
    (turned : attempt.turn token machine = (later, some (.done (.ok .interrupted)))) :
    machine.panel.isFired token = true := by
  obtain ⟨rfl, executed⟩ | ⟨-, fired⟩ | same := turn_done token attempt machine later _ turned
  · obtain ⟨fault, same, -⟩ | same | same :=
      executing_results token machine _ ready (congrArg Prod.snd executed) <;> cases same
  · exact fired
  · cases same

theorem turn_halts (token : Token) (attempt : Attempt) (machine later : Machine)
    (turned : attempt.turn token machine = (later, some (.done (.ok .halted)))) : later.panel.mode = .stopped := by
  obtain ⟨rfl, executed⟩ | ⟨same, -⟩ | same := turn_done token attempt machine later _ turned
  · have stopped := executing_halts token machine (congrArg Prod.snd executed)
    rw [executed] at stopped
    exact stopped
  · cases same
  · cases same

theorem settles_uninterrupted (token : Token) (count : Nat) (attempt : Attempt) (machine last : Machine)
    (result : Except Fault Outcome) (settles : Settles token count attempt machine result last)
    (unfired : machine.panel.isFired token = false) (ready : attempt.Ready machine)
    (going : attempt ≠ .done (.ok .interrupted)) : result ≠ .ok .interrupted := by
  induction settles with
  | done result machine => exact fun interrupted => going (congrArg done interrupted)
  | turn count attempt next machine later last result turned rest ih =>
      obtain still | rfl := turn_unfired token attempt next machine later turned unfired
      · refine ih still (turn_ready token attempt next machine later turned ready) ?_
        rintro rfl
        rw [turn_interrupted token attempt machine later ready turned] at unfired
        cases unfired
      · obtain ⟨-, rfl, -⟩ := settles_done token count _ result later last rest
        nofun

def turnsLeft : Attempt → Nat
  | .latch => 2 * Memory.size + 2
  | .look => 2 * Memory.size + 1
  | .await => 1
  | .handOver rest => 2 * rest.length + 2
  | .offer _ rest => 2 * rest.length + 3
  | .execute => 1
  | .endless => 0
  | .done _ => 0

-- A GETC that has found the queue empty goes back to the latch only if somebody has pushed a character since.
def Starved (attempt : Attempt) (machine : Machine) : Prop :=
  attempt = .await → machine.panel.keyboard.queue = #[]

theorem turn_approaches (token : Token) (attempt next : Attempt) (machine later : Machine)
    (turned : attempt.turn token machine = (later, some next)) (starved : attempt.Starved machine) :
    next.turnsLeft < attempt.turnsLeft ∧ next.Starved later := by
  cases attempt with
  | latch =>
      cases turned
      exact ⟨Nat.lt_succ_self _, nofun⟩
  | look =>
      cases turned
      obtain executes | endless | ⟨awaits, empty⟩ | ⟨text, hands, short⟩ := prospect_cases machine
      · rw [executes]
        exact ⟨by decide, nofun⟩
      · rw [endless]
        exact ⟨by decide, nofun⟩
      · rw [awaits]
        exact ⟨by decide, fun _ => empty⟩
      · rw [hands]
        exact ⟨by simp only [turnsLeft]; omega, nofun⟩
  | await =>
      -- the way back to the latch is the one for which somebody has to push
      obtain ⟨-, queued⟩ | ⟨rfl, -⟩ | ⟨rfl, -⟩ := awaiting_cases token machine.panel next (congrArg Prod.snd turned)
      · exact absurd (starved rfl) queued
      · exact ⟨Nat.succ_pos 0, nofun⟩
      · exact ⟨Nat.succ_pos 0, nofun⟩
  | handOver rest =>
      cases turned
      obtain same | ⟨same, -⟩ | ⟨char, left, rfl, same⟩ := handing_over_cases token machine.panel rest <;> rw [same]
      · exact ⟨Nat.lt_of_lt_of_le Nat.one_lt_two (Nat.le_add_left 2 _), nofun⟩
      · exact ⟨Nat.succ_pos _, nofun⟩
      · exact ⟨Nat.lt_succ_self _, nofun⟩
  | offer char rest =>
      obtain rfl | rfl | ⟨rfl, -⟩ := offering_goes token char rest machine.panel next (congrArg Prod.snd turned)
      · exact ⟨Nat.lt_succ_self _, nofun⟩
      · exact ⟨Nat.lt_of_lt_of_le (by decide) (Nat.le_add_left 3 _), nofun⟩
      · exact ⟨Nat.succ_pos _, nofun⟩
  | execute =>
      rw [turn_execute, (executing_seen token machine).1] at turned
      cases turned
      split <;> exact ⟨Nat.succ_pos 0, nofun⟩
  | endless => cases turned
  | done result => cases turned

theorem settles_bounded (token : Token) (count : Nat) (attempt : Attempt) (machine last : Machine)
    (result : Except Fault Outcome) (settles : Settles token count attempt machine result last)
    (starved : attempt.Starved machine) : count ≤ attempt.turnsLeft := by
  induction settles with
  | done result machine => exact Nat.zero_le _
  | turn count attempt next machine later last result turned rest ih =>
      obtain ⟨closer, still⟩ := turn_approaches token attempt next machine later turned starved
      exact Nat.lt_of_le_of_lt (ih still) closer

end Attempt

end LittleComputer
