import LittleComputer.Proofs.StepCall

set_option autoImplicit false

namespace LittleComputer

def Failed (result : Except Fault Outcome) : Prop := result ≠ .ok .retired ∧ result ≠ .ok .halted

namespace Attempt

def Began (core : Core) (attempt : Attempt) (machine : Machine) : Prop :=
  match attempt with
  | .latch => machine.core = core
  | .await => machine.core = core ∧ machine.panel.keyboard.queue = #[]
  | .endless => True
  | .done result =>
      Failed result → machine.core = core.shown machine.panel.keyboard.queue ∧
        (result = .ok .inputClosed → machine.panel.keyboard.queue = #[])
  | _ => machine.core = core.shown machine.panel.keyboard.queue

theorem interrupted_began (core : Core) (machine : Machine)
    (shown : machine.core = core.shown machine.panel.keyboard.queue) :
    Began core (.done (.ok .interrupted)) machine := fun _ => ⟨shown, nofun⟩

theorem look_began (core : Core) (machine : Machine) (shown : machine.core = core.shown machine.panel.keyboard.queue) :
    (prospect machine).Began core machine := by
  obtain executes | endless | ⟨awaits, empty⟩ | ⟨text, hands, -⟩ := prospect_cases machine
  · rw [executes]
    exact shown
  · rw [endless]
    trivial
  · rw [awaits]
    refine ⟨?_, empty⟩
    rw [empty] at shown
    exact shown
  · rw [hands]
    exact shown

theorem execute_began (core : Core) (token : Token) (machine : Machine) (ready : Ready .execute machine)
    (shown : machine.core = core.shown machine.panel.keyboard.queue) :
    (executing token machine).2.Began core (executing token machine).1 := by
  cases answer : (executing token machine).2 with
  | done result =>
      intro failed
      obtain ⟨fault, rfl, same, keyboard⟩ | retired | halted := executing_results token machine result ready answer
      · rw [same, keyboard]
        exact ⟨shown, nofun⟩
      · exact absurd retired failed.1
      · exact absurd halted failed.2
  | endless => trivial
  | _ =>
      rw [(executing_seen token machine).1] at answer
      split at answer <;> cases answer

theorem turn_began (core : Core) (token : Token) (attempt next : Attempt) (machine later : Machine)
    (turned : attempt.turn token machine = (later, some next)) (ready : attempt.Ready machine)
    (began : attempt.Began core machine) : next.Began core later := by
  cases attempt with
  | latch =>
      rw [turn, Machine.latch_keyboard_shown] at turned
      cases turned
      exact congrArg (Core.shown · machine.panel.keyboard.queue) began
  | look =>
      cases turned
      exact look_began core machine began
  | await =>
      obtain ⟨same, empty⟩ := began
      have shown : machine.core = core.shown machine.panel.keyboard.queue := by rw [empty]; exact same
      obtain ⟨rfl, goes⟩ := Prod.mk.inj turned
      obtain ⟨rfl, -⟩ | ⟨rfl, -⟩ | ⟨rfl, -⟩ := awaiting_cases token machine.panel next goes
      · exact same
      · exact interrupted_began core machine shown
      · exact fun _ => ⟨shown, fun _ => empty⟩
  | handOver rest =>
      cases turned
      obtain same | ⟨same, -⟩ | ⟨char, left, -, same⟩ := handing_over_cases token machine.panel rest <;> rw [same]
      · exact began
      · exact interrupted_began core machine began
      · exact began
  | offer char rest =>
      rw [turn_offer] at turned
      obtain ⟨rfl, goes⟩ := Prod.mk.inj turned
      obtain ⟨sink, kept⟩ := offering_keeps token char rest machine.panel
      rw [kept]
      obtain rfl | rfl | ⟨rfl, -⟩ := offering_goes token char rest machine.panel next goes
      · exact began
      · exact began
      · exact interrupted_began core _ began
  | execute =>
      rw [turn_execute] at turned
      obtain ⟨rfl, goes⟩ := Prod.mk.inj turned
      obtain rfl := Option.some.inj goes
      exact execute_began core token machine ready began
  | endless => cases turned
  | done result => cases turned

theorem fault_settles (token : Token) (machine : Machine) (shown : Core) (fault : Fault)
    (latched : shown = machine.core.shown machine.panel.keyboard.queue)
    (decoded : Instruction.decode shown.word = .error fault) :
    Settles token 3 .latch machine (.error fault) { machine with core := shown } := by
  have shows : machine.latchKeyboard = { machine with core := shown } := by
    rw [machine.latch_keyboard_shown, latched]
  have fails :
      executing token { machine with core := shown } = ({ machine with core := shown }, done (.error fault)) := by
    unfold executing
    rw [Core.step_fault _ shown _ fault decoded]
  have executes : prospect { machine with core := shown } = .execute := prospect_fault _ fault decoded
  refine .turn 2 .latch .look machine _ _ _ (congrArg (fun later => (later, some look)) shows) ?_
  refine .turn 1 .look .execute _ _ _ _ (congrArg (fun next => (_, some next)) executes) ?_
  refine .turn 0 .execute _ _ _ _ _ ?_ (.done _ _)
  rw [turn_execute, fails]

end Attempt

namespace StepCall

def Began (core : Core) (call : StepCall) (machine : Machine) : Prop :=
  match call with
  | .filling _ => machine.core = core
  | .queueing _ => machine.core = core
  | .attempting _ _ attempt => attempt.Ready machine ∧ attempt.Began core machine
  | .receiving _ => machine.core = core ∧ machine.panel.keyboard.queue = #[]
  | .received _ _ => machine.core = core ∧ machine.panel.keyboard.queue = #[]
  | .returned result => Attempt.Began core (.done result) machine

theorem leave_queue (linked : Bool) (panel : Panel) : (leave linked panel).keyboard.queue = panel.keyboard.queue := by
  have cleared := (Panel.clear_fired_same (if linked then panel.returnSource else panel)).queue
  cases linked <;> exact cleared

theorem fill_began (core : Core) (machine : Machine) (began : machine.core = core) :
    (fill machine.panel).2.Began core { machine with panel := (fill machine.panel).1 } := by
  unfold fill
  rcases machine.panel.takeChar with ⟨_ | _ | _, after⟩
  · exact began
  · exact ⟨trivial, began⟩
  · exact ⟨trivial, began⟩

theorem receive_began (core : Core) (token : Token) (machine : Machine)
    (began : Began core (.receiving token) machine) :
    ((receive token machine.panel).2.getD (.receiving token)).Began core
      { machine with panel := (receive token machine.panel).1 } := by
  obtain ⟨same, empty⟩ := began
  have shown : machine.core = core.shown #[] := same
  have kept : machine.panel.takeChar.2.keyboard.queue = #[] :=
    (congrArg Keyboard.queue (Panel.keyboard_take_char machine.panel)).trans empty
  unfold receive
  generalize machine.panel.takeChar = answer at kept ⊢
  rcases answer with ⟨_ | _ | _, after⟩
  · exact ⟨same, kept⟩
  · dsimp only at kept ⊢
    cases after.isFired token with
    | true =>
        refine ⟨trivial, Attempt.interrupted_began core _ ?_⟩
        rw [kept]
        exact shown
    | false => exact ⟨same, kept⟩
  · refine ⟨trivial, fun _ => ⟨?_, fun _ => kept⟩⟩
    have nothing : (after.setClosed true).keyboard.queue = #[] := kept
    rw [nothing]
    exact shown

theorem turn_began (core : Core) (call : StepCall) (machine : Machine) (began : call.Began core machine) :
    ((call.turn machine).2.getD call).Began core (call.turn machine).1 := by
  cases call with
  | filling linked =>
      cases linked with
      | true => exact fill_began core machine began
      | false => exact ⟨trivial, began⟩
  | queueing char => exact began
  | receiving token => exact receive_began core token machine began
  | received token char =>
      obtain ⟨same, -⟩ := began
      simp only [turn, queue, Option.getD_some]
      cases empty : (machine.panel.type char).keyboard.queue.isEmpty with
      | true => exact ⟨trivial, same, by simpa using empty⟩
      | false => exact ⟨trivial, same⟩
  | returned result => exact began
  | attempting token linked attempt =>
      obtain ⟨ready, began⟩ := began
      obtain ⟨result, rfl⟩ | ⟨rfl, rfl⟩ | turned := Call.attempting_cases token linked attempt machine
      · have left : Attempt.Began core (.done result) { machine with panel := leave linked machine.panel } := by
          intro failed
          rw [leave_queue linked machine.panel]
          exact began failed
        cases linked <;> exact left
      · obtain ⟨same, empty⟩ := began
        simp only [turn, await, Option.getD_some]
        cases machine.panel.isFired token with
        | true =>
            refine ⟨trivial, Attempt.interrupted_began core machine ?_⟩
            rw [empty]
            exact same
        | false => exact ⟨same, empty⟩
      · rw [turned]
        rcases step : attempt.turn token machine with ⟨later, _ | next⟩
        · obtain rfl := Attempt.turn_waits token attempt machine later step
          exact ⟨ready, began⟩
        · exact ⟨Attempt.turn_ready token attempt next machine later step ready,
            Attempt.turn_began core token attempt next machine later step ready began⟩

theorem began_same (core : Core) (call : StepCall) (machine other : Machine) (began : call.Began core machine)
    (same : other.core = machine.core) (queue : other.panel.keyboard.queue = machine.panel.keyboard.queue) :
    call.Began core other := by
  cases call with
  | attempting token linked attempt =>
      cases attempt <;> simpa only [Began, Attempt.Ready, Attempt.Began, same, queue] using began
  | _ => simpa only [Began, Attempt.Began, same, queue] using began

end StepCall

namespace World

structure Stepping (core : Core) (world : World) : Prop where
  called : ∃ call, world.call = .step call ∧ call.Began core world.machine

def Calls (action : Action) : Prop := action = .step ∨ ∃ token, action = .start token

theorem main_stepping (core : Core) (world : World) (stepping : world.Stepping core) : world.main.Stepping core := by
  rcases world with ⟨machine, call, unsent, hangsUp, tokens, history⟩
  obtain ⟨call, rfl, began⟩ := stepping.called
  exact ⟨(call.turn machine).2.getD call, rfl, StepCall.turn_began core call machine began⟩

theorem act_stepping (core : Core) (world : World) (action : Action) (other : ¬Calls action)
    (stepping : world.Stepping core) : (world.act action).Stepping core := by
  obtain ⟨call, called, began⟩ := stepping.called
  have beside (next : World) (same : next.call = world.call) (kept : next.machine.core = world.machine.core)
      (queue : next.machine.panel.keyboard.queue = world.machine.panel.keyboard.queue) : next.Stepping core :=
    ⟨call, same.trans called, StepCall.began_same core call world.machine next.machine began kept queue⟩
  cases action with
  | task task =>
      obtain rfl | rfl | ⟨source, sink, unsent, sent, turned⟩ := perform_cases world task
      · exact main_stepping core world stepping
      · have idle : world.drain = world := drain_inactive world fun _ _ _ active => by
          rw [called] at active
          cases active
        exact beside world.drain (by rw [idle]) (by rw [idle]) (by rw [idle])
      · rw [act, turned]
        exact beside _ rfl rfl rfl
  | step => exact absurd (.inl rfl) other
  | start token => exact absurd (.inr ⟨token, rfl⟩) other
  | cancel token =>
      unfold act
      dsimp only
      split
      · exact beside _ rfl rfl rfl
      · exact stepping
  | fireSlot => exact beside _ rfl rfl (Panel.fire_slot_same world.machine.panel).queue
  | _ => exact beside _ rfl rfl rfl

theorem run_stepping (core : Core) (world : World) (actions : List Action) (others : ∀ action ∈ actions, ¬Calls action)
    (stepping : world.Stepping core) : (world.run actions).Stepping core := by
  induction actions generalizing world with
  | nil => exact stepping
  | cons action rest ih =>
      exact ih (world.act action) (fun later member => others later (List.mem_cons_of_mem _ member))
        (act_stepping core world action (others action List.mem_cons_self) stepping)

theorem entered_stepping (world : World) (free : world.call.finished = true) :
    world.step.Stepping world.machine.core := by
  unfold World.step
  rw [if_pos free]
  unfold StepCall.enter
  rcases world.machine.panel.takeSource with ⟨linked, after⟩
  exact ⟨.filling linked, rfl, rfl⟩

/-- A step that fails, is interrupted or finds its input closed has changed no more than the two keyboard registers, and
these just as the latch does. So it leaves everything as it was only if there was no character to show, or there was one
on show already. What the others do meanwhile makes no difference. -/
theorem failed_step_shows (world : World) (actions : List Action) (result : Except Fault Outcome)
    (free : world.call.finished = true) (others : ∀ action ∈ actions, ¬Calls action)
    (returned : (world.step.run actions).call = .step (.returned result)) (failed : Failed result) :
    let before := world.machine.core
    let after := (world.step.run actions).machine
    after.core = before.shown after.panel.keyboard.queue ∧
      after.core.registers = before.registers ∧ after.core.keyRead = before.keyRead ∧
      (∀ address, Address.isDevice address = false → after.core.load address = before.load address) ∧
      (result = .ok .inputClosed → after.panel.keyboard.queue = #[]) ∧
      (after.core = before ↔ before.keyLatched = true ∨ after.panel.keyboard.queue = #[]) := by
  intro before after
  obtain ⟨call, called, began⟩ := (run_stepping _ _ actions others (entered_stepping world free)).called
  cases called.symm.trans returned
  obtain ⟨shown, closed⟩ := began failed
  have kept : after.core.registers = before.registers ∧ after.core.keyRead = before.keyRead := by
    obtain ⟨-, same⟩ | ⟨-, -, code, shows⟩ := before.shown_cases after.panel.keyboard.queue
    · rw [shown, same]
      exact ⟨rfl, rfl⟩
    · rw [shown, shows]
      exact ⟨rfl, rfl⟩
  refine ⟨shown, kept.1, kept.2, fun address apart => ?_, closed, ?_⟩
  · rw [shown]
    exact before.shown_read _ address apart
  · rw [shown]
    exact before.shown_same _

end World

theorem fault_step (machine : Machine) (finished : machine.panel.Finished) (shown : Core) (fault : Fault)
    (latched : shown = machine.core.shown machine.panel.drained.keyboard.queue)
    (decoded : Instruction.decode shown.word = .error fault) :
    ∃ last, machine.step = (last, .returned (.error fault)) ∧ last.core = shown := by
  obtain ⟨core, -, keyboard, -⟩ := begun_sees machine.drained
  have same : shown = machine.drained.begun.2.core.shown machine.drained.begun.2.panel.keyboard.queue := by
    rw [core, keyboard]
    exact latched
  have settles := Attempt.fault_settles machine.drained.begun.1 machine.drained.begun.2 shown fault same decoded
  exact ⟨_, StepCall.step_returns machine _ finished 3 _ settles, (left_alike _).core.symm⟩

def jammed (memory : Memory) : Machine := { core := { memory }, panel := { keyboard := { queue := #[0x61] } } }

def jammedMemory : Memory := Memory.zero.write 0 0xD000

theorem jammed_shown (memory : Memory) (first : memory.read 0 = 0xD000) (clear : memory.read 0xFE00 = 0) :
    (jammed memory).core.shown #[0x61] ≠ (jammed memory).core ∧
      Instruction.decode ((jammed memory).core.shown #[0x61]).word = .error (.opcode 0xD000) := by
  have unlatched : (jammed memory).core.keyLatched = false := by
    simp [jammed, Core.keyLatched, Address.keyboardStatus, clear]
  have word : ((jammed memory).core.shown #[0x61]).word = 0xD000 := by
    simp [Core.shown, unlatched, Core.latch, Core.store, Core.word, Memory.read_write, Address.keyboardStatus,
      Address.keyboardData]
    simp [jammed, first]
  refine ⟨fun same => ?_, by rw [word]; rfl⟩
  obtain latched | empty := ((jammed memory).core.shown_same #[0x61]).mp same
  · rw [unlatched] at latched
    cases latched
  · cases empty

theorem jammed_step_changes :
    ∃ last, (jammed jammedMemory).step = (last, .returned (.error (.opcode 0xD000))) ∧
      last.core ≠ (jammed jammedMemory).core := by
  have first : jammedMemory.read 0 = 0xD000 := by simp [jammedMemory, Memory.read_write]
  have clear : jammedMemory.read 0xFE00 = 0 := by simp [jammedMemory, Memory.read_write, Memory.read_zero]
  obtain ⟨changed, decoded⟩ := jammed_shown jammedMemory first clear
  obtain ⟨last, step, shown⟩ := fault_step (jammed jammedMemory) ⟨nofun, nofun⟩ _ _ rfl decoded
  exact ⟨last, step, shown ▸ changed⟩

namespace World

open Turns

theorem jammed_returns (memory : Memory) (first : memory.read 0 = 0xD000) (clear : memory.read 0xFE00 = 0) :
    ((World.step { machine := jammed memory }).run (List.replicate 5 (.task .main))).call =
      .step (.returned (.error (.opcode 0xD000))) := by
  have reserved : Instruction.decode 0xD000 = .error (.opcode 0xD000) := rfl
  simp [jammed, List.replicate, first, clear, reserved]

theorem failed_step_shows_fault :
    let world := (World.step { machine := jammed jammedMemory }).run (List.replicate 5 (.task .main))
    world.call = .step (.returned (.error (.opcode 0xD000))) ∧
      world.machine.core.registers = (jammed jammedMemory).core.registers ∧
      world.machine.core = (jammed jammedMemory).core.shown world.machine.panel.keyboard.queue := by
  have first : jammedMemory.read 0 = 0xD000 := by simp [jammedMemory, Memory.read_write]
  have clear : jammedMemory.read 0xFE00 = 0 := by simp [jammedMemory, Memory.read_write, Memory.read_zero]
  have returns := jammed_returns jammedMemory first clear
  have shows := failed_step_shows { machine := jammed jammedMemory } (List.replicate 5 (.task .main)) _ rfl
    (by simp [Calls]) returns ⟨nofun, nofun⟩
  exact ⟨returns, shows.2.1, shows.1⟩

end World

end LittleComputer
