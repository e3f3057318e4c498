import LittleComputer.Proofs.FailedStep
import LittleComputer.Proofs.KeyboardLatch
import LittleComputer.Proofs.Moves

set_option autoImplicit false

namespace LittleComputer

namespace Core

theorem serve_outputs {σ : Type} (console : Console σ) (core : Core) (service : Service) (next : Word) (state : σ) :
    (core.serve console service next state).1 ≠ none ↔ core.output? service ≠ none := by
  cases service with
  | puts => cases output : core.output? .puts <;> simp [serve, output]
  | _ => simp [serve, output?]

theorem step_outputs {σ : Type} (console : Console σ) (core : Core) (service : Service) (state : σ)
    (decoded : Instruction.decode core.word = .ok (.trap service)) :
    (core.step console state).1 ≠ none ↔ core.output? service ≠ none := by
  rw [← serve_outputs console core service (core.registers.pc + 1) state, step_trap console core state service decoded]
  cases core.serve console service (core.registers.pc + 1) state with
  | mk answer rest => cases answer <;> simp

def Answers (core : Core) : Prop := Instruction.decode core.word = .ok (.trap .puts) → core.output? .puts ≠ none

def result (core : Core) : Except Fault Outcome :=
  match Instruction.decode core.word with
  | .error fault => .error fault
  | .ok (.trap .halt) => .ok .halted
  | .ok _ => .ok .retired

theorem answers_step {σ : Type} (console : Console σ) (core : Core) (state : σ) (answers : core.Answers) :
    (core.step console state).1 ≠ none := by
  obtain ⟨fault, decoded⟩ | ⟨service, decoded⟩ | ⟨instruction, decoded, plain⟩ := decode_cases core.word
  · rw [step_fault console core state fault decoded]
    nofun
  · refine (step_outputs console core service state decoded).mpr ?_
    cases service with
    | puts => exact answers decoded
    | _ => nofun
  · rw [step_plain console core state instruction decoded plain]
    nofun

theorem step_decodes {σ : Type} (console : Console σ) (core : Core) (state : σ) (fault : Fault)
    (fails : (core.step console state).1 = some (.error fault)) : Instruction.decode core.word = .error fault := by
  obtain ⟨other, decoded⟩ | ⟨service, decoded⟩ | ⟨instruction, decoded, plain⟩ := decode_cases core.word
  · rw [step_fault console core state other decoded] at fails
    cases fails
    exact decoded
  · rw [step_trap console core state service decoded] at fails
    generalize core.serve console service (core.registers.pc + 1) state = answer at fails
    rcases answer with ⟨_ | outcome, after, later⟩ <;> cases fails
  · rw [step_plain console core state instruction decoded plain] at fails
    cases fails

theorem step_result (core : Core) (keyboard : Keyboard) (answers : core.Answers)
    (ready : Instruction.decode core.word = .ok (.trap .getc) → keyboard.queue ≠ #[]) :
    (core.step Keyboard.console keyboard).1 = some core.result := by
  cases stepped : (core.step Keyboard.console keyboard).1 with
  | none => exact absurd stepped (core.answers_step _ _ answers)
  | some result =>
      refine congrArg some ?_
      unfold Core.result
      obtain ⟨fault, rfl, -⟩ | rfl | ⟨rfl, decoded⟩ | ⟨-, getc, empty⟩ := core.step_results keyboard result stepped
      · rw [core.step_decodes _ _ fault stepped]
      · split
        · rename_i fault decoded
          rw [step_fault _ _ _ fault decoded] at stepped
          cases stepped
        · rename_i decoded
          rw [step_trap _ _ _ _ decoded] at stepped
          cases stepped
        · rfl
      · rw [decoded]
      · exact absurd empty (ready getc)

def concluded (policy : Policy) (core : Core) : Except Fault Outcome → Core
  | .ok _ => core
  | .error _ =>
      match policy with
      | .halt => core
      | .continue => core.setPc (core.registers.pc + 1)

end Core

def Executed.result (executed : Executed) : Except Fault Outcome := executed.before.result

-- What the loop of a run does, with one `conclude` for each time round.
inductive Beat where
  | latch
  | execute (executed : Executed)
  | conclude (result : Except Fault Outcome)

namespace Beat

def executed? : Beat → Option Executed
  | .execute executed => some executed
  | _ => none

def result? : Beat → Option (Except Fault Outcome)
  | .conclude result => some result
  | _ => none

def executions (beats : List Beat) : List Executed := beats.filterMap executed?

def results (beats : List Beat) : List (Except Fault Outcome) := beats.filterMap result?

theorem executions_append (left right : List Beat) :
    executions (left ++ right) = executions left ++ executions right := List.filterMap_append

theorem results_append (left right : List Beat) : results (left ++ right) = results left ++ results right :=
  List.filterMap_append

def completes : Except Fault Outcome → Bool
  | .ok .retired => true
  | .ok .halted => true
  | _ => false

def reaches : Except Fault Outcome → Bool
  | .ok .interrupted => false
  | .ok .inputClosed => false
  | _ => true

end Beat

theorem Attempt.turn_keeps_fired (token other : Token) (attempt : Attempt) (machine : Machine)
    (fired : machine.panel.isFired other = true) : (attempt.turn token machine).1.panel.isFired other = true := by
  cases attempt with
  | execute =>
      have kept := Core.step_keeps (Panel.console token) (·.isFired other = true) (fun _ => id) (fun _ _ => id)
        (fun _ => id) (fun panel => panel.fire_keeps_fired token other) machine.core machine.panel fired
      rw [turn_execute]
      unfold executing
      generalize machine.core.step (Panel.console token) machine.panel = answer at kept ⊢
      rcases answer with ⟨_ | result, core, panel⟩ <;> exact kept
  | _ =>
      obtain same | halted := (turn_keeps token _ machine).2
      · exact (Panel.same_run_fired _ _ same other).trans fired
      · obtain ⟨same, -⟩ | ⟨same, -⟩ | same := turn_done token _ machine _ _ (Prod.ext rfl halted) <;> cases same

-- How the beats of a run take one core and queue to another. Characters may be queued at any time.
inductive Course (policy : Policy) (core : Core) (keyboard : Keyboard) : List Beat → Core → Keyboard → Prop where
  | start : Course policy core keyboard [] core keyboard
  | latches (beats : List Beat) (later : Core) (queued : Keyboard)
      (before : Course policy core keyboard beats later queued) :
      Course policy core keyboard (beats ++ [.latch]) (later.shown queued.queue) queued
  | executes (beats : List Beat) (later : Core) (queued left : Keyboard) (executed : Executed)
      (before : Course policy core keyboard beats later queued) (began : executed.before = later)
      (whole : later.step Keyboard.console queued = (some executed.result, executed.after, left)) :
      Course policy core keyboard (beats ++ [.execute executed]) executed.after left
  | concludes (beats : List Beat) (later : Core) (queued : Keyboard) (result : Except Fault Outcome)
      (before : Course policy core keyboard beats later queued)
      (failed : ∀ fault, result = .error fault → Instruction.decode later.word = .error fault) :
      Course policy core keyboard (beats ++ [.conclude result]) (later.concluded policy result) queued
  | types (beats : List Beat) (later : Core) (queued other : Keyboard) (more : List Word)
      (before : Course policy core keyboard beats later queued)
      (grown : other.queue.toList = queued.queue.toList ++ more) :
      Course policy core keyboard beats later other

theorem course_trans (policy : Policy) (core middle last : Core) (keyboard between left : Keyboard)
    (first second : List Beat) (before : Course policy core keyboard first middle between)
    (after : Course policy middle between second last left) :
    Course policy core keyboard (first ++ second) last left := by
  induction after with
  | start =>
      rw [List.append_nil]
      exact before
  | latches beats later queued _ ih =>
      rw [← List.append_assoc]
      exact .latches _ later queued ih
  | executes beats later queued left executed _ began whole ih =>
      rw [← List.append_assoc]
      exact .executes _ later queued left executed ih began whole
  | concludes beats later queued result _ failed ih =>
      rw [← List.append_assoc]
      exact .concludes _ later queued result ih failed
  | types beats later queued other more _ grown ih => exact .types _ later queued other more ih grown

namespace Attempt

def Answers (attempt : Attempt) (machine : Machine) : Prop :=
  match attempt with
  | .handOver _ => machine.core.Answers
  | .offer _ _ => machine.core.Answers
  | .execute => machine.core.Answers
  | _ => True

theorem prospect_answers (machine : Machine) : (prospect machine).Answers machine := by
  by_cases puts : Instruction.decode machine.core.word = .ok (.trap .puts)
  · have prospects := prospect_trap machine .puts puts
    cases output : machine.core.output? .puts with
    | none =>
        simp only [output] at prospects
        rw [prospects]
        trivial
    | some bytes =>
        simp only [output] at prospects
        rw [prospects]
        exact fun _ nothing => by cases output.symm.trans nothing
  · have answers : machine.core.Answers := fun same => absurd same puts
    cases prospect machine <;> first | exact answers | trivial

theorem turn_answers (token : Token) (attempt next : Attempt) (machine later : Machine)
    (turned : attempt.turn token machine = (later, some next)) (answers : attempt.Answers machine) :
    next.Answers later := by
  cases attempt with
  | latch =>
      cases turned
      trivial
  | look =>
      cases turned
      exact prospect_answers machine
  | await =>
      obtain ⟨rfl, -⟩ | ⟨rfl, -⟩ | ⟨rfl, -⟩ := awaiting_cases token machine.panel next (congrArg Prod.snd turned) <;>
        trivial
  | handOver rest =>
      cases turned
      obtain same | ⟨same, -⟩ | ⟨char, left, -, same⟩ := handing_over_cases token machine.panel rest <;> rw [same]
      · exact answers
      · trivial
      · exact answers
  | offer char rest =>
      rw [turn_offer] at turned
      obtain ⟨rfl, goes⟩ := Prod.mk.inj turned
      obtain rfl | rfl | ⟨rfl, -⟩ := offering_goes token char rest machine.panel next goes
      · exact answers
      · exact answers
      · trivial
  | execute =>
      rw [turn_execute, (executing_seen token machine).1] at turned
      obtain ⟨-, goes⟩ := Prod.mk.inj turned
      obtain rfl := Option.some.inj goes
      split <;> trivial
  | endless => cases turned
  | done result => cases turned

structure Sound (attempt : Attempt) (machine : Machine) : Prop where
  ready : attempt.Ready machine
  answers : attempt.Answers machine
  failed : ∀ fault, attempt = .done (.error fault) → Instruction.decode machine.core.word = .error fault

end Attempt

namespace Execution.Phase

def pending : Execution.Phase → List (Except Fault Outcome)
  | .attempt (.done result) => [result].filter Beat.reaches
  | _ => []

-- How often the loop still comes round before it looks at the token, and how many words are executed before that.
def rounds : Execution.Phase → Nat
  | .attempt _ => 1
  | _ => 0

def words : Execution.Phase → Nat
  | .attempt (.done _) => 0
  | .attempt _ => 1
  | _ => 0

def beats (token : Token) (machine : Machine) : Execution.Phase → List Beat
  | .attempt .latch => [.latch]
  | .attempt .execute => [.execute (machine.executed token)]
  | .attempt (.done result) => [.conclude result]
  | _ => []

def Sound (phase : Execution.Phase) (machine : Machine) : Prop :=
  ∀ attempt, phase = .attempt attempt → attempt.Sound machine

theorem rounds_bound (phase : Execution.Phase) : phase.rounds ≤ 1 := by
  cases phase with
  | attempt attempt => exact Nat.le_refl 1
  | _ => exact Nat.zero_le 1

theorem words_bound (phase : Execution.Phase) : phase.words ≤ 1 := by
  cases phase with
  | attempt attempt => cases attempt <;> first | exact Nat.le_refl 1 | exact Nat.zero_le 1
  | _ => exact Nat.zero_le 1

end Execution.Phase

structure Execution.Advances (token : Token) (machine later : Machine) (execution next : Execution) : Prop where
  course : Course machine.config.policy machine.core machine.panel.keyboard (execution.phase.beats token machine)
    later.core later.panel.keyboard
  steps : next.steps = execution.steps + (Beat.results (execution.phase.beats token machine)).countP Beat.completes
  balance : execution.phase.pending ++ (Beat.executions (execution.phase.beats token machine)).map Executed.result =
    (Beat.results (execution.phase.beats token machine)).filter Beat.reaches ++ next.phase.pending
  rounds : machine.panel.isFired token = true →
    (Beat.results (execution.phase.beats token machine)).length + next.phase.rounds ≤ execution.phase.rounds
  words : machine.panel.isFired token = true →
    (Beat.executions (execution.phase.beats token machine)).length + next.phase.words ≤ execution.phase.words
  sound : next.phase.Sound later
  config : later.config = machine.config

namespace Execution

variable (token : Token) (steps : Nat) (machine : Machine)

theorem sound_other (phase : Phase) (machine : Machine) (other : ∀ attempt, phase ≠ .attempt attempt) :
    phase.Sound machine := fun attempt same => absurd same (other attempt)

theorem conclude_core (result : Except Fault Outcome) :
    (conclude steps result machine).1 =
      { machine with core := machine.core.concluded machine.config.policy result } := by
  cases result with
  | ok outcome => cases outcome <;> rfl
  | error fault =>
      unfold conclude Core.concluded
      dsimp only
      cases machine.config.policy <;> rfl

theorem conclude_steps (result : Except Fault Outcome) :
    (conclude steps result machine).2.steps = steps + [result].countP Beat.completes := by
  cases result with
  | ok outcome => cases outcome <;> rfl
  | error fault =>
      unfold conclude
      dsimp only
      cases machine.config.policy <;> rfl

theorem conclude_advances (result : Except Fault Outcome) (sound : (Phase.attempt (.done result)).Sound machine) :
    Advances token machine (conclude steps result machine).1 ⟨steps, .attempt (.done result)⟩
      (conclude steps result machine).2 := by
  have leaves (attempt : Attempt) : (conclude steps result machine).2.phase ≠ .attempt attempt := by
    obtain check | ⟨ending, stops⟩ := conclude_phase steps result machine
    · rw [check]
      nofun
    · rw [stops]
      nofun
  have after : (conclude steps result machine).2.phase.pending = [] ∧
      (conclude steps result machine).2.phase.rounds = 0 ∧ (conclude steps result machine).2.phase.words = 0 := by
    generalize (conclude steps result machine).2.phase = phase at leaves
    cases phase with
    | attempt attempt => exact absurd rfl (leaves attempt)
    | _ => exact ⟨rfl, rfl, rfl⟩
  refine ⟨?_, conclude_steps steps machine result, ?_, fun _ => ?_, fun _ => ?_, sound_other _ _ leaves, ?_⟩
  · rw [conclude_core]
    exact .concludes [] machine.core machine.panel.keyboard result .start fun fault same =>
      (sound _ rfl).failed fault (congrArg Attempt.done same)
  · rw [after.1]
    rfl
  · rw [after.2.1]
    exact Nat.le_refl 1
  · rw [after.2.2]
    exact Nat.le_refl 0
  · rw [conclude_core]

theorem execute_advances (sound : Attempt.execute.Sound machine) :
    Advances token machine (Attempt.executing token machine).1 ⟨steps, .attempt .execute⟩
      ⟨steps, .attempt (Attempt.executing token machine).2⟩ := by
  obtain ⟨seen, core, keyboard, config⟩ := Attempt.executing_seen token machine
  have stepped := machine.core.step_result machine.panel.keyboard sound.answers sound.ready
  have after : (machine.executed token).after = (machine.core.step Keyboard.console machine.panel.keyboard).2.1 := by
    rw [← core, Attempt.executing_machine]
    rfl
  rw [stepped] at seen
  rw [seen]
  refine ⟨?_, rfl, ?_, fun _ => Nat.le_refl 1, fun _ => Nat.le_refl 1, ?_, config⟩
  · rw [core, keyboard, ← after]
    refine .executes [] machine.core machine.panel.keyboard _ (machine.executed token) .start rfl ?_
    rw [after]
    exact Prod.ext stepped rfl
  · show [machine.core.result] = [machine.core.result].filter Beat.reaches
    unfold Core.result
    split <;> rfl
  · intro attempt same
    cases same
    refine ⟨trivial, trivial, fun fault failed => ?_⟩
    have fails : (machine.core.step Keyboard.console machine.panel.keyboard).1 = some (.error fault) :=
      stepped.trans (congrArg some (Attempt.done.inj failed))
    have decoded := machine.core.step_decodes Keyboard.console machine.panel.keyboard fault fails
    have kept := machine.core.step_fault Keyboard.console machine.panel.keyboard fault decoded
    rw [core, kept]
    exact decoded

theorem turn_sound (attempt : Attempt) (sound : (Phase.attempt attempt).Sound machine)
    (unfailing : ∀ fault, (attempt.turn token machine).2.getD attempt ≠ .done (.error fault)) :
    (Phase.attempt ((attempt.turn token machine).2.getD attempt)).Sound (attempt.turn token machine).1 := by
  obtain ⟨ready, answers, failed⟩ := sound attempt rfl
  rcases turned : attempt.turn token machine with ⟨later, _ | next⟩
  · obtain rfl := Attempt.turn_waits token attempt machine later turned
    exact sound
  · rw [turned] at unfailing
    intro other same
    cases same
    exact ⟨Attempt.turn_ready token attempt next machine later turned ready,
      Attempt.turn_answers token attempt next machine later turned answers,
      fun fault failing => absurd failing (unfailing fault)⟩

theorem turn_gives_up (attempt : Attempt) (goes : ∀ result, attempt ≠ .done result) (other : attempt ≠ .execute)
    (result : Except Fault Outcome) (done : (attempt.turn token machine).2.getD attempt = .done result) :
    result = .ok .interrupted ∨ result = .ok .inputClosed := by
  rcases turned : attempt.turn token machine with ⟨later, _ | next⟩ <;> rw [turned] at done
  · exact absurd done (goes result)
  · cases done
    obtain ⟨executes, -⟩ | ⟨interrupted, -⟩ | closed := Attempt.turn_done token attempt machine later result turned
    · exact absurd executes other
    · exact .inl interrupted
    · exact .inr closed

theorem quiet_advances (attempt : Attempt) (sound : (Phase.attempt attempt).Sound machine)
    (goes : ∀ result, attempt ≠ .done result) (other : attempt ≠ .execute)
    (course : Course machine.config.policy machine.core machine.panel.keyboard
      ((Phase.attempt attempt).beats token machine) (attempt.turn token machine).1.core
      (attempt.turn token machine).1.panel.keyboard) :
    Advances token machine (attempt.turn token machine).1 ⟨steps, .attempt attempt⟩
      ⟨steps, .attempt ((attempt.turn token machine).2.getD attempt)⟩ := by
  have given := turn_gives_up token machine attempt goes other
  have unfailing (fault : Fault) : (attempt.turn token machine).2.getD attempt ≠ .done (.error fault) := by
    intro failed
    obtain same | same := given _ failed <;> cases same
  have pending : (Phase.attempt ((attempt.turn token machine).2.getD attempt)).pending = [] := by
    generalize (attempt.turn token machine).2.getD attempt = next at given
    cases next with
    | done result => obtain rfl | rfl := given result rfl <;> rfl
    | _ => rfl
  have quiet : (Phase.attempt attempt).pending = [] ∧ (Phase.attempt attempt).words = 1 ∧
      Beat.executions ((Phase.attempt attempt).beats token machine) = [] ∧
      Beat.results ((Phase.attempt attempt).beats token machine) = [] := by
    cases attempt with
    | execute => exact absurd rfl other
    | done result => exact absurd rfl (goes result)
    | _ => exact ⟨rfl, rfl, rfl, rfl⟩
  obtain ⟨nothing, words, executed, concluded⟩ := quiet
  refine ⟨course, ?_, ?_, fun _ => ?_, fun _ => ?_, turn_sound token machine attempt sound unfailing,
    (Attempt.turn_keeps token attempt machine).1.config⟩
  · rw [concluded]
    rfl
  · rw [nothing, executed, concluded, pending]
    rfl
  · rw [concluded]
    exact Nat.le_refl 1
  · rw [executed, words]
    exact Nat.le_trans (Nat.le_of_eq (Nat.zero_add _)) (Phase.words_bound _)

theorem attempt_advances (attempt : Attempt) (sound : (Phase.attempt attempt).Sound machine)
    (goes : ∀ result, attempt ≠ .done result) :
    Advances token machine (attempt.turn token machine).1 ⟨steps, .attempt attempt⟩
      ⟨steps, .attempt ((attempt.turn token machine).2.getD attempt)⟩ := by
  -- a latch and an execution are beats, every other turn is quiet
  have quiet := quiet_advances token steps machine attempt sound goes
  cases attempt with
  | latch =>
      apply quiet nofun
      rw [Attempt.turn, machine.latch_keyboard_shown]
      exact .latches [] machine.core machine.panel.keyboard .start
  | look => exact quiet nofun .start
  | await => exact quiet nofun .start
  | handOver rest => exact quiet nofun .start
  | offer char rest =>
      obtain ⟨sink, kept⟩ := Attempt.offering_keeps token char rest machine.panel
      apply quiet nofun
      rw [Attempt.turn_offer, kept]
      exact .start
  | execute => exact execute_advances token steps machine (sound .execute rfl)
  | endless => exact quiet nofun .start
  | done result => exact absurd rfl (goes result)

theorem turn_advances (execution : Execution) (sound : execution.phase.Sound machine) :
    Advances token machine (execution.turn token machine).1 execution
      ((execution.turn token machine).2.getD execution) := by
  rcases execution with ⟨steps, phase⟩
  cases phase with
  | check =>
      simp only [turn, Option.getD_some]
      cases fired : machine.panel.isFired token with
      | true =>
          exact ⟨.start, rfl, rfl, fun _ => Nat.le_refl 0, fun _ => Nat.le_refl 0, sound_other _ _ nofun, rfl⟩
      | false =>
          have unfired (now : machine.panel.isFired token = true) : False := by cases fired.symm.trans now
          refine ⟨.start, rfl, rfl, fun now => (unfired now).elim, fun now => (unfired now).elim,
            fun attempt goes => ?_, rfl⟩
          cases goes
          exact ⟨trivial, trivial, nofun⟩
  | stopping ending =>
      exact ⟨.start, rfl, rfl, fun _ => Nat.le_refl 0, fun _ => Nat.le_refl 0, sound_other _ _ nofun, rfl⟩
  | ended ending =>
      exact ⟨.start, rfl, rfl, fun _ => Nat.le_refl 0, fun _ => Nat.le_refl 0, sound_other _ _ nofun, rfl⟩
  | attempt attempt =>
      by_cases finished : ∃ result, attempt = .done result
      · obtain ⟨result, rfl⟩ := finished
        exact conclude_advances token steps machine result sound
      · have goes (result : Except Fault Outcome) : attempt ≠ .done result := fun same => finished ⟨result, same⟩
        obtain ⟨turned, next⟩ := Call.execution_goes token steps attempt machine goes
        rw [turned, next]
        exact attempt_advances token steps machine attempt sound goes

end Execution

namespace Call

def phase : Call → Execution.Phase
  | .run (.active _ execution _) => execution.phase
  | .run (.returned report) => .ended report.ending
  | _ => .check

def steps : Call → Nat
  | .run (.active _ execution _) => execution.steps
  | .run (.returned report) => report.steps
  | _ => 0

def beats (machine : Machine) : Call → List Beat
  | .run (.active token execution _) => execution.phase.beats token machine
  | _ => []

theorem active_executions (token : Token) (execution : Execution) (drain : Drain) (machine : Machine) :
    machine.executes (Call.run (.active token execution drain)).attempt? =
      Beat.executions (execution.phase.beats token machine) := by
  rcases execution with ⟨steps, phase⟩
  cases phase with
  | attempt attempt => cases attempt <;> rfl
  | _ => rfl

end Call

namespace World

def beats (world : World) : List Action → List Beat
  | [] => []
  | action :: rest =>
      (if action = .task .main then world.call.beats world.machine else []) ++ (world.act action).beats rest

inductive Serves (token : Token) (world : World) : Prop where
  | entering (called : world.call = .run (.entering token))
  | active (execution : Execution) (drain : Drain) (called : world.call = .run (.active token execution drain))
      (sound : execution.phase.Sound world.machine)
  | returned (report : RunReport) (called : world.call = .run (.returned report))

structure Progress (token : Token) (world next : World) (beats : List Beat) : Prop where
  course : Course world.machine.config.policy world.machine.core world.machine.panel.keyboard beats
    next.machine.core next.machine.panel.keyboard
  history : next.history.executed = world.history.executed ++ Beat.executions beats
  steps : next.call.steps = world.call.steps + (Beat.results beats).countP Beat.completes
  balance : world.call.phase.pending ++ (Beat.executions beats).map Executed.result =
    (Beat.results beats).filter Beat.reaches ++ next.call.phase.pending
  rounds : world.machine.panel.isFired token = true →
    (Beat.results beats).length + next.call.phase.rounds ≤ world.call.phase.rounds
  words : world.machine.panel.isFired token = true →
    (Beat.executions beats).length + next.call.phase.words ≤ world.call.phase.words
  config : next.machine.config = world.machine.config
  fired : world.machine.panel.isFired token = true → next.machine.panel.isFired token = true
  serves : next.Serves token

variable {token : Token}

theorem main_fired (world : World) (other : Token) (fired : world.machine.panel.isFired other = true) :
    world.main.machine.panel.isFired other = true := by
  cases main_moves world with
  | turns token attempt attempting goes turned attempts =>
      rw [turned]
      exact Attempt.turn_keeps_fired token other attempt world.machine fired
  | waits panel stands turned kept goes =>
      rw [turned]
      exact kept.fired other fired
  | idles stands goes kept => exact kept.fired other fired

theorem beside_progress (token : Token) (world next : World) (more : List Word)
    (core : next.machine.core = world.machine.core)
    (grown : next.machine.panel.keyboard.queue.toList = world.machine.panel.keyboard.queue.toList ++ more)
    (executed : next.history.executed = world.history.executed) (steps : next.call.steps = world.call.steps)
    (phase : next.call.phase = world.call.phase) (config : next.machine.config = world.machine.config)
    (fired : world.machine.panel.isFired token = true → next.machine.panel.isFired token = true)
    (serves : next.Serves token) : world.Progress token next [] where
  course := by
    rw [core]
    exact .types [] _ _ _ more .start grown
  history := executed.trans (List.append_nil _).symm
  steps := steps
  balance := by
    rw [phase]
    exact List.append_nil _
  rounds _ := by
    rw [phase]
    exact Nat.le_of_eq (Nat.zero_add _)
  words _ := by
    rw [phase]
    exact Nat.le_of_eq (Nat.zero_add _)
  config := config
  fired := fired
  serves := serves

theorem enter_run (token : Token) (panel : Panel) :
    panel.SameRun (RunCall.enter token panel).1 ∧
      (RunCall.enter token panel).1.keyboard.queue = panel.keyboard.queue ∧
      ∃ drain, (RunCall.enter token panel).2 = .active token {} drain := by
  have run := panel.take_source_run
  have keyboard := congrArg Keyboard.queue panel.keyboard_take_source
  unfold RunCall.enter
  generalize panel.takeSource = answer at run keyboard ⊢
  exact ⟨⟨run.mode, run.slot, run.signals⟩, keyboard, _, rfl⟩

theorem main_progress (world : World) (serves : world.Serves token) :
    world.Progress token world.main (world.call.beats world.machine) := by
  have fired := main_fired world token
  have executed := main_executed world
  cases serves with
  | entering called =>
      obtain ⟨-, queue, drain, enters⟩ := enter_run token world.machine.panel
      rw [entering_main world called, enters] at fired ⊢
      rw [called]
      exact beside_progress token world _ [] rfl (by rw [queue, List.append_nil]) rfl (by rw [called]; rfl)
        (by rw [called]; rfl) rfl fired (.active {} drain rfl (Execution.sound_other _ _ nofun))
  | returned report called =>
      rw [returned_main world report called, called]
      exact beside_progress token world world [] rfl (List.append_nil _).symm rfl rfl rfl rfl id
        (.returned report called)
  | active execution drain called sound =>
      rw [called] at executed ⊢
      rw [Call.active_executions] at executed
      cases active_main world execution drain called with
      | returns steps ending linked past drained turned =>
          subst past
          rw [turned] at fired ⊢
          exact beside_progress token world _ [] rfl (by cases linked <;> exact (List.append_nil _).symm) rfl
            (by rw [called]; rfl) (by rw [called]; rfl) rfl fired (.returned ⟨steps, ending⟩ rfl)
      | executes apart turned =>
          have advances := Execution.turn_advances token world.machine execution sound
          rw [turned] at fired executed ⊢
          refine ⟨advances.course, executed, ?_, ?_, ?_, ?_, advances.config, fired, .active _ drain rfl advances.sound⟩
          · rw [called]
            exact advances.steps
          · rw [called]
            exact advances.balance
          · rw [called]
            exact advances.rounds
          · rw [called]
            exact advances.words

theorem progress_trans (world middle next : World) (beats more : List Beat)
    (first : world.Progress token middle beats) (second : middle.Progress token next more) :
    world.Progress token next (beats ++ more) where
  course := course_trans _ _ _ _ _ _ _ _ _ first.course (first.config ▸ second.course)
  history := by rw [second.history, first.history, Beat.executions_append, List.append_assoc]
  steps := by rw [second.steps, first.steps, Beat.results_append, List.countP_append, Nat.add_assoc]
  balance := by
    rw [Beat.executions_append, Beat.results_append, List.map_append, List.filter_append, ← List.append_assoc,
      first.balance, List.append_assoc, second.balance, List.append_assoc]
  rounds fired := by
    have before := first.rounds fired
    have after := second.rounds (first.fired fired)
    rw [Beat.results_append, List.length_append]
    omega
  words fired := by
    have before := first.words fired
    have after := second.words (first.fired fired)
    rw [Beat.executions_append, List.length_append]
    omega
  config := second.config.trans first.config
  fired fired := second.fired (first.fired fired)
  serves := second.serves

structure Leaves (world next : World) : Prop where
  call : next.call = world.call ∨ ∃ token execution drain later, world.call = .run (.active token execution drain) ∧
    next.call = .run (.active token execution later)
  config : next.machine.config = world.machine.config

theorem act_leaves (world : World) (action : Action) (other : action ≠ .task .main) (alone : ¬Calls action) :
    world.Leaves (world.act action) := by
  cases action with
  | task task =>
      obtain rfl | rfl | ⟨source, sink, unsent, sent, turned⟩ := perform_cases world task
      · exact absurd rfl other
      · show world.Leaves world.drain
        obtain same | ⟨token, execution, drain, called, turned⟩ := drain_cases world
        · rw [same]
          exact ⟨.inl rfl, rfl⟩
        · rw [turned]
          exact ⟨.inr ⟨token, execution, drain, _, called, rfl⟩, rfl⟩
      · rw [act, turned]
        exact ⟨.inl rfl, rfl⟩
  | step => exact absurd (.inl rfl) alone
  | start token => exact absurd (.inr ⟨token, rfl⟩) alone
  | cancel token =>
      unfold act
      dsimp only
      split <;> exact ⟨.inl rfl, rfl⟩
  | _ => exact ⟨.inl rfl, rfl⟩

theorem sound_grown (phase : Execution.Phase) (world next : World) (quiet : world.Quiet next)
    (sound : phase.Sound world.machine) : phase.Sound next.machine := by
  intro attempt same
  obtain ⟨ready, answers, failed⟩ := sound attempt same
  obtain ⟨more, grown⟩ := quiet.queue
  have core := quiet.core
  refine ⟨?_, ?_, fun fault failing => ?_⟩
  · cases attempt with
    | execute =>
        intro getc empty
        rw [core] at getc
        rw [empty] at grown
        have both := List.append_eq_nil_iff.mp grown.symm
        exact ready getc (by simpa using both.1)
    | handOver rest =>
        unfold Attempt.Ready at ready ⊢
        rwa [core]
    | offer char rest =>
        unfold Attempt.Ready at ready ⊢
        rwa [core]
    | _ => trivial
  · unfold Attempt.Answers at answers ⊢
    rwa [core]
  · rw [core]
    exact failed fault failing

theorem act_progress (world : World) (action : Action) (alone : ¬Calls action) (serves : world.Serves token) :
    world.Progress token (world.act action)
      (if action = .task .main then world.call.beats world.machine else []) := by
  by_cases main : action = .task .main
  · rw [if_pos main]
    subst main
    exact main_progress world serves
  · have quiet := act_quiet world action main
    have fired := (act_beside world action main).fired token
    have leaves := act_leaves world action main alone
    obtain ⟨more, grown⟩ := quiet.queue
    have beside := beside_progress token world (world.act action) more quiet.core grown quiet.executed
    rw [if_neg main]
    obtain same | ⟨other, execution, drain, later, called, goes⟩ := leaves.call
    · refine beside (congrArg Call.steps same) (congrArg Call.phase same) leaves.config fired ?_
      cases serves with
      | entering called => exact .entering (same.trans called)
      | active execution drain called sound =>
          exact .active execution drain (same.trans called) (sound_grown _ world _ quiet sound)
      | returned report called => exact .returned report (same.trans called)
    · refine beside (by rw [goes, called]; rfl) (by rw [goes, called]; rfl) leaves.config fired ?_
      cases serves with
      | entering entered => cases called.symm.trans entered
      | active _ _ active sound =>
          cases called.symm.trans active
          exact .active execution later goes (sound_grown _ world _ quiet sound)
      | returned report returned => cases called.symm.trans returned

theorem run_progress (world : World) (actions : List Action) (alone : ∀ action ∈ actions, ¬Calls action)
    (serves : world.Serves token) : world.Progress token (world.run actions) (world.beats actions) := by
  induction actions generalizing world with
  | nil => exact beside_progress token world world [] rfl (List.append_nil _).symm rfl rfl rfl rfl id serves
  | cons action rest ih =>
      have first := act_progress world action (alone action List.mem_cons_self) serves
      have second := ih (world.act action) (fun later member => alone later (List.mem_cons_of_mem _ member))
        first.serves
      exact progress_trans world (world.act action) _ _ _ first second

def Fires (token : Token) (world : World) (action : Action) : Prop :=
  action = .cancel token ∨ (action = .fireSlot ∧ world.machine.panel.slot = some token)

end World

def Call.loops : Call → Bool
  | .run (.entering _) => true
  | .run (.active _ ⟨_, .check⟩ _) => true
  | .run (.active _ ⟨_, .attempt _⟩ _) => true
  | _ => false

def Execution.Phase.givenUp : Execution.Phase → Bool
  | .attempt (.done (.ok .interrupted)) => true
  | .stopping .cancelled => true
  | .ended .cancelled => true
  | _ => false

namespace World

-- The token has fired, not by the run itself, or the run has been given up.
inductive Suspect (token : Token) (world : World) : Prop where
  | entering (called : world.call = .run (.entering token)) (fired : world.machine.panel.isFired token = true)
  | fired (execution : Execution) (drain : Drain) (called : world.call = .run (.active token execution drain))
      (goes : execution.phase.finishing = false) (fired : world.machine.panel.isFired token = true)
  | givenUp (execution : Execution) (drain : Drain) (called : world.call = .run (.active token execution drain))
      (gone : execution.phase.givenUp = true)
  | returned (report : RunReport) (called : world.call = .run (.returned report)) (gone : report.ending = .cancelled)

end World

namespace Execution

variable (token : Token) (steps : Nat) (machine : Machine)

theorem unfinishing (attempt : Attempt) (goes : ∀ result, attempt ≠ .done result) :
    (Phase.attempt attempt).finishing = false := by
  cases attempt with
  | done result => exact absurd rfl (goes result)
  | _ => rfl

theorem given_up_attempt (attempt : Attempt) (gone : (Phase.attempt attempt).givenUp = true) :
    attempt = .done (.ok .interrupted) := by
  unfold Phase.givenUp at gone
  split at gone
  · rename_i same
    exact Phase.attempt.inj same
  · rename_i same
    cases same
  · rename_i same
    cases same
  · cases gone

theorem conclude_suspect (result : Except Fault Outcome)
    (later : ((conclude steps result machine).2.phase.finishing = false ∧ machine.panel.isFired token = true) ∨
      (conclude steps result machine).2.phase.givenUp = true) :
    ((Phase.attempt (.done result)).finishing = false ∧ machine.panel.isFired token = true) ∨
      (Phase.attempt (.done result)).givenUp = true := by
  rcases result with fault | _ | _ | _ | _
  · cases policy : machine.config.policy with
    | halt =>
        rw [conclude_halt steps fault machine policy] at later
        obtain ⟨now, -⟩ | now := later <;> cases now
    | «continue» =>
        rw [conclude_continue steps fault machine policy] at later
        obtain ⟨-, fired⟩ | now := later
        · exact .inl ⟨rfl, fired⟩
        · cases now
  · obtain ⟨-, fired⟩ | now := later
    · exact .inl ⟨rfl, fired⟩
    · cases now
  · obtain ⟨now, -⟩ | now := later <;> cases now
  · exact .inr rfl
  · obtain ⟨now, -⟩ | now := later <;> cases now

theorem attempt_suspect (attempt : Attempt) (sound : (Phase.attempt attempt).Sound machine)
    (goes : ∀ result, attempt ≠ .done result)
    (later : ((Phase.attempt ((attempt.turn token machine).2.getD attempt)).finishing = false ∧
        (attempt.turn token machine).1.panel.isFired token = true) ∨
      (Phase.attempt ((attempt.turn token machine).2.getD attempt)).givenUp = true) :
    machine.panel.isFired token = true := by
  rcases turned : attempt.turn token machine with ⟨after, _ | next⟩ <;> rw [turned] at later
  · obtain rfl := Attempt.turn_waits token attempt machine after turned
    obtain ⟨-, fired⟩ | now := later
    · exact fired
    · exact absurd (given_up_attempt attempt now) (goes _)
  · obtain ⟨open?, fired⟩ | now := later
    · cases unfired : machine.panel.isFired token with
      | true => rfl
      | false =>
          obtain still | rfl := Attempt.turn_unfired token attempt next machine after turned unfired
          · cases still.symm.trans fired
          · cases open?
    · obtain rfl := given_up_attempt next now
      exact Attempt.turn_interrupted token attempt machine after (sound attempt rfl).1 turned

theorem turn_suspect (execution : Execution) (sound : execution.phase.Sound machine)
    (later : (((execution.turn token machine).2.getD execution).phase.finishing = false ∧
        (execution.turn token machine).1.panel.isFired token = true) ∨
      ((execution.turn token machine).2.getD execution).phase.givenUp = true) :
    (execution.phase.finishing = false ∧ machine.panel.isFired token = true) ∨ execution.phase.givenUp = true := by
  rcases execution with ⟨steps, phase⟩
  cases phase with
  | check =>
      simp only [turn, Option.getD_some] at later
      cases fired : machine.panel.isFired token with
      | true => exact .inl ⟨rfl, rfl⟩
      | false =>
          rw [fired] at later
          obtain ⟨-, now⟩ | now := later <;> cases now
  | stopping ending =>
      obtain ⟨now, -⟩ | now := later
      · cases now
      · cases ending with
        | cancelled => exact .inr rfl
        | _ => cases now
  | ended ending =>
      obtain ⟨now, -⟩ | now := later
      · cases now
      · exact .inr now
  | attempt attempt =>
      by_cases finished : ∃ result, attempt = .done result
      · obtain ⟨result, rfl⟩ := finished
        simp only [turn, Option.getD_some, (Call.conclude_keeps steps result machine).1] at later
        exact conclude_suspect token steps machine result later
      · have goes (result : Except Fault Outcome) : attempt ≠ .done result := fun same => finished ⟨result, same⟩
        obtain ⟨turned, next⟩ := Call.execution_goes token steps attempt machine goes
        rw [turned, next] at later
        exact .inl ⟨unfinishing attempt goes, attempt_suspect token machine attempt sound goes later⟩

end Execution

namespace World

variable {token : Token}

theorem main_suspect (world : World) (serves : world.Serves token) (later : world.main.Suspect token) :
    world.Suspect token := by
  cases serves with
  | entering called =>
      obtain ⟨same, -, drain, enters⟩ := enter_run token world.machine.panel
      rw [entering_main world called, enters] at later
      cases later with
      | entering now => cases now
      | fired execution _ now goes fired =>
          exact .entering called ((Panel.same_run_fired _ _ same token).symm.trans fired)
      | givenUp execution _ now gone =>
          cases now
          cases gone
      | returned report now gone => cases now
  | returned report called =>
      rwa [returned_main world report called] at later
  | active execution drain called sound =>
      cases active_main world execution drain called with
      | returns steps ending linked past drained turned =>
          subst past
          rw [turned] at later
          cases later with
          | entering now => cases now
          | fired _ _ now => cases now
          | givenUp _ _ now => cases now
          | returned report now gone =>
              cases now
              cases gone
              exact .givenUp _ _ called rfl
      | executes apart turned =>
          rw [turned] at later
          -- what is suspected after the turn of the execution was so before it
          have before : (execution.phase.finishing = false ∧ world.machine.panel.isFired token = true) ∨
              execution.phase.givenUp = true := by
            apply Execution.turn_suspect token world.machine execution sound
            cases later with
            | entering now => cases now
            | fired _ _ now goes fired =>
                cases now
                exact .inl ⟨goes, fired⟩
            | givenUp _ _ now gone =>
                cases now
                exact .inr gone
            | returned report now => cases now
          obtain ⟨goes, fired⟩ | gone := before
          · exact .fired execution drain called goes fired
          · exact .givenUp execution drain called gone

theorem act_unfired (world : World) (action : Action) (other : action ≠ .task .main) (alone : ¬Calls action)
    (innocent : ¬Fires token world action) (fired : (world.act action).machine.panel.isFired token = true) :
    world.machine.panel.isFired token = true := by
  have same (signals : (world.act action).machine.panel.signals = world.machine.panel.signals) :
      world.machine.panel.isFired token = true := by rwa [Panel.isFired, signals] at fired
  have fires (target : Token) (apart : token ≠ target)
      (fired : (world.machine.panel.fire target).isFired token = true) : world.machine.panel.isFired token = true := by
    simpa only [Panel.fire, Panel.isFired, Signals.is_fired_fire, decide_eq_false apart, Bool.false_or] using fired
  cases action with
  | task task =>
      refine same ?_
      obtain rfl | rfl | ⟨source, sink, unsent, sent, turned⟩ := perform_cases world task
      · exact absurd rfl other
      · show world.drain.machine.panel.signals = _
        obtain same | ⟨token, execution, drain, called, turned⟩ := drain_cases world
        · rw [same]
        · rw [turned]
          exact (drain_turn_quiet token drain world.machine.panel).2
      · rw [act, turned]
  | step => exact absurd (.inl rfl) alone
  | start token => exact absurd (.inr ⟨token, rfl⟩) alone
  | cancel target =>
      have apart : token ≠ target := fun same => innocent (.inl (by rw [same]))
      unfold act at fired
      dsimp only at fired
      split at fired
      · exact fires target apart fired
      · exact fired
  | fireSlot =>
      unfold act Panel.fireSlot at fired
      cases slot : world.machine.panel.slot with
      | none =>
          rw [slot] at fired
          exact fired
      | some target =>
          rw [slot] at fired
          refine fires target (fun same => innocent (.inr ⟨rfl, ?_⟩)) fired
          rw [slot, same]
  | issue => exact fired
  | _ => exact same rfl

theorem act_suspect (world : World) (action : Action) (alone : ¬Calls action) (serves : world.Serves token)
    (later : (world.act action).Suspect token) :
    world.Suspect token ∨ (Fires token world action ∧ world.call.loops = true) := by
  by_cases main : action = .task .main
  · subst main
    exact .inl (main_suspect world serves later)
  -- no other action changes the execution, so it must be this one that fires the token
  · have leaves := act_leaves world action main alone
    have unfired (innocent : ¬Fires token world action)
        (fired : (world.act action).machine.panel.isFired token = true) : world.machine.panel.isFired token = true :=
      act_unfired world action main alone innocent fired
    have before (execution : Execution) (drain : Drain)
        (called : (world.act action).call = .run (.active token execution drain)) :
        ∃ earlier, world.call = .run (.active token execution earlier) := by
      obtain same | ⟨other, active, former, later, held, goes⟩ := leaves.call
      · exact ⟨drain, same.symm.trans called⟩
      · cases goes.symm.trans called
        exact ⟨former, held⟩
    have loops (execution : Execution) (drain : Drain) (called : world.call = .run (.active token execution drain))
        (goes : execution.phase.finishing = false) : world.call.loops = true := by
      rw [called]
      rcases execution with ⟨steps, phase⟩
      cases phase with
      | check => rfl
      | attempt attempt => rfl
      | _ => cases goes
    cases later with
    | entering called fired =>
        have same : world.call = .run (.entering token) := by
          obtain same | ⟨other, active, former, later, -, goes⟩ := leaves.call
          · exact same.symm.trans called
          · cases goes.symm.trans called
        by_cases fires : Fires token world action
        · exact .inr ⟨fires, by rw [same]; rfl⟩
        · exact .inl (.entering same (unfired fires fired))
    | fired execution drain called goes fired =>
        obtain ⟨earlier, held⟩ := before execution drain called
        by_cases fires : Fires token world action
        · exact .inr ⟨fires, loops execution earlier held goes⟩
        · exact .inl (.fired execution earlier held goes (unfired fires fired))
    | givenUp execution drain called gone =>
        obtain ⟨earlier, held⟩ := before execution drain called
        exact .inl (.givenUp execution earlier held gone)
    | returned report called gone =>
        obtain same | ⟨other, active, former, later, -, goes⟩ := leaves.call
        · exact .inl (.returned report (same.symm.trans called) gone)
        · cases goes.symm.trans called

theorem run_suspect (world : World) (actions : List Action) (alone : ∀ action ∈ actions, ¬Calls action)
    (serves : world.Serves token) (later : (world.run actions).Suspect token) :
    world.Suspect token ∨ ∃ before action after, actions = before ++ action :: after ∧
      Fires token (world.run before) action ∧ (world.run before).call.loops = true := by
  induction actions generalizing world with
  | nil => exact .inl later
  | cons action rest ih =>
      have now := alone action List.mem_cons_self
      have progress := act_progress world action now serves
      obtain suspect | ⟨before, firing, after, rfl, fires, loops⟩ := ih (world.act action)
        (fun later member => alone later (List.mem_cons_of_mem _ member)) progress.serves later
      · obtain before | fires := act_suspect world action now serves suspect
        · exact .inl before
        · exact .inr ⟨[], action, rest, rfl, fires⟩
      · exact .inr ⟨action :: before, firing, after, rfl, fires, loops⟩

-- Between two calls the machine is stopped.
def Tidy (world : World) : Prop :=
  world.machine.panel.mode = .running → (∃ token, world.call = .run (.entering token)) ∨
    ∃ token execution drain, world.call = .run (.active token execution drain)

theorem tidy_unfinished (world : World) (tidy : world.Tidy) (running : world.machine.panel.mode = .running) :
    world.call.finished = false := by
  obtain ⟨token, called⟩ | ⟨token, execution, drain, called⟩ := tidy running <;> rw [called] <;> rfl

theorem main_mode (world : World) (running : world.main.machine.panel.mode = .running) :
    world.machine.panel.mode = .running := by
  have kept (same : world.main.machine.panel.mode = world.machine.panel.mode ∨
      world.main.machine.panel.mode = .stopped) : world.machine.panel.mode = .running := by
    obtain same | stopped := same
    · exact same.symm.trans running
    · cases stopped.symm.trans running
  cases main_moves world with
  | turns token attempt attempting goes turned attempts =>
      rw [turned] at kept
      obtain same | halted := (Attempt.turn_keeps token attempt world.machine).2
      · exact kept (.inl same.mode)
      · exact kept (.inr (Attempt.turn_halts token attempt world.machine _ (Prod.ext rfl halted)))
  | waits panel stands turned preserved goes =>
      rw [turned] at kept
      exact kept preserved.mode
  | idles stands goes preserved => exact kept preserved.mode

theorem main_tidy (world : World) (tidy : world.Tidy) : world.main.Tidy := by
  intro running
  obtain ⟨token, called⟩ | ⟨token, execution, drain, called⟩ := tidy (main_mode world running)
  · obtain ⟨-, -, drain, enters⟩ := enter_run token world.machine.panel
    rw [entering_main world called, enters]
    exact .inr ⟨token, {}, drain, rfl⟩
  · cases active_main world execution drain called with
    | returns steps ending linked past drained turned =>
        rw [turned] at running
        cases running
    | executes apart turned =>
        rw [turned]
        exact .inr ⟨token, _, drain, rfl⟩

theorem act_tidy (world : World) (action : Action) (tidy : world.Tidy) : (world.act action).Tidy := by
  have same (mode : (world.act action).machine.panel.mode = world.machine.panel.mode)
      (call : (world.act action).call = world.call) : (world.act action).Tidy := by
    intro running
    rw [call]
    exact tidy (mode.symm.trans running)
  cases action with
  | task task =>
      obtain rfl | rfl | ⟨source, sink, unsent, sent, turned⟩ := perform_cases world task
      · exact main_tidy world tidy
      · show world.drain.Tidy
        obtain same | ⟨token, execution, drain, called, turned⟩ := drain_cases world
        · rwa [same]
        · rw [turned]
          exact fun _ => .inr ⟨token, execution, _, rfl⟩
      · exact same (by rw [act, turned]) (by rw [act, turned])
  | step =>
      show world.step.Tidy
      obtain same | ⟨finished, enters⟩ := step_cases world
      · rwa [same]
      · intro running
        have mode := (Panel.take_source_run world.machine.panel).mode
        rw [enters] at running
        rw [tidy_unfinished world tidy (mode.symm.trans running)] at finished
        cases finished
  | start token =>
      show (world.start token).Tidy
      obtain same | ⟨finished, claims⟩ := start_cases world token
      · rwa [same]
      · cases mode : world.machine.panel.mode with
        | running =>
            rw [tidy_unfinished world tidy mode] at finished
            cases finished
        | stopped =>
            rw [claims, RunCall.claim, mode]
            exact fun _ => .inl ⟨token, rfl⟩
  | cancel token =>
      refine same ?_ ?_ <;> unfold act <;> dsimp only <;> split <;> rfl
  | markStopped => exact fun running => by cases running
  | fireSlot =>
      refine same ?_ rfl
      unfold act Panel.fireSlot
      cases world.machine.panel.slot <;> rfl
  | _ => exact same rfl rfl

theorem run_tidy (world : World) (actions : List Action) (tidy : world.Tidy) : (world.run actions).Tidy := by
  induction actions generalizing world with
  | nil => exact tidy
  | cons action rest ih => exact ih (world.act action) (act_tidy world action tidy)

theorem start_enters (world : World) (token : Token) (tidy : world.Tidy) (free : world.call.finished = true)
    (known : world.tokens.contains token = true) :
    (world.start token).call = .run (.entering token) ∧ (world.start token).machine.core = world.machine.core ∧
      (world.start token).machine.panel.keyboard = world.machine.panel.keyboard ∧
      (world.start token).machine.panel.signals = world.machine.panel.signals ∧
      (world.start token).machine.config = world.machine.config ∧
      (world.start token).history.executed = world.history.executed := by
  have stopped : world.machine.panel.mode = .stopped := by
    cases mode : world.machine.panel.mode with
    | stopped => rfl
    | running =>
        rw [tidy_unfinished world tidy mode] at free
        cases free
  unfold World.start
  rw [free, known, Bool.and_self, if_pos rfl, RunCall.claim, stopped]
  exact ⟨rfl, rfl, rfl, rfl, rfl, rfl⟩

/-- A run that nobody else's call disturbs, at any moment. The core is what the beats of the run make of it, and its
words are those in the history. After its token has fired, the loop comes round once at most. When it returns, it has
counted the instructions among these words and concluded each word once. It says that it was cancelled only if somebody
else fired the token before its loop ended, or had fired it before the call. -/
theorem runs_end_between_instructions (machine : Machine) (text : List Char) (hangsUp : Bool) (tokens : List Token)
    (earlier actions : List Action) (token : Token) (world start last : World)
    (idle : machine.panel.mode = .stopped)
    (reached : world = World.run { machine, unsent := text, hangsUp, tokens } earlier)
    (free : world.call.finished = true) (known : world.tokens.contains token = true)
    (started : start = world.start token) (alone : ∀ action ∈ actions, ¬Calls action)
    (ran : last = start.run actions) :
    Course world.machine.config.policy world.machine.core world.machine.panel.keyboard (start.beats actions)
        last.machine.core last.machine.panel.keyboard ∧
      last.history.executed = world.history.executed ++ Beat.executions (start.beats actions) ∧
      (∀ before after middle, actions = before ++ after → middle = start.run before →
        middle.machine.panel.isFired token = true →
        (Beat.results (middle.beats after)).length ≤ 1 ∧
          last.history.executed.length ≤ middle.history.executed.length + 1) ∧
      ∀ report, last.call = .run (.returned report) →
        report.steps = (Beat.results (start.beats actions)).countP Beat.completes ∧
          (Beat.executions (start.beats actions)).map Executed.result =
            (Beat.results (start.beats actions)).filter Beat.reaches ∧
          (report.ending = .cancelled →
            (world.machine.panel.isFired token = true ∧ report.steps = 0) ∨
              ∃ before action after, actions = before ++ action :: after ∧ Fires token (start.run before) action ∧
                (start.run before).call.loops = true) := by
  have tidy : world.Tidy := by
    rw [reached]
    refine run_tidy _ earlier fun running => ?_
    cases idle.symm.trans running
  obtain ⟨called, core, keyboard, signals, config, history⟩ := start_enters world token tidy free known
  rw [← started] at called core keyboard signals config history
  have serves : start.Serves token := .entering called
  have progress := run_progress start actions alone serves
  rw [← ran] at progress
  have course := progress.course
  rw [core, keyboard, config] at course
  refine ⟨course, by rw [progress.history, history], fun before after middle split reached fired => ?_,
    fun report returned => ?_⟩
  · have first := run_progress start before
      (fun action member => alone action (split ▸ List.mem_append_left after member)) serves
    -- fired in between: what is left of the loop at that moment bounds all that follows
    have second := run_progress middle after
      (fun action member => alone action (split ▸ List.mem_append_right before member)) (reached ▸ first.serves)
    have ranOn : middle.run after = last := by
      rw [ran, reached, split]
      exact List.foldl_append.symm
    rw [ranOn] at second
    have rounds := second.rounds fired
    have words := second.words fired
    have round := middle.call.phase.rounds_bound
    have word := middle.call.phase.words_bound
    rw [second.history, List.length_append]
    omega
  · have steps := progress.steps
    have balance := progress.balance
    rw [called, returned] at steps balance
    refine ⟨steps.trans (Nat.zero_add _), balance.trans (List.append_nil _), fun cancelled => ?_⟩
    have suspect : (start.run actions).Suspect token := .returned report (ran ▸ returned) cancelled
    obtain before | blamed := run_suspect start actions alone serves suspect
    · have fired : start.machine.panel.isFired token = true := by
        cases before with
        | entering _ fired => exact fired
        | fired _ _ active => cases called.symm.trans active
        | givenUp _ _ active => cases called.symm.trans active
        | returned _ ended => cases called.symm.trans ended
      have rounds := progress.rounds fired
      rw [called] at rounds
      have nothing : Beat.results (start.beats actions) = [] :=
        List.eq_nil_of_length_eq_zero (Nat.le_zero.mp (Nat.le_trans (Nat.le_add_right _ _) rounds))
      rw [nothing] at steps
      rw [Panel.isFired, signals] at fired
      exact .inl ⟨fired, steps⟩
    · exact .inr blamed

def idling : World := { machine := {}, tokens := [⟨0⟩] }

def cut : List Action :=
  List.replicate 8 (.task .main) ++ [.cancel ⟨0⟩] ++ List.replicate 5 (.task .main) ++ [.task .drain, .task .main]

theorem idling_returns : ((idling.start ⟨0⟩).run cut).call = .run (.returned ⟨2, .cancelled⟩) := by rfl

theorem idling_fired : ((idling.start ⟨0⟩).run (cut.take 9)).machine.panel.isFired ⟨0⟩ = true := by rfl

theorem runs_end_between_instructions_cut :
    let start := idling.start ⟨0⟩
    let middle := start.run (cut.take 9)
    (start.run cut).call = .run (.returned ⟨2, .cancelled⟩) ∧ middle.machine.panel.isFired ⟨0⟩ = true ∧
      Course idling.machine.config.policy idling.machine.core idling.machine.panel.keyboard (start.beats cut)
        (start.run cut).machine.core (start.run cut).machine.panel.keyboard ∧
      (Beat.results (middle.beats (cut.drop 9))).length ≤ 1 ∧
      (start.run cut).history.executed.length ≤ middle.history.executed.length + 1 ∧
      2 = (Beat.results (start.beats cut)).countP Beat.completes ∧
      ∃ before action after, cut = before ++ action :: after ∧ Fires ⟨0⟩ (start.run before) action ∧
        (start.run before).call.loops = true := by
  intro start middle
  have alone : ∀ action ∈ cut, ¬Calls action := by
    intro action member
    simp only [cut, List.mem_append, List.mem_replicate, List.mem_cons, List.not_mem_nil, or_false] at member
    rintro (rfl | ⟨token, rfl⟩) <;> simp at member
  obtain ⟨course, -, bound, ended⟩ := runs_end_between_instructions {} [] false [⟨0⟩] [] cut ⟨0⟩ idling start _ rfl rfl
    rfl rfl rfl alone rfl
  obtain ⟨rounds, words⟩ := bound (cut.take 9) (cut.drop 9) middle rfl rfl idling_fired
  obtain ⟨counted, -, blamed⟩ := ended _ idling_returns
  refine ⟨idling_returns, idling_fired, course, rounds, words, counted, (blamed rfl).resolve_left ?_⟩
  rintro ⟨already, -⟩
  cases already

end World

end LittleComputer
