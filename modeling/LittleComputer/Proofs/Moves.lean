import LittleComputer.Proofs.ScheduleIndependence

set_option autoImplicit false

namespace LittleComputer

structure Panel.Kept (before after : Panel) : Prop where
  sink : after.sink = before.sink
  mode : after.mode = before.mode ∨ after.mode = .stopped
  fired : ∀ token, before.isFired token = true → after.isFired token = true

namespace Panel

theorem kept_same (before after : Panel) (sink : after.sink = before.sink) (mode : after.mode = before.mode)
    (signals : after.signals = before.signals) : before.Kept after :=
  ⟨sink, .inl mode, fun token fired => by rwa [isFired, signals]⟩

theorem kept_trans (before middle after : Panel) (first : before.Kept middle) (second : middle.Kept after) :
    before.Kept after where
  sink := second.sink.trans first.sink
  mode := by
    obtain same | stopped := second.mode
    · rw [same]
      exact first.mode
    · exact .inr stopped
  fired token fired := second.fired token (first.fired token fired)

theorem take_char_kept (panel : Panel) : panel.Kept panel.takeChar.2 := by
  unfold takeChar
  cases panel.source <;> exact kept_same _ _ rfl rfl rfl

theorem take_source_kept (panel : Panel) : panel.Kept panel.takeSource.2 := by
  unfold takeSource
  split <;> exact kept_same _ _ rfl rfl rfl

theorem slot_token_kept (panel : Panel) : panel.Kept panel.slotToken.2 := by
  unfold slotToken
  cases panel.slot <;> exact ⟨rfl, .inl rfl, fun _ => id⟩

theorem clear_fired_kept (panel : Panel) : panel.Kept panel.clearFired := by
  unfold clearFired
  cases panel.slot with
  | none => exact kept_same _ _ rfl rfl rfl
  | some token =>
      dsimp only
      cases panel.isFired token <;> exact kept_same _ _ rfl rfl rfl

theorem fire_keeps_fired (panel : Panel) (token other : Token) (fired : panel.isFired other = true) :
    (panel.fire token).isFired other = true := by
  unfold isFired at fired
  simp only [fire, isFired, Signals.is_fired_fire, fired, Bool.or_true]

theorem stop_run_kept (panel : Panel) (token : Token) : panel.Kept (panel.stopRun token) :=
  ⟨rfl, .inr rfl, fun other fired => panel.fire_keeps_fired token other fired⟩

end Panel

-- Where a call stands in its attempt. A GETC that receives for itself waits, and between two attempts the next latch is
-- ahead.
def Call.stand : Call → Attempt
  | .step (.receiving _) => .await
  | .step (.received _ _) => .await
  | call => call.attempt?.elim .latch Prod.snd

theorem stand_attempt (call : Call) (token : Token) (attempt : Attempt)
    (attempting : call.attempt? = some (token, attempt)) : call.stand = attempt := by
  have stands : call.stand = call.attempt?.elim .latch Prod.snd := by
    unfold Call.stand
    split
    · cases attempting
    · cases attempting
    · rfl
  rw [stands, attempting]
  rfl

theorem finished_stand (call : Call) (finished : call.finished = true) : call.stand = .latch := by
  rcases call with _ | call | call
  · rfl
  · cases call <;> first | rfl | cases finished
  · cases call <;> first | rfl | cases finished

theorem done_attempt (call : Call) (result : Except Fault Outcome) (done : call.stand = .done result) :
    ∃ token, call.attempt? = some (token, .done result) := by
  unfold Call.stand at done
  split at done
  · cases done
  · cases done
  · cases attempting : Call.attempt? _ with
    | none =>
        rw [attempting] at done
        cases done
    | some pair =>
        rcases pair with ⟨token, attempt⟩
        rw [attempting] at done
        cases done
        exact ⟨token, rfl⟩

inductive Call.Moves (call : Call) (machine : Machine) (next : Call) (later : Machine) : Prop where
  | turns (token : Token) (attempt : Attempt) (attempting : call.attempt? = some (token, attempt))
      (goes : ∀ result, attempt ≠ .done result) (turned : later = (attempt.turn token machine).1)
      (attempts : next.attempt? = some (token, (attempt.turn token machine).2.getD attempt))
  | waits (panel : Panel) (stands : call.stand = .await) (turned : later = { machine with panel })
      (kept : machine.panel.Kept panel)
      (goes : next.stand = .await ∨ next.stand = .latch ∨ ∃ outcome, next.stand = .done (.ok outcome))
  | idles (stands : call.stand = .latch ∨ ∃ result, call.stand = .done result) (goes : next.stand = .latch)
      (kept : machine.panel.Kept later.panel)

namespace Call

theorem begin_moves (held linked : Bool) (machine : Machine) (panel : Panel) (kept : machine.panel.Kept panel) :
    Moves (.step (.filling held)) machine (.step (StepCall.begin linked panel).2)
      { machine with panel := (StepCall.begin linked panel).1 } :=
  .idles (.inl rfl) rfl (Panel.kept_trans _ _ _ kept
    (Panel.kept_trans _ (panel.setClosed !linked) _ (Panel.kept_same _ _ rfl rfl rfl) (Panel.slot_token_kept _)))

theorem fill_moves (machine : Machine) :
    Moves (.step (.filling true)) machine (.step (StepCall.fill machine.panel).2)
      { machine with panel := (StepCall.fill machine.panel).1 } := by
  have kept := Panel.take_char_kept machine.panel
  unfold StepCall.fill
  generalize machine.panel.takeChar = answer at kept ⊢
  rcases answer with ⟨_ | _ | _, after⟩
  · exact .idles (.inl rfl) rfl kept
  · exact begin_moves true true machine after kept
  · exact begin_moves true false machine after.dropSource
      (Panel.kept_trans _ _ _ kept (Panel.kept_same _ _ rfl rfl rfl))

theorem receive_moves (token : Token) (machine : Machine) :
    Moves (.step (.receiving token)) machine (.step ((StepCall.receive token machine.panel).2.getD (.receiving token)))
      { machine with panel := (StepCall.receive token machine.panel).1 } := by
  have kept := Panel.take_char_kept machine.panel
  unfold StepCall.receive
  generalize machine.panel.takeChar = answer at kept ⊢
  rcases answer with ⟨_ | _ | _, after⟩
  · exact .waits after rfl rfl kept (.inl rfl)
  · refine .waits after rfl rfl kept ?_
    dsimp only
    cases after.isFired token with
    | true => exact .inr (.inr ⟨_, rfl⟩)
    | false => exact .inl rfl
  · exact .waits (after.setClosed true) rfl rfl (Panel.kept_trans _ _ _ kept (Panel.kept_same _ _ rfl rfl rfl))
      (.inr (.inr ⟨_, rfl⟩))

theorem leave_moves (token : Token) (linked : Bool) (result : Except Fault Outcome) (machine : Machine) :
    Moves (.step (.attempting token linked (.done result))) machine (.step (.returned result))
      { machine with panel := StepCall.leave linked machine.panel } := by
  refine .idles (.inr ⟨result, rfl⟩) rfl ?_
  have cleared := Panel.clear_fired_kept (if linked then machine.panel.returnSource else machine.panel)
  exact Panel.kept_trans _ _ _ (by cases linked <;> exact Panel.kept_same _ _ rfl rfl rfl) cleared

theorem attempting_moves (token : Token) (linked : Bool) (attempt : Attempt) (machine : Machine) :
    Moves (.step (.attempting token linked attempt)) machine
      (.step (((StepCall.attempting token linked attempt).turn machine).2.getD (.attempting token linked attempt)))
      ((StepCall.attempting token linked attempt).turn machine).1 := by
  by_cases finished : ∃ result, attempt = .done result
  · obtain ⟨result, rfl⟩ := finished
    have leaves := leave_moves token linked result machine
    cases linked <;> exact leaves
  · obtain concluded | ⟨rfl, rfl⟩ | turned := attempting_cases token linked attempt machine
    · exact absurd concluded finished
    · refine .waits machine.panel rfl rfl (Panel.kept_same _ _ rfl rfl rfl) ?_
      simp only [StepCall.turn, StepCall.await, Option.getD_some]
      cases machine.panel.isFired token with
      | true => exact .inr (.inr ⟨_, rfl⟩)
      | false => exact .inl rfl
    · rw [turned]
      refine .turns token attempt rfl (fun result same => finished ⟨result, same⟩) rfl ?_
      cases (attempt.turn token machine).2 <;> rfl

theorem step_moves (call : StepCall) (machine : Machine) :
    Moves (.step call) machine (.step ((call.turn machine).2.getD call)) (call.turn machine).1 := by
  cases call with
  | filling linked =>
      cases linked with
      | true => exact fill_moves machine
      | false => exact begin_moves false false machine machine.panel (Panel.kept_same _ _ rfl rfl rfl)
  | queueing char => exact .idles (.inl rfl) rfl (Panel.kept_same _ _ rfl rfl rfl)
  | receiving token => exact receive_moves token machine
  | received token char =>
      refine .waits (machine.panel.type char) rfl rfl (Panel.kept_same _ _ rfl rfl rfl) ?_
      simp only [StepCall.turn, StepCall.queue, Option.getD_some]
      cases (machine.panel.type char).keyboard.queue.isEmpty with
      | true => exact .inl rfl
      | false => exact .inr (.inl rfl)
  | returned result => exact .idles (.inl rfl) rfl (Panel.kept_same _ _ rfl rfl rfl)
  | attempting token linked attempt => exact attempting_moves token linked attempt machine

theorem conclude_moves (token : Token) (steps : Nat) (result : Except Fault Outcome) (drain : Drain)
    (machine : Machine) :
    Moves (.run (.active token ⟨steps, .attempt (.done result)⟩ drain)) machine
      (.run (.active token (Execution.conclude steps result machine).2 drain))
      (Execution.conclude steps result machine).1 := by
  have panel := (conclude_keeps steps result machine).1
  have concludes := Execution.conclude_phase steps result machine
  refine .idles (.inr ⟨result, rfl⟩) ?_ (by rw [panel]; exact Panel.kept_same _ _ rfl rfl rfl)
  generalize (Execution.conclude steps result machine).2 = next at concludes ⊢
  rcases next with ⟨count, phase⟩
  dsimp only at concludes
  obtain rfl | ⟨ending, rfl⟩ := concludes <;> rfl

theorem execution_goes (token : Token) (steps : Nat) (attempt : Attempt) (machine : Machine)
    (goes : ∀ result, attempt ≠ .done result) :
    (Execution.turn token ⟨steps, .attempt attempt⟩ machine).1 = (attempt.turn token machine).1 ∧
      (Execution.turn token ⟨steps, .attempt attempt⟩ machine).2.getD ⟨steps, .attempt attempt⟩ =
        ⟨steps, .attempt ((attempt.turn token machine).2.getD attempt)⟩ := by
  rw [execution_turn_attempt token steps attempt machine goes]
  exact ⟨rfl, Option.getD_map (⟨steps, .attempt ·⟩ : Attempt → Execution) attempt _⟩

theorem execution_moves (token : Token) (execution : Execution) (drain : Drain) (machine : Machine) :
    Moves (.run (.active token execution drain)) machine
      (.run (.active token ((execution.turn token machine).2.getD execution) drain))
      (execution.turn token machine).1 := by
  rcases execution with ⟨steps, phase⟩
  cases phase with
  | check =>
      refine .idles (.inl rfl) ?_ (Panel.kept_same _ _ rfl rfl rfl)
      simp only [Execution.turn, Option.getD_some]
      cases machine.panel.isFired token <;> rfl
  | stopping ending => exact .idles (.inl rfl) rfl (Panel.stop_run_kept machine.panel token)
  | ended ending => exact .idles (.inl rfl) rfl (Panel.kept_same _ _ rfl rfl rfl)
  | attempt attempt =>
      by_cases finished : ∃ result, attempt = .done result
      · obtain ⟨result, rfl⟩ := finished
        exact conclude_moves token steps result drain machine
      · have goes (result : Except Fault Outcome) : attempt ≠ .done result := fun same => finished ⟨result, same⟩
        obtain ⟨turned, later⟩ := execution_goes token steps attempt machine goes
        exact .turns token attempt rfl goes turned (by rw [later]; rfl)

theorem run_moves (call : RunCall) (machine : Machine) :
    Moves (.run call) machine (.run ((call.mainTurn machine).2.getD call)) (call.mainTurn machine).1 := by
  unfold RunCall.mainTurn
  split
  · rename_i token
    have kept := Panel.take_source_kept machine.panel
    unfold RunCall.enter
    generalize machine.panel.takeSource = answer at kept ⊢
    exact .idles (.inl rfl) rfl (Panel.kept_trans _ _ _ kept (Panel.kept_same _ _ rfl rfl rfl))
  · rename_i token steps ending linked
    exact .idles (.inl rfl) rfl (by cases linked <;> exact ⟨rfl, .inr rfl, fun _ => id⟩)
  · rename_i token execution drain apart
    have moves := execution_moves token execution drain machine
    rcases turned : execution.turn token machine with ⟨after, _ | next⟩ <;> rw [turned] at moves <;> exact moves
  · exact .idles (.inl rfl) rfl (Panel.kept_same _ _ rfl rfl rfl)

end Call

theorem World.main_moves (world : World) :
    world.call.Moves world.machine world.main.call world.main.machine := by
  rcases world with ⟨machine, call, unsent, hangsUp, tokens, history⟩
  cases call with
  | none => exact .idles (.inl rfl) rfl (Panel.kept_same _ _ rfl rfl rfl)
  | step call => exact Call.step_moves call machine
  | run call => exact Call.run_moves call machine

namespace World

variable {token : Token}

theorem entering_main (world : World) (called : world.call = .run (.entering token)) :
    world.main = { world with
      machine := { world.machine with panel := (RunCall.enter token world.machine.panel).1 }
      call := .run (RunCall.enter token world.machine.panel).2 } := by
  simp only [World.main, called]
  rfl

theorem returned_main (world : World) (report : RunReport) (called : world.call = .run (.returned report)) :
    world.main = world := by
  rcases world with ⟨machine, call, unsent, hangsUp, tokens, history⟩
  cases called
  rfl

inductive Proceeds (token : Token) (world : World) (execution : Execution) (drain : Drain) : Prop where
  | returns (steps : Nat) (ending : Ending) (linked : Bool) (past : execution = ⟨steps, .ended ending⟩)
      (drained : drain = .ended linked)
      (turned : world.main = { world with
        machine := { world.machine with panel := RunCall.leave linked world.machine.panel }
        call := .run (.returned ⟨steps, ending⟩) })
  | executes (apart : ∀ ending linked, execution.phase = .ended ending → drain ≠ .ended linked)
      (turned : world.main = { world with
        machine := (execution.turn token world.machine).1
        call := .run (.active token ((execution.turn token world.machine).2.getD execution) drain)
        history := world.history.note world.machine (Call.run (.active token execution drain)).attempt? })

theorem active_main (world : World) (execution : Execution) (drain : Drain)
    (called : world.call = .run (.active token execution drain)) : world.Proceeds token execution drain := by
  by_cases concluded : ∃ ending linked, execution.phase = .ended ending ∧ drain = .ended linked
  · obtain ⟨ending, linked, past, rfl⟩ := concluded
    rcases execution with ⟨steps, phase⟩
    cases past
    refine .returns steps ending linked rfl rfl ?_
    simp only [World.main, called]
    rfl
  · have apart (ending : Ending) (linked : Bool) (past : execution.phase = .ended ending) : drain ≠ .ended linked :=
      fun ended => concluded ⟨ending, linked, past, ended⟩
    exact .executes apart (main_active world execution drain called apart)

theorem drain_cases (world : World) :
    world.drain = world ∨ ∃ token execution drain, world.call = .run (.active token execution drain) ∧
      world.drain = { world with
        machine := { world.machine with panel := (drain.turn token world.machine.panel).1 }
        call := .run (.active token execution ((drain.turn token world.machine.panel).2.getD drain)) } := by
  by_cases active : ∃ token execution drain, world.call = .run (.active token execution drain)
  · obtain ⟨token, execution, drain, called⟩ := active
    exact .inr ⟨token, execution, drain, called, drain_active world execution drain called⟩
  · exact .inl (drain_inactive world fun token execution drain called => active ⟨token, execution, drain, called⟩)

structure Beside (world next : World) : Prop where
  core : next.machine.core = world.machine.core
  stand : next.call.stand = world.call.stand
  accepted : next.history.accepted = world.history.accepted
  looked : next.history.looked = world.history.looked
  delivers : next.machine.panel.delivers = true → world.machine.panel.delivers = true
  fired : ∀ token, world.machine.panel.isFired token = true → next.machine.panel.isFired token = true

theorem beside_same (world next : World) (core : next.machine.core = world.machine.core) (call : next.call = world.call)
    (history : next.history = world.history) (sink : next.machine.panel.sink = world.machine.panel.sink)
    (fired : ∀ token, world.machine.panel.isFired token = true → next.machine.panel.isFired token = true) :
    world.Beside next where
  core := core
  stand := by rw [call]
  accepted := by rw [history]
  looked := by rw [history]
  delivers somebody := by rwa [Panel.delivers, sink] at somebody
  fired := fired

theorem beside_outside (world next : World) (outside : world.Outside next)
    (looked : next.history.looked = world.history.looked) : world.Beside next where
  core := outside.core
  stand := by rw [outside.call]
  accepted := outside.accepted
  looked := looked
  delivers somebody := by rwa [outside.delivers] at somebody
  fired token fired := by rwa [Panel.isFired, outside.signals]

theorem perform_beside (world : World) (task : Task) (other : task ≠ .main) : world.Beside (world.perform task) := by
  have looked := perform_looked world task
  rw [if_neg other, List.append_nil] at looked
  cases task with
  | main => exact absurd rfl other
  | send => exact beside_outside world _ (send_outside world) looked
  | listen => exact beside_outside world _ (listen_outside world) looked
  | receive => exact beside_outside world _ (receive_outside world) looked
  | drain =>
      show world.Beside world.drain
      obtain same | ⟨token, execution, drain, called, turned⟩ := drain_cases world
      · rw [same]
        exact beside_same world world rfl rfl rfl rfl fun _ => id
      · obtain ⟨delivers, signals⟩ := drain_turn_quiet token drain world.machine.panel
        rw [turned]
        refine ⟨rfl, ?_, rfl, rfl, fun somebody => delivers.symm.trans somebody, fun other fired => ?_⟩
        · rw [called]
          rcases execution with ⟨steps, _ | attempt | _ | _⟩ <;> rfl
        · exact (congrArg (·.isFired other) signals).trans fired

theorem act_beside (world : World) (action : Action) (other : action ≠ .task .main) :
    world.Beside (world.act action) := by
  cases action with
  | task task => exact perform_beside world task fun same => other (congrArg Action.task same)
  | step =>
      show world.Beside world.step
      obtain same | ⟨finished, enters⟩ := step_cases world
      · rw [same]
        exact beside_same world world rfl rfl rfl rfl fun _ => id
      · have kept := Panel.take_source_kept world.machine.panel
        rw [enters]
        refine ⟨rfl, (finished_stand world.call finished).symm, rfl, rfl, fun somebody => ?_, kept.fired⟩
        rw [Panel.delivers, ← kept.sink]
        exact somebody
  | start token =>
      show world.Beside (world.start token)
      obtain same | ⟨finished, claims⟩ := start_cases world token
      · rw [same]
        exact beside_same world world rfl rfl rfl rfl fun _ => id
      · rw [claims]
        unfold RunCall.claim
        cases world.machine.panel.mode <;>
          exact ⟨rfl, (finished_stand world.call finished).symm, rfl, rfl, id, fun _ => id⟩
  | issue => exact beside_same world _ rfl rfl rfl rfl fun _ => id
  | cancel token =>
      unfold act
      dsimp only
      split
      · exact beside_same world _ rfl rfl rfl rfl (world.machine.panel.fire_keeps_fired token)
      · exact beside_same world _ rfl rfl rfl rfl fun _ => id
  | markStopped => exact beside_same world _ rfl rfl rfl rfl fun _ => id
  | fireSlot =>
      unfold act Panel.fireSlot
      cases world.machine.panel.slot with
      | none => exact beside_same world _ rfl rfl rfl rfl fun _ => id
      | some token => exact beside_same world _ rfl rfl rfl rfl (world.machine.panel.fire_keeps_fired token)
  | dropOutput =>
      refine ⟨rfl, rfl, rfl, rfl, fun somebody => ?_, fun _ => id⟩
      simp only [act, Machine.closeReceiver, Panel.delivers] at somebody ⊢
      cases sink : world.machine.panel.sink with
      | none =>
          rw [sink] at somebody
          cases somebody
      | some line =>
          rw [sink] at somebody
          cases somebody

end World

end LittleComputer
