import LittleComputer.Proofs.Moves

set_option autoImplicit false

namespace LittleComputer

structure Panel.Spent (panel : Panel) : Prop where
  gone : panel.hasSender = false
  nothing : panel.channel = []

structure Core.Parked (core : Core) (looked : List Core) : Prop where
  getc : Instruction.decode core.word = .ok (.trap .getc)
  last : looked.getLast? = some core

structure Machine.Starved (machine : Machine) (looked : List Core) : Prop where
  parked : machine.core.Parked looked
  empty : machine.panel.keyboard.queue = #[]

structure Machine.Exhausted (machine : Machine) (looked : List Core) : Prop where
  starved : machine.Starved looked
  spent : machine.panel.Spent

namespace Panel

theorem spent_unplugged (panel : Panel) (unplugged : panel.source = none) : panel.Spent :=
  ⟨by rw [hasSender, unplugged]; rfl, by rw [channel, unplugged]; rfl⟩

theorem spent_same (before after : Panel) (spent : before.Spent) (same : after.source = before.source) : after.Spent :=
  ⟨by rw [hasSender, same]; exact spent.gone, by rw [channel, same]; exact spent.nothing⟩

theorem awaiting_closed (token : Token) (panel : Panel)
    (closes : Attempt.awaiting token panel = some (.done (.ok .inputClosed))) :
    panel.keyboard.closed = true ∧ panel.keyboard.queue = #[] := by
  simp only [Attempt.awaiting, Keyboard.wait?] at closes
  cases fired : panel.isFired token <;> cases empty : panel.keyboard.queue.isEmpty <;>
    cases closed : panel.keyboard.closed <;> rw [fired, empty, closed] at closes <;> cases closes
  exact ⟨rfl, by simpa using empty⟩

end Panel

namespace Attempt

theorem look_getc (machine : Machine) (awaits : prospect machine = .await) :
    Instruction.decode machine.core.word = .ok (.trap .getc) := by
  obtain ⟨fault, decoded⟩ | ⟨service, decoded⟩ | ⟨instruction, decoded, plain⟩ := decode_cases machine.core.word
  · cases (prospect_fault machine fault decoded).symm.trans awaits
  · have trapped := (prospect_trap machine service decoded).symm.trans awaits
    cases service with
    | getc => exact decoded
    | halt => cases trapped
    | _ =>
        dsimp only at trapped
        split at trapped <;> cases trapped
  · cases (prospect_plain machine instruction decoded plain).symm.trans awaits

theorem turn_awaits (token : Token) (attempt : Attempt) (machine later : Machine)
    (turned : attempt.turn token machine = (later, some .await)) :
    attempt = .look ∧ later = machine ∧ Instruction.decode machine.core.word = .ok (.trap .getc) ∧
      machine.panel.keyboard.queue = #[] := by
  have goes := congrArg Prod.snd turned
  cases attempt with
  | latch => cases goes
  | look =>
      have awaits : prospect machine = .await := Option.some.inj goes
      obtain same | same | ⟨-, empty⟩ | ⟨text, same, -⟩ := prospect_cases machine
      · cases same.symm.trans awaits
      · cases same.symm.trans awaits
      · exact ⟨rfl, (congrArg Prod.fst turned).symm, look_getc machine awaits, empty⟩
      · cases same.symm.trans awaits
  | await =>
      obtain ⟨same, -⟩ | ⟨same, -⟩ | ⟨same, -⟩ := awaiting_cases token machine.panel _ goes <;> cases same
  | handOver rest =>
      obtain same | ⟨same, -⟩ | ⟨char, left, -, same⟩ := handing_over_cases token machine.panel rest <;>
        cases same.symm.trans (Option.some.inj goes)
  | offer char rest =>
      obtain same | same | ⟨same, -⟩ := offering_goes token char rest machine.panel _ goes <;> cases same
  | execute =>
      rw [turn_execute, (executing_seen token machine).1] at goes
      cases stepped : (machine.core.step Keyboard.console machine.panel.keyboard).1 <;> rw [stepped] at goes <;>
        cases goes
  | endless => cases goes
  | done result => cases goes

theorem turn_closes (token : Token) (attempt : Attempt) (machine later : Machine)
    (turned : attempt.turn token machine = (later, some (.done (.ok .inputClosed)))) :
    attempt = .await ∧ later = machine ∧ machine.panel.keyboard.closed = true ∧ machine.panel.keyboard.queue = #[] := by
  have goes := congrArg Prod.snd turned
  cases attempt with
  | latch => cases goes
  | look =>
      obtain same | same | ⟨same, -⟩ | ⟨text, same, -⟩ := prospect_cases machine <;>
        cases same.symm.trans (Option.some.inj goes)
  | await => exact ⟨rfl, (congrArg Prod.fst turned).symm, Panel.awaiting_closed token machine.panel goes⟩
  | handOver rest =>
      obtain same | ⟨same, -⟩ | ⟨char, left, -, same⟩ := handing_over_cases token machine.panel rest <;>
        cases same.symm.trans (Option.some.inj goes)
  | offer char rest =>
      obtain same | same | ⟨same, -⟩ := offering_goes token char rest machine.panel _ goes <;> cases same
  | execute =>
      rw [turn_execute, (executing_seen token machine).1] at goes
      cases stepped : (machine.core.step Keyboard.console machine.panel.keyboard).1 with
      | none =>
          rw [stepped] at goes
          cases goes
      | some result =>
          rw [stepped] at goes
          cases goes
          obtain ⟨fault, same, -⟩ | same | ⟨same, -⟩ | ⟨same, -⟩ := machine.core.step_results _ _ stepped <;> cases same
  | endless => cases goes
  | done result => cases goes

end Attempt

def Machine.looks (machine : Machine) : Option (Token × Attempt) → List Core
  | some (_, .look) => [machine.core]
  | _ => []

namespace StepCall

def Honest (machine : Machine) (looked : List Core) : StepCall → Prop
  | .filling linked => linked = false → machine.panel.source = none
  | .queueing _ => True
  | .attempting _ linked attempt =>
      (linked = false → machine.panel.source = none) ∧ (attempt = .await → machine.Starved looked) ∧
        (attempt = .done (.ok .inputClosed) → machine.Exhausted looked)
  | .receiving _ => machine.Starved looked
  | .received _ _ => machine.Starved looked
  | .returned result => result = .ok .inputClosed → machine.Exhausted looked

variable (machine : Machine) (looked : List Core)

theorem begin_honest (linked : Bool) (panel : Panel) (unplugged : linked = false → panel.source = none) :
    (begin linked panel).2.Honest { machine with panel := (begin linked panel).1 } looked := by
  have same := Panel.slot_token_same (panel.setClosed !linked)
  exact ⟨fun unlinked => same.source.trans (unplugged unlinked), nofun, nofun⟩

theorem fill_honest : (fill machine.panel).2.Honest { machine with panel := (fill machine.panel).1 } looked := by
  unfold fill
  rcases machine.panel.takeChar with ⟨_ | _ | _, after⟩
  · trivial
  · exact begin_honest machine looked true after nofun
  · exact begin_honest machine looked false after.dropSource fun _ => rfl

theorem receive_honest (token : Token) (honest : machine.Starved looked) :
    ((receive token machine.panel).2.getD (.receiving token)).Honest
      { machine with panel := (receive token machine.panel).1 } looked := by
  have queue : machine.panel.takeChar.2.keyboard.queue = #[] :=
    (congrArg Keyboard.queue (Panel.keyboard_take_char machine.panel)).trans honest.empty
  have gone := Panel.take_char_disconnected machine.panel
  unfold receive
  generalize machine.panel.takeChar = answer at queue gone ⊢
  rcases answer with ⟨_ | _ | _, after⟩
  · exact ⟨honest.parked, queue⟩
  · dsimp only at queue ⊢
    cases after.isFired token with
    | true => exact ⟨nofun, nofun, nofun⟩
    | false => exact ⟨honest.parked, queue⟩
  · obtain ⟨nothing, closed⟩ := gone rfl
    exact ⟨nofun, nofun, fun _ => ⟨⟨honest.parked, queue⟩, closed, nothing⟩⟩

theorem leave_source (linked : Bool) (panel : Panel) : (leave linked panel).source = panel.source ∧
    (leave linked panel).keyboard.queue = panel.keyboard.queue := by
  have cleared := Panel.clear_fired_same (if linked then panel.returnSource else panel)
  cases linked <;> exact ⟨cleared.source, cleared.queue⟩

theorem leave_honest (token : Token) (linked : Bool) (result : Except Fault Outcome)
    (honest : (attempting token linked (.done result)).Honest machine looked) :
    (returned result).Honest { machine with panel := leave linked machine.panel } looked := by
  rintro rfl
  obtain ⟨source, queue⟩ := leave_source linked machine.panel
  have exhausted := honest.2.2 rfl
  exact ⟨⟨exhausted.starved.parked, queue.trans exhausted.starved.empty⟩,
    Panel.spent_same _ _ exhausted.spent source⟩

theorem attempt_honest (token : Token) (linked : Bool) (attempt : Attempt)
    (honest : (attempting token linked attempt).Honest machine looked)
    (apart : linked = true → attempt ≠ .await) :
    (attempting token linked ((attempt.turn token machine).2.getD attempt)).Honest (attempt.turn token machine).1
      (looked ++ machine.looks (some (token, attempt))) := by
  obtain ⟨unplugged, awaits, closes⟩ := honest
  have source := (Attempt.turn_keeps token attempt machine).1.source
  rcases turned : attempt.turn token machine with ⟨later, _ | next⟩
  · obtain rfl := Attempt.turn_waits token attempt machine later turned
    have quiet : later.looks (some (token, attempt)) = [] := by
      cases attempt with
      | look => cases turned
      | _ => rfl
    rw [quiet, List.append_nil]
    exact ⟨unplugged, awaits, closes⟩
  · rw [turned] at source
    refine ⟨fun unlinked => source.trans (unplugged unlinked), ?_, ?_⟩
    · rintro rfl
      obtain ⟨rfl, rfl, getc, empty⟩ := Attempt.turn_awaits token attempt machine later turned
      exact ⟨⟨getc, List.getLast?_concat⟩, empty⟩
    · rintro same
      obtain rfl : next = .done (.ok .inputClosed) := same
      obtain ⟨rfl, rfl, -, empty⟩ := Attempt.turn_closes token attempt machine later turned
      have unlinked : linked = false := by
        cases linked with
        | false => rfl
        | true => exact absurd rfl (apart rfl)
      have starved := awaits rfl
      show Machine.Exhausted _ (looked ++ [])
      rw [List.append_nil]
      exact ⟨starved, Panel.spent_unplugged _ (unplugged unlinked)⟩

theorem turn_honest (call : StepCall) (honest : call.Honest machine looked) :
    ((call.turn machine).2.getD call).Honest (call.turn machine).1
      (looked ++ machine.looks (Call.step call).attempt?) := by
  have quiet (nothing : machine.looks (Call.step call).attempt? = []) :
      looked ++ machine.looks (Call.step call).attempt? = looked := by rw [nothing, List.append_nil]
  cases call with
  | filling linked =>
      rw [quiet rfl]
      cases linked with
      | true => exact fill_honest machine looked
      | false => exact begin_honest machine looked false machine.panel honest
  | queueing char =>
      rw [quiet rfl]
      rintro ⟨⟩
  | receiving token =>
      rw [quiet rfl]
      exact receive_honest machine looked token honest
  | received token char =>
      rw [quiet rfl]
      simp only [turn, queue, Option.getD_some]
      cases empty : (machine.panel.type char).keyboard.queue.isEmpty with
      | true =>
          exact ⟨by rintro ⟨⟩, fun _ => ⟨honest.parked, by simpa using empty⟩, by rintro ⟨⟩⟩
      | false => refine ⟨?_, ?_, ?_⟩ <;> rintro ⟨⟩
  | returned result =>
      rw [quiet rfl]
      exact honest
  | attempting token linked attempt =>
      by_cases finished : ∃ result, attempt = .done result
      · obtain ⟨result, rfl⟩ := finished
        have leaves := leave_honest machine looked token linked result honest
        rw [quiet rfl]
        cases linked <;> exact leaves
      -- a call with a line takes over the wait of its GETC
      · by_cases waits : linked = true ∧ attempt = .await
        · obtain ⟨rfl, rfl⟩ := waits
          rw [quiet rfl]
          simp only [turn, await, Option.getD_some]
          cases machine.panel.isFired token with
          | true => refine ⟨?_, ?_, ?_⟩ <;> rintro ⟨⟩
          | false => exact honest.2.1 rfl
        · have goes := attempt_honest machine looked token linked attempt honest fun linked await =>
            waits ⟨linked, await⟩
          obtain concluded | ⟨rfl, rfl⟩ | turned := Call.attempting_cases token linked attempt machine
          · exact absurd concluded finished
          · exact absurd ⟨rfl, rfl⟩ waits
          · rw [turned]
            rcases step : attempt.turn token machine with ⟨later, _ | next⟩ <;> rw [step] at goes <;> exact goes

end StepCall

def Execution.Phase.closes : Execution.Phase → Bool
  | .attempt (.done (.ok .inputClosed)) => true
  | .stopping .inputClosed => true
  | .ended .inputClosed => true
  | _ => false

theorem closes_attempt (attempt : Attempt) (closes : (Execution.Phase.attempt attempt).closes = true) :
    attempt = .done (.ok .inputClosed) := by
  unfold Execution.Phase.closes at closes
  split at closes
  · rename_i same
    exact Execution.Phase.attempt.inj same
  · rename_i same
    cases same
  · rename_i same
    cases same
  · cases closes

def Drain.inFlight : Drain → Option Char
  | .queue char => some char
  | _ => none

theorem active_in_flight (token : Token) (execution : Execution) (drain : Drain) :
    (Call.run (.active token execution drain)).inFlight = drain.inFlight := by
  cases drain <;> rfl

theorem take_char_spent (panel : Panel) (spent : panel.Spent) : panel.takeChar.1 = .disconnected := by
  obtain ⟨gone, nothing⟩ := spent
  unfold Panel.takeChar
  cases source : panel.source with
  | none => rfl
  | some line =>
      simp only [Panel.hasSender, source, Option.any_some] at gone
      simp only [Panel.channel, source, Option.elim_some, Array.toList_eq_nil_iff] at nothing
      simp [Line.take, gone, nothing]

theorem drain_turn_spent (token : Token) (drain : Drain) (panel : Panel) (spent : panel.Spent)
    (nothing : drain.inFlight = none) :
    (drain.turn token panel).1.Spent ∧ (drain.turn token panel).1.keyboard.queue = panel.keyboard.queue ∧
      ((drain.turn token panel).2.getD drain).inFlight = none := by
  cases drain with
  | check =>
      unfold Drain.turn
      cases panel.isFired token <;> exact ⟨spent, rfl, rfl⟩
  | receive =>
      unfold Drain.turn
      have taken := take_char_spent panel spent
      have queue := congrArg Keyboard.queue (Panel.keyboard_take_char panel)
      generalize panel.takeChar = answer at taken queue ⊢
      rcases answer with ⟨_ | _ | _, after⟩
      · cases taken
      · cases taken
      · exact ⟨Panel.spent_unplugged _ rfl, queue, rfl⟩
  | queue char => cases nothing
  | idle =>
      unfold Drain.turn
      cases panel.isFired token <;> exact ⟨spent, rfl, rfl⟩
  | ended linked => exact ⟨spent, rfl, rfl⟩

namespace RunCall

-- The queue is closed only after the last character has been queued, so a GETC that finds it closed and empty has
-- nothing more to wait for.
def Honest (machine : Machine) (looked : List Core) : RunCall → Prop
  | .entering _ => True
  | .active _ execution drain =>
      (machine.panel.keyboard.closed = true → machine.panel.source = none ∧ drain.inFlight = none) ∧
        (execution.phase = .attempt .await → machine.core.Parked looked) ∧
        (execution.phase.closes = true → machine.Exhausted looked ∧ drain.inFlight = none)
  | .returned report => report.ending = .inputClosed → machine.Exhausted looked

variable (token : Token) (machine : Machine) (looked : List Core) (drain : Drain)

theorem quiet_honest (execution next : Execution) (later : Machine)
    (honest : (active token execution drain).Honest machine looked) (core : later.core = machine.core)
    (keyboard : later.panel.keyboard = machine.panel.keyboard) (source : later.panel.source = machine.panel.source)
    (awaits : next.phase ≠ .attempt .await) (closes : next.phase.closes = true → execution.phase.closes = true) :
    (active token next drain).Honest later looked := by
  obtain ⟨closed, -, concluded⟩ := honest
  refine ⟨fun shut => ?_, fun same => absurd same awaits, fun now => ?_⟩
  · rw [keyboard] at shut
    exact ⟨source.trans (closed shut).1, (closed shut).2⟩
  · obtain ⟨exhausted, nothing⟩ := concluded (closes now)
    refine ⟨⟨⟨?_, ?_⟩, Panel.spent_same _ _ exhausted.spent source⟩, nothing⟩
    · rw [core]
      exact exhausted.starved.parked
    · rw [keyboard]
      exact exhausted.starved.empty

theorem conclude_honest (steps : Nat) (result : Except Fault Outcome)
    (honest : (active token ⟨steps, .attempt (.done result)⟩ drain).Honest machine looked) :
    (active token (Execution.conclude steps result machine).2 drain).Honest (Execution.conclude steps result machine).1
      looked := by
  have panel := (Call.conclude_keeps steps result machine).1
  rcases result with fault | _ | _ | _ | _
  · obtain ⟨closed, -, -⟩ := honest
    cases policy : machine.config.policy with
    | halt =>
        rw [Execution.conclude_halt steps fault machine policy]
        exact ⟨closed, nofun, nofun⟩
    | «continue» =>
        rw [Execution.conclude_continue steps fault machine policy]
        exact ⟨closed, nofun, nofun⟩
  all_goals
    refine quiet_honest token machine looked drain _ _ _ honest rfl rfl rfl nofun fun closes => ?_
    first
      | rfl
      | cases closes

theorem attempt_honest (steps : Nat) (attempt : Attempt)
    (honest : (active token ⟨steps, .attempt attempt⟩ drain).Honest machine looked) :
    (active token ⟨steps, .attempt ((attempt.turn token machine).2.getD attempt)⟩ drain).Honest
      (attempt.turn token machine).1 (looked ++ machine.looks (some (token, attempt))) := by
  obtain ⟨closed, awaits, concluded⟩ := honest
  have untouched := (Attempt.turn_keeps token attempt machine).1
  rcases turned : attempt.turn token machine with ⟨later, _ | next⟩
  · obtain rfl := Attempt.turn_waits token attempt machine later turned
    have quiet : later.looks (some (token, attempt)) = [] := by
      cases attempt with
      | look => cases turned
      | _ => rfl
    rw [quiet, List.append_nil]
    exact ⟨closed, awaits, concluded⟩
  · rw [turned] at untouched
    refine ⟨fun shut => ?_, fun same => ?_, fun closes => ?_⟩
    · obtain ⟨unplugged, nothing⟩ := closed (untouched.closed.symm.trans shut)
      exact ⟨untouched.source.trans unplugged, nothing⟩
    · obtain rfl : next = .await := Execution.Phase.attempt.inj same
      obtain ⟨rfl, rfl, getc, -⟩ := Attempt.turn_awaits token attempt machine later turned
      exact ⟨getc, List.getLast?_concat⟩
    · obtain rfl := closes_attempt next closes
      obtain ⟨rfl, rfl, shut, empty⟩ := Attempt.turn_closes token attempt machine later turned
      obtain ⟨unplugged, nothing⟩ := closed shut
      have parked := awaits rfl
      show Machine.Exhausted _ (looked ++ []) ∧ _
      rw [List.append_nil]
      exact ⟨⟨⟨parked, empty⟩, Panel.spent_unplugged _ unplugged⟩, nothing⟩

theorem execution_honest (execution : Execution) (honest : (active token execution drain).Honest machine looked) :
    (active token ((execution.turn token machine).2.getD execution) drain).Honest (execution.turn token machine).1
      (looked ++ machine.looks (Call.run (.active token execution drain)).attempt?) := by
  rcases execution with ⟨steps, phase⟩
  have quiet (nothing : machine.looks (Call.run (.active token ⟨steps, phase⟩ drain)).attempt? = []) :
      looked ++ machine.looks (Call.run (.active token ⟨steps, phase⟩ drain)).attempt? = looked := by
    rw [nothing, List.append_nil]
  cases phase with
  | check =>
      rw [quiet rfl]
      refine quiet_honest token machine looked drain _ _ _ honest rfl rfl rfl ?_ ?_ <;>
        simp only [Execution.turn, Option.getD_some] <;> cases machine.panel.isFired token <;> rintro ⟨⟩
  | stopping ending =>
      rw [quiet rfl]
      refine quiet_honest token machine looked drain _ _ _ honest rfl rfl rfl (by rintro ⟨⟩) ?_
      cases ending with
      | inputClosed => exact fun _ => rfl
      | _ => rintro ⟨⟩
  | ended ending =>
      rw [quiet rfl]
      exact honest
  | attempt attempt =>
      by_cases finished : ∃ result, attempt = .done result
      · obtain ⟨result, rfl⟩ := finished
        rw [quiet rfl]
        exact conclude_honest token machine looked drain steps result honest
      · obtain ⟨turned, next⟩ := Call.execution_goes token steps attempt machine fun result same =>
          finished ⟨result, same⟩
        rw [turned, next]
        exact attempt_honest token machine looked drain steps attempt honest

theorem enter_honest (free : machine.panel.sourceTaken = false) :
    (enter token machine.panel).2.Honest { machine with panel := (enter token machine.panel).1 } looked := by
  unfold enter
  rw [Panel.take_source_free machine.panel free]
  refine ⟨fun shut => ?_, nofun, nofun⟩
  have unplugged : machine.panel.source = none := by
    have linked : (!machine.panel.source.isSome) = true := shut
    simpa using linked
  refine ⟨unplugged, ?_⟩
  rw [unplugged]
  rfl

theorem leave_honest (steps : Nat) (ending : Ending) (linked : Bool)
    (honest : (active token ⟨steps, .ended ending⟩ (.ended linked)).Honest machine looked) :
    (returned ⟨steps, ending⟩).Honest { machine with panel := leave linked machine.panel } looked := by
  rintro rfl
  obtain ⟨exhausted, -⟩ := honest.2.2 rfl
  cases linked <;>
    exact ⟨⟨exhausted.starved.parked, exhausted.starved.empty⟩, Panel.spent_same _ _ exhausted.spent rfl⟩

theorem turn_honest (call : RunCall) (honest : call.Honest machine looked)
    (free : ∀ token, call = .entering token → machine.panel.sourceTaken = false) :
    ((call.mainTurn machine).2.getD call).Honest (call.mainTurn machine).1
      (looked ++ machine.looks (Call.run call).attempt?) := by
  have quiet (nothing : machine.looks (Call.run call).attempt? = []) :
      looked ++ machine.looks (Call.run call).attempt? = looked := by rw [nothing, List.append_nil]
  unfold mainTurn
  split
  · rename_i token
    rw [quiet rfl]
    exact enter_honest token machine looked (free token rfl)
  · rename_i token steps ending linked
    rw [quiet rfl]
    exact leave_honest token machine looked steps ending linked honest
  · rename_i token execution drain apart
    have goes := execution_honest token machine looked drain execution honest
    rcases turned : execution.turn token machine with ⟨after, _ | next⟩ <;> rw [turned] at goes <;> exact goes
  · rw [quiet rfl]
    exact honest

theorem drain_honest (execution : Execution) (honest : (active token execution drain).Honest machine looked) :
    (active token execution ((drain.turn token machine.panel).2.getD drain)).Honest
      { machine with panel := (drain.turn token machine.panel).1 } looked := by
  obtain ⟨closed, awaits, concluded⟩ := honest
  have shut := World.drain_turn_closed token execution drain machine.panel
  rw [active_in_flight, active_in_flight] at shut
  refine ⟨shut closed, awaits, fun closes => ?_⟩
  obtain ⟨exhausted, nothing⟩ := concluded closes
  obtain ⟨spent, queue, still⟩ := drain_turn_spent token drain machine.panel exhausted.spent nothing
  exact ⟨⟨⟨exhausted.starved.parked, queue.trans exhausted.starved.empty⟩, spent⟩, still⟩

end RunCall

def Call.Honest (machine : Machine) (looked : List Core) : Call → Prop
  | .none => True
  | .step call => call.Honest machine looked
  | .run call => call.Honest machine looked

namespace World

def Honest (world : World) : Prop := world.call.Honest world.machine world.history.looked

structure Aside (world next : World) : Prop where
  core : next.machine.core = world.machine.core
  keyboard : next.machine.panel.keyboard = world.machine.panel.keyboard
  call : next.call = world.call
  looked : next.history.looked = world.history.looked
  unplugged : world.machine.panel.source = none → next.machine.panel.source = none
  spent : world.machine.panel.Spent → next.machine.panel.Spent

theorem aside_same (world next : World) (core : next.machine.core = world.machine.core)
    (keyboard : next.machine.panel.keyboard = world.machine.panel.keyboard)
    (source : next.machine.panel.source = world.machine.panel.source) (call : next.call = world.call)
    (history : next.history = world.history) : world.Aside next where
  core := core
  keyboard := keyboard
  call := call
  looked := by rw [history]
  unplugged := source.trans
  spent spent := Panel.spent_same _ _ spent source

theorem send_aside (world : World) : world.Aside world.send := by
  obtain same | ⟨char, rest, line, -, source, open?, sends⟩ | ⟨-, -, closes⟩ := send_cases world
  · rw [same]
    exact aside_same world world rfl rfl rfl rfl rfl
  · rw [sends]
    refine ⟨rfl, rfl, rfl, rfl, fun unplugged => ?_, fun spent => ?_⟩
    · cases source.symm.trans unplugged
    · have gone := spent.gone
      simp only [Panel.hasSender, source, Option.any_some, open?] at gone
      cases gone
  · rw [closes]
    refine ⟨rfl, rfl, rfl, rfl, fun unplugged => ?_, fun spent => ⟨?_, ?_⟩⟩
    · rw [Machine.closeSender, unplugged]
      rfl
    · simp only [Machine.closeSender, Panel.hasSender]
      cases world.machine.panel.source <;> rfl
    · have nothing := spent.nothing
      simp only [Machine.closeSender, Panel.channel] at nothing ⊢
      cases source : world.machine.panel.source <;> rw [source] at nothing <;> exact nothing

theorem honest_starved (world next : World) (aside : world.Aside next)
    (starved : world.machine.Starved world.history.looked) : next.machine.Starved next.history.looked := by
  refine ⟨⟨?_, ?_⟩, ?_⟩
  · rw [aside.core]
    exact starved.parked.getc
  · rw [aside.core, aside.looked]
    exact starved.parked.last
  · rw [aside.keyboard]
    exact starved.empty

theorem honest_exhausted (world next : World) (aside : world.Aside next)
    (exhausted : world.machine.Exhausted world.history.looked) : next.machine.Exhausted next.history.looked :=
  ⟨honest_starved world next aside exhausted.starved, aside.spent exhausted.spent⟩

theorem honest_aside (world next : World) (aside : world.Aside next) (honest : world.Honest) : next.Honest := by
  unfold Honest at honest ⊢
  rw [aside.call]
  have starved := honest_starved world next aside
  have exhausted := honest_exhausted world next aside
  cases called : world.call with
  | none => trivial
  | step call =>
      rw [called] at honest
      cases call with
      | filling linked => exact fun unlinked => aside.unplugged (honest unlinked)
      | queueing char => trivial
      | attempting token linked attempt =>
          exact ⟨fun unlinked => aside.unplugged (honest.1 unlinked), fun awaits => starved (honest.2.1 awaits),
            fun closes => exhausted (honest.2.2 closes)⟩
      | receiving token => exact starved honest
      | received token char => exact starved honest
      | returned result => exact fun closes => exhausted (honest closes)
  | run call =>
      rw [called] at honest
      cases call with
      | entering token => trivial
      | active token execution drain =>
          refine ⟨fun shut => ?_, fun awaits => ?_, fun closes => ?_⟩
          · rw [aside.keyboard] at shut
            exact ⟨aside.unplugged (honest.1 shut).1, (honest.1 shut).2⟩
          · rw [aside.core, aside.looked]
            exact honest.2.1 awaits
          · exact ⟨exhausted (honest.2.2 closes).1, (honest.2.2 closes).2⟩
      | returned report => exact fun closes => exhausted (honest closes)

variable {origin : World}

theorem main_honest (world : World) (kept : origin.Conserved world) (free : origin.machine.panel.sourceTaken = false)
    (honest : world.Honest) : world.main.Honest := by
  have looked : world.main.history.looked = world.history.looked ++ world.machine.looks world.call.attempt? := by
    rw [main_looked]
    rfl
  have taken := kept.held.taken
  rw [free, Bool.false_or] at taken
  rcases world with ⟨machine, call, unsent, hangsUp, tokens, history⟩
  unfold Honest
  rw [looked]
  cases call with
  | none => trivial
  | step call => exact StepCall.turn_honest machine history.looked call honest
  | run call =>
      refine RunCall.turn_honest machine history.looked call honest fun token entering => ?_
      subst entering
      exact taken

theorem drain_honest (world : World) (honest : world.Honest) : world.drain.Honest := by
  obtain same | ⟨token, execution, drain, called, turned⟩ := drain_cases world
  · rwa [same]
  · unfold Honest at honest
    rw [called] at honest
    rw [turned]
    exact RunCall.drain_honest token world.machine world.history.looked drain execution honest

theorem act_honest (world : World) (action : Action) (kept : origin.Conserved world)
    (free : origin.machine.panel.sourceTaken = false) (honest : world.Honest) : (world.act action).Honest := by
  have aside (aside : world.Aside (world.act action)) : (world.act action).Honest := honest_aside world _ aside honest
  have taken (finished : world.call.finished = true) : world.machine.panel.sourceTaken = false := by
    have held := kept.held.taken
    rwa [free, Bool.false_or, (Call.finished_idle world.call finished).2] at held
  cases action with
  | task task =>
      cases task with
      | main => exact main_honest world kept free honest
      | drain => exact drain_honest world honest
      | send => exact aside (send_aside world)
      | listen => exact aside (aside_same world _ rfl rfl rfl rfl rfl)
      | receive =>
          show world.receive.Honest
          obtain same | ⟨line, -, takes⟩ := receive_cases world
          · rwa [same]
          · rw [takes]
            exact honest_aside world _ (aside_same world _ rfl rfl rfl rfl rfl) honest
  | step =>
      show world.step.Honest
      obtain same | ⟨finished, enters⟩ := step_cases world
      · rwa [same]
      · rw [enters, StepCall.enter, Panel.take_source_free world.machine.panel (taken finished)]
        exact fun unlinked => by simpa using unlinked
  | start token =>
      show (world.start token).Honest
      obtain same | ⟨-, claims⟩ := start_cases world token
      · rwa [same]
      · rw [claims]
        unfold RunCall.claim
        cases world.machine.panel.mode with
        | running => exact nofun
        | stopped => trivial
  | issue => exact aside (aside_same world _ rfl rfl rfl rfl rfl)
  | cancel token =>
      unfold act
      dsimp only
      split
      · exact honest_aside world _ (aside_same world _ rfl rfl rfl rfl rfl) honest
      · exact honest
  | markStopped => exact aside (aside_same world _ rfl rfl rfl rfl rfl)
  | fireSlot =>
      have same := Panel.fire_slot_same world.machine.panel
      refine aside (aside_same world _ rfl ?_ same.source rfl rfl)
      simp only [act, Panel.fireSlot]
      cases world.machine.panel.slot <;> rfl
  | dropOutput => exact aside (aside_same world _ rfl rfl rfl rfl rfl)

theorem run_honest (world : World) (actions : List Action) (kept : origin.Conserved world)
    (free : origin.machine.panel.sourceTaken = false) (honest : world.Honest) : (world.run actions).Honest := by
  induction actions generalizing world with
  | nil => exact honest
  | cons action rest ih =>
      exact ih (world.act action) (act_conserves world action kept) (act_honest world action kept free honest)

/-- A call that finds its input closed stands at a GETC that it has only looked at. The sender is done, or was gone
before. Nothing is queued or on the line, so what the program has taken is all that was ever there to be typed. -/
theorem input_closed_is_exhausted (machine : Machine) (text : List Char) (hangsUp : Bool) (tokens : List Token)
    (actions : List Action) (world : World) (free : machine.panel.sourceTaken = false)
    (reached : world = World.run { machine, unsent := text, hangsUp, tokens } actions)
    (closed : world.call = .step (.returned (.ok .inputClosed)) ∨
      ∃ steps, world.call = .run (.returned ⟨steps, .inputClosed⟩)) :
    world.machine.panel.hasSender = false ∧
      ((world.history.sent = text ∧ hangsUp = true) ∨ machine.panel.hasSender = false) ∧
      world.machine.panel.channel = [] ∧ world.machine.panel.keyboard.queue = #[] ∧
      world.history.taken =
        machine.panel.keyboard.queue.toList ++ codes (machine.panel.channel ++ world.history.sent) ∧
      Instruction.decode world.machine.core.word = .ok (.trap .getc) ∧
      world.history.looked.getLast? = some world.machine.core := by
  have kept : Conserved { machine, unsent := text, hangsUp, tokens } world :=
    reached ▸ run_conserves _ actions (conserved_initial machine text hangsUp tokens)
  have honest : world.Honest :=
    reached ▸ run_honest _ actions (conserved_initial machine text hangsUp tokens) free trivial
  unfold Honest at honest
  have concluded : world.machine.Exhausted world.history.looked ∧ world.call.inFlight = none := by
    obtain called | ⟨steps, called⟩ := closed <;> rw [called] at honest ⊢ <;> exact ⟨honest rfl, rfl⟩
  obtain ⟨⟨⟨⟨getc, last⟩, empty⟩, ⟨gone, nothing⟩⟩, inFlight⟩ := concluded
  refine ⟨gone, ?_, nothing, empty, ?_, getc, last⟩
  · obtain ⟨unsent, hung⟩ | sender := kept.sender
    · have order := kept.order
      rw [unsent, List.append_nil] at order
      exact .inl ⟨order, kept.promise.symm.trans hung⟩
    · exact .inr (sender.symm.trans gone)
  · have balance := kept.balance
    simp only [Panel.stored, inFlight, nothing, empty] at balance
    simpa [codes] using balance

def askingMemory : Memory := (Memory.zero.write 0 0xF020).write 1 0xF020

def asking (memory : Memory) : Machine := { core := { memory }, panel := { source := some { capacity := 1 } } }

def asked : List Action :=
  [.start ⟨0⟩, .task .main, .task .send, .task .drain, .task .drain, .task .drain, .task .send, .task .drain,
    .task .drain, .task .drain, .task .send, .task .drain, .task .drain] ++
    List.replicate 12 (.task .main) ++ [.task .drain, .task .main]

open Turns

theorem asking_runs (memory : Memory) (first : memory.read 0 = 0xF020) (second : memory.read 1 = 0xF020)
    (clear : memory.read 0xFE00 = 0) :
    (World.run { machine := asking memory, unsent := ['a', '😀'], hangsUp := true, tokens := [⟨0⟩] } asked).call =
        .run (.returned ⟨1, .inputClosed⟩) ∧
      (World.run { machine := asking memory, unsent := ['a', '😀'], hangsUp := true, tokens := [⟨0⟩] }
        asked).history.sent = ['a', '😀'] := by
  have getc : Instruction.decode 0xF020 = .ok (.trap .getc) := rfl
  simp [asking, asked, List.replicate, first, second, clear, getc]

theorem input_closed_is_exhausted_asking :
    let world := World.run { machine := asking askingMemory, unsent := ['a', '😀'], hangsUp := true, tokens := [⟨0⟩] }
      asked
    world.call = .run (.returned ⟨1, .inputClosed⟩) ∧ world.history.taken = [0x61] ∧
      world.history.looked.getLast? = some world.machine.core := by
  intro world
  have first : askingMemory.read 0 = 0xF020 := by simp [askingMemory, Memory.read_write]
  have second : askingMemory.read 1 = 0xF020 := by simp [askingMemory, Memory.read_write]
  have clear : askingMemory.read 0xFE00 = 0 := by simp [askingMemory, Memory.read_write, Memory.read_zero]
  obtain ⟨returns, sent⟩ := asking_runs askingMemory first second clear
  obtain ⟨-, -, -, -, taken, -, last⟩ := input_closed_is_exhausted (asking askingMemory) ['a', '😀'] true [⟨0⟩] asked
    world rfl rfl (.inr ⟨1, returns⟩)
  refine ⟨returns, ?_, last⟩
  rw [taken, sent]
  rfl

end World

end LittleComputer
