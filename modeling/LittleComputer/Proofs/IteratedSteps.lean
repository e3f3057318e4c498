import LittleComputer.Proofs.ScheduleIndependence
import LittleComputer.Proofs.StepCall

set_option autoImplicit false

namespace LittleComputer

namespace Machine

def skipped (machine : Machine) : Machine :=
  machine.loadRegisters { machine.core.registers with pc := machine.core.registers.pc + 1 }

-- A host steps the machine until there is a reason to stop, and counts what is completed. Under the lenient policy it
-- goes on behind a word that fails.
inductive Repeats (policy : Policy) : Machine → Nat → Ending → Machine → Prop where
  | retired (machine later last : Machine) (steps : Nat) (ending : Ending)
      (step : machine.step = (later, .returned (.ok .retired))) (rest : Repeats policy later steps ending last) :
      Repeats policy machine (steps + 1) ending last
  | skipped (machine later last : Machine) (steps : Nat) (ending : Ending) (fault : Fault)
      (step : machine.step = (later, .returned (.error fault))) (continues : policy = .continue)
      (rest : Repeats policy later.skipped steps ending last) : Repeats policy machine steps ending last
  | halted (machine last : Machine) (step : machine.step = (last, .returned (.ok .halted))) :
      Repeats policy machine 1 .halted last
  | closed (machine last : Machine) (step : machine.step = (last, .returned (.ok .inputClosed))) :
      Repeats policy machine 0 .inputClosed last
  | interrupted (machine last : Machine) (step : machine.step = (last, .returned (.ok .interrupted))) :
      Repeats policy machine 0 .cancelled last
  | faulted (machine last : Machine) (fault : Fault) (step : machine.step = (last, .returned (.error fault)))
      (halts : policy = .halt) : Repeats policy machine 0 (.faulted fault) last

theorem repeats_faulted (policy : Policy) (machine last : Machine) (steps : Nat) (ending : Ending) (fault : Fault)
    (repeats : Repeats policy machine steps ending last) (same : ending = .faulted fault) : policy = .halt := by
  induction repeats with
  | retired _ _ _ _ _ _ _ ih => exact ih same
  | skipped _ _ _ _ _ _ _ _ _ ih => exact ih same
  | faulted _ _ _ _ halts => exact halts
  | _ => cases same

structure Matches (running other : Machine) : Prop where
  alike : running.Alike other.begun.2
  unplugged : other.panel.source = none
  uncancelled : other.panel.Uncancelled

theorem alike_symm (left right : Machine) (alike : left.Alike right) : right.Alike left :=
  ⟨alike.core.symm, alike.keyboard.symm, alike.sink.symm, alike.config.symm⟩

theorem alike_trans (left middle right : Machine) (first : left.Alike middle) (second : middle.Alike right) :
    left.Alike right :=
  ⟨first.core.trans second.core, first.keyboard.trans second.keyboard, first.sink.trans second.sink,
    first.config.trans second.config⟩

theorem begun_alike (machine : Machine) (closed : machine.panel.keyboard.closed = true) :
    machine.Alike machine.begun.2 := by
  obtain ⟨core, config, keyboard, sink, -⟩ := begun_sees machine
  refine ⟨core.symm, ?_, sink.symm, config.symm⟩
  rw [keyboard, Keyboard.setClosed, ← closed]

theorem matches_skipped (running other : Machine) (same : running.Matches other) :
    Matches { running with core := running.core.setPc (running.core.registers.pc + 1) } other.skipped := by
  obtain ⟨core, config, keyboard, sink, -⟩ := begun_sees other
  obtain ⟨skippedCore, skippedConfig, skippedKeyboard, skippedSink, -⟩ := begun_sees other.skipped
  have alike := same.alike
  refine ⟨⟨?_, ?_, ?_, ?_⟩, same.unplugged, same.uncancelled⟩
  · rw [skippedCore, alike.core, core]
    rfl
  · exact alike.keyboard.trans (keyboard.trans skippedKeyboard.symm)
  · exact alike.sink.trans (sink.trans skippedSink.symm)
  · exact alike.config.trans (config.trans skippedConfig.symm)

section
variable (token : Token) (running other : Machine) (result : Except Fault Outcome)
  (same : running.Matches other) (unfired : running.panel.isFired token = false)
include same unfired

theorem settles_steps (count : Nat) (last : Machine)
    (settles : Attempt.Settles token count .latch running result last) :
    ∃ returned, other.step = (returned, .returned result) ∧ last.Alike returned ∧ last.config = running.config ∧
      result ≠ .ok .interrupted ∧
      (result ≠ .ok .halted → last.Matches returned ∧ last.panel.isFired token = false) := by
  have drained : other.drained = other :=
    congrArg (fun panel => { other with panel }) (drained_unplugged other.panel same.unplugged)
  have otherUnfired := begun_unfired other same.uncancelled
  obtain ⟨otherLast, otherSettles, alike⟩ :=
    Attempt.settles_alike token other.begun.1 count .latch running other.begun.2 last result settles same.alike unfired
      otherUnfired
  have finished : other.panel.Finished := by
    constructor <;> intro line source <;> rw [same.unplugged] at source <;> cases source
  have step := StepCall.step_returns other otherLast finished count result (by rw [drained]; exact otherSettles)
  obtain ⟨untouched, tokens⟩ := Attempt.settles_keeps token count .latch running last result settles
  obtain ⟨otherUntouched, otherTokens⟩ :=
    Attempt.settles_keeps other.begun.1 count .latch other.begun.2 otherLast result otherSettles
  refine ⟨otherLast.left, step, alike_trans _ _ _ alike (left_alike otherLast), untouched.config,
    Attempt.settles_uninterrupted token count .latch running last result settles unfired trivial nofun,
    fun going => ⟨?_, (Panel.same_run_fired _ _ (tokens going) token).trans unfired⟩⟩
  obtain ⟨-, -, keyboard, -, source⟩ := begun_sees other
  have uncancelled := uncancelled_same _ _ (begun_uncancelled other same.uncancelled) (otherTokens going)
  have closed : otherLast.panel.keyboard.closed = true := otherUntouched.closed.trans (by rw [keyboard]; rfl)
  rw [left_same otherLast uncancelled]
  exact ⟨alike_trans _ _ _ alike (begun_alike otherLast closed),
    otherUntouched.source.trans (source.trans same.unplugged), uncancelled⟩

theorem step_settles (returned : Machine) (step : other.step = (returned, .returned result)) :
    ∃ count last, Attempt.Settles token count .latch running result last ∧ last.Alike returned ∧
      last.config = running.config ∧ result ≠ .ok .interrupted ∧
      (result ≠ .ok .halted → last.Matches returned ∧ last.panel.isFired token = false) := by
  have drained : other.drained = other :=
    congrArg (fun panel => { other with panel }) (drained_unplugged other.panel same.unplugged)
  have finished : other.panel.Finished := by
    constructor <;> intro line source <;> rw [same.unplugged] at source <;> cases source
  obtain ⟨count, otherLast, otherSettles, -⟩ := StepCall.returned_settles other returned finished result step
  rw [drained] at otherSettles
  obtain ⟨last, settles, -⟩ := Attempt.settles_alike other.begun.1 token count .latch other.begun.2 running otherLast
    result otherSettles (alike_symm _ _ same.alike) (begun_unfired other same.uncancelled) unfired
  obtain ⟨known, stepped, rest⟩ := settles_steps token running other result same unfired count last settles
  obtain rfl : known = returned := congrArg Prod.fst (stepped.symm.trans step)
  exact ⟨count, last, settles, rest⟩

end

theorem stopped_alike (machine other : Machine) (token : Token) (alike : machine.Alike other) :
    Machine.Alike { machine with panel := machine.panel.stopRun token } other :=
  ⟨alike.core, alike.keyboard, alike.sink, alike.config⟩

end Machine

namespace Execution

inductive Ends (token : Token) : Nat → Execution → Machine → RunReport → Machine → Prop where
  | ended (steps : Nat) (ending : Ending) (machine : Machine) (fired : machine.panel.isFired token = true) :
      Ends token 0 ⟨steps, .ended ending⟩ machine ⟨steps, ending⟩ machine
  | turn (count : Nat) (execution next : Execution) (machine later last : Machine) (report : RunReport)
      (turned : execution.turn token machine = (later, some next)) (rest : Ends token count next later report last) :
      Ends token (count + 1) execution machine report last

variable {token : Token}

theorem stop_run_fired (panel : Panel) : (panel.stopRun token).isFired token = true := panel.fire_fired token

theorem ends_turned (count : Nat) (execution next : Execution) (machine later last : Machine) (report : RunReport)
    (ends : Ends token count execution machine report last)
    (turned : execution.turn token machine = (later, some next)) :
    ∃ less, count = less + 1 ∧ Ends token less next later report last := by
  cases ends with
  | ended => cases turned
  | turn count _ other _ after _ _ goes rest =>
      rw [turned] at goes
      cases goes
      exact ⟨count, rfl, rest⟩

theorem ends_stopping (count steps : Nat) (ending : Ending) (machine last : Machine) (report : RunReport)
    (ends : Ends token count ⟨steps, .stopping ending⟩ machine report last) :
    report = ⟨steps, ending⟩ ∧ last = { machine with panel := machine.panel.stopRun token } := by
  obtain ⟨less, -, rest⟩ := ends_turned count _ _ machine _ last report ends rfl
  cases rest with
  | ended => exact ⟨rfl, rfl⟩
  | turn _ _ _ _ _ _ _ goes => cases goes

theorem stopping_ends (steps : Nat) (ending : Ending) (machine : Machine) :
    Ends token 1 ⟨steps, .stopping ending⟩ machine ⟨steps, ending⟩
      { machine with panel := machine.panel.stopRun token } :=
  .turn 0 _ ⟨steps, .ended ending⟩ machine _ _ _ rfl (.ended steps ending _ (stop_run_fired machine.panel))

theorem ends_stops (count steps counted : Nat) (result : Except Fault Outcome) (ending : Ending)
    (machine last : Machine) (report : RunReport)
    (ends : Ends token count ⟨steps, .attempt (.done result)⟩ machine report last)
    (concluded : conclude steps result machine = (machine, ⟨counted, .stopping ending⟩)) :
    report = ⟨counted, ending⟩ ∧ last = { machine with panel := machine.panel.stopRun token } := by
  obtain ⟨less, -, rest⟩ :=
    ends_turned count _ _ machine machine last report ends (congrArg (Prod.map id some) concluded)
  exact ends_stopping less counted ending machine last report rest

theorem attempting_turn (steps : Nat) (attempt next : Attempt) (machine later : Machine)
    (turned : attempt.turn token machine = (later, some next)) :
    turn token ⟨steps, .attempt attempt⟩ machine = (later, some ⟨steps, .attempt next⟩) := by
  have going (result : Except Fault Outcome) : attempt ≠ .done result := by
    rintro rfl
    cases turned
  rw [Call.execution_turn_attempt token steps attempt machine going, turned]
  rfl

theorem settles_ends (count rest steps : Nat) (attempt : Attempt) (machine middle last : Machine)
    (result : Except Fault Outcome) (report : RunReport)
    (settles : Attempt.Settles token count attempt machine result middle)
    (ends : Ends token rest ⟨steps, .attempt (.done result)⟩ middle report last) :
    Ends token (rest + count) ⟨steps, .attempt attempt⟩ machine report last := by
  induction settles with
  | done result machine => exact ends
  | turn count attempt next machine later middle result turned _ ih =>
      exact .turn (rest + count) _ _ machine later last report
        (attempting_turn steps attempt next machine later turned) (ih ends)

theorem ends_settles (count steps : Nat) (attempt : Attempt) (machine last : Machine) (report : RunReport)
    (ends : Ends token count ⟨steps, .attempt attempt⟩ machine report last) :
    ∃ taken rest result middle, Attempt.Settles token taken attempt machine result middle ∧
      Ends token rest ⟨steps, .attempt (.done result)⟩ middle report last ∧ rest ≤ count := by
  induction count generalizing attempt machine with
  | zero => cases ends
  | succ count ih =>
      obtain ⟨result, rfl⟩ | turns := Call.execution_turn_cases token steps attempt machine
      · exact ⟨0, count + 1, result, machine, .done result machine, ends, Nat.le_refl _⟩
      · cases ends with
        | turn _ _ next _ later _ _ turned rest =>
            rw [turns] at turned
            rcases step : attempt.turn token machine with ⟨after, _ | further⟩ <;> rw [step] at turned <;> cases turned
            obtain ⟨taken, left, result, middle, settles, ends, fewer⟩ := ih further after rest
            have longer := Attempt.Settles.turn taken attempt further machine after middle result step settles
            exact ⟨taken + 1, left, result, middle, longer, ends, Nat.le_succ_of_le fewer⟩

theorem ends_repeats (count steps : Nat) (running other last : Machine) (report : RunReport)
    (same : running.Matches other) (unfired : running.panel.isFired token = false)
    (ends : Ends token count ⟨steps, .check⟩ running report last) :
    ∃ more returned, report.steps = steps + more ∧
      Machine.Repeats running.config.policy other more report.ending returned ∧ last.Alike returned ∧
      report.ending ≠ .cancelled := by
  -- each step uses up the turns of its own attempt, so the rest of the run has fewer
  induction count using Nat.strongRecOn generalizing steps running other with
  | ind count ih =>
      obtain ⟨less, rfl, attempts⟩ := ends_turned count _ _ running running last report ends
        (check_unfired token steps running unfired)
      obtain ⟨taken, rest, result, middle, settles, done, fewer⟩ :=
        ends_settles less steps .latch running last report attempts
      obtain ⟨returned, step, alike, config, granted, onwards⟩ :=
        Machine.settles_steps token running other result same unfired taken middle settles
      rw [← config]
      cases result with
      | ok outcome =>
          cases outcome with
          | retired =>
              obtain ⟨again, unfired⟩ := onwards nofun
              obtain ⟨left, rfl, next⟩ := ends_turned rest _ ⟨steps + 1, .check⟩ middle middle last report done rfl
              obtain ⟨more, final, counted, repeats, alike, ending⟩ :=
                ih left (by omega) (steps + 1) middle returned again unfired next
              exact ⟨more + 1, final, by omega, .retired other returned final more _ step repeats, alike, ending⟩
          | halted =>
              obtain ⟨rfl, rfl⟩ := ends_stops rest steps (steps + 1) _ .halted middle last report done rfl
              have matched := Machine.stopped_alike middle returned token alike
              exact ⟨1, returned, rfl, .halted other returned step, matched, nofun⟩
          | interrupted => exact absurd rfl granted
          | inputClosed =>
              obtain ⟨rfl, rfl⟩ := ends_stops rest steps steps _ .inputClosed middle last report done rfl
              have matched := Machine.stopped_alike middle returned token alike
              exact ⟨0, returned, rfl, .closed other returned step, matched, nofun⟩
      | error fault =>
          cases policy : middle.config.policy with
          | halt =>
              have stops := conclude_halt steps fault middle policy
              obtain ⟨rfl, rfl⟩ := ends_stops rest steps steps _ (.faulted fault) middle last report done stops
              have matched := Machine.stopped_alike middle returned token alike
              exact ⟨0, returned, rfl, .faulted other returned fault step rfl, matched, nofun⟩
          | «continue» =>
              obtain ⟨again, unfired⟩ := onwards nofun
              obtain ⟨left, rfl, next⟩ := ends_turned rest _ ⟨steps, .check⟩ middle _ last report done
                (congrArg (Prod.map id some) (conclude_continue steps fault middle policy))
              obtain ⟨more, final, counted, repeats, alike, ending⟩ :=
                ih left (by omega) steps _ returned.skipped (Machine.matches_skipped middle returned again) unfired next
              rw [policy] at repeats
              exact ⟨more, final, counted, .skipped other returned final more _ fault step rfl repeats, alike, ending⟩

theorem attempt_ends (count steps : Nat) (result : Except Fault Outcome) (running middle after last : Machine)
    (next : Execution) (report : RunReport) (unfired : running.panel.isFired token = false) (taken : Nat)
    (settles : Attempt.Settles token taken .latch running result middle)
    (concluded : conclude steps result middle = (after, next)) (ends : Ends token count next after report last) :
    ∃ count, Ends token count ⟨steps, .check⟩ running report last := by
  have done : Ends token (count + 1) ⟨steps, .attempt (.done result)⟩ middle report last :=
    .turn count _ next middle after last report (congrArg (Prod.map id some) concluded) ends
  exact ⟨_, .turn _ _ _ running running last report (check_unfired token steps running unfired)
    (settles_ends taken (count + 1) steps .latch running middle last result report settles done)⟩

theorem repeats_ends (policy : Policy) (other returned : Machine) (more : Nat) (ending : Ending)
    (repeats : Machine.Repeats policy other more ending returned) (steps : Nat) (running : Machine)
    (same : running.Matches other) (unfired : running.panel.isFired token = false)
    (lenience : running.config.policy = policy) :
    ∃ count last, Ends token count ⟨steps, .check⟩ running ⟨steps + more, ending⟩ last ∧ last.Alike returned := by
  -- the other way the turns of the attempts are put together, from the last step back
  induction repeats generalizing running steps with
  | retired other later returned more ending step rest ih =>
      obtain ⟨taken, middle, settles, -, config, -, onwards⟩ :=
        Machine.step_settles token running other _ same unfired later step
      obtain ⟨again, still⟩ := onwards nofun
      obtain ⟨count, last, ends, alike⟩ := ih (steps + 1) middle again still (by rw [config, lenience])
      rw [Nat.add_right_comm] at ends
      obtain ⟨total, ends⟩ := attempt_ends count steps _ running middle middle last _ _ unfired taken settles rfl ends
      exact ⟨total, last, ends, alike⟩
  | skipped other later returned more ending fault step continues rest ih =>
      obtain ⟨taken, middle, settles, -, config, -, onwards⟩ :=
        Machine.step_settles token running other _ same unfired later step
      obtain ⟨again, still⟩ := onwards nofun
      obtain ⟨count, last, ends, alike⟩ := ih steps _ (Machine.matches_skipped middle later again) still
        (by rw [config, lenience])
      have concluded := conclude_continue steps fault middle (by rw [config, lenience, continues])
      obtain ⟨total, ends⟩ := attempt_ends count steps _ running middle _ last _ _ unfired taken settles concluded ends
      exact ⟨total, last, ends, alike⟩
  | halted other returned step =>
      obtain ⟨taken, middle, settles, alike, -⟩ := Machine.step_settles token running other _ same unfired returned step
      obtain ⟨total, ends⟩ := attempt_ends 1 steps _ running middle middle _ _ _ unfired taken settles rfl
        (stopping_ends (steps + 1) .halted middle)
      exact ⟨total, _, ends, Machine.stopped_alike middle returned token alike⟩
  | closed other returned step =>
      obtain ⟨taken, middle, settles, alike, -⟩ := Machine.step_settles token running other _ same unfired returned step
      obtain ⟨total, ends⟩ := attempt_ends 1 steps _ running middle middle _ _ _ unfired taken settles rfl
        (stopping_ends steps .inputClosed middle)
      exact ⟨total, _, ends, Machine.stopped_alike middle returned token alike⟩
  | interrupted other returned step =>
      obtain ⟨taken, middle, settles, -, -, granted, -⟩ :=
        Machine.step_settles token running other _ same unfired returned step
      exact absurd rfl granted
  | faulted other returned fault step halts =>
      obtain ⟨taken, middle, settles, alike, config, -⟩ :=
        Machine.step_settles token running other _ same unfired returned step
      have concluded := conclude_halt steps fault middle (by rw [config, lenience, halts])
      obtain ⟨total, ends⟩ := attempt_ends 1 steps _ running middle middle _ _ _ unfired taken settles concluded
        (stopping_ends steps (.faulted fault) middle)
      exact ⟨total, _, ends, Machine.stopped_alike middle returned token alike⟩

end Execution

namespace Execution

variable {token : Token}

theorem turn_waits (execution : Execution) (machine later : Machine)
    (turned : execution.turn token machine = (later, none)) : later = machine := by
  rcases execution with ⟨steps, phase⟩
  cases phase with
  | attempt attempt =>
      obtain ⟨result, rfl⟩ | goes := Call.execution_turn_cases token steps attempt machine
      · cases turned
      · rw [goes] at turned
        rcases step : attempt.turn token machine with ⟨after, _ | next⟩ <;> rw [step] at turned <;> cases turned
        exact Attempt.turn_waits token attempt machine after step
  | ended ending =>
      cases turned
      rfl
  | check => cases turned
  | stopping ending => cases turned

theorem turn_fires (execution next : Execution) (machine later : Machine)
    (turned : execution.turn token machine = (later, some next)) (ending : Ending) (past : next.phase = .ended ending) :
    later.panel.isFired token = true := by
  rcases execution with ⟨steps, phase⟩
  cases phase with
  | check =>
      obtain rfl := Option.some.inj (congrArg Prod.snd turned)
      cases fired : machine.panel.isFired token <;> simp only [fired] at past <;> cases past
  | attempt attempt =>
      obtain ⟨result, rfl⟩ | goes := Call.execution_turn_cases token steps attempt machine
      · have same : (conclude steps result machine).2 = next := Option.some.inj (congrArg Prod.snd turned)
        obtain check | ⟨other, stopping⟩ := conclude_phase steps result machine
        · rw [← same, check] at past
          cases past
        · rw [← same, stopping] at past
          cases past
      · rw [goes] at turned
        rcases step : attempt.turn token machine with ⟨after, _ | further⟩ <;> rw [step] at turned <;> cases turned
        cases past
  | stopping ending =>
      cases turned
      exact stop_run_fired machine.panel
  | ended ending => cases turned

end Execution

namespace World

variable {token : Token} {report : RunReport}

structure Underway (token : Token) (world : World) (execution : Execution) (drain : Drain) : Prop where
  called : world.call = .run (.active token execution drain)
  idle : drain = .idle ∨ drain = .ended false
  fired : ∀ ending, execution.phase = .ended ending → world.machine.panel.isFired token = true

def Undisturbed (tasks : List Task) : Prop := ∀ task ∈ tasks, task = .main ∨ task = .drain

theorem drain_underway (world : World) (execution : Execution) (drain : Drain)
    (underway : world.Underway token execution drain) :
    world.drain.machine = world.machine ∧ ∃ later, world.drain.Underway token execution later ∧
      (world.machine.panel.isFired token = true → later = .ended false) := by
  have turned := drain_active world execution drain underway.called
  obtain rfl | rfl := underway.idle
  · cases fired : world.machine.panel.isFired token with
    | true =>
        simp only [Drain.turn, fired] at turned
        exact ⟨by rw [turned]; rfl, .ended false, ⟨by rw [turned]; rfl, .inr rfl, by rw [turned]; exact underway.fired⟩,
          fun _ => rfl⟩
    | false =>
        simp only [Drain.turn, fired] at turned
        refine ⟨by rw [turned]; rfl, .idle, ⟨by rw [turned]; rfl, .inl rfl, by rw [turned]; exact underway.fired⟩, ?_⟩
        rintro ⟨⟩
  · exact ⟨by rw [turned]; rfl, .ended false, ⟨by rw [turned]; rfl, .inr rfl, by rw [turned]; exact underway.fired⟩,
      fun _ => rfl⟩

theorem main_leaves (world : World) (steps : Nat) (ending : Ending)
    (called : world.call = .run (.active token ⟨steps, .ended ending⟩ (.ended false))) :
    world.main.call = .run (.returned ⟨steps, ending⟩) ∧
      world.main.machine = { world.machine with panel := RunCall.leave false world.machine.panel } := by
  simp only [World.main, called]
  exact ⟨rfl, rfl⟩

theorem main_waits (world : World) (execution : Execution) (drain : Drain) (later : Machine)
    (underway : world.Underway token execution drain)
    (apart : ∀ ending, execution.phase = .ended ending → drain ≠ .ended false)
    (turned : execution.turn token world.machine = (later, none)) :
    world.main.machine = world.machine ∧ world.main.Underway token execution drain := by
  obtain rfl := Execution.turn_waits execution world.machine later turned
  have main := main_active world execution drain underway.called fun ending linked past same => by
    obtain idle | ended := underway.idle
    · cases idle.symm.trans same
    · exact apart ending past ended
  rw [turned] at main
  rw [main]
  exact ⟨rfl, rfl, underway.idle, underway.fired⟩

theorem main_goes (world : World) (execution next : Execution) (drain : Drain) (later : Machine)
    (underway : world.Underway token execution drain)
    (turned : execution.turn token world.machine = (later, some next)) :
    world.main.machine = later ∧ world.main.Underway token next drain := by
  have main := main_active world execution drain underway.called fun ending linked past _ => by
    rcases execution with ⟨steps, phase⟩
    cases past
    cases turned
  rw [turned] at main
  rw [main]
  exact ⟨rfl, rfl, underway.idle, Execution.turn_fires execution next world.machine later turned⟩

theorem returned_stays (world : World) (tasks : List Task) (called : world.call = .run (.returned report))
    (own : Undisturbed tasks) : world.schedule tasks = world := by
  induction tasks with
  | nil => rfl
  | cons task rest ih =>
      have same : world.perform task = world := by
        obtain rfl | rfl := own task List.mem_cons_self
        · rcases world with ⟨machine, call, unsent, hangsUp, tokens, history⟩
          cases called
          rfl
        · exact drain_inactive world fun _ _ _ active => by rw [called] at active; cases active
      rw [schedule, List.foldl_cons, same]
      exact ih fun task member => own task (List.mem_cons_of_mem _ member)

theorem schedule_ends (tasks : List Task) (own : Undisturbed tasks) (world : World) (execution : Execution)
    (drain : Drain) (underway : world.Underway token execution drain)
    (returns : (world.schedule tasks).call = .run (.returned report)) :
    ∃ count last, Execution.Ends token count execution world.machine report last ∧
      (world.schedule tasks).machine = { last with panel := RunCall.leave false last.panel } := by
  induction tasks generalizing world execution drain with
  | nil =>
      cases underway.called.symm.trans returns
  | cons task rest ih =>
      have ownRest : Undisturbed rest := fun task member => own task (List.mem_cons_of_mem _ member)
      obtain rfl | rfl := own task List.mem_cons_self
      · by_cases leaves : (∃ ending, execution.phase = .ended ending) ∧ drain = .ended false
        · rcases execution with ⟨steps, phase⟩
          obtain ⟨⟨ending, rfl⟩, rfl⟩ := leaves
          obtain ⟨called, left⟩ := main_leaves world steps ending underway.called
          have stays : world.schedule (.main :: rest) = world.main := returned_stays world.main rest called ownRest
          rw [stays] at returns ⊢
          cases called.symm.trans returns
          exact ⟨0, world.machine, .ended steps ending _ (underway.fired ending rfl), left⟩
        · rcases turned : execution.turn token world.machine with ⟨later, _ | next⟩
          · obtain ⟨same, still⟩ := main_waits world execution drain later underway
              (fun ending past ended => leaves ⟨⟨ending, past⟩, ended⟩) turned
            rw [← same]
            exact ih ownRest world.main execution drain still returns
          · obtain ⟨rfl, still⟩ := main_goes world execution next drain later underway turned
            obtain ⟨count, last, ends, left⟩ := ih ownRest world.main next drain still returns
            exact ⟨count + 1, last, .turn count execution next world.machine _ last report turned ends, left⟩
      · obtain ⟨same, later, still, -⟩ := drain_underway world execution drain underway
        rw [← same]
        exact ih ownRest world.drain execution later still returns

-- The turns that a run still needs, in this order. Others may come in between.
inductive Awaits (token : Token) (report : RunReport) (last : Machine) (plan : List Task) (world : World) : Prop where
  | running (turns count : Nat) (execution : Execution) (drain : Drain)
      (planned : plan = List.replicate turns .main ++ [.drain, .main]) (underway : world.Underway token execution drain)
      (ends : execution.Ends token count world.machine report last) (enough : count ≤ turns)
  | drained (planned : plan = [.main]) (execution : Execution)
      (underway : world.Underway token execution (.ended false))
      (ends : execution.Ends token 0 world.machine report last)
  | returned (called : world.call = .run (.returned report))
      (left : world.machine = { last with panel := RunCall.leave false last.panel })

section
variable (world : World) (last : Machine)

theorem main_advances (count : Nat) (execution : Execution) (drain : Drain)
    (underway : world.Underway token execution drain) (ends : execution.Ends token count world.machine report last) :
    (drain = .ended false ∧ world.main.call = .run (.returned report) ∧
        world.main.machine = { last with panel := RunCall.leave false last.panel }) ∨
      (∃ less next, count = less + 1 ∧ world.main.Underway token next drain ∧
        next.Ends token less world.main.machine report last) ∨
      (drain = .idle ∧ count = 0 ∧ world.main.Underway token execution drain ∧
        execution.Ends token 0 world.main.machine report last) := by
  cases ends with
  | ended steps ending _ fired =>
      obtain rfl | rfl := underway.idle
      · obtain ⟨same, still⟩ := main_waits world ⟨steps, .ended ending⟩ .idle world.machine underway nofun rfl
        refine .inr (.inr ⟨rfl, rfl, still, ?_⟩)
        rw [same]
        exact .ended steps ending _ fired
      · exact .inl ⟨rfl, main_leaves world steps ending underway.called⟩
  | turn less _ next _ later _ _ turned rest =>
      obtain ⟨rfl, still⟩ := main_goes world execution next drain later underway turned
      exact .inr (.inl ⟨less, next, rfl, still, rest⟩)

theorem drain_advances (count : Nat) (execution : Execution) (drain : Drain)
    (underway : world.Underway token execution drain) (ends : execution.Ends token count world.machine report last) :
    ∃ later, world.drain.Underway token execution later ∧ execution.Ends token count world.drain.machine report last ∧
      (count = 0 → later = .ended false) := by
  obtain ⟨same, later, still, past⟩ := drain_underway world execution drain underway
  rw [same]
  refine ⟨later, still, ends, ?_⟩
  rintro rfl
  cases ends with
  | ended _ _ _ fired => exact past fired

theorem awaits_perform (plan : List Task) (task : Task) (own : task = .main ∨ task = .drain)
    (awaits : world.Awaits token report last plan) : (world.perform task).Awaits token report last plan := by
  cases awaits with
  | running turns count execution drain planned underway ends enough =>
      obtain rfl | rfl := own
      · obtain ⟨-, called, left⟩ | ⟨less, next, rfl, still, ends⟩ | ⟨-, rfl, still, ends⟩ :=
          main_advances world last count execution drain underway ends
        · exact .returned called left
        · exact .running turns less next drain planned still ends (Nat.le_of_succ_le enough)
        · exact .running turns 0 execution drain planned still ends enough
      · obtain ⟨later, still, ends, -⟩ := drain_advances world last count execution drain underway ends
        exact .running turns count execution later planned still ends enough
  | drained planned execution underway ends =>
      obtain rfl | rfl := own
      · obtain ⟨-, called, left⟩ | ⟨less, next, none, -⟩ | ⟨idle, -⟩ :=
          main_advances world last 0 execution (.ended false) underway ends
        · exact .returned called left
        · cases none
        · cases idle
      · obtain ⟨later, still, ends, past⟩ := drain_advances world last 0 execution (.ended false) underway ends
        obtain rfl := past rfl
        exact .drained planned execution still ends
  | returned called left =>
      have stays : world.perform task = world := returned_stays world [task] called fun other member => by
        rw [List.mem_singleton.mp member]
        exact own
      rw [stays]
      exact .returned called left

theorem awaits_next (plan : List Task) (task : Task) (own : task = .main ∨ task = .drain)
    (awaits : world.Awaits token report last (task :: plan)) : (world.perform task).Awaits token report last plan := by
  cases awaits with
  | running turns count execution drain planned underway ends enough =>
      cases turns with
      | zero =>
          obtain ⟨rfl, rfl⟩ := List.cons.inj planned
          obtain rfl := Nat.le_zero.mp enough
          obtain ⟨later, still, ends, past⟩ := drain_advances world last 0 execution drain underway ends
          obtain rfl := past rfl
          exact .drained rfl execution still ends
      | succ turns =>
          obtain ⟨rfl, rfl⟩ := List.cons.inj planned
          obtain ⟨-, called, left⟩ | ⟨less, next, rfl, still, ends⟩ | ⟨-, rfl, still, ends⟩ :=
            main_advances world last count execution drain underway ends
          · exact .returned called left
          · exact .running turns less next drain rfl still ends (Nat.le_of_succ_le_succ enough)
          · exact .running turns 0 execution drain rfl still ends (Nat.zero_le turns)
  | drained planned execution underway ends =>
      obtain ⟨rfl, rfl⟩ := List.cons.inj planned
      obtain ⟨-, called, left⟩ | ⟨less, next, none, -⟩ | ⟨idle, -⟩ :=
        main_advances world last 0 execution (.ended false) underway ends
      · exact .returned called left
      · cases none
      · cases idle
  | returned called left =>
      have stays : world.perform task = world := returned_stays world [task] called fun other member => by
        rw [List.mem_singleton.mp member]
        exact own
      rw [stays]
      exact .returned called left

theorem schedule_returns (tasks plan : List Task) (own : Undisturbed tasks) (planned : plan.Sublist tasks)
    (awaits : world.Awaits token report last plan) :
    (world.schedule tasks).call = .run (.returned report) ∧
      (world.schedule tasks).machine = { last with panel := RunCall.leave false last.panel } := by
  induction planned generalizing world with
  | slnil =>
      cases awaits with
      | running turns _ _ _ planned => cases turns <;> cases planned
      | drained planned => cases planned
      | returned called left => exact ⟨called, left⟩
  | cons task _ ih =>
      exact ih (world.perform task) (fun other member => own other (List.mem_cons_of_mem _ member))
        (awaits_perform world last _ task (own task List.mem_cons_self) awaits)
  | cons_cons task _ ih =>
      exact ih (world.perform task) (fun other member => own other (List.mem_cons_of_mem _ member))
        (awaits_next world last _ task (own task List.mem_cons_self) awaits)

end

def entered (machine : Machine) (token : Token) : Machine :=
  { machine with panel := { machine.panel with mode := .running, slot := some token }.setClosed true }

theorem schedule_enters (tasks : List Task) (own : Undisturbed tasks) (world : World)
    (called : world.call = .run (.entering token)) :
    (.main ∉ tasks ∧ world.schedule tasks = world) ∨
      ∃ rest, world.schedule tasks = world.main.schedule rest ∧ Undisturbed rest ∧
        ∀ plan, (Task.main :: plan).Sublist tasks → plan.Sublist rest := by
  induction tasks with
  | nil => exact .inl ⟨List.not_mem_nil, rfl⟩
  | cons task rest ih =>
      have ownRest : Undisturbed rest := fun task member => own task (List.mem_cons_of_mem _ member)
      obtain rfl | rfl := own task List.mem_cons_self
      · exact .inr ⟨rest, rfl, ownRest, fun plan planned => List.cons_sublist_cons.mp planned⟩
      · have same : world.drain = world :=
          drain_inactive world fun _ _ _ active => by rw [called] at active; cases active
        have drained : world.schedule (.drain :: rest) = world.schedule rest := congrArg (·.schedule rest) same
        rw [drained]
        obtain ⟨unplanned, stays⟩ | ⟨left, goes, ownLeft, planned⟩ := ih ownRest
        · exact .inl ⟨by simpa using unplanned, stays⟩
        · refine .inr ⟨left, goes, ownLeft, fun plan sublist => planned plan ?_⟩
          cases sublist with
          | cons _ inner => exact inner

theorem entering_underway (machine : Machine) (token : Token) (unplugged : machine.panel.source = none)
    (world : World) (called : world.call = .run (.entering token))
    (same : world.machine = { machine with panel := { machine.panel with mode := .running, slot := some token } }) :
    world.main.machine = entered machine token ∧ world.main.Underway token {} .idle := by
  have entering : RunCall.enter token world.machine.panel =
      ((entered machine token).panel, .active token {} .idle) := by
    rw [same]
    simp only [RunCall.enter, Panel.takeSource, entered, unplugged, Option.isSome_none, Bool.false_and,
      Bool.false_eq_true, if_false]
    rfl
  have turned : world.main = { world with
      machine := { world.machine with panel := (RunCall.enter token world.machine.panel).1 }
      call := .run (RunCall.enter token world.machine.panel).2 } := by
    simp only [World.main, called]
    rfl
  rw [entering, same] at turned
  rw [turned]
  refine ⟨rfl, rfl, .inl rfl, ?_⟩
  rintro ending ⟨⟩

theorem entered_matches (machine : Machine) (token : Token) (unplugged : machine.panel.source = none)
    (uncancelled : machine.panel.Uncancelled) : (entered machine token).Matches machine := by
  obtain ⟨core, config, keyboard, sink, -⟩ := begun_sees machine
  exact ⟨⟨core.symm, keyboard.symm, sink.symm, config.symm⟩, unplugged, uncancelled⟩

/-- A run of a stopped machine without an input line, and a host that steps the same machine. If the run returns under
one order of its turns, the host comes to the same end. If the host does, the run returns once it has had enough turns,
in whatever order. The characters that it prints are on the output line, as far as there is room. -/
theorem runs_iterate_steps (machine : Machine) (token : Token) (start : World)
    (begun : start = World.start { machine, tokens := [token] } token) (stopped : machine.panel.mode = .stopped)
    (unplugged : machine.panel.source = none) (uncancelled : machine.panel.Uncancelled)
    (unfired : machine.panel.isFired token = false) :
    (∀ tasks report, Undisturbed tasks → (start.schedule tasks).call = .run (.returned report) →
        ∃ last, Machine.Repeats machine.config.policy machine report.steps report.ending last ∧
          (start.schedule tasks).machine.Alike last ∧ report.ending ≠ .cancelled ∧
          ∀ fault, report.ending = .faulted fault → machine.config.policy = .halt) ∧
      ∀ steps ending last, Machine.Repeats machine.config.policy machine steps ending last →
        ∃ turns, ∀ tasks, Undisturbed tasks →
          (List.replicate turns Task.main ++ [Task.drain, Task.main]).Sublist tasks →
          (start.schedule tasks).call = .run (.returned ⟨steps, ending⟩) ∧
            (start.schedule tasks).machine.Alike last := by
  rw [start_stopped machine [] false token stopped] at begun
  have called : start.call = .run (.entering token) := by rw [begun]
  have same := entered_matches machine token unplugged uncancelled
  obtain ⟨entered, underway⟩ := entering_underway machine token unplugged start called (by rw [begun])
  have left (last other : Machine) (alike : last.Alike other) :
      Machine.Alike { last with panel := RunCall.leave false last.panel } other :=
    ⟨alike.core, alike.keyboard, alike.sink, alike.config⟩
  refine ⟨fun tasks report own returns => ?_, fun steps ending other repeats => ?_⟩
  · obtain ⟨-, stays⟩ | ⟨rest, goes, ownRest, -⟩ := schedule_enters tasks own start called
    · rw [stays] at returns
      cases called.symm.trans returns
    · rw [goes] at returns ⊢
      obtain ⟨count, last, ends, final⟩ := schedule_ends rest ownRest start.main {} .idle underway returns
      rw [entered] at ends
      obtain ⟨more, other, counted, repeats, alike, ending⟩ :=
        Execution.ends_repeats count 0 _ machine last report same unfired ends
      rw [Nat.zero_add] at counted
      rw [final, counted]
      exact ⟨other, repeats, left last other alike, ending,
        fun fault faulted => Machine.repeats_faulted _ _ _ _ _ fault repeats faulted⟩
  · obtain ⟨count, last, ends, alike⟩ :=
      Execution.repeats_ends _ machine other steps ending repeats 0 _ same unfired rfl
    rw [Nat.zero_add, ← entered] at ends
    -- one more, for the turn in which the call takes its line
    refine ⟨count + 1, fun tasks own planned => ?_⟩
    obtain ⟨unplanned, -⟩ | ⟨rest, goes, ownRest, onwards⟩ := schedule_enters tasks own start called
    · exact absurd (planned.subset List.mem_cons_self) unplanned
    · obtain ⟨returns, final⟩ := schedule_returns start.main last rest _ ownRest (onwards _ planned)
        (.running count count {} .idle rfl underway ends (Nat.le_refl count))
      rw [goes, final]
      exact ⟨returns, left last other alike⟩

def stumbling (memory : Memory) : Machine := { core := { memory }, config := { policy := .continue } }

def stumblingMemory : Memory := (Memory.zero.write 0 0xD000).write 1 0xF025

theorem stumbling_runs : ((World.start { machine := stumbling stumblingMemory, tokens := [⟨0⟩] } ⟨0⟩).schedule
      (List.replicate 12 Task.main ++ [Task.drain, Task.main])).call = .run (.returned ⟨1, .halted⟩) := by
  rfl

theorem runs_iterate_steps_stumbling :
    ((World.start { machine := stumbling stumblingMemory, tokens := [⟨0⟩] } ⟨0⟩).schedule
        (List.replicate 12 Task.main ++ [Task.drain, Task.main])).call = .run (.returned ⟨1, .halted⟩) ∧
      ∃ last, Machine.Repeats .continue (stumbling stumblingMemory) 1 .halted last := by
  have agree := runs_iterate_steps (stumbling stumblingMemory) ⟨0⟩ _ rfl rfl rfl ⟨nofun, nofun⟩ rfl
  obtain ⟨last, repeats, -⟩ := agree.1 _ ⟨1, .halted⟩ (by simp [Undisturbed]) stumbling_runs
  exact ⟨stumbling_runs, last, repeats⟩

end World

end LittleComputer
