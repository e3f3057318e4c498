import LittleComputer.Proofs.Tokens

set_option autoImplicit false

namespace LittleComputer

def Panel.Calm (panel : Panel) (recent : Nat) (token : Token) : Prop := recent = 0 → panel.isFired token = false

structure Panel.Own (panel : Panel) (tokens : List Token) (token : Token) : Prop where
  slot : panel.slot = some token
  own : token ∉ tokens

def Panel.Loose (panel : Panel) (tokens : List Token) (recent : Nat) : Prop :=
  ∀ token, panel.slot = some token → token ∉ tokens ∧ panel.Calm recent token

def Panel.Issued (panel : Panel) (tokens : List Token) : Prop :=
  ∀ token, token ∈ tokens ∨ panel.isFired token = true → token.number < panel.signals.issued

-- An attempt that has been given up for its token has had a stop. One that has come to something else may have fired
-- the token itself.
structure Attempt.Calm (attempt : Attempt) (panel : Panel) (recent : Nat) (token : Token) : Prop where
  stopped : attempt = .done (.ok .interrupted) → 0 < recent
  going : (∀ result, attempt ≠ .done result) → panel.Calm recent token

def Call.Spared (tokens : List Token) (recent : Nat) (machine : Machine) : Call → Prop
  | .step (.attempting token _ attempt) =>
      machine.panel.Own tokens token ∧ attempt.Ready machine ∧ attempt.Calm machine.panel recent token
  | .step (.receiving token) => machine.panel.Own tokens token ∧ machine.panel.Calm recent token
  | .step (.received token _) => machine.panel.Own tokens token ∧ machine.panel.Calm recent token
  | .run (.entering _) => True
  | .run (.active _ _ _) => True
  | _ => machine.panel.Loose tokens recent

namespace Panel

theorem calm_same (before after : Panel) (recent : Nat) (token : Token) (signals : after.signals = before.signals)
    (calm : before.Calm recent token) : after.Calm recent token := by
  intro none
  rw [isFired, signals]
  exact calm none

theorem calm_fired (panel : Panel) (recent : Nat) (token : Token) (calm : panel.Calm recent token)
    (fired : panel.isFired token = true) : 0 < recent := by
  by_contra none
  rw [calm (Nat.eq_zero_of_not_pos none)] at fired
  cases fired

theorem loose_same (before after : Panel) (tokens : List Token) (recent : Nat) (slot : after.slot = before.slot)
    (signals : after.signals = before.signals) (loose : before.Loose tokens recent) : after.Loose tokens recent := by
  intro token held
  obtain ⟨own, calm⟩ := loose token (slot ▸ held)
  exact ⟨own, calm_same before after recent token signals calm⟩

theorem loose_cleared (panel : Panel) (tokens : List Token) (recent : Nat) (slot : panel.slot = none) :
    panel.Loose tokens recent := by
  intro token held
  rw [slot] at held
  cases held

end Panel

namespace Attempt

theorem calm_of (attempt : Attempt) (panel : Panel) (recent : Nat) (token : Token)
    (other : attempt ≠ .done (.ok .interrupted)) (calm : panel.Calm recent token) : attempt.Calm panel recent token :=
  ⟨fun same => absurd same other, fun _ => calm⟩

theorem calm_interrupted (panel : Panel) (recent : Nat) (token : Token) (stopped : 0 < recent) :
    Attempt.Calm (.done (.ok .interrupted)) panel recent token :=
  ⟨fun _ => stopped, fun goes => absurd rfl (goes _)⟩

theorem turn_calm (token : Token) (attempt next : Attempt) (machine later : Machine) (recent : Nat)
    (turned : attempt.turn token machine = (later, some next)) (ready : attempt.Ready machine)
    (calm : machine.panel.Calm recent token) : next.Calm later.panel recent token := by
  constructor
  · intro interrupted
    subst interrupted
    exact Panel.calm_fired machine.panel recent token calm (turn_interrupted token attempt machine later ready turned)
  · intro goes
    obtain ⟨-, signals⟩ := turn_signals token attempt machine
    rw [turned] at signals
    cases signals with
    | inl same => exact Panel.calm_same _ _ recent token same calm
    | inr halted => exact absurd (Option.some.inj halted.2) (goes _)

theorem ready_same (attempt : Attempt) (before after : Machine) (core : after.core = before.core)
    (queue : after.panel.keyboard.queue = before.panel.keyboard.queue) (ready : attempt.Ready before) :
    attempt.Ready after := by
  cases attempt with
  | handOver rest => rwa [Ready, core]
  | offer char rest => rwa [Ready, core]
  | execute => rwa [Ready, core, queue]
  | _ => trivial

end Attempt

namespace StepCall

variable (tokens : List Token) (recent : Nat)

theorem begin_spared (linked : Bool) (machine : Machine) (panel : Panel)
    (issued : panel.Issued tokens)
    (loose : panel.Loose tokens recent) :
    (Call.step (begin linked panel).2).Spared tokens recent { machine with panel := (begin linked panel).1 } := by
  obtain ⟨taken, token⟩ := Panel.slot_token_signals (panel.setClosed !linked)
  cases token with
  | inl there =>
      obtain ⟨before, same⟩ := there
      obtain ⟨own, calm⟩ := loose _ before
      exact ⟨⟨taken, own⟩, trivial, Attempt.calm_of _ _ recent _ (by simp) (Panel.calm_same panel _ recent _ same calm)⟩
  | inr new =>
      obtain ⟨-, issues, signals⟩ := new
      have number : (panel.setClosed !linked).slotToken.1.number = panel.signals.issued := congrArg Token.number issues
      refine ⟨⟨taken, ?_⟩, trivial, Attempt.calm_of _ _ recent _ (by simp) ?_⟩
      · intro member
        have small : (panel.setClosed !linked).slotToken.1.number < panel.signals.issued := issued _ (.inl member)
        omega
      · intro none
        have unfired : ¬panel.isFired (panel.setClosed !linked).slotToken.1 = true := by
          intro fired
          have small : (panel.setClosed !linked).slotToken.1.number < panel.signals.issued := issued _ (.inr fired)
          omega
        have same := congrArg (·.isFired (panel.setClosed !linked).slotToken.1) signals
        exact same.trans (Bool.not_eq_true _ ▸ unfired)

theorem fill_spared (machine : Machine)
    (issued : machine.panel.Issued tokens)
    (loose : machine.panel.Loose tokens recent) :
    (Call.step (fill machine.panel).2).Spared tokens recent { machine with panel := (fill machine.panel).1 } := by
  obtain ⟨-, slot, signals⟩ := machine.panel.take_char_run
  have kept := Panel.loose_same _ _ tokens recent slot signals loose
  have known : machine.panel.takeChar.2.Issued tokens := by
    intro token used
    simp only [Panel.isFired, signals] at used ⊢
    exact issued token used
  unfold fill
  generalize machine.panel.takeChar = answer at kept known ⊢
  cases answer with
  | mk taken after =>
      cases taken with
      | char char => exact kept
      | empty => exact begin_spared tokens recent true machine after known kept
      | disconnected => exact begin_spared tokens recent false machine after.dropSource known kept

theorem receive_spared (token : Token) (machine : Machine) (own : machine.panel.Own tokens token)
    (calm : machine.panel.Calm recent token) :
    (Call.step ((receive token machine.panel).2.getD (.receiving token))).Spared tokens recent
      { machine with panel := (receive token machine.panel).1 } := by
  obtain ⟨-, slot, signals⟩ := machine.panel.take_char_run
  have held : machine.panel.takeChar.2.Own tokens token := ⟨slot.trans own.slot, own.own⟩
  have still := Panel.calm_same _ _ recent token signals calm
  unfold receive
  generalize machine.panel.takeChar = answer at held still ⊢
  cases answer with
  | mk taken after =>
      cases taken with
      | char char => exact ⟨held, still⟩
      | empty =>
          dsimp only
          cases fired : after.isFired token with
          | true =>
              have stopped := Panel.calm_fired after recent token still fired
              exact ⟨held, trivial, Attempt.calm_interrupted after recent token stopped⟩
          | false => exact ⟨held, still⟩
      | disconnected => exact ⟨⟨held.slot, held.own⟩, trivial, Attempt.calm_of _ _ recent token (by simp) still⟩

theorem attempting_spared (token : Token) (linked : Bool) (attempt : Attempt) (machine : Machine)
    (goes : ∀ result, attempt ≠ .done result)
    (spared : (Call.step (.attempting token linked attempt)).Spared tokens recent machine) :
    (Call.step (((attempt.turn token machine).2.map (.attempting token linked)).getD
      (.attempting token linked attempt))).Spared tokens recent (attempt.turn token machine).1 := by
  obtain ⟨own, ready, calm⟩ := spared
  obtain ⟨slot, -⟩ := attempt.turn_signals token machine
  cases turned : attempt.turn token machine with
  | mk later next =>
      rw [turned] at slot
      cases next with
      | none =>
          obtain rfl := Attempt.turn_waits token attempt machine later turned
          exact ⟨own, ready, calm⟩
      | some next =>
          refine ⟨⟨slot.trans own.slot, own.own⟩, Attempt.turn_ready token attempt next machine later turned ready, ?_⟩
          exact Attempt.turn_calm token attempt next machine later recent turned ready
            (calm.going goes)

theorem leave_loose (linked : Bool) (panel : Panel) (loose : ∀ token, panel.slot = some token → token ∉ tokens) :
    (leave linked panel).Loose tokens 0 := by
  have kept (before : Panel) (slot : before.slot = panel.slot) : before.clearFired.Loose tokens 0 := by
    intro token held
    obtain ⟨signals, cleared | same⟩ := before.clear_fired_signals
    · rw [cleared.1] at held
      cases held
    · rw [same.1] at held
      refine ⟨loose token (slot ▸ held), fun _ => ?_⟩
      rw [Panel.isFired, signals]
      exact same.2 token held
  cases linked with
  | true => exact kept panel.returnSource rfl
  | false => exact kept panel rfl

theorem loose_later (panel : Panel) (loose : panel.Loose tokens 0) : panel.Loose tokens recent := by
  intro token held
  obtain ⟨own, calm⟩ := loose token held
  exact ⟨own, fun _ => calm rfl⟩

theorem turn_spared (call : StepCall) (machine : Machine)
    (issued : machine.panel.Issued tokens)
    (spared : (Call.step call).Spared tokens recent machine) :
    (Call.step ((call.turn machine).2.getD call)).Spared tokens recent (call.turn machine).1 := by
  cases call with
  | filling linked =>
      cases linked with
      | true => exact fill_spared tokens recent machine issued spared
      | false => exact begin_spared tokens recent false machine machine.panel issued spared
  | queueing char => exact spared
  | receiving token => exact receive_spared tokens recent token machine spared.1 spared.2
  | received token char =>
      obtain ⟨own, calm⟩ := spared
      simp only [turn, queue, Option.getD_some]
      cases (machine.panel.type char).keyboard.queue.isEmpty with
      | true => exact ⟨⟨own.slot, own.own⟩, trivial, Attempt.calm_of _ _ recent token (by simp) calm⟩
      | false => exact ⟨⟨own.slot, own.own⟩, trivial, Attempt.calm_of _ _ recent token (by simp) calm⟩
  | returned result => exact spared
  | attempting token linked attempt =>
      by_cases finished : ∃ result, attempt = .done result
      · obtain ⟨result, rfl⟩ := finished
        have loose := leave_loose tokens linked machine.panel fun other held => by
          rw [spared.1.slot] at held
          cases held
          exact spared.1.own
        cases linked <;> exact loose_later tokens recent _ loose
      · obtain concluded | ⟨rfl, rfl⟩ | turned := Call.attempting_cases token linked attempt machine
        · exact absurd concluded finished
        · obtain ⟨own, -, calm⟩ := spared
          have still := calm.going (by simp)
          simp only [turn, await, Option.getD_some]
          cases fired : machine.panel.isFired token with
          | true =>
              have stopped := Panel.calm_fired machine.panel recent token still fired
              exact ⟨own, trivial, Attempt.calm_interrupted machine.panel recent token stopped⟩
          | false => exact ⟨own, still⟩
        · rw [turned]
          exact attempting_spared tokens recent token linked attempt machine
            (fun result same => finished ⟨result, same⟩) spared

end StepCall

theorem Call.spared_beside (call : Call) (before after : Machine) (tokens more : List Token) (recent later : Nat)
    (core : after.core = before.core) (queue : after.panel.keyboard.queue = before.panel.keyboard.queue)
    (slot : after.panel.slot = before.panel.slot) (bound : recent ≤ later)
    (own : ∀ token, before.panel.slot = some token → token ∉ tokens →
      token ∉ more ∧ (before.panel.Calm recent token → after.panel.Calm later token))
    (spared : call.Spared tokens recent before) : call.Spared more later after := by
  have loose (held : before.panel.Loose tokens recent) : after.panel.Loose more later := by
    intro token there
    obtain ⟨apart, calm⟩ := held token (slot ▸ there)
    obtain ⟨still, quiet⟩ := own token (slot ▸ there) apart
    exact ⟨still, quiet calm⟩
  have owned (token : Token) (held : before.panel.Own tokens token) :
      after.panel.Own more token ∧ (before.panel.Calm recent token → after.panel.Calm later token) := by
    obtain ⟨still, quiet⟩ := own token held.slot held.own
    exact ⟨⟨slot.trans held.slot, still⟩, quiet⟩
  cases call with
  | none => exact loose spared
  | step call =>
      cases call with
      | attempting token linked attempt =>
          obtain ⟨held, ready, calm⟩ := spared
          obtain ⟨still, quiet⟩ := owned token held
          refine ⟨still, attempt.ready_same before after core queue ready, ?_, ?_⟩
          · intro interrupted
            exact Nat.lt_of_lt_of_le (calm.stopped interrupted) bound
          · intro goes
            exact quiet (calm.going goes)
      | receiving token => exact ⟨(owned token spared.1).1, (owned token spared.1).2 spared.2⟩
      | received token char => exact ⟨(owned token spared.1).1, (owned token spared.1).2 spared.2⟩
      | filling linked => exact loose spared
      | queueing char => exact loose spared
      | returned result => exact loose spared
  | run call =>
      cases call with
      | returned report => exact loose spared
      | entering token => trivial
      | active token execution drain => trivial

theorem Call.finished_spared (call : Call) (machine : Machine) (tokens : List Token) (recent : Nat)
    (finished : call.finished = true) : call.Spared tokens recent machine ↔ machine.panel.Loose tokens recent := by
  cases call with
  | none => rfl
  | step call =>
      cases call with
      | returned result => rfl
      | _ => cases finished
  | run call =>
      cases call with
      | returned report => rfl
      | _ => cases finished

namespace World

def Spared (world : World) (recent : Nat) : Prop := world.call.Spared world.tokens recent world.machine

theorem spared_same (world next : World) (recent : Nat) (call : next.call = world.call)
    (core : next.machine.core = world.machine.core)
    (queue : next.machine.panel.keyboard.queue = world.machine.panel.keyboard.queue)
    (slot : next.machine.panel.slot = world.machine.panel.slot)
    (signals : next.machine.panel.signals = world.machine.panel.signals) (tokens : next.tokens = world.tokens)
    (spared : world.Spared recent) : next.Spared recent := by
  rw [Spared, call, tokens]
  refine Call.spared_beside world.call world.machine next.machine _ _ recent recent core queue slot (Nat.le_refl _)
    ?_ spared
  intro token _ apart
  exact ⟨apart, Panel.calm_same world.machine.panel next.machine.panel recent token signals⟩

theorem drain_spared (world : World) (recent : Nat) (spared : world.Spared recent) : world.drain.Spared recent := by
  obtain same | ⟨token, execution, drain, called, turned⟩ := drain_cases world
  · rw [same]
    exact spared
  · rw [turned]
    trivial

theorem step_spared (world : World) (recent : Nat) (spared : world.Spared recent) : world.step.Spared recent := by
  obtain same | ⟨finished, enters⟩ := step_cases world
  · rw [same]
    exact spared
  · have taken := world.machine.panel.take_source_run
    rw [enters]
    exact Panel.loose_same world.machine.panel _ world.tokens recent taken.slot taken.signals
      ((world.call.finished_spared _ _ _ finished).mp spared)

theorem start_spared (world : World) (token : Token) (recent : Nat) (spared : world.Spared recent) :
    (world.start token).Spared recent := by
  obtain same | ⟨finished, claims⟩ := start_cases world token
  · rw [same]
    exact spared
  · rw [claims, RunCall.claim]
    cases world.machine.panel.mode with
    | running => exact (world.call.finished_spared _ _ _ finished).mp spared
    | stopped => trivial

theorem issue_spared (world : World) (recent : Nat) (issued : world.Issued) (spared : world.Spared recent) :
    (world.act .issue).Spared recent := by
  refine Call.spared_beside world.call world.machine _ world.tokens _ recent recent rfl rfl rfl (Nat.le_refl _)
    ?_ spared
  intro token held apart
  refine ⟨?_, fun calm => calm⟩
  intro member
  cases member with
  | head => exact absurd (issued _ (.inr (.inl held))) (Nat.lt_irrefl _)
  | tail _ before => exact apart before

theorem fire_calm (panel : Panel) (token other : Token) (recent : Nat) (different : other ≠ token)
    (calm : panel.Calm recent other) : (panel.fire token).Calm recent other := by
  intro none
  rw [Panel.isFired, Panel.fire, Signals.is_fired_fire, decide_eq_false different, Bool.false_or]
  exact calm none

theorem cancel_spared (world : World) (token : Token) (recent : Nat) (spared : world.Spared recent) :
    (world.act (.cancel token)).Spared recent := by
  rw [act]
  by_cases known : world.tokens.contains token = true
  · rw [if_pos known]
    refine Call.spared_beside world.call world.machine _ world.tokens _ recent recent rfl rfl rfl (Nat.le_refl _)
      ?_ spared
    intro other _ apart
    refine ⟨apart, fire_calm world.machine.panel token other recent ?_⟩
    intro same
    exact apart (same ▸ List.contains_iff_mem.mp known)
  · rw [if_neg known]
    exact spared

theorem fire_slot_spared (world : World) (recent : Nat) (spared : world.Spared recent) :
    (world.act .fireSlot).Spared (recent + 1) := by
  refine Call.spared_beside world.call world.machine _ world.tokens _ recent (recent + 1) rfl
    (Panel.fire_slot_same world.machine.panel).queue ?_ (Nat.le_succ _) ?_ spared
  · rw [act, Panel.fireSlot]
    cases slot : world.machine.panel.slot with
    | none => exact slot
    | some token => exact slot
  · intro token _ apart
    exact ⟨apart, fun _ none => absurd none (Nat.succ_ne_zero recent)⟩

theorem perform_spared (world : World) (task : Task) (recent : Nat) (other : task ≠ .main)
    (spared : world.Spared recent) : (world.perform task).Spared recent := by
  obtain main | rfl | ⟨source, sink, unsent, sent, turned⟩ := perform_cases world task
  · exact absurd main other
  · exact drain_spared world recent spared
  · rw [turned]
    exact spared_same world _ recent rfl rfl rfl rfl rfl rfl spared

theorem main_spared (world : World) (recent : Nat) (issued : world.Issued) (spared : world.Spared recent) :
    world.main.Spared recent := by
  have known : world.machine.panel.Issued world.tokens := by
    intro token uses
    cases uses with
    | inl member => exact issued token (.inl member)
    | inr fired => exact issued token (.inr (.inr (.inl fired)))
  rcases world with ⟨machine, call, unsent, hangsUp, tokens, history⟩
  cases call with
  | none => exact spared
  | step call => exact StepCall.turn_spared tokens recent call machine known spared
  | run call =>
      cases call with
      | entering token =>
          rw [entering_main ⟨machine, .run (.entering token), unsent, hangsUp, tokens, history⟩ rfl]
          trivial
      | active token execution drain =>
          cases active_main ⟨machine, .run (.active token execution drain), unsent, hangsUp, tokens, history⟩ execution
            drain rfl with
          | returns steps ending linked past drained turned =>
              rw [turned]
              exact Panel.loose_cleared _ tokens recent rfl
          | executes apart turned =>
              rw [turned]
              trivial
      | returned report =>
          rw [returned_main ⟨machine, .run (.returned report), unsent, hangsUp, tokens, history⟩ report rfl]
          exact spared

end World

theorem StepCall.turn_finishes (call : StepCall) (machine : Machine) (going : (Call.step call).finished = false)
    (finishes : (Call.step ((call.turn machine).2.getD call)).finished = true) :
    ∃ token linked result, call = .attempting token linked (.done result) := by
  cases call with
  | filling linked =>
      cases linked with
      | false => cases finishes
      | true =>
          simp only [turn, fill, Option.getD_some] at finishes
          generalize machine.panel.takeChar = answer at finishes
          rcases answer with ⟨_ | _ | _, after⟩ <;> cases finishes
  | queueing char => cases finishes
  | receiving token =>
      simp only [turn, receive] at finishes
      generalize machine.panel.takeChar = answer at finishes
      rcases answer with ⟨_ | _ | _, after⟩
      · cases finishes
      · dsimp only at finishes
        cases fired : after.isFired token <;> rw [fired] at finishes <;> cases finishes
      · cases finishes
  | received token char => cases finishes
  | returned result => cases going
  | attempting token linked attempt =>
      obtain ⟨result, rfl⟩ | ⟨rfl, rfl⟩ | turned := Call.attempting_cases token linked attempt machine
      · exact ⟨token, linked, result, rfl⟩
      · simp only [turn, await, Option.getD_some] at finishes
        cases fired : machine.panel.isFired token <;> rw [fired] at finishes <;> cases finishes
      · rw [turned] at finishes
        cases goes : (attempt.turn token machine).2 <;> rw [goes] at finishes <;> cases finishes

namespace World

def returns (world : World) : Bool := !world.call.finished && world.main.call.finished

theorem returns_loose (world : World) (recent : Nat) (spared : world.Spared recent) (returns : world.returns = true) :
    world.main.Spared 0 ∧ (world.main.call = .step (.returned (.ok .interrupted)) → 0 < recent) := by
  obtain ⟨going, finishes⟩ := Bool.and_eq_true_iff.mp returns
  rw [Bool.not_eq_true'] at going
  rcases world with ⟨machine, call, unsent, hangsUp, tokens, history⟩
  cases call with
  | none => cases going
  | step call =>
      obtain ⟨token, linked, result, rfl⟩ := call.turn_finishes machine going finishes
      obtain ⟨own, -, calm⟩ := spared
      have loose := StepCall.leave_loose tokens linked machine.panel fun other held => by
        rw [own.slot] at held
        cases held
        exact own.own
      have interrupted (same : result = .ok .interrupted) : 0 < recent := calm.stopped (congrArg Attempt.done same)
      cases linked with
      | true => exact ⟨loose, fun same => interrupted (StepCall.returned.inj (Call.step.inj same))⟩
      | false => exact ⟨loose, fun same => interrupted (StepCall.returned.inj (Call.step.inj same))⟩
  | run call =>
      cases call with
      | entering token =>
          rw [entering_main ⟨machine, .run (.entering token), unsent, hangsUp, tokens, history⟩ rfl] at finishes
          cases finishes
      | active token execution drain =>
          cases active_main ⟨machine, .run (.active token execution drain), unsent, hangsUp, tokens, history⟩ execution
            drain rfl with
          | returns steps ending linked past drained turned =>
              rw [turned]
              exact ⟨Panel.loose_cleared _ tokens 0 rfl, nofun⟩
          | executes apart turned =>
              rw [turned] at finishes
              cases finishes
      | returned report => cases going

end World

def Call.interrupted : Call → Bool
  | .step (.returned (.ok .interrupted)) => true
  | _ => false

structure Tally where
  world : World
  stops : Nat := 0
  recent : Nat := 0
  interrupted : Nat := 0

namespace Tally

-- A stop is counted when it fires the token in the slot, which is the second half of it.
def act (tally : Tally) (action : Action) : Tally :=
  match action with
  | .fireSlot =>
      { tally with world := tally.world.act .fireSlot, stops := tally.stops + 1, recent := tally.recent + 1 }
  | .task .main =>
      if tally.world.returns then
        { tally with
          world := tally.world.main
          recent := 0
          interrupted := tally.interrupted + tally.world.main.call.interrupted.toNat }
      else { tally with world := tally.world.main }
  | action => { tally with world := tally.world.act action }

def run (tally : Tally) (actions : List Action) : Tally := actions.foldl act tally

structure Sound (tally : Tally) : Prop where
  issued : tally.world.Issued
  spared : tally.world.Spared tally.recent
  counted : tally.interrupted + tally.recent ≤ tally.stops

theorem act_task (tally : Tally) (task : Task) (other : task ≠ .main) :
    tally.act (.task task) = { tally with world := tally.world.perform task } := by
  cases task with
  | main => exact absurd rfl other
  | _ => rfl

theorem act_world (tally : Tally) (action : Action) : (tally.act action).world = tally.world.act action := by
  unfold act
  split
  · rfl
  · split <;> rfl
  · rfl

theorem run_world (tally : Tally) (actions : List Action) : (tally.run actions).world = tally.world.run actions := by
  induction actions generalizing tally with
  | nil => rfl
  | cons action rest ih =>
      have later := ih (tally.act action)
      rw [act_world] at later
      exact later

theorem act_stops (tally : Tally) (action : Action) :
    (tally.act action).stops = tally.stops + [action].count .fireSlot := by
  unfold act
  split
  · rfl
  · split <;> rfl
  · rename_i other _
    rw [List.count_singleton, if_neg (by simpa using other)]
    rfl

theorem run_stops (tally : Tally) (actions : List Action) :
    (tally.run actions).stops = tally.stops + actions.count .fireSlot := by
  induction actions generalizing tally with
  | nil => rfl
  | cons action rest ih =>
      have later := ih (tally.act action)
      rw [act_stops, Nat.add_assoc, ← List.count_append, List.singleton_append] at later
      exact later

theorem main_sound (tally : Tally) (sound : tally.Sound) : (tally.act (.task .main)).Sound := by
  have issued := World.act_issued tally.world (.task .main) sound.issued
  have counted := sound.counted
  cases returns : tally.world.returns with
  | false =>
      rw [act, returns]
      exact ⟨issued, World.main_spared tally.world tally.recent sound.issued sound.spared, counted⟩
  | true =>
      obtain ⟨spared, stopped⟩ := World.returns_loose tally.world tally.recent sound.spared returns
      rw [act, returns]
      refine ⟨issued, spared, ?_⟩
      show tally.interrupted + tally.world.main.call.interrupted.toNat + 0 ≤ tally.stops
      cases interrupted : tally.world.main.call.interrupted with
      | false =>
          show tally.interrupted + 0 ≤ tally.stops
          omega
      | true =>
          have some : 0 < tally.recent := stopped (by
            unfold Call.interrupted at interrupted
            split at interrupted
            · assumption
            · cases interrupted)
          show tally.interrupted + 1 ≤ tally.stops
          omega

theorem act_sound (tally : Tally) (action : Action) (sound : tally.Sound) : (tally.act action).Sound := by
  have issued := World.act_issued tally.world action sound.issued
  cases action with
  | task task =>
      by_cases main : task = .main
      · subst main
        exact main_sound tally sound
      · rw [act_task tally task main]
        exact ⟨issued, World.perform_spared tally.world task _ main sound.spared, sound.counted⟩
  | step => exact ⟨issued, World.step_spared _ _ sound.spared, sound.counted⟩
  | start token => exact ⟨issued, World.start_spared _ token _ sound.spared, sound.counted⟩
  | issue => exact ⟨issued, World.issue_spared _ _ sound.issued sound.spared, sound.counted⟩
  | cancel token => exact ⟨issued, World.cancel_spared _ token _ sound.spared, sound.counted⟩
  | markStopped =>
      exact ⟨issued, World.spared_same tally.world _ _ rfl rfl rfl rfl rfl rfl sound.spared, sound.counted⟩
  | dropOutput =>
      exact ⟨issued, World.spared_same tally.world _ _ rfl rfl rfl rfl rfl rfl sound.spared, sound.counted⟩
  | fireSlot =>
      refine ⟨issued, World.fire_slot_spared _ _ sound.spared, ?_⟩
      have counted := sound.counted
      show tally.interrupted + (tally.recent + 1) ≤ tally.stops + 1
      omega

theorem run_sound (tally : Tally) (actions : List Action) (sound : tally.Sound) : (tally.run actions).Sound := by
  induction actions generalizing tally with
  | nil => exact sound
  | cons action rest ih => exact ih (tally.act action) (act_sound tally action sound)

theorem start_sound (core : Core) (keyboard : Keyboard) (source sink : Option Line) (config : Config)
    (text : List Char) (hangsUp : Bool) :
    Sound { world :=
      { machine := { core, panel := { keyboard, source, sink }, config }, unsent := text, hangsUp } } := by
  refine ⟨?_, ?_, Nat.le_refl 0⟩
  · intro token uses
    obtain member | held | fired | works := uses
    · cases member
    · cases held
    · cases fired
    · cases works
  · exact Panel.loose_cleared _ _ 0 rfl

/-- Every history of a new machine, with any stops in it, between the calls and during them. While no call is on, the
machine is stopped, so that none is refused, and the token in its slot can have fired only if a stop has come since the
last call returned. A step is interrupted only if a stop has come since then, and each stop accounts for one step at
most. -/
theorem stops_spoil_one_step (core : Core) (keyboard : Keyboard) (source sink : Option Line) (config : Config)
    (text : List Char) (hangsUp : Bool) (actions : List Action) :
    let start : World :=
      { machine := { core, panel := { keyboard, source, sink }, config }, unsent := text, hangsUp }
    let tally := Tally.run { world := start } actions
    tally.world = start.run actions ∧ tally.stops = actions.count .fireSlot ∧
      (tally.world.call.finished = true → tally.world.machine.panel.mode = .stopped ∧
        (tally.recent = 0 → ∀ token, tally.world.machine.panel.slot = some token →
          tally.world.machine.panel.isFired token = false)) ∧
      (∀ before after, actions = before ++ .task .main :: after → (start.run before).returns = true →
        (start.run before).main.call = .step (.returned (.ok .interrupted)) →
        0 < (Tally.run { world := start } before).recent) ∧
      tally.interrupted ≤ tally.stops := by
  intro start tally
  -- for every history, as the third part is about the moments before
  have sound (actions : List Action) : (Tally.run { world := start } actions).Sound :=
    run_sound _ actions (start_sound core keyboard source sink config text hangsUp)
  have world : tally.world = start.run actions := run_world _ actions
  have counted := (sound actions).counted
  refine ⟨world, (run_stops _ actions).trans (Nat.zero_add _), ?_, ?_, ?_⟩
  · intro finished
    refine ⟨?_, ?_⟩
    · have tidy : tally.world.Tidy := by
        rw [world]
        exact World.run_tidy start actions nofun
      cases mode : tally.world.machine.panel.mode with
      | stopped => rfl
      | running =>
          rw [World.tidy_unfinished tally.world tidy mode] at finished
          cases finished
    · intro none token held
      have loose := (tally.world.call.finished_spared _ _ _ finished).mp (sound actions).spared
      exact (loose token held).2 none
  · intro before after _ returns interrupted
    have spared := (sound before).spared
    rw [run_world] at spared
    exact (World.returns_loose (start.run before) _ spared returns).2 interrupted
  · exact Nat.le_trans (Nat.le_add_right _ _) counted

def waiting (memory : Memory) : Machine := { core := { memory }, panel := { source := some { capacity := 1 } } }

def spoiled : List Action :=
  [.step] ++ List.replicate 5 (.task .main) ++ [.markStopped, .fireSlot] ++ List.replicate 2 (.task .main)

theorem waiting_interrupted :
    (Tally.run { world := { machine := waiting (Memory.zero.write 0 0xF020) } } spoiled).interrupted = 1 := by
  rfl

theorem stops_spoil_one_step_waiting :
    let tally := Tally.run { world := { machine := waiting (Memory.zero.write 0 0xF020) } } spoiled
    tally.interrupted = 1 ∧ tally.interrupted ≤ tally.stops := by
  intro tally
  obtain ⟨-, -, -, -, counted⟩ :=
    stops_spoil_one_step { memory := Memory.zero.write 0 0xF020 } {} (some { capacity := 1 }) none {} [] false spoiled
  exact ⟨waiting_interrupted, counted⟩

end Tally

end LittleComputer
