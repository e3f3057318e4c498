import LittleComputer.Proofs.Cancellation
import LittleComputer.Proofs.ConcurrentRuns

set_option autoImplicit false

namespace LittleComputer

def StepCall.token? : StepCall → Option Token
  | .attempting token _ _ => some token
  | .receiving token => some token
  | .received token _ => some token
  | _ => none

def Call.token? : Call → Option Token
  | .none => .none
  | .step call => call.token?
  | .run call => call.token?

-- What an action does to the slot and the signals. A token that it brings in is `known`, or a new one.
inductive Panel.Shifts (known : Token → Prop) (before after : Panel) : Prop where
  | same (slot : after.slot = before.slot) (signals : after.signals = before.signals)
  | issued (slot : after.slot = before.slot ∨ after.slot = some before.signals.issue.1)
      (signals : after.signals = before.signals.issue.2)
  | cleared (slot : after.slot = none) (signals : after.signals = before.signals)
  | claimed (holder : Token) (held : known holder) (slot : after.slot = some holder)
      (signals : after.signals = before.signals)
  | fired (holder : Token) (held : known holder) (slot : after.slot = before.slot)
      (signals : after.signals = before.signals.fire holder)

namespace Panel

theorem slot_token_signals (panel : Panel) :
    panel.slotToken.2.slot = some panel.slotToken.1 ∧
      ((panel.slot = some panel.slotToken.1 ∧ panel.slotToken.2.signals = panel.signals) ∨
        (panel.slot = none ∧ panel.slotToken.1 = panel.signals.issue.1 ∧
          panel.slotToken.2.signals = panel.signals.issue.2)) := by
  cases slot : panel.slot with
  | none => simp [slotToken, slot, issue]
  | some token => simp [slotToken, slot]

theorem clear_fired_signals (panel : Panel) :
    panel.clearFired.signals = panel.signals ∧
      ((panel.clearFired.slot = none ∧ ∃ token, panel.slot = some token ∧ panel.isFired token = true) ∨
        (panel.clearFired.slot = panel.slot ∧ ∀ token, panel.slot = some token → panel.isFired token = false)) := by
  cases slot : panel.slot with
  | none => simp [clearFired, slot]
  | some token => cases fired : panel.isFired token <;> simp [clearFired, slot, fired]

end Panel

namespace Attempt

theorem turn_signals (token : Token) (attempt : Attempt) (machine : Machine) :
    (attempt.turn token machine).1.panel.slot = machine.panel.slot ∧
      ((attempt.turn token machine).1.panel.signals = machine.panel.signals ∨
        ((attempt.turn token machine).1.panel.signals = machine.panel.signals.fire token ∧
          (attempt.turn token machine).2 = some (.done (.ok .halted)))) := by
  cases attempt with
  | execute =>
      have left := Core.step_leaves (Panel.console token)
        (fun panel => panel.slot = machine.panel.slot ∧ panel.signals = machine.panel.signals)
        (fun panel => panel.slot = machine.panel.slot ∧ panel.signals = machine.panel.signals.fire token)
        (fun panel same => same) (fun byte panel same => same) (fun panel same => same)
        (fun panel same => ⟨same.1, congrArg (·.fire token) same.2⟩) (fun panel same => same) machine.core machine.panel
        ⟨rfl, rfl⟩
      rw [turn_execute, executing]
      cases stepped : machine.core.step (Panel.console token) machine.panel with
      | mk answer rest =>
          rw [stepped] at left
          cases left with
          | inl same => cases answer <;> exact ⟨same.1, .inl same.2⟩
          | inr halted =>
              obtain ⟨halts, slot, signals⟩ := halted
              cases halts
              exact ⟨slot, .inr ⟨signals, rfl⟩⟩
  | done result => exact ⟨rfl, .inl rfl⟩
  | endless => exact ⟨rfl, .inl rfl⟩
  | latch =>
      rw [turn, Machine.latch_keyboard_shown]
      exact ⟨rfl, .inl rfl⟩
  | offer char rest =>
      obtain ⟨sink, kept⟩ := offering_keeps token char rest machine.panel
      rw [turn_offer, kept]
      exact ⟨rfl, .inl rfl⟩
  | look => exact ⟨rfl, .inl rfl⟩
  | await => exact ⟨rfl, .inl rfl⟩
  | handOver rest => exact ⟨rfl, .inl rfl⟩

theorem turn_shifts (known : Token → Prop) (token : Token) (attempt : Attempt) (machine : Machine)
    (held : known token) : machine.panel.Shifts known (attempt.turn token machine).1.panel := by
  obtain ⟨slot, signals⟩ := turn_signals token attempt machine
  cases signals with
  | inl same => exact .same slot same
  | inr halted => exact .fired token held slot halted.1

end Attempt

structure Call.Shifts (known : Token → Prop) (next : Call) (before after : Panel) : Prop where
  panel : before.Shifts known after
  token : ∀ token, next.token? = some token → known token ∨ after.slot = some token

namespace Call

variable {known : Token → Prop}

theorem shifts_free (next : Call) (before after : Panel) (free : next.token? = .none)
    (panel : before.Shifts known after) : Shifts known next before after := by
  refine ⟨panel, ?_⟩
  intro token held
  rw [free] at held
  cases held

theorem shifts_held (next : Call) (before after : Panel) (token : Token) (held : known token)
    (works : next.token? = some token) (panel : before.Shifts known after) : Shifts known next before after := by
  refine ⟨panel, ?_⟩
  intro other same
  cases works.symm.trans same
  exact .inl held

theorem begin_shifts (linked : Bool) (before panel : Panel) (slot : panel.slot = before.slot)
    (signals : panel.signals = before.signals) :
    Shifts known (.step (StepCall.begin linked panel).2) before (StepCall.begin linked panel).1 := by
  obtain ⟨taken, token⟩ := Panel.slot_token_signals (panel.setClosed !linked)
  refine ⟨?_, ?_⟩
  · cases token with
    | inl there =>
        obtain ⟨held, same⟩ := there
        exact .same (taken.trans (held.symm.trans slot)) (same.trans signals)
    | inr fresh =>
        obtain ⟨-, issues, issued⟩ := fresh
        rw [issues] at taken
        refine .issued (.inr ?_) ?_
        · rw [← signals]
          exact taken
        · rw [← signals]
          exact issued
  · intro token held
    cases held
    exact .inr taken

theorem step_shifts (call : StepCall) (machine : Machine)
    (held : ∀ token, call.token? = some token → known token) :
    Shifts known (.step ((call.turn machine).2.getD call)) machine.panel (call.turn machine).1.panel := by
  cases call with
  | filling linked =>
      cases linked with
      | false => exact begin_shifts false machine.panel machine.panel rfl rfl
      | true =>
          obtain ⟨-, slot, signals⟩ := machine.panel.take_char_run
          simp only [StepCall.turn, StepCall.fill, Option.getD_some]
          generalize machine.panel.takeChar = answer at slot signals ⊢
          cases answer with
          | mk taken after =>
              cases taken with
              | char char => exact shifts_free _ _ _ rfl (.same slot signals)
              | empty => exact begin_shifts true machine.panel after slot signals
              | disconnected => exact begin_shifts false machine.panel after.dropSource slot signals
  | queueing char => exact shifts_free _ _ _ rfl (.same rfl rfl)
  | receiving token =>
      obtain ⟨-, slot, signals⟩ := machine.panel.take_char_run
      simp only [StepCall.turn, StepCall.receive]
      generalize machine.panel.takeChar = answer at slot signals ⊢
      refine shifts_held _ _ _ token (held token rfl) ?_ ?_
      · rcases answer with ⟨_ | _ | _, after⟩
        · rfl
        · dsimp only
          cases after.isFired token <;> rfl
        · rfl
      · rcases answer with ⟨_ | _ | _, after⟩ <;> exact .same slot signals
  | received token char => exact shifts_held _ _ _ token (held token rfl) rfl (.same rfl rfl)
  | returned result => exact shifts_free _ _ _ rfl (.same rfl rfl)
  | attempting token linked attempt =>
      have known := held token rfl
      obtain ⟨result, rfl⟩ | ⟨rfl, rfl⟩ | turned := Call.attempting_cases token linked attempt machine
      · obtain ⟨signals, slot⟩ :=
          Panel.clear_fired_signals (if linked then machine.panel.returnSource else machine.panel)
        cases slot with
        | inl cleared => cases linked <;> exact shifts_free _ _ _ rfl (.cleared cleared.1 signals)
        | inr same => cases linked <;> exact shifts_free _ _ _ rfl (.same same.1 signals)
      · refine shifts_held _ _ _ token known ?_ (.same rfl rfl)
        simp only [StepCall.turn, StepCall.await, Option.getD_some]
        cases machine.panel.isFired token <;> rfl
      · rw [turned]
        refine shifts_held _ _ _ token known ?_ (attempt.turn_shifts _ token machine known)
        cases (attempt.turn token machine).2 <;> rfl

theorem execution_shifts (token : Token) (execution : Execution) (machine : Machine) (held : known token) :
    machine.panel.Shifts known (execution.turn token machine).1.panel := by
  cases execution with
  | mk steps phase =>
      cases phase with
      | check => exact .same rfl rfl
      | stopping ending => exact .fired token held rfl rfl
      | ended ending => exact .same rfl rfl
      | attempt attempt =>
          obtain ⟨result, rfl⟩ | goes := Call.execution_turn_cases token steps attempt machine
          · have kept := (Call.conclude_keeps steps result machine).1
            exact .same (congrArg Panel.slot kept) (congrArg Panel.signals kept)
          · rw [goes]
            exact attempt.turn_shifts known token machine held

theorem run_shifts (call : RunCall) (machine : Machine) (held : ∀ token, call.token? = some token → known token) :
    Shifts known (.run ((call.mainTurn machine).2.getD call)) machine.panel (call.mainTurn machine).1.panel := by
  unfold RunCall.mainTurn
  split
  · rename_i token
    have taken := machine.panel.take_source_run
    exact shifts_held _ _ _ token (held token rfl) rfl (.same taken.slot taken.signals)
  · rename_i token steps ending linked
    refine shifts_free _ _ _ rfl (.cleared rfl ?_)
    cases linked <;> rfl
  · rename_i token execution drain apart
    have shifts := execution_shifts token execution machine (held token rfl)
    cases turned : execution.turn token machine with
    | mk after next =>
        rw [turned] at shifts
        cases next <;> exact shifts_held _ _ _ token (held token rfl) rfl shifts
  · exact shifts_free _ _ _ rfl (.same rfl rfl)

end Call

theorem Signals.fire_issued (signals : Signals) (token : Token) : (signals.fire token).issued = signals.issued := by
  unfold fire
  split <;> rfl

namespace Panel

structure Makes (before after : Panel) (token : Token) : Prop where
  token : token = before.signals.issue.1
  signals : after.signals = before.signals.issue.2

section
variable (known : Token → Prop) (before after : Panel) (shifts : before.Shifts known after)

include shifts

theorem shifts_grow : before.signals.issued ≤ after.signals.issued := by
  cases shifts with
  | same _ signals => rw [signals]
  | issued _ signals =>
      rw [signals]
      exact Nat.le_succ _
  | cleared _ signals => rw [signals]
  | claimed _ _ _ signals => rw [signals]
  | fired holder _ _ signals => rw [signals, Signals.fire_issued]

theorem shifts_slot (token : Token) (held : after.slot = some token) :
    before.slot = some token ∨ known token ∨ before.Makes after token := by
  cases shifts with
  | same slot => exact .inl (slot ▸ held)
  | issued slot signals =>
      cases slot with
      | inl same => exact .inl (same ▸ held)
      | inr new => exact .inr (.inr ⟨Option.some.inj (held.symm.trans new), signals⟩)
  | cleared slot => cases slot.symm.trans held
  | claimed holder uses slot =>
      cases slot.symm.trans held
      exact .inr (.inl uses)
  | fired holder uses slot => exact .inl (slot ▸ held)

theorem shifts_fired (token : Token) (fired : after.isFired token = true) :
    before.isFired token = true ∨ known token := by
  rw [isFired] at fired ⊢
  cases shifts with
  | same _ signals => exact .inl (signals ▸ fired)
  | issued _ signals =>
      rw [signals] at fired
      exact .inl fired
  | cleared _ signals => exact .inl (signals ▸ fired)
  | claimed _ _ _ signals => exact .inl (signals ▸ fired)
  | fired holder uses _ signals =>
      by_cases same : token = holder
      · subst same
        exact .inr uses
      · rw [signals, Signals.is_fired_fire, decide_eq_false same, Bool.false_or] at fired
        exact .inl fired

end

end Panel

namespace World

def Uses (world : World) (token : Token) : Prop :=
  token ∈ world.tokens ∨ world.machine.panel.slot = some token ∨ world.machine.panel.isFired token = true ∨
    world.call.token? = some token

def Issued (world : World) : Prop := ∀ token, world.Uses token → token.number < world.machine.panel.signals.issued

structure Shifts (world next : World) : Prop where
  call : Call.Shifts world.Uses next.call world.machine.panel next.machine.panel
  tokens : ∀ token ∈ next.tokens, token ∈ world.tokens ∨ world.machine.panel.Makes next.machine.panel token

theorem shifts_issued (world next : World) (shifts : world.Shifts next) (issued : world.Issued) : next.Issued := by
  have grows := Panel.shifts_grow world.Uses world.machine.panel next.machine.panel shifts.call.panel
  have known (token : Token) (uses : world.Uses token) : token.number < next.machine.panel.signals.issued :=
    Nat.lt_of_lt_of_le (issued token uses) grows
  have fresh (token : Token) (new : world.machine.panel.Makes next.machine.panel token) :
      token.number < next.machine.panel.signals.issued := by
    rw [new.token, new.signals]
    exact Nat.lt_succ_self _
  have slotted (token : Token) (held : next.machine.panel.slot = some token) :
      token.number < next.machine.panel.signals.issued := by
    obtain before | uses | new := Panel.shifts_slot world.Uses _ _ shifts.call.panel token held
    · exact known token (.inr (.inl before))
    · exact known token uses
    · exact fresh token new
  intro token uses
  obtain member | held | fired | called := uses
  · cases shifts.tokens token member with
    | inl before => exact known token (.inl before)
    | inr new => exact fresh token new
  · exact slotted token held
  · cases Panel.shifts_fired world.Uses _ _ shifts.call.panel token fired with
    | inl before => exact known token (.inr (.inr (.inl before)))
    | inr uses => exact known token uses
  · cases shifts.call.token token called with
    | inl uses => exact known token uses
    | inr held => exact slotted token held

theorem shifts_same (world next : World) (call : next.call.token? = world.call.token? ∨ next.call.token? = none)
    (panel : world.machine.panel.Shifts world.Uses next.machine.panel) (tokens : next.tokens = world.tokens) :
    world.Shifts next := by
  refine ⟨⟨panel, ?_⟩, ?_⟩
  · intro token held
    cases call with
    | inl same => exact .inl (.inr (.inr (.inr (same.symm.trans held))))
    | inr none => cases none.symm.trans held
  · intro token member
    rw [tokens] at member
    exact .inl member

theorem main_shifts (world : World) : world.Shifts world.main := by
  refine ⟨?_, ?_⟩
  · cases called : world.call with
    | none =>
        have same : world.main = world := by
          rcases world with ⟨machine, call, unsent, hangsUp, tokens, history⟩
          cases called
          rfl
        rw [same, called]
        exact Call.shifts_free _ _ _ rfl (.same rfl rfl)
    | step call =>
        have held (token : Token) (works : call.token? = some token) : world.Uses token :=
          .inr (.inr (.inr (by rw [called]; exact works)))
        have shifts := Call.step_shifts call world.machine held
        rcases world with ⟨machine, call, unsent, hangsUp, tokens, history⟩
        cases called
        exact shifts
    | run call =>
        have held (token : Token) (works : call.token? = some token) : world.Uses token :=
          .inr (.inr (.inr (by rw [called]; exact works)))
        have shifts := Call.run_shifts call world.machine held
        rcases world with ⟨machine, call, unsent, hangsUp, tokens, history⟩
        cases called
        exact shifts
  · intro token member
    rw [main_turned] at member
    exact .inl member

theorem shifts_refl (world : World) : world.Shifts world := shifts_same world world (.inl rfl) (.same rfl rfl) rfl

theorem perform_shifts (world : World) (task : Task) : world.Shifts (world.perform task) := by
  obtain rfl | rfl | ⟨source, sink, unsent, sent, turned⟩ := perform_cases world task
  · exact main_shifts world
  · show world.Shifts world.drain
    obtain same | ⟨token, execution, drain, called, turned⟩ := drain_cases world
    · rw [same]
      exact shifts_refl world
    · have same := drain_turn_run token drain world.machine.panel
      rw [turned]
      exact shifts_same world _ (.inl (by rw [called]; rfl)) (.same same.slot same.signals) rfl
  · rw [turned]
    exact shifts_same world _ (.inl rfl) (.same rfl rfl) rfl

theorem step_shifts (world : World) : world.Shifts world.step := by
  obtain same | ⟨-, enters⟩ := step_cases world
  · rw [same]
    exact shifts_refl world
  · have taken := world.machine.panel.take_source_run
    rw [enters]
    exact shifts_same world _ (.inr rfl) (.same taken.slot taken.signals) rfl

theorem start_shifts (world : World) (token : Token) : world.Shifts (world.start token) := by
  rw [World.start]
  by_cases free : (world.call.finished && world.tokens.contains token) = true
  · have known : world.Uses token := .inl (List.contains_iff_mem.mp (Bool.and_eq_true_iff.mp free).2)
    rw [if_pos free, RunCall.claim]
    cases world.machine.panel.mode with
    | running => exact shifts_same world _ (.inr rfl) (.same rfl rfl) rfl
    | stopped => exact ⟨Call.shifts_held _ _ _ token known rfl (.claimed token known rfl rfl), fun _ => .inl⟩
  · rw [if_neg free]
    exact shifts_refl world

theorem act_shifts (world : World) (action : Action) : world.Shifts (world.act action) := by
  cases action with
  | task task => exact perform_shifts world task
  | step => exact step_shifts world
  | start token => exact start_shifts world token
  | markStopped => exact shifts_same world _ (.inl rfl) (.same rfl rfl) rfl
  | dropOutput => exact shifts_same world _ (.inl rfl) (.same rfl rfl) rfl
  | issue =>
      refine ⟨⟨.issued (.inl rfl) rfl, ?_⟩, ?_⟩
      · intro token works
        exact .inl (.inr (.inr (.inr works)))
      · intro token member
        cases member with
        | head => exact .inr ⟨rfl, rfl⟩
        | tail _ before => exact .inl before
  | cancel token =>
      rw [act]
      by_cases known : world.tokens.contains token = true
      · rw [if_pos known]
        exact shifts_same world _ (.inl rfl) (.fired token (.inl (List.contains_iff_mem.mp known)) rfl rfl) rfl
      · rw [if_neg known]
        exact shifts_refl world
  | fireSlot =>
      rw [act, Panel.fireSlot]
      cases slot : world.machine.panel.slot with
      | none => exact shifts_same world _ (.inl rfl) (.same rfl rfl) rfl
      | some token => exact shifts_same world _ (.inl rfl) (.fired token (.inr (.inl slot)) rfl rfl) rfl

theorem act_issued (world : World) (action : Action) (issued : world.Issued) : (world.act action).Issued :=
  shifts_issued world _ (act_shifts world action) issued

end World

end LittleComputer
