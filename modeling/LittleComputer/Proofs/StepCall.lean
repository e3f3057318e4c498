import LittleComputer.Proofs.InputConservation

set_option autoImplicit false

namespace LittleComputer

theorem keyboard_type_codes (keyboard : Keyboard) (char : Char) :
    keyboard.type char = { keyboard with queue := keyboard.queue ++ (codes [char]).toArray } := by
  unfold Keyboard.type
  cases code : Keyboard.code? char with
  | none => simp [codes, code]
  | some word => simp [codes, code, Keyboard.push]

def Panel.drained (panel : Panel) : Panel :=
  match panel.source with
  | none => panel
  | some line =>
      { panel with
        keyboard := { panel.keyboard with queue := panel.keyboard.queue ++ (codes line.waiting.toList).toArray }
        source := none
        sourceTaken := false }

def Machine.drained (machine : Machine) : Machine := { machine with panel := machine.panel.drained }

def Machine.begun (machine : Machine) : Token × Machine :=
  ((machine.panel.setClosed true).slotToken.1, { machine with panel := (machine.panel.setClosed true).slotToken.2 })

def Machine.left (machine : Machine) : Machine := { machine with panel := StepCall.leave false machine.panel }

structure Panel.Finished (panel : Panel) : Prop where
  free : ∀ line, panel.source = some line → panel.sourceTaken = false
  gone : ∀ line, panel.source = some line → line.senderOpen = false

theorem drained_unplugged (panel : Panel) (unplugged : panel.source = none) : panel.drained = panel := by
  simp only [Panel.drained, unplugged]

theorem take_char_waiting (panel : Panel) (line : Line) (char : Char) (rest : List Char)
    (source : panel.source = some line) (waiting : line.waiting.toList = char :: rest) :
    ∃ left : Line, left.waiting.toList = rest ∧ left.senderOpen = line.senderOpen ∧
      panel.takeChar = (.char char, { panel with source := some left }) := by
  have parts := first_and_rest line.waiting
  have front : line.waiting[0]? = some char := by
    rw [← Array.getElem?_toList, waiting]
    rfl
  rw [front, waiting] at parts
  refine ⟨{ line with waiting := line.waiting.extract 1 }, (List.cons.inj parts).2, rfl, ?_⟩
  simp only [Panel.takeChar, source, Line.take, front]

theorem take_char_gone (panel : Panel) (line : Line) (source : panel.source = some line) (nothing : line.waiting = #[])
    (gone : line.senderOpen = false) : panel.takeChar = (.disconnected, panel) := by
  rcases panel with ⟨mode, keyboard, _, taken, sink, slot, signals⟩
  cases source
  simp [Panel.takeChar, Line.take, nothing, gone]

theorem drained_type (panel : Panel) (line left : Line) (char : Char) (rest : List Char)
    (source : panel.source = some line) (waiting : line.waiting.toList = char :: rest)
    (after : left.waiting.toList = rest) :
    ({ panel with source := some left }.type char).drained = panel.drained := by
  simp only [Panel.drained, Panel.type, keyboard_type_codes, source, after, waiting]
  rw [← List.singleton_append (l := rest), codes_append]
  simp only [List.append_toArray, Array.append_assoc]

structure Panel.Uncancelled (panel : Panel) : Prop where
  stored : ∀ token, panel.slot = some token → panel.isFired token = false
  issued : ∀ token ∈ panel.signals.fired, token.number < panel.signals.issued

section
variable (machine : Machine) (uncancelled : machine.panel.Uncancelled)
include uncancelled

theorem begun_unfired : machine.begun.2.panel.isFired machine.begun.1 = false := by
  unfold Machine.begun Panel.slotToken
  cases slot : machine.panel.slot with
  | some token =>
      simp only [Panel.setClosed, slot]
      exact uncancelled.stored token slot
  | none =>
      simp only [Panel.setClosed, slot, Panel.issue, Signals.issue, Panel.isFired, Signals.isFired]
      refine Bool.eq_false_iff.mpr fun fired => ?_
      exact Nat.lt_irrefl _ (uncancelled.issued _ (List.contains_iff_mem.mp fired))

theorem begun_uncancelled : machine.begun.2.panel.Uncancelled := by
  have unfired := begun_unfired machine uncancelled
  unfold Machine.begun Panel.slotToken at unfired ⊢
  cases slot : machine.panel.slot with
  | some token =>
      simp only [Panel.setClosed, slot]
      exact ⟨fun token same => uncancelled.stored token (slot ▸ same), uncancelled.issued⟩
  | none =>
      simp only [Panel.setClosed, slot] at unfired ⊢
      refine ⟨fun token same => ?_, fun token fired => ?_⟩
      · cases same
        exact unfired
      · exact Nat.lt_succ_of_lt (uncancelled.issued token fired)

end

theorem uncancelled_same (before after : Panel) (uncancelled : before.Uncancelled) (same : before.SameRun after) :
    after.Uncancelled where
  stored token slot := (Panel.same_run_fired before after same token).trans
    (uncancelled.stored token (same.slot.symm.trans slot))
  issued token fired := by
    rw [same.signals] at fired ⊢
    exact uncancelled.issued token fired

theorem left_same (machine : Machine) (uncancelled : machine.panel.Uncancelled) : machine.left = machine := by
  have kept : StepCall.leave false machine.panel = machine.panel := by
    simp only [StepCall.leave, Panel.clearFired, Bool.false_eq_true, if_false]
    cases slot : machine.panel.slot with
    | none => rfl
    | some token =>
        dsimp only
        rw [uncancelled.stored token slot]
        rfl
  exact congrArg (fun panel => { machine with panel }) kept

theorem left_alike (machine : Machine) : machine.Alike machine.left := by
  have cleared : (StepCall.leave false machine.panel).keyboard = machine.panel.keyboard ∧
      (StepCall.leave false machine.panel).sink = machine.panel.sink := by
    simp only [StepCall.leave, Panel.clearFired, Bool.false_eq_true, if_false]
    cases machine.panel.slot with
    | none => exact ⟨rfl, rfl⟩
    | some token =>
        dsimp only
        cases machine.panel.isFired token <;> exact ⟨rfl, rfl⟩
  exact ⟨rfl, cleared.1.symm, cleared.2.symm, rfl⟩

theorem begun_sees (machine : Machine) :
    machine.begun.2.core = machine.core ∧ machine.begun.2.config = machine.config ∧
      machine.begun.2.panel.keyboard = machine.panel.keyboard.setClosed true ∧
      machine.begun.2.panel.sink = machine.panel.sink ∧ machine.begun.2.panel.source = machine.panel.source := by
  unfold Machine.begun Panel.slotToken
  cases slot : machine.panel.slot with
  | none => simp [Panel.setClosed, Panel.issue, slot]
  | some token => simp [Panel.setClosed, slot]

namespace StepCall

theorem settle_turn (turns : Nat) (call next : StepCall) (machine later : Machine)
    (turned : call.turn machine = (later, some next)) :
    machine.settle turn (turns + 1) call = later.settle turn turns next := by
  simp only [Machine.settle, turned]

theorem settle_begin (turns : Nat) (machine : Machine) :
    machine.settle turn (turns + 1) (.filling false) =
      machine.begun.2.settle turn turns (.attempting machine.begun.1 false .latch) :=
  settle_turn turns _ _ machine _ rfl

theorem settle_filling (rest : List Char) (turns : Nat) (machine : Machine) (line : Line)
    (source : machine.panel.source = some line) (waiting : line.waiting.toList = rest)
    (gone : line.senderOpen = false) :
    machine.settle turn (2 * rest.length + 1 + turns) (.filling true) =
      machine.drained.begun.2.settle turn turns (.attempting machine.drained.begun.1 false .latch) := by
  induction rest generalizing machine line with
  | nil =>
      have nothing : line.waiting = #[] := by simpa using waiting
      have dropped : machine.panel.dropSource = machine.panel.drained := by
        simp [Panel.dropSource, Panel.drained, source, nothing, codes]
      rw [List.length_nil, Nat.mul_zero, Nat.zero_add, Nat.add_comm]
      refine settle_turn turns _ _ machine _ ?_
      simp only [turn, fill, take_char_gone machine.panel line source nothing gone, dropped]
      rfl
  | cons char rest ih =>
      obtain ⟨left, after, sender, taken⟩ := take_char_waiting machine.panel line char rest source waiting
      let taking : Machine := { machine with panel := { machine.panel with source := some left } }
      let typed : Machine := { taking with panel := taking.panel.type char }
      have same : typed.drained = machine.drained :=
        congrArg (fun panel => { machine with panel })
          (drained_type machine.panel line left char rest source waiting after)
      have queued := ih typed left rfl after (sender.trans gone)
      rw [same] at queued
      rw [← queued, List.length_cons, Nat.mul_succ, Nat.add_right_comm _ 2 1, Nat.add_right_comm _ 2 turns]
      have types := settle_turn (2 * rest.length + 1 + turns) (.queueing char) (.filling true) taking typed rfl
      refine (settle_turn _ _ (.queueing char) machine taking ?_).trans types
      simp only [turn, fill, taken]
      rfl

theorem settle_returned (turns : Nat) (machine : Machine) (result : Except Fault Outcome) :
    machine.settle turn turns (.returned result) = (machine, .returned result) := by
  cases turns <;> rfl

theorem attempting_turn (token : Token) (attempt next : Attempt) (machine later : Machine)
    (turned : attempt.turn token machine = (later, some next)) :
    (attempting token false attempt).turn machine = (later, some (.attempting token false next)) := by
  obtain ⟨result, rfl⟩ | ⟨linked, -⟩ | turns := Call.attempting_cases token false attempt machine
  · cases turned
  · cases linked
  · rw [turns, turned]
    rfl

theorem settle_attempting (token : Token) (count rest : Nat) (attempt : Attempt) (machine last : Machine)
    (result : Except Fault Outcome) (settles : Attempt.Settles token count attempt machine result last) :
    machine.settle turn (count + rest) (.attempting token false attempt) =
      last.settle turn rest (.attempting token false (.done result)) := by
  induction settles with
  | done result machine => rw [Nat.zero_add]
  | turn count attempt next machine later last result turned _ ih =>
      rw [Nat.add_right_comm, settle_turn _ _ _ machine later (attempting_turn token attempt next machine later turned)]
      exact ih

theorem settle_done (token : Token) (rest : Nat) (machine : Machine) (result : Except Fault Outcome) :
    machine.settle turn (rest + 1) (.attempting token false (.done result)) = (machine.left, .returned result) := by
  rw [settle_turn rest _ (.returned result) machine machine.left rfl, settle_returned]

theorem settled_attempting (turns : Nat) (token : Token) (attempt : Attempt) (machine returned : Machine)
    (result : Except Fault Outcome)
    (settled : machine.settle turn turns (.attempting token false attempt) = (returned, .returned result)) :
    ∃ count last, Attempt.Settles token count attempt machine result last ∧ returned = last.left := by
  induction turns generalizing attempt machine with
  | zero => cases settled
  | succ turns ih =>
      obtain ⟨answer, rfl⟩ | ⟨linked, -⟩ | turned := Call.attempting_cases token false attempt machine
      · rw [settle_done] at settled
        cases settled
        exact ⟨0, machine, .done result machine, rfl⟩
      · cases linked
      · rw [Machine.settle, turned] at settled
        rcases step : attempt.turn token machine with ⟨later, _ | next⟩ <;> rw [step] at settled
        · cases settled
        · obtain ⟨count, last, settles, same⟩ := ih next later settled
          exact ⟨count + 1, last, .turn count attempt next machine later last result step settles, same⟩

-- The queueing leaves the attempt as many turns as it can take, and one to return.
theorem step_drains (machine : Machine) (finished : machine.panel.Finished) :
    machine.step = machine.drained.begun.2.settle turn (2 * Memory.size + 15)
      (.attempting machine.drained.begun.1 false .latch) := by
  unfold Machine.step enter resume turns Panel.takeSource
  generalize 2 * Memory.size = long
  cases source : machine.panel.source with
  | none =>
      simp only [source, Option.isSome_none, Bool.false_and, Bool.false_eq_true, if_false, Option.elim_none,
        Nat.mul_zero, Nat.zero_add]
      have drained : machine.drained = machine :=
        congrArg (fun panel => { machine with panel }) (drained_unplugged machine.panel source)
      rw [drained]
      exact settle_begin (long + 15) machine
  | some line =>
      simp only [finished.free line source, Option.isSome_some, Bool.not_false, Bool.and_true, if_true,
        Option.elim_some]
      let holding : Machine := { machine with panel := { machine.panel with source := some line, sourceTaken := true } }
      have same : holding.drained = machine.drained := by
        simp only [holding, Machine.drained, Panel.drained, source]
      have filled := settle_filling line.waiting.toList (long + 15) holding line rfl rfl (finished.gone line source)
      rw [same, Array.length_toList] at filled
      rw [show 2 * line.waiting.size + long + 16 = 2 * line.waiting.size + 1 + (long + 15) by omega]
      exact filled

theorem step_returns (machine last : Machine) (finished : machine.panel.Finished) (count : Nat)
    (result : Except Fault Outcome)
    (settles : Attempt.Settles machine.drained.begun.1 count .latch machine.drained.begun.2 result last) :
    machine.step = (last.left, .returned result) := by
  have bounded : count ≤ 2 * Memory.size + 2 := Attempt.settles_bounded _ count .latch _ last result settles nofun
  obtain ⟨rest, enough⟩ : ∃ rest, 2 * Memory.size + 15 = count + (rest + 1) := ⟨2 * Memory.size + 14 - count, by omega⟩
  rw [step_drains machine finished, enough, settle_attempting _ _ _ _ _ last result settles, settle_done]

theorem returned_settles (machine returned : Machine) (finished : machine.panel.Finished)
    (result : Except Fault Outcome) (step : machine.step = (returned, .returned result)) :
    ∃ count last, Attempt.Settles machine.drained.begun.1 count .latch machine.drained.begun.2 result last ∧
      returned = last.left :=
  settled_attempting _ _ _ _ _ result (step_drains machine finished ▸ step)

end StepCall

end LittleComputer
