import LittleComputer.Proofs.Attempt
import LittleComputer.Proofs.World

set_option autoImplicit false

namespace LittleComputer

def codes (text : List Char) : List Word := text.filterMap Keyboard.code?

theorem codes_append (left right : List Char) : codes (left ++ right) = codes left ++ codes right :=
  List.filterMap_append

def Executed.taken (executed : Executed) : List Word := executed.dequeues.filterMap Dequeue.code?

def History.taken (history : History) : List Word := history.executed.flatMap Executed.taken

def Line.Taken.char? : Line.Taken → Option Char
  | .char typed => some typed
  | _ => none

namespace Panel

def channel (panel : Panel) : List Char := panel.source.elim [] fun line => line.waiting.toList

def stored (panel : Panel) (inFlight : Option Char) : List Word :=
  panel.keyboard.queue.toList ++ codes inFlight.toList ++ codes panel.channel

def hasSender (panel : Panel) : Bool := panel.source.any (·.senderOpen)

structure Held (panel : Panel) (missing holds : Bool) : Prop where
  taken : panel.sourceTaken = (missing || holds)
  apart : (missing && holds) = false

structure SameInput (left right : Panel) : Prop where
  queue : left.keyboard.queue = right.keyboard.queue
  source : left.source = right.source
  taken : left.sourceTaken = right.sourceTaken

theorem stored_same (left right : Panel) (same : left.SameInput right) (inFlight : Option Char) :
    left.stored inFlight = right.stored inFlight := by
  simp only [stored, channel, same.queue, same.source]

theorem type_queue (panel : Panel) (char : Char) :
    (panel.type char).keyboard.queue.toList = panel.keyboard.queue.toList ++ codes [char] := by
  simp only [type, Keyboard.type, codes, List.filterMap_cons, List.filterMap_nil]
  cases Keyboard.code? char with
  | none => exact (List.append_nil _).symm
  | some code => exact Array.toList_push

theorem stored_type (panel : Panel) (char : Char) : (panel.type char).stored none = panel.stored (some char) := by
  rw [stored, type_queue]
  exact congrArg (· ++ codes panel.channel) (List.append_nil _)

theorem line_take_waiting (line : Line) :
    line.take.1.char?.toList ++ line.take.2.waiting.toList = line.waiting.toList := by
  rw [← first_and_rest line.waiting]
  unfold Line.take
  cases front : line.waiting[0]? with
  | some char => rfl
  | none =>
      have empty : line.waiting = #[] := by simpa using front
      cases line.senderOpen <;> simp [Line.Taken.char?, empty]

theorem line_take_sender (line : Line) : line.take.2.senderOpen = line.senderOpen := by
  unfold Line.take
  cases line.waiting[0]? with
  | some char => rfl
  | none => cases closed : line.senderOpen <;> simp [closed]

theorem stored_take_char (panel : Panel) :
    panel.takeChar.2.stored panel.takeChar.1.char? = panel.stored none := by
  unfold takeChar
  cases source : panel.source with
  | none => simp [stored, Line.Taken.char?]
  | some line =>
      have waiting := congrArg codes (line_take_waiting line)
      rw [codes_append] at waiting
      simp only [stored, channel, source, Option.elim_some, List.append_assoc, waiting]
      simp [codes]

theorem has_sender_take_char (panel : Panel) : panel.takeChar.2.hasSender = panel.hasSender := by
  unfold takeChar hasSender
  cases source : panel.source with
  | none => rw [source]
  | some line => exact line_take_sender line

theorem keyboard_take_char (panel : Panel) : panel.takeChar.2.keyboard = panel.keyboard := by
  unfold takeChar
  cases panel.source <;> rfl

theorem keyboard_take_source (panel : Panel) : panel.takeSource.2.keyboard = panel.keyboard := by
  unfold takeSource
  split <;> rfl

theorem source_taken_take_char (panel : Panel) : panel.takeChar.2.sourceTaken = panel.sourceTaken := by
  unfold takeChar
  cases panel.source <;> rfl

theorem take_char_disconnected (panel : Panel) (gone : panel.takeChar.1 = .disconnected) :
    panel.takeChar.2.channel = [] ∧ panel.takeChar.2.hasSender = false := by
  unfold takeChar at gone ⊢
  cases source : panel.source with
  | none => simp [channel, hasSender, source]
  | some line =>
      simp only [source, Line.take] at gone ⊢
      cases front : line.waiting[0]? with
      | some char => simp [front] at gone
      | none =>
          have empty : line.waiting = #[] := by simpa using front
          cases closed : line.senderOpen with
          | true => simp [front, closed] at gone
          | false => simp [channel, hasSender, empty, closed]

theorem slot_token_same (panel : Panel) : panel.slotToken.2.SameInput panel := by
  unfold slotToken
  cases panel.slot <;> exact ⟨rfl, rfl, rfl⟩

theorem clear_fired_same (panel : Panel) : panel.clearFired.SameInput panel := by
  unfold clearFired
  cases panel.slot with
  | none => exact ⟨rfl, rfl, rfl⟩
  | some token =>
      dsimp only
      cases panel.isFired token <;> exact ⟨rfl, rfl, rfl⟩

theorem fire_slot_same (panel : Panel) : panel.fireSlot.SameInput panel := by
  unfold fireSlot
  cases panel.slot <;> exact ⟨rfl, rfl, rfl⟩

end Panel

namespace Call

def holdsSource : Call → Bool
  | .step (.filling linked) => linked
  | .step (.queueing _) => true
  | .step (.attempting _ linked _) => linked
  | .step (.receiving _) => true
  | .step (.received _ _) => true
  | .run (.active _ _ (.ended linked)) => linked
  | .run (.active _ _ drain) => drain ≠ .idle
  | _ => false

-- One turn of a call in which the program takes `drawn`. The queue loses no more than that.
structure Passes (drawn : List Word) (before : Panel) (call : Call) (after : Panel) (next : Call) : Prop where
  queue : ∃ more, drawn ++ after.keyboard.queue.toList = before.keyboard.queue.toList ++ more
  stored : drawn ++ after.stored next.inFlight = before.stored call.inFlight
  sender : after.hasSender = before.hasSender
  held : ∀ missing, before.Held missing call.holdsSource → after.Held missing next.holdsSource

theorem passes_same (before after : Panel) (call next : Call) (same : after.SameInput before)
    (inFlight : next.inFlight = call.inFlight) (holds : next.holdsSource = call.holdsSource) :
    Passes [] before call after next where
  queue := ⟨[], by rw [same.queue, List.append_nil]; rfl⟩
  stored := by rw [inFlight]; exact Panel.stored_same after before same _
  sender := by simp only [Panel.hasSender, same.source]
  held missing kept := ⟨by rw [same.taken, holds, kept.taken], by rw [holds, kept.apart]⟩

end Call

def Machine.executes (machine : Machine) : Option (Token × Attempt) → List Executed
  | some (token, .execute) => [machine.executed token]
  | _ => []

def Machine.drawn (machine : Machine) (attempt? : Option (Token × Attempt)) : List Word :=
  (machine.executes attempt?).flatMap Executed.taken

theorem Machine.drawn_execute (machine : Machine) (token : Token) :
    machine.drawn (some (token, .execute)) = (machine.executed token).taken := List.append_nil _

namespace Panel

theorem recorder_views (token : Token) : (recorder token).Views (console token) Prod.fst where
  readChar state := by
    simp only [recorder]
    rcases (console token).readChar state.1 with ⟨_ | code, panel⟩ <;> rfl
  writeChar byte state := rfl
  acknowledgeKey state := rfl
  halt state := rfl

structure Recorded (start : Panel) (state : Panel × List Dequeue) : Prop where
  queue : state.2.filterMap Dequeue.code? ++ state.1.keyboard.queue.toList = start.keyboard.queue.toList
  source : state.1.source = start.source
  taken : state.1.sourceTaken = start.sourceTaken

theorem recorded_pop (start panel : Panel) (log dequeues : List Dequeue) (kept : start.Recorded (panel, log))
    (same : dequeues.filterMap Dequeue.code? = panel.keyboard.queue[0]?.toList) :
    start.Recorded ({ panel with keyboard := panel.keyboard.pop.2 }, log ++ dequeues) where
  queue := by
    rw [List.filterMap_append, same, List.append_assoc]
    exact Eq.trans (congrArg _ (first_and_rest panel.keyboard.queue)) kept.queue
  source := kept.source
  taken := kept.taken

theorem step_recorded (token : Token) (core : Core) (start : Panel) :
    start.Recorded (core.step (recorder token) (start, [])).2.2 := by
  apply Core.step_keeps
  case kept => exact ⟨rfl, rfl, rfl⟩
  case read =>
      intro ⟨panel, log⟩ kept
      simp only [recorder, console, Keyboard.pop]
      cases front : panel.keyboard.queue[0]? with
      | none =>
          have popped := recorded_pop start panel log [] kept (by rw [front]; rfl)
          rwa [List.append_nil] at popped
      | some code => exact recorded_pop start panel log [.getc code] kept (by rw [front]; rfl)
  case written => exact fun byte state kept => kept
  case acknowledged =>
      intro ⟨panel, log⟩ kept
      refine recorded_pop start panel log [.key panel.keyboard.queue[0]?] kept ?_
      cases panel.keyboard.queue[0]? <;> rfl
  case halted => exact fun state kept => ⟨kept.queue, kept.source, kept.taken⟩

end Panel

namespace Attempt

theorem executing_machine (token : Token) (machine : Machine) :
    (executing token machine).1 = { machine with
      core := (machine.core.step (Panel.recorder token) (machine.panel, [])).2.1
      panel := (machine.core.step (Panel.recorder token) (machine.panel, [])).2.2.1 } := by
  have seen := Core.step_views (Panel.recorder_views token) machine.core (machine.panel, [])
  unfold executing
  rw [seen]
  rcases machine.core.step (Panel.recorder token) (machine.panel, []) with ⟨_ | result, core, panel, log⟩ <;> rfl

theorem offering_same (token : Token) (char : Char) (rest : List Char) (panel : Panel) :
    (offering token char rest panel).1.SameInput panel := by
  unfold offering
  cases panel.sink with
  | none => exact ⟨rfl, rfl, rfl⟩
  | some line =>
      dsimp only
      rcases line.offer char with ⟨_ | _ | _ | _, after⟩ <;> exact ⟨rfl, rfl, rfl⟩

end Attempt

namespace Call

theorem attempt_turn_passes (token : Token) (attempt : Attempt) (machine : Machine) (call next : Call)
    (inFlight : next.inFlight = call.inFlight) (holds : next.holdsSource = call.holdsSource) :
    Passes (machine.drawn (some (token, attempt))) machine.panel call
      (attempt.turn token machine).1.panel next := by
  have idle (after : Panel) (same : after.SameInput machine.panel) : Passes [] machine.panel call after next :=
    passes_same machine.panel after call next same inFlight holds
  cases attempt with
  | latch => exact idle _ (by rw [Attempt.turn, machine.latch_keyboard_keeps.1]; exact ⟨rfl, rfl, rfl⟩)
  | look => exact idle _ ⟨rfl, rfl, rfl⟩
  | await => exact idle _ ⟨rfl, rfl, rfl⟩
  | handOver rest => exact idle _ ⟨rfl, rfl, rfl⟩
  | offer char rest => exact idle _ (Attempt.offering_same token char rest machine.panel)
  | endless => exact idle _ ⟨rfl, rfl, rfl⟩
  | done result => exact idle _ ⟨rfl, rfl, rfl⟩
  | execute =>
      have recorded := Panel.step_recorded token machine.core machine.panel
      rw [Attempt.turn, Attempt.executing_machine token machine, Machine.drawn_execute]
      refine ⟨⟨[], ?_⟩, ?_, ?_, fun missing kept => ⟨?_, ?_⟩⟩
      · rw [List.append_nil]
        exact recorded.queue
      · rw [inFlight]
        simp only [Panel.stored, Panel.channel, recorded.source, ← recorded.queue, List.append_assoc]
        rfl
      · simp only [Panel.hasSender, recorded.source]
      · rw [recorded.taken, holds, kept.taken]
      · rw [holds, kept.apart]

theorem passes_then_same (drawn : List Word) (before middle after : Panel) (call next : Call)
    (passes : Passes drawn before call middle next) (same : after.SameInput middle) :
    Passes drawn before call after next where
  queue := by rw [same.queue]; exact passes.queue
  stored := by rw [Panel.stored_same after middle same, passes.stored]
  sender := by rw [← passes.sender]; simp only [Panel.hasSender, same.source]
  held missing kept := ⟨by rw [same.taken, (passes.held missing kept).taken], (passes.held missing kept).apart⟩

theorem passes_take (panel : Panel) (call next : Call) (empty : call.inFlight = .none)
    (carried : next.inFlight = panel.takeChar.1.char?) (holds : next.holdsSource = call.holdsSource) :
    Passes [] panel call panel.takeChar.2 next where
  queue := ⟨[], by rw [Panel.keyboard_take_char, List.append_nil]; rfl⟩
  stored := by rw [empty, carried]; exact Panel.stored_take_char panel
  sender := Panel.has_sender_take_char panel
  held missing kept := ⟨by rw [Panel.source_taken_take_char, holds, kept.taken], by rw [holds, kept.apart]⟩

theorem passes_drop (panel : Panel) (call next : Call) (gone : panel.takeChar.1 = .disconnected)
    (empty : call.inFlight = .none) (after : next.inFlight = .none) (holds : call.holdsSource = true)
    (gives : next.holdsSource = false) : Passes [] panel call panel.takeChar.2.dropSource next := by
  obtain ⟨nothing, closed⟩ := Panel.take_char_disconnected panel gone
  have taken := Panel.stored_take_char panel
  refine ⟨⟨[], ?_⟩, ?_, ?_, fun missing kept => ⟨?_, ?_⟩⟩
  · rw [List.append_nil, ← Panel.keyboard_take_char panel]
    rfl
  · rw [empty, after, ← taken, gone]
    simp only [Panel.stored, nothing]
    rfl
  · rw [← Panel.has_sender_take_char panel, closed]
    rfl
  · have apart := kept.apart
    rw [holds, Bool.and_true] at apart
    rw [gives, apart]
    rfl
  · rw [gives, Bool.and_false]

theorem passes_type (panel : Panel) (char : Char) (call next : Call) (carried : call.inFlight = some char)
    (empty : next.inFlight = .none) (holds : next.holdsSource = call.holdsSource) :
    Passes [] panel call (panel.type char) next where
  queue := ⟨codes [char], Panel.type_queue panel char⟩
  stored := by rw [carried, empty]; exact Panel.stored_type panel char
  sender := rfl
  held missing kept := ⟨by rw [holds]; exact kept.taken, by rw [holds, kept.apart]⟩

theorem passes_return (before after : Panel) (linked : Bool) (call next : Call)
    (same : after.SameInput (if linked then before.returnSource else before))
    (holds : call.holdsSource = linked) (inFlight : next.inFlight = call.inFlight)
    (gives : next.holdsSource = false) : Passes [] before call after next := by
  refine passes_then_same [] before _ after call next ⟨⟨[], ?_⟩, ?_, ?_, fun missing kept => ⟨?_, ?_⟩⟩ same
  · rw [List.append_nil]
    cases linked <;> rfl
  · rw [inFlight]
    cases linked <;> rfl
  · cases linked <;> rfl
  · have apart := kept.apart
    have taken := kept.taken
    rw [holds] at apart taken
    cases linked with
    | false => rw [gives]; exact taken
    | true => rw [gives, ← Bool.and_true missing, apart]; rfl
  · rw [gives, Bool.and_false]

theorem begin_passes (linked : Bool) (before panel : Panel) (call : Call)
    (passes : ∀ token, Passes [] before call panel (.step (.attempting token linked .latch))) :
    Passes [] before call (StepCall.begin linked panel).1 (.step (StepCall.begin linked panel).2) := by
  have same := Panel.slot_token_same (panel.setClosed !linked)
  exact passes_then_same [] before panel _ call _ (passes _) ⟨same.queue, same.source, same.taken⟩

theorem fill_passes (panel : Panel) :
    Passes [] panel (.step (.filling true)) (StepCall.fill panel).1 (.step (StepCall.fill panel).2) := by
  have drop := passes_drop panel (.step (.filling true))
  have take := passes_take panel (.step (.filling true))
  unfold StepCall.fill
  generalize panel.takeChar = answer at drop take ⊢
  rcases answer with ⟨_ | _ | _, after⟩
  · exact take _ rfl rfl rfl
  · exact begin_passes true panel after _ fun token => take _ rfl rfl rfl
  · exact begin_passes false panel after.dropSource _ fun token => drop _ rfl rfl rfl rfl rfl

theorem receive_passes (token : Token) (panel : Panel) :
    Passes [] panel (.step (.receiving token)) (StepCall.receive token panel).1
      (.step ((StepCall.receive token panel).2.getD (.receiving token))) := by
  have take := passes_take panel (.step (.receiving token))
  unfold StepCall.receive
  generalize panel.takeChar = answer at take ⊢
  rcases answer with ⟨_ | _ | _, after⟩
  · exact take _ rfl rfl rfl
  · dsimp only
    cases after.isFired token <;> exact take _ rfl rfl rfl
  · exact passes_then_same [] panel after _ _ _ (take _ rfl rfl rfl) ⟨rfl, rfl, rfl⟩

theorem step_leave_passes (panel : Panel) (token : Token) (linked : Bool) (result : Except Fault Outcome) :
    Passes [] panel (.step (.attempting token linked (.done result))) (StepCall.leave linked panel)
      (.step (.returned result)) :=
  passes_return panel _ linked _ _ (Panel.clear_fired_same _) rfl rfl rfl

theorem attempting_cases (token : Token) (linked : Bool) (attempt : Attempt) (machine : Machine) :
    (∃ result, attempt = .done result) ∨ (linked = true ∧ attempt = .await) ∨
      (StepCall.attempting token linked attempt).turn machine =
        ((attempt.turn token machine).1, (attempt.turn token machine).2.map (.attempting token linked)) := by
  unfold StepCall.turn
  split <;> rename_i same <;> cases same
  · exact .inr (.inl ⟨rfl, rfl⟩)
  · exact .inl ⟨_, rfl⟩
  · refine .inr (.inr ?_)
    rcases attempt.turn token machine with ⟨after, _ | next⟩ <;> rfl

theorem step_turn_passes (call : StepCall) (machine : Machine) :
    Passes (machine.drawn (Call.step call).attempt?) machine.panel (.step call) (call.turn machine).1.panel
      (.step ((call.turn machine).2.getD call)) := by
  cases call with
  | filling linked =>
      cases linked with
      | true => exact fill_passes machine.panel
      | false => exact begin_passes false machine.panel machine.panel _ fun token =>
          passes_same _ _ _ _ ⟨rfl, rfl, rfl⟩ rfl rfl
  | queueing char => exact passes_type machine.panel char _ _ rfl rfl rfl
  | receiving token => exact receive_passes token machine.panel
  | received token char => exact passes_type machine.panel char _ _ rfl rfl rfl
  | returned result => exact passes_same _ _ _ _ ⟨rfl, rfl, rfl⟩ rfl rfl
  | attempting token linked attempt =>
      obtain ⟨result, rfl⟩ | ⟨rfl, rfl⟩ | turned := attempting_cases token linked attempt machine
      · cases linked <;> exact step_leave_passes machine.panel token _ result
      · refine passes_same _ _ _ _ ⟨rfl, rfl, rfl⟩ ?_ ?_ <;>
          simp only [StepCall.turn, StepCall.await, Option.getD_some] <;>
          cases machine.panel.isFired token <;> rfl
      · rw [turned]
        apply attempt_turn_passes <;> cases (attempt.turn token machine).2 <;> rfl

theorem drain_turn_passes (token : Token) (execution : Execution) (drain : Drain) (panel : Panel) :
    Passes [] panel (.run (.active token execution drain)) (drain.turn token panel).1
      (.run (.active token execution ((drain.turn token panel).2.getD drain))) := by
  cases drain with
  | check =>
      simp only [Drain.turn]
      cases panel.isFired token <;> exact passes_same _ _ _ _ ⟨rfl, rfl, rfl⟩ rfl rfl
  | receive =>
      have drop := passes_drop panel (.run (.active token execution .receive))
      have take := passes_take panel (.run (.active token execution .receive))
      unfold Drain.turn
      generalize panel.takeChar = answer at drop take ⊢
      rcases answer with ⟨_ | _ | _, after⟩
      · exact take _ rfl rfl rfl
      · dsimp only
        cases after.isFired token <;> exact take _ rfl rfl rfl
      · exact passes_then_same [] panel _ _ _ _ (drop _ rfl rfl rfl rfl rfl) ⟨rfl, rfl, rfl⟩
  | queue char => exact passes_type panel char _ _ rfl rfl rfl
  | idle =>
      simp only [Drain.turn]
      cases panel.isFired token <;> exact passes_same _ _ _ _ ⟨rfl, rfl, rfl⟩ rfl rfl
  | ended linked => exact passes_same _ _ _ _ ⟨rfl, rfl, rfl⟩ rfl rfl

theorem conclude_keeps (steps : Nat) (result : Except Fault Outcome) (machine : Machine) :
    (Execution.conclude steps result machine).1.panel = machine.panel ∧
      (Execution.conclude steps result machine).1.config = machine.config := by
  rcases result with fault | _ | _ | _ | _
  · unfold Execution.conclude
    cases machine.config.policy <;> exact ⟨rfl, rfl⟩
  all_goals exact ⟨rfl, rfl⟩

theorem execution_turn_attempt (token : Token) (steps : Nat) (attempt : Attempt) (machine : Machine)
    (goes : ∀ result, attempt ≠ .done result) :
    Execution.turn token ⟨steps, .attempt attempt⟩ machine =
      ((attempt.turn token machine).1, (attempt.turn token machine).2.map (⟨steps, .attempt ·⟩)) := by
  unfold Execution.turn
  split <;> rename_i same <;> cases same
  · exact absurd rfl (goes _)
  · rcases attempt.turn token machine with ⟨after, _ | next⟩ <;> rfl

theorem execution_turn_cases (token : Token) (steps : Nat) (attempt : Attempt) (machine : Machine) :
    (∃ result, attempt = .done result) ∨
      Execution.turn token ⟨steps, .attempt attempt⟩ machine =
        ((attempt.turn token machine).1, (attempt.turn token machine).2.map (⟨steps, .attempt ·⟩)) := by
  by_cases finished : ∃ result, attempt = .done result
  · exact .inl finished
  · exact .inr (execution_turn_attempt token steps attempt machine fun result same => finished ⟨result, same⟩)

theorem execution_turn_passes (token : Token) (execution : Execution) (drain : Drain) (machine : Machine) :
    Passes (machine.drawn (Call.run (.active token execution drain)).attempt?) machine.panel
      (.run (.active token execution drain)) (execution.turn token machine).1.panel
      (.run (.active token ((execution.turn token machine).2.getD execution) drain)) := by
  have still (next : Execution) :
      (Call.run (.active token next drain)).inFlight = (Call.run (.active token execution drain)).inFlight ∧
      (Call.run (.active token next drain)).holdsSource = (Call.run (.active token execution drain)).holdsSource := by
    cases drain <;> exact ⟨rfl, rfl⟩
  have idle (after : Panel) (next : Execution) (same : after.SameInput machine.panel) :=
    passes_same machine.panel after (.run (.active token execution drain)) (.run (.active token next drain)) same
      (still next).1 (still next).2
  rcases execution with ⟨steps, phase⟩
  cases phase with
  | check => exact idle _ _ ⟨rfl, rfl, rfl⟩
  | stopping ending => exact idle _ _ ⟨rfl, rfl, rfl⟩
  | ended ending => exact idle _ _ ⟨rfl, rfl, rfl⟩
  | attempt attempt =>
      by_cases finished : ∃ result, attempt = .done result
      · obtain ⟨result, rfl⟩ := finished
        apply idle
        rw [Execution.turn]
        dsimp only
        rw [(conclude_keeps steps result machine).1]
        exact ⟨rfl, rfl, rfl⟩
      · rw [execution_turn_attempt token steps attempt machine fun result same => finished ⟨result, same⟩]
        exact attempt_turn_passes token attempt machine _ _ (still _).1 (still _).2

theorem passes_claim (panel : Panel) (call next : Call) (inFlight : next.inFlight = call.inFlight)
    (free : call.holdsSource = false) (holds : next.holdsSource = panel.takeSource.1) :
    Passes [] panel call panel.takeSource.2 next := by
  unfold Panel.takeSource at holds ⊢
  by_cases there : (panel.source.isSome && !panel.sourceTaken) = true
  · obtain ⟨-, untaken⟩ := Bool.and_eq_true_iff.mp there
    rw [if_pos there] at holds ⊢
    refine ⟨⟨[], ?_⟩, ?_, rfl, fun missing kept => ?_⟩
    · rw [List.append_nil]
      rfl
    · rw [inFlight]
      rfl
    · have taken := kept.taken
      rw [Bool.not_eq_true' _ |>.mp untaken, free, Bool.or_false] at taken
      rw [holds, ← taken]
      exact ⟨rfl, rfl⟩
  · rw [if_neg there] at holds ⊢
    exact passes_same panel panel call next ⟨rfl, rfl, rfl⟩ inFlight (holds.trans free.symm)

theorem enter_passes (token : Token) (panel : Panel) :
    Passes [] panel (.run (.entering token)) (RunCall.enter token panel).1 (.run (RunCall.enter token panel).2) := by
  have claim := passes_claim panel (.run (.entering token))
  unfold RunCall.enter
  generalize panel.takeSource = answer at claim ⊢
  rcases answer with ⟨linked, after⟩
  exact passes_then_same [] panel after _ _ _ (claim _ (by cases linked <;> rfl) rfl (by cases linked <;> rfl))
    ⟨rfl, rfl, rfl⟩

theorem run_turn_passes (call : RunCall) (machine : Machine) :
    Passes (machine.drawn (Call.run call).attempt?) machine.panel (.run call) (call.mainTurn machine).1.panel
      (.run ((call.mainTurn machine).2.getD call)) := by
  unfold RunCall.mainTurn
  split
  · exact enter_passes _ machine.panel
  · exact passes_return machine.panel _ _ _ _ ⟨rfl, rfl, rfl⟩ rfl rfl rfl
  · rename_i token execution drain apart
    have passes := execution_turn_passes token execution drain machine
    rcases turned : execution.turn token machine with ⟨after, _ | next⟩ <;> rw [turned] at passes <;> exact passes
  · exact passes_same _ _ _ _ ⟨rfl, rfl, rfl⟩ rfl rfl

theorem drain_passes (call : RunCall) (machine : Machine) :
    Passes [] machine.panel (.run call) (call.drainTurn machine).1.panel
      (.run ((call.drainTurn machine).2.getD call)) := by
  unfold RunCall.drainTurn
  split
  · rename_i token execution drain
    have passes := drain_turn_passes token execution drain machine.panel
    rcases turned : drain.turn token machine.panel with ⟨after, _ | next⟩ <;> rw [turned] at passes <;> exact passes
  · exact passes_same _ _ _ _ ⟨rfl, rfl, rfl⟩ rfl rfl

theorem finished_idle (call : Call) (finished : call.finished = true) :
    call.inFlight = .none ∧ call.holdsSource = false := by
  rcases call with _ | call | call
  · exact ⟨rfl, rfl⟩
  · cases call <;> first | exact ⟨rfl, rfl⟩ | cases finished
  · cases call <;> first | exact ⟨rfl, rfl⟩ | cases finished

end Call

namespace History

theorem note_executed (history : History) (machine : Machine) (attempt? : Option (Token × Attempt)) :
    (history.note machine attempt?).executed = history.executed ++ machine.executes attempt? := by
  rcases attempt? with _ | ⟨token, attempt⟩
  · exact (List.append_nil _).symm
  · cases attempt with
    | execute => rfl
    | offer char rest =>
        simp only [note, Machine.executes, List.append_nil]
        split <;> rfl
    | _ => exact (List.append_nil _).symm

theorem note_taken (history : History) (machine : Machine) (attempt? : Option (Token × Attempt)) :
    (history.note machine attempt?).taken = history.taken ++ machine.drawn attempt? := by
  rw [taken, note_executed, List.flatMap_append]
  rfl

theorem note_sent (history : History) (machine : Machine) (attempt? : Option (Token × Attempt)) :
    (history.note machine attempt?).sent = history.sent := by
  unfold note
  split
  · rfl
  · rfl
  · split <;> rfl
  · rfl

end History

namespace World

structure Conserved (origin world : World) : Prop where
  balance : world.history.taken ++ world.machine.panel.stored world.call.inFlight =
    origin.machine.panel.stored none ++ codes world.history.sent
  order : world.history.sent ++ world.unsent = origin.unsent
  promise : world.hangsUp = origin.hangsUp
  held : world.machine.panel.Held origin.machine.panel.sourceTaken world.call.holdsSource
  sender : (world.unsent = [] ∧ world.hangsUp = true) ∨
    world.machine.panel.hasSender = origin.machine.panel.hasSender

theorem conserved_initial (machine : Machine) (text : List Char) (hangsUp : Bool) (tokens : List Token) :
    Conserved { machine, unsent := text, hangsUp, tokens } { machine, unsent := text, hangsUp, tokens } where
  balance := (List.append_nil _).symm
  order := rfl
  promise := rfl
  held := ⟨(Bool.or_false _).symm, Bool.and_false _⟩
  sender := .inr rfl

variable {origin : World}

theorem conserved_call (world : World) (machine : Machine) (call : Call) (history : History) (drawn : List Word)
    (kept : origin.Conserved world)
    (passes : Call.Passes drawn world.machine.panel world.call machine.panel call)
    (taken : history.taken = world.history.taken ++ drawn) (sent : history.sent = world.history.sent) :
    origin.Conserved { world with machine, call, history } where
  balance := by rw [taken, sent, List.append_assoc, passes.stored]; exact kept.balance
  order := by rw [sent]; exact kept.order
  promise := kept.promise
  held := passes.held _ kept.held
  sender := by rw [passes.sender]; exact kept.sender

theorem main_passes (world : World) :
    Call.Passes (world.machine.drawn world.call.attempt?) world.machine.panel world.call world.main.machine.panel
      world.main.call := by
  rcases world with ⟨machine, call, unsent, hangsUp, tokens, history⟩
  cases call with
  | none => exact Call.passes_same _ _ _ _ ⟨rfl, rfl, rfl⟩ rfl rfl
  | step call => exact Call.step_turn_passes call machine
  | run call => exact Call.run_turn_passes call machine

theorem drain_passes (world : World) :
    Call.Passes [] world.machine.panel world.call world.drain.machine.panel world.drain.call := by
  rcases world with ⟨machine, call, unsent, hangsUp, tokens, history⟩
  cases call with
  | none => exact Call.passes_same _ _ _ _ ⟨rfl, rfl, rfl⟩ rfl rfl
  | step call => exact Call.passes_same _ _ _ _ ⟨rfl, rfl, rfl⟩ rfl rfl
  | run call => exact Call.drain_passes call machine

theorem main_conserves (world : World) (kept : origin.Conserved world) : origin.Conserved world.main := by
  rw [main_turned world]
  exact conserved_call world _ _ _ _ kept (main_passes world) (History.note_taken _ _ _) (History.note_sent _ _ _)

theorem drain_conserves (world : World) (kept : origin.Conserved world) : origin.Conserved world.drain := by
  rw [drain_turned world]
  exact conserved_call world _ _ _ [] kept (drain_passes world) (List.append_nil _).symm rfl

theorem send_conserves (world : World) (kept : origin.Conserved world) : origin.Conserved world.send := by
  obtain same | ⟨char, rest, line, unsent, source, -, sends⟩ | ⟨unsent, gone, closes⟩ := send_cases world
  · rw [same]
    exact kept
  · have balance := kept.balance
    have order := kept.order
    simp only [Panel.stored, Panel.channel, source] at balance
    rw [unsent] at order
    rw [sends]
    refine ⟨?_, ?_, kept.promise, ⟨kept.held.taken, kept.held.apart⟩, .inr ?_⟩
    · simp only [Panel.stored, Panel.channel, Machine.replug, Line.put, codes_append, Array.toList_push,
        Option.elim_some, ← List.append_assoc] at balance ⊢
      exact congrArg (· ++ codes [char]) balance
    · rw [List.append_assoc]
      exact order
    · have sender := kept.sender.resolve_left fun gone => by rw [unsent] at gone; cases gone.1
      rw [← sender]
      simp only [Panel.hasSender, Machine.replug, Line.put, source]
      rfl
  · rw [closes]
    refine ⟨?_, kept.order, kept.promise, ⟨kept.held.taken, kept.held.apart⟩, .inl ⟨unsent, gone⟩⟩
    rw [← kept.balance]
    simp only [Panel.stored, Panel.channel, Machine.closeSender]
    cases world.machine.panel.source <;> rfl

theorem conserved_same (world : World) (machine : Machine) (tokens : List Token) (kept : origin.Conserved world)
    (same : machine.panel.SameInput world.machine.panel) :
    origin.Conserved { world with machine, tokens } where
  balance := by rw [Panel.stored_same _ _ same]; exact kept.balance
  order := kept.order
  promise := kept.promise
  held := ⟨by rw [same.taken]; exact kept.held.taken, kept.held.apart⟩
  sender := by simp only [Panel.hasSender, same.source]; exact kept.sender

theorem perform_conserves (world : World) (task : Task) (kept : origin.Conserved world) :
    origin.Conserved (world.perform task) := by
  cases task with
  | main => exact main_conserves world kept
  | drain => exact drain_conserves world kept
  | send => exact send_conserves world kept
  | listen => exact conserved_same world _ _ kept ⟨rfl, rfl, rfl⟩
  | receive =>
      show origin.Conserved world.receive
      obtain same | ⟨line, -, takes⟩ := receive_cases world
      · rw [same]
        exact kept
      · rw [takes]
        exact conserved_same world _ _ kept ⟨rfl, rfl, rfl⟩

theorem step_conserves (world : World) (kept : origin.Conserved world) : origin.Conserved world.step := by
  obtain same | ⟨finished, enters⟩ := step_cases world
  · rw [same]
    exact kept
  · obtain ⟨inFlight, holds⟩ := Call.finished_idle world.call finished
    rw [enters]
    exact conserved_call world _ _ world.history [] kept
      (Call.passes_claim world.machine.panel world.call _ inFlight.symm holds rfl) (List.append_nil _).symm rfl

theorem start_conserves (world : World) (token : Token) (kept : origin.Conserved world) :
    origin.Conserved (world.start token) := by
  obtain same | ⟨finished, claims⟩ := start_cases world token
  · rw [same]
    exact kept
  · obtain ⟨inFlight, holds⟩ := Call.finished_idle world.call finished
    rw [claims]
    unfold RunCall.claim
    cases world.machine.panel.mode <;>
      exact conserved_call world _ _ world.history [] kept
        (Call.passes_same _ _ _ _ ⟨rfl, rfl, rfl⟩ inFlight.symm holds.symm) (List.append_nil _).symm rfl

theorem act_conserves (world : World) (action : Action) (kept : origin.Conserved world) :
    origin.Conserved (world.act action) := by
  cases action with
  | task task => exact perform_conserves world task kept
  | step => exact step_conserves world kept
  | start token => exact start_conserves world token kept
  | issue => exact conserved_same world _ _ kept ⟨rfl, rfl, rfl⟩
  | cancel token =>
      unfold act
      dsimp only
      split
      · exact conserved_same world _ _ kept ⟨rfl, rfl, rfl⟩
      · exact kept
  | markStopped => exact conserved_same world _ _ kept ⟨rfl, rfl, rfl⟩
  | fireSlot => exact conserved_same world _ _ kept (Panel.fire_slot_same world.machine.panel)
  | dropOutput => exact conserved_same world _ _ kept ⟨rfl, rfl, rfl⟩

theorem run_conserves (world : World) (actions : List Action) (kept : origin.Conserved world) :
    origin.Conserved (world.run actions) := by
  induction actions generalizing world with
  | nil => exact kept
  | cons action rest ih => exact ih (world.act action) (act_conserves world action kept)

/-- What has been taken, what is queued, what is in flight and what is on the line are together all that was there or
has been sent. The receiving end is in its place whenever no call holds it, and as long as there is more to come the
line is not given up. -/
theorem input_is_conserved (machine : Machine) (text : List Char) (hangsUp : Bool) (tokens : List Token)
    (actions : List Action) :
    let world := World.run { machine, unsent := text, hangsUp, tokens } actions
    let panel := world.machine.panel
    world.history.taken ++ panel.keyboard.queue.toList ++ codes world.call.inFlight.toList ++ codes panel.channel =
        machine.panel.keyboard.queue.toList ++ codes machine.panel.channel ++ codes world.history.sent ∧
      world.history.sent ++ world.unsent = text ∧
      panel.sourceTaken = (machine.panel.sourceTaken || world.call.holdsSource) ∧
      ((world.unsent = [] ∧ hangsUp = true) ∨ panel.hasSender = machine.panel.hasSender) := by
  intro world panel
  have kept : Conserved _ world := run_conserves _ actions (conserved_initial machine text hangsUp tokens)
  have balance := kept.balance
  simp only [Panel.stored, ← List.append_assoc] at balance
  refine ⟨?_, kept.order, kept.held.taken, ?_⟩
  · rw [balance]
    exact congrArg (· ++ codes machine.panel.channel ++ codes world.history.sent) (List.append_nil _)
  · have sender := kept.sender
    rw [kept.promise] at sender
    exact sender

end World

end LittleComputer
