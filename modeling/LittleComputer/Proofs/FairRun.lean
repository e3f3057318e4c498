import LittleComputer.Proofs.Cancellation
import LittleComputer.Proofs.Descent
import LittleComputer.Proofs.IteratedSteps
import LittleComputer.Proofs.OutputDelivery

set_option autoImplicit false

namespace LittleComputer

namespace Call

def due (count : Nat) (queue : Array Word) : Call → Nat
  | .run (.entering _) => count * stride + stride
  | .run (.active _ execution _) => count * stride + execution.phase.due queue
  | _ => 0

def draining (panel : Panel) : Call → Nat
  | .run (.entering _) => 5
  | .run (.active token _ drain) => drain.due (panel.isFired token)
  | _ => 0

end Call

theorem note_waits (token : Token) (attempt : Attempt) (machine : Machine) (history : History)
    (waits : attempt.Waits token machine) : history.note machine (some (token, attempt)) = history := by
  cases waits with
  | offer char rest refused => simp only [History.note, refused, Bool.false_eq_true, if_false]
  | _ => rfl

namespace World

variable {setting : Setting} {ending : Ending} {last : Solo} {token : Token}

def incoming (world : World) : Nat :=
  4 * world.unsent.length + world.machine.panel.inbound + world.call.draining world.machine.panel

-- What is left of the run, if it has `count` more steps to go. A character that is queued can send a GETC back by less
-- than a step, and a character that is handed over gives the printing task three more turns.
def rank (count : Nat) (world : World) : Nat :=
  4 * world.call.due count world.machine.panel.keyboard.queue + world.machine.panel.outbound +
    4 * stride * world.incoming

structure Steady (token : Token) (world : World) : Prop where
  hangsUp : world.hangsUp = true
  sink : ∃ line, world.machine.panel.sink = some line ∧ line.senderOpen = true ∧ line.receiverOpen = true ∧
    (line.awaited = true → line.waiting = #[])
  idle : ∀ execution, world.call = .run (.active token execution .idle) →
    world.machine.panel.keyboard.closed = true
  concluded : ∀ execution linked, world.call = .run (.active token execution (.ended linked)) →
    world.machine.panel.isFired token = true
  past : ∀ steps ending drain, world.call = .run (.active token ⟨steps, .ended ending⟩ drain) →
    world.machine.panel.isFired token = true

def Nears (setting : Setting) (ending : Ending) (last : Solo) (token : Token) (count : Nat) (world : World) : Prop :=
  ∃ solo : Solo, solo.Finishes setting count ending last ∧ world.Follows setting solo token ∧
    ∀ execution drain, world.call = .run (.active token execution drain) →
      Stage setting solo world.machine.core world.ahead world.history.accepted execution

structure Due (setting : Setting) (ending : Ending) (last : Solo) (token : Token) (rank : Nat) (world : World) :
    Prop where
  nears : ∃ count, world.Nears setting ending last token count ∧ rank = world.rank count
  steady : world.Steady token
  answers : ∀ steps drain, world.call ≠ .run (.active token ⟨steps, .attempt .endless⟩ drain)

theorem running_from (world : World) (start solo : Solo) (execution : Execution) (drain : Drain)
    (running : world.Running setting start token execution drain)
    (stage : Stage setting solo world.machine.core world.ahead world.history.accepted execution) :
    world.Running setting solo token execution drain where
  delivers := running.delivers
  policy := running.policy
  closed := running.closed
  unfired := running.unfired
  ready := running.ready
  stage := ⟨0, solo, .start, fun earlier _ _ before => absurd before (Nat.not_lt_zero earlier), stage⟩

theorem follows_nears (world : World) (start : Solo) (count : Nat) (finishes : start.Finishes setting count ending last)
    (follows : world.Follows setting start token) :
    ∃ less, less ≤ count ∧ world.Nears setting ending last token less := by
  have kept := follows
  cases follows with
  | entering called entering =>
      exact ⟨count, Nat.le_refl count, start, finishes, kept,
        fun execution drain active => by rw [called] at active; cases active⟩
  | returned report called ended =>
      exact ⟨count, Nat.le_refl count, start, finishes, kept,
        fun execution drain active => by rw [called] at active; cases active⟩
  | running execution drain called running =>
      obtain ⟨number, solo, path, -, stage⟩ := running.stage
      obtain ⟨less, rfl, still⟩ := Solo.finishes_after number start solo finishes path
      refine ⟨less, Nat.le_add_left less number, solo, still,
        .running execution drain called (running_from world start solo execution drain running stage), ?_⟩
      intro other later active
      rw [called] at active
      cases active
      exact stage

theorem perform_nears (world : World) (task : Task) (count : Nat)
    (nears : world.Nears setting ending last token count) :
    ∃ less, less ≤ count ∧ (world.perform task).Nears setting ending last token less := by
  obtain ⟨solo, finishes, follows, -⟩ := nears
  refine follows_nears _ solo count finishes (perform_follows world task follows fun _ other look => ?_)
  exact follows_apart world other follows finishes.quiet look

theorem done_nears (world : World) (steps : Nat) (result : Except Fault Outcome) (drain : Drain) (count : Nat)
    (called : world.call = .run (.active token ⟨steps, .attempt (.done result)⟩ drain))
    (nears : world.Nears setting ending last token count)
    (goes : (Execution.conclude steps result world.machine).2.phase = .check) :
    ∃ less, less < count ∧ world.main.Nears setting ending last token less := by
  obtain ⟨solo, finishes, follows, stage⟩ := nears
  have before := stage _ _ called
  cases follows with
  | entering other entering => rw [called] at other; cases other
  | returned report other ended => rw [called] at other; cases other
  | running execution other same running =>
      rw [called] at same
      cases same
      obtain ⟨later, next, -, after, -⟩ | ⟨other, -, stopping⟩ :=
        Stage.concluded steps world.machine result before running.policy
      · obtain ⟨less, rfl, still⟩ := Solo.finishes_after 1 solo later finishes (.goes 0 solo later .start next)
        refine ⟨less, by omega, later, still, ?_⟩
        have follows := done_follows world steps result drain called running
        have ahead := main_undrawn world (by rw [called]; rfl)
        have attempted := main_active world ⟨steps, .attempt (.done result)⟩ drain called nofun
        have turned : world.main = { world with
            machine := (Execution.conclude steps result world.machine).1
            call := .run (.active token (Execution.conclude steps result world.machine).2 drain)
            history := world.history } := attempted
        rw [← ahead] at after
        rw [turned] at follows after ⊢
        cases follows with
        | entering other entering => cases other
        | returned report other ended => cases other
        | running execution other same running =>
            cases same
            refine ⟨.running _ drain rfl (running_from _ solo later _ drain running after), ?_⟩
            rintro _ _ ⟨⟩
            exact after
      · rw [goes] at stopping
        cases stopping

inductive MainTurn (token : Token) (world : World) (execution : Execution) (drain : Drain) : Prop where
  | returns (steps : Nat) (ending : Ending) (linked : Bool) (past : execution = ⟨steps, .ended ending⟩)
      (drained : drain = .ended linked)
      (turned : world.main = { world with
        machine := { world.machine with panel := RunCall.leave linked world.machine.panel }
        call := .run (.returned ⟨steps, ending⟩) })
  | waits (blocked : (execution.turn token world.machine).2 = none)
      (apart : ∀ ending linked, execution.phase = .ended ending → drain ≠ .ended linked) (same : world.main = world)
  | goes (machine : Machine) (next : Execution) (history : History)
      (executed : execution.turn token world.machine = (machine, some next))
      (turned : world.main = { world with machine, call := .run (.active token next drain), history })

theorem main_turn (world : World) (execution : Execution) (drain : Drain)
    (called : world.call = .run (.active token execution drain)) : world.MainTurn token execution drain := by
  cases active_main world execution drain called with
  | returns steps ending linked past drained turned => exact .returns steps ending linked past drained turned
  | executes apart turned =>
      rcases executed : execution.turn token world.machine with ⟨machine, _ | next⟩
      · obtain rfl := Execution.turn_waits execution world.machine machine executed
        refine .waits (congrArg Prod.snd executed) apart ?_
        have quiet : world.history.note world.machine (Call.run (.active token execution drain)).attempt? =
            world.history := by
          have blocked := execution.turn_blocked token world.machine (congrArg Prod.snd executed)
          rcases execution with ⟨steps, phase⟩
          obtain ⟨ending, past⟩ | ⟨attempt, current, -, waits⟩ := blocked
          · cases past
            rfl
          · cases current
            exact note_waits token attempt world.machine world.history waits
        rw [executed, quiet, Option.getD_none, ← called] at turned
        exact turned
      · rw [executed] at turned
        exact .goes machine next _ executed turned

theorem main_incoming (world : World) (solo : Solo) (follows : world.Follows setting solo token) :
    world.main.incoming ≤ world.incoming := by
  have fired := main_fired world token
  cases follows with
  | returned report called ended => exact Nat.le_of_eq (congrArg incoming (returned_main world report called))
  | entering called entering =>
      have taken := Panel.take_source_free world.machine.panel entering.free
      rw [entering_main world called]
      simp only [incoming, called, RunCall.enter, taken]
      refine Nat.add_le_add_left ?_ _
      show Drain.due _ _ ≤ 5
      cases world.machine.panel.source.isSome <;> simp only [Drain.due, Bool.false_eq_true, if_true, if_false] <;>
        split <;> omega
  | running execution drain called running =>
      cases main_turn world execution drain called with
      | waits blocked apart same => exact Nat.le_of_eq (congrArg incoming same)
      | returns steps ending linked past drained turned =>
          rw [turned]
          have inbound : (RunCall.leave linked world.machine.panel).inbound = world.machine.panel.inbound := by
            cases linked <;> rfl
          simp only [incoming, inbound]
          exact Nat.add_le_add_left (Nat.zero_le _) _
      | goes machine next history executed turned =>
          have source := (execution.turn_untouched token world.machine).source
          rw [executed] at source
          replace source : machine.panel.source = world.machine.panel.source := source
          rw [turned] at fired ⊢
          have inbound : machine.panel.inbound = world.machine.panel.inbound := by
            simp only [Panel.inbound, Panel.channel, Panel.hasSender, source]
          simp only [incoming, called, inbound]
          exact Nat.add_le_add_left (drain.due_fired _ _ fired) _

theorem main_outbound (world : World) :
    world.main.machine.panel.outbound ≤ world.machine.panel.outbound + 3 := by
  obtain ⟨same, -⟩ | ⟨char, line, before, -, after, -⟩ := main_sink world
  · simp only [Panel.outbound, same]
    omega
  · simp only [Panel.outbound, before, after, Option.elim_some, Line.put, Array.size_push, Bool.not_false]
    cases line.awaited <;> simp <;> omega

theorem main_due (world : World) (count : Nat) (nears : world.Nears setting ending last token count) :
    world.main = world ∨ ∃ less, world.main.Nears setting ending last token less ∧
      world.main.call.due less world.main.machine.panel.keyboard.queue <
        world.call.due count world.machine.panel.keyboard.queue := by
  have ⟨solo, finishes, follows, stage⟩ := nears
  obtain ⟨less, bound, later⟩ := perform_nears world .main count nears
  replace later : world.main.Nears setting ending last token less := later
  have fewer : less * stride ≤ count * stride := Nat.mul_le_mul_right stride bound
  cases follows with
  | returned report called ended => exact .inl (returned_main world report called)
  | entering called entering =>
      refine .inr ⟨less, later, ?_⟩
      rw [entering_main world called, called]
      show less * stride + (Attempt.turnsLeft .latch + 4) < count * stride + (Attempt.turnsLeft .latch + 5)
      omega
  | running execution drain called running =>
      cases main_turn world execution drain called with
      | waits blocked apart same => exact .inl same
      | returns steps ending linked past drained turned =>
          refine .inr ⟨less, later, ?_⟩
          rw [turned, called, past]
          exact Nat.succ_pos (count * stride)
      | goes machine next history executed turned =>
          right
          obtain lower | ⟨check, result, done⟩ := execution.turn_due token next world.machine machine executed
          · refine ⟨less, later, ?_⟩
            rw [turned, called]
            exact Nat.add_lt_add_of_le_of_lt fewer lower
          · rcases execution with ⟨steps, phase⟩
            obtain rfl : phase = .attempt (.done result) := done
            have same : Execution.conclude steps result world.machine = (machine, next) := by
              cases executed
              rfl
            obtain ⟨less, lower, later⟩ :=
              done_nears world steps result drain count called nears (by rw [same]; exact check)
            refine ⟨less, later, ?_⟩
            rw [turned, called]
            rcases next with ⟨counted, phase⟩
            obtain rfl : phase = .check := check
            -- one step less pays for all the turns of the next one
            have fewer : (less + 1) * stride ≤ count * stride := Nat.mul_le_mul_right stride lower
            rw [Nat.succ_mul] at fewer
            show less * stride + (Attempt.turnsLeft .latch + 4) < count * stride + (0 + 3)
            have width : stride = Attempt.turnsLeft .latch + 5 := rfl
            omega

theorem main_steady (world : World) (solo : Solo) (follows : world.Follows setting solo token)
    (steady : world.Steady token) : world.main.Steady token := by
  have fired := main_fired world token
  have hangsUp : world.main.hangsUp = true := by
    rw [main_turned world]
    exact steady.hangsUp
  have sink : ∃ line, world.main.machine.panel.sink = some line ∧ line.senderOpen = true ∧
      line.receiverOpen = true ∧ (line.awaited = true → line.waiting = #[]) := by
    obtain ⟨line, before, sender, receiver, awaited⟩ := steady.sink
    obtain ⟨same, -⟩ | ⟨char, other, same, -, after, -⟩ := main_sink world
    · exact ⟨line, same.trans before, sender, receiver, awaited⟩
    · rw [before] at same
      cases same
      exact ⟨line.put char, after, sender, receiver, nofun⟩
  cases follows with
  | returned report called ended =>
      rw [returned_main world report called]
      exact steady
  | entering called entering =>
      have taken := Panel.take_source_free world.machine.panel entering.free
      -- the drain idles from the start only without a line, and the queue is closed then
      refine ⟨hangsUp, sink, ?_, ?_, ?_⟩ <;> rw [entering_main world called] <;> unfold RunCall.enter <;> rw [taken]
      · intro execution active
        cases linked : world.machine.panel.source.isSome with
        | true => rw [linked] at active; cases active
        | false => rfl
      · intro execution linked active
        cases some? : world.machine.panel.source.isSome <;> rw [some?] at active <;> cases active
      · intro steps ending drain active
        cases active
  | running execution drain called running =>
      cases main_turn world execution drain called with
      | waits blocked apart same =>
          rw [same]
          exact steady
      | returns steps ending linked past drained turned =>
          refine ⟨hangsUp, sink, ?_, ?_, ?_⟩ <;> rw [turned] <;> nofun
      | goes machine next history executed turned =>
          have closed := (execution.turn_untouched token world.machine).closed
          rw [executed] at closed
          refine ⟨hangsUp, sink, fun other active => ?_, fun other linked active => ?_,
            fun steps ending other active => ?_⟩
          · rw [turned] at active ⊢
            cases active
            exact closed.trans (steady.idle execution called)
          · rw [turned] at active
            cases active
            exact fired (steady.concluded execution linked called)
          · rw [turned] at active ⊢
            cases active
            exact execution.turn_fires ⟨steps, .ended ending⟩ world.machine machine executed ending rfl

theorem near_answers (world : World) (solo : Solo) (near : solo.Near world.machine.core world.ahead)
    (apart : ¬solo.core.ReadsDevice)
    (ready : Instruction.decode world.machine.core.word = .ok (.trap .getc) → world.machine.panel.keyboard.queue ≠ #[])
    (answers : solo.next? setting ≠ none) :
    (world.machine.core.step (Panel.console token) world.machine.panel).1 ≠ none := by
  intro nothing
  have input := near.input
  rw [ahead_queue] at input
  have same := Core.step_agrees token world.machine.core solo.core world.machine.panel { input := solo.input } _
    near.agrees (Core.agrees_reads_device solo.core _ (Core.agrees_symm _ _ near.agrees) apart) input.symm rfl ready
  refine answers ?_
  have stepped : (solo.core.step Script.console { input := solo.input }).1 = none := same.result.symm.trans nothing
  unfold Solo.next? Solo.execute
  generalize solo.core.step Script.console { input := solo.input } = answer at stepped ⊢
  rcases answer with ⟨_ | result, core, script⟩
  · rfl
  · cases stepped

theorem main_answers (world : World) (count : Nat) (nears : world.Nears setting ending last token count)
    (answers : ∀ steps drain, world.call ≠ .run (.active token ⟨steps, .attempt .endless⟩ drain)) (steps : Nat)
    (drain : Drain) : world.main.call ≠ .run (.active token ⟨steps, .attempt .endless⟩ drain) := by
  obtain ⟨solo, finishes, follows, stage⟩ := nears
  intro endless
  cases follows with
  | returned report called ended =>
      rw [returned_main world report called, called] at endless
      cases endless
  | entering called entering =>
      rw [entering_main world called] at endless
      cases endless
  | running execution other called running =>
      have stage := stage execution other called
      cases main_turn world execution other called with
      | waits blocked apart same =>
          rw [same] at endless
          exact answers steps drain endless
      | returns steps ending linked past drained turned =>
          rw [turned] at endless
          cases endless
      | goes machine next history executed turned =>
          rw [turned] at endless
          cases endless
          obtain ⟨past, nothing⟩ := execution.turn_endless token _ world.machine machine executed rfl
          have apart := finishes.quiet 0 solo .start
          have next := Solo.finishes_answers solo finishes
          rcases execution with ⟨counted, phase⟩
          obtain ⟨look, getc⟩ | execute := past
          · cases look
            cases stage with
            | look near output =>
                exact near_answers world solo near apart (fun decoded => absurd decoded getc) next nothing
          · cases execute
            cases stage with
            | execute near _ output => exact near_answers world solo near apart (running.ready rfl) next nothing

section
variable (world : World) (rank : Nat)

theorem main_lowers (due : world.Due setting ending last token rank) :
    world.main = world ∨ ∃ less, less < rank ∧ world.main.Due setting ending last token less := by
  obtain ⟨⟨count, nears, rfl⟩, steady, answers⟩ := due
  have ⟨solo, _, follows, _⟩ := nears
  obtain same | ⟨less, later, lower⟩ := main_due world count nears
  · exact .inl same
  · refine .inr ⟨world.main.rank less, ?_, ⟨less, later, rfl⟩, main_steady world solo follows steady,
      main_answers world count nears answers⟩
    have incoming := Nat.mul_le_mul_left (4 * stride) (main_incoming world solo follows)
    have outbound := main_outbound world
    unfold World.rank
    omega

theorem drain_lowers (due : world.Due setting ending last token rank) :
    world.drain = world ∨ ∃ less, less < rank ∧ world.drain.Due setting ending last token less := by
  obtain ⟨⟨count, nears, rfl⟩, steady, answers⟩ := due
  obtain ⟨less, bound, later⟩ := perform_nears world .drain count nears
  replace later : world.drain.Nears setting ending last token less := later
  obtain ⟨solo, -, follows, -⟩ := nears
  cases follows with
  | entering called entering =>
      exact .inl (drain_inactive world fun _ _ _ same => by rw [called] at same; cases same)
  | returned report called ended =>
      exact .inl (drain_inactive world fun _ _ _ same => by rw [called] at same; cases same)
  | running execution drain called running =>
      have turned := drain_active world execution drain called
      have quiet := drain_turn_quiet token drain world.machine.panel
      have sink := drain_turn_sink token drain world.machine.panel
      obtain ⟨waits, -⟩ | ⟨panel, next, turns, goes⟩ := drain.turn_ways token world.machine.panel
      · rw [waits, Option.getD_none, ← called] at turned
        exact .inl turned
      · rw [turns, Option.getD_some] at turned
        rw [turns] at quiet sink
        have fired : panel.isFired token = world.machine.panel.isFired token := congrArg (·.isFired token) quiet.2
        refine .inr ⟨world.drain.rank less, ?_, ⟨less, later, rfl⟩, ⟨?_, ?_, ?_, ?_, ?_⟩, ?_⟩ <;> rw [turned]
        -- a character that is queued may cost the execution some turns, less than a step, and it has been paid for on
        -- the line
        · have fewer : less * stride ≤ count * stride := Nat.mul_le_mul_right stride bound
          have grown := Execution.due_queue execution.phase world.machine.panel.keyboard.queue panel.keyboard.queue
          have outbound : panel.outbound = world.machine.panel.outbound := congrArg (Option.elim · 0 _) sink
          have closer := goes.lower
          have width : stride = Attempt.turnsLeft .latch + 5 := rfl
          have drained : 4 * stride * (4 * world.unsent.length + panel.inbound + next.due (panel.isFired token) + 1) ≤
              4 * stride * (4 * world.unsent.length + world.machine.panel.inbound +
                drain.due (world.machine.panel.isFired token)) := Nat.mul_le_mul_left _ (by omega)
          rw [Nat.mul_succ] at drained
          simp only [World.rank, World.incoming, called, Call.due, Call.draining, outbound]
          omega
        · exact steady.hangsUp
        · rw [sink]
          exact steady.sink
        · rintro other ⟨⟩
          exact goes.idle rfl
        · rintro other linked ⟨⟩
          exact goes.concluded linked rfl
        · rintro steps ending other ⟨⟩
          exact fired.trans (steady.past steps ending drain called)
        · rintro steps other ⟨⟩
          exact answers steps drain called

theorem outside_lowers (next : World) (outside : world.Outside next) (hangsUp : next.hangsUp = world.hangsUp)
    (sink : ∃ line, next.machine.panel.sink = some line ∧ line.senderOpen = true ∧ line.receiverOpen = true ∧
      (line.awaited = true → line.waiting = #[]))
    (later : ∀ count, world.Nears setting ending last token count →
      ∃ less, less ≤ count ∧ next.Nears setting ending last token less)
    (lower : next.machine.panel.outbound + 4 * stride * (4 * next.unsent.length + next.machine.panel.inbound) <
      world.machine.panel.outbound + 4 * stride * (4 * world.unsent.length + world.machine.panel.inbound))
    (due : world.Due setting ending last token rank) :
    ∃ less, less < rank ∧ next.Due setting ending last token less := by
  obtain ⟨⟨count, nears, rfl⟩, steady, answers⟩ := due
  obtain ⟨less, bound, nears⟩ := later count nears
  have fired : next.machine.panel.isFired token = world.machine.panel.isFired token :=
    congrArg (·.isFired token) outside.signals
  refine ⟨next.rank less, ?_, ⟨less, nears, rfl⟩, ⟨hangsUp.trans steady.hangsUp, sink, ?_, ?_, ?_⟩, ?_⟩
  · have fewer : next.call.due less next.machine.panel.keyboard.queue ≤
        world.call.due count world.machine.panel.keyboard.queue := by
      have fewer : less * stride ≤ count * stride := Nat.mul_le_mul_right stride bound
      rw [outside.call, outside.keyboard]
      unfold Call.due
      split <;> omega
    have draining : next.call.draining next.machine.panel = world.call.draining world.machine.panel := by
      rw [outside.call]
      unfold Call.draining Panel.isFired
      rw [outside.signals]
    unfold World.rank incoming
    rw [draining, Nat.mul_add, Nat.mul_add (4 * stride) _ (world.call.draining world.machine.panel)]
    omega
  · rw [outside.call, outside.keyboard]
    exact steady.idle
  · rw [outside.call, fired]
    exact steady.concluded
  · rw [outside.call, fired]
    exact steady.past
  · rw [outside.call]
    exact answers

theorem send_lowers (due : world.Due setting ending last token rank) :
    world.send = world ∨ ∃ less, less < rank ∧ world.send.Due setting ending last token less := by
  have outside := send_outside world
  have sink := due.steady.sink
  have nears (count : Nat) (nears : world.Nears setting ending last token count) :=
    perform_nears world .send count nears
  have wide : 0 < stride := Nat.succ_pos _
  obtain same | ⟨char, rest, line, unsent, source, more, sends⟩ | ⟨unsent, hangsUp, closes⟩ := send_cases world
  · exact .inl same
  · refine .inr (outside_lowers world rank world.send outside ?_ ?_ nears ?_ due) <;> rw [sends]
    · exact sink
    · have fewer : 4 * rest.length + Panel.inbound { world.machine.panel with source := some (line.put char) } <
          4 * world.unsent.length + world.machine.panel.inbound := by
        simp only [Panel.inbound, Panel.channel, Panel.hasSender, unsent, source, Option.elim_some, Option.any_some,
          Line.put, Array.toList_push, List.length_append, List.length_cons, List.length_nil]
        omega
      exact Nat.add_lt_add_left (Nat.mul_lt_mul_of_pos_left fewer (Nat.mul_pos (by decide) wide)) _
  · by_cases open? : world.machine.panel.hasSender = true
    · refine .inr (outside_lowers world rank world.send outside ?_ ?_ nears ?_ due) <;> rw [closes]
      · exact sink
      · have fewer : world.machine.closeSender.panel.inbound < world.machine.panel.inbound := by
          simp only [Panel.inbound, Panel.channel, Panel.hasSender, Machine.closeSender] at open? ⊢
          cases source : world.machine.panel.source with
          | none =>
              rw [source] at open?
              cases open?
          | some line =>
              rw [source] at open?
              simp only [Option.any_some] at open?
              simp [Line.closeSender, open?]
        exact Nat.add_lt_add_left (Nat.mul_lt_mul_of_pos_left (Nat.add_lt_add_left fewer _)
          (Nat.mul_pos (by decide) wide)) _
    -- a sender that has hung up already does nothing any more
    · left
      have same : world.machine.closeSender = world.machine := by
        rcases world with ⟨⟨core, ⟨mode, keyboard, source, taken, sink, slot, signals⟩, config⟩, call, unsent, hangsUp,
          tokens, history⟩
        cases source with
        | none => rfl
        | some line =>
            rcases line with ⟨capacity, waiting, sender, receiver, awaited⟩
            obtain rfl : sender = false := by simpa [Panel.hasSender] using open?
            rfl
      rw [closes, same]

theorem receive_lowers (due : world.Due setting ending last token rank) :
    (world.receive = world ∧ ∀ line, world.machine.panel.sink = some line → line.waiting = #[]) ∨
      ∃ less, less < rank ∧ world.receive.Due setting ending last token less := by
  have outside := receive_outside world
  have nears (count : Nat) (nears : world.Nears setting ending last token count) :=
    perform_nears world .receive count nears
  obtain ⟨line, sink, sender, receiver, awaited⟩ := due.steady.sink
  have received : world.receive = { world with
      machine := { world.machine with panel := { world.machine.panel with sink := some line.take.2 } } } := by
    simp only [World.receive, sink]
  obtain ⟨char, waits, taken⟩ | ⟨empty, -, taken⟩ | ⟨-, gone, -⟩ := line.take_ways
  · rw [taken] at received
    refine .inr (outside_lowers world rank world.receive outside ?_ ?_ nears ?_ due) <;> rw [received]
    · refine ⟨_, rfl, sender, receiver, fun stands => ?_⟩
      rw [awaited stands] at waits
      cases waits
    · refine Nat.add_lt_add_right ?_ _
      simp only [Panel.outbound, sink, Option.elim_some, Array.size_extract]
      omega
  · refine .inl ⟨?_, fun other same => ?_⟩
    · rw [received, taken, ← sink]
    · rw [sink] at same
      cases same
      exact empty
  · cases gone.symm.trans sender

theorem listen_lowers (due : world.Due setting ending last token rank) :
    (world.perform .listen = world ∧
        ∀ line, world.machine.panel.sink = some line → line.waiting = #[] → line.awaited = true) ∨
      ∃ less, less < rank ∧ (world.perform .listen).Due setting ending last token less := by
  have outside := listen_outside world
  have nears (count : Nat) (nears : world.Nears setting ending last token count) :=
    perform_nears world .listen count nears
  obtain ⟨line, sink, sender, receiver, awaited⟩ := due.steady.sink
  have listens : world.perform .listen = { world with
      machine := { world.machine with panel := { world.machine.panel with sink := some line.await } } } := by
    simp only [perform, Machine.awaitOutput, sink, Option.map_some]
  by_cases stands : line.waiting = #[] ∧ line.awaited = false
  · obtain ⟨empty, waits⟩ := stands
    refine .inr (outside_lowers world rank _ outside ?_ ?_ nears ?_ due) <;> rw [listens]
    · exact ⟨_, rfl, sender, receiver, fun _ => empty⟩
    · refine Nat.add_lt_add_right ?_ _
      simp [Panel.outbound, sink, Line.await, empty, waits]
  · refine .inl ⟨?_, fun other same empty => ?_⟩
    · have same : line.await = line := by
        rcases line with ⟨capacity, waiting, sender, receiver, awaiting⟩
        dsimp only at awaited stands
        unfold Line.await
        cases awaiting with
        | true =>
            obtain rfl := awaited rfl
            rfl
        | false =>
            have more : waiting.isEmpty = false := by simpa using stands
            simp only [more]
      rw [listens, same, ← sink]
    · rw [sink] at same
      cases same
      simpa [empty] using stands

theorem perform_lowers (task : Task) (due : world.Due setting ending last token rank) :
    world.perform task = world ∨ ∃ less, less < rank ∧ (world.perform task).Due setting ending last token less := by
  cases task with
  | main => exact main_lowers world rank due
  | drain => exact drain_lowers world rank due
  | send => exact send_lowers world rank due
  | listen => exact (listen_lowers world rank due).imp_left And.left
  | receive => exact (receive_lowers world rank due).imp_left And.left

-- A run that has not returned has a task whose turn brings it on. If that is the sending task, the line is empty, and
-- if it is the printing task, it has a character to take or does not stand at the line yet.
inductive Stirs : Prop where
  | returned (report : RunReport) (called : world.call = .run (.returned report))
  | main (goes : world.main ≠ world)
  | drain (goes : world.drain ≠ world)
  | send (line : Line) (source : world.machine.panel.source = some line) (nothing : line.waiting = #[])
      (goes : world.send ≠ world)
  | print (line : Line) (sink : world.machine.panel.sink = some line)
      (stands : line.waiting = #[] → line.awaited = false)

theorem drain_stirs (execution : Execution) (drain : Drain)
    (called : world.call = .run (.active token execution drain)) :
    drain.Waits token world.machine.panel ∧ (drain.turn token world.machine.panel).2 = none ∨ world.drain ≠ world := by
  obtain ⟨nothing, waits⟩ | ⟨panel, next, turns, goes⟩ := drain.turn_ways token world.machine.panel
  · exact .inl ⟨waits, congrArg Prod.snd nothing⟩
  · refine .inr fun same => ?_
    have turned := drain_active world execution drain called
    rw [turns, Option.getD_some] at turned
    rw [turned] at same
    have panels : panel = world.machine.panel := congrArg (·.machine.panel) same
    have calls : Call.run (.active token execution next) = world.call := congrArg World.call same
    rw [called] at calls
    cases calls
    rw [panels] at goes
    exact Nat.lt_irrefl _ goes.lower

theorem main_stirs (execution : Execution) (drain : Drain)
    (called : world.call = .run (.active token execution drain)) :
    (execution.turn token world.machine).2 = none ∧
        (∀ ending linked, execution.phase = .ended ending → drain ≠ .ended linked) ∨ world.main ≠ world := by
  cases main_turn world execution drain called with
  | waits blocked apart same => exact .inl ⟨blocked, apart⟩
  | returns steps ending linked past drained turned =>
      refine .inr fun same => ?_
      have calls := congrArg World.call same
      rw [turned, called] at calls
      cases calls
  | goes machine next history executed turned =>
      refine .inr fun same => ?_
      rw [turned] at same
      obtain rfl : machine = world.machine := congrArg World.machine same
      have calls : Call.run (.active token next drain) = world.call := congrArg World.call same
      rw [called] at calls
      cases calls
      obtain lower | ⟨check, result, done⟩ := execution.turn_due token execution world.machine world.machine executed
      · exact Nat.lt_irrefl _ lower
      · cases check.symm.trans done

theorem entering_stirs (called : world.call = .run (.entering token)) : world.main ≠ world := by
  intro same
  have calls := congrArg World.call same
  rw [entering_main world called, called] at calls
  cases calls

theorem drain_ways (call : RunCall) (called : world.call = .run call) :
    (call.drainTurn world.machine = (world.machine, none) ∧ world.drain = world) ∨
      ((call.drainTurn world.machine).2 ≠ none ∧ world.drain ≠ world) := by
  cases call with
  | entering token => exact .inl ⟨rfl, drain_inactive world fun _ _ _ active => by cases called.symm.trans active⟩
  | returned report => exact .inl ⟨rfl, drain_inactive world fun _ _ _ active => by cases called.symm.trans active⟩
  | active token execution drain =>
      have turned := drain_active world execution drain called
      obtain ⟨waits, -⟩ | ⟨panel, next, turns, -⟩ := drain.turn_ways token world.machine.panel
      · rw [waits, Option.getD_none, ← called] at turned
        exact .inl ⟨by simp only [RunCall.drainTurn, waits], turned⟩
      · right
        obtain ⟨-, nothing⟩ | goes := drain_stirs world execution drain called
        · cases (congrArg Prod.snd turns).symm.trans nothing
        · exact ⟨by simp [RunCall.drainTurn, turns], goes⟩

theorem main_ways (call : RunCall) (called : world.call = .run call) :
    (call.mainTurn world.machine = (world.machine, none) ∧ world.main = world) ∨
      ((call.mainTurn world.machine).2 ≠ none ∧ world.main ≠ world) := by
  cases call with
  | entering token => exact .inr ⟨nofun, entering_stirs world called⟩
  | returned report => exact .inl ⟨rfl, returned_main world report called⟩
  | active token execution drain =>
      have stirs := main_stirs world execution drain called
      cases main_turn world execution drain called with
      | waits blocked apart same =>
          refine .inl ⟨?_, same⟩
          rcases executed : execution.turn token world.machine with ⟨machine, _ | next⟩
          · obtain rfl := Execution.turn_waits execution world.machine machine executed
            rw [main_turn_active execution drain world.machine apart, executed]
            rfl
          · rw [executed] at blocked
            cases blocked
      | returns steps ending linked past drained turned =>
          cases past
          cases drained
          exact .inr ⟨nofun, stirs.resolve_left fun ⟨_, apart⟩ => apart ending linked rfl rfl⟩
      | goes machine next history executed turned =>
          have apart (ending : Ending) (linked : Bool) (past : execution.phase = .ended ending) :
              drain ≠ .ended linked := by
            rcases execution with ⟨steps, phase⟩
            cases past
            cases executed
          refine .inr ⟨?_, stirs.resolve_left fun ⟨blocked, _⟩ => ?_⟩
          · rw [main_turn_active execution drain world.machine apart, executed]
            nofun
          · cases (congrArg Prod.snd executed).symm.trans blocked

theorem send_stirs (line : Line) (source : world.machine.panel.source = some line) (more : line.senderOpen = true)
    (hangsUp : world.hangsUp = true) : world.send ≠ world := by
  intro same
  unfold World.send at same
  rw [source] at same
  cases unsent : world.unsent with
  | nil =>
      rw [unsent] at same
      simp only [hangsUp, if_true] at same
      have closed : world.machine.closeSender.panel.source = world.machine.panel.source :=
        congrArg (·.machine.panel.source) same
      simp only [Machine.closeSender, source, Option.map_some] at closed
      have still := congrArg Line.senderOpen (Option.some.inj closed)
      rw [more] at still
      cases still
  | cons char rest =>
      rw [unsent] at same
      simp only [more, if_true] at same
      have fewer := congrArg World.unsent same
      rw [unsent] at fewer
      exact List.cons_ne_self char rest fewer.symm

theorem refused_stands (line : Line) (sink : world.machine.panel.sink = some line) (receiver : line.receiverOpen = true)
    (char : Char) (refused : world.machine.panel.accepts char = false) (empty : line.waiting = #[]) :
    line.awaited = false := by
  cases stands : line.awaited with
  | false => rfl
  | true =>
      have room : line.hasRoom = true := by
        unfold Line.hasRoom
        rw [empty, stands]
        exact decide_eq_true (Nat.lt_of_lt_of_le Nat.one_pos (Nat.le_max_right _ _))
      have accepted : world.machine.panel.accepts char = true := by
        simp [Panel.accepts, sink, Line.offer, receiver, room]
      cases accepted.symm.trans refused

theorem due_stirs (due : world.Due setting ending last token rank) :
    world.Stirs := by
  obtain ⟨count, nears, -⟩ := due.nears
  obtain ⟨solo, -, follows, -⟩ := nears
  cases follows with
  | returned report called ended => exact .returned report called
  | entering called entering => exact .main (entering_stirs world called)
  | running execution drain called running =>
      obtain goes | ⟨blocked, apart⟩ := (main_stirs world execution drain called).symm
      · exact .main goes
      obtain goes | ⟨waits, -⟩ := (drain_stirs world execution drain called).symm
      · exact .drain goes
      -- Both tasks of the call wait.
      rcases execution with ⟨steps, phase⟩
      obtain ⟨ending, past⟩ | ⟨attempt, current, going, waiting⟩ := Execution.turn_blocked token _ world.machine blocked
      · cases past
        have fired := due.steady.past steps ending drain called
        cases waits with
        | empty line receives source nothing more unfired => cases fired.symm.trans unfired
        | idle idles unfired => cases fired.symm.trans unfired
        | ended linked concluded => exact absurd concluded (apart ending linked rfl)
      · cases current
        cases waiting with
        | endless => exact absurd called (due.answers steps drain)
        | done result => exact absurd rfl (going result)
        | offer char rest refused =>
            obtain ⟨line, sink, -, receiver, -⟩ := due.steady.sink
            exact .print line sink (refused_stands world line sink receiver char refused)
        | await unfired more =>
            cases waits with
            | empty line receives source nothing open? =>
                exact .send line source nothing (send_stirs world line source open? due.steady.hangsUp)
            | idle idles =>
                subst idles
                cases more.symm.trans (due.steady.idle _ called)
            | ended linked concluded =>
                subst concluded
                cases unfired.symm.trans (due.steady.concluded _ linked called)

end

theorem returned_stays_returned (world : World) (task : Task) (report : RunReport)
    (called : world.call = .run (.returned report)) : (world.perform task).call = .run (.returned report) := by
  obtain rfl | rfl | ⟨source, sink, unsent, sent, turned⟩ := perform_cases world task
  · exact (congrArg World.call (returned_main world report called)).trans called
  · have same := drain_inactive world fun _ _ _ active => by cases called.symm.trans active
    exact (congrArg World.call same).trans called
  · rwa [turned]

theorem world_descends (setting : Setting) (ending : Ending) (last : Solo) (token : Token) :
    Descends perform (fun rank world => world.Due setting ending last token rank)
      fun world => ∃ report, world.call = .run (.returned report) where
  lowers rank world task due := perform_lowers world rank task due
  stays world task := fun ⟨report, called⟩ => ⟨report, returned_stays_returned world task report called⟩
  goes rank world due := by
    have moves (task : Task) (goes : world.perform task ≠ world) :
        ∃ task less, less < rank ∧ (world.perform task).Due setting ending last token less :=
      ⟨task, (perform_lowers world rank task due).resolve_left goes⟩
    cases due_stirs world rank due with
    | returned report called => exact .inl ⟨report, called⟩
    | main goes => exact .inr (moves .main goes)
    | drain goes => exact .inr (moves .drain goes)
    | send line source nothing goes => exact .inr (moves .send goes)
    | print line sink stands =>
        by_cases empty : line.waiting = #[]
        · refine .inr ⟨.listen, (listen_lowers world rank due).resolve_left fun ⟨_, stood⟩ => ?_⟩
          cases (stands empty).symm.trans (stood line sink empty)
        · exact .inr ⟨.receive, (receive_lowers world rank due).resolve_left fun ⟨_, nothing⟩ =>
            empty (nothing line sink)⟩

end World

end LittleComputer
