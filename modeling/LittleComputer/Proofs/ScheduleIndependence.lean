import LittleComputer.Proofs.InputConservation
import LittleComputer.Proofs.Solo

set_option autoImplicit false

namespace LittleComputer

namespace World

def ahead (world : World) : List Word :=
  world.machine.panel.stored world.call.inFlight ++
    codes (if world.machine.panel.hasSender then world.unsent else [])

def outstanding (inFlight : Option Char) (source : Option Line) (unsent : List Char) : List Word :=
  codes inFlight.toList ++ codes (source.elim [] fun line => line.waiting.toList) ++
    codes (if source.any (·.senderOpen) then unsent else [])

theorem ahead_queue (world : World) :
    world.ahead = world.machine.panel.keyboard.queue.toList ++
      outstanding world.call.inFlight world.machine.panel.source world.unsent := by
  simp only [ahead, outstanding, Panel.stored, List.append_assoc]
  rfl

theorem ahead_unplugged (world : World) (unplugged : world.machine.panel.source = none)
    (inFlight : world.call.inFlight = none) : world.ahead = world.machine.panel.keyboard.queue.toList := by
  rw [ahead_queue, unplugged, inFlight]
  exact List.append_nil _

theorem ahead_turn (world : World) (machine : Machine) (call : Call) (history : History) (drawn : List Word)
    (passes : Call.Passes drawn world.machine.panel world.call machine.panel call) :
    drawn ++ ahead { world with machine, call, history } = world.ahead := by
  simp only [ahead, passes.sender, ← List.append_assoc, passes.stored]

theorem main_ahead (world : World) :
    world.machine.drawn world.call.attempt? ++ world.main.ahead = world.ahead := by
  rw [main_turned world]
  exact ahead_turn world _ _ _ _ (main_passes world)

theorem drain_ahead (world : World) : world.drain.ahead = world.ahead := by
  rw [drain_turned world]
  exact ahead_turn world _ _ _ [] (drain_passes world)

theorem send_ahead (world : World) : world.send.ahead = world.ahead := by
  obtain same | ⟨char, rest, line, unsent, source, open?, sends⟩ | ⟨unsent, -, closes⟩ := send_cases world
  · rw [same]
  · rw [sends]
    simp only [ahead, Panel.stored, Panel.channel, Panel.hasSender, Machine.replug, Line.put, source, unsent,
      Option.elim_some, Option.any_some, open?, if_true, codes_append, Array.toList_push, List.append_assoc]
    rw [← codes_append]
    rfl
  · rw [closes]
    simp only [ahead, unsent, Panel.stored, Panel.channel, Machine.closeSender, ite_self]
    cases world.machine.panel.source <;> rfl

theorem receive_ahead (world : World) : world.receive.ahead = world.ahead := by
  obtain same | ⟨line, -, takes⟩ := receive_cases world
  · rw [same]
  · rw [takes]
    rfl

theorem perform_total (world : World) (task : Task) :
    (world.perform task).history.taken ++ (world.perform task).ahead = world.history.taken ++ world.ahead := by
  cases task with
  | main =>
      have taken : world.main.history.taken = world.history.taken ++ world.machine.drawn world.call.attempt? := by
        rw [main_turned world, History.note_taken]
      show world.main.history.taken ++ world.main.ahead = _
      rw [taken, List.append_assoc, main_ahead]
  | drain =>
      show world.drain.history.taken ++ world.drain.ahead = _
      rw [drain_ahead, drain_turned world]
  | send =>
      show world.send.history.taken ++ world.send.ahead = _
      rw [send_ahead]
      obtain same | ⟨char, rest, line, -, -, -, sends⟩ | ⟨-, -, closes⟩ := send_cases world
      · rw [same]
      · rw [sends]
        rfl
      · rw [closes]
  | listen => rfl
  | receive =>
      show world.receive.history.taken ++ world.receive.ahead = _
      rw [receive_ahead]
      obtain same | ⟨line, -, takes⟩ := receive_cases world
      · rw [same]
      · rw [takes]

theorem schedule_total (world : World) (tasks : List Task) :
    (world.schedule tasks).history.taken ++ (world.schedule tasks).ahead = world.history.taken ++ world.ahead := by
  induction tasks generalizing world with
  | nil => rfl
  | cons task rest ih => exact (ih (world.perform task)).trans (perform_total world task)

end World

namespace Panel

def delivers (panel : Panel) : Bool := panel.sink.any (·.receiverOpen)

theorem take_source_free (panel : Panel) (free : panel.sourceTaken = false) :
    panel.takeSource = (panel.source.isSome, { panel with sourceTaken := panel.source.isSome }) := by
  rcases panel with ⟨mode, keyboard, source, taken, sink, slot, signals⟩
  cases free
  cases source <;> rfl

end Panel

namespace Attempt

theorem offering_ways (token : Token) (char : Char) (rest : List Char) (panel : Panel) :
    (panel.delivers = false ∧ panel.accepts char = false ∧
        offering token char rest panel = (panel, some .execute)) ∨
      (panel.delivers = true ∧ panel.accepts char = false ∧ offering token char rest panel =
        (panel, if panel.isFired token then some (.done (.ok .interrupted)) else none)) ∨
      (panel.accepts char = true ∧ ∃ line, panel.sink = some line ∧ line.receiverOpen = true ∧
        offering token char rest panel = ({ panel with sink := some (line.put char) }, some (.handOver rest))) := by
  cases sink : panel.sink with
  | none => exact .inl (by simp [Panel.delivers, Panel.accepts, offering, sink])
  | some line =>
      cases listening : line.receiverOpen with
      | false => exact .inl (by simp [Panel.delivers, Panel.accepts, offering, Line.offer, sink, listening])
      | true =>
          cases room : line.hasRoom with
          | false =>
              exact .inr (.inl (by simp [Panel.delivers, Panel.accepts, offering, Line.offer, sink, listening, room]))
          | true =>
              refine .inr (.inr ⟨?_, line, rfl, listening, ?_⟩)
              · simp [Panel.accepts, Line.offer, sink, listening, room]
              · simp [offering, Line.offer, sink, listening, room]

theorem offering_cases (token : Token) (char : Char) (rest : List Char) (panel : Panel)
    (unfired : panel.isFired token = false) :
    (panel.delivers = false ∧ panel.accepts char = false ∧
        offering token char rest panel = (panel, some .execute)) ∨
      (panel.delivers = true ∧ panel.accepts char = false ∧ offering token char rest panel = (panel, none)) ∨
      (panel.delivers = true ∧ panel.accepts char = true ∧ ∃ line, line.receiverOpen = true ∧
        offering token char rest panel = ({ panel with sink := some line }, some (.handOver rest))) := by
  have ways := offering_ways token char rest panel
  rw [unfired] at ways
  refine ways.imp_right (Or.imp_right ?_)
  rintro ⟨accepted, line, sink, listening, offering⟩
  refine ⟨?_, accepted, line.put char, listening, offering⟩
  simp [Panel.delivers, sink, listening]

theorem offering_panel (token : Token) (char : Char) (rest : List Char) (panel : Panel)
    (unfired : panel.isFired token = false) :
    ∃ sink, (offering token char rest panel).1 = { panel with sink } ∧
      Panel.delivers { panel with sink } = panel.delivers := by
  obtain ⟨-, -, offering⟩ | ⟨-, -, offering⟩ | ⟨somebody, -, line, listening, offering⟩ :=
    offering_cases token char rest panel unfired
  · exact ⟨panel.sink, by rw [offering], rfl⟩
  · exact ⟨panel.sink, by rw [offering], rfl⟩
  · exact ⟨some line, by rw [offering], listening.trans somebody.symm⟩

end Attempt

namespace Execution

theorem check_unfired (token : Token) (steps : Nat) (machine : Machine)
    (unfired : machine.panel.isFired token = false) :
    turn token ⟨steps, .check⟩ machine = (machine, some ⟨steps, .attempt .latch⟩) := by
  simp only [turn, unfired]
  rfl

theorem conclude_halt (steps : Nat) (fault : Fault) (machine : Machine) (halts : machine.config.policy = .halt) :
    conclude steps (.error fault) machine = (machine, ⟨steps, .stopping (.faulted fault)⟩) := by
  simp only [conclude, halts]

theorem conclude_continue (steps : Nat) (fault : Fault) (machine : Machine)
    (continues : machine.config.policy = .continue) :
    conclude steps (.error fault) machine =
      ({ machine with core := machine.core.setPc (machine.core.registers.pc + 1) }, ⟨steps, .check⟩) := by
  simp only [conclude, continues]

theorem conclude_phase (steps : Nat) (result : Except Fault Outcome) (machine : Machine) :
    (conclude steps result machine).2.phase = .check ∨
      ∃ ending, (conclude steps result machine).2.phase = .stopping ending := by
  rcases result with fault | _ | _ | _ | _
  · cases policy : machine.config.policy with
    | halt =>
        rw [conclude_halt steps fault machine policy]
        exact .inr ⟨_, rfl⟩
    | «continue» =>
        rw [conclude_continue steps fault machine policy]
        exact .inl rfl
  · exact .inl rfl
  all_goals exact .inr ⟨_, rfl⟩

end Execution

structure Solo.Near (solo : Solo) (core : Core) (ahead : List Word) : Prop where
  agrees : core.Agrees solo.core
  input : ahead = solo.input

-- Where an execution stands between one state of the run that waits for nobody and the next.
inductive Stage (setting : Setting) (solo : Solo) (core : Core) (ahead : List Word) (accepted : List Char) :
    Execution → Prop where
  | check (near : solo.Near core ahead) (output : accepted = solo.output) :
      Stage setting solo core ahead accepted ⟨solo.steps, .check⟩
  | latch (near : solo.Near core ahead) (output : accepted = solo.output) :
      Stage setting solo core ahead accepted ⟨solo.steps, .attempt .latch⟩
  | look (near : solo.Near core ahead) (output : accepted = solo.output) :
      Stage setting solo core ahead accepted ⟨solo.steps, .attempt .look⟩
  | await (near : solo.Near core ahead) (output : accepted = solo.output) (apart : ¬core.ReadsDevice)
      (getc : Instruction.decode core.word = .ok (.trap .getc)) :
      Stage setting solo core ahead accepted ⟨solo.steps, .attempt .await⟩
  | handOver (done rest : List Char) (near : solo.Near core ahead) (apart : ¬core.ReadsDevice)
      (other : Instruction.decode core.word ≠ .ok (.trap .getc)) (prints : core.prints = done ++ rest)
      (output : accepted = solo.output ++ setting.kept done) :
      Stage setting solo core ahead accepted ⟨solo.steps, .attempt (.handOver rest)⟩
  | offer (done : List Char) (char : Char) (rest : List Char) (near : solo.Near core ahead)
      (apart : ¬core.ReadsDevice) (other : Instruction.decode core.word ≠ .ok (.trap .getc))
      (prints : core.prints = done ++ char :: rest) (output : accepted = solo.output ++ setting.kept done) :
      Stage setting solo core ahead accepted ⟨solo.steps, .attempt (.offer char rest)⟩
  | execute (near : solo.Near core ahead) (apart : ¬core.ReadsDevice)
      (output : accepted = solo.output ++ setting.kept core.prints) :
      Stage setting solo core ahead accepted ⟨solo.steps, .attempt .execute⟩
  | endless (steps : Nat) : Stage setting solo core ahead accepted ⟨steps, .attempt .endless⟩
  | done (later : Solo) (result : Except Fault Outcome) (executed : solo.execute setting = (some result, later))
      (apart : ¬solo.core.ReadsDevice) (near : later.Near core ahead) (output : accepted = later.output) :
      Stage setting solo core ahead accepted ⟨later.steps, .attempt (.done result)⟩
  | stopping (last : Solo) (ending : Ending) (ends : solo.next? setting = some (.ends ending last))
      (apart : ¬solo.core.ReadsDevice) (near : last.Near core ahead) (output : accepted = last.output) :
      Stage setting solo core ahead accepted ⟨last.steps, .stopping ending⟩
  | ended (last : Solo) (ending : Ending) (ends : solo.next? setting = some (.ends ending last))
      (apart : ¬solo.core.ReadsDevice) (near : last.Near core ahead) (output : accepted = last.output) :
      Stage setting solo core ahead accepted ⟨last.steps, .ended ending⟩

namespace Stage

variable {setting : Setting} {solo : Solo} {ahead : List Word} {accepted : List Char}

theorem latched (steps : Nat) (machine : Machine)
    (stage : Stage setting solo machine.core ahead accepted ⟨steps, .attempt .latch⟩) :
    Stage setting solo machine.latchKeyboard.core ahead accepted ⟨steps, .attempt .look⟩ := by
  cases stage with
  | latch near output =>
      refine .look ⟨?_, near.input⟩ output
      unfold Machine.latchKeyboard
      cases machine.panel.keyboard.front? with
      | none => exact near.agrees
      | some code =>
          dsimp only
          cases machine.core.keyLatched with
          | true => exact near.agrees
          | false => exact Core.agrees_latch machine.core solo.core near.agrees code

theorem looked (steps : Nat) (machine : Machine)
    (stage : Stage setting solo machine.core ahead accepted ⟨steps, .attempt .look⟩)
    (apart : ¬machine.core.ReadsDevice) :
    Stage setting solo machine.core ahead accepted ⟨steps, .attempt (Attempt.prospect machine)⟩ := by
  cases stage with
  | look near output =>
      have silent (nothing : machine.core.prints = []) :
          Stage setting solo machine.core ahead accepted ⟨solo.steps, .attempt .execute⟩ :=
        .execute near apart (by rw [nothing, kept_nil, List.append_nil]; exact output)
      obtain ⟨fault, decoded⟩ | ⟨service, decoded⟩ | ⟨instruction, decoded, plain⟩ := decode_cases machine.core.word
      · rw [Attempt.prospect_fault machine fault decoded]
        exact silent (Core.prints_fault machine.core fault decoded)
      · rw [Attempt.prospect_trap machine service decoded]
        have prints := Core.prints_trap machine.core service decoded
        have printing (other : service ≠ .getc) (prospect : Attempt)
            (endless : machine.core.output? service = none → prospect = .endless)
            (hands : ∀ bytes, machine.core.output? service = some bytes →
              prospect = .handOver (bytes.map fun byte => Char.ofNat byte.toNat)) :
            Stage setting solo machine.core ahead accepted ⟨solo.steps, .attempt prospect⟩ := by
          cases output? : machine.core.output? service with
          | none =>
              rw [endless output?]
              exact .endless solo.steps
          | some bytes =>
              rw [hands bytes output?]
              rw [output?] at prints
              refine .handOver [] _ near apart ?_ prints ?_
              · rw [decoded]
                rintro ⟨⟩
                exact other rfl
              · rw [kept_nil, List.append_nil]
                exact output
        cases service with
        | getc =>
            dsimp only
            cases empty : machine.panel.keyboard.queue.isEmpty with
            | true => exact .await near output apart decoded
            | false => exact silent prints
        | halt => exact silent prints
        | out => exact printing nofun _ (fun same => by simp only [same]) fun bytes same => by simp only [same]
        | puts => exact printing nofun _ (fun same => by simp only [same]) fun bytes same => by simp only [same]
      · rw [Attempt.prospect_plain machine instruction decoded plain]
        exact silent (Core.prints_plain machine.core instruction decoded plain)

theorem awaited (steps : Nat) (token : Token) (panel : Panel) (core : Core)
    (stage : Stage setting solo core ahead accepted ⟨steps, .attempt .await⟩)
    (unfired : panel.isFired token = false)
    (closed : panel.keyboard.closed = true → ahead = panel.keyboard.queue.toList) :
    Stage setting solo core ahead accepted ⟨steps, .attempt ((Attempt.awaiting token panel).getD .await)⟩ := by
  cases stage with
  | await near output apart getc =>
      unfold Attempt.awaiting Keyboard.wait?
      rw [unfired]
      cases empty : panel.keyboard.queue.isEmpty with
      | false => exact .latch near output
      | true =>
          cases shut : panel.keyboard.closed with
          | false => exact .await near output apart getc
          | true =>
              have nothing : solo.input = [] := by
                rw [← near.input, closed shut]
                simpa using empty
              refine .done solo (.ok .inputClosed) ?_ ?_ near output
              · have word := Core.agrees_word core solo.core near.agrees (Core.not_reads_device_fetch core apart)
                exact Solo.execute_starved setting solo near.agrees.rightSettled (word ▸ getc) nothing
              · exact Core.agrees_reads_device core solo.core near.agrees apart

theorem handed (steps : Nat) (token : Token) (panel : Panel) (core : Core) (rest : List Char)
    (stage : Stage setting solo core ahead accepted ⟨steps, .attempt (.handOver rest)⟩)
    (unfired : panel.isFired token = false) (delivers : panel.delivers = setting.delivers) :
    Stage setting solo core ahead accepted ⟨steps, .attempt (Attempt.handingOver token panel rest)⟩ := by
  cases stage with
  | handOver done rest near apart other prints output =>
      cases rest with
      | nil =>
          rw [List.append_nil] at prints
          exact .execute near apart (by rw [prints]; exact output)
      | cons char rest =>
          unfold Attempt.handingOver
          cases sink : panel.sink with
          | none =>
              have nobody : setting.delivers = false := by
                rw [← delivers, Panel.delivers, sink]
                rfl
              rw [kept_undelivered setting _ nobody] at output
              exact .execute near apart (by rw [kept_undelivered setting _ nobody]; exact output)
          | some line =>
              rw [unfired]
              exact .offer done char rest near apart other prints output

theorem offered (steps : Nat) (token : Token) (panel : Panel) (core : Core) (char : Char) (rest : List Char)
    (stage : Stage setting solo core ahead accepted ⟨steps, .attempt (.offer char rest)⟩)
    (unfired : panel.isFired token = false) (delivers : panel.delivers = setting.delivers) :
    Stage setting solo core ahead (if panel.accepts char then accepted ++ [char] else accepted)
      ⟨steps, .attempt ((Attempt.offering token char rest panel).2.getD (.offer char rest))⟩ := by
  have kept := stage
  cases stage with
  | offer done char rest near apart other prints output =>
      obtain ⟨nobody, refused, offering⟩ | ⟨-, refused, offering⟩ | ⟨somebody, taken, line, -, offering⟩ :=
        Attempt.offering_cases token char rest panel unfired
      · rw [delivers] at nobody
        rw [kept_undelivered setting _ nobody] at output
        rw [offering, refused]
        exact .execute near apart (by rw [kept_undelivered setting _ nobody]; exact output)
      · rw [offering, refused]
        exact kept
      · rw [delivers] at somebody
        rw [kept_delivered setting _ somebody] at output
        rw [offering, taken]
        refine .handOver (done ++ [char]) rest near apart other ?_ ?_
        · rw [prints, List.append_assoc]
          rfl
        · rw [kept_delivered setting _ somebody, output, List.append_assoc]
          rfl

theorem executed (steps : Nat) (token : Token) (machine : Machine) (rest : List Word)
    (stage : Stage setting solo machine.core (machine.panel.keyboard.queue.toList ++ rest) accepted
      ⟨steps, .attempt .execute⟩)
    (ready : Instruction.decode machine.core.word = .ok (.trap .getc) → machine.panel.keyboard.queue ≠ #[]) :
    Stage setting solo (Attempt.executing token machine).1.core
        ((Attempt.executing token machine).1.panel.keyboard.queue.toList ++ rest) accepted
        ⟨steps, .attempt (Attempt.executing token machine).2⟩ ∧
      (Attempt.executing token machine).1.panel.keyboard.closed = machine.panel.keyboard.closed ∧
      (Attempt.executing token machine).1.panel.source = machine.panel.source ∧
      (Attempt.executing token machine).1.panel.sink = machine.panel.sink ∧
      ((Attempt.executing token machine).2 = .done (.ok .halted) ∨
        (Attempt.executing token machine).1.panel.signals = machine.panel.signals) := by
  cases stage with
  | execute near apart output =>
      have same := Core.step_agrees token machine.core solo.core machine.panel { input := solo.input } rest
        near.agrees apart near.input.symm rfl ready
      unfold Attempt.executing
      generalize machine.core.step (Panel.console token) machine.panel = answer at same ⊢
      rcases answer with ⟨result?, after, panel⟩
      rcases stepped : solo.core.step Script.console { input := solo.input } with ⟨other, later, script⟩
      rw [stepped] at same
      obtain rfl : result? = other := same.result
      cases result? with
      | none =>
          refine ⟨.endless _, same.closed, same.source, same.sink, .inr ?_⟩
          exact same.signals.resolve_left nofun
      | some result =>
          have granted : result ≠ .ok .interrupted := fun interrupted => same.granted (congrArg some interrupted)
          have executed := Solo.execute_step setting solo result later script stepped granted
          have done : Stage setting solo after (panel.keyboard.queue.toList ++ rest) accepted
              ⟨solo.steps, .attempt (.done result)⟩ :=
            .done { solo with
                core := later
                input := script.input
                output := solo.output ++ setting.kept solo.core.prints }
              result executed (Core.agrees_reads_device _ _ near.agrees apart) ⟨same.agrees, same.input.symm⟩
              (by rw [output, Core.agrees_prints _ _ near.agrees apart])
          refine ⟨done, same.closed, same.source, same.sink, ?_⟩
          cases same.signals with
          | inl halted =>
              cases halted
              exact .inl rfl
          | inr signals => exact .inr signals

theorem concluded (steps : Nat) (machine : Machine) (result : Except Fault Outcome)
    (stage : Stage setting solo machine.core ahead accepted ⟨steps, .attempt (.done result)⟩)
    (policy : machine.config.policy = setting.policy) :
    (∃ later, solo.next? setting = some (.goes later) ∧ ¬solo.core.ReadsDevice ∧
        Stage setting later (Execution.conclude steps result machine).1.core ahead accepted
          (Execution.conclude steps result machine).2 ∧
        (Execution.conclude steps result machine).2.phase = .check ∧ result ≠ .ok .halted) ∨
      ∃ ending, Stage setting solo (Execution.conclude steps result machine).1.core ahead accepted
          (Execution.conclude steps result machine).2 ∧
        (Execution.conclude steps result machine).2.phase = .stopping ending := by
  cases stage with
  | done later _ executed apart near output =>
      have next : solo.next? setting = some (Solo.conclude setting result later) := by
        unfold Solo.next?
        rw [executed]
        rfl
      rcases result with fault | _ | _ | _ | _
      · cases chosen : setting.policy with
        | halt =>
            rw [Execution.conclude_halt later.steps fault machine (policy.trans chosen)]
            rw [Solo.conclude_halt setting fault later chosen] at next
            exact .inr ⟨_, .stopping _ _ next apart near output, rfl⟩
        | «continue» =>
            rw [Execution.conclude_continue later.steps fault machine (policy.trans chosen)]
            rw [Solo.conclude_continue setting fault later chosen] at next
            have agrees := Core.agrees_set_pc _ _ near.agrees (machine.core.registers.pc + 1)
            refine .inl ⟨_, next, apart, .check ⟨?_, near.input⟩ output, rfl, nofun⟩
            rw [← near.agrees.registers]
            exact agrees
      · exact .inl ⟨_, next, apart, .check ⟨near.agrees, near.input⟩ output, rfl, nofun⟩
      · exact .inr ⟨_, .stopping _ _ next apart ⟨near.agrees, near.input⟩ output, rfl⟩
      · exact .inr ⟨_, .stopping _ _ next apart ⟨near.agrees, near.input⟩ output, rfl⟩
      · exact .inr ⟨_, .stopping _ _ next apart ⟨near.agrees, near.input⟩ output, rfl⟩

end Stage

def Execution.Phase.finishing : Execution.Phase → Bool
  | .attempt (.done (.ok .halted)) => true
  | .stopping _ => true
  | .ended _ => true
  | _ => false

namespace World

structure Running (setting : Setting) (start : Solo) (token : Token) (world : World) (execution : Execution)
    (drain : Drain) : Prop where
  delivers : world.machine.panel.delivers = setting.delivers
  policy : world.machine.config.policy = setting.policy
  closed : world.machine.panel.keyboard.closed = true →
    world.machine.panel.source = none ∧ (Call.run (.active token execution drain)).inFlight = none
  unfired : execution.phase.finishing = false → world.machine.panel.isFired token = false
  ready : execution.phase = .attempt .execute →
    Instruction.decode world.machine.core.word = .ok (.trap .getc) → world.machine.panel.keyboard.queue ≠ #[]
  stage : ∃ number solo, Solo.Path setting start number solo ∧
    (∀ earlier passed, Solo.Path setting start earlier passed → earlier < number → ¬passed.core.ReadsDevice) ∧
    Stage setting solo world.machine.core world.ahead world.history.accepted execution

structure Ended (setting : Setting) (start : Solo) (world : World) (report : RunReport) : Prop where
  reached : ∃ number solo last, Solo.Path setting start number solo ∧
    (∀ earlier passed, Solo.Path setting start earlier passed → earlier ≤ number → ¬passed.core.ReadsDevice) ∧
    solo.next? setting = some (.ends report.ending last) ∧ report.steps = last.steps ∧
    last.Near world.machine.core world.ahead ∧ world.history.accepted = last.output

structure Entering (setting : Setting) (start : Solo) (token : Token) (world : World) : Prop where
  delivers : world.machine.panel.delivers = setting.delivers
  policy : world.machine.config.policy = setting.policy
  free : world.machine.panel.sourceTaken = false
  unfired : world.machine.panel.isFired token = false
  near : start.Near world.machine.core world.ahead
  fresh : start.steps = 0 ∧ world.history.accepted = start.output

inductive Follows (setting : Setting) (start : Solo) (token : Token) (world : World) : Prop where
  | entering (called : world.call = .run (.entering token)) (entering : world.Entering setting start token)
  | running (execution : Execution) (drain : Drain) (called : world.call = .run (.active token execution drain))
      (running : world.Running setting start token execution drain)
  | returned (report : RunReport) (called : world.call = .run (.returned report))
      (ended : world.Ended setting start report)

structure Unseen (world next : World) : Prop where
  core : next.machine.core = world.machine.core
  config : next.machine.config = world.machine.config
  ahead : next.ahead = world.ahead
  accepted : next.history.accepted = world.history.accepted
  delivers : next.machine.panel.delivers = world.machine.panel.delivers
  signals : next.machine.panel.signals = world.machine.panel.signals
  queue : ∃ more, next.machine.panel.keyboard.queue.toList =
    world.machine.panel.keyboard.queue.toList ++ more

variable {setting : Setting} {start : Solo} {token : Token}

theorem ended_unseen (world next : World) (report : RunReport) (unseen : world.Unseen next)
    (ended : world.Ended setting start report) : next.Ended setting start report where
  reached := by
    rw [unseen.core, unseen.ahead, unseen.accepted]
    exact ended.reached

theorem running_unseen (world next : World) (execution : Execution) (drain later : Drain)
    (unseen : world.Unseen next) (running : world.Running setting start token execution drain)
    (closed : next.machine.panel.keyboard.closed = true →
      next.machine.panel.source = none ∧ (Call.run (.active token execution later)).inFlight = none) :
    next.Running setting start token execution later where
  delivers := by rw [unseen.delivers, running.delivers]
  policy := by rw [unseen.config, running.policy]
  closed := closed
  unfired phase := by
    unfold Panel.isFired
    rw [unseen.signals]
    exact running.unfired phase
  ready phase getc empty := by
    obtain ⟨more, grown⟩ := unseen.queue
    rw [unseen.core] at getc
    rw [empty] at grown
    have both := List.append_eq_nil_iff.mp grown.symm
    exact running.ready phase getc (by simpa using both.1)
  stage := by
    rw [unseen.core, unseen.ahead, unseen.accepted]
    exact running.stage

structure Outside (world next : World) : Prop where
  core : next.machine.core = world.machine.core
  config : next.machine.config = world.machine.config
  accepted : next.history.accepted = world.history.accepted
  delivers : next.machine.panel.delivers = world.machine.panel.delivers
  signals : next.machine.panel.signals = world.machine.panel.signals
  keyboard : next.machine.panel.keyboard = world.machine.panel.keyboard
  call : next.call = world.call
  taken : next.machine.panel.sourceTaken = world.machine.panel.sourceTaken
  unplugged : world.machine.panel.source = none → next.machine.panel.source = none

theorem outside_unseen (world next : World) (outside : world.Outside next) (ahead : next.ahead = world.ahead) :
    world.Unseen next where
  core := outside.core
  config := outside.config
  ahead := ahead
  accepted := outside.accepted
  delivers := outside.delivers
  signals := outside.signals
  queue := ⟨[], by rw [outside.keyboard, List.append_nil]⟩

theorem follows_outside (world next : World) (outside : world.Outside next) (ahead : next.ahead = world.ahead)
    (follows : world.Follows setting start token) : next.Follows setting start token := by
  have unseen := outside_unseen world next outside ahead
  cases follows with
  | entering called entering =>
      refine .entering (outside.call.trans called) ⟨?_, ?_, ?_, ?_, ?_, entering.fresh.1, ?_⟩
      · rw [unseen.delivers, entering.delivers]
      · rw [unseen.config, entering.policy]
      · rw [outside.taken, entering.free]
      · unfold Panel.isFired
        rw [unseen.signals]
        exact entering.unfired
      · rw [unseen.core, unseen.ahead]
        exact entering.near
      · rw [unseen.accepted, entering.fresh.2]
  | running execution drain called running =>
      refine .running execution drain (outside.call.trans called)
        (running_unseen world next execution drain drain unseen running fun closed => ?_)
      rw [outside.keyboard] at closed
      obtain ⟨unplugged, inFlight⟩ := running.closed closed
      exact ⟨outside.unplugged unplugged, inFlight⟩
  | returned report called ended =>
      exact .returned report (outside.call.trans called) (ended_unseen world next report unseen ended)

theorem outside_refl (world : World) : world.Outside world :=
  ⟨rfl, rfl, rfl, rfl, rfl, rfl, rfl, rfl, id⟩

theorem send_outside (world : World) : world.Outside world.send := by
  obtain same | ⟨char, rest, line, -, source, -, sends⟩ | ⟨-, -, closes⟩ := send_cases world
  · rw [same]
    exact outside_refl world
  · rw [sends]
    exact ⟨rfl, rfl, rfl, rfl, rfl, rfl, rfl, rfl, fun unplugged => by rw [source] at unplugged; cases unplugged⟩
  · rw [closes]
    refine ⟨rfl, rfl, rfl, rfl, rfl, rfl, rfl, rfl, fun unplugged => ?_⟩
    rw [Machine.closeSender, unplugged]
    rfl

theorem line_take_receiver (line : Line) : line.take.2.receiverOpen = line.receiverOpen := by
  unfold Line.take
  cases line.waiting[0]? with
  | some char => rfl
  | none => cases line.senderOpen <;> rfl

theorem receive_outside (world : World) : world.Outside world.receive := by
  obtain same | ⟨line, sink, takes⟩ := receive_cases world
  · rw [same]
    exact outside_refl world
  · rw [takes]
    refine ⟨rfl, rfl, rfl, ?_, rfl, rfl, rfl, rfl, id⟩
    simp only [Panel.delivers, sink, Option.any_some, line_take_receiver]

theorem listen_outside (world : World) : world.Outside (world.perform .listen) := by
  refine ⟨rfl, rfl, rfl, ?_, rfl, rfl, rfl, rfl, id⟩
  simp only [perform, Machine.awaitOutput, Panel.delivers]
  cases world.machine.panel.sink <;> rfl

theorem drain_turn_quiet (token : Token) (drain : Drain) (panel : Panel) :
    (drain.turn token panel).1.delivers = panel.delivers ∧
      (drain.turn token panel).1.signals = panel.signals := by
  cases drain with
  | check =>
      unfold Drain.turn
      cases panel.isFired token <;> exact ⟨rfl, rfl⟩
  | receive =>
      unfold Drain.turn Panel.takeChar
      cases panel.source with
      | none => exact ⟨rfl, rfl⟩
      | some line =>
          dsimp only
          rcases line.take with ⟨_ | _ | _, after⟩
          · exact ⟨rfl, rfl⟩
          · dsimp only
            split <;> exact ⟨rfl, rfl⟩
          · exact ⟨rfl, rfl⟩
  | queue char => exact ⟨rfl, rfl⟩
  | idle =>
      unfold Drain.turn
      cases panel.isFired token <;> exact ⟨rfl, rfl⟩
  | ended linked => exact ⟨rfl, rfl⟩

theorem drain_turn_closed (token : Token) (execution : Execution) (drain : Drain) (panel : Panel)
    (closed : panel.keyboard.closed = true →
      panel.source = none ∧ (Call.run (.active token execution drain)).inFlight = none)
    (now : (drain.turn token panel).1.keyboard.closed = true) :
    (drain.turn token panel).1.source = none ∧
      (Call.run (.active token execution ((drain.turn token panel).2.getD drain))).inFlight = none := by
  cases drain with
  | check =>
      unfold Drain.turn at now ⊢
      cases fired : panel.isFired token <;> rw [fired] at now <;> exact closed now
  | receive =>
      unfold Drain.turn Panel.takeChar at now ⊢
      cases source : panel.source with
      | none => exact ⟨rfl, rfl⟩
      | some line =>
          -- a queue that is closed already has no line to take from
          have notYet : ¬panel.keyboard.closed = true := by
            intro shut
            rw [source] at closed
            cases (closed shut).1
          rw [source] at now
          dsimp only at now ⊢
          generalize line.take = answer at now ⊢
          rcases answer with ⟨_ | _ | _, after⟩
          · exact absurd now notYet
          · refine absurd ?_ notYet
            dsimp only at now
            split at now <;> exact now
          · exact ⟨rfl, rfl⟩
  | queue char =>
      have before : panel.keyboard.closed = true := by
        simp only [Drain.turn, Panel.type, Keyboard.type] at now
        cases code : Keyboard.code? char <;> rw [code] at now <;> exact now
      cases (closed before).2
  | idle =>
      unfold Drain.turn at now ⊢
      cases fired : panel.isFired token <;> rw [fired] at now <;> exact closed now
  | ended linked => exact closed now

theorem drain_active (world : World) (execution : Execution) (drain : Drain)
    (called : world.call = .run (.active token execution drain)) :
    world.drain = { world with
      machine := { world.machine with panel := (drain.turn token world.machine.panel).1 }
      call := .run (.active token execution ((drain.turn token world.machine.panel).2.getD drain)) } := by
  simp only [World.drain, called, RunCall.drainTurn]
  rcases drain.turn token world.machine.panel with ⟨after, _ | later⟩ <;> rfl

theorem drain_follows (world : World) (follows : world.Follows setting start token) :
    world.drain.Follows setting start token := by
  have kept := follows
  cases follows with
  | entering called entering =>
      rw [drain_inactive world fun _ _ _ same => by rw [called] at same; cases same]
      exact kept
  | returned report called ended =>
      rw [drain_inactive world fun _ _ _ same => by rw [called] at same; cases same]
      exact kept
  | running execution drain called running =>
      have ahead := drain_ahead world
      have quiet := drain_turn_quiet token drain world.machine.panel
      have grows := (Call.drain_turn_passes token execution drain world.machine.panel).queue
      have closed := drain_turn_closed token execution drain world.machine.panel running.closed
      rw [drain_active world execution drain called] at ahead ⊢
      have unseen : world.Unseen { world with
          machine := { world.machine with panel := (drain.turn token world.machine.panel).1 }
          call := .run (.active token execution ((drain.turn token world.machine.panel).2.getD drain)) } :=
        ⟨rfl, rfl, ahead, rfl, quiet.1, quiet.2, grows⟩
      exact .running execution _ rfl (running_unseen world _ execution drain _ unseen running closed)

theorem main_turn_active (execution : Execution) (drain : Drain) (machine : Machine)
    (apart : ∀ ending linked, execution.phase = .ended ending → drain ≠ .ended linked) :
    (RunCall.active token execution drain).mainTurn machine =
      ((execution.turn token machine).1, (execution.turn token machine).2.map (.active token · drain)) := by
  unfold RunCall.mainTurn
  split <;> rename_i same <;> cases same
  · exact absurd rfl (apart _ _ rfl)
  · rcases execution.turn token machine with ⟨after, _ | next⟩ <;> rfl

theorem main_active (world : World) (execution : Execution) (drain : Drain)
    (called : world.call = .run (.active token execution drain))
    (apart : ∀ ending linked, execution.phase = .ended ending → drain ≠ .ended linked) :
    world.main = { world with
      machine := (execution.turn token world.machine).1
      call := .run (.active token ((execution.turn token world.machine).2.getD execution) drain)
      history := world.history.note world.machine (Call.run (.active token execution drain)).attempt? } := by
  simp only [World.main, called, main_turn_active execution drain world.machine apart]
  rcases execution.turn token world.machine with ⟨after, _ | next⟩ <;> rfl

theorem running_turn (world : World) (machine : Machine) (history : History) (execution next : Execution)
    (drain : Drain)
    (running : world.Running setting start token execution drain)
    (turned : world.main = { world with machine, call := .run (.active token next drain), history })
    (delivers : machine.panel.delivers = world.machine.panel.delivers)
    (config : machine.config = world.machine.config)
    (source : machine.panel.source = world.machine.panel.source)
    (shut : machine.panel.keyboard.closed = world.machine.panel.keyboard.closed)
    (unfired : next.phase.finishing = false → machine.panel.isFired token = false)
    (ready : next.phase = .attempt .execute → Instruction.decode machine.core.word = .ok (.trap .getc) →
      machine.panel.keyboard.queue ≠ #[])
    (stage : ∃ number solo, Solo.Path setting start number solo ∧
      (∀ earlier passed, Solo.Path setting start earlier passed → earlier < number → ¬passed.core.ReadsDevice) ∧
      Stage setting solo machine.core world.main.ahead history.accepted next) :
    world.main.Follows setting start token := by
  rw [turned] at stage ⊢
  refine .running next drain rfl ⟨?_, ?_, fun closed => ?_, unfired, ready, stage⟩
  · exact delivers.trans running.delivers
  · exact (congrArg Config.policy config).trans running.policy
  · have before := running.closed (shut.symm.trans closed)
    refine ⟨source.trans before.1, ?_⟩
    exact Eq.trans (by cases drain <;> rfl) before.2

theorem main_undrawn (world : World) (undrawn : world.machine.drawn world.call.attempt? = []) :
    world.main.ahead = world.ahead := by
  have ahead := main_ahead world
  rwa [undrawn] at ahead

theorem attempt_follows (world : World) (steps : Nat) (attempt next : Attempt) (machine : Machine) (drain : Drain)
    (called : world.call = .run (.active token ⟨steps, .attempt attempt⟩ drain))
    (running : world.Running setting start token ⟨steps, .attempt attempt⟩ drain)
    (goes : ∀ result, attempt ≠ .done result) (idle : attempt ≠ .execute)
    (turn : (attempt.turn token world.machine).1 = machine ∧
      (attempt.turn token world.machine).2.getD attempt = next)
    (delivers : machine.panel.delivers = world.machine.panel.delivers)
    (config : machine.config = world.machine.config)
    (source : machine.panel.source = world.machine.panel.source)
    (shut : machine.panel.keyboard = world.machine.panel.keyboard)
    (signals : machine.panel.signals = world.machine.panel.signals)
    (ready : next = .execute → Instruction.decode machine.core.word = .ok (.trap .getc) →
      machine.panel.keyboard.queue ≠ #[])
    (stage : ∀ solo,
      Stage setting solo world.machine.core world.ahead world.history.accepted ⟨steps, .attempt attempt⟩ →
      Stage setting solo machine.core world.ahead
        (world.history.note world.machine (some (token, attempt))).accepted ⟨steps, .attempt next⟩) :
    world.main.Follows setting start token := by
  obtain ⟨number, solo, path, passed, before⟩ := running.stage
  have undrawn : world.machine.drawn world.call.attempt? = [] := by
    rw [called]
    cases attempt with
    | execute => exact absurd rfl idle
    | _ => rfl
  have unfired : machine.panel.isFired token = false := by
    unfold Panel.isFired
    rw [signals]
    refine running.unfired ?_
    cases attempt with
    | done result => exact absurd rfl (goes result)
    | _ => rfl
  have turned := main_active world ⟨steps, .attempt attempt⟩ drain called nofun
  rw [Call.execution_turn_attempt token steps attempt world.machine goes] at turned
  have later : ((attempt.turn token world.machine).2.map (⟨steps, .attempt ·⟩ : Attempt → Execution)).getD
      ⟨steps, .attempt attempt⟩ = ⟨steps, .attempt next⟩ := by
    rw [← turn.2]
    cases (attempt.turn token world.machine).2 <;> rfl
  rw [later, turn.1] at turned
  -- the run that waits for nobody stays in its state, and only the stage in it changes
  refine running_turn world machine _ _ ⟨steps, .attempt next⟩ drain running turned ?_ config source ?_
    (fun _ => unfired) ?_ ⟨number, solo, path, passed, ?_⟩
  · exact delivers
  · rw [shut]
  · intro phase getc
    cases phase
    exact ready rfl getc
  · rw [main_undrawn world undrawn]
    exact stage solo before

theorem note_offer (history : History) (machine : Machine) (char : Char) (rest : List Char) :
    (history.note machine (some (token, .offer char rest))).accepted =
      if machine.panel.accepts char then history.accepted ++ [char] else history.accepted := by
  simp only [History.note]
  split <;> rfl

theorem offer_follows (world : World) (steps : Nat) (char : Char) (rest : List Char) (drain : Drain)
    (called : world.call = .run (.active token ⟨steps, .attempt (.offer char rest)⟩ drain))
    (running : world.Running setting start token ⟨steps, .attempt (.offer char rest)⟩ drain) :
    world.main.Follows setting start token := by
  have unfired := running.unfired rfl
  obtain ⟨sink, after, delivers⟩ := Attempt.offering_panel token char rest world.machine.panel unfired
  have turn : (Attempt.turn token (.offer char rest) world.machine).1 =
      { world.machine with panel := { world.machine.panel with sink } } := by
    rw [← after]
    rfl
  refine attempt_follows world steps (.offer char rest) _ _ drain called running nofun nofun ⟨turn, rfl⟩
    delivers rfl rfl rfl rfl ?_ fun solo stage => ?_
  · intro _ getc
    obtain ⟨number, solo, path, passed, stage⟩ := running.stage
    cases stage with
    | offer done _ _ near apart other prints output => exact absurd getc other
  · rw [note_offer]
    exact Stage.offered steps token world.machine.panel world.machine.core char rest stage unfired running.delivers

theorem hand_over_follows (world : World) (steps : Nat) (rest : List Char) (drain : Drain)
    (called : world.call = .run (.active token ⟨steps, .attempt (.handOver rest)⟩ drain))
    (running : world.Running setting start token ⟨steps, .attempt (.handOver rest)⟩ drain) :
    world.main.Follows setting start token := by
  refine attempt_follows world steps (.handOver rest) _ _ drain called running nofun nofun ⟨rfl, rfl⟩
    rfl rfl rfl rfl rfl ?_ fun solo stage => ?_
  · intro _ getc
    obtain ⟨number, solo, path, passed, stage⟩ := running.stage
    cases stage with
    | handOver done _ near apart other prints output => exact absurd getc other
  · exact Stage.handed steps token world.machine.panel world.machine.core rest stage (running.unfired rfl)
      running.delivers

theorem await_follows (world : World) (steps : Nat) (drain : Drain)
    (called : world.call = .run (.active token ⟨steps, .attempt .await⟩ drain))
    (running : world.Running setting start token ⟨steps, .attempt .await⟩ drain) :
    world.main.Follows setting start token := by
  have unfired := running.unfired rfl
  have closed (shut : world.machine.panel.keyboard.closed = true) :
      world.ahead = world.machine.panel.keyboard.queue.toList := by
    obtain ⟨unplugged, inFlight⟩ := running.closed shut
    rw [← called] at inFlight
    exact ahead_unplugged world unplugged inFlight
  refine attempt_follows world steps .await _ _ drain called running nofun nofun ⟨rfl, rfl⟩
    rfl rfl rfl rfl rfl ?_ fun solo stage => ?_
  · intro execute
    simp only [Attempt.turn, Attempt.awaiting, Keyboard.wait?, unfired] at execute
    cases empty : world.machine.panel.keyboard.queue.isEmpty <;>
      cases shut : world.machine.panel.keyboard.closed <;> rw [empty, shut] at execute <;> cases execute
  · exact Stage.awaited steps token world.machine.panel world.machine.core stage unfired closed

theorem latch_follows (world : World) (steps : Nat) (drain : Drain)
    (called : world.call = .run (.active token ⟨steps, .attempt .latch⟩ drain))
    (running : world.Running setting start token ⟨steps, .attempt .latch⟩ drain) :
    world.main.Follows setting start token := by
  obtain ⟨panel, config⟩ := world.machine.latch_keyboard_keeps
  refine attempt_follows world steps .latch .look world.machine.latchKeyboard drain called running nofun nofun
    ⟨rfl, rfl⟩ (by rw [panel]) config (by rw [panel]) (by rw [panel]) (by rw [panel]) nofun fun solo stage => ?_
  exact Stage.latched steps world.machine stage

theorem look_follows (world : World) (steps : Nat) (drain : Drain)
    (called : world.call = .run (.active token ⟨steps, .attempt .look⟩ drain))
    (running : world.Running setting start token ⟨steps, .attempt .look⟩ drain)
    (apart : ¬world.machine.core.ReadsDevice) : world.main.Follows setting start token := by
  refine attempt_follows world steps .look _ _ drain called running nofun nofun ⟨rfl, rfl⟩
    rfl rfl rfl rfl rfl ?_ fun solo stage => ?_
  · exact Attempt.prospect_ready world.machine
  · exact Stage.looked steps world.machine stage apart

theorem execute_follows (world : World) (steps : Nat) (drain : Drain)
    (called : world.call = .run (.active token ⟨steps, .attempt .execute⟩ drain))
    (running : world.Running setting start token ⟨steps, .attempt .execute⟩ drain) :
    world.main.Follows setting start token := by
  obtain ⟨number, solo, path, passed, stage⟩ := running.stage
  have unfired := running.unfired rfl
  have attempted := main_active world ⟨steps, .attempt .execute⟩ drain called nofun
  rw [Call.execution_turn_attempt token steps .execute world.machine nofun] at attempted
  have turned : world.main = { world with
      machine := (Attempt.executing token world.machine).1
      call := .run (.active token ⟨steps, .attempt (Attempt.executing token world.machine).2⟩ drain)
      history := world.history.note world.machine (some (token, .execute)) } := attempted
  rw [ahead_queue] at stage
  obtain ⟨later, shut, source, sink, signals⟩ :=
    Stage.executed steps token world.machine _ stage (running.ready rfl)
  have inFlight (execution : Execution) :
      (Call.run (.active token execution drain)).inFlight = world.call.inFlight := by
    rw [called]
    cases drain <;> rfl
  have ahead : world.main.ahead = (Attempt.executing token world.machine).1.panel.keyboard.queue.toList ++
      outstanding world.call.inFlight world.machine.panel.source world.unsent := by
    rw [ahead_queue, turned, ← inFlight ⟨steps, .attempt (Attempt.executing token world.machine).2⟩, ← source]
  refine running_turn world _ _ ⟨steps, .attempt .execute⟩ _ drain running turned ?_ ?_ source shut ?_ ?_
    ⟨number, solo, path, passed, ?_⟩
  · simp only [Panel.delivers, sink]
  · rw [Attempt.executing_machine]
  · intro phase
    cases signals with
    | inl halted =>
        rw [halted] at phase
        cases phase
    | inr same =>
        unfold Panel.isFired
        rw [same]
        exact unfired
  · intro phase
    unfold Attempt.executing at phase
    split at phase <;> cases phase
  · rw [ahead]
    exact later

theorem done_follows (world : World) (steps : Nat) (result : Except Fault Outcome) (drain : Drain)
    (called : world.call = .run (.active token ⟨steps, .attempt (.done result)⟩ drain))
    (running : world.Running setting start token ⟨steps, .attempt (.done result)⟩ drain) :
    world.main.Follows setting start token := by
  obtain ⟨number, solo, path, passed, stage⟩ := running.stage
  obtain ⟨panel, config⟩ := Call.conclude_keeps steps result world.machine
  have attempted := main_active world ⟨steps, .attempt (.done result)⟩ drain called nofun
  have turned : world.main = { world with
      machine := (Execution.conclude steps result world.machine).1
      call := .run (.active token (Execution.conclude steps result world.machine).2 drain)
      history := world.history } := attempted
  have ahead := main_undrawn world (by rw [called]; rfl)
  -- to the next state, or to the end
  obtain ⟨next, goes, apart, later, check, other⟩ | ⟨ending, later, stopping⟩ :=
    Stage.concluded steps world.machine result stage running.policy
  · refine running_turn world _ _ ⟨steps, .attempt (.done result)⟩ _ drain running turned (by rw [panel]) config
      (by rw [panel]) (by rw [panel]) ?_ ?_ ⟨number + 1, next, .goes number solo next path goes, ?_, ?_⟩
    · intro _
      rw [panel]
      refine running.unfired ?_
      rcases result with fault | _ | _ | _ | _ <;> first | rfl | exact absurd rfl other
    · intro phase
      rw [check] at phase
      cases phase
    · intro earlier state statePath before
      exact Solo.apart_through number solo path passed apart earlier state statePath (Nat.le_of_lt_succ before)
    · rw [ahead]
      exact later
  · refine running_turn world _ _ ⟨steps, .attempt (.done result)⟩ _ drain running turned (by rw [panel]) config
      (by rw [panel]) (by rw [panel]) ?_ ?_ ⟨number, solo, path, passed, ?_⟩
    · intro phase
      rw [stopping] at phase
      cases phase
    · intro phase
      rw [stopping] at phase
      cases phase
    · rw [ahead]
      exact later

theorem check_follows (world : World) (steps : Nat) (drain : Drain)
    (called : world.call = .run (.active token ⟨steps, .check⟩ drain))
    (running : world.Running setting start token ⟨steps, .check⟩ drain) :
    world.main.Follows setting start token := by
  obtain ⟨number, solo, path, passed, stage⟩ := running.stage
  have unfired := running.unfired rfl
  have attempted := main_active world ⟨steps, .check⟩ drain called nofun
  rw [Execution.check_unfired token steps world.machine unfired] at attempted
  refine running_turn world _ _ ⟨steps, .check⟩ _ drain running attempted rfl rfl rfl rfl (fun _ => unfired) nofun
    ⟨number, solo, path, passed, ?_⟩
  rw [main_undrawn world (by rw [called]; rfl)]
  cases stage with
  | check near output => exact .latch near output

theorem stopping_follows (world : World) (steps : Nat) (ending : Ending) (drain : Drain)
    (called : world.call = .run (.active token ⟨steps, .stopping ending⟩ drain))
    (running : world.Running setting start token ⟨steps, .stopping ending⟩ drain) :
    world.main.Follows setting start token := by
  obtain ⟨number, solo, path, passed, stage⟩ := running.stage
  have turned := main_active world ⟨steps, .stopping ending⟩ drain called nofun
  refine running_turn world _ _ ⟨steps, .stopping ending⟩ _ drain running turned rfl rfl rfl rfl nofun nofun
    ⟨number, solo, path, passed, ?_⟩
  rw [main_undrawn world (by rw [called]; rfl)]
  cases stage with
  | stopping last _ ends apart near output => exact .ended last ending ends apart near output

theorem ended_follows (world : World) (steps : Nat) (ending : Ending) (drain : Drain)
    (called : world.call = .run (.active token ⟨steps, .ended ending⟩ drain))
    (running : world.Running setting start token ⟨steps, .ended ending⟩ drain) :
    world.main.Follows setting start token := by
  obtain ⟨number, solo, path, passed, stage⟩ := running.stage
  have ahead := main_undrawn world (by rw [called]; rfl)
  by_cases drained : ∃ linked, drain = .ended linked
  · obtain ⟨linked, rfl⟩ := drained
    have turned : world.main = { world with
        machine := { world.machine with panel := RunCall.leave linked world.machine.panel }
        call := .run (.returned ⟨steps, ending⟩) } := by
      simp only [World.main, called]
      rfl
    rw [turned] at ahead ⊢
    cases stage with
    | ended last _ ends apart near output =>
        have through := Solo.apart_through number solo path passed apart
        refine .returned _ rfl ⟨number, solo, last, path, through, ends, rfl, ?_, output⟩
        rw [ahead]
        exact near
  · have turned := main_active world ⟨steps, .ended ending⟩ drain called
      fun _ linked _ same => drained ⟨linked, same⟩
    refine running_turn world _ _ ⟨steps, .ended ending⟩ _ drain running turned rfl rfl rfl rfl nofun nofun
      ⟨number, solo, path, passed, ?_⟩
    rw [ahead]
    exact stage

theorem entering_follows (world : World) (called : world.call = .run (.entering token))
    (entering : world.Entering setting start token) : world.main.Follows setting start token := by
  have ahead := main_undrawn world (by rw [called]; rfl)
  have taken := Panel.take_source_free world.machine.panel entering.free
  have turned : world.main = { world with
      machine := { world.machine with panel := (RunCall.enter token world.machine.panel).1 }
      call := .run (RunCall.enter token world.machine.panel).2 } := by
    simp only [World.main, called]
    rfl
  unfold RunCall.enter at turned
  rw [taken] at turned
  rw [turned] at ahead ⊢
  refine .running {} _ rfl ⟨entering.delivers, entering.policy, fun closed => ?_, fun _ => entering.unfired, nofun,
    0, start, .start, fun _ _ _ before => absurd before (Nat.not_lt_zero _), ?_⟩
  · have unplugged : world.machine.panel.source = none := by
      have linked : (!world.machine.panel.source.isSome) = true := closed
      simpa using linked
    refine ⟨unplugged, ?_⟩
    rw [unplugged]
    rfl
  · rw [ahead, entering.fresh.2]
    have check : Stage setting start world.machine.core world.ahead start.output ⟨start.steps, .check⟩ :=
      .check entering.near rfl
    rw [entering.fresh.1] at check
    exact check

theorem main_follows (world : World) (follows : world.Follows setting start token)
    (apart : ∀ other, world.call.attempt? = some (other, .look) → ¬world.machine.core.ReadsDevice) :
    world.main.Follows setting start token := by
  cases follows with
  | entering called entering => exact entering_follows world called entering
  | returned report called ended =>
      have same : world.main = world := by
        rcases world with ⟨machine, call, unsent, hangsUp, tokens, history⟩
        cases called
        rfl
      rw [same]
      exact .returned report called ended
  | running execution drain called running =>
      rcases execution with ⟨steps, phase⟩
      cases phase with
      | check => exact check_follows world steps drain called running
      | stopping ending => exact stopping_follows world steps ending drain called running
      | ended ending => exact ended_follows world steps ending drain called running
      | attempt attempt =>
          cases attempt with
          | latch => exact latch_follows world steps drain called running
          | look => exact look_follows world steps drain called running (apart token (by rw [called]; rfl))
          | await => exact await_follows world steps drain called running
          | handOver rest => exact hand_over_follows world steps rest drain called running
          | offer char rest => exact offer_follows world steps char rest drain called running
          | execute => exact execute_follows world steps drain called running
          | endless =>
              exact attempt_follows world steps .endless .endless world.machine drain called running nofun nofun
                ⟨rfl, rfl⟩ rfl rfl rfl rfl rfl nofun fun solo _ => .endless steps
          | done result => exact done_follows world steps result drain called running

theorem perform_follows (world : World) (task : Task) (follows : world.Follows setting start token)
    (apart : task = .main → ∀ other, world.call.attempt? = some (other, .look) →
      ¬world.machine.core.ReadsDevice) :
    (world.perform task).Follows setting start token := by
  cases task with
  | main => exact main_follows world follows (apart rfl)
  | drain => exact drain_follows world follows
  | send => exact follows_outside world _ (send_outside world) (send_ahead world) follows
  | listen => exact follows_outside world _ (listen_outside world) rfl follows
  | receive => exact follows_outside world _ (receive_outside world) (receive_ahead world) follows

def looks (world : World) : List Core :=
  match world.call.attempt? with
  | some (_, .look) => [world.machine.core]
  | _ => []

theorem main_looked (world : World) : world.main.history.looked = world.history.looked ++ world.looks := by
  rw [main_turned world, looks]
  rcases world.call.attempt? with _ | ⟨token, attempt⟩
  · exact (List.append_nil _).symm
  · cases attempt with
    | look => rfl
    | offer char rest =>
        simp only [History.note, List.append_nil]
        split <;> rfl
    | _ => exact (List.append_nil _).symm

theorem perform_looked (world : World) (task : Task) :
    (world.perform task).history.looked = world.history.looked ++ if task = .main then world.looks else [] := by
  by_cases main : task = .main
  · subst main
    exact main_looked world
  · rw [if_neg main, List.append_nil]
    obtain itself | rfl | ⟨source, sink, unsent, sent, turned⟩ := perform_cases world task
    · exact absurd itself main
    · rw [perform, drain_turned world]
    · rw [turned]

theorem schedule_looked (world : World) (tasks : List Task) :
    ∃ more, (world.schedule tasks).history.looked = world.history.looked ++ more := by
  induction tasks generalizing world with
  | nil => exact ⟨[], (List.append_nil _).symm⟩
  | cons task rest ih =>
      obtain ⟨more, grown⟩ := ih (world.perform task)
      rw [perform_looked, List.append_assoc] at grown
      exact ⟨_, grown⟩

theorem schedule_follows (world : World) (tasks : List Task) (follows : world.Follows setting start token)
    (apart : ∀ core ∈ (world.schedule tasks).history.looked, ¬core.ReadsDevice) :
    (world.schedule tasks).Follows setting start token := by
  induction tasks generalizing world with
  | nil => exact follows
  | cons task rest ih =>
      refine ih (world.perform task) (perform_follows world task follows fun main other look => apart _ ?_) apart
      obtain ⟨more, grown⟩ := schedule_looked (world.perform task) rest
      have now : world.machine.core ∈ world.looks := by
        unfold looks
        rw [look]
        exact List.mem_singleton_self _
      show world.machine.core ∈ ((world.perform task).schedule rest).history.looked
      rw [grown, perform_looked, if_pos main]
      exact List.mem_append_left _ (List.mem_append_right _ now)

theorem follows_apart (world : World) (other : Token) (follows : world.Follows setting start token)
    (quiet : ∀ number solo, Solo.Path setting start number solo → ¬solo.core.ReadsDevice)
    (look : world.call.attempt? = some (other, .look)) : ¬world.machine.core.ReadsDevice := by
  cases follows with
  | entering called entering => rw [called] at look; cases look
  | returned report called ended => rw [called] at look; cases look
  | running execution drain called running =>
      obtain ⟨number, solo, path, passed, stage⟩ := running.stage
      rw [called] at look
      rcases execution with ⟨steps, phase⟩
      cases phase with
      | attempt attempt =>
          cases look
          cases stage with
          | look near output =>
              exact Core.agrees_reads_device solo.core _ (Core.agrees_symm _ _ near.agrees) (quiet number solo path)
      | _ => cases look

theorem schedule_quiet (world : World) (tasks : List Task) (follows : world.Follows setting start token)
    (quiet : ∀ number solo, Solo.Path setting start number solo → ¬solo.core.ReadsDevice)
    (before : ∀ core ∈ world.history.looked, ¬core.ReadsDevice) :
    ∀ core ∈ (world.schedule tasks).history.looked, ¬core.ReadsDevice := by
  induction tasks generalizing world with
  | nil => exact before
  | cons task rest ih =>
      refine ih (world.perform task) (perform_follows world task follows fun _ other look =>
        follows_apart world other follows quiet look) fun core member => ?_
      rw [perform_looked] at member
      cases List.mem_append.mp member with
      | inl earlier => exact before core earlier
      | inr now =>
          split at now
          · unfold looks at now
            split at now
            · rename_i look
              obtain rfl := List.mem_singleton.mp now
              exact follows_apart world _ follows quiet look
            · cases now
          · cases now

theorem ended_quiet (world : World) (report : RunReport) (ended : world.Ended setting start report)
    (number : Nat) (solo : Solo) (path : Solo.Path setting start number solo) : ¬solo.core.ReadsDevice := by
  obtain ⟨last, final, finish, finalPath, passed, ends, -⟩ := ended.reached
  exact passed number solo path (Solo.path_bounded last number final finish solo report.ending finalPath ends path)

theorem returned_ended (world : World) (report : RunReport) (follows : world.Follows setting start token)
    (returned : world.call = .run (.returned report)) : world.Ended setting start report := by
  cases follows with
  | entering called entering => rw [called] at returned; cases returned
  | running execution drain called running => rw [called] at returned; cases returned
  | returned other called ended =>
      rw [called] at returned
      cases returned
      exact ended

theorem start_stopped (machine : Machine) (text : List Char) (hangsUp : Bool) (token : Token)
    (stopped : machine.panel.mode = .stopped) :
    World.start { machine, unsent := text, hangsUp, tokens := [token] } token =
      { machine := { machine with panel := { machine.panel with mode := .running, slot := some token } }
        call := .run (.entering token)
        unsent := text
        hangsUp
        tokens := [token] } := by
  have known : (Call.none.finished && [token].contains token) = true := by simp [Call.finished]
  unfold World.start
  rw [if_pos known]
  simp only [RunCall.claim, stopped]

theorem start_follows (machine : Machine) (text : List Char) (hangsUp : Bool) (token : Token) (world : World)
    (begun : world = World.start { machine, unsent := text, hangsUp, tokens := [token] } token)
    (stopped : machine.panel.mode = .stopped) (free : machine.panel.sourceTaken = false)
    (settled : machine.core.keyRead = false) (unfired : machine.panel.isFired token = false) :
    world.history.looked = [] ∧
      world.Follows ⟨machine.config.policy, machine.panel.delivers⟩
        { core := machine.core, input := world.ahead } token := by
  rw [start_stopped machine text hangsUp token stopped] at begun
  subst begun
  exact ⟨rfl, .entering rfl ⟨rfl, rfl, free, unfired, ⟨⟨rfl, settled, settled, fun _ _ => rfl⟩, rfl⟩, rfl, rfl⟩⟩

/-- Two runs of one stopped machine under any two schedules. Every step begins with a look at the word at PC, and
`looked` holds the core at each look. A GETC that finds the input closed has been looked at, too: its word may stand in
the keyboard data. A run is `apart` when none of its steps reads a keyboard register, be it for that word, a load, a
pointer or a character of a PUTS. -/
theorem schedules_agree (registers : Registers) (memory : Memory) (keyboard : Keyboard) (source sink : Option Line)
    (slot : Option Token) (signals : Signals) (config : Config) (text : List Char) (hangsUp : Bool) (token : Token)
    (start : World) (left right : List Task) (leftReport rightReport : RunReport)
    (begun : start = World.start
      { machine := { core := { registers, memory }, panel := { keyboard, source, sink, slot, signals }, config }
        unsent := text, hangsUp, tokens := [token] } token)
    (unfired : signals.isFired token = false)
    (leftReturns : (start.schedule left).call = .run (.returned leftReport))
    (rightReturns : (start.schedule right).call = .run (.returned rightReport))
    (apart : ∀ core ∈ (start.schedule left).history.looked, ¬core.ReadsDevice) :
    (∀ core ∈ (start.schedule right).history.looked, ¬core.ReadsDevice) ∧
      leftReport = rightReport ∧
      (start.schedule left).machine.core.registers = (start.schedule right).machine.core.registers ∧
      (∀ address, Address.isDevice address = false →
        (start.schedule left).machine.core.load address = (start.schedule right).machine.core.load address) ∧
      (start.schedule left).history.accepted = (start.schedule right).history.accepted ∧
      (start.schedule left).history.taken = (start.schedule right).history.taken := by
  obtain ⟨nothing, follows⟩ := start_follows _ text hangsUp token start begun rfl rfl rfl unfired
  have leftEnded := returned_ended _ leftReport (schedule_follows start left follows apart) leftReturns
  have quiet := ended_quiet _ leftReport leftEnded
  -- the left run has passed every state there is, so none of them reads a device, whoever passes it
  have rightApart := schedule_quiet start right follows quiet (by rw [nothing]; nofun)
  have rightEnded := returned_ended _ rightReport (schedule_follows start right follows rightApart) rightReturns
  obtain ⟨leftNumber, leftSolo, leftLast, leftPath, -, leftEnds, leftSteps, leftNear, leftOutput⟩ := leftEnded.reached
  obtain ⟨rightNumber, rightSolo, rightLast, rightPath, -, rightEnds, rightSteps, rightNear, rightOutput⟩ :=
    rightEnded.reached
  obtain ⟨ending, rfl⟩ := Solo.ends_unique leftNumber rightNumber leftSolo rightSolo leftLast rightLast
    leftReport.ending rightReport.ending leftPath rightPath leftEnds rightEnds
  refine ⟨rightApart, ?_, ?_, fun address other => ?_, ?_, ?_⟩
  · have steps := leftSteps.trans rightSteps.symm
    rcases leftReport with ⟨leftCount, leftEnding⟩
    rcases rightReport with ⟨rightCount, rightEnding⟩
    rw [RunReport.mk.injEq]
    exact ⟨steps, ending⟩
  · rw [leftNear.agrees.registers, rightNear.agrees.registers]
  · exact (leftNear.agrees.memory address other).trans (rightNear.agrees.memory address other).symm
  · rw [leftOutput, rightOutput]
  · have leftTotal := schedule_total start left
    have rightTotal := schedule_total start right
    rw [leftNear.input] at leftTotal
    rw [rightNear.input] at rightTotal
    exact List.append_cancel_right (leftTotal.trans rightTotal.symm)

-- GETC, OUT, HALT.
def echoMemory : Memory := ((Memory.zero.write 0 0xF020).write 1 0xF021).write 2 0xF025

def echo (memory : Memory) : World := World.start
  { machine :=
      { core := { memory }
        panel := { source := some { capacity := 1 }, sink := some { capacity := 4 } } }
    unsent := ['a']
    tokens := [⟨0⟩] } ⟨0⟩

def eager : List Task :=
  [.send, .main, .drain, .drain, .drain] ++ List.replicate 19 .main ++ [.drain, .main]

def tardy : List Task :=
  List.replicate 5 .main ++ [.send, .drain, .drain, .drain] ++ List.replicate 20 .main ++ [.drain, .main]

open Turns

theorem echo_runs (memory : Memory) (first : memory.read 0 = 0xF020) (second : memory.read 1 = 0xF021)
    (third : memory.read 2 = 0xF025) (clear : memory.read 0xFE00 = 0) :
    ((echo memory).schedule eager).call = .run (.returned ⟨3, .halted⟩) ∧
      ((echo memory).schedule tardy).call = .run (.returned ⟨3, .halted⟩) ∧
      ((echo memory).schedule eager).history.looked.map (fun core => (core.registers.pc, core.word)) =
        [(0, 0xF020), (1, 0xF021), (2, 0xF025)] := by
  have getc : Instruction.decode 0xF020 = .ok (.trap .getc) := rfl
  have out : Instruction.decode 0xF021 = .ok (.trap .out) := rfl
  have halt : Instruction.decode 0xF025 = .ok (.trap .halt) := rfl
  simp [echo, eager, tardy, List.replicate, Core.word, first, second, third, clear, getc, out, halt]

theorem trap_apart (core : Core) (service : Service) (fetch : Address.isDevice core.registers.pc = false)
    (decoded : Instruction.decode core.word = .ok (.trap service)) (other : service ≠ .puts) :
    ¬core.ReadsDevice := by
  rintro (device | ⟨instruction, same, address, read, -⟩)
  · rw [fetch] at device
    cases device
  · rw [decoded] at same
    cases same
    cases service with
    | puts => exact other rfl
    | _ => cases read

theorem schedules_agree_echo :
    ((echo echoMemory).schedule eager).call = .run (.returned ⟨3, .halted⟩) ∧
      ((echo echoMemory).schedule tardy).call = .run (.returned ⟨3, .halted⟩) ∧
      (∀ core ∈ ((echo echoMemory).schedule eager).history.looked, ¬core.ReadsDevice) ∧
      (∀ core ∈ ((echo echoMemory).schedule tardy).history.looked, ¬core.ReadsDevice) ∧
      ((echo echoMemory).schedule eager).history.accepted = ((echo echoMemory).schedule tardy).history.accepted := by
  have first : echoMemory.read 0 = 0xF020 := by simp [echoMemory, Memory.read_write]
  have second : echoMemory.read 1 = 0xF021 := by simp [echoMemory, Memory.read_write]
  have third : echoMemory.read 2 = 0xF025 := by simp [echoMemory, Memory.read_write]
  have clear : echoMemory.read 0xFE00 = 0 := by simp [echoMemory, Memory.read_write, Memory.read_zero]
  obtain ⟨eagerReturns, tardyReturns, looked⟩ := echo_runs echoMemory first second third clear
  have apart : ∀ core ∈ ((echo echoMemory).schedule eager).history.looked, ¬core.ReadsDevice := by
    intro core member
    have seen : (core.registers.pc, core.word) ∈ [(0, 0xF020), (1, 0xF021), (2, 0xF025)] :=
      looked ▸ List.mem_map_of_mem member
    simp only [List.mem_cons, List.not_mem_nil, or_false, Prod.mk.injEq] at seen
    obtain ⟨pc, word⟩ | ⟨pc, word⟩ | ⟨pc, word⟩ := seen
    · exact trap_apart core .getc (by rw [pc]; rfl) (by rw [word]; rfl) nofun
    · exact trap_apart core .out (by rw [pc]; rfl) (by rw [word]; rfl) nofun
    · exact trap_apart core .halt (by rw [pc]; rfl) (by rw [word]; rfl) nofun
  have agree := schedules_agree {} echoMemory {} _ _ none {} {} ['a'] false ⟨0⟩ (echo echoMemory) eager tardy _ _
    rfl rfl eagerReturns tardyReturns apart
  exact ⟨eagerReturns, tardyReturns, apart, agree.1, agree.2.2.2.2.1⟩

end World

end LittleComputer
