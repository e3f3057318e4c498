import LittleComputer.Proofs.Moves

set_option autoImplicit false

namespace LittleComputer

def Core.Printing (core : Core) : Prop :=
  Instruction.decode core.word = .ok (.trap .out) ∨ Instruction.decode core.word = .ok (.trap .puts)

structure Closing where
  result : Except Fault Outcome
  core : Core
  connected : Bool

structure Delivery where
  core : Core
  sent : List Char := []
  closing : Option Closing := none

structure Delivery.Exact (delivery : Delivery) : Prop where
  ordered : delivery.sent <+: delivery.core.prints
  silent : ¬delivery.core.Printing → delivery.sent = []
  complete : delivery.core.Printing → ∀ closing, delivery.closing = some closing →
    (closing.result = .ok .retired ∧ (closing.connected = true → delivery.sent = delivery.core.prints)) ∨
      (closing.result = .ok .interrupted ∧ closing.core = delivery.core)

structure Delivery.Settled (delivery : Delivery) : Prop where
  exact : delivery.Exact
  concluded : delivery.closing = none → Instruction.decode delivery.core.word = .ok (.trap .getc)

structure Ledger where
  past : List Delivery := []
  current : Option Delivery := none

namespace Ledger

def all (ledger : Ledger) : List Delivery := ledger.past ++ ledger.current.toList

def sent (ledger : Ledger) : List Char := ledger.all.flatMap Delivery.sent

def note (ledger : Ledger) (machine : Machine) : Option (Token × Attempt) → Ledger
  | some (_, .look) => { past := ledger.all, current := some { core := machine.core } }
  | some (_, .offer char _) =>
      if machine.panel.accepts char then
        { ledger with current := ledger.current.map fun delivery =>
            { delivery with sent := delivery.sent ++ [char] } }
      else ledger
  | _ => ledger

def close (ledger : Ledger) (machine : Machine) : Option (Token × Attempt) → Ledger
  | some (_, .done result) =>
      { ledger with current := ledger.current.map fun delivery =>
          { delivery with
            closing := some { result, core := machine.core, connected := machine.panel.delivers } } }
  | _ => ledger

end Ledger

def Panel.pending (panel : Panel) : List Char := panel.sink.elim [] fun line => line.waiting.toList

structure Watch where
  world : World
  ledger : Ledger := {}
  received : List Char := []

namespace Watch

def act (watch : Watch) (action : Action) : Watch :=
  let world := watch.world.act action
  match action with
  | .task .main =>
      { watch with
        world
        ledger := (watch.ledger.note watch.world.machine watch.world.call.attempt?).close world.machine
          world.call.attempt? }
  | .task .receive =>
      { watch with
        world
        received := watch.received ++
          (watch.world.machine.panel.sink.bind fun line => line.take.1.char?).toList }
  | _ => { watch with world }

def run (watch : Watch) (actions : List Action) : Watch := actions.foldl act watch

theorem act_world (watch : Watch) (action : Action) : (watch.act action).world = watch.world.act action := by
  unfold act
  split <;> rfl

theorem run_world (watch : Watch) (actions : List Action) : (watch.run actions).world = watch.world.run actions := by
  induction actions generalizing watch with
  | nil => rfl
  | cons action rest ih => exact (ih (watch.act action)).trans (congrArg (·.run rest) (act_world watch action))

end Watch

namespace Core

theorem prints_silent (core : Core) (silent : ¬core.Printing) : core.prints = [] := by
  obtain ⟨fault, decoded⟩ | ⟨service, decoded⟩ | ⟨instruction, decoded, plain⟩ := decode_cases core.word
  · exact prints_fault core fault decoded
  · rw [prints_trap core service decoded]
    cases service with
    | getc => rfl
    | halt => rfl
    | out => exact absurd (.inl decoded) silent
    | puts => exact absurd (.inr decoded) silent
  · exact prints_plain core instruction decoded plain

theorem getc_silent (core : Core) (getc : Instruction.decode core.word = .ok (.trap .getc)) : ¬core.Printing := by
  rintro (decoded | decoded) <;> rw [decoded] at getc <;> cases getc

theorem printing_retires (core : Core) (keyboard : Keyboard) (result : Except Fault Outcome) (printing : core.Printing)
    (stepped : (core.step Keyboard.console keyboard).1 = some result) : result = .ok .retired := by
  have trapped (service : Service) (decoded : Instruction.decode core.word = .ok (.trap service)) :
      ∃ outcome, result = .ok outcome := by
    rw [step_trap _ core keyboard service decoded] at stepped
    generalize core.serve Keyboard.console service (core.registers.pc + 1) keyboard = answer at stepped
    rcases answer with ⟨_ | outcome, after, later⟩
    · cases stepped
    · exact ⟨outcome, (Option.some.inj stepped).symm⟩
  obtain ⟨fault, rfl, -⟩ | retired | ⟨-, halt⟩ | ⟨-, getc, -⟩ := core.step_results keyboard result stepped
  · obtain decoded | decoded := printing <;> obtain ⟨outcome, same⟩ := trapped _ decoded <;> cases same
  · exact retired
  · obtain decoded | decoded := printing <;> rw [decoded] at halt <;> cases halt
  · exact absurd printing (core.getc_silent getc)

end Core

namespace Delivery

theorem exact_open (delivery : Delivery) (ordered : delivery.sent <+: delivery.core.prints)
    (goes : delivery.closing = none) : delivery.Exact where
  ordered := ordered
  silent silent := by
    rw [Core.prints_silent _ silent] at ordered
    exact List.prefix_nil.mp ordered
  complete _ closing closed := by
    rw [goes] at closed
    cases closed

theorem getc_exact (delivery : Delivery) (getc : Instruction.decode delivery.core.word = .ok (.trap .getc))
    (nothing : delivery.sent = []) : delivery.Exact where
  ordered := by rw [nothing]; exact List.nil_prefix
  silent _ := nothing
  complete printing := absurd printing (Core.getc_silent _ getc)

end Delivery

namespace Attempt

def Hands (attempt : Attempt) (machine : Machine) (current : Option Delivery) : Prop :=
  match attempt with
  | .latch => ∀ delivery, current = some delivery → delivery.Settled
  | .look => ∀ delivery, current = some delivery → delivery.Settled
  | .done _ => ∀ delivery, current = some delivery → delivery.Settled
  | .await => ∃ core, current = some { core } ∧ Instruction.decode core.word = .ok (.trap .getc)
  | .handOver rest => ∃ sent, current = some { core := machine.core, sent } ∧ machine.core.prints = sent ++ rest
  | .offer char rest =>
      ∃ sent, current = some { core := machine.core, sent } ∧ machine.core.prints = sent ++ char :: rest
  | .execute => ∃ sent, current = some { core := machine.core, sent } ∧ sent <+: machine.core.prints ∧
      (machine.panel.delivers = true → sent = machine.core.prints)
  | .endless => ∃ core sent, current = some { core, sent } ∧ sent <+: core.prints

theorem look_hands (machine : Machine) : (prospect machine).Hands machine (some { core := machine.core }) := by
  have silent (nothing : machine.core.prints = []) : Hands .execute machine (some { core := machine.core }) :=
    ⟨[], rfl, List.nil_prefix, fun _ => nothing.symm⟩
  obtain ⟨fault, decoded⟩ | ⟨service, decoded⟩ | ⟨instruction, decoded, plain⟩ := decode_cases machine.core.word
  · rw [prospect_fault machine fault decoded]
    exact silent (Core.prints_fault machine.core fault decoded)
  · rw [prospect_trap machine service decoded]
    have prints := Core.prints_trap machine.core service decoded
    have printing (prospect : Attempt) (endless : machine.core.output? service = none → prospect = .endless)
        (hands : ∀ bytes, machine.core.output? service = some bytes →
          prospect = .handOver (bytes.map fun byte => Char.ofNat byte.toNat)) :
        prospect.Hands machine (some { core := machine.core }) := by
      cases output : machine.core.output? service with
      | none =>
          rw [endless output]
          exact ⟨machine.core, [], rfl, List.nil_prefix⟩
      | some bytes =>
          rw [hands bytes output]
          rw [output] at prints
          exact ⟨[], rfl, prints⟩
    cases service with
    | getc =>
        dsimp only
        cases machine.panel.keyboard.queue.isEmpty with
        | true => exact ⟨machine.core, rfl, decoded⟩
        | false => exact silent prints
    | halt => exact silent prints
    | out => exact printing _ (fun same => by simp only [same]) fun bytes same => by simp only [same]
    | puts => exact printing _ (fun same => by simp only [same]) fun bytes same => by simp only [same]
  · rw [prospect_plain machine instruction decoded plain]
    exact silent (Core.prints_plain machine.core instruction decoded plain)

end Attempt

namespace Ledger

variable (ledger : Ledger) (token : Token) (machine : Machine)

def turned (attempt : Attempt) : Ledger :=
  (ledger.note machine (some (token, attempt))).close (attempt.turn token machine).1
    (some (token, (attempt.turn token machine).2.getD attempt))

theorem await_hands (hands : Attempt.await.Hands machine ledger.current) (panel : Panel) (next : Attempt)
    (goes : next = .await ∨ next = .latch ∨ ∃ outcome, next = .done (.ok outcome)) :
    next.Hands { machine with panel } (ledger.close { machine with panel } (some (token, next))).current := by
  obtain ⟨core, current, getc⟩ := hands
  obtain rfl | rfl | ⟨outcome, rfl⟩ := goes
  · exact ⟨core, current, getc⟩
  · rintro delivery same
    cases current.symm.trans same
    exact ⟨Delivery.getc_exact _ getc rfl, fun _ => getc⟩
  · rintro delivery same
    simp only [close, current, Option.map_some, Option.some.injEq] at same
    subst same
    exact ⟨Delivery.getc_exact _ getc rfl, nofun⟩

theorem interrupted_hands (sent : List Char) (current : ledger.current = some { core := machine.core, sent })
    (ordered : sent <+: machine.core.prints) :
    Attempt.Hands (.done (.ok .interrupted)) machine
      (ledger.close machine (some (token, .done (.ok .interrupted)))).current := by
  rintro delivery same
  simp only [close, current, Option.map_some, Option.some.injEq] at same
  subst same
  have opened := Delivery.exact_open { core := machine.core, sent } ordered rfl
  refine ⟨⟨opened.ordered, opened.silent, fun _ closing closed => ?_⟩, nofun⟩
  cases closed
  exact .inr ⟨rfl, rfl⟩

theorem hand_over_hands (rest : List Char) (hands : Attempt.Hands (.handOver rest) machine ledger.current) :
    (Attempt.handingOver token machine.panel rest).Hands machine
      (ledger.close machine (some (token, Attempt.handingOver token machine.panel rest))).current := by
  obtain ⟨sent, current, prints⟩ := hands
  cases rest with
  | nil =>
      rw [List.append_nil] at prints
      exact ⟨sent, current, ⟨[], by rw [prints, List.append_nil]⟩, fun _ => prints.symm⟩
  | cons char rest =>
      have ordered : sent <+: machine.core.prints := ⟨_, prints.symm⟩
      unfold Attempt.handingOver
      cases sink : machine.panel.sink with
      | none => exact ⟨sent, current, ordered, fun somebody => by simp [Panel.delivers, sink] at somebody⟩
      | some line =>
          cases machine.panel.isFired token with
          | true => exact ledger.interrupted_hands token machine sent current ordered
          | false => exact ⟨sent, current, prints⟩

theorem offer_hands (char : Char) (rest : List Char) (hands : Attempt.Hands (.offer char rest) machine ledger.current) :
    ((Attempt.turn token (.offer char rest) machine).2.getD (.offer char rest)).Hands
      (Attempt.turn token (.offer char rest) machine).1 (ledger.turned token machine (.offer char rest)).current := by
  obtain ⟨sent, current, prints⟩ := hands
  have ordered : sent <+: machine.core.prints := ⟨_, prints.symm⟩
  rw [turned, Attempt.turn_offer, note]
  obtain ⟨nobody, refused, offering⟩ | ⟨-, refused, offering⟩ | ⟨taken, line, -, -, offering⟩ :=
    Attempt.offering_ways token char rest machine.panel
  · rw [refused, offering]
    refine ⟨sent, current, ordered, fun somebody => ?_⟩
    rw [show machine.panel.delivers = true from somebody] at nobody
    cases nobody
  · rw [refused, offering]
    cases machine.panel.isFired token with
    | true => exact ledger.interrupted_hands token machine sent current ordered
    | false => exact ⟨sent, current, prints⟩
  · rw [taken, offering]
    refine ⟨sent ++ [char], ?_, ?_⟩
    · exact congrArg (Option.map _) current
    · rw [prints, List.append_assoc]
      rfl

theorem execute_hands (hands : Attempt.execute.Hands machine ledger.current) :
    (Attempt.executing token machine).2.Hands (Attempt.executing token machine).1
      (ledger.close (Attempt.executing token machine).1
        (some (token, (Attempt.executing token machine).2))).current := by
  obtain ⟨sent, current, ordered, whole⟩ := hands
  have sink := (Attempt.executing_keeps token machine).1
  rw [(Attempt.executing_seen token machine).1]
  cases stepped : (machine.core.step Keyboard.console machine.panel.keyboard).1 with
  | none => exact ⟨machine.core, sent, current, ordered⟩
  | some result =>
      rintro delivery same
      simp only [close, current, Option.map_some, Option.some.injEq] at same
      subst same
      have opened := Delivery.exact_open { core := machine.core, sent } ordered rfl
      refine ⟨⟨opened.ordered, opened.silent, fun printing closing closed => ?_⟩, nofun⟩
      cases closed
      refine .inl ⟨machine.core.printing_retires _ result printing stepped, fun somebody => whole ?_⟩
      simpa only [Panel.delivers, sink] using somebody

theorem turn_hands (attempt : Attempt) (goes : ∀ result, attempt ≠ .done result)
    (hands : attempt.Hands machine ledger.current) :
    ((attempt.turn token machine).2.getD attempt).Hands (attempt.turn token machine).1
      (ledger.turned token machine attempt).current := by
  cases attempt with
  | latch => exact hands
  | look =>
      have looked := Attempt.look_hands machine
      have open? (later : Ledger) :
          (later.close machine (some (token, Attempt.prospect machine))).current = later.current := by
        obtain same | same | ⟨same, -⟩ | ⟨text, same, -⟩ := Attempt.prospect_cases machine <;> rw [same] <;> rfl
      simp only [turned, Attempt.turn, Option.getD_some, open?]
      exact looked
  | await =>
      refine ledger.await_hands token machine hands machine.panel _ ?_
      rw [Attempt.turn]
      cases goes : Attempt.awaiting token machine.panel with
      | none => exact .inl rfl
      | some next =>
          obtain ⟨rfl, -⟩ | ⟨rfl, -⟩ | ⟨rfl, -⟩ := Attempt.awaiting_cases token machine.panel next goes
          · exact .inr (.inl rfl)
          · exact .inr (.inr ⟨_, rfl⟩)
          · exact .inr (.inr ⟨_, rfl⟩)
  | handOver rest => exact ledger.hand_over_hands token machine rest hands
  | offer char rest => exact ledger.offer_hands token machine char rest hands
  | execute => exact ledger.execute_hands token machine hands
  | endless => exact hands
  | done result => exact absurd rfl (goes result)

end Ledger

namespace Ledger

theorem note_quiet (ledger : Ledger) (machine : Machine) (call : Call)
    (quiet : call.stand = .latch ∨ call.stand = .await ∨ ∃ result, call.stand = .done result) :
    ledger.note machine call.attempt? = ledger := by
  cases attempting : call.attempt? with
  | none => rfl
  | some pair =>
      rcases pair with ⟨token, attempt⟩
      rw [stand_attempt call token attempt attempting] at quiet
      obtain rfl | rfl | ⟨result, rfl⟩ := quiet <;> rfl

theorem close_goes (ledger : Ledger) (machine : Machine) (call : Call)
    (goes : call.stand = .await ∨ call.stand = .latch) : ledger.close machine call.attempt? = ledger := by
  cases attempting : call.attempt? with
  | none => rfl
  | some pair =>
      rcases pair with ⟨token, attempt⟩
      rw [stand_attempt call token attempt attempting] at goes
      obtain rfl | rfl := goes <;> rfl

theorem close_sent (ledger : Ledger) (machine : Machine) (attempt? : Option (Token × Attempt)) :
    (ledger.close machine attempt?).sent = ledger.sent ∧
      (ledger.close machine attempt?).all.map Delivery.core = ledger.all.map Delivery.core ∧
      (ledger.close machine attempt?).past = ledger.past := by
  rcases attempt? with _ | ⟨token, attempt⟩
  · exact ⟨rfl, rfl, rfl⟩
  · cases attempt with
    | done result =>
        simp only [close, sent, all]
        cases ledger.current <;> simp
    | _ => exact ⟨rfl, rfl, rfl⟩

theorem note_past (ledger : Ledger) (machine : Machine) (attempt? : Option (Token × Attempt)) :
    (ledger.note machine attempt?).past = ledger.past ∨
      (∃ token, attempt? = some (token, .look)) ∧ (ledger.note machine attempt?).past = ledger.all := by
  rcases attempt? with _ | ⟨token, attempt⟩
  · exact .inl rfl
  · cases attempt with
    | look => exact .inr ⟨⟨token, rfl⟩, rfl⟩
    | offer char rest =>
        refine .inl ?_
        simp only [note]
        cases machine.panel.accepts char <;> rfl
    | _ => exact .inl rfl

theorem note_sent (ledger : Ledger) (history : History) (machine : Machine) (attempt? : Option (Token × Attempt))
    (there : ∀ token char rest, attempt? = some (token, .offer char rest) →
      ∃ delivery, ledger.current = some delivery)
    (accepted : history.accepted = ledger.sent) (looked : history.looked = ledger.all.map Delivery.core) :
    (history.note machine attempt?).accepted = (ledger.note machine attempt?).sent ∧
      (history.note machine attempt?).looked = (ledger.note machine attempt?).all.map Delivery.core := by
  rcases attempt? with _ | ⟨token, attempt⟩
  · exact ⟨accepted, looked⟩
  · cases attempt with
    | look =>
        refine ⟨?_, ?_⟩
        · simp [History.note, note, sent, all, accepted]
        · simp [History.note, note, all, looked]
    | offer char rest =>
        obtain ⟨delivery, current⟩ := there token char rest rfl
        simp only [History.note, note]
        cases machine.panel.accepts char with
        | true => simp [accepted, looked, sent, all, current]
        | false => exact ⟨accepted, looked⟩
    | _ => exact ⟨accepted, looked⟩

end Ledger

theorem turn_sink (token : Token) (attempt : Attempt) (machine : Machine) (history : History) :
    ((attempt.turn token machine).1.panel.sink = machine.panel.sink ∧
        (history.note machine (some (token, attempt))).accepted = history.accepted) ∨
      ∃ char line, machine.panel.sink = some line ∧ line.receiverOpen = true ∧
        (attempt.turn token machine).1.panel.sink = some (line.put char) ∧
        (history.note machine (some (token, attempt))).accepted = history.accepted ++ [char] := by
  cases attempt with
  | latch => exact .inl ⟨congrArg Panel.sink machine.latch_keyboard_keeps.1, rfl⟩
  | offer char rest =>
      rw [Attempt.turn_offer, World.note_offer]
      obtain ⟨-, refused, offering⟩ | ⟨-, refused, offering⟩ | ⟨taken, line, sink, listening, offering⟩ :=
        Attempt.offering_ways token char rest machine.panel
      · rw [refused, offering]
        exact .inl ⟨rfl, rfl⟩
      · rw [refused, offering]
        exact .inl ⟨rfl, rfl⟩
      · rw [taken, offering]
        exact .inr ⟨char, line, sink, listening, rfl, rfl⟩
  | execute => exact .inl ⟨(Attempt.executing_keeps token machine).1, rfl⟩
  | _ => exact .inl ⟨rfl, rfl⟩

namespace World

theorem main_sink (world : World) :
    (world.main.machine.panel.sink = world.machine.panel.sink ∧
        world.main.history.accepted = world.history.accepted) ∨
      ∃ char line, world.machine.panel.sink = some line ∧ line.receiverOpen = true ∧
        world.main.machine.panel.sink = some (line.put char) ∧
        world.main.history.accepted = world.history.accepted ++ [char] := by
  have noted : world.main.history = world.history.note world.machine world.call.attempt? := by
    rw [main_turned world]
  have quiet (stands : world.call.stand = .latch ∨ world.call.stand = .await ∨
      ∃ result, world.call.stand = .done result) :
      world.main.history.accepted = world.history.accepted := by
    rw [noted]
    cases attempting : world.call.attempt? with
    | none => rfl
    | some pair =>
        rcases pair with ⟨token, attempt⟩
        rw [stand_attempt world.call token attempt attempting] at stands
        obtain rfl | rfl | ⟨result, rfl⟩ := stands <;> rfl
  cases main_moves world with
  | turns token attempt attempting goes turned attempts =>
      rw [noted, attempting, turned]
      exact turn_sink token attempt world.machine world.history
  | waits panel stands turned kept goes =>
      refine .inl ⟨?_, quiet (.inr (.inl stands))⟩
      rw [turned]
      exact kept.sink
  | idles stands goes kept => exact .inl ⟨kept.sink, quiet (stands.imp_right .inr)⟩

theorem drain_turn_sink (token : Token) (drain : Drain) (panel : Panel) :
    (drain.turn token panel).1.sink = panel.sink := by
  have sink := panel.take_char_kept.sink
  cases drain with
  | receive =>
      unfold Drain.turn
      generalize panel.takeChar = answer at sink ⊢
      rcases answer with ⟨_ | _ | _, after⟩
      · exact sink
      · dsimp only
        cases after.isFired token <;> exact sink
      · exact sink
  | queue char => rfl
  | ended linked => rfl
  | _ =>
      unfold Drain.turn
      cases panel.isFired token <;> rfl

theorem drain_pending (world : World) : world.drain.machine.panel.pending = world.machine.panel.pending := by
  obtain same | ⟨token, execution, drain, called, turned⟩ := drain_cases world
  · rw [same]
  · rw [turned]
    simp only [Panel.pending, drain_turn_sink]

theorem send_pending (world : World) : world.send.machine.panel.pending = world.machine.panel.pending := by
  obtain same | ⟨char, rest, line, -, -, -, sends⟩ | ⟨-, -, closes⟩ := send_cases world
  · rw [same]
  · rw [sends]
    rfl
  · rw [closes]
    rfl

theorem host_pending (world : World) (action : Action) (host : ∀ task, action ≠ .task task)
    (other : action ≠ .dropOutput) :
    (world.act action).machine.panel.pending = world.machine.panel.pending := by
  cases action with
  | task task => exact absurd rfl (host task)
  | step =>
      show world.step.machine.panel.pending = _
      obtain same | ⟨-, enters⟩ := step_cases world
      · rw [same]
      · rw [enters]
        have sink := (Panel.take_source_kept world.machine.panel).sink
        exact congrArg (Option.elim · [] fun line => line.waiting.toList) sink
  | start token =>
      show (world.start token).machine.panel.pending = _
      obtain same | ⟨-, claims⟩ := start_cases world token
      · rw [same]
      · rw [claims]
        unfold RunCall.claim
        cases world.machine.panel.mode <;> rfl
  | cancel token =>
      unfold act
      dsimp only
      split <;> rfl
  | fireSlot =>
      simp only [act, Panel.fireSlot]
      cases world.machine.panel.slot <;> rfl
  | dropOutput => exact absurd rfl other
  | _ => rfl

theorem act_undelivered (world : World) (action : Action) (nobody : world.machine.panel.delivers = false) :
    (world.act action).machine.panel.delivers = false ∧
      (world.act action).history.accepted = world.history.accepted := by
  by_cases main : action = .task .main
  · subst main
    show world.main.machine.panel.delivers = false ∧ world.main.history.accepted = world.history.accepted
    obtain ⟨same, accepted⟩ | ⟨char, line, sink, listening, -⟩ := main_sink world
    · exact ⟨by rw [Panel.delivers, same]; exact nobody, accepted⟩
    · simp [Panel.delivers, sink, listening] at nobody
  · have beside := act_beside world action main
    refine ⟨?_, beside.accepted⟩
    cases later : (world.act action).machine.panel.delivers with
    | false => rfl
    | true =>
        rw [beside.delivers later] at nobody
        cases nobody

theorem run_undelivered (world : World) (actions : List Action) (nobody : world.machine.panel.delivers = false) :
    (world.run actions).history.accepted = world.history.accepted := by
  induction actions generalizing world with
  | nil => rfl
  | cons action rest ih =>
      obtain ⟨still, accepted⟩ := act_undelivered world action nobody
      exact (ih (world.act action) still).trans accepted

end World

theorem Attempt.hands_same (attempt : Attempt) (before after : Machine) (current : Option Delivery)
    (core : after.core = before.core) (delivers : after.panel.delivers = true → before.panel.delivers = true)
    (hands : attempt.Hands before current) : attempt.Hands after current := by
  cases attempt with
  | execute =>
      obtain ⟨sent, open?, ordered, whole⟩ := hands
      rw [← core] at open? ordered whole
      exact ⟨sent, open?, ordered, fun somebody => whole (delivers somebody)⟩
  | _ => simpa only [Hands, core] using hands

theorem hands_exact (attempt : Attempt) (machine : Machine) (delivery : Delivery)
    (hands : attempt.Hands machine (some delivery)) : delivery.Exact := by
  cases attempt with
  | latch => exact (hands delivery rfl).exact
  | look => exact (hands delivery rfl).exact
  | done result => exact (hands delivery rfl).exact
  | await =>
      obtain ⟨core, current, -⟩ := hands
      cases current
      exact Delivery.exact_open _ List.nil_prefix rfl
  | handOver rest =>
      obtain ⟨sent, current, prints⟩ := hands
      cases current
      exact Delivery.exact_open _ ⟨rest, prints.symm⟩ rfl
  | offer char rest =>
      obtain ⟨sent, current, prints⟩ := hands
      cases current
      exact Delivery.exact_open _ ⟨char :: rest, prints.symm⟩ rfl
  | execute =>
      obtain ⟨sent, current, ordered, -⟩ := hands
      cases current
      exact Delivery.exact_open _ ordered rfl
  | endless =>
      obtain ⟨core, sent, current, ordered⟩ := hands
      cases current
      exact Delivery.exact_open _ ordered rfl

namespace Watch

structure Sound (watch : Watch) : Prop where
  accepted : watch.world.history.accepted = watch.ledger.sent
  looked : watch.world.history.looked = watch.ledger.all.map Delivery.core
  past : ∀ delivery ∈ watch.ledger.past, delivery.Settled
  hands : watch.world.call.stand.Hands watch.world.machine watch.ledger.current

theorem main_hands (watch : Watch) (sound : watch.Sound) :
    (watch.act (.task .main)).world.call.stand.Hands (watch.act (.task .main)).world.machine
      (watch.act (.task .main)).ledger.current := by
  have hands := sound.hands
  show watch.world.main.call.stand.Hands watch.world.main.machine
    ((watch.ledger.note watch.world.machine watch.world.call.attempt?).close watch.world.main.machine
      watch.world.main.call.attempt?).current
  cases World.main_moves watch.world with
  | turns token attempt attempting goes turned attempts =>
      rw [stand_attempt _ token attempt attempting] at hands
      rw [stand_attempt _ token _ attempts, attempting, attempts, turned]
      exact watch.ledger.turn_hands token watch.world.machine attempt goes hands
  | waits panel stands turned kept goes =>
      rw [stands] at hands
      rw [watch.ledger.note_quiet _ _ (.inr (.inl stands)), turned]
      obtain await | latch | ⟨outcome, done⟩ := goes
      · rw [watch.ledger.close_goes _ _ (.inl await), await]
        exact watch.ledger.await_hands ⟨0⟩ watch.world.machine hands panel .await (.inl rfl)
      · rw [watch.ledger.close_goes _ _ (.inr latch), latch]
        exact watch.ledger.await_hands ⟨0⟩ watch.world.machine hands panel .latch (.inr (.inl rfl))
      · obtain ⟨token, attempts⟩ := done_attempt _ _ done
        rw [attempts, done]
        exact watch.ledger.await_hands token watch.world.machine hands panel _ (.inr (.inr ⟨outcome, rfl⟩))
  | idles stands goes kept =>
      rw [watch.ledger.note_quiet _ _ (stands.imp_right .inr), watch.ledger.close_goes _ _ (.inr goes), goes]
      obtain latch | ⟨result, done⟩ := stands
      · rw [latch] at hands
        exact hands
      · rw [done] at hands
        exact hands

theorem main_sound (watch : Watch) (sound : watch.Sound) : (watch.act (.task .main)).Sound := by
  have hands := sound.hands
  have noted : watch.world.main.history = watch.world.history.note watch.world.machine watch.world.call.attempt? := by
    rw [World.main_turned watch.world]
  obtain ⟨sent, cores, past⟩ :=
    (watch.ledger.note watch.world.machine watch.world.call.attempt?).close_sent watch.world.main.machine
      watch.world.main.call.attempt?
  have there (token : Token) (char : Char) (rest : List Char)
      (offers : watch.world.call.attempt? = some (token, .offer char rest)) :
      ∃ delivery, watch.ledger.current = some delivery := by
    rw [stand_attempt _ token _ offers] at hands
    obtain ⟨sent, current, -⟩ := hands
    exact ⟨_, current⟩
  obtain ⟨accepted, looked⟩ := watch.ledger.note_sent watch.world.history watch.world.machine
    watch.world.call.attempt? there sound.accepted sound.looked
  refine ⟨?_, ?_, fun delivery member => ?_, main_hands watch sound⟩
  · show watch.world.main.history.accepted = _
    rw [noted]
    exact accepted.trans sent.symm
  · show watch.world.main.history.looked = _
    rw [noted]
    exact looked.trans cores.symm
  · replace member := past ▸ member
    obtain same | ⟨⟨token, looks⟩, all⟩ := watch.ledger.note_past watch.world.machine watch.world.call.attempt?
    · rw [same] at member
      exact sound.past delivery member
    · rw [all] at member
      rw [stand_attempt _ token _ looks] at hands
      obtain before | current := List.mem_append.mp member
      · exact sound.past delivery before
      · exact hands delivery (Option.mem_toList.mp current)

theorem act_sound (watch : Watch) (action : Action) (sound : watch.Sound) : (watch.act action).Sound := by
  by_cases main : action = .task .main
  · subst main
    exact main_sound watch sound
  · have beside := World.act_beside watch.world action main
    have ledger : (watch.act action).ledger = watch.ledger := by
      unfold act
      split
      · exact absurd rfl main
      · rfl
      · rfl
    have hands := Attempt.hands_same _ _ _ _ beside.core beside.delivers sound.hands
    rw [← beside.stand] at hands
    refine ⟨?_, ?_, ?_, ?_⟩
    · rw [act_world, ledger, beside.accepted, sound.accepted]
    · rw [act_world, ledger, beside.looked, sound.looked]
    · rw [ledger]
      exact sound.past
    · rw [act_world, ledger]
      exact hands

theorem run_sound (watch : Watch) (actions : List Action) (sound : watch.Sound) : (watch.run actions).Sound := by
  induction actions generalizing watch with
  | nil => exact sound
  | cons action rest ih => exact ih (watch.act action) (act_sound watch action sound)

theorem sound_exact (watch : Watch) (sound : watch.Sound) (delivery : Delivery) (member : delivery ∈ watch.ledger.all) :
    delivery.Exact := by
  obtain past | current := List.mem_append.mp member
  · exact (sound.past delivery past).exact
  · have hands := sound.hands
    rw [Option.mem_toList.mp current] at hands
    exact hands_exact _ _ delivery hands

theorem sound_settled (watch : Watch) (sound : watch.Sound) (delivery : Delivery) (member : delivery ∈ watch.ledger.all)
    (concluded : delivery ∈ watch.ledger.past ∨ watch.world.call.finished = true) : delivery.Settled := by
  obtain past | current := List.mem_append.mp member
  · exact sound.past delivery past
  · obtain past | finished := concluded
    · exact sound.past delivery past
    · have hands := sound.hands
      rw [finished_stand _ finished] at hands
      exact hands delivery (Option.mem_toList.mp current)

-- The consumer has what the line has accepted, in order, but for what still waits on the line or was on it when the
-- consumer went away.
def Passed (before : List Char) (watch : Watch) : Prop :=
  ∃ lost, watch.received ++ watch.world.machine.panel.pending ++ lost = before ++ watch.world.history.accepted ∧
    (watch.world.machine.panel.delivers = true → lost = [])

variable {before : List Char}

theorem passed_same (watch next : Watch) (passed : watch.Passed before) (received : next.received = watch.received)
    (pending : next.world.machine.panel.pending = watch.world.machine.panel.pending)
    (beside : watch.world.Beside next.world) : next.Passed before := by
  obtain ⟨lost, whole, open?⟩ := passed
  refine ⟨lost, ?_, fun somebody => open? (beside.delivers somebody)⟩
  rw [received, pending, beside.accepted]
  exact whole

theorem main_passed (watch : Watch) (passed : watch.Passed before) : (watch.act (.task .main)).Passed before := by
  obtain ⟨lost, whole, open?⟩ := passed
  obtain ⟨same, accepted⟩ | ⟨char, line, sink, listening, put, accepted⟩ := World.main_sink watch.world
  · refine ⟨lost, ?_, ?_⟩
    · show watch.received ++ watch.world.main.machine.panel.pending ++ lost =
        before ++ watch.world.main.history.accepted
      rw [Panel.pending, same, accepted]
      exact whole
    · show watch.world.main.machine.panel.delivers = true → lost = []
      rw [Panel.delivers, same]
      exact open?
  · obtain rfl := open? (by simp [Panel.delivers, sink, listening])
    refine ⟨[], ?_, fun _ => rfl⟩
    show watch.received ++ watch.world.main.machine.panel.pending ++ [] = before ++ watch.world.main.history.accepted
    rw [accepted, ← List.append_assoc, ← whole]
    simp [Panel.pending, put, sink, Line.put]

theorem receive_passed (watch : Watch) (passed : watch.Passed before) : (watch.act (.task .receive)).Passed before := by
  obtain ⟨lost, whole, open?⟩ := passed
  have beside := World.act_beside watch.world (.task .receive) nofun
  refine ⟨lost, ?_, fun somebody => open? (beside.delivers somebody)⟩
  have accepted : (watch.act (.task .receive)).world.history.accepted = watch.world.history.accepted := beside.accepted
  rw [accepted, ← whole]
  refine congrArg (· ++ lost) ?_
  show (watch.received ++ (watch.world.machine.panel.sink.bind fun line => line.take.1.char?).toList) ++
    watch.world.receive.machine.panel.pending = _
  rw [List.append_assoc]
  refine congrArg (watch.received ++ ·) ?_
  unfold World.receive Panel.pending
  cases sink : watch.world.machine.panel.sink with
  | none =>
      dsimp only
      rw [sink]
      rfl
  | some line => exact Panel.line_take_waiting line

theorem drop_passed (watch : Watch) (passed : watch.Passed before) : (watch.act .dropOutput).Passed before := by
  obtain ⟨lost, whole, -⟩ := passed
  refine ⟨watch.world.machine.panel.pending ++ lost, ?_, fun somebody => ?_⟩
  · rw [← List.append_assoc]
    have gone : (watch.act .dropOutput).world.machine.panel.pending = [] := by
      simp only [act, World.act, Machine.closeReceiver, Panel.pending]
      cases watch.world.machine.panel.sink <;> rfl
    rw [gone, List.append_nil]
    exact whole
  · simp only [act, World.act, Machine.closeReceiver, Panel.delivers] at somebody
    cases sink : watch.world.machine.panel.sink <;> rw [sink] at somebody <;> cases somebody

theorem act_passed (watch : Watch) (action : Action) (passed : watch.Passed before) :
    (watch.act action).Passed before := by
  have beside (other : action ≠ .task .main) : watch.world.Beside (watch.act action).world :=
    act_world watch action ▸ World.act_beside watch.world action other
  have same (other : action ≠ .task .main) (received : (watch.act action).received = watch.received)
      (pending : (watch.act action).world.machine.panel.pending = watch.world.machine.panel.pending) :
      (watch.act action).Passed before := passed_same watch _ passed received pending (beside other)
  cases action with
  | task task =>
      cases task with
      | main => exact main_passed watch passed
      | receive => exact receive_passed watch passed
      | drain => exact same (by rintro ⟨⟩) rfl (World.drain_pending watch.world)
      | send => exact same (by rintro ⟨⟩) rfl (World.send_pending watch.world)
      | listen =>
          refine same (by rintro ⟨⟩) rfl ?_
          simp only [act, World.act, World.perform, Machine.awaitOutput, Panel.pending]
          cases watch.world.machine.panel.sink <;> rfl
  | dropOutput => exact drop_passed watch passed
  | _ => exact same (by rintro ⟨⟩) rfl (World.host_pending watch.world _ (by rintro task ⟨⟩) (by rintro ⟨⟩))

theorem run_passed (watch : Watch) (actions : List Action) (passed : watch.Passed before) :
    (watch.run actions).Passed before := by
  induction actions generalizing watch with
  | nil => exact passed
  | cons action rest ih => exact ih (watch.act action) (act_passed watch action passed)

end Watch

namespace World

/-- Each attempt hands over what it is to print, in order, and breaks off only when it is interrupted, with the core as
it was, or when there is nobody left to take it. Nothing else is accepted, and nothing ever after that. -/
theorem output_is_delivered (machine : Machine) (text : List Char) (hangsUp : Bool) (tokens : List Token)
    (actions : List Action) :
    let start : World := { machine, unsent := text, hangsUp, tokens }
    let watch := Watch.run { world := start } actions
    let panel := watch.world.machine.panel
    let accepted := watch.world.history.accepted
    watch.world = start.run actions ∧
      accepted = watch.ledger.all.flatMap Delivery.sent ∧
      watch.world.history.looked = watch.ledger.all.map Delivery.core ∧
      (∀ delivery ∈ watch.ledger.all, delivery.Exact) ∧
      (∀ delivery ∈ watch.ledger.all, delivery ∈ watch.ledger.past ∨ watch.world.call.finished = true →
        delivery.closing.isSome = true ∨ Instruction.decode delivery.core.word = .ok (.trap .getc)) ∧
      (∀ before after, actions = before ++ after → (start.run before).machine.panel.delivers = false →
        accepted = (start.run before).history.accepted) ∧
      watch.received <+: machine.panel.pending ++ accepted ∧
      (panel.delivers = true → watch.received ++ panel.pending = machine.panel.pending ++ accepted) := by
  intro start watch panel accepted
  -- the ledger closes each attempt in the turn that ends it
  have sound : watch.Sound := Watch.run_sound { world := start } actions ⟨rfl, rfl, nofun, nofun⟩
  obtain ⟨lost, whole, open?⟩ : watch.Passed machine.panel.pending :=
    Watch.run_passed { world := start } actions ⟨[], by simp [start], fun _ => rfl⟩
  have same : watch.world = start.run actions := Watch.run_world { world := start } actions
  refine ⟨same, sound.accepted, sound.looked, Watch.sound_exact watch sound, fun delivery member concluded => ?_,
    fun before after split nobody => ?_, ⟨panel.pending ++ lost, ?_⟩, fun somebody => ?_⟩
  · have settled := Watch.sound_settled watch sound delivery member concluded
    cases closing : delivery.closing with
    | none => exact .inr (settled.concluded closing)
    | some closing => exact .inl rfl
  · show watch.world.history.accepted = _
    rw [same, split, run, List.foldl_append]
    exact run_undelivered (start.run before) after nobody
  · rw [← List.append_assoc]
    exact whole
  · rw [open? somebody, List.append_nil] at whole
    exact whole

end World

end LittleComputer
