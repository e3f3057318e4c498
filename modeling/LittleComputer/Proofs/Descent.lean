import LittleComputer.Proofs.Moves
import LittleComputer.Proofs.StepCall

set_option autoImplicit false

namespace LittleComputer

-- A system that comes to rest: no turn raises the rank, one that does not lower it changes nothing, and until the end
-- some turn does lower it.
structure Descends {State Turn : Type} (perform : State → Turn → State) (Due : Nat → State → Prop)
    (Final : State → Prop) : Prop where
  lowers : ∀ rank state turn, Due rank state →
    perform state turn = state ∨ ∃ less, less < rank ∧ Due less (perform state turn)
  goes : ∀ rank state, Due rank state → Final state ∨ ∃ turn less, less < rank ∧ Due less (perform state turn)
  stays : ∀ state turn, Final state → Final (perform state turn)

def Fair {Turn : Type} (rounds : Nat) (turns : List Turn) : Prop :=
  ∃ parts : List (List Turn), rounds ≤ parts.length ∧ turns = parts.flatten ∧ ∀ part ∈ parts, ∀ turn, turn ∈ part

section
variable {State Turn : Type} {perform : State → Turn → State} {Due : Nat → State → Prop} {Final : State → Prop}

theorem descends_turns (descends : Descends perform Due Final) (turns : List Turn) (rank : Nat) (state : State)
    (due : Due rank state) :
    turns.foldl perform state = state ∨ ∃ less, less < rank ∧ Due less (turns.foldl perform state) := by
  induction turns generalizing rank state with
  | nil => exact .inl rfl
  | cons turn rest ih =>
      rw [List.foldl_cons]
      obtain same | ⟨less, lower, later⟩ := descends.lowers rank state turn due
      · rw [same]
        exact ih rank state due
      · refine .inr ?_
        obtain same | ⟨least, lowest, last⟩ := ih less (perform state turn) later
        · rw [same]
          exact ⟨less, lower, later⟩
        · exact ⟨least, Nat.lt_trans lowest lower, last⟩

theorem descends_final (descends : Descends perform Due Final) (turns : List Turn) (state : State)
    (final : Final state) : Final (turns.foldl perform state) := by
  induction turns generalizing state with
  | nil => exact final
  | cons turn rest ih => exact ih _ (descends.stays state turn final)

theorem descends_round (descends : Descends perform Due Final) (turns : List Turn) (everyone : ∀ turn, turn ∈ turns)
    (rank : Nat) (state : State) (due : Due rank state) :
    Final (turns.foldl perform state) ∨ ∃ less, less < rank ∧ Due less (turns.foldl perform state) := by
  obtain final | ⟨turn, less, lower, later⟩ := descends.goes rank state due
  · exact .inl (descends_final descends turns state final)
  · obtain ⟨before, after, rfl⟩ := List.append_of_mem (everyone turn)
    rw [List.foldl_append, List.foldl_cons]
    refine .inr ?_
    -- the turn that lowers the rank does so still, unless the rank is lower already
    have reached : ∃ less, less < rank ∧ Due less (perform (before.foldl perform state) turn) := by
      obtain same | ⟨earlier, lowered, before⟩ := descends_turns descends before rank state due
      · rw [same]
        exact ⟨less, lower, later⟩
      · obtain same | ⟨least, lowest, last⟩ := descends.lowers earlier _ turn before
        · rw [same]
          exact ⟨earlier, lowered, before⟩
        · exact ⟨least, Nat.lt_trans lowest lowered, last⟩
    obtain ⟨middle, lowered, due⟩ := reached
    obtain same | ⟨least, lowest, last⟩ := descends_turns descends after middle _ due
    · rw [same]
      exact ⟨middle, lowered, due⟩
    · exact ⟨least, Nat.lt_trans lowest lowered, last⟩

theorem descends_fair (descends : Descends perform Due Final) (turns : List Turn) (rounds rank : Nat) (state : State)
    (due : Due rank state) (fair : Fair rounds turns) (enough : rank < rounds) : Final (turns.foldl perform state) := by
  obtain ⟨parts, counted, rfl, everyone⟩ := fair
  replace enough : rank < parts.length := Nat.lt_of_lt_of_le enough counted
  clear counted
  induction parts generalizing rank state with
  | nil => exact absurd enough (Nat.not_lt_zero rank)
  | cons part rest ih =>
      rw [List.flatten_cons, List.foldl_append]
      obtain final | ⟨less, lower, later⟩ :=
        descends_round descends part (everyone part List.mem_cons_self) rank state due
      · exact descends_final descends rest.flatten _ final
      · rw [List.length_cons] at enough
        exact ih less _ later (fun other member => everyone other (List.mem_cons_of_mem part member)) (by omega)

end

namespace Solo

variable {setting : Setting}

theorem path_after (number more : Nat) (solo middle later : Solo) (first : Path setting solo number middle)
    (whole : Path setting solo (number + more) later) : Path setting middle more later := by
  induction more generalizing later with
  | zero =>
      rw [path_unique number middle later first whole]
      exact .start
  | succ more ih =>
      cases whole with
      | goes _ before _ path next => exact .goes more before later (ih before path) next

theorem path_append (number more : Nat) (solo middle later : Solo) (first : Path setting solo number middle)
    (second : Path setting middle more later) : Path setting solo (number + more) later := by
  induction second with
  | start => exact first
  | goes more before later path next ih => exact .goes (number + more) before later ih next

structure Finishes (setting : Setting) (solo : Solo) (count : Nat) (ending : Ending) (last : Solo) : Prop where
  ends : ∃ final, Path setting solo count final ∧ final.next? setting = some (.ends ending last)
  quiet : ∀ number state, Path setting solo number state → ¬state.core.ReadsDevice

variable {count : Nat} {ending : Ending} {last : Solo}

theorem finishes_after (number : Nat) (solo later : Solo) (finishes : solo.Finishes setting count ending last)
    (path : Path setting solo number later) :
    ∃ less, count = number + less ∧ later.Finishes setting less ending last := by
  obtain ⟨final, whole, ends⟩ := finishes.ends
  obtain ⟨less, rfl⟩ := Nat.exists_eq_add_of_le (path_bounded count number final last later ending whole ends path)
  exact ⟨less, rfl, ⟨final, path_after number less solo later final path whole, ends⟩,
    fun more state rest => finishes.quiet _ state (path_append number more solo later state path rest)⟩

theorem finishes_answers (solo : Solo) (finishes : solo.Finishes setting count ending last) :
    solo.next? setting ≠ none := by
  obtain ⟨final, path, ends⟩ := finishes.ends
  cases count with
  | zero =>
      cases path
      rw [ends]
      nofun
  | succ count =>
      obtain ⟨first, later, begun, goes⟩ := path_goes (count + 1) 0 final path (Nat.succ_pos count)
      cases begun
      rw [goes]
      nofun

end Solo

namespace Attempt

def due (attempt : Attempt) (queue : Array Word) : Nat :=
  match attempt with
  | .await => if queue.isEmpty then 1 else turnsLeft .latch + 1
  | attempt => attempt.turnsLeft

theorem due_starved (attempt : Attempt) (machine : Machine) (starved : attempt.Starved machine) :
    attempt.due machine.panel.keyboard.queue = attempt.turnsLeft := by
  cases attempt with
  | await =>
      rw [starved rfl]
      rfl
  | _ => rfl

theorem turn_due (token : Token) (attempt next : Attempt) (machine later : Machine)
    (turned : attempt.turn token machine = (later, some next)) :
    next.due later.panel.keyboard.queue < attempt.due machine.panel.keyboard.queue := by
  by_cases starved : attempt.Starved machine
  · obtain ⟨closer, still⟩ := turn_approaches token attempt next machine later turned starved
    rw [due_starved next later still, due_starved attempt machine starved]
    exact closer
  · obtain ⟨rfl, queued⟩ := Classical.not_imp.mp starved
    have waits : due .await machine.panel.keyboard.queue = turnsLeft .latch + 1 := if_neg (by simpa using queued)
    rw [waits]
    obtain ⟨rfl, -⟩ | ⟨rfl, -⟩ | ⟨rfl, -⟩ := awaiting_cases token machine.panel next (congrArg Prod.snd turned)
    · exact Nat.lt_succ_self _
    · exact Nat.succ_pos _
    · exact Nat.succ_pos _

theorem due_queue (attempt : Attempt) (before after : Array Word) :
    attempt.due after ≤ attempt.due before + turnsLeft .latch := by
  cases attempt with
  | await =>
      unfold due
      dsimp only
      split <;> split <;> omega
  | _ => exact Nat.le_add_right _ _

theorem prospect_endless (token : Token) (machine : Machine) (endless : prospect machine = .endless) :
    Instruction.decode machine.core.word ≠ .ok (.trap .getc) ∧
      (machine.core.step (Panel.console token) machine.panel).1 = none := by
  obtain ⟨fault, decoded⟩ | ⟨service, decoded⟩ | ⟨instruction, decoded, plain⟩ := decode_cases machine.core.word
  · cases (prospect_fault machine fault decoded).symm.trans endless
  · have trapped := (prospect_trap machine service decoded).symm.trans endless
    cases service with
    | getc =>
        dsimp only at trapped
        split at trapped <;> cases trapped
    | halt => cases trapped
    | out => cases trapped
    | puts =>
        refine ⟨by rw [decoded]; nofun, ?_⟩
        dsimp only at trapped
        cases output : machine.core.output? .puts with
        | some bytes =>
            rw [output] at trapped
            cases trapped
        | none =>
            rw [Core.step_trap _ _ _ _ decoded]
            simp only [Core.serve, output]
  · cases (prospect_plain machine instruction decoded plain).symm.trans endless

theorem turn_endless (token : Token) (attempt : Attempt) (machine later : Machine)
    (turned : attempt.turn token machine = (later, some .endless)) :
    (attempt = .look ∧ Instruction.decode machine.core.word ≠ .ok (.trap .getc) ∨ attempt = .execute) ∧
      (machine.core.step (Panel.console token) machine.panel).1 = none := by
  have goes := congrArg Prod.snd turned
  cases attempt with
  | latch => cases goes
  | look =>
      obtain ⟨other, nothing⟩ := prospect_endless token machine (Option.some.inj goes)
      exact ⟨.inl ⟨rfl, other⟩, nothing⟩
  | await =>
      obtain ⟨same, -⟩ | ⟨same, -⟩ | ⟨same, -⟩ := awaiting_cases token machine.panel _ goes <;> cases same
  | handOver rest =>
      obtain same | ⟨same, -⟩ | ⟨char, left, -, same⟩ := handing_over_cases token machine.panel rest <;>
        cases same.symm.trans (Option.some.inj goes)
  | offer char rest =>
      obtain same | same | ⟨same, -⟩ := offering_goes token char rest machine.panel _ goes <;> cases same
  | execute =>
      refine ⟨.inr rfl, ?_⟩
      rw [turn_execute] at goes
      unfold executing at goes
      rcases stepped : machine.core.step (Panel.console token) machine.panel with ⟨_ | result, core, panel⟩
      · rfl
      · rw [stepped] at goes
        cases goes
  | endless => cases goes
  | done result => cases goes

-- What an attempt can wait for: a character to read, or room for one that it hands over.
inductive Waits (token : Token) (machine : Machine) : Attempt → Prop where
  | await (unfired : machine.panel.isFired token = false) (more : machine.panel.keyboard.closed = false) :
      Waits token machine .await
  | offer (char : Char) (rest : List Char) (refused : machine.panel.accepts char = false) :
      Waits token machine (.offer char rest)
  | endless : Waits token machine .endless
  | done (result : Except Fault Outcome) : Waits token machine (.done result)

theorem turn_blocked (token : Token) (attempt : Attempt) (machine : Machine)
    (blocked : (attempt.turn token machine).2 = none) : attempt.Waits token machine := by
  cases attempt with
  | latch => cases blocked
  | look => cases blocked
  | handOver rest => cases blocked
  | execute => cases blocked
  | endless => exact .endless
  | done result => exact .done result
  | await =>
      simp only [turn, awaiting, Keyboard.wait?] at blocked
      cases fired : machine.panel.isFired token with
      | true =>
          rw [fired] at blocked
          cases blocked
      | false =>
          refine .await fired ?_
          rw [fired] at blocked
          cases empty : machine.panel.keyboard.queue.isEmpty <;> cases closed : machine.panel.keyboard.closed <;>
            rw [empty, closed] at blocked <;> first | rfl | cases blocked
  | offer char rest =>
      refine .offer char rest ?_
      rw [turn_offer] at blocked
      obtain ⟨-, refused, -⟩ | ⟨-, refused, -⟩ | ⟨-, line, -, -, goes⟩ := offering_ways token char rest machine.panel
      · exact refused
      · exact refused
      · rw [goes] at blocked
        cases blocked

end Attempt

def Execution.Phase.due (phase : Execution.Phase) (queue : Array Word) : Nat :=
  match phase with
  | .check => Attempt.turnsLeft .latch + 4
  | .attempt current => current.due queue + 3
  | .stopping _ => 2
  | .ended _ => 1

def stride : Nat := Attempt.turnsLeft .latch + 5

namespace Execution

theorem due_queue (phase : Phase) (before after : Array Word) :
    phase.due after ≤ phase.due before + Attempt.turnsLeft .latch := by
  cases phase with
  | attempt attempt =>
      have grown := attempt.due_queue before after
      unfold Phase.due
      dsimp only
      omega
  | _ => exact Nat.le_add_right _ _

theorem turn_due (token : Token) (execution next : Execution) (machine later : Machine)
    (turned : execution.turn token machine = (later, some next)) :
    next.phase.due later.panel.keyboard.queue < execution.phase.due machine.panel.keyboard.queue ∨
      (next.phase = .check ∧ ∃ result, execution.phase = .attempt (.done result)) := by
  rcases execution with ⟨steps, phase⟩
  cases phase with
  | check =>
      cases turned
      left
      dsimp only
      cases machine.panel.isFired token with
      | true => exact Nat.lt_of_lt_of_le (by decide : 2 < 4) (Nat.le_add_left 4 (Attempt.turnsLeft .latch))
      | false => exact Nat.lt_succ_self (Attempt.turnsLeft .latch + 3)
  | stopping ending =>
      cases turned
      exact .inl (Nat.lt_succ_self 1)
  | ended ending => cases turned
  | attempt attempt =>
      by_cases finished : ∃ result, attempt = .done result
      · obtain ⟨result, rfl⟩ := finished
        have concludes := conclude_phase steps result machine
        have same : conclude steps result machine = (later, next) := by
          cases turned
          rfl
        rw [same] at concludes
        obtain check | ⟨ending, stopping⟩ := concludes
        · exact .inr ⟨check, result, rfl⟩
        · left
          dsimp only at stopping
          rw [stopping]
          exact Nat.lt_succ_self 2
      · have goes := Call.execution_turn_attempt token steps attempt machine fun result same => finished ⟨result, same⟩
        rw [goes] at turned
        rcases step : attempt.turn token machine with ⟨after, _ | further⟩ <;> rw [step] at turned <;> cases turned
        exact .inl (Nat.add_lt_add_right (Attempt.turn_due token attempt further machine _ step) 3)

theorem turn_endless (token : Token) (execution next : Execution) (machine later : Machine)
    (turned : execution.turn token machine = (later, some next)) (endless : next.phase = .attempt .endless) :
    (execution.phase = .attempt .look ∧ Instruction.decode machine.core.word ≠ .ok (.trap .getc) ∨
        execution.phase = .attempt .execute) ∧
      (machine.core.step (Panel.console token) machine.panel).1 = none := by
  rcases execution with ⟨steps, phase⟩
  cases phase with
  | check =>
      cases turned
      cases fired : machine.panel.isFired token <;> rw [fired] at endless <;> cases endless
  | stopping ending =>
      cases turned
      cases endless
  | ended ending => cases turned
  | attempt attempt =>
      obtain ⟨result, rfl⟩ | goes := Call.execution_turn_cases token steps attempt machine
      · have same : conclude steps result machine = (later, next) := by
          cases turned
          rfl
        have concludes := conclude_phase steps result machine
        rw [same] at concludes
        obtain check | ⟨ending, stopping⟩ := concludes
        · cases endless.symm.trans check
        · cases endless.symm.trans stopping
      · rw [goes] at turned
        rcases step : attempt.turn token machine with ⟨after, _ | further⟩ <;> rw [step] at turned <;> cases turned
        cases endless
        obtain ⟨⟨rfl, other⟩ | rfl, nothing⟩ := attempt.turn_endless token machine _ step
        · exact ⟨.inl ⟨rfl, other⟩, nothing⟩
        · exact ⟨.inr rfl, nothing⟩

theorem turn_blocked (token : Token) (execution : Execution) (machine : Machine)
    (blocked : (execution.turn token machine).2 = none) :
    (∃ ending, execution.phase = .ended ending) ∨
      ∃ attempt, execution.phase = .attempt attempt ∧ (∀ result, attempt ≠ .done result) ∧
        attempt.Waits token machine := by
  rcases execution with ⟨steps, phase⟩
  cases phase with
  | check => cases blocked
  | stopping ending => cases blocked
  | ended ending => exact .inl ⟨ending, rfl⟩
  | attempt attempt =>
      by_cases finished : ∃ result, attempt = .done result
      · obtain ⟨result, rfl⟩ := finished
        cases blocked
      · have goes (result : Except Fault Outcome) : attempt ≠ .done result := fun same => finished ⟨result, same⟩
        rw [Call.execution_turn_attempt token steps attempt machine goes] at blocked
        exact .inr ⟨attempt, rfl, goes, attempt.turn_blocked token machine (Option.map_eq_none_iff.mp blocked)⟩

theorem turn_untouched (token : Token) (execution : Execution) (machine : Machine) :
    machine.Untouched (execution.turn token machine).1 := by
  rcases execution with ⟨steps, phase⟩
  cases phase with
  | attempt attempt =>
      obtain ⟨result, rfl⟩ | goes := Call.execution_turn_cases token steps attempt machine
      · obtain ⟨panel, config⟩ := Call.conclude_keeps steps result machine
        exact ⟨congrArg Panel.source panel, congrArg (·.keyboard.closed) panel, config⟩
      · rw [goes]
        exact (attempt.turn_keeps token machine).1
  | _ => exact ⟨rfl, rfl, rfl⟩

end Execution

theorem Line.take_ways (line : Line) :
    (∃ char, 0 < line.waiting.size ∧ line.take = (.char char, { line with waiting := line.waiting.extract 1 })) ∨
      (line.waiting = #[] ∧ line.senderOpen = true ∧ line.take = (.empty, line)) ∨
      (line.waiting = #[] ∧ line.senderOpen = false ∧ line.take = (.disconnected, line)) := by
  unfold take
  cases front : line.waiting[0]? with
  | some char =>
      rw [Array.getElem?_eq_some_iff] at front
      exact .inl ⟨char, front.1, rfl⟩
  | none =>
      have empty : line.waiting = #[] := by simpa using front
      cases line.senderOpen with
      | true => exact .inr (.inl ⟨empty, rfl, rfl⟩)
      | false => exact .inr (.inr ⟨empty, rfl, rfl⟩)

namespace Panel

def inbound (panel : Panel) : Nat := 3 * panel.channel.length + panel.hasSender.toNat

def outbound (panel : Panel) : Nat := panel.sink.elim 0 fun line => 2 * line.waiting.size + (!line.awaited).toNat

theorem take_char_ways (panel : Panel) :
    (∃ char left, panel.takeChar = (.char char, { panel with source := some left }) ∧
        inbound { panel with source := some left } + 3 = panel.inbound) ∨
      (panel.takeChar = (.empty, panel) ∧
        ∃ line, panel.source = some line ∧ line.waiting = #[] ∧ line.senderOpen = true) ∨
      panel.takeChar = (.disconnected, panel) := by
  rcases panel with ⟨mode, keyboard, source, taken, sink, slot, signals⟩
  cases source with
  | none => exact .inr (.inr rfl)
  | some line =>
      cases waiting : line.waiting.toList with
      | cons char rest =>
          obtain ⟨left, after, sender, takes⟩ := take_char_waiting
            ⟨mode, keyboard, some line, taken, sink, slot, signals⟩ line char rest rfl waiting
          refine .inl ⟨char, left, takes, ?_⟩
          simp only [inbound, channel, hasSender, Option.elim_some, Option.any_some, after, sender, waiting,
            List.length_cons]
          omega
      | nil =>
          have empty : line.waiting = #[] := by simpa using waiting
          cases open? : line.senderOpen with
          | true => exact .inr (.inl ⟨by simp [takeChar, Line.take, empty, open?], line, rfl, empty, open?⟩)
          | false => exact .inr (.inr (take_char_gone _ line rfl empty open?))

end Panel

namespace Drain

def due (drain : Drain) (fired : Bool) : Nat :=
  match drain with
  | .check => if fired then 1 else 4
  | .receive => if fired then 2 else 3
  | .queue _ => if fired then 2 else 5
  | .idle => if fired then 1 else 2
  | .ended _ => 0

theorem due_fired (drain : Drain) (before after : Bool) (fired : before = true → after = true) :
    drain.due after ≤ drain.due before := by
  cases before with
  | true => exact Nat.le_of_eq (congrArg drain.due (fired rfl))
  | false =>
      cases after with
      | false => exact Nat.le_refl _
      | true => cases drain <;> exact Nat.le_of_ble_eq_true rfl

structure Goes (token : Token) (drain next : Drain) (panel later : Panel) : Prop where
  lower : later.inbound + next.due (later.isFired token) < panel.inbound + drain.due (panel.isFired token)
  idle : next = .idle → later.keyboard.closed = true
  concluded : ∀ linked, next = .ended linked → later.isFired token = true

inductive Waits (token : Token) (drain : Drain) (panel : Panel) : Prop where
  | empty (line : Line) (receives : drain = .receive) (source : panel.source = some line) (nothing : line.waiting = #[])
      (more : line.senderOpen = true) (unfired : panel.isFired token = false)
  | idle (idles : drain = .idle) (unfired : panel.isFired token = false)
  | ended (linked : Bool) (concluded : drain = .ended linked)

theorem goes_busy (token : Token) (drain next : Drain) (panel later : Panel)
    (busy : next = .check ∨ next = .receive ∨ ∃ char, next = .queue char)
    (lower : later.inbound + next.due (later.isFired token) < panel.inbound + drain.due (panel.isFired token)) :
    drain.Goes token next panel later where
  lower := lower
  idle idle := by obtain rfl | rfl | ⟨char, rfl⟩ := busy <;> cases idle
  concluded linked concluded := by obtain rfl | rfl | ⟨char, rfl⟩ := busy <;> cases concluded

theorem goes_ended (token : Token) (drain : Drain) (panel : Panel) (linked : Bool)
    (fired : panel.isFired token = true) (lower : 0 < drain.due true) :
    drain.Goes token (.ended linked) panel panel where
  lower := by
    rw [fired]
    exact Nat.add_lt_add_left lower _
  idle idle := by cases idle
  concluded _ _ := fired

theorem turn_ways (token : Token) (drain : Drain) (panel : Panel) :
    (drain.turn token panel = (panel, none) ∧ drain.Waits token panel) ∨
      ∃ later next, drain.turn token panel = (later, some next) ∧ drain.Goes token next panel later := by
  cases drain with
  | check =>
      unfold turn
      cases fired : panel.isFired token with
      | true => exact .inr ⟨panel, .ended true, rfl, goes_ended _ _ _ _ fired Nat.one_pos⟩
      | false => exact .inr ⟨panel, .receive, rfl, goes_busy _ _ _ _ _ (.inr (.inl rfl)) (by simp [due, fired])⟩
  | receive =>
      unfold turn
      obtain ⟨char, left, takes, fewer⟩ | ⟨takes, line, source, nothing, more⟩ | takes := panel.take_char_ways
      · rw [takes]
        have same : Panel.isFired { panel with source := some left } token = panel.isFired token := rfl
        refine .inr ⟨_, .queue char, rfl, goes_busy _ _ _ _ _ (.inr (.inr ⟨char, rfl⟩)) ?_⟩
        rw [same]
        cases panel.isFired token <;> simp [due] <;> omega
      · rw [takes]
        cases fired : panel.isFired token with
        | true =>
            exact .inr ⟨panel, .check, by simp [fired], goes_busy _ _ _ _ _ (.inl rfl) (by simp [due, fired])⟩
        | false => exact .inl ⟨by simp [fired], .empty line rfl source nothing more fired⟩
      · rw [takes]
        have same : Panel.isFired (panel.dropSource.setClosed true) token = panel.isFired token := rfl
        refine .inr ⟨_, .idle, rfl, ?_, fun _ => rfl, fun linked concluded => by cases concluded⟩
        have nothing : (panel.dropSource.setClosed true).inbound = 0 := rfl
        rw [same, nothing]
        cases panel.isFired token <;> simp [due]
  | queue char =>
      have same : (panel.type char).isFired token = panel.isFired token := rfl
      have inbound : (panel.type char).inbound = panel.inbound := rfl
      refine .inr ⟨_, .check, rfl, goes_busy _ _ _ _ _ (.inl rfl) ?_⟩
      rw [same, inbound]
      cases panel.isFired token <;> simp [due]
  | idle =>
      unfold turn
      cases fired : panel.isFired token with
      | true => exact .inr ⟨panel, .ended false, rfl, goes_ended _ _ _ _ fired Nat.one_pos⟩
      | false => exact .inl ⟨rfl, .idle rfl fired⟩
  | ended linked => exact .inl ⟨rfl, .ended linked rfl⟩

end Drain

end LittleComputer
