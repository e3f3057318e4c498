import LittleComputer.Console.Script
import LittleComputer.Proofs.Cancellation
import LittleComputer.Proofs.Strings

set_option autoImplicit false

namespace LittleComputer

def Memory.collect (memory : Memory) : Nat → Word → List UInt8 → Option (List UInt8)
  | 0, _, _ => none
  | turns + 1, address, bytes =>
      if memory.read address = 0 then some bytes
      else memory.collect turns (address + 1) (bytes ++ [(memory.read address).lowByte])

theorem Memory.collect_within (memory : Memory) (turns : Nat) (address : Word) (bytes : List UInt8) :
    memory.collect turns address bytes =
      (memory.stringWithin turns address).map fun string => bytes ++ string.map Word.lowByte := by
  induction turns generalizing address bytes with
  | zero => rfl
  | succ turns ih =>
      by_cases zero : memory.read address = 0
      · simp [collect, stringWithin, zero]
      · simp only [collect, stringWithin, if_neg zero, ih, Option.map_map]
        congr 1
        funext string
        simp

namespace Core

def collected (core : Core) (turns : Nat) : Service → Option (List UInt8)
  | .out => some [core.r0.lowByte]
  | .puts => core.memory.collect turns core.r0 []
  | .getc => some []
  | .halt => some []

def Stops (core : Core) (service : Service) : Prop :=
  service = .puts → ∃ address, core.memory.read address = 0

theorem collected_puts (core : Core) (turns : Nat) (bytes : List UInt8) :
    core.collected turns .puts = some bytes ↔
      ∃ count, count < turns ∧ core.memory.EndsAt core.r0 count ∧
        bytes = (core.memory.words core.r0 count).map Word.lowByte := by
  simp only [collected, Memory.collect_within, List.nil_append, Option.map_eq_some_iff, Memory.string_within_iff]
  constructor
  · intro found
    obtain ⟨string, ⟨count, within, ends, rfl⟩, rfl⟩ := found
    exact ⟨count, within, ends, rfl⟩
  · intro found
    obtain ⟨count, within, ends, rfl⟩ := found
    exact ⟨_, ⟨count, within, ends, rfl⟩, rfl⟩

theorem collected_stops (core : Core) (service : Service) (turns : Nat) (bytes : List UInt8)
    (found : core.collected turns service = some bytes) : core.Stops service := by
  intro puts
  subst puts
  obtain ⟨count, -, ends, -⟩ := (core.collected_puts turns bytes).mp found
  exact ⟨_, ends.zero⟩

theorem stops_collected (core : Core) (service : Service) (stops : core.Stops service) :
    ∃ bytes, core.collected Memory.size service = some bytes ∧ core.output? service = some bytes := by
  cases service with
  | puts =>
      obtain ⟨address, zero⟩ := stops rfl
      obtain ⟨count, bound, ends⟩ := Memory.zero_ends core.memory core.r0 address zero
      refine ⟨_, (core.collected_puts Memory.size _).mpr ⟨count, bound, ends, rfl⟩, ?_⟩
      rw [output?, Memory.string_ends core.memory core.r0 count ends]
      rfl
  | _ => exact ⟨_, rfl, rfl⟩

theorem output_stops (core : Core) (service : Service) : core.output? service ≠ none ↔ core.Stops service := by
  constructor
  · intro some puts
    subst puts
    obtain ⟨bytes, output⟩ := Option.ne_none_iff_exists'.mp some
    obtain ⟨string, found, -⟩ := Option.map_eq_some_iff.mp output
    obtain ⟨count, -, ends, -⟩ := (Memory.string_within_iff core.memory Memory.size core.r0 string).mp found
    exact ⟨_, ends.zero⟩
  · intro stops
    obtain ⟨bytes, -, output⟩ := core.stops_collected service stops
    rw [output]
    exact Option.some_ne_none bytes

theorem step_answers {σ : Type} (console : Console σ) (core : Core) (service : Service) (state : σ)
    (decoded : Instruction.decode core.word = .ok (.trap service)) :
    (core.step console state).1 ≠ none ↔ core.Stops service :=
  (step_outputs console core service state decoded).trans (output_stops core service)

end Core

theorem Attempt.prospect_ends (machine : Machine) (service : Service)
    (decoded : Instruction.decode machine.core.word = .ok (.trap service)) :
    Attempt.prospect machine ≠ .endless ↔ machine.core.Stops service := by
  rw [← Core.output_stops, Attempt.prospect_trap machine service decoded]
  cases service with
  | getc =>
      by_cases empty : machine.panel.keyboard.queue.isEmpty <;> simp [empty, Core.output?]
  | puts => cases output : machine.core.output? .puts <;> simp [output]
  | _ => simp [Core.output?]

namespace Execution

inductive Leaving (core : Core) : Phase → Core → Nat → Prop where
  | looks : Leaving core (.attempt .look) core 5
  | awaits (other : Core) : Leaving core (.attempt .await) other 4
  | hands (rest : List Char) : Leaving core (.attempt (.handOver rest)) core 4
  | executes : Leaving core (.attempt .execute) core 3
  | done (result : Except Fault Outcome) (other : Core) : Leaving core (.attempt (.done result)) other 2
  | checks (other : Core) : Leaving core .check other 1
  | stops (ending : Ending) (other : Core) : Leaving core (.stopping ending) other 0
  | ended (ending : Ending) (other : Core) : Leaving core (.ended ending) other 0

inductive Scanning (core : Core) : Phase → Core → Prop where
  | looks : Scanning core (.attempt .look) core
  | endless (other : Core) : Scanning core (.attempt .endless) other

def LeavingWithin (core : Core) (turns : Nat) (phase : Phase) (other : Core) : Prop :=
  ∃ less, less ≤ turns ∧ Leaving core phase other less

variable {core : Core}

theorem leaving_loops (token : Token) (execution : Execution) (drain : Drain) (other : Core)
    (leaving : Leaving core execution.phase other 0) : (Call.run (.active token execution drain)).loops = false := by
  cases execution
  cases leaving <;> rfl

theorem scanning_loops (token : Token) (execution : Execution) (drain : Drain) (other : Core)
    (scanning : Scanning core execution.phase other) : (Call.run (.active token execution drain)).loops = true := by
  cases execution
  cases scanning <;> rfl

theorem conclude_leaves (steps : Nat) (result : Except Fault Outcome) (machine : Machine) :
    ∃ less, less ≤ 1 ∧
      Leaving core (conclude steps result machine).2.phase (conclude steps result machine).1.core less := by
  cases result with
  | error fault =>
      rw [conclude]
      cases machine.config.policy with
      | halt => exact ⟨0, Nat.zero_le 1, .stops _ _⟩
      | «continue» => exact ⟨1, Nat.le_refl 1, .checks _⟩
  | ok outcome =>
      cases outcome with
      | retired => exact ⟨1, Nat.le_refl 1, .checks _⟩
      | halted => exact ⟨0, Nat.zero_le 1, .stops _ _⟩
      | interrupted => exact ⟨0, Nat.zero_le 1, .stops _ _⟩
      | inputClosed => exact ⟨0, Nat.zero_le 1, .stops _ _⟩

theorem prospect_leaves (machine : Machine) (ends : Attempt.prospect machine ≠ .endless) :
    ∃ less, less ≤ 4 ∧ Leaving machine.core (.attempt (Attempt.prospect machine)) machine.core less := by
  obtain executes | endless | ⟨awaits, -⟩ | ⟨text, hands, -⟩ := Attempt.prospect_cases machine
  · rw [executes]
    exact ⟨3, by decide, .executes⟩
  · exact absurd endless ends
  · rw [awaits]
    exact ⟨4, Nat.le_refl 4, .awaits _⟩
  · rw [hands]
    exact ⟨4, Nat.le_refl 4, .hands text⟩

theorem handing_over_fired (token : Token) (panel : Panel) (rest : List Char) (fired : panel.isFired token = true) :
    Attempt.handingOver token panel rest = .execute ∨
      Attempt.handingOver token panel rest = .done (.ok .interrupted) := by
  cases rest with
  | nil => exact .inl rfl
  | cons char left =>
      cases sink : panel.sink with
      | none => exact .inl (by simp [Attempt.handingOver, sink])
      | some line => exact .inr (by simp [Attempt.handingOver, sink, fired])

theorem executing_answers (token : Token) (machine : Machine)
    (answers : ∀ console : Console Panel, (machine.core.step console machine.panel).1 ≠ none) :
    ∃ result, (Attempt.executing token machine).2 = .done result := by
  obtain ⟨result, answer⟩ := Option.ne_none_iff_exists'.mp (answers (Panel.console token))
  refine ⟨result, ?_⟩
  rw [Attempt.executing]
  cases stepped : machine.core.step (Panel.console token) machine.panel with
  | mk first rest =>
      rw [stepped] at answer
      cases answer
      rfl

theorem turn_leaves (token : Token) (execution : Execution) (machine : Machine) (service : Service) (turns : Nat)
    (decoded : Instruction.decode core.word = .ok (.trap service)) (stops : core.Stops service)
    (fired : machine.panel.isFired token = true) (leaving : Leaving core execution.phase machine.core turns) :
    ∃ less, less ≤ turns - 1 ∧ Leaving core ((execution.turn token machine).2.getD execution).phase
      (execution.turn token machine).1.core less := by
  cases execution with
  | mk steps phase =>
      cases leaving with
      | looks => exact prospect_leaves machine ((Attempt.prospect_ends machine service decoded).mpr stops)
      | awaits other =>
          have cancelled : Attempt.awaiting token machine.panel = some (.done (.ok .interrupted)) := by
            simp [Attempt.awaiting, Keyboard.wait?, fired]
          refine ⟨2, by decide, ?_⟩
          simp only [turn, Attempt.turn, cancelled, Option.getD_some]
          exact .done _ _
      | hands rest =>
          simp only [turn, Attempt.turn, Option.getD_some]
          cases handing_over_fired token machine.panel rest fired with
          | inl executes =>
              rw [executes]
              exact ⟨3, Nat.le_refl 3, .executes⟩
          | inr interrupted =>
              rw [interrupted]
              exact ⟨2, by decide, .done _ _⟩
      | executes =>
          obtain ⟨result, done⟩ := executing_answers token machine fun console =>
            (Core.step_answers console machine.core service machine.panel decoded).mpr stops
          refine ⟨2, Nat.le_refl 2, ?_⟩
          simp only [turn, Attempt.turn, done, Option.getD_some]
          exact .done result _
      | done result other => exact conclude_leaves steps result machine
      | checks other =>
          refine ⟨0, Nat.le_refl 0, ?_⟩
          simp only [turn, fired, if_true, Option.getD_some]
          exact .stops _ _
      | stops ending other => exact ⟨0, Nat.le_refl 0, .ended _ _⟩
      | ended ending other => exact ⟨0, Nat.le_refl 0, .ended _ _⟩

theorem turn_scans (token : Token) (execution : Execution) (machine : Machine) (service : Service)
    (decoded : Instruction.decode core.word = .ok (.trap service)) (goes : ¬core.Stops service)
    (scanning : Scanning core execution.phase machine.core) :
    Scanning core ((execution.turn token machine).2.getD execution).phase (execution.turn token machine).1.core := by
  cases execution with
  | mk steps phase =>
      cases scanning with
      | looks =>
          have endless : Attempt.prospect machine = .endless := by
            by_contra ends
            exact goes ((Attempt.prospect_ends machine service decoded).mp ends)
          simp only [turn, Attempt.turn, endless, Option.getD_some]
          exact .endless _
      | endless other => exact .endless _

end Execution

namespace World

def Stands (token : Token) (place : Execution.Phase → Core → Prop) (world : World) : Prop :=
  ∃ execution drain, world.call = .run (.active token execution drain) ∧ place execution.phase world.machine.core

variable {token : Token} {place next : Execution.Phase → Core → Prop}

theorem stands_main (world : World)
    (turned : ∀ execution : Execution, place execution.phase world.machine.core →
      next ((execution.turn token world.machine).2.getD execution).phase (execution.turn token world.machine).1.core)
    (stands : world.Stands token place) :
    world.main.Stands token next ∨
      ∃ ending report, place (.ended ending) world.machine.core ∧ world.main.call = .run (.returned report) := by
  obtain ⟨execution, drain, called, placed⟩ := stands
  cases active_main world execution drain called with
  | returns steps ending linked past drained turns =>
      rw [past] at placed
      rw [turns]
      exact .inr ⟨ending, _, placed, rfl⟩
  | executes apart turns =>
      rw [turns]
      exact .inl ⟨_, drain, rfl, turned execution placed⟩

theorem stands_beside (world : World) (action : Action) (other : action ≠ .task .main) (alone : ¬Calls action)
    (stands : world.Stands token place) : (world.act action).Stands token place := by
  obtain ⟨execution, drain, called, placed⟩ := stands
  have core := (act_quiet world action other).core
  cases (act_leaves world action other alone).call with
  | inl same => exact ⟨execution, drain, same.trans called, core ▸ placed⟩
  | inr drained =>
      obtain ⟨holder, running, before, later, active, goes⟩ := drained
      cases called.symm.trans active
      exact ⟨execution, later, goes, core ▸ placed⟩

theorem returned_beside (world : World) (action : Action) (other : action ≠ .task .main) (alone : ¬Calls action)
    (report : RunReport) (returned : world.call = .run (.returned report)) :
    (world.act action).call = .run (.returned report) := by
  cases (act_leaves world action other alone).call with
  | inl same => exact same.trans returned
  | inr drained =>
      obtain ⟨holder, running, before, later, active, -⟩ := drained
      cases returned.symm.trans active

theorem act_stands (world : World) (action : Action) (alone : ¬Calls action)
    (turned : ∀ execution : Execution, place execution.phase world.machine.core →
      next ((execution.turn token world.machine).2.getD execution).phase (execution.turn token world.machine).1.core)
    (stands : world.Stands token place ∨ ∃ report, world.call = .run (.returned report)) :
    (action = .task .main ∧ (world.act action).Stands token next) ∨
      (action ≠ .task .main ∧ (world.act action).Stands token place) ∨
      ∃ report, (world.act action).call = .run (.returned report) := by
  by_cases main : action = .task .main
  · subst main
    cases stands with
    | inl active =>
        cases stands_main world turned active with
        | inl later => exact .inl ⟨rfl, later⟩
        | inr returned =>
            obtain ⟨-, report, -, called⟩ := returned
            exact .inr (.inr ⟨report, called⟩)
    | inr returned =>
        obtain ⟨report, called⟩ := returned
        exact .inr (.inr ⟨report, (congrArg World.call (returned_main world report called)).trans called⟩)
  · cases stands with
    | inl active => exact .inr (.inl ⟨main, stands_beside world action main alone active⟩)
    | inr returned =>
        obtain ⟨report, called⟩ := returned
        exact .inr (.inr ⟨report, returned_beside world action main alone report called⟩)

theorem act_fired (world : World) (action : Action) (fired : world.machine.panel.isFired token = true) :
    (world.act action).machine.panel.isFired token = true := by
  by_cases main : action = .task .main
  · subst main
    exact main_fired world token fired
  · exact (act_beside world action main).fired token fired

variable {core : Core}

theorem run_leaves (world : World) (actions : List Action) (service : Service) (turns : Nat)
    (decoded : Instruction.decode core.word = .ok (.trap service)) (stops : core.Stops service)
    (fired : world.machine.panel.isFired token = true) (alone : ∀ action ∈ actions, ¬Calls action)
    (stands : world.Stands token (Execution.LeavingWithin core turns) ∨
      ∃ report, world.call = .run (.returned report)) :
    (world.run actions).Stands token (Execution.LeavingWithin core (turns - actions.count (.task .main))) ∨
      ∃ report, (world.run actions).call = .run (.returned report) := by
  induction actions generalizing world turns with
  | nil => exact stands
  | cons action rest ih =>
      have here := alone action List.mem_cons_self
      have later : ∀ action ∈ rest, ¬Calls action := fun other member => alone other (List.mem_cons_of_mem _ member)
      have still := act_fired world action fired
      have turned (execution : Execution)
          (placed : Execution.LeavingWithin core turns execution.phase world.machine.core) :
          Execution.LeavingWithin core (turns - 1) ((execution.turn token world.machine).2.getD execution).phase
            (execution.turn token world.machine).1.core := by
        obtain ⟨less, bound, leaving⟩ := placed
        obtain ⟨fewer, within, next⟩ :=
          Execution.turn_leaves token execution world.machine service less decoded stops fired leaving
        exact ⟨fewer, by omega, next⟩
      obtain ⟨rfl, moved⟩ | ⟨other, kept⟩ | returned := act_stands world action here turned stands
      · have counted := ih (world.act (.task .main)) (turns - 1) still later (.inl moved)
        rw [List.count_cons_self, Nat.add_comm, Nat.sub_add_eq]
        exact counted
      · rw [List.count_cons_of_ne other]
        exact ih (world.act action) turns still later (.inl kept)
      · have counted := ih (world.act action) (turns - (action :: rest).count (.task .main) + rest.count (.task .main))
          still later (.inr returned)
        rw [Nat.add_sub_cancel] at counted
        exact counted

theorem run_scans (world : World) (actions : List Action) (service : Service)
    (decoded : Instruction.decode core.word = .ok (.trap service)) (goes : ¬core.Stops service)
    (alone : ∀ action ∈ actions, ¬Calls action) (scanning : world.Stands token (Execution.Scanning core)) :
    (world.run actions).Stands token (Execution.Scanning core) := by
  induction actions generalizing world with
  | nil => exact scanning
  | cons action rest ih =>
      have here := alone action List.mem_cons_self
      refine ih (world.act action) (fun other member => alone other (List.mem_cons_of_mem _ member)) ?_
      by_cases main : action = .task .main
      · subst main
        have turned (execution : Execution) := Execution.turn_scans token execution world.machine service decoded goes
        cases stands_main world turned scanning with
        | inl later => exact later
        | inr returned =>
            obtain ⟨ending, report, placed, -⟩ := returned
            cases placed
      · exact stands_beside world action main here scanning

theorem fired_run_leaves (world : World) (service : Service) (steps : Nat) (drain : Drain) (actions : List Action)
    (decoded : Instruction.decode world.machine.core.word = .ok (.trap service))
    (looks : world.call = .run (.active token ⟨steps, .attempt .look⟩ drain))
    (fired : world.machine.panel.isFired token = true) (alone : ∀ action ∈ actions, ¬Calls action)
    (enough : 5 ≤ actions.count (.task .main)) :
    (world.run actions).call.loops = false ↔ world.machine.core.Stops service := by
  constructor
  · intro left
    by_contra goes
    obtain ⟨execution, drain, called, scanning⟩ :=
      run_scans world actions service decoded goes alone ⟨_, drain, looks, .looks⟩
    rw [called, Execution.scanning_loops token execution drain _ scanning] at left
    cases left
  · intro stops
    have within : world.Stands token (Execution.LeavingWithin world.machine.core 5) :=
      ⟨_, drain, looks, 5, Nat.le_refl 5, .looks⟩
    cases run_leaves world actions service 5 decoded stops fired alone (.inl within) with
    | inl active =>
        obtain ⟨execution, drain, called, less, bound, leaving⟩ := active
        obtain rfl : less = 0 := by omega
        rw [called]
        exact Execution.leaving_loops token execution drain _ leaving
    | inr returned =>
        obtain ⟨report, called⟩ := returned
        rw [called]
        rfl

end World

/-- An output routine has its bytes after one word for each address at most, and is over for its console, for the look
that a call takes at it beforehand and for a run that is to be cancelled, unless it is a PUTS without a zero word. -/
theorem output_ends_iff (core : Core) (service : Service) :
    ((∃ turns bytes, core.collected turns service = some bytes) ↔ core.Stops service) ∧
      (core.Stops service →
        ∃ bytes, core.collected 65536 service = some bytes ∧ core.output? service = some bytes) ∧
      (Instruction.decode core.word = .ok (.trap service) →
        (∀ (σ : Type) (console : Console σ) (state : σ), (core.step console state).1 ≠ none ↔ core.Stops service) ∧
          (∀ machine : Machine, machine.core = core →
            (Attempt.prospect machine ≠ .endless ↔ core.Stops service)) ∧
          ∀ (token : Token) (world : World) (steps : Nat) (drain : Drain) (actions : List Action),
            world.machine.core = core → world.call = .run (.active token ⟨steps, .attempt .look⟩ drain) →
            world.machine.panel.isFired token = true → (∀ action ∈ actions, ¬World.Calls action) →
            5 ≤ actions.count (.task .main) →
            ((world.run actions).call.loops = false ↔ core.Stops service)) := by
  refine ⟨⟨?_, ?_⟩, core.stops_collected service, ?_⟩
  · intro found
    obtain ⟨turns, bytes, collected⟩ := found
    exact core.collected_stops service turns bytes collected
  · intro stops
    obtain ⟨bytes, collected, -⟩ := core.stops_collected service stops
    exact ⟨_, bytes, collected⟩
  · intro decoded
    refine ⟨?_, ?_, ?_⟩
    · intro σ console state
      exact Core.step_answers console core service state decoded
    · intro machine same
      subst same
      exact Attempt.prospect_ends machine service decoded
    · intro token world steps drain actions same looks fired alone enough
      subst same
      exact World.fired_run_leaves world service steps drain actions decoded looks fired alone enough

def collecting : World where
  machine :=
    { core := { memory := (Memory.filled 0xF022).write 0xFFFF 0 }
      panel := { signals := { fired := [⟨0⟩] } } }
  call := .run (.active ⟨0⟩ ⟨0, .attempt .look⟩ .idle)

theorem output_ends_iff_collecting :
    (collecting.run (List.replicate 5 (.task .main))).call.loops = false := by
  have cell (address : Word) :
      collecting.machine.core.memory.read address = if 0xFFFF = address then 0 else 0xF022 := by
    simp only [collecting, Memory.read_write, Memory.read_filled]
  have decoded : Instruction.decode collecting.machine.core.word = .ok (.trap .puts) := by
    rw [Core.word, cell]
    rfl
  have alone : ∀ action ∈ List.replicate 5 (Action.task .main), ¬World.Calls action := by
    intro action member
    rw [List.eq_of_mem_replicate member]
    simp [World.Calls]
  obtain ⟨-, -, traps⟩ := output_ends_iff collecting.machine.core .puts
  obtain ⟨-, -, leaves⟩ := traps decoded
  exact (leaves ⟨0⟩ collecting 0 .idle _ rfl rfl rfl alone (by decide)).mpr fun _ => ⟨0xFFFF, cell 0xFFFF⟩

def crammed : Core := { memory := .filled 0xF022 }

theorem crammed_never_ends :
    (∀ turns, crammed.collected turns .puts = none) ∧ (crammed.step Script.console {}).1 = none := by
  have goes : ¬crammed.Stops .puts := by
    intro stops
    obtain ⟨address, zero⟩ := stops rfl
    rw [crammed, Memory.read_filled] at zero
    cases zero
  have decoded : Instruction.decode crammed.word = .ok (.trap .puts) := by
    rw [Core.word, crammed, Memory.read_filled]
    rfl
  constructor
  · intro turns
    cases found : crammed.collected turns .puts with
    | none => rfl
    | some bytes => exact absurd (crammed.collected_stops .puts turns bytes found) goes
  · by_contra answers
    exact goes ((Core.step_answers Script.console crammed .puts {} decoded).mp answers)

end LittleComputer
