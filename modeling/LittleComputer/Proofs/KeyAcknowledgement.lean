import LittleComputer.Console.Script
import LittleComputer.Proofs.InstructionCycle
import LittleComputer.Proofs.KeyboardLatch

set_option autoImplicit false

namespace LittleComputer.Core

variable {σ : Type}

instance (core : Core) : Decidable core.LoadsKey :=
  match decoded : Instruction.decode core.word with
  | .error _ => isFalse fun loads => by
      obtain ⟨instruction, other, -⟩ := loads
      rw [decoded] at other
      cases other
  | .ok instruction => decidable_of_iff (Address.keyboardData ∈ core.loads instruction) (by
      constructor
      · intro member
        exact ⟨instruction, decoded, member⟩
      · intro loads
        obtain ⟨other, same, member⟩ := loads
        cases decoded.symm.trans same
        exact member)

def ReadsLatchedKey (core : Core) : Prop := core.keyLatched = true ∧ core.LoadsKey

instance (core : Core) : Decidable core.ReadsLatchedKey := inferInstanceAs (Decidable (_ ∧ _))

def TakesChar (core : Core) (result : Option (Except Fault Outcome)) : Prop :=
  Instruction.decode core.word = .ok (.trap .getc) ∧ result = some (.ok .retired)

def Stores (core : Core) (address word : Word) : Prop :=
  ∃ instruction, Instruction.decode core.word = .ok instruction ∧ core.stores? instruction = some (address, word)

inductive Leaves (core : Core) (result : Option (Except Fault Outcome)) : Memory → Prop where
  | lowered (taken : core.ReadsLatchedKey ∨ core.TakesChar result) : Leaves core result core.unlatch.memory
  | stored (address word : Word) (stores : core.Stores address word) :
      Leaves core result (core.memory.write address word)
  | kept (deaf : ¬core.ReadsLatchedKey) (starved : ¬core.TakesChar result)
      (apart : ∀ address word, ¬core.Stores address word) : Leaves core result core.memory

structure Tends (core : Core) (result : Option (Except Fault Outcome)) (after : Core) (log : List Exchange) : Prop where
  acknowledged : log.count .acknowledge = if core.ReadsLatchedKey then 1 else 0
  settled : after.keyRead = false
  memory : core.Leaves result after.memory

theorem stores_loads_nothing (core : Core) (instruction : Instruction) (pair : Word × Word)
    (stores : core.stores? instruction = some pair) : core.loads instruction = [] := by
  cases instruction <;> first | rfl | cases stores

theorem stores_deaf (core : Core) (address word : Word) (stores : core.Stores address word) :
    ¬core.ReadsLatchedKey := by
  obtain ⟨instruction, decoded, stored⟩ := stores
  rintro ⟨-, other, same, loaded⟩
  cases decoded.symm.trans same
  rw [stores_loads_nothing core instruction _ stored] at loaded
  cases loaded

theorem stores_starved (core : Core) (address word : Word) (result : Option (Except Fault Outcome))
    (stores : core.Stores address word) : ¬core.TakesChar result := by
  obtain ⟨instruction, decoded, stored⟩ := stores
  rintro ⟨getc, -⟩
  cases decoded.symm.trans getc
  cases stored

theorem trap_deaf (core : Core) (service : Service) (decoded : Instruction.decode core.word = .ok (.trap service)) :
    ¬core.ReadsLatchedKey := by
  rintro ⟨-, instruction, same, loaded⟩
  cases decoded.symm.trans same
  cases loaded

theorem trap_apart (core : Core) (service : Service) (decoded : Instruction.decode core.word = .ok (.trap service))
    (address word : Word) : ¬core.Stores address word := by
  rintro ⟨instruction, same, stored⟩
  cases decoded.symm.trans same
  cases stored

theorem fault_tends (core : Core) (fault : Fault) (decoded : Instruction.decode core.word = .error fault)
    (idle : core.keyRead = false) : core.Tends (some (.error fault)) core [] := by
  have undecoded (instruction : Instruction) : Instruction.decode core.word ≠ .ok instruction := by
    rw [decoded]
    exact nofun
  have deaf : ¬core.ReadsLatchedKey := fun ⟨_, instruction, same, _⟩ => undecoded instruction same
  exact ⟨by rw [if_neg deaf]; rfl, idle,
    .kept deaf (fun taken => undecoded _ taken.1) fun _ _ ⟨instruction, same, _⟩ => undecoded instruction same⟩

theorem serve_tends (console : Console σ) (core after : Core) (service : Service) (state later : σ)
    (outcome : Option Outcome) (log : List Exchange) (decoded : Instruction.decode core.word = .ok (.trap service))
    (idle : core.keyRead = false)
    (served : core.serve console.recorded service (core.registers.pc + 1) (state, []) = (outcome, after, later, log)) :
    core.Tends (outcome.map .ok) after log := by
  have silent := serve_unacknowledged console core service (core.registers.pc + 1) state
  have settled := serve_key_read console.recorded core service (core.registers.pc + 1) (state, [])
  have ways := serve_core console.recorded core service (core.registers.pc + 1) (state, [])
  rw [served] at silent settled ways
  have deaf := trap_deaf core service decoded
  refine ⟨?_, settled.trans idle, ?_⟩
  · rw [if_neg deaf]
    exact List.count_eq_zero.mpr silent
  · obtain ⟨rfl, answered, code, taken⟩ | ⟨other, kept⟩ := ways
    · cases answered
      cases taken
      exact .lowered (.inr ⟨decoded, rfl⟩)
    · have same : after.memory = core.memory := by
        obtain still | moved := kept
        · exact congrArg Core.memory still
        · have memory := congrArg Core.memory moved
          exact memory
      rw [same]
      refine .kept deaf ?_ (trap_apart core service decoded)
      rintro ⟨getc, retired⟩
      cases decoded.symm.trans getc
      obtain ⟨answer, rfl, taken⟩ := Option.map_eq_some_iff.mp retired
      cases taken
      exact other ⟨rfl, rfl⟩

theorem computed_hears (core : Core) (instruction : Instruction) (idle : core.keyRead = false)
    (decoded : Instruction.decode core.word = .ok instruction) :
    (core.computed instruction).keyRead = true ↔ core.ReadsLatchedKey := by
  rw [computed_key_read, idle, Bool.false_or, Bool.and_eq_true, decide_eq_true_eq]
  constructor
  · rintro ⟨loaded, latched⟩
    exact ⟨latched, instruction, decoded, loaded⟩
  · rintro ⟨latched, other, same, loaded⟩
    cases decoded.symm.trans same
    exact ⟨loaded, latched⟩

theorem computed_leaves (core : Core) (instruction : Instruction) (result : Option (Except Fault Outcome))
    (decoded : Instruction.decode core.word = .ok instruction) (plain : instruction.Plain)
    (deaf : ¬core.ReadsLatchedKey) : core.Leaves result (core.computed instruction).memory := by
  rw [computed_memory]
  cases stored : core.stores? instruction with
  | some pair => exact .stored pair.1 pair.2 ⟨instruction, decoded, stored⟩
  | none =>
      refine .kept deaf ?_ ?_
      · rintro ⟨getc, -⟩
        cases decoded.symm.trans getc
        exact plain .getc rfl
      · rintro address word ⟨other, same, stores⟩
        cases decoded.symm.trans same
        rw [stored] at stores
        cases stores

theorem plain_tends (console : Console σ) (core after : Core) (instruction : Instruction) (state later : σ)
    (log : List Exchange) (decoded : Instruction.decode core.word = .ok instruction) (plain : instruction.Plain)
    (idle : core.keyRead = false)
    (settles : (core.computed instruction).settleKey console.recorded (state, []) = (after, later, log)) :
    core.Tends (some (.ok .retired)) after log := by
  have hears := computed_hears core instruction idle decoded
  unfold settleKey at settles
  by_cases reads : core.ReadsLatchedKey
  · rw [if_pos (hears.mpr reads)] at settles
    cases settles
    refine ⟨by rw [if_pos reads]; rfl, rfl, ?_⟩
    have loaded : core.stores? instruction = none := by
      cases stored : core.stores? instruction with
      | none => rfl
      | some pair => exact absurd reads (stores_deaf core pair.1 pair.2 ⟨instruction, decoded, stored⟩)
    have memory : (core.computed instruction).memory = core.memory := by
      rw [computed_memory, loaded]
      rfl
    have lowered : (core.computed instruction).forgetKey.unlatch.memory = core.unlatch.memory := by
      simp only [unlatch, store, forgetKey, memory]
    rw [lowered]
    exact .lowered (.inl reads)
  · have quiet : ¬(core.computed instruction).keyRead = true := fun read => reads (hears.mp read)
    rw [if_neg quiet] at settles
    cases settles
    exact ⟨by rw [if_neg reads]; rfl, by simpa using quiet,
      computed_leaves core instruction _ decoded plain reads⟩

theorem step_tends (console : Console σ) (core after : Core) (state later : σ)
    (result : Option (Except Fault Outcome)) (log : List Exchange) (idle : core.keyRead = false)
    (stepped : core.step console.recorded (state, []) = (result, after, later, log)) : core.Tends result after log := by
  obtain ⟨fault, decoded⟩ | ⟨service, decoded⟩ | ⟨instruction, decoded, plain⟩ := decode_cases core.word
  · rw [step_fault _ _ _ fault decoded] at stepped
    cases stepped
    exact fault_tends core fault decoded idle
  · have settled := serve_key_read console.recorded core service (core.registers.pc + 1) (state, [])
    rw [step_trap_idle _ _ _ service decoded (settled.trans idle)] at stepped
    rcases served : core.serve console.recorded service (core.registers.pc + 1) (state, []) with
      ⟨outcome, rest, final, said⟩
    rw [served] at stepped
    cases stepped
    exact serve_tends console core _ service state _ outcome _ decoded idle served
  · rw [step_plain _ _ _ instruction decoded plain] at stepped
    rcases settles : (core.computed instruction).settleKey console.recorded (state, []) with ⟨rest, final, said⟩
    rw [settles] at stepped
    cases stepped
    exact plain_tends console core _ instruction state _ _ decoded plain idle settles

theorem unlatch_load (core : Core) (address : Word) :
    core.unlatch.memory.read address =
      if Address.keyboardStatus = address then core.load Address.keyboardStatus &&& ~~~Address.readyBit
      else core.load address :=
  Memory.read_write core.memory _ _ _

theorem count_acknowledged (cycles : List Cycle)
    (each : ∀ cycle ∈ cycles, cycle.log.count .acknowledge = if cycle.before.ReadsLatchedKey then 1 else 0) :
    (cycles.flatMap Cycle.log).count .acknowledge = cycles.countP fun cycle => cycle.before.ReadsLatchedKey := by
  induction cycles with
  | nil => rfl
  | cons cycle rest ih =>
      have first := each cycle List.mem_cons_self
      have others := ih fun other member => each other (List.mem_cons_of_mem cycle member)
      rw [List.flatMap_cons, List.count_append, first, others, List.countP_cons, Nat.add_comm]
      simp only [decide_eq_true_eq]

theorem run_acknowledges (consoles : List (Console σ)) (core : Core) (state : σ) (idle : core.keyRead = false) :
    (core.run consoles state).2.1.keyRead = false ∧
      ((core.run consoles state).1.flatMap Cycle.log).count .acknowledge =
        (core.run consoles state).1.countP fun cycle => cycle.before.ReadsLatchedKey := by
  obtain ⟨last, cycles⟩ := run_keeps (fun core => core.keyRead = false)
    (fun cycle => cycle.log.count .acknowledge = if cycle.before.ReadsLatchedKey then 1 else 0)
    (fun console core state result after later log idle stepped => by
      have tends := step_tends console core after state later result log idle stepped
      exact ⟨tends.settled, fun _ _ => tends.acknowledged⟩)
    consoles core state idle
  exact ⟨last, count_acknowledged _ fun cycle member => (cycles cycle member).2⟩

theorem leaves_lowered (core : Core) (result : Option (Except Fault Outcome)) (memory : Memory)
    (leaves : core.Leaves result memory) (taken : core.ReadsLatchedKey ∨ core.TakesChar result) :
    memory = core.unlatch.memory := by
  cases leaves with
  | lowered _ => rfl
  | stored address word stores =>
      cases taken with
      | inl reads => exact absurd reads (stores_deaf core address word stores)
      | inr getc => exact absurd getc (stores_starved core address word result stores)
  | kept deaf starved apart =>
      cases taken with
      | inl reads => exact absurd reads deaf
      | inr getc => exact absurd getc starved

theorem leaves_stored (core : Core) (result : Option (Except Fault Outcome)) (memory : Memory) (address word : Word)
    (leaves : core.Leaves result memory) (stores : core.Stores address word) :
    memory = core.memory.write address word := by
  cases leaves with
  | lowered taken =>
      cases taken with
      | inl reads => exact absurd reads (stores_deaf core address word stores)
      | inr getc => exact absurd getc (stores_starved core address word result stores)
  | stored other another same =>
      obtain ⟨instruction, decoded, stored⟩ := stores
      obtain ⟨_, again, same⟩ := same
      cases decoded.symm.trans again
      cases stored.symm.trans same
      rfl
  | kept deaf starved apart => exact absurd stores (apart address word)

theorem leaves_changed (core : Core) (result : Option (Except Fault Outcome)) (memory : Memory) (address : Word)
    (leaves : core.Leaves result memory) (changed : memory.read address ≠ core.load address) :
    (address = Address.keyboardStatus ∧ (core.ReadsLatchedKey ∨ core.TakesChar result)) ∨
      ∃ word, core.Stores address word := by
  cases leaves with
  | lowered taken =>
      by_cases status : Address.keyboardStatus = address
      · exact .inl ⟨status.symm, taken⟩
      · rw [unlatch_load, if_neg status] at changed
        exact absurd rfl changed
  | stored other word stores =>
      by_cases same : other = address
      · subst same
        exact .inr ⟨word, stores⟩
      · rw [Memory.read_write, if_neg same] at changed
        exact absurd rfl changed
  | kept deaf starved apart => exact absurd rfl changed

theorem tends_acknowledges (core after : Core) (result : Option (Except Fault Outcome)) (log : List Exchange)
    (tends : core.Tends result after log) : .acknowledge ∈ log ↔ core.ReadsLatchedKey := by
  rw [← List.count_pos_iff, tends.acknowledged]
  by_cases reads : core.ReadsLatchedKey
  · simp [reads]
  · simp [reads]

theorem key_is_acknowledged_once_read (console : Console σ) (core : Core) (state : σ) (idle : core.keyRead = false) :
    (∃ result after later log,
      core.step console state = (result, after, later) ∧
      core.step console.recorded (state, []) = (result, after, later, log) ∧
      log.count .acknowledge ≤ 1 ∧
      (.acknowledge ∈ log ↔ core.keyLatched = true ∧ ∃ instruction,
        Instruction.decode core.word = .ok instruction ∧ Address.keyboardData ∈ core.loads instruction) ∧
      (.acknowledge ∈ log → after.keyLatched = false) ∧
      after.keyRead = false ∧
      (.acknowledge ∈ log ∨ core.TakesChar result →
        after.load Address.keyboardStatus = core.load Address.keyboardStatus &&& ~~~Address.readyBit) ∧
      (∀ address word, core.Stores address word → after.load address = word) ∧
      (after.load Address.keyboardStatus ≠ core.load Address.keyboardStatus →
        .acknowledge ∈ log ∨ core.TakesChar result ∨ ∃ word, core.Stores Address.keyboardStatus word) ∧
      (after.load Address.keyboardData ≠ core.load Address.keyboardData →
        ∃ word, core.Stores Address.keyboardData word) ∧
      (∀ instruction, Instruction.decode core.word = .ok instruction →
        Address.keyboardData ∉ core.loads instruction → .acknowledge ∉ log) ∧
      (∀ sr offset, Instruction.decode core.word = .ok (.sti sr offset) → .acknowledge ∉ log) ∧
      (∀ service, Instruction.decode core.word = .ok (.trap service) → .acknowledge ∉ log)) ∧
    ∀ consoles : List (Console σ),
      (core.run consoles state).2.1.keyRead = false ∧
        ((core.run consoles state).1.flatMap Cycle.log).count .acknowledge =
          (core.run consoles state).1.countP fun cycle => cycle.before.ReadsLatchedKey := by
  refine ⟨?_, fun consoles => run_acknowledges consoles core state idle⟩
  rcases stepped : core.step console.recorded (state, []) with ⟨result, after, later, log⟩
  have same := step_views console.recorded_views core (state, [])
  rw [stepped] at same
  have tends := step_tends console core after state later result log idle stepped
  have acknowledges := tends_acknowledges core after result log tends
  -- no acknowledgement without a load of the data register; the last three parts are cases of this
  have unread (instruction : Instruction) (decoded : Instruction.decode core.word = .ok instruction)
      (unloaded : Address.keyboardData ∉ core.loads instruction) : .acknowledge ∉ log := by
    rw [acknowledges]
    rintro ⟨-, other, again, loaded⟩
    cases decoded.symm.trans again
    exact unloaded loaded
  refine ⟨result, after, later, log, same, rfl, ?_, acknowledges, ?_, tends.settled, ?_, ?_, ?_, ?_, unread, ?_, ?_⟩
  · rw [tends.acknowledged]
    by_cases reads : core.ReadsLatchedKey
    · rw [if_pos reads]
    · rw [if_neg reads]
      exact Nat.zero_le 1
  · intro heard
    have lowered := leaves_lowered core result after.memory tends.memory (.inl (acknowledges.mp heard))
    rw [key_latched_same after core.unlatch (congrArg (·.read Address.keyboardStatus) lowered)]
    exact key_latched_unlatch core
  · intro taken
    have lowered := leaves_lowered core result after.memory tends.memory (taken.imp_left acknowledges.mp)
    rw [load, lowered, unlatch_load, if_pos rfl]
  · intro address word stores
    rw [load, leaves_stored core result after.memory address word tends.memory stores, Memory.read_write, if_pos rfl]
  · intro changed
    obtain ⟨-, reads | getc⟩ | stores := leaves_changed core result after.memory _ tends.memory changed
    · exact .inl (acknowledges.mpr reads)
    · exact .inr (.inl getc)
    · exact .inr (.inr stores)
  · intro changed
    obtain ⟨status, -⟩ | stores := leaves_changed core result after.memory _ tends.memory changed
    · cases status
    · exact stores
  · intro sr offset decoded
    exact unread _ decoded List.not_mem_nil
  · intro service decoded
    exact unread _ decoded List.not_mem_nil

-- An LDI that finds the data register under its own address, and that address again in the data register.
def doubled : Core where
  registers := { pc := 0xFE01 }
  memory := ((Memory.zero.write 0xFE00 0x8001).write 0xFE01 0xA200).write 0xFE02 0xFE02

theorem key_is_acknowledged_once_read_doubled :
    doubled.loads (.ldi 1 0) = [Address.keyboardData, Address.keyboardData] ∧
      ∃ result after later log,
        doubled.step Script.console.recorded ({}, []) = (result, after, later, log) ∧
        log.count .acknowledge = 1 ∧ after.load Address.keyboardStatus = 0x0001 := by
  have cell (address : Word) : doubled.memory.read address =
      if 0xFE02 = address then 0xFE02 else if 0xFE01 = address then 0xA200 else
        if 0xFE00 = address then 0x8001 else 0 := by
    simp only [doubled, Memory.read_write, Memory.read_zero]
  have decoded : Instruction.decode doubled.word = .ok (.ldi 1 0) := by
    rw [word, cell]
    rfl
  have status : doubled.load Address.keyboardStatus = 0x8001 := by
    rw [load, cell]
    rfl
  have loads : doubled.loads (.ldi 1 0) = [Address.keyboardData, Address.keyboardData] := by
    simp only [Core.loads, load, cell]
    rfl
  have latched : doubled.keyLatched = true := by
    simp only [keyLatched, cell]
    rfl
  obtain ⟨⟨result, after, later, log, -, stepped, once, acknowledges, -, -, lowered, -⟩, -⟩ :=
    key_is_acknowledged_once_read Script.console doubled {} rfl
  have heard : .acknowledge ∈ log := acknowledges.mpr ⟨latched, _, decoded, by rw [loads]; exact List.mem_cons_self⟩
  refine ⟨loads, result, after, later, log, stepped, ?_, ?_⟩
  · exact Nat.le_antisymm once (List.count_pos_iff.mpr heard)
  · rw [lowered (.inl heard), status]
    rfl

end LittleComputer.Core
