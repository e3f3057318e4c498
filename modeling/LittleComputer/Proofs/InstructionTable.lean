import LittleComputer.Console.Script
import LittleComputer.Proofs.Step
import Mathlib.Logic.Function.Basic
import Mathlib.Tactic.IntervalCases

set_option autoImplicit false

namespace LittleComputer.Table

def bits (word : Word) (low width : Nat) : Nat := word.toNat / 2 ^ low % 2 ^ width

def signed (word : Word) (width : Nat) : Int := Int.bmod word.toNat (2 ^ width)

structure State where
  slots : Nat → Word
  cells : Word → Word

namespace State

def ofCore (core : Core) : State where
  slots index := (Slot.ofIndex? index).elim 0 core.registers.slot
  cells := core.memory.read

def put (state : State) (slot : Nat) (value : Word) : State :=
  { state with slots := Function.update state.slots slot value }

def poke (state : State) (address word : Word) : State :=
  { state with cells := Function.update state.cells address word }

def goto (state : State) (address : Word) : State := state.put 8 address

def flag (value : Word) : Word :=
  if signed value 16 = 0 then 2 else if signed value 16 < 0 then 4 else 1

def result (state : State) (dr : Nat) (value : Word) : State :=
  (state.put dr value).put 9 (flag value)

-- Words of RTI, RES and TRAP are not in the table and change nothing here.
def apply (state : State) (word : Word) : State :=
  let pc1 : Int := (state.slots 8).toNat + 1
  let dr := bits word 9 3
  let base := bits word 6 3
  let near : Word := .ofInt (pc1 + signed word 9)
  let far : Word := .ofInt ((state.slots base).toNat + signed word 6)
  let operand : Int :=
    if bits word 5 1 = 1 then signed word 5 else (state.slots (bits word 0 3)).toNat
  match bits word 12 4 with
  | 0x0 => state.goto (if dr &&& (state.slots 9).toNat ≠ 0 then near else .ofInt pc1)
  | 0x1 => (state.result dr (.ofInt ((state.slots base).toNat + operand))).goto (.ofInt pc1)
  | 0x2 => (state.result dr (state.cells near)).goto (.ofInt pc1)
  | 0x3 => (state.poke near (state.slots dr)).goto (.ofInt pc1)
  | 0x4 =>
      (state.put 7 (.ofInt pc1)).goto
        (if bits word 11 1 = 1 then .ofInt (pc1 + signed word 11) else state.slots base)
  | 0x5 => (state.result dr (state.slots base &&& .ofInt operand)).goto (.ofInt pc1)
  | 0x6 => (state.result dr (state.cells far)).goto (.ofInt pc1)
  | 0x7 => (state.poke far (state.slots dr)).goto (.ofInt pc1)
  | 0x9 => (state.result dr (.ofInt (-1 - (state.slots base).toNat))).goto (.ofInt pc1)
  | 0xA => (state.result dr (state.cells (state.cells near))).goto (.ofInt pc1)
  | 0xB => (state.poke (state.cells near) (state.slots dr)).goto (.ofInt pc1)
  | 0xC => state.goto (state.slots base)
  | 0xE => (state.result dr near).goto (.ofInt pc1)
  | _ => state

def next (state : State) : State := state.apply (state.cells (state.slots 8))

end State

theorem field_bits (word : Word) (low width : Nat) : word.field low width = bits word low width := by
  simp only [Word.field, bits, Nat.shiftRight_eq_div_pow, Nat.one_shiftLeft]

theorem of_field_val (word : Word) (low : Nat) : (Register.ofField word low : Nat) = bits word low 3 :=
  field_bits word low 3

theorem of_int_nat (value : Nat) : UInt16.ofInt value = .ofNat value := by
  apply UInt16.toNat.inj
  simp only [UInt16.ofInt, UInt16.toNat_ofNat']
  omega

theorem of_int_word (word : Word) : UInt16.ofInt word.toNat = word := by
  rw [of_int_nat, UInt16.ofNat_toNat]

theorem of_int_pc (word : Word) : UInt16.ofInt (word.toNat + 1) = word + 1 := by
  rw [UInt16.ofInt_add, of_int_word, UInt16.ofInt_one]

theorem sign_extend_signed (word : Word) (width : Nat) (positive : 1 ≤ width) (within : width ≤ 16) :
    word.signExtend width = .ofInt (signed word width) := by
  have double : 2 ^ width = 2 * 2 ^ (width - 1) := by
    rw [← Nat.pow_succ', Nat.succ_eq_add_one, Nat.sub_add_cancel positive]
  have small : 2 ^ width ≤ 2 ^ 16 := Nat.pow_le_pow_right (by decide) within
  have low : word.toNat % 2 ^ width < 2 ^ width := Nat.mod_lt _ (Nat.two_pow_pos width)
  have cast : (word.toNat : Int) % (2 ^ width : Nat) = (word.toNat % 2 ^ width : Nat) := by
    push_cast; rfl
  apply UInt16.toNat.inj
  simp only [Word.signExtend, signed, Int.bmod, UInt16.ofInt, cast, Nat.one_shiftLeft, UInt16.size]
  generalize word.toNat % 2 ^ width = value at low ⊢
  generalize 2 ^ (width - 1) = half at double ⊢
  generalize 2 ^ width = span at double small low ⊢
  by_cases lower : value < half
  · rw [if_pos lower, if_pos (by omega)]
    simp only [UInt16.toNat_ofNat']
    omega
  · rw [if_neg lower, if_neg (by omega)]
    simp only [UInt16.toNat_ofNat']
    omega

theorem not_of_int (word : Word) : ~~~word = .ofInt (-1 - word.toNat) := by
  have sum : (-1 - word.toNat : Int) = -word.toNat + -1 := by omega
  rw [sum, UInt16.ofInt_add, UInt16.ofInt_neg word.toNat, of_int_word, UInt16.ofInt_neg_one,
    UInt16.not_eq_neg_sub, UInt16.sub_eq_add_neg]

theorem signed_whole (value : Word) :
    signed value 16 = if value.toNat < 0x8000 then (value.toNat : Int) else value.toNat - 65536 := by
  have bound := value.toNat_lt
  simp only [signed, Int.bmod]
  by_cases low : value.toNat < 0x8000
  · rw [if_pos low, if_pos (by omega)]
    omega
  · rw [if_neg low, if_neg (by omega)]
    omega

theorem of_result_flag (value : Word) : Condition.ofResult value = State.flag value := by
  have zero : value = 0 ↔ value.toNat = 0 := by rw [← UInt16.toNat_inj]; rfl
  have sign : 0x8000 ≤ value ↔ 0x8000 ≤ value.toNat := UInt16.le_iff_toNat_le
  unfold Condition.ofResult State.flag
  rw [if_congr zero rfl (if_congr sign rfl rfl)]
  by_cases high : 0x8000 ≤ value.toNat
  · have bound := value.toNat_lt
    have reading : signed value 16 = value.toNat - 65536 := by rw [signed_whole, if_neg (by omega)]
    rw [if_neg (by omega), if_pos high, reading, if_neg (by omega), if_pos (by omega)]
    rfl
  · have reading : signed value 16 = value.toNat := by rw [signed_whole, if_pos (by omega)]
    by_cases nothing : value.toNat = 0
    · rw [if_pos nothing, reading, if_pos (by omega)]
      rfl
    · rw [if_neg nothing, if_neg high, reading, if_neg (by omega), if_neg (by omega)]
      rfl

namespace State

theorem of_core_slot (core : Core) (slot : Slot) :
    (ofCore core).slots slot.index = core.registers.slot slot := by
  simp only [ofCore, Slot.of_index_index, Option.elim_some]

theorem of_core_general (core : Core) (register : Register) :
    (ofCore core).slots register = core.registers.get register :=
  of_core_slot core (.general register)

theorem of_core_written (core after : Core) (target : Slot) (value : Word)
    (memory : after.memory = core.memory) (hit : after.registers.slot target = value)
    (kept : ∀ other, other ≠ target → after.registers.slot other = core.registers.slot other) :
    ofCore after = (ofCore core).put target.index value := by
  have slots (index : Nat) : (ofCore after).slots index = ((ofCore core).put target.index value).slots index := by
    by_cases same : index = target.index
    · subst same
      rw [of_core_slot, hit]
      exact (Function.update_self target.index value (ofCore core).slots).symm
    · have other : ((ofCore core).put target.index value).slots index = (ofCore core).slots index :=
        Function.update_of_ne same _ _
      rw [other]
      simp only [ofCore]
      cases found : Slot.ofIndex? index with
      | none => rfl
      | some slot =>
          apply kept
          intro both
          exact same (both ▸ (Slot.index_of_index index slot found).symm)
  simp only [ofCore, put] at slots ⊢
  rw [memory, funext slots]

theorem of_core_set_register (core : Core) (register : Register) (value : Word) :
    ofCore (core.setRegister register value) = (ofCore core).put register value := by
  apply of_core_written core (core.setRegister register value) (.general register) value rfl
  · exact (Registers.get_set _ _ _ _).trans (if_pos rfl)
  · intro other different
    cases other with
    | general target =>
        have apart : register ≠ target := fun same => different (same ▸ rfl)
        exact (Registers.get_set _ _ _ _).trans (if_neg apart)
    | pc => rfl
    | cond => rfl

theorem of_core_set_pc (core : Core) (address : Word) :
    ofCore (core.setPc address) = (ofCore core).goto address := by
  apply of_core_written core (core.setPc address) .pc address rfl rfl
  intro other different
  cases other with
  | general target => rfl
  | pc => exact absurd rfl different
  | cond => rfl

theorem of_core_set_cond (core : Core) (condition : Word) :
    ofCore (core.setCond condition) = (ofCore core).put 9 condition := by
  apply of_core_written core (core.setCond condition) .cond condition rfl rfl
  intro other different
  cases other with
  | general target => rfl
  | pc => rfl
  | cond => exact absurd rfl different

theorem of_core_set_result (core : Core) (register : Register) (value : Word) :
    ofCore (core.setResult register value) = (ofCore core).result register value := by
  have parts : core.setResult register value =
      (core.setRegister register value).setCond (Condition.ofResult value) := rfl
  rw [parts, of_core_set_cond, of_core_set_register, of_result_flag]
  rfl

theorem of_core_store (core : Core) (address word : Word) :
    ofCore (core.store address word) = (ofCore core).poke address word := by
  have cells (other : Word) : (core.memory.write address word).read other =
      Function.update core.memory.read address word other := by
    rw [Memory.read_write, Function.update_apply]
    exact if_congr eq_comm rfl rfl
  simp only [ofCore, poke, Core.store, funext cells]

theorem of_core_note_load (core : Core) (address : Word) :
    ofCore (core.noteLoad address) = ofCore core := by
  unfold Core.noteLoad
  split <;> rfl

end State

theorem add_of_int (word : Word) (offset : Int) : word + .ofInt offset = .ofInt (word.toNat + offset) := by
  rw [UInt16.ofInt_add, of_int_word]

theorem pc_relative_signed (pc1 : Int) (word : Word) (width : Nat) (positive : 1 ≤ width)
    (within : width ≤ 16) :
    Core.pcRelative (.ofInt pc1) (word.signExtend width) = .ofInt (pc1 + signed word width) := by
  rw [Core.pcRelative, sign_extend_signed word width positive within, UInt16.ofInt_add]

theorem base_relative_signed (core : Core) (word : Word) :
    core.baseRelative (.ofField word 6) (word.signExtend 6) =
      .ofInt (((State.ofCore core).slots (bits word 6 3)).toNat + signed word 6) := by
  rw [← of_field_val, State.of_core_general, Core.baseRelative,
    sign_extend_signed word 6 (by decide) (by decide), add_of_int]

theorem operand_signed (core : Core) (word : Word) :
    core.operand (Instruction.operandOf word) =
      .ofInt (if bits word 5 1 = 1 then signed word 5 else ((State.ofCore core).slots (bits word 0 3)).toNat) := by
  rw [← of_field_val, State.of_core_general, ← field_bits]
  unfold Instruction.operandOf
  split
  · exact sign_extend_signed word 5 (by decide) (by decide)
  · exact (of_int_word _).symm

theorem number_of_word (word : Word) : (Opcode.ofWord word).number = bits word 12 4 := by
  rw [← field_bits]
  have bound : word.field 12 4 < 16 := word.field_lt 12 4
  unfold Opcode.ofWord
  generalize word.field 12 4 = number at bound
  interval_cases number <;> rfl

theorem branch_mask (word cond : Word) :
    (UInt16.ofNat (word.field 9 3) &&& cond = 0) ↔ bits word 9 3 &&& cond.toNat = 0 := by
  have small : bits word 9 3 < 2 ^ 16 := by
    have bound : word.field 9 3 < 8 := word.field_lt 9 3
    rw [field_bits] at bound
    omega
  rw [← UInt16.toNat_inj, UInt16.toNat_and, field_bits, UInt16.toNat_ofNat', Nat.mod_eq_of_lt small]
  rfl

theorem compute_follows_table (core : Core) (word : Word) (instruction : Instruction)
    (decoded : Instruction.decode word = .ok instruction) (plain : instruction.Plain) :
    State.ofCore (core.computed instruction) = (State.ofCore core).apply word := by
  have pc : (State.ofCore core).slots 8 = core.registers.pc := rfl
  have cond : (State.ofCore core).slots 9 = core.registers.cond := rfl
  have cells : (State.ofCore core).cells = core.memory.read := rfl
  have general (low : Nat) : core.registers.get (.ofField word low) =
      (State.ofCore core).slots (bits word low 3) := by
    rw [← of_field_val, State.of_core_general]
  have near (pc1 : Int) :
      Core.pcRelative (.ofInt pc1) (word.signExtend 9) = .ofInt (pc1 + signed word 9) :=
    pc_relative_signed pc1 word 9 (by decide) (by decide)
  have number := number_of_word word
  unfold Core.computed
  rw [← of_int_pc]
  unfold Instruction.decode at decoded
  split at decoded <;> rename_i opcode <;> rw [opcode] at number
  -- BR reads the condition, JMP and JSR only registers
  case h_1 =>
    cases decoded
    simp only [State.apply, pc, cond, ← number, Opcode.number, Core.compute, State.of_core_set_pc,
      near, ne_eq, branch_mask]
  case h_5 =>
    cases decoded
    simp only [State.apply, ← number, Opcode.number, Core.compute, State.of_core_set_pc, general]
  case h_6 =>
    cases decoded
    have far : Core.pcRelative (.ofInt (core.registers.pc.toNat + 1)) (word.signExtend 11) =
        .ofInt (core.registers.pc.toNat + 1 + signed word 11) :=
      pc_relative_signed _ word 11 (by decide) (by decide)
    simp only [State.apply, pc, ← number, Opcode.number, Instruction.targetOf, field_bits]
    split <;> simp only [Core.compute, State.of_core_set_pc, State.of_core_set_register, far, general]
    all_goals rfl
  -- ADD, AND, NOT and LEA compute a result
  case h_2 | h_3 | h_4 | h_10 =>
    cases decoded
    simp only [State.apply, pc, ← number, Opcode.number, Core.compute, State.of_core_set_pc,
      State.of_core_set_result, of_field_val, general, operand_signed, add_of_int, not_of_int, near]
  -- LD, LDI and LDR load one
  case h_7 | h_8 | h_9 =>
    cases decoded
    simp only [State.apply, pc, cells, ← number, Opcode.number, Core.compute, State.of_core_set_pc,
      State.of_core_set_result, State.of_core_note_load, of_field_val, near, base_relative_signed, Core.load]
  -- ST, STI and STR store
  case h_11 | h_12 | h_13 =>
    cases decoded
    simp only [State.apply, pc, cells, ← number, Opcode.number, Core.compute, State.of_core_set_pc,
      State.of_core_store, general, near, base_relative_signed]
  case h_14 =>
    split at decoded
    · cases decoded
      exact absurd rfl (plain _)
    · cases decoded
  case h_15 | h_16 => cases decoded

theorem listed_decodes (word : Word) (listed : bits word 12 4 ∉ [0x8, 0xD, 0xF]) :
    ∃ instruction, Instruction.decode word = .ok instruction ∧ instruction.Plain := by
  rw [← number_of_word] at listed
  unfold Instruction.decode
  cases opcode : Opcode.ofWord word <;> rw [opcode] at listed <;>
    first | exact ⟨_, rfl, fun _ => Instruction.noConfusion⟩ | exact absurd (by decide) listed

theorem step_follows_table {σ : Type} (console : Console σ) (core : Core) (state : σ)
    (listed : bits core.word 12 4 ∉ [0x8, 0xD, 0xF]) :
    ∃ after later, core.step console state = (some (.ok .retired), after, later) ∧
      (∀ slot : Slot, after.registers.slot slot = (State.ofCore core).next.slots slot.index) ∧
      ∀ address, address ≠ Address.keyboardStatus →
        after.memory.read address = (State.ofCore core).next.cells address := by
  obtain ⟨instruction, decoded, plain⟩ := listed_decodes core.word listed
  have table : State.ofCore (core.computed instruction) = (State.ofCore core).next :=
    compute_follows_table core core.word instruction decoded plain
  refine ⟨((core.computed instruction).settleKey console state).1,
    ((core.computed instruction).settleKey console state).2,
    Core.step_plain console core state instruction decoded plain, ?_, ?_⟩
  · intro slot
    rw [Core.settle_key_registers, ← table, State.of_core_slot]
  · intro address other
    rw [Core.settle_key_read console _ state address other, ← table]
    rfl

-- An LDI at the last address whose pointer leads to a latched character.
def wrappedIndirectLoad : Core where
  registers := { pc := 0xFFFF }
  memory := Memory.zero.writeAll [(0xFFFF, 0xA201), (1, Address.keyboardData), (Address.keyboardStatus, 0x8000),
    (Address.keyboardData, 0x7A)]

theorem wrapped_word : wrappedIndirectLoad.word = 0xA201 := by
  simp [wrappedIndirectLoad, Core.word, Memory.writeAll, Memory.read_write, Address.keyboardData,
    Address.keyboardStatus]

theorem wrapped_next : (State.ofCore wrappedIndirectLoad).next.slots 1 = 0x7A := by
  have pc : (State.ofCore wrappedIndirectLoad).slots 8 = 0xFFFF := rfl
  have cells : (State.ofCore wrappedIndirectLoad).cells = wrappedIndirectLoad.memory.read := rfl
  have word : wrappedIndirectLoad.memory.read 0xFFFF = 0xA201 := wrapped_word
  have number : bits 0xA201 12 4 = 0xA := by decide
  have dr : bits 0xA201 9 3 = 1 := by decide
  have near : UInt16.ofInt (((0xFFFF : Word).toNat : Int) + 1 + signed 0xA201 9) = 1 := by decide
  simp only [State.next, State.apply, pc, cells, word, number, dr, near]
  simp [wrappedIndirectLoad, Memory.writeAll, Memory.read_write, Address.keyboardData, Address.keyboardStatus,
    State.goto, State.put, State.result]

theorem step_follows_table_indirect :
    bits wrappedIndirectLoad.word 12 4 ∉ [0x8, 0xD, 0xF] ∧
    ∃ after later, wrappedIndirectLoad.step Script.console {} = (some (.ok .retired), after, later) ∧
      after.registers.slot (.general 1) = 0x7A := by
  have listed : bits wrappedIndirectLoad.word 12 4 ∉ [0x8, 0xD, 0xF] := by
    rw [wrapped_word]; decide
  obtain ⟨after, later, stepped, slots, -⟩ := step_follows_table Script.console wrappedIndirectLoad {} listed
  have loaded := slots (.general 1)
  rw [show (Slot.general 1).index = 1 from rfl, wrapped_next] at loaded
  exact ⟨listed, after, later, stepped, loaded⟩

end LittleComputer.Table
