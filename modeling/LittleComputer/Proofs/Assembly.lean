import LittleComputer.Proofs.AtomicStep
import Mathlib.Tactic.Ring

set_option autoImplicit false

namespace LittleComputer

structure Part where
  low : Nat
  width : Nat
  value : Nat

namespace Part

def Held (part : Part) (word : Word) : Prop := word.field part.low part.width = part.value % 2 ^ part.width

def total (value : Part → Nat) (parts : List Part) : Nat :=
  (parts.map fun part => value part % 2 ^ part.width * 2 ^ part.low).sum

def Stacked : Nat → List Part → Prop
  | _, [] => True
  | top, part :: rest => part.low + part.width ≤ top ∧ Stacked part.low rest

@[simp] theorem total_cons (value : Part → Nat) (part : Part) (rest : List Part) :
    total value (part :: rest) = value part % 2 ^ part.width * 2 ^ part.low + total value rest := by
  rw [total, total, List.map_cons, List.sum_cons]

@[simp] theorem total_nil (value : Part → Nat) : total value [] = 0 := by rw [total, List.map_nil, List.sum_nil]

theorem total_lt (value : Part → Nat) (top : Nat) (parts : List Part) (stacked : Stacked top parts) :
    total value parts < 2 ^ top := by
  induction parts generalizing top with
  | nil => exact Nat.two_pow_pos top
  | cons part rest ih =>
      have below := ih part.low stacked.2
      have digit : value part % 2 ^ part.width < 2 ^ part.width := Nat.mod_lt _ (Nat.two_pow_pos _)
      calc total value (part :: rest)
          < value part % 2 ^ part.width * 2 ^ part.low + 2 ^ part.low := Nat.add_lt_add_left below _
        _ = (value part % 2 ^ part.width + 1) * 2 ^ part.low := (Nat.succ_mul _ _).symm
        _ ≤ 2 ^ part.width * 2 ^ part.low := Nat.mul_le_mul_right _ digit
        _ = 2 ^ (part.low + part.width) := by rw [Nat.mul_comm, ← Nat.pow_add]
        _ ≤ 2 ^ top := Nat.pow_le_pow_right (by decide) stacked.1

theorem stacked_below (top : Nat) (parts : List Part) (stacked : Stacked top parts) (part : Part)
    (member : part ∈ parts) : part.low + part.width ≤ top := by
  induction parts generalizing top with
  | nil => cases member
  | cons first rest ih =>
      cases member with
      | head => exact stacked.1
      | tail _ later =>
          have under := ih first.low stacked.2 later
          have first := stacked.1
          omega

theorem field_under (high rest low width above : Nat) (under : low + width ≤ above) :
    (high * 2 ^ above + rest) / 2 ^ low % 2 ^ width = rest / 2 ^ low % 2 ^ width := by
  obtain ⟨gap, rfl⟩ := Nat.exists_eq_add_of_le under
  have split : high * 2 ^ (low + width + gap) = 2 ^ low * (2 ^ width * (high * 2 ^ gap)) := by
    rw [Nat.pow_add, Nat.pow_add]
    ring
  rw [split, Nat.mul_add_div (Nat.two_pow_pos low), Nat.mul_add_mod]

theorem total_field (value : Part → Nat) (top : Nat) (parts : List Part) (stacked : Stacked top parts) (part : Part)
    (member : part ∈ parts) :
    total value parts / 2 ^ part.low % 2 ^ part.width = value part % 2 ^ part.width := by
  induction parts generalizing top with
  | nil => cases member
  | cons first rest ih =>
      rw [total_cons]
      cases member with
      | head =>
          have below := total_lt value part.low rest stacked.2
          rw [Nat.mul_comm, Nat.mul_add_div (Nat.two_pow_pos part.low), Nat.div_eq_of_lt below, Nat.add_zero,
            Nat.mod_mod]
      | tail _ later =>
          rw [field_under _ _ _ _ first.low (stacked_below first.low rest stacked.2 part later)]
          exact ih first.low stacked.2 later

theorem total_congr (value other : Part → Nat) (top : Nat) (parts : List Part) (stacked : Stacked top parts) :
    total value parts = total other parts ↔
      ∀ part ∈ parts, value part % 2 ^ part.width = other part % 2 ^ part.width := by
  constructor
  · intro same part member
    rw [← total_field value top parts stacked part member, same, total_field other top parts stacked part member]
  · intro same
    refine congrArg List.sum (List.map_congr_left fun part member => ?_)
    rw [same part member]

def full (part : Part) : Nat := 2 ^ part.width - 1

theorem and_shifted (number mask low : Nat) : number &&& mask * 2 ^ low = (number / 2 ^ low &&& mask) * 2 ^ low := by
  rw [← Nat.shiftLeft_eq, ← Nat.shiftLeft_eq, ← Nat.shiftRight_eq_div_pow]
  apply Nat.eq_of_testBit_eq
  intro index
  rw [Nat.testBit_and, Nat.testBit_shiftLeft, Nat.testBit_shiftLeft, Nat.testBit_and, Nat.testBit_shiftRight]
  by_cases within : low ≤ index
  · rw [Nat.add_sub_cancel' within]
    simp [within]
  · simp [within]

theorem and_total (number top : Nat) (parts : List Part) (stacked : Stacked top parts) :
    number &&& total full parts = total (fun part => number / 2 ^ part.low) parts := by
  induction parts generalizing top with
  | nil => exact Nat.and_zero number
  | cons part rest ih =>
      have below := total_lt full part.low rest stacked.2
      have masked : number &&& total full rest < 2 ^ part.low := Nat.lt_of_le_of_lt Nat.and_le_right below
      have ones : full part % 2 ^ part.width = full part :=
        Nat.mod_eq_of_lt (Nat.sub_lt (Nat.two_pow_pos _) Nat.one_pos)
      rw [total_cons, total_cons, ← ih part.low stacked.2, ones, Nat.mul_comm (full part),
        Nat.two_pow_add_eq_or_of_lt below, Nat.and_or_distrib_left, Nat.mul_comm (2 ^ part.low), and_shifted, full,
        Nat.and_two_pow_sub_one_eq_mod, Nat.mul_comm, Nat.two_pow_add_eq_or_of_lt masked]

end Part

def Word.Fits (word : Word) (width : Nat) : Prop :=
  -(2 ^ (width - 1) : Int) ≤ Table.signed word 16 ∧ Table.signed word 16 < 2 ^ (width - 1)

def Operand.parts : Operand → List Part
  | .register source => [⟨5, 1, 0⟩, ⟨0, 3, source⟩]
  | .immediate value => [⟨5, 1, 1⟩, ⟨0, 5, value.toNat⟩]

def Operand.Encodable : Operand → Prop
  | .register _ => True
  | .immediate value => value.Fits 5

def Target.parts : Target → List Part
  | .offset value => [⟨11, 1, 1⟩, ⟨0, 11, value.toNat⟩]
  | .base register => [⟨11, 1, 0⟩, ⟨6, 3, register⟩]

def Target.Encodable : Target → Prop
  | .offset value => value.Fits 11
  | .base _ => True

namespace Instruction

def parts : Instruction → List Part
  | .br nzp offset => [⟨9, 3, nzp.toNat⟩, ⟨0, 9, offset.toNat⟩]
  | .add dr sr operand => ⟨9, 3, dr⟩ :: ⟨6, 3, sr⟩ :: operand.parts
  | .and dr sr operand => ⟨9, 3, dr⟩ :: ⟨6, 3, sr⟩ :: operand.parts
  | .not dr sr => [⟨9, 3, dr⟩, ⟨6, 3, sr⟩]
  | .jmp base => [⟨6, 3, base⟩]
  | .jsr target => target.parts
  | .ld dr offset => [⟨9, 3, dr⟩, ⟨0, 9, offset.toNat⟩]
  | .ldi dr offset => [⟨9, 3, dr⟩, ⟨0, 9, offset.toNat⟩]
  | .ldr dr base offset => [⟨9, 3, dr⟩, ⟨6, 3, base⟩, ⟨0, 6, offset.toNat⟩]
  | .lea dr offset => [⟨9, 3, dr⟩, ⟨0, 9, offset.toNat⟩]
  | .st sr offset => [⟨9, 3, sr⟩, ⟨0, 9, offset.toNat⟩]
  | .sti sr offset => [⟨9, 3, sr⟩, ⟨0, 9, offset.toNat⟩]
  | .str sr base offset => [⟨9, 3, sr⟩, ⟨6, 3, base⟩, ⟨0, 6, offset.toNat⟩]
  | .trap service => [⟨0, 8, service.vector⟩]

def layout (instruction : Instruction) : List Part := ⟨12, 4, instruction.opcode.number⟩ :: instruction.parts

def assemble (instruction : Instruction) : Word := .ofNat (Part.total Part.value instruction.layout)

-- The bits of a word that an instruction of this form does not look at.
def ignored : Instruction → Word
  | .add _ _ (.register _) => 0x0018
  | .and _ _ (.register _) => 0x0018
  | .not _ _ => 0x003F
  | .jmp _ => 0x0E3F
  | .jsr (.base _) => 0x063F
  | .trap _ => 0x0F00
  | _ => 0

def Encodable : Instruction → Prop
  | .br nzp offset => nzp.toNat ≤ 7 ∧ offset.Fits 9
  | .add _ _ operand => operand.Encodable
  | .and _ _ operand => operand.Encodable
  | .not _ _ => True
  | .jmp _ => True
  | .jsr target => target.Encodable
  | .ld _ offset => offset.Fits 9
  | .ldi _ offset => offset.Fits 9
  | .ldr _ _ offset => offset.Fits 6
  | .lea _ offset => offset.Fits 9
  | .st _ offset => offset.Fits 9
  | .sti _ offset => offset.Fits 9
  | .str _ _ offset => offset.Fits 6
  | .trap _ => True

end Instruction

theorem fits_halves (value : Word) (width : Nat) (listed : width ∈ [5, 6, 9, 11]) :
    value.Fits width ↔ value.toNat < 2 ^ (width - 1) ∨ 65536 - 2 ^ (width - 1) ≤ value.toNat := by
  have bound := value.toNat_lt
  simp only [List.mem_cons, List.not_mem_nil, or_false] at listed
  rw [Word.Fits, Table.signed_whole]
  by_cases low : value.toNat < 0x8000
  · rw [if_pos low]
    rcases listed with rfl | rfl | rfl | rfl <;> omega
  · rw [if_neg low]
    rcases listed with rfl | rfl | rfl | rfl <;> omega

theorem offset_held (word value : Word) (width : Nat) (listed : width ∈ [5, 6, 9, 11]) :
    word.signExtend width = value ↔ value.Fits width ∧ (⟨0, width, value.toNat⟩ : Part).Held word := by
  have bound := value.toNat_lt
  have low : word.toNat % 2 ^ width < 2 ^ width := Nat.mod_lt _ (Nat.two_pow_pos width)
  rw [fits_halves value width listed, ← UInt16.toNat_inj, Part.Held]
  simp only [Word.signExtend, Word.field, Nat.one_shiftLeft, Nat.shiftRight_zero, UInt16.size]
  simp only [List.mem_cons, List.not_mem_nil, or_false] at listed
  generalize word.toNat % 2 ^ width = number at low ⊢
  by_cases lower : number < 2 ^ (width - 1)
  · rw [if_pos lower, UInt16.toNat_ofNat']
    rcases listed with rfl | rfl | rfl | rfl <;> omega
  · rw [if_neg lower, UInt16.toNat_ofNat']
    rcases listed with rfl | rfl | rfl | rfl <;> omega

theorem register_held (word : Word) (low : Nat) (register : Register) :
    Register.ofField word low = register ↔ (⟨low, 3, register⟩ : Part).Held word := by
  have small : register.val % 2 ^ 3 = register.val := Nat.mod_eq_of_lt register.isLt
  rw [Fin.ext_iff, Part.Held, small]
  rfl

theorem flag_held (word nzp : Word) :
    UInt16.ofNat (word.field 9 3) = nzp ↔ nzp.toNat ≤ 7 ∧ (⟨9, 3, nzp.toNat⟩ : Part).Held word := by
  have bound : word.field 9 3 < 8 := word.field_lt 9 3
  rw [← UInt16.toNat_inj, UInt16.toNat_ofNat']
  unfold Part.Held
  dsimp only
  omega

theorem service_held (word : Word) (service : Service) :
    Service.ofWord? word = some service ↔ (⟨0, 8, service.vector⟩ : Part).Held word := by
  unfold Service.ofWord? Part.Held
  dsimp only
  constructor
  · intro found
    split at found <;> cases found <;> assumption
  · intro held
    rw [held]
    cases service <;> rfl

theorem operand_held (word : Word) (operand : Operand) :
    Instruction.operandOf word = operand ↔ operand.Encodable ∧ ∀ part ∈ operand.parts, part.Held word := by
  have mode : word.field 5 1 < 2 := word.field_lt 5 1
  have chosen (bit : Nat) : (⟨5, 1, bit⟩ : Part).Held word ↔ word.field 5 1 = bit % 2 := Iff.rfl
  unfold Instruction.operandOf
  cases operand with
  | register source =>
      simp only [Operand.parts, Operand.Encodable, List.forall_mem_cons, chosen, ← register_held, true_and]
      by_cases immediate : word.field 5 1 = 1
      · simp [immediate]
      · have zero : word.field 5 1 = 0 := by omega
        simp [zero]
  | immediate value =>
      have held := offset_held word value 5 (by decide)
      simp only [Operand.parts, Operand.Encodable, List.forall_mem_cons, chosen]
      by_cases immediate : word.field 5 1 = 1
      · simp [immediate, held]
      · simp [immediate]

theorem target_held (word : Word) (target : Target) :
    Instruction.targetOf word = target ↔ target.Encodable ∧ ∀ part ∈ target.parts, part.Held word := by
  have mode : word.field 11 1 < 2 := word.field_lt 11 1
  have chosen (bit : Nat) : (⟨11, 1, bit⟩ : Part).Held word ↔ word.field 11 1 = bit % 2 := Iff.rfl
  unfold Instruction.targetOf
  cases target with
  | offset value =>
      have held := offset_held word value 11 (by decide)
      simp only [Target.parts, Target.Encodable, List.forall_mem_cons, chosen]
      by_cases relative : word.field 11 1 = 1
      · simp [relative, held]
      · simp [relative]
  | base register =>
      simp only [Target.parts, Target.Encodable, List.forall_mem_cons, chosen, ← register_held, true_and]
      by_cases relative : word.field 11 1 = 1
      · simp [relative]
      · have zero : word.field 11 1 = 0 := by omega
        simp [zero]

theorem opcode_held (word : Word) (opcode : Opcode) :
    Opcode.ofWord word = opcode ↔ (⟨12, 4, opcode.number⟩ : Part).Held word := by
  have number : word.field 12 4 = (Opcode.ofWord word).number := by
    rw [Table.number_of_word, Table.field_bits]
  have small : opcode.number % 2 ^ 4 = opcode.number := by cases opcode <;> rfl
  rw [Part.Held, small]
  constructor
  · intro same
    rw [← same]
    exact number
  · intro held
    have bits : (Opcode.ofWord word).bits = opcode.bits := by
      rw [Opcode.bits, Opcode.bits, ← number]
      exact congrArg (fun number => UInt16.ofNat (number <<< 12)) held
    rw [← Opcode.of_word_bits (Opcode.ofWord word), bits, Opcode.of_word_bits]

namespace Instruction

theorem decode_opcode (word : Word) (instruction : Instruction) (decoded : decode word = .ok instruction) :
    Opcode.ofWord word = instruction.opcode := by
  unfold decode at decoded
  split at decoded <;> rename_i opcode
  case h_14 =>
    split at decoded
    · cases decoded
      exact opcode
    · cases decoded
  case h_15 | h_16 => cases decoded
  all_goals
    cases decoded
    exact opcode

-- One case for each form of instruction; those with a mode bit have it in their operand or target.
theorem decode_parts (word : Word) (instruction : Instruction) (opcode : Opcode.ofWord word = instruction.opcode) :
    decode word = .ok instruction ↔ instruction.Encodable ∧ ∀ part ∈ instruction.parts, part.Held word := by
  have near (value : Word) := offset_held word value 9 (by decide)
  have far (value : Word) := offset_held word value 6 (by decide)
  have done : (∀ part ∈ ([] : List Part), part.Held word) ↔ True := by simp
  simp only [decode, opcode]
  cases instruction with
  | br nzp offset =>
      simp only [Instruction.opcode, Except.ok.injEq, br.injEq, Encodable, parts, List.forall_mem_cons, done,
        flag_held, near]
      tauto
  | add dr sr operand =>
      simp only [Instruction.opcode, Except.ok.injEq, add.injEq, Encodable, parts, List.forall_mem_cons,
        register_held, operand_held]
      tauto
  | and dr sr operand =>
      simp only [Instruction.opcode, Except.ok.injEq, and.injEq, Encodable, parts, List.forall_mem_cons,
        register_held, operand_held]
      tauto
  | not dr sr =>
      simp only [Instruction.opcode, Except.ok.injEq, not.injEq, Encodable, parts, List.forall_mem_cons, done,
        register_held, and_true, true_and]
  | jmp base =>
      simp only [Instruction.opcode, Except.ok.injEq, jmp.injEq, Encodable, parts, List.forall_mem_cons, done,
        register_held, and_true, true_and]
  | jsr target => simp only [Instruction.opcode, Except.ok.injEq, jsr.injEq, Encodable, parts, target_held]
  | ld dr offset =>
      simp only [Instruction.opcode, Except.ok.injEq, ld.injEq, Encodable, parts, List.forall_mem_cons, done,
        register_held, near]
      tauto
  | ldi dr offset =>
      simp only [Instruction.opcode, Except.ok.injEq, ldi.injEq, Encodable, parts, List.forall_mem_cons, done,
        register_held, near]
      tauto
  | ldr dr base offset =>
      simp only [Instruction.opcode, Except.ok.injEq, ldr.injEq, Encodable, parts, List.forall_mem_cons, done,
        register_held, far]
      tauto
  | lea dr offset =>
      simp only [Instruction.opcode, Except.ok.injEq, lea.injEq, Encodable, parts, List.forall_mem_cons, done,
        register_held, near]
      tauto
  | st sr offset =>
      simp only [Instruction.opcode, Except.ok.injEq, st.injEq, Encodable, parts, List.forall_mem_cons, done,
        register_held, near]
      tauto
  | sti sr offset =>
      simp only [Instruction.opcode, Except.ok.injEq, sti.injEq, Encodable, parts, List.forall_mem_cons, done,
        register_held, near]
      tauto
  | str sr base offset =>
      simp only [Instruction.opcode, Except.ok.injEq, str.injEq, Encodable, parts, List.forall_mem_cons, done,
        register_held, far]
      tauto
  | trap service =>
      simp only [Instruction.opcode, Encodable, parts, List.forall_mem_cons, done, ← service_held, and_true, true_and]
      cases Service.ofWord? word with
      | none => exact iff_of_false nofun nofun
      | some other => rw [Except.ok.injEq, trap.injEq, Option.some.injEq]

theorem decode_layout (word : Word) (instruction : Instruction) :
    decode word = .ok instruction ↔ instruction.Encodable ∧ ∀ part ∈ instruction.layout, part.Held word := by
  rw [layout, List.forall_mem_cons, ← opcode_held]
  constructor
  · intro decoded
    have opcode := decode_opcode word instruction decoded
    obtain ⟨encodable, held⟩ := (decode_parts word instruction opcode).mp decoded
    exact ⟨encodable, opcode, held⟩
  · rintro ⟨encodable, opcode, held⟩
    exact (decode_parts word instruction opcode).mpr ⟨encodable, held⟩

theorem layout_stacked (instruction : Instruction) : Part.Stacked 16 instruction.layout := by
  cases instruction with
  | add dr sr operand => cases operand <;> simp [layout, parts, Operand.parts, Part.Stacked]
  | and dr sr operand => cases operand <;> simp [layout, parts, Operand.parts, Part.Stacked]
  | jsr target => cases target <;> simp [layout, parts, Target.parts, Part.Stacked]
  | _ => simp [layout, parts, Part.Stacked]

theorem layout_covers (instruction : Instruction) :
    (~~~instruction.ignored).toNat = Part.total Part.full instruction.layout := by
  cases instruction with
  | add dr sr operand =>
      cases operand <;> simp [ignored, layout, parts, Operand.parts, Part.full, opcode, Opcode.number]
  | and dr sr operand =>
      cases operand <;> simp [ignored, layout, parts, Operand.parts, Part.full, opcode, Opcode.number]
  | jsr target => cases target <;> simp [ignored, layout, parts, Target.parts, Part.full, opcode, Opcode.number]
  | _ => simp [ignored, layout, parts, Part.full, opcode, Opcode.number]

theorem assemble_number (instruction : Instruction) :
    instruction.assemble.toNat = Part.total Part.value instruction.layout :=
  UInt16.toNat_ofNat_of_lt' (Part.total_lt Part.value 16 instruction.layout (layout_stacked instruction))

theorem assemble_layout (word : Word) (instruction : Instruction) :
    instruction.assemble = word &&& ~~~instruction.ignored ↔ ∀ part ∈ instruction.layout, part.Held word := by
  have stacked := layout_stacked instruction
  rw [← UInt16.toNat_inj, assemble_number, UInt16.toNat_and, layout_covers,
    Part.and_total word.toNat 16 instruction.layout stacked, Part.total_congr _ _ 16 instruction.layout stacked]
  refine forall₂_congr fun part member => ?_
  rw [Part.Held, Table.field_bits]
  exact eq_comm

theorem decode_assembles (word : Word) (instruction : Instruction) :
    decode word = .ok instruction ↔
      instruction.Encodable ∧ instruction.assemble = word &&& ~~~instruction.ignored := by
  rw [decode_layout, assemble_layout]

theorem decode_error (word : Word) (fault : Fault) :
    decode word = .error fault ↔
      (fault = .opcode word ∧ (word.toNat / 0x1000 = 0x8 ∨ word.toNat / 0x1000 = 0xD)) ∨
        (fault = .service word ∧ word.toNat / 0x1000 = 0xF ∧ word.toNat % 0x100 ∉ [0x20, 0x21, 0x22, 0x25]) := by
  rw [← Opcode.of_word_number, ← Service.of_word_none]
  cases opcode : Opcode.ofWord word with
  | trap => cases service : Service.ofWord? word <;> simp [decode, opcode, service, Opcode.number, eq_comm]
  | _ => simp [decode, opcode, Opcode.number, eq_comm]

theorem assemble_unmasked (instruction : Instruction) :
    instruction.assemble = instruction.assemble &&& ~~~instruction.ignored := by
  have stacked := layout_stacked instruction
  rw [assemble_layout]
  intro part member
  rw [Part.Held, Table.field_bits, Table.bits, assemble_number]
  exact Part.total_field Part.value 16 instruction.layout stacked part member

theorem decoding_inverts_assembling :
    (∀ instruction : Instruction, instruction.Encodable → decode instruction.assemble = .ok instruction) ∧
      (∀ word : Word,
        (decode word = .error (.opcode word) ↔ word.toNat / 0x1000 = 0x8 ∨ word.toNat / 0x1000 = 0xD) ∧
        (decode word = .error (.service word) ↔
          word.toNat / 0x1000 = 0xF ∧ word.toNat % 0x100 ∉ [0x20, 0x21, 0x22, 0x25]) ∧
        (∀ fault, decode word = .error fault → fault = .opcode word ∨ fault = .service word) ∧
        ∀ instruction, decode word = .ok instruction →
          instruction.Encodable ∧ instruction.opcode = Opcode.ofWord word ∧
            instruction.assemble = word &&& ~~~instruction.ignored) ∧
      ∀ (left right : Word) (first second : Instruction), decode left = .ok first → decode right = .ok second →
        (first = second ↔ left &&& ~~~first.ignored = right &&& ~~~first.ignored) := by
  refine ⟨fun instruction encodable => ?_, fun word => ⟨?_, ?_, fun fault failed => ?_, fun instruction decoded => ?_⟩,
    fun left right first second one other => ?_⟩
  · exact (decode_assembles _ instruction).mpr ⟨encodable, assemble_unmasked instruction⟩
  · simp [decode_error]
  · simp [decode_error]
  · obtain ⟨same, -⟩ | ⟨same, -⟩ := (decode_error word fault).mp failed
    · exact .inl same
    · exact .inr same
  · obtain ⟨encodable, assembles⟩ := (decode_assembles word instruction).mp decoded
    exact ⟨encodable, (decode_opcode word instruction decoded).symm, assembles⟩
  · obtain ⟨encodable, assembles⟩ := (decode_assembles left first).mp one
    constructor
    · intro same
      subst same
      rw [← assembles]
      exact ((decode_assembles right first).mp other).2
    · intro same
      have again := (decode_assembles right first).mpr ⟨encodable, assembles.trans same⟩
      exact Except.ok.inj (again.symm.trans other)

end Instruction

end LittleComputer
