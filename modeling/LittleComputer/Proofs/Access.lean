import LittleComputer.Proofs.Step

set_option autoImplicit false

namespace LittleComputer

def Memory.scanned (memory : Memory) : Nat → Word → List Word
  | 0, _ => []
  | fuel + 1, address =>
      if memory.read address = 0 then [address] else address :: memory.scanned fuel (address + 1)

namespace Core

def loads (core : Core) : Instruction → List Word
  | .ld _ offset => [pcRelative (core.registers.pc + 1) offset]
  | .ldi _ offset =>
      [pcRelative (core.registers.pc + 1) offset, core.load (pcRelative (core.registers.pc + 1) offset)]
  | .ldr _ base offset => [core.baseRelative base offset]
  | _ => []

def stores? (core : Core) : Instruction → Option (Word × Word)
  | .st sr offset => some (pcRelative (core.registers.pc + 1) offset, core.registers.get sr)
  | .sti sr offset => some (core.memory.read (pcRelative (core.registers.pc + 1) offset), core.registers.get sr)
  | .str sr base offset => some (core.baseRelative base offset, core.registers.get sr)
  | _ => none

def reads (core : Core) (instruction : Instruction) : List Word :=
  core.loads instruction ++
    match instruction with
    | .sti _ offset => [pcRelative (core.registers.pc + 1) offset]
    | .trap .puts => core.memory.scanned Memory.size core.r0
    | _ => []

def ReadsDevice (core : Core) : Prop :=
  Address.isDevice core.registers.pc = true ∨
    ∃ instruction, Instruction.decode core.word = .ok instruction ∧
      ∃ address ∈ core.reads instruction, Address.isDevice address = true

theorem note_load_memory (core : Core) (address : Word) : (core.noteLoad address).memory = core.memory := by
  unfold noteLoad
  split <;> rfl

theorem note_load_key_latched (core : Core) (address : Word) :
    (core.noteLoad address).keyLatched = core.keyLatched := by
  simp only [keyLatched, note_load_memory]

theorem note_loads_key_read (core : Core) (addresses : List Word) :
    (addresses.foldl noteLoad core).keyRead =
      (core.keyRead || (decide (Address.keyboardData ∈ addresses) && core.keyLatched)) := by
  induction addresses generalizing core with
  | nil => simp
  | cons address rest ih =>
      have noted : (core.noteLoad address).keyRead =
          (core.keyRead || (decide (Address.keyboardData = address) && core.keyLatched)) := by
        rw [decide_eq_decide.mpr eq_comm]
        unfold noteLoad
        cases (decide (address = Address.keyboardData) && core.keyLatched) <;> simp
      rw [List.foldl_cons, ih, noted, note_load_key_latched]
      simp only [List.mem_cons, Bool.decide_or, Bool.and_or_distrib_right, Bool.or_assoc]

theorem computed_key_read (core : Core) (instruction : Instruction) :
    (core.computed instruction).keyRead =
      (core.keyRead || (decide (Address.keyboardData ∈ core.loads instruction) && core.keyLatched)) := by
  rw [← note_loads_key_read]
  cases instruction with
  | jsr target => cases target <;> rfl
  | _ => rfl

theorem computed_memory (core : Core) (instruction : Instruction) :
    (core.computed instruction).memory =
      (core.stores? instruction).elim core.memory fun pair => core.memory.write pair.1 pair.2 := by
  cases instruction with
  | ld dr offset => exact note_load_memory core _
  | ldi dr offset => exact (note_load_memory (core.noteLoad _) _).trans (note_load_memory core _)
  | ldr dr base offset => exact note_load_memory core _
  | jsr target => cases target <;> rfl
  | _ => rfl

end Core

end LittleComputer
