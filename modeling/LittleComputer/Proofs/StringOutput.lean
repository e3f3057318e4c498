import LittleComputer.Proofs.Exchange
import LittleComputer.Proofs.Strings

set_option autoImplicit false

namespace LittleComputer

namespace Memory

def SameString (left right : Memory) (address : Word) (count : Nat) : Prop :=
  ∀ offset, offset ≤ count → left.read (address + .ofNat offset) = right.read (address + .ofNat offset)

theorem same_string_words (left right : Memory) (address : Word) (count : Nat)
    (same : left.SameString right address count) : left.words address count = right.words address count := by
  apply List.map_congr_left
  intro offset member
  exact same offset (Nat.le_of_lt (List.mem_range.mp member))

theorem same_string_ends (left right : Memory) (address : Word) (count : Nat)
    (same : left.SameString right address count) (ends : right.EndsAt address count) : left.EndsAt address count := by
  constructor
  · rw [same count (Nat.le_refl count)]
    exact ends.zero
  · intro offset earlier
    rw [same offset (Nat.le_of_lt earlier)]
    exact ends.before offset earlier

end Memory

namespace Core

variable {σ : Type}

def string (core : Core) (count : Nat) : List UInt8 := (core.memory.words core.r0 count).map Word.lowByte

theorem output_string (core : Core) (count : Nat) (ends : core.memory.EndsAt core.r0 count) :
    core.output? .puts = some (core.string count) := by
  simp only [output?, Memory.string_ends core.memory core.r0 count ends, Option.map_some, string]

theorem string_byte (core : Core) (count offset : Nat) (within : offset < count) :
    (core.string count)[offset]? = some (core.memory.read (core.r0 + .ofNat offset)).lowByte := by
  simp [string, Memory.words, within]

theorem output_elsewhere (core : Core) (memory : Memory) (count : Nat) (ends : core.memory.EndsAt core.r0 count)
    (same : memory.SameString core.memory core.r0 count) :
    ({ core with memory } : Core).output? .puts = some (core.string count) := by
  have other := Memory.same_string_ends memory core.memory core.r0 count same ends
  have words := Memory.same_string_words memory core.memory core.r0 count same
  rw [output_string { core with memory } count other]
  exact congrArg (fun words => some (words.map Word.lowByte)) words

theorem print_elsewhere (console : Console σ) (core : Core) (memory : Memory) (next : Word) (bytes : List UInt8)
    (state : σ) :
    ({ core with memory } : Core).print console next bytes state =
      ((core.print console next bytes state).1, { (core.print console next bytes state).2.1 with memory },
        (core.print console next bytes state).2.2) := by
  simp only [print]
  cases console.writeAll bytes state with
  | mk all later => cases all <;> rfl

theorem puts_sends_string (core : Core) (zero : ∃ address, core.memory.read address = 0) :
    ∃ count, count < Memory.size ∧ core.memory.EndsAt core.r0 count ∧
      core.output? .puts = some (core.string count) ∧
      (∀ offset, offset ≤ count → core.memory.read (core.r0 + .ofNat offset) ≠ 0 →
        (core.string count)[offset]? = some (core.memory.read (core.r0 + .ofNat offset)).lowByte) ∧
      (∀ (σ : Type) (console : Console σ) (next : Word) (state : σ),
        ∃ outcome after later log, core.Delivers next (core.string count) outcome after log ∧
          core.serve console .puts next state = (some outcome, after, later) ∧
          core.serve console.recorded .puts next (state, []) = (some outcome, after, later, log)) ∧
      ∀ memory : Memory, memory.SameString core.memory core.r0 count →
        ({ core with memory } : Core).output? .puts = core.output? .puts ∧
        ∀ (σ : Type) (console : Console σ) (next : Word) (state : σ),
          ({ core with memory } : Core).serve console .puts next state =
            ((core.serve console .puts next state).1, { (core.serve console .puts next state).2.1 with memory },
              (core.serve console .puts next state).2.2) := by
  obtain ⟨address, found⟩ := zero
  obtain ⟨count, bound, ends⟩ := Memory.zero_ends core.memory core.r0 address found
  have output := output_string core count ends
  refine ⟨count, bound, ends, output, ?_, ?_, ?_⟩
  · intro offset within nonzero
    have earlier : offset ≠ count := fun same => nonzero (same ▸ ends.zero)
    exact string_byte core count offset (Nat.lt_of_le_of_ne within earlier)
  · intro σ console next state
    exact serve_delivers console core .puts next _ state (.inr rfl) output
  · intro memory same
    have elsewhere := output_elsewhere core memory count ends same
    refine ⟨elsewhere.trans output.symm, ?_⟩
    intro σ console next state
    rw [serve_output console _ .puts next _ state (.inr rfl) elsewhere, print_elsewhere,
      serve_output console core .puts next _ state (.inr rfl) output]

-- The string goes on at address 0 after the last one, and its first word is nonzero but has the low byte 0.
def crossing : Core where
  registers := Registers.set {} (Register.ofField 0 0) 0xFFFF
  memory := (Memory.zero.write 0xFFFF 0x0100).write 0 0x0141

theorem puts_sends_string_crossing : crossing.output? .puts = some [0x00, 0x41] := by
  have cell (address : Word) : crossing.memory.read address =
      if 0 = address then 0x0141 else if 0xFFFF = address then 0x0100 else 0 := by
    simp only [crossing, Memory.read_write, Memory.read_zero]
  obtain ⟨count, -, ends, output, -⟩ := puts_sends_string crossing ⟨1, by rw [cell]; rfl⟩
  have r0 : crossing.r0 = 0xFFFF := by decide
  have two : crossing.memory.EndsAt crossing.r0 2 := by
    rw [r0, Memory.ends_at_succ, Memory.ends_at_succ, Memory.ends_at_zero, cell, cell, cell]
    decide
  obtain rfl := Memory.ends_at_unique crossing.memory crossing.r0 count 2 ends two
  rw [output]
  simp only [string, r0, Memory.words, cell]
  decide

end Core

end LittleComputer
