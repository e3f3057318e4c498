import LittleComputer.Memory
import Mathlib.Data.Nat.Find

set_option autoImplicit false

namespace LittleComputer.Memory

def words (memory : Memory) (address : Word) (count : Nat) : List Word :=
  (List.range count).map fun offset => memory.read (address + .ofNat offset)

structure EndsAt (memory : Memory) (address : Word) (count : Nat) : Prop where
  zero : memory.read (address + .ofNat count) = 0
  before : ∀ offset, offset < count → memory.read (address + .ofNat offset) ≠ 0

theorem add_zero_offset (address : Word) : address + .ofNat 0 = address := UInt16.add_zero address

theorem add_next_offset (address : Word) (offset : Nat) :
    address + .ofNat (offset + 1) = address + 1 + .ofNat offset := by
  rw [UInt16.ofNat_add, UInt16.add_comm (.ofNat offset), ← UInt16.add_assoc]
  rfl

theorem words_succ (memory : Memory) (address : Word) (count : Nat) :
    memory.words address (count + 1) = memory.read address :: memory.words (address + 1) count := by
  simp only [words, List.range_succ_eq_map, List.map_cons, List.map_map, add_zero_offset]
  refine congrArg _ (List.map_congr_left fun offset _ => ?_)
  simp only [Function.comp_apply, add_next_offset]

theorem words_length (memory : Memory) (address : Word) (count : Nat) :
    (memory.words address count).length = count := by
  simp [words]

theorem ends_at_zero (memory : Memory) (address : Word) : memory.EndsAt address 0 ↔ memory.read address = 0 := by
  constructor
  · intro ends
    simpa only [add_zero_offset] using ends.zero
  · intro zero
    refine ⟨by rw [add_zero_offset]; exact zero, ?_⟩
    intro offset bound
    exact absurd bound (Nat.not_lt_zero offset)

theorem ends_at_succ (memory : Memory) (address : Word) (count : Nat) :
    memory.EndsAt address (count + 1) ↔ memory.read address ≠ 0 ∧ memory.EndsAt (address + 1) count := by
  constructor
  · intro ends
    refine ⟨?_, ?_, ?_⟩
    · simpa only [add_zero_offset] using ends.before 0 (Nat.succ_pos count)
    · simpa only [add_next_offset] using ends.zero
    · intro offset bound
      simpa only [add_next_offset] using ends.before (offset + 1) (Nat.succ_lt_succ bound)
  · intro ends
    obtain ⟨nonzero, later⟩ := ends
    refine ⟨by rw [add_next_offset]; exact later.zero, ?_⟩
    intro offset bound
    cases offset with
    | zero =>
        rw [add_zero_offset]
        exact nonzero
    | succ offset =>
        rw [add_next_offset]
        exact later.before offset (Nat.lt_of_succ_lt_succ bound)

theorem ends_at_unique (memory : Memory) (address : Word) (left right : Nat) (ends : memory.EndsAt address left)
    (other : memory.EndsAt address right) : left = right := by
  have later : ¬left < right := fun less => other.before left less ends.zero
  have earlier : ¬right < left := fun less => ends.before right less other.zero
  omega

theorem string_within_iff (memory : Memory) (fuel : Nat) (address : Word) (string : List Word) :
    memory.stringWithin fuel address = some string ↔
      ∃ count, count < fuel ∧ memory.EndsAt address count ∧ string = memory.words address count := by
  induction fuel generalizing address string with
  | zero => simp [stringWithin]
  | succ fuel ih =>
      by_cases zero : memory.read address = 0
      · rw [stringWithin, if_pos zero]
        constructor
        · intro found
          cases found
          exact ⟨0, Nat.succ_pos fuel, (ends_at_zero memory address).mpr zero, rfl⟩
        · intro found
          obtain ⟨count, -, ends, rfl⟩ := found
          rw [ends_at_unique memory address count 0 ends ((ends_at_zero memory address).mpr zero)]
          rfl
      · rw [stringWithin, if_neg zero, Option.map_eq_some_iff]
        constructor
        · intro found
          obtain ⟨rest, within, rfl⟩ := found
          obtain ⟨count, bound, ends, rfl⟩ := (ih (address + 1) rest).mp within
          refine ⟨count + 1, Nat.succ_lt_succ bound, (ends_at_succ memory address count).mpr ⟨zero, ends⟩, ?_⟩
          rw [words_succ]
        · intro found
          obtain ⟨count, bound, ends, rfl⟩ := found
          -- the first word is not zero, so the end is further on
          cases count with
          | zero => exact absurd ((ends_at_zero memory address).mp ends) zero
          | succ count =>
              refine ⟨memory.words (address + 1) count, (ih _ _).mpr ⟨count, ?_, ?_, rfl⟩, ?_⟩
              · exact Nat.lt_of_succ_lt_succ bound
              · exact ((ends_at_succ memory address count).mp ends).2
              · rw [words_succ]

theorem zero_ends (memory : Memory) (address zero : Word) (ends : memory.read zero = 0) :
    ∃ count, count < size ∧ memory.EndsAt address count := by
  have reached : memory.read (address + .ofNat (zero - address).toNat) = 0 := by
    rw [UInt16.ofNat_toNat, UInt16.add_comm, UInt16.sub_add_cancel]
    exact ends
  have some : ∃ count, memory.read (address + .ofNat count) = 0 := ⟨_, reached⟩
  have least : Nat.find some ≤ (zero - address).toNat := Nat.find_min' some reached
  have bound : (zero - address).toNat < size := UInt16.toNat_lt _
  refine ⟨Nat.find some, by omega, Nat.find_spec some, ?_⟩
  intro offset earlier
  exact Nat.find_min some earlier

theorem ends_at_bound (memory : Memory) (address : Word) (count : Nat) (ends : memory.EndsAt address count) :
    count < size := by
  obtain ⟨least, bound, other⟩ := zero_ends memory address _ ends.zero
  rw [ends_at_unique memory address count least ends other]
  exact bound

theorem string_ends (memory : Memory) (address : Word) (count : Nat) (ends : memory.EndsAt address count) :
    memory.string? address = some (memory.words address count) :=
  (string_within_iff memory size address _).mpr ⟨count, ends_at_bound memory address count ends, ends, rfl⟩

theorem string_found (memory : Memory) (address zero : Word) (ends : memory.read zero = 0) :
    ∃ string, memory.string? address = some string := by
  obtain ⟨count, -, first⟩ := zero_ends memory address zero ends
  exact ⟨memory.words address count, string_ends memory address count first⟩

theorem string_length (memory : Memory) (address : Word) (string : List Word)
    (found : memory.string? address = some string) : string.length < size := by
  obtain ⟨count, bound, -, rfl⟩ := (string_within_iff memory size address string).mp found
  rw [words_length]
  exact bound

end LittleComputer.Memory
