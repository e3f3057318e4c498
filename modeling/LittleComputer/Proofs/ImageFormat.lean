import LittleComputer.Image
import LittleComputer.Proofs.Strings
import Mathlib.Data.List.GetD

set_option autoImplicit false

namespace LittleComputer

def Word.bytes (word : Word) : List UInt8 := [.ofNat (word.toNat / 256), word.lowByte]

theorem Word.of_bytes_bytes (word : Word) : Word.ofBytes (.ofNat (word.toNat / 256)) word.lowByte = word := by
  have bound := word.toNat_lt
  apply UInt16.toNat.inj
  simp only [Word.ofBytes, Word.lowByte, UInt8.toNat_ofNat', UInt16.toNat_toUInt8, UInt16.toNat_ofNat']
  omega

namespace Memory

theorem add_offset_ne (address : Word) (offset : Nat) (positive : 0 < offset) (within : offset < size) :
    address + .ofNat offset ≠ address := by
  intro same
  have number := congrArg UInt16.toNat same
  have bound := address.toNat_lt
  rw [UInt16.toNat_add, UInt16.toNat_ofNat'] at number
  unfold size at within
  omega

theorem write_from_elsewhere (memory : Memory) (address target : Word) (words : List Word)
    (elsewhere : ∀ offset < words.length, target ≠ address + .ofNat offset) :
    (memory.writeFrom address words).read target = memory.read target := by
  induction words generalizing memory address with
  | nil => rfl
  | cons word rest ih =>
      have later : ∀ offset < rest.length, target ≠ address + 1 + .ofNat offset := by
        intro offset bound
        rw [← add_next_offset]
        exact elsewhere (offset + 1) (Nat.succ_lt_succ bound)
      have first : address ≠ target := by
        have apart := elsewhere 0 (Nat.succ_pos rest.length)
        rw [add_zero_offset] at apart
        exact Ne.symm apart
      rw [writeFrom, ih (memory.write address word) (address + 1) later, read_write, if_neg first]

theorem write_from_words (memory : Memory) (address : Word) (words : List Word) (within : words.length ≤ size) :
    (memory.writeFrom address words).words address words.length = words := by
  induction words generalizing memory address with
  | nil => rfl
  | cons word rest ih =>
      have shorter : rest.length < size := within
      have kept : ((memory.write address word).writeFrom (address + 1) rest).read address = word := by
        rw [write_from_elsewhere, read_write, if_pos rfl]
        intro offset bound
        rw [← add_next_offset]
        exact Ne.symm (add_offset_ne address (offset + 1) (Nat.succ_pos offset) (Nat.lt_of_le_of_lt bound shorter))
      rw [List.length_cons, words_succ, writeFrom, kept,
        ih (memory.write address word) (address + 1) (Nat.le_of_lt shorter)]

end Memory

namespace Image

def word (bytes : List UInt8) (index : Nat) : Word :=
  .ofBytes (bytes.getD (2 * index) 0) (bytes.getD (2 * index + 1) 0)

def firstWords (bytes : List UInt8) (count : Nat) : List Word := (List.range count).map (word bytes)

def room (address : Word) : Nat := 0xFFFF - address.toNat

theorem first_words_next (high low : UInt8) (rest : List UInt8) (count : Nat) :
    firstWords (high :: low :: rest) (count + 1) = .ofBytes high low :: firstWords rest count := by
  rw [firstWords, List.range_succ_eq_map, List.map_cons, List.map_map]
  rfl

theorem first_words_length (bytes : List UInt8) (count : Nat) : (firstWords bytes count).length = count := by
  rw [firstWords, List.length_map, List.length_range]

theorem room_limit (address : Word) : room address = 0 ↔ address = Address.imageLimit := by
  have bound := address.toNat_lt
  rw [← UInt16.toNat_inj, room]
  show 0xFFFF - address.toNat = 0 ↔ address.toNat = 0xFFFF
  omega

theorem room_next (address : Word) (below : address ≠ Address.imageLimit) : room address = room (address + 1) + 1 := by
  have some : room address ≠ 0 := fun none => below ((room_limit address).mp none)
  have next : (address + 1).toNat = (address.toNat + 1) % 65536 := UInt16.toNat_add address 1
  unfold room at some ⊢
  omega

theorem address_in_room (address : Word) (offset : Nat) (within : offset < room address) :
    (address + .ofNat offset).toNat = address.toNat + offset ∧ address.toNat + offset < 0xFFFF := by
  unfold room at within
  have number := UInt16.toNat_add address (.ofNat offset)
  rw [UInt16.toNat_ofNat'] at number
  omega

def Cut (address : Word) (bytes : List UInt8) : Prop :=
  bytes.length % 2 = 1 ∧ bytes.length / 2 < room address

theorem cut_next (address : Word) (high low : UInt8) (rest : List UInt8) (below : address ≠ Address.imageLimit) :
    Cut address (high :: low :: rest) ↔ Cut (address + 1) rest := by
  have some := room_next address below
  unfold Cut
  simp only [List.length_cons]
  omega

theorem room_end : room Address.imageLimit = 0 := rfl

theorem not_cut_limit (bytes : List UInt8) : ¬Cut Address.imageLimit bytes := fun cut => Nat.not_lt_zero _ cut.2

theorem fill_cut (memory : Memory) (address : Word) (bytes : List UInt8) (cut : Cut address bytes) :
    fill memory address bytes = .error (.halfWord (address + .ofNat (bytes.length / 2))) := by
  fun_induction fill memory address bytes with
  | case1 => exact absurd cut.1 (by decide)
  | case2 => exact absurd cut (not_cut_limit _)
  | case3 memory address byte below =>
      have half : [byte].length / 2 = 0 := by simp
      rw [half, Memory.add_zero_offset]
  | case4 => exact absurd cut (not_cut_limit _)
  | case5 memory address high low rest below ih =>
      have half : (high :: low :: rest).length / 2 = rest.length / 2 + 1 := by
        simp only [List.length_cons]
        omega
      rw [ih ((cut_next address high low rest below).mp cut), half, Memory.add_next_offset]

theorem fill_whole (memory : Memory) (address : Word) (bytes : List UInt8) (whole : ¬Cut address bytes) :
    fill memory address bytes =
      .ok (memory.writeFrom address (firstWords bytes (min (bytes.length / 2) (room address)))) := by
  fun_induction fill memory address bytes with
  | case1 => rw [List.length_nil, Nat.zero_div, Nat.zero_min]; rfl
  | case2 => rw [room_end, Nat.min_zero]; rfl
  | case3 memory address byte below =>
      have half : [byte].length / 2 = 0 := by simp
      have cut : Cut address [byte] := ⟨rfl, by rw [half, room_next address below]; exact Nat.succ_pos _⟩
      exact absurd cut whole
  | case4 => rw [room_end, Nat.min_zero]; rfl
  | case5 memory address high low rest below ih =>
      have count : min ((high :: low :: rest).length / 2) (room address) =
          min (rest.length / 2) (room (address + 1)) + 1 := by
        rw [room_next address below]
        simp only [List.length_cons]
        omega
      have remaining : ¬Cut (address + 1) rest := fun cut => whole ((cut_next address high low rest below).mpr cut)
      rw [ih remaining, count, first_words_next]
      rfl

theorem placed_below (address : Word) (count offset : Nat) (within : offset < min count (room address)) :
    (address + .ofNat offset).toNat = address.toNat + offset ∧ address.toNat + offset < 0xFFFF :=
  address_in_room address offset (Nat.lt_of_lt_of_le within (Nat.min_le_right _ _))

theorem fill_spares_limit (memory after : Memory) (address : Word) (bytes : List UInt8)
    (filled : fill memory address bytes = .ok after) :
    after.read Address.imageLimit = memory.read Address.imageLimit := by
  by_cases cut : Cut address bytes
  · rw [fill_cut memory address bytes cut] at filled
    cases filled
  · rw [fill_whole memory address bytes cut] at filled
    cases filled
    apply Memory.write_from_elsewhere
    intro offset bound same
    rw [first_words_length] at bound
    have number := placed_below address _ offset bound
    rw [← same] at number
    have last : Address.imageLimit.toNat = 0xFFFF := rfl
    omega

theorem flat_words_length (words : List Word) : (words.flatMap Word.bytes).length = 2 * words.length := by
  induction words with
  | nil => rfl
  | cons word rest ih =>
      rw [List.flatMap_cons, List.length_append, ih, List.length_cons]
      show 2 + 2 * rest.length = 2 * (rest.length + 1)
      omega

theorem first_words_flat (words : List Word) : firstWords (words.flatMap Word.bytes) words.length = words := by
  induction words with
  | nil => rfl
  | cons word rest ih =>
      have head : (word :: rest).flatMap Word.bytes =
          .ofNat (word.toNat / 256) :: word.lowByte :: rest.flatMap Word.bytes := rfl
      rw [head, List.length_cons, first_words_next, ih, Word.of_bytes_bytes]

theorem load_words (origin : Word) (words : List Word) (fits : words.length ≤ room origin) :
    load ⟨(origin :: words).flatMap Word.bytes, none⟩ = .ok (Memory.zero.writeFrom origin words) := by
  have opened : load ⟨(origin :: words).flatMap Word.bytes, none⟩ =
      fill .zero (.ofBytes (.ofNat (origin.toNat / 256)) origin.lowByte) (words.flatMap Word.bytes) := rfl
  have length := flat_words_length words
  have whole : ¬Cut origin (words.flatMap Word.bytes) := fun cut => by
    have odd := cut.1
    omega
  have count : min ((words.flatMap Word.bytes).length / 2) (room origin) = words.length := by omega
  rw [opened, Word.of_bytes_bytes, fill_whole .zero origin _ whole, count, first_words_flat]

theorem first_words_append (bytes more : List UInt8) (count : Nat) (enough : 2 * count ≤ bytes.length) :
    firstWords (bytes ++ more) count = firstWords bytes count := by
  apply List.map_congr_left
  intro index member
  have earlier := List.mem_range.mp member
  rw [word, word, List.getD_append _ _ _ _ (by omega), List.getD_append _ _ _ _ (by omega)]

theorem load_more (bytes more : List UInt8) (origin : 2 ≤ bytes.length) :
    load ⟨bytes ++ more, none⟩ = fill .zero (word bytes 0) (bytes.drop 2 ++ more) := by
  match bytes, origin with
  | _ :: _ :: _, _ => rfl

theorem load_body (bytes : List UInt8) (origin : 2 ≤ bytes.length) :
    load ⟨bytes, none⟩ = fill .zero (word bytes 0) (bytes.drop 2) := by
  have opened := load_more bytes [] origin
  rwa [List.append_nil, List.append_nil] at opened

theorem load_no_origin (bytes : List UInt8) (short : bytes.length < 2) : load ⟨bytes, none⟩ = .error .noOrigin := by
  match bytes, short with
  | [], _ => rfl
  | [_], _ => rfl

theorem word_body (bytes : List UInt8) (index : Nat) : word bytes (index + 1) = word (bytes.drop 2) index := by
  have high : 2 * (index + 1) = 2 + 2 * index := by omega
  simp only [word, high, Nat.add_assoc, List.getD_eq_getElem?_getD, List.getElem?_drop]

theorem cut_body (bytes : List UInt8) (address : Word) (origin : 2 ≤ bytes.length) :
    Cut address (bytes.drop 2) ↔ bytes.length % 2 = 1 ∧ (bytes.length - 2) / 2 < room address := by
  unfold Cut
  rw [List.length_drop]
  omega

theorem first_words_at (bytes : List UInt8) (memory : Memory) (address : Word) (count index : Nat)
    (earlier : index < count) (placed : memory.words address count = firstWords bytes count) :
    memory.read (address + .ofNat index) = word bytes index := by
  have both := congrArg (fun words => words[index]?) placed
  simpa [Memory.words, firstWords, earlier] using both

theorem load_cut (bytes : List UInt8) (enough : 2 ≤ bytes.length)
    (cut : bytes.length % 2 = 1 ∧ (bytes.length - 2) / 2 < room (word bytes 0)) :
    load ⟨bytes, none⟩ = .error (.halfWord (word bytes 0 + .ofNat ((bytes.length - 2) / 2))) := by
  rw [load_body bytes enough, fill_cut .zero _ _ ((cut_body bytes _ enough).mpr cut), List.length_drop]

theorem load_whole (bytes : List UInt8) (enough : 2 ≤ bytes.length)
    (whole : ¬(bytes.length % 2 = 1 ∧ (bytes.length - 2) / 2 < room (word bytes 0))) :
    load ⟨bytes, none⟩ = .ok (Memory.zero.writeFrom (word bytes 0)
      (firstWords (bytes.drop 2) (min ((bytes.length - 2) / 2) (room (word bytes 0))))) := by
  have uncut : ¬Cut (word bytes 0) (bytes.drop 2) := fun cut => whole ((cut_body bytes _ enough).mp cut)
  rw [load_body bytes enough, fill_whole .zero _ _ uncut, List.length_drop]

theorem load_full (bytes more : List UInt8) (enough : 2 ≤ bytes.length)
    (full : room (word bytes 0) ≤ (bytes.length - 2) / 2) :
    load ⟨bytes ++ more, none⟩ =
      .ok (Memory.zero.writeFrom (word bytes 0) (firstWords (bytes.drop 2) (room (word bytes 0)))) := by
  have length : (bytes.drop 2 ++ more).length = bytes.length - 2 + more.length := by
    rw [List.length_append, List.length_drop]
  have uncut : ¬Cut (word bytes 0) (bytes.drop 2 ++ more) := fun cut => by
    have short := cut.2
    omega
  have count : min ((bytes.drop 2 ++ more).length / 2) (room (word bytes 0)) = room (word bytes 0) := by omega
  have long : 2 * room (word bytes 0) ≤ (bytes.drop 2).length := by
    rw [List.length_drop]
    omega
  rw [load_more bytes more enough, fill_whole .zero _ _ uncut, count, first_words_append _ more _ long]

theorem write_from_reads (bytes : List UInt8) (address : Word) (count index : Nat) (earlier : index < count)
    (within : count ≤ Memory.size) :
    (Memory.zero.writeFrom address (firstWords bytes count)).read (address + .ofNat index) = word bytes index := by
  have length := first_words_length bytes count
  have placed := Memory.write_from_words .zero address (firstWords bytes count) (by rw [length]; exact within)
  rw [length] at placed
  exact first_words_at bytes _ address count index earlier placed

theorem image_format (bytes : List UInt8) :
    let origin := word bytes 0
    let whole := (bytes.length - 2) / 2
    let limit := 0xFFFF - origin.toNat
    (bytes.length < 2 → load ⟨bytes, none⟩ = .error .noOrigin) ∧
      (2 ≤ bytes.length → bytes.length % 2 = 1 ∧ whole < limit →
        load ⟨bytes, none⟩ = .error (.halfWord (origin + .ofNat whole)) ∧
          (origin + .ofNat whole).toNat = origin.toNat + whole) ∧
      (2 ≤ bytes.length → ¬(bytes.length % 2 = 1 ∧ whole < limit) →
        ∃ memory, load ⟨bytes, none⟩ = .ok memory ∧
          (∀ index < min whole limit, memory.read (origin + .ofNat index) = word bytes (index + 1) ∧
            (origin + .ofNat index).toNat = origin.toNat + index) ∧
          ∀ address, (∀ index < min whole limit, address ≠ origin + .ofNat index) → memory.read address = 0) ∧
      (∀ memory after, fill memory origin (bytes.drop 2) = .ok after →
        after.read Address.imageLimit = memory.read Address.imageLimit) ∧
      (2 ≤ bytes.length → limit ≤ whole → ∀ more, load ⟨bytes ++ more, none⟩ = load ⟨bytes, none⟩) ∧
      ∀ (start : Word) (words : List Word), words.length ≤ 0xFFFF - start.toNat →
        ∃ memory, load ⟨(start :: words).flatMap Word.bytes, none⟩ = .ok memory ∧
          memory.words start words.length = words ∧
          ∀ address, (∀ index < words.length, address ≠ start + .ofNat index) → memory.read address = 0 := by
  intro origin whole limit
  refine ⟨load_no_origin bytes, ?_, ?_, fun memory after => fill_spares_limit memory after origin _, ?_, ?_⟩
  · intro enough cut
    exact ⟨load_cut bytes enough cut, (address_in_room origin whole cut.2).1⟩
  · intro enough uncut
    have bound : min whole limit ≤ Memory.size := by
      unfold Memory.size
      omega
    refine ⟨_, load_whole bytes enough uncut, fun index earlier => ⟨?_, ?_⟩, fun address elsewhere => ?_⟩
    · rw [word_body]
      exact write_from_reads (bytes.drop 2) origin _ index earlier bound
    · exact (placed_below origin whole index earlier).1
    · rw [Memory.write_from_elsewhere _ _ _ _ (by rw [first_words_length]; exact elsewhere), Memory.read_zero]
  · intro enough full more
    have alone := load_full bytes [] enough full
    rw [List.append_nil] at alone
    exact (load_full bytes more enough full).trans alone.symm
  · intro start words fits
    have within : words.length ≤ Memory.size := by
      unfold Memory.size
      omega
    refine ⟨_, load_words start words fits, Memory.write_from_words .zero start words within,
      fun address elsewhere => ?_⟩
    rw [Memory.write_from_elsewhere _ _ _ _ elsewhere, Memory.read_zero]

end Image

end LittleComputer
