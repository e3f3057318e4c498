import LittleComputer.Text.Utf8

set_option autoImplicit false

namespace LittleComputer

theorem encode_append (left right : List Char) :
    Utf8.encode (left ++ right) = Utf8.encode left ++ Utf8.encode right := List.flatMap_append

namespace Utf8

theorem encode_cons (char : Char) (rest : List Char) :
    encode (char :: rest) = String.utf8EncodeChar char ++ encode rest := List.flatMap_cons

theorem char_bound (char : Char) : char.val.toNat < 0x110000 := by
  obtain low | ⟨-, high⟩ := char.valid
  · exact Nat.lt_trans low (by decide)
  · exact high

theorem length_number (lead : UInt8) :
    length lead =
      if lead.toNat < 0x80 then 1 else if lead.toNat < 0xE0 then 2 else if lead.toNat < 0xF0 then 3 else 4 := rfl

theorem bytes_of_char (char : Char) :
    ∃ lead tail, String.utf8EncodeChar char = lead :: tail ∧ length lead = tail.length + 1 ∧
      payload (lead :: tail) = char.toNat := by
  have bound := char_bound char
  rw [show char.toNat = char.val.toNat from rfl]
  unfold String.utf8EncodeChar
  dsimp only
  split
  · refine ⟨_, _, rfl, ?_, ?_⟩
    · rw [length_number, UInt8.toNat_ofNat', if_pos (by omega)]
      rfl
    · simp only [payload, UInt8.toNat_ofNat']
      omega
  split
  · refine ⟨_, _, rfl, ?_, ?_⟩
    · rw [length_number, UInt8.toNat_ofNat', if_neg (by omega), if_pos (by omega)]
      rfl
    · simp only [payload, UInt8.toNat_ofNat']
      omega
  split
  · refine ⟨_, _, rfl, ?_, ?_⟩
    · rw [length_number, UInt8.toNat_ofNat', if_neg (by omega), if_neg (by omega), if_pos (by omega)]
      rfl
    · simp only [payload, UInt8.toNat_ofNat']
      omega
  · refine ⟨_, _, rfl, ?_, ?_⟩
    · rw [length_number, UInt8.toNat_ofNat', if_neg (by omega), if_neg (by omega), if_neg (by omega)]
      rfl
    · simp only [payload, UInt8.toNat_ofNat']
      omega

theorem line_feed_alone (char : Char) (feeds : 0x0A ∈ String.utf8EncodeChar char) : char = '\n' := by
  have bound := char_bound char
  have number : char.val.toNat = 0x0A := by
    unfold String.utf8EncodeChar at feeds
    dsimp only at feeds
    repeat' split at feeds
    all_goals
      simp only [List.mem_cons, List.not_mem_nil, or_false, ← UInt8.toNat_inj, UInt8.toNat_ofNat'] at feeds
      have ten : UInt8.toNat 0x0A = 0x0A := rfl
      omega
  exact Char.toNat_inj.mp number

theorem next_encode (char : Char) (rest : List UInt8) :
    next? (String.utf8EncodeChar char ++ rest) = some (char, rest) := by
  obtain ⟨lead, tail, bytes, counted, which⟩ := bytes_of_char char
  have front : (lead :: (tail ++ rest)).take (tail.length + 1) = lead :: tail := by simp
  have back : (lead :: (tail ++ rest)).drop (tail.length + 1) = rest := by simp
  rw [bytes, List.cons_append]
  dsimp only [next?]
  rw [counted, front, back, which, Char.ofNat_toNat, if_pos bytes]

theorem next_encoded (bytes rest : List UInt8) (char : Char) (found : next? bytes = some (char, rest)) :
    bytes = String.utf8EncodeChar char ++ rest := by
  cases bytes with
  | nil => cases found
  | cons lead tail =>
      simp only [next?] at found
      split at found
      · rename_i same
        cases found
        rw [same, List.take_append_drop]
      · cases found

theorem decode_onto_next (done : List Char) (bytes rest : List UInt8) (char : Char)
    (found : next? bytes = some (char, rest)) : decodeOnto done bytes = decodeOnto (char :: done) rest := by
  have more : bytes.isEmpty = false := by
    cases bytes with
    | nil => cases found
    | cons lead tail => rfl
  rw [decodeOnto, more, if_neg Bool.false_ne_true]
  split
  · rename_i nothing
    cases found.symm.trans nothing
  · rename_i other left same
    cases found.symm.trans same
    rfl

theorem decode_onto_encode (done text : List Char) : decodeOnto done (encode text) = some (text.reverse ++ done) := by
  induction text generalizing done with
  | nil => rw [decodeOnto]; rfl
  | cons char rest ih =>
      rw [encode_cons, decode_onto_next done _ _ char (next_encode char (encode rest)), ih]
      simp

theorem decode_onto_encoded (done text : List Char) (bytes : List UInt8) (decoded : decodeOnto done bytes = some text) :
    ∃ read, text = read.reverse ++ done ∧ bytes = encode read := by
  fun_induction decodeOnto done bytes with
  | case1 done bytes none =>
      cases decoded
      exact ⟨[], rfl, List.isEmpty_iff.mp none⟩
  | case2 => cases decoded
  | case3 done bytes more char rest found ih =>
      obtain ⟨read, whole, left⟩ := ih decoded
      refine ⟨char :: read, by simp [whole], ?_⟩
      rw [encode_cons, ← left]
      exact next_encoded bytes rest char found

theorem decode_encode (text : List Char) : decode? (encode text) = some text := by
  rw [decode?, decode_onto_encode, List.append_nil, Option.map_some, List.reverse_reverse]

theorem decode_some (bytes : List UInt8) (text : List Char) : decode? bytes = some text ↔ bytes = encode text := by
  refine ⟨fun decoded => ?_, fun same => by rw [same, decode_encode]⟩
  obtain ⟨read, onto, rfl⟩ := Option.map_eq_some_iff.mp decoded
  obtain ⟨characters, rfl, encoded⟩ := decode_onto_encoded [] read bytes onto
  rw [encoded, List.append_nil, List.reverse_reverse]

theorem decode_none (bytes : List UInt8) : decode? bytes = none ↔ ¬bytes.toByteArray.IsValidUTF8 := by
  rw [Option.eq_none_iff_forall_ne_some]
  constructor
  · rintro never ⟨text, same⟩
    exact never text ((decode_some bytes text).mpr (List.toByteArray_inj.mp same))
  · intro wrong text decoded
    exact wrong ⟨text, congrArg List.toByteArray ((decode_some bytes text).mp decoded)⟩

theorem encode_longer (text : List Char) : text.length ≤ (encode text).length := by
  induction text with
  | nil => exact Nat.le_refl 0
  | cons char rest ih =>
      obtain ⟨lead, tail, bytes, -⟩ := bytes_of_char char
      rw [encode_cons, bytes, List.length_append, List.length_cons, List.length_cons]
      omega

theorem encode_cut (text : List Char) (front later : List UInt8) (unfed : 0x0A ∉ front)
    (cut : encode text = front ++ 0x0A :: later) :
    ∃ line rest, text = line ++ '\n' :: rest ∧ front = encode line ∧ later = encode rest := by
  induction text generalizing front with
  | nil => cases front <;> cases cut
  | cons char rest ih =>
      rw [encode_cons] at cut
      by_cases feed : char = '\n'
      · subst feed
        cases front with
        | nil =>
            cases cut
            exact ⟨[], rest, rfl, rfl, rfl⟩
        | cons byte more =>
            obtain ⟨same, -⟩ := List.cons.inj cut
            exact absurd (same ▸ List.mem_cons_self) unfed
      -- the line feed comes after the bytes of this character or among them
      · obtain ⟨more, parts, encoded⟩ | ⟨more, bytes, left⟩ := List.append_eq_append_iff.mp cut
        · have unfedMore : 0x0A ∉ more := fun member => unfed (parts ▸ List.mem_append_right _ member)
          obtain ⟨line, after, rfl, rfl, rfl⟩ := ih more unfedMore encoded
          exact ⟨char :: line, after, rfl, parts, rfl⟩
        · cases more with
          | nil =>
              obtain ⟨line, after, rfl, none, rfl⟩ := ih [] List.not_mem_nil left.symm
              refine ⟨char :: line, after, rfl, ?_, rfl⟩
              rw [encode_cons, bytes, List.append_nil, ← none, List.append_nil]
          | cons byte more =>
              obtain ⟨same, -⟩ := List.cons.inj left
              have feeds : 0x0A ∈ String.utf8EncodeChar char := by
                rw [bytes, same]
                exact List.mem_append_right front List.mem_cons_self
              exact absurd (line_feed_alone char feeds) feed

end Utf8

end LittleComputer
