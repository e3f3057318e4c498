import LittleComputer.Proofs.Utf8
import LittleComputer.Terminal.Input
import LittleComputer.Terminal.Reader
import Mathlib.Data.List.SplitBy

set_option autoImplicit false

namespace LittleComputer

namespace PipedInput

-- A line ends at the first line feed, which belongs to it. The last may have none.
inductive Lines : List UInt8 → List (List UInt8) → Prop
  | none : Lines [] []
  | last (line : List UInt8) (something : line ≠ []) (unfed : 0x0A ∉ line) : Lines line [line]
  | next (line rest : List UInt8) (lines : List (List UInt8)) (unfed : 0x0A ∉ line) (others : Lines rest lines) :
      Lines (line ++ 0x0A :: rest) ((line ++ [0x0A]) :: lines)

inductive Decoded : List (List UInt8) → List (List Char) → Prop
  | none : Decoded [] []
  | invalid (line : List UInt8) (lines : List (List UInt8)) (invalid : ¬line.toByteArray.IsValidUTF8) :
      Decoded (line :: lines) []
  | next (text : List Char) (lines : List (List UInt8)) (texts : List (List Char)) (others : Decoded lines texts) :
      Decoded (Utf8.encode text :: lines) (text :: texts)

theorem first_line_next (line rest : List UInt8) (unfed : 0x0A ∉ line) :
    firstLine (line ++ 0x0A :: rest) = (line ++ [0x0A], rest) := by
  induction line with
  | nil => rfl
  | cons byte line ih =>
      obtain ⟨other, unfedRest⟩ := not_or.mp (List.mem_cons.not.mp unfed)
      rw [List.cons_append, firstLine, if_neg (Ne.symm other), ih unfedRest]
      rfl

theorem first_line_last (line : List UInt8) (unfed : 0x0A ∉ line) : firstLine line = (line, []) := by
  induction line with
  | nil => rfl
  | cons byte line ih =>
      obtain ⟨other, unfedRest⟩ := not_or.mp (List.mem_cons.not.mp unfed)
      rw [firstLine, if_neg (Ne.symm other), ih unfedRest]

theorem unfed_chain (line : List UInt8) (unfed : 0x0A ∉ line) :
    (line ++ [0x0A]).IsChain fun byte _ => (byte != 0x0A) = true := by
  induction line with
  | nil => exact List.isChain_singleton 0x0A
  | cons byte line ih =>
      obtain ⟨other, unfedRest⟩ := not_or.mp (List.mem_cons.not.mp unfed)
      exact List.isChain_cons.mpr ⟨fun _ _ => bne_iff_ne.mpr (Ne.symm other), ih unfedRest⟩

theorem lines_last (line : List UInt8) (something : line ≠ []) (unfed : 0x0A ∉ line) : lines line = [line] :=
  List.splitBy_of_isChain something (List.isChain_append.mp (unfed_chain line unfed)).1

theorem lines_next (line rest : List UInt8) (unfed : 0x0A ∉ line) :
    lines (line ++ 0x0A :: rest) = (line ++ [0x0A]) :: lines rest := by
  have apart : ∀ left ∈ (line ++ [0x0A]).getLast?, ∀ right ∈ rest.head?,
      (fun byte _ => byte != 0x0A) left right = false := by
    intro left last right _
    rw [List.getLast?_concat] at last
    cases last
    rfl
  rw [List.append_cons, lines, List.splitBy_append apart,
    List.splitBy_of_isChain (List.concat_ne_nil 0x0A line) (unfed_chain line unfed)]
  rfl

theorem lines_are (bytes : List UInt8) : Lines bytes (lines bytes) := by
  by_cases feeds : 0x0A ∈ bytes
  · obtain ⟨line, rest, rfl, unfed⟩ := List.eq_append_cons_of_mem feeds
    rw [lines_next line rest unfed]
    exact .next line rest (lines rest) unfed (lines_are rest)
  · cases bytes with
    | nil => exact .none
    | cons byte rest =>
        rw [lines_last (byte :: rest) (List.cons_ne_nil byte rest) feeds]
        exact .last (byte :: rest) (List.cons_ne_nil byte rest) feeds
termination_by bytes.length
decreasing_by
  subst_vars
  simp only [List.length_append, List.length_cons]
  omega

theorem lines_unique (bytes : List UInt8) (cut : List (List UInt8)) (split : Lines bytes cut) : cut = lines bytes := by
  induction split with
  | none => rfl
  | last line something unfed => exact (lines_last line something unfed).symm
  | next line rest others unfed split ih => rw [lines_next line rest unfed, ← ih]

theorem lines_first (bytes : List UInt8) (something : bytes ≠ []) :
    lines bytes = (firstLine bytes).1 :: lines (firstLine bytes).2 := by
  by_cases feeds : 0x0A ∈ bytes
  · obtain ⟨line, rest, rfl, unfed⟩ := List.eq_append_cons_of_mem feeds
    rw [lines_next line rest unfed, first_line_next line rest unfed]
  · rw [lines_last bytes something feeds, first_line_last bytes feeds]
    rfl

theorem first_line_parts (bytes : List UInt8) : (firstLine bytes).1 ++ (firstLine bytes).2 = bytes := by
  fun_induction firstLine bytes with
  | case1 => rfl
  | case2 => rfl
  | case3 byte rest other line later first ih =>
      rw [first] at ih
      exact congrArg (byte :: ·) ih

theorem first_line_something (bytes : List UInt8) (something : bytes ≠ []) : (firstLine bytes).1 ≠ [] := by
  cases bytes with
  | nil => exact absurd rfl something
  | cons byte rest =>
      unfold firstLine
      split <;> exact List.cons_ne_nil _ _

theorem texts_next (text : List Char) (lines : List (List UInt8)) :
    texts (Utf8.encode text :: lines) = text :: texts lines := by
  simp only [texts, List.map_cons, Utf8.decode_encode]
  rfl

theorem texts_invalid (line : List UInt8) (lines : List (List UInt8)) (invalid : Utf8.decode? line = none) :
    texts (line :: lines) = [] := by
  simp only [texts, List.map_cons, invalid]
  rfl

theorem texts_are (lines : List (List UInt8)) : Decoded lines (texts lines) := by
  induction lines with
  | nil => exact .none
  | cons line lines ih =>
      cases decoded : Utf8.decode? line with
      | none =>
          rw [texts_invalid line lines decoded]
          exact .invalid line lines ((Utf8.decode_none line).mp decoded)
      | some text =>
          obtain rfl := (Utf8.decode_some line text).mp decoded
          rw [texts_next]
          exact .next text lines (texts lines) ih

theorem texts_unique (lines : List (List UInt8)) (read : List (List Char)) (decoded : Decoded lines read) :
    read = texts lines := by
  induction decoded with
  | none => rfl
  | invalid line lines invalid => exact (texts_invalid line lines ((Utf8.decode_none line).mpr invalid)).symm
  | next text lines texts others ih => rw [texts_next, ← ih]

theorem chars_none : chars [] = [] := rfl

theorem chars_first (bytes : List UInt8) (text : List Char) (something : bytes ≠ [])
    (decoded : Utf8.decode? (firstLine bytes).1 = some text) :
    chars bytes = text ++ chars (firstLine bytes).2 := by
  have same := (Utf8.decode_some (firstLine bytes).1 text).mp decoded
  rw [chars, lines_first bytes something, same, texts_next]
  rfl

theorem chars_invalid (bytes : List UInt8) (something : bytes ≠ [])
    (invalid : Utf8.decode? (firstLine bytes).1 = none) : chars bytes = [] := by
  rw [chars, lines_first bytes something, texts_invalid _ _ invalid]
  rfl

theorem texts_encode (bytes : List UInt8) (lines : List (List UInt8)) (split : Lines bytes lines) (text : List Char)
    (encoded : bytes = Utf8.encode text) : (texts lines).flatten = text := by
  induction split generalizing text with
  | none =>
      cases text with
      | nil => rfl
      | cons char rest =>
          have longer := Utf8.encode_longer (char :: rest)
          rw [← encoded] at longer
          cases longer
  | last line something unfed =>
      rw [encoded, texts_next]
      exact List.append_nil text
  | next line rest lines unfed others ih =>
      obtain ⟨first, later, rfl, rfl, rfl⟩ := Utf8.encode_cut text line rest unfed encoded.symm
      have fed : Utf8.encode first ++ [0x0A] = Utf8.encode (first ++ ['\n']) := (encode_append first ['\n']).symm
      rw [fed, texts_next, List.flatten_cons, ih later rfl, List.append_assoc]
      rfl

end PipedInput

end LittleComputer
