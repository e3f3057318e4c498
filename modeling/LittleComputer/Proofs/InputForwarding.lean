import LittleComputer.Proofs.Descent
import LittleComputer.Proofs.InputLines

set_option autoImplicit false

namespace LittleComputer

namespace Reader

def coming (reader : Reader) : List Char :=
  match reader.stage with
  | .reading => PipedInput.chars reader.unread
  | .sending sent => reader.buffer.drop sent ++ PipedInput.chars reader.unread
  | .finished => []

inductive Turned (reader : Reader) (line : Line) : Reader → Line → Prop
  | waits (waits : line.senderFree = true → reader.stage = .finished) : Turned reader line reader line
  | reads (text : List Char) (bytes later : List UInt8) (reading : reader.stage = .reading)
      (first : PipedInput.firstLine reader.unread = (bytes, later)) (something : bytes ≠ [])
      (decoded : Utf8.decode? bytes = some text) :
      Turned reader line { unread := later, buffer := text, stage := .sending 0 } line
  | ends (reading : reader.stage = .reading) (nothing : PipedInput.chars reader.unread = []) :
      Turned reader line { unread := (PipedInput.firstLine reader.unread).2, buffer := [], stage := .finished }
        line.closeSender
  | sends (sent : Nat) (char : Char) (sending : reader.stage = .sending sent) (next : reader.buffer[sent]? = some char)
      (free : line.senderFree = true) (listening : line.receiverOpen = true) :
      Turned reader line { reader with stage := .sending (sent + 1) } (line.put char)
  | refused (sent : Nat) (char : Char) (sending : reader.stage = .sending sent)
      (next : reader.buffer[sent]? = some char) (closed : line.receiverOpen = false) :
      Turned reader line { reader with stage := .finished } line.closeSender
  | sentAll (sent : Nat) (sending : reader.stage = .sending sent) (all : reader.buffer[sent]? = none) :
      Turned reader line { reader with stage := .reading } line

theorem turn_reading (reader : Reader) (line : Line) (free : line.senderFree = true)
    (reading : reader.stage = .reading) : Turned reader line (reader.turn line).1 (reader.turn line).2 := by
  rcases reader with ⟨unread, buffer, stage⟩
  obtain rfl : stage = .reading := reading
  unfold turn
  rw [if_pos free]
  simp only [clear, readLine, List.nil_append]
  cases decoded : Utf8.decode? (PipedInput.firstLine unread).1 with
  | none =>
      have something : unread ≠ [] := by
        rintro rfl
        cases (Utf8.decode_encode []).symm.trans decoded
      exact .ends rfl (PipedInput.chars_invalid unread something decoded)
  | some text =>
      cases unread with
      | nil =>
          cases (Utf8.decode_encode []).symm.trans decoded
          exact .ends rfl PipedInput.chars_none
      | cons byte rest =>
          have something := PipedInput.first_line_something (byte :: rest) (List.cons_ne_nil byte rest)
          obtain ⟨number, counted⟩ := Nat.exists_eq_succ_of_ne_zero (List.length_eq_zero_iff.not.mpr something)
          simp only [counted]
          exact .reads text _ _ rfl rfl something decoded

theorem turn_finished (reader : Reader) (line : Line) (finished : reader.stage = .finished) :
    reader.turn line = (reader, line) := by
  simp only [turn, finished, ite_self]

theorem turn_turned (reader : Reader) (line : Line) : Turned reader line (reader.turn line).1 (reader.turn line).2 := by
  by_cases free : line.senderFree = true
  · cases stage : reader.stage with
    | reading => exact turn_reading reader line free stage
    | sending sent =>
        cases next : reader.buffer[sent]? with
        | none =>
            have turned : reader.turn line = ({ reader with stage := .reading }, line) := by
              simp only [turn, free, stage, next, if_true]
            rw [turned]
            exact .sentAll sent stage next
        | some char =>
            cases listening : line.receiverOpen with
            | true =>
                have turned : reader.turn line = ({ reader with stage := .sending (sent + 1) }, line.put char) := by
                  simp only [turn, free, stage, next, listening, if_true]
                rw [turned]
                exact .sends sent char stage next free listening
            | false =>
                have turned : reader.turn line = reader.leave line := by
                  simp [turn, free, stage, next, listening]
                rw [turned]
                exact .refused sent char stage next listening
    | finished =>
        rw [turn_finished reader line stage]
        exact .waits fun _ => stage
  · rw [turn, if_neg free]
    exact .waits fun opposite => absurd opposite free

def due (reader : Reader) : Nat :=
  match reader.stage with
  | .reading => 4 * reader.unread.length + 1
  | .sending sent => 2 * (reader.buffer.length - sent) + 4 * reader.unread.length + 2
  | .finished => 0

end Reader

theorem Line.free_empty (line : Line) (empty : line.waiting = #[]) : line.senderFree = true := by
  rw [senderFree, empty]
  exact decide_eq_true (Nat.zero_le _)

structure Feed where
  reader : Reader
  line : Line
  taken : List Char := []

namespace Feed

inductive Turn where
  | read
  | take
deriving DecidableEq, Repr

def act (feed : Feed) : Turn → Feed
  | .read =>
      match feed.reader.turn feed.line with
      | (reader, line) => { feed with reader, line }
  | .take =>
      match feed.line.take with
      | (taken, line) => { feed with line, taken := feed.taken ++ taken.char?.toList }

def schedule (feed : Feed) (turns : List Turn) : Feed := turns.foldl act feed

def drop (feed : Feed) : Feed :=
  if feed.line.senderFree then { feed with line := feed.line.closeReceiver }
  else
    match feed.reader.leave feed.line.closeReceiver with
    | (reader, line) => { feed with reader, line }

def begin (bytes : List UInt8) (capacity : Nat) : Feed := { reader := { unread := bytes }, line := { capacity } }

theorem read_turned (feed : Feed) :
    ∃ reader line, Reader.Turned feed.reader feed.line reader line ∧ feed.act .read = { feed with reader, line } :=
  ⟨_, _, feed.reader.turn_turned feed.line, rfl⟩

structure Carries (whole : List Char) (feed : Feed) : Prop where
  listening : feed.line.receiverOpen = true
  all : feed.taken ++ feed.line.waiting.toList ++ feed.reader.coming = whole
  hangsUp : feed.reader.stage = .finished → feed.line.senderOpen = false

theorem begin_carries (bytes : List UInt8) (capacity : Nat) :
    (begin bytes capacity).Carries (PipedInput.chars bytes) := ⟨rfl, rfl, nofun⟩

theorem read_carries (whole : List Char) (feed : Feed) (carries : feed.Carries whole) :
    (feed.act .read).Carries whole := by
  obtain ⟨listening, all, hangsUp⟩ := carries
  obtain ⟨reader, line, turned, read⟩ := read_turned feed
  rw [read]
  cases turned with
  | waits => exact ⟨listening, all, hangsUp⟩
  | reads text bytes later reading first something decoded =>
      refine ⟨listening, ?_, fun finished => by cases finished⟩
      have unread : feed.reader.unread ≠ [] := by
        intro nothing
        rw [nothing] at first
        cases first
        exact something rfl
      have chars := PipedInput.chars_first feed.reader.unread text unread (by rw [first]; exact decoded)
      rw [← all]
      simp only [Reader.coming, reading, chars, first, List.drop_zero]
  | ends reading nothing =>
      refine ⟨listening, ?_, fun _ => rfl⟩
      rw [← all]
      simp only [Reader.coming, reading, nothing]
      rfl
  | sends sent char sending next free listening =>
      refine ⟨listening, ?_, fun finished => by cases finished⟩
      obtain ⟨within, rfl⟩ := List.getElem?_eq_some_iff.mp next
      rw [← all]
      simp only [Reader.coming, sending, List.drop_eq_getElem_cons within, Line.put, Array.toList_push,
        List.append_assoc, List.cons_append, List.nil_append]
  | refused sent char sending next closed => cases listening.symm.trans closed
  | sentAll sent sending none =>
      refine ⟨listening, ?_, fun finished => by cases finished⟩
      rw [← all]
      simp only [Reader.coming, sending, List.drop_eq_nil_of_le (List.getElem?_eq_none_iff.mp none), List.nil_append]

theorem take_carries (whole : List Char) (feed : Feed) (carries : feed.Carries whole) :
    (feed.act .take).Carries whole := by
  obtain ⟨listening, all, hangsUp⟩ := carries
  refine ⟨(World.line_take_receiver feed.line).trans listening, ?_,
    fun finished => (Panel.line_take_sender feed.line).trans (hangsUp finished)⟩
  show feed.taken ++ feed.line.take.1.char?.toList ++ feed.line.take.2.waiting.toList ++ feed.reader.coming = whole
  rw [List.append_assoc feed.taken, Panel.line_take_waiting]
  exact all

theorem schedule_carries (whole : List Char) (feed : Feed) (turns : List Turn) (carries : feed.Carries whole) :
    (feed.schedule turns).Carries whole := by
  induction turns generalizing feed with
  | nil => exact carries
  | cons turn rest ih =>
      cases turn with
      | read => exact ih _ (read_carries whole feed carries)
      | take => exact ih _ (take_carries whole feed carries)

structure Due (rank : Nat) (feed : Feed) : Prop where
  listening : feed.line.receiverOpen = true
  counted : feed.line.waiting.size + feed.reader.due = rank

def Final (feed : Feed) : Prop := feed.reader.stage = .finished ∧ feed.line.waiting = #[]

theorem read_lowers (rank : Nat) (feed : Feed) (due : feed.Due rank) :
    (feed.act .read = feed ∧ (feed.line.senderFree = true → feed.reader.stage = .finished)) ∨
      ∃ less, less < rank ∧ (feed.act .read).Due less := by
  obtain ⟨listening, rfl⟩ := due
  obtain ⟨reader, line, turned, read⟩ := read_turned feed
  rw [read]
  cases turned with
  | waits waits => exact .inl ⟨rfl, waits⟩
  | reads text bytes later reading first something decoded =>
      refine .inr ⟨_, ?_, listening, rfl⟩
      have parts := congrArg List.length (PipedInput.first_line_parts feed.reader.unread)
      simp only [first, List.length_append] at parts
      have longer := Utf8.encode_longer text
      rw [← (Utf8.decode_some bytes text).mp decoded] at longer
      have positive := List.length_pos_iff.mpr something
      simp only [Reader.due, reading]
      omega
  | ends reading nothing =>
      refine .inr ⟨_, ?_, listening, rfl⟩
      simp only [Reader.due, reading, Line.closeSender]
      omega
  | sends sent char sending next free listening =>
      refine .inr ⟨_, ?_, listening, rfl⟩
      obtain ⟨within, -⟩ := List.getElem?_eq_some_iff.mp next
      simp only [Reader.due, sending, Line.put, Array.size_push]
      omega
  | refused sent char sending next closed => cases listening.symm.trans closed
  | sentAll sent sending none =>
      refine .inr ⟨_, ?_, listening, rfl⟩
      simp only [Reader.due, sending]
      omega

theorem take_empty (feed : Feed) (empty : feed.line.waiting = #[]) : feed.act .take = feed := by
  obtain ⟨char, some, -⟩ | ⟨-, -, takes⟩ | ⟨-, -, takes⟩ := feed.line.take_ways
  · rw [empty] at some
    cases some
  · simp only [act, takes, Line.Taken.char?, Option.toList_none, List.append_nil]
  · simp only [act, takes, Line.Taken.char?, Option.toList_none, List.append_nil]

theorem take_lowers (rank : Nat) (feed : Feed) (due : feed.Due rank) :
    feed.line.waiting = #[] ∨ ∃ less, less < rank ∧ (feed.act .take).Due less := by
  obtain ⟨listening, rfl⟩ := due
  obtain ⟨char, some, takes⟩ | ⟨empty, -⟩ | ⟨empty, -⟩ := feed.line.take_ways
  · refine .inr ⟨_, ?_, (World.line_take_receiver feed.line).trans listening, rfl⟩
    simp only [act, takes, Array.size_extract]
    omega
  · exact .inl empty
  · exact .inl empty

theorem feed_descends : Descends act (fun rank feed => feed.Due rank) Final where
  lowers rank feed turn due := by
    cases turn with
    | read =>
        obtain ⟨same, -⟩ | lower := read_lowers rank feed due
        · exact .inl same
        · exact .inr lower
    | take =>
        obtain empty | lower := take_lowers rank feed due
        · exact .inl (take_empty feed empty)
        · exact .inr lower
  goes rank feed due := by
    obtain empty | lower := take_lowers rank feed due
    · obtain ⟨-, finished⟩ | lower := read_lowers rank feed due
      · exact .inl ⟨finished (feed.line.free_empty empty), empty⟩
      · exact .inr ⟨.read, lower⟩
    · exact .inr ⟨.take, lower⟩
  stays feed turn final := by
    obtain ⟨finished, empty⟩ := final
    cases turn with
    | read =>
        have still := Reader.turn_finished feed.reader feed.line finished
        simp only [act, still]
        exact ⟨finished, empty⟩
    | take =>
        rw [take_empty feed empty]
        exact ⟨finished, empty⟩

structure Unheard (feed : Feed) : Prop where
  closed : feed.line.receiverOpen = false
  empty : feed.line.waiting = #[]

theorem drop_unheard (feed : Feed) : feed.drop.Unheard := by
  unfold drop
  split <;> exact ⟨rfl, rfl⟩

theorem drop_taken (feed : Feed) : feed.drop.taken = feed.taken := by
  unfold drop
  split <;> rfl

theorem drop_unread (feed : Feed) : feed.drop.reader.unread = feed.reader.unread := by
  unfold drop
  split <;> rfl

def winding (reader : Reader) : Nat :=
  match reader.stage with
  | .reading => 2
  | .sending sent => if sent < reader.buffer.length then 1 else 3
  | .finished => 0

structure Winds (unread : List UInt8) (turns : Nat) (feed : Feed) : Prop where
  unheard : feed.Unheard
  left : winding feed.reader ≤ turns
  read : feed.reader.unread = unread ∨
    feed.reader.unread = (PipedInput.firstLine unread).2 ∧ winding feed.reader ≤ 1

theorem drop_winds (feed : Feed) : feed.drop.Winds feed.reader.unread 3 := by
  refine ⟨drop_unheard feed, ?_, .inl (drop_unread feed)⟩
  unfold winding
  split
  · decide
  · split <;> decide
  · decide

theorem read_winds (unread : List UInt8) (turns : Nat) (feed : Feed) (winds : feed.Winds unread turns) :
    (feed.act .read).Winds unread (turns - 1) := by
  obtain ⟨⟨closed, empty⟩, left, before⟩ := winds
  obtain ⟨reader, line, turned, read⟩ := read_turned feed
  rw [read]
  -- nobody listens, so it winds up what it has read and reads one line more at most
  cases turned with
  | waits waits =>
      have done : winding feed.reader = 0 := by simp only [winding, waits (feed.line.free_empty empty)]
      exact ⟨⟨closed, empty⟩, by rw [done]; exact Nat.zero_le _, before⟩
  | reads text bytes later reading first something decoded =>
      have two : winding feed.reader = 2 := by simp only [winding, reading]
      have more : 0 < text.length := by
        apply List.length_pos_iff.mpr
        rintro rfl
        exact something ((Utf8.decode_some bytes []).mp decoded)
      have one : winding { unread := later, buffer := text, stage := .sending 0 } = 1 := if_pos more
      obtain rfl | ⟨-, few⟩ := before
      · exact ⟨⟨closed, empty⟩, by dsimp only; omega, .inr ⟨by rw [first], Nat.le_of_eq one⟩⟩
      · omega
  | ends reading nothing =>
      have two : winding feed.reader = 2 := by simp only [winding, reading]
      obtain rfl | ⟨-, few⟩ := before
      · exact ⟨⟨closed, empty⟩, Nat.zero_le _, .inr ⟨rfl, Nat.zero_le _⟩⟩
      · omega
  | sends sent char sending next free listening => cases closed.symm.trans listening
  | refused sent char sending next =>
      exact ⟨⟨closed, empty⟩, Nat.zero_le _, before.imp_right fun read => ⟨read.1, Nat.zero_le _⟩⟩
  | sentAll sent sending none =>
      have three : winding feed.reader = 3 := by
        simp only [winding, sending]
        exact if_neg (Nat.not_lt.mpr (List.getElem?_eq_none_iff.mp none))
      obtain same | ⟨-, few⟩ := before
      · refine ⟨⟨closed, empty⟩, ?_, .inl same⟩
        show 2 ≤ turns - 1
        omega
      · omega

theorem schedule_winds (unread : List UInt8) (turns : Nat) (feed : Feed) (later : List Turn)
    (winds : feed.Winds unread turns) :
    (feed.schedule later).Winds unread (turns - later.count .read) ∧ (feed.schedule later).taken = feed.taken := by
  induction later generalizing feed turns with
  | nil => exact ⟨winds, rfl⟩
  | cons turn rest ih =>
      cases turn with
      | read =>
          obtain ⟨after, taken⟩ := ih (turns - 1) (feed.act .read) (read_winds unread turns feed winds)
          rw [List.count_cons_self, Nat.add_comm, Nat.sub_add_eq]
          exact ⟨after, taken⟩
      | take =>
          have others : (Turn.take :: rest).count .read = rest.count .read := List.count_cons_of_ne (by decide)
          have same : feed.schedule (.take :: rest) = feed.schedule rest :=
            congrArg (·.schedule rest) (take_empty feed winds.unheard.empty)
          rw [others, same]
          exact ih turns feed winds

theorem schedule_finished (feed : Feed) (turns : List Turn) (finished : feed.reader.stage = .finished) :
    (feed.schedule turns).reader = feed.reader := by
  induction turns generalizing feed with
  | nil => rfl
  | cons turn rest ih =>
      have still : (feed.act turn).reader = feed.reader := by
        cases turn with
        | read => exact congrArg Prod.fst (Reader.turn_finished feed.reader feed.line finished)
        | take => rfl
      have later := ih (feed.act turn) (by rw [still]; exact finished)
      rw [still] at later
      exact later

theorem winding_none (reader : Reader) (none : winding reader = 0) : reader.stage = .finished := by
  unfold winding at none
  split at none
  · cases none
  · split at none <;> cases none
  · assumption

theorem carries_finished (whole : List Char) (feed : Feed) (carries : feed.Carries whole)
    (finished : feed.reader.stage = .finished) : feed.taken ++ feed.line.waiting.toList = whole := by
  have all := carries.all
  simp only [Reader.coming, finished, List.append_nil] at all
  exact all

theorem schedule_fair (bytes : List UInt8) (capacity : Nat) (turns : List Turn)
    (fair : Fair (4 * bytes.length + 2) turns) :
    ((begin bytes capacity).schedule turns).reader.stage = .finished ∧
      ((begin bytes capacity).schedule turns).taken = PipedInput.chars bytes := by
  have due : (begin bytes capacity).Due (0 + (4 * bytes.length + 1)) := ⟨rfl, rfl⟩
  have final : ((begin bytes capacity).schedule turns).Final :=
    descends_fair feed_descends turns _ _ (begin bytes capacity) due fair (by omega)
  have carries := schedule_carries _ _ turns (begin_carries bytes capacity)
  have all := carries_finished _ _ carries final.1
  rw [final.2] at all
  exact ⟨final.1, (List.append_nil _).symm.trans all⟩

structure Forwards (whole : List Char) (feed : Feed) : Prop where
  received : feed.taken ++ feed.line.waiting.toList <+: whole
  finishes : feed.reader.stage = .finished →
    feed.taken ++ feed.line.waiting.toList = whole ∧ feed.line.senderOpen = false
  keeps : ∀ later, (feed.drop.schedule later).taken = feed.taken ∧ feed.taken <+: whole
  reads : ∀ later, (feed.drop.schedule later).reader.unread = feed.reader.unread ∨
    (feed.drop.schedule later).reader.unread = (PipedInput.firstLine feed.reader.unread).2
  stops : ∀ later more, 3 ≤ later.count .read →
    (feed.drop.schedule later).reader.stage = .finished ∧
      ((feed.drop.schedule later).schedule more).reader = (feed.drop.schedule later).reader

theorem carries_forwards (whole : List Char) (feed : Feed) (carries : feed.Carries whole) : feed.Forwards whole := by
  have received : feed.taken ++ feed.line.waiting.toList <+: whole := ⟨_, carries.all⟩
  have winds (later : List Turn) := schedule_winds feed.reader.unread 3 feed.drop later (drop_winds feed)
  refine ⟨received, fun finished => ⟨carries_finished whole feed carries finished, carries.hangsUp finished⟩,
    fun later => ⟨?_, ?_⟩, fun later => (winds later).1.read.imp_right And.left, fun later more enough => ?_⟩
  · rw [(winds later).2, drop_taken]
  · exact (List.prefix_append _ _).trans received
  · have left := (winds later).1.left
    have finished := winding_none (feed.drop.schedule later).reader (by omega)
    exact ⟨finished, schedule_finished _ more finished⟩

/-- The text of piped input is that of its lines before the first that is not UTF-8: of all its bytes, if they are
UTF-8. Whoever takes what the reader sends has received a prefix of that text at any time, and all of it once each of
them has had its turn often enough. If the receiver goes, at any time, the reader is done after three more turns, in
which it reads no more than one line. -/
theorem decodable_lines_are_forwarded (bytes : List UInt8) :
    (∃ lines texts, PipedInput.Lines bytes lines ∧ PipedInput.Decoded lines texts) ∧
    ∀ lines texts, PipedInput.Lines bytes lines → PipedInput.Decoded lines texts →
      PipedInput.chars bytes = texts.flatten ∧
      (∀ text, bytes = Utf8.encode text → texts.flatten = text) ∧
      ∀ capacity,
        (∀ turns, ((begin bytes capacity).schedule turns).Forwards texts.flatten) ∧
        ∃ rounds, ∀ turns, Fair rounds turns →
          ((begin bytes capacity).schedule turns).reader.stage = .finished ∧
            ((begin bytes capacity).schedule turns).taken = texts.flatten := by
  refine ⟨⟨_, _, PipedInput.lines_are bytes, PipedInput.texts_are _⟩, fun lines texts split decoded => ?_⟩
  obtain rfl := PipedInput.lines_unique bytes lines split
  obtain rfl := PipedInput.texts_unique _ texts decoded
  refine ⟨rfl, PipedInput.texts_encode bytes _ split, fun capacity =>
    ⟨fun turns => ?_, _, schedule_fair bytes capacity⟩⟩
  exact carries_forwards _ _ (schedule_carries _ _ turns (begin_carries bytes capacity))

theorem decodable_lines_are_forwarded_cut :
    PipedInput.chars [0xC3, 0xA9, 0x0A] = ['é', '\n'] ∧ PipedInput.chars [0xC3, 0xA9, 0x0A, 0xFF] = ['é', '\n'] ∧
      (∃ turns, ((begin [0xC3, 0xA9, 0x0A, 0xFF] 0).schedule turns).taken = ['é', '\n'] ∧
        ((begin [0xC3, 0xA9, 0x0A, 0xFF] 0).schedule turns).line.senderOpen = false) ∧
      ((begin [0xC3, 0xA9, 0x0A, 0xFF] 0).schedule [.read, .read, .take]).taken <+: ['é', '\n'] ∧
      (((begin [0xC3, 0xA9, 0x0A, 0xFF] 0).schedule [.read, .read, .take]).drop.schedule
        [.read, .read, .read]).reader.stage = .finished := by
  have unfed : (0x0A : UInt8) ∉ [0xC3, 0xA9] := by decide
  have whole : PipedInput.Lines [0xC3, 0xA9, 0x0A] [[0xC3, 0xA9, 0x0A]] := .next [0xC3, 0xA9] [] [] unfed .none
  have cut : PipedInput.Lines [0xC3, 0xA9, 0x0A, 0xFF] [[0xC3, 0xA9, 0x0A], [0xFF]] :=
    .next [0xC3, 0xA9] [0xFF] [[0xFF]] unfed (.last [0xFF] (by decide) (by decide))
  have broken : ¬[(0xFF : UInt8)].toByteArray.IsValidUTF8 := by
    rw [← Utf8.decode_none, Utf8.decode?, Utf8.decodeOnto]
    rfl
  have first : PipedInput.Decoded [[0xC3, 0xA9, 0x0A]] [['é', '\n']] := .next ['é', '\n'] [] [] .none
  have second : PipedInput.Decoded [[0xC3, 0xA9, 0x0A], [0xFF]] [['é', '\n']] :=
    .next ['é', '\n'] [[0xFF]] [] (.invalid [0xFF] [] broken)
  obtain ⟨all, same, -⟩ := (decodable_lines_are_forwarded [0xC3, 0xA9, 0x0A]).2 _ _ whole first
  obtain ⟨some, -, sends⟩ := (decodable_lines_are_forwarded [0xC3, 0xA9, 0x0A, 0xFF]).2 _ _ cut second
  obtain ⟨forwards, rounds, fair⟩ := sends 0
  have turns : Fair rounds (List.replicate rounds [Turn.read, Turn.take]).flatten := by
    refine ⟨_, Nat.le_of_eq List.length_replicate.symm, rfl, ?_⟩
    intro part member turn
    rw [List.eq_of_mem_replicate member]
    cases turn <;> simp
  obtain ⟨finished, taken⟩ := fair _ turns
  refine ⟨all.trans (same ['é', '\n'] rfl), some, ⟨_, taken, ((forwards _).finishes finished).2⟩, ?_, ?_⟩
  · exact ((forwards [.read, .read, .take]).keeps []).2
  · exact ((forwards [.read, .read, .take]).stops [.read, .read, .read] [] (by decide)).1

end Feed

end LittleComputer
