import LittleComputer.Config
import Mathlib.Algebra.Group.Nat.Defs

set_option autoImplicit false

namespace LittleComputer

namespace Duration

def largest : Duration := ⟨UInt64.size * 1000000000 - 1, by decide⟩

theorem eq_of_nanos (left right : Duration) (same : left.nanos = right.nanos) : left = right := by
  cases left
  cases right
  cases same
  rfl

theorem min_nanos (left right : Duration) : (left.min right).nanos = Min.min left.nanos right.nanos := by
  rw [Duration.min, apply_ite nanos]
  rfl

theorem double_bounded (duration : Duration) (bounded : 2 * duration.nanos ≤ largest.nanos) :
    ∃ twice, duration.double? = some twice ∧ twice.nanos = 2 * duration.nanos :=
  ⟨⟨2 * duration.nanos, Nat.lt_of_le_pred (by decide) bounded⟩, dif_pos _, rfl⟩

theorem double_overflows (duration : Duration) (exceeds : largest.nanos < 2 * duration.nanos) :
    duration.double? = none :=
  dif_neg (Nat.not_lt.mpr (Nat.le_of_pred_lt exceeds))

end Duration

theorem Config.tick_bounded (config : Config) : 2 * config.tick.nanos ≤ Duration.largest.nanos := by
  have bounded := (max config.tickMicros 1).toNat_lt_size
  show 2 * ((max config.tickMicros 1).toNat * 1000) ≤ UInt64.size * 1000000000 - 1
  unfold UInt64.size at bounded ⊢
  omega

namespace Backoff

def after (backoff : Backoff) : Nat → Option Backoff
  | 0 => some backoff
  | count + 1 => (backoff.after count).bind fun reached => reached.delay?.map Prod.snd

def delayAfter? (backoff : Backoff) (count : Nat) : Option Duration :=
  (backoff.after count).bind fun reached => reached.delay?.map Prod.fst

theorem delay_bounded (backoff : Backoff) (bounded : 2 * backoff.next.nanos ≤ Duration.largest.nanos) :
    ∃ later, backoff.delay? = some (backoff.next, later) ∧ later.cap = backoff.cap ∧
      later.next.nanos = min (2 * backoff.next.nanos) backoff.cap.nanos := by
  obtain ⟨twice, doubled, nanos⟩ := Duration.double_bounded backoff.next bounded
  refine ⟨{ backoff with next := twice.min backoff.cap }, ?_, rfl, ?_⟩
  · rw [delay?, doubled]
    rfl
  · rw [Duration.min_nanos, nanos]

theorem delay_overflows (backoff : Backoff) (exceeds : Duration.largest.nanos < 2 * backoff.next.nanos) :
    backoff.delay? = none := by
  rw [delay?, Duration.double_overflows backoff.next exceeds]
  rfl

theorem delay_none (backoff : Backoff) :
    backoff.delay? = none ↔ Duration.largest.nanos < 2 * backoff.next.nanos := by
  refine ⟨fun none => Nat.lt_of_not_le fun bounded => ?_, delay_overflows backoff⟩
  obtain ⟨later, delayed, -⟩ := delay_bounded backoff bounded
  cases none.symm.trans delayed

def doubled (cap : Duration) (count : Nat) : Nat := min (2 ^ count * 1000) cap.nanos

theorem doubled_next (cap : Duration) (count : Nat) :
    doubled cap (count + 1) = min (2 * doubled cap count) cap.nanos := by
  have power : 2 ^ (count + 1) = 2 * 2 ^ count := Nat.pow_succ'
  unfold doubled
  rw [power]
  omega

theorem doubled_mono (cap : Duration) (earlier later : Nat) (order : earlier ≤ later) :
    doubled cap earlier ≤ doubled cap later := by
  have powers : 2 ^ earlier ≤ 2 ^ later := Nat.pow_le_pow_right (by decide) order
  unfold doubled
  omega

theorem doubled_capped (cap : Duration) (count : Nat) : doubled cap count ≤ cap.nanos := Nat.min_le_right _ _

theorem doubled_reaches (cap : Duration) (count : Nat) (enough : cap.nanos ≤ count) :
    doubled cap count = cap.nanos := by
  have power : count < 2 ^ count := Nat.lt_two_pow_self
  exact Nat.min_eq_right (by omega)

theorem after_doubled (cap : Duration) (count : Nat) (backoff : Backoff)
    (reached : (ofCap cap).after count = some backoff) :
    backoff.cap = cap ∧ backoff.next.nanos = doubled cap count := by
  induction count generalizing backoff with
  | zero =>
      cases reached
      exact ⟨rfl, Duration.min_nanos first cap⟩
  | succ count ih =>
      obtain ⟨earlier, before, delayed⟩ := Option.bind_eq_some_iff.mp reached
      obtain ⟨same, nanos⟩ := ih earlier before
      have bounded : 2 * earlier.next.nanos ≤ Duration.largest.nanos := by
        apply Nat.le_of_not_lt
        intro exceeds
        rw [delay_overflows earlier exceeds] at delayed
        cases delayed
      obtain ⟨later, gives, kept, next⟩ := delay_bounded earlier bounded
      rw [gives] at delayed
      cases delayed
      exact ⟨kept.trans same, by rw [next, nanos, same, doubled_next]⟩

theorem delay_doubled (cap : Duration) (count : Nat) (backoff : Backoff)
    (reached : (ofCap cap).after count = some backoff) :
    (backoff.delay? = none ↔ Duration.largest.nanos < 2 * doubled cap count) ∧
      ∀ delay later, backoff.delay? = some (delay, later) → delay.nanos = doubled cap count := by
  obtain ⟨-, nanos⟩ := after_doubled cap count backoff reached
  refine ⟨by rw [delay_none, nanos], fun delay later delayed => ?_⟩
  obtain ⟨twice, -, same⟩ := Option.map_eq_some_iff.mp delayed
  cases same
  exact nanos

theorem after_some (cap : Duration) (count : Nat) :
    (∃ backoff, (ofCap cap).after count = some backoff) ↔
      ∀ earlier < count, 2 * doubled cap earlier ≤ Duration.largest.nanos := by
  induction count with
  | zero => exact ⟨fun _ earlier below => absurd below (Nat.not_lt_zero earlier), fun _ => ⟨_, rfl⟩⟩
  | succ count ih =>
      constructor
      · rintro ⟨backoff, reached⟩ earlier below
        obtain ⟨last, before, delayed⟩ := Option.bind_eq_some_iff.mp reached
        obtain rfl | sooner := Nat.eq_or_lt_of_le (Nat.le_of_lt_succ below)
        · apply Nat.le_of_not_lt
          intro exceeds
          rw [(delay_doubled cap earlier last before).1.mpr exceeds] at delayed
          cases delayed
        · exact ih.mp ⟨last, before⟩ earlier sooner
      · intro bounded
        obtain ⟨last, before⟩ := ih.mpr fun earlier below => bounded earlier (Nat.lt_succ_of_lt below)
        obtain ⟨-, nanos⟩ := after_doubled cap count last before
        obtain ⟨later, gives, -⟩ := delay_bounded last (by rw [nanos]; exact bounded count (Nat.lt_succ_self count))
        exact ⟨later, by rw [after, before, Option.bind_some, gives]; rfl⟩

theorem delay_after (cap : Duration) (count : Nat) (delay : Duration)
    (delayed : (ofCap cap).delayAfter? count = some delay) : delay.nanos = doubled cap count := by
  obtain ⟨backoff, reached, gives⟩ := Option.bind_eq_some_iff.mp delayed
  obtain ⟨⟨same, later⟩, given, rfl⟩ := Option.map_eq_some_iff.mp gives
  exact (delay_doubled cap count backoff reached).2 same later given

theorem delay_after_half (cap : Duration) (half : 2 * cap.nanos ≤ Duration.largest.nanos) (count : Nat) :
    ∃ delay, (ofCap cap).delayAfter? count = some delay := by
  have bounded (number : Nat) : 2 * doubled cap number ≤ Duration.largest.nanos :=
    Nat.le_trans (Nat.mul_le_mul_left 2 (doubled_capped cap number)) half
  obtain ⟨backoff, reached⟩ := (after_some cap count).mpr fun earlier _ => bounded earlier
  obtain ⟨-, nanos⟩ := after_doubled cap count backoff reached
  obtain ⟨later, gives, -⟩ := delay_bounded backoff (by rw [nanos]; exact bounded count)
  exact ⟨backoff.next, by rw [delayAfter?, reached, Option.bind_some, gives]; rfl⟩

/-- The delay after `count` others is the smaller of 2 ^ count microseconds and the cap, unless twice that is longer
than any duration. Delays never get shorter, or longer than the cap. None overflows under the tick of a configuration or
any cap that can be doubled, and from some delay on all are equal to the cap. -/
theorem delays_double_to_cap (cap : Duration) :
    (∀ count, (∃ backoff, (ofCap cap).after count = some backoff) ↔
      ∀ earlier < count, 2 * min (2 ^ earlier * 1000) cap.nanos ≤ Duration.largest.nanos) ∧
    (∀ count backoff, (ofCap cap).after count = some backoff →
      (backoff.delay? = none ↔ Duration.largest.nanos < 2 * min (2 ^ count * 1000) cap.nanos) ∧
      ∀ delay later, backoff.delay? = some (delay, later) → delay.nanos = min (2 ^ count * 1000) cap.nanos) ∧
    (∀ earlier later before after, earlier ≤ later → (ofCap cap).delayAfter? earlier = some before →
      (ofCap cap).delayAfter? later = some after → before.nanos ≤ after.nanos ∧ after.nanos ≤ cap.nanos) ∧
    ((∃ config : Config, cap = config.tick) ∨ 2 * cap.nanos ≤ Duration.largest.nanos →
      (∀ count, ∃ delay, (ofCap cap).delayAfter? count = some delay) ∧
      ∃ reached, ∀ count, reached ≤ count → (ofCap cap).delayAfter? count = some cap) := by
  refine ⟨after_some cap, delay_doubled cap, fun earlier later before after order first second => ?_, fun short => ?_⟩
  · rw [delay_after cap earlier before first, delay_after cap later after second]
    exact ⟨doubled_mono cap earlier later order, doubled_capped cap later⟩
  · have half : 2 * cap.nanos ≤ Duration.largest.nanos := by
      obtain ⟨config, rfl⟩ | half := short
      · exact config.tick_bounded
      · exact half
    refine ⟨delay_after_half cap half, cap.nanos, fun count enough => ?_⟩
    obtain ⟨delay, delayed⟩ := delay_after_half cap half count
    have nanos := delay_after cap count delay delayed
    rw [doubled_reaches cap count enough] at nanos
    rw [delayed, Duration.eq_of_nanos delay cap nanos]

theorem delays_double_to_cap_tick :
    (∃ backoff, (ofCap Duration.largest).after 83 = some backoff ∧ backoff.delay? = none) ∧
    (∃ later, (ofCap (Config.tick { tickMicros := 5 })).after 2 = some later ∧
      later.delay? = some (.ofMicros 4, ⟨.ofMicros 5, .ofMicros 5⟩) ∧ (Duration.ofMicros 4).nanos = 4000) ∧
    ((ofCap (Config.tick { tickMicros := 5 })).delayAfter? 2 = some (.ofMicros 4) ∧
      (ofCap (Config.tick { tickMicros := 5 })).delayAfter? 3 = some (.ofMicros 5) ∧
      (Duration.ofMicros 4).nanos ≤ (Duration.ofMicros 5).nanos) ∧
    ∃ reached, ∀ count, reached ≤ count →
      (ofCap (Config.tick { tickMicros := 5 })).delayAfter? count = some (.ofMicros 5) := by
  obtain ⟨reaches, overflows, -⟩ := delays_double_to_cap Duration.largest
  obtain ⟨last, reached⟩ := (reaches 83).mpr (by decide +kernel)
  obtain ⟨-, doubles, ordered, settles⟩ := delays_double_to_cap (Config.tick { tickMicros := 5 })
  have third : (ofCap (Config.tick { tickMicros := 5 })).after 2 = some ⟨.ofMicros 4, .ofMicros 5⟩ := by decide +kernel
  have four : (ofCap (Config.tick { tickMicros := 5 })).delayAfter? 2 = some (.ofMicros 4) := by decide +kernel
  have five : (ofCap (Config.tick { tickMicros := 5 })).delayAfter? 3 = some (.ofMicros 5) := by decide +kernel
  refine ⟨⟨last, reached, (overflows 83 last reached).1.mpr (by decide +kernel)⟩, ⟨_, third, rfl, ?_⟩, ⟨four, five, ?_⟩,
    (settles (.inl ⟨{ tickMicros := 5 }, rfl⟩)).2⟩
  · exact (doubles 2 _ third).2 _ _ rfl
  · exact (ordered 2 3 _ _ (by decide) four five).1

end Backoff

end LittleComputer
