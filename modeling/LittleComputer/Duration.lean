set_option autoImplicit false

namespace LittleComputer

structure Duration where
  nanos : Nat
  bounded : nanos < UInt64.size * 1000000000
deriving DecidableEq, Repr

namespace Duration

def ofNanos? (nanos : Nat) : Option Duration :=
  if bounded : nanos < UInt64.size * 1000000000 then some ⟨nanos, bounded⟩ else none

def ofMicros (micros : UInt64) : Duration :=
  ⟨micros.toNat * 1000, by have := micros.toNat_lt_size; omega⟩

def min (left right : Duration) : Duration := if left.nanos ≤ right.nanos then left else right

def double? (duration : Duration) : Option Duration := ofNanos? (2 * duration.nanos)

def overflow : String := "overflow when multiplying duration by scalar"

end Duration

structure Backoff where
  next : Duration
  cap : Duration
deriving DecidableEq, Repr

namespace Backoff

def first : Duration := .ofMicros 1

def ofCap (cap : Duration) : Backoff := ⟨first.min cap, cap⟩

-- The present delay, and the back-off after it. The delay is doubled before the cap is applied, so there is none if
-- twice the delay is no duration.
def delay? (backoff : Backoff) : Option (Duration × Backoff) :=
  backoff.next.double?.map fun twice =>
    (backoff.next, { backoff with next := twice.min backoff.cap })

end Backoff

end LittleComputer
