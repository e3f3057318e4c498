set_option autoImplicit false

namespace LittleComputer

structure Token where
  number : Nat
deriving DecidableEq, Repr

structure Signals where
  issued : Nat := 0
  fired : List Token := []
deriving DecidableEq, Repr

namespace Signals

def issue (signals : Signals) : Token × Signals :=
  (⟨signals.issued⟩, { signals with issued := signals.issued + 1 })

def isFired (signals : Signals) (token : Token) : Bool := signals.fired.contains token

def fire (signals : Signals) (token : Token) : Signals :=
  if signals.isFired token then signals else { signals with fired := token :: signals.fired }

def cancel (signals : Signals) (token : Token) : Bool × Signals :=
  (!signals.isFired token, signals.fire token)

theorem is_fired_fire (signals : Signals) (target other : Token) :
    (signals.fire target).isFired other = (decide (other = target) || signals.isFired other) := by
  unfold fire
  split
  · rename_i already
    by_cases same : other = target
    · subst same; simp [already]
    · simp [same]
  · simp only [isFired, List.contains_cons]
    rfl

end Signals

end LittleComputer
