import LittleComputer.Word

set_option autoImplicit false

namespace LittleComputer

inductive Outcome where
  | retired
  | halted
  | interrupted
  | inputClosed
deriving DecidableEq, Repr

structure Console (σ : Type) where
  readChar : σ → Option Word × σ
  writeChar : UInt8 → σ → Bool × σ
  acknowledgeKey : σ → σ
  halt : σ → σ

def Console.writeAll {σ : Type} (console : Console σ) : List UInt8 → σ → Bool × σ
  | [], state => (true, state)
  | byte :: rest, state =>
      match console.writeChar byte state with
      | (true, state) => console.writeAll rest state
      | (false, state) => (false, state)

end LittleComputer
