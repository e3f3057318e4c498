import LittleComputer.Duration

set_option autoImplicit false

namespace LittleComputer

inductive Policy where
  | halt
  | continue
deriving DecidableEq, Repr

structure Config where
  tickMicros : UInt64 := 1000
  policy : Policy := .halt
deriving DecidableEq, Repr

-- The longest time that a wait goes on without another look at its token. It is never zero.
def Config.tick (config : Config) : Duration := .ofMicros (max config.tickMicros 1)

end LittleComputer
