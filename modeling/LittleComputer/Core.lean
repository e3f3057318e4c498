import LittleComputer.Memory
import LittleComputer.Register

set_option autoImplicit false

namespace LittleComputer

structure Core where
  registers : Registers := {}
  memory : Memory := .zero
  -- a load has read the latched character, which is still to be acknowledged
  keyRead : Bool := false
deriving DecidableEq

namespace Core

def keyLatched (core : Core) : Bool :=
  core.memory.read Address.keyboardStatus &&& Address.readyBit ≠ 0

def reset (core : Core) : Core :=
  { core with registers := { core.registers with pc := Address.origin, cond := 0 } }

def setPc (core : Core) (pc : Word) : Core :=
  { core with registers := { core.registers with pc } }

def setCond (core : Core) (cond : Word) : Core :=
  { core with registers := { core.registers with cond } }

def setRegister (core : Core) (register : Register) (value : Word) : Core :=
  { core with registers := core.registers.set register value }

def setResult (core : Core) (register : Register) (value : Word) : Core :=
  { core with registers := core.registers.setResult register value }

def store (core : Core) (address word : Word) : Core :=
  { core with memory := core.memory.write address word }

def load (core : Core) (address : Word) : Word := core.memory.read address

def noteLoad (core : Core) (address : Word) : Core :=
  if address = Address.keyboardData && core.keyLatched then { core with keyRead := true } else core

def forgetKey (core : Core) : Core := { core with keyRead := false }

def latch (core : Core) (code : Word) : Core :=
  (core.store Address.keyboardStatus
    (core.memory.read Address.keyboardStatus ||| Address.readyBit)).store Address.keyboardData code

def unlatch (core : Core) : Core :=
  core.store Address.keyboardStatus
    (core.memory.read Address.keyboardStatus &&& ~~~Address.readyBit)

theorem load_store (core : Core) (target other word : Word) :
    (core.store target word).load other = if target = other then word else core.load other :=
  Memory.read_write core.memory target other word

theorem key_latched_latch (core : Core) (code : Word) : (core.latch code).keyLatched = true := by
  have apart : Address.keyboardData ≠ Address.keyboardStatus := by decide
  have raised (status : Word) : (status ||| Address.readyBit) &&& Address.readyBit ≠ 0 := by
    intro lowered
    have same : (status ||| Address.readyBit) &&& Address.readyBit = Address.readyBit := by
      apply UInt16.toBitVec_inj.mp
      simp only [UInt16.toBitVec_and, UInt16.toBitVec_or]
      ext index bound
      simp only [BitVec.getElem_and, BitVec.getElem_or]
      cases status.toBitVec[index] <;> cases Address.readyBit.toBitVec[index] <;> rfl
    rw [same] at lowered
    exact absurd lowered (by decide)
  simp only [keyLatched, latch, store, Memory.read_write, if_neg apart]
  exact decide_eq_true (raised _)

theorem load_latch (core : Core) (code : Word) :
    (core.latch code).load Address.keyboardData = code := by
  simp [latch, load_store]

end Core

end LittleComputer
