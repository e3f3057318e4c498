set_option autoImplicit false

namespace LittleComputer

inductive KeyCode where
  | char (char : Char)
  | enter
  | tab
  | backspace
  | escape
  | other
deriving DecidableEq, Repr

inductive KeyModifier where
  | shift
  | control
  | alt
  | super
deriving DecidableEq, Repr

inductive KeyMotion where
  | press
  | repeat
  | release
deriving DecidableEq, Repr

structure KeyEvent where
  code : KeyCode
  modifiers : List KeyModifier := []
  motion : KeyMotion := .press
deriving DecidableEq, Repr

inductive KeyAction where
  | forward (char : Char)
  | interrupt
  | ignore
deriving DecidableEq, Repr

def KeyCode.char? : KeyCode → Option Char
  | .char typed => some typed
  | .enter => some '\n'
  | .tab => some '\t'
  | .backspace => some '\x08'
  | .escape => some '\x1b'
  | .other => none

def KeyEvent.action (event : KeyEvent) : KeyAction :=
  if event.motion = .release then .ignore
  else if event.code = .char 'c' && event.modifiers.contains .control then .interrupt
  else match event.code.char? with
    | some char => .forward char
    | none => .ignore

end LittleComputer
