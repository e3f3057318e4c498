import LittleComputer.Proofs.Step

set_option autoImplicit false

namespace LittleComputer

inductive Exchange where
  | read (answer : Option Word)
  | write (byte : UInt8) (accepted : Bool)
  | acknowledge
  | halt
deriving DecidableEq, Repr

def accepted (bytes : List UInt8) : List Exchange := bytes.map fun byte => .write byte true

def taken (log : List Exchange) : List UInt8 :=
  log.filterMap fun
    | .write byte true => some byte
    | _ => none

theorem taken_append (left right : List Exchange) : taken (left ++ right) = taken left ++ taken right :=
  List.filterMap_append

theorem taken_accepted (bytes : List UInt8) : taken (accepted bytes) = bytes := by
  rw [taken, accepted, List.filterMap_map]
  exact List.filterMap_some

namespace Console

variable {σ : Type}

def recorded (console : Console σ) : Console (σ × List Exchange) where
  readChar := fun (state, log) =>
    ((console.readChar state).1, (console.readChar state).2, log ++ [.read (console.readChar state).1])
  writeChar byte := fun (state, log) =>
    ((console.writeChar byte state).1, (console.writeChar byte state).2,
      log ++ [.write byte (console.writeChar byte state).1])
  acknowledgeKey := fun (state, log) => (console.acknowledgeKey state, log ++ [.acknowledge])
  halt := fun (state, log) => (console.halt state, log ++ [.halt])

theorem recorded_views (console : Console σ) : console.recorded.Views console Prod.fst := by
  constructor <;> intros <;> rfl

theorem write_all_recorded (console : Console σ) (bytes : List UInt8) (state : σ) (log : List Exchange) :
    (∃ later, console.recorded.writeAll bytes (state, log) = (true, later, log ++ accepted bytes)) ∨
      ∃ sent byte rest later, bytes = sent ++ byte :: rest ∧
        console.recorded.writeAll bytes (state, log) =
          (false, later, log ++ (accepted sent ++ [.write byte false])) := by
  induction bytes generalizing state log with
  | nil => exact .inl ⟨state, by simp [writeAll, accepted]⟩
  | cons byte rest ih =>
      cases answer : (console.writeChar byte state).1 with
      | false =>
          refine .inr ⟨[], byte, rest, (console.writeChar byte state).2, rfl, ?_⟩
          simp [writeAll, recorded, answer, accepted]
      | true =>
          have later : console.recorded.writeAll (byte :: rest) (state, log) =
              console.recorded.writeAll rest ((console.writeChar byte state).2, log ++ [.write byte true]) := by
            simp [writeAll, recorded, answer]
          rw [later]
          cases ih (console.writeChar byte state).2 (log ++ [.write byte true]) with
          | inl all =>
              obtain ⟨last, written⟩ := all
              exact .inl ⟨last, by simp [written, accepted]⟩
          | inr refused =>
              obtain ⟨sent, other, left, last, rfl, written⟩ := refused
              exact .inr ⟨byte :: sent, other, left, last, rfl, by simp [written, accepted]⟩

end Console

namespace Core

variable {σ : Type}

-- How an output routine ends that has `bytes` to hand over: with all of them accepted, or at the first that is refused.
inductive Delivers (core : Core) (next : Word) (bytes : List UInt8) : Outcome → Core → List Exchange → Prop where
  | completed : Delivers core next bytes .retired (core.setPc next) (accepted bytes)
  | refused (sent : List UInt8) (byte : UInt8) (rest : List UInt8) (parts : bytes = sent ++ byte :: rest) :
      Delivers core next bytes .interrupted core (accepted sent ++ [.write byte false])

theorem print_delivers (console : Console σ) (core : Core) (next : Word) (bytes : List UInt8) (state : σ) :
    ∃ outcome after later log, Delivers core next bytes outcome after log ∧
      core.print console next bytes state = (outcome, after, later) ∧
      core.print console.recorded next bytes (state, []) = (outcome, after, later, log) := by
  have same := print_views console.recorded_views core next bytes (state, [])
  cases console.write_all_recorded bytes state [] with
  | inl all =>
      obtain ⟨later, written⟩ := all
      have printed : core.print console.recorded next bytes (state, []) =
          (.retired, core.setPc next, later, accepted bytes) := by
        simp only [print, written, List.nil_append]
      rw [printed] at same
      exact ⟨_, _, later, _, .completed, same, printed⟩
  | inr refused =>
      obtain ⟨sent, byte, rest, later, parts, written⟩ := refused
      have printed : core.print console.recorded next bytes (state, []) =
          (.interrupted, core, later, accepted sent ++ [.write byte false]) := by
        simp only [print, written, List.nil_append]
      rw [printed] at same
      exact ⟨_, _, later, _, .refused sent byte rest parts, same, printed⟩

theorem serve_output (console : Console σ) (core : Core) (service : Service) (next : Word) (bytes : List UInt8)
    (state : σ) (prints : service = .out ∨ service = .puts) (output : core.output? service = some bytes) :
    core.serve console service next state =
      (some (core.print console next bytes state).1, (core.print console next bytes state).2) := by
  cases prints with
  | inl out =>
      subst out
      cases output
      rfl
  | inr puts =>
      subst puts
      simp only [serve, output]

theorem serve_delivers (console : Console σ) (core : Core) (service : Service) (next : Word) (bytes : List UInt8)
    (state : σ) (prints : service = .out ∨ service = .puts) (output : core.output? service = some bytes) :
    ∃ outcome after later log, Delivers core next bytes outcome after log ∧
      core.serve console service next state = (some outcome, after, later) ∧
      core.serve console.recorded service next (state, []) = (some outcome, after, later, log) := by
  obtain ⟨outcome, after, later, log, delivers, plain, recorded⟩ := print_delivers console core next bytes state
  refine ⟨outcome, after, later, log, delivers, ?_, ?_⟩
  · rw [serve_output console core service next bytes state prints output, plain]
  · rw [serve_output _ core service next bytes _ prints output, recorded]

end Core

end LittleComputer
