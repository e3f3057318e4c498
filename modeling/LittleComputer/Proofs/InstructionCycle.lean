import LittleComputer.Proofs.Exchange

set_option autoImplicit false

namespace LittleComputer

structure Cycle where
  before : Core
  result : Except Fault Outcome
  log : List Exchange
  after : Core

namespace Core

variable {σ : Type}

-- One step at each of the consoles. After a step that never ends there is no other one, and no cycle for it.
def run : List (Console σ) → Core → σ → List Cycle × Core × σ
  | [], core, state => ([], core, state)
  | console :: rest, core, state =>
      match core.step console.recorded (state, []) with
      | (none, after, later, _) => ([], after, later)
      | (some result, after, later, log) =>
          (⟨core, result, log, after⟩ :: (run rest after later).1, (run rest after later).2)

theorem run_cons (console : Console σ) (rest : List (Console σ)) (core : Core) (state : σ) :
    (∃ after later log, core.step console.recorded (state, []) = (none, after, later, log) ∧
        core.run (console :: rest) state = ([], after, later)) ∨
      ∃ result after later log, core.step console.recorded (state, []) = (some result, after, later, log) ∧
        core.run (console :: rest) state =
          (⟨core, result, log, after⟩ :: (after.run rest later).1, (after.run rest later).2) := by
  rcases stepped : core.step console.recorded (state, []) with ⟨_ | result, after, later, log⟩
  · exact .inl ⟨after, later, log, rfl, by rw [run, stepped]⟩
  · exact .inr ⟨result, after, later, log, rfl, by rw [run, stepped]⟩

theorem run_keeps (keeps : Core → Prop) (each : Cycle → Prop)
    (step : ∀ (console : Console σ) core state result after later log, keeps core →
      core.step console.recorded (state, []) = (result, after, later, log) →
      keeps after ∧ ∀ answer, result = some answer → each ⟨core, answer, log, after⟩)
    (consoles : List (Console σ)) (core : Core) (state : σ) (kept : keeps core) :
    keeps (core.run consoles state).2.1 ∧
      ∀ cycle ∈ (core.run consoles state).1, keeps cycle.before ∧ each cycle := by
  induction consoles generalizing core state with
  | nil => exact ⟨kept, nofun⟩
  | cons console rest ih =>
      obtain ⟨after, later, log, stepped, runs⟩ | ⟨result, after, later, log, stepped, runs⟩ :=
        run_cons console rest core state
      · rw [runs]
        exact ⟨(step console core state none after later log kept stepped).1, nofun⟩
      · obtain ⟨keptAfter, first⟩ := step console core state (some result) after later log kept stepped
        obtain ⟨last, others⟩ := ih after later keptAfter
        rw [runs]
        refine ⟨last, fun cycle member => ?_⟩
        cases member with
        | head => exact ⟨kept, first result rfl⟩
        | tail _ later => exact others cycle later

theorem print_core (console : Console σ) (core : Core) (next : Word) (bytes : List UInt8) (state : σ) :
    (core.print console next bytes state).2.1 = core ∨ (core.print console next bytes state).2.1 = core.setPc next := by
  simp only [print]
  cases console.writeAll bytes state with
  | mk all later =>
      cases all with
      | true => exact .inr rfl
      | false => exact .inl rfl

theorem serve_core (console : Console σ) (core : Core) (service : Service) (next : Word) (state : σ) :
    (service = .getc ∧ (core.serve console service next state).1 = some .retired ∧
        ∃ code, (core.serve console service next state).2.1 = ((core.setRegister 0 code).unlatch).setPc next) ∨
      (¬(service = .getc ∧ (core.serve console service next state).1 = some .retired) ∧
        ((core.serve console service next state).2.1 = core ∨
          (core.serve console service next state).2.1 = core.setPc next)) := by
  cases service with
  | getc =>
      rcases read : console.readChar state with ⟨_ | code, later⟩
      · have starved : core.serve console .getc next state = (some .interrupted, core, later) := by
          simp only [serve, getc, read]
        rw [starved]
        exact .inr ⟨by simp, .inl rfl⟩
      · have taken : core.serve console .getc next state =
            (some .retired, ((core.setRegister 0 code).unlatch).setPc next, later) := by
          simp only [serve, getc, read]
        rw [taken]
        exact .inl ⟨rfl, rfl, code, rfl⟩
  | halt => exact .inr ⟨by simp, .inr rfl⟩
  | out => exact .inr ⟨by simp, print_core console core next _ state⟩
  | puts =>
      refine .inr ⟨by simp, ?_⟩
      simp only [serve]
      cases core.output? .puts with
      | none => exact .inl rfl
      | some bytes => exact print_core console core next bytes state

theorem serve_key_read (console : Console σ) (core : Core) (service : Service) (next : Word) (state : σ) :
    (core.serve console service next state).2.1.keyRead = core.keyRead := by
  obtain ⟨-, -, code, taken⟩ | ⟨-, kept | moved⟩ := serve_core console core service next state
  · rw [taken]
    rfl
  · rw [kept]
  · rw [moved]
    rfl

theorem serve_unacknowledged (console : Console σ) (core : Core) (service : Service) (next : Word) (state : σ) :
    .acknowledge ∉ (core.serve console.recorded service next (state, [])).2.2.2 := by
  have printed (bytes : List UInt8) :
      .acknowledge ∉ (core.print console.recorded next bytes (state, [])).2.2.2 := by
    obtain ⟨outcome, after, later, log, delivers, -, recorded⟩ := print_delivers console core next bytes state
    rw [recorded]
    cases delivers with
    | completed => simp [accepted]
    | refused => simp [accepted]
  cases service with
  | getc =>
      simp only [serve, getc, Console.recorded]
      cases (console.readChar state).1 with
      | none => simp
      | some code => simp
  | halt => simp [serve, Console.recorded]
  | out => exact printed _
  | puts =>
      simp only [serve]
      cases core.output? .puts with
      | none => simp
      | some bytes => exact printed bytes

end Core

end LittleComputer
