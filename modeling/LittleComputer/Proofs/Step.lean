import LittleComputer.Execute

set_option autoImplicit false

namespace LittleComputer

theorem first_and_rest {α : Type} (array : Array α) :
    array[0]?.toList ++ (array.extract 1).toList = array.toList := by
  rcases array with ⟨list⟩
  cases list with
  | nil => rfl
  | cons head tail => simp

def Instruction.Plain (instruction : Instruction) : Prop := ∀ service, instruction ≠ .trap service

theorem decode_cases (word : Word) :
    (∃ fault, Instruction.decode word = .error fault) ∨
      (∃ service, Instruction.decode word = .ok (.trap service)) ∨
      ∃ instruction, Instruction.decode word = .ok instruction ∧ instruction.Plain := by
  cases decoded : Instruction.decode word with
  | error fault => exact .inl ⟨fault, rfl⟩
  | ok instruction =>
      by_cases trap : ∃ service, instruction = .trap service
      · obtain ⟨service, rfl⟩ := trap
        exact .inr (.inl ⟨service, rfl⟩)
      · exact .inr (.inr ⟨instruction, rfl, fun service same => trap ⟨service, same⟩⟩)

namespace Core

variable {σ τ : Type}

def word (core : Core) : Word := core.memory.read core.registers.pc

def computed (core : Core) (instruction : Instruction) : Core :=
  (core.compute (core.registers.pc + 1) instruction).1.setPc
    (core.compute (core.registers.pc + 1) instruction).2

theorem settle_key_idle (console : Console σ) (core : Core) (state : σ) (idle : core.keyRead = false) :
    core.settleKey console state = (core, state) := by
  simp only [settleKey, idle, Bool.false_eq_true, if_false]

theorem settle_key_registers (console : Console σ) (core : Core) (state : σ) :
    (core.settleKey console state).1.registers = core.registers := by
  unfold settleKey
  split <;> rfl

theorem settle_key_read (console : Console σ) (core : Core) (state : σ) (address : Word)
    (other : address ≠ Address.keyboardStatus) :
    (core.settleKey console state).1.memory.read address = core.memory.read address := by
  unfold settleKey
  split
  · simp only [unlatch, store, forgetKey, Memory.read_write, if_neg (Ne.symm other)]
  · rfl

theorem getc_some (console : Console σ) (core : Core) (next code : Word) (state later : σ)
    (read : console.readChar state = (some code, later)) :
    core.getc console next state = (.retired, ((core.setRegister 0 code).unlatch).setPc next, later) := by
  simp only [getc, read]

theorem step_fault (console : Console σ) (core : Core) (state : σ) (fault : Fault)
    (decoded : Instruction.decode core.word = .error fault) :
    core.step console state = (some (.error fault), core, state) := by
  unfold word at decoded
  simp only [step, decoded]

theorem step_plain (console : Console σ) (core : Core) (state : σ) (instruction : Instruction)
    (decoded : Instruction.decode core.word = .ok instruction) (plain : instruction.Plain) :
    core.step console state =
      (some (.ok .retired), (core.computed instruction).settleKey console state) := by
  have executed : core.execute console instruction state = (some .retired, core.computed instruction, state) := by
    cases instruction <;> first | rfl | exact absurd rfl (plain _)
  unfold word at decoded
  simp only [step, decoded, executed]

theorem step_trap (console : Console σ) (core : Core) (state : σ) (service : Service)
    (decoded : Instruction.decode core.word = .ok (.trap service)) :
    core.step console state =
      match core.serve console service (core.registers.pc + 1) state with
      | (none, after, state) => (none, after, state)
      | (some outcome, after, state) => (some (.ok outcome), after.settleKey console state) := by
  unfold word at decoded
  unfold step
  rw [decoded]
  rfl

def answered (answer : Option Outcome × Core × σ) : Option (Except Fault Outcome) × Core × σ :=
  (answer.1.map .ok, answer.2)

theorem step_trap_idle (console : Console σ) (core : Core) (state : σ) (service : Service)
    (decoded : Instruction.decode core.word = .ok (.trap service))
    (idle : (core.serve console service (core.registers.pc + 1) state).2.1.keyRead = false) :
    core.step console state = answered (core.serve console service (core.registers.pc + 1) state) := by
  rw [step_trap console core state service decoded]
  rcases served : core.serve console service (core.registers.pc + 1) state with ⟨_ | outcome, after, later⟩
  · rfl
  · rw [served] at idle
    dsimp only
    rw [settle_key_idle console after later idle]
    rfl

theorem write_all_keeps (console : Console σ) (keeps : σ → Prop)
    (written : ∀ byte state, keeps state → keeps (console.writeChar byte state).2)
    (bytes : List UInt8) (state : σ) (kept : keeps state) : keeps (console.writeAll bytes state).2 := by
  induction bytes generalizing state with
  | nil => exact kept
  | cons byte rest ih =>
      have next := written byte state kept
      unfold Console.writeAll
      generalize console.writeChar byte state = answer at next ⊢
      rcases answer with ⟨_ | _, later⟩
      · exact next
      · exact ih later next

theorem write_all_accepts (console : Console σ) (keeps : σ → Prop)
    (accepts : ∀ byte state, keeps state → ∃ later, console.writeChar byte state = (true, later) ∧ keeps later)
    (bytes : List UInt8) (state : σ) (kept : keeps state) :
    ∃ later, console.writeAll bytes state = (true, later) ∧ keeps later := by
  induction bytes generalizing state with
  | nil => exact ⟨state, rfl, kept⟩
  | cons byte rest ih =>
      obtain ⟨later, written, next⟩ := accepts byte state kept
      unfold Console.writeAll
      rw [written]
      exact ih later next

-- Of the console state a step knows no more than its operations, so it keeps what they keep. Only a HALT calls for the
-- last of them.
theorem step_leaves (console : Console σ) (keeps stopped : σ → Prop)
    (read : ∀ state, keeps state → keeps (console.readChar state).2)
    (written : ∀ byte state, keeps state → keeps (console.writeChar byte state).2)
    (acknowledged : ∀ state, keeps state → keeps (console.acknowledgeKey state))
    (halted : ∀ state, keeps state → stopped (console.halt state))
    (settled : ∀ state, stopped state → stopped (console.acknowledgeKey state))
    (core : Core) (state : σ) (kept : keeps state) :
    keeps (core.step console state).2.2 ∨
      ((core.step console state).1 = some (.ok .halted) ∧ stopped (core.step console state).2.2) := by
  have acknowledges (left : σ → Prop) (step : ∀ state, left state → left (console.acknowledgeKey state))
      (core : Core) (state : σ) (before : left state) : left (core.settleKey console state).2 := by
    unfold settleKey
    split
    · exact step state before
    · exact before
  have printed (next : Word) (bytes : List UInt8) : keeps (core.print console next bytes state).2.2 := by
    have later := write_all_keeps console keeps written bytes state kept
    unfold print
    generalize console.writeAll bytes state = answer at later ⊢
    rcases answer with ⟨_ | _, after⟩ <;> exact later
  have served (service : Service) (next : Word) (other : service ≠ .halt) :
      keeps (core.serve console service next state).2.2 := by
    cases service with
    | getc =>
        have later := read state kept
        simp only [serve, getc]
        generalize console.readChar state = answer at later ⊢
        rcases answer with ⟨_ | code, after⟩ <;> exact later
    | halt => exact absurd rfl other
    | out => exact printed next _
    | puts =>
        simp only [serve]
        cases core.output? .puts with
        | none => exact kept
        | some bytes => exact printed next bytes
  obtain ⟨fault, decoded⟩ | ⟨service, decoded⟩ | ⟨instruction, decoded, plain⟩ := decode_cases core.word
  · rw [step_fault console core state fault decoded]
    exact .inl kept
  · rw [step_trap console core state service decoded]
    -- what a HALT leaves of the console may differ from what is kept
    by_cases halt : service = .halt
    · subst halt
      exact .inr ⟨rfl, acknowledges stopped settled _ _ (halted state kept)⟩
    · have later := served service (core.registers.pc + 1) halt
      generalize core.serve console service (core.registers.pc + 1) state = answer at later ⊢
      rcases answer with ⟨_ | outcome, after, state⟩
      · exact .inl later
      · exact .inl (acknowledges keeps acknowledged after state later)
  · rw [step_plain console core state instruction decoded plain]
    exact .inl (acknowledges keeps acknowledged _ state kept)

theorem step_keeps (console : Console σ) (keeps : σ → Prop)
    (read : ∀ state, keeps state → keeps (console.readChar state).2)
    (written : ∀ byte state, keeps state → keeps (console.writeChar byte state).2)
    (acknowledged : ∀ state, keeps state → keeps (console.acknowledgeKey state))
    (halted : ∀ state, keeps state → keeps (console.halt state))
    (core : Core) (state : σ) (kept : keeps state) : keeps (core.step console state).2.2 := by
  obtain later | ⟨-, later⟩ :=
    step_leaves console keeps keeps read written acknowledged halted acknowledged core state kept
  · exact later
  · exact later

end Core

structure Console.Views {σ τ : Type} (source : Console σ) (target : Console τ) (view : σ → τ) : Prop where
  readChar : ∀ state, target.readChar (view state) = (source.readChar state).map id view
  writeChar : ∀ byte state, target.writeChar byte (view state) = (source.writeChar byte state).map id view
  acknowledgeKey : ∀ state, target.acknowledgeKey (view state) = view (source.acknowledgeKey state)
  halt : ∀ state, target.halt (view state) = view (source.halt state)

namespace Core

variable {σ τ : Type} {source : Console σ} {target : Console τ} {view : σ → τ}

theorem write_all_views (views : source.Views target view) (bytes : List UInt8) (state : σ) :
    target.writeAll bytes (view state) = (source.writeAll bytes state).map id view := by
  induction bytes generalizing state with
  | nil => rfl
  | cons byte rest ih =>
      simp only [Console.writeAll, views.writeChar]
      rcases source.writeChar byte state with ⟨_ | _, later⟩
      · rfl
      · exact ih later

theorem settle_key_views (views : source.Views target view) (core : Core) (state : σ) :
    core.settleKey target (view state) = (core.settleKey source state).map id view := by
  unfold settleKey
  split
  · rw [views.acknowledgeKey]; rfl
  · rfl

theorem print_views (views : source.Views target view) (core : Core) (next : Word) (bytes : List UInt8)
    (state : σ) :
    core.print target next bytes (view state) = (core.print source next bytes state).map id (.map id view) := by
  simp only [print, write_all_views views]
  rcases source.writeAll bytes state with ⟨_ | _, later⟩ <;> rfl

theorem serve_views (views : source.Views target view) (core : Core) (service : Service) (next : Word)
    (state : σ) :
    core.serve target service next (view state) = (core.serve source service next state).map id (.map id view) := by
  cases service with
  | getc =>
      simp only [serve, getc, views.readChar]
      rcases source.readChar state with ⟨_ | code, later⟩ <;> rfl
  | halt => simp only [serve, views.halt]; rfl
  | out =>
      simp only [serve, output?, print_views views]
      rfl
  | puts =>
      simp only [serve]
      cases core.output? .puts with
      | none => rfl
      | some bytes => simp only [print_views views]; rfl

theorem step_views (views : source.Views target view) (core : Core) (state : σ) :
    core.step target (view state) = (core.step source state).map id (.map id view) := by
  obtain ⟨fault, decoded⟩ | ⟨service, decoded⟩ | ⟨instruction, decoded, plain⟩ := decode_cases core.word
  · rw [step_fault _ _ _ fault decoded, step_fault _ _ _ fault decoded]
    rfl
  · rw [step_trap _ _ _ service decoded, step_trap _ _ _ service decoded, serve_views views]
    rcases core.serve source service (core.registers.pc + 1) state with ⟨_ | outcome, after, later⟩
    · rfl
    · exact congrArg (Prod.mk (some (Except.ok outcome))) (settle_key_views views after later)
  · rw [step_plain _ _ _ instruction decoded plain, step_plain _ _ _ instruction decoded plain,
      settle_key_views views]
    rfl

end Core

end LittleComputer
