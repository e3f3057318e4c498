import LittleComputer.Console.Script
import LittleComputer.Proofs.InstructionCycle
import LittleComputer.Proofs.InstructionTable

set_option autoImplicit false

namespace LittleComputer

def Instruction.destination? : Instruction → Option Register
  | .add dr _ _ => some dr
  | .and dr _ _ => some dr
  | .not dr _ => some dr
  | .ld dr _ => some dr
  | .ldi dr _ => some dr
  | .ldr dr _ _ => some dr
  | .lea dr _ => some dr
  | _ => none

def Cycle.value? (cycle : Cycle) : Option Word :=
  match cycle.result, Instruction.decode cycle.before.word with
  | .ok .retired, .ok instruction => instruction.destination?.map cycle.after.registers.get
  | _, _ => none

theorem Cycle.value_nowhere (cycle : Cycle) (instruction : Instruction)
    (decoded : Instruction.decode cycle.before.word = .ok instruction) (nowhere : instruction.destination? = none) :
    cycle.value? = none := by
  rw [value?, decoded]
  split
  · rename_i same
    cases same
    rw [nowhere]
    rfl
  · rfl

namespace Condition

theorem of_result_sign (value : Word) :
    (0 < Table.signed value 16 ∧ ofResult value = positive) ∨ (Table.signed value 16 = 0 ∧ ofResult value = zero) ∨
      (Table.signed value 16 < 0 ∧ ofResult value = negative) := by
  rw [Table.of_result_flag, Table.State.flag]
  by_cases nothing : Table.signed value 16 = 0
  · rw [if_pos nothing]
    exact .inr (.inl ⟨nothing, rfl⟩)
  · rw [if_neg nothing]
    by_cases below : Table.signed value 16 < 0
    · rw [if_pos below]
      exact .inr (.inr ⟨below, rfl⟩)
    · rw [if_neg below]
      exact .inl ⟨by omega, rfl⟩

theorem of_result_masked (value : Word) : 7 &&& ofResult value ≠ 0 := by
  obtain ⟨-, flag⟩ | ⟨-, flag⟩ | ⟨-, flag⟩ := of_result_sign value <;> rw [flag] <;> decide

end Condition

namespace Core

variable {σ : Type}

theorem result_cond (core : Core) (register : Register) (value next : Word) :
    ((core.setResult register value).setPc next).registers.cond =
      Condition.ofResult (((core.setResult register value).setPc next).registers.get register) := by
  have written : ((core.setResult register value).setPc next).registers.get register = value :=
    (Registers.get_set core.registers register register value).trans (if_pos rfl)
  rw [written]
  rfl

-- An instruction with a destination writes the register and the condition together, and only the PC after them.
theorem computed_result (core : Core) (instruction : Instruction) (dr : Register)
    (into : instruction.destination? = some dr) :
    ∃ loaded value next, core.computed instruction = (setResult loaded dr value).setPc next := by
  cases instruction with
  | add | and | not | ld | ldi | ldr | lea =>
      cases into
      exact ⟨_, _, _, rfl⟩
  | _ => cases into

theorem computed_other (core : Core) (instruction : Instruction) (nowhere : instruction.destination? = none) :
    (core.computed instruction).registers.cond = core.registers.cond := by
  cases instruction with
  | add | and | not | ld | ldi | ldr | lea => cases nowhere
  | jsr target => cases target <;> rfl
  | _ => rfl

theorem computed_cond (core : Core) (instruction : Instruction) :
    (core.computed instruction).registers.cond =
      instruction.destination?.elim core.registers.cond fun dr =>
        Condition.ofResult ((core.computed instruction).registers.get dr) := by
  cases into : instruction.destination? with
  | none => exact computed_other core instruction into
  | some dr =>
      obtain ⟨loaded, value, next, computed⟩ := computed_result core instruction dr into
      rw [computed]
      exact result_cond loaded dr value next

theorem serve_cond (console : Console σ) (core : Core) (service : Service) (next : Word) (state : σ) :
    (core.serve console service next state).2.1.registers.cond = core.registers.cond := by
  obtain ⟨-, -, code, taken⟩ | ⟨-, kept | moved⟩ := serve_core console core service next state
  · rw [taken]
    rfl
  · rw [kept]
  · rw [moved]
    rfl

theorem trap_cond (console : Console σ) (core : Core) (service : Service) (state : σ)
    (decoded : Instruction.decode core.word = .ok (.trap service)) :
    (core.step console state).2.1.registers.cond = core.registers.cond := by
  have served := serve_cond console core service (core.registers.pc + 1) state
  rw [step_trap console core state service decoded]
  rcases answer : core.serve console service (core.registers.pc + 1) state with ⟨_ | outcome, after, later⟩
  · rw [answer] at served
    exact served
  · rw [answer] at served
    exact (congrArg Registers.cond (settle_key_registers console after later)).trans served

theorem step_cond (console : Console σ) (core after : Core) (state later : σ)
    (result : Option (Except Fault Outcome)) (log : List Exchange)
    (stepped : core.step console.recorded (state, []) = (result, after, later, log)) :
    after.registers.cond =
      (result.bind fun answer => Cycle.value? ⟨core, answer, log, after⟩).elim core.registers.cond
        Condition.ofResult := by
  obtain ⟨fault, decoded⟩ | ⟨service, decoded⟩ | ⟨instruction, decoded, plain⟩ := decode_cases core.word
  · rw [step_fault _ _ _ fault decoded] at stepped
    cases stepped
    rfl
  · have kept := trap_cond console.recorded core service (state, []) decoded
    rw [stepped] at kept
    have none : (result.bind fun answer => Cycle.value? ⟨core, answer, log, after⟩) = none := by
      cases result with
      | none => rfl
      | some answer => exact Cycle.value_nowhere ⟨core, answer, log, after⟩ _ decoded rfl
    rw [none]
    exact kept
  · rw [step_plain _ _ _ instruction decoded plain] at stepped
    have registers := settle_key_registers console.recorded (core.computed instruction) (state, [])
    rcases settles : (core.computed instruction).settleKey console.recorded (state, []) with ⟨rest, final, said⟩
    rw [settles] at stepped registers
    cases stepped
    have computed := computed_cond core instruction
    rw [← registers] at computed
    rw [computed]
    simp only [Option.bind_some, Cycle.value?, decoded]
    cases instruction.destination? <;> rfl

theorem run_cond (consoles : List (Console σ)) (core : Core) (state : σ) :
    (core.run consoles state).2.1.registers.cond =
      ((core.run consoles state).1.filterMap Cycle.value?).getLast?.elim core.registers.cond Condition.ofResult := by
  induction consoles generalizing core state with
  | nil => rfl
  | cons console rest ih =>
      obtain ⟨after, later, log, stepped, runs⟩ | ⟨result, after, later, log, stepped, runs⟩ :=
        run_cons console rest core state
      · rw [runs]
        exact step_cond console core after state later none log stepped
      · have first := step_cond console core after state later (some result) log stepped
        rw [runs, ih after later, first, List.filterMap_cons, Option.bind_some]
        cases Cycle.value? ⟨core, result, log, after⟩ with
        | none => rfl
        | some value =>
            rw [List.getLast?_cons]
            cases ((after.run rest later).1.filterMap Cycle.value?).getLast? <;> rfl

theorem step_branch (console : Console σ) (core : Core) (state : σ) (nzp offset : Word)
    (decoded : Instruction.decode core.word = .ok (.br nzp offset)) :
    (core.step console state).2.1.registers.pc =
      if nzp &&& core.registers.cond ≠ 0 then core.registers.pc + 1 + offset else core.registers.pc + 1 := by
  rw [step_plain console core state _ decoded nofun]
  exact congrArg Registers.pc (settle_key_registers console (core.computed (.br nzp offset)) state)

theorem cond_describes_last_result (consoles : List (Console σ)) (core : Core) (state : σ) :
    let last := (core.run consoles state).2.1
    let results := (core.run consoles state).1.filterMap Cycle.value?
    last.registers.cond = results.getLast?.elim core.registers.cond Condition.ofResult ∧
      (∀ value : Word,
        (0 < Table.signed value 16 ∧ Condition.ofResult value = 1) ∨
        (Table.signed value 16 = 0 ∧ Condition.ofResult value = 2) ∨
        (Table.signed value 16 < 0 ∧ Condition.ofResult value = 4)) ∧
      core.reset.registers.cond = 0 ∧
      (core.registers.cond = 0 → results = [] → last.registers.cond = 0 ∧
        ∀ nzp offset, Instruction.decode last.word = .ok (.br nzp offset) →
          ∀ (console : Console σ) (state : σ), (last.step console state).2.1.registers.pc = last.registers.pc + 1) ∧
      (results ≠ [] →
        ∀ offset, Instruction.decode last.word = .ok (.br 7 offset) →
          ∀ (console : Console σ) (state : σ),
            (last.step console state).2.1.registers.pc = last.registers.pc + 1 + offset) := by
  intro last results
  have cond : last.registers.cond = results.getLast?.elim core.registers.cond Condition.ofResult :=
    run_cond consoles core state
  refine ⟨cond, Condition.of_result_sign, rfl, ?_, ?_⟩
  · intro unset none
    have still : last.registers.cond = 0 := by
      rw [cond, none]
      exact unset
    refine ⟨still, fun nzp offset decoded console state => ?_⟩
    rw [step_branch console last state nzp offset decoded, still, UInt16.and_zero]
    exact if_neg (not_not_intro rfl)
  · intro some offset decoded console state
    have described : last.registers.cond = Condition.ofResult (results.getLast some) := by
      rw [cond, List.getLast?_eq_some_getLast some]
      rfl
    rw [step_branch console last state 7 offset decoded, described]
    exact if_pos (Condition.of_result_masked _)

end Core

end LittleComputer
