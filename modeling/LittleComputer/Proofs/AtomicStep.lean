import LittleComputer.Console.Script
import LittleComputer.Proofs.Exchange
import LittleComputer.Proofs.InstructionTable
import LittleComputer.Proofs.Strings

set_option autoImplicit false

namespace LittleComputer

def Word.Unimplemented (word : Word) : Prop :=
  word.toNat / 0x1000 = 0x8 ∨ word.toNat / 0x1000 = 0xD ∨
    (word.toNat / 0x1000 = 0xF ∧ word.toNat % 0x100 ∉ [0x20, 0x21, 0x22, 0x25])

theorem Opcode.of_word_number (word : Word) : (Opcode.ofWord word).number = word.toNat / 0x1000 := by
  have bound := word.toNat_lt
  rw [Table.number_of_word, Table.bits]
  omega

theorem Service.of_word_none (word : Word) :
    Service.ofWord? word = none ↔ word.toNat % 0x100 ∉ [0x20, 0x21, 0x22, 0x25] := by
  have low : word.field 0 8 = word.toNat % 0x100 := by
    simp only [Word.field, Nat.shiftRight_zero, Nat.one_shiftLeft]
  rw [Service.ofWord?, low]
  split <;> simp_all

theorem Instruction.decode_fails (word : Word) :
    (∃ fault, Instruction.decode word = .error fault) ↔ word.Unimplemented := by
  have number := Opcode.of_word_number word
  rw [Word.Unimplemented, ← number, ← Service.of_word_none]
  cases opcode : Opcode.ofWord word with
  | trap =>
      cases service : Service.ofWord? word with
      | none => simp [Instruction.decode, opcode, service, Opcode.number]
      | some service => simp [Instruction.decode, opcode, service, Opcode.number]
  | _ => simp [Instruction.decode, opcode, Opcode.number]

namespace Core

variable {σ : Type}

inductive Concludes (core : Core) (answer : Option Word) : Except Fault Outcome → Core → List Exchange → Prop where
  | failed (fault : Fault) (decoded : Instruction.decode core.word = .error fault) :
      Concludes core answer (.error fault) core []
  | starved (decoded : Instruction.decode core.word = .ok (.trap .getc)) (nothing : answer = none) :
      Concludes core answer (.ok .interrupted) core [.read none]
  | taken (code : Word) (decoded : Instruction.decode core.word = .ok (.trap .getc)) (something : answer = some code) :
      Concludes core answer (.ok .retired) (((core.setRegister 0 code).unlatch).setPc (core.registers.pc + 1))
        [.read (some code)]
  | printed (service : Service) (bytes : List UInt8) (outcome : Outcome) (after : Core) (log : List Exchange)
      (decoded : Instruction.decode core.word = .ok (.trap service)) (prints : service = .out ∨ service = .puts)
      (output : core.output? service = some bytes)
      (delivers : core.Delivers (core.registers.pc + 1) bytes outcome after log) :
      Concludes core answer (.ok outcome) after log
  | halted (decoded : Instruction.decode core.word = .ok (.trap .halt)) :
      Concludes core answer (.ok .halted) (core.setPc (core.registers.pc + 1)) [.halt]
  | computed (instruction : Instruction) (decoded : Instruction.decode core.word = .ok instruction)
      (plain : instruction.Plain) : Concludes core answer (.ok .retired) (core.computed instruction) []
  | acknowledged (instruction : Instruction) (decoded : Instruction.decode core.word = .ok instruction)
      (plain : instruction.Plain) :
      Concludes core answer (.ok .retired) (core.computed instruction).forgetKey.unlatch [.acknowledge]

theorem delivers_idle (core after : Core) (next : Word) (bytes : List UInt8) (outcome : Outcome) (log : List Exchange)
    (delivers : core.Delivers next bytes outcome after log) (idle : core.keyRead = false) : after.keyRead = false := by
  cases delivers <;> exact idle

theorem step_served (console : Console σ) (core after : Core) (service : Service) (state later : σ)
    (outcome : Outcome) (decoded : Instruction.decode core.word = .ok (.trap service))
    (served : core.serve console service (core.registers.pc + 1) state = (some outcome, after, later))
    (idle : after.keyRead = false) : core.step console state = (some (.ok outcome), after, later) := by
  rw [step_trap_idle console core state service decoded (by rw [served]; exact idle), served]
  rfl

theorem step_getc_concludes (console : Console σ) (core : Core) (state : σ) (idle : core.keyRead = false)
    (decoded : Instruction.decode core.word = .ok (.trap .getc)) :
    ∃ result after later log, core.step console.recorded (state, []) = (some result, after, later, log) ∧
      core.Concludes (console.readChar state).1 result after log := by
  have asked : console.recorded.readChar (state, []) =
      ((console.readChar state).1, (console.readChar state).2, [.read (console.readChar state).1]) := rfl
  cases answer : (console.readChar state).1 with
  | none =>
      have served : core.serve console.recorded .getc (core.registers.pc + 1) (state, []) =
          (some .interrupted, core, (console.readChar state).2, [.read none]) := by
        simp only [serve, getc, asked, answer]
      exact ⟨_, _, _, _, step_served _ core core .getc _ _ _ decoded served idle, .starved decoded rfl⟩
  | some code =>
      have served : core.serve console.recorded .getc (core.registers.pc + 1) (state, []) =
          (some .retired, ((core.setRegister 0 code).unlatch).setPc (core.registers.pc + 1),
            (console.readChar state).2, [.read (some code)]) := by
        simp only [serve, getc, asked, answer]
      exact ⟨_, _, _, _, step_served _ core _ .getc _ _ _ decoded served idle, .taken code decoded rfl⟩

theorem output_exists (core : Core) (service : Service) (zero : ∃ address, core.memory.read address = 0) :
    ∃ bytes, core.output? service = some bytes := by
  obtain ⟨address, ends⟩ := zero
  obtain ⟨string, found⟩ := core.memory.string_found core.r0 address ends
  cases service with
  | puts => exact ⟨string.map Word.lowByte, by rw [output?, found]; rfl⟩
  | _ => exact ⟨_, rfl⟩

theorem step_prints_concludes (console : Console σ) (core : Core) (service : Service) (state : σ)
    (idle : core.keyRead = false) (zero : ∃ address, core.memory.read address = 0)
    (decoded : Instruction.decode core.word = .ok (.trap service)) (prints : service = .out ∨ service = .puts) :
    ∃ result after later log, core.step console.recorded (state, []) = (some result, after, later, log) ∧
      core.Concludes (console.readChar state).1 result after log := by
  obtain ⟨bytes, output⟩ := core.output_exists service zero
  obtain ⟨outcome, after, later, log, delivers, -, served⟩ :=
    serve_delivers console core service (core.registers.pc + 1) bytes state prints output
  have still := delivers_idle core after _ bytes outcome log delivers idle
  exact ⟨_, after, later, log, step_served _ core after service _ _ _ decoded served still,
    .printed service bytes outcome after log decoded prints output delivers⟩

theorem step_concludes (console : Console σ) (core : Core) (state : σ) (idle : core.keyRead = false)
    (zero : ∃ address, core.memory.read address = 0) :
    ∃ result after later log, core.step console.recorded (state, []) = (some result, after, later, log) ∧
      core.Concludes (console.readChar state).1 result after log := by
  obtain ⟨fault, decoded⟩ | ⟨service, decoded⟩ | ⟨instruction, decoded, plain⟩ := decode_cases core.word
  · exact ⟨_, core, state, [], step_fault _ core _ fault decoded, .failed fault decoded⟩
  · cases service with
    | getc => exact step_getc_concludes console core state idle decoded
    | out => exact step_prints_concludes console core .out state idle zero decoded (.inl rfl)
    | puts => exact step_prints_concludes console core .puts state idle zero decoded (.inr rfl)
    | halt => exact ⟨_, _, _, _, step_served _ core _ .halt _ _ _ decoded rfl idle, .halted decoded⟩
  · have stepped := step_plain console.recorded core (state, []) instruction decoded plain
    cases key : (core.computed instruction).keyRead with
    | false =>
        rw [settle_key_idle console.recorded _ _ key] at stepped
        exact ⟨_, _, _, _, stepped, .computed instruction decoded plain⟩
    | true =>
        rw [settleKey, if_pos key] at stepped
        exact ⟨_, _, _, _, stepped, .acknowledged instruction decoded plain⟩

def Refused (core : Core) (answer : Option Word) (log : List Exchange) : Prop :=
  (Instruction.decode core.word = .ok (.trap .getc) ∧ answer = none) ∨
    ((Instruction.decode core.word = .ok (.trap .out) ∨ Instruction.decode core.word = .ok (.trap .puts)) ∧
      ∃ byte, .write byte false ∈ log)

-- The console has not been asked for anything that the same step, made again, would miss.
structure Unspent (core : Core) (log : List Exchange) : Prop where
  unacknowledged : .acknowledge ∉ log
  unhalted : .halt ∉ log
  untaken : ∀ code, .read (some code) ∉ log
  silent : Instruction.decode core.word = .ok (.trap .getc) → ∀ byte accepted, .write byte accepted ∉ log
  short : ∀ service, Instruction.decode core.word = .ok (.trap service) → service = .out ∨ service = .puts →
    ∃ byte rest, core.output? service = some (taken log ++ byte :: rest)

structure Completed (core : Core) (result : Except Fault Outcome) (after : Core) (log : List Exchange) : Prop where
  pc : ∃ instruction, Instruction.decode core.word = .ok instruction ∧
    after.registers.pc = (core.compute (core.registers.pc + 1) instruction).2
  outcome : result = .ok .retired ∨ result = .ok .halted
  halts : result = .ok .halted ↔ Instruction.decode core.word = .ok (.trap .halt)
  once : result = .ok .halted → log.count .halt = 1
  never : result ≠ .ok .halted → .halt ∉ log

theorem concludes_failed (core after : Core) (answer : Option Word) (result : Except Fault Outcome)
    (log : List Exchange) (concludes : core.Concludes answer result after log) :
    (∃ fault, result = .error fault) ↔ core.word.Unimplemented := by
  rw [← Instruction.decode_fails]
  cases concludes with
  | failed fault decoded => simp [decoded]
  | starved decoded => simp [decoded]
  | taken _ decoded => simp [decoded]
  | printed _ _ _ _ _ decoded => simp [decoded]
  | halted decoded => simp [decoded]
  | computed _ decoded => simp [decoded]
  | acknowledged _ decoded => simp [decoded]

theorem delivers_refused (core after : Core) (next : Word) (bytes : List UInt8) (outcome : Outcome)
    (log : List Exchange) (delivers : core.Delivers next bytes outcome after log) :
    outcome = .interrupted ↔ ∃ byte, .write byte false ∈ log := by
  cases delivers with
  | completed => simp [accepted]
  | refused sent byte rest parts => simp [accepted]

theorem concludes_refused (core after : Core) (answer : Option Word) (result : Except Fault Outcome)
    (log : List Exchange) (concludes : core.Concludes answer result after log) :
    result = .ok .interrupted ↔ core.Refused answer log := by
  cases concludes with
  | failed fault decoded => simp [Refused, decoded]
  | starved decoded nothing => simp [Refused, decoded, nothing]
  | taken code decoded something => simp [Refused, decoded, something]
  | printed service bytes outcome _ _ decoded prints _ delivers =>
      have refused := delivers_refused core after _ bytes outcome log delivers
      cases prints with
      | inl out => simp [Refused, decoded, out, refused]
      | inr puts => simp [Refused, decoded, puts, refused]
  | halted decoded => simp [Refused, decoded]
  | computed instruction decoded plain => simp [Refused, decoded, plain .getc]
  | acknowledged instruction decoded plain => simp [Refused, decoded, plain .getc]

theorem concludes_unspent (core after : Core) (answer : Option Word) (log : List Exchange)
    (concludes : core.Concludes answer (.ok .interrupted) after log) : after = core ∧ core.Unspent log := by
  cases concludes with
  | starved decoded nothing =>
      refine ⟨rfl, ?_⟩
      constructor
      · simp
      · simp
      · simp
      · simp
      · intro service trap prints
        rw [decoded] at trap
        cases trap
        simp at prints
  | printed service bytes _ _ _ decoded prints output delivers =>
      cases delivers with
      | refused sent byte rest parts =>
          refine ⟨rfl, ?_⟩
          constructor
          · simp [accepted]
          · simp [accepted]
          · simp [accepted]
          · intro getc
            rw [decoded] at getc
            cases getc
            simp at prints
          · intro other trap _
            rw [decoded] at trap
            cases trap
            refine ⟨byte, rest, ?_⟩
            rw [output, parts, taken_append, taken_accepted]
            simp [taken]

theorem concludes_completed (core after : Core) (answer : Option Word) (result : Except Fault Outcome)
    (log : List Exchange) (concludes : core.Concludes answer result after log)
    (implemented : ∀ fault, result ≠ .error fault) (uninterrupted : result ≠ .ok .interrupted) :
    core.Completed result after log := by
  cases concludes with
  | failed fault decoded => exact absurd rfl (implemented fault)
  | starved decoded nothing => exact absurd rfl uninterrupted
  | taken code decoded something =>
      constructor
      · exact ⟨.trap .getc, decoded, rfl⟩
      all_goals simp [decoded]
  | printed service bytes outcome _ _ decoded prints output delivers =>
      cases delivers with
      | refused sent byte rest parts => exact absurd rfl uninterrupted
      | completed =>
          have other : service ≠ .halt := by
            cases prints with
            | inl out => simp [out]
            | inr puts => simp [puts]
          constructor
          · exact ⟨.trap service, decoded, rfl⟩
          all_goals simp [decoded, other, accepted]
  | halted decoded =>
      constructor
      · exact ⟨.trap .halt, decoded, rfl⟩
      all_goals simp [decoded]
  | computed instruction decoded plain =>
      constructor
      · exact ⟨instruction, decoded, rfl⟩
      all_goals simp [decoded, plain .halt]
  | acknowledged instruction decoded plain =>
      constructor
      · exact ⟨instruction, decoded, rfl⟩
      all_goals simp [decoded, plain .halt]

theorem concludes_unasked (core after : Core) (answer : Option Word) (fault : Fault) (log : List Exchange)
    (concludes : core.Concludes answer (.error fault) after log) : after = core ∧ log = [] := by
  cases concludes
  exact ⟨rfl, rfl⟩

theorem step_is_atomic (console : Console σ) (core : Core) (state : σ) (idle : core.keyRead = false)
    (zero : ∃ address, core.memory.read address = 0) :
    ∃ result after later log,
      core.step console state = (some result, after, later) ∧
      core.step console.recorded (state, []) = (some result, after, later, log) ∧
      ((∃ fault, result = .error fault) ↔ core.word.Unimplemented) ∧
      ((∃ fault, result = .error fault) → after = core ∧ log = []) ∧
      (result = .ok .interrupted ↔ core.Refused (console.readChar state).1 log) ∧
      (result = .ok .interrupted → after = core ∧ core.Unspent log) ∧
      ((∀ fault, result ≠ .error fault) → result ≠ .ok .interrupted → core.Completed result after log) := by
  obtain ⟨result, after, later, log, stepped, concludes⟩ := step_concludes console core state idle zero
  have same := step_views console.recorded_views core (state, [])
  rw [stepped] at same
  refine ⟨result, after, later, log, same, stepped, ?_, ?_, ?_, ?_, ?_⟩
  · exact concludes_failed core after _ result log concludes
  · intro failed
    obtain ⟨fault, rfl⟩ := failed
    exact concludes_unasked core after _ fault log concludes
  · exact concludes_refused core after _ result log concludes
  · intro interrupted
    subst interrupted
    exact concludes_unspent core after _ log concludes
  · exact concludes_completed core after _ result log concludes

def muted : Core := { memory := Memory.zero.write 0 0xF021 }

theorem step_is_atomic_muted :
    ∃ later, muted.step Script.console { budget := some 0 } = (some (.ok .interrupted), muted, later) := by
  have cell (address : Word) : muted.memory.read address = if 0 = address then 0xF021 else 0 := by
    simp only [muted, Memory.read_write, Memory.read_zero]
  have decoded : Instruction.decode muted.word = .ok (.trap .out) := by
    rw [word, cell]
    rfl
  obtain ⟨result, after, later, log, stepped, -, -, -, -, unspent, -⟩ :=
    step_is_atomic Script.console muted { budget := some 0 } rfl ⟨1, cell 1⟩
  have interrupted : result = .ok .interrupted := by
    rw [step_trap_idle Script.console muted _ .out decoded rfl] at stepped
    exact (Option.some.inj (congrArg Prod.fst stepped)).symm
  rw [interrupted, (unspent interrupted).1] at stepped
  exact ⟨later, stepped⟩

end Core

end LittleComputer
