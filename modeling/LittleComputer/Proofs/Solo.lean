import LittleComputer.Proofs.Agreement
import LittleComputer.Machine.Run

set_option autoImplicit false

namespace LittleComputer

def Core.prints (core : Core) : List Char :=
  match Instruction.decode core.word with
  | .ok (.trap service) => ((core.output? service).getD []).map fun byte => Char.ofNat byte.toNat
  | _ => []

structure Setting where
  policy : Policy
  delivers : Bool

def Setting.kept (setting : Setting) (text : List Char) : List Char := if setting.delivers then text else []

theorem kept_nil (setting : Setting) : setting.kept [] = [] := by
  unfold Setting.kept
  exact ite_self []

theorem kept_undelivered (setting : Setting) (text : List Char) (nobody : setting.delivers = false) :
    setting.kept text = [] := by
  simp only [Setting.kept, nobody, Bool.false_eq_true, if_false]

theorem kept_delivered (setting : Setting) (text : List Char) (somebody : setting.delivers = true) :
    setting.kept text = text := by
  simp only [Setting.kept, somebody, if_true]

namespace Core

theorem prints_trap (core : Core) (service : Service)
    (decoded : Instruction.decode core.word = .ok (.trap service)) :
    core.prints = ((core.output? service).getD []).map fun byte => Char.ofNat byte.toNat := by
  simp only [prints, decoded]

theorem prints_fault (core : Core) (fault : Fault) (decoded : Instruction.decode core.word = .error fault) :
    core.prints = [] := by
  simp only [prints, decoded]

theorem prints_plain (core : Core) (instruction : Instruction)
    (decoded : Instruction.decode core.word = .ok instruction) (plain : instruction.Plain) : core.prints = [] := by
  unfold prints
  rw [decoded]
  cases instruction <;> first | rfl | exact absurd rfl (plain _)

theorem agrees_prints (left right : Core) (agrees : left.Agrees right) (apart : ¬left.ReadsDevice) :
    left.prints = right.prints := by
  have word := agrees_word left right agrees (not_reads_device_fetch left apart)
  obtain ⟨fault, decoded⟩ | ⟨service, decoded⟩ | ⟨instruction, decoded, plain⟩ := decode_cases left.word
  · rw [prints_fault left fault decoded, prints_fault right fault (word ▸ decoded)]
  · have deaf := not_reads_device_deaf left _ apart decoded
    rw [prints_trap left service decoded, prints_trap right service (word ▸ decoded),
      agrees_output left right agrees service deaf]
  · rw [prints_plain left instruction decoded plain, prints_plain right instruction (word ▸ decoded) plain]

end Core

structure Solo where
  core : Core
  input : List Word
  steps : Nat := 0
  output : List Char := []

namespace Solo

inductive Next where
  | goes (solo : Solo)
  | ends (ending : Ending) (solo : Solo)

-- There is no more input to come, so a GETC that finds none is told that the input is closed.
def execute (setting : Setting) (solo : Solo) : Option (Except Fault Outcome) × Solo :=
  match solo.core.step Script.console { input := solo.input } with
  | (some (.ok .interrupted), _, _) => (some (.ok .inputClosed), solo)
  | (result, core, script) =>
      (result, { solo with core, input := script.input, output := solo.output ++ setting.kept solo.core.prints })

def conclude (setting : Setting) (result : Except Fault Outcome) (solo : Solo) : Next :=
  match result with
  | .ok .retired => .goes { solo with steps := solo.steps + 1 }
  | .ok .halted => .ends .halted { solo with steps := solo.steps + 1 }
  | .ok .interrupted => .ends .cancelled solo
  | .ok .inputClosed => .ends .inputClosed solo
  | .error fault =>
      match setting.policy with
      | .halt => .ends (.faulted fault) solo
      | .continue => .goes { solo with core := solo.core.setPc (solo.core.registers.pc + 1) }

def next? (setting : Setting) (solo : Solo) : Option Next :=
  (solo.execute setting).1.map fun result => conclude setting result (solo.execute setting).2

theorem conclude_halt (setting : Setting) (fault : Fault) (solo : Solo) (halts : setting.policy = .halt) :
    conclude setting (.error fault) solo = .ends (.faulted fault) solo := by
  simp only [conclude, halts]

theorem conclude_continue (setting : Setting) (fault : Fault) (solo : Solo)
    (continues : setting.policy = .continue) :
    conclude setting (.error fault) solo =
      .goes { solo with core := solo.core.setPc (solo.core.registers.pc + 1) } := by
  simp only [conclude, continues]

theorem execute_step (setting : Setting) (solo : Solo) (result : Except Fault Outcome) (later : Core)
    (script : Script)
    (stepped : solo.core.step Script.console { input := solo.input } = (some result, later, script))
    (granted : result ≠ .ok .interrupted) :
    solo.execute setting = (some result, { solo with
      core := later
      input := script.input
      output := solo.output ++ setting.kept solo.core.prints }) := by
  unfold execute
  rw [stepped]
  rcases result with fault | _ | _ | _ | _
  · rfl
  · rfl
  · rfl
  · exact absurd rfl granted
  · rfl

theorem execute_starved (setting : Setting) (solo : Solo) (settled : solo.core.keyRead = false)
    (getc : Instruction.decode solo.core.word = .ok (.trap .getc)) (nothing : solo.input = []) :
    solo.execute setting = (some (.ok .inputClosed), solo) := by
  have read : solo.core.serve Script.console .getc (solo.core.registers.pc + 1) { input := solo.input } =
      (some .interrupted, solo.core, { input := solo.input.tail }) := by
    rw [nothing]
    rfl
  have stepped := Core.step_trap_idle Script.console solo.core { input := solo.input } .getc getc
    (by rw [read]; exact settled)
  rw [read] at stepped
  unfold execute
  rw [stepped]
  rfl

inductive Path (setting : Setting) (start : Solo) : Nat → Solo → Prop where
  | start : Path setting start 0 start
  | goes (number : Nat) (solo later : Solo) (path : Path setting start number solo)
      (next : solo.next? setting = some (.goes later)) : Path setting start (number + 1) later

variable {setting : Setting} {start : Solo}

theorem path_unique (number : Nat) (left right : Solo) (leftPath : Path setting start number left)
    (rightPath : Path setting start number right) : left = right := by
  induction leftPath generalizing right with
  | start =>
      cases rightPath
      rfl
  | goes number solo later path next ih =>
      cases rightPath with
      | goes _ other _ otherPath otherNext =>
          obtain rfl := ih other otherPath
          rw [next] at otherNext
          cases otherNext
          rfl

theorem apart_through (number : Nat) (solo : Solo) (path : Path setting start number solo)
    (passed : ∀ earlier state, Path setting start earlier state → earlier < number → ¬state.core.ReadsDevice)
    (apart : ¬solo.core.ReadsDevice) (earlier : Nat) (state : Solo)
    (statePath : Path setting start earlier state) (bound : earlier ≤ number) : ¬state.core.ReadsDevice := by
  by_cases last : earlier = number
  · subst last
    rw [path_unique earlier state solo statePath path]
    exact apart
  · exact passed earlier state statePath (by omega)

theorem path_goes (number earlier : Nat) (solo : Solo) (path : Path setting start number solo)
    (before : earlier < number) :
    ∃ middle later, Path setting start earlier middle ∧ middle.next? setting = some (.goes later) := by
  induction path with
  | start => exact absurd before (Nat.not_lt_zero earlier)
  | goes number solo later path next ih =>
      by_cases last : earlier = number
      · subst last
        exact ⟨solo, later, path, next⟩
      · exact ih (by omega)

theorem path_bounded (number other : Nat) (solo last reached : Solo) (ending : Ending)
    (path : Path setting start number solo) (ends : solo.next? setting = some (.ends ending last))
    (otherPath : Path setting start other reached) : other ≤ number := by
  refine Nat.le_of_not_lt fun beyond => ?_
  obtain ⟨middle, later, middlePath, next⟩ := path_goes other number reached otherPath beyond
  obtain rfl := path_unique number solo middle path middlePath
  rw [ends] at next
  cases next

theorem ends_unique (leftNumber rightNumber : Nat) (left right leftLast rightLast : Solo)
    (leftEnding rightEnding : Ending) (leftPath : Path setting start leftNumber left)
    (rightPath : Path setting start rightNumber right)
    (leftEnds : left.next? setting = some (.ends leftEnding leftLast))
    (rightEnds : right.next? setting = some (.ends rightEnding rightLast)) :
    leftEnding = rightEnding ∧ leftLast = rightLast := by
  have leftBound := path_bounded rightNumber leftNumber right rightLast left rightEnding rightPath rightEnds leftPath
  have rightBound := path_bounded leftNumber rightNumber left leftLast right leftEnding leftPath leftEnds rightPath
  obtain rfl : leftNumber = rightNumber := by omega
  obtain rfl := path_unique leftNumber left right leftPath rightPath
  rw [leftEnds] at rightEnds
  cases rightEnds
  exact ⟨rfl, rfl⟩

end Solo

end LittleComputer
