import LittleComputer.Console.Script
import LittleComputer.Machine.Basic
import LittleComputer.Proofs.Access

set_option autoImplicit false

namespace LittleComputer

namespace Memory

theorem scanned_same (left right : Memory) (fuel : Nat) (address : Word)
    (same : ∀ address, Address.isDevice address = false → left.read address = right.read address)
    (quiet : ∀ other ∈ left.scanned fuel address, Address.isDevice other = false) :
    left.scanned fuel address = right.scanned fuel address ∧
      left.stringWithin fuel address = right.stringWithin fuel address := by
  induction fuel generalizing address with
  | zero => exact ⟨rfl, rfl⟩
  | succ fuel ih =>
      have head : address ∈ left.scanned (fuel + 1) address := by
        unfold scanned
        split
        · exact List.mem_singleton_self address
        · exact List.mem_cons_self
      have read := same address (quiet address head)
      unfold scanned at quiet ⊢
      unfold stringWithin
      rw [← read]
      by_cases ends : left.read address = 0
      · simp only [if_pos ends, and_self]
      · rw [if_neg ends] at quiet
        obtain ⟨scanned, string⟩ := ih (address + 1) fun other member => quiet other (List.mem_cons_of_mem _ member)
        simp only [if_neg ends, scanned, string, and_self]

end Memory

namespace Core

structure Agrees (left right : Core) : Prop where
  registers : left.registers = right.registers
  leftSettled : left.keyRead = false
  rightSettled : right.keyRead = false
  memory : ∀ address, Address.isDevice address = false → left.memory.read address = right.memory.read address

theorem agrees_symm (left right : Core) (agrees : left.Agrees right) : right.Agrees left :=
  ⟨agrees.registers.symm, agrees.rightSettled, agrees.leftSettled,
    fun address other => (agrees.memory address other).symm⟩

structure Deaf (core : Core) (instruction : Instruction) : Prop where
  fetch : Address.isDevice core.registers.pc = false
  reads : ∀ address ∈ core.reads instruction, Address.isDevice address = false

theorem not_reads_device_fetch (core : Core) (apart : ¬core.ReadsDevice) :
    Address.isDevice core.registers.pc = false :=
  Bool.eq_false_iff.mpr fun device => apart (.inl device)

theorem not_reads_device_deaf (core : Core) (instruction : Instruction) (apart : ¬core.ReadsDevice)
    (decoded : Instruction.decode core.word = .ok instruction) : core.Deaf instruction where
  fetch := not_reads_device_fetch core apart
  reads address member := Bool.eq_false_iff.mpr fun device =>
    apart (.inr ⟨instruction, decoded, address, member, device⟩)

theorem agrees_word (left right : Core) (agrees : left.Agrees right)
    (fetch : Address.isDevice left.registers.pc = false) : left.word = right.word := by
  rw [word, word, ← agrees.registers]
  exact agrees.memory _ fetch

theorem agrees_load (left right : Core) (agrees : left.Agrees right) (instruction : Instruction) (address : Word)
    (deaf : left.Deaf instruction) (member : address ∈ left.reads instruction) :
    left.load address = right.load address :=
  agrees.memory address (deaf.reads address member)

theorem agrees_loads (left right : Core) (agrees : left.Agrees right) (instruction : Instruction)
    (deaf : left.Deaf instruction) : left.loads instruction = right.loads instruction := by
  cases instruction with
  | ldi dr offset =>
      have pointer := agrees_load left right agrees _ (pcRelative (left.registers.pc + 1) offset) deaf
        List.mem_cons_self
      simp only [loads, pointer]
      rw [agrees.registers]
  | ld dr offset => simp only [loads, agrees.registers]
  | ldr dr base offset => simp only [loads, baseRelative, agrees.registers]
  | _ => rfl

theorem agrees_reads (left right : Core) (agrees : left.Agrees right) (instruction : Instruction)
    (deaf : left.Deaf instruction) : left.reads instruction = right.reads instruction := by
  have same := agrees_loads left right agrees instruction deaf
  cases instruction with
  | sti sr offset =>
      have pointer (core : Core) : core.reads (.sti sr offset) = [pcRelative (core.registers.pc + 1) offset] := rfl
      rw [pointer, pointer, agrees.registers]
  | trap service =>
      cases service with
      | puts =>
          have scan (core : Core) :
              core.reads (.trap .puts) = core.memory.scanned Memory.size (core.registers.get 0) := rfl
          have scanned := (Memory.scanned_same left.memory right.memory Memory.size (left.registers.get 0)
            agrees.memory deaf.reads).1
          rw [scan, scan, scanned, agrees.registers]
      | _ => rfl
  | _ => exact congrArg (· ++ []) same

theorem agrees_reads_device (left right : Core) (agrees : left.Agrees right) (apart : ¬left.ReadsDevice) :
    ¬right.ReadsDevice := by
  have fetch := not_reads_device_fetch left apart
  have word := agrees_word left right agrees fetch
  rintro (device | ⟨instruction, decoded, address, member, device⟩)
  · rw [← agrees.registers, fetch] at device
    cases device
  · rw [← word] at decoded
    have deaf := not_reads_device_deaf left instruction apart decoded
    rw [← agrees_reads left right agrees instruction deaf] at member
    rw [deaf.reads address member] at device
    cases device

theorem note_load_registers (core : Core) (address : Word) :
    (core.noteLoad address).registers = core.registers := by
  unfold noteLoad
  split <;> rfl

theorem computed_registers_agree (left right : Core) (agrees : left.Agrees right) (instruction : Instruction)
    (deaf : left.Deaf instruction) :
    (left.computed instruction).registers = (right.computed instruction).registers := by
  have load (address : Word) (member : address ∈ left.reads instruction) :=
    agrees_load left right agrees instruction address deaf member
  have same := agrees.registers
  cases instruction with
  | ld dr offset =>
      have value := load (pcRelative (left.registers.pc + 1) offset) List.mem_cons_self
      rw [same] at value
      simp only [computed, compute, setPc, setResult, note_load_registers, same, value]
  | ldi dr offset =>
      have pointer := load (pcRelative (left.registers.pc + 1) offset) List.mem_cons_self
      have value := load (left.load (pcRelative (left.registers.pc + 1) offset))
        (List.mem_cons_of_mem _ List.mem_cons_self)
      rw [same] at pointer value
      rw [pointer] at value
      simp only [computed, compute, setPc, setResult, note_load_registers, same, pointer, value]
  | ldr dr base offset =>
      have value := load (left.baseRelative base offset) List.mem_cons_self
      rw [baseRelative, same] at value
      simp only [computed, compute, setPc, setResult, note_load_registers, baseRelative, same, value]
  | add dr sr operand =>
      cases operand <;> simp only [computed, compute, setPc, setResult, Core.operand, same]
  | and dr sr operand =>
      cases operand <;> simp only [computed, compute, setPc, setResult, Core.operand, same]
  | jsr target => cases target <;> simp only [computed, compute, setPc, setRegister, same]
  | _ => simp only [computed, compute, setPc, setResult, store, same]

theorem stores_agree (left right : Core) (agrees : left.Agrees right) (instruction : Instruction)
    (deaf : left.Deaf instruction) : left.stores? instruction = right.stores? instruction := by
  cases instruction with
  | st sr offset => simp only [stores?, agrees.registers]
  | sti sr offset =>
      have pointer := agrees_load left right agrees _ (pcRelative (left.registers.pc + 1) offset) deaf
        List.mem_cons_self
      unfold Core.load at pointer
      simp only [stores?, pointer]
      rw [agrees.registers]
  | str sr base offset => simp only [stores?, baseRelative, agrees.registers]
  | _ => rfl

theorem computed_settled (core : Core) (instruction : Instruction) (settled : core.keyRead = false)
    (deaf : core.Deaf instruction) : (core.computed instruction).keyRead = false := by
  have absent : Address.keyboardData ∉ core.loads instruction := by
    intro member
    have device := deaf.reads _ (List.mem_append_left _ member)
    cases device
  rw [computed_key_read, settled, decide_eq_false absent]
  rfl

theorem agrees_deaf (left right : Core) (agrees : left.Agrees right) (instruction : Instruction)
    (deaf : left.Deaf instruction) : right.Deaf instruction where
  fetch := by rw [← agrees.registers]; exact deaf.fetch
  reads := by rw [← agrees_reads left right agrees instruction deaf]; exact deaf.reads

theorem computed_agrees (left right : Core) (agrees : left.Agrees right) (instruction : Instruction)
    (deaf : left.Deaf instruction) : (left.computed instruction).Agrees (right.computed instruction) where
  registers := computed_registers_agree left right agrees instruction deaf
  leftSettled := computed_settled left instruction agrees.leftSettled deaf
  rightSettled :=
    computed_settled right instruction agrees.rightSettled (agrees_deaf left right agrees instruction deaf)
  memory address other := by
    rw [computed_memory, computed_memory, ← stores_agree left right agrees instruction deaf]
    cases left.stores? instruction with
    | none => exact agrees.memory address other
    | some pair => simp only [Option.elim_some, Memory.read_write, agrees.memory address other]

theorem agrees_output (left right : Core) (agrees : left.Agrees right) (service : Service)
    (deaf : left.Deaf (.trap service)) : left.output? service = right.output? service := by
  have r0 : left.r0 = right.r0 := congrArg (·.get 0) agrees.registers
  cases service with
  | out => simp only [output?, r0]
  | puts =>
      have string := (Memory.scanned_same left.memory right.memory Memory.size left.r0 agrees.memory deaf.reads).2
      rw [r0] at string
      simp only [output?, Memory.string?, r0, string]
  | _ => rfl

theorem agrees_set_pc (left right : Core) (agrees : left.Agrees right) (next : Word) :
    (left.setPc next).Agrees (right.setPc next) where
  registers := by simp only [setPc, agrees.registers]
  leftSettled := agrees.leftSettled
  rightSettled := agrees.rightSettled
  memory := agrees.memory

theorem agrees_store_device (left right : Core) (agrees : left.Agrees right) (address word : Word)
    (device : Address.isDevice address = true) : (left.store address word).Agrees right where
  registers := agrees.registers
  leftSettled := agrees.leftSettled
  rightSettled := agrees.rightSettled
  memory other apart := by
    have differ : address ≠ other := by
      rintro rfl
      rw [device] at apart
      cases apart
    simp only [store, Memory.read_write, if_neg differ, agrees.memory other apart]

theorem agrees_unlatch (left right : Core) (agrees : left.Agrees right) : left.unlatch.Agrees right.unlatch :=
  have lowered := agrees_store_device right left (agrees_symm left right agrees) Address.keyboardStatus
    (right.memory.read Address.keyboardStatus &&& ~~~Address.readyBit) rfl
  agrees_store_device left _ (agrees_symm _ _ lowered) _ _ rfl

theorem agrees_latch (left right : Core) (agrees : left.Agrees right) (code : Word) :
    (left.latch code).Agrees right :=
  agrees_store_device _ right (agrees_store_device left right agrees _ _ rfl) _ _ rfl

-- The same step under the console of a machine and under one that is given the whole input beforehand.
structure SameStep (panel : Panel) (rest : List Word) (left : Option (Except Fault Outcome) × Core × Panel)
    (right : Option (Except Fault Outcome) × Core × Script) : Prop where
  result : left.1 = right.1
  agrees : left.2.1.Agrees right.2.1
  input : right.2.2.input = left.2.2.keyboard.queue.toList ++ rest
  closed : left.2.2.keyboard.closed = panel.keyboard.closed
  source : left.2.2.source = panel.source
  sink : left.2.2.sink = panel.sink
  signals : left.1 = some (.ok .halted) ∨ left.2.2.signals = panel.signals
  granted : left.1 ≠ some (.ok .interrupted)

variable {panel : Panel} {script : Script} {rest : List Word}

theorem print_both (token : Token) (left right : Core) (next : Word) (bytes : List UInt8)
    (input : script.input = panel.keyboard.queue.toList ++ rest) (unlimited : script.budget = none) :
    ∃ later, left.print (Panel.console token) next bytes panel = (.retired, left.setPc next, panel) ∧
      right.print Script.console next bytes script = (.retired, right.setPc next, later) ∧
      later.input = panel.keyboard.queue.toList ++ rest := by
  obtain ⟨later, written, rfl⟩ := write_all_accepts (Panel.console token) (· = panel)
    (fun byte same kept => ⟨same, rfl, kept⟩) bytes panel rfl
  obtain ⟨after, accepted, kept, -⟩ := write_all_accepts Script.console
    (fun state => state.input = later.keyboard.queue.toList ++ rest ∧ state.budget = none)
    (fun byte state kept => by
      refine ⟨_, if_neg ?_, kept.1, ?_⟩
      · rw [kept.2]
        exact fun same => by cases same
      · rw [kept.2]
        rfl)
    bytes script ⟨input, unlimited⟩
  exact ⟨after, by simp only [print, written], by simp only [print, accepted], kept⟩

theorem getc_agrees (left right : Core) (agrees : left.Agrees right) (next code : Word) :
    (((left.setRegister 0 code).unlatch).setPc next).Agrees (((right.setRegister 0 code).unlatch).setPc next) := by
  have given : (left.setRegister 0 code).Agrees (right.setRegister 0 code) :=
    ⟨by simp only [setRegister, agrees.registers], agrees.leftSettled, agrees.rightSettled, agrees.memory⟩
  exact agrees_set_pc _ _ (agrees_unlatch _ _ given) next

theorem serve_agrees (token : Token) (left right : Core) (agrees : left.Agrees right) (service : Service)
    (deaf : left.Deaf (.trap service)) (input : script.input = panel.keyboard.queue.toList ++ rest)
    (unlimited : script.budget = none) (ready : service = .getc → panel.keyboard.queue ≠ #[]) (next : Word) :
    SameStep panel rest (answered (left.serve (Panel.console token) service next panel))
      (answered (right.serve Script.console service next script)) := by
  have idle : SameStep panel rest (none, left, panel) (none, right, script) :=
    ⟨rfl, agrees, input, rfl, rfl, rfl, .inr rfl, nofun⟩
  have printed (bytes : List UInt8) :
      SameStep panel rest (answered ((left.print (Panel.console token) next bytes panel).map some id))
        (answered ((right.print Script.console next bytes script).map some id)) := by
    obtain ⟨later, here, there, kept⟩ := print_both token left right next bytes input unlimited
    rw [here, there]
    exact ⟨rfl, agrees_set_pc left right agrees next, kept, rfl, rfl, rfl, .inr rfl, nofun⟩
  have output := agrees_output left right agrees service deaf
  cases service with
  | getc =>
      have parts := first_and_rest panel.keyboard.queue
      cases front : panel.keyboard.queue[0]? with
      | none => exact absurd (by simpa using front) (ready rfl)
      | some code =>
          rw [front, Option.toList_some, List.singleton_append] at parts
          have here : (Panel.console token).readChar panel =
              (some code, { panel with keyboard := panel.keyboard.pop.2 }) := congrArg (·, _) front
          have there : Script.console.readChar script = (some code, { script with input := script.input.tail }) :=
            congrArg (·, _) (by rw [input, ← parts]; rfl)
          simp only [serve, getc_some _ left next code _ _ here, getc_some _ right next code _ _ there]
          refine ⟨rfl, getc_agrees left right agrees next code, ?_, rfl, rfl, rfl, .inr rfl, fun same => by cases same⟩
          simp only [answered, input, ← parts, List.cons_append, List.tail_cons]
          rfl
  | halt => exact ⟨rfl, agrees_set_pc left right agrees next, input, rfl, rfl, rfl, .inl rfl, fun same => by cases same⟩
  | out =>
      simp only [serve, ← output]
      cases left.output? .out with
      | none => exact idle
      | some bytes => exact printed bytes
  | puts =>
      simp only [serve, ← output]
      cases left.output? .puts with
      | none => exact idle
      | some bytes => exact printed bytes

theorem step_agrees (token : Token) (left right : Core) (panel : Panel) (script : Script) (rest : List Word)
    (agrees : left.Agrees right) (apart : ¬left.ReadsDevice)
    (input : script.input = panel.keyboard.queue.toList ++ rest) (unlimited : script.budget = none)
    (ready : Instruction.decode left.word = .ok (.trap .getc) → panel.keyboard.queue ≠ #[]) :
    SameStep panel rest (left.step (Panel.console token) panel) (right.step Script.console script) := by
  have word := agrees_word left right agrees (not_reads_device_fetch left apart)
  obtain ⟨fault, decoded⟩ | ⟨service, decoded⟩ | ⟨instruction, decoded, plain⟩ := decode_cases left.word
  · rw [step_fault _ left panel fault decoded, step_fault _ right script fault (word ▸ decoded)]
    exact ⟨rfl, agrees, input, rfl, rfl, rfl, .inr rfl, nofun⟩
  · have deaf := not_reads_device_deaf left _ apart decoded
    have next : left.registers.pc + 1 = right.registers.pc + 1 := by rw [agrees.registers]
    have same := serve_agrees token left right agrees service deaf input unlimited
      (fun getc => ready (getc ▸ decoded)) (left.registers.pc + 1)
    rw [step_trap_idle _ left panel service decoded same.agrees.leftSettled]
    rw [next] at same ⊢
    rw [step_trap_idle _ right script service (word ▸ decoded) same.agrees.rightSettled]
    exact same
  · have deaf := not_reads_device_deaf left instruction apart decoded
    have computed := computed_agrees left right agrees instruction deaf
    rw [step_plain _ left panel instruction decoded plain,
      step_plain _ right script instruction (word ▸ decoded) plain, settle_key_idle _ _ panel computed.leftSettled,
      settle_key_idle _ _ script computed.rightSettled]
    exact ⟨rfl, computed, input, rfl, rfl, rfl, .inr rfl, nofun⟩

end Core

end LittleComputer
