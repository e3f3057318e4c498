import LittleComputer.Proofs.Solo
import LittleComputer.Proofs.StepCall

set_option autoImplicit false

namespace LittleComputer

def Line.room (line : Line) : Nat := max line.capacity line.awaited.toNat - line.waiting.size

theorem line_offer_room (line : Line) (char : Char) (count : Nat) (listening : line.receiverOpen = true)
    (room : count + 1 ≤ line.room) :
    line.offer char = (.accepted, line.put char) ∧ count ≤ (line.put char).room := by
  unfold Line.room at room
  have bound : line.awaited.toNat ≤ 1 := Bool.toNat_le line.awaited
  have free : line.hasRoom = true := decide_eq_true (by omega)
  refine ⟨by simp [Line.offer, listening, free], ?_⟩
  simp only [Line.room, Line.put, Array.size_push, Bool.toNat_false]
  omega

structure Ports where
  queue : Array Word
  sink : Option Line

namespace Ports

def write (byte : UInt8) (ports : Ports) : Bool × Ports :=
  match ports.sink with
  | none => (true, ports)
  | some line =>
      match line.offer (Char.ofNat byte.toNat) with
      | (.accepted, line) => (true, { ports with sink := some line })
      | (.disconnected, _) => (true, ports)
      | _ => (false, ports)

def direct : Console Ports where
  readChar ports := (ports.queue[0]?, { ports with queue := ports.queue.extract 1 })
  writeChar := write
  acknowledgeKey ports := { ports with queue := ports.queue.extract 1 }
  halt ports := ports

def silent : Console Ports := { direct with writeChar := fun _ ports => (true, ports) }

def hasRoom (ports : Ports) (count : Nat) : Prop :=
  ∀ line, ports.sink = some line → line.receiverOpen = true → count ≤ line.room

end Ports

def Machine.ports (machine : Machine) : Ports := ⟨machine.panel.keyboard.queue, machine.panel.sink⟩

namespace Core

def bytes (core : Core) : List UInt8 :=
  match Instruction.decode core.word with
  | .ok (.trap service) => (core.output? service).getD []
  | _ => []

theorem prints_bytes (core : Core) : core.prints = core.bytes.map fun byte => Char.ofNat byte.toNat := by
  unfold prints bytes
  cases Instruction.decode core.word with
  | error fault => rfl
  | ok instruction => cases instruction <;> rfl

theorem bytes_trap (core : Core) (service : Service)
    (decoded : Instruction.decode core.word = .ok (.trap service)) : core.bytes = (core.output? service).getD [] := by
  simp only [bytes, decoded]

theorem bytes_fault (core : Core) (fault : Fault) (decoded : Instruction.decode core.word = .error fault) :
    core.bytes = [] := by
  simp only [bytes, decoded]

theorem bytes_plain (core : Core) (instruction : Instruction)
    (decoded : Instruction.decode core.word = .ok instruction) (plain : instruction.Plain) : core.bytes = [] := by
  unfold bytes
  rw [decoded]
  cases instruction <;> first | rfl | exact absurd rfl (plain _)

theorem step_ends {σ : Type} (console : Console σ) (core : Core) (state : σ) (string : List Word)
    (found : core.memory.string? core.r0 = some string) : (core.step console state).1 ≠ none := by
  obtain ⟨fault, decoded⟩ | ⟨service, decoded⟩ | ⟨instruction, decoded, plain⟩ := decode_cases core.word
  · rw [step_fault _ core state fault decoded]
    exact Option.some_ne_none _
  · rw [step_trap _ core state service decoded]
    cases service with
    | puts =>
        simp only [serve, output?, found, Option.map_some]
        exact Option.some_ne_none _
    | _ => exact Option.some_ne_none _
  · rw [step_plain _ core state instruction decoded plain]
    exact Option.some_ne_none _

theorem silent_writes (bytes : List UInt8) (ports : Ports) : Ports.silent.writeAll bytes ports = (true, ports) := by
  induction bytes with
  | nil => rfl
  | cons byte rest ih => exact ih

theorem step_direct (core : Core) (ports after : Ports)
    (writes : Ports.direct.writeAll core.bytes ports = (true, after)) :
    core.step Ports.direct ports = core.step Ports.silent after := by
  have nothing (silent : core.bytes = []) : after = ports := by
    rw [silent] at writes
    exact (congrArg Prod.snd writes).symm
  obtain ⟨fault, decoded⟩ | ⟨service, decoded⟩ | ⟨instruction, decoded, plain⟩ := decode_cases core.word
  · obtain rfl := nothing (bytes_fault core fault decoded)
    rw [step_fault _ core after fault decoded, step_fault _ core after fault decoded]
  · have bytes := bytes_trap core service decoded
    have printed (text : List UInt8) (output : core.output? service = some text) (next : Word) :
        core.print Ports.direct next text ports = core.print Ports.silent next text after := by
      rw [output, Option.getD_some] at bytes
      rw [bytes] at writes
      simp only [print, writes, silent_writes]
    rw [step_trap _ core ports service decoded, step_trap _ core after service decoded]
    cases service with
    | getc =>
        obtain rfl := nothing bytes
        rfl
    | halt =>
        obtain rfl := nothing bytes
        rfl
    | out =>
        simp only [serve, output?]
        rw [printed [core.r0.lowByte] rfl]
        rfl
    | puts =>
        simp only [serve]
        cases output : core.output? .puts with
        | none =>
            rw [output] at bytes
            obtain rfl := nothing bytes
            rfl
        | some text =>
            dsimp only
            rw [printed text output]
            rfl
  · obtain rfl := nothing (bytes_plain core instruction decoded plain)
    rw [step_plain _ core after instruction decoded plain, step_plain _ core after instruction decoded plain]
    rfl

end Core

theorem Panel.console_silent (token : Token) :
    (Panel.console token).Views Ports.silent fun panel => ⟨panel.keyboard.queue, panel.sink⟩ :=
  ⟨fun _ => rfl, fun _ _ => rfl, fun _ => rfl, fun _ => rfl⟩

theorem Ports.write_all_dropped (bytes : List UInt8) (ports : Ports)
    (nobody : ∀ line, ports.sink = some line → line.receiverOpen = false) :
    Ports.direct.writeAll bytes ports = (true, ports) := by
  induction bytes with
  | nil => rfl
  | cons byte rest ih =>
      have dropped : ports.write byte = (true, ports) := by
        unfold write
        cases sink : ports.sink with
        | none => rfl
        | some line => simp [Line.offer, nobody line sink]
      simp only [Console.writeAll, direct] at ih ⊢
      rw [dropped]
      exact ih

theorem Ports.write_all_room (bytes : List UInt8) (ports : Ports) (room : ports.hasRoom bytes.length) :
    ∃ sink, Ports.direct.writeAll bytes ports = (true, { ports with sink }) := by
  by_cases listens : ∃ line, ports.sink = some line ∧ line.receiverOpen = true
  · obtain ⟨line, sink, listening⟩ := listens
    induction bytes generalizing ports line with
    | nil => exact ⟨ports.sink, rfl⟩
    | cons byte rest ih =>
        obtain ⟨accepted, left⟩ :=
          line_offer_room line (Char.ofNat byte.toNat) rest.length listening (room line sink listening)
        have written : ports.write byte = (true, { ports with sink := some (line.put (Char.ofNat byte.toNat)) }) := by
          simp only [write, sink, accepted]
        have laterRoom : Ports.hasRoom { ports with sink := some (line.put (Char.ofNat byte.toNat)) } rest.length := by
          rintro other same -
          cases same
          exact left
        simp only [Console.writeAll, direct] at ih ⊢
        rw [written]
        exact ih _ laterRoom _ rfl listening
  · have nobody (line : Line) (sink : ports.sink = some line) : line.receiverOpen = false :=
      Bool.eq_false_iff.mpr fun listening => listens ⟨line, sink, listening⟩
    exact ⟨ports.sink, write_all_dropped bytes ports nobody⟩

namespace Attempt

variable (token : Token)

theorem handing_over_open (char : Char) (rest : List Char) (panel : Panel) (line : Line)
    (sink : panel.sink = some line) (unfired : panel.isFired token = false) :
    handingOver token panel (char :: rest) = .offer char rest := by
  simp only [handingOver, sink, unfired]
  rfl

section
variable (machine last : Machine) (count : Nat) (result : Except Fault Outcome)
  (unfired : machine.panel.isFired token = false)
include unfired

theorem char_accepted (char : Char) (rest : List Char) (line after : Line) (sink : machine.panel.sink = some line)
    (accepted : line.offer char = (.accepted, after))
    (settles : Settles token count (.handOver rest) { machine with panel := { machine.panel with sink := some after } }
      result last) :
    Settles token (count + 2) (.handOver (char :: rest)) machine result last := by
  have opened := congrArg (fun next => (machine, some next))
    (handing_over_open token char rest machine.panel line sink unfired)
  refine .turn _ _ _ machine machine last result opened (.turn count _ _ machine _ last result ?_ settles)
  rw [turn_offer]
  simp only [offering, sink, accepted]

theorem text_dropped (text : List Char)
    (nobody : ∀ line, machine.panel.sink = some line → line.receiverOpen = false)
    (settles : Settles token count .execute machine result last) :
    ∃ count, Settles token count (.handOver text) machine result last := by
  cases text with
  | nil => exact ⟨count + 1, .turn count _ .execute machine machine last result rfl settles⟩
  | cons char rest =>
      cases sink : machine.panel.sink with
      | none =>
          have skips : handingOver token machine.panel (char :: rest) = .execute := by
            simp only [handingOver, sink]
            rfl
          exact ⟨count + 1, .turn count _ .execute machine machine last result
            (congrArg (fun next => (machine, some next)) skips) settles⟩
      | some line =>
          have opened := congrArg (fun next => (machine, some next))
            (handing_over_open token char rest machine.panel line sink unfired)
          have dropped : (Attempt.offer char rest).turn token machine = (machine, some .execute) := by
            rw [turn_offer]
            simp [offering, sink, Line.offer, nobody line sink]
          have executes := Settles.turn count _ _ machine machine last result dropped settles
          exact ⟨count + 2, .turn _ _ _ machine machine last result opened executes⟩

end

theorem hands_over (bytes : List UInt8) (machine last : Machine) (count : Nat) (result : Except Fault Outcome)
    (after : Ports) (unfired : machine.panel.isFired token = false) (room : machine.ports.hasRoom bytes.length)
    (writes : Ports.direct.writeAll bytes machine.ports = (true, after))
    (settles : Settles token count .execute { machine with panel := { machine.panel with sink := after.sink } } result
      last) :
    ∃ count, Settles token count (.handOver (bytes.map fun byte => Char.ofNat byte.toNat)) machine result last := by
  induction bytes generalizing machine with
  | nil =>
      cases writes
      exact ⟨count + 1, .turn count _ .execute machine machine last result rfl settles⟩
  | cons byte rest ih =>
      -- nobody comes or goes meanwhile, so the text is handed over whole or dropped whole
      by_cases listens : ∃ line, machine.panel.sink = some line ∧ line.receiverOpen = true
      · obtain ⟨line, sink, listening⟩ := listens
        obtain ⟨accepted, left⟩ :=
          line_offer_room line (Char.ofNat byte.toNat) rest.length listening (room line sink listening)
        let later : Machine :=
          { machine with panel := { machine.panel with sink := some (line.put (Char.ofNat byte.toNat)) } }
        have written : Ports.write byte machine.ports = (true, later.ports) := by
          simp only [Ports.write, Machine.ports, sink, accepted, later]
        have remaining : Ports.direct.writeAll rest later.ports = (true, after) := by
          simp only [Console.writeAll, Ports.direct] at writes ⊢
          rw [written] at writes
          exact writes
        have laterRoom : later.ports.hasRoom rest.length := by
          rintro other same -
          cases same
          exact left
        obtain ⟨more, hands⟩ := ih later unfired laterRoom remaining settles
        exact ⟨more + 2, char_accepted token machine last more result unfired _ _ line _ sink accepted hands⟩
      · have nobody (line : Line) (sink : machine.panel.sink = some line) : line.receiverOpen = false :=
          Bool.eq_false_iff.mpr fun listening => listens ⟨line, sink, listening⟩
        have same := Ports.write_all_dropped (byte :: rest) machine.ports nobody
        rw [writes] at same
        cases same
        exact text_dropped token machine last count result unfired _ nobody settles

theorem execute_settles (machine : Machine) (result : Except Fault Outcome) (core : Core) (ports : Ports)
    (stepped : machine.core.step Ports.silent machine.ports = (some result, core, ports)) :
    ∃ last, Settles token 1 .execute machine result last ∧ last.core = core ∧ last.ports = ports := by
  have seen := Core.step_views (Panel.console_silent token) machine.core machine.panel
  rw [Machine.ports] at stepped
  rw [stepped] at seen
  rcases answer : machine.core.step (Panel.console token) machine.panel with ⟨_ | other, after, panel⟩ <;>
    rw [answer] at seen <;> cases seen
  refine ⟨_, .turn 0 .execute _ machine { machine with core := after, panel } _ result ?_ (.done result _), rfl, rfl⟩
  simp only [turn_execute, executing, answer]

theorem prospect_bytes (machine : Machine) (string : List Word)
    (found : machine.core.memory.string? machine.core.r0 = some string)
    (fed : Instruction.decode machine.core.word = .ok (.trap .getc) → machine.panel.keyboard.queue ≠ #[]) :
    (prospect machine = .execute ∧ machine.core.bytes = []) ∨
      prospect machine = .handOver (machine.core.bytes.map fun byte => Char.ofNat byte.toNat) := by
  obtain ⟨fault, decoded⟩ | ⟨service, decoded⟩ | ⟨instruction, decoded, plain⟩ := decode_cases machine.core.word
  · exact .inl ⟨prospect_fault machine fault decoded, Core.bytes_fault _ fault decoded⟩
  · rw [prospect_trap machine service decoded, Core.bytes_trap _ service decoded]
    cases service with
    | getc =>
        have queued : machine.panel.keyboard.queue.isEmpty = false := by simpa using fed decoded
        simp only [queued]
        exact .inl ⟨rfl, rfl⟩
    | halt => exact .inl ⟨rfl, rfl⟩
    | out => exact .inr rfl
    | puts =>
        simp only [Core.output?, found, Option.map_some]
        exact .inr rfl
  · exact .inl ⟨prospect_plain machine instruction decoded plain, Core.bytes_plain _ instruction decoded plain⟩

theorem latch_starves (machine : Machine) (unfired : machine.panel.isFired token = false)
    (closed : machine.panel.keyboard.closed = true) (empty : machine.panel.keyboard.queue = #[])
    (getc : Instruction.decode machine.core.word = .ok (.trap .getc)) :
    Settles token 3 .latch machine (.ok .inputClosed) machine := by
  have same : machine.latchKeyboard = machine := by simp [Machine.latchKeyboard, Keyboard.front?, empty]
  have awaits : prospect machine = .await := by
    rw [prospect_trap machine .getc getc, empty]
    rfl
  have ends : awaiting token machine.panel = some (.done (.ok .inputClosed)) := by
    simp [awaiting, Keyboard.wait?, unfired, empty, closed]
  exact .turn 2 .latch .look machine machine machine _ (congrArg (fun later => (later, some look)) same)
    (.turn 1 .look .await machine machine machine _ (congrArg (fun next => (machine, some next)) awaits)
      (.turn 0 .await _ machine machine machine _ (congrArg (Prod.mk machine) ends) (.done _ machine)))

theorem latch_settles (machine : Machine) (unfired : machine.panel.isFired token = false) (shown : Core)
    (latched : shown = machine.core.shown machine.panel.keyboard.queue) (string : List Word)
    (found : shown.memory.string? shown.r0 = some string)
    (fed : Instruction.decode shown.word = .ok (.trap .getc) → machine.panel.keyboard.queue ≠ #[])
    (room : machine.ports.hasRoom shown.prints.length) :
    ∃ result count last, Settles token count .latch machine result last ∧
      shown.step Ports.direct machine.ports = (some result, last.core, last.ports) := by
  let looking : Machine := { machine with core := shown }
  rw [Core.prints_bytes, List.length_map] at room
  obtain ⟨sink, writes⟩ := Ports.write_all_room shown.bytes machine.ports room
  let handed : Machine := { looking with panel := { looking.panel with sink } }
  have direct := Core.step_direct shown machine.ports handed.ports writes
  rcases stepped : shown.step Ports.silent handed.ports with ⟨_ | result, core, ports⟩
  · exact absurd (congrArg Prod.fst stepped) (Core.step_ends _ shown handed.ports string found)
  · obtain ⟨last, executes, rfl, rfl⟩ := execute_settles token handed result core ports stepped
    have begins (count : Nat) (settles : Settles token count (prospect looking) looking result last) :
        Settles token (count + 2) .latch machine result last := by
      have looked := Settles.turn count .look _ looking looking last result rfl settles
      refine .turn _ .latch .look machine looking last result ?_ looked
      simp only [turn, Machine.latch_keyboard_shown, ← latched, looking]
    obtain ⟨goes, nothing⟩ | hands := prospect_bytes looking string found fed
    · rw [show looking.core.bytes = shown.bytes from rfl] at nothing
      rw [nothing] at writes
      cases writes
      exact ⟨result, _, last, begins 1 (goes ▸ executes), direct.trans stepped⟩
    · obtain ⟨count, settles⟩ :=
        hands_over token shown.bytes looking last 1 result handed.ports unfired room writes executes
      exact ⟨result, _, last, begins count (hands ▸ settles), direct.trans stepped⟩

end Attempt

theorem drained_sees (panel : Panel) : panel.drained.sink = panel.sink ∧ panel.SameRun panel.drained := by
  unfold Panel.drained
  cases panel.source <;> exact ⟨rfl, rfl, rfl, rfl⟩

namespace Machine

/-- Once nothing more can come on the input line, a step call queues what is left on it and does what the core does in
one go. Only a GETC that finds the queue empty is told so in other words, and leaves everything as it is. -/
theorem step_is_plain (machine : Machine) (finished : machine.panel.Finished) (uncancelled : machine.panel.Uncancelled)
    (zero : Word) (apart : Address.isDevice zero = false) (ends : machine.core.memory.read zero = 0)
    (queue : Array Word) (queued : queue = machine.panel.drained.keyboard.queue) (shown : Core)
    (latched : shown = machine.core.shown queue)
    (room : Ports.hasRoom ⟨queue, machine.panel.sink⟩ shown.prints.length) :
    (Instruction.decode shown.word = .ok (.trap .getc) ∧ queue = #[] →
        (shown.step Ports.direct ⟨queue, machine.panel.sink⟩).1 = some (.ok .interrupted) ∧
          ∃ last, machine.step = (last, .returned (.ok .inputClosed)) ∧ last.core = machine.core ∧
            last.ports = ⟨queue, machine.panel.sink⟩) ∧
      (¬(Instruction.decode shown.word = .ok (.trap .getc) ∧ queue = #[]) →
        ∃ result last, machine.step = (last, .returned result) ∧
          shown.step Ports.direct ⟨queue, machine.panel.sink⟩ = (some result, last.core, last.ports)) := by
  obtain ⟨sameSink, sameRun⟩ := drained_sees machine.panel
  obtain ⟨core, -, keyboard, sink, -⟩ := begun_sees machine.drained
  have unfired := begun_unfired machine.drained (uncancelled_same _ _ uncancelled sameRun)
  have ports : machine.drained.begun.2.ports = ⟨queue, machine.panel.sink⟩ := by
    rw [ports, keyboard, sink, queued]
    exact congrArg (Ports.mk _) sameSink
  have closed : machine.drained.begun.2.panel.keyboard.closed = true := by rw [keyboard]; rfl
  have waiting : machine.drained.begun.2.panel.keyboard.queue = queue := congrArg Ports.queue ports
  -- the queue that the latch finds is all that was on the line
  have same : shown = machine.drained.begun.2.core.shown machine.drained.begun.2.panel.keyboard.queue := by
    rw [latched, waiting, core]
    rfl
  have left (last : Machine) : last.left.core = last.core ∧ last.left.ports = last.ports := by
    obtain ⟨core, keyboard, sink, -⟩ := left_alike last
    exact ⟨core.symm, by rw [Machine.ports, Machine.ports, ← keyboard, ← sink]⟩
  refine ⟨?_, fun other => ?_⟩
  · rintro ⟨getc, rfl⟩
    have unchanged : shown = machine.core := latched
    have interrupted : (shown.step Ports.direct ⟨#[], machine.panel.sink⟩).1 = some (.ok .interrupted) := by
      rw [Core.step_trap _ shown _ .getc getc]
      rfl
    have starves := Attempt.latch_starves machine.drained.begun.1 machine.drained.begun.2 unfired closed waiting
      (by rw [core]; exact unchanged ▸ getc)
    have step := StepCall.step_returns machine _ finished 3 _ starves
    refine ⟨interrupted, _, step, (left _).1.trans core, (left _).2.trans ports⟩
  · obtain ⟨string, found⟩ := shown.memory.string_found shown.r0 zero (by
      rw [latched, Core.shown_read machine.core queue zero apart]
      exact ends)
    obtain ⟨result, count, last, settles, plain⟩ :=
      Attempt.latch_settles machine.drained.begun.1 machine.drained.begun.2 unfired shown same string found
        (fun getc empty => other ⟨getc, waiting.symm.trans empty⟩) (ports ▸ room)
    have step := StepCall.step_returns machine last finished count result settles
    rw [ports] at plain
    exact ⟨result, last.left, step, by rw [plain, (left last).1, (left last).2]⟩

def echoing : Machine :=
  { core := { registers := Registers.set {} (Register.ofField 0 0) 0x41, memory := Memory.zero.write 0 0xF021 }
    panel :=
      { source := some { capacity := 1, waiting := #['a'], senderOpen := false }
        sink := some { capacity := 1 } } }

theorem step_is_plain_out : ∃ last, echoing.step = (last, .returned (.ok .retired)) ∧
    last.ports = ⟨#[0x61], some { capacity := 1, waiting := #['A'] }⟩ := by
  have shown : echoing.core.shown #[0x61] = echoing.core.latch 0x61 := by
    have unlatched : echoing.core.keyLatched = false := by
      simp [echoing, Core.keyLatched, Memory.read_write, Memory.read_zero, Address.keyboardStatus]
    simp [Core.shown, unlatched]
  have word : (echoing.core.latch 0x61).word = 0xF021 := by
    simp [echoing, Core.latch, Core.store, Core.word, Memory.read_write, Registers.set, Address.keyboardStatus,
      Address.keyboardData]
  have out : Instruction.decode (echoing.core.latch 0x61).word = .ok (.trap .out) := by
    rw [word]
    rfl
  have r0 : (echoing.core.latch 0x61).r0 = 0x41 := rfl
  have prints : (echoing.core.latch 0x61).prints = ['A'] := by
    rw [Core.prints_trap _ .out out, Core.output?, r0]
    rfl
  have finished : echoing.panel.Finished := ⟨by rintro line ⟨⟩; rfl, by rintro line ⟨⟩; rfl⟩
  have uncancelled : echoing.panel.Uncancelled := ⟨by rintro token ⟨⟩, by rintro token ⟨⟩⟩
  obtain ⟨result, last, step, direct⟩ :=
    (step_is_plain echoing finished uncancelled 1 rfl (by simp [echoing, Memory.read_write, Memory.read_zero]) #[0x61]
      rfl _ shown.symm (by rw [prints]; rintro line ⟨⟩ -; decide)).2 (by rw [out]; rintro ⟨⟨⟩, -⟩)
  have written : Ports.direct.writeAll [Word.lowByte 0x41] ⟨#[0x61], echoing.panel.sink⟩ =
      (true, ⟨#[0x61], some { capacity := 1, waiting := #['A'] }⟩) := rfl
  rw [Core.step_trap _ _ _ .out out] at direct
  simp only [Core.serve, Core.output?, r0, Core.print, written] at direct
  obtain rfl := Option.some.inj (congrArg Prod.fst direct)
  exact ⟨last, step, (congrArg (·.2.2) direct).symm⟩

end Machine

end LittleComputer
