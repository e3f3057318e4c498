import LittleComputer.Program
import LittleComputer.Proofs.FairRun
import LittleComputer.Proofs.Utf8
import LittleComputer.Terminal.Writer

set_option autoImplicit false

namespace LittleComputer

def Machine.discard (machine : Machine) : Machine :=
  { machine with panel := { machine.panel.dropSource with sink := machine.panel.sink.map Line.closeSender } }

inductive Printer where
  | listening
  | writing (char : Char)
  | finished
  | failed
deriving DecidableEq, Repr

namespace Process

inductive Stage where
  | playing
  | cancelled (report : RunReport)
  | joining (report : RunReport)
  | exited (exit : Program.Exit)
deriving DecidableEq, Repr

end Process

structure Process where
  world : World
  token : Token
  stdout : Writer
  printer : Printer := .listening
  stage : Process.Stage := .playing

inductive Thread where
  | main
  | drain
  | reader
  | printer
deriving DecidableEq, Repr

namespace Process

def main (process : Process) : Process :=
  match process.stage with
  | .playing =>
      match process.world.call with
      | .run (.returned report) =>
          { process with
            world := { process.world with machine := process.world.machine.fire process.token }
            stage := .cancelled report }
      | _ => { process with world := process.world.main }
  | .cancelled report =>
      { process with
        world := { process.world with machine := process.world.machine.discard }
        stage := .joining report }
  | .joining report =>
      match process.printer with
      | .finished => { process with stage := .exited (Program.exitOf report.ending process.stdout.written) }
      | .failed =>
          { process with
            stage := .exited ⟨1, process.stdout.written, "lc3: " ++ Writer.error Writer.full ++ "\n"⟩ }
      | _ => process
  | .exited _ => process

def read (process : Process) : Process :=
  match process.world.machine.panel.source with
  | some line => if line.senderFree then { process with world := process.world.send } else process
  | none => process

def print (process : Process) : Process :=
  match process.printer, process.world.machine.panel.sink with
  | .listening, some line =>
      match line.take.1 with
      | .char char => { process with world := process.world.receive, printer := .writing char }
      | .empty => { process with world := process.world.perform .listen }
      | .disconnected => { process with printer := .finished }
  | .writing char, _ =>
      match process.stdout.writeChar false char with
      | (true, stdout) => { process with stdout, printer := .listening }
      | (false, stdout) =>
          { process with
            world := { process.world with machine := process.world.machine.closeReceiver }
            stdout
            printer := .failed }
  | _, _ => process

def act (process : Process) : Thread → Process
  | .main => process.main
  | .drain => { process with world := process.world.drain }
  | .reader => process.read
  | .printer => process.print

def schedule (process : Process) (threads : List Thread) : Process := threads.foldl act process

def exit? (process : Process) : Option Program.Exit :=
  match process.stage with
  | .exited exit => some exit
  | _ => none

def begin (machine : Machine) (text : List Char) (stdout : Writer) : Process :=
  match ((machine.setSource { capacity := 0 }).setSink { capacity := 0 }).issue with
  | (token, machine) =>
      { world := World.start { machine, unsent := text, hangsUp := true, tokens := [token] } token, token, stdout }

def launch (explain : List Char → String) (options : Options) (configFile imageFile : Stream) (input : List UInt8)
    (stdout : Writer) : Except Program.Exit Process :=
  match Program.load explain options configFile imageFile with
  | .error error => .error (Program.failure error)
  | .ok machine => .ok (begin machine (PipedInput.chars input) stdout)

end Process

def Printer.inHand : Printer → List Char
  | .writing char => [char]
  | _ => []

theorem write_char_working (writer : Writer) (char : Char) (working : writer.room = none) :
    ∃ later : Writer, writer.writeChar false char = (true, later) ∧ later.room = none ∧
      later.written.toList = writer.written.toList ++ Utf8.encode [char] := by
  refine ⟨{ writer with
    written := writer.written ++ Utf8.encode [char]
    flushes := writer.flushes + 1 }, ?_, working, ?_⟩
  · simp [Writer.writeChar, Writer.writeAll, Writer.bytes, working, Utf8.encode]
  · simp

namespace Process

structure Told (process : Process) : Prop where
  working : process.stdout.room = none
  going : process.printer ≠ .failed
  printed : ∃ printed, process.stdout.written.toList = Utf8.encode printed ∧
    process.world.history.accepted = printed ++ process.printer.inHand ++ process.world.machine.panel.pending

section
variable (process : Process)

theorem told_world (world : World) (stage : Stage) (sent : List Char) (told : process.Told)
    (accepted : world.history.accepted = process.world.history.accepted ++ sent)
    (pending : world.machine.panel.pending = process.world.machine.panel.pending ++ sent) :
    Told { process with world, stage } := by
  obtain ⟨working, going, printed, written, whole⟩ := told
  refine ⟨working, going, printed, written, ?_⟩
  show world.history.accepted = _
  rw [accepted, whole, pending, List.append_assoc _ _ sent]

theorem told_same (world : World) (stage : Stage) (told : process.Told)
    (accepted : world.history.accepted = process.world.history.accepted)
    (pending : world.machine.panel.pending = process.world.machine.panel.pending) :
    Told { process with world, stage } :=
  told_world process world stage [] told (by rw [accepted, List.append_nil]) (by rw [pending, List.append_nil])

theorem told_main (told : process.Told) : Told { process with world := process.world.main } := by
  obtain ⟨same, accepted⟩ | ⟨char, line, before, -, after, accepted⟩ := World.main_sink process.world
  · exact told_same process process.world.main process.stage told accepted (by rw [Panel.pending, same]; rfl)
  · refine told_world process process.world.main process.stage [char] told accepted ?_
    simp only [Panel.pending, before, after, Option.elim_some, Line.put, Array.toList_push]

theorem told_drain (told : process.Told) : Told { process with world := process.world.drain } := by
  refine told_same process process.world.drain process.stage told ?_ (World.drain_pending process.world)
  rw [World.drain_turned process.world]

theorem told_send (told : process.Told) : Told { process with world := process.world.send } :=
  told_same process process.world.send process.stage told (World.send_outside process.world).accepted
    (World.send_pending process.world)

theorem told_receive (line : Line) (char : Char) (listening : process.printer = .listening)
    (sink : process.world.machine.panel.sink = some line) (taken : line.take.1 = .char char) (told : process.Told) :
    Told { process with world := process.world.receive, printer := .writing char } := by
  obtain ⟨working, going, printed, written, whole⟩ := told
  refine ⟨working, nofun, printed, written, ?_⟩
  have waiting := Panel.line_take_waiting line
  rw [taken] at waiting
  have accepted := (World.receive_outside process.world).accepted
  have received : process.world.receive.machine.panel.pending = line.take.2.waiting.toList := by
    simp only [World.receive, sink, Panel.pending, Option.elim_some]
  have pending : process.world.machine.panel.pending = line.waiting.toList := by
    simp only [Panel.pending, sink, Option.elim_some]
  rw [listening, pending, ← waiting] at whole
  show process.world.receive.history.accepted = _
  rw [accepted, whole, received]
  simp [Printer.inHand, Line.Taken.char?]

theorem told_write (char : Char) (writing : process.printer = .writing char) (told : process.Told) :
    ∃ later : Writer, process.stdout.writeChar false char = (true, later) ∧
      Told { process with stdout := later, printer := .listening } := by
  obtain ⟨working, going, printed, written, whole⟩ := told
  obtain ⟨later, writes, still, more⟩ := write_char_working process.stdout char working
  refine ⟨later, writes, still, nofun, printed ++ [char], ?_, ?_⟩
  · rw [more, written, encode_append]
  · rw [writing] at whole
    show process.world.history.accepted = _
    rw [whole]
    simp [Printer.inHand]

end

end Process

namespace World

variable {setting : Setting} {ending : Ending} {last : Solo} {token : Token}

theorem due_returned (world : World) (rank : Nat) (report : RunReport) (called : world.call = .run (.returned report))
    (due : world.Due setting ending last token rank) :
    report.ending = ending ∧ world.history.accepted = last.output := by
  obtain ⟨count, ⟨solo, finishes, follows, -⟩, -⟩ := due.nears
  obtain ⟨final, path, ends⟩ := finishes.ends
  obtain ⟨number, other, reached, otherPath, -, otherEnds, -, -, output⟩ :=
    (returned_ended world report follows called).reached
  obtain ⟨rfl, rfl⟩ := Solo.ends_unique number count other final reached last report.ending ending otherPath path
    otherEnds ends
  exact ⟨rfl, output⟩

theorem fire_due (world : World) (rank : Nat) (report : RunReport) (called : world.call = .run (.returned report))
    (due : world.Due setting ending last token rank) :
    Due setting ending last token rank { world with machine := world.machine.fire token } := by
  obtain ⟨⟨count, ⟨solo, finishes, follows, -⟩, rfl⟩, steady, -⟩ := due
  have ended := (returned_ended world report follows called).reached
  refine ⟨⟨count, ⟨solo, finishes, .returned report called ⟨ended⟩, ?_⟩, ?_⟩, ⟨steady.hangsUp, steady.sink, ?_, ?_, ?_⟩,
    ?_⟩
  · intro execution drain active
    cases called.symm.trans active
  · simp only [rank, incoming, called]
    rfl
  · intro execution active
    cases called.symm.trans active
  · intro execution linked active
    cases called.symm.trans active
  · intro steps ending drain active
    cases called.symm.trans active
  · intro steps drain active
    cases called.symm.trans active

end World

def Printer.due : Printer → Nat
  | .listening => 1
  | .writing _ => 2
  | _ => 0

namespace Process

inductive Underway (process : Process) : Nat → Prop where
  | playing (stage : process.stage = .playing) : Underway process 3
  | cancelled (report : RunReport) (stage : process.stage = .cancelled report)
      (called : process.world.call = .run (.returned report)) : Underway process 2

structure Joining (ending : Ending) (last : Solo) (process : Process) : Prop where
  stage : ∃ report, process.stage = .joining report ∧ process.world.call = .run (.returned report) ∧
    report.ending = ending
  unplugged : process.world.machine.panel.source = none
  sink : ∃ line, process.world.machine.panel.sink = some line ∧ line.senderOpen = false ∧
    (process.printer = .finished → line.waiting = #[])
  all : process.world.history.accepted = last.output

inductive Stands (setting : Setting) (ending : Ending) (last : Solo) (process : Process) : Nat → Prop where
  | running (left more : Nat) (due : process.world.Due setting ending last process.token left)
      (prints : process.printer ≠ .finished) (underway : process.Underway more) :
      Stands setting ending last process (2 * left + process.printer.due + more)
  | joining (joins : process.Joining ending last) :
      Stands setting ending last process (2 * process.world.machine.panel.outbound + process.printer.due + 1)
  | exited (report : RunReport) (stage : process.stage = .exited (Program.exitOf ending process.stdout.written))
      (called : process.world.call = .run (.returned report))
      (unplugged : process.world.machine.panel.source = none) (finished : process.printer = .finished)
      (all : process.stdout.written.toList = Utf8.encode last.output) : Stands setting ending last process 0

structure Due (setting : Setting) (ending : Ending) (last : Solo) (rank : Nat) (process : Process) : Prop where
  told : process.Told
  stands : process.Stands setting ending last rank

variable {setting : Setting} {ending : Ending} {last : Solo}

section
variable (process : Process) (rank : Nat)

theorem main_playing (stage : process.stage = .playing)
    (busy : ∀ report, process.world.call ≠ .run (.returned report)) :
    process.main = { process with world := process.world.main } := by
  unfold main
  rw [stage]
  dsimp only
  split
  · rename_i report called
    exact absurd called (busy report)
  · rfl

theorem main_returned (report : RunReport) (stage : process.stage = .playing)
    (called : process.world.call = .run (.returned report)) :
    process.main = { process with
      world := { process.world with machine := process.world.machine.fire process.token }
      stage := .cancelled report } := by
  simp only [main, stage, called]

theorem underway_kept (next : Process) (more : Nat) (stage : next.stage = process.stage)
    (call : ∀ report, process.world.call = .run (.returned report) → next.world.call = .run (.returned report))
    (underway : process.Underway more) : next.Underway more := by
  cases underway with
  | playing playing => exact .playing (stage.trans playing)
  | cancelled report cancelled called => exact .cancelled report (stage.trans cancelled) (call report called)

theorem playing_lowers (left : Nat) (stage : process.stage = .playing) (told : process.Told)
    (due : process.world.Due setting ending last process.token left) (prints : process.printer ≠ .finished) :
    process.main = process ∨ ∃ less, less < 2 * left + process.printer.due + 3 ∧
      process.main.Due setting ending last less := by
  by_cases returned : ∃ report, process.world.call = .run (.returned report)
  · obtain ⟨report, called⟩ := returned
    rw [main_returned process report stage called]
    exact .inr ⟨_, Nat.lt_succ_self _, told_same process _ _ told rfl rfl,
      .running left 2 (World.fire_due process.world left report called due) prints (.cancelled report rfl called)⟩
  · rw [main_playing process stage fun report called => returned ⟨report, called⟩]
    obtain same | ⟨less, lower, later⟩ := World.main_lowers process.world left due
    · exact .inl (by rw [same])
    · refine .inr ⟨_, ?_, told_main process told, .running less 3 later prints (.playing stage)⟩
      dsimp only
      omega

theorem cancelled_lowers (left : Nat) (report : RunReport) (stage : process.stage = .cancelled report)
    (called : process.world.call = .run (.returned report)) (told : process.Told)
    (due : process.world.Due setting ending last process.token left) (prints : process.printer ≠ .finished) :
    ∃ less, less < 2 * left + process.printer.due + 2 ∧ process.main.Due setting ending last less := by
  obtain ⟨concluded, all⟩ := World.due_returned process.world left report called due
  obtain ⟨line, sink, -⟩ := due.steady.sink
  have turned : process.main = { process with
      world := { process.world with machine := process.world.machine.discard }
      stage := .joining report } := by
    simp only [main, stage]
  have after : process.world.machine.discard.panel.sink = some line.closeSender := by
    simp only [Machine.discard, sink, Option.map_some]
  have outbound : process.world.machine.discard.panel.outbound = process.world.machine.panel.outbound := by
    simp only [Panel.outbound, after, sink]
    rfl
  have pending : process.world.machine.discard.panel.pending = process.world.machine.panel.pending := by
    simp only [Panel.pending, after, sink]
    rfl
  rw [turned]
  refine ⟨_, ?_, told_same process _ _ told rfl pending, .joining ⟨⟨report, rfl, called, concluded⟩, rfl,
    ⟨line.closeSender, after, rfl, fun finished => absurd finished prints⟩, all⟩⟩
  obtain ⟨count, -, rfl⟩ := due.nears
  rw [outbound]
  unfold World.rank
  dsimp only
  omega

theorem joining_lowers (told : process.Told) (joins : process.Joining ending last) :
    process.main = process ∨ ∃ less, less < 2 * process.world.machine.panel.outbound + process.printer.due + 1 ∧
      process.main.Due setting ending last less := by
  obtain ⟨⟨report, stage, called, concluded⟩, unplugged, ⟨line, sink, -, finished⟩, all⟩ := joins
  cases printer : process.printer with
  | failed => exact absurd printer told.going
  | listening => exact .inl (by simp only [main, stage, printer])
  | writing char => exact .inl (by simp only [main, stage, printer])
  | finished =>
      have turned : process.main = { process with
          stage := .exited (Program.exitOf report.ending process.stdout.written) } := by
        simp only [main, stage, printer]
      obtain ⟨printed, written, whole⟩ := told.printed
      have empty := finished printer
      have complete : printed = last.output := by
        simpa [printer, Printer.inHand, Panel.pending, sink, empty, all] using whole.symm
      rw [complete] at written
      rw [turned]
      refine .inr ⟨0, Nat.succ_pos _, told_same process process.world _ told rfl rfl,
        .exited report ?_ called unplugged printer written⟩
      rw [concluded]

theorem main_lowers (due : process.Due setting ending last rank) :
    process.main = process ∨ ∃ less, less < rank ∧ process.main.Due setting ending last less := by
  obtain ⟨told, stands⟩ := due
  cases stands with
  | exited report stage called unplugged finished all =>
      left
      unfold main
      rw [stage]
  | joining joins => exact joining_lowers process told joins
  | running left more due prints underway =>
      cases underway with
      | playing stage => exact playing_lowers process left stage told due prints
      | cancelled report stage called => exact .inr (cancelled_lowers process left report stage called told due prints)

theorem running_lowers (world : World) (left more : Nat)
    (lowers : world = process.world ∨ ∃ less, less < left ∧ world.Due setting ending last process.token less)
    (call : ∀ report, process.world.call = .run (.returned report) → world.call = .run (.returned report))
    (prints : process.printer ≠ .finished) (told : Told { process with world }) (underway : process.Underway more) :
    { process with world } = process ∨ ∃ less, less < 2 * left + process.printer.due + more ∧
      Due setting ending last less { process with world } := by
  obtain rfl | ⟨less, lower, later⟩ := lowers
  · exact .inl rfl
  · exact .inr ⟨2 * less + process.printer.due + more, by omega, told,
      .running less more later prints (underway_kept process _ more rfl call underway)⟩

theorem drain_lowers (due : process.Due setting ending last rank) :
    process.act .drain = process ∨ ∃ less, less < rank ∧ (process.act .drain).Due setting ending last less := by
  have idles (report : RunReport) (called : process.world.call = .run (.returned report)) :
      process.world.drain = process.world :=
    World.drain_inactive process.world fun _ _ _ active => by cases called.symm.trans active
  have still (report : RunReport) (called : process.world.call = .run (.returned report)) :
      process.act .drain = process := by
    unfold act
    rw [idles report called]
  obtain ⟨told, stands⟩ := due
  cases stands with
  | exited report stage called => exact .inl (still report called)
  | joining joins =>
      obtain ⟨report, -, called, -⟩ := joins.stage
      exact .inl (still report called)
  | running left more due prints underway =>
      refine running_lowers process process.world.drain left more (World.drain_lowers process.world left due) ?_ prints
        (told_drain process told) underway
      intro report called
      rw [idles report called]
      exact called

theorem read_lowers (due : process.Due setting ending last rank) :
    process.read = process ∨ ∃ less, less < rank ∧ process.read.Due setting ending last less := by
  have still (unplugged : process.world.machine.panel.source = none) : process.read = process := by
    unfold read
    rw [unplugged]
  obtain ⟨told, stands⟩ := due
  cases stands with
  | exited report stage called unplugged => exact .inl (still unplugged)
  | joining joins => exact .inl (still joins.unplugged)
  | running left more due prints underway =>
      unfold read
      cases source : process.world.machine.panel.source with
      | none => exact .inl rfl
      | some line =>
          cases free : line.senderFree with
          | false => exact .inl (by simp [free])
          | true =>
              simp only [free, if_true]
              exact running_lowers process process.world.send left more (World.send_lowers process.world left due)
                (fun report called => (World.send_outside process.world).call.trans called) prints
                (told_send process told) underway

theorem write_lowers (char : Char) (writing : process.printer = .writing char)
    (due : process.Due setting ending last rank) :
    ∃ less, less < rank ∧ process.print.Due setting ending last less := by
  obtain ⟨told, stands⟩ := due
  obtain ⟨later, writes, told⟩ := told_write process char writing told
  have turned : process.print = { process with stdout := later, printer := .listening } := by
    simp only [print, writing, writes]
  rw [turned]
  cases stands with
  | exited report stage called unplugged finished => cases writing.symm.trans finished
  | running left more due prints underway =>
      refine ⟨_, ?_, told, .running left more due nofun (underway_kept process _ more rfl (fun _ => id) underway)⟩
      simp only [writing, Printer.due]
      omega
  | joining joins =>
      obtain ⟨line, sink, closed, -⟩ := joins.sink
      refine ⟨_, ?_, told, .joining ⟨joins.stage, joins.unplugged, ⟨line, sink, closed, nofun⟩, joins.all⟩⟩
      simp only [writing, Printer.due]
      omega

theorem print_ways (line : Line) (listening : process.printer = .listening)
    (sink : process.world.machine.panel.sink = some line) :
    (∃ char, 0 < line.waiting.size ∧ line.take = (.char char, { line with waiting := line.waiting.extract 1 }) ∧
        process.print = { process with
          world := process.world.receive
          printer := .writing char }) ∨
      (line.waiting = #[] ∧ line.senderOpen = true ∧
        process.print = { process with world := process.world.perform .listen }) ∨
      (line.waiting = #[] ∧ line.senderOpen = false ∧ process.print = { process with printer := .finished }) := by
  obtain ⟨char, waits, takes⟩ | ⟨empty, sender, takes⟩ | ⟨empty, sender, takes⟩ := line.take_ways
  · exact .inl ⟨char, waits, takes, by simp only [print, listening, sink, takes]⟩
  · exact .inr (.inl ⟨empty, sender, by simp only [print, listening, sink, takes]⟩)
  · exact .inr (.inr ⟨empty, sender, by simp only [print, listening, sink, takes]⟩)

theorem listen_running (left more : Nat) (listening : process.printer = .listening) (told : process.Told)
    (due : process.world.Due setting ending last process.token left) (prints : process.printer ≠ .finished)
    (underway : process.Underway more) :
    process.print = process ∨ ∃ less, less < 2 * left + process.printer.due + more ∧
      process.print.Due setting ending last less := by
  obtain ⟨line, sink, open?, -⟩ := due.steady.sink
  obtain ⟨char, waits, takes, turned⟩ | ⟨-, -, turned⟩ | ⟨-, sender, -⟩ := print_ways process line listening sink
  · have outside := World.receive_outside process.world
    obtain ⟨-, empty⟩ | ⟨less, lower, later⟩ := World.receive_lowers process.world left due
    · rw [empty line sink] at waits
      cases waits
    · rw [turned]
      refine .inr ⟨_, ?_, told_receive process line char listening sink (congrArg Prod.fst takes) told,
        .running less more later (by rintro ⟨⟩)
          (underway_kept process _ more rfl (fun _ called => outside.call.trans called) underway)⟩
      simp only [listening, Printer.due]
      omega
  · have outside := World.listen_outside process.world
    rw [turned]
    refine running_lowers process _ left more ((World.listen_lowers process.world left due).imp_left And.left)
      (fun report called => outside.call.trans called) prints
      (told_same process _ _ told outside.accepted ?_) underway
    simp only [World.perform, Machine.awaitOutput, Panel.pending]
    cases process.world.machine.panel.sink <;> rfl
  · cases sender.symm.trans open?

theorem listen_joining (listening : process.printer = .listening) (told : process.Told)
    (joins : process.Joining ending last) :
    ∃ less, less < 2 * process.world.machine.panel.outbound + process.printer.due + 1 ∧
      process.print.Due setting ending last less := by
  obtain ⟨⟨report, stage, called, concluded⟩, unplugged, ⟨line, sink, closed, -⟩, all⟩ := joins
  obtain ⟨char, waits, takes, turned⟩ | ⟨-, sender, -⟩ | ⟨empty, -, turned⟩ := print_ways process line listening sink
  · have outside := World.receive_outside process.world
    have received : process.world.receive.machine.panel.sink = some { line with
        waiting := line.waiting.extract 1 } := by
      simp only [World.receive, sink, takes]
    rw [turned]
    refine ⟨_, ?_, told_receive process line char listening sink (congrArg Prod.fst takes) told,
      .joining ⟨⟨report, stage, outside.call.trans called, concluded⟩, outside.unplugged unplugged,
        ⟨_, received, closed, by rintro ⟨⟩⟩, outside.accepted.trans all⟩⟩
    simp only [Panel.outbound, received, sink, listening, Printer.due, Option.elim_some, Array.size_extract]
    omega
  · cases closed.symm.trans sender
  · have printed := told.printed
    rw [listening] at printed
    rw [turned]
    refine ⟨_, ?_, ⟨told.working, by rintro ⟨⟩, printed⟩,
      .joining ⟨⟨report, stage, called, concluded⟩, unplugged, ⟨line, sink, closed, fun _ => empty⟩, all⟩⟩
    simp only [listening, Printer.due]
    omega

theorem listen_lowers (listening : process.printer = .listening) (due : process.Due setting ending last rank) :
    process.print = process ∨ ∃ less, less < rank ∧ process.print.Due setting ending last less := by
  obtain ⟨told, stands⟩ := due
  cases stands with
  | exited report stage called unplugged finished => cases listening.symm.trans finished
  | running left more due prints underway =>
      exact listen_running process left more listening told due prints underway
  | joining joins => exact .inr (listen_joining process listening told joins)

theorem print_lowers (due : process.Due setting ending last rank) :
    process.print = process ∨ ∃ less, less < rank ∧ process.print.Due setting ending last less := by
  cases printer : process.printer with
  | listening => exact listen_lowers process rank printer due
  | writing char => exact .inr (write_lowers process rank char printer due)
  | finished => exact .inl (by simp only [print, printer])
  | failed => exact .inl (by simp only [print, printer])

theorem act_lowers (thread : Thread) (due : process.Due setting ending last rank) :
    process.act thread = process ∨ ∃ less, less < rank ∧ (process.act thread).Due setting ending last less := by
  cases thread with
  | main => exact main_lowers process rank due
  | drain => exact drain_lowers process rank due
  | reader => exact read_lowers process rank due
  | printer => exact print_lowers process rank due

theorem goes_main (next : Stage) (goes : process.main.stage = next) (other : process.stage ≠ next) :
    process.act .main ≠ process := fun same => other ((congrArg Process.stage same).symm.trans goes)

theorem goes_print (line : Line) (listening : process.printer = .listening)
    (sink : process.world.machine.panel.sink = some line)
    (stands : line.waiting = #[] → line.senderOpen = true → line.awaited = false) : process.act .printer ≠ process := by
  intro same
  replace same : process.print = process := same
  obtain ⟨char, -, -, turned⟩ | ⟨empty, sender, turned⟩ | ⟨-, -, turned⟩ := print_ways process line listening sink
  · have printer := congrArg Process.printer (turned.symm.trans same)
    cases printer.trans listening
  · have after := congrArg (·.world.machine.panel.sink) (turned.symm.trans same)
    simp only [World.perform, Machine.awaitOutput, sink, Option.map_some, Option.some.injEq] at after
    have stood : line.await.awaited = line.awaited := congrArg Line.awaited after
    simp [Line.await, empty, stands empty sender] at stood
  · have printer := congrArg Process.printer (turned.symm.trans same)
    cases printer.trans listening

-- As long as the run is on, its world has something to do, and so has one of the threads.
theorem playing_goes (left : Nat) (stage : process.stage = .playing) (told : process.Told)
    (due : process.world.Due setting ending last process.token left) (prints : process.printer ≠ .finished) :
    (∃ thread, process.act thread ≠ process) ∨ ∃ char, process.printer = .writing char := by
  by_cases returned : ∃ report, process.world.call = .run (.returned report)
  · obtain ⟨report, called⟩ := returned
    refine .inl ⟨.main, goes_main process (.cancelled report) ?_ ?_⟩
    · rw [main_returned process report stage called]
    · rw [stage]
      nofun
  · have busy (report : RunReport) (called : process.world.call = .run (.returned report)) : False :=
      returned ⟨report, called⟩
    cases World.due_stirs process.world left due with
    | returned report called => exact (busy report called).elim
    | main goes =>
        refine .inl ⟨.main, fun same => goes ?_⟩
        have worlds := congrArg Process.world (main_playing process stage busy)
        exact worlds.symm.trans (congrArg Process.world same)
    | drain goes => exact .inl ⟨.drain, fun same => goes (congrArg Process.world same)⟩
    | send line source nothing goes =>
        refine .inl ⟨.reader, fun same => goes ?_⟩
        have free : line.senderFree = true := by simp [Line.senderFree, nothing]
        have reads : process.read = { process with world := process.world.send } := by
          simp only [read, source, free, if_true]
        exact (congrArg Process.world reads).symm.trans (congrArg Process.world same)
    | print line sink stands =>
        cases printer : process.printer with
        | failed => exact absurd printer told.going
        | finished => exact absurd printer prints
        | writing char => exact .inr ⟨char, rfl⟩
        | listening => exact .inl ⟨.printer, goes_print process line printer sink fun empty _ => stands empty⟩

theorem joining_goes (told : process.Told) (joins : process.Joining ending last) :
    (∃ thread, process.act thread ≠ process) ∨ ∃ char, process.printer = .writing char := by
  obtain ⟨report, stage, -⟩ := joins.stage
  obtain ⟨line, sink, closed, -⟩ := joins.sink
  cases printer : process.printer with
  | failed => exact absurd printer told.going
  | writing char => exact .inr ⟨char, rfl⟩
  | listening =>
      refine .inl ⟨.printer, goes_print process line printer sink fun _ sender => ?_⟩
      cases closed.symm.trans sender
  | finished =>
      refine .inl ⟨.main, goes_main process (.exited (Program.exitOf report.ending process.stdout.written)) ?_ ?_⟩
      · simp only [main, stage, printer]
      · rw [stage]
        nofun

theorem due_goes (due : process.Due setting ending last rank) :
    process.exit?.isSome = true ∨ ∃ thread less, less < rank ∧ (process.act thread).Due setting ending last less := by
  have moves (goes : (∃ thread, process.act thread ≠ process) ∨ ∃ char, process.printer = .writing char) :
      ∃ thread less, less < rank ∧ (process.act thread).Due setting ending last less := by
    obtain ⟨thread, goes⟩ | ⟨char, writing⟩ := goes
    · exact ⟨thread, (act_lowers process rank thread due).resolve_left goes⟩
    · exact ⟨.printer, write_lowers process rank char writing due⟩
  have told := due.told
  cases due.stands with
  | exited report stage =>
      left
      unfold exit?
      rw [stage]
      rfl
  | joining joins => exact .inr (moves (joining_goes process told joins))
  | running left more run prints underway =>
      cases underway with
      | playing stage => exact .inr (moves (playing_goes process left stage told run prints))
      | cancelled report stage called =>
          refine .inr (moves (.inl ⟨.main, goes_main process (.joining report) ?_ ?_⟩))
          · simp only [main, stage]
          · rw [stage]
            nofun

end

theorem exit_stays (process : Process) (thread : Thread) (exited : process.exit?.isSome = true) :
    (process.act thread).exit?.isSome = true := by
  have kept (next : Process) (same : next.stage = process.stage) : next.exit?.isSome = true := by
    unfold exit?
    rw [same]
    exact exited
  have read : process.read.stage = process.stage := by
    unfold read
    split
    · split <;> rfl
    · rfl
  have printed : process.print.stage = process.stage := by
    unfold print
    cases process.printer with
    | listening =>
        cases process.world.machine.panel.sink with
        | none => rfl
        | some line =>
            dsimp only
            cases line.take.1 <;> rfl
    | writing char =>
        dsimp only
        rcases process.stdout.writeChar false char with ⟨_ | _, later⟩ <;> rfl
    | finished => rfl
    | failed => rfl
  cases thread with
  | drain => exact kept _ rfl
  | reader => exact kept process.read read
  | printer => exact kept process.print printed
  | main =>
      have still : process.main = process := by
        unfold exit? at exited
        unfold main
        split at exited
        · rename_i exit stage
          rw [stage]
        · cases exited
      show process.main.exit?.isSome = true
      rw [still]
      exact exited

theorem process_descends (setting : Setting) (ending : Ending) (last : Solo) :
    Descends act (fun rank process => process.Due setting ending last rank)
      fun process => process.exit?.isSome = true where
  lowers rank process thread due := act_lowers process rank thread due
  goes rank process due := due_goes process rank due
  stays process thread exited := exit_stays process thread exited

theorem schedule_exits (process : Process) (rank : Nat) (threads : List Thread) (exit : Program.Exit)
    (due : process.Due setting ending last rank) (exits : (process.schedule threads).exit? = some exit) :
    exit = Program.exitOf ending (Utf8.encode last.output).toArray ∧
      (process.schedule threads).stdout.written = (Utf8.encode last.output).toArray := by
  have reached : ∃ less, (process.schedule threads).Due setting ending last less := by
    obtain same | ⟨less, -, later⟩ := descends_turns (process_descends setting ending last) threads rank process due
    · exact ⟨rank, by unfold schedule; rw [same]; exact due⟩
    · exact ⟨less, later⟩
  obtain ⟨less, told, stands⟩ := reached
  unfold exit? at exits
  cases stands with
  | running left more due prints underway =>
      cases underway with
      | playing stage =>
          rw [stage] at exits
          cases exits
      | cancelled report stage called =>
          rw [stage] at exits
          cases exits
  | joining joins =>
      obtain ⟨report, stage, -⟩ := joins.stage
      rw [stage] at exits
      cases exits
  | exited report stage called unplugged finished all =>
      have written : (process.schedule threads).stdout.written = (Utf8.encode last.output).toArray := by
        rw [← all]
      rw [stage] at exits
      cases exits
      rw [written]
      exact ⟨rfl, rfl⟩

theorem schedule_fair (process : Process) (rank : Nat) (threads : List Thread)
    (due : process.Due setting ending last rank) (fair : Fair (rank + 1) threads) :
    (process.schedule threads).exit? = some (Program.exitOf ending (Utf8.encode last.output).toArray) := by
  have final := descends_fair (process_descends setting ending last) threads (rank + 1) rank process due fair
    (Nat.lt_succ_self rank)
  obtain ⟨exit, exits⟩ := Option.isSome_iff_exists.mp final
  rw [← (schedule_exits process rank threads exit due exits).1]
  exact exits

end Process

end LittleComputer
