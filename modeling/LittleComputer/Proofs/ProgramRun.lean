import LittleComputer.Proofs.Process

set_option autoImplicit false

namespace LittleComputer

namespace World

theorem receives (world : World) (line : Line) (sink : world.machine.panel.sink = some line) :
    world.schedule (List.replicate line.waiting.size .receive) = { world with
      machine := { world.machine with panel := { world.machine.panel with
        sink := some { line with waiting := #[] } } } } := by
  generalize size : line.waiting.size = count
  induction count generalizing world line with
  | zero =>
      have empty : line.waiting = #[] := Array.eq_empty_of_size_eq_zero size
      rcases line with ⟨capacity, waiting, sender, receiver, awaited⟩
      obtain rfl : waiting = #[] := empty
      rw [← sink]
      rfl
  | succ count ih =>
      have front : line.waiting[0]? = some line.waiting[0] := Array.getElem?_eq_getElem (by omega)
      have taken : line.take.2 = { line with waiting := line.waiting.extract 1 } := by simp only [Line.take, front]
      have received : world.receive = { world with
          machine := { world.machine with panel := { world.machine.panel with
            sink := some { line with waiting := line.waiting.extract 1 } } } } := by
        simp only [World.receive, sink, taken]
      show world.receive.schedule (List.replicate count .receive) = _
      rw [received]
      exact ih _ { line with waiting := line.waiting.extract 1 } rfl (by simp [size])

end World

namespace Program.Session

-- A session is a world in which nobody looks at the history.
structure Mirrors (session : Session) (world : World) : Prop where
  machine : session.machine = world.machine
  call : world.call = .run session.call
  unsent : session.unsent = world.unsent
  sender : world.unsent ≠ [] → world.machine.panel.hasSender = true
  printed : ∃ printed, session.printed.toList = Utf8.encode printed ∧
    world.history.accepted = printed ++ world.machine.panel.pending

theorem close_mirrors (session : Session) (world : World) (hangsUp : world.hangsUp = true) (text : world.unsent = [])
    (mirrors : session.Mirrors world) : session.send.Mirrors world.send := by
  obtain ⟨machine, call, unsent, sender, printed⟩ := mirrors
  have pending := World.send_pending world
  have sends : session.send = { session with machine := session.machine.closeSender } := by
    unfold send
    rw [unsent, text]
    cases session.machine.panel.source <;> rfl
  have closes : world.send = { world with machine := world.machine.closeSender } := by
    unfold World.send
    rw [text]
    simp only [hangsUp, if_true]
  rw [closes] at pending ⊢
  rw [sends]
  refine ⟨congrArg Machine.closeSender machine, call, unsent, fun more => absurd text more, ?_⟩
  rw [pending]
  exact printed

theorem put_mirrors (session : Session) (world : World) (char : Char) (rest : List Char) (line : Line)
    (text : world.unsent = char :: rest) (source : world.machine.panel.source = some line)
    (open? : line.senderOpen = true) (free : line.senderFree = true) (mirrors : session.Mirrors world) :
    session.send.Mirrors world.send := by
  obtain ⟨machine, call, unsent, sender, printed⟩ := mirrors
  have pending := World.send_pending world
  have sends : session.send = { session with machine := session.machine.replug (line.put char), unsent := rest } := by
    unfold send
    rw [machine, unsent, text, source]
    simp only [free, if_true]
  have puts : world.send = { world with
      machine := world.machine.replug (line.put char)
      unsent := rest
      history := { world.history with sent := world.history.sent ++ [char] } } := by
    unfold World.send
    rw [text, source]
    simp only [open?, if_true]
  rw [puts] at pending ⊢
  rw [sends]
  refine ⟨congrArg (Machine.replug · (line.put char)) machine, call, rfl, fun _ => open?, ?_⟩
  rw [pending]
  exact printed

theorem send_mirrors (session : Session) (world : World) (hangsUp : world.hangsUp = true)
    (mirrors : session.Mirrors world) :
    session.send.Mirrors world.send ∨ (session.send.Mirrors world ∧
      ∀ line, world.machine.panel.source = some line → line.waiting ≠ #[]) := by
  cases text : world.unsent with
  | nil => exact .inl (close_mirrors session world hangsUp text mirrors)
  | cons char rest =>
      have sender := mirrors.sender (by rw [text]; nofun)
      cases source : world.machine.panel.source with
      | none =>
          rw [Panel.hasSender, source] at sender
          cases sender
      | some line =>
          rw [Panel.hasSender, source, Option.any_some] at sender
          cases free : line.senderFree with
          | true => exact .inl (put_mirrors session world char rest line text source sender free mirrors)
          | false =>
              have waits : session.send = session := by
                unfold send
                rw [mirrors.machine, mirrors.unsent, text, source]
                simp only [free, Bool.false_eq_true, if_false]
              rw [waits]
              refine .inr ⟨mirrors, ?_⟩
              rintro other ⟨⟩ empty
              simp [Line.senderFree, empty] at free

theorem main_mirrors (session : Session) (world : World) (mirrors : session.Mirrors world) :
    Mirrors { session with
      machine := (session.call.mainTurn session.machine).1
      call := (session.call.mainTurn session.machine).2.getD session.call } world.main := by
  obtain ⟨machine, call, unsent, sender, printed, written, whole⟩ := mirrors
  have passes := (World.main_passes world).sender
  have turned : world.main = { world with
      machine := (session.call.mainTurn world.machine).1
      call := .run ((session.call.mainTurn world.machine).2.getD session.call)
      history := world.history.note world.machine world.call.attempt? } := by
    simp only [World.main, call]
  have unsentAfter : world.main.unsent = world.unsent := by rw [turned]
  refine ⟨?_, ?_, unsent.trans unsentAfter.symm, fun more => ?_, printed, written, ?_⟩
  · rw [turned, machine]
  · rw [turned, machine]
  · rw [passes]
    exact sender (by rwa [unsentAfter] at more)
  · obtain ⟨same, accepted⟩ | ⟨char, line, before, -, after, accepted⟩ := World.main_sink world
    · rw [accepted, whole]
      simp only [Panel.pending, same]
    · rw [accepted, whole]
      simp [Panel.pending, before, after, Line.put]

theorem drain_mirrors (session : Session) (world : World) (mirrors : session.Mirrors world) :
    Mirrors { session with
      machine := (session.call.drainTurn session.machine).1
      call := (session.call.drainTurn session.machine).2.getD session.call } world.drain := by
  obtain ⟨machine, call, unsent, sender, printed, written, whole⟩ := mirrors
  have passes := (World.drain_passes world).sender
  have turned : world.drain = { world with
      machine := (session.call.drainTurn world.machine).1
      call := .run ((session.call.drainTurn world.machine).2.getD session.call) } := by
    simp only [World.drain, call]
  have unsentAfter : world.drain.unsent = world.unsent := by rw [turned]
  refine ⟨?_, ?_, unsent.trans unsentAfter.symm, fun more => ?_, printed, written, ?_⟩
  · rw [turned, machine]
  · rw [turned, machine]
  · rw [passes]
    exact sender (by rwa [unsentAfter] at more)
  · rw [World.drain_pending, World.drain_turned world]
    exact whole

theorem run_mirrors (session : Session) (world : World) (mirrors : session.Mirrors world) :
    ∃ next, session.run.Mirrors next ∧ (next = world.main ∨ next = world.drain) ∧
      (next = world → world.main = world ∧ world.drain = world) := by
  have main := main_mirrors session world mirrors
  have drain := drain_mirrors session world mirrors
  have mainWays := World.main_ways world session.call mirrors.call
  have drainWays := World.drain_ways world session.call mirrors.call
  rw [← mirrors.machine] at mainWays drainWays
  unfold run RunCall.turnOnDemand RunCall.turn
  cases session.machine.panel.keyboard.queue.isEmpty with
  | true =>
      simp only [if_true]
      rcases drains : session.call.drainTurn session.machine with ⟨machine, _ | call⟩
      · rw [drains] at drainWays
        obtain ⟨same, still⟩ | ⟨some?, -⟩ := drainWays
        · obtain rfl : machine = session.machine := congrArg Prod.fst same
          refine ⟨world.main, ?_, .inl rfl, fun waits => ⟨waits, still⟩⟩
          dsimp only
          rcases turns : session.call.mainTurn session.machine with ⟨machine, _ | call⟩ <;> rw [turns] at main <;>
            exact main
        · exact absurd rfl some?
      · rw [drains] at drain drainWays
        refine ⟨world.drain, drain, .inr rfl, fun waits => ?_⟩
        obtain ⟨none?, -⟩ | ⟨-, goes⟩ := drainWays
        · cases none?
        · exact absurd waits goes
  | false =>
      simp only [Bool.false_eq_true, if_false]
      rcases turns : session.call.mainTurn session.machine with ⟨machine, _ | call⟩
      · rw [turns] at mainWays
        obtain ⟨same, still⟩ | ⟨some?, -⟩ := mainWays
        · obtain rfl : machine = session.machine := congrArg Prod.fst same
          refine ⟨world.drain, ?_, .inr rfl, fun waits => ⟨still, waits⟩⟩
          dsimp only
          rcases drains : session.call.drainTurn session.machine with ⟨machine, _ | call⟩ <;> rw [drains] at drain <;>
            exact drain
        · exact absurd rfl some?
      · rw [turns] at main mainWays
        refine ⟨world.main, main, .inl rfl, fun waits => ?_⟩
        obtain ⟨none?, -⟩ | ⟨-, goes⟩ := mainWays
        · cases none?
        · exact absurd waits goes

theorem print_mirrors (session : Session) (world : World) (line : Line) (sink : world.machine.panel.sink = some line)
    (mirrors : session.Mirrors world) :
    ∃ tasks, session.print.Mirrors (world.schedule tasks) ∧
      (world.schedule tasks).machine.panel.sink = some { line with waiting := #[], awaited := true } := by
  obtain ⟨machine, call, unsent, sender, printed, written, whole⟩ := mirrors
  refine ⟨List.replicate line.waiting.size .receive ++ [.listen], ?_⟩
  have scheduled : world.schedule (List.replicate line.waiting.size .receive ++ [.listen]) = { world with
      machine := { world.machine with panel := { world.machine.panel with
        sink := some { line with waiting := #[], awaited := true } } } } := by
    unfold World.schedule
    rw [List.foldl_append]
    show ((world.schedule _).perform .listen) = _
    rw [World.receives world line sink]
    rfl
  have prints : session.print = { session with
      machine := { world.machine with panel := { world.machine.panel with
        sink := some { line with waiting := #[], awaited := true } } }
      printed := session.printed ++ Utf8.encode line.waiting.toList } := by
    unfold print
    rw [machine]
    simp only [Machine.drainOutput, sink]
    rfl
  rw [scheduled, prints]
  refine ⟨⟨rfl, call, unsent, sender, printed ++ line.waiting.toList, ?_, ?_⟩, rfl⟩
  · simp [written, encode_append]
  · show world.history.accepted = _
    rw [whole]
    simp [Panel.pending, sink]

variable {setting : Setting} {ending : Ending} {last : Solo} {token : Token}

theorem lowers_bound (world next : World) (rank : Nat) (idle : Prop) (due : world.Due setting ending last token rank)
    (lowers : (next = world ∧ idle) ∨ ∃ less, less < rank ∧ next.Due setting ending last token less) :
    ∃ bound, next.Due setting ending last token bound ∧ bound ≤ rank ∧ (bound = rank → next = world ∧ idle) := by
  obtain same | ⟨less, lower, later⟩ := lowers
  · exact ⟨rank, same.1 ▸ due, Nat.le_refl rank, fun _ => same⟩
  · exact ⟨less, later, Nat.le_of_lt lower, fun stays => absurd stays (Nat.ne_of_lt lower)⟩

theorem send_due (session : Session) (world : World) (rank : Nat) (mirrors : session.Mirrors world)
    (due : world.Due setting ending last token rank) :
    ∃ next, session.send.Mirrors next ∧ ∃ bound, next.Due setting ending last token bound ∧ bound ≤ rank ∧
      (bound = rank → next = world ∧
        ∀ line, world.machine.panel.source = some line → line.waiting = #[] → world.send = world) := by
  obtain sent | ⟨waits, full⟩ := send_mirrors session world due.steady.hangsUp mirrors
  · exact ⟨world.send, sent, lowers_bound world _ rank _ due
      ((World.send_lowers world rank due).imp_left fun same => ⟨same, fun _ _ _ => same⟩)⟩
  · exact ⟨world, waits, rank, due, Nat.le_refl rank,
      fun _ => ⟨rfl, fun line source empty => absurd empty (full line source)⟩⟩

theorem run_due (session : Session) (world : World) (rank : Nat) (mirrors : session.Mirrors world)
    (due : world.Due setting ending last token rank) :
    ∃ next, session.run.Mirrors next ∧ ∃ bound, next.Due setting ending last token bound ∧ bound ≤ rank ∧
      (bound = rank → next = world ∧ world.main = world ∧ world.drain = world) := by
  obtain ⟨next, turned, which, stuck⟩ := run_mirrors session world mirrors
  refine ⟨next, turned, lowers_bound world next rank _ due ?_⟩
  obtain rfl | rfl := which
  · exact (World.main_lowers world rank due).imp_left fun same => ⟨same, stuck same⟩
  · exact (World.drain_lowers world rank due).imp_left fun same => ⟨same, stuck same⟩

theorem print_due (session : Session) (world : World) (rank : Nat) (mirrors : session.Mirrors world)
    (due : world.Due setting ending last token rank) :
    ∃ next, session.print.Mirrors next ∧ next.machine.panel.pending = [] ∧
      ∃ bound, next.Due setting ending last token bound ∧ bound ≤ rank ∧ (bound = rank → next = world ∧
        ∃ line : Line, next.machine.panel.sink = some line ∧ line.awaited = true) := by
  obtain ⟨line, sink, -⟩ := due.steady.sink
  obtain ⟨tasks, printed, after⟩ := print_mirrors session world line sink mirrors
  refine ⟨world.schedule tasks, printed, by rw [Panel.pending, after]; rfl, lowers_bound world _ rank _ due ?_⟩
  exact (descends_turns (World.world_descends setting ending last token) tasks rank world due).imp_left
    fun same => ⟨same, _, after, rfl⟩

theorem round_lowers (session : Session) (world : World) (rank : Nat) (mirrors : session.Mirrors world)
    (due : world.Due setting ending last token rank) (playing : session.isOver = false) :
    ∃ next less, session.round.Mirrors next ∧ next.Due setting ending last token less ∧ less < rank ∧
      next.machine.panel.pending = [] := by
  obtain ⟨middle, sent, first, sending, lower, unsent⟩ := send_due session world rank mirrors due
  obtain ⟨between, ran, second, running, lowered, stuck⟩ := run_due session.send middle first sent sending
  obtain ⟨next, printed, empty, third, printing, lowest, stood⟩ :=
    print_due session.send.run between second ran running
  refine ⟨next, third, printed, printing, Nat.lt_of_le_of_ne (by omega) fun same => ?_, empty⟩
  -- nobody has done anything, and yet the run has not returned
  obtain ⟨rfl, idle⟩ := unsent (by omega)
  obtain ⟨rfl, main, drain⟩ := stuck (by omega)
  obtain ⟨rfl, line, sink, awaited⟩ := stood (by omega)
  cases World.due_stirs next rank due with
  | returned report called =>
      have returned : session.call = .returned report := Call.run.inj (mirrors.call.symm.trans called)
      rw [isOver, returned] at playing
      cases playing
  | main goes => exact goes main
  | drain goes => exact goes drain
  | send line source nothing goes => exact goes (idle line source nothing)
  | print other same stands =>
      cases sink.symm.trans same
      have nothing : line.waiting = #[] := by simpa [Panel.pending, sink] using empty
      cases (stands nothing).symm.trans awaited

theorem proceed_exits (rounds rank : Nat) (session : Session) (world : World) (mirrors : session.Mirrors world)
    (due : world.Due setting ending last token rank) (empty : world.machine.panel.pending = [])
    (enough : rank < rounds) :
    (session.proceed rounds).exit? = some (exitOf ending (Utf8.encode last.output).toArray) := by
  induction rounds generalizing rank session world with
  | zero => exact absurd enough (Nat.not_lt_zero rank)
  | succ rounds ih =>
      unfold proceed
      cases concluded : session.isOver with
      | false =>
          obtain ⟨next, less, after, later, lower, nothing⟩ := round_lowers session world rank mirrors due concluded
          exact ih less session.round next after later nothing (by omega)
      | true =>
          rw [if_pos rfl]
          unfold isOver at concluded
          split at concluded
          · rename_i report called
            obtain ⟨rfl, all⟩ :=
              World.due_returned world rank report (mirrors.call.trans (congrArg Call.run called)) due
            obtain ⟨printed, written, whole⟩ := mirrors.printed
            rw [all, empty, List.append_nil] at whole
            unfold exit?
            rw [called, whole, ← written]
          · cases concluded

end Program.Session

theorem Solo.ends_ways {setting : Setting} (solo last : Solo) (ending : Ending)
    (ends : solo.next? setting = some (.ends ending last)) :
    ending = .halted ∨ ending = .inputClosed ∨ ∃ fault, ending = .faulted fault ∧ setting.policy = .halt := by
  unfold next? at ends
  have granted : (solo.execute setting).1 ≠ some (.ok .interrupted) := by
    unfold execute
    rcases solo.core.step Script.console { input := solo.input } with
      ⟨_ | fault | _ | _ | _ | _, core, script⟩ <;> nofun
  rcases executed : solo.execute setting with ⟨_ | fault | _ | _ | _ | _, later⟩ <;> rw [executed] at ends granted
  · cases ends
  · cases policy : setting.policy with
    | halt =>
        simp only [Option.map_some, conclude_halt setting fault later policy] at ends
        cases ends
        exact .inr (.inr ⟨fault, rfl, rfl⟩)
    | «continue» =>
        simp only [Option.map_some, conclude_continue setting fault later policy] at ends
        cases ends
  · cases ends
  · cases ends
    exact .inl rfl
  · exact absurd rfl granted
  · cases ends
    exact .inr (.inl rfl)

namespace Program

def boot (memory : Memory) (input : List Word) : Solo where
  core := { registers := { general := .replicate 8 0, pc := Address.origin, cond := 0 }, memory }
  input

def loaded (memory : Memory) (config : Config) : Machine := { core := (boot memory []).core, config }

theorem load_boots (explain : List Char → String) (options : Options) (configFile imageFile : Stream) (config : Config)
    (memory : Memory)
    (configured : loadConfig explain options configFile = .ok config) (filled : Image.load imageFile = .ok memory) :
    load explain options configFile imageFile = .ok (loaded memory config) := by
  unfold load
  rw [configured]
  dsimp only
  rw [filled]
  rfl

variable {ending : Ending} {last : Solo}

section
variable (memory : Memory) (config : Config) (text : List Char) (count : Nat)

theorem begin_due (stdout : Writer)
    (finishes : (boot memory (codes text)).Finishes ⟨config.policy, true⟩ count ending last) :
    (Process.begin (loaded memory config) text stdout).world.Due ⟨config.policy, true⟩ ending last ⟨0⟩
      ((Process.begin (loaded memory config) text stdout).world.rank count) := by
  let machine : Machine := { loaded memory config with
    panel := {
      source := some { capacity := 0 }
      sink := some { capacity := 0 }
      signals := { issued := 1 } } }
  have begun : (Process.begin (loaded memory config) text stdout).world =
      World.start { machine, unsent := text, hangsUp := true, tokens := [⟨0⟩] } ⟨0⟩ := rfl
  have follows := (World.start_follows machine text true ⟨0⟩ _ begun rfl rfl rfl rfl).2
  rw [World.start_stopped machine text true ⟨0⟩ rfl] at begun
  have ahead : (Process.begin (loaded memory config) text stdout).world.ahead = codes text := by
    rw [begun]
    rfl
  rw [ahead] at follows
  rw [begun] at follows ⊢
  exact ⟨⟨count, ⟨boot memory (codes text), finishes, follows, nofun⟩, rfl⟩,
    ⟨rfl, ⟨_, rfl, rfl, rfl, nofun⟩, nofun, nofun, nofun⟩, nofun⟩

theorem begin_told : (Process.begin (loaded memory config) text {}).Told :=
  ⟨rfl, nofun, [], rfl, rfl⟩

theorem start_mirrors :
    (Session.start (loaded memory config) text).Mirrors (Process.begin (loaded memory config) text {}).world :=
  ⟨rfl, rfl, rfl, fun _ => rfl, [], rfl, rfl⟩

end

theorem load_fails (explain : List Char → String) (options : Options) (configFile imageFile : Stream)
    (error : LoadError) (fails : loadConfig explain options configFile = .error error ∨
      ∃ config fault, loadConfig explain options configFile = .ok config ∧ Image.load imageFile = .error fault ∧
        error = .image fault) : load explain options configFile imageFile = .error error := by
  unfold load
  obtain failed | ⟨config, fault, configured, failed, rfl⟩ := fails
  · rw [failed]
  · rw [configured]
    dsimp only
    rw [failed]

theorem exit_ways (ending : Ending) (output : Array UInt8) (policy : Policy)
    (ways : ending = .halted ∨ ending = .inputClosed ∨ ∃ fault, ending = .faulted fault ∧ policy = .halt) :
    ((ending = .halted ∨ ending = .inputClosed) ∧ exitOf ending output = ⟨0, output, ""⟩) ∨
      ∃ fault, ending = .faulted fault ∧ policy = .halt ∧
        exitOf ending output = ⟨2, output, "lc3: " ++ fault.message ++ "\n"⟩ := by
  obtain rfl | rfl | ⟨fault, rfl, halts⟩ := ways
  · exact .inl ⟨.inl rfl, rfl⟩
  · exact .inl ⟨.inr rfl, rfl⟩
  · exact .inr ⟨fault, rfl, halts, rfl⟩

/-- A program that cannot be loaded exits with status 1 and prints nothing. Any other begins the run that waits for
nobody, from the image, cleared registers and the characters of the input that fit a word. If that run comes to an end
and no step of it reads a keyboard register, then under every schedule of the threads the program has printed all of its
output when it exits, and nothing else; and it exits, once each thread has had its turn often enough. So does the
program as one task after the other is run. -/
theorem piped_output_is_complete (explain : List Char → String) (options : Options) (configFile imageFile : Stream)
    (input : List UInt8) :
    (∀ error : LoadError,
      (loadConfig explain options configFile = .error error ∨
        ∃ config fault, loadConfig explain options configFile = .ok config ∧ Image.load imageFile = .error fault ∧
          error = .image fault) →
      Process.launch explain options configFile imageFile input {} = .error ⟨1, #[], "lc3: " ++ error.message ++ "\n"⟩ ∧
        ∀ rounds, run rounds explain options configFile imageFile input =
          some ⟨1, #[], "lc3: " ++ error.message ++ "\n"⟩) ∧
    ∀ config memory, loadConfig explain options configFile = .ok config → Image.load imageFile = .ok memory →
      ∃ process, Process.launch explain options configFile imageFile input {} = .ok process ∧
        ∀ (count : Nat) (final last : Solo) (ending : Ending),
          Solo.Path ⟨config.policy, true⟩ (boot memory (codes (PipedInput.chars input))) count final →
          final.next? ⟨config.policy, true⟩ = some (.ends ending last) →
          (∀ number state,
            Solo.Path ⟨config.policy, true⟩ (boot memory (codes (PipedInput.chars input))) number state →
            ¬state.core.ReadsDevice) →
          ∃ exit : Exit,
            (((ending = .halted ∨ ending = .inputClosed) ∧ exit = ⟨0, (Utf8.encode last.output).toArray, ""⟩) ∨
              ∃ fault, ending = .faulted fault ∧ config.policy = .halt ∧
                exit = ⟨2, (Utf8.encode last.output).toArray, "lc3: " ++ fault.message ++ "\n"⟩) ∧
            (∀ threads left, (process.schedule threads).exit? = some left →
              left = exit ∧ (process.schedule threads).stdout.written = (Utf8.encode last.output).toArray) ∧
            ∃ rounds, (∀ threads, Fair rounds threads → (process.schedule threads).exit? = some exit) ∧
              ∀ more, rounds ≤ more → run more explain options configFile imageFile input = some exit := by
  refine ⟨fun error fails => ?_, fun config memory configured filled => ?_⟩
  · have failed := load_fails explain options configFile imageFile error fails
    refine ⟨?_, fun rounds => ?_⟩
    · unfold Process.launch
      rw [failed]
      rfl
    · unfold run
      rw [failed]
      rfl
  · have boots := load_boots explain options configFile imageFile config memory configured filled
    let text := PipedInput.chars input
    refine ⟨Process.begin (loaded memory config) text {}, by unfold Process.launch; rw [boots], ?_⟩
    intro count final last ending path ends quiet
    have due := begin_due memory config text count {} ⟨⟨final, path, ends⟩, quiet⟩
    generalize (Process.begin (loaded memory config) text {}).world.rank count = rank at due
    have told := begin_told memory config text
    -- two turns for each rank of the run, one for the printing thread and three for the way out
    have stands : (Process.begin (loaded memory config) text {}).Due ⟨config.policy, true⟩ ending last
        (2 * rank + 1 + 3) := ⟨told, .running rank 3 due nofun (.playing rfl)⟩
    refine ⟨exitOf ending (Utf8.encode last.output).toArray,
      exit_ways ending _ config.policy (Solo.ends_ways final last ending ends),
      fun threads left exits => Process.schedule_exits _ _ threads left stands exits, 2 * rank + 1 + 3 + 1,
      fun threads fair => Process.schedule_fair _ _ threads stands fair, fun more enough => ?_⟩
    unfold run
    rw [boots]
    exact Session.proceed_exits more rank _ _ (start_mirrors memory config text) due rfl (by omega)

def echoImage : Stream := ⟨[0x30, 0x00, 0xF0, 0x20, 0xF0, 0x21, 0xF0, 0x25], none⟩

def echoMemory : Memory := ((Memory.zero.write 0x3000 0xF020).write 0x3001 0xF021).write 0x3002 0xF025

theorem echo_text : codes (PipedInput.chars [0xC3, 0xA9]) = [0xE9] := by
  have decoded : Utf8.decode? [0xC3, 0xA9] = some ['é'] := by
    rw [Utf8.decode?, Utf8.decode_onto_next [] _ [] 'é' rfl, Utf8.decodeOnto]
    rfl
  have line : PipedInput.lines [0xC3, 0xA9] = [[0xC3, 0xA9]] := rfl
  simp only [PipedInput.chars, PipedInput.texts, line, List.map_singleton, decoded]
  rfl

open Turns

theorem echo_steps (memory : Memory) (first : memory.read 0x3000 = 0xF020) (second : memory.read 0x3001 = 0xF021)
    (third : memory.read 0x3002 = 0xF025) :
    ∃ printing halting last : Solo, (boot memory [0xE9]).next? ⟨.halt, true⟩ = some (.goes printing) ∧
      printing.next? ⟨.halt, true⟩ = some (.goes halting) ∧
      halting.next? ⟨.halt, true⟩ = some (.ends .halted last) ∧ last.output = ['é'] ∧
      (boot memory [0xE9]).core.word = 0xF020 ∧
      (printing.core.registers.pc = 0x3001 ∧ printing.core.word = 0xF021) ∧
      (halting.core.registers.pc = 0x3002 ∧ halting.core.word = 0xF025) := by
  have getc : Instruction.decode 0xF020 = .ok (.trap .getc) := rfl
  have out : Instruction.decode 0xF021 = .ok (.trap .out) := rfl
  have halt : Instruction.decode 0xF025 = .ok (.trap .halt) := rfl
  have char : Char.ofNat (Word.lowByte 0xE9).toNat = 'é' := rfl
  simp [first, second, third, getc, out, halt, char, boot, Solo.next?, Solo.execute, Solo.conclude, Setting.kept,
    Script.console, Script.readChar, Script.writeChar, Script.halt, Core.prints, Core.word]

theorem echo_apart (memory : Memory) (first : memory.read 0x3000 = 0xF020) (second : memory.read 0x3001 = 0xF021)
    (third : memory.read 0x3002 = 0xF025) :
    ∃ final last : Solo, Solo.Path ⟨.halt, true⟩ (boot memory [0xE9]) 2 final ∧
      final.next? ⟨.halt, true⟩ = some (.ends .halted last) ∧ last.output = ['é'] ∧
      ∀ number state, Solo.Path ⟨.halt, true⟩ (boot memory [0xE9]) number state → ¬state.core.ReadsDevice := by
  obtain ⟨printing, halting, last, asks, prints, halts, output, getc, ⟨pc, out⟩, ⟨lastPc, halt⟩⟩ :=
    echo_steps memory first second third
  have one := Solo.Path.goes 0 _ printing .start asks
  have two := Solo.Path.goes 1 printing halting one prints
  refine ⟨halting, last, two, halts, output, fun number state path => ?_⟩
  obtain rfl | rfl | rfl : number = 0 ∨ number = 1 ∨ number = 2 := by
    have bounded := Solo.path_bounded 2 number halting last state .halted two halts path
    omega
  · rw [Solo.path_unique 0 state _ path .start]
    exact World.trap_apart _ .getc rfl (by rw [getc]; rfl) nofun
  · rw [Solo.path_unique 1 state _ path one]
    exact World.trap_apart _ .out (by rw [pc]; rfl) (by rw [out]; rfl) nofun
  · rw [Solo.path_unique 2 state _ path two]
    exact World.trap_apart _ .halt (by rw [lastPc]; rfl) (by rw [halt]; rfl) nofun

theorem piped_output_is_complete_echo :
    Process.launch (fun _ => "") { image := "echo.obj" } .absent .absent [0xC3, 0xA9] {} =
        .error ⟨1, #[], "lc3: failed to read image: No such file or directory (os error 2)\n"⟩ ∧
      ∃ process, Process.launch (fun _ => "") { image := "echo.obj" } .absent echoImage [0xC3, 0xA9] {} = .ok process ∧
        (∀ threads left, (process.schedule threads).exit? = some left → left = ⟨0, #[0xC3, 0xA9], ""⟩) ∧
        ∃ threads, (process.schedule threads).exit? = some ⟨0, #[0xC3, 0xA9], ""⟩ := by
  have first : echoMemory.read 0x3000 = 0xF020 := by simp [echoMemory, Memory.read_write]
  have second : echoMemory.read 0x3001 = 0xF021 := by simp [echoMemory, Memory.read_write]
  have third : echoMemory.read 0x3002 = 0xF025 := by simp [echoMemory, Memory.read_write]
  obtain ⟨final, last, path, ends, output, apart⟩ := echo_apart echoMemory first second third
  have printed : (Utf8.encode last.output).toArray = #[0xC3, 0xA9] := by
    rw [output]
    rfl
  refine ⟨((piped_output_is_complete (fun _ => "") { image := "echo.obj" } .absent .absent [0xC3, 0xA9]).1
    (.image (.unreadable "No such file or directory (os error 2)")) (.inr ⟨{}, _, rfl, rfl, rfl⟩)).1, ?_⟩
  obtain ⟨process, launched, exits⟩ := (piped_output_is_complete (fun _ => "") { image := "echo.obj" } .absent echoImage
    [0xC3, 0xA9]).2 {} echoMemory rfl rfl
  rw [echo_text] at exits
  obtain ⟨exit, which, safe, rounds, fair, -⟩ := exits 2 final last .halted path ends apart
  obtain rfl : exit = ⟨0, #[0xC3, 0xA9], ""⟩ := by
    obtain ⟨-, same⟩ | ⟨fault, halted, -⟩ := which
    · rw [same, printed]
    · cases halted
  refine ⟨process, launched, fun threads left exits => (safe threads left exits).1, ?_⟩
  refine ⟨(List.replicate rounds [.main, .drain, .reader, .printer]).flatten, fair _ ⟨_, ?_, rfl, ?_⟩⟩
  · exact Nat.le_of_eq List.length_replicate.symm
  · intro part member thread
    rw [List.eq_of_mem_replicate member]
    cases thread <;> simp

end Program

end LittleComputer
