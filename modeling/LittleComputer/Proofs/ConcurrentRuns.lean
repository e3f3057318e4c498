import LittleComputer.Proofs.ScheduleIndependence

set_option autoImplicit false

namespace LittleComputer

inductive Request where
  | issue
  | cancel (token : Token)
  | send (text : List Char)
  | closeSender
  | closeReceiver
  | drainOutput
  | awaitOutput
  | setSource (line : Line)
  | setSink (line : Line)
  | loadMemory (memory : Memory)
  | loadRegisters (registers : Registers)
  | reset

def Request.act (request : Request) (machine : Machine) : Machine :=
  match request with
  | .issue => machine.issue.2
  | .cancel token => machine.fire token
  | .send text => (machine.send text).2
  | .closeSender => machine.closeSender
  | .closeReceiver => machine.closeReceiver
  | .drainOutput => machine.drainOutput.2
  | .awaitOutput => machine.awaitOutput
  | .setSource line => machine.setSource line
  | .setSink line => machine.setSink line
  | .loadMemory memory => machine.loadMemory memory
  | .loadRegisters registers => machine.loadRegisters registers
  | .reset => machine.reset

structure Crowd where
  machine : Machine
  calls : List RunCall := []

inductive Move where
  | start (token : Token)
  | main (index : Nat)
  | drain (index : Nat)
  | markStopped
  | fireSlot
  | host (request : Request)

namespace Crowd

def turn (turned : RunCall → Machine → Machine × Option RunCall) (index : Nat) (crowd : Crowd) : Crowd :=
  match crowd.calls[index]? with
  | none => crowd
  | some call =>
      match turned call crowd.machine with
      | (machine, next) => { machine, calls := crowd.calls.set index (next.getD call) }

def act (crowd : Crowd) : Move → Crowd
  | .start token =>
      match RunCall.claim token crowd.machine with
      | (machine, call) => { machine, calls := crowd.calls ++ [call] }
  | .main index => crowd.turn RunCall.mainTurn index
  | .drain index => crowd.turn RunCall.drainTurn index
  | .markStopped => { crowd with machine := { crowd.machine with panel := crowd.machine.panel.markStopped } }
  | .fireSlot => { crowd with machine := { crowd.machine with panel := crowd.machine.panel.fireSlot } }
  | .host request => { crowd with machine := request.act crowd.machine }

def run (crowd : Crowd) (moves : List Move) : Crowd := moves.foldl act crowd

end Crowd

structure Panel.Holds (panel : Panel) (token : Token) : Prop where
  mode : panel.mode = .running
  slot : panel.slot = some token

theorem holds_same (before after : Panel) (token : Token) (holds : before.Holds token) (mode : after.mode = before.mode)
    (slot : after.slot = before.slot) : after.Holds token :=
  ⟨mode.trans holds.mode, slot.trans holds.slot⟩

theorem request_same (request : Request) (machine : Machine) :
    (request.act machine).panel.mode = machine.panel.mode ∧ (request.act machine).panel.slot = machine.panel.slot := by
  cases request with
  | send text =>
      simp only [Request.act, Machine.send]
      cases machine.panel.source <;> exact ⟨rfl, rfl⟩
  | drainOutput =>
      simp only [Request.act, Machine.drainOutput]
      cases machine.panel.sink <;> exact ⟨rfl, rfl⟩
  | _ => exact ⟨rfl, rfl⟩

theorem drain_turn_run (token : Token) (drain : Drain) (panel : Panel) : panel.SameRun (drain.turn token panel).1 := by
  cases drain with
  | check =>
      simp only [Drain.turn]
      cases panel.isFired token <;> exact ⟨rfl, rfl, rfl⟩
  | receive =>
      have same := panel.take_char_run
      unfold Drain.turn
      generalize panel.takeChar = answer at same ⊢
      rcases answer with ⟨_ | _ | _, after⟩
      · exact same
      · dsimp only at same ⊢
        cases after.isFired token <;> exact same
      · exact ⟨same.mode, same.slot, same.signals⟩
  | idle =>
      simp only [Drain.turn]
      cases panel.isFired token <;> exact ⟨rfl, rfl, rfl⟩
  | _ => exact ⟨rfl, rfl, rfl⟩

namespace Execution

-- The run has stopped the machine, though its call has yet to return.
def Phase.hasStopped : Phase → Bool
  | .attempt (.done (.ok .halted)) => true
  | .stopping .halted => true
  | .ended _ => true
  | _ => false

theorem has_stopped_attempt (attempt : Attempt) (past : (Phase.attempt attempt).hasStopped = true) :
    attempt = .done (.ok .halted) := by
  unfold Phase.hasStopped at past
  split at past
  · rename_i same
    exact Phase.attempt.inj same
  · rename_i same
    cases same
  · rename_i same
    cases same
  · cases past

theorem has_stopped_turn (token : Token) (execution next : Execution) (machine later : Machine)
    (turned : execution.turn token machine = (later, some next)) (past : execution.phase.hasStopped = true) :
    next.phase.hasStopped = true := by
  rcases execution with ⟨steps, phase⟩
  cases phase with
  | check => cases past
  | attempt attempt =>
      obtain rfl := has_stopped_attempt attempt past
      cases turned
      rfl
  | stopping ending =>
      cases turned
      rfl
  | ended ending => cases turned

theorem turn_same (token : Token) (execution : Execution) (machine : Machine)
    (going : ((execution.turn token machine).2.getD execution).phase.hasStopped = false) :
    (execution.turn token machine).1.panel.mode = machine.panel.mode ∧
      (execution.turn token machine).1.panel.slot = machine.panel.slot := by
  rcases execution with ⟨steps, phase⟩
  cases phase with
  | check => exact ⟨rfl, rfl⟩
  | attempt attempt =>
      obtain ⟨result, rfl⟩ | goes := Call.execution_turn_cases token steps attempt machine
      · have kept := (Call.conclude_keeps steps result machine).1
        exact ⟨congrArg Panel.mode kept, congrArg Panel.slot kept⟩
      · rw [goes] at going ⊢
        obtain same | halted := (Attempt.turn_keeps token attempt machine).2
        · exact ⟨same.mode, same.slot⟩
        · rw [halted] at going
          cases going
  | stopping ending => cases going
  | ended ending => exact ⟨rfl, rfl⟩

theorem turn_stops (token : Token) (execution next : Execution) (machine later : Machine)
    (turned : execution.turn token machine = (later, some next)) (before : execution.phase.hasStopped = false)
    (after : next.phase.hasStopped = true) : later.panel.mode = .stopped := by
  rcases execution with ⟨steps, phase⟩
  cases phase with
  | check =>
      cases turned
      dsimp only at after
      split at after <;> cases after
  | attempt attempt =>
      obtain ⟨result, rfl⟩ | goes := Call.execution_turn_cases token steps attempt machine
      · obtain rfl : next = (conclude steps result machine).2 := (Option.some.inj (congrArg Prod.snd turned)).symm
        rcases result with fault | _ | _ | _ | _
        · unfold conclude at after
          cases policy : machine.config.policy <;> rw [policy] at after <;> cases after
        · cases after
        · cases before
        · cases after
        · cases after
      · obtain ⟨rfl, found⟩ := Prod.mk.inj (goes.symm.trans turned)
        obtain ⟨reached, same, rfl⟩ := Option.map_eq_some_iff.mp found
        obtain rfl := has_stopped_attempt reached after
        exact attempt.turn_halts token machine _ (Prod.ext rfl same)
  | stopping ending =>
      cases turned
      rfl
  | ended ending => cases before

end Execution

namespace RunCall

def token? : RunCall → Option Token
  | .entering token => some token
  | .active token _ _ => some token
  | .returned _ => none

def going : RunCall → Bool
  | .entering _ => true
  | .active _ execution _ => !execution.phase.hasStopped
  | .returned _ => false

structure GoesOn (call next : RunCall) (before after : Panel) : Prop where
  going : call.going = true
  token : next.token? = call.token?
  mode : after.mode = before.mode
  slot : after.slot = before.slot

theorem active_goes_on (token : Token) (execution : Execution) (drain : Drain) (machine : Machine)
    (going : ((execution.turn token machine).2.getD execution).phase.hasStopped = false) :
    GoesOn (.active token execution drain) (.active token ((execution.turn token machine).2.getD execution) drain)
      machine.panel (execution.turn token machine).1.panel := by
  obtain ⟨mode, slot⟩ := Execution.turn_same token execution machine going
  refine ⟨?_, rfl, mode, slot⟩
  rcases turned : execution.turn token machine with ⟨later, _ | next⟩ <;> rw [turned] at going
  · exact congrArg Bool.not going
  · refine congrArg Bool.not (Bool.eq_false_iff.mpr fun past => ?_)
    rw [Option.getD_some, Execution.has_stopped_turn token execution next machine later turned past] at going
    cases going

theorem main_goes_on (call : RunCall) (machine : Machine) (going : ((call.mainTurn machine).2.getD call).going = true) :
    GoesOn call ((call.mainTurn machine).2.getD call) machine.panel (call.mainTurn machine).1.panel := by
  unfold mainTurn at going ⊢
  split at going
  · rename_i token
    have taken := machine.panel.take_source_run
    simp only [enter]
    generalize machine.panel.takeSource = answer at taken ⊢
    exact ⟨rfl, rfl, taken.mode, taken.slot⟩
  · cases going
  · rename_i token execution drain apart
    have goes := active_goes_on token execution drain machine
    rcases turned : execution.turn token machine with ⟨later, _ | next⟩ <;> rw [turned] at going goes
    · exact goes (Bool.not_eq_true' _ |>.mp going)
    · exact goes (Bool.not_eq_true' _ |>.mp going)
  · cases going

theorem main_stops (call : RunCall) (machine : Machine) (on : call.going = true)
    (off : ((call.mainTurn machine).2.getD call).going = false) :
    (call.mainTurn machine).1.panel.mode = .stopped ∧ ((call.mainTurn machine).2.getD call).token? = call.token? := by
  unfold mainTurn at off ⊢
  split at off
  · cases off
  · cases on
  · rename_i token execution drain apart
    have before : execution.phase.hasStopped = false := Bool.not_eq_true' _ |>.mp on
    rcases turned : execution.turn token machine with ⟨later, _ | next⟩ <;> rw [turned] at off
    · cases on.symm.trans off
    · have past : next.phase.hasStopped = true := Bool.not_eq_false' _ |>.mp off
      exact ⟨Execution.turn_stops token execution next machine later turned before past, rfl⟩
  · cases on

theorem drain_goes_on (call : RunCall) (machine : Machine)
    (going : ((call.drainTurn machine).2.getD call).going = true) :
    GoesOn call ((call.drainTurn machine).2.getD call) machine.panel (call.drainTurn machine).1.panel := by
  unfold drainTurn at going ⊢
  split at going
  · rename_i token execution drain
    have same := drain_turn_run token drain machine.panel
    rcases turned : drain.turn token machine.panel with ⟨after, _ | next⟩ <;> rw [turned] at going same
    · exact ⟨going, rfl, same.mode, same.slot⟩
    · exact ⟨going, rfl, same.mode, same.slot⟩
  · exact ⟨going, rfl, rfl, rfl⟩

end RunCall

theorem getElem_concat {α : Type} (list : List α) (last found : α) (index : Nat)
    (member : (list ++ [last])[index]? = some found) :
    list[index]? = some found ∨ (index = list.length ∧ found = last) := by
  rw [List.getElem?_append] at member
  split at member
  · exact .inl member
  · rename_i beyond
    cases offset : index - list.length with
    | zero =>
        rw [offset] at member
        cases member
        exact .inr ⟨by omega, rfl⟩
    | succ offset' =>
        rw [offset] at member
        cases member

namespace Crowd

def GoesOn (crowd : Crowd) (index : Nat) : Prop := ∃ call, crowd.calls[index]? = some call ∧ call.going = true

-- The run of one call is on, and no other call is.
structure Guards (crowd : Crowd) (index : Nat) (token : Token) : Prop where
  holds : crowd.machine.panel.Holds token
  call : ∃ call, crowd.calls[index]? = some call ∧ call.token? = some token
  others : ∀ other call, crowd.calls[other]? = some call → other ≠ index → ∃ report, call = .returned report
  refused : ∀ other call, crowd.calls[other]? = some call → index < other → call = .returned ⟨0, .cancelled⟩

section
variable (turned : RunCall → Machine → Machine × Option RunCall)
  (goes : ∀ call machine, ((turned call machine).2.getD call).going = true →
    call.GoesOn ((turned call machine).2.getD call) machine.panel (turned call machine).1.panel)
include goes

theorem turn_going (crowd : Crowd) (index other : Nat) (on : (crowd.turn turned other).GoesOn index) :
    crowd.GoesOn index := by
  unfold turn at on
  cases found : crowd.calls[other]? with
  | none =>
      rw [found] at on
      exact on
  | some call =>
      rw [found] at on
      obtain ⟨next, same, going⟩ := on
      by_cases own : other = index
      · subst own
        have bound : other < crowd.calls.length := (List.getElem?_eq_some_iff.mp found).1
        rw [List.getElem?_set_self bound] at same
        cases same
        exact ⟨call, found, (goes call crowd.machine going).going⟩
      · rw [List.getElem?_set_ne own] at same
        exact ⟨next, same, going⟩

theorem turn_guards (rests : ∀ report machine, turned (.returned report) machine = (machine, none)) (crowd : Crowd)
    (index other : Nat) (token : Token) (guards : crowd.Guards index token)
    (on : (crowd.turn turned other).GoesOn index) : (crowd.turn turned other).Guards index token := by
  unfold turn at on ⊢
  cases found : crowd.calls[other]? with
  | none => exact guards
  | some call =>
      rw [found] at on
      dsimp only at on ⊢
      have bound : other < crowd.calls.length := (List.getElem?_eq_some_iff.mp found).1
      by_cases own : other = index
      · subst own
        obtain ⟨next, same, going⟩ := on
        rw [List.getElem?_set_self bound] at same
        cases same
        obtain ⟨-, kept, mode, slot⟩ := goes call crowd.machine going
        obtain ⟨known, same, claimed⟩ := guards.call
        cases found.symm.trans same
        have held := List.getElem?_set_self (a := (turned call crowd.machine).2.getD call) bound
        refine ⟨holds_same _ _ token guards.holds mode slot, ⟨_, held, kept.trans claimed⟩, ?_, ?_⟩
        · intro beside call member apart
          rw [List.getElem?_set_ne (Ne.symm apart)] at member
          exact guards.others beside call member apart
        · intro beside call member later
          rw [List.getElem?_set_ne (Nat.ne_of_lt later)] at member
          exact guards.refused beside call member later
      -- all others have returned and do nothing
      · obtain ⟨report, rfl⟩ := guards.others other call found own
        have same : crowd.calls.set other (.returned report) = crowd.calls := by
          obtain ⟨_, value⟩ := List.getElem?_eq_some_iff.mp found
          rw [← value]
          exact List.set_getElem_self bound
        rw [rests]
        dsimp only [Option.getD_none]
        rw [same]
        exact guards

end

theorem act_going (crowd : Crowd) (move : Move) (index : Nat) (there : index < crowd.calls.length)
    (on : (crowd.act move).GoesOn index) : crowd.GoesOn index := by
  cases move with
  | start token =>
      obtain ⟨call, member, going⟩ := on
      obtain before | ⟨same, -⟩ := getElem_concat crowd.calls _ call index member
      · exact ⟨call, before, going⟩
      · exact absurd same (Nat.ne_of_lt there)
  | main other => exact turn_going RunCall.mainTurn RunCall.main_goes_on crowd index other on
  | drain other => exact turn_going RunCall.drainTurn RunCall.drain_goes_on crowd index other on
  | _ => exact on

theorem act_length (crowd : Crowd) (move : Move) : crowd.calls.length ≤ (crowd.act move).calls.length := by
  have turns (turned : RunCall → Machine → Machine × Option RunCall) (index : Nat) :
      crowd.calls.length ≤ (crowd.turn turned index).calls.length := by
    unfold turn
    cases crowd.calls[index]? with
    | none => exact Nat.le_refl _
    | some call => exact Nat.le_of_eq List.length_set.symm
  cases move with
  | start token =>
      show _ ≤ (crowd.calls ++ [(RunCall.claim token crowd.machine).2]).length
      rw [List.length_append]
      exact Nat.le_add_right _ _
  | main index => exact turns _ index
  | drain index => exact turns _ index
  | _ => exact Nat.le_refl _

theorem start_running (crowd : Crowd) (token : Token) (running : crowd.machine.panel.mode = .running) :
    crowd.act (.start token) = { crowd with calls := crowd.calls ++ [.returned ⟨0, .cancelled⟩] } := by
  simp only [act, RunCall.claim, running]

theorem start_stopped (crowd : Crowd) (token : Token) (stopped : crowd.machine.panel.mode = .stopped) :
    (crowd.act (.start token)).calls = crowd.calls ++ [.entering token] ∧
      (crowd.act (.start token)).machine.panel.Holds token := by
  unfold act RunCall.claim
  rw [stopped]
  exact ⟨rfl, rfl, rfl⟩

theorem act_guards (crowd : Crowd) (move : Move) (index : Nat) (token : Token) (guards : crowd.Guards index token)
    (unstopped : move ≠ .markStopped) (on : (crowd.act move).GoesOn index) : (crowd.act move).Guards index token := by
  have beside (machine : Machine) (mode : machine.panel.mode = crowd.machine.panel.mode)
      (slot : machine.panel.slot = crowd.machine.panel.slot) : Guards { crowd with machine } index token :=
    ⟨holds_same _ _ token guards.holds mode slot, guards.call, guards.others, guards.refused⟩
  cases move with
  | start other =>
      rw [start_running crowd other guards.holds.mode]
      obtain ⟨call, member, claimed⟩ := guards.call
      refine ⟨guards.holds, ⟨call, ?_, claimed⟩, ?_, ?_⟩
      · rw [List.getElem?_append_left (List.getElem?_eq_some_iff.mp member).1]
        exact member
      · intro beside call member apart
        obtain before | ⟨-, rfl⟩ := getElem_concat crowd.calls _ call beside member
        · exact guards.others beside call before apart
        · exact ⟨_, rfl⟩
      · intro beside call member later
        obtain before | ⟨-, rfl⟩ := getElem_concat crowd.calls _ call beside member
        · exact guards.refused beside call before later
        · rfl
  | main other => exact turn_guards _ RunCall.main_goes_on (fun _ _ => rfl) crowd index other token guards on
  | drain other => exact turn_guards _ RunCall.drain_goes_on (fun _ _ => rfl) crowd index other token guards on
  | markStopped => exact absurd rfl unstopped
  | fireSlot =>
      have kept : crowd.machine.panel.fireSlot.mode = crowd.machine.panel.mode ∧
          crowd.machine.panel.fireSlot.slot = crowd.machine.panel.slot := by
        rw [Panel.fireSlot, guards.holds.slot]
        exact ⟨rfl, guards.holds.slot⟩
      exact beside _ kept.1 kept.2
  | host request => exact beside _ (request_same request crowd.machine).1 (request_same request crowd.machine).2

theorem run_going (crowd : Crowd) (moves : List Move) (index : Nat) (there : index < crowd.calls.length)
    (on : (crowd.run moves).GoesOn index) : crowd.GoesOn index := by
  induction moves generalizing crowd with
  | nil => exact on
  | cons move rest ih =>
      exact act_going crowd move index there (ih (crowd.act move) (Nat.lt_of_lt_of_le there (act_length crowd move)) on)

theorem run_guards (crowd : Crowd) (moves : List Move) (index : Nat) (token : Token) (guards : crowd.Guards index token)
    (unstopped : .markStopped ∉ moves) (on : (crowd.run moves).GoesOn index) :
    (crowd.run moves).Guards index token := by
  induction moves generalizing crowd with
  | nil => exact guards
  | cons move rest ih =>
      obtain ⟨call, member, -⟩ := guards.call
      have there := (List.getElem?_eq_some_iff.mp member).1
      -- a run that is on at the end has been on after every move
      have now := run_going (crowd.act move) rest index (Nat.lt_of_lt_of_le there (act_length crowd move)) on
      have other : move ≠ .markStopped := fun same => unstopped (same ▸ List.mem_cons_self)
      exact ih (crowd.act move) (act_guards crowd move index token guards other now)
        (fun member => unstopped (List.mem_cons_of_mem move member)) on

theorem claimed_guards (crowd : Crowd) (token : Token) (stopped : crowd.machine.panel.mode = .stopped)
    (idle : ∀ call ∈ crowd.calls, ∃ report, call = .returned report) :
    (crowd.act (.start token)).Guards crowd.calls.length token := by
  obtain ⟨calls, holds⟩ := start_stopped crowd token stopped
  refine ⟨holds, ⟨.entering token, ?_, rfl⟩, ?_, ?_⟩
  · rw [calls, List.getElem?_concat_length]
  · intro other call member apart
    rw [calls] at member
    obtain before | ⟨same, -⟩ := getElem_concat crowd.calls _ call other member
    · exact idle call (List.mem_of_getElem? before)
    · exact absurd same apart
  · intro other call member later
    rw [calls] at member
    obtain before | ⟨same, -⟩ := getElem_concat crowd.calls _ call other member
    · exact absurd (List.getElem?_eq_some_iff.mp before).1 (Nat.lt_asymm later)
    · exact absurd same (Nat.ne_of_gt later)

structure Sole (crowd : Crowd) (index : Nat) (token : Token) : Prop where
  refuses : ∀ other, crowd.act (.start other) = { crowd with calls := crowd.calls ++ [.returned ⟨0, .cancelled⟩] }
  others : ∀ other call, crowd.calls[other]? = some call → other ≠ index → ∃ report, call = .returned report
  refused : ∀ other call, crowd.calls[other]? = some call → index < other → call = .returned ⟨0, .cancelled⟩
  stoppable : crowd.machine.panel.stop.isFired token = true

theorem guards_sole (crowd : Crowd) (index : Nat) (token : Token) (guards : crowd.Guards index token) :
    crowd.Sole index token := by
  refine ⟨fun other => crowd.start_running other guards.holds.mode, guards.others, guards.refused, ?_⟩
  have slot : crowd.machine.panel.markStopped.slot = some token := guards.holds.slot
  rw [Panel.stop, Panel.fireSlot, slot]
  exact Panel.fire_fired _ token

/-- A run is the only one as long as nobody stops the machine. The first half of a stop lets the next start call in, and
so does the run when it stops the machine itself, both before the call has returned. -/
theorem sole_until_stopped (crowd : Crowd) (token : Token) (moves : List Move)
    (idle : ∀ call ∈ crowd.calls, ∃ report, call = .returned report) (stopped : crowd.machine.panel.mode = .stopped)
    (unstopped : .markStopped ∉ moves)
    (going : ((crowd.act (.start token)).run moves).GoesOn crowd.calls.length) :
    let index := crowd.calls.length
    let later := (crowd.act (.start token)).run moves
    later.Sole index token ∧
      (∀ other, ((later.act .markStopped).act (.start other)).calls = later.calls ++ [.entering other]) ∧
      (¬ (later.act (.main index)).GoesOn index →
        (∃ call, (later.act (.main index)).calls[index]? = some call ∧ call.token? = some token) ∧
          ∀ other, ((later.act (.main index)).act (.start other)).calls =
            (later.act (.main index)).calls ++ [.entering other]) := by
  intro index later
  have guards : later.Guards index token :=
    run_guards _ moves index token (claimed_guards crowd token stopped idle) unstopped going
  refine ⟨guards_sole later index token guards, fun other => (start_stopped (later.act .markStopped) other rfl).1, ?_⟩
  intro past
  obtain ⟨call, found, on⟩ := going
  change later.calls[index]? = some call at found
  have bound : index < later.calls.length := (List.getElem?_eq_some_iff.mp found).1
  have turned : later.act (.main index) =
      ⟨(call.mainTurn later.machine).1, later.calls.set index ((call.mainTurn later.machine).2.getD call)⟩ := by
    simp only [act, turn, found]
  have held : (later.act (.main index)).calls[index]? = some ((call.mainTurn later.machine).2.getD call) := by
    rw [turned, List.getElem?_set_self bound]
  have off : ((call.mainTurn later.machine).2.getD call).going = false :=
    Bool.eq_false_iff.mpr fun goes => past ⟨_, held, goes⟩
  -- the turn that takes the run past its end has stopped the machine
  obtain ⟨mode, same⟩ := call.main_stops later.machine on off
  obtain ⟨known, member, claimed⟩ := guards.call
  cases found.symm.trans member
  refine ⟨⟨_, held, same.trans claimed⟩, fun other => (start_stopped (later.act (.main index)) other ?_).1⟩
  rw [turned]
  exact mode

def supplied : Machine := { panel := { signals := { issued := 2 } } }

def halting : Machine :=
  { supplied with
    core.memory := (Memory.zero.write 0 0xF025).write 1 0xF020
    panel.source := some { capacity := 1 } }

def overlap : List Move :=
  [.start ⟨0⟩, .main 0, .drain 0] ++ List.replicate 6 (.main 0) ++ [.start ⟨1⟩] ++ List.replicate 7 (.main 1) ++
    [.drain 1, .main 1]

def abreast : List Move :=
  [.start ⟨0⟩, .main 0, .main 0, .markStopped, .fireSlot, .start ⟨1⟩, .main 1] ++ List.replicate 4 (.main 0) ++
    List.replicate 5 (.main 1)

def parting : List Move := [.main 0, .main 0, .drain 0, .main 0, .markStopped, .fireSlot]

-- A start call is let in after the HALT of a run that has not returned, and after a stop while the other run still
-- executes. When that one returns, no stop reaches the new one any more.
example :
    ((Crowd.mk halting []).run overlap).calls =
        [.active ⟨0⟩ ⟨1, .ended .halted⟩ .receive, .returned ⟨0, .inputClosed⟩] ∧
      ((Crowd.mk supplied []).run abreast).calls =
        [.active ⟨0⟩ ⟨1, .check⟩ .idle, .active ⟨1⟩ ⟨1, .check⟩ .idle] ∧
      ((Crowd.mk supplied []).run (abreast ++ parting)).calls =
        [.returned ⟨1, .cancelled⟩, .active ⟨1⟩ ⟨1, .check⟩ .idle] ∧
      ((Crowd.mk supplied []).run (abreast ++ parting)).machine.panel.isFired ⟨1⟩ = false :=
  ⟨rfl, rfl, rfl, rfl⟩

end Crowd

end LittleComputer
