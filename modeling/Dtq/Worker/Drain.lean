import Mathlib.Data.List.Count
import Mathlib.Data.PNat.Basic
import Dtq.Lib.Indexed
import Dtq.Lib.Transition

/-!
# Draining a worker

The event loop of one `WorkerLoop`: the poll loop and the reclaim loop, the `_process_message`
tasks they start, and calls of `drain()` and `stop()`. Control changes hands only at an `await`,
so a step is what one party does from the end of one `await` to the next; `Semaphore.acquire`
is no such point while a slot is free. What the broker answers is chosen by the label.

Both loops look at the running flag at the top of an iteration only, and `drain` waits for the
tasks that are in flight when it is called.

## Main results

* `WorkerLoop.sealed_of_reaches` — the calm runs, in which a drained worker stays drained
* `WorkerLoop.drained_iff_calm` — and the steps that take the others out of them
-/

set_option autoImplicit false

namespace Dtq

open Transition

/-- A `_process_message` task: created and not finished, finished, or finished and gone from
`_in_flight`. -/
inductive TaskStatus
  | live
  | finished
  | discarded
deriving DecidableEq

/-- Where `_poll_loop` waits. `rest` are the queues left in this pass; of `more + 1` messages in
hand the first one waits for a slot. -/
inductive PollPc
  /-- the sleep before the next pass, or before the first one -/
  | idle
  /-- the sleep after a full semaphore or a failed `lease` -/
  | paused (rest : List String)
  /-- `lease` of at most `batchSize` messages -/
  | leasing (batchSize : ℕ) (rest : List String)
  | acquiring (more : ℕ) (rest : List String)
  | ended
deriving DecidableEq

/-- Where `_reclaim_loop` waits. -/
inductive ReclaimPc
  | sleeping
  | reclaiming (rest : List String)
  /-- the session that closes the prior attempt of the first of `more + 1` messages -/
  | closingPrior (more : ℕ) (rest : List String)
  | acquiring (more : ℕ) (rest : List String)
  | ended
deriving DecidableEq

/-- Where a call of `drain()` or `stop()` waits: for the tasks it found in flight, or, in `stop()`,
for `broker.close()`. -/
inductive ShutdownPc
  | gathering (inFlight : List ℕ)
  | closingBroker
  | returned
deriving DecidableEq

/-- A call of `stop()`, or else of `drain()`. -/
structure Shutdown where
  stops : Bool
  pc : ShutdownPc
deriving DecidableEq

/-- The worker: `_queues`, `_running`, the value of `_semaphore`, the tasks ever created, and
where everybody waits. -/
structure WorkerLoop where
  queues : List String
  running : Bool := true
  semaphore : ℕ
  tasks : List TaskStatus := []
  poll : PollPc := .idle
  reclaim : ReclaimPc := .sleeping
  shutdowns : List Shutdown := []
deriving DecidableEq

/-- Who goes on, and what it was waiting for. -/
inductive LoopEvent
  /-- the poll loop: a sleep is over, or a slot is free -/
  | pollWakes
  | leased (messages : ℕ)
  | leaseRaised
  /-- the reclaim loop: a sleep is over, or a slot is free -/
  | reclaimWakes
  | reclaimed (messages : ℕ)
  | reclaimRaised
  | priorClosed
  | closePriorRaised
  /-- a task ends and releases its slot -/
  | finish (i : ℕ)
  /-- its done-callback runs -/
  | discard (i : ℕ)
  /-- SIGTERM or SIGINT -/
  | signal
  | shutdown (stops : Bool)
  | shutdownWakes (j : ℕ)
deriving DecidableEq

namespace WorkerLoop

variable (w : WorkerLoop)

/-- `for queue in self._queues` of the poll loop, and the end of its pass. -/
def continuePoll : List String → WorkerLoop
  -- `self._running` is looked at only when all queues have had their turn
  | [] => if w.running then { w with poll := .idle } else { w with poll := .ended }
  | _ :: rest =>
    -- without a slot the queue is passed over, after a sleep
    if w.semaphore = 0 then { w with poll := .paused rest }
    else { w with poll := .leasing (min w.semaphore 5) rest }

/-- `create_task` with the slot that was acquired. -/
def createTask : WorkerLoop :=
  { w with semaphore := w.semaphore - 1, tasks := w.tasks ++ [.live] }

/-- `for msg in messages` of the poll loop. -/
def startMessages (w : WorkerLoop) (rest : List String) : ℕ → WorkerLoop
  | 0 => w.continuePoll rest
  | more + 1 =>
    if w.semaphore = 0 then { w with poll := .acquiring more rest }
    else w.createTask.startMessages rest more

/-- `for queue in self._queues` of the reclaim loop; the sleep follows in any case. -/
def continueReclaim : List String → WorkerLoop
  | [] => { w with reclaim := .sleeping }
  | _ :: rest => { w with reclaim := .reclaiming rest }

/-- `for msg in reclaimed`. -/
def nextReclaimed (rest : List String) : ℕ → WorkerLoop
  | 0 => w.continueReclaim rest
  | more + 1 => { w with reclaim := .closingPrior more rest }

/-- The prior attempt is closed; start the message if a slot is free. -/
def startReclaimed (more : ℕ) (rest : List String) : WorkerLoop :=
  if w.semaphore = 0 then { w with reclaim := .acquiring more rest }
  else w.createTask.nextReclaimed rest more

/-- `self._in_flight`. -/
def inFlight : List ℕ :=
  (List.range w.tasks.length).filter fun i => w.tasks[i]? ≠ some .discarded

/-- After the `gather`, or when there was nothing to wait for. -/
def afterGather (stops : Bool) : ShutdownPc := if stops then .closingBroker else .returned

/-- `drain()` or `stop()` up to its first `await`. -/
def callShutdown (stops : Bool) : WorkerLoop :=
  { w with
    running := false
    shutdowns := w.shutdowns ++
      [⟨stops, if w.inFlight = [] then afterGather stops else .gathering w.inFlight⟩] }

/-- What a call of `drain()` or `stop()` does when what it waits for is done. -/
def wakeShutdown (call : Shutdown) : Option Shutdown :=
  match call.pc with
  | .gathering inFlight =>
    if ∀ i ∈ inFlight, w.tasks[i]? ≠ some .live then
      some { call with pc := afterGather call.stops }
    else none
  | .closingBroker => some { call with pc := .returned }
  | .returned => none

/-- One party goes on until its next `await`. -/
def step (w : WorkerLoop) : LoopEvent → Option WorkerLoop
  | .pollWakes =>
    match w.poll with
    | .idle =>
      some (if w.running then w.continuePoll w.queues else { w with poll := .ended })
    | .paused rest => some (w.continuePoll rest)
    | .acquiring more rest =>
      if w.semaphore = 0 then none else some (w.createTask.startMessages rest more)
    | .leasing _ _ | .ended => none
  | .leased messages =>
    match w.poll with
    -- `self._running` is not looked at again before the messages are started
    | .leasing batchSize rest =>
      if messages ≤ batchSize then some (w.startMessages rest messages) else none
    | _ => none
  | .leaseRaised =>
    match w.poll with
    -- the error is logged, and the loop sleeps before the next queue
    | .leasing _ rest => some { w with poll := .paused rest }
    | _ => none
  | .reclaimWakes =>
    match w.reclaim with
    | .sleeping =>
      some (if w.running then w.continueReclaim w.queues else { w with reclaim := .ended })
    | .acquiring more rest =>
      if w.semaphore = 0 then none else some (w.createTask.nextReclaimed rest more)
    | _ => none
  | .reclaimed messages =>
    match w.reclaim with
    | .reclaiming rest => if messages ≤ 5 then some (w.nextReclaimed rest messages) else none
    | _ => none
  | .reclaimRaised =>
    match w.reclaim with
    | .reclaiming rest => some (w.continueReclaim rest)
    | _ => none
  | .priorClosed =>
    match w.reclaim with
    | .closingPrior more rest => some (w.startReclaimed more rest)
    | _ => none
  | .closePriorRaised =>
    match w.reclaim with
    -- the rest of the batch is dropped
    | .closingPrior _ rest => some (w.continueReclaim rest)
    | _ => none
  | .finish i =>
    if w.tasks[i]? = some .live then
      some { w with semaphore := w.semaphore + 1, tasks := w.tasks.set i .finished }
    else none
  | .discard i =>
    if w.tasks[i]? = some .finished then some { w with tasks := w.tasks.set i .discarded } else none
  | .signal => some { w with running := false }
  | .shutdown stops => some (w.callShutdown stops)
  -- the `gather` waits for the tasks that were in flight when it was called
  | .shutdownWakes j =>
    w.shutdowns[j]?.bind fun call =>
      (w.wakeShutdown call).map fun call => { w with shutdowns := w.shutdowns.set j call }

/-- A worker that starts. `ThreadPoolExecutor` refuses a concurrency of zero. -/
def start (queues : List String) (concurrency : ℕ+) : WorkerLoop :=
  { queues := queues, semaphore := concurrency }

/-- A loop has messages in hand that it has not started. -/
def Holds : Prop :=
  (∃ more rest, w.poll = .acquiring more rest) ∨
    ∃ more rest, w.reclaim = .closingPrior more rest ∨ w.reclaim = .acquiring more rest

/-- Once a `drain()` or `stop()` has returned, no `_process_message` is running. -/
def Drained : Prop :=
  (∃ call ∈ w.shutdowns, call.pc = .returned) → TaskStatus.live ∉ w.tasks

/-- `drain()` and `stop()` are called while no loop has messages in hand, and after a call the
broker returns none. -/
def Calm (w : WorkerLoop) : LoopEvent → Prop
  | .shutdown _ => ¬ w.Holds
  | .leased messages | .reclaimed messages => w.shutdowns = [] ∨ messages = 0
  | _ => True

/-- `PollPc` and `ReclaimPc` with messages in hand. -/
def holds : Bool :=
  (match w.poll with
    | .acquiring _ _ => true
    | _ => false) ||
  match w.reclaim with
  | .closingPrior _ _ | .acquiring _ _ => true
  | _ => false

theorem holds_iff : w.holds = true ↔ w.Holds := by
  cases hpoll : w.poll <;> cases hreclaim : w.reclaim <;> simp [holds, Holds, hpoll, hreclaim]

instance : Decidable w.Holds := decidable_of_iff _ w.holds_iff

instance : Decidable w.Drained := inferInstanceAs (Decidable (_ → _))

instance (event : LoopEvent) : Decidable (w.Calm event) := by
  cases event <;> unfold Calm <;> infer_instance

/-! ### What a step does -/

variable {w} {w' : WorkerLoop} {event : LoopEvent} {rest : List String}

theorem continuePoll_eq (w : WorkerLoop) (rest : List String) :
    ∃ p, (∀ more r, p ≠ .acquiring more r) ∧ w.continuePoll rest = { w with poll := p } := by
  cases rest with
  | nil =>
    by_cases hrunning : w.running = true
    · exact ⟨.idle, by simp, by simp [continuePoll, hrunning]⟩
    · exact ⟨.ended, by simp, by simp [continuePoll, hrunning]⟩
  | cons queue rest =>
    by_cases hfull : w.semaphore = 0
    · exact ⟨.paused rest, by simp, by simp [continuePoll, hfull]⟩
    · exact ⟨.leasing (min w.semaphore 5) rest, by simp, by simp [continuePoll, hfull]⟩

theorem continueReclaim_eq (w : WorkerLoop) (rest : List String) :
    ∃ r, (∀ more q, r ≠ .closingPrior more q ∧ r ≠ .acquiring more q) ∧
      w.continueReclaim rest = { w with reclaim := r } := by
  cases rest with
  | nil => exact ⟨.sleeping, by simp, rfl⟩
  | cons queue rest => exact ⟨.reclaiming rest, by simp, rfl⟩

/-- The poll loop starts messages as long as there are slots. -/
theorem startMessages_eq (w : WorkerLoop) (rest : List String) (messages : ℕ) :
    ∃ k p, k ≤ w.semaphore ∧
      (k = messages ∧ (∀ more r, p ≠ .acquiring more r) ∨
        k < messages ∧ ∃ more r, p = .acquiring more r) ∧
      w.startMessages rest messages =
        { w with
          semaphore := w.semaphore - k
          tasks := w.tasks ++ List.replicate k .live
          poll := p } := by
  induction messages generalizing w with
  | zero =>
    obtain ⟨p, hp, heq⟩ := w.continuePoll_eq rest
    exact ⟨0, p, Nat.zero_le _, Or.inl ⟨rfl, hp⟩, by simpa [startMessages] using heq⟩
  | succ more ih =>
    rw [startMessages]
    split_ifs with hfull
    · exact ⟨0, .acquiring more rest, Nat.zero_le _, Or.inr ⟨by omega, more, rest, rfl⟩, by simp⟩
    · -- one slot goes to this message, the others as the induction says
      obtain ⟨k, p, hk, hcases, heq⟩ := ih w.createTask
      simp only [createTask] at hk heq
      refine ⟨k + 1, p, by omega, ?_, ?_⟩
      · rcases hcases with ⟨rfl, hp⟩ | ⟨hlt, hp⟩
        · exact Or.inl ⟨rfl, hp⟩
        · exact Or.inr ⟨by omega, hp⟩
      · rw [show w.createTask = { w with
            semaphore := w.semaphore - 1, tasks := w.tasks ++ [.live] } from rfl, heq]
        simp only [List.append_assoc, List.singleton_append, ← List.replicate_succ]
        congr 1
        omega

/-- What a step makes of a worker: a loop goes on and starts `k` tasks, a task ends or is
discarded, or a call of `drain()` or `stop()` is made or goes on. -/
inductive Moves (w : WorkerLoop) : LoopEvent → WorkerLoop → Prop
  | loops {event : LoopEvent} {k : ℕ} {p : PollPc} {r : ReclaimPc} (hk : k ≤ w.semaphore)
      (hquiet : ¬ w.Holds → (∀ n, event = .leased n ∨ event = .reclaimed n → n = 0) →
        k = 0 ∧ ¬ ({ w with poll := p, reclaim := r } : WorkerLoop).Holds) :
      Moves w event
        { w with
          semaphore := w.semaphore - k
          tasks := w.tasks ++ List.replicate k .live
          poll := p
          reclaim := r }
  | finished {i : ℕ} (htask : w.tasks[i]? = some .live) :
      Moves w (.finish i)
        { w with semaphore := w.semaphore + 1, tasks := w.tasks.set i .finished }
  | discarded {i : ℕ} (htask : w.tasks[i]? = some .finished) :
      Moves w (.discard i) { w with tasks := w.tasks.set i .discarded }
  | signalled : Moves w .signal { w with running := false }
  | shutdown {stops : Bool} : Moves w (.shutdown stops) (w.callShutdown stops)
  | woken {j : ℕ} {call call' : Shutdown} (hcall : w.shutdowns[j]? = some call)
      (hwake : w.wakeShutdown call = some call') :
      Moves w (.shutdownWakes j) { w with shutdowns := w.shutdowns.set j call' }

/-- A loop that starts nothing. -/
theorem Moves.of_none {p : PollPc} {r : ReclaimPc}
    (hquiet : ¬ w.Holds → (∀ n, event = .leased n ∨ event = .reclaimed n → n = 0) →
      ¬ ({ w with poll := p, reclaim := r } : WorkerLoop).Holds) :
    w.Moves event { w with poll := p, reclaim := r } := by
  have hmove : w.Moves event
      { w with
        semaphore := w.semaphore - 0
        tasks := w.tasks ++ List.replicate 0 .live
        poll := p
        reclaim := r } :=
    .loops (Nat.zero_le _) fun hnot hevent => ⟨rfl, hquiet hnot hevent⟩
  simpa using hmove

/-- A loop that starts nothing and takes nothing in hand. -/
theorem Moves.of_quiet {p : PollPc} {r : ReclaimPc}
    (hp : p = w.poll ∨ ∀ more q, p ≠ .acquiring more q)
    (hr : r = w.reclaim ∨ ∀ more q, r ≠ .closingPrior more q ∧ r ≠ .acquiring more q) :
    w.Moves event { w with poll := p, reclaim := r } := by
  refine .of_none fun hnot _ => ?_
  rintro (⟨more, q, hacquire⟩ | ⟨more, q, hreclaim⟩)
  · rcases hp with rfl | hp
    · exact hnot (Or.inl ⟨more, q, hacquire⟩)
    · exact hp more q hacquire
  · rcases hr with rfl | hr
    · exact hnot (Or.inr ⟨more, q, hreclaim⟩)
    · exact hreclaim.elim (hr more q).1 (hr more q).2

theorem moves_continuePoll : w.Moves event (w.continuePoll rest) := by
  obtain ⟨p, hp, heq⟩ := w.continuePoll_eq rest
  rw [heq]
  exact .of_quiet (Or.inr hp) (Or.inl rfl)

theorem moves_continueReclaim : w.Moves event (w.continueReclaim rest) := by
  obtain ⟨r, hr, heq⟩ := w.continueReclaim_eq rest
  rw [heq]
  exact .of_quiet (Or.inl rfl) (Or.inr hr)

/-- The poll loop starts messages that it had in hand or was given just now. -/
theorem moves_startMessages {messages : ℕ}
    (h : ¬ w.Holds → (∀ n, event = .leased n ∨ event = .reclaimed n → n = 0) → messages = 0) :
    w.Moves event (w.startMessages rest messages) := by
  obtain ⟨k, p, hk, hcases, heq⟩ := w.startMessages_eq rest messages
  rw [heq]
  refine .loops (r := w.reclaim) hk fun hnot hevent => ?_
  rcases hcases with ⟨rfl, hp⟩ | ⟨hlt, -⟩
  · refine ⟨h hnot hevent, ?_⟩
    rintro (⟨more, q, hacquire⟩ | hreclaim)
    · exact hp more q hacquire
    · exact hnot (Or.inr hreclaim)
  · exact absurd (h hnot hevent) (by omega)

/-- The reclaim loop goes to the next message, or to the next queue. -/
theorem nextReclaimed_eq (w : WorkerLoop) (rest : List String) (messages : ℕ) :
    ∃ r, w.nextReclaimed rest messages = { w with reclaim := r } ∧
      (messages = 0 → ∀ more q, r ≠ .closingPrior more q ∧ r ≠ .acquiring more q) := by
  cases messages with
  | zero =>
    obtain ⟨r, hr, heq⟩ := w.continueReclaim_eq rest
    exact ⟨r, heq, fun _ => hr⟩
  | succ more => exact ⟨.closingPrior more rest, rfl, by simp⟩

/-- The reclaim loop takes in hand the messages that it was given just now. -/
theorem moves_nextReclaimed {messages : ℕ}
    (h : (∀ n, event = .leased n ∨ event = .reclaimed n → n = 0) → messages = 0) :
    w.Moves event (w.nextReclaimed rest messages) := by
  obtain ⟨r, heq, hr⟩ := w.nextReclaimed_eq rest messages
  rw [heq]
  refine .of_none (p := w.poll) fun hnot hevent => ?_
  have hquiet := hr (h hevent)
  rintro (hpoll | ⟨more, q, hholds⟩)
  · exact hnot (Or.inl hpoll)
  · exact hholds.elim (hquiet more q).1 (hquiet more q).2

/-- A message in hand of the reclaim loop gets its slot. -/
theorem moves_createTask_nextReclaimed {more : ℕ} (hfree : w.semaphore ≠ 0) (hholds : w.Holds) :
    w.Moves event (w.createTask.nextReclaimed rest more) := by
  obtain ⟨r, heq, -⟩ := w.createTask.nextReclaimed_eq rest more
  rw [heq]
  have hmove : w.Moves event
      { w with
        semaphore := w.semaphore - 1
        tasks := w.tasks ++ List.replicate 1 .live
        poll := w.poll
        reclaim := r } :=
    .loops (by omega) fun hnot => absurd hholds hnot
  exact hmove

/-- A message in hand of the reclaim loop gets its slot or waits for one. -/
theorem moves_startReclaimed {more : ℕ} (hholds : w.Holds) :
    w.Moves event (w.startReclaimed more rest) := by
  rw [startReclaimed]
  split_ifs with hfull
  · exact .of_none (p := w.poll) fun hnot => absurd hholds hnot
  · exact moves_createTask_nextReclaimed hfull hholds

/-- `WorkerLoop.step` inverted once. -/
theorem moves_of_step (h : w.step event = some w') : w.Moves event w' := by
  have hkeep : ∀ {p : PollPc}, (∀ more q, p ≠ .acquiring more q) →
      w.Moves event { w with poll := p } := fun hp => .of_quiet (Or.inr hp) (Or.inl rfl)
  cases event with
  | pollWakes =>
    simp only [step] at h
    split at h
    · split_ifs at h <;> obtain rfl := Option.some.inj h
      · exact moves_continuePoll
      · exact hkeep (by simp)
    · obtain rfl := Option.some.inj h
      exact moves_continuePoll
    · -- a slot for the first of the messages in hand
      rename_i more rest hpoll
      split_ifs at h with hfull
      obtain rfl := Option.some.inj h
      have hstart : w.startMessages rest (more + 1) = w.createTask.startMessages rest more := by
        rw [startMessages, if_neg hfull]
      rw [← hstart]
      exact moves_startMessages fun hnot => absurd (Or.inl ⟨more, rest, hpoll⟩) hnot
    · exact absurd h (by simp)
    · exact absurd h (by simp)
  | leased messages =>
    simp only [step] at h
    split at h
    · split_ifs at h
      obtain rfl := Option.some.inj h
      exact moves_startMessages fun _ hevent => hevent messages (Or.inl rfl)
    · exact absurd h (by simp)
  | leaseRaised =>
    simp only [step] at h
    split at h
    · obtain rfl := Option.some.inj h
      exact hkeep (by simp)
    · exact absurd h (by simp)
  | reclaimWakes =>
    simp only [step] at h
    split at h
    · split_ifs at h <;> obtain rfl := Option.some.inj h
      · exact moves_continueReclaim
      · exact .of_quiet (Or.inl rfl) (Or.inr (by simp))
    · rename_i more rest hreclaim
      split_ifs at h with hfull
      obtain rfl := Option.some.inj h
      exact moves_createTask_nextReclaimed hfull (Or.inr ⟨more, rest, Or.inr hreclaim⟩)
    · exact absurd h (by simp)
  | reclaimed messages =>
    simp only [step] at h
    split at h
    · split_ifs at h
      obtain rfl := Option.some.inj h
      exact moves_nextReclaimed fun hevent => hevent messages (Or.inr rfl)
    · exact absurd h (by simp)
  | reclaimRaised =>
    simp only [step] at h
    split at h
    · obtain rfl := Option.some.inj h
      exact moves_continueReclaim
    · exact absurd h (by simp)
  | priorClosed =>
    simp only [step] at h
    split at h
    · rename_i more rest hreclaim
      obtain rfl := Option.some.inj h
      exact moves_startReclaimed (Or.inr ⟨more, rest, Or.inl hreclaim⟩)
    · exact absurd h (by simp)
  | closePriorRaised =>
    simp only [step] at h
    split at h
    · obtain rfl := Option.some.inj h
      exact moves_continueReclaim
    · exact absurd h (by simp)
  | finish i =>
    simp only [step] at h
    split_ifs at h with htask
    obtain rfl := Option.some.inj h
    exact .finished htask
  | discard i =>
    simp only [step] at h
    split_ifs at h with htask
    obtain rfl := Option.some.inj h
    exact .discarded htask
  | signal =>
    obtain rfl := Option.some.inj h
    exact .signalled
  | shutdown stops =>
    obtain rfl := Option.some.inj h
    exact .shutdown
  | shutdownWakes j =>
    obtain ⟨call, hcall, hwake⟩ := Option.bind_eq_some_iff.mp h
    obtain ⟨call', hcall', rfl⟩ := Option.map_eq_some_iff.mp hwake
    exact .woken hcall hcall'

/-! ### Calm runs -/

/-- No loop has messages in hand once `drain()` or `stop()` was called, and every call still waits
for every task that runs. -/
def Sealed (w : WorkerLoop) : Prop :=
  ∀ call ∈ w.shutdowns, ¬ w.Holds ∧
    ∀ i, w.tasks[i]? = some .live → ∃ ids, call.pc = .gathering ids ∧ i ∈ ids

theorem Sealed.drained (h : w.Sealed) : w.Drained := by
  rintro ⟨call, hcall, hreturned⟩ hlive
  obtain ⟨i, hi⟩ := List.mem_iff_getElem?.mp hlive
  obtain ⟨ids, hgathering, -⟩ := (h call hcall).2 i hi
  rw [hreturned] at hgathering
  exact absurd hgathering (by simp)

theorem mem_inFlight {i : ℕ} (h : w.tasks[i]? = some .live) : i ∈ w.inFlight := by
  obtain ⟨hlt, -⟩ := List.getElem?_eq_some_iff.mp h
  exact List.mem_filter.mpr ⟨List.mem_range.mpr hlt, by simp [h]⟩

/-- A task that runs after another one has moved on ran before. -/
theorem live_of_set {i j : ℕ} {status : TaskStatus} (hstatus : status ≠ .live)
    (h : (w.tasks.set i status)[j]? = some .live) : w.tasks[j]? = some .live := by
  by_cases hji : j = i
  · subst hji
    exact absurd (Indexed.eq_of_getElem?_set h).symm hstatus
  · rwa [Indexed.getElem?_set_of_ne hji] at h

theorem Sealed.moves (h : w.Sealed) (hcalm : w.Calm event) (hmove : w.Moves event w') :
    w'.Sealed := by
  cases hmove with
  | loops hk hquiet =>
    intro call hcall
    obtain ⟨hnot, hlive⟩ := h call hcall
    have hnone : ∀ n, event = .leased n ∨ event = .reclaimed n → n = 0 := by
      -- there is a call, so the broker returns no messages any more
      have hcalled : w.shutdowns ≠ [] := List.ne_nil_of_mem hcall
      rintro n (rfl | rfl) <;> exact hcalm.resolve_left hcalled
    obtain ⟨rfl, hholds⟩ := hquiet hnot hnone
    refine ⟨hholds, fun i hi => hlive i ?_⟩
    simpa using hi
  | finished htask =>
    intro call hcall
    obtain ⟨hnot, hlive⟩ := h call hcall
    exact ⟨hnot, fun i hi => hlive i (live_of_set (by simp) hi)⟩
  | discarded htask =>
    intro call hcall
    obtain ⟨hnot, hlive⟩ := h call hcall
    exact ⟨hnot, fun i hi => hlive i (live_of_set (by simp) hi)⟩
  | signalled => exact h
  | shutdown =>
    intro call hcall
    rcases List.mem_append.mp hcall with hcall | hcall
    · exact h call hcall
    · -- the new call gathers every task that runs
      obtain rfl := List.mem_singleton.mp hcall
      refine ⟨hcalm, fun i hi => ?_⟩
      have hmem : i ∈ w.inFlight := mem_inFlight hi
      exact ⟨w.inFlight, if_neg (List.ne_nil_of_mem hmem), hmem⟩
  | woken hcall hwake =>
    rename_i j call call'
    have hcallSealed := h call (List.mem_of_getElem? hcall)
    -- a call that goes on had waited for the tasks, so none runs
    have hnone : ∀ i : ℕ, w.tasks[i]? ≠ some TaskStatus.live := by
      intro i hi
      obtain ⟨ids, hgathering, hid⟩ := hcallSealed.2 i hi
      simp only [wakeShutdown, hgathering] at hwake
      split_ifs at hwake with hdone
      exact hdone i hid hi
    intro other hother
    have hmem := List.mem_or_eq_of_mem_set hother
    rcases hmem with hold | rfl
    · exact ⟨(h other hold).1, fun i hi => absurd hi (hnone i)⟩
    · exact ⟨hcallSealed.1, fun i hi => absurd hi (hnone i)⟩

theorem sealed_of_reaches {queues : List String} {concurrency : ℕ+}
    (h : ReachesWhen step Calm (start queues concurrency) w) : w.Sealed :=
  h.invariant (I := Sealed) (fun _ _ _ hu hcalm hstep => hu.moves hcalm (moves_of_step hstep))
    fun call hcall => absurd hcall (by simp [start])

/-! ### Steps that are not calm -/

/-- The slots are free or with a task that runs, and a call waits for tasks there are. -/
structure Counted (concurrency : ℕ) (w : WorkerLoop) : Prop where
  slots : w.semaphore + w.tasks.count .live = concurrency
  known : ∀ call ∈ w.shutdowns, ∀ ids, call.pc = .gathering ids → ∀ i ∈ ids, i < w.tasks.length

theorem Counted.moves {concurrency : ℕ} (h : w.Counted concurrency) (hmove : w.Moves event w') :
    w'.Counted concurrency := by
  obtain ⟨hslots, hknown⟩ := h
  cases hmove with
  | loops hk hquiet =>
    refine ⟨?_, fun call hcall ids hids i hi => ?_⟩
    · simp only [List.count_append, List.count_replicate_self]
      omega
    · exact (hknown call hcall ids hids i hi).trans_le (by simp)
  | finished htask =>
    obtain ⟨hlt, hget⟩ := List.getElem?_eq_some_iff.mp htask
    have hpos : 0 < w.tasks.count .live := List.count_pos_iff.mpr (hget ▸ List.getElem_mem hlt)
    refine ⟨?_, by simpa using hknown⟩
    have hother : (TaskStatus.finished == TaskStatus.live) = false := rfl
    simp only [List.count_set hlt, hget, beq_self_eq_true, if_true, hother, Bool.false_eq_true,
      if_false]
    omega
  | discarded htask =>
    obtain ⟨hlt, hget⟩ := List.getElem?_eq_some_iff.mp htask
    refine ⟨?_, by simpa using hknown⟩
    simp only [List.count_set hlt, hget]
    simpa using hslots
  | signalled => exact ⟨hslots, hknown⟩
  | shutdown =>
    refine ⟨hslots, fun call hcall ids hids i hi => ?_⟩
    rcases List.mem_append.mp hcall with hcall | hcall
    · exact hknown call hcall ids hids i hi
    · obtain rfl := List.mem_singleton.mp hcall
      -- the tasks it gathers are the ones in flight
      simp only at hids
      split_ifs at hids
      · simp only [afterGather] at hids
        split_ifs at hids
      · obtain rfl := ShutdownPc.gathering.inj hids
        exact List.mem_range.mp (List.mem_of_mem_filter hi)
  | woken hcall hwake =>
    rename_i j call call'
    refine ⟨hslots, fun other hother ids hids i hi => ?_⟩
    rcases List.mem_or_eq_of_mem_set hother with hold | rfl
    · exact hknown other hold ids hids i hi
    · simp only [wakeShutdown] at hwake
      split at hwake
      · split_ifs at hwake
        obtain rfl := Option.some.inj hwake
        simp only [afterGather] at hids
        split_ifs at hids
      · obtain rfl := Option.some.inj hwake
        exact absurd hids (by simp)
      · exact absurd hwake (by simp)

theorem counted_of_reaches {queues : List String} {concurrency : ℕ+}
    (h : Reaches step (start queues concurrency) w) : w.Counted concurrency :=
  h.invariant (I := Counted concurrency) (fun _ _ _ hu hstep => hu.moves (moves_of_step hstep))
    ⟨by simp [start], by simp [start]⟩

/-- Nobody but some tasks moves: the loops and the calls wait where they waited. -/
structure SameWaits (w w' : WorkerLoop) : Prop where
  poll_eq : w'.poll = w.poll
  reclaim_eq : w'.reclaim = w.reclaim
  shutdowns_eq : w'.shutdowns = w.shutdowns

/-- Any tasks may end. -/
theorem exists_finished (w : WorkerLoop) (ids : List ℕ) :
    ∃ w', Reaches step w w' ∧ SameWaits w w' ∧
      (∀ i ∈ ids, w'.tasks[i]? ≠ some .live) ∧
      (∀ i, i ∉ ids → w'.tasks[i]? = w.tasks[i]?) ∧
      ∀ i : ℕ, w'.tasks[i]? = some TaskStatus.live → w.tasks[i]? = some TaskStatus.live := by
  induction ids generalizing w with
  | nil => exact ⟨w, .refl _, ⟨rfl, rfl, rfl⟩, by simp, fun _ _ => rfl, fun _ hi => hi⟩
  | cons id ids ih =>
    by_cases hlive : w.tasks[id]? = some .live
    · -- the first one ends, then the others
      have hstep : w.step (.finish id) =
          some { w with semaphore := w.semaphore + 1, tasks := w.tasks.set id .finished } :=
        if_pos hlive
      obtain ⟨w', hreach, hwaits, hdone, hsame, hlater⟩ := ih
        { w with semaphore := w.semaphore + 1, tasks := w.tasks.set id .finished }
      have hback : ∀ i : ℕ, w'.tasks[i]? = some TaskStatus.live →
          w.tasks[i]? = some TaskStatus.live := fun i hi => live_of_set (by simp) (hlater i hi)
      refine ⟨w', ((ReachesWhen.refl w).tail trivial hstep).trans hreach,
        ⟨hwaits.poll_eq, hwaits.reclaim_eq, hwaits.shutdowns_eq⟩, ?_, ?_, hback⟩
      · intro i hi hstill
        rcases List.mem_cons.mp hi with rfl | hi
        · have hset := hlater i hstill
          rw [Indexed.getElem?_set_of_eq hlive] at hset
          exact absurd hset (by simp)
        · exact hdone i hi hstill
      · intro i hi
        obtain ⟨hne, hi⟩ := not_or.mp (List.mem_cons.not.mp hi)
        rw [hsame i hi]
        exact Indexed.getElem?_set_of_ne hne
    · obtain ⟨w', hreach, hwaits, hdone, hsame, hlater⟩ := ih w
      refine ⟨w', hreach, hwaits, ?_, fun i hi => hsame i (List.mem_cons.not.mp hi ∘ Or.inr),
        hlater⟩
      intro i hi hstill
      rcases List.mem_cons.mp hi with rfl | hi
      · exact hlive (hlater i hstill)
      · exact hdone i hi hstill

/-- A call whose tasks have all ended may return. -/
theorem exists_returned {j : ℕ} {call : Shutdown} (hcall : w.shutdowns[j]? = some call)
    (hdone : ∀ ids, call.pc = .gathering ids → ∀ i ∈ ids, w.tasks[i]? ≠ some .live) :
    ∃ shutdowns, Reaches step w { w with shutdowns := shutdowns } ∧
      ∃ call' ∈ shutdowns, call'.pc = .returned := by
  -- from the close of the broker it is one step
  have hclosing : ∀ {u : WorkerLoop} {c : Shutdown}, u.shutdowns[j]? = some c →
      c.pc = .closingBroker → ∃ shutdowns, Reaches step u { u with shutdowns := shutdowns } ∧
        ∃ call' ∈ shutdowns, call'.pc = .returned := by
    intro u c hc hpc
    have hstep : u.step (.shutdownWakes j) =
        some { u with shutdowns := u.shutdowns.set j { c with pc := .returned } } := by
      simp [step, hc, wakeShutdown, hpc]
    exact ⟨_, (ReachesWhen.refl u).tail trivial hstep, { c with pc := .returned },
      List.mem_of_getElem? (Indexed.getElem?_set_of_eq hc), rfl⟩
  cases hpc : call.pc with
  | returned => exact ⟨w.shutdowns, .refl w, call, List.mem_of_getElem? hcall, hpc⟩
  | closingBroker => exact hclosing hcall hpc
  | gathering ids =>
    have hstep : w.step (.shutdownWakes j) = some { w with
        shutdowns := w.shutdowns.set j { call with pc := afterGather call.stops } } := by
      simp only [step, hcall, Option.bind_some, wakeShutdown, hpc, if_pos (hdone ids hpc),
        Option.map_some]
    have hfirst := (ReachesWhen.refl (P := fun _ _ => True) w).tail trivial hstep
    have hset := Indexed.getElem?_set_of_eq (x := { call with pc := afterGather call.stops }) hcall
    by_cases hstops : call.stops = true
    · obtain ⟨shutdowns, hreach, hreturned⟩ := hclosing
        (u := { w with
          shutdowns := w.shutdowns.set j { call with pc := afterGather call.stops } })
        hset (by simp [afterGather, hstops])
      exact ⟨shutdowns, hfirst.trans hreach, hreturned⟩
    · exact ⟨_, hfirst, _, List.mem_of_getElem? hset, by simp [afterGather, hstops]⟩

/-- A task that a call does not wait for may outlive it. -/
theorem exists_undrained_of_live {j i : ℕ} {call : Shutdown} (hcall : w.shutdowns[j]? = some call)
    (hlive : w.tasks[i]? = some .live) (hout : ∀ ids, call.pc = .gathering ids → i ∉ ids) :
    ∃ w', Reaches step w w' ∧ ¬ w'.Drained := by
  obtain ⟨ids, hids⟩ : ∃ ids : List ℕ, i ∉ ids ∧
      ∀ ids', call.pc = .gathering ids' → ids' = ids := by
    cases hpc : call.pc with
    | gathering ids =>
      exact ⟨ids, hout ids hpc, fun ids' heq => (ShutdownPc.gathering.inj heq).symm⟩
    | closingBroker | returned => exact ⟨[], by simp, by simp⟩
  obtain ⟨w₁, hreach₁, hwaits, hdone, hsame, -⟩ := w.exists_finished ids
  have hcall₁ : w₁.shutdowns[j]? = some call := by rw [hwaits.shutdowns_eq, hcall]
  obtain ⟨shutdowns, hreach₂, hreturned⟩ := exists_returned hcall₁ fun ids' hgathering k hk =>
    hdone k (hids.2 ids' hgathering ▸ hk)
  refine ⟨_, hreach₁.trans hreach₂, fun hdrained => hdrained hreturned ?_⟩
  exact List.mem_of_getElem? ((hsame i hids.1).trans hlive)

/-- All tasks may end and a call return, with the loops where they are and a slot free. -/
theorem exists_idle {concurrency : ℕ+} (hcounted : w.Counted concurrency) {call : Shutdown}
    (hcall : call ∈ w.shutdowns) :
    ∃ u, Reaches step w u ∧ u.poll = w.poll ∧ u.reclaim = w.reclaim ∧ u.semaphore ≠ 0 ∧
      ∃ call' ∈ u.shutdowns, call'.pc = .returned := by
  obtain ⟨j, hj⟩ := List.mem_iff_getElem?.mp hcall
  obtain ⟨w₁, hreach₁, hwaits, hdone, -, hlater⟩ :=
    w.exists_finished (List.range w.tasks.length)
  have hidle : ∀ i : ℕ, w₁.tasks[i]? ≠ some TaskStatus.live := by
    intro i hi
    obtain ⟨hlt, -⟩ := List.getElem?_eq_some_iff.mp (hlater i hi)
    exact hdone i (List.mem_range.mpr hlt) hi
  have hj₁ : w₁.shutdowns[j]? = some call := by rw [hwaits.shutdowns_eq, hj]
  obtain ⟨shutdowns, hreach₂, hreturned⟩ := exists_returned hj₁ fun ids _ i _ => hidle i
  have hcounted₁ : w₁.Counted concurrency :=
    hreach₁.invariant (I := Counted concurrency)
      (fun _ _ _ hu hstep => hu.moves (moves_of_step hstep)) hcounted
  -- no task holds a slot
  have hfree : w₁.semaphore ≠ 0 := by
    have hnone : w₁.tasks.count .live = 0 := List.count_eq_zero.mpr fun hmem => by
      obtain ⟨i, hi⟩ := List.mem_iff_getElem?.mp hmem
      exact hidle i hi
    have hslots := hcounted₁.slots
    have hpos := concurrency.pos
    omega
  exact ⟨_, hreach₁.trans hreach₂, hwaits.poll_eq, hwaits.reclaim_eq, hfree, hreturned⟩

/-- The task of a message in hand of the poll loop. -/
theorem createTask_startMessages (w : WorkerLoop) (rest : List String) (more : ℕ) :
    TaskStatus.live ∈ (w.createTask.startMessages rest more).tasks ∧
      (w.createTask.startMessages rest more).shutdowns = w.shutdowns := by
  obtain ⟨k, p, -, -, heq⟩ := w.createTask.startMessages_eq rest more
  rw [heq]
  exact ⟨by simp [createTask], rfl⟩

/-- The task of a message in hand of the reclaim loop. -/
theorem createTask_nextReclaimed (w : WorkerLoop) (rest : List String) (more : ℕ) :
    TaskStatus.live ∈ (w.createTask.nextReclaimed rest more).tasks ∧
      (w.createTask.nextReclaimed rest more).shutdowns = w.shutdowns := by
  obtain ⟨r, heq, -⟩ := w.createTask.nextReclaimed_eq rest more
  rw [heq]
  exact ⟨by simp [createTask], rfl⟩

/-- Messages in hand may be started after a call has returned. -/
theorem exists_undrained_of_holds {concurrency : ℕ+} (hcounted : w.Counted concurrency)
    {call : Shutdown} (hcall : call ∈ w.shutdowns) (hholds : w.Holds) :
    ∃ w', Reaches step w w' ∧ ¬ w'.Drained := by
  obtain ⟨u, hreach, hpoll, hreclaim, hfree, hreturned⟩ := exists_idle hcounted hcall
  -- the free slot is for the first of the messages
  have hstarted : ∀ {v : WorkerLoop} (event : LoopEvent), u.step event = some v →
      TaskStatus.live ∈ v.tasks ∧ v.shutdowns = u.shutdowns →
        ∃ w', Reaches step w w' ∧ ¬ w'.Drained := by
    intro v event hstep hv
    refine ⟨v, hreach.tail trivial hstep, fun hdrained => hdrained ?_ hv.1⟩
    rwa [hv.2]
  rcases hholds with ⟨more, rest, hat⟩ | ⟨more, rest, hat | hat⟩
  · have hacquiring := hpoll.trans hat
    refine hstarted .pollWakes ?_ (u.createTask_startMessages rest more)
    simp [step, hacquiring, hfree]
  · have hclosing := hreclaim.trans hat
    refine hstarted .priorClosed ?_ (u.createTask_nextReclaimed rest more)
    simp [step, hclosing, startReclaimed, hfree]
  · have hacquiring := hreclaim.trans hat
    refine hstarted .reclaimWakes ?_ (u.createTask_nextReclaimed rest more)
    simp [step, hacquiring, hfree]

/-- After a step that is not calm, a task may run when a call has returned. -/
theorem exists_undrained {concurrency : ℕ+} (hcounted : w.Counted concurrency)
    (hstep : w.step event = some w') (hcalm : ¬ w.Calm event) :
    ∃ u, Reaches step w' u ∧ ¬ u.Drained := by
  have hcounted' := hcounted.moves (moves_of_step hstep)
  cases event with
  | shutdown stops =>
    simp only [Calm, not_not] at hcalm
    obtain rfl := Option.some.inj hstep
    exact exists_undrained_of_holds hcounted'
      (List.mem_append_right _ (List.mem_singleton_self _)) hcalm
  | leased messages =>
    simp only [Calm, not_or] at hcalm
    obtain ⟨call, hcall⟩ := List.exists_mem_of_ne_nil _ hcalm.1
    simp only [step] at hstep
    split at hstep
    · rename_i batchSize rest hpoll
      split_ifs at hstep
      obtain rfl := Option.some.inj hstep
      obtain ⟨k, p, -, hcases, heq⟩ := w.startMessages_eq rest messages
      rw [heq] at hcounted' ⊢
      rcases hcases with ⟨rfl, -⟩ | ⟨-, more, r, rfl⟩
      · -- the first of the new tasks is in no call's list
        obtain ⟨j, hj⟩ := List.mem_iff_getElem?.mp hcall
        have hnew : (w.tasks ++ List.replicate k .live)[w.tasks.length]? =
            some TaskStatus.live := by simp [Nat.pos_of_ne_zero hcalm.2]
        exact exists_undrained_of_live hj hnew fun ids hids hmem =>
          absurd (hcounted.known call hcall ids hids _ hmem) (by simp)
      · exact exists_undrained_of_holds hcounted' hcall (Or.inl ⟨more, r, rfl⟩)
    · exact absurd hstep (by simp)
  | reclaimed messages =>
    simp only [Calm, not_or] at hcalm
    obtain ⟨call, hcall⟩ := List.exists_mem_of_ne_nil _ hcalm.1
    obtain ⟨more, rfl⟩ := Nat.exists_eq_succ_of_ne_zero hcalm.2
    simp only [step] at hstep
    split at hstep
    · rename_i rest hreclaim
      split_ifs at hstep
      obtain rfl := Option.some.inj hstep
      exact exists_undrained_of_holds hcounted' hcall (Or.inr ⟨more, rest, Or.inl rfl⟩)
    · exact absurd hstep (by simp)
  | pollWakes | leaseRaised | reclaimWakes | reclaimRaised | priorClosed | closePriorRaised
  | finish i | discard i | signal | shutdownWakes j => exact absurd trivial hcalm

/-- **Drain.** In every run in which `drain()` and `stop()` are called while neither loop has
messages in hand and after which the broker hands out none, a worker whose call has returned runs
no `_process_message`. From every state that a worker can be in, a step that breaks this leads to
states in which a call has returned and a task runs. -/
theorem drained_iff_calm (queues : List String) (concurrency : ℕ+) :
    (∀ w, ReachesWhen step Calm (start queues concurrency) w → w.Drained) ∧
    ∀ w event w', Reaches step (start queues concurrency) w → w.step event = some w' →
      ¬ w.Calm event → ∃ u, Reaches step w' u ∧ ¬ u.Drained :=
  ⟨fun _ h => (sealed_of_reaches h).drained,
    fun _ _ _ h hstep hcalm => exists_undrained (counted_of_reaches h) hstep hcalm⟩

/-- A drain while one task runs and the poll loop waits for the broker. -/
theorem drained_iff_calm_once : ∃ w : WorkerLoop, w.Drained ∧ w.shutdowns = [⟨false, .returned⟩] ∧
    w.tasks = [.finished] := by
  obtain ⟨w, hreach, hcheck⟩ := exists_reachesWhen_of_check step Calm (start ["q"] 2)
    [.pollWakes, .leased 1, .pollWakes, .shutdown false, .leased 0, .finish 0, .shutdownWakes 0]
    (fun w => w.shutdowns = [⟨false, .returned⟩] ∧ w.tasks = [.finished]) (by decide +kernel)
  exact ⟨w, (drained_iff_calm ["q"] 2).1 w hreach, hcheck⟩

/-- A message arrives while `lease` blocks and after `drain()` has found nothing in flight: its
task is started, and runs. -/
theorem drained_worker_starts_task : ∃ w, Reaches step (start ["q"] 2) w ∧ ¬ w.Drained := by
  obtain ⟨w, hrun, hcheck⟩ := exists_run_of_check step (start ["q"] 2)
    [.pollWakes, .shutdown false, .leased 1] (fun w => ¬ w.Drained) (by decide +kernel)
  exact ⟨w, .of_run hrun, hcheck⟩

end WorkerLoop

end Dtq
