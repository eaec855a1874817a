import Dtq.Worker.Drain

/-!
# What a worker takes on

The semaphore of `WorkerLoop` has one slot for each `_process_message` that may run. A loop asks
the broker only while a slot is free, for five messages at most, and holds what it has no slot for.

When the running flag is down, the poll loop goes on with the pass it is in, and so does the
reclaim loop, which asks the broker for each of the queues that are left. What they may still
start is counted by `owes`, and the moves they have left by `left`; both only fall.

## Main results

* `WorkerLoop.limits` — the tasks that run and the messages in hand, in every state
* `WorkerLoop.winds_down` — a worker that has been told to stop comes to an end
-/

set_option autoImplicit false

namespace Dtq

open Transition

namespace PollPc

/-- A place that the loop can come to, when there are so many queues. -/
def Fits (queues : ℕ) : PollPc → Prop
  | .idle | .ended => True
  | .paused rest => rest.length < queues
  | .leasing batchSize rest => batchSize ≤ 5 ∧ rest.length < queues
  | .acquiring more rest => more < 5 ∧ rest.length < queues

/-- The messages that the loop may still start when the flag is down. -/
def owes : PollPc → ℕ
  | .idle | .ended => 0
  | .paused rest => 5 * rest.length
  | .leasing batchSize rest => batchSize + 5 * rest.length
  | .acquiring more rest => more + 1 + 5 * rest.length

/-- A bound on the moves that the loop has left when the flag is down, and on the tasks that these
start. -/
def left : PollPc → ℕ
  | .idle => 1
  | .ended => 0
  | .paused rest => 1 + 12 * rest.length
  | .leasing batchSize rest => 2 * batchSize + 2 + 12 * rest.length
  | .acquiring more rest => 2 * (more + 1) + 12 * rest.length

/-- The messages that wait for a slot. -/
def inHand : PollPc → ℕ
  | .acquiring more _ => more + 1
  | _ => 0

variable {p : PollPc} {queues : ℕ}

theorem Fits.owes_le (h : p.Fits queues) : p.owes ≤ 5 * queues := by
  cases p <;> simp only [Fits, owes] at h ⊢ <;> omega

theorem Fits.left_le (h : p.Fits queues) : p.left ≤ 12 * queues + 1 := by
  cases p <;> simp only [Fits, left] at h ⊢ <;> omega

theorem Fits.inHand_le (h : p.Fits queues) : p.inHand ≤ 5 := by
  cases p <;> simp only [Fits, inHand] at h ⊢ <;> omega

end PollPc

namespace ReclaimPc

/-- A place that the loop can come to, when there are so many queues. -/
def Fits (queues : ℕ) : ReclaimPc → Prop
  | .sleeping | .ended => True
  | .reclaiming rest => rest.length < queues
  | .closingPrior more rest | .acquiring more rest => more < 5 ∧ rest.length < queues

/-- The messages that the loop may still start when the flag is down. -/
def owes : ReclaimPc → ℕ
  | .sleeping | .ended => 0
  | .reclaiming rest => 5 + 5 * rest.length
  | .closingPrior more rest | .acquiring more rest => more + 1 + 5 * rest.length

/-- A bound on the moves that the loop has left when the flag is down, and on the tasks that these
start. -/
def left : ReclaimPc → ℕ
  | .sleeping => 1
  | .ended => 0
  | .reclaiming rest => 17 + 16 * rest.length
  | .closingPrior more rest => 3 * (more + 1) + 1 + 16 * rest.length
  | .acquiring more rest => 3 * more + 3 + 16 * rest.length

/-- The messages that are prepared or wait for a slot. -/
def inHand : ReclaimPc → ℕ
  | .closingPrior more _ | .acquiring more _ => more + 1
  | _ => 0

variable {r : ReclaimPc} {queues : ℕ}

theorem Fits.owes_le (h : r.Fits queues) : r.owes ≤ 5 * queues := by
  cases r <;> simp only [Fits, owes] at h ⊢ <;> omega

theorem Fits.left_le (h : r.Fits queues) : r.left ≤ 16 * queues + 1 := by
  cases r <;> simp only [Fits, left] at h ⊢ <;> omega

theorem Fits.inHand_le (h : r.Fits queues) : r.inHand ≤ 5 := by
  cases r <;> simp only [Fits, inHand] at h ⊢ <;> omega

end ReclaimPc

/-- The poll loop or the reclaim loop goes on. -/
def LoopEvent.isLoop : LoopEvent → Bool
  | .finish _ | .discard _ | .signal | .shutdown _ | .shutdownWakes _ => false
  | _ => true

/-- How often a call of `drain()` or `stop()` wakes before it returns. -/
def ShutdownPc.wakes : ShutdownPc → ℕ
  | .gathering _ => 2
  | .closingBroker => 1
  | .returned => 0

namespace WorkerLoop

variable {w w' : WorkerLoop} {event : LoopEvent} {rest : List String} {n messages more : ℕ}

/-! ### What the loops do in one move -/

theorem continuePoll_fits (w : WorkerLoop) (hrest : rest.length ≤ n) :
    ∃ p : PollPc, w.continuePoll rest = { w with poll := p } ∧ p.Fits n ∧
      (w.running = false → p.owes ≤ 5 * rest.length ∧ p.left ≤ 12 * rest.length) := by
  cases rest with
  | nil =>
    cases hrunning : w.running with
    | true => exact ⟨.idle, by simp [continuePoll, hrunning], trivial, by simp⟩
    | false => exact ⟨.ended, by simp [continuePoll, hrunning], trivial, by simp [PollPc.owes,
        PollPc.left]⟩
  | cons queue rest =>
    simp only [List.length_cons] at hrest ⊢
    -- with no slot free the queue is passed over after a sleep
    by_cases hfull : w.semaphore = 0
    · refine ⟨.paused rest, by simp [continuePoll, hfull], ?_, fun _ => ?_⟩ <;>
        simp only [PollPc.Fits, PollPc.owes, PollPc.left] <;> omega
    · refine ⟨.leasing (min w.semaphore 5) rest, by simp [continuePoll, hfull], ?_, fun _ => ?_⟩ <;>
        simp only [PollPc.Fits, PollPc.owes, PollPc.left] <;> omega

/-- Starting one task and then others. -/
theorem createTask_start (w : WorkerLoop) (k : ℕ) (p : PollPc) :
    { w.createTask with
      semaphore := w.createTask.semaphore - k
      tasks := w.createTask.tasks ++ List.replicate k TaskStatus.live
      poll := p } =
    { w with
      semaphore := w.semaphore - (k + 1)
      tasks := w.tasks ++ List.replicate (k + 1) TaskStatus.live
      poll := p } := by
  -- the two records differ in the count of slots only
  simp only [createTask, List.append_assoc, List.singleton_append, ← List.replicate_succ]
  congr 1
  omega

/-- The poll loop starts messages as long as there are slots. -/
theorem startMessages_fits (w : WorkerLoop) (hrest : rest.length < n) (hmessages : messages ≤ 5) :
    ∃ (k : ℕ) (p : PollPc), k ≤ w.semaphore ∧
      w.startMessages rest messages =
        { w with
          semaphore := w.semaphore - k
          tasks := w.tasks ++ List.replicate k .live
          poll := p } ∧
      p.Fits n ∧
      (w.running = false → k + p.owes ≤ messages + 5 * rest.length ∧
        k + p.left ≤ 2 * messages + 12 * rest.length) := by
  induction messages generalizing w with
  | zero =>
    obtain ⟨p, heq, hfits, hstops⟩ := w.continuePoll_fits hrest.le
    refine ⟨0, p, Nat.zero_le _, by simpa [startMessages] using heq, hfits, fun hstopped => ?_⟩
    have hbounds := hstops hstopped
    omega
  | succ more ih =>
    rw [startMessages]
    split_ifs with hfull
    · refine ⟨0, .acquiring more rest, Nat.zero_le _, by simp, ⟨hmessages, hrest⟩, fun _ => ?_⟩
      simp only [PollPc.owes, PollPc.left]
      omega
    · -- one slot goes to this message, the others as the induction says
      obtain ⟨k, p, hk, heq, hfits, hstops⟩ := ih w.createTask (by omega)
      simp only [createTask] at hk hstops
      refine ⟨k + 1, p, by omega, heq.trans (w.createTask_start k p), hfits, fun hstopped => ?_⟩
      have hbounds := hstops hstopped
      omega

theorem continueReclaim_fits (w : WorkerLoop) (hrest : rest.length ≤ n) :
    ∃ r : ReclaimPc, w.continueReclaim rest = { w with reclaim := r } ∧ r.Fits n ∧
      r.owes ≤ 5 * rest.length ∧ r.left ≤ 1 + 16 * rest.length := by
  cases rest with
  | nil => exact ⟨.sleeping, rfl, trivial, by simp [ReclaimPc.owes, ReclaimPc.left]⟩
  | cons queue rest =>
    simp only [List.length_cons] at hrest ⊢
    refine ⟨.reclaiming rest, rfl, ?_, ?_⟩ <;>
      simp only [ReclaimPc.Fits, ReclaimPc.owes, ReclaimPc.left] <;> omega

theorem nextReclaimed_fits (w : WorkerLoop) (hrest : rest.length < n) (hmessages : messages ≤ 5) :
    ∃ r : ReclaimPc, w.nextReclaimed rest messages = { w with reclaim := r } ∧ r.Fits n ∧
      r.owes ≤ messages + 5 * rest.length ∧ r.left ≤ 3 * messages + 1 + 16 * rest.length := by
  cases messages with
  | zero =>
    obtain ⟨r, heq, hfits, howes, hleft⟩ := w.continueReclaim_fits hrest.le
    exact ⟨r, heq, hfits, by omega, by omega⟩
  | succ more =>
    refine ⟨.closingPrior more rest, rfl, ⟨hmessages, hrest⟩, ?_⟩
    simp only [ReclaimPc.owes, ReclaimPc.left]
    omega

/-- The reclaim loop goes to the next message with a slot, or waits for one. -/
theorem startReclaimed_fits (w : WorkerLoop) (hrest : rest.length < n) (hmore : more < 5) :
    ∃ (k : ℕ) (r : ReclaimPc), k ≤ w.semaphore ∧
      w.startReclaimed more rest =
        { w with
          semaphore := w.semaphore - k
          tasks := w.tasks ++ List.replicate k .live
          reclaim := r } ∧
      r.Fits n ∧ k + r.owes ≤ more + 1 + 5 * rest.length ∧
      (k + r.left ≤ 3 * more + 3 + 16 * rest.length) ∧
      (w.semaphore ≠ 0 → k + r.left < 3 * more + 3 + 16 * rest.length) := by
  -- unlike the poll loop this one closes the prior attempt of the next message before it waits
  rw [startReclaimed]
  split_ifs with hfull
  · refine ⟨0, .acquiring more rest, Nat.zero_le _, by simp, ⟨hmore, hrest⟩, ?_, ?_, ?_⟩ <;>
      simp only [ReclaimPc.owes, ReclaimPc.left] <;> omega
  · obtain ⟨r, heq, hfits, howes, hleft⟩ := w.createTask.nextReclaimed_fits hrest hmore.le
    refine ⟨1, r, by omega, ?_, hfits, by omega, by omega, fun _ => by omega⟩
    rw [heq]
    rfl

/-- What a step makes of a worker with `n` queues: a loop goes on and starts `k` tasks, or somebody
else moves, who leaves the loops where they are. -/
inductive Turns (n : ℕ) (w : WorkerLoop) : LoopEvent → WorkerLoop → Prop
  | loops {event : LoopEvent} {k : ℕ} {p : PollPc} {r : ReclaimPc} (hevent : event.isLoop = true)
      (hk : k ≤ w.semaphore) (hp : p.Fits n) (hr : r.Fits n)
      (howes : w.running = false → k + (p.owes + r.owes) ≤ w.poll.owes + w.reclaim.owes)
      (hleft : w.running = false → k + (p.left + r.left) < w.poll.left + w.reclaim.left) :
      Turns n w event
        { w with
          semaphore := w.semaphore - k
          tasks := w.tasks ++ List.replicate k .live
          poll := p
          reclaim := r }
  | finished {i : ℕ} (htask : w.tasks[i]? = some .live) :
      Turns n w (.finish i)
        { w with semaphore := w.semaphore + 1, tasks := w.tasks.set i .finished }
  | discarded {i : ℕ} (htask : w.tasks[i]? = some .finished) :
      Turns n w (.discard i) { w with tasks := w.tasks.set i .discarded }
  | signalled : Turns n w .signal { w with running := false }
  | shutdown {stops : Bool} : Turns n w (.shutdown stops) (w.callShutdown stops)
  | woken {j : ℕ} {call call' : Shutdown} (hcall : w.shutdowns[j]? = some call)
      (hwake : w.wakeShutdown call = some call') :
      Turns n w (.shutdownWakes j) { w with shutdowns := w.shutdowns.set j call' }

/-- The poll loop goes on and starts nothing. -/
theorem Turns.of_poll {p : PollPc} (hevent : event.isLoop = true) (hr : w.reclaim.Fits n)
    (hp : p.Fits n)
    (hstops : w.running = false → p.owes ≤ w.poll.owes ∧ p.left < w.poll.left) :
    Turns n w event { w with poll := p } := by
  have hturn : Turns n w event
      { w with
        semaphore := w.semaphore - 0
        tasks := w.tasks ++ List.replicate 0 .live
        poll := p
        reclaim := w.reclaim } := by
    apply Turns.loops hevent (Nat.zero_le _) hp hr
    · intro hstopped
      have hbounds := hstops hstopped
      omega
    · intro hstopped
      have hbounds := hstops hstopped
      omega
  simpa using hturn

/-- The reclaim loop goes on and starts nothing. -/
theorem Turns.of_reclaim {r : ReclaimPc} (hevent : event.isLoop = true) (hp : w.poll.Fits n)
    (hr : r.Fits n)
    (hstops : w.running = false → r.owes ≤ w.reclaim.owes ∧ r.left < w.reclaim.left) :
    Turns n w event { w with reclaim := r } := by
  have hturn : Turns n w event
      { w with
        semaphore := w.semaphore - 0
        tasks := w.tasks ++ List.replicate 0 .live
        poll := w.poll
        reclaim := r } := by
    apply Turns.loops hevent (Nat.zero_le _) hp hr
    · intro hstopped
      have hbounds := hstops hstopped
      omega
    · intro hstopped
      have hbounds := hstops hstopped
      omega
  simpa using hturn

/-- The poll loop goes on with the messages it has. -/
theorem turns_startMessages (hevent : event.isLoop = true) (hr : w.reclaim.Fits n)
    (hrest : rest.length < n) (hmessages : messages ≤ 5)
    (howes : messages + 5 * rest.length ≤ w.poll.owes)
    (hleft : 2 * messages + 12 * rest.length < w.poll.left) :
    Turns n w event (w.startMessages rest messages) := by
  obtain ⟨k, p, hk, heq, hp, hstops⟩ := w.startMessages_fits hrest hmessages
  rw [heq]
  refine .loops hevent hk hp hr ?_ ?_ <;>
    · intro hstopped
      have hbounds := hstops hstopped
      omega

/-- `WorkerLoop.step` inverted once, for a worker whose loops are where they can be. -/
theorem turns_of_step (hp : w.poll.Fits w.queues.length) (hr : w.reclaim.Fits w.queues.length)
    (h : w.step event = some w') : Turns w.queues.length w event w' := by
  cases event with
  | pollWakes =>
    simp only [step] at h
    split at h
    · -- the sleep before a pass
      rename_i hpoll
      split_ifs at h with hrunning <;> obtain rfl := Option.some.inj h
      · obtain ⟨p, heq, hfits, -⟩ := w.continuePoll_fits (le_refl w.queues.length)
        rw [heq]
        exact .of_poll rfl hr hfits fun hstopped => by simp [hstopped] at hrunning
      · exact .of_poll rfl hr trivial fun _ => by simp [hpoll, PollPc.owes, PollPc.left]
    · rename_i rest hpoll
      obtain rfl := Option.some.inj h
      rw [hpoll] at hp
      obtain ⟨p, heq, hfits, hstops⟩ := w.continuePoll_fits (le_of_lt hp)
      rw [heq]
      refine .of_poll rfl hr hfits fun hstopped => ?_
      have hbounds := hstops hstopped
      have hbefore : w.poll.owes = 5 * rest.length ∧ w.poll.left = 1 + 12 * rest.length := by
        simp [hpoll, PollPc.owes, PollPc.left]
      omega
    · -- a slot for the first of the messages in hand
      rename_i more rest hpoll
      split_ifs at h with hfull
      obtain rfl := Option.some.inj h
      rw [hpoll] at hp
      obtain ⟨k, p, hk, heq, hfits, hstops⟩ := w.createTask.startMessages_fits hp.2 hp.1.le
      have hbefore : w.poll.owes = more + 1 + 5 * rest.length ∧
          w.poll.left = 2 * (more + 1) + 12 * rest.length := by
        simp [hpoll, PollPc.owes, PollPc.left]
      rw [heq, createTask_start]
      simp only [createTask] at hk hstops
      refine .loops rfl (by omega) hfits hr ?_ ?_ <;>
        · intro hstopped
          have hbounds := hstops hstopped
          omega
    · exact absurd h (by simp)
    · exact absurd h (by simp)
  | leased messages =>
    simp only [step] at h
    split at h
    · rename_i batchSize rest hpoll
      split_ifs at h with hmost
      obtain rfl := Option.some.inj h
      rw [hpoll] at hp
      obtain ⟨hbatch, hrest⟩ := hp
      apply turns_startMessages rfl hr hrest (hmost.trans hbatch)
      · simp only [hpoll, PollPc.owes]
        omega
      · simp only [hpoll, PollPc.left]
        omega
    · exact absurd h (by simp)
  | leaseRaised =>
    simp only [step] at h
    split at h
    · rename_i batchSize rest hpoll
      obtain rfl := Option.some.inj h
      rw [hpoll] at hp
      refine .of_poll rfl hr hp.2 fun _ => ?_
      simp only [hpoll, PollPc.owes, PollPc.left]
      omega
    · exact absurd h (by simp)
  | reclaimWakes =>
    simp only [step] at h
    split at h
    · rename_i hreclaim
      split_ifs at h with hrunning <;> obtain rfl := Option.some.inj h
      · obtain ⟨r, heq, hfits, -⟩ := w.continueReclaim_fits (le_refl w.queues.length)
        rw [heq]
        exact .of_reclaim rfl hp hfits fun hstopped => by simp [hstopped] at hrunning
      · exact .of_reclaim rfl hp trivial fun _ => by
          simp [hreclaim, ReclaimPc.owes, ReclaimPc.left]
    · -- a slot for the first of the messages in hand
      rename_i more rest hreclaim
      split_ifs at h with hfull
      obtain rfl := Option.some.inj h
      rw [hreclaim] at hr
      have hstart : w.startReclaimed more rest = w.createTask.nextReclaimed rest more := by
        rw [startReclaimed, if_neg hfull]
      obtain ⟨k, r, hk, heq, hfits, howes, -, hleft⟩ := w.startReclaimed_fits hr.2 hr.1
      have hless := hleft hfull
      have hbefore : w.reclaim.owes = more + 1 + 5 * rest.length ∧
          w.reclaim.left = 3 * more + 3 + 16 * rest.length := by
        simp [hreclaim, ReclaimPc.owes, ReclaimPc.left]
      rw [← hstart, heq]
      refine .loops rfl hk hp hfits ?_ ?_ <;>
        · intro _
          omega
    · exact absurd h (by simp)
  | reclaimed messages =>
    simp only [step] at h
    split at h
    · rename_i rest hreclaim
      split_ifs at h with hmost
      obtain rfl := Option.some.inj h
      rw [hreclaim] at hr
      obtain ⟨r, heq, hfits, howes, hleft⟩ := w.nextReclaimed_fits hr hmost
      rw [heq]
      refine .of_reclaim rfl hp hfits fun _ => ?_
      have hbefore : w.reclaim.owes = 5 + 5 * rest.length ∧
          w.reclaim.left = 17 + 16 * rest.length := by
        simp [hreclaim, ReclaimPc.owes, ReclaimPc.left]
      omega
    · exact absurd h (by simp)
  | reclaimRaised =>
    simp only [step] at h
    split at h
    · rename_i rest hreclaim
      obtain rfl := Option.some.inj h
      rw [hreclaim] at hr
      obtain ⟨r, heq, hfits, howes, hleft⟩ := w.continueReclaim_fits (le_of_lt hr)
      have hbefore : w.reclaim.owes = 5 + 5 * rest.length ∧
          w.reclaim.left = 17 + 16 * rest.length := by
        simp [hreclaim, ReclaimPc.owes, ReclaimPc.left]
      rw [heq]
      refine .of_reclaim rfl hp hfits fun _ => ?_
      omega
    · exact absurd h (by simp)
  | priorClosed =>
    simp only [step] at h
    split at h
    · rename_i more rest hreclaim
      obtain rfl := Option.some.inj h
      rw [hreclaim] at hr
      obtain ⟨k, r, hk, heq, hfits, howes, hleft, -⟩ := w.startReclaimed_fits hr.2 hr.1
      have hbefore : w.reclaim.owes = more + 1 + 5 * rest.length ∧
          w.reclaim.left = 3 * (more + 1) + 1 + 16 * rest.length := by
        simp [hreclaim, ReclaimPc.owes, ReclaimPc.left]
      rw [heq]
      refine .loops rfl hk hp hfits ?_ ?_ <;>
        · intro _
          omega
    · exact absurd h (by simp)
  | closePriorRaised =>
    simp only [step] at h
    split at h
    · -- the rest of the batch is dropped
      rename_i more rest hreclaim
      obtain rfl := Option.some.inj h
      rw [hreclaim] at hr
      obtain ⟨r, heq, hfits, howes, hleft⟩ := w.continueReclaim_fits (le_of_lt hr.2)
      have hbefore : w.reclaim.owes = more + 1 + 5 * rest.length ∧
          w.reclaim.left = 3 * (more + 1) + 1 + 16 * rest.length := by
        simp [hreclaim, ReclaimPc.owes, ReclaimPc.left]
      rw [heq]
      refine .of_reclaim rfl hp hfits fun _ => ?_
      omega
    · exact absurd h (by simp)
  | finish i =>
    simp only [step] at h
    split_ifs at h with htask
    obtain rfl := Option.some.inj h
    exact .finished htask
  | discard i =>
    simp only [step] at h
    split_ifs at h with htask
    obtain rfl := Option.some.inj h
    exact .discarded htask
  | signal =>
    obtain rfl := Option.some.inj h
    exact .signalled
  | shutdown stops =>
    obtain rfl := Option.some.inj h
    exact .shutdown
  | shutdownWakes j =>
    obtain ⟨call, hcall, hwoken⟩ := Option.bind_eq_some_iff.mp h
    obtain ⟨call', hwake, rfl⟩ := Option.map_eq_some_iff.mp hwoken
    exact .woken hcall hwake

/-! ### What holds of every worker -/

/-- Every slot is free or taken by a task that runs, and the loops are where they can be. -/
structure Within (queues : List String) (concurrency : ℕ) (w : WorkerLoop) : Prop where
  queues_eq : w.queues = queues
  slots : w.semaphore + w.tasks.count .live = concurrency
  poll : w.poll.Fits queues.length
  reclaim : w.reclaim.Fits queues.length

variable {queues : List String} {concurrency : ℕ}

theorem Within.turns (h : w.Within queues concurrency) (hstep : w.step event = some w') :
    Turns queues.length w event w' := by
  have hp := h.poll
  have hr := h.reclaim
  rw [← h.queues_eq] at hp hr ⊢
  exact turns_of_step hp hr hstep

/-- A task that stops, or is forgotten. -/
theorem count_live_set {i : ℕ} {status status' : TaskStatus} (htask : w.tasks[i]? = some status)
    (hstatus : status' ≠ .live) :
    (w.tasks.set i status').count .live + (if status = .live then 1 else 0) =
      w.tasks.count .live := by
  have hcount := Indexed.countP_set_add (x := status') (· == TaskStatus.live) htask
  simpa [List.count, hstatus] using hcount

theorem Within.step (h : w.Within queues concurrency) (hstep : w.step event = some w') :
    w'.Within queues concurrency := by
  have hslots := h.slots
  cases h.turns hstep with
  | @loops _ k _ _ _ hk hp hr =>
    -- the slots that were given away are those of the new tasks
    refine ⟨h.queues_eq, ?_, hp, hr⟩
    simp only [List.count_append, List.count_replicate_self]
    omega
  | finished htask =>
    refine ⟨h.queues_eq, ?_, h.poll, h.reclaim⟩
    have hcount := count_live_set (w := w) htask (by simp : TaskStatus.finished ≠ .live)
    simp only [if_true] at hcount
    show w.semaphore + 1 + (w.tasks.set _ .finished).count .live = concurrency
    omega
  | discarded htask =>
    refine ⟨h.queues_eq, ?_, h.poll, h.reclaim⟩
    have hcount := count_live_set (w := w) htask (by simp : TaskStatus.discarded ≠ .live)
    simp only [reduceCtorEq, if_false] at hcount
    show w.semaphore + (w.tasks.set _ .discarded).count .live = concurrency
    omega
  | signalled | shutdown | woken => exact ⟨h.queues_eq, hslots, h.poll, h.reclaim⟩

theorem within_of_reaches {concurrency : ℕ+}
    (h : Reaches WorkerLoop.step (start queues concurrency) w) :
    w.Within queues concurrency :=
  h.invariant (fun _ _ _ hwithin hstep => hwithin.step hstep)
    ⟨rfl, by simp [start], trivial, trivial⟩

/-- When no task runs, the slots are free. -/
theorem Within.semaphore_ne_zero {concurrency : ℕ+} (h : w.Within queues concurrency)
    (hlive : .live ∉ w.tasks) : w.semaphore ≠ 0 := by
  have hslots := h.slots
  have hpos := concurrency.pos
  rw [List.count_eq_zero.mpr hlive] at hslots
  omega

/-- **The limits of a worker.** In every state: each slot of the semaphore is free or belongs to
one `_process_message` that runs, so there are never more of these than the concurrency; the poll
loop asks for five messages at most and has no more in hand, nor has the reclaim loop; and when
no slot is free, some task runs that will give one back. -/
theorem limits {concurrency : ℕ+} (h : Reaches WorkerLoop.step (start queues concurrency) w) :
    w.semaphore + w.tasks.count .live = concurrency ∧
      (∀ batchSize rest, w.poll = .leasing batchSize rest → batchSize ≤ 5) ∧
      w.poll.inHand ≤ 5 ∧ w.reclaim.inHand ≤ 5 ∧ (w.semaphore = 0 → .live ∈ w.tasks) := by
  have hwithin := within_of_reaches h
  refine ⟨hwithin.slots, fun batchSize rest hpoll => ?_, hwithin.poll.inHand_le,
    hwithin.reclaim.inHand_le, fun hnone => ?_⟩
  · have hfits := hwithin.poll
    rw [hpoll] at hfits
    exact hfits.1
  · by_contra hlive
    exact hwithin.semaphore_ne_zero hlive hnone

/-- One slot, a task that runs, and two messages of a dead worker in hand. -/
def oneSlot : List LoopEvent :=
  [.pollWakes, .leased 1, .reclaimWakes, .reclaimed 2, .priorClosed]

/-- The theorem at a worker whose only slot is taken while the reclaim loop waits for it. -/
theorem limits_oneSlot : ∃ w : WorkerLoop, w.reclaim = .acquiring 1 [] ∧ w.semaphore = 0 ∧
    .live ∈ w.tasks := by
  obtain ⟨w, hrun, hreclaim, hfull⟩ := exists_run_of_check WorkerLoop.step (start ["q"] 1) oneSlot
    (fun w => w.reclaim = .acquiring 1 [] ∧ w.semaphore = 0) (by decide +kernel)
  exact ⟨w, hreclaim, hfull, (limits (.of_run hrun)).2.2.2.2 hfull⟩

/-! ### After the flag is down -/

/-- The messages that the loops may still start when the flag is down. -/
def owes (w : WorkerLoop) : ℕ := w.poll.owes + w.reclaim.owes

/-- A bound on the moves that the loops have left when the flag is down. -/
def left (w : WorkerLoop) : ℕ := w.poll.left + w.reclaim.left

/-- The flag stays down, and what may still be started and done only falls. -/
theorem Turns.falls (h : Turns n w event w') (hstopped : w.running = false) :
    w'.running = false ∧ w'.tasks.length + w'.owes ≤ w.tasks.length + w.owes ∧
      (if event.isLoop then 1 else 0) + w'.left ≤ w.left := by
  cases h with
  | loops hevent hk hp hr howes hleft =>
    have howes := howes hstopped
    have hleft := hleft hstopped
    refine ⟨hstopped, ?_, ?_⟩
    · simp only [owes, List.length_append, List.length_replicate]
      omega
    · simp only [left, hevent, if_true]
      omega
  | finished | discarded =>
    exact ⟨hstopped, by simp [owes], by simp [LoopEvent.isLoop, left]⟩
  | signalled | shutdown =>
    exact ⟨rfl, le_rfl, by simp [LoopEvent.isLoop, left, callShutdown]⟩
  | woken => exact ⟨hstopped, le_rfl, by simp [LoopEvent.isLoop, left]⟩

/-- What the loops have left falls by more than the number of tasks they start. -/
theorem Turns.loop_falls (h : Turns n w event w') (hstopped : w.running = false)
    (hevent : event.isLoop = true) :
    w'.left + w'.tasks.count .live < w.left + w.tasks.count .live ∧
      w'.shutdowns = w.shutdowns := by
  cases h with
  | loops _ hk hp hr howes hleft =>
    have hleft := hleft hstopped
    refine ⟨?_, rfl⟩
    simp only [left, List.count_append, List.count_replicate_self]
    omega
  | _ => simp [LoopEvent.isLoop] at hevent

/-- A loop that has not ended has a move when a slot is free. -/
theorem exists_loop_move (hfree : w.semaphore ≠ 0)
    (hgoing : w.poll ≠ .ended ∨ w.reclaim ≠ .ended) :
    ∃ event w', event.isLoop = true ∧ w.step event = some w' := by
  rcases hgoing with hpoll | hreclaim
  · cases hpc : w.poll with
    | idle | paused => exact ⟨.pollWakes, _, rfl, by simp only [step, hpc]; rfl⟩
    -- a broker that does not answer raises in the end
    | leasing => exact ⟨.leaseRaised, _, rfl, by simp only [step, hpc]; rfl⟩
    | acquiring => exact ⟨.pollWakes, _, rfl, by simp only [step, hpc, hfree, if_false]; rfl⟩
    | ended => exact absurd hpc hpoll
  · cases hpc : w.reclaim with
    | sleeping => exact ⟨.reclaimWakes, _, rfl, by simp only [step, hpc]; rfl⟩
    | reclaiming => exact ⟨.reclaimRaised, _, rfl, by simp only [step, hpc]; rfl⟩
    | closingPrior => exact ⟨.priorClosed, _, rfl, by simp only [step, hpc]; rfl⟩
    | acquiring => exact ⟨.reclaimWakes, _, rfl, by simp only [step, hpc, hfree, if_false]; rfl⟩
    | ended => exact absurd hpc hreclaim

/-- What a run of a worker that has been told to stop starts and does. -/
theorem run_falls {events : List LoopEvent} (h : w.Within queues concurrency)
    (hstopped : w.running = false) (hrun : run WorkerLoop.step w events = some w') :
    w'.tasks.length + w'.owes ≤ w.tasks.length + w.owes ∧
      events.countP LoopEvent.isLoop + w'.left ≤ w.left := by
  induction events generalizing w with
  | nil =>
    obtain rfl : w = w' := by simpa [run] using hrun
    simp
  | cons event events ih =>
    obtain ⟨u, hstep, hrest⟩ := Option.bind_eq_some_iff.mp hrun
    obtain ⟨hdown, htasks, hmoves⟩ := (h.turns hstep).falls hstopped
    obtain ⟨htasks', hmoves'⟩ := ih (h.step hstep) hdown hrest
    rw [List.countP_cons]
    exact ⟨htasks'.trans htasks, by omega⟩

/-- A call that has not returned wakes when no task runs. -/
theorem exists_wake {call : Shutdown} (hlive : .live ∉ w.tasks) (hpc : call.pc ≠ .returned) :
    ∃ call', w.wakeShutdown call = some call' ∧
      call'.pc.wakes < call.pc.wakes := by
  cases hwaits : call.pc with
  | gathering inFlight =>
    have hdone : ∀ i ∈ inFlight, w.tasks[i]? ≠ some .live :=
      fun i _ htask => hlive (List.mem_of_getElem? htask)
    refine ⟨{ call with pc := afterGather call.stops }, ?_, ?_⟩
    · simp only [wakeShutdown, hwaits]
      exact if_pos hdone
    · cases hstops : call.stops <;> simp [afterGather, ShutdownPc.wakes]
  | closingBroker =>
    refine ⟨{ call with pc := .returned }, ?_, by simp [ShutdownPc.wakes]⟩
    simp [wakeShutdown, hwaits]
  | returned => exact absurd hwaits hpc

/-- Everybody has come to an end. -/
structure Over (w : WorkerLoop) : Prop where
  poll : w.poll = .ended
  reclaim : w.reclaim = .ended
  tasks : .live ∉ w.tasks
  shutdowns : ∀ call ∈ w.shutdowns, call.pc = .returned

/-- A worker that has been told to stop can come to an end: first the tasks that run, then the
loops, and what these start, and at last the calls that wait. -/
theorem exists_over {concurrency : ℕ+} (h : w.Within queues concurrency)
    (hstopped : w.running = false) :
    ∃ w', Reaches WorkerLoop.step w w' ∧ w'.Within queues concurrency ∧ w'.Over := by
  let rest (w : WorkerLoop) := (w.shutdowns.map fun call => call.pc.wakes).sum
  suffices hrun : ∃ w', ReachesWhen WorkerLoop.step (fun _ _ => True) w w' ∧
      (w'.Within queues concurrency ∧ w'.running = false) ∧ w'.Over by
    obtain ⟨w', hreach, ⟨hwithin, -⟩, hover⟩ := hrun
    exact ⟨w', hreach, hwithin, hover⟩
  -- a loop that starts tasks has so many moves fewer left, so the sum falls with every step
  refine exists_reachesWhen_of_measure (fun u => u.left + u.tasks.count .live + rest u) ?_
    ⟨h, hstopped⟩
  rintro u ⟨hu, hdown⟩
  by_cases hlive : .live ∈ u.tasks
  · obtain ⟨i, htask⟩ := List.mem_iff_getElem?.mp hlive
    have hstep : u.step (.finish i) = some
        { u with semaphore := u.semaphore + 1, tasks := u.tasks.set i .finished } := by
      simp [step, htask]
    have hcount := count_live_set (w := u) htask (by simp : TaskStatus.finished ≠ .live)
    rw [if_pos rfl] at hcount
    refine Or.inr ⟨_, _, trivial, hstep, ⟨hu.step hstep, hdown⟩, ?_⟩
    simp only [left, rest]
    omega
  · have hfree : u.semaphore ≠ 0 := hu.semaphore_ne_zero hlive
    by_cases hgoing : u.poll ≠ .ended ∨ u.reclaim ≠ .ended
    · obtain ⟨event, v, hevent, hstep⟩ := exists_loop_move hfree hgoing
      have hturn := hu.turns hstep
      obtain ⟨hless, hsame⟩ := hturn.loop_falls hdown hevent
      refine Or.inr ⟨event, v, trivial, hstep, ⟨hu.step hstep, (hturn.falls hdown).1⟩, ?_⟩
      simp only [rest, hsame]
      omega
    · obtain ⟨hpoll, hreclaim⟩ := not_or.mp hgoing
      by_cases hreturned : ∀ call ∈ u.shutdowns, call.pc = .returned
      · exact Or.inl ⟨not_not.mp hpoll, not_not.mp hreclaim, hlive, hreturned⟩
      · -- nothing is left to wait for
        simp only [not_forall] at hreturned
        obtain ⟨call, hmem, hpc⟩ := hreturned
        obtain ⟨j, hcall⟩ := List.mem_iff_getElem?.mp hmem
        obtain ⟨call', hwake, hless⟩ := exists_wake hlive hpc
        have hstep : u.step (.shutdownWakes j) =
            some { u with shutdowns := u.shutdowns.set j call' } := by
          simp [step, hcall, hwake]
        have hsum := Indexed.sum_map_set (fun call : Shutdown => call.pc.wakes)
          (x := call') hcall
        refine Or.inr ⟨_, _, trivial, hstep, ⟨hu.step hstep, hdown⟩, ?_⟩
        simp only [left, rest]
        omega

/-- **Shutting down.** When a worker has been told to stop, by a signal, `drain()` or `stop()`,
then in every run from there:

* at most ten more tasks for each queue are started;
* the loops make a bounded number of moves, and when they can make no other one, both have ended
  or wait for a task that runs;

and a run leads to a state in which both loops have ended, no task runs, all slots are free and
every `drain()` and `stop()` has returned. -/
theorem winds_down {concurrency : ℕ+} (h : Reaches WorkerLoop.step (start queues concurrency) w)
    (hstopped : w.running = false) :
    (∀ events w', run WorkerLoop.step w events = some w' →
      w'.tasks.length ≤ w.tasks.length + 10 * queues.length ∧
      events.countP LoopEvent.isLoop ≤ 28 * queues.length + 2 ∧
      ((∀ event, event.isLoop = true → w'.step event = none) →
        (w'.poll = .ended ∧ w'.reclaim = .ended) ∨ .live ∈ w'.tasks)) ∧
    ∃ w', Reaches WorkerLoop.step w w' ∧ w'.poll = .ended ∧ w'.reclaim = .ended ∧
      .live ∉ w'.tasks ∧ w'.semaphore = concurrency ∧
      ∀ call ∈ w'.shutdowns, call.pc = .returned := by
  have hwithin := within_of_reaches h
  constructor
  · intro events w' hrun
    obtain ⟨htasks, hmoves⟩ := run_falls hwithin hstopped hrun
    have howes : w.owes ≤ 10 * queues.length := by
      have hp := hwithin.poll.owes_le
      have hr := hwithin.reclaim.owes_le
      simp only [owes]
      omega
    have hleft : w.left ≤ 28 * queues.length + 2 := by
      have hp := hwithin.poll.left_le
      have hr := hwithin.reclaim.left_le
      simp only [left]
      omega
    refine ⟨by omega, by omega, fun hstuck => ?_⟩
    -- when no task runs a slot is free, and then a loop that has not ended can go on
    have hwithin' := within_of_reaches (h.trans (Reaches.of_run hrun))
    by_contra hnone
    obtain ⟨hgoing, hlive⟩ := not_or.mp hnone
    have hfree : w'.semaphore ≠ 0 := hwithin'.semaphore_ne_zero hlive
    obtain ⟨event, v, hevent, hstep⟩ := exists_loop_move hfree (not_and_or.mp hgoing)
    rw [hstuck event hevent] at hstep
    exact absurd hstep (by simp)
  · obtain ⟨w', hreach, hwithin', hover⟩ := exists_over hwithin hstopped
    refine ⟨w', hreach, hover.poll, hover.reclaim, hover.tasks, ?_, hover.shutdowns⟩
    have hslots := hwithin'.slots
    rwa [List.count_eq_zero.mpr hover.tasks] at hslots

/-- The theorem at a worker that gets its signal with two messages in hand. -/
theorem winds_down_oneSlot : ∃ w w' : WorkerLoop, w.reclaim = .acquiring 1 [] ∧
    Reaches WorkerLoop.step w w' ∧ w'.reclaim = .ended ∧ w'.semaphore = 1 := by
  obtain ⟨w, hrun, hreclaim, hstopped⟩ := exists_run_of_check WorkerLoop.step (start ["q"] 1)
    (oneSlot ++ [.signal]) (fun w => w.reclaim = .acquiring 1 [] ∧ w.running = false)
    (by decide +kernel)
  obtain ⟨-, w', hreach, -, hended, -, hslots, -⟩ := winds_down (.of_run hrun) hstopped
  exact ⟨w, w', hreclaim, hreach, hended, hslots⟩

end WorkerLoop

end Dtq
