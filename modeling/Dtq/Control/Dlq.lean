import Dtq.Control.Moves
import Dtq.Lib.Transition

/-!
# What a requeue request does

`requeue_dlq` is to take dead tasks out of the dead-letter queue and put them to work again.
The code looks neither at a task's state nor at the dead-letter queue: it publishes an
envelope for every id it is given whose task has a row, as often as it is given, and the
dead letters stay where they are. Here one request runs by itself and all its calls return.

## Main results

* `Requeue.run_eq` — all that a request does
* `requeue_movesOut_iff` — the requests that move tasks out of the dead-letter queue
-/

set_option autoImplicit false

namespace Dtq

open Transition

namespace Requeue

/-- The next call of the request returns, at a time on the server's clock; nobody else holds
a row. -/
def call (s : Stores × Requeue) (now : ℚ) : Option (Stores × Requeue) :=
  s.2.proceed s.1 ⟨fun _ => false, fun _ => false⟩ now

/-- The request comes in. -/
def start (stores : Stores) (queue : String) (taskIds : List Uuid) : Stores × Requeue :=
  (stores, { queue := queue, pc := .next taskIds })

variable {stores stores' : Stores} {queue : String} {taskIds updated : List Uuid}
  {clocks : List ℚ} {done : Requeue}

/-- The ids that have a task row, with repeats. -/
def known (db : Db) (taskIds : List Uuid) : List Uuid :=
  taskIds.filter fun id => (db.findTask id).isSome

theorem id_of_findTask {db : Db} {id : Uuid} {row : TaskRow} (h : db.findTask id = some row) :
    row.id = id := by
  simpa using List.find?_some h

/-! ### The calls of a request -/

/-- An id without a row is skipped. -/
theorem call_of_unknown {id : Uuid} (hrow : stores.db.findTask id = none) (now : ℚ) :
    call (stores, ⟨queue, .next (id :: taskIds), updated⟩) now =
      some (stores, ⟨queue, .next taskIds, updated⟩) := by
  simp [call, proceed, hrow]

/-- A row that is found is updated, and its envelope is published next. -/
theorem call_of_known {id : Uuid} {row : TaskRow} (hrow : stores.db.findTask id = some row)
    (now : ℚ) : call (stores, ⟨queue, .next (id :: taskIds), updated⟩) now =
      some (stores,
        ⟨queue, .publish (requeueEnvelope queue row now) taskIds, id :: updated⟩) := by
  simp [call, proceed, hrow]

theorem call_publish (envelope : TaskEnvelope) (now : ℚ) :
    call (stores, ⟨queue, .publish envelope taskIds, updated⟩) now =
      some ({ stores with redis := stores.redis.modifyQueue queue (·.publish envelope) },
        ⟨queue, .next taskIds, updated⟩) := rfl

theorem known_of_unknown {db : Db} {id : Uuid} (hrow : db.findTask id = none) :
    known db (id :: taskIds) = known db taskIds := by
  simp [known, hrow]

theorem known_of_known {db : Db} {id : Uuid} {row : TaskRow} (hrow : db.findTask id = some row) :
    known db (id :: taskIds) = id :: known db taskIds := by
  simp [known, hrow]

/-- A request that has not ended makes another call. -/
theorem run_cons_of_not_ended {s : Stores × Requeue} (hrun : run call s clocks =
      some (stores', done)) (hended : done.pc = .ended) (hpc : s.2.pc ≠ .ended) :
    ∃ now rest t, clocks = now :: rest ∧ call s now = some t ∧
      run call t rest = some (stores', done) := by
  cases clocks with
  | nil =>
    obtain rfl := Option.some.inj hrun
    exact absurd hended hpc
  | cons now rest =>
    obtain ⟨t, hcall, hrest⟩ := Option.bind_eq_some_iff.mp hrun
    exact ⟨now, rest, t, rfl, hcall, hrest⟩

/-- All that a request does from a point of its loop on: an envelope for every id left that has
a row, and one update for each of them and those before. -/
theorem run_eq (h : run call (stores, ⟨queue, .next taskIds, updated⟩) clocks =
      some (stores', done)) (hended : done.pc = .ended) :
    ∃ published : List TaskEnvelope, published.map TaskEnvelope.taskId = known stores.db taskIds ∧
      (∀ e ∈ published, e.attempt = 0) ∧
      stores'.redis = stores.redis.modifyQueue queue
        (fun q => { q with stream := q.stream ++ published }) ∧
      stores'.db = ((known stores.db taskIds).reverse ++ updated).foldl
        (fun db t => db.updateTaskState t .pending (some 0)) stores.db := by
  induction taskIds generalizing stores updated clocks with
  | nil =>
    -- the commit, after which nothing is left to call
    obtain ⟨now, rest, s, rfl, hcommit, hrest⟩ := run_cons_of_not_ended h hended (by simp)
    obtain rfl := Option.some.inj hcommit
    cases rest with
    | nil =>
      simp only [run, Option.some.injEq, Prod.mk.injEq] at hrest
      obtain ⟨rfl, -⟩ := hrest
      exact ⟨[], rfl, by simp, by simp [Redis.modifyQueue], rfl⟩
    | cons now' rest => simp [run, call, proceed] at hrest
  | cons id ids ih =>
    obtain ⟨now, rest, s, rfl, hnext, hrest⟩ := run_cons_of_not_ended h hended (by simp)
    cases hrow : stores.db.findTask id with
    | none =>
      obtain rfl := Option.mem_unique (call_of_unknown hrow now) hnext
      rw [known_of_unknown hrow]
      exact ih hrest
    | some row =>
      obtain rfl := Option.mem_unique (call_of_known hrow now) hnext
      obtain ⟨now', rest', s', rfl, hpublish, hrest⟩ :=
        run_cons_of_not_ended hrest hended (by simp)
      obtain rfl := Option.mem_unique (call_publish _ now') hpublish
      obtain ⟨published, hids, hfresh, hredis, hdb⟩ := ih hrest
      rw [known_of_known hrow]
      refine ⟨requeueEnvelope queue row now :: published, ?_, ?_, ?_, ?_⟩
      · rw [List.map_cons, hids]
        congr 1
        exact id_of_findTask hrow
      · exact List.forall_mem_cons.mpr ⟨rfl, hfresh⟩
      · rw [hredis, Redis.modifyQueue_modifyQueue]
        congr 1
        funext q
        simp [QueueState.publish]
      · rw [hdb, List.reverse_cons, List.append_assoc, List.singleton_append]

/-- A request comes to its end. -/
theorem exists_run (stores : Stores) (queue : String) (taskIds updated : List Uuid) :
    ∃ clocks stores' done, run call (stores, ⟨queue, .next taskIds, updated⟩) clocks =
      some (stores', done) ∧ done.pc = .ended := by
  induction taskIds generalizing stores updated with
  | nil => exact ⟨[0], _, _, rfl, rfl⟩
  | cons id ids ih =>
    cases hrow : stores.db.findTask id with
    | none =>
      obtain ⟨clocks, stores', done, hrun, hended⟩ := ih stores updated
      refine ⟨0 :: clocks, stores', done, ?_, hended⟩
      rw [run, call_of_unknown hrow, Option.bind_some, hrun]
    | some row =>
      let published : Redis :=
        stores.redis.modifyQueue queue (·.publish (requeueEnvelope queue row 0))
      obtain ⟨clocks, stores', done, hrun, hended⟩ :=
        ih { stores with redis := published } (id :: updated)
      refine ⟨0 :: 0 :: clocks, stores', done, ?_, hended⟩
      rw [run, call_of_known hrow, Option.bind_some, run, call_publish, Option.bind_some, hrun]

end Requeue

/-- Updates that keep the ids change what is found, not what is looked for. -/
theorem findTask_of_tasks_eq {db db' : Db} {f : TaskRow → TaskRow}
    (h : db'.tasks = db.tasks.map f) (hf : ∀ row, (f row).id = row.id) {id : Uuid} :
    db'.findTask id = (db.findTask id).map f := by
  have hcomp : ((fun row : TaskRow => decide (row.id = id)) ∘ f) =
      fun row => decide (row.id = id) := by
    funext row
    simp [hf]
  rw [Db.findTask, Db.findTask, h, List.find?_map, hcomp]

/-- The tasks a requeue request is about: requested, dead, and in the queue's DLQ. -/
def Requeueable (stores : Stores) (queue : String) (taskIds : List Uuid) (id : Uuid) : Prop :=
  id ∈ taskIds ∧ (stores.db.findTask id).any (fun row => row.state = .dead) ∧
    ∃ d ∈ (stores.redis.queues queue).dlq, d.1.taskId = id

instance (stores : Stores) (queue : String) (taskIds : List Uuid) (id : Uuid) :
    Decidable (Requeueable stores queue taskIds id) :=
  inferInstanceAs (Decidable (_ ∧ _ ∧ _))

/-- Just the requeueable tasks have moved: one envelope each, their rows pending with attempt
zero, their dead letters gone, and nothing else touched. -/
structure MovesOut (stores stores' : Stores) (queue : String) (taskIds : List Uuid) : Prop where
  published : ∃ published : List TaskEnvelope,
    (stores'.redis.queues queue).stream = (stores.redis.queues queue).stream ++ published ∧
      (published.map TaskEnvelope.taskId).Nodup ∧ (∀ e ∈ published, e.attempt = 0) ∧
      ∀ id, id ∈ published.map TaskEnvelope.taskId ↔ Requeueable stores queue taskIds id
  tasks_eq : stores'.db.tasks = stores.db.tasks.map fun row =>
    if Requeueable stores queue taskIds row.id then
      { row with state := .pending, attempt := 0 }
    else row
  dlq_eq : (stores'.redis.queues queue).dlq = (stores.redis.queues queue).dlq.filter fun d =>
    ¬ Requeueable stores queue taskIds d.1.taskId
  delivered_eq : (stores'.redis.queues queue).delivered = (stores.redis.queues queue).delivered
  pending_eq : (stores'.redis.queues queue).pending = (stores.redis.queues queue).pending
  sched_eq : (stores'.redis.queues queue).sched = (stores.redis.queues queue).sched
  others : ∀ other, other ≠ queue → stores'.redis.queues other = stores.redis.queues other
  leases : stores'.redis.leaseStore = stores.redis.leaseStore
  attempts_eq : stores'.db.attempts = stores.db.attempts
  effects_eq : stores'.db.effects = stores.db.effects

/-- After such a move the same request is about nothing. -/
theorem MovesOut.not_requeueable {stores stores' : Stores} {queue : String} {taskIds : List Uuid}
    (h : MovesOut stores stores' queue taskIds) (id : Uuid) :
    ¬ Requeueable stores' queue taskIds id := by
  rintro ⟨hid, hdead, d, hd, rfl⟩
  rw [h.dlq_eq, List.mem_filter] at hd
  obtain ⟨hd, hkept⟩ := hd
  have hnot : ¬ Requeueable stores queue taskIds d.1.taskId := of_decide_eq_true hkept
  obtain ⟨row, hrow, hstate⟩ := (Option.any_eq_true _ _).mp hdead
  -- a row that was set to pending is not dead, so this one is as it was
  obtain ⟨old, hold, hsame⟩ := Option.map_eq_some_iff.mp
    ((findTask_of_tasks_eq h.tasks_eq fun r => by split_ifs <;> rfl).symm.trans hrow)
  split_ifs at hsame with hmoved
  · subst hsame
    exact absurd (of_decide_eq_true hstate) (by simp)
  · subst hsame
    exact hnot ⟨hid, (Option.any_eq_true _ _).mpr ⟨_, hold, hstate⟩, d, hd, rfl⟩

/-- A request that has left the dead letters alone has moved no task out. -/
theorem MovesOut.unknown {stores stores' : Stores} {queue : String} {taskIds : List Uuid}
    {published : List TaskEnvelope} (h : MovesOut stores stores' queue taskIds)
    (hids : published.map TaskEnvelope.taskId = Requeue.known stores.db taskIds)
    (hredis : stores'.redis = stores.redis.modifyQueue queue
      (fun q => { q with stream := q.stream ++ published })) :
    ∀ id ∈ taskIds, stores.db.findTask id = none := by
  intro id hid
  by_contra hfound
  -- an envelope of the id was published, so it was in the DLQ; but nothing left the DLQ
  have hknown : id ∈ published.map TaskEnvelope.taskId := by
    rw [hids]
    exact List.mem_filter.mpr ⟨hid, by simpa [Option.isSome_iff_ne_none] using hfound⟩
  obtain ⟨published', hstream, -, -, hall⟩ := h.published
  obtain rfl : published' = published := by
    rw [hredis, Redis.modifyQueue_self] at hstream
    exact (List.append_cancel_left hstream).symm
  have hmove := (hall id).mp hknown
  obtain ⟨-, -, d, hd, hdid⟩ := hmove
  have hdlq := h.dlq_eq
  rw [hredis, Redis.modifyQueue_self] at hdlq
  have hkept : d ∈ (stores.redis.queues queue).dlq.filter fun d =>
      ¬ Requeueable stores queue taskIds d.1.taskId := hdlq ▸ hd
  have hstays := of_decide_eq_true (List.mem_filter.mp hkept).2
  rw [hdid] at hstays
  exact hstays ((hall id).mp hknown)

/-- A request that names no task there is moves out just as much, which is nothing. -/
theorem movesOut_of_unknown {stores stores' : Stores} {queue : String} {taskIds : List Uuid}
    (hunknown : ∀ id ∈ taskIds, stores.db.findTask id = none)
    (hredis : stores'.redis = stores.redis) (hdb : stores'.db = stores.db) :
    MovesOut stores stores' queue taskIds := by
  have hnot : ∀ id, ¬ Requeueable stores queue taskIds id := by
    rintro id ⟨hid, hdead, -⟩
    simp [hunknown id hid] at hdead
  exact {
    published := ⟨[], by simp [hredis], by simp, by simp, by simpa using hnot⟩
    tasks_eq := by simp [hdb, hnot]
    dlq_eq := by simp [hredis, hnot]
    delivered_eq := by rw [hredis]
    pending_eq := by rw [hredis]
    sched_eq := by rw [hredis]
    others := fun other _ => by rw [hredis]
    leases := by rw [hredis]
    attempts_eq := by rw [hdb]
    effects_eq := by rw [hdb] }

/-- **Requeueing dead letters.** Every request comes to its end; and it has then moved just the
dead tasks it names out of the dead-letter queue exactly when none of the ids it was given has
a task row. -/
theorem requeue_movesOut_iff (stores : Stores) (queue : String) (taskIds : List Uuid) :
    (∃ clocks stores' done, run Requeue.call (Requeue.start stores queue taskIds) clocks =
      some (stores', done) ∧ done.pc = .ended) ∧
    ∀ clocks stores' done, run Requeue.call (Requeue.start stores queue taskIds) clocks =
      some (stores', done) → done.pc = .ended →
        (MovesOut stores stores' queue taskIds ↔
          ∀ id ∈ taskIds, stores.db.findTask id = none) := by
  refine ⟨Requeue.exists_run stores queue taskIds [], fun clocks stores' done hrun hended => ?_⟩
  obtain ⟨published, hids, -, hredis, hdb⟩ := Requeue.run_eq hrun hended
  constructor
  · intro hmoves
    exact hmoves.unknown hids hredis
  · intro hunknown
    have hnone : Requeue.known stores.db taskIds = [] :=
      List.filter_eq_nil_iff.mpr fun id hid => by simp [hunknown id hid]
    rw [hnone] at hids hdb
    obtain rfl := List.map_eq_nil_iff.mp hids
    refine movesOut_of_unknown hunknown ?_ hdb
    rw [hredis]
    simp [Redis.modifyQueue]

/-- A task that has been dead-lettered, and one that has succeeded. -/
def deadAndDone : Stores :=
  let row (id : Uuid) (state : TaskState) : TaskRow :=
    { id := id, queue := "q", taskName := "t", payload := .obj [], state := state, priority := 0,
      attempt := 5, maxAttempts := 5, dedupKey := none, runAt := none }
  let letter := requeueEnvelope "q" (row ⟨1⟩ .dead) 0
  { redis := Redis.empty.modifyQueue "q" (·.deadLetter letter "max_attempts_exhausted")
    db := ⟨[row ⟨1⟩ .dead, row ⟨2⟩ .succeeded], [], []⟩ }

/-- The theorem at a request for a task that is not there. -/
theorem requeue_movesOut_iff_unknown : ∃ stores' done,
    run Requeue.call (Requeue.start deadAndDone "q" [⟨3⟩]) [0, 0] = some (stores', done) ∧
      MovesOut deadAndDone stores' "q" [⟨3⟩] := by
  obtain ⟨⟨stores', done⟩, hrun, hended⟩ := exists_run_of_check Requeue.call
    (Requeue.start deadAndDone "q" [⟨3⟩]) [0, 0] (fun s => s.2.pc = .ended) (by decide +kernel)
  refine ⟨stores', done, hrun, ?_⟩
  exact ((requeue_movesOut_iff deadAndDone "q" [⟨3⟩]).2 _ _ _ hrun hended).mpr (by decide +kernel)

/-- One request publishes a dead task twice, and with it one that has succeeded; the dead letter
is still there. -/
theorem dead_letter_stays : ∃ stores' done,
    run Requeue.call (Requeue.start deadAndDone "q" [⟨1⟩, ⟨1⟩, ⟨2⟩]) (List.replicate 7 0) =
      some (stores', done) ∧ done.pc = .ended ∧
    (stores'.redis.queues "q").stream.map TaskEnvelope.taskId = [⟨1⟩, ⟨1⟩, ⟨2⟩] ∧
    (stores'.redis.queues "q").dlq.length = 1 ∧
    stores'.db.tasks.map TaskRow.state = [.pending, .pending] ∧
    ¬ MovesOut deadAndDone stores' "q" [⟨1⟩, ⟨1⟩, ⟨2⟩] := by
  obtain ⟨⟨stores', done⟩, hrun, hended, hstream, hdlq, hstates⟩ := exists_run_of_check Requeue.call
    (Requeue.start deadAndDone "q" [⟨1⟩, ⟨1⟩, ⟨2⟩]) (List.replicate 7 0)
    (fun s => s.2.pc = .ended ∧
      (s.1.redis.queues "q").stream.map TaskEnvelope.taskId = [⟨1⟩, ⟨1⟩, ⟨2⟩] ∧
      (s.1.redis.queues "q").dlq.length = 1 ∧
      s.1.db.tasks.map TaskRow.state = [.pending, .pending]) (by decide +kernel)
  refine ⟨stores', done, hrun, hended, hstream, hdlq, hstates, fun hmoves => ?_⟩
  have hlength := congrArg List.length hmoves.dlq_eq
  rw [hdlq] at hlength
  exact absurd hlength (by decide +kernel)

end Dtq
