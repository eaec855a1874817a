import Dtq.Core.Models
import Dtq.Broker.Lease

/-!
# The Redis Streams broker

Per queue, `RedisBroker` keeps the stream `q:<queue>` with its consumer group, the
sorted set `sched:<queue>` and the stream `dlq:<queue>`. Envelopes are stored as
themselves: the JSON codec is taken to be the identity.

A stream entry is identified by its position, which orders entries as Redis ids
do. Entries are never deleted; `XACK` only removes an id from the group's pending
list. The group reads from the start of the stream, so its existence need not be
tracked: a group created late delivers the same entries.
-/

set_option autoImplicit false

namespace Dtq

/-- An entry of the group's pending list: delivered to a consumer, not yet
acknowledged. -/
structure Pending where
  id : ℕ
  consumer : String
deriving DecidableEq

/-- The Redis keys of one queue. -/
structure QueueState where
  stream : List TaskEnvelope := []
  delivered : ℕ := 0
  pending : List Pending := []
  sched : List (TaskEnvelope × ℚ) := []
  dlq : List (TaskEnvelope × String) := []

namespace QueueState

/-- `publish`: `XADD q:<queue>`. -/
def publish (q : QueueState) (e : TaskEnvelope) : QueueState :=
  { q with stream := q.stream ++ [e] }

/-- One entry of `XREADGROUP .. >`: the next undelivered entry goes to the consumer
and into the pending list. A batch is a sequence of these. -/
def lease (q : QueueState) (consumer : String) : Option (QueueState × ℕ × TaskEnvelope) :=
  (q.stream[q.delivered]?).map fun e =>
    ({ q with
        delivered := q.delivered + 1
        pending := q.pending ++ [⟨q.delivered, consumer⟩] }, q.delivered, e)

/-- `ack`: `XACK` of one id. -/
def ack (q : QueueState) (id : ℕ) : QueueState :=
  { q with pending := q.pending.filter fun p => p.id ≠ id }

/-- One entry of `XAUTOCLAIM`: a pending entry, idle for long enough, changes its
consumer. How long an entry has been idle is not tracked, so any pending entry may
be adopted. -/
def reclaim (q : QueueState) (consumer : String) (id : ℕ) : Option (QueueState × TaskEnvelope) :=
  if ∃ p ∈ q.pending, p.id = id then
    (q.stream[id]?).map fun e =>
      ({ q with
          pending := q.pending.map fun p =>
            if p.id = id then { p with consumer := consumer } else p },
        e)
  else none

/-- `ZADD`: a member has one score, and members are kept in score order. Redis
orders members of equal score by their text; here the newer one comes last. -/
def zadd (members : List (TaskEnvelope × ℚ)) (e : TaskEnvelope) (score : ℚ) :
    List (TaskEnvelope × ℚ) :=
  let rest := members.filter fun m => m.1 ≠ e
  rest.takeWhile (fun m => m.2 ≤ score) ++ (e, score) :: rest.dropWhile (fun m => m.2 ≤ score)

/-- `ZREM`. -/
def zrem (members : List (TaskEnvelope × ℚ)) (e : TaskEnvelope) : List (TaskEnvelope × ℚ) :=
  members.filter fun m => m.1 ≠ e

/-- `schedule`. -/
def schedule (q : QueueState) (e : TaskEnvelope) (runAt : ℚ) : QueueState :=
  { q with sched := zadd q.sched e runAt }

/-- `ZRANGEBYSCORE .. -inf now LIMIT 0 max`. -/
def due (q : QueueState) (now : ℚ) (max : ℕ) : List TaskEnvelope :=
  ((q.sched.filter fun m => m.2 ≤ now).take max).map Prod.fst

/-- The body of the loop in `promote_scheduled.lua`: `XADD`, then `ZREM`. -/
def promoteOne (q : QueueState) (e : TaskEnvelope) : QueueState :=
  { q with stream := q.stream ++ [e], sched := zrem q.sched e }

/-- `promote_scheduled`: move the due members to the stream, at most a hundred. -/
def promoteScheduled (q : QueueState) (now : ℚ) : QueueState :=
  (q.due now 100).foldl promoteOne q

/-- `dead_letter`. -/
def deadLetter (q : QueueState) (e : TaskEnvelope) (reason : String) : QueueState :=
  { q with dlq := q.dlq ++ [(e, reason)] }

/-! ### Specifications -/

theorem lease_eq_some {q q' : QueueState} {consumer : String} {id : ℕ} {e : TaskEnvelope}
    (h : q.lease consumer = some (q', id, e)) :
    id = q.delivered ∧ q.stream[q.delivered]? = some e ∧
      q' = { q with
        delivered := q.delivered + 1
        pending := q.pending ++ [⟨q.delivered, consumer⟩] } := by
  simp only [lease, Option.map_eq_some_iff, Prod.mk.injEq] at h
  obtain ⟨e', he', rfl, rfl, rfl⟩ := h
  exact ⟨rfl, he', rfl⟩

theorem reclaim_eq_some {q q' : QueueState} {consumer : String} {id : ℕ} {e : TaskEnvelope}
    (h : q.reclaim consumer id = some (q', e)) :
    (∃ p ∈ q.pending, p.id = id) ∧ q.stream[id]? = some e ∧
      q' = { q with
        pending := q.pending.map fun p =>
          if p.id = id then { p with consumer := consumer } else p } := by
  unfold reclaim at h
  split_ifs at h with hpending
  simp only [Option.map_eq_some_iff, Prod.mk.injEq] at h
  obtain ⟨e', he', rfl, rfl⟩ := h
  exact ⟨hpending, he', rfl⟩

theorem mem_zadd {members : List (TaskEnvelope × ℚ)} {e : TaskEnvelope} {score : ℚ}
    {m : TaskEnvelope × ℚ} :
    m ∈ zadd members e score ↔ m = (e, score) ∨ m ∈ members ∧ m.1 ≠ e := by
  have hsplit := List.takeWhile_append_dropWhile (p := fun m : TaskEnvelope × ℚ => m.2 ≤ score)
    (l := members.filter fun m => m.1 ≠ e)
  have hrest : m ∈ members ∧ m.1 ≠ e ↔
      m ∈ (members.filter fun m => m.1 ≠ e).takeWhile (fun m => m.2 ≤ score) ∨
        m ∈ (members.filter fun m => m.1 ≠ e).dropWhile (fun m => m.2 ≤ score) := by
    rw [← List.mem_append, hsplit, List.mem_filter]
    simp
  rw [hrest]
  simp only [zadd, List.mem_append, List.mem_cons]
  tauto

theorem foldl_promoteOne (batch : List TaskEnvelope) (q : QueueState) :
    batch.foldl promoteOne q =
      { q with
        stream := q.stream ++ batch
        sched := q.sched.filter fun m => m.1 ∉ batch } := by
  induction batch generalizing q with
  | nil => simp
  | cons e batch ih =>
    rw [List.foldl_cons, ih]
    simp only [promoteOne, zrem, List.filter_filter, List.append_assoc, List.singleton_append,
      List.mem_cons, not_or]
    congr 1
    refine List.filter_congr fun m _ => ?_
    simp [Bool.and_comm]

/-- The whole effect of a promotion: the due members are appended to the stream
and leave the sorted set. -/
theorem promoteScheduled_eq (q : QueueState) (now : ℚ) :
    q.promoteScheduled now =
      { q with
        stream := q.stream ++ q.due now 100
        sched := q.sched.filter fun m => m.1 ∉ q.due now 100 } :=
  foldl_promoteOne _ q

theorem mem_sched_of_mem_due {q : QueueState} {now : ℚ} {max : ℕ} {e : TaskEnvelope}
    (h : e ∈ q.due now max) : ∃ score, (e, score) ∈ q.sched := by
  obtain ⟨m, hm, rfl⟩ := List.mem_map.mp h
  exact ⟨m.2, (List.mem_filter.mp (List.mem_of_mem_take hm)).1⟩

end QueueState

/-- Redis: the lease keys and the keys of every queue. -/
structure Redis where
  leaseStore : LeaseStore
  queues : String → QueueState

namespace Redis

/-- No keys set. -/
def empty : Redis := ⟨.empty, fun _ => {}⟩

/-- Change the keys of one queue. -/
def modifyQueue (r : Redis) (queue : String) (f : QueueState → QueueState) : Redis :=
  { r with queues := Function.update r.queues queue (f (r.queues queue)) }

/-- Replace the lease keys. -/
def withLeases (r : Redis) (store : LeaseStore) : Redis := { r with leaseStore := store }

@[simp] theorem modifyQueue_leaseStore (r : Redis) (queue : String) (f : QueueState → QueueState) :
    (r.modifyQueue queue f).leaseStore = r.leaseStore := rfl

@[simp] theorem modifyQueue_self (r : Redis) (queue : String) (f : QueueState → QueueState) :
    (r.modifyQueue queue f).queues queue = f (r.queues queue) := by
  simp [modifyQueue]

theorem modifyQueue_of_ne (r : Redis) {queue other : String} (f : QueueState → QueueState)
    (h : other ≠ queue) : (r.modifyQueue queue f).queues other = r.queues other := by
  simp [modifyQueue, h]

theorem modifyQueue_modifyQueue (r : Redis) (queue : String) (f g : QueueState → QueueState) :
    (r.modifyQueue queue f).modifyQueue queue g = r.modifyQueue queue (g ∘ f) := by
  simp [modifyQueue]

theorem modifyQueue_id (r : Redis) (queue : String) : r.modifyQueue queue id = r := by
  simp [modifyQueue]

@[simp] theorem withLeases_queues (r : Redis) (store : LeaseStore) :
    (r.withLeases store).queues = r.queues := rfl

@[simp] theorem withLeases_leaseStore (r : Redis) (store : LeaseStore) :
    (r.withLeases store).leaseStore = store := rfl

end Redis

end Dtq
