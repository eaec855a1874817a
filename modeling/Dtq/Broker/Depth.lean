import Mathlib.Data.List.Range
import Dtq.Lib.Transition
import Dtq.Broker.Redis

/-!
# Queue depth

`RedisBroker.queue_depth` reads the length of the stream, and `in_flight_count` the length of
the pending list. `ack` leaves the entry on the stream, so the reported depth counts what
was acknowledged as well. A lease or a reclaim of several entries is a sequence of steps
here, one for each entry.

## Main results

* `unfinished_eq` — the messages not acknowledged: undelivered or in flight
* `depth_eq_unfinished_iff` — the calls that keep the reported depth right
-/

set_option autoImplicit false

namespace Dtq

open Transition

namespace QueueState

/-- `queue_depth`: `XINFO STREAM` reports the stored entries. -/
def queueDepth (q : QueueState) : ℕ := q.stream.length

/-- `in_flight_count`: `XINFO GROUPS` reports the pending entries. -/
def inFlightCount (q : QueueState) : ℕ := q.pending.length

/-- `ack` of several ids. -/
def ackAll (q : QueueState) (ids : List ℕ) : QueueState := ids.foldl ack q

theorem ackAll_eq (ids : List ℕ) (q : QueueState) :
    q.ackAll ids = { q with pending := q.pending.filter fun p => p.id ∉ ids } := by
  induction ids generalizing q with
  | nil => simp [ackAll]
  | cons id ids ih =>
    have hstep : q.ackAll (id :: ids) = (q.ack id).ackAll ids := rfl
    rw [hstep, ih]
    simp only [ack, List.filter_filter, List.mem_cons, not_or]
    congr 1
    refine List.filter_congr fun p _ => ?_
    simp [Bool.and_comm]

end QueueState

/-- The calls on a queue that concern its stream. -/
inductive StreamCall
  | publish (envelope : TaskEnvelope)
  | promote (now : ℚ)
  | lease (consumer : String)
  | reclaim (consumer : String) (id : ℕ)
  | ack (ids : List ℕ)

/-- A queue with the ids acknowledged so far. -/
structure Backlog where
  queue : QueueState
  acked : List ℕ := []

namespace Backlog

/-- A call takes effect. -/
def step (s : Backlog) : StreamCall → Option Backlog
  | .publish e => some { s with queue := s.queue.publish e }
  | .promote now => some { s with queue := s.queue.promoteScheduled now }
  | .lease consumer => (s.queue.lease consumer).map fun r => { s with queue := r.1 }
  | .reclaim consumer id => (s.queue.reclaim consumer id).map fun r => { s with queue := r.1 }
  | .ack ids =>
    some
      { queue := s.queue.ackAll ids
        acked := s.acked ++ (s.queue.pending.filter fun p => p.id ∈ ids).map Pending.id }

/-- An empty stream; envelopes may already be scheduled. -/
def start (sched : List (TaskEnvelope × ℚ)) : Backlog := { queue := { sched := sched } }

/-- The messages put on the stream and not yet acknowledged. -/
def unfinished (s : Backlog) : ℕ :=
  (List.range s.queue.stream.length).countP fun id => id ∉ s.acked

/-- The call acknowledges no message: it is no `ack`, or names no id that is in flight. -/
def AcksNothing (s : Backlog) : StreamCall → Prop
  | .ack ids => ∀ p ∈ s.queue.pending, p.id ∉ ids
  | _ => True

instance (s : Backlog) (call : StreamCall) : Decidable (s.AcksNothing call) := by
  cases call <;> unfold AcksNothing <;> infer_instance

/-- Every delivered message is in flight or acknowledged, and no message is twice. -/
structure Accounted (s : Backlog) : Prop where
  delivered_le : s.queue.delivered ≤ s.queue.stream.length
  ids : (s.queue.pending.map Pending.id ++ s.acked).Perm (List.range s.queue.delivered)

variable {s t : Backlog} {call : StreamCall}

theorem accounted_start (sched : List (TaskEnvelope × ℚ)) : Accounted (start sched) :=
  ⟨le_refl 0, .refl _⟩

theorem Accounted.step (h : Accounted s) (hstep : s.step call = some t) : Accounted t := by
  cases call with
  | publish e =>
    simp only [Backlog.step, Option.some.injEq] at hstep
    subst hstep
    refine ⟨h.delivered_le.trans ?_, h.ids⟩
    simp [QueueState.publish]
  | promote now =>
    simp only [Backlog.step, Option.some.injEq, QueueState.promoteScheduled_eq] at hstep
    subst hstep
    exact ⟨h.delivered_le.trans (by simp), h.ids⟩
  | lease consumer =>
    simp only [Backlog.step, Option.map_eq_some_iff] at hstep
    obtain ⟨⟨q, id, e⟩, hlease, rfl⟩ := hstep
    obtain ⟨-, hentry, rfl⟩ := QueueState.lease_eq_some hlease
    obtain ⟨hlt, -⟩ := List.getElem?_eq_some_iff.mp hentry
    refine ⟨hlt, ?_⟩
    -- the id that becomes the next one delivered is put behind the pending ones
    rw [List.range_succ, List.map_append, List.append_assoc]
    refine (List.perm_append_comm.append_left _).trans ?_
    rw [← List.append_assoc]
    exact h.ids.append_right _
  | reclaim consumer id =>
    simp only [Backlog.step, Option.map_eq_some_iff] at hstep
    obtain ⟨⟨q, e⟩, hreclaim, rfl⟩ := hstep
    obtain ⟨-, -, rfl⟩ := QueueState.reclaim_eq_some hreclaim
    refine ⟨h.delivered_le, ?_⟩
    have hids : (s.queue.pending.map fun p =>
        if p.id = id then { p with consumer := consumer } else p).map Pending.id =
        s.queue.pending.map Pending.id := by
      rw [List.map_map]
      refine List.map_congr_left fun p _ => ?_
      simp only [Function.comp_apply]
      split_ifs <;> rfl
    rw [hids]
    exact h.ids
  | ack ids =>
    simp only [Backlog.step, Option.some.injEq, QueueState.ackAll_eq] at hstep
    subst hstep
    refine ⟨h.delivered_le, List.Perm.trans ?_ h.ids⟩
    -- what leaves the pending list is what the history gains
    have hsplit := List.filter_append_perm (fun p : Pending => decide (p.id ∈ ids)) s.queue.pending
    have hmap := (List.perm_append_comm.trans hsplit).map Pending.id
    rw [List.map_append] at hmap
    refine List.Perm.trans ?_ (hmap.append_right s.acked)
    rw [List.append_assoc]
    have hgained : (s.acked ++ (s.queue.pending.filter fun p => p.id ∈ ids).map Pending.id).Perm
        ((s.queue.pending.filter fun p => p.id ∈ ids).map Pending.id ++ s.acked) :=
      List.perm_append_comm
    simpa using hgained.append_left _

theorem accounted_of_reaches {sched : List (TaskEnvelope × ℚ)}
    (h : Reaches Backlog.step (start sched) s) : Accounted s :=
  h.invariant (fun _ _ _ hu hstep => hu.step hstep) (accounted_start sched)

/-- The messages not acknowledged are the undelivered ones and those in flight. -/
theorem Accounted.unfinished_eq (h : Accounted s) :
    s.unfinished = (s.queue.stream.length - s.queue.delivered) + s.queue.inFlightCount := by
  obtain ⟨rest, hrest⟩ := Nat.exists_eq_add_of_le h.delivered_le
  have hnodup : (s.queue.pending.map Pending.id ++ s.acked).Nodup :=
    h.ids.nodup_iff.mpr List.nodup_range
  have hacked : ∀ id ∈ s.acked, id < s.queue.delivered := fun id hid =>
    List.mem_range.mp (h.ids.mem_iff.mp (List.mem_append_right _ hid))
  -- of the delivered ones, those in flight count
  have hdelivered : (List.range s.queue.delivered).countP (fun id => decide (id ∉ s.acked)) =
      s.queue.inFlightCount := by
    rw [← h.ids.countP_eq, List.countP_append]
    have hpending : (s.queue.pending.map Pending.id).countP (fun id => decide (id ∉ s.acked)) =
        (s.queue.pending.map Pending.id).length := by
      refine List.countP_eq_length.mpr fun id hid => decide_eq_true fun hacked => ?_
      exact (List.nodup_append.mp hnodup).2.2 id hid id hacked rfl
    have hdone : s.acked.countP (fun id => decide (id ∉ s.acked)) = 0 :=
      List.countP_eq_zero.mpr fun id hid => by simpa using hid
    rw [hpending, hdone, List.length_map, add_zero, QueueState.inFlightCount]
  -- every undelivered one counts
  have hundelivered : ((List.range rest).map (s.queue.delivered + ·)).countP
      (fun id => decide (id ∉ s.acked)) = rest := by
    rw [List.countP_eq_length.mpr, List.length_map, List.length_range]
    intro id hid
    obtain ⟨n, -, rfl⟩ := List.mem_map.mp hid
    exact decide_eq_true fun hmem => absurd (hacked _ hmem) (by omega)
  rw [unfinished, hrest, List.range_add, List.countP_append, hdelivered, hundelivered]
  omega

/-- The reported depth exceeds the unfinished messages by the acknowledged ones. -/
theorem Accounted.queueDepth_eq (h : Accounted s) :
    s.queue.queueDepth = s.unfinished + s.acked.length := by
  have hlength := h.ids.length_eq
  have hdelivered := h.delivered_le
  rw [h.unfinished_eq, QueueState.queueDepth, QueueState.inFlightCount]
  simp only [List.length_append, List.length_map, List.length_range] at hlength
  omega

theorem acked_step (hstep : s.step call = some t) (hcall : s.AcksNothing call) :
    t.acked = s.acked := by
  cases call with
  | ack ids =>
    simp only [Backlog.step, Option.some.injEq] at hstep
    subst hstep
    have hnone : (s.queue.pending.filter fun p => p.id ∈ ids) = [] :=
      List.filter_eq_nil_iff.mpr fun p hp => by simpa using hcall p hp
    simp [hnone]
  | publish e | promote now =>
    simp only [Backlog.step, Option.some.injEq] at hstep
    rw [← hstep]
  | lease consumer | reclaim consumer id =>
    simp only [Backlog.step, Option.map_eq_some_iff] at hstep
    obtain ⟨_, -, rfl⟩ := hstep
    rfl

/-- A call that acknowledges a message adds to the history. -/
theorem acked_ne_nil_of_step (hstep : s.step call = some t) (hcall : ¬ s.AcksNothing call) :
    t.acked ≠ [] := by
  cases call with
  | ack ids =>
    simp only [Backlog.step, Option.some.injEq] at hstep
    subst hstep
    simp only [AcksNothing, not_forall, not_not] at hcall
    obtain ⟨p, hp, hid⟩ := hcall
    have hmem : p.id ∈ (s.queue.pending.filter fun p => p.id ∈ ids).map Pending.id :=
      List.mem_map_of_mem (List.mem_filter.mpr ⟨hp, by simpa using hid⟩)
    exact List.ne_nil_of_mem (List.mem_append_right _ hmem)
  | publish e | promote now | lease consumer | reclaim consumer id =>
    exact absurd trivial hcall

/-- **Queue depth.** In every run whose calls acknowledge nothing, the reported depth is the
number of messages put on the stream and not yet acknowledged. From a state of any run in
which it is, exactly the calls that acknowledge nothing keep it so; and it always exceeds
that number by the messages acknowledged so far. -/
theorem depth_eq_unfinished_iff (sched : List (TaskEnvelope × ℚ)) :
    (∀ s, ReachesWhen step AcksNothing (start sched) s → s.queue.queueDepth = s.unfinished) ∧
    ∀ s, Reaches step (start sched) s →
      s.queue.queueDepth = s.unfinished + s.acked.length ∧
      ∀ call t, s.step call = some t → s.queue.queueDepth = s.unfinished →
        (t.queue.queueDepth = t.unfinished ↔ s.AcksNothing call) := by
  refine ⟨fun s hs => ?_, fun s hs => ⟨(accounted_of_reaches hs).queueDepth_eq, ?_⟩⟩
  · have hnone : s.acked = [] :=
      hs.invariant (I := fun u => u.acked = [])
        (fun u call v hu hcall hstep => (acked_step hstep hcall).trans hu) rfl
    rw [(accounted_of_reaches hs.reaches).queueDepth_eq, hnone, List.length_nil, add_zero]
  · intro call t hstep heq
    have hs' := accounted_of_reaches hs
    have hsame := hs'.queueDepth_eq
    have hdepth := (hs'.step hstep).queueDepth_eq
    have hnone : s.acked = [] := List.eq_nil_of_length_eq_zero (by omega)
    constructor
    · intro hright
      by_contra hacks
      exact acked_ne_nil_of_step hstep hacks (List.eq_nil_of_length_eq_zero (by omega))
    · intro hcall
      rw [hdepth, acked_step hstep hcall, hnone, List.length_nil, add_zero]

/-- Two messages, one of them leased and adopted by a second worker. -/
theorem depth_eq_unfinished_two : ∃ s, ReachesWhen step AcksNothing (start []) s ∧
    s.queue.queueDepth = s.unfinished ∧ s.queue.inFlightCount = 1 ∧ s.unfinished = 2 := by
  let e : TaskEnvelope :=
    { taskId := ⟨1⟩, queue := "default", taskName := "add", payload := .null, createdAt := 0 }
  obtain ⟨s, hreach, hflight, hcount⟩ := exists_reachesWhen_of_check step AcksNothing (start [])
    [.publish e, .publish e.nextAttempt, .lease "w1", .reclaim "w2" 0, .ack [7]]
    (fun s => s.queue.inFlightCount = 1 ∧ s.unfinished = 2) (by decide +kernel)
  exact ⟨s, hreach, (depth_eq_unfinished_iff []).1 s hreach, hflight, hcount⟩

/-- One message, published, leased and acknowledged: nothing is left to do, and the reported
depth is one. -/
theorem depth_counts_acked : ∃ s, Reaches step (start []) s ∧ s.unfinished = 0 ∧
    s.queue.queueDepth ≠ s.unfinished := by
  let e : TaskEnvelope :=
    { taskId := ⟨1⟩, queue := "default", taskName := "add", payload := .null, createdAt := 0 }
  obtain ⟨s, hrun, hcheck⟩ := exists_run_of_check step (start [])
    [.publish e, .lease "w1", .ack [0]]
    (fun s => s.unfinished = 0 ∧ s.queue.queueDepth ≠ s.unfinished) (by decide +kernel)
  exact ⟨s, .of_run hrun, hcheck⟩

end Backlog

end Dtq
