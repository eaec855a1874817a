import Dtq.Broker.Scheduled
import Dtq.System.Custody

/-!
# Scheduled tasks are not starved

A tick of the scheduler moves a hundred due members of a schedule at most, the earliest first. A
member whose time has come therefore waits for those that are not later than it, its rivals: a
tick moves the member or a hundred of its rivals. New rivals come only by `schedule` calls for a
time that is not later either, one in a call.

## Main results

* `QueueState.promoteScheduled_rivals` — what a tick does for a member that is due
* `Sys.promoted_in_time` — how many ticks it takes, in any run of the system
-/

set_option autoImplicit false

namespace Dtq

open Scored

namespace QueueState

/-- The other members that the scheduler may move before one for that time. -/
def rivals (q : QueueState) (e : TaskEnvelope) (time : ℚ) : ℕ :=
  q.sched.countP fun m => m.1 ≠ e ∧ m.2 ≤ time

variable {q q' : QueueState} {e : TaskEnvelope} {time now : ℚ}

end QueueState

namespace MovesEarliest

variable {q q' : QueueState} {e : TaskEnvelope} {time now : ℚ} {count : ℕ}
  {batch : List (TaskEnvelope × ℚ)}

/-- A due member that stays behind has a full batch in front of it. -/
theorem length_of_stays (h : MovesEarliest q q' now count batch) (hm : (e, time) ∈ q'.sched)
    (hdue : time ≤ now) : batch.length = 100 := by
  have hparts := h.removed.countP_eq fun m => decide (m.2 ≤ now)
  rw [List.countP_append] at hparts
  have hbatch : batch.countP (fun m => m.2 ≤ now) = batch.length :=
    List.countP_eq_length.mpr fun m hm => decide_eq_true (h.due m hm)
  have hstays : 0 < q'.sched.countP fun m => m.2 ≤ now :=
    List.countP_pos_iff.mpr ⟨_, hm, decide_eq_true hdue⟩
  have hcount := h.count_eq
  have hlength := h.length_eq
  omega

/-- A member that a tick finds due is moved, or a hundred rivals of it are. -/
theorem rivals (h : MovesEarliest q q' now count batch) (hdistinct : Distinct q.sched)
    (hm : (e, time) ∈ q.sched) (hdue : time ≤ now) :
    e ∈ batch.map Prod.fst ∨ q'.rivals e time + 100 ≤ q.rivals e time := by
  rcases List.mem_append.mp (h.removed.subset hm) with hmoved | hstays
  · exact Or.inl (List.mem_map_of_mem hmoved)
  · have hlength := h.length_of_stays hstays hdue
    -- the whole batch consists of rivals
    have hapart : Distinct (batch ++ q'.sched) := hdistinct.perm h.removed
    have hbatch : batch.countP (fun m => m.1 ≠ e ∧ m.2 ≤ time) = batch.length := by
      refine List.countP_eq_length.mpr fun m hmem => decide_eq_true ⟨?_, ?_⟩
      · rintro rfl
        have hin : m.1 ∈ batch.map Prod.fst := List.mem_map_of_mem hmem
        exact hapart.fst_notMem hstays hin
      · exact h.earliest m hmem _ hstays
    have hparts := h.removed.countP_eq fun m => decide (m.1 ≠ e ∧ m.2 ≤ time)
    rw [List.countP_append, hbatch] at hparts
    exact Or.inr (by simp only [QueueState.rivals]; omega)

end MovesEarliest

namespace QueueState

variable {q q' : QueueState} {e : TaskEnvelope} {time now : ℚ}

/-- What a tick does for a member that is due. -/
theorem promoteScheduled_rivals (hordered : Ordered q.sched) (hdistinct : Distinct q.sched)
    (hm : (e, time) ∈ q.sched) (hdue : time ≤ now) :
    e ∈ q.due now 100 ∨ (q.promoteScheduled now).rivals e time + 100 ≤ q.rivals e time := by
  have heq : (q.promoteRange (q.sched.filter fun m => m.2 ≤ now)).1 = q.promoteScheduled now := by
    rw [promoteRange_eq, promoteScheduled_eq]
    rfl
  have hmoves := promote_moves hdistinct (hordered.isRange now)
  rw [heq] at hmoves
  exact hmoves.rivals hdistinct hm hdue

/-- Members that are not new are no new rivals. -/
theorem rivals_le (hdistinct : Distinct q'.sched) (new : List (TaskEnvelope × ℚ))
    (hold : ∀ m ∈ q'.sched, m.1 ≠ e → m.2 ≤ time → m ∈ q.sched ∨ m ∈ new) :
    q'.rivals e time ≤ q.rivals e time + new.length := by
  have hnodup : (q'.sched.filter fun m => m.1 ≠ e ∧ m.2 ≤ time).Nodup :=
    (List.Nodup.of_map _ hdistinct).filter _
  have hsub : (q'.sched.filter fun m => m.1 ≠ e ∧ m.2 ≤ time) ⊆
      (q.sched.filter fun m => m.1 ≠ e ∧ m.2 ≤ time) ++ new := by
    intro m hm
    obtain ⟨hmem, hrival⟩ := List.mem_filter.mp hm
    obtain ⟨hne, hle⟩ := of_decide_eq_true hrival
    rcases hold m hmem hne hle with hthere | hnew
    · exact List.mem_append_left _ (List.mem_filter.mpr ⟨hthere, hrival⟩)
    · exact List.mem_append_right _ hnew
  have hlength := (List.subperm_of_subset hnodup hsub).length_le
  rw [List.length_append] at hlength
  simpa only [rivals, List.countP_eq_length_filter] using hlength

end QueueState

/-- A tick of the queue's scheduler, with a clock that shows the time. -/
def Action.ticks (queue : String) (time : ℚ) : Action → Bool
  | .promote name now => name = queue ∧ time ≤ now
  | _ => false

theorem exists_of_ticks {queue : String} {time : ℚ} {a : Action}
    (h : a.ticks queue time = true) : ∃ now, a = .promote queue now ∧ time ≤ now := by
  cases a with
  | promote name now =>
    obtain ⟨rfl, hnow⟩ := of_decide_eq_true h
    exact ⟨now, rfl, hnow⟩
  | _ => simp [Action.ticks] at h

namespace Sys

/-- The step puts a new rival into the schedule. -/
def brings (queue : String) (e : TaskEnvelope) (time : ℚ) (s : Sys) (a : Action) : Bool :=
  (s.step a).elim false fun s' => (s'.redis.queues queue).sched.any fun m =>
    m.1 ≠ e ∧ m.2 ≤ time ∧ m ∉ (s.redis.queues queue).sched

/-- The step schedules the member for another time. -/
def postpones (queue : String) (e : TaskEnvelope) (time : ℚ) (s : Sys) (a : Action) : Bool :=
  (s.step a).elim false fun s' => (s'.redis.queues queue).sched.any fun m =>
    m.1 = e ∧ m.2 ≠ time

variable {s s' : Sys} {a : Action} {queue : String} {e : TaskEnvelope} {time : ℚ}

/-- What a step does to the schedule of a queue. -/
theorem Moves.sched_cases (h : s.Moves a s') (queue : String) :
    (s'.redis.queues queue).sched = (s.redis.queues queue).sched ∨
      (∃ e runAt, s'.redis.queues queue = (s.redis.queues queue).schedule e runAt) ∨
      ∃ now, s'.redis.queues queue = (s.redis.queues queue).promoteScheduled now := by
  generalize hq : s'.redis.queues queue = q'
  have hmove := h.queue_cases queue
  rw [hq] at hmove
  cases hmove with
  | enqueued hadded =>
    cases hadded with
    | published => exact Or.inl rfl
    | scheduled runAt => exact Or.inr (Or.inl ⟨_, runAt, rfl⟩)
  | retried => exact Or.inr (Or.inl ⟨_, _, rfl⟩)
  | promoted => exact Or.inr (Or.inr ⟨_, rfl⟩)
  | same | requeued | delivered | adopted | acked | deadLettered => exact Or.inl rfl

/-- The members of every schedule stand once and in the order of their times. -/
theorem Reachable.sched_ordered (h : s.Reachable) (queue : String) :
    Ordered (s.redis.queues queue).sched ∧ Distinct (s.redis.queues queue).sched := by
  refine Transition.Reaches.invariant (I := fun s : Sys =>
    Ordered (s.redis.queues queue).sched ∧ Distinct (s.redis.queues queue).sched) ?_ h ?_
  · rintro u a v ⟨hordered, hdistinct⟩ hstep
    obtain hsame | ⟨e, runAt, hq⟩ | ⟨now, hq⟩ := (moves_of_step hstep).sched_cases queue
    · rw [hsame]
      exact ⟨hordered, hdistinct⟩
    · rw [hq]
      exact ⟨QueueState.ordered_zadd hordered e runAt, QueueState.distinct_zadd hdistinct e runAt⟩
    · rw [hq, QueueState.promoteScheduled_eq]
      exact ⟨hordered.sublist List.filter_sublist, hdistinct.sublist List.filter_sublist⟩
  · exact ⟨List.Pairwise.nil, List.nodup_nil⟩

/-- The envelope has come to the stream, at a place from `start` on. -/
def Moved (s : Sys) (queue : String) (start : ℕ) (e : TaskEnvelope) : Prop :=
  ∃ k, start ≤ k ∧ (s.redis.queues queue).stream[k]? = some e

theorem Moved.mono {start start' : ℕ} (h : s.Moved queue start' e) (hle : start ≤ start') :
    s.Moved queue start e := by
  obtain ⟨k, hk, he⟩ := h
  exact ⟨k, hle.trans hk, he⟩

theorem Moved.step {start : ℕ} (h : s.Moved queue start e) (hstep : s.step a = some s') :
    s'.Moved queue start e := by
  obtain ⟨k, hk, he⟩ := h
  exact ⟨k, hk, Indexed.getElem?_of_grow ((moves_of_step hstep).stream_grow queue).1 he⟩

theorem Moved.of_reaches {start : ℕ} (h : s.Moved queue start e)
    (hrun : Transition.Reaches Sys.step s s') : s'.Moved queue start e :=
  hrun.invariant (I := fun s => s.Moved queue start e)
    (fun _ _ _ hmoved hstep => Moved.step hmoved hstep) h

/-- What the promotion of a queue does for a member. -/
theorem moved_of_due {now : ℚ} (hq : s'.redis.queues queue =
    (s.redis.queues queue).promoteScheduled now) (hm : (e, time) ∈ (s.redis.queues queue).sched) :
    s'.Moved queue (s.redis.queues queue).stream.length e ∨
      e ∉ (s.redis.queues queue).due now 100 ∧ (e, time) ∈ (s'.redis.queues queue).sched := by
  rw [Moved, hq, QueueState.promoteScheduled_eq]
  by_cases hdue : e ∈ (s.redis.queues queue).due now 100
  · obtain ⟨i, hi⟩ := List.mem_iff_getElem?.mp hdue
    refine Or.inl ⟨(s.redis.queues queue).stream.length + i, Nat.le_add_right _ _, ?_⟩
    rw [List.getElem?_append_right (Nat.le_add_right _ _), Nat.add_sub_cancel_left]
    exact hi
  · exact Or.inr ⟨hdue, List.mem_filter.mpr ⟨hm, decide_eq_true hdue⟩⟩

/-- What a step may add to a schedule. -/
theorem mem_of_not_brings {m : TaskEnvelope × ℚ} (hstep : s.step a = some s')
    (hnone : s.brings queue e time a = false) (hm : m ∈ (s'.redis.queues queue).sched)
    (hne : m.1 ≠ e) (hle : m.2 ≤ time) : m ∈ (s.redis.queues queue).sched := by
  simp only [brings, hstep, Option.elim_some, List.any_eq_false, decide_eq_true_eq] at hnone
  by_contra hnew
  exact hnone m hm ⟨hne, hle, hnew⟩

/-- A step moves a member that waits, or it leaves it there and changes the number of its rivals as
it should. -/
theorem waits_or_moved (hs : s.Reachable) (hm : (e, time) ∈ (s.redis.queues queue).sched)
    (hkept : s.postpones queue e time a = false) (hstep : s.step a = some s') :
    s'.Moved queue (s.redis.queues queue).stream.length e ∨
      (e, time) ∈ (s'.redis.queues queue).sched ∧
        (s'.redis.queues queue).rivals e time + 100 * (if a.ticks queue time then 1 else 0) ≤
          (s.redis.queues queue).rivals e time + if s.brings queue e time a then 1 else 0 := by
  obtain ⟨hordered, hdistinct⟩ := hs.sched_ordered queue
  have hs' : s'.Reachable := Relation.ReflTransGen.tail hs ⟨a, trivial, hstep⟩
  obtain ⟨-, hdistinct'⟩ := hs'.sched_ordered queue
  by_cases hticks : a.ticks queue time = true
  · -- a tick that finds the member due
    obtain ⟨now, rfl, hnow⟩ := exists_of_ticks hticks
    have hq : s'.redis.queues queue = (s.redis.queues queue).promoteScheduled now := by
      obtain rfl := Option.some.inj hstep
      rw [Redis.modifyQueue_self]
    rcases moved_of_due hq hm with hmoved | ⟨hnot, hstays⟩
    · exact Or.inl hmoved
    · refine Or.inr ⟨hstays, ?_⟩
      rw [if_pos hticks]
      have hfalls := (QueueState.promoteScheduled_rivals hordered hdistinct hm hnow).resolve_left
        hnot
      simp only [hq]
      omega
  · rw [if_neg hticks]
    have hrivals : ∀ new : List (TaskEnvelope × ℚ),
        (∀ m ∈ (s'.redis.queues queue).sched, m.1 ≠ e → m.2 ≤ time →
          m ∈ (s.redis.queues queue).sched ∨ m ∈ new) →
        (s'.redis.queues queue).rivals e time ≤
          (s.redis.queues queue).rivals e time + new.length :=
      fun new => QueueState.rivals_le hdistinct' new
    obtain hsame | ⟨e', runAt, hq⟩ | ⟨now, hq⟩ := (moves_of_step hstep).sched_cases queue
    · have hle := hrivals [] fun m hm _ _ => Or.inl (hsame ▸ hm)
      exact Or.inr ⟨hsame ▸ hm, hle.trans (Nat.le_add_right _ _)⟩
    · refine Or.inr ⟨?_, ?_⟩
      · rw [hq]
        by_cases he : e = e'
        · -- the member keeps its time
          subst he
          simp only [postpones, hstep, Option.elim_some, List.any_eq_false, decide_eq_true_eq,
            not_and, not_not] at hkept
          have hthere : (e, runAt) ∈ (s'.redis.queues queue).sched := by
            rw [hq]
            exact QueueState.mem_zadd.mpr (Or.inl rfl)
          obtain rfl : runAt = time := hkept _ hthere rfl
          exact QueueState.mem_zadd.mpr (Or.inl rfl)
        · exact QueueState.mem_zadd.mpr (Or.inr ⟨hm, he⟩)
      · cases hbrings : s.brings queue e time a with
        | true =>
          refine hrivals [(e', runAt)] fun m hm _ _ => ?_
          rw [hq] at hm
          rcases QueueState.mem_zadd.mp hm with rfl | ⟨hold, -⟩
          · exact Or.inr (List.mem_singleton.mpr rfl)
          · exact Or.inl hold
        | false =>
          exact hrivals [] fun m hm hne hle =>
            Or.inl (mem_of_not_brings hstep hbrings hm hne hle)
    · -- another tick
      rcases moved_of_due hq hm with hmoved | ⟨-, hstays⟩
      · exact Or.inl hmoved
      · refine Or.inr ⟨hstays, (hrivals [] fun m hm _ _ => ?_).trans (Nat.le_add_right _ _)⟩
        rw [hq, QueueState.promoteScheduled_eq] at hm
        exact Or.inl (List.mem_filter.mp hm).1

/-- A run moves a member that waits, or it leaves it there and changes the number of its rivals as
it should. -/
theorem run_waits_or_moved {labels : List Action} (hs : s.Reachable)
    (hm : (e, time) ∈ (s.redis.queues queue).sched)
    (hrun : Transition.run (Transition.guard step fun s a => s.postpones queue e time a = false)
      s labels = some s') :
    s'.Moved queue (s.redis.queues queue).stream.length e ∨
      (e, time) ∈ (s'.redis.queues queue).sched ∧
        (s'.redis.queues queue).rivals e time +
          100 * Transition.countWhen step (fun _ a => a.ticks queue time = true) s labels ≤
          (s.redis.queues queue).rivals e time +
            Transition.countWhen step (fun s a => s.brings queue e time a = true) s labels := by
  induction labels generalizing s with
  | nil =>
    obtain rfl : s = s' := by simpa [Transition.run] using hrun
    exact Or.inr ⟨hm, le_rfl⟩
  | cons a rest ih =>
    obtain ⟨u, hu, hrest⟩ := Option.bind_eq_some_iff.mp hrun
    by_cases hkept : s.postpones queue e time a = false
    · rw [Transition.guard, if_pos hkept] at hu
      have hreach : u.Reachable := Relation.ReflTransGen.tail hs ⟨a, trivial, hu⟩
      rcases waits_or_moved hs hm hkept hu with hmoved | ⟨hstays, hrivals⟩
      · exact Or.inl (Moved.of_reaches hmoved (Transition.ReachesWhen.of_run_guard hrest).reaches)
      · rcases ih hreach hstays hrest with hmoved | ⟨hthere, hcount⟩
        · exact Or.inl (Moved.mono hmoved ((moves_of_step hu).stream_grow queue).1.length_le)
        · refine Or.inr ⟨hthere, ?_⟩
          simp only [Transition.countWhen, hu, Option.elim_some]
          omega
    · rw [Transition.guard, if_neg hkept] at hu
      exact absurd hu (by simp)

/-- **Scheduled tasks are not starved.** A member of a schedule is moved to the stream by the ticks
of the scheduler that come when its time has come, whatever else happens: as soon as a hundred
times their number is more than the rivals that it had and those that `schedule` calls have
brought since. So it is when `schedule` calls do not come faster than a hundred a tick, as long
as it is not scheduled again for another time. -/
theorem promoted_in_time {labels : List Action} (hs : s.Reachable)
    (hm : (e, time) ∈ (s.redis.queues queue).sched)
    (hrun : Transition.run (Transition.guard step fun s a => s.postpones queue e time a = false)
      s labels = some s')
    (hticks : (s.redis.queues queue).rivals e time +
        Transition.countWhen step (fun s a => s.brings queue e time a = true) s labels <
      100 * Transition.countWhen step (fun _ a => a.ticks queue time = true) s labels) :
    ∃ k, (s.redis.queues queue).stream.length ≤ k ∧
      (s'.redis.queues queue).stream[k]? = some e := by
  rcases run_waits_or_moved hs hm hrun with hmoved | ⟨-, hcount⟩
  · exact hmoved
  · omega

/-- An envelope that is to run later. -/
def later (id : ℕ) : TaskEnvelope :=
  { taskId := ⟨id⟩
    queue := "q"
    taskName := "t"
    payload := .null
    createdAt := 0 }

/-- The theorem at a task with one rival in front of it, and one that is scheduled after it. -/
theorem promoted_in_time_tick : ∃ s s' : Sys,
    (s.redis.queues "q").rivals (later 1) 5 = 1 ∧ later 1 ∈ (s'.redis.queues "q").stream := by
  let calls : List Action := [.produce "q" (later 3) (some 4), .promote "q" 2, .promote "q" 6]
  obtain ⟨s, hrun, hm, hrivals, hcalls⟩ := Transition.exists_run_of_check step init
    [.produce "q" (later 1) (some 5), .produce "q" (later 2) (some 3)]
    (fun s => (later 1, (5 : ℚ)) ∈ (s.redis.queues "q").sched ∧
      (s.redis.queues "q").rivals (later 1) 5 = 1 ∧
      (Transition.run (Transition.guard step fun s a => s.postpones "q" (later 1) 5 a = false)
        s calls).isSome ∧
      Transition.countWhen step (fun s a => s.brings "q" (later 1) 5 a = true) s calls = 1 ∧
      Transition.countWhen step (fun _ a => a.ticks "q" 5 = true) s calls = 1)
    (by decide +kernel)
  obtain ⟨hsome, hbrings, hticks⟩ := hcalls
  obtain ⟨s', hrest⟩ := Option.isSome_iff_exists.mp hsome
  obtain ⟨k, -, hk⟩ := promoted_in_time (.of_run hrun) hm hrest (by omega)
  exact ⟨s, s', hrivals, List.mem_of_getElem? hk⟩

end Sys

end Dtq
