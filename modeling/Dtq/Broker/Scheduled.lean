import Dtq.Lib.Scored
import Dtq.Lib.Transition
import Dtq.Broker.Redis

/-!
# Scheduling

Runs of `schedule` and `promote_scheduled` calls on one queue. Redis orders members of
equal score by their JSON text, which the model does not have, so a call of the script
carries the range that `ZRANGEBYSCORE` found: any listing of the due members in score
order. `Sorted.promoteScheduled_isCall` says that the promotion of `Dtq.Broker.Redis`
is the one that lists members of equal score in the order in which they came.

## Main results

* `promote_moves` — what one call of the script does to a queue
* `scheduling_conserves` — every run: what was promoted and what still waits is what entered
-/

set_option autoImplicit false

namespace Dtq

open Scored Transition

namespace QueueState

/-- The loop of `promote_scheduled.lua` over what is left of `due`, with its `count`. -/
def promoteLoop (q : QueueState) (count : ℕ) : List TaskEnvelope → QueueState × ℕ
  | [] => (q, count)
  | payload :: due => (q.promoteOne payload).promoteLoop (count + 1) due

/-- `promote_scheduled.lua` when the members up to `now` come in the order `range`:
`LIMIT 0 100` cuts it. -/
def promoteRange (q : QueueState) (range : List (TaskEnvelope × ℚ)) : QueueState × ℕ :=
  q.promoteLoop 0 ((range.take 100).map Prod.fst)

theorem promoteLoop_eq (due : List TaskEnvelope) (q : QueueState) (count : ℕ) :
    q.promoteLoop count due = (due.foldl promoteOne q, count + due.length) := by
  induction due generalizing q count with
  | nil => rfl
  | cons payload due ih =>
    rw [promoteLoop, ih, List.foldl_cons, List.length_cons]
    congr 1
    omega

theorem promoteRange_eq (q : QueueState) (range : List (TaskEnvelope × ℚ)) :
    q.promoteRange range =
      ({ q with
          stream := q.stream ++ (range.take 100).map Prod.fst
          sched := q.sched.filter fun m => m.1 ∉ (range.take 100).map Prod.fst },
        min range.length 100) := by
  rw [promoteRange, promoteLoop_eq, foldl_promoteOne]
  simp [Nat.min_comm]

/-- `zadd` keeps the members apart and in score order. -/
theorem distinct_zadd {members : List (TaskEnvelope × ℚ)} (h : Distinct members)
    (e : TaskEnvelope) (score : ℚ) : Distinct (zadd members e score) := by
  have hrest : Distinct (members.filter fun m => m.1 ≠ e) := h.sublist List.filter_sublist
  have hperm : ((e, score) :: members.filter fun m => m.1 ≠ e).Perm (zadd members e score) := by
    rw [zadd]
    conv_lhs => rw [← List.takeWhile_append_dropWhile (p := fun m => decide (m.2 ≤ score))
      (l := members.filter fun m => m.1 ≠ e)]
    exact List.perm_middle.symm
  refine Distinct.perm ?_ hperm
  rw [Distinct, List.map_cons, List.nodup_cons]
  exact ⟨by simp, hrest⟩

theorem ordered_zadd {members : List (TaskEnvelope × ℚ)} (h : Ordered members)
    (e : TaskEnvelope) (score : ℚ) : Ordered (zadd members e score) :=
  (h.sublist List.filter_sublist).place e score

end QueueState

/-- One call of a worker or of the scheduler tick. -/
inductive SchedulingCall
  | schedule (envelope : TaskEnvelope) (runAt : ℚ)
  | promote (now : ℚ) (range : List (TaskEnvelope × ℚ))

/-- A queue with what was done to it so far: the envelopes whose `schedule` found them
absent from the sorted set, and the envelopes promoted. -/
structure Scheduling where
  queue : QueueState
  entered : List TaskEnvelope := []
  promoted : List TaskEnvelope := []

namespace Scheduling

/-- An envelope is in the sorted set. -/
def Waiting (s : Scheduling) (e : TaskEnvelope) : Prop := ∃ m ∈ s.queue.sched, m.1 = e

instance (s : Scheduling) (e : TaskEnvelope) : Decidable (s.Waiting e) :=
  inferInstanceAs (Decidable (∃ m ∈ s.queue.sched, m.1 = e))

/-- A call takes effect. -/
def step (s : Scheduling) : SchedulingCall → Option Scheduling
  | .schedule e runAt =>
    some { s with
      queue := s.queue.schedule e runAt
      entered := if s.Waiting e then s.entered else s.entered ++ [e] }
  | .promote now range =>
    if IsRange s.queue.sched now range then
      some { s with
        queue := (s.queue.promoteRange range).1
        promoted := s.promoted ++ (range.take 100).map Prod.fst }
    else none

/-- A queue on which nothing was scheduled yet. -/
def start (q : QueueState) : Scheduling := { queue := { q with sched := [] } }

end Scheduling

/-- A call at time `now` that turned `q` into `q'` and returned `count` moved the earliest
due members, a hundred at most, to the end of the stream, and nothing else. -/
structure MovesEarliest (q q' : QueueState) (now : ℚ) (count : ℕ)
    (batch : List (TaskEnvelope × ℚ)) : Prop where
  count_eq : count = min (q.sched.countP fun m => m.2 ≤ now) 100
  length_eq : batch.length = count
  removed : q.sched.Perm (batch ++ q'.sched)
  due : ∀ m ∈ batch, m.2 ≤ now
  earliest : ∀ m ∈ batch, ∀ m' ∈ q'.sched, m.2 ≤ m'.2
  ordered : Ordered batch
  appended : q'.stream = q.stream ++ batch.map Prod.fst
  once : (batch.map Prod.fst).Nodup
  untouched : (q'.sched.filter fun m => now < m.2) = q.sched.filter fun m => now < m.2
  delivered_eq : q'.delivered = q.delivered
  pending_eq : q'.pending = q.pending
  dlq_eq : q'.dlq = q.dlq

/-- What one call of the script does to a queue whose members are distinct. -/
theorem promote_moves {q : QueueState} {now : ℚ} {range : List (TaskEnvelope × ℚ)}
    (hdistinct : Distinct q.sched) (hrange : IsRange q.sched now range) :
    MovesEarliest q (q.promoteRange range).1 now (q.promoteRange range).2 (range.take 100) := by
  have hperm := hrange.perm_append_filter hdistinct 100
  have hparts : Distinct (range.take 100 ++ (q.promoteRange range).1.sched) := by
    rw [QueueState.promoteRange_eq]
    exact hdistinct.perm hperm
  have hdue : ∀ m ∈ range.take 100, m.2 ≤ now := fun m hm =>
    (hrange.mem_iff.mp (List.mem_of_mem_take hm)).2
  have hlength : range.length = q.sched.countP fun m => m.2 ≤ now := by
    rw [hrange.perm.length_eq, List.countP_eq_length_filter]
  rw [QueueState.promoteRange_eq] at hparts ⊢
  exact {
    count_eq := by rw [hlength]
    length_eq := by simp [Nat.min_comm]
    removed := hperm
    due := hdue
    earliest := by
      intro m hm m' hm'
      have hm'old : m' ∈ q.sched := List.mem_of_mem_filter hm'
      by_cases hm'due : m'.2 ≤ now
      · -- a due member that stays is one of the range beyond the cut
        have hm'range := hrange.mem_iff.mpr ⟨hm'old, hm'due⟩
        rw [← List.take_append_drop 100 range] at hm'range
        rcases List.mem_append.mp hm'range with htaken | hleft
        · exact absurd (List.mem_map_of_mem htaken) (hparts.fst_notMem hm')
        · exact hrange.ordered.le_of_take hm hleft
      · exact (hdue m hm).trans (not_le.mp hm'due).le
    ordered := hrange.ordered.sublist (List.take_sublist _ _)
    appended := rfl
    once := by
      rw [Distinct, List.map_append] at hparts
      exact (List.nodup_append.mp hparts).1
    untouched := by
      rw [List.filter_filter]
      refine List.filter_congr fun m hm => ?_
      by_cases hlate : now < m.2
      · have hstays : m.1 ∉ (range.take 100).map Prod.fst := by
          intro hmem
          obtain ⟨m', hm', heq⟩ := List.mem_map.mp hmem
          have hsame : m' = m := by
            have hm'old := (hrange.mem_iff.mp (List.mem_of_mem_take hm')).1
            exact List.inj_on_of_nodup_map hdistinct hm'old hm heq
          exact absurd (hdue m' hm') (not_le.mpr (hsame ▸ hlate))
        rw [decide_eq_true hlate, decide_eq_true hstays]
        rfl
      · simp [hlate]
    delivered_eq := rfl
    pending_eq := rfl
    dlq_eq := rfl }

namespace Scheduling

/-- The sorted set keeps its form, and the account of the envelopes balances. -/
structure Sorted (initial : List TaskEnvelope) (s : Scheduling) : Prop where
  ordered : Ordered s.queue.sched
  distinct : Distinct s.queue.sched
  stream_eq : s.queue.stream = initial ++ s.promoted
  balance : ∀ e, s.promoted.count e + (if s.Waiting e then 1 else 0) = s.entered.count e

variable {initial : List TaskEnvelope} {s t : Scheduling}

theorem sorted_start (q : QueueState) : Sorted q.stream (start q) where
  ordered := List.Pairwise.nil
  distinct := List.nodup_nil
  stream_eq := by simp [start]
  balance := by simp [start, Waiting]

/-- In a set of distinct members an envelope is counted once or not at all. -/
theorem count_sched (h : Distinct s.queue.sched) (e : TaskEnvelope) :
    (s.queue.sched.map Prod.fst).count e = if s.Waiting e then 1 else 0 := by
  have hiff : s.Waiting e ↔ e ∈ s.queue.sched.map Prod.fst := by simp [Waiting]
  split_ifs with hmem
  · exact List.count_eq_one_of_mem h (hiff.mp hmem)
  · exact List.count_eq_zero.mpr (hiff.not.mp hmem)

theorem Sorted.schedule (h : Sorted initial s) {e : TaskEnvelope} {runAt : ℚ}
    (hstep : s.step (.schedule e runAt) = some t) : Sorted initial t := by
  simp only [step, Option.some.injEq] at hstep
  have hqueue : t.queue = s.queue.schedule e runAt := by rw [← hstep]
  have hpromoted : t.promoted = s.promoted := by rw [← hstep]
  have hentered : t.entered = if s.Waiting e then s.entered else s.entered ++ [e] := by
    rw [← hstep]
  have hwaiting : ∀ e', t.Waiting e' ↔ e' = e ∨ s.Waiting e' := by
    intro e'
    simp only [Waiting, hqueue, QueueState.schedule, QueueState.mem_zadd]
    constructor
    · rintro ⟨m, rfl | ⟨hm, -⟩, rfl⟩
      · exact Or.inl rfl
      · exact Or.inr ⟨m, hm, rfl⟩
    · rintro (rfl | ⟨m, hm, rfl⟩)
      · exact ⟨_, Or.inl rfl, rfl⟩
      · by_cases hme : m.1 = e
        · exact ⟨_, Or.inl rfl, hme.symm⟩
        · exact ⟨m, Or.inr ⟨hm, hme⟩, rfl⟩
  refine ⟨?_, ?_, ?_, fun e' => ?_⟩
  · rw [hqueue]
    exact QueueState.ordered_zadd h.ordered e runAt
  · rw [hqueue]
    exact QueueState.distinct_zadd h.distinct e runAt
  · rw [hqueue, hpromoted]
    exact h.stream_eq
  · have hbalance := h.balance e'
    rw [hpromoted, hentered]
    by_cases hold : s.Waiting e
    · -- a second `ZADD` of a member only moves it
      have hsame : t.Waiting e' ↔ s.Waiting e' :=
        (hwaiting e').trans (or_iff_right_of_imp fun heq => heq ▸ hold)
      simp only [hsame, if_pos hold]
      exact hbalance
    · rw [if_neg hold, List.count_append]
      by_cases heq : e' = e
      · subst heq
        rw [if_neg hold] at hbalance
        rw [if_pos ((hwaiting e').mpr (Or.inl rfl)), ← hbalance]
        simp
      · have hsame : t.Waiting e' ↔ s.Waiting e' := (hwaiting e').trans (or_iff_right heq)
        have hcount : [e].count e' = 0 := List.count_eq_zero.mpr (by simpa using heq)
        simp only [hsame, hcount]
        exact hbalance

theorem Sorted.promote (h : Sorted initial s) {now : ℚ} {range : List (TaskEnvelope × ℚ)}
    (hstep : s.step (.promote now range) = some t) : Sorted initial t := by
  simp only [step] at hstep
  split_ifs at hstep with hrange
  have hmoves := promote_moves h.distinct hrange
  have hqueue : t.queue = (s.queue.promoteRange range).1 := by rw [← Option.some.inj hstep]
  have hpromoted : t.promoted = s.promoted ++ (range.take 100).map Prod.fst := by
    rw [← Option.some.inj hstep]
  have hentered : t.entered = s.entered := by rw [← Option.some.inj hstep]
  rw [← hqueue] at hmoves
  have hdistinct : Distinct t.queue.sched :=
    (h.distinct.perm hmoves.removed).sublist (List.sublist_append_right _ _)
  refine ⟨?_, hdistinct, ?_, fun e => ?_⟩
  · rw [hqueue, QueueState.promoteRange_eq]
    exact h.ordered.sublist List.filter_sublist
  · rw [hmoves.appended, h.stream_eq, hpromoted, List.append_assoc]
  · -- a member of the batch leaves the set as it enters the stream
    have hbalance := h.balance e
    have hmoved := (hmoves.removed.map Prod.fst).count_eq e
    rw [List.map_append, List.count_append, count_sched h.distinct, count_sched hdistinct] at hmoved
    rw [hpromoted, hentered, List.count_append]
    omega

theorem sorted_of_reaches {q : QueueState} (h : Reaches step (start q) s) :
    Sorted q.stream s := by
  refine h.invariant (I := Sorted q.stream) (fun u call v hu hstep => ?_) (sorted_start q)
  cases call with
  | schedule e runAt => exact hu.schedule hstep
  | promote now range => exact hu.promote hstep

/-- The promotion of `Dtq.Broker.Redis` is a call of the script. -/
theorem Sorted.promoteScheduled_isCall (h : Sorted initial s) (now : ℚ) :
    ∃ range, IsRange s.queue.sched now range ∧
      s.queue.promoteScheduled now = (s.queue.promoteRange range).1 := by
  refine ⟨_, h.ordered.isRange now, ?_⟩
  rw [QueueState.promoteScheduled_eq, QueueState.promoteRange_eq]
  rfl

/-- **Scheduling.** In every run of `schedule` and `promote_scheduled` calls on a queue that
started with nothing scheduled, each promotion moves the earliest due members, a hundred at
most, and for every envelope the promotions so far, and the wait if it waits, are as many as
the `schedule` calls that found it absent. -/
theorem scheduling_conserves (q : QueueState) {s : Scheduling} (h : Reaches step (start q) s) :
    (∀ now range, IsRange s.queue.sched now range →
      MovesEarliest s.queue (s.queue.promoteRange range).1 now (s.queue.promoteRange range).2
        (range.take 100)) ∧
    s.queue.stream = q.stream ++ s.promoted ∧
    ∀ e, s.promoted.count e + (if s.Waiting e then 1 else 0) = s.entered.count e := by
  have hsorted := sorted_of_reaches h
  exact ⟨fun now range hrange => promote_moves hsorted.distinct hrange, hsorted.stream_eq,
    hsorted.balance⟩

/-- Two envelopes, the first scheduled twice, and a promotion between their times. -/
theorem scheduling_conserves_twice : ∃ s, Reaches step (start {}) s ∧ ∃ e e', e ≠ e' ∧
    s.promoted.count e + (if s.Waiting e then 1 else 0) = 1 ∧
    s.promoted.count e' + (if s.Waiting e' then 1 else 0) = 1 ∧ s.promoted = [e] := by
  let e : TaskEnvelope :=
    { taskId := ⟨1⟩, queue := "default", taskName := "add", payload := .null, createdAt := 0 }
  obtain ⟨s, hreach, hentered, hpromoted⟩ := exists_reachesWhen_of_check step (fun _ _ => True)
    (start {}) [.schedule e 5, .schedule e.nextAttempt 9, .schedule e 3, .promote 4 [(e, 3)]]
    (fun s => s.entered = [e, e.nextAttempt] ∧ s.promoted = [e]) (by decide +kernel)
  have hbalance := (scheduling_conserves {} hreach).2.2
  rw [hentered] at hbalance
  exact ⟨s, hreach, e, e.nextAttempt, by decide, hbalance e, hbalance _, hpromoted⟩

end Scheduling

end Dtq
