import Mathlib.Algebra.Order.Field.Rat
import Mathlib.Algebra.Order.Floor.Defs
import Mathlib.Data.Rat.Floor
import Dtq.Lib.DelayLine
import Dtq.Broker.Scheduled

/-!
# Delayed delivery on RabbitMQ and on Redis

`RabbitMQBroker.schedule` publishes to the one delay queue of a task queue, with a time to live of
its own for each message, and `promote_scheduled` does nothing: RabbitMQ moves a message to the
main queue through the dead-letter exchange of the delay queue, when its time has passed and it is
at the head. `RedisBroker` keeps the delayed envelopes in a sorted set, whose due members every
tick of `promote_scheduled` moves to the stream.

The two are compared on the same calls, made by the time `t`: with what RabbitMQ has moved by `t`,
if it moves messages as soon as it may, and with what Redis holds on the stream when ticks at `t`
have left nothing due.

## Main results

* `RabbitDelay.mem_available_iff` — what has reached the main queue on RabbitMQ
* `RabbitDelay.mem_stream_iff` — what has reached the stream on Redis
* `RabbitDelay.available_eq_stream_iff` — the calls and times for which the two agree
* `RabbitDelay.available_eq_stream_of_monotone` — among them are all calls in the order of their
  times
-/

set_option autoImplicit false

namespace Dtq

open Transition

/-- A call `schedule(queue, envelope, run_at)`, made at the time `now`. -/
structure ScheduleCall where
  envelope : TaskEnvelope
  runAt : ℚ
  now : ℚ
deriving DecidableEq

namespace RabbitDelay

/-- `int(x)`: towards zero. -/
def int (x : ℚ) : ℤ := if 0 ≤ x then ⌊x⌋ else ⌈x⌉

/-- `delay_ms = max(0, int((run_at - time.time()) * 1000))`. -/
def delayMs (c : ScheduleCall) : ℤ := max 0 (int ((c.runAt - c.now) * 1000))

/-- When the message that the call publishes with `expiration=str(delay_ms)` expires. -/
def expiry (c : ScheduleCall) : ℚ := c.now + delayMs c / 1000

/-- The delay queue, with the messages that it has passed to the main queue. -/
abbrev DelayQueue := DelayLine TaskEnvelope ℚ

/-- `RabbitMQBroker.schedule`: the message arrives at the end of the delay queue. -/
def schedule (q : DelayQueue) (c : ScheduleCall) : DelayQueue :=
  q.receive (c.envelope, expiry c) c.now

/-- The envelopes that the calls have made available on the main queue by the time `t`. -/
def available (calls : List ScheduleCall) (t : ℚ) : List TaskEnvelope :=
  ((calls.foldl schedule {}).elapse t).released

/-- The same calls of `RedisBroker.schedule`. -/
def redisCalls (calls : List ScheduleCall) : List SchedulingCall :=
  calls.map fun c => .schedule c.envelope c.runAt

/-- A tick of `promote_scheduled` at the time `t`. -/
def IsTick (t : ℚ) (call : SchedulingCall) : Prop := ∃ range, call = .promote t range

/-- Redis after the calls, and after ticks at the time `t` that have left nothing due. -/
def Promoted (calls : List ScheduleCall) (t : ℚ) (s : Scheduling) : Prop :=
  ∃ s₀, run Scheduling.step (Scheduling.start {}) (redisCalls calls) = some s₀ ∧
    ReachesWhen Scheduling.step (fun _ call => IsTick t call) s₀ s ∧
    ∀ m ∈ s.queue.sched, t < m.2

/-- The time for which an envelope was scheduled last. -/
def lastRunAt (calls : List ScheduleCall) (e : TaskEnvelope) : Option ℚ :=
  (calls.reverse.find? fun c => c.envelope = e).map ScheduleCall.runAt

/-- An envelope is due at `t`: the time for which it was scheduled last has come. -/
def DueBy (t : ℚ) (calls : List ScheduleCall) (e : TaskEnvelope) : Prop :=
  ∃ runAt ∈ lastRunAt calls e, runAt ≤ t

instance (t : ℚ) (calls : List ScheduleCall) (e : TaskEnvelope) : Decidable (DueBy t calls e) :=
  inferInstanceAs (Decidable (∃ runAt ∈ lastRunAt calls e, runAt ≤ t))

/-- The messages that the calls publish, with their expiries. -/
def messages (calls : List ScheduleCall) : List (TaskEnvelope × ℚ) :=
  calls.map fun c => (c.envelope, expiry c)

variable {calls : List ScheduleCall} {t : ℚ} {e : TaskEnvelope} {s s' : Scheduling}

/-! ### RabbitMQ -/

/-- **RabbitMQ.** An envelope is available when no message up to its first one waits for its
expiry. -/
theorem mem_available_iff (hnow : ∀ c ∈ calls, c.now ≤ t) :
    e ∈ available calls t ↔ DelayLine.PassesBy t e (messages calls) := by
  have hrun := DelayLine.elapse_foldl_receive (fun c => (c.envelope, expiry c)) ScheduleCall.now
    calls hnow {}
  rw [available, ← DelayLine.mem_released_iff, messages, ← hrun]
  rfl

/-! ### Redis -/

theorem lastRunAt_append (calls : List ScheduleCall) (c : ScheduleCall) (e : TaskEnvelope) :
    lastRunAt (calls ++ [c]) e = if c.envelope = e then some c.runAt else lastRunAt calls e := by
  by_cases he : c.envelope = e
  · simp [lastRunAt, he]
  · simp [lastRunAt, he]

/-- The sorted set after the calls holds every envelope with the time given last, in order. -/
theorem run_redisCalls (calls : List ScheduleCall) :
    ∃ s, run Scheduling.step (Scheduling.start {}) (redisCalls calls) = some s ∧
      s.queue.stream = [] ∧ Scored.Ordered s.queue.sched ∧
      ∀ e runAt, (e, runAt) ∈ s.queue.sched ↔ lastRunAt calls e = some runAt := by
  induction calls using List.reverseRecOn with
  | nil => exact ⟨_, rfl, rfl, List.Pairwise.nil, by simp [Scheduling.start, lastRunAt]⟩
  | append_singleton calls c ih =>
    obtain ⟨s, hrun, hstream, hordered, hsched⟩ := ih
    have hcalls :
        redisCalls (calls ++ [c]) = redisCalls calls ++ [.schedule c.envelope c.runAt] := by
      simp [redisCalls]
    rw [hcalls, run_append, hrun]
    refine ⟨_, rfl, hstream, QueueState.ordered_zadd hordered _ _, fun e runAt => ?_⟩
    rw [lastRunAt_append]
    by_cases he : c.envelope = e
    · simp [QueueState.schedule, QueueState.mem_zadd, he, eq_comm]
    · simp [QueueState.schedule, QueueState.mem_zadd, he, Ne.symm he, hsched]

/-- Between the calls and a later tick: members leave the sorted set for the stream, when they
are due. -/
structure Ticked (t : ℚ) (s₀ s : Scheduling) : Prop where
  subset : ∀ m ∈ s.queue.sched, m ∈ s₀.queue.sched
  due : ∀ e ∈ s.queue.stream, ∃ m ∈ s₀.queue.sched, m.1 = e ∧ m.2 ≤ t
  moved : ∀ m ∈ s₀.queue.sched, m ∈ s.queue.sched ∨ m.1 ∈ s.queue.stream

theorem Ticked.step {s₀ : Scheduling} (h : Ticked t s₀ s) {range : List (TaskEnvelope × ℚ)}
    (hstep : Scheduling.step s (.promote t range) = some s') : Ticked t s₀ s' := by
  simp only [Scheduling.step] at hstep
  split_ifs at hstep with hrange
  have hqueue : s'.queue = (s.queue.promoteRange range).1 := by rw [← Option.some.inj hstep]
  rw [QueueState.promoteRange_eq] at hqueue
  refine ⟨fun m hm => ?_, fun e he => ?_, fun m hm => ?_⟩
  · rw [hqueue] at hm
    exact h.subset m (List.mem_of_mem_filter hm)
  · rw [hqueue] at he
    rcases List.mem_append.mp he with hold | hnew
    · exact h.due e hold
    · obtain ⟨m, hm, rfl⟩ := List.mem_map.mp hnew
      obtain ⟨hmem, hdue⟩ := hrange.mem_iff.mp (List.mem_of_mem_take hm)
      exact ⟨m, h.subset m hmem, rfl, hdue⟩
  · rw [hqueue]
    rcases h.moved m hm with hwaits | hgone
    · by_cases hbatch : m.1 ∈ (range.take 100).map Prod.fst
      · exact Or.inr (List.mem_append_right _ hbatch)
      · exact Or.inl (List.mem_filter.mpr ⟨hwaits, by simpa using hbatch⟩)
    · exact Or.inr (List.mem_append_left _ hgone)

/-- **Redis.** An envelope is on the stream when its last time has come. -/
theorem mem_stream_iff (h : Promoted calls t s) : e ∈ s.queue.stream ↔ DueBy t calls e := by
  obtain ⟨s₀, hrun, hticks, hidle⟩ := h
  obtain ⟨s₁, hrun₁, hstream, -, hsched⟩ := run_redisCalls calls
  obtain rfl : s₀ = s₁ := Option.some.inj (hrun.symm.trans hrun₁)
  have hticked : Ticked t s₀ s := by
    refine hticks.invariant (I := Ticked t s₀) (fun u call v hu hcall hstep => ?_) ?_
    · obtain ⟨range, rfl⟩ := hcall
      exact hu.step hstep
    · exact ⟨fun m hm => hm, by simp [hstream], fun m hm => Or.inl hm⟩
  constructor
  · intro he
    obtain ⟨m, hm, rfl, hdue⟩ := hticked.due e he
    exact ⟨m.2, (hsched m.1 m.2).mp hm, hdue⟩
  · rintro ⟨runAt, hlast, hdue⟩
    -- a member that is due has not stayed in the sorted set
    rcases hticked.moved (e, runAt) ((hsched e runAt).mpr hlast) with hwaits | hgone
    · exact absurd (hidle _ hwaits) (not_lt.mpr hdue)
    · exact hgone

/-- A tick while something is due makes the sorted set smaller. -/
theorem exists_tick (hordered : Scored.Ordered s.queue.sched)
    (hdue : ∃ m ∈ s.queue.sched, m.2 ≤ t) :
    ∃ range s', Scheduling.step s (.promote t range) = some s' ∧
      Scored.Ordered s'.queue.sched ∧ s'.queue.sched.length < s.queue.sched.length := by
  obtain ⟨m, hm, hmt⟩ := hdue
  let range := s.queue.sched.filter fun m => m.2 ≤ t
  have hrange : Scored.IsRange s.queue.sched t range := hordered.isRange t
  refine ⟨range, _, if_pos hrange, ?_, ?_⟩
  · rw [QueueState.promoteRange_eq]
    exact hordered.sublist List.filter_sublist
  · -- the first member of the range is due, and leaves
    rw [QueueState.promoteRange_eq]
    have hmem : m ∈ range := List.mem_filter.mpr ⟨hm, by simpa using hmt⟩
    obtain ⟨first, rest, hsplit⟩ := List.exists_cons_of_ne_nil (List.ne_nil_of_mem hmem)
    have hfirst : first ∈ s.queue.sched := by
      have : first ∈ range := hsplit ▸ List.mem_cons_self
      exact List.mem_of_mem_filter this
    refine List.length_filter_lt_length_iff_exists.mpr ⟨first, hfirst, ?_⟩
    simp [hsplit]

/-- Ticks leave nothing due in the end. -/
theorem exists_promoted (calls : List ScheduleCall) (t : ℚ) : ∃ s, Promoted calls t s := by
  obtain ⟨s₀, hrun, -, hordered, -⟩ := run_redisCalls calls
  have hprogress (s : Scheduling) (hs : Scored.Ordered s.queue.sched) :
      (∀ m ∈ s.queue.sched, t < m.2) ∨ ∃ call s', IsTick t call ∧
        Scheduling.step s call = some s' ∧ Scored.Ordered s'.queue.sched ∧
        s'.queue.sched.length < s.queue.sched.length := by
    by_cases hidle : ∀ m ∈ s.queue.sched, t < m.2
    · exact Or.inl hidle
    · push Not at hidle
      obtain ⟨range, s', hstep, hs', hlt⟩ := exists_tick hs hidle
      exact Or.inr ⟨_, s', ⟨range, rfl⟩, hstep, hs', hlt⟩
  obtain ⟨s, hreach, -, hidle⟩ := exists_reachesWhen_of_measure
    (fun s : Scheduling => s.queue.sched.length) hprogress hordered
  exact ⟨s, s₀, hrun, hreach, hidle⟩

/-! ### Both -/

theorem exists_call_of_dueBy (h : DueBy t calls e) : ∃ c ∈ calls, c.envelope = e := by
  obtain ⟨runAt, hlast, -⟩ := h
  obtain ⟨c, hfind, -⟩ := Option.map_eq_some_iff.mp hlast
  exact ⟨c, List.mem_reverse.mp (List.mem_of_find?_eq_some hfind),
    by simpa using List.find?_some hfind⟩

theorem exists_call_of_passesBy (h : DelayLine.PassesBy t e (messages calls)) :
    ∃ c ∈ calls, c.envelope = e ∧ expiry c ≤ t := by
  obtain ⟨k, hmem, hk⟩ := h.exists_mem
  obtain ⟨c, hc, heq⟩ := List.mem_map.mp hmem
  obtain ⟨rfl, rfl⟩ := Prod.mk.inj heq
  exact ⟨c, hc, rfl, hk⟩

/-- An envelope of one task. -/
def addTask (taskId : BitVec 128) : TaskEnvelope where
  taskId := ⟨taskId⟩
  queue := "default"
  taskName := "add"
  payload := .null
  createdAt := 0

/-- A message whose delay is a whole number of milliseconds expires at its time, or at once when
that is past. -/
theorem expiry_eq_max {c : ScheduleCall}
    (h : c.runAt ≤ c.now ∨ ∃ ms : ℤ, (c.runAt - c.now) * 1000 = ms) :
    expiry c = max c.runAt c.now := by
  by_cases hpast : c.runAt ≤ c.now
  · have hle : int ((c.runAt - c.now) * 1000) ≤ 0 := by
      have hneg : (c.runAt - c.now) * 1000 ≤ 0 := by linarith
      rw [int]
      split_ifs with hnonneg
      · rw [le_antisymm hneg hnonneg, Int.floor_zero]
      · exact Int.ceil_le.mpr (by simpa using hneg)
    rw [expiry, delayMs, max_eq_left hle, max_eq_right hpast]
    simp
  · obtain ⟨ms, hms⟩ := h.resolve_left hpast
    have hpos : (0 : ℚ) ≤ ms := by
      rw [← hms]
      linarith [not_le.mp hpast]
    have hint : int ((c.runAt - c.now) * 1000) = ms := by
      rw [hms, int, if_pos hpos, Int.floor_intCast]
    rw [expiry, delayMs, hint, max_eq_right (by exact_mod_cast hpos),
      max_eq_left (not_le.mp hpast).le, ← hms]
    ring

theorem lastRunAt_of_nodup {c : ScheduleCall} (hdistinct : (calls.map (·.envelope)).Nodup)
    (hc : c ∈ calls) : lastRunAt calls c.envelope = some c.runAt := by
  induction calls using List.reverseRecOn with
  | nil => exact absurd hc List.not_mem_nil
  | append_singleton calls d ih =>
    rw [List.map_append, List.nodup_append] at hdistinct
    rw [lastRunAt_append]
    rcases List.mem_append.mp hc with hold | hnew
    · have hne : c.envelope ≠ d.envelope :=
        hdistinct.2.2 _ (List.mem_map_of_mem hold) _ (by simp)
      rw [if_neg (Ne.symm hne)]
      exact ih hdistinct.1 hold
    · obtain rfl : c = d := by simpa using hnew
      rw [if_pos rfl]

/-- **Calls in the order of their times.** When the calls are for different envelopes, in the order
of their times, with delays of whole milliseconds, RabbitMQ and Redis agree at any time. -/
theorem available_eq_stream_of_monotone (hnow : ∀ c ∈ calls, c.now ≤ t)
    (hclock : calls.Pairwise fun c d => c.now ≤ d.now)
    (hordered : calls.Pairwise fun c d => c.runAt ≤ d.runAt)
    (hdistinct : (calls.map (·.envelope)).Nodup)
    (hms : ∀ c ∈ calls, c.runAt ≤ c.now ∨ ∃ ms : ℤ, (c.runAt - c.now) * 1000 = ms)
    (hs : Promoted calls t s) (e : TaskEnvelope) :
    e ∈ available calls t ↔ e ∈ s.queue.stream := by
  rw [mem_available_iff hnow, mem_stream_iff hs]
  constructor
  · intro hpasses
    obtain ⟨c, hc, rfl, hexpired⟩ := exists_call_of_passesBy hpasses
    rw [expiry_eq_max (hms c hc)] at hexpired
    exact ⟨c.runAt, lastRunAt_of_nodup hdistinct hc, (le_max_left _ _).trans hexpired⟩
  · intro hdue
    obtain ⟨c, hc, rfl⟩ := exists_call_of_dueBy hdue
    obtain ⟨runAt, hlast, hle⟩ := hdue
    obtain rfl : c.runAt = runAt :=
      Option.some.inj ((lastRunAt_of_nodup hdistinct hc).symm.trans hlast)
    have hexpired : expiry c ≤ t := by
      rw [expiry_eq_max (hms c hc)]
      exact max_le hle (hnow c hc)
    refine DelayLine.passesBy_of_mem ?_ (List.mem_map_of_mem hc) hexpired
    rw [messages, List.pairwise_map]
    -- calls in the order of their deadlines make messages that expire in the order of the queue
    refine (hclock.and hordered).imp_of_mem fun hc hd hcd => ?_
    rw [expiry_eq_max (hms _ hc), expiry_eq_max (hms _ hd)]
    exact max_le_max hcd.2 hcd.1

end RabbitDelay

end Dtq
