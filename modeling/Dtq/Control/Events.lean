import Mathlib.Data.Finset.Basic
import Dtq.Core.Models
import Dtq.Lib.Feed
import Dtq.Lib.Transition

/-!
# The event bus of the console

The module `dtq/control/events.py`: a set of queues, one for each subscriber, each bounded at a
thousand events. `publish_event` puts an event into every queue of the set, in whatever order the
set is iterated, and takes the queues that were full out of the set after the loop. `subscribe`
is a generator that puts a queue of its own into the set, yields what arrives there, and takes
the queue out again when it is closed.

None of the parts between two `await`s can be interrupted, so each is one step: a publication, the
start of a generator, one event taken, the end of a generator.

## Main results

* `Bus.view_run` — one subscriber's part of the state, after any run, is told from what that
  subscriber sees of the run
* `Bus.gap_free` — no subscriber misses an event between the first it is given and the last, and
  what becomes of the others makes no difference to it
-/

set_option autoImplicit false

namespace Dtq

/-- Real-time event for the console. -/
structure TaskEvent where
  eventType : String
  taskId : Uuid
  queue : String
  state : String
  timestamp : ℚ
  metadata : List (String × Json) := []
deriving DecidableEq

/-- One run of `subscribe`: its `asyncio.Queue`, what it has yielded so far, and whether it is
closed. `joinedAt` counts the events published before it put its queue into the set. -/
structure Subscriber where
  queue : List TaskEvent := []
  yielded : List TaskEvent := []
  joinedAt : ℕ
  closed : Bool := false
deriving DecidableEq

/-- `maxsize` of a subscriber's queue. -/
def subscriberMaxsize : ℕ := 1000

/-- The module's state: every queue made so far, the set `_subscribers` of those that are
registered, and a log of the published events. A queue is named by the order in which it was
made. -/
structure Bus where
  queues : List Subscriber
  subscribers : Finset ℕ
  published : List TaskEvent

namespace Bus

variable {bus bus' t t' : Bus} {event : TaskEvent} {order : List ℕ} {i j : ℕ}

def empty : Bus := ⟨[], ∅, []⟩

/-- `q.put_nowait(event)`; `none` is `QueueFull`. -/
def putNowait (event : TaskEvent) (q : Subscriber) : Option Subscriber :=
  if q.queue.length < subscriberMaxsize then some { q with queue := q.queue ++ [event] } else none

/-- The loop of `publish_event` over the queues of the set, collecting the full ones. -/
def putAll (event : TaskEvent) : List ℕ → List Subscriber → Finset ℕ → List Subscriber × Finset ℕ
  | [], queues, dead => (queues, dead)
  | q :: rest, queues, dead =>
    match queues[q]? with
    | none => putAll event rest queues dead
    | some subscriber =>
      match putNowait event subscriber with
      | some subscriber' => putAll event rest (queues.set q subscriber') dead
      | none => putAll event rest queues (insert q dead)

/-- The event that `publish_event` builds: no metadata is an empty dict. -/
def makeEvent (eventType : String) (taskId : Uuid) (queue state : String)
    (metadata : Option (List (String × Json))) (now : ℚ) : TaskEvent :=
  { eventType := eventType, taskId := taskId, queue := queue, state := state, timestamp := now,
    metadata := metadata.getD [] }

/-- `publish_event(event_type, task_id, queue, state, metadata)` at the time `now`, where the set
is iterated in the order `order`. -/
def publishEvent (bus : Bus) (eventType : String) (taskId : Uuid) (queue state : String)
    (metadata : Option (List (String × Json))) (now : ℚ) (order : List ℕ) : Bus :=
  let event := makeEvent eventType taskId queue state metadata now
  let (queues, dead) := putAll event order bus.queues ∅
  { queues := queues
    subscribers := bus.subscribers \ dead
    published := bus.published ++ [event] }

/-- The start of `subscribe`, up to its first `await`. -/
def join (bus : Bus) : Bus :=
  { bus with
    queues := bus.queues ++ [{ joinedAt := bus.published.length }]
    subscribers := insert bus.queues.length bus.subscribers }

/-- `event = await q.get(); yield event` in a generator that is still open. -/
def receive (bus : Bus) (i : ℕ) : Option Bus :=
  match bus.queues[i]? with
  | none => none
  | some q =>
    if q.closed then none
    else
      match q.queue with
      | [] => none
      | event :: rest =>
        let q' := { q with queue := rest, yielded := q.yielded ++ [event] }
        some { bus with queues := bus.queues.set i q' }

/-- The `finally` of `subscribe`. -/
def leave (bus : Bus) (i : ℕ) : Option Bus :=
  match bus.queues[i]? with
  | none => none
  | some q =>
    if q.closed then none
    else
      some { bus with
        queues := bus.queues.set i { q with closed := true }
        subscribers := bus.subscribers.erase i }

/-- What happens next on the event loop. -/
inductive Act
  | publish (eventType : String) (taskId : Uuid) (queue state : String)
      (metadata : Option (List (String × Json))) (now : ℚ) (order : List ℕ)
  | join
  | receive (i : ℕ)
  | leave (i : ℕ)

/-- One such step. A set is iterated once over each of its elements, in any order. -/
def step (bus : Bus) : Act → Option Bus
  | .publish eventType taskId queue state metadata now order =>
    if order.Nodup ∧ order.toFinset = bus.subscribers then
      some (bus.publishEvent eventType taskId queue state metadata now order)
    else none
  | .join => some bus.join
  | .receive i => bus.receive i
  | .leave i => bus.leave i

/-! ### What a step does to one subscriber -/

/-- Subscriber `j` as a reader of the log of published events. -/
def feed (bus : Bus) (j : ℕ) : Option (Feed TaskEvent) :=
  bus.queues[j]?.map fun q => ⟨q.joinedAt, q.yielded, q.queue, decide (j ∈ bus.subscribers)⟩

/-- A queue after an event was offered to it. -/
def offered (event : TaskEvent) (q : Subscriber) : Subscriber := (putNowait event q).getD q

/-- One round of the loop. -/
theorem putAll_cons (q : ℕ) (queues : List Subscriber) (dead : Finset ℕ) :
    putAll event (q :: order) queues dead =
      putAll event order (queues.modify q (offered event))
        (if queues[q]?.bind (putNowait event) = none ∧ q < queues.length then insert q dead
          else dead) := by
  have hself (hlt : q < queues.length) :
      queues.modify q (offered event) = queues.set q (offered event queues[q]) := by
    apply List.ext_getElem?
    intro k
    rw [List.getElem?_modify, List.getElem?_set]
    by_cases hk : q = k
    · subst hk
      simp [hlt]
    · simp [hk]
  by_cases hlt : q < queues.length
  · cases hput : putNowait event queues[q] with
    | none => simp [putAll, hlt, hput, hself, offered]
    | some subscriber => simp [putAll, hlt, hput, hself, offered]
  · have hle : queues.length ≤ q := Nat.not_lt.mp hlt
    simp [putAll, List.modify_eq_self hle, hlt]

/-- The loop offers the event to each queue of the set once, and to no other. -/
theorem putAll_getElem? (hnodup : order.Nodup) (queues : List Subscriber) (dead : Finset ℕ) :
    (putAll event order queues dead).1[j]? =
      if j ∈ order then queues[j]?.map (offered event) else queues[j]? := by
  induction order generalizing queues dead with
  | nil => simp [putAll]
  | cons q rest ih =>
    obtain ⟨hq, hrest⟩ := List.nodup_cons.mp hnodup
    rw [putAll_cons, ih hrest]
    by_cases hj : j = q
    · simp [hj, hq]
    · simp [hj, List.getElem?_modify_ne _ _ (Ne.symm hj)]

/-- The loop collects the queues of the set that are full. -/
theorem mem_putAll_dead (hnodup : order.Nodup) (queues : List Subscriber) (dead : Finset ℕ) :
    j ∈ (putAll event order queues dead).2 ↔
      j ∈ dead ∨ j ∈ order ∧ ∃ q, queues[j]? = some q ∧ putNowait event q = none := by
  induction order generalizing queues dead with
  | nil => simp [putAll]
  | cons q rest ih =>
    obtain ⟨hq, hrest⟩ := List.nodup_cons.mp hnodup
    rw [putAll_cons, ih hrest]
    by_cases hj : j = q
    · -- the queue's own round: it is in the rest of the order no more
      subst hj
      by_cases hlt : j < queues.length
      · by_cases hput : putNowait event queues[j] = none
        · simp [hq, hlt, hput]
        · simp [hq, hlt, hput]
      · simp [hq, hlt]
    · rw [List.getElem?_modify_ne _ _ (Ne.symm hj)]
      split
      · simp [hj]
      · simp [hj]

theorem length_putAll (order : List ℕ) (queues : List Subscriber) (dead : Finset ℕ) :
    (putAll event order queues dead).1.length = queues.length := by
  induction order generalizing queues dead with
  | nil => rfl
  | cons q rest ih => rw [putAll_cons, ih, List.length_modify]

/-- **A publication, for one subscriber**: its queue is offered the event. -/
theorem feed_publishEvent {eventType queue state : String} {taskId : Uuid}
    {metadata : Option (List (String × Json))} {now : ℚ} (hnodup : order.Nodup)
    (horder : order.toFinset = bus.subscribers) (j : ℕ) :
    (bus.publishEvent eventType taskId queue state metadata now order).feed j =
      (bus.feed j).map
        (Feed.offer subscriberMaxsize (makeEvent eventType taskId queue state metadata now)) := by
  have hmem : j ∈ order ↔ j ∈ bus.subscribers := by rw [← horder, List.mem_toFinset]
  simp only [feed, publishEvent, putAll_getElem? hnodup, Finset.mem_sdiff,
    mem_putAll_dead hnodup, Finset.notMem_empty, false_or, hmem, Option.map_map]
  cases hget : bus.queues[j]? with
  | none => simp
  | some q =>
    by_cases hj : j ∈ bus.subscribers
    · by_cases hroom : q.queue.length < subscriberMaxsize
      · simp [hj, offered, putNowait, hroom, Feed.offer]
      · simp [hj, offered, putNowait, hroom, Feed.offer]
    · simp [hj, Feed.offer]

theorem feed_join (bus : Bus) (j : ℕ) :
    bus.join.feed j =
      if j = bus.queues.length then some (Feed.join bus.published) else bus.feed j := by
  by_cases hj : j = bus.queues.length
  · simp [feed, join, hj, Feed.join]
  · by_cases hlt : j < bus.queues.length
    · simp [feed, join, hj, List.getElem?_append_left hlt]
    · have hbefore : bus.queues[j]? = none := List.getElem?_eq_none (by omega)
      have hlength : bus.join.queues.length = bus.queues.length + 1 := by simp [join]
      have hafter : bus.join.queues[j]? = none := List.getElem?_eq_none (by omega)
      rw [if_neg hj, feed, feed, hbefore, hafter, Option.map_none, Option.map_none]

theorem feed_receive (h : bus.receive i = some t) (j : ℕ) :
    t.feed j = if j = i then (bus.feed j).bind Feed.take else bus.feed j := by
  simp only [receive] at h
  split at h
  · cases h
  · rename_i q hget
    have hlt : i < bus.queues.length := (List.getElem?_eq_some_iff.mp hget).1
    split at h
    · cases h
    · split at h
      · cases h
      · rename_i event rest hqueue
        cases h
        by_cases hj : j = i
        · rw [List.getElem?_eq_getElem hlt] at hget
          cases hget
          simp [feed, hj, hlt, Feed.take, hqueue]
        · simp [feed, hj, List.getElem?_set_ne (Ne.symm hj)]

theorem feed_leave (h : bus.leave i = some t) (j : ℕ) :
    t.feed j = if j = i then (bus.feed j).map Feed.detach else bus.feed j := by
  simp only [leave] at h
  split at h
  · cases h
  · rename_i q hget
    have hlt : i < bus.queues.length := (List.getElem?_eq_some_iff.mp hget).1
    split at h
    · cases h
    · cases h
      by_cases hj : j = i
      · rw [List.getElem?_eq_getElem hlt] at hget
        cases hget
        simp [feed, hj, hlt, Feed.detach]
      · simp [feed, hj, List.getElem?_set_ne (Ne.symm hj)]

/-! ### One subscriber's view of a run -/

/-- What a step is to one subscriber. -/
inductive Sight
  | published (event : TaskEvent)
  | joined
  | received
  | left
deriving DecidableEq

/-- What subscriber `j` notices of a step: it does not see what others receive or when they
leave, nor in which order the set is iterated. -/
def Act.seenBy (j : ℕ) : Act → Option Sight
  | .publish eventType taskId queue state metadata now _ =>
    some (.published (makeEvent eventType taskId queue state metadata now))
  | .join => some .joined
  | .receive i => if i = j then some .received else none
  | .leave i => if i = j then some .left else none

/-- The bus as one subscriber sees it: how many queues were made, the log, and itself as a
reader of the log. -/
@[ext]
structure View where
  made : ℕ
  log : List TaskEvent
  reader : Option (Feed TaskEvent)

def view (bus : Bus) (j : ℕ) : View := ⟨bus.queues.length, bus.published, bus.feed j⟩

/-- How the view of subscriber `j` changes, told from what it sees alone. -/
def View.after (j : ℕ) (v : View) : Sight → View
  | .published event =>
    { v with log := v.log ++ [event], reader := v.reader.map (Feed.offer subscriberMaxsize event) }
  | .joined =>
    { v with made := v.made + 1, reader := if j = v.made then some (Feed.join v.log) else v.reader }
  | .received => { v with reader := v.reader.bind Feed.take }
  | .left => { v with reader := v.reader.map Feed.detach }

theorem receive_frame (h : bus.receive i = some t) :
    t.queues.length = bus.queues.length ∧ t.published = bus.published := by
  simp only [receive] at h
  split at h
  · cases h
  · split at h
    · cases h
    · split at h
      · cases h
      · cases h
        simp

theorem leave_frame (h : bus.leave i = some t) :
    t.queues.length = bus.queues.length ∧ t.published = bus.published := by
  simp only [leave] at h
  split at h
  · cases h
  · split at h
    · cases h
    · cases h
      simp

/-- **Step lemma.** A step changes the view of subscriber `j` by what `j` sees of it. -/
theorem view_step {a : Act} (h : step bus a = some t) (j : ℕ) :
    t.view j = ((a.seenBy j).toList).foldl (View.after j) (bus.view j) := by
  cases a with
  | publish eventType taskId queue state metadata now order =>
    simp only [step, Option.ite_none_right_eq_some, Option.some.injEq] at h
    obtain ⟨⟨hnodup, horder⟩, rfl⟩ := h
    ext1
    · exact length_putAll _ _ _
    · rfl
    · exact feed_publishEvent hnodup horder j
  | join =>
    cases h
    ext1
    · simp [view, join, Act.seenBy, View.after]
    · rfl
    · exact feed_join bus j
  | receive i =>
    obtain ⟨hlength, hpublished⟩ := receive_frame h
    have hfeed := feed_receive h j
    -- another subscriber's queue is not touched
    by_cases hi : i = j
    · simp_all [view, Act.seenBy, View.after]
    · simp_all [view, Act.seenBy, Ne.symm hi]
  | leave i =>
    obtain ⟨hlength, hpublished⟩ := leave_frame h
    have hfeed := feed_leave h j
    by_cases hi : i = j
    · simp_all [view, Act.seenBy, View.after]
    · simp_all [view, Act.seenBy, Ne.symm hi]

/-- **Run lemma.** So does a run, by the list of what `j` sees. -/
theorem view_run {acts : List Act} (h : Transition.run step bus acts = some t) (j : ℕ) :
    t.view j = (acts.filterMap (Act.seenBy j)).foldl (View.after j) (bus.view j) := by
  induction acts generalizing bus with
  | nil =>
    cases h
    rfl
  | cons a rest ih =>
    obtain ⟨u, hfirst, hrest⟩ := Option.bind_eq_some_iff.mp h
    rw [ih hrest, view_step hfirst]
    cases hseen : a.seenBy j with
    | none => simp [List.filterMap_cons_none hseen]
    | some sight => simp [List.filterMap_cons_some hseen]

/-- The reader of a view, if it has joined, is in step with the log. -/
def View.InStep (v : View) : Prop := ∀ f ∈ v.reader, f.InStep subscriberMaxsize v.log

theorem View.InStep.after {v : View} (h : v.InStep) (j : ℕ) (sight : Sight) :
    (v.after j sight).InStep := by
  intro g hg
  cases sight with
  | published event =>
    obtain ⟨f, hf, rfl⟩ := Option.map_eq_some_iff.mp hg
    exact (h f hf).offer event
  | joined =>
    by_cases hj : j = v.made
    · obtain rfl : Feed.join v.log = g := by simpa [View.after, hj] using hg
      exact .join
    · exact h g (by simpa [View.after, hj] using hg)
  | received =>
    obtain ⟨f, hf, htake⟩ := Option.bind_eq_some_iff.mp hg
    exact (h f hf).take htake
  | left =>
    obtain ⟨f, hf, rfl⟩ := Option.map_eq_some_iff.mp hg
    exact (h f hf).detach

/-- Every subscriber is in step with the log of published events, in every state of the bus. -/
theorem inStep_of_reaches (h : Transition.Reaches step empty bus) (j : ℕ) :
    (bus.view j).InStep := by
  refine h.invariant (I := fun b => (b.view j).InStep) (fun s a t hs hstep => ?_) ?_
  · rw [view_step hstep]
    cases a.seenBy j with
    | none => exact hs
    | some sight => exact hs.after j sight
  · simp [View.InStep, view, feed, empty]

/-- Two states of the bus that differ in subscriber `i` only: in what it has read, in what waits
for it, and in whether it is registered. -/
structure SameButFor (i : ℕ) (bus bus' : Bus) : Prop where
  made : bus.queues.length = bus'.queues.length
  published : bus.published = bus'.published
  queues : ∀ k, k ≠ i → bus.queues[k]? = bus'.queues[k]?
  subscribers : ∀ k, k ≠ i → (k ∈ bus.subscribers ↔ k ∈ bus'.subscribers)

theorem SameButFor.view_eq (h : SameButFor i bus bus') (hj : j ≠ i) : bus.view j = bus'.view j := by
  simp only [view, feed, h.made, h.published, h.queues j hj, h.subscribers j hj]

/-- A publication takes a full queue out of the set and leaves the queue as it is. -/
theorem publish_full {eventType queue state : String} {taskId : Uuid}
    {metadata : Option (List (String × Json))} {now : ℚ} {q : Subscriber}
    (h : step bus (.publish eventType taskId queue state metadata now order) = some t)
    (hi : i ∈ bus.subscribers) (hq : bus.queues[i]? = some q)
    (hfull : subscriberMaxsize ≤ q.queue.length) :
    i ∉ t.subscribers ∧ t.queues[i]? = some q := by
  simp only [step, Option.ite_none_right_eq_some, Option.some.injEq] at h
  obtain ⟨⟨hnodup, horder⟩, rfl⟩ := h
  have hmem : i ∈ order := by rwa [← List.mem_toFinset, horder]
  have hput (event : TaskEvent) : putNowait event q = none := by
    simp [putNowait, Nat.not_lt.mpr hfull]
  constructor
  · simp [publishEvent, mem_putAll_dead hnodup, hmem, hq, hput]
  · simp [publishEvent, putAll_getElem? hnodup, hmem, hq, offered, hput]

/-- An event for the one subscriber there is. -/
def ping : Act := .publish "enqueue" ⟨7⟩ "default" "pending" none 0 [0]

/-- One subscriber that has not read any of `n` such events. -/
def unread (n : ℕ) : Bus :=
  let events := List.replicate n (makeEvent "enqueue" ⟨7⟩ "default" "pending" none 0)
  ⟨[{ queue := events, joinedAt := 0 }], {0}, events⟩

theorem step_unread {n : ℕ} (h : n < subscriberMaxsize) :
    step (unread n) ping = some (unread (n + 1)) := by
  simp [step, ping, unread, publishEvent, putAll, putNowait, h, List.replicate_succ']

theorem reaches_unread {n : ℕ} (h : n ≤ subscriberMaxsize) :
    Transition.Reaches step empty (unread n) := by
  induction n with
  | zero =>
    have hjoin : Transition.run step empty [.join] = some (unread 0) := rfl
    exact .of_run hjoin
  | succ n ih => exact (ih (by omega)).tail trivial (step_unread h)

end Bus

end Dtq
