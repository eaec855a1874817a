import Dtq.Broker.Kafka

/-!
# The Kafka broker with several queues

The adapter has one consumer for all queues. A `lease` of another queue than the one before stops it
and starts one on the other topic, at the offsets committed there; and `ack` commits the positions
of the consumer that is there at the time, whichever queue and messages it is called for.

So what becomes of a message is decided by what comes first after the lease that returned it: an
`ack` for anything settles it, and nothing of it comes again even when the worker dies; the lease of
another queue, or the worker's death, makes it come again, even when it is acknowledged after that.

## Main results

* `KafkaQueuesRun.Inv.step` — what the offsets say of the messages returned
* `KafkaQueuesRun.returned_again_iff` — which messages are returned again
-/

set_option autoImplicit false

namespace Dtq

open Transition

/-- The adapter: the topic of each queue, and the consumer once there is one, with the queue whose
topic it is subscribed to and its positions there. -/
structure KafkaQueues where
  topics : String → Topic
  consumer : Option (String × (ℕ → ℕ))

namespace KafkaQueues

variable (k : KafkaQueues)

/-- `_ensure_consumer`: a consumer of another topic is stopped, and a new one starts at the
committed offsets. -/
def ensureConsumer (queue : String) : ℕ → ℕ :=
  match k.consumer with
  | some (subscribed, position) =>
    if subscribed = queue then position else (k.topics queue).committed
  | none => (k.topics queue).committed

/-- Replace what Kafka keeps of one queue. -/
def modifyTopic (queue : String) (f : Topic → Topic) : KafkaQueues :=
  { k with topics := Function.update k.topics queue (f (k.topics queue)) }

/-- `lease`: at most `count` records, as `getmany` finds them. -/
def lease (queue : String) (count : ℕ) (fetched : List (ℕ × ℕ)) :
    Option (KafkaQueues × List Leased) :=
  if (fetched.map Prod.snd).sum ≤ count then
    ((k.topics queue).getmany fetched (k.ensureConsumer queue)).map fun result =>
      ({ k with consumer := some (queue, result.1) }, result.2)
  else none

/-- `ack`: `commit()` commits the positions of the consumer. Neither the queue nor the ids are
looked at. -/
def ack (_queue : String) (_msgIds : List String) : KafkaQueues :=
  match k.consumer with
  | some (subscribed, position) =>
    k.modifyTopic subscribed fun topic => { topic with committed := position }
  | none => k

/-- So on every queue what is committed is where a consumer would go on. -/
theorem topics_ack (called queue : String) (msgIds : List String) :
    (k.ack called msgIds).topics queue =
      { k.topics queue with committed := k.ensureConsumer queue } := by
  unfold ack ensureConsumer
  cases k.consumer with
  | none => rfl
  | some found =>
    obtain ⟨subscribed, position⟩ := found
    by_cases hqueue : queue = subscribed
    · subst hqueue
      simp [modifyTopic]
    · simp [modifyTopic, Function.update_of_ne hqueue, Ne.symm hqueue]

theorem consumer_ack (called : String) (msgIds : List String) :
    (k.ack called msgIds).consumer = k.consumer := by
  cases hconsumer : k.consumer <;> simp [ack, hconsumer, modifyTopic]

theorem ensureConsumer_ack (called queue : String) (msgIds : List String) :
    (k.ack called msgIds).ensureConsumer queue = k.ensureConsumer queue := by
  cases hconsumer : k.consumer with
  | none => simp [ensureConsumer, consumer_ack, topics_ack, hconsumer]
  | some found =>
    obtain ⟨subscribed, position⟩ := found
    by_cases hqueue : subscribed = queue
    · simp [ensureConsumer, consumer_ack, hconsumer, hqueue]
    · simp [ensureConsumer, consumer_ack, topics_ack, hconsumer, hqueue]

end KafkaQueues

/-- A run: the broker, and a record of the messages that `lease` has returned and for which queue,
of those among them that the present consumer has returned since the last `ack`, and of those that
a consumer had returned when `ack` was called while it was there. -/
structure KafkaQueuesRun where
  broker : KafkaQueues
  returned : List (String × Leased)
  held : List (String × Leased)
  settled : List (String × Leased)

/-- A call, a record that arrives, or the death of the worker. -/
inductive KafkaQueuesCall
  | arrive (queue : String) (partition : ℕ) (value : Option TaskEnvelope)
  | lease (queue : String) (count : ℕ) (fetched : List (ℕ × ℕ))
  | ack (queue : String) (msgIds : List String)
  | crash

namespace KafkaQueuesRun

/-- There is no consumer yet. -/
def start (topics : String → Topic) : KafkaQueuesRun := ⟨⟨topics, none⟩, [], [], []⟩

/-- The messages that the consumer holds, unless another one takes its place. -/
def heldOn (s : KafkaQueuesRun) (queue : String) : List (String × Leased) :=
  match s.broker.consumer with
  | some (subscribed, _) => if subscribed = queue then s.held else []
  | none => []

/-- One call. -/
def step (s : KafkaQueuesRun) : KafkaQueuesCall → Option KafkaQueuesRun
  | .arrive queue partition value =>
    some { s with broker := s.broker.modifyTopic queue fun topic => topic.append partition value }
  | .lease queue count fetched =>
    (s.broker.lease queue count fetched).map fun result =>
      { s with
        broker := result.1
        returned := s.returned ++ result.2.map (queue, ·)
        held := s.heldOn queue ++ result.2.map (queue, ·) }
  | .ack queue msgIds =>
    some { s with broker := s.broker.ack queue msgIds, held := [], settled := s.settled ++ s.held }
  | .crash => some { s with broker := { s.broker with consumer := none }, held := [] }

/-- Some later lease of the queue returns the message. -/
def ReturnedAgain (s : KafkaQueuesRun) (queue : String) (m : Leased) : Prop :=
  ∃ s' count fetched k leased, Reaches step s s' ∧
    s'.broker.lease queue count fetched = some (k, leased) ∧ m ∈ leased

variable {s s' : KafkaQueuesRun} {queue : String} {m : Leased} {p offset : ℕ}

/-- The consumer is ahead of the committed offsets; of the messages returned, those that these have
passed are settled, and those between are held. -/
structure Inv (s : KafkaQueuesRun) : Prop where
  ahead : ∀ queue p, (s.broker.topics queue).committed p ≤ s.broker.ensureConsumer queue p
  placed : ∀ queue m, (queue, m) ∈ s.returned →
    ∃ p offset, (s.broker.topics queue).leasedAt p offset = some m
  held_subset : s.held ⊆ s.returned
  settled_subset : s.settled ⊆ s.returned
  held : ∀ queue m p offset, (queue, m) ∈ s.returned →
    (s.broker.topics queue).leasedAt p offset = some m → ((queue, m) ∈ s.held ↔
      (s.broker.topics queue).committed p ≤ offset ∧ offset < s.broker.ensureConsumer queue p)
  settled : ∀ queue m p offset, (queue, m) ∈ s.returned →
    (s.broker.topics queue).leasedAt p offset = some m → ((queue, m) ∈ s.settled ↔
      offset < (s.broker.topics queue).committed p)

theorem inv_start (topics : String → Topic) : Inv (start topics) where
  ahead := fun _ _ => le_rfl
  placed := fun _ _ hm => absurd hm List.not_mem_nil
  held_subset := fun _ hm => absurd hm List.not_mem_nil
  settled_subset := fun _ hm => absurd hm List.not_mem_nil
  held := fun _ _ _ _ hm => absurd hm List.not_mem_nil
  settled := fun _ _ _ _ hm => absurd hm List.not_mem_nil

/-- Messages that stand in a topic stay where they are. -/
theorem leasedAt_modifyTopic_append (k : KafkaQueues) (arriving : String) (partition : ℕ)
    (value : Option TaskEnvelope) (h : (k.topics queue).leasedAt p offset = some m) :
    ((k.modifyTopic arriving fun topic => topic.append partition value).topics queue).leasedAt p
      offset = some m := by
  by_cases hqueue : queue = arriving
  · subst hqueue
    simp only [KafkaQueues.modifyTopic, Function.update_self]
    exact Topic.leasedAt_append h partition value
  · simpa only [KafkaQueues.modifyTopic, Function.update_of_ne hqueue] using h

theorem Inv.arrive (h : s.Inv) (arriving : String) (partition : ℕ) (value : Option TaskEnvelope) :
    Inv { s with
      broker := s.broker.modifyTopic arriving fun topic => topic.append partition value } := by
  set k := s.broker.modifyTopic arriving fun topic => topic.append partition value with hk
  have hcommitted : ∀ queue, (k.topics queue).committed = (s.broker.topics queue).committed := by
    intro queue
    by_cases hqueue : queue = arriving
    · simp [hk, KafkaQueues.modifyTopic, hqueue, Topic.append]
    · simp [hk, KafkaQueues.modifyTopic, Function.update_of_ne hqueue]
  have hposition : ∀ queue, k.ensureConsumer queue = s.broker.ensureConsumer queue := by
    intro queue
    simp only [KafkaQueues.ensureConsumer, hcommitted]
    rfl
  -- a message that has been returned is where it was
  have hback : ∀ {queue m p offset}, (queue, m) ∈ s.returned →
      (k.topics queue).leasedAt p offset = some m →
        (s.broker.topics queue).leasedAt p offset = some m := by
    intro queue m p offset hm hat
    obtain ⟨p', offset', hat'⟩ := h.placed queue m hm
    obtain ⟨rfl, rfl⟩ := Topic.leasedAt_inj hat
      (leasedAt_modifyTopic_append s.broker arriving partition value hat')
    exact hat'
  refine ⟨fun queue p => ?_, fun queue m hm => ?_, h.held_subset, h.settled_subset,
    fun queue m p offset hm hat => ?_, fun queue m p offset hm hat => ?_⟩
  · simp only [hcommitted, hposition]
    exact h.ahead queue p
  · obtain ⟨p, offset, hat⟩ := h.placed queue m hm
    exact ⟨p, offset, leasedAt_modifyTopic_append s.broker arriving partition value hat⟩
  · simp only [hcommitted, hposition]
    exact h.held queue m p offset hm (hback hm hat)
  · simp only [hcommitted]
    exact h.settled queue m p offset hm (hback hm hat)

/-- What another consumer would not hold, this one does not hold either. -/
theorem Inv.mem_heldOn (h : s.Inv) (hm : (queue, m) ∈ s.returned)
    (hat : (s.broker.topics queue).leasedAt p offset = some m) :
    (queue, m) ∈ s.heldOn queue ↔
      (s.broker.topics queue).committed p ≤ offset ∧
        offset < s.broker.ensureConsumer queue p := by
  rw [← h.held queue m p offset hm hat]
  have hnone : s.broker.ensureConsumer queue = (s.broker.topics queue).committed →
      (queue, m) ∉ s.held := by
    intro hsame hheld
    obtain ⟨hlow, hhigh⟩ := (h.held queue m p offset hm hat).mp hheld
    rw [hsame] at hhigh
    exact absurd hhigh hlow.not_gt
  unfold heldOn
  cases hconsumer : s.broker.consumer with
  | none => simpa using hnone (by simp [KafkaQueues.ensureConsumer, hconsumer])
  | some found =>
    obtain ⟨subscribed, position⟩ := found
    by_cases hqueue : subscribed = queue
    · simp [hqueue]
    · simpa [hqueue] using hnone (by simp [KafkaQueues.ensureConsumer, hconsumer, hqueue])

theorem heldOn_subset : s.heldOn queue ⊆ s.held := by
  unfold heldOn
  split
  · split_ifs
    · exact List.Subset.refl _
    · exact List.nil_subset _
  · exact List.nil_subset _

/-- The consumer that holds something for a queue is the one of that queue. -/
theorem eq_of_mem_heldOn (h : s.Inv) {other : String} (hm : (other, m) ∈ s.heldOn queue) :
    queue = other := by
  have hheld := heldOn_subset hm
  obtain ⟨p, offset, hat⟩ := h.placed other m (h.held_subset hheld)
  have hbetween := (h.held other m p offset (h.held_subset hheld) hat).mp hheld
  unfold heldOn at hm
  cases hconsumer : s.broker.consumer with
  | none =>
    rw [hconsumer] at hm
    exact absurd hm List.not_mem_nil
  | some found =>
    obtain ⟨subscribed, position⟩ := found
    simp only [hconsumer] at hm
    split_ifs at hm with hqueue
    · by_contra hother
      have hnew : s.broker.ensureConsumer other = (s.broker.topics other).committed := by
        simp [KafkaQueues.ensureConsumer, hconsumer, hqueue, hother]
      rw [hnew] at hbetween
      omega
    · exact absurd hm List.not_mem_nil

/-- What `getmany` has returned stands between its positions. -/
theorem mem_leased_iff {topic : Topic} {leased : List Leased} {low high : ℕ → ℕ}
    (hmem : ∀ m, m ∈ leased ↔ ∃ p offset, low p ≤ offset ∧ offset < high p ∧
      topic.leasedAt p offset = some m) (hat : topic.leasedAt p offset = some m) :
    m ∈ leased ↔ low p ≤ offset ∧ offset < high p := by
  rw [hmem]
  constructor
  · rintro ⟨p', offset', hlow, hhigh, hat'⟩
    obtain ⟨rfl, rfl⟩ := Topic.leasedAt_inj hat hat'
    exact ⟨hlow, hhigh⟩
  · rintro ⟨hlow, hhigh⟩
    exact ⟨p, offset, hlow, hhigh, hat⟩

theorem Inv.lease (h : s.Inv) {count : ℕ} {fetched : List (ℕ × ℕ)} {k : KafkaQueues}
    {leased : List Leased} (hlease : s.broker.lease queue count fetched = some (k, leased)) :
    Inv { s with
      broker := k
      returned := s.returned ++ leased.map (queue, ·)
      held := s.heldOn queue ++ leased.map (queue, ·) } := by
  unfold KafkaQueues.lease at hlease
  split_ifs at hlease
  obtain ⟨⟨position, leased'⟩, hgetmany, heq⟩ := Option.map_eq_some_iff.mp hlease
  obtain ⟨rfl, rfl⟩ := Prod.mk.inj heq
  obtain ⟨hle, hmem⟩ := Topic.getmany_eq_some fetched hgetmany
  have hnew : ∀ {other : String} {m : Leased}, (other, m) ∈ leased'.map (queue, ·) ↔
      other = queue ∧ m ∈ leased' := by
    intro other m
    simp [List.mem_map, and_comm, eq_comm]
  have hposition : ∀ other, KafkaQueues.ensureConsumer
      { s.broker with consumer := some (queue, position) } other =
        if queue = other then position else (s.broker.topics other).committed := fun _ => rfl
  refine ⟨fun other p => ?_, fun other m hm => ?_, ?_, fun pair hpair =>
    List.mem_append_left _ (h.settled_subset hpair), fun other m p offset hm hat => ?_,
    fun other m p offset hm hat => ?_⟩
  · rw [hposition]
    split_ifs with hother
    · subst hother
      exact (h.ahead queue p).trans (hle p)
    · exact le_rfl
  · rcases List.mem_append.mp hm with hm | hm
    · exact h.placed other m hm
    · obtain ⟨rfl, hnewly⟩ := hnew.mp hm
      obtain ⟨p, offset, -, -, hat⟩ := (hmem m).mp hnewly
      exact ⟨p, offset, hat⟩
  · exact List.append_subset.mpr ⟨fun pair hpair => List.mem_append_left _
      (h.held_subset (heldOn_subset hpair)), List.subset_append_right _ _⟩
  · rw [hposition, List.mem_append, hnew]
    split_ifs with hother
    · subst hother
      have hahead := h.ahead queue p
      have hgoes := hle p
      have hleased := mem_leased_iff hmem hat
      change _ ↔ (s.broker.topics queue).committed p ≤ offset ∧ offset < position p
      constructor
      · rintro (hheld | ⟨-, hnewly⟩)
        · have hbetween := (h.mem_heldOn (h.held_subset (heldOn_subset hheld)) hat).mp hheld
          omega
        · have hbetween := hleased.mp hnewly
          omega
      · rintro ⟨hlow, hhigh⟩
        -- either the consumer had it already, or it stands at or after the old position
        by_cases hold : offset < s.broker.ensureConsumer queue p
        · rcases List.mem_append.mp hm with hm | hm
          · exact Or.inl ((h.mem_heldOn hm hat).mpr ⟨hlow, hold⟩)
          · exact Or.inr (hnew.mp hm)
        · exact Or.inr ⟨rfl, hleased.mpr ⟨not_lt.mp hold, hhigh⟩⟩
    · refine iff_of_false ?_ (fun hbetween => absurd hbetween.2 hbetween.1.not_gt)
      rintro (hheld | ⟨hsame, -⟩)
      · exact hother (eq_of_mem_heldOn h hheld)
      · exact hother hsame.symm
  · by_cases hreturned : (other, m) ∈ s.returned
    · exact h.settled other m p offset hreturned hat
    · obtain ⟨rfl, hnewly⟩ := hnew.mp ((List.mem_append.mp hm).resolve_left hreturned)
      have hbetween := (mem_leased_iff hmem hat).mp hnewly
      exact iff_of_false (fun hsettled => hreturned (h.settled_subset hsettled))
        (((h.ahead other p).trans hbetween.1).not_gt)

theorem Inv.ack (h : s.Inv) (called : String) (msgIds : List String) :
    Inv { s with
      broker := s.broker.ack called msgIds, held := [], settled := s.settled ++ s.held } := by
  have hat' : ∀ {queue m p offset},
      ((s.broker.ack called msgIds).topics queue).leasedAt p offset = some m ↔
        (s.broker.topics queue).leasedAt p offset = some m := by
    intro queue m p offset
    rw [KafkaQueues.topics_ack]
    rfl
  refine ⟨fun queue p => ?_, fun queue m hm => ?_, List.nil_subset _,
    List.append_subset.mpr ⟨h.settled_subset, h.held_subset⟩, fun queue m p offset hm hat => ?_,
    fun queue m p offset hm hat => ?_⟩
  · rw [KafkaQueues.topics_ack, KafkaQueues.ensureConsumer_ack]
  · obtain ⟨p, offset, hat⟩ := h.placed queue m hm
    exact ⟨p, offset, hat'.mpr hat⟩
  · rw [KafkaQueues.topics_ack, KafkaQueues.ensureConsumer_ack]
    exact iff_of_false List.not_mem_nil fun hbetween => absurd hbetween.2 hbetween.1.not_gt
  · have hbelow := h.settled queue m p offset hm (hat'.mp hat)
    have hbetween := h.held queue m p offset hm (hat'.mp hat)
    have hahead := h.ahead queue p
    rw [KafkaQueues.topics_ack, List.mem_append, hbelow, hbetween]
    change _ ↔ offset < s.broker.ensureConsumer queue p
    omega

theorem Inv.crash (h : s.Inv) :
    Inv { s with broker := { s.broker with consumer := none }, held := [] } where
  ahead := fun _ _ => le_rfl
  placed := h.placed
  held_subset := List.nil_subset _
  settled_subset := h.settled_subset
  held := fun _ _ _ _ _ _ => iff_of_false List.not_mem_nil fun h => absurd h.2 h.1.not_gt
  settled := h.settled

theorem Inv.step (h : s.Inv) {call : KafkaQueuesCall} (hstep : s.step call = some s') :
    s'.Inv := by
  cases call with
  | arrive queue partition value =>
    obtain rfl := Option.some.inj hstep
    exact h.arrive queue partition value
  | lease queue count fetched =>
    obtain ⟨⟨k, leased⟩, hlease, rfl⟩ := Option.map_eq_some_iff.mp hstep
    exact h.lease hlease
  | ack queue msgIds =>
    obtain rfl := Option.some.inj hstep
    exact h.ack queue msgIds
  | crash =>
    obtain rfl := Option.some.inj hstep
    exact h.crash

theorem inv_of_reaches {topics : String → Topic} (h : Reaches step (start topics) s) : s.Inv :=
  h.invariant (fun _ _ _ hinv hstep => hinv.step hstep) (inv_start topics)

/-- What is committed is not taken back, and no message moves. -/
structure Grows (s s' : KafkaQueuesRun) : Prop where
  committed : ∀ queue p,
    (s.broker.topics queue).committed p ≤ (s'.broker.topics queue).committed p
  leasedAt : ∀ queue p offset m, (s.broker.topics queue).leasedAt p offset = some m →
    (s'.broker.topics queue).leasedAt p offset = some m

theorem Inv.grows_of_step (h : s.Inv) {call : KafkaQueuesCall} (hstep : s.step call = some s') :
    s.Grows s' := by
  cases call with
  | arrive arriving partition value =>
    obtain rfl := Option.some.inj hstep
    refine ⟨fun queue p => ?_, fun queue p offset m hat =>
      leasedAt_modifyTopic_append s.broker arriving partition value hat⟩
    by_cases hqueue : queue = arriving
    · simp [KafkaQueues.modifyTopic, hqueue, Topic.append]
    · simp [KafkaQueues.modifyTopic, Function.update_of_ne hqueue]
  | lease called count fetched =>
    obtain ⟨⟨k, leased⟩, hlease, rfl⟩ := Option.map_eq_some_iff.mp hstep
    unfold KafkaQueues.lease at hlease
    split_ifs at hlease
    obtain ⟨result, -, heq⟩ := Option.map_eq_some_iff.mp hlease
    obtain ⟨rfl, -⟩ := Prod.mk.inj heq
    exact ⟨fun _ _ => le_rfl, fun _ _ _ _ => id⟩
  | ack called msgIds =>
    obtain rfl := Option.some.inj hstep
    refine ⟨fun queue p => ?_, fun queue p offset m hat => ?_⟩
    · rw [KafkaQueues.topics_ack]
      exact h.ahead queue p
    · rw [KafkaQueues.topics_ack]
      exact hat
  | crash =>
    obtain rfl := Option.some.inj hstep
    exact ⟨fun _ _ => le_rfl, fun _ _ _ _ => id⟩

theorem Inv.of_reaches (h : s.Inv) (hrun : Reaches KafkaQueuesRun.step s s') :
    s'.Inv ∧ s.Grows s' := by
  refine hrun.invariant (I := fun t : KafkaQueuesRun => t.Inv ∧ s.Grows t) ?_
    ⟨h, fun _ _ => le_rfl, fun _ _ _ _ => id⟩
  rintro t call u ⟨hinv, hgrows⟩ hstep
  have hnext := hinv.grows_of_step hstep
  exact ⟨hinv.step hstep, fun queue p => (hgrows.committed queue p).trans (hnext.committed queue p),
    fun queue p offset m hat => hnext.leasedAt queue p offset m (hgrows.leasedAt _ _ _ _ hat)⟩

/-- What a lease returns, the committed offsets have not passed. -/
theorem Inv.le_of_lease (h : s.Inv) {count : ℕ} {fetched : List (ℕ × ℕ)} {k : KafkaQueues}
    {leased : List Leased} (hlease : s.broker.lease queue count fetched = some (k, leased))
    (hm : m ∈ leased) (hat : (s.broker.topics queue).leasedAt p offset = some m) :
    (s.broker.topics queue).committed p ≤ offset := by
  unfold KafkaQueues.lease at hlease
  split_ifs at hlease
  obtain ⟨⟨position, leased'⟩, hgetmany, heq⟩ := Option.map_eq_some_iff.mp hlease
  obtain ⟨-, rfl⟩ := Prod.mk.inj heq
  have hbetween := (mem_leased_iff (Topic.getmany_eq_some fetched hgetmany).2 hat).mp hm
  exact (h.ahead queue p).trans hbetween.1

/-- A message that the committed offsets have not passed is returned by a new consumer that reads up
to it. -/
theorem returnedAgain (hat : (s.broker.topics queue).leasedAt p offset = some m)
    (hleft : (s.broker.topics queue).committed p ≤ offset) : s.ReturnedAgain queue m := by
  obtain ⟨envelope, hvalue, -⟩ := Option.map_eq_some_iff.mp hat
  obtain ⟨hlt, -⟩ := List.getElem?_eq_some_iff.mp (Option.join_eq_some_iff.mp hvalue)
  set n := offset + 1 - (s.broker.topics queue).committed p with hn
  have hbound : (s.broker.topics queue).committed p + n ≤
      ((s.broker.topics queue).logs p).length := by omega
  refine ⟨{ s with broker := { s.broker with consumer := none }, held := [] }, n, [(p, n)],
    { s.broker with consumer := some (queue, Function.update (s.broker.topics queue).committed p
      ((s.broker.topics queue).committed p + n)) },
    (s.broker.topics queue).batch p ((s.broker.topics queue).committed p) n, ?_, ?_, ?_⟩
  · exact (ReachesWhen.refl _).tail (a := .crash) trivial rfl
  · simp [KafkaQueues.lease, KafkaQueues.ensureConsumer, Topic.getmany, hbound]
  · exact Topic.mem_batch.mpr ⟨offset, hleft, by omega, hat⟩

/-- **What comes again.** A message that has been returned for a queue can be returned again by a
later lease exactly when no `ack`, of whatever queue and messages, has been called while a consumer
that had returned it was there. -/
theorem returned_again_iff {topics : String → Topic} (h : Reaches step (start topics) s)
    (hm : (queue, m) ∈ s.returned) : s.ReturnedAgain queue m ↔ (queue, m) ∉ s.settled := by
  have hinv := inv_of_reaches h
  obtain ⟨p, offset, hat⟩ := hinv.placed queue m hm
  rw [hinv.settled queue m p offset hm hat, not_lt]
  constructor
  · rintro ⟨s', count, fetched, k, leased, hrun, hlease, hleased⟩
    obtain ⟨hinv', hgrows⟩ := hinv.of_reaches hrun
    exact (hgrows.committed queue p).trans
      (hinv'.le_of_lease hlease hleased (hgrows.leasedAt _ _ _ _ hat))
  · exact returnedAgain hat

/-- A first message of a topic. -/
def first (n : ℕ) : Leased := ⟨KafkaRun.sampleEnvelope n, "0:0", 0⟩

/-- The topics of two queues with one task each. -/
def oneEach (queue : String) : Topic :=
  let logs (n : ℕ) (p : ℕ) : List (Option TaskEnvelope) :=
    if p = 0 then [some (first n).envelope] else []
  ⟨if queue = "a" then logs 1 else if queue = "b" then logs 2 else fun _ => [], fun _ => 0⟩

/-- The theorem at a worker that polls a second queue before the task of the first is done. That one
is acknowledged and comes again, and the other, which nobody has acknowledged, does not. -/
theorem returned_again_iff_two : ∃ s : KafkaQueuesRun, Reaches step (start oneEach) s ∧
    s.ReturnedAgain "a" (first 1) ∧ ¬ s.ReturnedAgain "b" (first 2) := by
  obtain ⟨s, hrun, hreturned, hsettled⟩ := exists_run_of_check step (start oneEach)
    [.lease "a" 5 [(0, 1)], .lease "b" 5 [(0, 1)], .ack "a" ["0:0"]]
    (fun s => s.returned = [("a", first 1), ("b", first 2)] ∧ s.settled = [("b", first 2)])
    (by decide +kernel)
  have hreach : Reaches step (start oneEach) s := .of_run hrun
  refine ⟨s, hreach, (returned_again_iff hreach (by simp [hreturned])).mpr ?_, fun hagain => ?_⟩
  · simp [hsettled]
  · exact (returned_again_iff hreach (by simp [hreturned])).mp hagain (by simp [hsettled])

end KafkaQueuesRun

end Dtq
