import Mathlib.Logic.Function.Basic
import Dtq.Core.Models
import Dtq.Lib.NumberText
import Dtq.Lib.Transition

/-!
# The Kafka broker

`lease` and `ack` of `dtq/broker/kafka_broker.py` on one queue and one group. A topic is a log per
partition; the group has one committed offset per partition; the consumer has a position in each
partition, taken from the committed offset when it is created.

`ack` is given the ids of the messages to acknowledge and calls `commit()` without arguments,
which commits the positions. So it acknowledges everything that was returned before, whatever
it is given.

## Main result

* `KafkaRun.unacked_returned_again_iff` — which messages are delivered again after a crash
-/

set_option autoImplicit false

namespace Dtq

/-- A task envelope that has been leased from a broker. -/
structure Leased where
  envelope : TaskEnvelope
  brokerMsgId : String
  idleMs : ℕ := 0
deriving DecidableEq

/-- What Kafka keeps of a topic and a group: the values in each partition, of which some do not
decode, and the committed offsets. -/
structure Topic where
  logs : ℕ → List (Option TaskEnvelope)
  committed : ℕ → ℕ

/-- The adapter: the topic, and the positions of its consumer once there is one. -/
structure KafkaBroker where
  topic : Topic
  consumer : Option (ℕ → ℕ)

/-- `f"{msg.partition}:{msg.offset}"`. -/
def msgId (partition offset : ℕ) : String := toString partition ++ ":" ++ toString offset

theorem msgId_inj {p p' offset offset' : ℕ} (h : msgId p offset = msgId p' offset') :
    p = p' ∧ offset = offset' := by
  have hcolon : ∀ n : ℕ, ':' ∉ (toString n).toList := fun n hmem =>
    absurd (NumberText.isDigit_of_mem_toString hmem) (by decide)
  obtain ⟨hp, hoffset⟩ := NumberText.join_inj (hcolon offset) (hcolon offset') h
  exact ⟨NumberText.natToString_inj hp, NumberText.natToString_inj hoffset⟩

namespace Topic

/-- The message at an offset, unless its value does not decode. -/
def leasedAt (topic : Topic) (partition offset : ℕ) : Option Leased :=
  ((topic.logs partition)[offset]?.join).map fun envelope =>
    { envelope := envelope, brokerMsgId := msgId partition offset }

/-- The decodable messages among the `n` records from an offset on. -/
def batch (topic : Topic) (partition offset n : ℕ) : List Leased :=
  (List.range' offset n).filterMap (topic.leasedAt partition)

/-- `getmany`, whose result has the given numbers of records of some partitions, in this order: the
messages, and the positions after them. There are no more records than the log has. -/
def getmany (topic : Topic) : List (ℕ × ℕ) → (ℕ → ℕ) → Option ((ℕ → ℕ) × List Leased)
  | [], position => some (position, [])
  | (partition, n) :: rest, position =>
    if position partition + n ≤ (topic.logs partition).length then
      (topic.getmany rest (Function.update position partition (position partition + n))).map
        fun result =>
          (result.1, topic.batch partition (position partition) n ++ result.2)
    else none

/-- A record is appended to a partition. -/
def append (topic : Topic) (partition : ℕ) (value : Option TaskEnvelope) : Topic :=
  { topic with
    logs := Function.update topic.logs partition (topic.logs partition ++ [value]) }

end Topic

namespace KafkaBroker

/-- `_ensure_consumer`: a new consumer starts at the committed offsets. -/
def ensureConsumer (k : KafkaBroker) : ℕ → ℕ := k.consumer.getD k.topic.committed

/-- `lease`: at most `count` records, as `getmany` finds them. -/
def lease (k : KafkaBroker) (count : ℕ) (fetched : List (ℕ × ℕ)) :
    Option (KafkaBroker × List Leased) :=
  if (fetched.map Prod.snd).sum ≤ count then
    (k.topic.getmany fetched k.ensureConsumer).map fun result =>
      ({ k with consumer := some result.1 }, result.2)
  else none

/-- `ack`: `commit()` commits the position in every partition. The ids are not looked at. -/
def ack (k : KafkaBroker) (_msgIds : List String) : KafkaBroker :=
  match k.consumer with
  | some position => { k with topic := { k.topic with committed := position } }
  | none => k

end KafkaBroker

/-- A life of the consumer: the broker, the messages that `lease` has returned, the ids that `ack`
was given, and what had been returned when `ack` was last called. -/
structure KafkaRun where
  broker : KafkaBroker
  returned : List Leased
  acked : List String
  passed : List Leased

/-- A call, or a record that arrives in between. -/
inductive KafkaCall
  | arrive (partition : ℕ) (value : Option TaskEnvelope)
  | lease (count : ℕ) (fetched : List (ℕ × ℕ))
  | ack (msgIds : List String)

namespace KafkaRun

/-- A life begins, at first or after a crash: there is no consumer, and Kafka has what was
committed. -/
def start (topic : Topic) : KafkaRun := ⟨⟨topic, none⟩, [], [], []⟩

/-- One call. -/
def step (s : KafkaRun) : KafkaCall → Option KafkaRun
  | .arrive partition value =>
    some { s with broker := { s.broker with topic := s.broker.topic.append partition value } }
  | .lease count fetched =>
    (s.broker.lease count fetched).map fun result =>
      { s with broker := result.1, returned := s.returned ++ result.2 }
  | .ack msgIds =>
    some { s with
      broker := s.broker.ack msgIds
      acked := s.acked ++ msgIds
      passed := s.returned }

/-- After a crash some later life of the consumer returns the message. -/
def ReturnedAgain (s : KafkaRun) (m : Leased) : Prop :=
  ∃ s', Transition.Reaches step (start s.broker.topic) s' ∧ m ∈ s'.returned

end KafkaRun

/-! ### The messages of a topic -/

namespace Topic

variable {topic : Topic} {p offset : ℕ} {m : Leased}

theorem msgId_of_leasedAt (h : topic.leasedAt p offset = some m) :
    m.brokerMsgId = msgId p offset := by
  obtain ⟨envelope, -, rfl⟩ := Option.map_eq_some_iff.mp h
  rfl

/-- A message stands in one place only. -/
theorem leasedAt_inj {topic' : Topic} {p' offset' : ℕ} (h : topic.leasedAt p offset = some m)
    (h' : topic'.leasedAt p' offset' = some m) : p = p' ∧ offset = offset' :=
  msgId_inj ((msgId_of_leasedAt h).symm.trans (msgId_of_leasedAt h'))

/-- What is in the log stays where it is. -/
theorem leasedAt_append (h : topic.leasedAt p offset = some m) (partition : ℕ)
    (value : Option TaskEnvelope) : (topic.append partition value).leasedAt p offset = some m := by
  obtain ⟨envelope, hvalue, rfl⟩ := Option.map_eq_some_iff.mp h
  have hentry : (topic.logs p)[offset]? = some (some envelope) := Option.join_eq_some_iff.mp hvalue
  have hkept : ((topic.append partition value).logs p)[offset]? = some (some envelope) := by
    by_cases hp : p = partition
    · subst hp
      obtain ⟨hlt, -⟩ := List.getElem?_eq_some_iff.mp hentry
      simp only [append, Function.update_self]
      rw [List.getElem?_append_left hlt, hentry]
    · simp only [append, Function.update_of_ne hp]
      exact hentry
  rw [leasedAt, hkept]
  rfl

theorem mem_batch {n : ℕ} :
    m ∈ topic.batch p offset n ↔
      ∃ k, offset ≤ k ∧ k < offset + n ∧ topic.leasedAt p k = some m := by
  simp only [batch, List.mem_filterMap, List.mem_range'_1, and_assoc]

/-- `getmany` returns exactly the messages between the old and the new positions. -/
theorem getmany_eq_some (fetched : List (ℕ × ℕ)) : ∀ {position position' : ℕ → ℕ}
    {leased : List Leased}, topic.getmany fetched position = some (position', leased) →
      (∀ p, position p ≤ position' p) ∧ ∀ m, m ∈ leased ↔
        ∃ p offset, position p ≤ offset ∧ offset < position' p ∧
          topic.leasedAt p offset = some m := by
  induction fetched with
  | nil =>
    intro position position' leased h
    obtain ⟨rfl, rfl⟩ : position = position' ∧ [] = leased := by simpa [getmany] using h
    refine ⟨fun _ => le_rfl, fun m => ⟨fun hm => absurd hm List.not_mem_nil, ?_⟩⟩
    rintro ⟨p, offset, hle, hlt, -⟩
    omega
  | cons entry rest ih =>
    obtain ⟨q, n⟩ := entry
    intro position position' leased h
    rw [getmany] at h
    split_ifs at h
    obtain ⟨⟨position₁, leased₁⟩, hrest, heq⟩ := Option.map_eq_some_iff.mp h
    obtain ⟨rfl, rfl⟩ : position₁ = position' ∧ topic.batch q (position q) n ++ leased₁ = leased :=
      Prod.mk.inj heq
    obtain ⟨hle, hmem⟩ := ih hrest
    -- a partition may be named again in the rest, so its final position is only bounded below
    have hq : position q + n ≤ position₁ q := by simpa using hle q
    have hother : ∀ p, p ≠ q → position p ≤ position₁ p := by
      intro p hp
      have := hle p
      rwa [Function.update_of_ne hp] at this
    refine ⟨fun p => ?_, fun m => ?_⟩
    · by_cases hp : p = q
      · subst hp
        omega
      · exact hother p hp
    · rw [List.mem_append, mem_batch, hmem]
      constructor
      · rintro (⟨k, hlow, hhigh, hk⟩ | ⟨p, offset, hlow, hhigh, hoffset⟩)
        · exact ⟨q, k, hlow, by omega, hk⟩
        · refine ⟨p, offset, ?_, hhigh, hoffset⟩
          by_cases hp : p = q
          · subst hp
            rw [Function.update_self] at hlow
            omega
          · rwa [Function.update_of_ne hp] at hlow
      · rintro ⟨p, offset, hlow, hhigh, hoffset⟩
        by_cases hp : p = q
        · subst hp
          -- in this batch, or in a later one of the same partition
          by_cases hfirst : offset < position p + n
          · exact Or.inl ⟨offset, hlow, hfirst, hoffset⟩
          · exact Or.inr ⟨p, offset, by rw [Function.update_self]; omega, hhigh, hoffset⟩
        · exact Or.inr ⟨p, offset, by rwa [Function.update_of_ne hp], hhigh, hoffset⟩

end Topic

/-! ### What a life of the consumer returns -/

namespace KafkaRun

variable {s s' : KafkaRun} {base : ℕ → ℕ}

/-- Against the offsets `base` that were committed when the life began: the positions run ahead of
the committed offsets, everything returned stands between `base` and the positions, and what the
committed offsets have passed is what had been returned when `ack` was last called. -/
structure Inv (base : ℕ → ℕ) (s : KafkaRun) : Prop where
  base_le : ∀ p, base p ≤ s.broker.topic.committed p
  committed_le : ∀ p, s.broker.topic.committed p ≤ s.broker.ensureConsumer p
  returned : ∀ m ∈ s.returned, ∃ p offset, s.broker.topic.leasedAt p offset = some m ∧
    base p ≤ offset ∧ offset < s.broker.ensureConsumer p
  consumer : s.returned ≠ [] → s.broker.consumer ≠ none
  passed_subset : s.passed ⊆ s.returned
  passed : ∀ m ∈ s.returned, ∀ p offset, s.broker.topic.leasedAt p offset = some m →
    (offset < s.broker.topic.committed p ↔ m ∈ s.passed)

theorem inv_start (topic : Topic) : Inv topic.committed (start topic) where
  base_le := fun _ => le_rfl
  committed_le := fun _ => le_rfl
  returned := fun _ hm => absurd hm List.not_mem_nil
  consumer := fun h => absurd rfl h
  passed_subset := fun _ hm => hm
  passed := fun _ hm => absurd hm List.not_mem_nil

theorem Inv.arrive (h : Inv base s) (partition : ℕ) (value : Option TaskEnvelope) :
    Inv base { s with
      broker := { s.broker with topic := s.broker.topic.append partition value } } := by
  have hposition : KafkaBroker.ensureConsumer
      { s.broker with topic := s.broker.topic.append partition value } =
        s.broker.ensureConsumer := rfl
  refine ⟨h.base_le, h.committed_le, fun m hm => ?_, h.consumer, h.passed_subset, ?_⟩
  · obtain ⟨p, offset, hat, hlow, hhigh⟩ := h.returned m hm
    exact ⟨p, offset, Topic.leasedAt_append hat partition value, hlow, hhigh⟩
  · intro m hm p offset hat
    obtain ⟨p', offset', hat', -, -⟩ := h.returned m hm
    obtain ⟨rfl, rfl⟩ := Topic.leasedAt_inj hat hat'
    exact h.passed m hm p offset hat'

theorem Inv.lease (h : Inv base s) {count : ℕ} {fetched : List (ℕ × ℕ)} {k : KafkaBroker}
    {leased : List Leased} (hlease : s.broker.lease count fetched = some (k, leased)) :
    Inv base { s with broker := k, returned := s.returned ++ leased } := by
  unfold KafkaBroker.lease at hlease
  split_ifs at hlease
  obtain ⟨⟨position, leased'⟩, hgetmany, heq⟩ := Option.map_eq_some_iff.mp hlease
  obtain ⟨rfl, rfl⟩ := Prod.mk.inj heq
  obtain ⟨hle, hmem⟩ := Topic.getmany_eq_some fetched hgetmany
  refine ⟨h.base_le, fun p => (h.committed_le p).trans (hle p), fun m hm => ?_, fun _ => by simp,
    fun m hm => List.mem_append_left _ (h.passed_subset hm), fun m hm p offset hat => ?_⟩
  · rcases List.mem_append.mp hm with hm | hm
    · obtain ⟨p, offset, hat, hlow, hhigh⟩ := h.returned m hm
      exact ⟨p, offset, hat, hlow, hhigh.trans_le (hle p)⟩
    · obtain ⟨p, offset, hlow, hhigh, hat⟩ := (hmem m).mp hm
      exact ⟨p, offset, hat, ((h.base_le p).trans (h.committed_le p)).trans hlow, hhigh⟩
  · rcases List.mem_append.mp hm with hm | hm
    · exact h.passed m hm p offset hat
    · -- a message returned now stands at or after the old position
      obtain ⟨p', offset', hlow, -, hat'⟩ := (hmem m).mp hm
      obtain ⟨rfl, rfl⟩ := Topic.leasedAt_inj hat hat'
      have hcommitted := (h.committed_le p).trans hlow
      refine ⟨fun hlt => absurd hlt hcommitted.not_gt, fun hpassed => ?_⟩
      obtain ⟨p', offset', hat', -, hhigh⟩ := h.returned m (h.passed_subset hpassed)
      obtain ⟨rfl, rfl⟩ := Topic.leasedAt_inj hat hat'
      exact absurd hhigh hlow.not_gt

theorem Inv.ack (h : Inv base s) (msgIds : List String) :
    Inv base { s with
      broker := s.broker.ack msgIds, acked := s.acked ++ msgIds, passed := s.returned } := by
  cases hconsumer : s.broker.consumer with
  | none =>
    have hack : s.broker.ack msgIds = s.broker := by simp [KafkaBroker.ack, hconsumer]
    have hnil : s.returned = [] := by
      by_contra hne
      exact h.consumer hne hconsumer
    rw [hack]
    refine ⟨h.base_le, h.committed_le, h.returned, h.consumer, fun _ hm => hm, fun m hm => ?_⟩
    rw [hnil] at hm
    exact absurd hm List.not_mem_nil
  | some position =>
    have hensure : s.broker.ensureConsumer = position := by
      simp [KafkaBroker.ensureConsumer, hconsumer]
    have hack : s.broker.ack msgIds =
        ⟨{ s.broker.topic with committed := position }, some position⟩ := by
      simp [KafkaBroker.ack, hconsumer]
    rw [hack]
    refine ⟨fun p => ?_, fun p => le_rfl, fun m hm => ?_, fun _ => by simp, fun _ hm => hm,
      fun m hm p offset hat => ?_⟩
    · exact hensure ▸ (h.base_le p).trans (h.committed_le p)
    · exact hensure ▸ h.returned m hm
    · obtain ⟨p', offset', hat', -, hhigh⟩ := h.returned m hm
      obtain ⟨rfl, rfl⟩ := Topic.leasedAt_inj hat hat'
      exact ⟨fun _ => hm, fun _ => hensure ▸ hhigh⟩

theorem Inv.step (h : Inv base s) {call : KafkaCall} (hstep : s.step call = some s') :
    Inv base s' := by
  cases call with
  | arrive partition value =>
    obtain rfl := Option.some.inj hstep
    exact h.arrive partition value
  | lease count fetched =>
    obtain ⟨⟨k, leased⟩, hlease, rfl⟩ := Option.map_eq_some_iff.mp hstep
    exact h.lease hlease
  | ack msgIds =>
    obtain rfl := Option.some.inj hstep
    exact h.ack msgIds

theorem inv_of_reaches {topic : Topic} (h : Transition.Reaches KafkaRun.step (start topic) s) :
    Inv topic.committed s :=
  h.invariant (fun _ _ _ hinv hstep => hinv.step hstep) (inv_start topic)

/-- A message that the committed offset has passed is never returned again. -/
theorem not_returnedAgain {m : Leased} {p offset : ℕ}
    (hat : s.broker.topic.leasedAt p offset = some m)
    (hpassed : offset < s.broker.topic.committed p) : ¬ s.ReturnedAgain m := by
  rintro ⟨s', hreach, hm⟩
  obtain ⟨p', offset', hat', hlow, -⟩ := (inv_of_reaches hreach).returned m hm
  obtain ⟨rfl, rfl⟩ := Topic.leasedAt_inj hat hat'
  exact absurd hpassed hlow.not_gt

/-- A message that the committed offset has not passed is returned by a lease that reads up to
it. -/
theorem returnedAgain {m : Leased} {p offset : ℕ}
    (hat : s.broker.topic.leasedAt p offset = some m)
    (hleft : s.broker.topic.committed p ≤ offset) : s.ReturnedAgain m := by
  obtain ⟨envelope, hvalue, -⟩ := Option.map_eq_some_iff.mp hat
  obtain ⟨hlt, -⟩ := List.getElem?_eq_some_iff.mp (Option.join_eq_some_iff.mp hvalue)
  set n := offset + 1 - s.broker.topic.committed p with hn
  have hbound : s.broker.topic.committed p + n ≤ (s.broker.topic.logs p).length := by omega
  have hlease : (start s.broker.topic).step (.lease n [(p, n)]) = some
      { start s.broker.topic with
        broker := ⟨s.broker.topic, some (Function.update s.broker.topic.committed p
          (s.broker.topic.committed p + n))⟩
        returned := s.broker.topic.batch p (s.broker.topic.committed p) n } := by
    simp [KafkaRun.step, start, KafkaBroker.lease, KafkaBroker.ensureConsumer, Topic.getmany,
      hbound]
  refine ⟨_, (Transition.ReachesWhen.refl _).tail trivial hlease, ?_⟩
  exact Topic.mem_batch.mpr ⟨offset, hleft, by omega, hat⟩

/-- **What a crash loses.** Every message that `lease` has returned and no `ack` has named is
returned again after a crash exactly when every message returned before the last `ack` has been
named by one. -/
theorem unacked_returned_again_iff (topic : Topic) (s : KafkaRun)
    (hreach : Transition.Reaches KafkaRun.step (start topic) s) :
    (∀ m ∈ s.returned, m.brokerMsgId ∉ s.acked → s.ReturnedAgain m) ↔
      ∀ m ∈ s.passed, m.brokerMsgId ∈ s.acked := by
  have h := inv_of_reaches hreach
  constructor
  · intro hagain m hm
    by_contra hunacked
    have hreturned := h.passed_subset hm
    obtain ⟨p, offset, hat, -, -⟩ := h.returned m hreturned
    exact not_returnedAgain hat ((h.passed m hreturned p offset hat).mpr hm)
      (hagain m hreturned hunacked)
  · intro hpassed m hm hunacked
    obtain ⟨p, offset, hat, -, -⟩ := h.returned m hm
    refine returnedAgain hat (le_of_not_gt fun hlt => hunacked (hpassed m ?_))
    exact (h.passed m hm p offset hat).mp hlt

/-- A task of the queue. -/
def sampleEnvelope (n : ℕ) : TaskEnvelope :=
  { taskId := ⟨BitVec.ofNat 128 n⟩
    queue := "q"
    taskName := "t"
    payload := .null
    createdAt := 0 }

/-- Two tasks in the first partition. -/
def sampleTopic : Topic :=
  ⟨fun p => if p = 0 then [some (sampleEnvelope 1), some (sampleEnvelope 2)] else [], fun _ => 0⟩

/-- The theorem at a consumer that acknowledges the first message before it leases the second: the
second one comes again. -/
theorem unacked_returned_again_iff_in_order : ∃ s,
    Transition.Reaches KafkaRun.step (start sampleTopic) s ∧ s.returned.length = 2 ∧
      s.acked = ["0:0"] ∧ ∀ m ∈ s.returned, m.brokerMsgId ∉ s.acked → s.ReturnedAgain m := by
  obtain ⟨s, hrun, hreturned, hacked, hpassed⟩ := Transition.exists_run_of_check KafkaRun.step
    (start sampleTopic) [.lease 1 [(0, 1)], .ack ["0:0"], .lease 5 [(0, 1)]]
    (fun s => s.returned.length = 2 ∧ s.acked = ["0:0"] ∧ ∀ m ∈ s.passed, m.brokerMsgId ∈ s.acked)
    (by decide +kernel)
  have hreach : Transition.Reaches KafkaRun.step (start sampleTopic) s := .of_run hrun
  exact ⟨s, hreach, hreturned, hacked, (unacked_returned_again_iff _ _ hreach).mpr hpassed⟩

/-- Two messages are leased in one batch and the first one is acknowledged. The second one, which
no `ack` has named, is never returned again. -/
theorem unacked_message_lost : ∃ s m, Transition.Reaches KafkaRun.step (start sampleTopic) s ∧
    m ∈ s.returned ∧ m.brokerMsgId = "0:1" ∧ s.acked = ["0:0"] ∧ ¬ s.ReturnedAgain m := by
  obtain ⟨s, hrun, hacked, hmem, hat, hcommitted⟩ := Transition.exists_run_of_check KafkaRun.step
    (start sampleTopic) [.lease 5 [(0, 2)], .ack ["0:0"]]
    (fun s => s.acked = ["0:0"] ∧ ⟨sampleEnvelope 2, "0:1", 0⟩ ∈ s.returned ∧
      s.broker.topic.leasedAt 0 1 = some ⟨sampleEnvelope 2, "0:1", 0⟩ ∧
      1 < s.broker.topic.committed 0) (by decide +kernel)
  exact ⟨s, _, .of_run hrun, hmem, rfl, hacked, not_returnedAgain hat hcommitted⟩

end KafkaRun

end Dtq
