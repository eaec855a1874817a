import Mathlib.Data.List.Infix
import Mathlib.Data.List.Rotate
import Mathlib.Data.Nat.Count
import Dtq.Broker.Decoding

/-!
# Inspecting the dead-letter queue on RabbitMQ

`get_dlq_messages` of `dtq/broker/rabbitmq_broker.py` takes messages off the dead-letter queue one
at a time and gives each back before it takes the next. RabbitMQ puts a message that is given back
at the head of the queue or at its tail; which of the two is the environment's choice here, for
every `get`, as is the delivery tag. `loads` stands for `json.loads` and `decode` for
`TaskEnvelope.model_validate_json`, and nothing is assumed of them.

A message is named by the place it has in the queue when the inspection begins.

## Main results

* `inspect_eq` — the queue is rotated by the number of messages that went to its tail, and each
  `get` takes what is at its head then
* `faithfulPeek_iff` — the inspections that return no message twice
-/

set_option autoImplicit false

namespace Dtq.RabbitDlq

/-- A message on the dead-letter queue: its body as text, if it is UTF-8, and its place. -/
structure Message where
  body : Option String
  place : ℕ
deriving DecidableEq

/-- The messages with these bodies, in a queue. -/
def queueOf (bodies : List (Option String)) : List Message := bodies.mapIdx fun i body => ⟨body, i⟩

/-- Where RabbitMQ puts a message that is given back. -/
inductive End
  | head
  | tail
deriving DecidableEq

/-- `nack(requeue=True)` for the message that was taken off the queue. -/
def giveBack (m : Message) (rest : List Message) : End → List Message
  | .head => m :: rest
  | .tail => rest ++ [m]

/-- `key in text` of two texts. -/
def occursIn (key text : String) : Bool := decide (key.toList <:+: text.toList)

section Decoding

variable (loads : String → Option Json) (decode : String → Option TaskEnvelope)

/-- The text that is decoded when the body is the JSON value `record`: `record["envelope"]` if
`"envelope" in record`, else the body. There is none when either expression raises `TypeError`, or
when the value found is no text. -/
def envelopeText (body : String) : Json → Option String
  | .obj fields =>
    match fields.lookup "envelope" with
    | some (.str data) => some data
    | some _ => none
    | none => some body
  | .str text => if occursIn "envelope" text then none else some body
  | .arr items => if .str "envelope" ∈ items then none else some body
  | .null | .bool _ | .num _ => none

/-- The envelope of a message; `none` when an exception ends the round. -/
def envelopeOf (m : Message) : Option TaskEnvelope :=
  match m.body with
  | none => none
  | some body =>
    match loads body with
    -- `except (json.JSONDecodeError, KeyError)`
    | none => decode body
    | some record => (envelopeText body record).bind decode

/-- What the loop has appended: the `Leased`, and the place of the message that it came from. -/
structure Peeked where
  leased : Leased
  place : ℕ
deriving DecidableEq

/-- The loop of `get_dlq_messages`, of which `k` rounds are left: the messages returned and the
queue as it is left behind. `ends` and `tags` tell how RabbitMQ answers round `i`. -/
def inspect (ends : ℕ → End) (tags : ℕ → ℕ) (i : ℕ) :
    ℕ → List Message → List Peeked → List Peeked × List Message
  | 0, dlq, messages => (messages, dlq)
  | _ + 1, [], messages => (messages, [])
  | k + 1, m :: rest, messages =>
    let messages :=
      match envelopeOf loads decode m with
      | some envelope => messages ++ [⟨⟨envelope, toString (tags i), 0⟩, m.place⟩]
      | none => messages
    inspect ends tags (i + 1) k (giveBack m rest (ends i)) messages

/-- `get_dlq_messages(queue, count)`. -/
def getDlqMessages (ends : ℕ → End) (tags : ℕ → ℕ) (dlq : List Message) (count : ℤ) :
    List Peeked × List Message :=
  inspect loads decode ends tags 0 count.toNat dlq []

end Decoding

/-- The record that `dead_letter` publishes. -/
def deadLetterRecord (data reason : String) : Json :=
  .obj [("envelope", .str data), ("reason", .str reason)]

variable {loads : String → Option Json} {decode : String → Option TaskEnvelope}
  {ends : ℕ → End} {tags : ℕ → ℕ} {bodies : List (Option String)} {messages : List Peeked}

/-- What `dead_letter` has published decodes as the envelope that it wrapped. -/
theorem envelopeOf_deadLetter {m : Message} {body data reason : String} (hbody : m.body = some body)
    (hloads : loads body = some (deadLetterRecord data reason)) :
    envelopeOf loads decode m = decode data := by
  have htext : envelopeText body (deadLetterRecord data reason) = some data := by
    rw [deadLetterRecord, envelopeText, List.lookup_cons_self]
  simp [envelopeOf, hbody, hloads, htext]

/-! ### Where the head of the queue is -/

/-- How many of the first `i` messages given back went to the tail. -/
def tails (ends : ℕ → End) (i : ℕ) : ℕ := Nat.count (fun j => ends j = .tail) i

theorem tails_succ_of_head {i : ℕ} (h : ends i = .head) : tails ends (i + 1) = tails ends i := by
  simp [tails, Nat.count_succ, h]

theorem tails_succ_of_tail {i : ℕ} (h : ends i = .tail) :
    tails ends (i + 1) = tails ends i + 1 := by
  simp [tails, Nat.count_succ, h]

theorem tails_mono {i j : ℕ} (h : i ≤ j) : tails ends i ≤ tails ends j :=
  Nat.count_monotone _ h

/-- The number of messages at the tail grows by one at most, so that it misses no value. -/
theorem exists_tails_eq {i j v : ℕ} (hij : i ≤ j) (hi : tails ends i ≤ v) (hj : v ≤ tails ends j) :
    ∃ k, i ≤ k ∧ k ≤ j ∧ tails ends k = v := by
  induction j, hij using Nat.le_induction with
  | base => exact ⟨i, Nat.le_refl i, Nat.le_refl i, Nat.le_antisymm hi hj⟩
  | succ j hij ih =>
    by_cases hle : v ≤ tails ends j
    · obtain ⟨k, hik, hkj, hk⟩ := ih hle
      exact ⟨k, hik, by omega, hk⟩
    · refine ⟨j + 1, by omega, Nat.le_refl _, ?_⟩
      cases hend : ends j with
      | head =>
        rw [tails_succ_of_head hend] at hj
        omega
      | tail =>
        rw [tails_succ_of_tail hend] at hj ⊢
        omega

/-- Giving a message back rotates the queue, or does nothing. -/
theorem giveBack_rotate {i : ℕ} {dlq : List Message} {m : Message} {rest : List Message}
    (h : dlq.rotate (tails ends i) = m :: rest) :
    giveBack m rest (ends i) = dlq.rotate (tails ends (i + 1)) := by
  cases hend : ends i with
  | head => rw [tails_succ_of_head hend, h, giveBack]
  | tail =>
    rw [tails_succ_of_tail hend, ← List.rotate_rotate, h, giveBack]
    simp

/-! ### What the rounds return -/

/-- What round `i` returns, when it finds the queue rotated by the messages that went to its
tail. -/
def peek (loads : String → Option Json) (decode : String → Option TaskEnvelope) (ends : ℕ → End)
    (tags : ℕ → ℕ) (dlq : List Message) (i : ℕ) : Option Peeked :=
  (dlq.rotate (tails ends i)).head?.bind fun m =>
    (envelopeOf loads decode m).map fun envelope => ⟨⟨envelope, toString (tags i), 0⟩, m.place⟩

/-- **Run lemma.** Each round returns what is at the head of the rotated queue, and the queue is
left rotated. -/
theorem inspect_eq (loads : String → Option Json) (decode : String → Option TaskEnvelope)
    (ends : ℕ → End) (tags : ℕ → ℕ) (dlq : List Message) (k i : ℕ) (messages : List Peeked) :
    inspect loads decode ends tags i k (dlq.rotate (tails ends i)) messages =
      (messages ++ (List.range' i k).filterMap (peek loads decode ends tags dlq),
        if dlq = [] then [] else dlq.rotate (tails ends (i + k))) := by
  induction k generalizing i messages with
  | zero =>
    by_cases hdlq : dlq = []
    · simp [inspect, hdlq]
    · simp [inspect, hdlq]
  | succ k ih =>
    cases hrot : dlq.rotate (tails ends i) with
    | nil =>
      have hdlq : dlq = [] := List.rotate_eq_nil_iff.mp hrot
      have hpeek : (List.range' i (k + 1)).filterMap (peek loads decode ends tags dlq) = [] := by
        simp [List.filterMap_eq_nil_iff, peek, hdlq]
      simp [inspect, hdlq, ← hpeek]
    | cons m rest =>
      -- giving the message back at the end `ends i` is one more rotation, or none
      rw [inspect, giveBack_rotate hrot, ih, List.range'_succ]
      have hsum : i + 1 + k = i + (k + 1) := by omega
      rw [hsum]
      cases henv : envelopeOf loads decode m with
      | none =>
        have hpeek : peek loads decode ends tags dlq i = none := by simp [peek, hrot, henv]
        rw [List.filterMap_cons_none hpeek]
      | some envelope =>
        have hpeek : peek loads decode ends tags dlq i =
            some ⟨⟨envelope, toString (tags i), 0⟩, m.place⟩ := by simp [peek, hrot, henv]
        rw [List.filterMap_cons_some hpeek, List.append_assoc]
        rfl

@[simp] theorem length_queueOf : (queueOf bodies).length = bodies.length := by simp [queueOf]

/-- The envelope of the message at a place of the queue. -/
def envelopeAt (loads : String → Option Json) (decode : String → Option TaskEnvelope)
    (bodies : List (Option String)) (place : ℕ) : Option TaskEnvelope :=
  bodies[place]?.bind fun body => envelopeOf loads decode ⟨body, place⟩

/-- The place that is at the head of the queue in round `i`. -/
def placeAt (ends : ℕ → End) (m i : ℕ) : ℕ := tails ends i % m

theorem head?_rotate_queueOf {m : Message} {r : ℕ}
    (h : ((queueOf bodies).rotate r).head? = some m) :
    m.place = r % bodies.length ∧ bodies[m.place]? = some m.body := by
  have hpos : 0 < bodies.length := by
    cases bodies with
    | nil => simp [queueOf] at h
    | cons body rest => simp
  have hlt : r % bodies.length < bodies.length := Nat.mod_lt _ hpos
  rw [← List.rotate_mod, length_queueOf, List.head?_rotate (by simpa using hlt)] at h
  obtain rfl : Message.mk bodies[r % bodies.length] (r % bodies.length) = m := by
    simpa [queueOf, hlt] using h
  exact ⟨rfl, List.getElem?_eq_getElem hlt⟩

/-- A round returns the message at the head, if it decodes. -/
theorem peek_eq_some_iff {i : ℕ} {p : Peeked} :
    peek loads decode ends tags (queueOf bodies) i = some p ↔
      ∃ envelope, envelopeAt loads decode bodies (placeAt ends bodies.length i) = some envelope ∧
        p = ⟨⟨envelope, toString (tags i), 0⟩, placeAt ends bodies.length i⟩ := by
  cases hhead : ((queueOf bodies).rotate (tails ends i)).head? with
  | none =>
    have hempty : bodies = [] := by
      have hrot := List.head?_eq_none_iff.mp hhead
      simpa [queueOf] using List.rotate_eq_nil_iff.mp hrot
    simp [peek, hempty, queueOf, envelopeAt]
  | some m =>
    obtain ⟨hplace, hbody⟩ := head?_rotate_queueOf hhead
    have hat : placeAt ends bodies.length i = m.place := hplace.symm
    have henvelope : envelopeAt loads decode bodies m.place = envelopeOf loads decode m := by
      simp [envelopeAt, hbody]
    simp only [peek, hhead, Option.bind_some, Option.map_eq_some_iff, hat, henvelope]
    exact exists_congr fun envelope => and_congr_right fun _ => eq_comm

/-- The messages that an inspection returns, round by round. -/
theorem getDlqMessages_eq (loads : String → Option Json) (decode : String → Option TaskEnvelope)
    (ends : ℕ → End) (tags : ℕ → ℕ) (bodies : List (Option String)) (count : ℤ) :
    getDlqMessages loads decode ends tags (queueOf bodies) count =
      ((List.range count.toNat).filterMap (peek loads decode ends tags (queueOf bodies)),
        if queueOf bodies = [] then [] else (queueOf bodies).rotate (tails ends count.toNat)) := by
  have hstart : (queueOf bodies).rotate (tails ends 0) = queueOf bodies := by simp [tails]
  have hrun := inspect_eq loads decode ends tags (queueOf bodies) count.toNat 0 []
  rw [hstart] at hrun
  rw [getDlqMessages, hrun, List.nil_append, Nat.zero_add, List.range_eq_range']

/-- **Giving back loses nothing.** The queue is left with the messages that it held. -/
theorem perm_getDlqMessages (count : ℤ) :
    (getDlqMessages loads decode ends tags (queueOf bodies) count).2.Perm (queueOf bodies) := by
  rw [getDlqMessages_eq]
  by_cases hempty : queueOf bodies = []
  · simp [hempty]
  · simp only [if_neg hempty]
    exact List.rotate_perm _ _

/-! ### Which inspections return no message twice -/

/-- No message is returned twice when no two rounds find the same one at the head, unless it does
not decode. -/
theorem nodup_getDlqMessages_iff (count : ℤ) :
    ((getDlqMessages loads decode ends tags (queueOf bodies) count).1.map Peeked.place).Nodup ↔
      ∀ i j, i < j → j < count.toNat →
        (envelopeAt loads decode bodies (placeAt ends bodies.length i)).isSome →
          placeAt ends bodies.length i ≠ placeAt ends bodies.length j := by
  rw [getDlqMessages_eq, List.map_filterMap, List.Nodup, List.pairwise_filterMap,
    List.pairwise_iff_getElem]
  simp only [List.length_range, List.getElem_range, Option.map_eq_some_iff, peek_eq_some_iff]
  constructor
  · intro h i j hij hj hsome hsame
    obtain ⟨envelope, henvelope⟩ := Option.isSome_iff_exists.mp hsome
    exact h i j (by omega) hj hij _ ⟨_, ⟨envelope, henvelope, rfl⟩, rfl⟩ _
      ⟨_, ⟨envelope, hsame ▸ henvelope, rfl⟩, rfl⟩ hsame
  · rintro h i j - hj hij _ ⟨_, ⟨envelope, henvelope, rfl⟩, rfl⟩ _ ⟨_, ⟨_, _, rfl⟩, rfl⟩
    exact h i j hij hj (by simp [henvelope])

/-- The message at the head in round `i` is not found there again when it is put at the tail and
does not come round. -/
theorem placeAt_ne_iff {m n i : ℕ} (hm : 0 < m) :
    (∀ j, i < j → j < n → placeAt ends m i ≠ placeAt ends m j) ↔
      (i + 1 < n → ends i = .tail ∧ tails ends (n - 1) < tails ends i + m) := by
  constructor
  · intro h hi
    constructor
    · -- at the head, the message is there in the next round
      cases hend : ends i with
      | tail => rfl
      | head =>
        have hsame : placeAt ends m i = placeAt ends m (i + 1) := by
          rw [placeAt, placeAt, tails_succ_of_head hend]
        exact absurd hsame (h (i + 1) (by omega) hi)
    · -- after `m` messages at the tail, the queue is as it was
      by_contra hround
      have hreach : ∃ k, i ≤ k ∧ k ≤ n - 1 ∧ tails ends k = tails ends i + m :=
        exists_tails_eq (by omega) (by omega) (by omega)
      obtain ⟨k, hik, hkn, hk⟩ := hreach
      have hne : k ≠ i := by
        rintro rfl
        omega
      refine h k (by omega) (by omega) ?_
      rw [placeAt, placeAt, hk, Nat.add_mod_right]
  · intro h j hij hj hsame
    obtain ⟨htail, hround⟩ := h (by omega)
    have hafter : tails ends (i + 1) ≤ tails ends j := tails_mono hij
    have hbefore : tails ends j ≤ tails ends (n - 1) := tails_mono (by omega)
    rw [tails_succ_of_tail htail] at hafter
    -- the same place twice is a whole number of rounds, and there are less than one
    have hdvd : m ∣ tails ends j - tails ends i :=
      (Nat.modEq_iff_dvd' (by omega)).mp hsame
    have := Nat.le_of_dvd (by omega) hdvd
    omega

/-- An inspection is a faithful peek: it returns messages of the queue as they decode, none twice,
no more of them than there are or were asked for, and leaves the queue with the same messages. -/
structure FaithfulPeek (loads : String → Option Json) (decode : String → Option TaskEnvelope)
    (bodies : List (Option String)) (count : ℤ) (result : List Peeked × List Message) : Prop where
  genuine : ∀ p ∈ result.1, envelopeAt loads decode bodies p.place = some p.leased.envelope
  once : (result.1.map Peeked.place).Nodup
  length_le : result.1.length ≤ min bodies.length count.toNat
  kept : result.2.Perm (queueOf bodies)

theorem genuine_getDlqMessages (count : ℤ) :
    ∀ p ∈ (getDlqMessages loads decode ends tags (queueOf bodies) count).1,
      envelopeAt loads decode bodies p.place = some p.leased.envelope := by
  rw [getDlqMessages_eq]
  intro p hp
  obtain ⟨i, -, hi⟩ := List.mem_filterMap.mp hp
  obtain ⟨envelope, henvelope, rfl⟩ := peek_eq_some_iff.mp hi
  exact henvelope

/-- An inspection that returns no message twice returns no more than there are. -/
theorem length_getDlqMessages_le (count : ℤ)
    (h : ((getDlqMessages loads decode ends tags (queueOf bodies) count).1.map
      Peeked.place).Nodup) :
    (getDlqMessages loads decode ends tags (queueOf bodies) count).1.length ≤
      min bodies.length count.toNat := by
  have hplaces : ∀ place ∈ (getDlqMessages loads decode ends tags (queueOf bodies) count).1.map
      Peeked.place, place ∈ List.range bodies.length := by
    intro place hplace
    obtain ⟨p, hp, rfl⟩ := List.mem_map.mp hplace
    have hat := genuine_getDlqMessages count p hp
    obtain ⟨body, hbody, -⟩ := Option.bind_eq_some_iff.mp hat
    exact List.mem_range.mpr (List.getElem?_eq_some_iff.mp hbody).1
  have hlength := (List.Nodup.subperm h hplaces).length_le
  rw [List.length_map, List.length_range] at hlength
  refine le_min hlength ?_
  rw [getDlqMessages_eq]
  exact (List.length_filterMap_le _ _).trans_eq List.length_range

theorem place_lt_of_envelopeAt {place : ℕ}
    (h : (envelopeAt loads decode bodies place).isSome) : place < bodies.length := by
  obtain ⟨envelope, henvelope⟩ := Option.isSome_iff_exists.mp h
  obtain ⟨body, hbody, -⟩ := Option.bind_eq_some_iff.mp henvelope
  exact (List.getElem?_eq_some_iff.mp hbody).1

/-- An inspection is faithful when it returns no message twice, told from where the messages that
decode are put. -/
theorem faithfulPeek_of_ends (count : ℤ) :
    FaithfulPeek loads decode bodies count
        (getDlqMessages loads decode ends tags (queueOf bodies) count) ↔
      ∀ i, i + 1 < count.toNat →
        (envelopeAt loads decode bodies (placeAt ends bodies.length i)).isSome →
          ends i = .tail ∧ tails ends (count.toNat - 1) < tails ends i + bodies.length := by
  have honce : FaithfulPeek loads decode bodies count
      (getDlqMessages loads decode ends tags (queueOf bodies) count) ↔
        ((getDlqMessages loads decode ends tags (queueOf bodies) count).1.map
          Peeked.place).Nodup :=
    ⟨fun h => h.once, fun h => ⟨genuine_getDlqMessages count, h, length_getDlqMessages_le count h,
      perm_getDlqMessages count⟩⟩
  rw [honce, nodup_getDlqMessages_iff]
  constructor
  · intro h i hi hsome
    have hpos : 0 < bodies.length := Nat.zero_lt_of_lt (place_lt_of_envelopeAt hsome)
    exact (placeAt_ne_iff hpos).mp (fun j hij hj => h i j hij hj hsome) hi
  · intro h i j hij hj hsome
    have hpos : 0 < bodies.length := Nat.zero_lt_of_lt (place_lt_of_envelopeAt hsome)
    exact (placeAt_ne_iff hpos).mpr (fun hi => h i hi hsome) j hij hj

/-- The messages before a place go to the tail, and the one there to the head. -/
def bringUp (place i : ℕ) : End := if i < place then .tail else .head

theorem tails_bringUp (place : ℕ) : tails (bringUp place) place = place := by
  rw [tails, Nat.count_iff_forall]
  intro i hi
  simp [bringUp, hi]

/-- **Which inspections are faithful.** Where the messages are put being given: in every round but
the last, the message that is taken does not decode, or it is put at the tail and fewer messages
than the queue holds are put there from then on and before the last round. Wherever they are put:
no message decodes that as many rounds can bring to the head, the last one not counted. -/
theorem faithfulPeek_iff (loads : String → Option Json) (decode : String → Option TaskEnvelope)
    (tags : ℕ → ℕ) (bodies : List (Option String)) (count : ℤ) :
    (∀ ends, FaithfulPeek loads decode bodies count
        (getDlqMessages loads decode ends tags (queueOf bodies) count) ↔
      ∀ i, i + 1 < count.toNat →
        (envelopeAt loads decode bodies (placeAt ends bodies.length i)).isSome →
          ends i = .tail ∧ tails ends (count.toNat - 1) < tails ends i + bodies.length) ∧
    ((∀ ends, FaithfulPeek loads decode bodies count
        (getDlqMessages loads decode ends tags (queueOf bodies) count)) ↔
      ∀ place, place + 1 < count.toNat → envelopeAt loads decode bodies place = none) := by
  refine ⟨fun ends => faithfulPeek_of_ends count, ?_⟩
  simp only [faithfulPeek_of_ends]
  constructor
  · intro h place hplace
    by_contra hsome
    have hsome := Option.isSome_iff_ne_none.mpr hsome
    have hat : placeAt (bringUp place) bodies.length place = place := by
      rw [placeAt, tails_bringUp, Nat.mod_eq_of_lt (place_lt_of_envelopeAt hsome)]
    obtain ⟨htail, -⟩ := h (bringUp place) place hplace (by rwa [hat])
    simp [bringUp] at htail
  · intro h ends i hi hsome
    have hle : placeAt ends bodies.length i ≤ i :=
      (Nat.mod_le _ _).trans (Nat.count_le _)
    rw [h _ (by omega)] at hsome
    exact absurd hsome (by simp)

/-- `json.loads`, for the text of the minimal envelope alone. -/
def loadsMinimal (body : String) : Option Json :=
  if body = minimalJson then
    some (.obj [("task_id", .str "00000000-0000-0000-0000-000000000001"),
      ("queue", .str "default"), ("task_name", .str "add"), ("payload", .obj []),
      ("created_at", .str "1970-01-01T00:00:00Z")])
  else none

/-- One message, and two asked for: it is returned twice, wherever it is put in between. -/
theorem not_faithfulPeek_one :
    ¬ FaithfulPeek loadsMinimal decodeMinimal [some minimalJson] 2
        (getDlqMessages loadsMinimal decodeMinimal (fun _ => .head) id
          (queueOf [some minimalJson]) 2) ∧
      ¬ FaithfulPeek loadsMinimal decodeMinimal [some minimalJson] 2
        (getDlqMessages loadsMinimal decodeMinimal (fun _ => .tail) id
          (queueOf [some minimalJson]) 2) := by
  constructor
  · intro h
    exact absurd h.once (by decide +kernel)
  · intro h
    exact absurd h.once (by decide +kernel)

end Dtq.RabbitDlq
