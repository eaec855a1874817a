import Dtq.Lib.Indexed
import Dtq.Lib.Transition
import Dtq.Broker.Kafka
import Dtq.Broker.Redis

/-!
# Entries that do not decode

`Dtq.Broker.Redis` keeps envelopes on a stream. Here a stream keeps what Redis does: the fields of
each entry, written by any producer. `decode` stands for `TaskEnvelope.model_validate_json`, and
nothing is assumed of it. `lease` and `reclaim` decode the batch that Redis hands over one entry
after the other, and the first entry that does not decode ends the call with an exception; by
then the whole batch is in the consumer's pending list. `_poll_loop` and `_reclaim_loop` log the
exception and go on.

## Main result

* `decodable_leased_iff` — the batches of which every decodable entry is handed over
-/

set_option autoImplicit false

namespace Dtq

open Transition

/-- The fields of a stream entry. -/
abbrev Fields := List (String × String)

/-- An entry as Redis hands it over. -/
structure RawEntry where
  id : String
  fields : Fields
deriving DecidableEq

/-- Why an entry did not become a `Leased`. -/
inductive DecodeError
  | keyError (field : String)
  | validationError (data : String)
deriving DecidableEq

section Batch

variable (decode : String → Option TaskEnvelope)

/-- `TaskEnvelope.model_validate_json(fields["data"])`. -/
def envelopeOf (fields : Fields) : Except DecodeError TaskEnvelope :=
  match fields.lookup "data" with
  | none => .error (.keyError "data")
  | some data =>
    match decode data with
    | none => .error (.validationError data)
    | some envelope => .ok envelope

/-- The loop over the messages of a batch, with the list it has built so far. -/
def readEntries (skip : Fields → Bool) (idleMs : ℕ) (leased : List Leased) :
    List RawEntry → Except DecodeError (List Leased)
  | [] => .ok leased
  | m :: rest =>
    if skip m.fields then readEntries skip idleMs leased rest
    else
      match envelopeOf decode m.fields with
      | .error error => .error error
      | .ok envelope => readEntries skip idleMs (leased ++ [⟨envelope, m.id, idleMs⟩]) rest

/-- What `lease` makes of the entries that `XREADGROUP` delivered. -/
def leaseEntries (messages : List RawEntry) : Except DecodeError (List Leased) :=
  readEntries decode (fun _ => false) 0 [] messages

/-- What `reclaim` makes of the entries that `XAUTOCLAIM` adopted: `if not fields: continue`. -/
def reclaimEntries (minIdleMs : ℕ) (messages : List RawEntry) :
    Except DecodeError (List Leased) :=
  readEntries decode List.isEmpty minIdleMs [] messages

/-- The entry decodes. -/
def Decodes (m : RawEntry) : Prop := ∃ envelope, envelopeOf decode m.fields = .ok envelope

instance (m : RawEntry) : Decidable (Decodes decode m) :=
  match h : envelopeOf decode m.fields with
  | .ok envelope => isTrue ⟨envelope, h⟩
  | .error error => isFalse (by simp [Decodes, h])

/-- Every entry that the loop does not skip decodes, or none does. -/
def Unmixed (skip : Fields → Bool) (messages : List RawEntry) : Prop :=
  (∀ m ∈ messages, skip m.fields ∨ Decodes decode m) ∨ ∀ m ∈ messages, ¬ Decodes decode m

instance (skip : Fields → Bool) (messages : List RawEntry) :
    Decidable (Unmixed decode skip messages) :=
  inferInstanceAs (Decidable (_ ∨ _))

/-- The call returns a `Leased` for every entry that decodes. -/
def HandsOverAll (idleMs : ℕ) (messages : List RawEntry)
    (result : Except DecodeError (List Leased)) : Prop :=
  ∀ m ∈ messages, ∀ envelope, envelopeOf decode m.fields = .ok envelope →
    ∃ leased, result = .ok leased ∧ ⟨envelope, m.id, idleMs⟩ ∈ leased

variable {decode} {skip : Fields → Bool} {idleMs : ℕ} {messages : List RawEntry}

/-- An entry that is neither skipped nor decodes ends the call. -/
theorem readEntries_error (idleMs : ℕ) (leased : List Leased)
    (h : ∃ m ∈ messages, skip m.fields = false ∧ ¬ Decodes decode m) :
    ∃ error, readEntries decode skip idleMs leased messages = .error error := by
  induction messages generalizing leased with
  | nil =>
    obtain ⟨m, hm, -⟩ := h
    exact absurd hm List.not_mem_nil
  | cons m rest ih =>
    -- unless `m` itself ends the call, the bad entry is further on
    have hlater : (skip m.fields = true ∨ Decodes decode m) →
        ∃ m' ∈ rest, skip m'.fields = false ∧ ¬ Decodes decode m' := by
      intro hgood
      obtain ⟨m', hm', hskip, hbad⟩ := h
      rcases List.mem_cons.mp hm' with rfl | hm'
      · rcases hgood with hskipped | hdecodes
        · rw [hskip] at hskipped
          exact absurd hskipped (by simp)
        · exact absurd hdecodes hbad
      · exact ⟨m', hm', hskip, hbad⟩
    rw [readEntries]
    by_cases hskip : skip m.fields = true
    · rw [if_pos hskip]
      exact ih leased (hlater (Or.inl hskip))
    · rw [if_neg hskip]
      cases hm : envelopeOf decode m.fields with
      | error error => exact ⟨error, rfl⟩
      | ok envelope => exact ih _ (hlater (Or.inr ⟨envelope, hm⟩))

/-- When every entry is skipped or decodes, the call returns, keeps what it had and adds every
entry that it did not skip. -/
theorem readEntries_ok (idleMs : ℕ) (leased : List Leased)
    (h : ∀ m ∈ messages, skip m.fields ∨ Decodes decode m) :
    ∃ result, readEntries decode skip idleMs leased messages = .ok result ∧
      (∀ l ∈ leased, l ∈ result) ∧
      ∀ m ∈ messages, skip m.fields = false → ∀ envelope,
        envelopeOf decode m.fields = .ok envelope → ⟨envelope, m.id, idleMs⟩ ∈ result := by
  induction messages generalizing leased with
  | nil => exact ⟨leased, rfl, fun l hl => hl, fun m hm => absurd hm List.not_mem_nil⟩
  | cons m rest ih =>
    have hrest : ∀ m' ∈ rest, skip m'.fields ∨ Decodes decode m' := fun m' hm' =>
      h m' (List.mem_cons_of_mem _ hm')
    rw [readEntries]
    by_cases hskip : skip m.fields = true
    · obtain ⟨result, hresult, hkept, hadded⟩ := ih leased hrest
      rw [if_pos hskip]
      refine ⟨result, hresult, hkept, fun m' hm' hskip' => ?_⟩
      rcases List.mem_cons.mp hm' with rfl | hm'
      · rw [hskip] at hskip'
        exact absurd hskip' (by simp)
      · exact hadded m' hm' hskip'
    · obtain ⟨envelope, hm⟩ := (h m List.mem_cons_self).resolve_left hskip
      obtain ⟨result, hresult, hkept, hadded⟩ := ih (leased ++ [⟨envelope, m.id, idleMs⟩]) hrest
      rw [if_neg hskip]
      simp only [hm]
      refine ⟨result, hresult, fun l hl => hkept l (List.mem_append_left _ hl), ?_⟩
      intro m' hm' hskip' envelope' henvelope'
      rcases List.mem_cons.mp hm' with rfl | hm'
      · obtain rfl : envelope = envelope' := by
          rw [hm] at henvelope'
          exact Except.ok.inj henvelope'
        exact hkept _ (List.mem_append_right _ (List.mem_singleton_self _))
      · exact hadded m' hm' hskip' envelope' henvelope'

/-- A loop that skips nothing decodable hands every decodable entry over exactly when the batch
is not mixed. -/
theorem handsOverAll_iff (hskip : ∀ m : RawEntry, skip m.fields → ¬ Decodes decode m)
    (messages : List RawEntry) :
    HandsOverAll decode idleMs messages (readEntries decode skip idleMs [] messages) ↔
      Unmixed decode skip messages := by
  constructor
  · intro hall
    by_contra hmixed
    simp only [Unmixed, not_or, not_forall, not_not, Bool.not_eq_true] at hmixed
    obtain ⟨⟨bad, hbad, hkept, hfails⟩, m, hm, envelope, hdecodes⟩ := hmixed
    obtain ⟨leased, hok, -⟩ := hall m hm envelope hdecodes
    obtain ⟨error, herror⟩ := readEntries_error idleMs [] ⟨bad, hbad, hkept, hfails⟩
    rw [herror] at hok
    exact absurd hok (by simp)
  · rintro (hgood | hnone) m hm envelope hdecodes
    · obtain ⟨leased, hok, -, hadded⟩ := readEntries_ok idleMs [] hgood
      have hkept : skip m.fields = false := by
        by_contra hskipped
        exact hskip m (by simpa using hskipped) ⟨envelope, hdecodes⟩
      exact ⟨leased, hok, hadded m hm hkept envelope hdecodes⟩
    · exact absurd ⟨envelope, hdecodes⟩ (hnone m hm)

theorem not_decodes_of_isEmpty (m : RawEntry) (h : m.fields.isEmpty) : ¬ Decodes decode m := by
  rintro ⟨envelope, hdecodes⟩
  rw [List.isEmpty_iff.mp h] at hdecodes
  exact absurd hdecodes (by simp [envelopeOf])

theorem leaseEntries_handsOverAll_iff (messages : List RawEntry) :
    HandsOverAll decode 0 messages (leaseEntries decode messages) ↔
      Unmixed decode (fun _ => false) messages :=
  handsOverAll_iff (fun _ h => absurd h (by simp)) messages

theorem reclaimEntries_handsOverAll_iff (minIdleMs : ℕ) (messages : List RawEntry) :
    HandsOverAll decode minIdleMs messages (reclaimEntries decode minIdleMs messages) ↔
      Unmixed decode List.isEmpty messages :=
  handsOverAll_iff not_decodes_of_isEmpty messages

end Batch

/-- What happens on a stream: a producer adds an entry, a consumer reads new entries or adopts
idle ones, ids are acknowledged. `idle` lists the ids that have been idle for long enough. -/
inductive StreamEvent
  | add (fields : Fields)
  | lease (consumer : String) (count : ℕ)
  | reclaim (consumer : String) (idle : List ℕ) (count : ℕ)
  | ack (ids : List ℕ)

/-- A stream and its group, the positions that one worker was given so far, and what its calls
have returned. -/
structure RawStream where
  stream : List Fields := []
  delivered : ℕ := 0
  pending : List Pending := []
  received : List ℕ := []
  leased : List Leased := []

namespace RawStream

/-- The entries at some positions. -/
def entriesAt (s : RawStream) (ids : List ℕ) : List RawEntry :=
  ids.filterMap fun id => s.stream[id]?.map fun fields => ⟨toString id, fields⟩

/-- The positions that `XREADGROUP` delivers next. -/
def nextIds (s : RawStream) (count : ℕ) : List ℕ :=
  List.range' s.delivered (min count (s.stream.length - s.delivered))

/-- The positions that `XAUTOCLAIM` adopts: it starts over from `0-0` in every call. -/
def idleIds (s : RawStream) (idle : List ℕ) (count : ℕ) : List ℕ :=
  ((s.pending.filter fun p => p.id ∈ idle).take count).map Pending.id

/-- The worker has received some entries; its call returned, or raised and returned nothing. -/
def receive (s : RawStream) (ids : List ℕ) (result : Except DecodeError (List Leased)) :
    RawStream :=
  { s with
    received := s.received ++ ids
    leased := s.leased ++ result.toOption.getD [] }

/-- One event. The histories are those of `worker`. -/
def step (decode : String → Option TaskEnvelope) (worker : String) (minIdleMs : ℕ)
    (s : RawStream) : StreamEvent → Option RawStream
  | .add fields => some { s with stream := s.stream ++ [fields] }
  | .lease consumer count =>
    let ids := s.nextIds count
    let s' := { s with
      delivered := s.delivered + ids.length
      pending := s.pending ++ ids.map fun id => ⟨id, consumer⟩ }
    some <|
      if consumer = worker then s'.receive ids (leaseEntries decode (s.entriesAt ids)) else s'
  | .reclaim consumer idle count =>
    let ids := s.idleIds idle count
    let s' := { s with
      pending := s.pending.map fun p => if p.id ∈ ids then { p with consumer := consumer } else p }
    some <|
      if consumer = worker then
        s'.receive ids (reclaimEntries decode minIdleMs (s.entriesAt ids))
      else s'
  | .ack ids => some { s with pending := s.pending.filter fun p => p.id ∉ ids }

/-- The batches that the worker is given are not mixed. -/
def GivesUnmixed (decode : String → Option TaskEnvelope) (worker : String) (s : RawStream) :
    StreamEvent → Prop
  | .lease consumer count =>
    consumer = worker → Unmixed decode (fun _ => false) (s.entriesAt (s.nextIds count))
  | .reclaim consumer idle count =>
    consumer = worker → Unmixed decode List.isEmpty (s.entriesAt (s.idleIds idle count))
  | _ => True

instance (decode : String → Option TaskEnvelope) (worker : String) (s : RawStream)
    (event : StreamEvent) : Decidable (s.GivesUnmixed decode worker event) := by
  cases event <;> unfold GivesUnmixed <;> infer_instance

/-- Every decodable entry that the worker received was in the result of a call. -/
def Served (decode : String → Option TaskEnvelope) (s : RawStream) : Prop :=
  ∀ id ∈ s.received, ∀ fields, s.stream[id]? = some fields →
    ∀ envelope, envelopeOf decode fields = .ok envelope →
      ∃ l ∈ s.leased, l.envelope = envelope ∧ l.brokerMsgId = toString id

variable {decode : String → Option TaskEnvelope} {worker : String} {minIdleMs : ℕ}
  {s t : RawStream} {event : StreamEvent}

theorem mem_entriesAt {ids : List ℕ} {id : ℕ} {fields : Fields} (hid : id ∈ ids)
    (hfields : s.stream[id]? = some fields) : ⟨toString id, fields⟩ ∈ s.entriesAt ids :=
  List.mem_filterMap.mpr ⟨id, hid, by rw [hfields]; rfl⟩

/-- Everything received is on the stream. -/
def Received (s : RawStream) : Prop :=
  s.delivered ≤ s.stream.length ∧ (∀ p ∈ s.pending, p.id < s.delivered) ∧
    ∀ id ∈ s.received, id < s.delivered

theorem Received.step (h : Received s) (hstep : s.step decode worker minIdleMs event = some t) :
    Received t := by
  obtain ⟨hdelivered, hpending, hreceived⟩ := h
  cases event with
  | add fields =>
    simp only [RawStream.step, Option.some.injEq] at hstep
    subst hstep
    exact ⟨hdelivered.trans (by simp), hpending, hreceived⟩
  | lease consumer count =>
    simp only [RawStream.step, Option.some.injEq] at hstep
    have hids : ∀ id ∈ s.nextIds count, id < s.delivered + (s.nextIds count).length := by
      intro id hid
      simp only [nextIds, List.mem_range'_1, List.length_range'] at hid ⊢
      omega
    -- the cursor has moved past all that is handed out, the entries that do not decode included
    have hgrown : ∀ p ∈ s.pending ++ (s.nextIds count).map fun id => ⟨id, consumer⟩,
        p.id < s.delivered + (s.nextIds count).length := by
      intro p hp
      rcases List.mem_append.mp hp with hp | hp
      · exact Nat.lt_add_right _ (hpending p hp)
      · obtain ⟨id, hid, rfl⟩ := List.mem_map.mp hp
        exact hids id hid
    have hlength : s.delivered + (s.nextIds count).length ≤ s.stream.length := by
      simp only [nextIds, List.length_range']
      omega
    subst hstep
    split_ifs
    · refine ⟨hlength, hgrown, fun id hid => ?_⟩
      rcases List.mem_append.mp hid with hid | hid
      · exact Nat.lt_add_right _ (hreceived id hid)
      · exact hids id hid
    · exact ⟨hlength, hgrown, fun id hid => Nat.lt_add_right _ (hreceived id hid)⟩
  | reclaim consumer idle count =>
    simp only [RawStream.step, Option.some.injEq] at hstep
    -- `XAUTOCLAIM` changes the consumer of an entry and never its id
    have hsame : ∀ p ∈ s.pending.map (fun p =>
        if p.id ∈ s.idleIds idle count then { p with consumer := consumer } else p),
        p.id < s.delivered := by
      intro p hp
      obtain ⟨p', hp', rfl⟩ := List.mem_map.mp hp
      split_ifs <;> exact hpending p' hp'
    have hidle : ∀ id ∈ s.idleIds idle count, id < s.delivered := by
      intro id hid
      obtain ⟨p, hp, rfl⟩ := List.mem_map.mp hid
      exact hpending p (List.mem_of_mem_filter (List.mem_of_mem_take hp))
    subst hstep
    split_ifs
    · refine ⟨hdelivered, hsame, fun id hid => ?_⟩
      exact (List.mem_append.mp hid).elim (hreceived id) (hidle id)
    · exact ⟨hdelivered, hsame, hreceived⟩
  | ack ids =>
    simp only [RawStream.step, Option.some.injEq] at hstep
    subst hstep
    exact ⟨hdelivered, fun p hp => hpending p (List.mem_of_mem_filter hp), hreceived⟩

/-- A call that hands over every decodable entry of its batch keeps the worker served. -/
theorem Served.receive (h : Served decode s) {s' : RawStream} {ids : List ℕ} {idleMs : ℕ}
    {result : Except DecodeError (List Leased)} (hstream : s'.stream = s.stream)
    (hreceived : s'.received = s.received) (hleased : s'.leased = s.leased)
    (hall : HandsOverAll decode idleMs (s.entriesAt ids) result) :
    Served decode (s'.receive ids result) := by
  intro id hid fields hfields envelope henvelope
  simp only [RawStream.receive, hstream, hreceived, hleased] at hid hfields ⊢
  rcases List.mem_append.mp hid with hid | hid
  · obtain ⟨l, hl, hsame⟩ := h id hid fields hfields envelope henvelope
    exact ⟨l, List.mem_append_left _ hl, hsame⟩
  · obtain ⟨leased, rfl, hl⟩ := hall _ (mem_entriesAt hid hfields) envelope henvelope
    exact ⟨_, List.mem_append_right _ hl, rfl, rfl⟩

theorem Served.step (h : Served decode s) (hreceived : Received s)
    (hgives : s.GivesUnmixed decode worker event)
    (hstep : s.step decode worker minIdleMs event = some t) : Served decode t := by
  cases event with
  | add fields =>
    simp only [RawStream.step, Option.some.injEq] at hstep
    subst hstep
    intro id hid fields' hfields'
    have hlt : id < s.stream.length := (hreceived.2.2 id hid).trans_le hreceived.1
    rw [List.getElem?_append_left hlt] at hfields'
    exact h id hid fields' hfields'
  | lease consumer count =>
    simp only [RawStream.step, Option.some.injEq] at hstep
    subst hstep
    split_ifs with hworker
    · exact h.receive rfl rfl rfl
        ((leaseEntries_handsOverAll_iff _).mpr (hgives hworker))
    · exact h
  | reclaim consumer idle count =>
    simp only [RawStream.step, Option.some.injEq] at hstep
    subst hstep
    split_ifs with hworker
    · exact h.receive rfl rfl rfl
        ((reclaimEntries_handsOverAll_iff minIdleMs _).mpr (hgives hworker))
    · exact h
  | ack ids =>
    simp only [RawStream.step, Option.some.injEq] at hstep
    subst hstep
    exact h

theorem served_of_reaches
    (h : ReachesWhen (step decode worker minIdleMs) (GivesUnmixed decode worker) {} s) :
    Served decode s := by
  have hboth : Received s ∧ Served decode s := by
    refine h.invariant (I := fun u => Received u ∧ Served decode u) ?_ ?_
    · rintro u event v ⟨hreceived, hserved⟩ hgives hstep
      exact ⟨hreceived.step hstep, hserved.step hreceived hgives hstep⟩
    · exact ⟨⟨le_rfl, by simp, by simp⟩, fun id hid => absurd hid (by simp)⟩
  exact hboth.2

/-- Adopting an entry changes neither its id nor its place in the list. -/
theorem idleIds_of_map (s : RawStream) (f : Pending → Pending) (hf : ∀ p, (f p).id = p.id)
    (idle : List ℕ) (count : ℕ) :
    ((((s.pending.map f).filter fun p => p.id ∈ idle).take count).map Pending.id) =
      s.idleIds idle count := by
  have hcomp : ((fun p : Pending => decide (p.id ∈ idle)) ∘ f) = fun p => decide (p.id ∈ idle) := by
    funext p
    simp [hf]
  rw [List.filter_map, hcomp, ← List.map_take, List.map_map]
  exact List.map_congr_left fun p _ => hf p

/-- A malformed entry among the first idle ones blocks the others: however often the worker
reclaims, it gets the same batch and nothing is returned. -/
theorem blocked_of_reaches {idle : List ℕ} {count : ℕ}
    (hbad : ¬ ∀ m ∈ s.entriesAt (s.idleIds idle count), m.fields.isEmpty ∨ Decodes decode m)
    (h : ReachesWhen (step decode worker minIdleMs)
      (fun _ event => event = .reclaim worker idle count) s t) :
    t.stream = s.stream ∧ t.idleIds idle count = s.idleIds idle count ∧ t.leased = s.leased := by
  have hsame : ∀ u : RawStream, u.stream = s.stream →
      u.idleIds idle count = s.idleIds idle count →
      (reclaimEntries decode minIdleMs (u.entriesAt (u.idleIds idle count))).toOption = none := by
    intro u hstream hids
    simp only [not_forall, not_or, Bool.not_eq_true] at hbad
    obtain ⟨m, hm, hkept, hfails⟩ := hbad
    have hentries : u.entriesAt (u.idleIds idle count) = s.entriesAt (s.idleIds idle count) := by
      rw [hids, entriesAt, entriesAt, hstream]
    obtain ⟨error, herror⟩ := readEntries_error minIdleMs [] ⟨m, hm, hkept, hfails⟩
    rw [hentries, reclaimEntries, herror]
    rfl
  refine h.invariant (I := fun u => u.stream = s.stream ∧
    u.idleIds idle count = s.idleIds idle count ∧ u.leased = s.leased) ?_ ⟨rfl, rfl, rfl⟩
  rintro u event v ⟨hstream, hids, hleased⟩ rfl hstep
  have hraised := hsame u hstream hids
  simp only [step, if_true, Option.some.injEq] at hstep
  subst hstep
  refine ⟨hstream, ?_, ?_⟩
  · rw [← hids]
    exact idleIds_of_map u _ (fun p => by split_ifs <;> rfl) idle count
  · simp only [receive, hraised, hleased, Option.getD_none, List.append_nil]

end RawStream

/-- **Bad entries.** `lease`, and likewise `reclaim`, returns a `Leased` for every entry that
decodes exactly when every entry of the batch decodes (or has no fields, which `reclaim` skips)
or none does. In a run in which a worker is only given such batches, every decodable entry that
it received was in the result of one of its calls. -/
theorem decodable_leased_iff (decode : String → Option TaskEnvelope) :
    (∀ messages, HandsOverAll decode 0 messages (leaseEntries decode messages) ↔
      Unmixed decode (fun _ => false) messages) ∧
    (∀ minIdleMs messages,
      HandsOverAll decode minIdleMs messages (reclaimEntries decode minIdleMs messages) ↔
        Unmixed decode List.isEmpty messages) ∧
    ∀ worker minIdleMs s,
      ReachesWhen (RawStream.step decode worker minIdleMs) (RawStream.GivesUnmixed decode worker)
        {} s → s.Served decode :=
  ⟨leaseEntries_handsOverAll_iff, reclaimEntries_handsOverAll_iff,
    fun _ _ _ h => RawStream.served_of_reaches h⟩

/-- The text of a minimal envelope. -/
def minimalJson : String :=
  "\x7b\"task_id\":\"00000000-0000-0000-0000-000000000001\",\"queue\":\"default\"," ++
    "\"task_name\":\"add\",\"payload\":\x7b\x7d,\"created_at\":\"1970-01-01T00:00:00Z\"\x7d"

/-- What it decodes to. -/
def minimalEnvelope : TaskEnvelope where
  taskId := ⟨1⟩
  queue := "default"
  taskName := "add"
  payload := .obj []
  createdAt := 0

/-- A decoder that knows this one text. -/
def decodeMinimal (data : String) : Option TaskEnvelope :=
  if data = minimalJson then some minimalEnvelope else none

/-- Two decodable entries, the second one adopted from another worker. -/
theorem decodable_leased_iff_two : ∃ s : RawStream,
    s.Served decodeMinimal ∧ s.received = [0, 1] ∧ s.leased.length = 2 := by
  obtain ⟨s, hreach, hcheck⟩ := exists_reachesWhen_of_check
    (RawStream.step decodeMinimal "w1" 60000) (RawStream.GivesUnmixed decodeMinimal "w1") {}
    [.add [("data", minimalJson)], .lease "w1" 5, .add [("data", minimalJson)], .lease "w2" 5,
      .reclaim "w1" [1] 5]
    (fun s => s.received = [0, 1] ∧ s.leased.length = 2) (by decide +kernel)
  exact ⟨s, (decodable_leased_iff decodeMinimal).2.2 "w1" 60000 s hreach, hcheck⟩

/-- A decodable entry and one whose data is the empty object: the worker leases both, then
reclaims both, and neither call returns the good one. -/
theorem decodable_held_up : ∃ s : RawStream,
    Reaches (RawStream.step decodeMinimal "w1" 60000) {} s ∧ ¬ s.Served decodeMinimal := by
  obtain ⟨s, hrun, hreceived, hleased, hstream⟩ := exists_run_of_check
    (RawStream.step decodeMinimal "w1" 60000) {}
    [.add [("data", minimalJson)], .add [("data", "\x7b\x7d")], .lease "w1" 5,
      .reclaim "w1" [0, 1] 5]
    (fun s => 0 ∈ s.received ∧ s.leased = [] ∧ s.stream[0]? = some [("data", minimalJson)])
    (by decide +kernel)
  refine ⟨s, .of_run hrun, fun hserved => ?_⟩
  obtain ⟨l, hl, -⟩ := hserved 0 hreceived _ hstream minimalEnvelope (by decide +kernel)
  rw [hleased] at hl
  exact absurd hl List.not_mem_nil

end Dtq
