import Mathlib.Algebra.Order.Ring.Rat
import Mathlib.Data.List.Perm.Subperm
import Dtq.Core.Models

/-!
# Delayed tasks in Kafka

`KafkaBroker` keeps the delayed tasks of a queue in a topic of their own, with one partition.
`promote_scheduled` reads up to a hundred of its records, sends each on to the main topic or to
the end of the delay topic, and commits its position. An exception of one record is swallowed,
and the commit comes after the whole batch.

## Main result

* `KafkaDelay.promote_keeps_iff` — the batches of which nothing is lost
-/

set_option autoImplicit false

namespace Dtq

/-- How `send_and_wait` ends. A send that raises may have stored its message all the same. -/
inductive Send
  | returned
  | raised (stored : Bool)
deriving DecidableEq

/-- The message is in the topic. -/
def Send.stored : Send → Bool
  | .returned => true
  | .raised stored => stored

/-- The value of a delay record: an object with a `run_at` and an `envelope`, whose text need not
decode, or anything else. -/
inductive DelayValue
  | record (runAt : ℚ) (envelope : Option TaskEnvelope)
  | malformed
deriving DecidableEq

/-- A record of the delay topic. -/
structure DelayRecord where
  value : DelayValue
  key : Option String
deriving DecidableEq

namespace DelayRecord

/-- The envelope of a well-formed record that is due. -/
def dueEnvelope (now : ℚ) (r : DelayRecord) : Option TaskEnvelope :=
  match r.value with
  | .record runAt (some envelope) => if runAt ≤ now then some envelope else none
  | _ => none

/-- A well-formed record that is not due. -/
def waits (now : ℚ) (r : DelayRecord) : Bool :=
  match r.value with
  | .record runAt (some _) => now < runAt
  | _ => false

/-- The record has a time and an envelope. -/
def WellFormed (r : DelayRecord) : Prop := ∃ runAt envelope, r.value = .record runAt (some envelope)

theorem wellFormed_iff (now : ℚ) (r : DelayRecord) :
    r.WellFormed ↔ (r.dueEnvelope now).isSome ∨ r.waits now := by
  obtain ⟨value, key⟩ := r
  cases value with
  | malformed => simp [WellFormed, dueEnvelope, waits]
  | record runAt envelope =>
    cases envelope with
    | none => simp [WellFormed, dueEnvelope, waits]
    | some envelope =>
      by_cases hdue : runAt ≤ now
      · simp [WellFormed, dueEnvelope, hdue]
      · simp [WellFormed, dueEnvelope, waits, hdue, not_le.mp hdue]

instance (r : DelayRecord) : Decidable r.WellFormed :=
  decidable_of_iff _ (wellFormed_iff 0 r).symm

end DelayRecord

/-- The two topics of a queue, and the delay consumer's position and committed offset. -/
structure KafkaDelay where
  main : List TaskEnvelope := []
  delay : List DelayRecord := []
  position : ℕ := 0
  committed : ℕ := 0

namespace KafkaDelay

/-- `publish`: a send to the main topic. -/
def publish (k : KafkaDelay) (envelope : TaskEnvelope) (send : Send) : KafkaDelay :=
  if send.stored then { k with main := k.main ++ [envelope] } else k

/-- A send to the delay topic. -/
def sendDelay (k : KafkaDelay) (r : DelayRecord) (send : Send) : KafkaDelay :=
  if send.stored then { k with delay := k.delay ++ [r] } else k

/-- `schedule`. -/
def schedule (k : KafkaDelay) (envelope : TaskEnvelope) (runAt : ℚ) (send : Send) : KafkaDelay :=
  k.sendDelay ⟨.record runAt (some envelope), some envelope.taskId.str⟩ send

/-- The body of the loop in `promote_scheduled`, with the count so far; `send` is how the send
of this record ends, if there is one. -/
def promoteRecord (now : ℚ) (acc : KafkaDelay × ℕ) (item : DelayRecord × Send) :
    KafkaDelay × ℕ :=
  match item.1.value with
  | .record runAt envelope =>
    if runAt ≤ now then
      match envelope with
      | some envelope =>
        -- an exception of the send skips `promoted += 1`
        (acc.1.publish envelope item.2, if item.2 = .returned then acc.2 + 1 else acc.2)
      | none => acc
    else (acc.1.sendDelay item.1 item.2, acc.2)
  | .malformed => acc

/-- The records that `getmany` returns when it finds `n`. -/
def batch (k : KafkaDelay) (n : ℕ) : List DelayRecord := (k.delay.drop k.position).take n

/-- `promote_scheduled` on a batch with one entry of `sends` for each record. The commit is
unconditional. -/
def promoteScheduled (k : KafkaDelay) (now : ℚ) (sends : List Send) : Option (KafkaDelay × ℕ) :=
  if sends.length ≤ 100 ∧ k.position + sends.length ≤ k.delay.length then
    let read := { k with position := k.position + sends.length }
    let done := ((k.batch sends.length).zip sends).foldl (promoteRecord now) (read, 0)
    some ({ done.1 with committed := done.1.position }, done.2)
  else none

/-- Every well-formed record of the batch was put into the main topic if it was due, and into the
delay topic again if it was not. -/
def Keeps (k k' : KafkaDelay) (now : ℚ) (batch : List DelayRecord) : Prop :=
  ∃ sentMain sentDelay, k'.main = k.main ++ sentMain ∧ k'.delay = k.delay ++ sentDelay ∧
    (batch.filterMap (DelayRecord.dueEnvelope now)).Subperm sentMain ∧
    (batch.filter (DelayRecord.waits now)).Subperm sentDelay

/-- What a record and its send add to the main topic. -/
def toMain (now : ℚ) (item : DelayRecord × Send) : Option TaskEnvelope :=
  if item.2.stored then item.1.dueEnvelope now else none

/-- What a record and its send add to the delay topic. -/
def toDelay (now : ℚ) (item : DelayRecord × Send) : Option DelayRecord :=
  match item.1.value with
  | .record runAt _ => if now < runAt ∧ item.2.stored then some item.1 else none
  | .malformed => none

/-- One record, whatever becomes of its send. -/
theorem promoteRecord_fst (now : ℚ) (k : KafkaDelay) (promoted : ℕ) (item : DelayRecord × Send) :
    (promoteRecord now (k, promoted) item).1 =
      { k with
        main := k.main ++ (toMain now item).toList
        delay := k.delay ++ (toDelay now item).toList } := by
  obtain ⟨⟨value, key⟩, send⟩ := item
  cases value with
  | malformed => cases hstored : send.stored <;> simp [promoteRecord, toMain, toDelay, hstored,
      DelayRecord.dueEnvelope]
  | record runAt envelope =>
    by_cases hdue : runAt ≤ now
    · have hnot : ¬ now < runAt := not_lt.mpr hdue
      cases envelope with
      | none => simp [promoteRecord, toMain, toDelay, DelayRecord.dueEnvelope, hdue, hnot]
      | some envelope =>
        cases hstored : send.stored <;>
          simp [promoteRecord, publish, toMain, toDelay, DelayRecord.dueEnvelope, hdue, hnot,
            hstored]
    · have hlate : now < runAt := not_le.mp hdue
      have hnone : DelayRecord.dueEnvelope now ⟨.record runAt envelope, key⟩ = none := by
        cases envelope <;> simp [DelayRecord.dueEnvelope, hdue]
      cases hstored : send.stored <;>
        simp [promoteRecord, sendDelay, toMain, toDelay, hlate, hdue, hstored, hnone]

theorem foldl_promoteRecord (now : ℚ) (items : List (DelayRecord × Send)) (k : KafkaDelay)
    (promoted : ℕ) :
    (items.foldl (promoteRecord now) (k, promoted)).1 =
      { k with
        main := k.main ++ items.filterMap (toMain now)
        delay := k.delay ++ items.filterMap (toDelay now) } := by
  induction items generalizing k promoted with
  | nil => simp
  | cons item items ih =>
    have hcons : ∀ {β : Type} (f : DelayRecord × Send → Option β),
        (item :: items).filterMap f = (f item).toList ++ items.filterMap f := by
      intro β f
      rw [List.filterMap_cons]
      cases f item <;> rfl
    rw [List.foldl_cons, hcons, hcons,
      show promoteRecord now (k, promoted) item = ((promoteRecord now (k, promoted) item).1,
        (promoteRecord now (k, promoted) item).2) from rfl, ih, promoteRecord_fst]
    simp

/-- When a part of the entries that pass is as numerous as all of them, it is all of them. -/
theorem of_countP_le {α : Type*} {p q : α → Bool} {l : List α}
    (h : l.countP p ≤ l.countP fun a => p a && q a) : ∀ a ∈ l, p a → q a := by
  have hsub : (l.filter fun a => p a && q a).Sublist (l.filter p) :=
    List.monotone_filter_right l fun a hboth => (Bool.and_eq_true_iff.mp hboth).1
  have heq := hsub.eq_of_length_le (by simpa only [← List.countP_eq_length_filter] using h)
  intro a ha hp
  have hmem : a ∈ l.filter fun a => p a && q a := heq ▸ List.mem_filter.mpr ⟨ha, hp⟩
  exact (Bool.and_eq_true_iff.mp (List.mem_filter.mp hmem).2).2

/-- The sends of the well-formed records that are due have all stored their message, when as many
messages arrived. -/
theorem stored_of_due {now : ℚ} {items : List (DelayRecord × Send)}
    (h : ((items.map Prod.fst).filterMap (DelayRecord.dueEnvelope now)).length ≤
      (items.filterMap (toMain now)).length) :
    ∀ item ∈ items, (item.1.dueEnvelope now).isSome → item.2.stored := by
  refine of_countP_le ?_
  rw [List.filterMap_map, List.length_filterMap_eq_countP, List.length_filterMap_eq_countP] at h
  refine h.trans (List.countP_mono_left fun item _ hsome => ?_)
  cases hstored : item.2.stored <;> simp_all [toMain]

/-- Likewise for those that are not due. -/
theorem stored_of_waits {now : ℚ} {items : List (DelayRecord × Send)}
    (h : (items.map Prod.fst).countP (DelayRecord.waits now) ≤
      (items.filterMap (toDelay now)).countP (DelayRecord.waits now)) :
    ∀ item ∈ items, item.1.waits now → item.2.stored := by
  refine of_countP_le ?_
  rw [List.countP_map, List.countP_filterMap] at h
  refine h.trans (List.countP_mono_left fun item _ hsome => ?_)
  -- only a stored send adds a record, and the record it adds is the one that was read
  have hto : ∀ r, toDelay now item = some r → r = item.1 ∧ item.2.stored = true := by
    intro r hr
    simp only [toDelay] at hr
    split at hr
    · split_ifs at hr with hboth
      exact ⟨(Option.some.inj hr).symm, hboth.2⟩
    · exact absurd hr (by simp)
  cases hr : toDelay now item with
  | none => simp [hr] at hsome
  | some r =>
    obtain ⟨rfl, hstored⟩ := hto r hr
    simpa [hr, hstored] using hsome

/-- What was read and stored is in the topics. -/
theorem toMain_of_stored {now : ℚ} {items : List (DelayRecord × Send)}
    (h : ∀ item ∈ items, (item.1.dueEnvelope now).isSome → item.2.stored) :
    items.filterMap (toMain now) =
      (items.map Prod.fst).filterMap (DelayRecord.dueEnvelope now) := by
  rw [List.filterMap_map]
  refine List.filterMap_congr fun item hitem => ?_
  cases hdue : item.1.dueEnvelope now with
  | none => simp [toMain, hdue]
  | some envelope => simp [toMain, hdue, h item hitem (by simp [hdue])]

theorem toDelay_of_stored {now : ℚ} {items : List (DelayRecord × Send)}
    (h : ∀ item ∈ items, item.1.waits now → item.2.stored) :
    ((items.map Prod.fst).filter (DelayRecord.waits now)).Sublist
      (items.filterMap (toDelay now)) := by
  induction items with
  | nil => exact .slnil
  | cons item items ih =>
    have hrest := ih fun item' hitem' => h item' (List.mem_cons_of_mem _ hitem')
    rw [List.map_cons, List.filter_cons, List.filterMap_cons]
    by_cases hwaits : item.1.waits now = true
    · have hstored := h item List.mem_cons_self hwaits
      have hsome : toDelay now item = some item.1 := by
        obtain ⟨⟨value, key⟩, send⟩ := item
        cases value with
        | malformed => exact absurd hwaits (by simp [DelayRecord.waits])
        | record runAt envelope =>
          cases envelope with
          | none => exact absurd hwaits (by simp [DelayRecord.waits])
          | some envelope =>
            have hlate : now < runAt := of_decide_eq_true hwaits
            exact if_pos ⟨hlate, hstored⟩
      rw [if_pos hwaits, hsome]
      exact hrest.cons_cons item.1
    · rw [if_neg hwaits]
      cases toDelay now item with
      | none => exact hrest
      | some r => exact hrest.cons r

/-- **Promotion from the delay topic.** When `promote_scheduled` has committed, every well-formed
record of its batch is in the main topic if it was due and in the delay topic again if it was
not, exactly when the send of every well-formed record stored its message. The batch is committed
either way. -/
theorem promote_keeps_iff {k k' : KafkaDelay} {now : ℚ} {sends : List Send} {promoted : ℕ}
    (h : k.promoteScheduled now sends = some (k', promoted)) :
    k'.committed = k.position + sends.length ∧
    (Keeps k k' now (k.batch sends.length) ↔
      ∀ item ∈ (k.batch sends.length).zip sends, item.1.WellFormed → item.2.stored) := by
  simp only [promoteScheduled] at h
  split_ifs at h with hfits
  simp only [Option.some.injEq, Prod.mk.injEq] at h
  have hlength : (k.batch sends.length).length = sends.length := by
    simp only [batch, List.length_take, List.length_drop]
    omega
  have hbatch := List.map_fst_zip hlength.le
  have hdone := foldl_promoteRecord now ((k.batch sends.length).zip sends)
    { k with position := k.position + sends.length } 0
  generalize (k.batch sends.length).zip sends = items at h hbatch hdone ⊢
  rw [← hbatch]
  rw [hdone] at h
  obtain ⟨rfl, -⟩ := h
  refine ⟨rfl, fun hkeeps item hitem hformed => ?_, fun hstored => ?_⟩
  · obtain ⟨sentMain, sentDelay, hmain, hdelay, hdue, hwaits⟩ := hkeeps
    obtain rfl := List.append_cancel_left hmain
    obtain rfl := List.append_cancel_left hdelay
    rcases (DelayRecord.wellFormed_iff now item.1).mp hformed with hitemDue | hitemWaits
    · exact stored_of_due hdue.length_le item hitem hitemDue
    · refine stored_of_waits ?_ item hitem hitemWaits
      have hcount := hwaits.countP_le (DelayRecord.waits now)
      rwa [List.countP_filter, show (fun r => DelayRecord.waits now r && DelayRecord.waits now r) =
        DelayRecord.waits now from funext fun r => Bool.and_self _] at hcount
  · refine ⟨_, _, rfl, rfl, ?_, ?_⟩
    · rw [toMain_of_stored fun item hitem hdue => hstored item hitem
        ((DelayRecord.wellFormed_iff now item.1).mpr (Or.inl hdue))]
    · exact (toDelay_of_stored fun item hitem hwaits => hstored item hitem
        ((DelayRecord.wellFormed_iff now item.1).mpr (Or.inr hwaits))).subperm

/-- A due record and one that is not due; the second send raises, but it stored its message. -/
theorem promote_keeps_iff_two : ∃ k k' : KafkaDelay, ∃ now,
    k'.committed = 2 ∧ Keeps k k' now (k.batch 2) ∧ (k.batch 2).length = 2 := by
  let e : TaskEnvelope :=
    { taskId := ⟨1⟩, queue := "default", taskName := "add", payload := .obj [], createdAt := 0 }
  let k := (({} : KafkaDelay).schedule e 5 .returned).schedule e.nextAttempt 9 .returned
  have h : ∃ k' promoted, k.promoteScheduled 7 [.returned, .raised true] = some (k', promoted) :=
    ⟨_, _, rfl⟩
  obtain ⟨k', promoted, h⟩ := h
  obtain ⟨hcommitted, hkeeps⟩ := promote_keeps_iff h
  refine ⟨k, k', 7, hcommitted, hkeeps.mpr ?_, by decide +kernel⟩
  decide +kernel

/-- One due record whose send raises: it is committed, and it is in neither topic again. -/
theorem promotion_loses : ∃ (k k' : KafkaDelay) (now : ℚ) (sends : List Send) (promoted : ℕ),
    k.promoteScheduled now sends = some (k', promoted) ∧ k'.committed = 1 ∧ k'.position = 1 ∧
      k'.main = [] ∧ k'.delay.drop k'.position = [] ∧
      ¬ Keeps k k' now (k.batch sends.length) := by
  let e : TaskEnvelope :=
    { taskId := ⟨1⟩, queue := "default", taskName := "add", payload := .obj [], createdAt := 0 }
  let k := ({} : KafkaDelay).schedule e 5 .returned
  refine ⟨k, _, 7, [.raised false], _, rfl, rfl, rfl, by decide +kernel, by decide +kernel, ?_⟩
  rintro ⟨sentMain, sentDelay, hmain, -, hdue, -⟩
  have hnone : sentMain = [] := by
    have hmain' : ([] : List TaskEnvelope) = [] ++ sentMain := by
      rw [← show k.main = [] by decide +kernel, ← hmain]
      decide +kernel
    simpa using hmain'.symm
  have hlength := hdue.length_le
  rw [hnone] at hlength
  exact absurd hlength (by decide +kernel)

end KafkaDelay

end Dtq
