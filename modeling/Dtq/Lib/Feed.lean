import Mathlib.Data.List.Basic

/-!
# Readers of a growing log behind bounded queues

Writers append to one log. A reader who joins gets a queue of its own; every later entry is
offered to the queue when it is written, and the reader takes entries from the queue at its own
pace. A queue that is full when an entry is offered does not take it, and its reader is
detached: it may still empty the queue, but nothing more is offered to it.

## Main results

* `Feed.InStep` — what a reader has taken, followed by what waits for it, is an initial part of
  the log from where it joined, and all of that log while it is attached
* `Feed.InStep.offer`, `Feed.InStep.take`, `Feed.InStep.detach` — every operation keeps it
-/

set_option autoImplicit false

/-- One reader: where it joined, what it has taken, what waits, and whether it is attached. -/
@[ext]
structure Feed (α : Type*) where
  start : ℕ
  taken : List α
  waiting : List α
  attached : Bool
deriving DecidableEq, Repr

namespace Feed

variable {α : Type*} {capacity : ℕ} {log : List α} {f g : Feed α} {a : α}

/-- A reader who joins when the log is `log`. -/
def join (log : List α) : Feed α := ⟨log.length, [], [], true⟩

/-- An entry is written: an attached reader gets it, or is detached when its queue is full. -/
def offer (capacity : ℕ) (a : α) (f : Feed α) : Feed α :=
  if f.attached then
    if f.waiting.length < capacity then { f with waiting := f.waiting ++ [a] }
    else { f with attached := false }
  else f

/-- The reader takes the next entry from its queue. -/
def take (f : Feed α) : Option (Feed α) :=
  match f.waiting with
  | [] => none
  | a :: rest => some { f with taken := f.taken ++ [a], waiting := rest }

/-- The reader leaves. -/
def detach (f : Feed α) : Feed α := { f with attached := false }

/-- Everything the reader has been given, in order. -/
def entries (f : Feed α) : List α := f.taken ++ f.waiting

@[simp] theorem entries_join : (join log).entries = [] := rfl

@[simp] theorem entries_detach : f.detach.entries = f.entries := rfl

/-- Taking moves an entry and changes nothing else. -/
theorem entries_take (h : f.take = some g) : g.entries = f.entries := by
  cases hw : f.waiting with
  | nil => simp [take, hw] at h
  | cons a rest =>
    obtain rfl : { f with taken := f.taken ++ [a], waiting := rest } = g := by
      simpa [take, hw] using h
    simp [entries, hw]

theorem offer_of_room (h : f.attached = true) (hroom : f.waiting.length < capacity) :
    f.offer capacity a = { f with waiting := f.waiting ++ [a] } := by
  simp [offer, h, hroom]

theorem offer_of_full (h : f.attached = true) (hfull : capacity ≤ f.waiting.length) :
    f.offer capacity a = f.detach := by
  simp [offer, h, detach, Nat.not_lt.mpr hfull]

theorem offer_of_detached (h : f.attached = false) : f.offer capacity a = f := by
  simp [offer, h]

/-- The reader has missed nothing between the entry it joined at and the last one it was
given, and nothing at all while it is attached. -/
structure InStep (capacity : ℕ) (log : List α) (f : Feed α) : Prop where
  start_le : f.start ≤ log.length
  isPrefix : f.entries <+: log.drop f.start
  whole : f.attached = true → f.entries = log.drop f.start
  bounded : f.waiting.length ≤ capacity

theorem InStep.join : InStep capacity log (join log) where
  start_le := Nat.le_refl _
  isPrefix := List.nil_prefix
  whole _ := by simp [Feed.join, Feed.entries]
  bounded := Nat.zero_le _

theorem drop_append_entry (h : f.start ≤ log.length) :
    (log ++ [a]).drop f.start = log.drop f.start ++ [a] :=
  List.drop_append_of_le_length h

/-- A reader who is given nothing keeps its part of the log. -/
theorem InStep.isPrefix_append (h : InStep capacity log f) :
    f.entries <+: (log ++ [a]).drop f.start := by
  rw [drop_append_entry h.start_le]
  exact h.isPrefix.trans (List.prefix_append _ _)

/-- Writing an entry keeps every reader in step. -/
theorem InStep.offer (h : InStep capacity log f) (a : α) :
    InStep capacity (log ++ [a]) (f.offer capacity a) := by
  have hstart : f.start ≤ (log ++ [a]).length := by
    have := h.start_le
    simp
    omega
  by_cases hattached : f.attached = true
  · by_cases hroom : f.waiting.length < capacity
    · -- the queue takes the entry: both sides grow by it
      rw [offer_of_room hattached hroom]
      have hwhole : f.taken ++ (f.waiting ++ [a]) = (log ++ [a]).drop f.start := by
        rw [drop_append_entry h.start_le, ← h.whole hattached, entries, List.append_assoc]
      have hbound : (f.waiting ++ [a]).length ≤ capacity := by
        simp only [List.length_append, List.length_singleton]
        omega
      exact ⟨hstart, by simp [entries, hwhole], fun _ => hwhole, hbound⟩
    · -- the queue is full: the reader is one entry behind from here on, and detached
      rw [offer_of_full hattached (Nat.not_lt.mp hroom)]
      exact ⟨hstart, h.isPrefix_append, by simp [detach], h.bounded⟩
  · have hdetached : f.attached = false := by simpa using hattached
    rw [offer_of_detached hdetached]
    exact ⟨hstart, h.isPrefix_append, fun hf => absurd hf hattached, h.bounded⟩

theorem InStep.take (h : InStep capacity log f) (htake : f.take = some g) :
    InStep capacity log g := by
  have hentries := entries_take htake
  cases hw : f.waiting with
  | nil => simp [Feed.take, hw] at htake
  | cons a rest =>
    obtain rfl : { f with taken := f.taken ++ [a], waiting := rest } = g := by
      simpa [Feed.take, hw] using htake
    have hbound : rest.length + 1 ≤ capacity := by simpa [hw] using h.bounded
    exact ⟨h.start_le, hentries ▸ h.isPrefix, fun hf => hentries ▸ h.whole hf, by simp; omega⟩

theorem InStep.detach (h : InStep capacity log f) : InStep capacity log f.detach :=
  ⟨h.start_le, h.isPrefix, by simp [Feed.detach], h.bounded⟩

end Feed
