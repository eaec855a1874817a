import Mathlib.Data.List.Nodup
import Dtq.Lib.Transition

/-!
# A ledger of fenced commits

What exactly-once execution is for, in four books. A piece of work is asked for under a key; a
worker is granted a number, a fence, that nobody had before; an attempt is recorded under a
granted fence; and the work is committed under its key by a recorded attempt, once.

Tasks and keys are of any type. There are no workers, messages, leases or failures here: a system
that has them is to be compared with the ledger by what it shows of these four things.

## Main results

* `Ledger.books_of_run` — the books are what the history says
* `Ledger.commit_justified` — a commit in a history has its request and its attempt before it, the
  attempt has its grant before it, and no key is committed twice
-/

set_option autoImplicit false

open Transition

/-- An entry of the history. -/
inductive Ledger.Entry (T K : Type*)
  | ask (key : K) (task : T)
  | grant
  | record (task : T) (fence : ℕ)
  | commit (key : K) (task : T) (fence : ℕ)
deriving DecidableEq

/-- The four books. -/
structure Ledger (T K : Type*) where
  asked : List (K × T)
  granted : ℕ
  recorded : List (T × ℕ)
  committed : List (K × T × ℕ)

namespace Ledger

variable {T K : Type*}

/-- Nothing has been asked for. -/
def empty : Ledger T K := ⟨[], 0, [], []⟩

/-- An entry is made if it is justified by what is in the books. -/
def step [DecidableEq T] [DecidableEq K] (l : Ledger T K) : Entry T K → Option (Ledger T K)
  | .ask key task => some { l with asked := l.asked ++ [(key, task)] }
  | .grant => some { l with granted := l.granted + 1 }
  | .record task fence =>
    if 0 < fence ∧ fence ≤ l.granted ∧ ∀ r ∈ l.recorded, r.2 ≠ fence then
      some { l with recorded := l.recorded ++ [(task, fence)] }
    else none
  | .commit key task fence =>
    if (key, task) ∈ l.asked ∧ (task, fence) ∈ l.recorded ∧ ∀ c ∈ l.committed, c.1 ≠ key then
      some { l with committed := l.committed ++ [(key, task, fence)] }
    else none

end Ledger

namespace Ledger.Entry

variable {T K : Type*}

/-- The line an entry adds to the first book. -/
def asks : Entry T K → Option (K × T)
  | .ask key task => some (key, task)
  | _ => none

/-- The line an entry adds to the book of attempts. -/
def records : Entry T K → Option (T × ℕ)
  | .record task fence => some (task, fence)
  | _ => none

/-- The line an entry adds to the book of commits. -/
def commits : Entry T K → Option (K × T × ℕ)
  | .commit key task fence => some (key, task, fence)
  | _ => none

/-- The entry grants a fence. -/
def grants : Entry T K → Bool
  | .grant => true
  | _ => false

theorem asks_eq_some {x : Entry T K} {key : K} {task : T} :
    x.asks = some (key, task) ↔ x = .ask key task := by
  cases x <;> simp [asks]

theorem records_eq_some {x : Entry T K} {task : T} {fence : ℕ} :
    x.records = some (task, fence) ↔ x = .record task fence := by
  cases x <;> simp [records]

theorem commits_eq_some {x : Entry T K} {key : K} {task : T} {fence : ℕ} :
    x.commits = some (key, task, fence) ↔ x = .commit key task fence := by
  cases x <;> simp [commits]

end Ledger.Entry

namespace Ledger

variable {T K : Type*} [DecidableEq T] [DecidableEq K] {l l' : Ledger T K} {x : Entry T K}

/-- An entry adds its line to one of the books. -/
theorem books_of_step (h : l.step x = some l') :
    l'.asked = l.asked ++ x.asks.toList ∧
      l'.granted = l.granted + (if x.grants then 1 else 0) ∧
      l'.recorded = l.recorded ++ x.records.toList ∧
      l'.committed = l.committed ++ x.commits.toList := by
  cases x with
  | ask key task =>
    obtain rfl := Option.some.inj h
    simp [Entry.asks, Entry.grants, Entry.records, Entry.commits]
  | grant =>
    obtain rfl := Option.some.inj h
    simp [Entry.asks, Entry.grants, Entry.records, Entry.commits]
  | record task fence =>
    simp only [step] at h
    split_ifs at h with hok
    obtain rfl := Option.some.inj h
    simp [Entry.asks, Entry.grants, Entry.records, Entry.commits]
  | commit key task fence =>
    simp only [step] at h
    split_ifs at h with hok
    obtain rfl := Option.some.inj h
    simp [Entry.asks, Entry.grants, Entry.records, Entry.commits]

/-- The books after a history are the books before it and the lines of the history. -/
theorem books_of_run {history : List (Entry T K)} (h : run step l history = some l') :
    l'.asked = l.asked ++ history.filterMap Entry.asks ∧
      l'.granted = l.granted + history.countP Entry.grants ∧
      l'.recorded = l.recorded ++ history.filterMap Entry.records ∧
      l'.committed = l.committed ++ history.filterMap Entry.commits := by
  induction history generalizing l with
  | nil =>
    obtain rfl : l = l' := by simpa [run] using h
    simp
  | cons x rest ih =>
    obtain ⟨u, hu, hrest⟩ := Option.bind_eq_some_iff.mp h
    obtain ⟨hasked, hgranted, hrecorded, hcommitted⟩ := books_of_step hu
    obtain ⟨hasked', hgranted', hrecorded', hcommitted'⟩ := ih hrest
    refine ⟨?_, ?_, ?_, ?_⟩
    · rw [hasked', hasked]
      cases hx : x.asks <;> simp [hx]
    · rw [hgranted', hgranted, List.countP_cons]
      omega
    · rw [hrecorded', hrecorded]
      cases hx : x.records <;> simp [hx]
    · rw [hcommitted', hcommitted]
      cases hx : x.commits <;> simp [hx]

/-- Any number of fences can be granted. -/
theorem run_grants (n : ℕ) (l : Ledger T K) :
    run step l (List.replicate n .grant) = some { l with granted := l.granted + n } := by
  induction n generalizing l with
  | zero => rfl
  | succ n ih =>
    rw [List.replicate_succ, run]
    simp only [step, Option.bind_some, ih]
    congr 2
    omega

/-- Anything can be asked for. -/
theorem run_asks (lines : List (K × T)) (l : Ledger T K) :
    run step l (lines.map fun x => .ask x.1 x.2) = some { l with asked := l.asked ++ lines } := by
  induction lines generalizing l with
  | nil => simp [run]
  | cons line lines ih => simp [run, step, ih]

section History

variable {history before after : List (Entry T K)} {key : K} {task : T} {fence : ℕ}

/-- The state in which an entry of the history was made. -/
theorem exists_step_of_mem (h : run step empty history = some l)
    (hsplit : history = before ++ x :: after) :
    ∃ u v : Ledger T K, run step empty before = some u ∧ u.step x = some v ∧
      run step v after = some l := by
  rw [hsplit, run_append] at h
  obtain ⟨u, hu, hrest⟩ := Option.bind_eq_some_iff.mp h
  obtain ⟨v, hv, hafter⟩ := Option.bind_eq_some_iff.mp hrest
  exact ⟨u, v, hu, hv, hafter⟩

/-- A record in a history has its grant before it and a fence of its own. -/
theorem record_justified (h : run step empty history = some l)
    (hsplit : history = before ++ .record task fence :: after) :
    0 < fence ∧ fence ≤ before.countP Entry.grants ∧
      ∀ other, .record other fence ∉ before := by
  obtain ⟨u, v, hu, hv, -⟩ := exists_step_of_mem h hsplit
  obtain ⟨-, hgranted, hrecorded, -⟩ := books_of_run hu
  simp only [step] at hv
  split_ifs at hv with hok
  refine ⟨hok.1, ?_, fun other hmem => ?_⟩
  · have hle := hok.2.1
    rw [hgranted] at hle
    simpa [empty] using hle
  · apply hok.2.2 (other, fence) _ rfl
    rw [hrecorded]
    exact List.mem_append_right _
      (List.mem_filterMap.mpr ⟨_, hmem, Entry.records_eq_some.mpr rfl⟩)

/-- No key is committed twice. -/
theorem commits_nodup (h : run step empty history = some l) :
    ((history.filterMap Entry.commits).map Prod.fst).Nodup := by
  have hbooks : l.committed = history.filterMap Entry.commits := by
    simpa [empty] using (books_of_run h).2.2.2
  rw [← hbooks]
  apply Reaches.invariant (I := fun l : Ledger T K => (l.committed.map Prod.fst).Nodup) ?_
    (Reaches.of_run h) (by simp [empty])
  intro l x l' hnodup hstep
  obtain ⟨-, -, -, hcommitted⟩ := books_of_step hstep
  rw [hcommitted]
  cases x with
  | commit key task fence =>
    simp only [step] at hstep
    split_ifs at hstep with hok
    simp only [Entry.commits, Option.toList_some, List.map_append, List.map_cons, List.map_nil]
    rw [List.nodup_append]
    refine ⟨hnodup, by simp, fun k hk k' hk' heq => ?_⟩
    obtain ⟨c, hc, rfl⟩ := List.mem_map.mp hk
    obtain rfl := List.mem_singleton.mp hk'
    exact hok.2.2 c hc heq
  | ask | grant | record => simpa [Entry.commits] using hnodup

/-- **What a commit in a history tells.** The work was asked for under the key before, the attempt
was recorded before, and the key is committed nowhere else in the history. -/
theorem commit_justified (h : run step empty history = some l)
    (hsplit : history = before ++ .commit key task fence :: after) :
    .ask key task ∈ before ∧ .record task fence ∈ before ∧
      ∀ task' fence', .commit key task' fence' ∉ before ++ after := by
  obtain ⟨u, v, hu, hv, -⟩ := exists_step_of_mem h hsplit
  obtain ⟨hasked, -, hrecorded, -⟩ := books_of_run hu
  have hnodup := commits_nodup h
  simp only [step] at hv
  split_ifs at hv with hok
  rw [hasked, hrecorded] at hok
  refine ⟨?_, ?_, fun task' fence' hmem => ?_⟩
  · obtain ⟨x, hx, heq⟩ := List.mem_filterMap.mp (by simpa [empty] using hok.1)
    exact Entry.asks_eq_some.mp heq ▸ hx
  · obtain ⟨x, hx, heq⟩ := List.mem_filterMap.mp (by simpa [empty] using hok.2.1)
    exact Entry.records_eq_some.mp heq ▸ hx
  · -- the key would stand in the book of commits twice
    have hother : key ∈ ((before ++ after).filterMap Entry.commits).map Prod.fst :=
      List.mem_map.mpr ⟨(key, task', fence'),
        List.mem_filterMap.mpr ⟨_, hmem, Entry.commits_eq_some.mpr rfl⟩, rfl⟩
    rw [hsplit, List.filterMap_append, List.filterMap_cons_some (Entry.commits_eq_some.mpr rfl),
      List.map_append, List.map_cons, List.nodup_middle, ← List.map_append,
      ← List.filterMap_append] at hnodup
    exact (List.nodup_cons.mp hnodup).1 hother

end History

end Ledger
