import Mathlib.Data.List.TakeWhile
import Mathlib.Order.Lattice

/-!
# First-in first-out lines of entries with deadlines

Entries stand in a line in the order of their arrival, each with a deadline of its own. Only the
entry at the head can leave, and it does so once its deadline has passed; an entry whose deadline
has passed behind one whose has not stays where it is.

## Main results

* `elapse_append_elapse` — what has left early makes no difference to what has left later
* `elapse_foldl_receive` — what has left by a time at which nothing more arrives, however the
  arrivals were spread
* `mem_released_iff` — an entry has left when it and all entries before it are past their deadlines
* `passesBy_of_mem` — in a line in the order of deadlines, when it is past its own
-/

set_option autoImplicit false

/-- The line, head first, and the entries that have left it, first one first. -/
@[ext]
structure DelayLine (α κ : Type*) where
  waiting : List (α × κ) := []
  released : List α := []

namespace DelayLine

variable {α κ : Type*}

/-- Entries are put at the end of the line. -/
def append (d : DelayLine α κ) (entries : List (α × κ)) : DelayLine α κ :=
  { d with waiting := d.waiting ++ entries }

@[simp] theorem append_nil (d : DelayLine α κ) : d.append [] = d := by
  simp [append]

theorem append_append (d : DelayLine α κ) (l l' : List (α × κ)) :
    (d.append l).append l' = d.append (l ++ l') := by
  simp [append]

variable [LinearOrder κ] {s t : κ}

/-- Time passes until `now`. -/
def elapse (d : DelayLine α κ) (now : κ) : DelayLine α κ where
  waiting := d.waiting.dropWhile fun x => x.2 ≤ now
  released := d.released ++ (d.waiting.takeWhile fun x => x.2 ≤ now).map Prod.fst

/-- An entry arrives at the time `now`. -/
def receive (d : DelayLine α κ) (entry : α × κ) (now : κ) : DelayLine α κ :=
  (d.elapse now).append [entry]

/-- What leaves by an earlier time leaves by a later one too, and first. -/
theorem elapse_append_elapse (hst : s ≤ t) (d : DelayLine α κ) (entries : List (α × κ)) :
    ((d.elapse s).append entries).elapse t = (d.append entries).elapse t := by
  have hpast : ∀ x ∈ d.waiting.takeWhile (fun x => x.2 ≤ s), decide (x.2 ≤ t) = true := by
    intro x hx
    have hxs := List.mem_takeWhile_imp hx
    exact decide_eq_true ((of_decide_eq_true hxs).trans hst)
  have hsplit : d.waiting ++ entries = d.waiting.takeWhile (fun x => x.2 ≤ s) ++
      (d.waiting.dropWhile (fun x => x.2 ≤ s) ++ entries) := by
    rw [← List.append_assoc, List.takeWhile_append_dropWhile]
  ext1
  · simp only [elapse, append]
    rw [hsplit, List.dropWhile_append_of_pos hpast]
  · simp only [elapse, append]
    rw [hsplit, List.takeWhile_append_of_pos hpast, List.map_append, List.append_assoc]

/-- **Run lemma.** When nothing arrives after `t`, what has left by `t` is told from the line of
all arrivals. -/
theorem elapse_foldl_receive {ι : Type*} (entry : ι → α × κ) (now : ι → κ) (arrivals : List ι)
    (h : ∀ i ∈ arrivals, now i ≤ t) (d : DelayLine α κ) :
    (arrivals.foldl (fun d i => d.receive (entry i) (now i)) d).elapse t =
      (d.append (arrivals.map entry)).elapse t := by
  induction arrivals generalizing d with
  | nil => simp
  | cons i rest ih =>
    obtain ⟨hi, hrest⟩ := List.forall_mem_cons.mp h
    rw [List.foldl_cons, ih hrest, receive, append_append, elapse_append_elapse hi]
    rfl

/-- The first entry for `a`, and every entry before it, is past its deadline at `t`. -/
def PassesBy (t : κ) (a : α) : List (α × κ) → Prop
  | [] => False
  | (b, k) :: rest => k ≤ t ∧ (b = a ∨ PassesBy t a rest)

instance decidablePassesBy [DecidableEq α] (t : κ) (a : α) :
    (entries : List (α × κ)) → Decidable (PassesBy t a entries)
  | [] => isFalse id
  | (b, k) :: rest =>
    have := decidablePassesBy t a rest
    inferInstanceAs (Decidable (k ≤ t ∧ (b = a ∨ PassesBy t a rest)))

/-- An entry has left when nothing up to it holds the line up. -/
theorem mem_released_iff {a : α} {entries : List (α × κ)} :
    a ∈ ((append {} entries).elapse t).released ↔ PassesBy t a entries := by
  simp only [elapse, append, List.nil_append]
  induction entries with
  | nil => simp [PassesBy]
  | cons x rest ih =>
    by_cases hx : x.2 ≤ t
    · rw [List.takeWhile_cons_of_pos (by simpa using hx), List.map_cons, List.mem_cons, ih]
      simp [PassesBy, hx, eq_comm]
    · rw [List.takeWhile_cons_of_neg (by simpa using hx)]
      simp [PassesBy, hx]

/-- What has passed has a deadline that is past. -/
theorem PassesBy.exists_mem {a : α} {entries : List (α × κ)} (h : PassesBy t a entries) :
    ∃ k, (a, k) ∈ entries ∧ k ≤ t := by
  induction entries with
  | nil => exact h.elim
  | cons x rest ih =>
    obtain ⟨hx, rfl | hrest⟩ := h
    · exact ⟨x.2, List.mem_cons_self, hx⟩
    · obtain ⟨k, hmem, hk⟩ := ih hrest
      exact ⟨k, List.mem_cons_of_mem _ hmem, hk⟩

/-- In a line in the order of deadlines nothing is held up. -/
theorem passesBy_of_mem {a : α} {k : κ} {entries : List (α × κ)}
    (hordered : entries.Pairwise fun x y => x.2 ≤ y.2) (hmem : (a, k) ∈ entries) (hk : k ≤ t) :
    PassesBy t a entries := by
  induction entries with
  | nil => exact absurd hmem List.not_mem_nil
  | cons x rest ih =>
    obtain ⟨hhead, hrest⟩ := List.pairwise_cons.mp hordered
    rcases List.mem_cons.mp hmem with rfl | hmem
    · exact ⟨hk, Or.inl rfl⟩
    · exact ⟨(hhead _ hmem).trans hk, Or.inr (ih hrest hmem)⟩

end DelayLine
