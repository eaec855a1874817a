import Mathlib.Data.List.Perm.Basic
import Mathlib.Data.List.Count
import Mathlib.Order.Lattice

/-!
# Members in score order

A sorted set as a list: every member has one score, and members stand in score order.
Members of equal score may stand in either order, so whoever reads a range of scores may
be given any arrangement of it that is in order.

## Main results

* `Ordered.place` — a new member, put behind those of no greater score
* `Ordered.le_of_take` — a prefix holds the least scores
* `IsRange.perm_append_filter` — a range splits into the part that is taken and what stays
-/

set_option autoImplicit false

namespace Scored

variable {α κ : Type*} {l m : List (α × κ)}

/-- No member stands twice. -/
def Distinct (l : List (α × κ)) : Prop := (l.map Prod.fst).Nodup

theorem Distinct.sublist (h : Distinct m) (hsub : l.Sublist m) : Distinct l :=
  List.Nodup.sublist (hsub.map _) h

theorem Distinct.perm (h : Distinct l) (hperm : l.Perm m) : Distinct m :=
  ((hperm.map _).nodup_iff).mp h

/-- A member of one part is in no other part. -/
theorem Distinct.fst_notMem {l' : List (α × κ)} (h : Distinct (l ++ l')) {x : α × κ}
    (hx : x ∈ l') : x.1 ∉ l.map Prod.fst := by
  intro hmem
  rw [Distinct, List.map_append, List.nodup_append] at h
  exact h.2.2 _ hmem _ (List.mem_map_of_mem hx) rfl

variable [LinearOrder κ] {s : κ}

/-- Members stand in score order. -/
def Ordered (l : List (α × κ)) : Prop := l.Pairwise fun x y => x.2 ≤ y.2

instance (l : List (α × κ)) : Decidable (Ordered l) :=
  inferInstanceAs (Decidable (l.Pairwise _))

theorem Ordered.sublist (h : Ordered m) (hsub : l.Sublist m) : Ordered l :=
  List.Pairwise.sublist hsub h

/-- A member put behind those of no greater score stands in order. -/
theorem Ordered.place (h : Ordered l) (a : α) (s : κ) :
    Ordered (l.takeWhile (fun x => x.2 ≤ s) ++ (a, s) :: l.dropWhile (fun x => x.2 ≤ s)) := by
  induction l with
  | nil => simp [Ordered]
  | cons x l ih =>
    have htail := List.Pairwise.of_cons h
    have hhead : ∀ y ∈ l, x.2 ≤ y.2 := fun _ hy => List.rel_of_pairwise_cons h hy
    by_cases hx : x.2 ≤ s
    · -- `x` stays in front: it is below the new member and below the old ones
      rw [List.takeWhile_cons_of_pos (by simpa using hx),
        List.dropWhile_cons_of_pos (by simpa using hx), List.cons_append]
      refine List.pairwise_cons.mpr ⟨fun y hy => ?_, ih htail⟩
      rcases List.mem_append.mp hy with hy | hy
      · exact hhead y ((List.takeWhile_sublist _).subset hy)
      · rcases List.mem_cons.mp hy with rfl | hy
        · exact hx
        · exact hhead y ((List.dropWhile_sublist _).subset hy)
    · -- the new member stands first, and all the others are at least `x`
      rw [List.takeWhile_cons_of_neg (by simpa using hx),
        List.dropWhile_cons_of_neg (by simpa using hx), List.nil_append]
      refine List.pairwise_cons.mpr ⟨fun y hy => ?_, h⟩
      have hlt : s ≤ x.2 := (not_le.mp hx).le
      rcases List.mem_cons.mp hy with rfl | hy
      · exact hlt
      · exact hlt.trans (hhead y hy)

/-- A prefix holds the least scores. -/
theorem Ordered.le_of_take (h : Ordered l) {n : ℕ} {x y : α × κ} (hx : x ∈ l.take n)
    (hy : y ∈ l.drop n) : x.2 ≤ y.2 := by
  rw [Ordered, ← List.take_append_drop n l] at h
  exact (List.pairwise_append.mp h).2.2 x hx y hy

/-- `l` lists the members of `m` with a score up to `s`, in score order. -/
structure IsRange (m : List (α × κ)) (s : κ) (l : List (α × κ)) : Prop where
  perm : l.Perm (m.filter fun x => x.2 ≤ s)
  ordered : Ordered l

instance [DecidableEq α] (m : List (α × κ)) (s : κ) (l : List (α × κ)) :
    Decidable (IsRange m s l) :=
  decidable_of_iff (l.Perm (m.filter fun x => x.2 ≤ s) ∧ Ordered l)
    ⟨fun h => ⟨h.1, h.2⟩, fun h => ⟨h.perm, h.ordered⟩⟩

/-- Members that stand in order list their own ranges. -/
theorem Ordered.isRange (h : Ordered m) (s : κ) : IsRange m s (m.filter fun x => x.2 ≤ s) :=
  ⟨.refl _, h.sublist List.filter_sublist⟩

theorem IsRange.mem_iff (h : IsRange m s l) {x : α × κ} : x ∈ l ↔ x ∈ m ∧ x.2 ≤ s := by
  rw [h.perm.mem_iff, List.mem_filter]
  simp

/-- Taking a part of a range away leaves the rest of the range and the greater scores. -/
theorem IsRange.perm_append_filter [DecidableEq α] (h : IsRange m s l) (hm : Distinct m) (n : ℕ) :
    m.Perm (l.take n ++ m.filter fun x => x.1 ∉ (l.take n).map Prod.fst) := by
  have hparts : m.Perm ((l.take n ++ l.drop n) ++ m.filter fun x => !decide (x.2 ≤ s)) := by
    rw [List.take_append_drop]
    exact (List.filter_append_perm _ m).symm.trans (h.perm.symm.append_right _)
  have hdistinct := hm.perm hparts
  rw [List.append_assoc] at hparts hdistinct
  -- the filter keeps exactly what is not in the part that was taken
  have hkeep : (m.filter fun x => x.1 ∉ (l.take n).map Prod.fst).Perm
      (l.drop n ++ m.filter fun x => !decide (x.2 ≤ s)) := by
    refine (hparts.filter _).trans ?_
    have hgone : (l.take n).filter (fun x => x.1 ∉ (l.take n).map Prod.fst) = [] := by
      refine List.filter_eq_nil_iff.mpr fun x hx => ?_
      simpa using List.mem_map_of_mem (f := Prod.fst) hx
    have hstay : (l.drop n ++ m.filter fun x => !decide (x.2 ≤ s)).filter
        (fun x => x.1 ∉ (l.take n).map Prod.fst) =
        l.drop n ++ m.filter fun x => !decide (x.2 ≤ s) :=
      List.filter_eq_self.mpr fun x hx => by simpa using hdistinct.fst_notMem hx
    rw [List.filter_append, hgone, hstay, List.nil_append]
  exact hparts.trans (hkeep.symm.append_left _)

end Scored
