import Mathlib.Algebra.GroupWithZero.Nat
import Mathlib.Data.List.Basic
import Mathlib.Data.List.Forall2

/-!
# Parties kept in a list

A system keeps its parties in a list and names each by its position: a new party is
appended, and a party that moves is replaced in place. This file has the rules for
what such updates preserve: facts about every party, and facts about every two
different parties.

## Main results

* `forall_mem_set`, `forall_mem_append_singleton` — a fact about every party
* `exists_mem_set` — a fact about some party
* `Apart.set`, `Apart.append_singleton` — a symmetric fact about every two parties
* `exists_of_mem_left`, `exists_of_mem_right` — the partner of an entry in two lists that match
-/

set_option autoImplicit false

namespace Indexed

variable {α : Type*} {P : α → Prop} {R : α → α → Prop} {l : List α} {i : ℕ} {x : α}

/-- Replacing one entry keeps a fact about all entries that the new one has. -/
theorem forall_mem_set (h : ∀ a ∈ l, P a) (hx : P x) : ∀ a ∈ l.set i x, P a := by
  intro a ha
  have hcases := List.mem_or_eq_of_mem_set ha
  exact hcases.elim (h a) fun heq => heq ▸ hx

theorem forall_mem_append_singleton (h : ∀ a ∈ l, P a) (hx : P x) : ∀ a ∈ l ++ [x], P a := by
  intro a ha
  rcases List.mem_append.mp ha with ha | ha
  · exact h a ha
  · rw [List.mem_singleton.mp ha]
    exact hx

/-- An entry other than the replaced one is still there. -/
theorem getElem?_set_of_ne {j : ℕ} (hne : j ≠ i) : (l.set i x)[j]? = l[j]? := by
  rw [List.getElem?_set_ne (Ne.symm hne)]

/-- The replaced entry, when there was one. -/
theorem getElem?_set_of_eq {a : α} (h : l[i]? = some a) : (l.set i x)[i]? = some x := by
  obtain ⟨hlt, -⟩ := List.getElem?_eq_some_iff.mp h
  rw [List.getElem?_set_self hlt]

/-- An entry keeps its position when the list grows. -/
theorem getElem?_of_grow {l' : List α} {a : α} (h : l <+: l') (hi : l[i]? = some a) :
    l'[i]? = some a := by
  obtain ⟨rest, rfl⟩ := h
  obtain ⟨hlt, -⟩ := List.getElem?_eq_some_iff.mp hi
  rw [List.getElem?_append_left hlt, hi]

theorem eq_of_getElem?_set {a : α} (h : (l.set i x)[i]? = some a) : a = x := by
  rw [List.getElem?_set_self'] at h
  cases hi : l[i]? with
  | none => simp [hi] at h
  | some b => simpa [hi] using h.symm

/-- What holds of the new entry and of the entries at the other positions holds of
all. -/
theorem forall_mem_set_of_ne (h : ∀ j a, j ≠ i → l[j]? = some a → P a) (hx : P x) :
    ∀ a ∈ l.set i x, P a := by
  intro a ha
  obtain ⟨j, hj⟩ := List.mem_iff_getElem?.mp ha
  by_cases hji : j = i
  · subst hji
    rw [eq_of_getElem?_set hj]
    exact hx
  · rw [getElem?_set_of_ne hji] at hj
    exact h j a hji hj

/-- A fact about some entry survives the replacement of one that keeps it. -/
theorem exists_mem_set {a : α} (hi : l[i]? = some a) (hx : P a → P x) (h : ∃ b ∈ l, P b) :
    ∃ b ∈ l.set i x, P b := by
  obtain ⟨b, hb, hPb⟩ := h
  obtain ⟨j, hj⟩ := List.mem_iff_getElem?.mp hb
  by_cases hji : j = i
  · subst hji
    obtain rfl : a = b := Option.mem_unique hi hj
    exact ⟨x, List.mem_of_getElem? (getElem?_set_of_eq hi), hx hPb⟩
  · refine ⟨b, List.mem_of_getElem? (i := j) ?_, hPb⟩
    rw [getElem?_set_of_ne hji, hj]

/-- Replacing an entry changes a total by the difference of the two entries. -/
theorem sum_map_set (f : α → ℕ) :
    ∀ {l : List α} {i : ℕ} {a : α}, l[i]? = some a →
      ((l.set i x).map f).sum + f a = (l.map f).sum + f x
  | [], i, a, h => by simp at h
  | b :: l, 0, a, h => by
    obtain rfl : b = a := by simpa using h
    simp only [List.set_cons_zero, List.map_cons, List.sum_cons]
    omega
  | b :: l, i + 1, a, h => by
    have ih := sum_map_set f (l := l) (i := i) (a := a) (by simpa using h)
    simp only [List.set_cons_succ, List.map_cons, List.sum_cons]
    omega

/-- Replacing an entry changes a count by the difference of the two entries. -/
theorem countP_set_add (p : α → Bool) {a : α} (h : l[i]? = some a) :
    (l.set i x).countP p + (if p a then 1 else 0) = l.countP p + if p x then 1 else 0 := by
  obtain ⟨hi, rfl⟩ := List.getElem?_eq_some_iff.mp h
  have hpos : p l[i] → 0 < l.countP p := fun hp =>
    List.countP_pos_iff.mpr ⟨l[i], List.getElem_mem hi, hp⟩
  rw [List.countP_set hi]
  by_cases hp : p l[i]
  · have hcount := hpos hp
    simp only [hp, if_true]
    omega
  · simp [hp]

/-- Two positions that pass a test are the same when at most one of them does. -/
theorem eq_of_countP_le_one {p : α → Bool} {a b : α} {j : ℕ} (hone : l.countP p ≤ 1)
    (ha : l[i]? = some a) (hb : l[j]? = some b) (hpa : p a) (hpb : p b) : i = j := by
  -- the earlier position is in front of a cut, and the later one behind it
  have hcut : ∀ {i j : ℕ} {a b : α}, l[i]? = some a → l[j]? = some b → p a → p b → ¬ i < j := by
    intro i j a b ha hb hpa hpb hlt
    have hfront : a ∈ l.take (i + 1) := by
      apply List.mem_of_getElem? (i := i)
      rw [List.getElem?_take, if_pos (Nat.lt_succ_self i)]
      exact ha
    have hback : b ∈ l.drop (i + 1) := by
      apply List.mem_of_getElem? (i := j - (i + 1))
      rw [List.getElem?_drop, Nat.add_sub_cancel' hlt]
      exact hb
    have hfront : 0 < (l.take (i + 1)).countP p := List.countP_pos_iff.mpr ⟨a, hfront, hpa⟩
    have hback : 0 < (l.drop (i + 1)).countP p := List.countP_pos_iff.mpr ⟨b, hback, hpb⟩
    have hsplit : l.countP p = (l.take (i + 1)).countP p + (l.drop (i + 1)).countP p := by
      rw [← List.countP_append, List.take_append_drop]
    omega
  exact Nat.le_antisymm (Nat.not_lt.mp (hcut hb ha hpb hpa)) (Nat.not_lt.mp (hcut ha hb hpa hpb))

/-- Any two entries at different positions are related. -/
def Apart (R : α → α → Prop) (l : List α) : Prop :=
  ∀ ⦃i j : ℕ⦄ ⦃a b : α⦄, l[i]? = some a → l[j]? = some b → i ≠ j → R a b

theorem Apart.nil : Apart R [] := by
  intro i j a b ha
  simp at ha

/-- Replacing an entry keeps all pairs apart when the new entry is apart from the
entries at the other positions. -/
theorem Apart.set (h : Apart R l) (hsymm : ∀ a b, R a b → R b a)
    (hx : ∀ j b, j ≠ i → l[j]? = some b → R x b) : Apart R (l.set i x) := by
  intro j k a b ha hb hjk
  by_cases hj : j = i
  · subst hj
    rw [getElem?_set_of_ne hjk.symm] at hb
    rw [eq_of_getElem?_set ha]
    exact hx k b hjk.symm hb
  · rw [getElem?_set_of_ne hj] at ha
    by_cases hk : k = i
    · subst hk
      rw [eq_of_getElem?_set hb]
      exact hsymm _ _ (hx j a hj ha)
    · rw [getElem?_set_of_ne hk] at hb
      exact h ha hb hjk

/-- Replacing an entry by one that is apart from whatever the old one was apart from
keeps all pairs apart. -/
theorem Apart.set_of_imp {a : α} (h : Apart R l) (hsymm : ∀ a b, R a b → R b a)
    (hi : l[i]? = some a) (hx : ∀ b, R a b → R x b) : Apart R (l.set i x) :=
  h.set hsymm fun _ b hj hb => hx b (h hi hb hj.symm)

theorem Apart.append_singleton (h : Apart R l) (hsymm : ∀ a b, R a b → R b a)
    (hx : ∀ b ∈ l, R x b) : Apart R (l ++ [x]) := by
  have hsplit : ∀ {k : ℕ} {c : α}, (l ++ [x])[k]? = some c →
      l[k]? = some c ∨ k = l.length ∧ c = x := by
    intro k c hc
    rcases Nat.lt_trichotomy k l.length with hk | hk | hk
    · rw [List.getElem?_append_left hk] at hc
      exact Or.inl hc
    · subst hk
      simp only [List.getElem?_concat_length, Option.some.injEq] at hc
      exact Or.inr ⟨rfl, hc.symm⟩
    · rw [List.getElem?_eq_none (by simp; omega)] at hc
      exact absurd hc (by simp)
  intro j k a b ha hb hjk
  rcases hsplit ha with ha' | ⟨hj, rfl⟩
  · rcases hsplit hb with hb' | ⟨hk, rfl⟩
    · exact h ha' hb' hjk
    · exact hsymm _ _ (hx a (List.mem_of_getElem? ha'))
  · rcases hsplit hb with hb' | ⟨hk, rfl⟩
    · exact hx b (List.mem_of_getElem? hb')
    · exact absurd (hj.trans hk.symm) hjk

/-- Entries apart by position are pairwise apart in the list. -/
theorem Apart.pairwise (h : Apart R l) : l.Pairwise R := by
  rw [List.pairwise_iff_getElem]
  intro i j hi hj hij
  exact h (List.getElem?_eq_getElem hi) (List.getElem?_eq_getElem hj) (Nat.ne_of_lt hij)

section Forall₂

variable {β : Type*} {S : α → β → Prop} {m : List β}

theorem exists_of_mem_right (h : List.Forall₂ S l m) {b : β} (hb : b ∈ m) : ∃ a ∈ l, S a b := by
  induction h with
  | nil => exact absurd hb List.not_mem_nil
  | cons hhead _ ih =>
    rcases List.mem_cons.mp hb with rfl | hb
    · exact ⟨_, List.mem_cons_self, hhead⟩
    · obtain ⟨a, ha, hab⟩ := ih hb
      exact ⟨a, List.mem_cons_of_mem _ ha, hab⟩

theorem exists_of_mem_left (h : List.Forall₂ S l m) {a : α} (ha : a ∈ l) : ∃ b ∈ m, S a b :=
  exists_of_mem_right h.flip ha

end Forall₂

end Indexed
