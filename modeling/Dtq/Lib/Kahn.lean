import Mathlib.Algebra.GroupWithZero.Nat
import Mathlib.Algebra.Order.BigOperators.Group.List
import Mathlib.Algebra.Order.Group.Nat
import Mathlib.Data.List.Nodup
import Mathlib.Data.List.Perm.Subperm
import Mathlib.Data.Fintype.Card
import Mathlib.Data.Set.Finite.Basic
import Mathlib.Logic.Function.Basic
import Mathlib.Logic.Relation
import Mathlib.Order.WellFounded

/-!
# Kahn's algorithm

Topological sorting with a queue and a table of in-degrees. A graph gives every node the list of
its successors, in which a node may occur several times; an edge that occurs twice counts twice
in the table and is taken off twice.

The queue starts with the nodes of in-degree zero, in any order. The loop takes a node off the
queue, appends it to the order, and lowers the in-degree of each of its successors; a successor
that reaches zero joins the queue.

## Main results

* `Inv.visit` — one round of the loop keeps the invariant
* `loop_spec` — as many rounds as there are nodes empty the queue
* `Inv.sorted` — every node stands after all its predecessors
* `Inv.subset_order` — when the queue is empty and the graph has no cycle, the order has all nodes
* `not_transGen_self_of_sorted` — a graph that can be sorted has no cycle
-/

set_option autoImplicit false

namespace Kahn

variable {α : Type*} [DecidableEq α]

/-- What the loop works on. -/
structure State (α : Type*) where
  queue : List α
  inDegree : α → ℤ
  order : List α

/-- Lower the in-degree of one successor. -/
def relax (s : State α) (neighbor : α) : State α :=
  { s with
    inDegree := Function.update s.inDegree neighbor (s.inDegree neighbor - 1)
    queue := if s.inDegree neighbor - 1 = 0 then s.queue ++ [neighbor] else s.queue }

/-- One round of the loop: `node` comes off the queue and `rest` is left of it. -/
def visit (graph : α → List α) (s : State α) (node : α) (rest : List α) : State α :=
  (graph node).foldl relax { s with queue := rest, order := s.order ++ [node] }

/-- Rounds until the queue is empty, at most `fuel` of them. -/
def loop (graph : α → List α) : ℕ → State α → State α
  | 0, s => s
  | fuel + 1, s =>
    match s.queue with
    | [] => s
    | node :: rest => loop graph fuel (visit graph s node rest)

/-- How many edges lead to `x` from the given nodes. -/
def incoming (graph : α → List α) (nodes : List α) (x : α) : ℕ :=
  (nodes.map fun y => (graph y).count x).sum

theorem incoming_pos {graph : α → List α} {nodes : List α} {x y : α} (hy : y ∈ nodes)
    (hx : x ∈ graph y) : 0 < incoming graph nodes x := by
  have hcount : 0 < (graph y).count x := List.count_pos_iff.mpr hx
  exact hcount.trans_le (List.le_sum_of_mem (List.mem_map_of_mem hy))

/-- Taking one node out of the sources takes out its edges. -/
theorem incoming_filter {graph : α → List α} {names order : List α} {node : α}
    (hnames : names.Nodup) (hnode : node ∈ names) (hnew : node ∉ order) (x : α) :
    incoming graph (names.filter (· ∉ order)) x =
      (graph node).count x + incoming graph (names.filter (· ∉ order ++ [node])) x := by
  have hmem : node ∈ names.filter (· ∉ order) := by simp [hnode, hnew]
  have hrest : (names.filter (· ∉ order)).erase node = names.filter (· ∉ order ++ [node]) := by
    rw [(hnames.filter _).erase_eq_filter, List.filter_filter]
    refine List.filter_congr fun y _ => ?_
    by_cases hy : y ∈ order <;> by_cases hyn : y = node <;> simp [hy, hyn]
  have hperm := (List.perm_cons_erase hmem).map fun y => (graph y).count x
  rw [incoming, hperm.sum_eq, List.map_cons, List.sum_cons, hrest]
  rfl

/-- The invariant of the loop. `edges` are the edges out of the last node of the order that have
not been taken off yet. -/
structure Inv (names : List α) (graph : α → List α) (s : State α) (edges : List α) : Prop where
  nodup : (s.order ++ s.queue).Nodup
  subset : ∀ x ∈ s.order ++ s.queue, x ∈ names
  degree : ∀ x ∈ names,
    s.inDegree x = incoming graph (names.filter (· ∉ s.order)) x + edges.count x
  zero : ∀ x ∈ names, x ∈ s.order ++ s.queue ↔ s.inDegree x = 0
  sorted : ∀ before x after, s.order = before ++ x :: after →
    ∀ y ∈ names, x ∈ graph y → y ∈ before

section Rounds

variable {names : List α} {graph : α → List α} {s : State α}

theorem Inv.start {queue : List α} {inDegree : α → ℤ} (hqueue : queue.Nodup)
    (hzero : ∀ x, x ∈ queue ↔ x ∈ names ∧ inDegree x = 0)
    (hdegree : ∀ x ∈ names, inDegree x = incoming graph names x) :
    Inv names graph ⟨queue, inDegree, []⟩ [] where
  nodup := by simpa using hqueue
  subset := fun x hx => ((hzero x).mp (by simpa using hx)).1
  degree := fun x hx => by simpa using hdegree x hx
  zero := fun x hx => by simp [hzero, hx]
  sorted := by simp

theorem Inv.relax {neighbor : α} {edges : List α} (h : Inv names graph s (neighbor :: edges))
    (hneighbor : neighbor ∈ names) : Inv names graph (relax s neighbor) edges := by
  -- an edge to the neighbour is still counted, so it has not been queued
  have hcount : s.inDegree neighbor =
      incoming graph (names.filter (· ∉ s.order)) neighbor + edges.count neighbor + 1 := by
    rw [h.degree neighbor hneighbor, List.count_cons_self]
    omega
  have hnew : neighbor ∉ s.order ++ s.queue := by
    rw [h.zero neighbor hneighbor]
    omega
  have hdegree : ∀ x ∈ names, (Kahn.relax s neighbor).inDegree x =
      incoming graph (names.filter (· ∉ s.order)) x + edges.count x := by
    intro x hx
    by_cases hxn : x = neighbor
    · subst hxn
      simp only [Kahn.relax, Function.update_self]
      omega
    · simp only [Kahn.relax, Function.update_of_ne hxn]
      rw [h.degree x hx, List.count_cons_of_ne (Ne.symm hxn)]
  by_cases hlast : s.inDegree neighbor - 1 = 0
  · have hqueue : (Kahn.relax s neighbor).queue = s.queue ++ [neighbor] := if_pos hlast
    refine ⟨?_, ?_, hdegree, ?_, h.sorted⟩
    · rw [hqueue, ← List.append_assoc]
      exact List.nodup_append.mpr ⟨h.nodup, by simp, by
        intro a ha b hb
        rw [List.mem_singleton.mp hb]
        exact fun hab => hnew (hab ▸ ha)⟩
    · intro x hx
      rw [hqueue, ← List.append_assoc, List.mem_append, List.mem_singleton] at hx
      exact hx.elim (h.subset x) fun hxn => hxn ▸ hneighbor
    · intro x hx
      rw [hqueue, ← List.append_assoc, List.mem_append, List.mem_singleton]
      by_cases hxn : x = neighbor
      · subst hxn
        simp [Kahn.relax, hlast]
      · simp only [hxn, or_false, Kahn.relax, Function.update_of_ne hxn]
        exact h.zero x hx
  · have hqueue : (Kahn.relax s neighbor).queue = s.queue := if_neg hlast
    refine ⟨?_, ?_, hdegree, ?_, h.sorted⟩
    · rw [hqueue]
      exact h.nodup
    · rw [hqueue]
      exact h.subset
    · intro x hx
      rw [hqueue]
      by_cases hxn : x = neighbor
      · subst hxn
        simp only [Kahn.relax, Function.update_self, hlast, iff_false]
        exact hnew
      · simp only [Kahn.relax, Function.update_of_ne hxn]
        exact h.zero x hx

theorem Inv.foldl_relax {edges : List α} (h : Inv names graph s edges)
    (hedges : ∀ x ∈ edges, x ∈ names) : Inv names graph (edges.foldl Kahn.relax s) [] := by
  induction edges generalizing s with
  | nil => exact h
  | cons x edges ih =>
    refine ih (h.relax (hedges x List.mem_cons_self)) fun y hy => ?_
    exact hedges y (List.mem_cons_of_mem x hy)

/-- A node in the queue has all its predecessors in the order. -/
theorem Inv.mem_order_of_queued (h : Inv names graph s []) {x y : α} (hx : x ∈ s.queue)
    (hy : y ∈ names) (hedge : x ∈ graph y) : y ∈ s.order := by
  by_contra hnew
  have hmem : x ∈ names := h.subset x (List.mem_append_right _ hx)
  have hzero := (h.zero x hmem).mp (List.mem_append_right _ hx)
  have hpos : 0 < incoming graph (names.filter (· ∉ s.order)) x :=
    incoming_pos (by simp [hy, hnew]) hedge
  rw [h.degree x hmem, List.count_nil] at hzero
  omega

/-- Moving the head of the queue to the order leaves all its edges to be taken off. -/
theorem Inv.take (hnames : names.Nodup) (h : Inv names graph s []) {node : α} {rest : List α}
    (hqueue : s.queue = node :: rest) :
    Inv names graph { s with queue := rest, order := s.order ++ [node] } (graph node) := by
  have hlist : (s.order ++ [node]) ++ rest = s.order ++ s.queue := by simp [hqueue]
  have hhead : node ∈ s.queue := by simp [hqueue]
  have hnode : node ∈ names := h.subset node (List.mem_append_right _ hhead)
  have hnew : node ∉ s.order := fun hmem =>
    (List.nodup_append.mp h.nodup).2.2 node hmem node hhead rfl
  refine ⟨?_, ?_, ?_, ?_, ?_⟩
  · rw [hlist]
    exact h.nodup
  · rw [hlist]
    exact h.subset
  · intro x hx
    show s.inDegree x = incoming graph (names.filter (· ∉ s.order ++ [node])) x +
      (graph node).count x
    rw [h.degree x hx, incoming_filter hnames hnode hnew x, List.count_nil]
    omega
  · intro x hx
    rw [hlist]
    exact h.zero x hx
  · intro before x after hsplit y hy hedge
    -- the node is the last of the new order, or stands where it stood
    rcases List.eq_nil_or_concat after with rfl | ⟨front, last, rfl⟩
    · obtain ⟨rfl, rfl⟩ : s.order = before ∧ node = x := by simpa using hsplit
      exact h.mem_order_of_queued hhead hy hedge
    · have hparts : s.order = before ++ x :: front ∧ node = last := by
        rw [List.concat_eq_append, ← List.cons_append, ← List.append_assoc] at hsplit
        simpa using List.append_inj' hsplit rfl
      exact h.sorted before x front hparts.1 y hy hedge

variable (hnames : names.Nodup) (hgraph : ∀ y ∈ names, ∀ x ∈ graph y, x ∈ names)
include hnames hgraph

/-- One round keeps the invariant. -/
theorem Inv.visit (h : Inv names graph s []) {node : α} {rest : List α}
    (hqueue : s.queue = node :: rest) : Inv names graph (visit graph s node rest) [] := by
  have hnode : node ∈ names := h.subset node (by simp [hqueue])
  exact (h.take hnames hqueue).foldl_relax (hgraph node hnode)

omit hnames hgraph in
theorem order_foldl_relax (edges : List α) (s : State α) :
    (edges.foldl Kahn.relax s).order = s.order := by
  induction edges generalizing s with
  | nil => rfl
  | cons x edges ih => exact ih (Kahn.relax s x)

/-- **The loop ends.** With as many rounds left as there are nodes outside the order, the queue
runs empty. -/
theorem loop_spec (fuel : ℕ) : ∀ {s : State α}, Inv names graph s [] →
    names.length ≤ fuel + s.order.length →
      Inv names graph (loop graph fuel s) [] ∧ (loop graph fuel s).queue = [] := by
  have hbound : ∀ {s : State α}, Inv names graph s [] →
      s.order.length + s.queue.length ≤ names.length := by
    intro s h
    have hle := (List.subperm_of_subset h.nodup h.subset).length_le
    rwa [List.length_append] at hle
  induction fuel with
  | zero =>
    intro s h hfuel
    have hle := hbound h
    have hempty : s.queue = [] := List.eq_nil_of_length_eq_zero (by omega)
    exact ⟨h, hempty⟩
  | succ fuel ih =>
    intro s h hfuel
    cases hqueue : s.queue with
    | nil =>
      have hstop : loop graph (fuel + 1) s = s := by simp only [loop, hqueue]
      rw [hstop]
      exact ⟨h, hqueue⟩
    | cons node rest =>
      simp only [loop, hqueue]
      refine ih (h.visit hnames hgraph hqueue) ?_
      rw [Kahn.visit, order_foldl_relax, List.length_append, List.length_singleton]
      omega

end Rounds

/-! ### Cycles -/

section Cycles

variable {r : α → α → Prop}

omit [DecidableEq α] in
/-- A finite set in a relation without cycles has an element that no other one points to. -/
theorem exists_source (hacyclic : ∀ x, ¬ Relation.TransGen r x x) (left : Set α)
    (hfinite : left.Finite) (hleft : left.Nonempty) : ∃ x ∈ left, ∀ y ∈ left, ¬ r y x := by
  have : Finite left := hfinite
  let path (x y : left) : Prop := Relation.TransGen r x y
  have : IsTrans left path := ⟨fun _ _ _ h h' => h.trans h'⟩
  have : Std.Irrefl path := ⟨fun x hcycle => hacyclic x hcycle⟩
  obtain ⟨x, hx⟩ := hleft
  obtain ⟨first, -, hfirst⟩ :=
    (Finite.wellFounded_of_trans_of_irrefl path).has_min Set.univ ⟨⟨x, hx⟩, trivial⟩
  exact ⟨first, first.2, fun y hy hedge => hfirst ⟨y, hy⟩ trivial (.single hedge)⟩

/-- **Nothing is left over.** In a graph without cycles the nodes outside the order would have a
first one, whose predecessors are all in the order, so that its in-degree is zero and it is
queued. -/
theorem Inv.subset_order {names : List α} {graph : α → List α} {s : State α}
    (h : Inv names graph s []) (hqueue : s.queue = [])
    (hacyclic : ∀ x, ¬ Relation.TransGen (fun y x => y ∈ names ∧ x ∈ graph y) x x) :
    names ⊆ s.order := by
  intro node hnode
  by_contra hnew
  obtain ⟨x, ⟨hx, hxnew⟩, hsource⟩ := exists_source hacyclic
    {x | x ∈ names ∧ x ∉ s.order}
    (names.toFinset.finite_toSet.subset fun x hx => by simpa using hx.1) ⟨node, hnode, hnew⟩
  have hincoming : incoming graph (names.filter (· ∉ s.order)) x = 0 := by
    refine List.sum_eq_zero fun n hn => ?_
    obtain ⟨y, hy, rfl⟩ := List.mem_map.mp hn
    obtain ⟨hymem, hynew⟩ := List.mem_filter.mp hy
    refine List.count_eq_zero_of_not_mem fun hedge => ?_
    exact hsource y ⟨hymem, by simpa using hynew⟩ ⟨hymem, hedge⟩
  have hzero : s.inDegree x = 0 := by
    rw [h.degree x hx, hincoming, List.count_nil]
    rfl
  have hqueued := (h.zero x hx).mpr hzero
  rw [hqueue, List.append_nil] at hqueued
  exact hxnew hqueued

/-- An order in which every node stands after its predecessors rules out a cycle: along a path the
position of the first occurrence grows. -/
theorem not_transGen_self_of_sorted (order : List α) (hmem : ∀ y x, r y x → x ∈ order)
    (hsorted : ∀ before x after, order = before ++ x :: after → ∀ y, r y x → y ∈ before) (x : α) :
    ¬ Relation.TransGen r x x := by
  have hstep : ∀ y x, r y x → order.idxOf y < order.idxOf x := by
    intro y x hedge
    obtain ⟨before, after, hsplit, hnew⟩ := List.eq_append_cons_of_mem (hmem y x hedge)
    have hbefore := hsorted before x after hsplit y hedge
    rw [hsplit, List.idxOf_append, List.idxOf_append, if_pos hbefore, if_neg hnew]
    have hlt := List.idxOf_lt_length_of_mem hbefore
    omega
  intro hcycle
  have hlt : ∀ {a b}, Relation.TransGen r a b → order.idxOf a < order.idxOf b := by
    intro a b hpath
    induction hpath with
    | single hedge => exact hstep _ _ hedge
    | tail _ hedge ih => exact ih.trans (hstep _ _ hedge)
  exact (hlt hcycle).false

end Cycles

end Kahn
