import Dtq.Workflow.Origin
import Dtq.Workflow.Transactions

/-!
# Calls on one workflow

Two calls of `advance` on one workflow that both read the tasks before either has committed both
find a ready step without a task, and both launch it. Nothing in the tables stands against it: the
two tasks have different ids and no dedup key.

`OneAtATime` is a discipline for the callers that excludes it for one step name: a call reads the
tasks only while no other call on the workflow may still launch the step, and no call ends without
its commit after it has published the step's envelope. The name must not be empty, since `advance`
does not recognise a task under the empty name.

## Main results

* `Calls.launched_once` — under the discipline a step has at most one row and one envelope
* `Calls.launched_twice` — without it there are two of each
-/

set_option autoImplicit false

namespace Dtq

open Transition

/-! ### Counting by name -/

/-- How many of the rows have the name. -/
def namedRows (name : String) (rows : List TaskRow) : ℕ :=
  rows.countP fun row => row.stepName = some name

/-- How many of the planned launches have the name. -/
def namedLaunches (name : String) (plan : List (Option Launch)) : ℕ :=
  plan.countP fun entry => entry.map Launch.stepName = some name

/-- How many of the envelopes are for tasks of the workflow with the name. -/
def namedEnvelopes (workflowId : Uuid) (name : String) (envelopes : List TaskEnvelope) : ℕ :=
  envelopes.countP fun envelope =>
    envelope.workflowId = some workflowId ∧ envelope.stepName = some name

/-- The launches that the call has still to make. -/
def AdvancePc.planned : AdvancePc → List (Option Launch)
  | .launch _ plan => plan
  | .publish _ _ rest => rest
  | .getWorkflow | .getTasks _ | .getEffects .. | .setState .. | .ended _ => []

namespace AdvanceCall

/-- The call is on the workflow, and its transaction may end up with a row of the name: it has found
none among the tasks it has read, or it has planned or inserted one. -/
def MayLaunch (workflowId : Uuid) (name : String) (call : AdvanceCall) : Prop :=
  call.workflowId = workflowId ∧
    match call.pc with
    | .getEffects _ rows _ _ => namedRows name rows = 0
    | .launch .. | .publish .. =>
      namedRows name call.inserted + namedLaunches name call.pc.planned ≠ 0
    | .getWorkflow | .getTasks _ | .setState .. | .ended _ => False

theorem MayLaunch.cases {workflowId : Uuid} {name : String} {call : AdvanceCall}
    (h : call.MayLaunch workflowId name) :
    (∃ wf rows left c, call.pc = .getEffects wf rows left c ∧ namedRows name rows = 0) ∨
      namedRows name call.inserted + namedLaunches name call.pc.planned ≠ 0 := by
  have hpc := h.2
  split at hpc
  · next heq => exact Or.inl ⟨_, _, _, _, heq, hpc⟩
  · exact Or.inr hpc
  · exact Or.inr hpc
  all_goals exact hpc.elim

/-- The answer is what `get_tasks_for_workflow` returns. -/
def Reads (call : AdvanceCall) : Reply → Prop
  | .ok _ _ =>
    match call.pc with
    | .getTasks _ => True
    | _ => False
  | .raise .. | .crash => False

end AdvanceCall

/-- A call on the workflow reads the tasks only while no other one may still launch the name, and
none ends without its commit after it has published under the name. -/
def Calls.OneAtATime (workflowId : Uuid) (name : String) (s : Calls) : Calls.Act → Prop
  | .call i _ _ reply => ∀ call, s.calls[i]? = some call → call.workflowId = workflowId →
      (call.Reads reply → ∀ other ∈ s.calls.eraseIdx i, ¬ other.MayLaunch workflowId name) ∧
        ¬ (call.Aborts reply ∧ namedEnvelopes workflowId name (call.publishedAfter reply) ≠ 0)
  | _ => True

section Counting

variable {workflowId : Uuid} {name : String}

theorem namedRows_append (rows rows' : List TaskRow) :
    namedRows name (rows ++ rows') = namedRows name rows + namedRows name rows' :=
  List.countP_append

theorem namedEnvelopes_append (workflowId : Uuid) (name : String)
    (envelopes envelopes' : List TaskEnvelope) :
    namedEnvelopes workflowId name (envelopes ++ envelopes') =
      namedEnvelopes workflowId name envelopes + namedEnvelopes workflowId name envelopes' :=
  List.countP_append

theorem namedRows_eq_zero_iff {rows : List TaskRow} :
    namedRows name rows = 0 ↔ ∀ row ∈ rows, row.stepName ≠ some name := by
  simp [namedRows]

/-- Envelopes are counted as the rows they were made for. -/
theorem namedEnvelopes_of_announced (name : String) {rows : List TaskRow}
    {envelopes : List TaskEnvelope} (h : List.Forall₂ AnnouncedBy rows envelopes)
    (howned : ∀ row ∈ rows, row.workflowId = some workflowId) :
    namedEnvelopes workflowId name envelopes = namedRows name rows := by
  induction h with
  | nil => rfl
  | @cons row envelope rows envelopes hhead _ ih =>
    obtain ⟨now, rfl⟩ := hhead
    have hrow := howned row List.mem_cons_self
    have hrest := ih fun row hrow => howned row (List.mem_cons_of_mem _ hrow)
    simp only [namedEnvelopes, namedRows, List.countP_cons] at hrest ⊢
    rw [hrest]
    simp [TaskRow.launchEnvelope, hrow]

/-- A plan has no launch under a name that a task is filed under. -/
theorem namedLaunches_eq_zero {c : Collected} {steps : List WorkflowStep} {completed : List String}
    (hclear : ClearName steps name) (h : c.states name ≠ none) :
    namedLaunches name (c.plan steps completed) = 0 := by
  rw [namedLaunches, List.countP_eq_zero]
  intro entry hentry hname
  obtain ⟨launch, rfl, hlaunch⟩ : ∃ launch, entry = some launch ∧ launch.stepName = name := by
    simpa using hname
  obtain ⟨step, hready, hstate, ⟨-, hnone⟩ | ⟨launches, hexpand, other, hother, heq⟩⟩ :=
    Collected.mem_plan.mp hentry
  · exact absurd hnone (by simp)
  · obtain rfl := Option.some.inj heq
    have htask := ((WorkflowStep.expand_names hexpand).1 launch hother).2
    rw [hlaunch] at htask
    have hsame := (hclear.eq_of_taskName (mem_getReadySteps.mp hready).1 htask).2
    rw [hsame] at hstate
    exact h hstate

end Counting

/-! ### One call may launch -/

namespace Calls

variable (workflowId : Uuid) (name : String)

/-- What a call on the workflow keeps: what it has collected so far, and that it inserts at most one
row of the name. -/
structure Counted (call : AdvanceCall) : Prop where
  collected : ∀ wf rows left c, call.pc = .getEffects wf rows left c → ∃ seen, rows = seen ++ left ∧
    (c.states name = none ↔ ∀ row ∈ seen, row.filedUnder ≠ some name)
  launches : namedRows name call.inserted + namedLaunches name call.pc.planned ≤ 1

/-- At most one call may launch the name, and while one may, there is no row of it. What is on the
broker under the name has its row, or was published by that call. -/
structure Once (s : Calls) : Prop where
  counted : ∀ call ∈ s.calls, call.workflowId = workflowId → Counted name call
  apart : Indexed.Apart
    (fun a b => ¬ (a.MayLaunch workflowId name ∧ b.MayLaunch workflowId name)) s.calls
  absent : ∀ call ∈ s.calls, call.MayLaunch workflowId name →
    namedRows name (s.world.tasksOf workflowId) = 0
  rows : namedRows name (s.world.tasksOf workflowId) ≤ 1
  stream : namedEnvelopes workflowId name s.stream ≤ namedRows name (s.world.tasksOf workflowId) ∨
    ∃ call ∈ s.calls, call.MayLaunch workflowId name ∧
      namedEnvelopes workflowId name s.stream ≤ namedEnvelopes workflowId name call.published

variable {workflowId name} {s s' : Calls} {i : ℕ} {call call' : AdvanceCall} {w' : World}

/-- Nothing more is planned, whatever else has changed. -/
theorem Counted.unplanned (h : Counted name call) (hinserted : call'.inserted = call.inserted)
    (hpc : ∀ wf rows left c, call'.pc ≠ .getEffects wf rows left c)
    (hplanned : call'.pc.planned = []) : Counted name call' := by
  refine ⟨fun wf rows left c heq => absurd heq (hpc wf rows left c), ?_⟩
  rw [hinserted, hplanned]
  exact le_trans (Nat.add_le_add_left (Nat.zero_le _) _) h.launches

theorem once_empty : Once workflowId name .empty where
  counted := fun _ hcall => absurd hcall List.not_mem_nil
  apart := .nil
  absent := fun _ hcall => absurd hcall List.not_mem_nil
  rows := Nat.zero_le _
  stream := Or.inl (Nat.zero_le _)

theorem Once.frame (h : Once workflowId name s) (hcalls : s'.calls = s.calls)
    (hrows : namedRows name (s'.world.tasksOf workflowId) =
      namedRows name (s.world.tasksOf workflowId)) (hstream : s'.stream = s.stream) :
    Once workflowId name s' where
  counted := by
    rw [hcalls]
    exact h.counted
  apart := by
    rw [hcalls]
    exact h.apart
  absent := by
    rw [hcalls, hrows]
    exact h.absent
  rows := by
    rw [hrows]
    exact h.rows
  stream := by
    rw [hcalls, hrows, hstream]
    exact h.stream

theorem not_mayLaunch_begin (id : Uuid) :
    ¬ AdvanceCall.MayLaunch workflowId name { workflowId := id } := fun h => h.2

theorem Once.began (h : Once workflowId name s) (id : Uuid) :
    Once workflowId name { s with calls := s.calls ++ [{ workflowId := id }] } where
  counted := Indexed.forall_mem_append_singleton h.counted fun _ =>
    ⟨fun wf rows left c hpc => absurd hpc (by simp), Nat.zero_le _⟩
  apart := h.apart.append_singleton (fun a b hab hba => hab ⟨hba.2, hba.1⟩) fun other _ hboth =>
    not_mayLaunch_begin id hboth.1
  absent := Indexed.forall_mem_append_singleton h.absent fun hmay =>
    absurd hmay (not_mayLaunch_begin id)
  rows := h.rows
  stream := by
    refine h.stream.imp_right ?_
    rintro ⟨call, hcall, hmay⟩
    exact ⟨call, List.mem_append_left _ hcall, hmay⟩

/-- An answer after which the call may launch only if it could before. What it has published stays
accounted for when it then may launch no more. -/
theorem Once.set (h : Once workflowId name s) (hcall : s.calls[i]? = some call)
    (hrows : namedRows name (w'.tasksOf workflowId) = namedRows name (s.world.tasksOf workflowId))
    (hstream : namedEnvelopes workflowId name (Calls.stream ⟨w', s.calls.set i call'⟩) =
      namedEnvelopes workflowId name s.stream)
    (hcounted : call'.workflowId = workflowId → Counted name call')
    (hmay : call'.MayLaunch workflowId name → call.MayLaunch workflowId name)
    (hpublished : call.MayLaunch workflowId name →
      call'.MayLaunch workflowId name ∧ namedEnvelopes workflowId name call.published ≤
        namedEnvelopes workflowId name call'.published ∨
      namedEnvelopes workflowId name call.published = 0) :
    Once workflowId name ⟨w', s.calls.set i call'⟩ where
  counted := Indexed.forall_mem_set h.counted hcounted
  apart := h.apart.set_of_imp (fun a b hab hba => hab ⟨hba.2, hba.1⟩) hcall
    fun other hother hboth => hother ⟨hmay hboth.1, hboth.2⟩
  absent := by
    rw [hrows]
    exact Indexed.forall_mem_set h.absent fun hmay' =>
      h.absent call (List.mem_of_getElem? hcall) (hmay hmay')
  rows := by
    rw [hrows]
    exact h.rows
  stream := by
    rw [hrows, hstream]
    by_cases hle : namedEnvelopes workflowId name s.stream ≤
        namedRows name (s.world.tasksOf workflowId)
    · exact Or.inl hle
    · -- the call that accounts for the entries is another one, or this one and still may launch
      refine Or.inr (Indexed.exists_mem_set hcall ?_ (h.stream.resolve_left hle))
      rintro ⟨hbefore, hcount⟩
      rcases hpublished hbefore with ⟨hafter, hkept⟩ | hnone
      · exact ⟨hafter, hcount.trans hkept⟩
      · omega

/-! ### An answer to a call on the workflow -/

/-- The name of a step belongs to that step alone. -/
def ClearFor (workflowId : Uuid) (name : String) (s : Calls) : Prop :=
  ∀ wf, s.world.findWorkflow workflowId = some wf → ClearName wf.steps name

section Answer

/-- `get_tasks_for_workflow` returns, while no other call may launch the name. -/
theorem Once.read (h : Once workflowId name s) (hcall : s.calls[i]? = some call)
    (hon : call.workflowId = workflowId) {wf : WorkflowRow} (hpc : call.pc = .getTasks wf)
    {rows : List TaskRow} (hperm : rows.Perm (s.world.tasksOf call.workflowId))
    (hinserted : call.inserted = [])
    (hothers : ∀ other ∈ s.calls.eraseIdx i, ¬ other.MayLaunch workflowId name) :
    Once workflowId name ⟨s.world, s.calls.set i
      (call.goto (.getEffects wf rows rows ⟨fun _ => none, fun _ => none⟩))⟩ := by
  have hothers' : ∀ j other, j ≠ i → s.calls[j]? = some other →
      ¬ other.MayLaunch workflowId name := fun j other hj hother =>
    hothers other (List.mem_eraseIdx_iff_getElem?.mpr ⟨j, hj, hother⟩)
  have hread : namedRows name rows = namedRows name (s.world.tasksOf workflowId) := by
    rw [← hon]
    exact hperm.countP_eq _
  refine ⟨Indexed.forall_mem_set h.counted fun _ => ⟨?_, ?_⟩, ?_, ?_, h.rows, Or.inl ?_⟩
  · intro wf' rows' left c heq
    simp only [AdvanceCall.goto, AdvancePc.getEffects.injEq] at heq
    obtain ⟨-, rfl, rfl, rfl⟩ := heq
    exact ⟨[], rfl, by simp⟩
  · simp [AdvanceCall.goto, hinserted, namedRows, namedLaunches, AdvancePc.planned]
  · exact h.apart.set (fun a b hab hba => hab ⟨hba.2, hba.1⟩) fun j other hj hother hboth =>
      hothers' j other hj hother hboth.2
  · refine Indexed.forall_mem_set_of_ne (fun j other hj hother hmay => ?_) fun hmay => ?_
    · exact absurd hmay (hothers' j other hj hother)
    · rw [← hread]
      exact hmay.2
  · -- before the read nobody may launch, so what is on the broker has its row
    refine h.stream.resolve_right ?_
    rintro ⟨other, hother, hmay, -⟩
    obtain ⟨j, hj⟩ := List.mem_iff_getElem?.mp hother
    by_cases hji : j = i
    · obtain rfl : call = other := Option.mem_unique hcall (hji ▸ hj)
      simp [AdvanceCall.MayLaunch, hpc] at hmay
    · exact hothers' j other hji hj hmay

/-- The next task is collected. Whether the call may launch depends on what it has read, not on how
far it has come. -/
theorem Once.collect (h : Once workflowId name s) (hcall : s.calls[i]? = some call)
    (hon : call.workflowId = workflowId) {wf : WorkflowRow} {rows left : List TaskRow}
    {row : TaskRow} {c : Collected} (hpc : call.pc = .getEffects wf rows (row :: left) c) :
    Once workflowId name ⟨s.world, s.calls.set i
      (call.goto (.getEffects wf rows left (c.add s.world.stores.db row)))⟩ := by
  have hcounted := h.counted call (List.mem_of_getElem? hcall) hon
  have hmay : (call.goto (.getEffects wf rows left (c.add s.world.stores.db row))).MayLaunch
      workflowId name ↔ call.MayLaunch workflowId name := by
    simp only [AdvanceCall.MayLaunch, AdvanceCall.goto, hpc]
  refine h.set hcall rfl rfl (fun _ => ⟨?_, ?_⟩) hmay.mp
    fun hbefore => Or.inl ⟨hmay.mpr hbefore, le_refl _⟩
  · intro wf' rows' left' c' heq
    simp only [AdvanceCall.goto, AdvancePc.getEffects.injEq] at heq
    obtain ⟨-, rfl, rfl, rfl⟩ := heq
    obtain ⟨seen, hseen, hstates⟩ := hcounted.collected wf rows (row :: left) c hpc
    refine ⟨seen ++ [row], by simp [hseen], ?_⟩
    rw [Collected.states_add_eq_none_iff, hstates]
    simp [or_imp, forall_and]
  · have hlaunches := hcounted.launches
    simp only [hpc, AdvancePc.planned] at hlaunches
    exact hlaunches

/-- What is on the broker under the name was published by the call that may launch. -/
theorem Once.stream_le (h : Once workflowId name s) (hcall : s.calls[i]? = some call)
    (hmay : call.MayLaunch workflowId name) :
    namedEnvelopes workflowId name s.stream ≤ namedEnvelopes workflowId name call.published := by
  rcases h.stream with hle | ⟨other, hother, hmay', hcount⟩
  · rw [h.absent call (List.mem_of_getElem? hcall) hmay] at hle
    exact hle.trans (Nat.zero_le _)
  · obtain ⟨j, hj⟩ := List.mem_iff_getElem?.mp hother
    by_cases hji : j = i
    · obtain rfl : call = other := Option.mem_unique hcall (hji ▸ hj)
      exact hcount
    · exact absurd ⟨hmay', hmay⟩ (h.apart hj hcall hji)

/-- What a call has published under the name is at most what it has inserted. -/
theorem namedEnvelopes_published_le (name : String) (hsound : call.Sound s.world)
    (hon : call.workflowId = workflowId) :
    namedEnvelopes workflowId name call.published ≤ namedRows name call.inserted := by
  obtain ⟨rest, -, hmatch⟩ := hsound.announced
  have hcount := namedEnvelopes_of_announced name hmatch (hon ▸ hsound.owned)
  rw [namedEnvelopes_append] at hcount
  omega

/-- The final commit. -/
theorem Once.commit (h : Once workflowId name s) (hcall : s.calls[i]? = some call)
    (hon : call.workflowId = workflowId) (hsound : call.Sound s.world) {wf : WorkflowRow}
    (hpc : call.pc = .launch wf []) :
    Once workflowId name ⟨{ s.world with stores := { s.world.stores with
        db := { s.world.stores.db with tasks := s.world.stores.db.tasks ++ call.inserted } } },
      s.calls.set i (call.goto (.ended true))⟩ := by
  have hmem := List.mem_of_getElem? hcall
  have hrows : namedRows name (World.tasksOf { s.world with stores := { s.world.stores with
        db := { s.world.stores.db with tasks := s.world.stores.db.tasks ++ call.inserted } } }
        workflowId) =
      namedRows name (s.world.tasksOf workflowId) + namedRows name call.inserted := by
    rw [World.tasksOf_of_append rfl hsound.owned, hon, if_pos rfl, namedRows_append]
  have hcounted : Counted name (call.goto (.ended true)) :=
    (h.counted call hmem hon).unplanned rfl (by simp [AdvanceCall.goto]) rfl
  have hended : ¬ (call.goto (.ended true)).MayLaunch workflowId name := fun hmay => hmay.2
  by_cases hmay : call.MayLaunch workflowId name
  · -- this is the call that may launch, so there is no row of the name but its own
    have hothers : ∀ j other, j ≠ i → s.calls[j]? = some other →
        ¬ other.MayLaunch workflowId name := fun j other hj hother hmay' =>
      h.apart hcall hother hj.symm ⟨hmay, hmay'⟩
    have hzero := h.absent call hmem hmay
    have hpublished := namedEnvelopes_published_le name hsound hon
    refine ⟨Indexed.forall_mem_set h.counted fun _ => hcounted, ?_, ?_, ?_, Or.inl ?_⟩
    · exact h.apart.set (fun a b hab hba => hab ⟨hba.2, hba.1⟩) fun j other _ _ hboth =>
        hended hboth.1
    · exact Indexed.forall_mem_set_of_ne
        (fun j other hj hother hmay' => absurd hmay' (hothers j other hj hother))
        fun hmay' => absurd hmay' hended
    · refine le_of_eq_of_le hrows ?_
      rw [hzero, Nat.zero_add]
      exact hcounted.launches
    · refine le_of_le_of_eq ?_ hrows.symm
      exact Nat.le_add_left_of_le ((h.stream_le hcall hmay).trans hpublished)
  · have hnone : namedRows name call.inserted = 0 := by
      by_contra hne
      refine hmay ⟨hon, ?_⟩
      simp only [hpc, AdvancePc.planned]
      exact fun hsum => hne (Nat.add_eq_zero_iff.mp hsum).1
    exact h.set hcall (hrows.trans (by rw [hnone, Nat.add_zero])) rfl (fun _ => hcounted)
      (fun hmay' => absurd hmay' hended) fun hmay' => absurd hmay' hmay

/-- The pending envelope is published, and the loop goes on. -/
theorem Once.publish (h : Once workflowId name s) (hcall : s.calls[i]? = some call)
    (hon : call.workflowId = workflowId) (hsound : call.Sound s.world) {wf : WorkflowRow}
    {envelope : TaskEnvelope} {rest : List (Option Launch)}
    (hpc : call.pc = .publish wf envelope rest) :
    Once workflowId name ⟨{ s.world with stores := { s.world.stores with
        redis := s.world.stores.redis.modifyQueue "default" fun q => q.publish envelope } },
      s.calls.set i { call with
        pc := .launch wf rest, published := call.published ++ [envelope] }⟩ := by
  set after : AdvanceCall := { call with
    pc := .launch wf rest, published := call.published ++ [envelope] } with hafter
  have hmem := List.mem_of_getElem? hcall
  have hmay : after.MayLaunch workflowId name ↔ call.MayLaunch workflowId name := by
    simp [AdvanceCall.MayLaunch, hafter, hpc, AdvancePc.planned]
  have hcounted : Counted name after := by
    refine ⟨fun wf rows left c heq => absurd heq (by simp [hafter]), ?_⟩
    have hbefore := (h.counted call hmem hon).launches
    simp only [hpc, AdvancePc.planned] at hbefore
    exact hbefore
  have hstream : Calls.stream ⟨{ s.world with stores := { s.world.stores with
      redis := s.world.stores.redis.modifyQueue "default" fun q => q.publish envelope } },
      s.calls.set i after⟩ = s.stream ++ [envelope] := by
    simp [Calls.stream, QueueState.publish]
  have hpublished : namedEnvelopes workflowId name after.published =
      namedEnvelopes workflowId name call.published + namedEnvelopes workflowId name [envelope] :=
    namedEnvelopes_append _ _ _ _
  by_cases hnamed : namedEnvelopes workflowId name [envelope] = 0
  · refine h.set hcall rfl ?_ (fun _ => hcounted) hmay.mp fun hbefore =>
      Or.inl ⟨hmay.mpr hbefore, ?_⟩
    · rw [hstream, namedEnvelopes_append, hnamed, Nat.add_zero]
    · exact le_of_le_of_eq (Nat.le_add_right _ _) hpublished.symm
  · -- the row of the envelope is among those inserted, so this is the call that may launch
    have hinserted : namedRows name call.inserted ≠ 0 := by
      obtain ⟨pending, hpending, hmatch⟩ := hsound.announced
      obtain rfl : pending = [envelope] := by
        simpa [hpc, AdvancePc.pending, AdvanceCall.isOpen] using hpending
      rw [← namedEnvelopes_of_announced name hmatch (hon ▸ hsound.owned), namedEnvelopes_append]
      omega
    have hbefore : call.MayLaunch workflowId name := by
      refine ⟨hon, ?_⟩
      simp only [hpc]
      omega
    have hbound := h.stream_le hcall hbefore
    refine ⟨Indexed.forall_mem_set h.counted fun _ => hcounted, ?_, ?_, h.rows, Or.inr
      ⟨after, List.mem_of_getElem? (Indexed.getElem?_set_of_eq hcall), hmay.mpr hbefore, ?_⟩⟩
    · exact h.apart.set_of_imp (fun a b hab hba => hab ⟨hba.2, hba.1⟩) hcall
        fun other hother hboth => hother ⟨hbefore, hboth.2⟩
    · exact Indexed.forall_mem_set h.absent fun _ => h.absent call hmem hbefore
    · rw [hstream, namedEnvelopes_append, hpublished]
      exact Nat.add_le_add_right hbound _

/-- `create_task` for the next launch: what was planned is now inserted. -/
theorem Once.insert (h : Once workflowId name s) (hcall : s.calls[i]? = some call)
    (hon : call.workflowId = workflowId) {wf : WorkflowRow} {launch : Launch}
    {rest : List (Option Launch)} (hpc : call.pc = .launch wf (some launch :: rest))
    (taskId : Uuid) (n : ℤ) (now : ℚ) :
    Once workflowId name ⟨s.world, s.calls.set i { call with
      pc := .publish wf (launch.envelope wf.id taskId n now) rest
      inserted := call.inserted ++ [launch.row wf.id taskId n] }⟩ := by
  have hcount : namedRows name (call.inserted ++ [launch.row wf.id taskId n]) +
      namedLaunches name rest =
      namedRows name call.inserted + namedLaunches name (some launch :: rest) := by
    simp only [namedRows, namedLaunches, List.countP_append, List.countP_cons, List.countP_nil,
      Launch.row, Option.map_some]
    omega
  have hmay : AdvanceCall.MayLaunch workflowId name { call with
      pc := .publish wf (launch.envelope wf.id taskId n now) rest
      inserted := call.inserted ++ [launch.row wf.id taskId n] } ↔
      call.MayLaunch workflowId name := by
    simp only [AdvanceCall.MayLaunch, hpc, AdvancePc.planned, hcount]
  refine h.set hcall rfl rfl (fun _ => ⟨?_, ?_⟩) hmay.mp
    fun hbefore => Or.inl ⟨hmay.mpr hbefore, le_refl _⟩
  · exact fun wf rows left c heq => absurd heq (by simp)
  · have hbefore := (h.counted call (List.mem_of_getElem? hcall) hon).launches
    simp only [hpc, AdvancePc.planned] at hbefore ⊢
    exact le_of_eq_of_le hcount hbefore

/-- The tasks are collected. The name is planned only if none of them has it. -/
theorem Once.decide (h : Once workflowId name s) (hcall : s.calls[i]? = some call)
    (hon : call.workflowId = workflowId) (hsound : call.Sound s.world)
    (hclear : ClearFor workflowId name s) (hname : name ≠ "") {wf : WorkflowRow}
    {rows : List TaskRow} {c : Collected} (hpc : call.pc = .getEffects wf rows [] c) :
    Once workflowId name ⟨s.world, s.calls.set i (call.goto (AdvanceCall.decision wf rows c))⟩ := by
  obtain ⟨hinserted, hpublished⟩ := hsound.early (by simp [hpc, AdvancePc.isEarly])
  obtain ⟨-, found, hfind, hsteps⟩ := hsound.workflow wf (by rw [hpc]; rfl)
  have hclear' : ClearName wf.steps name := hsteps ▸ hclear found (hon ▸ hfind)
  obtain ⟨seen, hseen, hstates⟩ :=
    (h.counted call (List.mem_of_getElem? hcall) hon).collected wf rows [] c hpc
  rw [List.append_nil] at hseen
  have hplanned : namedLaunches name (AdvanceCall.decision wf rows c).planned ≤ 1 ∧
      (namedLaunches name (AdvanceCall.decision wf rows c).planned ≠ 0 →
        namedRows name rows = 0) := by
    unfold AdvanceCall.decision
    split_ifs
    · simp [AdvancePc.planned, namedLaunches]
    · simp [AdvancePc.planned, namedLaunches]
    · -- a name is planned only if no task was filed under it, and then no row read has it
      refine ⟨c.countP_plan_le _ hclear', fun hne => ?_⟩
      have hnone : c.states name = none := by
        by_contra hsome
        exact hne (namedLaunches_eq_zero hclear' hsome)
      refine namedRows_eq_zero_iff.mpr fun row hrow hstepName => ?_
      exact hstates.mp hnone row (hseen ▸ hrow) (TaskRow.filedUnder_eq hstepName hname)
  have hnamed : namedRows name call.inserted = 0 := by simp [hinserted, namedRows]
  refine h.set hcall rfl rfl (fun _ => ⟨?_, ?_⟩) (fun hmay => ⟨hon, ?_⟩) fun _ => Or.inr ?_
  · intro wf' rows' left c' heq
    simp only [AdvanceCall.goto, AdvanceCall.decision] at heq
    split_ifs at heq
  · simp only [AdvanceCall.goto, hnamed, Nat.zero_add]
    exact hplanned.1
  · simp only [hpc]
    rcases hmay.cases with ⟨wf', rows', left, c', heq, -⟩ | hne
    · simp only [AdvanceCall.goto, AdvanceCall.decision] at heq
      split_ifs at heq
    · simp only [AdvanceCall.goto, hnamed, Nat.zero_add] at hne
      exact hplanned.2 hne
  · simp [hpublished, namedEnvelopes]

/-- A call on another workflow. -/
theorem Once.other (h : Once workflowId name s) (hcall : s.calls[i]? = some call)
    (hoff : call.workflowId ≠ workflowId) (hsound : call.Sound s.world)
    (hmove : call.Move s.world s.waiting w' call') :
    Once workflowId name ⟨w', s.calls.set i call'⟩ := by
  have hsame : call'.workflowId = call.workflowId := by
    cases hmove <;> rfl
  have hrows : w'.tasksOf workflowId = s.world.tasksOf workflowId := by
    cases hmove with
    | committed wf hpc =>
      rw [World.tasksOf_of_append rfl hsound.owned, if_neg (Ne.symm hoff), List.append_nil]
    | _ => rfl
  -- its envelopes carry the id of the other workflow
  have hpending : ∀ envelope ∈ call.pc.pending,
      namedEnvelopes workflowId name [envelope] = 0 := by
    intro envelope hmem
    obtain ⟨rest, hrest, hmatch⟩ := hsound.announced
    have hopen : call.isOpen = true := by
      unfold AdvanceCall.isOpen
      cases hpc : call.pc with
      | ended committed => simp [hpc, AdvancePc.pending] at hmem
      | _ => rfl
    rw [hrest hopen] at hmatch
    obtain ⟨row, hrow, now, rfl⟩ :=
      Indexed.exists_of_mem_right hmatch (List.mem_append_right _ hmem)
    simp [namedEnvelopes, TaskRow.launchEnvelope, hsound.owned row hrow, hoff]
  have hstream : namedEnvelopes workflowId name (Calls.stream ⟨w', s.calls.set i call'⟩) =
      namedEnvelopes workflowId name s.stream := by
    cases hmove with
    | published wf envelope rest hpc | lost wf envelope rest hpc =>
      have hnone := hpending envelope (by simp [hpc, AdvancePc.pending])
      have happend := namedEnvelopes_append workflowId name s.stream [envelope]
      rw [hnone, Nat.add_zero] at happend
      simpa [Calls.stream, QueueState.publish] using happend
    | _ => rfl
  exact h.set hcall (by rw [hrows]) hstream (fun hon => absurd (hsame.symm.trans hon) hoff)
    (fun hmay => absurd (hsame.symm.trans hmay.1) hoff) fun hmay => absurd hmay.1 hoff

/-- A call is answered, under the discipline. -/
theorem Once.answer (h : Once workflowId name s) (hinv : s.Inv)
    (hclear : ClearFor workflowId name s) (hname : name ≠ "") (hcall : s.calls[i]? = some call)
    {rows : List TaskRow} {taskId : Uuid} {reply : Reply}
    (hanswer : call.answer s.world s.waiting rows taskId reply = some (w', call'))
    (hdiscipline : OneAtATime workflowId name s (.call i rows taskId reply)) :
    Once workflowId name ⟨w', s.calls.set i call'⟩ := by
  have hmem := List.mem_of_getElem? hcall
  have hsound := hinv.calls call hmem
  have hmove := AdvanceCall.move_of_answer hanswer
  by_cases hon : call.workflowId = workflowId
  case neg => exact h.other hcall hon hsound hmove
  obtain ⟨hreads, hkept⟩ := hdiscipline call hcall hon
  have hcounted := h.counted call hmem hon
  -- a call that ends without its commit has published nothing under the name
  have hnothing : call'.pc = .ended false → call.pc = .getWorkflow ∨
      namedEnvelopes workflowId name call'.published = 0 := by
    intro hended
    refine (AdvanceCall.aborts_of_answer hanswer hended).imp_right fun haborts => ?_
    rw [AdvanceCall.published_of_answer hanswer]
    by_contra hne
    exact hkept ⟨haborts, hne⟩
  cases hmove with
  | found wf hpc hfind _ =>
    refine h.set hcall rfl rfl (fun _ => hcounted.unplanned rfl (by simp [AdvanceCall.goto]) rfl)
      (fun hmay => hmay.2.elim) fun hmay => ?_
    simp [AdvanceCall.MayLaunch, hpc] at hmay
  | read wf rows hpc hperm =>
    -- the discipline speaks of answers that return; one that raises does not end here
    have hread : call.Reads reply := by
      by_contra hnot
      have haborts : call.Aborts reply := by
        cases reply with
        | ok now draw => exact absurd (by simp [AdvanceCall.Reads, hpc]) hnot
        | raise applied now draw error =>
          cases applied with
          | true => simp [AdvanceCall.Aborts, hpc]
          | false => trivial
        | crash => trivial
      exact absurd (AdvanceCall.ended_of_aborts hanswer haborts) (by simp [AdvanceCall.goto])
    have hinserted := (hsound.early (by simp [hpc, AdvancePc.isEarly])).1
    exact h.read hcall hon hpc hperm hinserted (hreads hread)
  | collected wf rows row left c hpc => exact h.collect hcall hon hpc
  | decided wf rows c hpc => exact h.decide hcall hon hsound hclear hname hpc
  | finished wf state hpc =>
    refine h.set hcall rfl rfl (fun _ => hcounted.unplanned rfl (by simp [AdvanceCall.goto]) rfl)
      (fun hmay => hmay.2.elim) fun hmay => ?_
    simp [AdvanceCall.MayLaunch, hpc] at hmay
  | committed wf hpc => exact h.commit hcall hon hsound hpc
  | inserted wf launch rest taskId n now hpc _ _ _ => exact h.insert hcall hon hpc taskId n now
  | published wf envelope rest hpc => exact h.publish hcall hon hsound hpc
  | lost wf envelope rest hpc =>
    -- neither this envelope nor an earlier one is under the name
    have hzero := (hnothing rfl).resolve_left (by simp [hpc])
    rw [namedEnvelopes_append] at hzero
    obtain ⟨hbefore, henvelope⟩ := Nat.add_eq_zero_iff.mp hzero
    refine h.set hcall rfl ?_ (fun _ => hcounted.unplanned rfl (by simp) rfl)
      (fun hmay => hmay.2.elim) fun _ => Or.inr hbefore
    have happend := namedEnvelopes_append workflowId name s.stream [envelope]
    rw [henvelope, Nat.add_zero] at happend
    simpa [Calls.stream, QueueState.publish] using happend
  | aborted hopen =>
    refine h.set hcall rfl rfl (fun _ => hcounted.unplanned rfl (by simp [AdvanceCall.goto]) rfl)
      (fun hmay => hmay.2.elim) fun hmay => Or.inr ((hnothing rfl).resolve_left fun hpc => ?_)
    simp [AdvanceCall.MayLaunch, hpc] at hmay

end Answer

theorem keepsSteps_of_step {a : Act} (h : s.step a = some s') :
    s.world.KeepsSteps s'.world := by
  cases moves_of_step h with
  | refused | began | delivered | adopted => exact .of_workflows_eq rfl
  | created => exact World.keepsSteps_withWorkflow _ _
  | progressed _ hprogress => exact .of_workflows_eq hprogress.workflows
  | answered _ hanswer =>
    cases AdvanceCall.move_of_answer hanswer with
    | finished => exact World.keepsSteps_setWorkflowState _ _ _
    | _ => exact .of_workflows_eq rfl

theorem namedRows_of_progress (h : s.world.Progress w') :
    namedRows name (w'.tasksOf workflowId) = namedRows name (s.world.tasksOf workflowId) := by
  obtain ⟨taskId, state, attempt, found, -, -, htasks⟩ := h.tasksOf_eq
  rw [htasks, namedRows, List.countP_map, namedRows]
  simp [Function.comp_def]

theorem Once.step (h : Once workflowId name s) (hinv : s.Inv) (hclear : ClearFor workflowId name s)
    (hname : name ≠ "") {a : Act} (hdiscipline : OneAtATime workflowId name s a)
    (hstep : s.step a = some s') : Once workflowId name s' := by
  cases moves_of_step hstep with
  | refused => exact h
  | created => exact h.frame rfl rfl rfl
  | began => exact h.began _
  | answered hcall hanswer => exact h.answer hinv hclear hname hcall hanswer hdiscipline
  | delivered | adopted => exact h.frame rfl rfl (stream_withQueue _)
  | progressed _ hprogress hredis =>
    exact h.frame rfl (namedRows_of_progress hprogress) (by simp [Calls.stream, hredis])

theorem once_of_reaches (hname : name ≠ "")
    (hrun : ReachesWhen Calls.step (OneAtATime workflowId name) .empty s)
    (hclear : ClearFor workflowId name s) : Once workflowId name s := by
  refine hrun.invariant_along (I := fun s => ClearFor workflowId name s → Once workflowId name s)
    (fun _ => once_empty) ?_ hclear
  intro u a v hu ih hdiscipline hstep hclear
  -- steps of a workflow never change, so names that are clear at the end were clear all along
  have hbefore : ClearFor workflowId name u := by
    intro wf hfind
    obtain ⟨wf', hfind', hsteps⟩ := keepsSteps_of_step hstep workflowId wf hfind
    exact hsteps ▸ hclear wf' hfind'
  exact (ih hbefore).step (inv_of_reaches hu) hbefore hname hdiscipline hstep

/-- **Launched once.** In every state of a run under the discipline for a name that is not empty, a
workflow without fan-out and with distinct step names has at most one row and at most one envelope
for the step of that name. -/
theorem launched_once {name : String} (hname : name ≠ "") {wf : WorkflowRow}
    (hrun : ReachesWhen Calls.step (OneAtATime wf.id name) .empty s)
    (hfind : s.world.findWorkflow wf.id = some wf)
    (hnodup : (wf.steps.map WorkflowStep.name).Nodup)
    (hplain : ∀ step ∈ wf.steps, step.fanOutField = none) :
    namedRows name (s.world.tasksOf wf.id) ≤ 1 ∧ namedEnvelopes wf.id name s.stream ≤ 1 := by
  have hclear : ClearFor wf.id name s := by
    intro found hfound
    obtain rfl := Option.mem_unique hfind hfound
    refine ⟨?_, fun other hother hfan => absurd (hplain other hother) hfan⟩
    have hcount := List.nodup_iff_count_le_one.mp hnodup name
    rw [List.count, List.countP_map] at hcount
    exact le_of_eq_of_le (List.countP_congr fun other _ => by simp) hcount
  have honce := once_of_reaches hname hrun hclear
  have hinv := inv_of_reaches hrun
  refine ⟨honce.rows, ?_⟩
  rcases honce.stream with hle | ⟨call, hcall, hmay, hle⟩
  · exact hle.trans honce.rows
  · have hpublished := namedEnvelopes_published_le name (hinv.calls call hcall) hmay.1
    have hlaunches := (honce.counted call hcall hmay.1).launches
    omega

instance (call : AdvanceCall) (workflowId : Uuid) (name : String) :
    Decidable (call.MayLaunch workflowId name) :=
  @instDecidableAnd _ _ _ <|
    match call.pc with
    | .getEffects _ rows _ _ => inferInstanceAs (Decidable (namedRows name rows = 0))
    | .launch _ plan => inferInstanceAs
      (Decidable (namedRows name call.inserted + namedLaunches name plan ≠ 0))
    | .publish _ _ rest => inferInstanceAs
      (Decidable (namedRows name call.inserted + namedLaunches name rest ≠ 0))
    | .getWorkflow | .getTasks _ | .setState .. | .ended _ => inferInstanceAs (Decidable False)

instance (call : AdvanceCall) (reply : Reply) : Decidable (call.Reads reply) :=
  match reply with
  | .ok _ _ =>
    show Decidable (match call.pc with | .getTasks _ => True | _ => False) from
    match call.pc with
    | .getTasks _ => inferInstanceAs (Decidable True)
    | .getWorkflow | .getEffects .. | .setState .. | .launch .. | .publish .. | .ended _ =>
      inferInstanceAs (Decidable False)
  | .raise .. | .crash => inferInstanceAs (Decidable False)

instance (workflowId : Uuid) (name : String) (s : Calls) (a : Act) :
    Decidable (s.OneAtATime workflowId name a) :=
  match a with
  | .call i _ _ reply => inferInstanceAs (Decidable (∀ call ∈ s.calls[i]?,
      call.workflowId = workflowId →
        (call.Reads reply → ∀ other ∈ s.calls.eraseIdx i, ¬ other.MayLaunch workflowId name) ∧
          ¬ (call.Aborts reply ∧
            namedEnvelopes workflowId name (call.publishedAfter reply) ≠ 0)))
  | .create .. | .begin _ | .deliver _ | .adopt .. | .lease _ | .succeed .. | .die _ =>
    inferInstanceAs (Decidable True)

/-! ### A join of two steps -/

/-- Two steps, and a third one after both. -/
def joinSteps : List WorkflowStep :=
  [⟨"a", "f", none, [], none, .absent⟩, ⟨"b", "f", none, [], none, .absent⟩,
    ⟨"c", "g", none, ["a", "b"], none, .absent⟩]

/-- The next `n` statements of a call return. -/
def returns (i n : ℕ) (taskId : Uuid) : List Act :=
  List.replicate n (.call i [] taskId (.ok 0 0))

/-- A parent's row after the task has succeeded. -/
def parentRow (name : String) (taskId : Uuid) : TaskRow :=
  { Launch.row ⟨⟨name, "f", none, [], none, .absent⟩, name, .obj []⟩ ⟨1⟩ taskId 5 with
    state := .succeeded, attempt := 1 }

/-- The parents have been launched by one call, and have succeeded. -/
def parentsSucceeded : List Act :=
  [.create ⟨1⟩ "w" joinSteps ["a", "b", "c"], .begin ⟨1⟩] ++ returns 0 5 ⟨2⟩ ++ returns 0 3 ⟨3⟩ ++
    [.lease ⟨2⟩, .succeed ⟨2⟩ 1 none, .lease ⟨3⟩, .succeed ⟨3⟩ 2 none]

/-- A call reads the workflow and its tasks. -/
def readsParents (i : ℕ) : List Act :=
  [.call i [] ⟨0⟩ (.ok 0 0), .call i [parentRow "a" ⟨2⟩, parentRow "b" ⟨3⟩] ⟨0⟩ (.ok 0 0)]

/-- The theorem at one call for each parent, the second after the first has committed. -/
theorem launched_once_join :
    ∃ s, ReachesWhen Calls.step (OneAtATime ⟨1⟩ "c") .empty s ∧
      s.calls.length = 3 ∧ s.calls.all (fun call => !call.isOpen) = true ∧
      namedRows "c" (s.world.tasksOf ⟨1⟩) = 1 ∧ namedEnvelopes ⟨1⟩ "c" s.stream = 1 := by
  let wf : WorkflowRow := ⟨⟨1⟩, "w", joinSteps, .running⟩
  let last : TaskRow :=
    Launch.row ⟨⟨"c", "g", none, ["a", "b"], none, .absent⟩, "c", .obj []⟩ ⟨1⟩ ⟨4⟩ 5
  obtain ⟨s, hrun, hfind, hcalls, hclosed, hrows, hstream⟩ :=
    exists_reachesWhen_of_check Calls.step (OneAtATime ⟨1⟩ "c") .empty
      (parentsSucceeded ++ [.begin ⟨1⟩, .begin ⟨1⟩] ++ readsParents 1 ++ returns 1 6 ⟨4⟩ ++
        [.call 2 [] ⟨0⟩ (.ok 0 0),
          .call 2 [parentRow "a" ⟨2⟩, parentRow "b" ⟨3⟩, last] ⟨0⟩ (.ok 0 0)] ++ returns 2 5 ⟨5⟩)
      (fun s => s.world.findWorkflow ⟨1⟩ = some wf ∧ s.calls.length = 3 ∧
        s.calls.all (fun call => !call.isOpen) = true ∧
        1 ≤ namedRows "c" (s.world.tasksOf ⟨1⟩) ∧ 1 ≤ namedEnvelopes ⟨1⟩ "c" s.stream)
      (by decide +kernel)
  obtain ⟨hrows', hstream'⟩ :=
    @launched_once s "c" (by decide) wf hrun hfind (by decide) (by decide)
  exact ⟨s, hrun, hcalls, hclosed, le_antisymm hrows' hrows, le_antisymm hstream' hstream⟩

/-- Both calls read the tasks before either commits: the third step has two rows and two
envelopes. -/
theorem launched_twice :
    ∃ s, Reaches Calls.step .empty s ∧
      s.world.findWorkflow ⟨1⟩ = some ⟨⟨1⟩, "w", joinSteps, .running⟩ ∧
      (joinSteps.map WorkflowStep.name).Nodup ∧
      (∀ step ∈ joinSteps, step.fanOutField = none ∧ step.name ≠ "") ∧
      namedRows "c" (s.world.tasksOf ⟨1⟩) = 2 ∧ namedEnvelopes ⟨1⟩ "c" s.stream = 2 := by
  obtain ⟨s, hrun, hfind, hrows, hstream⟩ := exists_run_of_check Calls.step .empty
    (parentsSucceeded ++ [.begin ⟨1⟩, .begin ⟨1⟩] ++ readsParents 1 ++ readsParents 2 ++
      returns 1 6 ⟨4⟩ ++ returns 2 6 ⟨5⟩)
    (fun s => s.world.findWorkflow ⟨1⟩ = some ⟨⟨1⟩, "w", joinSteps, .running⟩ ∧
      namedRows "c" (s.world.tasksOf ⟨1⟩) = 2 ∧ namedEnvelopes ⟨1⟩ "c" s.stream = 2)
    (by decide +kernel)
  exact ⟨s, .of_run hrun, hfind, by decide, by decide, hrows, hstream⟩

end Calls

end Dtq
