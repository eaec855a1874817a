import Dtq.Lib.Indexed
import Dtq.Workflow.Calls

/-!
# Rows and envelopes of interleaved calls

What the calls of `advance` keep in every run, however they are interleaved and wherever they end:
each has published envelopes for the first of the rows it has inserted, in their order, the rows of
a call that has not committed are not in the table, and the queue holds what the calls have
published and nothing else.

A worker should only be handed an envelope whose row is committed, and a call that does not commit
should leave nothing on the broker. `Backed` says so of a state, `Careful` is the condition on a
step that keeps it.

## Main results

* `Calls.moves_of_step` — everything that a step can do
* `Calls.inv_of_reaches` — the invariant of every run
* `Calls.backed_iff_careful` — careful runs have backed states, and a step that is not careful loses
  that
-/

set_option autoImplicit false

namespace Dtq

open Transition

namespace Calls

/-! ### What a step can do -/

/-- The keys of the queue. -/
def queue (s : Calls) : QueueState := s.world.stores.redis.queues "default"

/-- The event is progress on a task. -/
def Act.isProgress : Act → Bool
  | .lease _ | .succeed .. | .die _ => true
  | .create .. | .begin _ | .call .. | .deliver _ | .adopt .. => false

/-- The effect of one step. -/
inductive Moves (s : Calls) : Act → Calls → Prop
  | refused {workflowId : Uuid} {name : String} {steps : List WorkflowStep} {order : List String} :
      Moves s (.create workflowId name steps order) s
  | created {workflowId : Uuid} {name : String} {steps : List WorkflowStep} {order : List String}
      (hnone : s.world.findWorkflow workflowId = none) :
      Moves s (.create workflowId name steps order)
        { s with world := s.world.withWorkflow ⟨workflowId, name, steps, .running⟩ }
  | began {workflowId : Uuid} :
      Moves s (.begin workflowId) { s with calls := s.calls ++ [{ workflowId := workflowId }] }
  | answered {i : ℕ} {rows : List TaskRow} {taskId : Uuid} {reply : Reply}
      {call call' : AdvanceCall} {w' : World} (hcall : s.calls[i]? = some call)
      (hanswer : call.answer s.world s.waiting rows taskId reply = some (w', call')) :
      Moves s (.call i rows taskId reply) ⟨w', s.calls.set i call'⟩
  | delivered {workerId : String} {envelope : TaskEnvelope}
      (hnext : s.stream[s.queue.delivered]? = some envelope) :
      Moves s (.deliver workerId) (s.withQueue { s.queue with
        delivered := s.queue.delivered + 1
        pending := s.queue.pending ++ [⟨s.queue.delivered, workerId⟩] })
  | adopted {workerId : String} {msgId : ℕ} {pending : List Pending}
      (hids : pending.map Pending.id = s.queue.pending.map Pending.id) :
      Moves s (.adopt workerId msgId) (s.withQueue { s.queue with pending := pending })
  | progressed {a : Act} {w' : World} (hact : a.isProgress = true) (hprogress : s.world.Progress w')
      (hredis : w'.stores.redis = s.world.stores.redis) : Moves s a { s with world := w' }

variable {s s' : Calls} {a : Act}

theorem redis_of_progress {w w' : World} {b : World.Act} (h : w.step b = some w')
    (hprogress : (∃ taskId, b = .lease taskId) ∨
      (∃ taskId fence result, b = .succeed taskId fence result) ∨ ∃ taskId, b = .die taskId) :
    w.Progress w' ∧ w'.stores.redis = w.stores.redis := by
  have hcases := World.progress_cases h
  rcases hprogress with ⟨taskId, rfl⟩ | ⟨taskId, fence, result, rfl⟩ | ⟨taskId, rfl⟩
  · refine ⟨by simpa using hcases, ?_⟩
    simp only [World.step, World.lease] at h
    split at h
    · split_ifs at h
      rw [← Option.some.inj h]
    · exact absurd h (by simp)
  · refine ⟨by simpa using hcases, ?_⟩
    simp only [World.step, World.succeed] at h
    split at h
    · split_ifs at h
      split at h
      · rw [← Option.some.inj h]
      · rw [← Option.some.inj h]
      · exact absurd h (by simp)
    · exact absurd h (by simp)
  · refine ⟨by simpa using hcases, ?_⟩
    simp only [World.step, World.die] at h
    split at h
    · split_ifs at h
      rw [← Option.some.inj h]
    · exact absurd h (by simp)

theorem moves_of_progress {b : World.Act}
    (h : (s.world.step b).map (fun w => { s with world := w }) = some s')
    (hprogress : (∃ taskId, b = .lease taskId) ∨
      (∃ taskId fence result, b = .succeed taskId fence result) ∨ ∃ taskId, b = .die taskId)
    (hact : a.isProgress = true) : Moves s a s' := by
  obtain ⟨w', hw', rfl⟩ := Option.map_eq_some_iff.mp h
  obtain ⟨hsame, hredis⟩ := redis_of_progress hw' hprogress
  exact .progressed hact hsame hredis

/-- Everything that a step can do. -/
theorem moves_of_step (h : s.step a = some s') : Moves s a s' := by
  cases a with
  | create workflowId name steps order =>
    simp only [step] at h
    split_ifs at h with hguard
    split at h
    · obtain rfl := Option.some.inj h
      exact .refused
    · obtain rfl := Option.some.inj h
      exact .created hguard.1
  | begin workflowId =>
    obtain rfl := Option.some.inj h
    exact .began
  | call i rows taskId reply =>
    obtain ⟨call, hcall, h⟩ := Option.bind_eq_some_iff.mp h
    obtain ⟨⟨w', call'⟩, hanswer, rfl⟩ := Option.map_eq_some_iff.mp h
    exact .answered hcall hanswer
  | deliver workerId =>
    obtain ⟨⟨q, id, e⟩, hlease, rfl⟩ := Option.map_eq_some_iff.mp h
    obtain ⟨-, hnext, rfl⟩ := QueueState.lease_eq_some hlease
    exact .delivered hnext
  | adopt workerId msgId =>
    obtain ⟨⟨q, e⟩, hreclaim, rfl⟩ := Option.map_eq_some_iff.mp h
    obtain ⟨-, -, rfl⟩ := QueueState.reclaim_eq_some hreclaim
    refine .adopted ?_
    rw [List.map_map]
    refine List.map_congr_left fun p _ => ?_
    simp only [Function.comp_apply]
    split <;> rfl
  | lease taskId => exact moves_of_progress h (Or.inl ⟨taskId, rfl⟩) rfl
  | succeed taskId fence result =>
    exact moves_of_progress h (Or.inr (Or.inl ⟨taskId, fence, result, rfl⟩)) rfl
  | die taskId => exact moves_of_progress h (Or.inr (Or.inr ⟨taskId, rfl⟩)) rfl

end Calls

/-! ### What the calls keep -/

/-- The row of the workflow that the call has read. -/
def AdvancePc.workflow : AdvancePc → Option WorkflowRow
  | .getTasks wf | .getEffects wf _ _ _ | .setState wf _ | .launch wf _ | .publish wf _ _ => some wf
  | .getWorkflow | .ended _ => none

/-- The call has not come to the launching loop. -/
def AdvancePc.isEarly : AdvancePc → Bool
  | .getWorkflow | .getTasks _ | .getEffects .. | .setState .. => true
  | .launch .. | .publish .. | .ended _ => false

/-- The envelope was made for the row. -/
def AnnouncedBy (row : TaskRow) (envelope : TaskEnvelope) : Prop :=
  ∃ now, envelope = row.launchEnvelope now

namespace World

variable {w w' : World}

/-- Every workflow is still there, with its steps. -/
def KeepsSteps (w w' : World) : Prop :=
  ∀ workflowId wf, w.findWorkflow workflowId = some wf →
    ∃ wf', w'.findWorkflow workflowId = some wf' ∧ wf'.steps = wf.steps

theorem KeepsSteps.of_workflows_eq (h : w'.workflows = w.workflows) : w.KeepsSteps w' := by
  intro workflowId wf hfind
  refine ⟨wf, ?_, rfl⟩
  rw [findWorkflow, h]
  exact hfind

theorem keepsSteps_withWorkflow (w : World) (wf : WorkflowRow) :
    w.KeepsSteps (w.withWorkflow wf) := by
  intro workflowId found hfind
  refine ⟨found, ?_, rfl⟩
  rw [findWorkflow] at hfind
  rw [findWorkflow, withWorkflow, List.find?_append, hfind]
  rfl

theorem keepsSteps_setWorkflowState (w : World) (workflowId : Uuid) (state : WorkflowState) :
    w.KeepsSteps (w.setWorkflowState workflowId state) := by
  intro other wf hfind
  refine ⟨_, by rw [findWorkflow_setWorkflowState, hfind, Option.map_some], ?_⟩
  split <;> rfl

end World

namespace AdvanceCall

/-- What a call keeps by itself. -/
structure Sound (w : World) (call : AdvanceCall) : Prop where
  workflow : ∀ wf, call.pc.workflow = some wf → wf.id = call.workflowId ∧
    ∃ wf', w.findWorkflow call.workflowId = some wf' ∧ wf'.steps = wf.steps
  early : call.pc.isEarly = true → call.inserted = [] ∧ call.published = []
  owned : ∀ row ∈ call.inserted, row.workflowId = some call.workflowId
  announced : ∃ rest, (call.isOpen = true → rest = call.pc.pending) ∧
    List.Forall₂ AnnouncedBy call.inserted (call.published ++ rest)

variable {w w' : World} {call : AdvanceCall}

/-- A call that has just begun. -/
theorem Sound.begin (w : World) (workflowId : Uuid) :
    Sound w { workflowId := workflowId } where
  workflow := fun wf hwf => absurd hwf (by simp [AdvancePc.workflow])
  early := fun _ => ⟨rfl, rfl⟩
  owned := fun row hrow => absurd hrow List.not_mem_nil
  announced := ⟨[], fun _ => rfl, .nil⟩

theorem Sound.mono (h : call.Sound w) (hkeeps : w.KeepsSteps w') : call.Sound w' where
  workflow := by
    intro wf hwf
    obtain ⟨hid, found, hfind, hsteps⟩ := h.workflow wf hwf
    obtain ⟨found', hfind', hsteps'⟩ := hkeeps _ _ hfind
    exact ⟨hid, found', hfind', hsteps'.trans hsteps⟩
  early := h.early
  owned := h.owned
  announced := h.announced

/-- The call goes on to a place with nothing more to publish than before. -/
theorem Sound.goto (h : call.Sound w) {pc : AdvancePc}
    (hworkflow : ∀ wf, pc.workflow = some wf → wf.id = call.workflowId ∧
      ∃ wf', w.findWorkflow call.workflowId = some wf' ∧ wf'.steps = wf.steps)
    (hearly : pc.isEarly = true → call.pc.isEarly = true)
    (hpending : (call.goto pc).isOpen = true →
      call.isOpen = true ∧ pc.pending = call.pc.pending) :
    (call.goto pc).Sound w where
  workflow := hworkflow
  early := fun hpc => h.early (hearly hpc)
  owned := h.owned
  announced := by
    obtain ⟨rest, hrest, hmatch⟩ := h.announced
    refine ⟨rest, fun hopen => ?_, hmatch⟩
    obtain ⟨hopen, hsame⟩ := hpending hopen
    exact (hrest hopen).trans hsame.symm

/-- The same row of the workflow is carried on. -/
theorem Sound.goto_of_workflow (h : call.Sound w) {pc : AdvancePc}
    (hworkflow : pc.workflow = none ∨ pc.workflow = call.pc.workflow)
    (hearly : pc.isEarly = true → call.pc.isEarly = true)
    (hpending : (call.goto pc).isOpen = true →
      call.isOpen = true ∧ pc.pending = call.pc.pending) : (call.goto pc).Sound w := by
  refine h.goto (fun wf hwf => ?_) hearly hpending
  rcases hworkflow with hnone | hsame
  · rw [hnone] at hwf
    exact absurd hwf (by simp)
  · exact h.workflow wf (hsame ▸ hwf)

/-- `create_task` has returned. -/
theorem Sound.insert (h : call.Sound w) {wf : WorkflowRow} {launch : Launch}
    {rest : List (Option Launch)} (hpc : call.pc = .launch wf (some launch :: rest))
    (taskId : Uuid) (n : ℤ) (now : ℚ) :
    Sound w { call with
      pc := .publish wf (launch.envelope wf.id taskId n now) rest
      inserted := call.inserted ++ [launch.row wf.id taskId n] } where
  workflow := by
    intro wf' hwf'
    exact h.workflow wf' (by rwa [hpc])
  early := fun hearly => absurd hearly (by simp [AdvancePc.isEarly])
  owned := by
    refine Indexed.forall_mem_append_singleton h.owned ?_
    rw [← (h.workflow wf (by rw [hpc]; rfl)).1]
    rfl
  announced := by
    obtain ⟨pending, hpending, hmatch⟩ := h.announced
    obtain rfl : pending = [] := by simpa [hpc, AdvancePc.pending, isOpen] using hpending
    rw [List.append_nil] at hmatch
    exact ⟨_, fun _ => rfl, List.rel_append hmatch (.cons ⟨now, rfl⟩ .nil)⟩

/-- The pending envelope is on the broker. -/
theorem Sound.publish (h : call.Sound w) {wf : WorkflowRow} {envelope : TaskEnvelope}
    {rest : List (Option Launch)} (hpc : call.pc = .publish wf envelope rest) {pc : AdvancePc}
    (hworkflow : pc.workflow = none ∨ pc.workflow = some wf) (hearly : pc.isEarly = false)
    (hpending : pc.pending = []) :
    Sound w { call with pc := pc, published := call.published ++ [envelope] } where
  workflow := by
    intro wf' hwf'
    refine h.workflow wf' ?_
    rcases hworkflow with hnone | hsome
    · rw [hnone] at hwf'
      exact absurd hwf' (by simp)
    · rw [hpc]
      exact hsome.symm.trans hwf'
  early := fun hpc' => absurd hpc' (by simp [hearly])
  owned := h.owned
  announced := by
    obtain ⟨rest', hrest, hmatch⟩ := h.announced
    obtain rfl : rest' = [envelope] := by simpa [hpc, AdvancePc.pending, isOpen] using hrest
    exact ⟨[], fun _ => hpending.symm, by rwa [List.append_nil]⟩

/-- What has been published was made for rows that were inserted. -/
theorem Sound.exists_row (h : call.Sound w) {envelope : TaskEnvelope}
    (hmem : envelope ∈ call.published) :
    ∃ row ∈ call.inserted, envelope.taskId = row.id := by
  obtain ⟨rest, -, hmatch⟩ := h.announced
  obtain ⟨row, hrow, now, rfl⟩ :=
    Indexed.exists_of_mem_right hmatch (List.mem_append_left rest hmem)
  exact ⟨row, hrow, rfl⟩

end AdvanceCall

namespace Calls

variable {s s' : Calls}

/-- The ids of the committed rows. -/
def rowIds (s : Calls) : List Uuid := s.world.stores.db.tasks.map TaskRow.id

/-- Two calls have inserted rows with different ids. -/
def SeparateRows (call other : AdvanceCall) : Prop :=
  ∀ row ∈ call.inserted, ∀ row' ∈ other.inserted, row.id ≠ row'.id

theorem SeparateRows.symm (call other : AdvanceCall) (h : SeparateRows call other) :
    SeparateRows other call :=
  fun row hrow row' hrow' => (h row' hrow' row hrow).symm

/-- What holds of the calls and the stores in every run. -/
structure Inv (s : Calls) : Prop where
  calls : ∀ call ∈ s.calls, call.Sound s.world
  uncommitted : ∀ call ∈ s.calls, call.pc ≠ .ended true → ∀ row ∈ call.inserted, row.id ∉ s.rowIds
  committed : ∀ call ∈ s.calls, call.pc = .ended true → ∀ row ∈ call.inserted, row.id ∈ s.rowIds
  apart : Indexed.Apart SeparateRows s.calls
  published : ∀ envelope, envelope ∈ s.stream ↔ ∃ call ∈ s.calls, envelope ∈ call.published

theorem inv_empty : Inv .empty where
  calls := fun _ hcall => absurd hcall List.not_mem_nil
  uncommitted := fun _ hcall => absurd hcall List.not_mem_nil
  committed := fun _ hcall => absurd hcall List.not_mem_nil
  apart := .nil
  published := by simp [stream, empty, World.empty, Redis.empty]

/-- Steps of others leave the calls, the ids and the entries alone. -/
theorem Inv.frame (h : s.Inv) (hcalls : s'.calls = s.calls) (hids : s'.rowIds = s.rowIds)
    (hkeeps : s.world.KeepsSteps s'.world) (hstream : s'.stream = s.stream) : s'.Inv where
  calls := by
    rw [hcalls]
    exact fun call hcall => (h.calls call hcall).mono hkeeps
  uncommitted := by
    rw [hcalls, hids]
    exact h.uncommitted
  committed := by
    rw [hcalls, hids]
    exact h.committed
  apart := by
    rw [hcalls]
    exact h.apart
  published := by
    rw [hcalls, hstream]
    exact h.published

theorem Inv.began (h : s.Inv) (workflowId : Uuid) :
    Inv { s with calls := s.calls ++ [{ workflowId := workflowId }] } where
  calls := Indexed.forall_mem_append_singleton h.calls (.begin s.world workflowId)
  uncommitted := Indexed.forall_mem_append_singleton h.uncommitted (by simp)
  committed := Indexed.forall_mem_append_singleton h.committed (by simp)
  apart := h.apart.append_singleton SeparateRows.symm fun other _ row hrow =>
    absurd hrow List.not_mem_nil
  published := by
    intro envelope
    simp [stream, ← h.published envelope]

section Answer

variable {i : ℕ} {call call' : AdvanceCall} {w' : World}

theorem Inv.mem_stream_iff (h : s.Inv) (hcall : s.calls[i]? = some call)
    (envelope : TaskEnvelope) :
    envelope ∈ s.stream ↔ envelope ∈ s.stream ∨ envelope ∈ call.published := by
  refine ⟨Or.inl, ?_⟩
  rintro (hmem | hmem)
  · exact hmem
  · exact (h.published envelope).mpr ⟨call, List.mem_of_getElem? hcall, hmem⟩

/-- One call changes. The rows it adds are new ones, and only its own rows are committed. -/
theorem Inv.set (h : s.Inv) (hcall : s.calls[i]? = some call)
    (hkeeps : s.world.KeepsSteps w') (hsound : call'.Sound w')
    (hnew : ∀ row ∈ call'.inserted, row ∈ call.inserted ∨
      row.id ∉ s.rowIds ∧ ∀ other ∈ s.waiting, other.id ≠ row.id)
    (hids : ∃ added, rowIds ⟨w', s.calls.set i call'⟩ = s.rowIds ++ added ∧
      ∀ id ∈ added, ∃ row ∈ call.inserted, row.id = id)
    (huncommitted : call'.pc ≠ .ended true →
      rowIds ⟨w', s.calls.set i call'⟩ = s.rowIds ∧ call.pc ≠ .ended true)
    (hcommitted : call'.pc = .ended true → ∀ row ∈ call'.inserted,
      row.id ∈ rowIds ⟨w', s.calls.set i call'⟩)
    (hpublished : call.published ⊆ call'.published)
    (hstream : ∀ envelope, envelope ∈ stream ⟨w', s.calls.set i call'⟩ ↔
      envelope ∈ s.stream ∨ envelope ∈ call'.published) :
    Inv ⟨w', s.calls.set i call'⟩ where
  calls := Indexed.forall_mem_set (fun other hother => (h.calls other hother).mono hkeeps) hsound
  uncommitted := by
    refine Indexed.forall_mem_set_of_ne (fun j other hne hother hpc row hrow hmem => ?_)
      fun hpc row hrow hmem => ?_
    · -- another call: what is added to the table are rows of this one
      obtain ⟨added, hadded, hown⟩ := hids
      rw [hadded, List.mem_append] at hmem
      rcases hmem with hold | hadd
      · exact h.uncommitted other (List.mem_of_getElem? hother) hpc row hrow hold
      · obtain ⟨row', hrow', hsame⟩ := hown _ hadd
        exact h.apart hcall hother hne.symm row' hrow' row hrow hsame
    · obtain ⟨hsame, hopen⟩ := huncommitted hpc
      rw [hsame] at hmem
      rcases hnew row hrow with hold | ⟨hfresh, -⟩
      · exact h.uncommitted call (List.mem_of_getElem? hcall) hopen row hold hmem
      · exact hfresh hmem
  committed := by
    refine Indexed.forall_mem_set (fun other hother hpc row hrow => ?_) hcommitted
    obtain ⟨added, hadded, -⟩ := hids
    rw [hadded]
    exact List.mem_append_left _ (h.committed other hother hpc row hrow)
  apart := by
    refine h.apart.set SeparateRows.symm fun j other hne hother row hrow row' hrow' => ?_
    rcases hnew row hrow with hold | ⟨-, hwaiting⟩
    · exact h.apart hcall hother hne.symm row hold row' hrow'
    · -- the insertion waits for the other transactions, so a new id is none of theirs
      exact (hwaiting row'
        (List.mem_flatMap.mpr ⟨other, List.mem_of_getElem? hother, hrow'⟩)).symm
  published := by
    intro envelope
    have hself : call' ∈ s.calls.set i call' :=
      List.mem_of_getElem? (Indexed.getElem?_set_of_eq hcall)
    rw [hstream envelope, h.published envelope]
    constructor
    · rintro (hold | hown)
      · exact Indexed.exists_mem_set hcall (fun hmem => hpublished hmem) hold
      · exact ⟨call', hself, hown⟩
    · rintro ⟨other, hother, hmem⟩
      rcases List.mem_or_eq_of_mem_set hother with hold | rfl
      · exact Or.inl ⟨other, hold, hmem⟩
      · exact Or.inr hmem

/-- The call only goes on, or ends with nothing to commit. -/
theorem Inv.goto (h : s.Inv) (hcall : s.calls[i]? = some call) {pc : AdvancePc}
    (hkeeps : s.world.KeepsSteps w') (hstores : w'.stores = s.world.stores)
    (hsound : (call.goto pc).Sound w') (hopen : call.pc ≠ .ended true)
    (hcommitted : pc = .ended true → call.inserted = []) :
    Inv ⟨w', s.calls.set i (call.goto pc)⟩ := by
  have hsame : rowIds ⟨w', s.calls.set i (call.goto pc)⟩ = s.rowIds := by
    simp [rowIds, hstores]
  refine h.set hcall hkeeps hsound (fun row hrow => Or.inl hrow) ⟨[], by simp [hsame], by simp⟩
    (fun _ => ⟨hsame, hopen⟩) (fun hpc row hrow => ?_) (List.Subset.refl _) fun envelope => ?_
  · have hrow : row ∈ call.inserted := hrow
    rw [hcommitted hpc] at hrow
    exact absurd hrow List.not_mem_nil
  · have hkept : stream ⟨w', s.calls.set i (call.goto pc)⟩ = s.stream := by simp [stream, hstores]
    rw [hkept]
    exact h.mem_stream_iff hcall envelope

/-- The pending envelope is put on the broker. -/
theorem Inv.publish (h : s.Inv) (hcall : s.calls[i]? = some call) {wf : WorkflowRow}
    {envelope : TaskEnvelope} {rest : List (Option Launch)}
    (hpc : call.pc = .publish wf envelope rest) {pc : AdvancePc}
    (hworkflow : pc.workflow = none ∨ pc.workflow = some wf) (hearly : pc.isEarly = false)
    (hpending : pc.pending = []) (hopen : pc ≠ .ended true) :
    Inv ⟨{ s.world with stores := { s.world.stores with
        redis := s.world.stores.redis.modifyQueue "default" fun q => q.publish envelope } },
      s.calls.set i { call with pc := pc, published := call.published ++ [envelope] }⟩ := by
  have hkeeps : s.world.KeepsSteps { s.world with stores := { s.world.stores with
      redis := s.world.stores.redis.modifyQueue "default" fun q => q.publish envelope } } :=
    .of_workflows_eq rfl
  have hsound := h.calls call (List.mem_of_getElem? hcall)
  refine h.set hcall hkeeps ((hsound.publish hpc hworkflow hearly hpending).mono hkeeps)
    (fun row hrow => Or.inl hrow) ⟨[], (List.append_nil _).symm, by simp⟩
    (fun _ => ⟨rfl, by simp [hpc]⟩) (fun hended => absurd hended hopen)
    (List.subset_append_left _ _) fun envelope' => ?_
  have hstream : envelope' ∈ s.stream ++ [envelope] ↔
      envelope' ∈ s.stream ∨ envelope' ∈ call.published ++ [envelope] := by
    have hold := h.mem_stream_iff hcall envelope'
    simp only [List.mem_append]
    tauto
  simpa [stream, QueueState.publish] using hstream

/-- The transaction commits: its rows are in the table. -/
theorem Inv.commit (h : s.Inv) (hcall : s.calls[i]? = some call) :
    Inv ⟨{ s.world with stores := { s.world.stores with
        db := { s.world.stores.db with
          tasks := s.world.stores.db.tasks ++ call.inserted } } },
      s.calls.set i (call.goto (.ended true))⟩ := by
  have hkeeps : s.world.KeepsSteps { s.world with stores := { s.world.stores with
      db := { s.world.stores.db with
        tasks := s.world.stores.db.tasks ++ call.inserted } } } := .of_workflows_eq rfl
  have hsound := h.calls call (List.mem_of_getElem? hcall)
  have hended : (call.goto (.ended true)).Sound s.world := by
    refine hsound.goto_of_workflow (Or.inl rfl) ?_ ?_
    · simp [AdvancePc.isEarly]
    · simp [AdvanceCall.goto, AdvanceCall.isOpen]
  refine h.set hcall hkeeps (hended.mono hkeeps) (fun row hrow => Or.inl hrow)
    ⟨call.inserted.map TaskRow.id, by simp [rowIds], ?_⟩ (fun hpc' => absurd rfl hpc') ?_
    (List.Subset.refl _) fun envelope => ?_
  · intro id hid
    exact List.mem_map.mp hid
  · intro _ row hrow
    simp only [rowIds, List.map_append, List.mem_append]
    exact Or.inr (List.mem_map_of_mem hrow)
  · exact h.mem_stream_iff hcall envelope

/-- A call is answered. -/
theorem Inv.answer (h : s.Inv) (hcall : s.calls[i]? = some call)
    (hmove : call.Move s.world s.waiting w' call') : Inv ⟨w', s.calls.set i call'⟩ := by
  have hsound := h.calls call (List.mem_of_getElem? hcall)
  cases hmove with
  | found wf hpc hfind _ =>
    refine h.goto hcall (.of_workflows_eq rfl) rfl (hsound.goto ?_ ?_ ?_) (by simp [hpc]) (by simp)
    · intro wf' hwf'
      obtain rfl : wf = wf' := Option.some.inj hwf'
      exact ⟨(World.mem_of_findWorkflow hfind).2, wf, hfind, rfl⟩
    · simp [hpc, AdvancePc.isEarly]
    · simp [hpc, AdvancePc.pending, AdvanceCall.isOpen]
  | read wf rows hpc _ =>
    refine h.goto hcall (.of_workflows_eq rfl) rfl (hsound.goto_of_workflow ?_ ?_ ?_)
      (by simp [hpc]) (by simp)
    · simp [hpc, AdvancePc.workflow]
    · simp [hpc, AdvancePc.isEarly]
    · simp [hpc, AdvancePc.pending, AdvanceCall.isOpen]
  | collected wf rows row left c hpc =>
    refine h.goto hcall (.of_workflows_eq rfl) rfl (hsound.goto_of_workflow ?_ ?_ ?_)
      (by simp [hpc]) (by simp)
    · simp [hpc, AdvancePc.workflow]
    · simp [hpc, AdvancePc.isEarly]
    · simp [hpc, AdvancePc.pending, AdvanceCall.isOpen]
  | decided wf rows c hpc =>
    -- whatever is decided, nothing is pending yet and the call keeps the row it has read
    have hpending : (AdvanceCall.decision wf rows c).pending = [] := by
      unfold AdvanceCall.decision
      split_ifs <;> rfl
    have hworkflow : (AdvanceCall.decision wf rows c).workflow = some wf := by
      unfold AdvanceCall.decision
      split_ifs <;> rfl
    refine h.goto hcall (.of_workflows_eq rfl) rfl (hsound.goto_of_workflow ?_ ?_ ?_)
      (by simp [hpc]) (fun hended => ?_)
    · exact Or.inr (by rw [hworkflow, hpc]; rfl)
    · simp [hpc, AdvancePc.isEarly]
    · exact fun _ => ⟨by simp [AdvanceCall.isOpen, hpc], by rw [hpending, hpc]; rfl⟩
    · rw [hended] at hworkflow
      exact absurd hworkflow (by simp [AdvancePc.workflow])
  | finished wf state hpc =>
    refine h.goto hcall (World.keepsSteps_setWorkflowState _ _ _) rfl
      ((hsound.goto_of_workflow (Or.inl rfl) ?_ ?_).mono (World.keepsSteps_setWorkflowState _ _ _))
      (by simp [hpc]) fun _ => (hsound.early (by simp [hpc, AdvancePc.isEarly])).1
    · simp [AdvancePc.isEarly]
    · simp [AdvanceCall.goto, AdvanceCall.isOpen]
  | committed wf hpc => exact h.commit hcall
  | inserted wf launch rest taskId n now hpc _ hinsert hwaiting =>
    -- the row is in the transaction only: the table and the queue are as before
    refine h.set hcall (.of_workflows_eq rfl) (hsound.insert hpc taskId n now) ?_
      ⟨[], (List.append_nil _).symm, by simp⟩ (fun _ => ⟨rfl, by simp [hpc]⟩) (by simp)
      (List.Subset.refl _) fun envelope => ?_
    · refine Indexed.forall_mem_append_singleton (fun row hrow => Or.inl hrow)
        (Or.inr ⟨fun hmem => ?_, hwaiting⟩)
      obtain ⟨other, hother, hsame⟩ := List.mem_map.mp hmem
      exact (hinsert.2 other hother).1 hsame
    · exact h.mem_stream_iff hcall envelope
  | published wf envelope rest hpc => exact h.publish hcall hpc (Or.inr rfl) rfl rfl (by simp)
  | lost wf envelope rest hpc => exact h.publish hcall hpc (Or.inl rfl) rfl rfl (by simp)
  | aborted hopen =>
    refine h.goto hcall (.of_workflows_eq rfl) rfl (hsound.goto_of_workflow (Or.inl rfl) ?_ ?_)
      ?_ (by simp)
    · simp [AdvancePc.isEarly]
    · simp [AdvanceCall.goto, AdvanceCall.isOpen]
    · intro hended
      simp [AdvanceCall.isOpen, hended] at hopen

end Answer

theorem rowIds_of_progress {w' : World} (h : s.world.Progress w') :
    rowIds { s with world := w' } = s.rowIds := by
  obtain ⟨-, taskId, state, attempt, row, -, -, htasks⟩ := h
  simp [rowIds, htasks, Function.comp_def]

@[simp] theorem queue_withQueue (q : QueueState) : (s.withQueue q).queue = q := by
  simp [queue, withQueue]

@[simp] theorem stream_withQueue (q : QueueState) : (s.withQueue q).stream = q.stream :=
  congrArg QueueState.stream (queue_withQueue q)

theorem Inv.step {a : Act} (h : s.Inv) (hstep : s.step a = some s') : s'.Inv := by
  cases moves_of_step hstep with
  | refused => exact h
  | created _ => exact h.frame rfl rfl (World.keepsSteps_withWorkflow _ _) rfl
  | began => exact h.began _
  | answered hcall hanswer => exact h.answer hcall (AdvanceCall.move_of_answer hanswer)
  | delivered _ => exact h.frame rfl rfl (.of_workflows_eq rfl) (stream_withQueue _)
  | adopted _ => exact h.frame rfl rfl (.of_workflows_eq rfl) (stream_withQueue _)
  | progressed _ hprogress hredis =>
    exact h.frame rfl (rowIds_of_progress hprogress) (.of_workflows_eq hprogress.workflows)
      (by simp [stream, hredis])

/-- The invariant holds in every run. -/
theorem inv_of_reaches {P : Calls → Act → Prop} (h : ReachesWhen Calls.step P .empty s) : s.Inv :=
  h.invariant (fun _ _ _ hinv _ => hinv.step) inv_empty

/-! ### Workers and rows -/

/-- A worker has been handed the envelope, by its poll or by its reclaim loop. -/
def HandedOut (s : Calls) (envelope : TaskEnvelope) : Prop :=
  ∃ k, s.stream[k]? = some envelope ∧ (k < s.queue.delivered ∨ ∃ p ∈ s.queue.pending, p.id = k)

/-- Workers have only been handed tasks whose rows are committed, and a call that has ended without
its commit has left no envelope. -/
structure Backed (s : Calls) : Prop where
  rows : ∀ envelope, s.HandedOut envelope → envelope.taskId ∈ s.rowIds
  left : ∀ call ∈ s.calls, call.pc = .ended false → ∀ envelope ∈ call.published,
    envelope ∉ s.stream

/-- A poll comes when the call that published the next entry has ended, and no call ends without its
commit after it has published. -/
def Careful (s : Calls) : Act → Prop
  | .deliver _ => ∀ envelope, s.stream[s.queue.delivered]? = some envelope →
      ∀ call ∈ s.calls, envelope ∈ call.published → call.isOpen = false
  | .call i _ _ reply =>
    ∀ call, s.calls[i]? = some call → ¬ (call.Aborts reply ∧ call.publishedAfter reply ≠ [])
  | _ => True

/-- What careful runs keep. -/
structure CarefulInv (s : Calls) : Prop where
  inv : s.Inv
  delivered_le : s.queue.delivered ≤ s.stream.length
  pending_lt : ∀ p ∈ s.queue.pending, p.id < s.queue.delivered
  rows : ∀ k envelope, k < s.queue.delivered → s.stream[k]? = some envelope →
    envelope.taskId ∈ s.rowIds
  left : ∀ call ∈ s.calls, call.pc = .ended false → call.published = []

theorem CarefulInv.backed (h : s.CarefulInv) : s.Backed where
  rows := by
    rintro envelope ⟨k, hk, hlt | ⟨p, hp, rfl⟩⟩
    · exact h.rows k envelope hlt hk
    · exact h.rows p.id envelope (h.pending_lt p hp) hk
  left := by
    intro call hcall hended envelope hmem
    rw [h.left call hcall hended] at hmem
    exact absurd hmem List.not_mem_nil

/-- The queue only grows at its end, and rows are only added. -/
theorem CarefulInv.grow (h : s.CarefulInv) (hinv : s'.Inv) (envelopes : List TaskEnvelope)
    (hqueue : s'.queue = { s.queue with stream := s.stream ++ envelopes })
    (hids : s.rowIds ⊆ s'.rowIds)
    (hleft : ∀ call ∈ s'.calls, call.pc = .ended false → call.published = []) :
    s'.CarefulInv := by
  have hstream : s'.stream = s.stream ++ envelopes := congrArg QueueState.stream hqueue
  refine ⟨hinv, ?_, ?_, ?_, hleft⟩
  · rw [hstream, hqueue, List.length_append]
    exact Nat.le_add_right_of_le h.delivered_le
  · rw [hqueue]
    exact h.pending_lt
  · intro k envelope hk hget
    rw [hqueue] at hk
    rw [hstream, List.getElem?_append_left (hk.trans_le h.delivered_le)] at hget
    exact hids (h.rows k envelope hk hget)

/-- An answer adds entries to the queue and rows to the table, and changes nothing else of them. -/
theorem grow_of_move {i : ℕ} {call call' : AdvanceCall} {w' : World}
    (h : call.Move s.world s.waiting w' call') :
    ∃ envelopes, queue ⟨w', s.calls.set i call'⟩ =
        { s.queue with stream := s.stream ++ envelopes } ∧
      s.rowIds ⊆ rowIds ⟨w', s.calls.set i call'⟩ := by
  have hsame : s.queue = { s.queue with stream := s.stream ++ [] } := by
    rw [List.append_nil]
    rfl
  cases h with
  | published _ envelope _ _ | lost _ envelope _ _ =>
    exact ⟨[envelope], by simp [queue, stream, QueueState.publish], List.Subset.refl _⟩
  | committed _ _ =>
    refine ⟨[], hsame, ?_⟩
    simp [rowIds]
  | found | read | collected | decided | finished | inserted | aborted =>
    exact ⟨[], hsame, List.Subset.refl _⟩

theorem CarefulInv.frame (h : s.CarefulInv) (hinv : s'.Inv) (hqueue : s'.queue = s.queue)
    (hids : s'.rowIds = s.rowIds)
    (hleft : ∀ call ∈ s'.calls, call.pc = .ended false → call.published = []) :
    s'.CarefulInv := by
  refine h.grow hinv [] ?_ (fun id hid => hids ▸ hid) hleft
  rw [hqueue, List.append_nil]
  rfl

/-- The next entry was published by a call that has committed, once all that published it have
ended. -/
theorem CarefulInv.row_of_next (h : s.CarefulInv) {envelope : TaskEnvelope}
    (hmem : envelope ∈ s.stream)
    (hclosed : ∀ call ∈ s.calls, envelope ∈ call.published → call.isOpen = false) :
    envelope.taskId ∈ s.rowIds := by
  obtain ⟨call, hcall, hpublished⟩ := (h.inv.published envelope).mp hmem
  obtain ⟨row, hrow, hid⟩ := (h.inv.calls call hcall).exists_row hpublished
  rw [hid]
  refine h.inv.committed call hcall ?_ row hrow
  have hended := hclosed call hcall hpublished
  unfold AdvanceCall.isOpen at hended
  split at hended
  · next committed hpc =>
    cases committed with
    | true => exact hpc
    | false =>
      rw [h.left call hcall hpc] at hpublished
      exact absurd hpublished List.not_mem_nil
  · exact absurd hended (by simp)

theorem CarefulInv.step {a : Act} (h : s.CarefulInv) (hcareful : s.Careful a)
    (hstep : s.step a = some s') : s'.CarefulInv := by
  have hinv := h.inv.step hstep
  cases moves_of_step hstep with
  | refused => exact h
  | created _ => exact h.frame hinv rfl rfl h.left
  | began => exact h.frame hinv rfl rfl (Indexed.forall_mem_append_singleton h.left (by simp))
  | answered hcall hanswer =>
    obtain ⟨envelopes, hqueue, hids⟩ := grow_of_move (AdvanceCall.move_of_answer hanswer)
    refine h.grow hinv envelopes hqueue hids (Indexed.forall_mem_set h.left fun hended => ?_)
    rw [AdvanceCall.published_of_answer hanswer]
    -- a call ends uncommitted at its first statement, with nothing published, or by aborting
    rcases AdvanceCall.aborts_of_answer hanswer hended with hpc | haborts
    · have hearly := (h.inv.calls _ (List.mem_of_getElem? hcall)).early (by rw [hpc]; rfl)
      simp [AdvanceCall.publishedAfter, hearly.2, hpc, AdvancePc.pending]
    · by_contra hne
      exact hcareful _ hcall ⟨haborts, hne⟩
  | @delivered workerId envelope hnext =>
    have hlt : s.queue.delivered < s.stream.length := (List.getElem?_eq_some_iff.mp hnext).1
    refine ⟨hinv, ?_, ?_, ?_, h.left⟩
    · rw [queue_withQueue, stream_withQueue]
      exact hlt
    · rw [queue_withQueue]
      refine Indexed.forall_mem_append_singleton (fun p hp => ?_) (Nat.lt_succ_self _)
      exact (h.pending_lt p hp).trans (Nat.lt_succ_self _)
    · intro k other hk hget
      rw [stream_withQueue] at hget
      rw [queue_withQueue] at hk
      rcases Nat.lt_succ_iff_lt_or_eq.mp hk with hold | rfl
      · exact h.rows k other hold hget
      · -- the entry just handed out: the condition says its row is in the table
        obtain rfl : envelope = other := Option.mem_unique hnext hget
        exact h.row_of_next (List.mem_of_getElem? hnext) (hcareful envelope hnext)
  | adopted hids =>
    refine ⟨hinv, ?_, ?_, ?_, h.left⟩
    · rw [queue_withQueue, stream_withQueue]
      exact h.delivered_le
    · rw [queue_withQueue]
      intro p hp
      have hid : p.id ∈ s.queue.pending.map Pending.id := hids ▸ List.mem_map_of_mem hp
      obtain ⟨old, hold, hsame⟩ := List.mem_map.mp hid
      rw [← hsame]
      exact h.pending_lt old hold
    · rw [queue_withQueue, stream_withQueue]
      exact h.rows
  | progressed _ hprogress hredis =>
    exact h.frame hinv (by simp [queue, hredis]) (rowIds_of_progress hprogress) h.left

theorem carefulInv_of_reaches (h : ReachesWhen Calls.step Careful .empty s) : s.CarefulInv := by
  refine h.invariant (fun _ _ _ hinv hcareful => hinv.step hcareful) ⟨inv_empty, ?_, ?_, ?_, ?_⟩
  · exact Nat.zero_le _
  · exact fun p hp => absurd hp List.not_mem_nil
  · exact fun k envelope hk _ => absurd hk (Nat.not_lt_zero k)
  · exact fun call hcall => absurd hcall List.not_mem_nil

/-- A worker is handed the next entry while a call that published it is in progress: the row is not
in the table. -/
theorem Inv.careful_of_deliver (h : s.Inv) {workerId : String}
    (hstep : s.step (.deliver workerId) = some s') (hbacked : s'.Backed) :
    s.Careful (.deliver workerId) := by
  intro envelope hnext call hcall hpublished
  by_contra hopen
  obtain ⟨row, hrow, hid⟩ := (h.calls call hcall).exists_row hpublished
  refine h.uncommitted call hcall (fun hpc => hopen ?_) row hrow ?_
  · rw [AdvanceCall.isOpen, hpc]
  · rw [← hid]
    cases moves_of_step hstep with
    | delivered _ =>
      refine hbacked.rows envelope ⟨s.queue.delivered, ?_, Or.inl ?_⟩
      · rw [stream_withQueue]
        exact hnext
      · rw [queue_withQueue]
        exact Nat.lt_succ_self _
    | progressed hact => exact absurd hact (by simp [Act.isProgress])

/-- A call ends without its commit after it has published: the envelope is left in the queue. -/
theorem Inv.careful_of_call (h : s.Inv) {i : ℕ} {rows : List TaskRow} {taskId : Uuid}
    {reply : Reply} (hstep : s.step (.call i rows taskId reply) = some s') (hbacked : s'.Backed) :
    s.Careful (.call i rows taskId reply) := by
  have hinv := h.step hstep
  rintro call hcall ⟨haborts, hpublished⟩
  cases moves_of_step hstep with
  | @answered _ _ _ _ _ call' _ hcall' hanswer =>
    obtain rfl := Option.mem_unique hcall hcall'
    have hended := AdvanceCall.ended_of_aborts hanswer haborts
    rw [← AdvanceCall.published_of_answer hanswer] at hpublished
    obtain ⟨envelope, hmem⟩ := List.exists_mem_of_ne_nil _ hpublished
    have hself : call' ∈ s.calls.set i call' :=
      List.mem_of_getElem? (Indexed.getElem?_set_of_eq hcall)
    exact hbacked.left _ hself hended envelope hmem
      ((hinv.published envelope).mpr ⟨_, hself, hmem⟩)
  | progressed hact => exact absurd hact (by simp [Act.isProgress])

/-- **Rows before envelopes.** In every state of a careful run, workers have been handed only tasks
whose rows are committed, and calls that ended without their commit have left nothing behind. From
such a state, exactly the careful steps keep it so. -/
theorem backed_iff_careful (hrun : ReachesWhen Calls.step Careful .empty s) :
    s.Backed ∧ ∀ a s', s.step a = some s' → (s'.Backed ↔ s.Careful a) := by
  have h := carefulInv_of_reaches hrun
  refine ⟨h.backed, fun a s' hstep => ⟨fun hbacked => ?_, fun hcareful => ?_⟩⟩
  · cases a with
    | deliver workerId => exact h.inv.careful_of_deliver hstep hbacked
    | call i rows taskId reply => exact h.inv.careful_of_call hstep hbacked
    | create | begin | adopt | lease | succeed | die => trivial
  · exact (h.step hcareful hstep).backed

instance (call : AdvanceCall) (reply : Reply) : Decidable (call.Aborts reply) := by
  unfold AdvanceCall.Aborts
  split
  · split <;> infer_instance
  · split <;> infer_instance
  all_goals infer_instance

instance (s : Calls) (a : Act) : Decidable (s.Careful a) :=
  match a with
  | .deliver _ => inferInstanceAs (Decidable (∀ envelope ∈ s.stream[s.queue.delivered]?,
      ∀ call ∈ s.calls, envelope ∈ call.published → call.isOpen = false))
  | .call i _ _ reply => inferInstanceAs (Decidable (∀ call ∈ s.calls[i]?,
      ¬ (call.Aborts reply ∧ call.publishedAfter reply ≠ [])))
  | .create .. | .begin _ | .adopt .. | .lease _ | .succeed .. | .die _ =>
    inferInstanceAs (Decidable True)

/-- A workflow of one step is created, and a call on it comes as far as its publication. -/
def oneStepPublished : List Act :=
  [.create ⟨1⟩ "w" [⟨"a", "f", none, [], none, .absent⟩] ["a"], .begin ⟨1⟩,
    .call 0 [] ⟨0⟩ (.ok 0 0), .call 0 [] ⟨0⟩ (.ok 0 0), .call 0 [] ⟨0⟩ (.ok 0 0),
    .call 0 [] ⟨2⟩ (.ok 0 0), .call 0 [] ⟨0⟩ (.ok 0 0)]

/-- The theorem at a run in which the call commits and a worker polls after that; without the
commit the poll would not have been careful. -/
theorem backed_iff_careful_poll :
    (∃ s, ReachesWhen Calls.step Careful .empty s ∧ s.queue.delivered = 1 ∧ s.Backed) ∧
      ∃ s s', ReachesWhen Calls.step Careful .empty s ∧ s.step (.deliver "v") = some s' ∧
        ¬ s'.Backed := by
  constructor
  · obtain ⟨s, hrun, hdelivered⟩ := exists_reachesWhen_of_check Calls.step Careful .empty
      (oneStepPublished ++ [.call 0 [] ⟨0⟩ (.ok 0 0), .deliver "v"])
      (fun s => s.queue.delivered = 1) (by decide +kernel)
    exact ⟨s, hrun, hdelivered, (backed_iff_careful hrun).1⟩
  · obtain ⟨s, hrun, hsome, hcareful⟩ := exists_reachesWhen_of_check Calls.step Careful .empty
      oneStepPublished
      (fun s => (s.step (.deliver "v")).isSome = true ∧ ¬ s.Careful (.deliver "v"))
      (by decide +kernel)
    obtain ⟨s', hs'⟩ := Option.isSome_iff_exists.mp hsome
    exact ⟨s, s', hrun, hs', mt ((backed_iff_careful hrun).2 _ _ hs').mp hcareful⟩

/-- A worker is handed the envelope of a task before the call commits its row; and a call that dies
after its publication leaves an envelope without a row. -/
theorem envelope_without_row :
    (∃ s envelope, Reaches Calls.step .empty s ∧ s.HandedOut envelope ∧
      envelope.taskId ∉ s.rowIds) ∧
    ∃ s call envelope, Reaches Calls.step .empty s ∧ call ∈ s.calls ∧ call.pc = .ended false ∧
      envelope ∈ call.published ∧ envelope ∈ s.stream ∧ envelope.taskId ∉ s.rowIds := by
  let envelope : TaskEnvelope :=
    Launch.envelope ⟨⟨"a", "f", none, [], none, .absent⟩, "a", .obj []⟩ ⟨1⟩ ⟨2⟩ 5 0
  constructor
  · obtain ⟨s, hrun, hids, hstream, hdelivered⟩ := exists_run_of_check Calls.step .empty
      (oneStepPublished ++ [.deliver "v"])
      (fun s => s.rowIds = [] ∧ s.stream = [envelope] ∧ s.queue.delivered = 1) (by decide +kernel)
    exact ⟨s, envelope, .of_run hrun, ⟨0, by simp [hstream], Or.inl (by simp [hdelivered])⟩,
      by simp [hids]⟩
  · obtain ⟨s, hrun, hids, hstream, hcalls⟩ := exists_run_of_check Calls.step .empty
      (oneStepPublished ++ [.call 0 [] ⟨0⟩ .crash])
      (fun s => s.rowIds = [] ∧ s.stream = [envelope] ∧ ∃ call ∈ s.calls,
        call.isAborted = true ∧ envelope ∈ call.published) (by decide +kernel)
    obtain ⟨call, hcall, hended, hpublished⟩ := hcalls
    exact ⟨s, call, envelope, .of_run hrun, hcall, AdvanceCall.isAborted_iff.mp hended, hpublished,
      by simp [hstream], by simp [hids]⟩

end Calls

end Dtq
