import Dtq.System.Custody
import Dtq.System.TaskStates

/-!
# Whose effect it is

Tasks are told apart by their id, and deduplicated by queue and key; effects are told
apart by the key alone, or by the text of the task's id when there is no key. Two tasks of
different queues with the same key therefore share one effect, and the second one to
commit is told that its effect is already there.

As long as no two tasks that are created have the same effect key, every task that
succeeds has an effect of its own, and no effect of another task gets in its way.

## Main results

* `Sys.KeyInv` — effects belong to the tasks whose keys they carry
* `Sys.each_task_its_own_effect` — the guarantee, under distinct keys
* `Sys.effect_of_another_task` — two queues, one key, one effect
-/

set_option autoImplicit false

namespace Dtq

/-- The key under which an execution of the task commits its effect. -/
def TaskRow.effectKey (row : TaskRow) : String := TaskEnvelope.keyOr row.dedupKey row.id

namespace Job

variable {job job' : Job} {stores stores' : Stores} {locks : Locks}

/-- The code heads for success only from an execution on record. -/
theorem Moves.recorded_of_succeeds (h : job.Moves stores locks stores' job')
    (hsucc : job'.pc.Succeeds) : job.pc.Succeeds ∨ job.pc.Recorded := by
  cases h with
  | proceeds h =>
    cases h with
    | foundPresent _ _ hpc | committedEffect _ _ hpc =>
      exact Or.inr (by simp [hpc, Pc.Recorded])
    | committedNothing _ _ hpc => exact Or.inl (by simp [hpc, Pc.Succeeds])
    | released success _ hpc =>
      cases success with
      | true => exact Or.inl (by simp [hpc, Pc.Succeeds])
      | false => simp [returns, Pc.Succeeds] at hsucc
    | _ => simp [returns, goto, adopted, Pc.Succeeds] at hsucc
  | raisedAfter h hexc | failed hactive hexc => exact absurd hsucc hexc.not_succeeds
  | skippedPrior => simp [adopted, Pc.Succeeds] at hsucc
  | handlerEnded hpc hnext =>
    obtain ⟨r, rfl⟩ | ⟨type, text, rfl⟩ := hnext <;> simp [goto, Pc.Succeeds] at hsucc

end Job

namespace Sys

variable {s s' : Sys} {a : Action}

/-- A task is created only with an effect key that no other task has; nothing is
requeued. -/
def CreatesFreshKeys (s : Sys) (a : Action) : Prop :=
  match a with
  | .requeue _ _ => False
  | .postStep i reply => reply.applied = true → ∀ post ∈ s.posts[i]?, post.pc = .commit →
      ∀ row ∈ s.db.tasks, row.effectKey ≠ TaskEnvelope.keyOr post.req.dedupKey post.taskId
  | _ => True

instance (s : Sys) : DecidablePred (CreatesFreshKeys s)
  | .requeue _ _ => isFalse id
  | .postStep i reply => inferInstanceAs (Decidable (reply.applied = true →
      ∀ post ∈ s.posts[i]?, post.pc = .commit →
        ∀ row ∈ s.db.tasks, row.effectKey ≠ TaskEnvelope.keyOr post.req.dedupKey post.taskId))
  | .cancel _ | .post _ _ | .jobStep _ _ | .produce _ _ _ | .requeueStep _ _
  | .deliver _ _ _ | .adopt _ _ _ _ | .handler _ _ | .heartbeat _ | .promote _ _ | .expire _ =>
    isTrue trivial

theorem withoutRequeue_of_createsFreshKeys (h : CreatesFreshKeys s a) : WithoutRequeue s a := by
  cases a <;> first | rfl | exact h.elim

/-- Effects belong to the tasks whose keys they carry. -/
structure KeyInv (s : Sys) : Prop where
  distinct : ∀ task ∈ s.db.tasks, ∀ task' ∈ s.db.tasks,
    task.effectKey = task'.effectKey → task.id = task'.id
  effects : ∀ row ∈ s.db.effects, ∃ task ∈ s.db.tasks,
    task.id = row.taskId ∧ task.effectKey = row.dedupKey
  succeeds : ∀ job ∈ s.jobs, job.pc.Succeeds → s.HasTask job.envelope.taskId
  returned : ∀ job ∈ s.jobs, ∀ text, job.returned = some (true, text) →
    s.HasTask job.envelope.taskId

/-- The row of a job's task has the job's key: both go back to the same request. -/
theorem effectKey_eq_key (hcustody : s.CustodyInv) (hbooks : s.EnqueueInv) {job : Job}
    (hjob : job ∈ s.jobs) {task : TaskRow} (htask : task ∈ s.db.tasks)
    (hid : task.id = job.envelope.taskId) : task.effectKey = job.key := by
  -- job, stream entry, producer's envelope, request, row
  obtain ⟨-, x, hx, hxjob⟩ := hcustody.jobs job hjob
  obtain ⟨e, he, hsame⟩ := hcustody.origin job.queue x (Or.inl (List.mem_of_getElem? hx))
  have hejob : e.SameTask job.envelope := hsame.trans hxjob
  obtain ⟨post, hpost, -, hpostId, hcore⟩ := hbooks.exists_post htask
  obtain ⟨-, now, henvelope⟩ := hbooks.sent _ he post hpost
    (hpostId.trans (hid.trans hejob.taskId_eq.symm))
  have hkey : task.core.effectKey = (post.req.row post.taskId).core.effectKey := by rw [hcore]
  calc task.effectKey = (post.req.row post.taskId).effectKey := hkey
    _ = (post.req.envelope post.taskId now).effectKey := rfl
    _ = e.effectKey := by rw [← henvelope]
    _ = job.key := hejob.effectKey_eq

/-- A row under a job's key belongs to the job's task. -/
theorem KeyInv.own (h : s.KeyInv) (hcustody : s.CustodyInv) (hbooks : s.EnqueueInv) {job : Job}
    (hjob : job ∈ s.jobs) (htask : s.HasTask job.envelope.taskId) {row : EffectRow}
    (hrow : row ∈ s.db.effects) (hkey : row.dedupKey = job.key) :
    row.taskId = job.envelope.taskId := by
  obtain ⟨task, htask, hid⟩ := htask
  obtain ⟨owner, howner, hownerId, hownerKey⟩ := h.effects row hrow
  have hsame : owner.effectKey = task.effectKey := by
    rw [hownerKey, hkey, effectKey_eq_key hcustody hbooks hjob htask hid]
  rw [← hownerId, ← hid]
  exact h.distinct owner howner task htask hsame

/-- A row keeps its id and its effect key. -/
theorem Moves.row_kept (h : s.Moves a s') {task : TaskRow} (htask : task ∈ s.db.tasks) :
    ∃ task' ∈ s'.db.tasks, task'.id = task.id ∧ task'.effectKey = task.effectKey := by
  rcases h.rows_cases with hcore | ⟨i, reply, post, -, -, -, -, happend⟩
  · have hmem : task.core ∈ s'.db.tasks.map TaskRow.core := hcore ▸ List.mem_map_of_mem htask
    obtain ⟨task', htask', heq⟩ := List.mem_map.mp hmem
    have hid : task'.core.id = task.core.id := by rw [heq]
    have hkey : task'.core.effectKey = task.core.effectKey := by rw [heq]
    exact ⟨task', htask', hid, hkey⟩
  · exact ⟨task, happend ▸ List.mem_append_left _ htask, rfl, rfl⟩

/-- Tasks keep their keys apart when every new one brings a key of its own. -/
theorem KeyInv.distinct_step (h : s.KeyInv) (ha : CreatesFreshKeys s a) (hmoves : s.Moves a s') :
    ∀ task ∈ s'.db.tasks, ∀ task' ∈ s'.db.tasks,
      task.effectKey = task'.effectKey → task.id = task'.id := by
  rcases hmoves.rows_cases with hcore | ⟨i, reply, post, rfl, happlied, hpost, hpc, happend⟩
  · -- both rows were there, with the same ids and keys
    have hrows := Db.forall_core hcore (P := fun core => ∀ task' ∈ s'.db.tasks,
      core.effectKey = task'.effectKey → core.id = task'.id)
    apply hrows
    intro task htask
    apply Db.forall_core hcore (P := fun core => task.effectKey = core.effectKey →
      task.id = core.id)
    exact h.distinct task htask
  · -- the row that has just been committed has a key of its own
    have hnew := ha happlied post hpost hpc
    rw [happend]
    intro task htask task' htask' hsame
    rcases List.mem_append.mp htask with hold | hlast
    · rcases List.mem_append.mp htask' with hold' | hlast'
      · exact h.distinct task hold task' hold' hsame
      · rw [List.mem_singleton.mp hlast'] at hsame
        exact absurd hsame (hnew task hold)
    · rw [List.mem_singleton.mp hlast] at hsame ⊢
      rcases List.mem_append.mp htask' with hold' | hlast'
      · exact absurd hsame.symm (hnew task' hold')
      · rw [List.mem_singleton.mp hlast']

theorem KeyInv.step (h : s.KeyInv) (hcustody : s.CustodyInv) (hbooks : s.EnqueueInv)
    (htasks : s.TaskInv) (ha : CreatesFreshKeys s a) (hstep : s.step a = some s') :
    s'.KeyInv := by
  have hmoves := moves_of_step hstep
  have hkeep : ∀ taskId, s.HasTask taskId → s'.HasTask taskId := fun _ => hmoves.hasTask
  have heffects : ∀ row ∈ s.db.effects, ∃ task ∈ s'.db.tasks,
      task.id = row.taskId ∧ task.effectKey = row.dedupKey := by
    intro row hmem
    obtain ⟨task, htask, hid, hkey⟩ := h.effects row hmem
    obtain ⟨task', htask', hid', hkey'⟩ := hmoves.row_kept htask
    exact ⟨task', htask', hid'.trans hid, hkey'.trans hkey⟩
  have hsucceeds : ∀ job ∈ s.jobs, job.pc.Succeeds → s'.HasTask job.envelope.taskId :=
    fun job hjob hsucc => hkeep _ (h.succeeds job hjob hsucc)
  have hreturned : ∀ job ∈ s.jobs, ∀ text, job.returned = some (true, text) →
      s'.HasTask job.envelope.taskId :=
    fun job hjob text hret => hkeep _ (h.returned job hjob text hret)
  have hdistinct := h.distinct_step ha hmoves
  rcases hmoves.worker_cases with
    ⟨i, job, job', stores', -, hjob, hmove, rfl⟩ | ⟨job, hnew, hjobs, hdb, -⟩ |
      ⟨hjobs, hsame, -, -⟩
  · have hmem := List.mem_of_getElem? hjob
    refine ⟨hdistinct, ?_, ?_, ?_⟩
    · intro row hrowMem
      rcases hmove.mem_effects_cases hrowMem with hold | ⟨result, hpc, -, rfl⟩
      · exact heffects row hold
      · -- the committing job's own task
        obtain ⟨task, htask, hid⟩ := htasks.recorded job hmem (by simp [hpc, Pc.Recorded])
        have hkey := effectKey_eq_key hcustody hbooks hmem htask hid
        obtain ⟨task', htask', hid', hkey'⟩ := hmoves.row_kept htask
        exact ⟨task', htask', hid'.trans hid, hkey'.trans hkey⟩
    · apply Indexed.forall_mem_set hsucceeds
      intro hsucc
      rw [hmove.taskId_eq]
      rcases hmove.recorded_of_succeeds hsucc with hbefore | hrec
      · exact hsucceeds job hmem hbefore
      · exact hkeep _ (htasks.recorded job hmem hrec)
    · apply Indexed.forall_mem_set hreturned
      intro text hret
      rw [hmove.taskId_eq]
      rcases hmove.returned_cases hret with hbefore | hsucc
      · exact hreturned job hmem text hbefore
      · exact hsucceeds job hmem hsucc
  · refine ⟨hdistinct, hdb ▸ heffects, ?_, ?_⟩ <;> rw [hjobs]
    · apply Indexed.forall_mem_append_singleton hsucceeds
      intro hsucc
      rcases hnew.pc with hpc | hpc <;> simp [hpc, Pc.Succeeds] at hsucc
    · apply Indexed.forall_mem_append_singleton hreturned
      intro text hret
      simp [hnew.returned] at hret
  · exact ⟨hdistinct, hsame ▸ heffects, hjobs ▸ hsucceeds, hjobs ▸ hreturned⟩

/-- **Each task has its own effect**, as long as no two tasks are created with the same
effect key. In every run of the workers: an `execute` that has returned success left a row
with its own task's id, and a row that `commit_effect` finds when it looks under the key of
an execution is of the same task, so that no other task makes it return false or raise. -/
theorem each_task_its_own_effect (h : Transition.ReachesWhen step CreatesFreshKeys init s) :
    (∀ job ∈ s.jobs, ∀ text, job.returned = some (true, text) →
      ∃ row ∈ s.db.effects, row.taskId = job.envelope.taskId) ∧
    ∀ job ∈ s.jobs, ∀ result, job.pc = .execute (.selectEffect result) →
      ∀ row, s.db.findEffect job.key = some row → row.taskId = job.envelope.taskId := by
  have hreach : s.Reachable := h.reaches
  have hcustody : s.CustodyInv :=
    custodyInv_of_reaches (h.mono fun _ _ => withoutRequeue_of_createsFreshKeys)
  have hbooks := hreach.enqueueInv
  have hinv : s.KeyInv := by
    apply h.invariant_along (I := KeyInv)
      ⟨by simp [init, Db.empty], by simp [init, Db.empty], by simp [init], by simp [init]⟩
    intro s a s' hrun hkeys ha hstep
    have hbefore : s.Reachable := hrun.reaches
    refine hkeys.step ?_ hbefore.enqueueInv hbefore.taskInv ha hstep
    exact custodyInv_of_reaches (hrun.mono fun _ _ => withoutRequeue_of_createsFreshKeys)
  constructor
  · intro job hjob text hret
    obtain ⟨row, hrow, hkey⟩ := hreach.effectInv.returned job hjob text hret
    exact ⟨row, hrow, hinv.own hcustody hbooks hjob (hinv.returned job hjob text hret)
      hrow hkey⟩
  · intro job hjob result hpc row hfound
    obtain ⟨hrow, hkey⟩ := Db.hasEffect_of_findEffect hfound
    exact hinv.own hcustody hbooks hjob
      (hreach.taskInv.recorded job hjob (by simp [hpc, Pc.Recorded])) hrow hkey

/-- Two requests on different queues, the first answered and executed, then the second. -/
def twoQueues (key key' : Option String) : List Action :=
  accept 0 { queue := "q", taskName := "t", payload := .null, dedupKey := key } ⟨1⟩ ++
    accept 1 { queue := "r", taskName := "t", payload := .null, dedupKey := key' } ⟨2⟩ ++
    [.deliver "a" 100 "q"] ++ proceeds 0 3 ++ [.handler 0 (.returned none)] ++ proceeds 0 5 ++
    [.deliver "a" 100 "r"] ++ proceeds 1 3 ++ [.handler 1 (.returned none)]

/-- The theorem at two queues with two keys. -/
theorem each_task_its_own_effect_two_keys : ∃ s : Sys, s.db.effects.length = 2 ∧
    ∃ job ∈ s.jobs, job.returned = some (true, none) ∧
      ∃ row ∈ s.db.effects, row.taskId = job.envelope.taskId := by
  obtain ⟨s, hreach, heffects, job, hjob, hret⟩ := Transition.exists_reachesWhen_of_check step
    CreatesFreshKeys init (twoQueues (some "k") (some "l") ++ proceeds 1 5)
    (fun s => s.db.effects.length = 2 ∧ ∃ job ∈ s.jobs, job.returned = some (true, none))
    (by decide +kernel)
  exact ⟨s, heffects, job, hjob, hret, (each_task_its_own_effect hreach).1 job hjob none hret⟩

/-- Two queues, one key: the second task's `commit_effect` finds the effect of the first one
and returns false, `execute` returns success, and there is no effect of the second task. -/
theorem effect_of_another_task : ∃ s : Sys,
    Transition.ReachesWhen step WithoutRequeue init s ∧
    ∃ job ∈ s.jobs, job.returned = some (true, none) ∧
      ∀ row ∈ s.db.effects, row.taskId ≠ job.envelope.taskId := by
  obtain ⟨s, hreach, hcheck⟩ := Transition.exists_reachesWhen_of_check step WithoutRequeue init
    (twoQueues (some "k") (some "k") ++ proceeds 1 3)
    (fun s => ∃ job ∈ s.jobs, job.returned = some (true, none) ∧
      ∀ row ∈ s.db.effects, row.taskId ≠ job.envelope.taskId)
    (by decide +kernel)
  exact ⟨s, hreach, hcheck⟩

end Sys

end Dtq
