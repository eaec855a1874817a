import Dtq.Workflow.Engine

/-!
# What the calls of the workflow engine do

One specification for each piece of `advance`: what the dictionaries say about the tasks they were
built from, what the launching loop leaves behind when it ends normally and when it does so, and
from these all the ways a call can end. Later proofs use only these and never unfold the calls.

## Main results

* `launchAll_done`, `launchAll_ok` — the rows that are created, and when all of them are
* `World.advance_cases` — the ways a call of `advance` can end
* `World.progress_cases` — what progress on a task changes
-/

set_option autoImplicit false

namespace Dtq

/-! ### The dictionaries -/

namespace Collected

variable {db : Db} {tasks : List TaskRow} {name : String}

theorem ofTasks_append_singleton (row : TaskRow) :
    ofTasks db (tasks ++ [row]) = (ofTasks db tasks).add db row := by
  simp [ofTasks]

/-- The state filed under a name is that of some task filed there. -/
theorem exists_of_states {state : TaskState} (h : (ofTasks db tasks).states name = some state) :
    ∃ row ∈ tasks, row.filedUnder = some name ∧ row.state = state := by
  induction tasks using List.reverseRecOn with
  | nil => exact absurd h (by simp [ofTasks])
  | append_singleton tasks row ih =>
    rw [ofTasks_append_singleton, add] at h
    cases hfiled : row.filedUnder with
    | none =>
      rw [hfiled] at h
      obtain ⟨old, hold, hname, hstate⟩ := ih h
      exact ⟨old, List.mem_append_left _ hold, hname, hstate⟩
    | some filed =>
      simp only [hfiled] at h
      by_cases heq : name = filed
      · subst heq
        rw [Function.update_self] at h
        exact ⟨row, by simp, hfiled, Option.some.inj h⟩
      · rw [Function.update_of_ne heq] at h
        obtain ⟨old, hold, hname, hstate⟩ := ih h
        exact ⟨old, List.mem_append_left _ hold, hname, hstate⟩

theorem states_add_eq_none_iff {c : Collected} {row : TaskRow} :
    (c.add db row).states name = none ↔ c.states name = none ∧ row.filedUnder ≠ some name := by
  rw [add]
  cases hfiled : row.filedUnder with
  | none => simp
  | some filed =>
    by_cases heq : name = filed
    · simp [heq]
    · simp [Function.update_of_ne heq, Ne.symm heq]

theorem states_eq_none_iff :
    (ofTasks db tasks).states name = none ↔ ∀ row ∈ tasks, row.filedUnder ≠ some name := by
  induction tasks using List.reverseRecOn with
  | nil => simp [ofTasks]
  | append_singleton tasks row ih =>
    rw [ofTasks_append_singleton, states_add_eq_none_iff, ih]
    simp [or_imp, forall_and]

/-- A name that only one task is filed under has that task's state. -/
theorem states_eq_some {row : TaskRow} (hrow : row ∈ tasks) (hname : row.filedUnder = some name)
    (hunique : ∀ r ∈ tasks, r.filedUnder = some name → r = row) :
    (ofTasks db tasks).states name = some row.state := by
  cases hstate : (ofTasks db tasks).states name with
  | none => exact absurd hname (states_eq_none_iff.mp hstate row hrow)
  | some state =>
    obtain ⟨r, hr, hrname, rfl⟩ := exists_of_states hstate
    rw [hunique r hr hrname]

/-- The result filed under a name is that of some task filed there. -/
theorem exists_of_results {result : Json} (h : (ofTasks db tasks).results name = some result) :
    ∃ row ∈ tasks, row.filedUnder = some name ∧ resultOf db row = some result := by
  induction tasks using List.reverseRecOn with
  | nil => exact absurd h (by simp [ofTasks])
  | append_singleton tasks row ih =>
    have hold : (ofTasks db tasks).results name = some result →
        ∃ r ∈ tasks ++ [row], r.filedUnder = some name ∧ resultOf db r = some result := by
      intro hbefore
      obtain ⟨r, hr, hname, hresult⟩ := ih hbefore
      exact ⟨r, List.mem_append_left _ hr, hname, hresult⟩
    rw [ofTasks_append_singleton, add] at h
    cases hfiled : row.filedUnder with
    | none =>
      rw [hfiled] at h
      exact hold h
    | some filed =>
      simp only [hfiled] at h
      cases hresult : resultOf db row with
      | none =>
        rw [hresult] at h
        exact hold h
      | some found =>
        simp only [hresult] at h
        by_cases heq : name = filed
        · subst heq
          rw [Function.update_self] at h
          exact ⟨row, by simp, hfiled, by rw [hresult, Option.some.inj h]⟩
        · rw [Function.update_of_ne heq] at h
          exact hold h

theorem results_ne_none {row : TaskRow} (hrow : row ∈ tasks)
    (hname : row.filedUnder = some name) (hresult : resultOf db row ≠ none) :
    (ofTasks db tasks).results name ≠ none := by
  induction tasks using List.reverseRecOn with
  | nil => exact absurd hrow List.not_mem_nil
  | append_singleton tasks last ih =>
    rw [ofTasks_append_singleton, add]
    rcases List.mem_append.mp hrow with hrow | hrow
    · have hbefore := ih hrow
      cases hfiled : last.filedUnder with
      | none => exact hbefore
      | some filed =>
        cases hlast : resultOf db last with
        | none => exact hbefore
        | some result =>
          by_cases heq : name = filed
          · simp [heq]
          · simp only [Function.update_of_ne heq]
            exact hbefore
    · obtain rfl := List.mem_singleton.mp hrow
      obtain ⟨result, hsome⟩ := Option.ne_none_iff_exists'.mp hresult
      simp [hname, hsome]

theorem mem_namesIn {c : Collected} {state : TaskState} :
    name ∈ c.namesIn tasks state ↔
      (∃ row ∈ tasks, row.filedUnder = some name) ∧ c.states name = some state := by
  simp [namesIn]

/-- The names in a state, when no two tasks are filed under one name. -/
theorem mem_namesIn_ofTasks {state : TaskState}
    (hunique : ∀ r ∈ tasks, ∀ r' ∈ tasks, r.filedUnder = some name → r'.filedUnder = some name →
      r = r') :
    name ∈ (ofTasks db tasks).namesIn tasks state ↔
      ∃ row ∈ tasks, row.filedUnder = some name ∧ row.state = state := by
  rw [mem_namesIn]
  constructor
  · exact fun h => exists_of_states h.2
  · rintro ⟨row, hrow, hname, rfl⟩
    exact ⟨⟨row, hrow, hname⟩,
      states_eq_some hrow hname fun r hr hrname => hunique r hr row hrow hrname hname⟩

/-- The plan has the launches of every step that is ready and has no task filed under its name. -/
theorem mem_plan {c : Collected} {steps : List WorkflowStep} {completed : List String}
    {entry : Option Launch} :
    entry ∈ c.plan steps completed ↔
      ∃ step ∈ getReadySteps steps completed, c.states step.name = none ∧
        ((step.expand c.results = none ∧ entry = none) ∨
          ∃ launches, step.expand c.results = some launches ∧ ∃ launch ∈ launches,
            entry = some launch) := by
  simp only [plan, List.mem_flatMap, List.mem_filter, decide_eq_true_eq, and_assoc]
  refine exists_congr fun step => and_congr_right fun _ => and_congr_right fun _ => ?_
  cases step.expand c.results with
  | none => simp
  | some launches => simp [eq_comm]

end Collected

/-! ### The launching loop -/

/-- A value of `max_attempts` that is accepted all the way: an integer that fits the column. -/
def RetryOk (retry : RetryEntry) : Prop :=
  match maxAttemptsOf retry with
  | some n => -2 ^ 31 ≤ n ∧ n < 2 ^ 31
  | none => False

instance (retry : RetryEntry) : Decidable (RetryOk retry) := by
  unfold RetryOk
  split <;> infer_instance

theorem RetryOk.exists_eq {retry : RetryEntry} (h : RetryOk retry) :
    ∃ n, maxAttemptsOf retry = some n ∧ -2 ^ 31 ≤ n ∧ n < 2 ^ 31 := by
  unfold RetryOk at h
  split at h
  · next n hn => exact ⟨n, hn, h⟩
  · exact h.elim

/-- The row is the one created for the planned launch, under the id drawn for it. -/
def CreatedFor (workflowId : Uuid) (entry : Option Launch × Uuid) (row : TaskRow) : Prop :=
  ∃ launch n, entry.1 = some launch ∧ row = launch.row workflowId entry.2 n

/-- The ids that a plan uses are among those drawn, in their order. -/
theorem drawn_sublist (plan : List (Option Launch)) (ids : List Uuid) :
    ((plan.zip ids).map Prod.snd).Sublist ids := by
  have htake : plan.zip ids = plan.zip (ids.take plan.length) := by
    conv_lhs => rw [← List.take_of_length_le (l := plan.zip ids) (i := plan.length) (by simp)]
    rw [List.zip, List.take_zipWith, List.take_length]
  rw [htake, List.map_snd_zip (by simp)]
  exact List.take_sublist _ _

/-- The envelope that is published for a task of a workflow. -/
def TaskRow.launchEnvelope (row : TaskRow) (now : ℚ) : TaskEnvelope :=
  { taskId := row.id
    queue := row.queue
    taskName := row.taskName
    payload := row.payload
    maxAttempts := row.maxAttempts
    retryPolicy := { maxAttempts := row.maxAttempts }
    workflowId := row.workflowId
    stepName := row.stepName
    createdAt := now }

section Launching

variable {workflowId : Uuid} {now : ℚ}

theorem Launch.fits_row_iff {launch : Launch} {n : ℤ}
    (hn : maxAttemptsOf launch.step.retry = some n) (workflowId taskId : Uuid) :
    Db.Fits (launch.row workflowId taskId n) ↔ RetryOk launch.step.retry := by
  simp [Db.Fits, Launch.row, RetryOk, hn]

/-- A row under a new id can be inserted. -/
theorem Launch.insertable {launch : Launch} {n : ℤ} {db : Db} {taskId : Uuid}
    (hn : maxAttemptsOf launch.step.retry = some n) (hretry : RetryOk launch.step.retry)
    (hnew : ∀ other ∈ db.tasks, other.id ≠ taskId) :
    db.Insertable (launch.row workflowId taskId n) := by
  refine ⟨(Launch.fits_row_iff hn workflowId taskId).mpr hretry, fun other hother => ?_⟩
  -- a task of a workflow has no dedup key, so the index does not apply
  exact ⟨hnew other hother, fun hsame => hsame.2.2 hsame.2.1⟩

/-- A loop that ends normally has created a row for every planned launch, in order, and published
an envelope for each row. -/
theorem launchAll_done {entries : List (Option Launch × Uuid)} {stores stores' : Stores}
    (h : launchAll workflowId now entries stores = .done stores') :
    ∃ rows, stores'.db = { stores.db with tasks := stores.db.tasks ++ rows } ∧
      stores'.redis = stores.redis.modifyQueue "default" (fun q =>
        { q with stream := q.stream ++ rows.map (TaskRow.launchEnvelope · now) }) ∧
      List.Forall₂ (CreatedFor workflowId) entries rows ∧
      ∀ entry ∈ entries, ∃ launch, entry.1 = some launch ∧ RetryOk launch.step.retry := by
  induction entries generalizing stores with
  | nil =>
    obtain rfl : stores = stores' := by simpa [launchAll] using h
    refine ⟨[], by simp, ?_, .nil, by simp⟩
    simp only [List.map_nil, List.append_nil]
    exact (Redis.modifyQueue_id stores.redis "default").symm
  | cons entry rest ih =>
    obtain ⟨planned, taskId⟩ := entry
    cases planned with
    | none => exact absurd h (by simp [launchAll])
    | some launch =>
      unfold launchAll at h
      split at h
      · exact absurd h (by simp)
      · next n hn =>
        simp only at h
        split_ifs at h with hinsert
        obtain ⟨rows, hdb, hredis, hrows, hretry⟩ := ih h
        refine ⟨launch.row workflowId taskId n :: rows, ?_, ?_, .cons ⟨launch, n, rfl, rfl⟩ hrows,
          List.forall_mem_cons.mpr ⟨⟨launch, rfl, ?_⟩, hretry⟩⟩
        · rw [hdb]
          simp [Db.insertTask]
        · rw [hredis, Redis.modifyQueue_modifyQueue]
          congr 1
          funext q
          simp [QueueState.publish, Launch.envelope, Launch.row, TaskRow.launchEnvelope]
        · rw [RetryOk, hn]
          exact ⟨hinsert.1.2.2.1, hinsert.1.2.2.2⟩

/-- The loop ends normally when nothing in the plan raises: every launch has an acceptable
`max_attempts` and every id is a new one. -/
theorem launchAll_ok (workflowId : Uuid) (now : ℚ) {entries : List (Option Launch × Uuid)}
    {stores : Stores}
    (hplan : ∀ entry ∈ entries, ∃ launch, entry.1 = some launch ∧ RetryOk launch.step.retry)
    (hids : (entries.map Prod.snd).Nodup)
    (hfresh : ∀ row ∈ stores.db.tasks, row.id ∉ entries.map Prod.snd) :
    ∃ stores', launchAll workflowId now entries stores = .done stores' := by
  induction entries generalizing stores with
  | nil => exact ⟨stores, rfl⟩
  | cons entry rest ih =>
    obtain ⟨planned, taskId⟩ := entry
    obtain ⟨launch, hlaunch, hretry⟩ := hplan _ List.mem_cons_self
    obtain rfl : planned = some launch := hlaunch
    obtain ⟨n, hn, -⟩ := hretry.exists_eq
    rw [List.map_cons, List.nodup_cons] at hids
    have hinsert : stores.db.Insertable (launch.row workflowId taskId n) := by
      refine Launch.insertable hn hretry fun other hother => ?_
      have hnew := hfresh other hother
      simp only [List.map_cons, List.mem_cons, not_or] at hnew
      exact hnew.1
    simp only [launchAll, hn, hinsert, if_true]
    refine ih (fun e he => hplan e (List.mem_cons_of_mem _ he)) hids.2 fun row hrow => ?_
    rw [Db.insertTask, List.mem_append, List.mem_singleton] at hrow
    rcases hrow with hrow | rfl
    · have hnew := hfresh row hrow
      simp only [List.map_cons, List.mem_cons, not_or] at hnew
      exact hnew.2
    · exact hids.1

end Launching

/-! ### The tasks of one workflow -/

namespace Db

variable {db : Db} {workflowId : Uuid}

theorem mem_tasksOf {row : TaskRow} :
    row ∈ db.tasksOf workflowId ↔ row ∈ db.tasks ∧ row.workflowId = some workflowId := by
  simp [tasksOf]

@[simp] theorem setState_workflowId (taskId : Uuid) (state : TaskState) (attempt : Option ℕ)
    (row : TaskRow) : (setState taskId state attempt row).workflowId = row.workflowId := by
  unfold setState
  split <;> rfl

@[simp] theorem setState_stepName (taskId : Uuid) (state : TaskState) (attempt : Option ℕ)
    (row : TaskRow) : (setState taskId state attempt row).stepName = row.stepName := by
  unfold setState
  split <;> rfl

end Db

namespace World

variable {w w' : World}

theorem tasksOf_congr (htasks : w'.stores.db.tasks = w.stores.db.tasks) (workflowId : Uuid) :
    w'.tasksOf workflowId = w.tasksOf workflowId := by
  rw [tasksOf, tasksOf, Db.tasksOf, Db.tasksOf, htasks]

/-- A state written into the table is written into each workflow's tasks. -/
theorem tasksOf_of_map {taskId : Uuid} {state : TaskState} {attempt : Option ℕ}
    (htasks : w'.stores.db.tasks = w.stores.db.tasks.map (Db.setState taskId state attempt))
    (workflowId : Uuid) :
    w'.tasksOf workflowId = (w.tasksOf workflowId).map (Db.setState taskId state attempt) := by
  rw [tasksOf, tasksOf, Db.tasksOf, Db.tasksOf, htasks, List.filter_map]
  simp only [Function.comp_def, Db.setState_workflowId]

/-- Rows created for a workflow are added to its tasks and to no other's. -/
theorem tasksOf_of_append {rows : List TaskRow} {owner : Uuid}
    (htasks : w'.stores.db.tasks = w.stores.db.tasks ++ rows)
    (howned : ∀ row ∈ rows, row.workflowId = some owner) (workflowId : Uuid) :
    w'.tasksOf workflowId =
      w.tasksOf workflowId ++ if workflowId = owner then rows else [] := by
  rw [tasksOf, tasksOf, Db.tasksOf, Db.tasksOf, htasks, List.filter_append]
  congr 1
  by_cases heq : workflowId = owner
  · subst heq
    rw [if_pos rfl, List.filter_eq_self]
    exact fun row hrow => by simp [howned row hrow]
  · rw [if_neg heq, List.filter_eq_nil_iff]
    exact fun row hrow => by simp [howned row hrow, Ne.symm heq]

end World

/-! ### The ways a call ends -/

namespace World

/-- The ways `advance` ends on a running workflow whose tasks were returned as `rows`. -/
inductive Outcome (w : World) (wf : WorkflowRow) (rows : List TaskRow) (ids : List Uuid) :
    World → Prop
  /-- some step is dead -/
  | failed
      (hdead : (Collected.ofTasks w.stores.db rows).namesIn rows .dead ≠ []) :
      Outcome w wf rows ids (w.setWorkflowState wf.id .failed)
  /-- every step is completed -/
  | completed
      (hdead : (Collected.ofTasks w.stores.db rows).namesIn rows .dead = [])
      (hall : ∀ step ∈ wf.steps,
        step.name ∈ (Collected.ofTasks w.stores.db rows).namesIn rows .succeeded) :
      Outcome w wf rows ids (w.setWorkflowState wf.id .completed)
  /-- the planned tasks are created -/
  | launched (plan : List (Option Launch)) (redis : Redis) (created : List TaskRow)
      (hdead : (Collected.ofTasks w.stores.db rows).namesIn rows .dead = [])
      (hleft : ¬ ∀ step ∈ wf.steps,
        step.name ∈ (Collected.ofTasks w.stores.db rows).namesIn rows .succeeded)
      (hplan : plan = (Collected.ofTasks w.stores.db rows).plan wf.steps
        ((Collected.ofTasks w.stores.db rows).namesIn rows .succeeded))
      (hids : w.Draws ids plan.length)
      (hcreated : List.Forall₂ (CreatedFor wf.id) (plan.zip ids) created) :
      Outcome w wf rows ids
        { w with stores :=
            ⟨redis, { w.stores.db with tasks := w.stores.db.tasks ++ created }⟩ }
  /-- an exception: nothing is committed -/
  | raised (plan : List (Option Launch)) (redis : Redis)
      (hdead : (Collected.ofTasks w.stores.db rows).namesIn rows .dead = [])
      (hplan : plan = (Collected.ofTasks w.stores.db rows).plan wf.steps
        ((Collected.ofTasks w.stores.db rows).namesIn rows .succeeded))
      (hraised : ¬ ∀ entry ∈ plan, ∃ launch, entry = some launch ∧ RetryOk launch.step.retry) :
      Outcome w wf rows ids { w with stores := { w.stores with redis := redis } }

/-- The loop ends normally on a plan in which nothing raises. -/
theorem Draws.launchAll_ok {w : World} {plan : List (Option Launch)} {ids : List Uuid}
    (h : w.Draws ids plan.length) (workflowId : Uuid) (now : ℚ)
    (hplan : ∀ entry ∈ plan, ∃ launch, entry = some launch ∧ RetryOk launch.step.retry) :
    ∃ stores', launchAll workflowId now (plan.zip ids) w.stores = .done stores' := by
  refine Dtq.launchAll_ok workflowId now ?_ ?_ ?_
  · exact fun entry hentry => hplan entry.1 (List.of_mem_zip hentry).1
  · exact h.2.1.sublist (drawn_sublist plan ids)
  · intro row hrow hmem
    exact h.2.2 row hrow ((drawn_sublist plan ids).subset hmem)

theorem advanceRunning_cases {w w' : World} {wf : WorkflowRow} {rows : List TaskRow}
    {ids : List Uuid} {now : ℚ} (h : w.advanceRunning wf rows ids now = some w') :
    Outcome w wf rows ids w' := by
  unfold advanceRunning at h
  simp only at h
  split_ifs at h with hdead hall hids
  · obtain rfl := Option.some.inj h
    exact .failed hdead
  · obtain rfl := Option.some.inj h
    exact .completed (not_not.mp hdead) hall
  · split at h
    · next stores hdone =>
      obtain rfl := Option.some.inj h
      obtain ⟨created, hdb, -, hcreated, -⟩ := launchAll_done hdone
      have hstores : stores = ⟨stores.redis,
          { w.stores.db with tasks := w.stores.db.tasks ++ created }⟩ := by rw [← hdb]
      rw [hstores]
      exact .launched _ stores.redis created (not_not.mp hdead) hall rfl hids hcreated
    · next redis hraised =>
      obtain rfl := Option.some.inj h
      refine .raised _ redis (not_not.mp hdead) rfl fun hok => ?_
      -- with nothing in the plan to raise, the loop would have ended normally
      obtain ⟨stores', hdone⟩ := hids.launchAll_ok wf.id now hok
      rw [hdone] at hraised
      exact absurd hraised (by simp)

/-- A call of `advance` returns at once, or ends in one of the outcomes. -/
theorem advance_cases {w w' : World} {workflowId : Uuid} {rows : List TaskRow} {ids : List Uuid}
    {now : ℚ} (h : w.advance workflowId rows ids now = some w') :
    (w' = w ∧ ∀ wf, w.findWorkflow workflowId = some wf → wf.state ≠ .running) ∨
      ∃ wf, w.findWorkflow workflowId = some wf ∧ wf.state = .running ∧
        rows.Perm (w.tasksOf workflowId) ∧ Outcome w wf rows ids w' := by
  unfold advance at h
  cases hfind : w.findWorkflow workflowId with
  | none =>
    rw [hfind] at h
    exact Or.inl ⟨(Option.some.inj h).symm, by simp⟩
  | some wf =>
    simp only [hfind] at h
    split_ifs at h with hrunning hperm
    · refine Or.inl ⟨(Option.some.inj h).symm, fun wf' hwf' => ?_⟩
      rwa [← Option.some.inj hwf']
    · exact Or.inr ⟨wf, rfl, not_not.mp hrunning, hperm, advanceRunning_cases h⟩

/-- The world with a new workflow's row in it. -/
def withWorkflow (w : World) (wf : WorkflowRow) : World :=
  { w with workflows := w.workflows ++ [wf] }

/-- A call of `submit` is refused, or creates an accepted workflow and advances it. -/
theorem submit_cases {w w' : World} {workflowId : Uuid} {name : String}
    {steps : List WorkflowStep} {order : List String} {ids : List Uuid} {now : ℚ}
    (h : w.submit workflowId name steps order ids now = some w') :
    w.findWorkflow workflowId = none ∧ (w' = w ∨ (∃ topo, Sorted steps topo) ∧
      (w.withWorkflow ⟨workflowId, name, steps, .running⟩).advance workflowId
        ((w.withWorkflow ⟨workflowId, name, steps, .running⟩).tasksOf workflowId) ids now =
        some w') := by
  unfold submit at h
  split_ifs at h with hguard
  refine ⟨hguard.1, ?_⟩
  cases hdag : validateDag order steps with
  | error e =>
    rw [hdag] at h
    exact Or.inl (Option.some.inj h).symm
  | ok topo =>
    rw [hdag] at h
    exact Or.inr ⟨⟨topo, validateDag_sorted hguard.2 hdag⟩, h⟩

/-- Progress on one task: from pending to leased, or from leased to its end. Nothing changes but
that task's row, and an effect may be added. -/
structure Progress (w w' : World) : Prop where
  workflows : w'.workflows = w.workflows
  tasks : ∃ taskId state attempt, ∃ row, w.stores.db.findTask taskId = some row ∧
    (row.state = .pending ∨ row.state = .leased) ∧
    w'.stores.db.tasks = w.stores.db.tasks.map (Db.setState taskId state attempt)

theorem progress_cases {w w' : World} {a : Act} (h : w.step a = some w') :
    (∃ workflowId name steps order ids now, a = .submit workflowId name steps order ids now) ∨
      (∃ workflowId rows ids now, a = .advance workflowId rows ids now) ∨ Progress w w' := by
  cases a with
  | submit workflowId name steps order ids now =>
    exact Or.inl ⟨workflowId, name, steps, order, ids, now, rfl⟩
  | advance workflowId rows ids now => exact Or.inr (Or.inl ⟨workflowId, rows, ids, now, rfl⟩)
  | lease taskId =>
    simp only [step, lease] at h
    split at h
    · next row hfind =>
      split_ifs at h with hstate
      obtain rfl := Option.some.inj h
      exact Or.inr (Or.inr ⟨rfl, taskId, _, _, row, hfind, Or.inl hstate, rfl⟩)
    · exact absurd h (by simp)
  | succeed taskId fence result =>
    simp only [step, succeed] at h
    split at h
    · next row hfind =>
      split_ifs at h with hstate
      split at h
      · obtain rfl := Option.some.inj h
        exact Or.inr (Or.inr ⟨rfl, taskId, _, _, row, hfind, Or.inr hstate, rfl⟩)
      · obtain rfl := Option.some.inj h
        exact Or.inr (Or.inr ⟨rfl, taskId, _, _, row, hfind, Or.inr hstate, rfl⟩)
      · exact absurd h (by simp)
    · exact absurd h (by simp)
  | die taskId =>
    simp only [step, die] at h
    split at h
    · next row hfind =>
      split_ifs at h with hstate
      obtain rfl := Option.some.inj h
      exact Or.inr (Or.inr ⟨rfl, taskId, _, _, row, hfind, Or.inr hstate, rfl⟩)
    · exact absurd h (by simp)

end World

end Dtq
