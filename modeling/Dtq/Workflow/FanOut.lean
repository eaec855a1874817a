import Dtq.Workflow.Tracking

/-!
# Fan-out and fan-in

A step with `fan_out` is expanded into siblings, one for each item of a list in the result of a
dependency. They are filed under names of their own, while the checks of `advance` (is the step
launched, are its dependencies completed, are all steps completed) look for the step's name, under
which no task is ever filed. So the first call after an expansion expands the step again,
steps that depend on it are never launched, and the workflow is never completed.

What the engine is meant to do is stated in `FanOutCall`. A call does it exactly when no
fan-out step has been expanded before.

## Main results

* `fan_out_call_iff` — for every state of a run whose calls all come before an expansion,
  and every call from there
* `fan_out_twice` — siblings created twice, with the step that waits for them not launched
-/

set_option autoImplicit false

namespace Dtq

open WorkflowStep Transition

/-- Names that tell the tasks apart, and acceptable retry entries. -/
structure FanSteps (steps : List WorkflowStep) : Prop where
  names : WellNamed steps
  retry : ∀ step ∈ steps, RetryOk step.retry

/-! ### What fan-out means -/

section Meaning

variable (w : World) (wf : WorkflowRow)

/-- The result recorded for the task of that name. -/
def World.HasResult (name : String) (result : Json) : Prop :=
  ∃ row ∈ w.tasksOf wf.id, row.stepName = some name ∧
    Collected.resultOf w.stores.db row = some result

/-- Every result that a fan-out step looks at has a list under the field, not an empty one, or has
no such field. -/
def ListsUpstream : Prop :=
  ∀ step ∈ wf.steps, ∀ field, step.fanOutField = some field → ∀ dep ∈ step.dependsOn,
    ∀ result, w.HasResult wf dep result →
      lookupField field result = .missing ∨
        ∃ items, items ≠ [] ∧ lookupField field result = .found (.arr items)

/-- The list that the step fans out: the one in the result of the first dependency that has the
field. -/
def FansOutOver (step : WorkflowStep) (field : String) (items : List Json) : Prop :=
  ∃ front dep back, step.dependsOn = front ++ dep :: back ∧
    (∃ result, w.HasResult wf dep result ∧ lookupField field result = .found (.arr items)) ∧
    ∀ d ∈ front, ∀ result, w.HasResult wf d result → lookupField field result = .missing

/-- The step has a task. -/
def IsLaunched (step : WorkflowStep) : Prop := ∃ row ∈ w.tasksOf wf.id, row.Of step

/-- The step of that name is satisfied: it has been launched, and its task, or every one of its
siblings, has succeeded. -/
def Satisfied (name : String) : Prop :=
  ∃ step ∈ wf.steps, step.name = name ∧ IsLaunched w wf step ∧
    ∀ row ∈ w.tasksOf wf.id, row.Of step → row.state = .succeeded

end Meaning

/-- What a call of `advance` should do that takes the running workflow from `w` to `w'`, in
which its row is `wf'`:

* no name is given to two tasks, so no step is expanded twice;
* a fan-out step is launched as one sibling for each item of its list;
* if the workflow stays running, every step whose dependencies are satisfied has been launched,
  and a step is launched only then;
* the workflow is completed exactly when all its steps are satisfied. -/
structure FanOutCall (w w' : World) (wf wf' : WorkflowRow) : Prop where
  once : ((w'.tasksOf wf.id).map TaskRow.stepName).Nodup
  siblings : ∀ step ∈ wf.steps, ∀ field, step.fanOutField = some field →
    ¬ IsLaunched w wf step → IsLaunched w' wf step →
      ∀ items, FansOutOver w wf step field items → ∀ i,
        (∃ row ∈ w'.tasksOf wf.id, row.stepName = some (siblingName step.name i)) ↔
          i < items.length
  launches : wf'.state = .running → ∀ step ∈ wf.steps,
    (∀ dep ∈ step.dependsOn, Satisfied w wf dep) → IsLaunched w' wf step
  waits : ∀ step ∈ wf.steps, ¬ IsLaunched w wf step → IsLaunched w' wf step →
    ∀ dep ∈ step.dependsOn, Satisfied w wf dep
  completes : wf'.state = .completed ↔ ∀ step ∈ wf.steps, Satisfied w wf step.name

/-! ### Reading the upstream results -/

theorem upstream_of_missing {results : String → Option Json} {field : String}
    {deps : List String}
    (h : ∀ dep ∈ deps, ∀ result, results dep = some result →
      lookupField field result = .missing) (rest : List String) :
    upstream results field (deps ++ rest) = upstream results field rest := by
  induction deps with
  | nil => rfl
  | cons dep deps ih =>
    have hdep : lookupField field ((results dep).getD (.obj [])) = .missing := by
      cases hresult : results dep with
      | none => rfl
      | some result => exact h dep List.mem_cons_self result hresult
    rw [List.cons_append, upstream, hdep]
    exact ih fun d hd => h d (List.mem_cons_of_mem _ hd)

/-- With lists upstream, the lookup finds a list that is not empty, or nothing. -/
theorem upstream_cases {results : String → Option Json} {field : String} {deps : List String}
    (h : ∀ dep ∈ deps, ∀ result, results dep = some result →
      lookupField field result = .missing ∨
        ∃ items, items ≠ [] ∧ lookupField field result = .found (.arr items)) :
    upstream results field deps = .missing ∨
      ∃ items, items ≠ [] ∧ upstream results field deps = .found (.arr items) := by
  induction deps with
  | nil => exact Or.inl rfl
  | cons dep deps ih =>
    have hrest := ih fun d hd => h d (List.mem_cons_of_mem _ hd)
    rw [upstream]
    cases hresult : results dep with
    | none => exact hrest
    | some result =>
      rw [Option.getD_some]
      rcases h dep List.mem_cons_self result hresult with hmissing | ⟨items, hitems, hfound⟩
      · rw [hmissing]
        exact hrest
      · rw [hfound]
        exact Or.inr ⟨items, hitems, rfl⟩

section Reading

variable {w : World} {wf : WorkflowRow} {rows : List TaskRow} (hnames : WellNamed wf.steps)
  (h : Tracked w wf) (hperm : rows.Perm (w.tasksOf wf.id))
include hnames h hperm

theorem Tracked.results_eq_some_iff {name : String} {result : Json} :
    (Collected.ofTasks w.stores.db rows).results name = some result ↔
      w.HasResult wf name result := by
  have hread : ∀ {found : Json}, (Collected.ofTasks w.stores.db rows).results name = some found →
      w.HasResult wf name found := by
    intro found hfound
    obtain ⟨row, hrow, hname, hrow'⟩ := Collected.exists_of_results hfound
    have hmem := hperm.mem_iff.mp hrow
    exact ⟨row, hmem, (h.filedUnder_iff hnames hmem).mp hname, hrow'⟩
  refine ⟨hread, ?_⟩
  rintro ⟨row, hrow, hname, hresult⟩
  have hfiled := (h.filedUnder_iff hnames hrow).mpr hname
  have hsome : (Collected.ofTasks w.stores.db rows).results name ≠ none :=
    Collected.results_ne_none (hperm.mem_iff.mpr hrow) hfiled (by simp [hresult])
  obtain ⟨found, hfound⟩ := Option.ne_none_iff_exists'.mp hsome
  -- the only task of that name is the one it was read from
  obtain ⟨row', hrow', hname', hresult'⟩ := hread hfound
  rw [h.eq_of_stepName hrow hrow' (hname.trans hname'.symm)] at hresult
  rw [hfound, ← hresult', hresult]

/-- No fan-out step raises while it is expanded. -/
theorem Tracked.expand_ne_none (hlists : ListsUpstream w wf) {step : WorkflowStep}
    (hstep : step ∈ wf.steps) :
    step.expand (Collected.ofTasks w.stores.db rows).results ≠ none := by
  cases hfield : step.fanOutField with
  | none => simp [expand, hfield]
  | some field =>
    have hcases := upstream_cases fun dep hdep result hresult =>
      hlists step hstep field hfield dep hdep result
        ((h.results_eq_some_iff hnames hperm).mp hresult)
    rcases hcases with hmissing | ⟨items, hitems, hfound⟩
    · simp [expand, hfield, fanItems, hmissing]
    · simp [expand, hfield, fanItems, hfound, Json.truthy, Json.iterate, hitems]

theorem Tracked.fanItems_eq {step : WorkflowStep} {field : String} {items : List Json}
    (hitems : items ≠ []) (hover : FansOutOver w wf step field items) :
    step.fanItems (Collected.ofTasks w.stores.db rows).results field = some items := by
  obtain ⟨front, dep, back, hdeps, ⟨result, hresult, hfound⟩, hfront⟩ := hover
  have hread := (h.results_eq_some_iff hnames hperm).mpr hresult
  have hupstream : upstream (Collected.ofTasks w.stores.db rows).results field step.dependsOn =
      .found (.arr items) := by
    rw [hdeps, upstream_of_missing]
    · rw [upstream, hread, Option.getD_some, hfound]
    · intro d hd r hr
      exact hfront d hd r ((h.results_eq_some_iff hnames hperm).mp hr)
  simp [fanItems, hupstream, Json.truthy, Json.iterate, hitems]

end Reading

/-! ### A call before any expansion -/

section Call

variable {w w' : World} {wf wf' : WorkflowRow} {rows : List TaskRow} {ids : List Uuid}

/-- A step under whose name a task is filed does not fan out. -/
theorem Tracked.plain_of_named (hnames : WellNamed wf.steps) (h : Tracked w wf)
    {step : WorkflowStep} (hstep : step ∈ wf.steps) {row : TaskRow} (hrow : row ∈ w.tasksOf wf.id)
    (hname : row.stepName = some step.name) : step.fanOutField = none := by
  obtain ⟨other, hother, name, hown, htask⟩ := h.named row hrow
  obtain rfl : step.name = name := Option.mem_unique hname hown
  cases hfield : other.fanOutField with
  | none =>
    rw [hnames.eq_of_name hstep hother ((taskName_of_plain hfield).mp htask)]
    exact hfield
  | some field =>
    obtain ⟨i, hi⟩ := (taskName_of_fan hfield).mp htask
    exact absurd hi (hnames.apart step hstep other hother (by simp [hfield]) i)

theorem Tracked.of_of_named (hnames : WellNamed wf.steps) (h : Tracked w wf)
    {step : WorkflowStep} (hstep : step ∈ wf.steps) {row : TaskRow} (hrow : row ∈ w.tasksOf wf.id)
    (hname : row.stepName = some step.name) : row.Of step :=
  ⟨step.name, hname, (taskName_of_plain (h.plain_of_named hnames hstep hrow hname)).mpr rfl⟩

/-- A succeeded task under a step's name satisfies the step. -/
theorem Tracked.satisfied_of_succeeded (hnames : WellNamed wf.steps) (h : Tracked w wf)
    {step : WorkflowStep} (hstep : step ∈ wf.steps) (hdone : w.Succeeded wf.id step.name) :
    Satisfied w wf step.name := by
  obtain ⟨row, hrow, hname, hstate⟩ := hdone
  have hplain := h.plain_of_named hnames hstep hrow hname
  refine ⟨step, hstep, rfl, ⟨row, hrow, h.of_of_named hnames hstep hrow hname⟩, ?_⟩
  rintro row' hrow' ⟨name, hname', htask⟩
  rw [(taskName_of_plain hplain).mp htask] at hname'
  rw [h.eq_of_stepName hrow' hrow (hname'.trans hname.symm)]
  exact hstate

/-- With no fan-out step expanded, a satisfied step is one with a succeeded task of its name. -/
theorem Unexpanded.succeeded_of_satisfied (hsafe : Unexpanded w wf) {name : String}
    (hsat : Satisfied w wf name) : w.Succeeded wf.id name := by
  obtain ⟨step, hstep, rfl, ⟨row, hrow, hof⟩, hall⟩ := hsat
  have hstate := hall row hrow hof
  cases hfield : step.fanOutField with
  | none =>
    obtain ⟨name, hname, htask⟩ := hof
    rw [(taskName_of_plain hfield).mp htask] at hname
    exact ⟨row, hrow, hname, hstate⟩
  | some field => exact absurd hof (hsafe step hstep (by simp [hfield]) row hrow)

/-- The call creates the tasks of the steps that are due, and no others. -/
structure LaunchCall (w w' : World) (wf : WorkflowRow) (rows created : List TaskRow) : Prop where
  tasks : w'.tasksOf wf.id = w.tasksOf wf.id ++ created
  due : ∀ row ∈ created, ∃ step launches launch, Due w wf step ∧
    step.expand (Collected.ofTasks w.stores.db rows).results = some launches ∧
    launch ∈ launches ∧ row.stepName = some launch.stepName
  all : ∀ step, Due w wf step → ∃ launches,
    step.expand (Collected.ofTasks w.stores.db rows).results = some launches ∧
    ∀ launch ∈ launches, ∃ row ∈ created, row.stepName = some launch.stepName

/-- How a call on a running workflow without dead tasks ends: it completes the workflow, or it
launches the steps that are due. -/
theorem Tracked.call_cases (hfan : FanSteps wf.steps) (h : Tracked w wf)
    (hlists : ListsUpstream w wf) (hfind : w.findWorkflow wf.id = some wf)
    (hdead : ∀ row ∈ w.tasksOf wf.id, row.state ≠ .dead) (hperm : rows.Perm (w.tasksOf wf.id))
    (hout : w.Outcome wf rows ids w') (hfind' : w'.findWorkflow wf.id = some wf') :
    (wf'.state = .completed ∧ w'.tasksOf wf.id = w.tasksOf wf.id ∧
        ∀ step ∈ wf.steps, w.Succeeded wf.id step.name) ∨
      wf' = wf ∧ (¬ ∀ step ∈ wf.steps, w.Succeeded wf.id step.name) ∧
        ∃ created, LaunchCall w w' wf rows created := by
  have hread : ∀ {name : String},
      name ∈ (Collected.ofTasks w.stores.db rows).namesIn rows .succeeded ↔
        w.Succeeded wf.id name := h.mem_namesIn hfan.names hperm
  cases hout with
  | failed hnames =>
    obtain ⟨name, hname⟩ := List.exists_mem_of_ne_nil _ hnames
    obtain ⟨row, hrow, -, hstate⟩ := (h.mem_namesIn hfan.names hperm).mp hname
    exact absurd hstate (hdead row hrow)
  | completed _ hall =>
    rw [World.findWorkflow_setWorkflowState, hfind, Option.map_some, if_pos rfl] at hfind'
    refine Or.inl ⟨by rw [← Option.some.inj hfind'], rfl, fun step hstep => ?_⟩
    exact hread.mp (hall step hstep)
  | raised plan redis _ hplan hraised =>
    refine absurd (h.not_raised hfan.names hperm hplan hfan.retry fun step hdue => ?_) hraised
    exact h.expand_ne_none hfan.names hperm hlists hdue.mem
  | launched plan redis created _ hleft hplan hids hcreated =>
    refine Or.inr ⟨(Option.mem_unique hfind hfind').symm, fun hall => ?_, ?_⟩
    · exact hleft fun step hstep => hread.mpr (hall step hstep)
    · refine ⟨created, World.tasksOf_launched redis hcreated, fun row hrow => ?_, fun step hdue =>
        h.created_of_due hfan.names hperm hplan hcreated hids.1 hdue⟩
      obtain ⟨launch, hlaunch, hname⟩ := exists_launch_of_created hcreated hrow
      obtain ⟨step, hdue, ⟨-, hnone⟩ | ⟨launches, hexpand, found, hfound, heq⟩⟩ :=
        (h.mem_plan hfan.names hperm hplan).mp hlaunch
      · exact absurd hnone (by simp)
      · rw [Option.some.inj heq] at hname
        exact ⟨step, launches, found, hdue, hexpand, hfound, hname⟩

variable {created : List TaskRow}

theorem LaunchCall.kept (hcall : LaunchCall w w' wf rows created) {row : TaskRow}
    (hrow : row ∈ w.tasksOf wf.id) : row ∈ w'.tasksOf wf.id := by
  rw [hcall.tasks]
  exact List.mem_append_left _ hrow

theorem LaunchCall.new (hcall : LaunchCall w w' wf rows created) {row : TaskRow}
    (hrow : row ∈ created) : row ∈ w'.tasksOf wf.id := by
  rw [hcall.tasks]
  exact List.mem_append_right _ hrow

/-- A step that is launched by the call was due, and gets all the tasks it expands to. -/
theorem LaunchCall.due_of_launched (hcall : LaunchCall w w' wf rows created)
    (hnames : WellNamed wf.steps)
    {step : WorkflowStep} (hstep : step ∈ wf.steps) (hbefore : ¬ IsLaunched w wf step)
    {row : TaskRow} (hrow : row ∈ w'.tasksOf wf.id) (hof : row.Of step) :
    ∃ launches launch, Due w wf step ∧
      step.expand (Collected.ofTasks w.stores.db rows).results = some launches ∧
      launch ∈ launches ∧ row.stepName = some launch.stepName := by
  rw [hcall.tasks] at hrow
  have hnew := (List.mem_append.mp hrow).resolve_left fun hmem => hbefore ⟨row, hmem, hof⟩
  obtain ⟨other, launches, launch, hdue, hexpand, hlaunch, hname⟩ := hcall.due row hnew
  have hother : row.Of other :=
    ⟨launch.stepName, hname, ((expand_names hexpand).1 launch hlaunch).2⟩
  obtain rfl := hof.eq hnames hother hstep hdue.mem
  exact ⟨launches, launch, hdue, hexpand, hlaunch, hname⟩

/-- The siblings of a step that is launched by the call are numbered by its items. -/
theorem LaunchCall.siblings_iff (hcall : LaunchCall w w' wf rows created)
    (hnames : WellNamed wf.steps) {step : WorkflowStep} {field : String} {items : List Json}
    (hfield : step.fanOutField = some field)
    (hbefore : ¬ IsLaunched w wf step) (hdue : Due w wf step)
    (hitems : step.fanItems (Collected.ofTasks w.stores.db rows).results field = some items)
    (i : ℕ) :
    (∃ row ∈ w'.tasksOf wf.id, row.stepName = some (siblingName step.name i)) ↔
      i < items.length := by
  have hrange : ∀ {launches : List Launch},
      step.expand (Collected.ofTasks w.stores.db rows).results = some launches →
        (siblingName step.name i ∈ launches.map Launch.stepName ↔ i < items.length) := by
    intro launches hexpand
    obtain ⟨found, hfound, -, hlaunches⟩ := expand_fan hfield hexpand
    obtain rfl : items = found := Option.mem_unique hitems hfound
    rw [hlaunches, List.mem_map]
    constructor
    · rintro ⟨j, hj, heq⟩
      rw [← (siblingName_inj heq).2]
      exact List.mem_range.mp hj
    · exact fun hi => ⟨i, List.mem_range.mpr hi, rfl⟩
  constructor
  · rintro ⟨row, hrow, hname⟩
    have hof : row.Of step := ⟨_, hname, (taskName_of_fan hfield).mpr ⟨i, rfl⟩⟩
    obtain ⟨launches, launch, -, hexpand, hlaunch, hlname⟩ :=
      hcall.due_of_launched hnames hdue.mem hbefore hrow hof
    rw [← hrange hexpand, Option.mem_unique hname hlname]
    exact List.mem_map_of_mem hlaunch
  · intro hi
    obtain ⟨launches, hexpand, hall⟩ := hcall.all step hdue
    obtain ⟨launch, hlaunch, heq⟩ := List.mem_map.mp ((hrange hexpand).mpr hi)
    obtain ⟨row, hrow, hname⟩ := hall launch hlaunch
    exact ⟨row, hcall.new hrow, by rw [hname, heq]⟩

/-- A fan-out step that is due gets a first sibling. -/
theorem LaunchCall.exists_first (hcall : LaunchCall w w' wf rows created) {step : WorkflowStep}
    (hdue : Due w wf step) (hfanout : step.fanOutField ≠ none) :
    ∃ row ∈ created, row.stepName = some (siblingName step.name 0) := by
  obtain ⟨launches, hexpand, hall⟩ := hcall.all step hdue
  obtain ⟨launch, hlaunch, heq⟩ := expand_first hfanout hexpand
  rw [← heq]
  exact hall launch hlaunch

theorem ListsUpstream.ne_nil (hlists : ListsUpstream w wf) {step : WorkflowStep}
    (hstep : step ∈ wf.steps) {field : String} (hfield : step.fanOutField = some field)
    {items : List Json} (hover : FansOutOver w wf step field items) : items ≠ [] := by
  obtain ⟨front, dep, back, hdeps, ⟨result, hresult, hfound⟩, -⟩ := hover
  rcases hlists step hstep field hfield dep (by simp [hdeps]) result hresult with
    hmissing | ⟨list, hlist, hfound'⟩
  · rw [hfound] at hmissing
    exact absurd hmissing (by simp)
  · rw [hfound] at hfound'
    obtain rfl : items = list := by simpa using hfound'
    exact hlist

theorem Tracked.call_of_unexpanded (hfan : FanSteps wf.steps) (h : Tracked w wf)
    (hsorted : ∃ topo, Sorted wf.steps topo) (hlists : ListsUpstream w wf)
    (hsafe : Unexpanded w wf) (hfind : w.findWorkflow wf.id = some wf)
    (hrunning : wf.state = .running) (hdead : ∀ row ∈ w.tasksOf wf.id, row.state ≠ .dead)
    (hperm : rows.Perm (w.tasksOf wf.id)) (hout : w.Outcome wf rows ids w')
    (hfind' : w'.findWorkflow wf.id = some wf') : FanOutCall w w' wf wf' := by
  have hnames := hfan.names
  have hcases := h.call_cases hfan hlists hfind hdead hperm hout hfind'
  have htracked := h.outcome hnames hfind hrunning hperm (fun _ => hsafe) hout hfind'
  have hid : wf'.id = wf.id := (World.mem_of_findWorkflow hfind').2
  refine ⟨?_, ?_, ?_, ?_, ?_⟩
  · rw [← hid]
    exact htracked.nodup
  · intro step hstep field hfield hbefore hafter items hover i
    rcases hcases with ⟨-, htasks, -⟩ | ⟨-, -, created, hcall⟩
    · -- a call that completes the workflow launches nothing
      refine absurd ?_ hbefore
      obtain ⟨row, hrow, hof⟩ := hafter
      exact ⟨row, htasks ▸ hrow, hof⟩
    · obtain ⟨row, hrow, hof⟩ := hafter
      obtain ⟨-, -, hdue, -⟩ := hcall.due_of_launched hnames hstep hbefore hrow hof
      have hitems := h.fanItems_eq hnames hperm (hlists.ne_nil hstep hfield hover) hover
      exact hcall.siblings_iff hnames hfield hbefore hdue hitems i
  · intro hstate step hstep hdeps
    rcases hcases with ⟨hcompleted, -⟩ | ⟨-, -, created, hcall⟩
    · rw [hcompleted] at hstate
      exact absurd hstate (by simp)
    · by_cases hnamed : ∃ row ∈ w.tasksOf wf.id, row.stepName = some step.name
      · obtain ⟨row, hrow, hname⟩ := hnamed
        exact ⟨row, hcall.kept hrow, h.of_of_named hnames hstep hrow hname⟩
      · have hdue : Due w wf step :=
          ⟨hstep, fun dep hdep => hsafe.succeeded_of_satisfied (hdeps dep hdep),
            fun row hrow hname => hnamed ⟨row, hrow, hname⟩⟩
        obtain ⟨launches, hexpand, hall⟩ := hcall.all step hdue
        obtain ⟨launch, hlaunch⟩ := List.exists_mem_of_ne_nil _ (expand_ne_nil hexpand)
        obtain ⟨row, hrow, hname⟩ := hall launch hlaunch
        exact ⟨row, hcall.new hrow, launch.stepName, hname,
          ((expand_names hexpand).1 launch hlaunch).2⟩
  · intro step hstep hbefore hafter dep hdep
    obtain ⟨row, hrow, hof⟩ := hafter
    rcases hcases with ⟨-, htasks, -⟩ | ⟨-, -, created, hcall⟩
    · exact absurd ⟨row, htasks ▸ hrow, hof⟩ hbefore
    · obtain ⟨-, -, hdue, -⟩ := hcall.due_of_launched hnames hstep hbefore hrow hof
      obtain ⟨topo, hsorted⟩ := hsorted
      obtain ⟨other, hother, rfl⟩ := hsorted.known step hstep dep hdep
      exact h.satisfied_of_succeeded hnames hother (hdue.deps other.name hdep)
  · constructor
    · intro hstate step hstep
      rcases hcases with ⟨-, -, hall⟩ | ⟨rfl, -, -⟩
      · exact h.satisfied_of_succeeded hnames hstep (hall step hstep)
      · rw [hrunning] at hstate
        exact absurd hstate (by simp)
    · intro hall
      rcases hcases with ⟨hcompleted, -⟩ | ⟨-, hleft, -⟩
      · exact hcompleted
      · exact absurd (fun step hstep => hsafe.succeeded_of_satisfied (hall step hstep)) hleft

/-! ### A call after an expansion -/

/-- A call made after a fan-out step has been expanded gives its first sibling's name to a second
task: the dependencies are still satisfied, and nothing is filed under the step's name. -/
theorem Tracked.not_nodup_of_expanded (hfan : FanSteps wf.steps) (h : Tracked w wf)
    (hlists : ListsUpstream w wf) (hexpanded : ¬ Unexpanded w wf)
    (hfind : w.findWorkflow wf.id = some wf)
    (hdead : ∀ row ∈ w.tasksOf wf.id, row.state ≠ .dead) (hperm : rows.Perm (w.tasksOf wf.id))
    (hout : w.Outcome wf rows ids w') (hfind' : w'.findWorkflow wf.id = some wf') :
    ¬ ((w'.tasksOf wf.id).map TaskRow.stepName).Nodup := by
  have hnames := hfan.names
  simp only [Unexpanded, not_forall, not_not, exists_prop] at hexpanded
  obtain ⟨step, hstep, hfanout, row, hrow, hof⟩ := hexpanded
  have hunnamed : ∀ other ∈ w.tasksOf wf.id, other.stepName ≠ some step.name := by
    intro other hother hname
    exact hfanout (h.plain_of_named hnames hstep hother hname)
  have hdue : Due w wf step := ⟨hstep, h.ready row hrow step hstep hof, hunnamed⟩
  rcases h.call_cases hfan hlists hfind hdead hperm hout hfind' with
    ⟨-, -, hall⟩ | ⟨-, -, created, hcall⟩
  · obtain ⟨other, hother, hname, -⟩ := hall step hstep
    exact absurd hname (hunnamed other hother)
  · obtain ⟨old, hold, holdname⟩ := h.first row hrow step hstep hfanout hof
    obtain ⟨new, hnew, hnewname⟩ := hcall.exists_first hdue hfanout
    rw [hcall.tasks, List.map_append, List.nodup_append]
    rintro ⟨-, -, hdisjoint⟩
    refine hdisjoint _ (List.mem_map_of_mem hold) _ (List.mem_map_of_mem hnew) ?_
    rw [holdname, hnewname]

end Call

/-! ### Every run -/

section Runs

variable {w w' : World} {workflowId : Uuid} {wf wf' : WorkflowRow}

/-- A call that finds the workflow final, or a task of it dead, creates no task. -/
theorem tasksOf_eq_of_dead (h : Tracks FanSteps workflowId w)
    (hfind : w.findWorkflow workflowId = some wf) (hfan : FanSteps wf.steps)
    (hends : wf.state ≠ .running ∨ ∃ row ∈ w.tasksOf workflowId, row.state = .dead)
    {rows : List TaskRow} {ids : List Uuid} {now : ℚ}
    (hstep : w.advance workflowId rows ids now = some w') :
    w'.tasksOf workflowId = w.tasksOf workflowId := by
  obtain rfl := (World.mem_of_findWorkflow hfind).2
  rcases World.advance_cases hstep with ⟨rfl, -⟩ | ⟨found, hfound, hrunning, hperm, hout⟩
  · rfl
  · obtain rfl : wf = found := Option.mem_unique hfind hfound
    obtain ⟨row, hrow, hstate⟩ := hends.resolve_left (not_not.mpr hrunning)
    have htracked := h wf hfind hfan
    -- the dead task is filed under its name, so the call fails the workflow
    obtain ⟨step, -, name, hname, -⟩ := htracked.named row hrow
    have hdead := (htracked.mem_namesIn hfan.names hperm).mpr ⟨row, hrow, hname, hstate⟩
    cases hout with
    | failed => rfl
    | completed => rfl
    | raised => rfl
    | launched plan redis created hnone =>
      rw [hnone] at hdead
      exact absurd hdead List.not_mem_nil

/-- A call on the running workflow does what it should exactly when no fan-out step has been
expanded before it. -/
theorem call_iff_unexpanded (h : Tracks FanSteps workflowId w) (hinv : w.Inv)
    (hfind : w.findWorkflow workflowId = some wf) (hfan : FanSteps wf.steps)
    (hrunning : wf.state = .running) (hdead : ∀ row ∈ w.tasksOf workflowId, row.state ≠ .dead)
    (hlists : ListsUpstream w wf) {rows : List TaskRow} {ids : List Uuid} {now : ℚ}
    (hstep : w.advance workflowId rows ids now = some w')
    (hfind' : w'.findWorkflow workflowId = some wf') :
    FanOutCall w w' wf wf' ↔ Unexpanded w wf := by
  obtain ⟨hmem, rfl⟩ := World.mem_of_findWorkflow hfind
  have htracked := h wf hfind hfan
  rcases World.advance_cases hstep with ⟨-, hfinal⟩ | ⟨found, hfound, -, hperm, hout⟩
  · exact absurd hrunning (hfinal wf hfind)
  · obtain rfl : wf = found := Option.mem_unique hfind hfound
    constructor
    · intro hcall
      by_contra hexpanded
      exact htracked.not_nodup_of_expanded hfan hlists hexpanded hfind hdead hperm hout hfind'
        hcall.once
    · intro hsafe
      exact htracked.call_of_unexpanded hfan (hinv.accepted wf hmem) hlists hsafe hfind hrunning
        hdead hperm hout hfind'

/-- The call made by `submit` finds no task, so nothing has been expanded. -/
theorem call_of_submit (h : Tracks FanSteps workflowId w) (hinv : w.Inv) {name : String}
    {steps : List WorkflowStep} (hfan : FanSteps steps) {order : List String} {ids : List Uuid}
    {now : ℚ} (hstep : w.submit workflowId name steps order ids now = some w')
    (hfind' : w'.findWorkflow workflowId = some wf') :
    FanOutCall (w.withWorkflow ⟨workflowId, name, steps, .running⟩) w'
      ⟨workflowId, name, steps, .running⟩ wf' := by
  obtain ⟨hnone, rfl | ⟨hsorted, hadvance⟩⟩ := World.submit_cases hstep
  · rw [hfind'] at hnone
    exact absurd hnone (by simp)
  · set created : WorkflowRow := ⟨workflowId, name, steps, .running⟩ with hcreated
    have hcinv : (w.withWorkflow created).Inv := hinv.withWorkflow hnone hsorted
    have hctracks : Tracks FanSteps workflowId (w.withWorkflow created) :=
      h.withWorkflow hinv hnone rfl
    have hfind : (w.withWorkflow created).findWorkflow workflowId = some created :=
      hcinv.findWorkflow_eq (List.mem_append_right _ (List.mem_singleton_self _))
    have hempty : ∀ row, row ∉ (w.withWorkflow created).tasksOf workflowId := by
      intro row hrow
      rw [show (w.withWorkflow created).tasksOf workflowId = [] from hinv.tasksOf_eq_nil hnone]
        at hrow
      exact List.not_mem_nil hrow
    refine (call_iff_unexpanded hctracks hcinv hfind hfan rfl (fun row hrow => ?_) ?_ hadvance
      hfind').mpr ?_
    · exact absurd hrow (hempty row)
    · rintro step - field - dep - result ⟨row, hrow, -⟩
      exact absurd hrow (hempty row)
    · intro step _ _ row hrow
      exact absurd hrow (hempty row)

/-- **Fan-out and fan-in, one call at a time.** In a run whose calls of `advance` on the workflow
all come before any of its fan-out steps has been expanded, or find it final or with a dead
task:

* in every state no two tasks of the workflow have the same name, so no step has been expanded
  twice;
* a call with lists upstream, on the running workflow without dead tasks, does what it should
  exactly when no fan-out step has been expanded before it;
* the call made by `submit` does;
* a call that finds the workflow final or with a dead task creates no task. -/
theorem fan_out_call_iff
    (hrun : ReachesWhen World.step (SafeFor FanSteps workflowId) .empty w) :
    (w.findWorkflow workflowId = some wf → FanSteps wf.steps →
      ((w.tasksOf workflowId).map TaskRow.stepName).Nodup) ∧
    (∀ rows ids now, w.findWorkflow workflowId = some wf → FanSteps wf.steps →
      wf.state = .running → (∀ row ∈ w.tasksOf workflowId, row.state ≠ .dead) →
        ListsUpstream w wf → w.advance workflowId rows ids now = some w' →
          w'.findWorkflow workflowId = some wf' →
            (FanOutCall w w' wf wf' ↔ Unexpanded w wf)) ∧
    (∀ name steps order ids now, FanSteps steps →
      w.submit workflowId name steps order ids now = some w' →
        w'.findWorkflow workflowId = some wf' →
          FanOutCall (w.withWorkflow ⟨workflowId, name, steps, .running⟩) w'
            ⟨workflowId, name, steps, .running⟩ wf') ∧
    (∀ rows ids now, w.findWorkflow workflowId = some wf → FanSteps wf.steps →
      (wf.state ≠ .running ∨ ∃ row ∈ w.tasksOf workflowId, row.state = .dead) →
        w.advance workflowId rows ids now = some w' →
          w'.tasksOf workflowId = w.tasksOf workflowId) := by
  have hS : ∀ steps, FanSteps steps → WellNamed steps := fun _ h => h.names
  have htracks := tracks_reaches hS hrun
  have hinv := World.inv_reaches hrun.reaches
  refine ⟨fun hfind hfan => ?_, ?_, ?_, ?_⟩
  · obtain rfl := (World.mem_of_findWorkflow hfind).2
    exact (htracks wf hfind hfan).nodup
  · intro rows ids now hfind hfan hrunning hdead hlists hstep hfind'
    exact call_iff_unexpanded htracks hinv hfind hfan hrunning hdead hlists hstep hfind'
  · intro name steps order ids now hfan hstep hfind'
    exact call_of_submit htracks hinv hfan hstep hfind'
  · intro rows ids now hfind hfan hends hstep
    exact tasksOf_eq_of_dead htracks hfind hfan hends hstep

end Runs

/-! ### The example of the specification, shortened -/

namespace FanOutExample

/-- Fetch, index each chunk of what was fetched, then notify. -/
def steps : List WorkflowStep :=
  [⟨"fetch", "f", none, [], none, .absent⟩, ⟨"index", "g", none, ["fetch"], some "chunks", .absent⟩,
    ⟨"notify", "h", none, ["index"], none, .absent⟩]

/-- The workflow's row. -/
def row (state : WorkflowState) : WorkflowRow := ⟨⟨1⟩, "w", steps, state⟩

/-- A task of the workflow that has succeeded. -/
def succeeded (task : String) (stepName : String) (payload : Json) (taskId : Uuid) : TaskRow :=
  { Launch.row ⟨⟨"", task, none, [], none, .absent⟩, stepName, payload⟩ ⟨1⟩ taskId 5 with
    state := .succeeded, attempt := 1 }

/-- What the first step found: two chunks. -/
def chunks : Json := .obj [("chunks", .arr [.str "x", .str "y"])]

/-- Submission, and the first step done. -/
def fetched : List World.Act :=
  [.submit ⟨1⟩ "w" steps ["notify", "index", "fetch"] [⟨2⟩] 0, .lease ⟨2⟩,
    .succeed ⟨2⟩ 1 (some chunks)]

/-- The tasks at that point. -/
def tasks : List TaskRow := [succeeded "f" "fetch" (.obj []) ⟨2⟩]

/-- The tasks once the two siblings have succeeded as well. -/
def allTasks : List TaskRow :=
  tasks ++ [succeeded "g" "index[0]" (.obj [("item", .str "x")]) ⟨3⟩,
    succeeded "g" "index[1]" (.obj [("item", .str "y")]) ⟨4⟩]

/-- The expansion, and both siblings done. -/
def indexed : List World.Act :=
  fetched ++ [.advance ⟨1⟩ tasks [⟨3⟩, ⟨4⟩] 0, .lease ⟨3⟩, .lease ⟨4⟩, .succeed ⟨3⟩ 2 none,
    .succeed ⟨4⟩ 3 none]

theorem fanSteps : FanSteps steps where
  names := .of_getLast (by decide) (by decide) (by decide)
  retry := by decide

end FanOutExample

open FanOutExample in
/-- The call after the first step expands the second one into two siblings, as it should. -/
theorem fan_out_call_iff_two_chunks :
    ∃ w w', ReachesWhen World.step (SafeFor FanSteps ⟨1⟩) .empty w ∧
      w.advance ⟨1⟩ tasks [⟨3⟩, ⟨4⟩] 0 = some w' ∧
      (w'.tasksOf ⟨1⟩).map TaskRow.stepName =
        [some "fetch", some "index[0]", some "index[1]"] ∧
      FanOutCall w w' (row .running) (row .running) := by
  obtain ⟨w, hrun, hfind, htasks, hread, hcall⟩ := exists_run_of_check World.step .empty fetched
    (fun w => w.findWorkflow ⟨1⟩ = some (row .running) ∧ w.tasksOf ⟨1⟩ = tasks ∧
      Collected.resultOf w.stores.db (succeeded "f" "fetch" (.obj []) ⟨2⟩) = some chunks ∧
      ((w.advance ⟨1⟩ tasks [⟨3⟩, ⟨4⟩] 0).any fun w' =>
        decide (w'.findWorkflow ⟨1⟩ = some (row .running) ∧
          (w'.tasksOf ⟨1⟩).map TaskRow.stepName =
            [some "fetch", some "index[0]", some "index[1]"])) = true)
    (by decide +kernel)
  obtain ⟨w', hstep, hcheck⟩ := (Option.any_eq_true _ _).mp hcall
  obtain ⟨hfind', hnames⟩ := of_decide_eq_true hcheck
  have hreaches : ReachesWhen World.step (SafeFor FanSteps ⟨1⟩) .empty w :=
    .of_run (by simp [fetched, SafeFor]) hrun
  refine ⟨w, w', hreaches, hstep, hnames, ?_⟩
  refine ((fan_out_call_iff hreaches).2.1 tasks _ 0 hfind fanSteps rfl ?_ ?_ hstep hfind').mpr ?_
  · rw [htasks]
    decide
  · -- the only result there is has the list under the only fan-out field there is
    rintro step hstep field hfield dep - result ⟨found, hfound, -, hresult⟩
    rw [show (row .running).id = ⟨1⟩ from rfl, htasks] at hfound
    obtain rfl := List.mem_singleton.mp hfound
    obtain rfl : chunks = result := Option.mem_unique hread hresult
    have hchunks : field = "chunks" := by
      have hfields : ∀ s ∈ steps, s.fanOutField = none ∨ s.fanOutField = some "chunks" := by decide
      rcases hfields step hstep with hnone | hsome
      · rw [hfield] at hnone
        exact absurd hnone (by simp)
      · exact Option.mem_unique hfield hsome
    rw [hchunks]
    exact Or.inr ⟨[.str "x", .str "y"], by simp, by decide⟩
  · rintro step - hfanout found hfound ⟨name, hname, htask⟩
    rw [show (row .running).id = ⟨1⟩ from rfl, htasks] at hfound
    obtain rfl := List.mem_singleton.mp hfound
    obtain ⟨field, hfield⟩ := Option.ne_none_iff_exists'.mp hfanout
    obtain ⟨i, rfl⟩ := (taskName_of_fan hfield).mp htask
    have hlast := getLast?_siblingName step.name i
    rw [← Option.some.inj hname] at hlast
    exact absurd hlast (by decide)

open FanOutExample in
/-- Both siblings have succeeded, so that the last step should be launched. The call expands the
second step again instead. -/
theorem fan_out_twice :
    ∃ w w', Reaches World.step .empty w ∧ w.tasksOf ⟨1⟩ = allTasks ∧
      w.advance ⟨1⟩ allTasks [⟨5⟩, ⟨6⟩] 0 = some w' ∧
      w'.findWorkflow ⟨1⟩ = some (row .running) ∧
      (w'.tasksOf ⟨1⟩).map TaskRow.stepName =
        [some "fetch", some "index[0]", some "index[1]", some "index[0]", some "index[1]"] ∧
      ¬ FanOutCall w w' (row .running) (row .running) := by
  obtain ⟨w, hrun, htasks, hcall⟩ := exists_run_of_check World.step .empty indexed
    (fun w => w.tasksOf ⟨1⟩ = allTasks ∧
      ((w.advance ⟨1⟩ allTasks [⟨5⟩, ⟨6⟩] 0).any fun w' =>
        decide (w'.findWorkflow ⟨1⟩ = some (row .running) ∧
          (w'.tasksOf ⟨1⟩).map TaskRow.stepName = [some "fetch", some "index[0]",
            some "index[1]", some "index[0]", some "index[1]"])) = true)
    (by decide +kernel)
  obtain ⟨w', hstep, hcheck⟩ := (Option.any_eq_true _ _).mp hcall
  obtain ⟨hfind', hnames⟩ := of_decide_eq_true hcheck
  refine ⟨w, w', .of_run hrun, htasks, hstep, hfind', hnames, fun hgood => ?_⟩
  have honce := hgood.once
  rw [show (row .running).id = ⟨1⟩ from rfl, hnames] at honce
  exact absurd honce (by decide)

end Dtq
