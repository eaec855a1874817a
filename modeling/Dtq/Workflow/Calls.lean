import Dtq.System.Step
import Dtq.Workflow.Tracking

/-!
# Concurrent calls of `advance`

A call of `advance` as a machine that stops at every statement and at every publication, as the
executor and the requests do elsewhere. Its reads see what is committed at that moment (`READ
COMMITTED`), the rows it inserts stay its own until the final `COMMIT`, and what it publishes is on
the broker at once. Nothing keeps two calls on one workflow apart.

Any number of calls run interleaved with each other, with workers polling the queue and with
progress on tasks. Every call may raise before or after its pending statement took effect, and the
process may die between any two.

## Main results

* `AdvanceCall.move_of_answer` — everything that an answer to a call can do
* `Calls.runs_alone` — a call that runs alone does what `World.advance` does
-/

set_option autoImplicit false

namespace Dtq

open Transition

/-- The statement or publication that a call of `advance` is waiting on. -/
inductive AdvancePc
  /-- `get_workflow` -/
  | getWorkflow
  /-- `get_tasks_for_workflow` -/
  | getTasks (wf : WorkflowRow)
  /-- the loop over the tasks returned, with its `get_effect` -/
  | getEffects (wf : WorkflowRow) (rows left : List TaskRow) (c : Collected)
  /-- `update_workflow_state`, with the `COMMIT` after it -/
  | setState (wf : WorkflowRow) (state : WorkflowState)
  /-- the launching loop: `create_task` for the first planned launch; the final `COMMIT` when none
  is left -/
  | launch (wf : WorkflowRow) (plan : List (Option Launch))
  /-- `publish`, then the rest of the loop -/
  | publish (wf : WorkflowRow) (envelope : TaskEnvelope) (rest : List (Option Launch))
  /-- the call has returned, raised or died; whether its transaction was committed -/
  | ended (committed : Bool)

/-- The envelope whose publication is pending. -/
def AdvancePc.pending : AdvancePc → List TaskEnvelope
  | .publish _ envelope _ => [envelope]
  | .getWorkflow | .getTasks _ | .getEffects .. | .setState .. | .launch .. | .ended _ => []

/-- A call of `advance` in progress: the rows its transaction has inserted, and a record of what it
has published. -/
structure AdvanceCall where
  workflowId : Uuid
  pc : AdvancePc := .getWorkflow
  inserted : List TaskRow := []
  published : List TaskEnvelope := []

namespace AdvanceCall

variable (call : AdvanceCall)

def goto (pc : AdvancePc) : AdvanceCall := { call with pc := pc }

/-- The call is in progress. -/
def isOpen : Bool :=
  match call.pc with
  | .ended _ => false
  | _ => true

/-- The call has ended without its commit. -/
def isAborted : Bool :=
  match call.pc with
  | .ended false => true
  | _ => false

theorem isAborted_iff {call : AdvanceCall} : call.isAborted = true ↔ call.pc = .ended false := by
  unfold isAborted
  split
  · next hpc => simp [hpc]
  · next hpc => simpa using hpc

/-- What the code does with the tasks it has collected. -/
def decision (wf : WorkflowRow) (rows : List TaskRow) (c : Collected) : AdvancePc :=
  if c.namesIn rows .dead ≠ [] then .setState wf .failed
  else if ∀ step ∈ wf.steps, step.name ∈ c.namesIn rows .succeeded then .setState wf .completed
  else .launch wf (c.plan wf.steps (c.namesIn rows .succeeded))

/-- The pending statement takes effect and returns. `rows` is the order in which the tasks are
returned, `taskId` the `uuid4` drawn, and `waiting` the rows that calls have inserted so far. -/
def proceed (w : World) (waiting rows : List TaskRow) (taskId : Uuid) (now : ℚ) :
    Option (World × AdvanceCall) :=
  match call.pc with
  | .getWorkflow =>
    match w.findWorkflow call.workflowId with
    | some wf =>
      if wf.state = .running then some (w, call.goto (.getTasks wf))
      else some (w, call.goto (.ended false))
    | none => some (w, call.goto (.ended false))
  | .getTasks wf =>
    if rows.Perm (w.tasksOf call.workflowId) then
      some (w, call.goto (.getEffects wf rows rows ⟨fun _ => none, fun _ => none⟩))
    else none
  | .getEffects wf rows (row :: left) c =>
    some (w, call.goto (.getEffects wf rows left (c.add w.stores.db row)))
  | .getEffects wf rows [] c => some (w, call.goto (decision wf rows c))
  | .setState wf state => some (w.setWorkflowState wf.id state, call.goto (.ended true))
  | .launch _ [] =>
    some ({ w with stores := { w.stores with
        db := { w.stores.db with tasks := w.stores.db.tasks ++ call.inserted } } },
      call.goto (.ended true))
  | .launch _ (none :: _) => some (w, call.goto (.ended false))
  | .launch wf (some launch :: rest) =>
    match maxAttemptsOf launch.step.retry with
    | none => some (w, call.goto (.ended false))
    | some maxAttempts =>
      let row := launch.row wf.id taskId maxAttempts
      if ¬ Db.Fits row then some (w, call.goto (.ended false))
      else if w.stores.db.Insertable row ∧ ∀ other ∈ waiting, other.id ≠ row.id then
        some (w, { call with
          pc := .publish wf (launch.envelope wf.id taskId maxAttempts now) rest
          inserted := call.inserted ++ [row] })
      else none
  | .publish wf envelope rest =>
    some ({ w with stores := { w.stores with
        redis := w.stores.redis.modifyQueue "default" fun q => q.publish envelope } },
      { call with pc := .launch wf rest, published := call.published ++ [envelope] })
  | .ended _ => none

/-- An exception or the death of the process ends the call. Its transaction is rolled back, unless
it has been committed. -/
def abandoned : AdvanceCall :=
  match call.pc with
  | .ended _ => call
  | _ => call.goto (.ended false)

/-- The pending statement has an effect outside the open transaction. -/
def reachesOut : Bool :=
  match call.pc with
  | .setState .. | .launch _ [] | .publish .. => true
  | _ => false

/-- What the answer to its pending statement makes of a call. When it raises, or the process dies,
only a `COMMIT` or a publication may have taken effect. -/
def answer (w : World) (waiting rows : List TaskRow) (taskId : Uuid) :
    Reply → Option (World × AdvanceCall)
  | .ok now _ => call.proceed w waiting rows taskId now
  | .raise true now _ _ =>
    if call.reachesOut then
      (call.proceed w waiting rows taskId now).map fun out => (out.1, out.2.abandoned)
    else if call.isOpen then some (w, call.abandoned)
    else none
  | .raise false _ _ _ | .crash => if call.isOpen then some (w, call.abandoned) else none

end AdvanceCall

/-- The stores and the calls. -/
structure Calls where
  world : World
  calls : List AdvanceCall

namespace Calls

/-- Nothing has happened. -/
def empty : Calls := ⟨.empty, []⟩

variable (s : Calls)

/-- The rows that calls have inserted, committed or not. -/
def waiting : List TaskRow := s.calls.flatMap AdvanceCall.inserted

/-- The entries of the queue. -/
def stream : List TaskEnvelope := (s.world.stores.redis.queues "default").stream

/-- What can happen next. -/
inductive Act
  /-- the part of `submit` before its call of `advance` -/
  | create (workflowId : Uuid) (name : String) (steps : List WorkflowStep) (order : List String)
  /-- a call of `advance` begins -/
  | begin (workflowId : Uuid)
  /-- the pending statement of a call is answered -/
  | call (i : ℕ) (rows : List TaskRow) (taskId : Uuid) (reply : Reply)
  /-- a worker's poll is handed the next entry of the queue -/
  | deliver (workerId : String)
  /-- a worker's reclaim loop adopts a pending entry -/
  | adopt (workerId : String) (msgId : ℕ)
  /-- progress on a task -/
  | lease (taskId : Uuid)
  | succeed (taskId : Uuid) (fence : ℕ) (result : Option Json)
  | die (taskId : Uuid)

/-- Replace the keys of the queue. -/
def withQueue (q : QueueState) : Calls :=
  { s with world := { s.world with stores := { s.world.stores with
      redis := s.world.stores.redis.modifyQueue "default" fun _ => q } } }

/-- One such event. -/
def step : Act → Option Calls
  | .create workflowId name steps order =>
    if s.world.findWorkflow workflowId = none ∧ order.Perm (DagTables.ofSteps steps).allNames then
      match validateDag order steps with
      | .error _ => some s
      | .ok _ => some { s with world := s.world.withWorkflow ⟨workflowId, name, steps, .running⟩ }
    else none
  | .begin workflowId => some { s with calls := s.calls ++ [{ workflowId := workflowId }] }
  | .call i rows taskId reply =>
    s.calls[i]?.bind fun call =>
      (call.answer s.world s.waiting rows taskId reply).map fun out =>
        ⟨out.1, s.calls.set i out.2⟩
  | .deliver workerId =>
    ((s.world.stores.redis.queues "default").lease workerId).map fun out => s.withQueue out.1
  | .adopt workerId msgId =>
    ((s.world.stores.redis.queues "default").reclaim workerId msgId).map fun out =>
      s.withQueue out.1
  | .lease taskId => (s.world.step (.lease taskId)).map fun w => { s with world := w }
  | .succeed taskId fence result =>
    (s.world.step (.succeed taskId fence result)).map fun w => { s with world := w }
  | .die taskId => (s.world.step (.die taskId)).map fun w => { s with world := w }

end Calls

/-! ### What an answer can do -/

namespace AdvanceCall

/-- The effect of one answer on the stores and the call. -/
inductive Move (w : World) (waiting : List TaskRow) (call : AdvanceCall) :
    World → AdvanceCall → Prop
  | found (wf : WorkflowRow) (hpc : call.pc = .getWorkflow)
      (hfind : w.findWorkflow call.workflowId = some wf) (hrunning : wf.state = .running) :
      Move w waiting call w (call.goto (.getTasks wf))
  | read (wf : WorkflowRow) (rows : List TaskRow) (hpc : call.pc = .getTasks wf)
      (hperm : rows.Perm (w.tasksOf call.workflowId)) :
      Move w waiting call w
        (call.goto (.getEffects wf rows rows ⟨fun _ => none, fun _ => none⟩))
  | collected (wf : WorkflowRow) (rows : List TaskRow) (row : TaskRow) (left : List TaskRow)
      (c : Collected) (hpc : call.pc = .getEffects wf rows (row :: left) c) :
      Move w waiting call w (call.goto (.getEffects wf rows left (c.add w.stores.db row)))
  | decided (wf : WorkflowRow) (rows : List TaskRow) (c : Collected)
      (hpc : call.pc = .getEffects wf rows [] c) :
      Move w waiting call w (call.goto (decision wf rows c))
  | finished (wf : WorkflowRow) (state : WorkflowState) (hpc : call.pc = .setState wf state) :
      Move w waiting call (w.setWorkflowState wf.id state) (call.goto (.ended true))
  | committed (wf : WorkflowRow) (hpc : call.pc = .launch wf []) :
      Move w waiting call
        { w with stores := { w.stores with
            db := { w.stores.db with tasks := w.stores.db.tasks ++ call.inserted } } }
        (call.goto (.ended true))
  | inserted (wf : WorkflowRow) (launch : Launch) (rest : List (Option Launch)) (taskId : Uuid)
      (n : ℤ) (now : ℚ) (hpc : call.pc = .launch wf (some launch :: rest))
      (hn : maxAttemptsOf launch.step.retry = some n)
      (hinsert : w.stores.db.Insertable (launch.row wf.id taskId n))
      (hwaiting : ∀ other ∈ waiting, other.id ≠ taskId) :
      Move w waiting call w
        { call with
          pc := .publish wf (launch.envelope wf.id taskId n now) rest
          inserted := call.inserted ++ [launch.row wf.id taskId n] }
  | published (wf : WorkflowRow) (envelope : TaskEnvelope) (rest : List (Option Launch))
      (hpc : call.pc = .publish wf envelope rest) :
      Move w waiting call
        { w with stores := { w.stores with
            redis := w.stores.redis.modifyQueue "default" fun q => q.publish envelope } }
        { call with pc := .launch wf rest, published := call.published ++ [envelope] }
  /-- the envelope is on the broker, and the call raises -/
  | lost (wf : WorkflowRow) (envelope : TaskEnvelope) (rest : List (Option Launch))
      (hpc : call.pc = .publish wf envelope rest) :
      Move w waiting call
        { w with stores := { w.stores with
            redis := w.stores.redis.modifyQueue "default" fun q => q.publish envelope } }
        { call with pc := .ended false, published := call.published ++ [envelope] }
  | aborted (hopen : call.isOpen = true) : Move w waiting call w (call.goto (.ended false))

variable {call call' : AdvanceCall} {w w' : World} {waiting rows : List TaskRow} {taskId : Uuid}
  {now : ℚ}

theorem move_of_proceed (h : call.proceed w waiting rows taskId now = some (w', call')) :
    Move w waiting call w' call' := by
  unfold proceed at h
  cases hpc : call.pc with
  | getWorkflow =>
    have hopen : call.isOpen = true := by simp [isOpen, hpc]
    simp only [hpc] at h
    split at h
    · next wf hfind =>
      split_ifs at h with hrunning
      · obtain ⟨rfl, rfl⟩ := Prod.mk.inj (Option.some.inj h)
        exact .found wf hpc hfind hrunning
      · obtain ⟨rfl, rfl⟩ := Prod.mk.inj (Option.some.inj h)
        exact .aborted hopen
    · obtain ⟨rfl, rfl⟩ := Prod.mk.inj (Option.some.inj h)
      exact .aborted hopen
  | getTasks wf =>
    simp only [hpc] at h
    split_ifs at h with hperm
    obtain ⟨rfl, rfl⟩ := Prod.mk.inj (Option.some.inj h)
    exact .read wf rows hpc hperm
  | getEffects wf rows left c =>
    cases left with
    | nil =>
      simp only [hpc] at h
      obtain ⟨rfl, rfl⟩ := Prod.mk.inj (Option.some.inj h)
      exact .decided wf rows c hpc
    | cons row left =>
      simp only [hpc] at h
      obtain ⟨rfl, rfl⟩ := Prod.mk.inj (Option.some.inj h)
      exact .collected wf rows row left c hpc
  | setState wf state =>
    simp only [hpc] at h
    obtain ⟨rfl, rfl⟩ := Prod.mk.inj (Option.some.inj h)
    exact .finished wf state hpc
  | launch wf plan =>
    have hopen : call.isOpen = true := by simp [isOpen, hpc]
    match plan with
    | [] =>
      simp only [hpc] at h
      obtain ⟨rfl, rfl⟩ := Prod.mk.inj (Option.some.inj h)
      exact .committed wf hpc
    | none :: rest =>
      simp only [hpc] at h
      obtain ⟨rfl, rfl⟩ := Prod.mk.inj (Option.some.inj h)
      exact .aborted hopen
    | some launch :: rest =>
      simp only [hpc] at h
      split at h
      · obtain ⟨rfl, rfl⟩ := Prod.mk.inj (Option.some.inj h)
        exact .aborted hopen
      · next n hn =>
        -- with neither, the insertion is blocked and does not return
        split_ifs at h with hfits hinsert
        · obtain ⟨rfl, rfl⟩ := Prod.mk.inj (Option.some.inj h)
          exact .inserted wf launch rest taskId n now hpc hn hinsert.1 hinsert.2
        · obtain ⟨rfl, rfl⟩ := Prod.mk.inj (Option.some.inj h)
          exact .aborted hopen
  | publish wf envelope rest =>
    simp only [hpc] at h
    obtain ⟨rfl, rfl⟩ := Prod.mk.inj (Option.some.inj h)
    exact .published wf envelope rest hpc
  | ended committed =>
    simp only [hpc] at h
    exact absurd h (by simp)

theorem abandoned_of_open (hopen : call.isOpen = true) :
    call.abandoned = call.goto (.ended false) := by
  unfold abandoned
  unfold isOpen at hopen
  split
  · next hpc => simp [hpc] at hopen
  · rfl

/-- Everything that an answer can do. -/
theorem move_of_answer {reply : Reply}
    (h : call.answer w waiting rows taskId reply = some (w', call')) :
    Move w waiting call w' call' := by
  have haborts : (if call.isOpen then some (w, call.abandoned) else none) = some (w', call') →
      Move w waiting call w' call' := by
    intro h
    split_ifs at h with hopen
    obtain ⟨rfl, rfl⟩ := Prod.mk.inj (Option.some.inj h)
    rw [abandoned_of_open hopen]
    exact .aborted hopen
  match reply with
  | .ok now _ => exact move_of_proceed h
  | .raise false _ _ _ => exact haborts h
  | .crash => exact haborts h
  | .raise true now _ _ =>
    simp only [answer] at h
    split_ifs at h with hout hopen
    · obtain ⟨⟨w₁, call₁⟩, hproceed, heq⟩ := Option.map_eq_some_iff.mp h
      obtain ⟨rfl, rfl⟩ := Prod.mk.inj heq
      -- only the statements with an effect outside the transaction are left
      unfold proceed at hproceed
      unfold reachesOut at hout
      split at hout
      · next wf state hpc =>
        simp only [hpc, Option.some.injEq, Prod.mk.injEq] at hproceed
        obtain ⟨rfl, rfl⟩ := hproceed
        exact .finished wf state hpc
      · next wf hpc =>
        simp only [hpc, Option.some.injEq, Prod.mk.injEq] at hproceed
        obtain ⟨rfl, rfl⟩ := hproceed
        exact .committed wf hpc
      · next wf envelope rest hpc =>
        simp only [hpc, Option.some.injEq, Prod.mk.injEq] at hproceed
        obtain ⟨rfl, rfl⟩ := hproceed
        exact .lost wf envelope rest hpc
      · exact absurd hout (by simp)
    · obtain ⟨rfl, rfl⟩ := Prod.mk.inj (Option.some.inj h)
      rw [abandoned_of_open hopen]
      exact .aborted hopen

/-! ### When a call ends without its commit -/

/-- The answer ends the call before its commit: it raises on something other than a `COMMIT` that
has taken effect, or the next launch cannot be made. -/
def Aborts (call : AdvanceCall) : Reply → Prop
  | .ok _ _ =>
    match call.pc with
    | .launch _ (none :: _) => True
    | .launch _ (some launch :: _) => ¬ RetryOk launch.step.retry
    | _ => False
  | .raise true _ _ _ =>
    match call.pc with
    | .setState .. | .launch _ [] => False
    | _ => True
  | .raise false _ _ _ | .crash => True

/-- What the call has on the broker after the answer. -/
def publishedAfter (call : AdvanceCall) (reply : Reply) : List TaskEnvelope :=
  call.published ++ if reply.applied then call.pc.pending else []

/-- A statement that returns ends the call without a commit in two places only. -/
theorem aborts_of_proceed (h : call.proceed w waiting rows taskId now = some (w', call'))
    (hended : call'.pc = .ended false) :
    call.pc = .getWorkflow ∨ ∀ draw, call.Aborts (.ok now draw) := by
  unfold proceed at h
  cases hpc : call.pc with
  | getWorkflow => exact Or.inl rfl
  | getTasks wf =>
    simp only [hpc] at h
    split_ifs at h
    obtain ⟨rfl, rfl⟩ := Prod.mk.inj (Option.some.inj h)
    exact absurd hended (by simp [goto])
  | getEffects wf rows left c =>
    cases left with
    | nil =>
      simp only [hpc] at h
      obtain ⟨rfl, rfl⟩ := Prod.mk.inj (Option.some.inj h)
      simp only [goto, decision] at hended
      -- a decision goes on to `setState` or to the launches, so it is not an end without a commit
      split_ifs at hended
    | cons row left =>
      simp only [hpc] at h
      obtain ⟨rfl, rfl⟩ := Prod.mk.inj (Option.some.inj h)
      exact absurd hended (by simp [goto])
  | setState wf state =>
    simp only [hpc] at h
    obtain ⟨rfl, rfl⟩ := Prod.mk.inj (Option.some.inj h)
    exact absurd hended (by simp [goto])
  | launch wf plan =>
    match plan with
    | [] =>
      simp only [hpc] at h
      obtain ⟨rfl, rfl⟩ := Prod.mk.inj (Option.some.inj h)
      exact absurd hended (by simp [goto])
    | none :: rest => exact Or.inr fun _ => by simp [Aborts, hpc]
    | some launch :: rest =>
      simp only [hpc] at h
      split at h
      · next hnone => exact Or.inr fun _ => by simp [Aborts, hpc, RetryOk, hnone]
      · next n hn =>
        split_ifs at h with hfits
        · obtain ⟨rfl, rfl⟩ := Prod.mk.inj (Option.some.inj h)
          exact absurd hended (by simp)
        · refine Or.inr fun _ => ?_
          simp only [Aborts, hpc]
          exact mt (Launch.fits_row_iff hn _ _).mpr hfits
  | publish wf envelope rest =>
    simp only [hpc] at h
    obtain ⟨rfl, rfl⟩ := Prod.mk.inj (Option.some.inj h)
    exact absurd hended (by simp)
  | ended committed =>
    simp only [hpc] at h
    exact absurd h (by simp)

/-- A call ends without its commit when it aborts, and when there is nothing to advance. -/
theorem aborts_of_answer {reply : Reply}
    (h : call.answer w waiting rows taskId reply = some (w', call'))
    (hended : call'.pc = .ended false) : call.pc = .getWorkflow ∨ call.Aborts reply := by
  match reply with
  | .raise false _ _ _ => exact Or.inr trivial
  | .crash => exact Or.inr trivial
  | .ok now draw => exact (aborts_of_proceed h hended).imp_right fun haborts => haborts draw
  | .raise true now draw message =>
    simp only [answer] at h
    refine Or.inr ?_
    simp only [Aborts]
    split
    -- a commit that has taken effect is not undone by the exception
    · next hpc =>
      simp only [reachesOut, proceed, hpc, if_true, Option.map_some, Option.some.injEq,
        Prod.mk.injEq] at h
      rw [← h.2] at hended
      exact absurd hended (by simp [abandoned, goto])
    · next hpc =>
      simp only [reachesOut, proceed, hpc, if_true, Option.map_some, Option.some.injEq,
        Prod.mk.injEq] at h
      rw [← h.2] at hended
      exact absurd hended (by simp [abandoned, goto])
    · trivial

theorem ended_of_abandoned
    (h : (if call.isOpen then some (w, call.abandoned) else none) = some (w', call')) :
    call' = call.goto (.ended false) := by
  split_ifs at h with hopen
  rw [← (Prod.mk.inj (Option.some.inj h)).2, abandoned_of_open hopen]

theorem ended_of_aborts {reply : Reply}
    (h : call.answer w waiting rows taskId reply = some (w', call'))
    (haborts : call.Aborts reply) : call'.pc = .ended false := by
  match reply with
  | .raise false _ _ _ => rw [ended_of_abandoned h, goto]
  | .crash => rw [ended_of_abandoned h, goto]
  | .ok now draw =>
    simp only [answer, proceed] at h
    simp only [Aborts] at haborts
    split at haborts
    · next hpc =>
      simp only [hpc] at h
      rw [← (Prod.mk.inj (Option.some.inj h)).2, goto]
    · next launch rest hpc =>
      simp only [hpc] at h
      split at h
      · rw [← (Prod.mk.inj (Option.some.inj h)).2, goto]
      · next n hn =>
        rw [if_pos (mt (Launch.fits_row_iff hn _ _).mp haborts)] at h
        rw [← (Prod.mk.inj (Option.some.inj h)).2, goto]
    · exact haborts.elim
  | .raise true now draw message =>
    simp only [answer] at h
    split_ifs at h with hout hopen
    · unfold reachesOut at hout
      split at hout
      · next hpc => exact absurd haborts (by simp [Aborts, hpc])
      · next hpc => exact absurd haborts (by simp [Aborts, hpc])
      · next hpc =>
        simp only [proceed, hpc, Option.map_some, Option.some.injEq, Prod.mk.injEq] at h
        rw [← h.2]
        rfl
      · exact absurd hout (by simp)
    · rw [← (Prod.mk.inj (Option.some.inj h)).2, abandoned_of_open hopen, goto]

theorem pending_eq_nil (h : ∀ wf envelope rest, call.pc ≠ .publish wf envelope rest) :
    call.pc.pending = [] := by
  cases hpc : call.pc with
  | publish wf envelope rest => exact absurd hpc (h wf envelope rest)
  | _ => rfl

theorem published_of_proceed (h : call.proceed w waiting rows taskId now = some (w', call')) :
    call'.published = call.published ++ call.pc.pending := by
  by_cases hpublish : ∃ wf envelope rest, call.pc = .publish wf envelope rest
  · obtain ⟨wf, envelope, rest, hpc⟩ := hpublish
    simp only [proceed, hpc] at h
    rw [← (Prod.mk.inj (Option.some.inj h)).2, hpc]
    rfl
  · -- every other statement leaves the broker alone
    have hother : ∀ wf envelope rest, call.pc ≠ .publish wf envelope rest :=
      fun wf envelope rest hpc => hpublish ⟨wf, envelope, rest, hpc⟩
    rw [pending_eq_nil hother, List.append_nil]
    cases move_of_proceed h with
    | published wf envelope rest hpc => exact absurd hpc (hother wf envelope rest)
    | lost wf envelope rest hpc => exact absurd hpc (hother wf envelope rest)
    | _ => rfl

/-- What is on the broker after the answer, however the call goes on. -/
theorem published_of_answer {reply : Reply}
    (h : call.answer w waiting rows taskId reply = some (w', call')) :
    call'.published = call.publishedAfter reply := by
  match reply with
  | .raise false _ _ _ => simp [ended_of_abandoned h, goto, publishedAfter, Reply.applied]
  | .crash => simp [ended_of_abandoned h, goto, publishedAfter, Reply.applied]
  | .ok now draw => exact published_of_proceed h
  | .raise true now draw message =>
    simp only [answer] at h
    split_ifs at h with hout hopen
    · obtain ⟨⟨w₁, call₁⟩, hproceed, heq⟩ := Option.map_eq_some_iff.mp h
      have hkept : call₁.abandoned.published = call₁.published := by
        unfold abandoned
        split <;> rfl
      rw [← (Prod.mk.inj heq).2, hkept]
      exact published_of_proceed hproceed
    · have hpending : call.pc.pending = [] := by
        unfold reachesOut at hout
        split at hout
        · exact absurd rfl hout
        · exact absurd rfl hout
        · exact absurd rfl hout
        · next hpublish => exact pending_eq_nil hpublish
      rw [← (Prod.mk.inj (Option.some.inj h)).2, abandoned_of_open hopen, publishedAfter, hpending,
        ite_self, List.append_nil, goto]

end AdvanceCall

/-! ### A call that runs alone -/

namespace Calls

variable {w w' : World} {workflowId : Uuid} {now : ℚ}

/-- The only call there is gets its answers. -/
def Answered (now : ℚ) (_ : Calls) (a : Act) : Prop :=
  ∃ rows taskId, a = .call 0 rows taskId (.ok now 0)

theorem reaches_of_proceed {call : AdvanceCall} (call' : AdvanceCall) (rows : List TaskRow)
    (taskId : Uuid)
    (h : call.proceed w call.inserted rows taskId now = some (w', call')) :
    ReachesWhen step (Answered now) ⟨w, [call]⟩ ⟨w', [call']⟩ := by
  refine (ReachesWhen.refl _).tail ⟨rows, taskId, rfl⟩ ?_
  simp [step, waiting, AdvanceCall.answer, h]

/-- The loop that collects the tasks. -/
theorem reaches_collected (wf : WorkflowRow) (rows left : List TaskRow) (c : Collected) :
    ReachesWhen step (Answered now) ⟨w, [⟨workflowId, .getEffects wf rows left c, [], []⟩]⟩
      ⟨w, [⟨workflowId, .getEffects wf rows [] (left.foldl (Collected.add w.stores.db) c), [],
        []⟩]⟩ := by
  induction left generalizing c with
  | nil => exact .refl _
  | cons row left ih =>
    have hstep : ReachesWhen step (Answered now)
        ⟨w, [⟨workflowId, .getEffects wf rows (row :: left) c, [], []⟩]⟩
        ⟨w, [⟨workflowId, .getEffects wf rows left (c.add w.stores.db row), [], []⟩]⟩ :=
      reaches_of_proceed _ [] ⟨0⟩ rfl
    exact hstep.trans (ih _)

/-- What the launching loop comes to: the stores as `launchAll` leaves them, or, after an exception,
what has been published. -/
def afterLaunch (w : World) : Launched → World
  | .done stores => { w with stores := stores }
  | .raised redis => { w with stores := { w.stores with redis := redis } }

section Round

variable {wf : WorkflowRow} {launch : Launch} {rest : List (Option Launch)}
  {inserted : List TaskRow} {published : List TaskEnvelope}

/-- One round of the loop: the row is inserted and its envelope published. -/
theorem reaches_round {taskId : Uuid} {n : ℤ} (hn : maxAttemptsOf launch.step.retry = some n)
    (hretry : RetryOk launch.step.retry)
    (hnew : ∀ row ∈ w.stores.db.tasks ++ inserted, row.id ≠ taskId) :
    ReachesWhen step (Answered now)
      ⟨w, [⟨workflowId, .launch wf (some launch :: rest), inserted, published⟩]⟩
      ⟨{ w with stores := { w.stores with
          redis := w.stores.redis.modifyQueue "default" fun q =>
            q.publish (launch.envelope wf.id taskId n now) } },
        [⟨workflowId, .launch wf rest, inserted ++ [launch.row wf.id taskId n],
          published ++ [launch.envelope wf.id taskId n now]⟩]⟩ := by
  have hinsert : w.stores.db.Insertable (launch.row wf.id taskId n) :=
    Launch.insertable hn hretry fun other hother => hnew other (List.mem_append_left _ hother)
  have hwaiting : ∀ other ∈ inserted, other.id ≠ (launch.row wf.id taskId n).id :=
    fun other hother => hnew other (List.mem_append_right _ hother)
  have hfirst : ReachesWhen step (Answered now)
      ⟨w, [⟨workflowId, .launch wf (some launch :: rest), inserted, published⟩]⟩
      ⟨w, [⟨workflowId, .publish wf (launch.envelope wf.id taskId n now) rest,
        inserted ++ [launch.row wf.id taskId n], published⟩]⟩ := by
    refine reaches_of_proceed _ [] taskId ?_
    simp only [AdvanceCall.proceed, hn]
    rw [if_neg (not_not.mpr hinsert.1), if_pos ⟨hinsert, hwaiting⟩]
  exact hfirst.trans (reaches_of_proceed _ [] ⟨0⟩ rfl)

/-- A round that raises. -/
theorem reaches_refused (hretry : ¬ RetryOk launch.step.retry) :
    ReachesWhen step (Answered now)
      ⟨w, [⟨workflowId, .launch wf (some launch :: rest), inserted, published⟩]⟩
      ⟨w, [⟨workflowId, .ended false, inserted, published⟩]⟩ := by
  refine reaches_of_proceed _ [] ⟨0⟩ ?_
  simp only [AdvanceCall.proceed]
  split
  · rfl
  · next n hn => exact if_pos (mt (Launch.fits_row_iff hn _ _).mp hretry)

end Round

/-- The loop that launches, with nothing in between. The induction is on the plan; what the rounds
so far have inserted is not in the table yet, and stands behind it in the run of `launchAll`. -/
theorem reaches_launched (w : World) (workflowId : Uuid) (now : ℚ) (wf : WorkflowRow)
    (plan : List (Option Launch)) :
    ∀ (ids : List Uuid) (redis : Redis) (inserted : List TaskRow) (published : List TaskEnvelope),
      plan.length ≤ ids.length → ids.Nodup →
      (∀ row ∈ w.stores.db.tasks ++ inserted, row.id ∉ ids) →
      ∃ call', call'.isOpen = false ∧ ReachesWhen step (Answered now)
        ⟨{ w with stores := { w.stores with redis := redis } },
          [⟨workflowId, .launch wf plan, inserted, published⟩]⟩
        ⟨afterLaunch w (launchAll wf.id now (plan.zip ids)
          ⟨redis, { w.stores.db with tasks := w.stores.db.tasks ++ inserted }⟩), [call']⟩ := by
  induction plan with
  | nil =>
    intro ids redis inserted published _ _ _
    exact ⟨_, rfl, reaches_of_proceed _ [] ⟨0⟩ rfl⟩
  | cons planned rest ih =>
    intro ids redis inserted published hlength hnodup hfresh
    cases ids with
    | nil => exact absurd hlength (by simp)
    | cons taskId ids =>
      rw [List.zip_cons_cons]
      cases planned with
      | none => exact ⟨_, rfl, reaches_of_proceed _ [] ⟨0⟩ rfl⟩
      | some launch =>
        by_cases hretry : RetryOk launch.step.retry
        · obtain ⟨n, hn, -⟩ := hretry.exists_eq
          have hnew : ∀ other ∈ w.stores.db.tasks ++ inserted, other.id ≠ taskId :=
            fun other hother heq => hfresh other hother (heq ▸ List.mem_cons_self)
          -- the row and the envelope of the first step are what the round of the call adds
          have hlaunch : launchAll wf.id now ((some launch, taskId) :: rest.zip ids)
              ⟨redis, { w.stores.db with tasks := w.stores.db.tasks ++ inserted }⟩ =
              launchAll wf.id now (rest.zip ids)
                ⟨redis.modifyQueue "default" fun q =>
                    q.publish (launch.envelope wf.id taskId n now),
                  { w.stores.db with
                    tasks := w.stores.db.tasks ++ (inserted ++ [launch.row wf.id taskId n]) }⟩ := by
            simp only [launchAll, hn]
            rw [if_pos (Launch.insertable hn hretry hnew)]
            simp only [Db.insertTask, List.append_assoc]
          rw [hlaunch]
          obtain ⟨call', hclosed, hrest⟩ := ih ids
            (redis.modifyQueue "default" fun q => q.publish (launch.envelope wf.id taskId n now))
            (inserted ++ [launch.row wf.id taskId n])
            (published ++ [launch.envelope wf.id taskId n now]) (by simpa using hlength)
            (List.nodup_cons.mp hnodup).2 (by
              intro other hother hmem
              rw [← List.append_assoc, List.mem_append, List.mem_singleton] at hother
              rcases hother with hother | rfl
              · exact hfresh other hother (List.mem_cons_of_mem _ hmem)
              · exact (List.nodup_cons.mp hnodup).1 hmem)
          exact ⟨call', hclosed, ReachesWhen.trans (reaches_round hn hretry (by exact hnew)) hrest⟩
        · -- a retry that the row cannot hold ends the call: the rest is not launched
          have hraised : launchAll wf.id now ((some launch, taskId) :: rest.zip ids)
              ⟨redis, { w.stores.db with tasks := w.stores.db.tasks ++ inserted }⟩ =
              .raised redis := by
            simp only [launchAll]
            split
            · rfl
            · next n hn =>
              exact if_neg fun hinsert => hretry ((Launch.fits_row_iff hn _ _).mp hinsert.1)
          rw [hraised]
          exact ⟨_, rfl, reaches_refused hretry⟩

/-- **A call alone.** A call whose statements are all answered, with nothing in between, leaves the
stores as `World.advance` says. -/
theorem runs_alone {rows : List TaskRow} {ids : List Uuid}
    (h : w.advance workflowId rows ids now = some w') :
    ∃ call', call'.isOpen = false ∧ ReachesWhen step (Answered now)
      ⟨w, [{ workflowId := workflowId }]⟩ ⟨w', [call']⟩ := by
  unfold World.advance at h
  cases hfind : w.findWorkflow workflowId with
  | none =>
    rw [hfind] at h
    obtain rfl := Option.some.inj h
    exact ⟨_, rfl, reaches_of_proceed ⟨workflowId, .ended false, [], []⟩ [] ⟨0⟩ (by
      simp [AdvanceCall.proceed, hfind, AdvanceCall.goto])⟩
  | some wf =>
    simp only [hfind] at h
    split_ifs at h with hfinal hperm
    · obtain rfl := Option.some.inj h
      exact ⟨_, rfl, reaches_of_proceed ⟨workflowId, .ended false, [], []⟩ [] ⟨0⟩ (by
        simp [AdvanceCall.proceed, hfind, hfinal, AdvanceCall.goto])⟩
    · have hfound : ReachesWhen step (Answered now) ⟨w, [{ workflowId := workflowId }]⟩
          ⟨w, [⟨workflowId, .getTasks wf, [], []⟩]⟩ :=
        reaches_of_proceed _ [] ⟨0⟩ (by
          simp [AdvanceCall.proceed, hfind, not_not.mp hfinal, AdvanceCall.goto])
      have hread : ReachesWhen step (Answered now) ⟨w, [⟨workflowId, .getTasks wf, [], []⟩]⟩
          ⟨w, [⟨workflowId, .getEffects wf rows rows ⟨fun _ => none, fun _ => none⟩, [], []⟩]⟩ :=
        reaches_of_proceed _ rows ⟨0⟩ (by
          simp [AdvanceCall.proceed, hperm, AdvanceCall.goto])
      set c := Collected.ofTasks w.stores.db rows with hc
      -- two reads, the loop over the rows, and the branch taken
      have hdecided : ReachesWhen step (Answered now) ⟨w, [{ workflowId := workflowId }]⟩
          ⟨w, [⟨workflowId, AdvanceCall.decision wf rows c, [], []⟩]⟩ :=
        ((hfound.trans hread).trans (reaches_collected wf rows rows _)).trans
          (reaches_of_proceed _ [] ⟨0⟩ rfl)
      have hset : ∀ state, ReachesWhen step (Answered now)
          ⟨w, [⟨workflowId, .setState wf state, [], []⟩]⟩
          ⟨w.setWorkflowState wf.id state, [⟨workflowId, .ended true, [], []⟩]⟩ :=
        fun state => reaches_of_proceed _ [] ⟨0⟩ rfl
      -- `decision` and `advanceRunning` branch on the same collected states
      simp only [World.advanceRunning, ← hc] at h
      unfold AdvanceCall.decision at hdecided
      split_ifs at h hdecided with hdead hall hids
      · obtain rfl := Option.some.inj h
        exact ⟨_, rfl, hdecided.trans (hset .failed)⟩
      · obtain rfl := Option.some.inj h
        exact ⟨_, rfl, hdecided.trans (hset .completed)⟩
      · obtain ⟨call', hclosed, hlaunched⟩ := reaches_launched w workflowId now wf
          (c.plan wf.steps (c.namesIn rows .succeeded)) ids w.stores.redis [] []
          hids.1 hids.2.1 (by simpa using hids.2.2)
        refine ⟨call', hclosed, hdecided.trans ?_⟩
        have hafter : afterLaunch w (launchAll wf.id now
            ((c.plan wf.steps (c.namesIn rows .succeeded)).zip ids) w.stores) = w' := by
          split at h
          · next hdone => rw [hdone]; exact Option.some.inj h
          · next hraised => rw [hraised]; exact Option.some.inj h
        simpa [hafter] using hlaunched

end Calls

end Dtq
