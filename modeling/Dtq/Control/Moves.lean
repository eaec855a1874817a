import Dtq.Control.App

/-!
# What a request's step can do

The inversion of `Post.proceed` and `Requeue.proceed`, in the same form as for jobs:
one constructor for each outcome of a call, and the ways in which a call may fail.

## Main results

* `Post.proceeds_of_proceed`, `Requeue.proceeds_of_proceed`
* `Post.Moves.sent_cases` — a request changes the queues only by handing its own
  envelope to the broker
* `Requeue.Moves.redis_cases` — a requeue changes the queues only by publishing a
  fresh envelope with the dedup key cleared
-/

set_option autoImplicit false

namespace Dtq

namespace Post

/-- A pending call of `create_task` returns. -/
inductive Proceeds (stores : Stores) (waiting : List TaskRow) (post : Post) : Outcome → Prop
  | found (key : String) (row : TaskRow) (hpc : post.pc = .select key)
      (hrow : stores.db.findDedup post.req.queue key = some row) :
      Proceeds stores waiting post
        { stores := stores, post := post.goto (.commitFound row.id) }
  | notFound (key : String) (hpc : post.pc = .select key)
      (hrow : stores.db.findDedup post.req.queue key = none) :
      Proceeds stores waiting post { stores := stores, post := post.goto .insert }
  | inserted (hpc : post.pc = .insert)
      (hcommitted : stores.db.Insertable (post.req.row post.taskId))
      (hwaiting : ∀ other ∈ waiting, other.id ≠ post.taskId ∧
        ¬ Db.SameDedup other (post.req.row post.taskId)) :
      Proceeds stores waiting post { stores := stores, post := post.goto .commit }
  | committed (hpc : post.pc = .commit) :
      Proceeds stores waiting post
        { stores := { stores with db := stores.db.insertTask (post.req.row post.taskId) }
          post := post.goto .dispatch }
  | answered (taskId : Uuid) (hpc : post.pc = .commitFound taskId) :
      Proceeds stores waiting post
        { stores := stores, post := post.goto (.ended (some ⟨taskId, true⟩)) }
  /-- `run_at` is missing or not in the future -/
  | prepared (now : ℚ) (hpc : post.pc = .dispatch)
      (hdue : ∀ runAt, post.req.runAt = some runAt → runAt.timestamp ≠ none) :
      Proceeds stores waiting post
        { stores := stores, post := post.goto (.publish (post.req.envelope post.taskId now)) }
  | scheduled (now at_ : ℚ) (runAt : DateTime) (hpc : post.pc = .dispatch)
      (hrunAt : post.req.runAt = some runAt) (hat : runAt.timestamp = some at_) :
      Proceeds stores waiting post
        { stores :=
            { stores with
              redis := stores.redis.modifyQueue post.req.queue
                (·.schedule (post.req.envelope post.taskId now) at_) }
          post := post.created
          sent := some (post.req.envelope post.taskId now) }
  /-- a naive `run_at`: the comparison raises -/
  | naive (runAt : DateTime) (hpc : post.pc = .dispatch) (hrunAt : post.req.runAt = some runAt)
      (hnaive : runAt.timestamp = none) :
      Proceeds stores waiting post { stores := stores, post := post.goto (.ended none) }
  | published (envelope : TaskEnvelope) (hpc : post.pc = .publish envelope) :
      Proceeds stores waiting post
        { stores :=
            { stores with redis := stores.redis.modifyQueue post.req.queue (·.publish envelope) }
          post := post.created
          sent := some envelope }

variable {stores : Stores} {waiting : List TaskRow} {post : Post} {out : Outcome}

theorem proceeds_of_proceed {now : ℚ} (h : post.proceed stores waiting now = some out) :
    post.Proceeds stores waiting out := by
  cases hpc : post.pc with
  | select key =>
    simp only [proceed, hpc] at h
    cases hrow : stores.db.findDedup post.req.queue key with
    | none =>
      rw [hrow] at h
      obtain rfl := Option.some.inj h
      exact .notFound key hpc hrow
    | some row =>
      rw [hrow] at h
      obtain rfl := Option.some.inj h
      exact .found key row hpc hrow
  | insert =>
    simp only [proceed, hpc] at h
    split_ifs at h with hok
    obtain rfl := Option.some.inj h
    exact .inserted hpc hok.1 hok.2
  | commit =>
    simp only [proceed, hpc] at h
    obtain rfl := Option.some.inj h
    exact .committed hpc
  | commitFound taskId =>
    simp only [proceed, hpc] at h
    obtain rfl := Option.some.inj h
    exact .answered taskId hpc
  | dispatch =>
    simp only [proceed, hpc] at h
    cases hrunAt : post.req.runAt with
    | none =>
      rw [hrunAt] at h
      obtain rfl := Option.some.inj h
      exact .prepared now hpc (by simp [hrunAt])
    | some runAt =>
      -- the comparison and the timestamp are defined together, for aware times only
      cases hat : runAt.timestamp with
      | none =>
        simp only [hrunAt, DateTime.gtNow, hat, Option.map_none] at h
        obtain rfl := Option.some.inj h
        exact .naive runAt hpc hrunAt hat
      | some at_ =>
        simp only [hrunAt, DateTime.gtNow, hat, Option.map_some] at h
        cases hlater : decide (now < at_) with
        | true =>
          rw [hlater] at h
          obtain rfl := Option.some.inj h
          exact .scheduled now at_ runAt hpc hrunAt hat
        | false =>
          rw [hlater] at h
          obtain rfl := Option.some.inj h
          refine .prepared now hpc fun runAt' hrunAt' => ?_
          rw [hrunAt, Option.some.injEq] at hrunAt'
          subst hrunAt'
          simp [hat]
  | publish envelope =>
    simp only [proceed, hpc] at h
    obtain rfl := Option.some.inj h
    exact .published envelope hpc
  | ended response => simp [proceed, hpc] at h

/-- A move of a request: a call returns, or the request ends without an answer, after or
before the call took effect. -/
inductive Moves (stores : Stores) (waiting : List TaskRow) (post : Post) : Outcome → Prop
  | proceeds {out : Outcome} (h : Proceeds stores waiting post out) :
      Moves stores waiting post out
  | abortedAfter {out : Outcome} (h : Proceeds stores waiting post out) :
      Moves stores waiting post { out with post := post.goto (.ended none) }
  | aborted (hactive : ¬ post.Ended) :
      Moves stores waiting post { stores := stores, post := post.goto (.ended none) }

theorem aborted_eq_some {ended : Post} (h : post.aborted = some ended) :
    ¬ post.Ended ∧ ended = post.goto (.ended none) := by
  unfold aborted at h
  constructor
  · rintro ⟨response, hpc⟩
    simp [hpc] at h
  · split at h
    · simp at h
    · exact (Option.some.inj h).symm

/-- A request keeps its body and its task id. -/
theorem Moves.frame (h : post.Moves stores waiting out) :
    out.post.req = post.req ∧ out.post.taskId = post.taskId := by
  cases h with
  | proceeds h => cases h <;> exact ⟨rfl, rfl⟩
  | abortedAfter | aborted => exact ⟨rfl, rfl⟩

/-- What a move hands over is what some call that returned hands over. -/
theorem Moves.outcome_cases (h : post.Moves stores waiting out) :
    out.stores = stores ∧ out.sent = none ∨
      ∃ out', post.Proceeds stores waiting out' ∧ out.stores = out'.stores ∧
        out.sent = out'.sent := by
  cases h with
  | proceeds h => exact Or.inr ⟨_, h, rfl, rfl⟩
  | abortedAfter h => exact Or.inr ⟨_, h, rfl, rfl⟩
  | aborted => exact Or.inl ⟨rfl, rfl⟩

/-- The tables change only when a task row is committed. -/
theorem Moves.db_cases (h : post.Moves stores waiting out) :
    out.stores.db = stores.db ∨
      post.pc = .commit ∧ out.stores.db = stores.db.insertTask (post.req.row post.taskId) := by
  obtain ⟨heq, -⟩ | ⟨out', h, heq, -⟩ := h.outcome_cases
  · exact Or.inl (congrArg Stores.db heq)
  · rw [heq]
    cases h with
    | committed hpc => exact Or.inr ⟨hpc, rfl⟩
    | _ => exact Or.inl rfl

/-- The queues change only when the request's own envelope is handed to the broker. -/
theorem Moves.sent_cases (h : post.Moves stores waiting out) :
    out.stores.redis = stores.redis ∧ out.sent = none ∨
      ∃ envelope, out.sent = some envelope ∧
        ((∃ now, post.pc = .dispatch ∧ envelope = post.req.envelope post.taskId now) ∨
          post.pc = .publish envelope) ∧
        (out.stores.redis = stores.redis.modifyQueue post.req.queue (·.publish envelope) ∨
          ∃ at_, out.stores.redis =
            stores.redis.modifyQueue post.req.queue (·.schedule envelope at_)) := by
  obtain ⟨heq, hsent⟩ | ⟨out', h, heq, hsent⟩ := h.outcome_cases
  · exact Or.inl ⟨congrArg Stores.redis heq, hsent⟩
  · rw [heq, hsent]
    cases h with
    | scheduled now at_ runAt hpc =>
      exact Or.inr ⟨_, rfl, Or.inl ⟨now, hpc, rfl⟩, Or.inr ⟨at_, rfl⟩⟩
    | published envelope hpc => exact Or.inr ⟨envelope, rfl, Or.inr hpc, Or.inl rfl⟩
    | _ => exact Or.inl ⟨rfl, rfl⟩

/-- A request holds an envelope to publish only if it is the one it has built. -/
theorem Moves.publish_cases (h : post.Moves stores waiting out) {envelope : TaskEnvelope}
    (hpc' : out.post.pc = .publish envelope) :
    post.pc = .dispatch ∧ out.sent = none ∧
      ∃ now, envelope = post.req.envelope post.taskId now := by
  cases h with
  | proceeds h =>
    cases h with
    | prepared now hpc =>
      -- the only way to `publish` is from `dispatch`
      simp only [goto, PostPc.publish.injEq] at hpc'
      exact ⟨hpc, rfl, now, hpc'.symm⟩
    | _ => simp [goto, created] at hpc'
  | abortedAfter | aborted => simp [goto] at hpc'

/-- A request that is ready to talk to the broker has just committed its row. -/
theorem Moves.dispatch_cases (h : post.Moves stores waiting out)
    (hpc' : out.post.pc = .dispatch) :
    post.pc = .commit ∧ out.sent = none ∧
      out.stores.db = stores.db.insertTask (post.req.row post.taskId) := by
  cases h with
  | proceeds h =>
    cases h with
    | committed hpc => exact ⟨hpc, rfl, rfl⟩
    | _ => simp [goto, created] at hpc'
  | abortedAfter | aborted => simp [goto] at hpc'

/-- The request's own row is not committed (and, when another row was found, never will
be). -/
def Uncommitted (post : Post) : Prop :=
  match post.pc with
  | .select _ | .insert | .commit | .commitFound _ => True
  | .dispatch | .publish _ | .ended _ => False

theorem Moves.uncommitted_cases (h : post.Moves stores waiting out)
    (hpc' : out.post.Uncommitted) :
    post.Uncommitted ∧ out.stores.db = stores.db ∧ out.sent = none := by
  cases h with
  | proceeds h => cases h <;> simp_all [Uncommitted, goto, created]
  | abortedAfter | aborted => simp [Uncommitted, goto] at hpc'

/-- Nobody moves after the end. -/
theorem Moves.not_ended (h : post.Moves stores waiting out) : ¬ post.Ended := by
  rintro ⟨response, hended⟩
  cases h with
  | proceeds h => cases h <;> simp_all
  | abortedAfter h => cases h <;> simp_all
  | aborted hactive => exact hactive ⟨response, hended⟩

/-- Handing the envelope over is the last thing a request does. -/
theorem Moves.ended_of_sent (h : post.Moves stores waiting out) {envelope : TaskEnvelope}
    (hsent : out.sent = some envelope) : out.post.Ended := by
  cases h with
  | proceeds h =>
    cases h with
    | scheduled | published => exact ⟨_, rfl⟩
    | _ => simp at hsent
  | abortedAfter => exact ⟨none, rfl⟩
  | aborted => simp at hsent

end Post

namespace Requeue

/-- A pending call of `requeue_dlq` returns. -/
inductive Proceeds (stores : Stores) (locks : Locks) (requeue : Requeue) :
    Stores → Requeue → Prop
  | committed (hpc : requeue.pc = .next []) :
      Proceeds stores locks requeue
        { stores with
          db := requeue.updated.foldl (fun db t => db.updateTaskState t .pending (some 0))
            stores.db }
        { requeue with pc := .ended }
  | skipped (taskId : Uuid) (rest : List Uuid) (hpc : requeue.pc = .next (taskId :: rest))
      (hrow : stores.db.findTask taskId = none) :
      Proceeds stores locks requeue stores { requeue with pc := .next rest }
  | updated (taskId : Uuid) (rest : List Uuid) (row : TaskRow) (now : ℚ)
      (hpc : requeue.pc = .next (taskId :: rest))
      (hrow : stores.db.findTask taskId = some row) :
      Proceeds stores locks requeue stores
        { requeue with
          pc := .publish (requeueEnvelope requeue.queue row now) rest
          updated := taskId :: requeue.updated }
  | published (envelope : TaskEnvelope) (rest : List Uuid)
      (hpc : requeue.pc = .publish envelope rest) :
      Proceeds stores locks requeue
        { stores with redis := stores.redis.modifyQueue requeue.queue (·.publish envelope) }
        { requeue with pc := .next rest }

variable {stores stores' : Stores} {locks : Locks} {requeue requeue' : Requeue}

theorem proceeds_of_proceed {now : ℚ} {out : Stores × Requeue}
    (h : requeue.proceed stores locks now = some out) :
    requeue.Proceeds stores locks out.1 out.2 := by
  cases hpc : requeue.pc with
  | next taskIds =>
    cases taskIds with
    | nil =>
      simp only [proceed, hpc] at h
      obtain rfl := Option.some.inj h
      exact .committed hpc
    | cons taskId rest =>
      simp only [proceed, hpc] at h
      cases hrow : stores.db.findTask taskId with
      | none =>
        rw [hrow] at h
        obtain rfl := Option.some.inj h
        exact .skipped taskId rest hpc hrow
      | some row =>
        simp only [hrow] at h
        split_ifs at h with hlock
        obtain rfl := Option.some.inj h
        exact .updated taskId rest row now hpc hrow
  | publish envelope rest =>
    simp only [proceed, hpc] at h
    obtain rfl := Option.some.inj h
    exact .published envelope rest hpc
  | ended => simp [proceed, hpc] at h

/-- A move of a requeue request: a call returns, raises after or before it took effect,
or the process dies. After a failure only the program counter moves, to the rest of the
loop or to the end. -/
inductive Moves (stores : Stores) (locks : Locks) (requeue : Requeue) : Stores → Requeue → Prop
  | proceeds {stores' : Stores} {requeue' : Requeue}
      (h : Proceeds stores locks requeue stores' requeue') :
      Moves stores locks requeue stores' requeue'
  | failed {stores' : Stores} {pc : RequeuePc}
      (h : stores' = stores ∨ ∃ requeue', Proceeds stores locks requeue stores' requeue')
      (hpc : pc = .ended ∨ ∃ envelope rest, requeue.pc = .publish envelope rest ∧ pc = .next rest) :
      Moves stores locks requeue stores' { requeue with pc := pc }

theorem raised_cases {failed : Requeue} (h : requeue.raised = some failed) :
    ∃ pc : RequeuePc, failed = { requeue with pc := pc } ∧
      (pc = .ended ∨ ∃ envelope rest, requeue.pc = .publish envelope rest ∧ pc = .next rest) := by
  cases hpc : requeue.pc with
  | next taskIds =>
    simp only [raised, hpc] at h
    exact ⟨_, (Option.some.inj h).symm, Or.inl rfl⟩
  | publish envelope rest =>
    simp only [raised, hpc] at h
    exact ⟨_, (Option.some.inj h).symm, Or.inr ⟨envelope, rest, rfl, rfl⟩⟩
  | ended => simp [raised, hpc] at h

theorem Moves.stores_cases (h : requeue.Moves stores locks stores' requeue') :
    stores' = stores ∨ ∃ requeue'', requeue.Proceeds stores locks stores' requeue'' := by
  cases h with
  | proceeds h => exact Or.inr ⟨_, h⟩
  | failed h => exact h

/-- The queues change only when an envelope is published. -/
theorem Moves.redis_cases (h : requeue.Moves stores locks stores' requeue') :
    stores'.redis = stores.redis ∨
      ∃ envelope rest, requeue.pc = .publish envelope rest ∧
        stores'.redis = stores.redis.modifyQueue requeue.queue (·.publish envelope) := by
  obtain rfl | ⟨requeue'', h⟩ := h.stores_cases
  · exact Or.inl rfl
  · cases h with
    | published envelope rest hpc => exact Or.inr ⟨envelope, rest, hpc, rfl⟩
    | _ => exact Or.inl rfl

/-- The tables change only when the tasks are set to pending. -/
theorem Moves.db_cases (h : requeue.Moves stores locks stores' requeue') :
    stores'.db = stores.db ∨
      stores'.db = requeue.updated.foldl (fun db t => db.updateTaskState t .pending (some 0))
        stores.db := by
  obtain rfl | ⟨requeue'', h⟩ := h.stores_cases
  · exact Or.inl rfl
  · cases h with
    | committed => exact Or.inr rfl
    | _ => exact Or.inl rfl

/-- A requeue holds an envelope to publish only if it has just built it from a row. -/
theorem Moves.publish_cases (h : requeue.Moves stores locks stores' requeue')
    {envelope : TaskEnvelope} {rest : List Uuid} (hpc' : requeue'.pc = .publish envelope rest) :
    ∃ taskId row now, stores.db.findTask taskId = some row ∧
      envelope = requeueEnvelope requeue.queue row now ∧ stores' = stores := by
  cases h with
  | proceeds h =>
    cases h with
    | updated taskId rest' row now hpc hrow =>
      -- the envelope is built when the row is read, not when it is published
      simp only [RequeuePc.publish.injEq] at hpc'
      exact ⟨taskId, row, now, hrow, hpc'.1.symm, rfl⟩
    | _ => simp at hpc'
  | failed h hpc =>
    obtain rfl | ⟨_, _, _, rfl⟩ := hpc <;> simp at hpc'

end Requeue

/-- What any number of state updates leaves alone. -/
theorem foldl_updateTaskState_frame (ids : List Uuid) (state : TaskState) (attempt : Option ℕ)
    (db : Db) :
    let db' := ids.foldl (fun db t => db.updateTaskState t state attempt) db
    db'.effects = db.effects ∧ db'.attempts = db.attempts ∧
      db'.tasks.map TaskRow.core = db.tasks.map TaskRow.core := by
  induction ids generalizing db with
  | nil => exact ⟨rfl, rfl, rfl⟩
  | cons t ids ih =>
    obtain ⟨heffects, hattempts, hcore⟩ := ih (db.updateTaskState t state attempt)
    refine ⟨?_, ?_, ?_⟩
    · rw [List.foldl_cons, heffects, Db.updateTaskState_effects]
    · rw [List.foldl_cons, hattempts, Db.updateTaskState_attempts]
    · rw [List.foldl_cons, hcore, Db.updateTaskState_core]

end Dtq
