import Dtq.System.Attempts
import Dtq.System.Requeues
import Dtq.Lib.Ledger
import Dtq.Lib.Simulation

/-!
# The system keeps a ledger

What a step shows of the four books of `Dtq.Lib.Ledger`: the work it asks for, the fences that
Redis counts, and the rows that `attempts` and `effects` gain. Whatever the workers, the requests
and the environment do, the history that a run shows is one the ledger accepts, and the ledger
ends with the counter and the tables of the run: the system refines the ledger.

The relation that is kept up is equality of the books with the stores, and that every live key has
been asked for. It rests on the invariants about effects and about fences, the latter as long as
the counter is exact.

## Main results

* `Sys.follow` — one step of the system, followed by the ledger
* `Sys.refines_ledger` — every run, and what its history therefore is
-/

set_option autoImplicit false

namespace Dtq

open Transition

namespace Sys

/-- The work that an action asks for: a new task under its key, or a task again under the text of
its id. -/
def asks (s : Sys) (a : Action) : List (String × Uuid) :=
  match a with
  | .requeueStep i reply =>
    if reply.applied then
      ((s.requeues[i]?).bind Requeue.publishing).toList.map fun e => (e.effectKey, e.taskId)
    else []
  | _ => (newKey a).toList.map fun x => (x.2, x.1)

/-- The line of an attempt. -/
def attemptLine (row : AttemptRow) : Uuid × ℕ := (row.taskId, row.fence)

/-- The line of an effect. -/
def effectLine (row : EffectRow) : String × Uuid × ℕ := (row.dedupKey, row.taskId, row.fence)

/-- What a step shows: the work it asks for, then what the counter and the tables have gained. -/
def shows (s : Sys) (a : Action) (s' : Sys) : List (Ledger.Entry Uuid String) :=
  ((s.asks a).map fun x => .ask x.1 x.2) ++
    List.replicate (s'.redis.leaseStore.fenceSeq - s.redis.leaseStore.fenceSeq) .grant ++
    ((s'.db.attempts.drop s.db.attempts.length).map fun row => .record row.taskId row.fence) ++
    (s'.db.effects.drop s.db.effects.length).map fun row =>
      .commit row.dedupKey row.taskId row.fence

/-- The ledger has the books of the state. -/
structure Keeps (s : Sys) (l : Ledger Uuid String) : Prop where
  asked : ∀ taskId key, s.Live taskId key → (key, taskId) ∈ l.asked
  granted : l.granted = s.redis.leaseStore.fenceSeq
  recorded : l.recorded = s.db.attempts.map attemptLine
  committed : l.committed = s.db.effects.map effectLine

variable {s s' : Sys} {a : Action}

theorem keeps_init : init.Keeps .empty where
  asked := by
    rintro taskId key ⟨⟩ <;> simp_all [init, Redis.empty, Db.empty, QueueState.Offers]
  granted := rfl
  recorded := rfl
  committed := rfl

/-- A live key after a step was live before, or the step has asked for it. -/
theorem Moves.live_or_asked (h : s.Moves a s') (hbooks : s.EnqueueInv) {taskId : Uuid}
    {key : String} (hlive : s'.Live taskId key) :
    s.Live taskId key ∨ (key, taskId) ∈ s.asks a := by
  rcases h.live_cases hbooks hlive with hold | ⟨-, hnew⟩ | ⟨e, hpublishes, rfl, rfl⟩
  · exact Or.inl hold
  · right
    -- only arrivals create tasks
    cases a with
    | post req id =>
      obtain ⟨rfl, rfl⟩ : id = taskId ∧ TaskEnvelope.keyOr req.dedupKey id = key := by
        simpa [newKey] using hnew
      simp [asks, newKey]
    | produce queue e runAt =>
      obtain ⟨rfl, rfl⟩ : e.taskId = taskId ∧ e.effectKey = key := by simpa [newKey] using hnew
      simp [asks, newKey]
    | _ => simp [newKey] at hnew
  · right
    obtain ⟨i, reply, requeue, rest, rfl, happlied, hrequeue, hpc⟩ := hpublishes
    simp [asks, happlied, hrequeue, Requeue.publishing, hpc]

/-- A step of the system leaves the attempts as they are, or adds one, under a fence that was
granted and is not on record. -/
theorem FenceInv.recorded_cases (h : s.FenceInv) (hstep : s.step a = some s') :
    s'.db.attempts.map attemptLine = s.db.attempts.map attemptLine ∨
      ∃ row : AttemptRow, s'.db.attempts = s.db.attempts ++ [row] ∧ 0 < row.fence ∧
        row.fence ≤ s.redis.leaseStore.fenceSeq ∧
        ∀ r ∈ s.db.attempts.map attemptLine, r.2 ≠ row.fence := by
  have hlines : ∀ rows : List AttemptRow,
      rows.map attemptLine = (rows.map AttemptRow.ident).map fun x => (x.1, x.2.2) := by
    intro rows
    rw [List.map_map]
    rfl
  rcases (moves_of_step hstep).worker_cases with
    ⟨i, job, job', stores', -, hjob, hmove, rfl⟩ | ⟨job, -, -, hdb, -⟩ | ⟨-, -, hattempts, -⟩
  · have hmem := List.mem_of_getElem? hjob
    obtain hsame | ⟨hpc, -, happend⟩ := hmove.attempts_cases
    · left
      rw [setJob_db, hlines, hsame, ← hlines]
      rfl
    · right
      obtain ⟨hne, hnew⟩ := h.fresh job hmem hpc
      refine ⟨job.attemptRow, happend, Nat.pos_of_ne_zero hne, h.bounded job hmem, ?_⟩
      rw [hlines]
      intro r hr
      obtain ⟨x, hx, rfl⟩ := List.mem_map.mp hr
      exact hnew x hx
  · exact Or.inl (by rw [hdb])
  · exact Or.inl (by rw [hattempts])

/-- A step of the system leaves the effects as they are, or adds one, under a live key that is
free, with the fence of an attempt on record. -/
theorem committed_cases (heffect : s.EffectInv) (hfence : s.FenceInv)
    (hstep : s.step a = some s') :
    s'.db.effects = s.db.effects ∨
      ∃ row : EffectRow, s'.db.effects = s.db.effects ++ [row] ∧
        s.Live row.taskId row.dedupKey ∧
        (row.taskId, row.fence) ∈ s.db.attempts.map attemptLine ∧
        ∀ c ∈ s.db.effects.map effectLine, c.1 ≠ row.dedupKey := by
  rcases (moves_of_step hstep).worker_cases with
    ⟨i, job, job', stores', -, hjob, hmove, rfl⟩ | ⟨job, -, -, hdb, -⟩ | ⟨-, heffects, -⟩
  · have hmem := List.mem_of_getElem? hjob
    obtain ⟨hsame, -⟩ | ⟨result, hpc, happend, -⟩ := hmove.effects_cases
    · exact Or.inl hsame
    · right
      refine ⟨job.effectRow result, happend, .running hmem hmove.active rfl, ?_, ?_⟩
      · have hrecorded : job.pc.Recorded := by simp [hpc, Pc.Recorded]
        obtain ⟨attempt, hattempt, heq⟩ := List.mem_map.mp (hfence.recorded job hmem hrecorded)
        refine List.mem_map.mpr ⟨attempt, hattempt, ?_⟩
        simp only [AttemptRow.ident, Job.attemptIdent, Prod.mk.injEq] at heq
        simp [attemptLine, Job.effectRow, heq.1, heq.2.2]
      · -- the transaction has inserted a row, so nobody has committed one
        have hinserting : job.inserting job.key = true := by simp [Job.inserting, hpc]
        intro c hc heq
        obtain ⟨row, hrow, rfl⟩ := List.mem_map.mp hc
        exact heffect.free job hmem _ hinserting ⟨row, hrow, heq⟩
  · exact Or.inl (by rw [hdb])
  · exact Or.inl heffects

section Follow

variable {l : Ledger Uuid String}

/-- The ledger follows the attempts of a step. -/
theorem run_records (hfence : s.FenceInv) (hstep : s.step a = some s')
    (hgranted : s.redis.leaseStore.fenceSeq ≤ l.granted)
    (hrecorded : l.recorded = s.db.attempts.map attemptLine) :
    run Ledger.step l ((s'.db.attempts.drop s.db.attempts.length).map fun row =>
        .record row.taskId row.fence) =
      some { l with recorded := s'.db.attempts.map attemptLine } := by
  obtain hsame | ⟨row, happend, hpos, hle, hnew⟩ := hfence.recorded_cases hstep
  · have hlength : s'.db.attempts.length = s.db.attempts.length := by
      simpa using congrArg List.length hsame
    rw [← hlength, List.drop_length, hsame, ← hrecorded]
    rfl
  · have hok : 0 < row.fence ∧ row.fence ≤ l.granted ∧ ∀ r ∈ l.recorded, r.2 ≠ row.fence :=
      ⟨hpos, hle.trans hgranted, hrecorded ▸ hnew⟩
    rw [happend, List.drop_left, List.map_singleton, run, Ledger.step, if_pos hok]
    simp [run, hrecorded, attemptLine]

/-- The ledger follows the effects of a step. -/
theorem run_commits (heffect : s.EffectInv) (hfence : s.FenceInv) (hstep : s.step a = some s')
    (hasked : ∀ taskId key, s.Live taskId key → (key, taskId) ∈ l.asked)
    (hrecorded : ∀ line ∈ s.db.attempts.map attemptLine, line ∈ l.recorded)
    (hcommitted : l.committed = s.db.effects.map effectLine) :
    run Ledger.step l ((s'.db.effects.drop s.db.effects.length).map fun row =>
        .commit row.dedupKey row.taskId row.fence) =
      some { l with committed := s'.db.effects.map effectLine } := by
  obtain hsame | ⟨row, happend, hlive, hattempt, hfree⟩ := committed_cases heffect hfence hstep
  · rw [hsame, List.drop_length, ← hcommitted]
    rfl
  · have hok : (row.dedupKey, row.taskId) ∈ l.asked ∧ (row.taskId, row.fence) ∈ l.recorded ∧
        ∀ c ∈ l.committed, c.1 ≠ row.dedupKey :=
      ⟨hasked _ _ hlive, hrecorded _ hattempt, hcommitted ▸ hfree⟩
    rw [happend, List.drop_left, List.map_singleton, run, Ledger.step, if_pos hok]
    simp [run, hcommitted, effectLine]

/-- One step of the system: the ledger follows with what the step shows. -/
theorem follow (h : s.Reachable) (hseq : s'.redis.leaseStore.fenceSeq ≤ 2 ^ 53)
    (hkeeps : s.Keeps l) (hstep : s.step a = some s') :
    ∃ l', run Ledger.step l (s.shows a s') = some l' ∧ s'.Keeps l' := by
  have hle := fenceSeq_le_of_step hstep
  have hfence : s.FenceInv := h.fenceInv (hle.trans hseq)
  have hgranted : l.granted + (s'.redis.leaseStore.fenceSeq - s.redis.leaseStore.fenceSeq) =
      s'.redis.leaseStore.fenceSeq := by
    rw [hkeeps.granted]
    omega
  -- the books between the four parts of what the step shows
  let asked : Ledger Uuid String := { l with asked := l.asked ++ s.asks a }
  let grown : Ledger Uuid String := { asked with granted := s'.redis.leaseStore.fenceSeq }
  let recorded : Ledger Uuid String := { grown with recorded := s'.db.attempts.map attemptLine }
  have hasks : run Ledger.step l ((s.asks a).map fun x => .ask x.1 x.2) = some asked :=
    Ledger.run_asks (s.asks a) l
  have hgrants : run Ledger.step asked (List.replicate
      (s'.redis.leaseStore.fenceSeq - s.redis.leaseStore.fenceSeq) .grant) = some grown := by
    rw [Ledger.run_grants]
    exact congrArg (fun n => some { asked with granted := n }) hgranted
  have hrecords := run_records (l := grown) hfence hstep hle hkeeps.recorded
  have hattempts : ∀ line ∈ s.db.attempts.map attemptLine, line ∈ recorded.recorded := by
    intro line hline
    show line ∈ s'.db.attempts.map attemptLine
    rcases hfence.recorded_cases hstep with hsame | ⟨row, happend, -⟩
    · rwa [hsame]
    · rw [happend, List.map_append]
      exact List.mem_append_left _ hline
  have hcommits := run_commits (l := recorded) h.effectInv hfence hstep
    (fun taskId key hlive => List.mem_append_left _ (hkeeps.asked taskId key hlive)) hattempts
    hkeeps.committed
  refine ⟨{ recorded with committed := s'.db.effects.map effectLine }, ?_, ?_, rfl, rfl, rfl⟩
  · rw [shows, run_append, run_append, run_append, hasks, Option.bind_some, hgrants,
      Option.bind_some, hrecords, Option.bind_some]
    exact hcommits
  · intro taskId key hlive
    rcases (moves_of_step hstep).live_or_asked h.enqueueInv hlive with hold | hnew
    · exact List.mem_append_left _ (hkeeps.asked taskId key hold)
    · exact List.mem_append_right _ hnew

end Follow

/-- **The system refines the ledger.** The history that a run shows, of any number of workers and
requests and with any faults, is one that the ledger accepts, and it ends with the counter and
the tables as its books, as long as the counter is exact. In the history, therefore:

* an effect comes after the work was asked for under its key and after its attempt was recorded,
  and no key is committed twice;
* an attempt comes after as many grants as its fence says, and no fence is recorded twice. -/
theorem refines_ledger {labels : List Action} (h : run step init labels = some s)
    (hseq : s.redis.leaseStore.fenceSeq ≤ 2 ^ 53) :
    (∃ l : Ledger Uuid String, run Ledger.step .empty (shown step shows init labels) = some l ∧
      l.granted = s.redis.leaseStore.fenceSeq ∧
      l.recorded = s.db.attempts.map attemptLine ∧
      l.committed = s.db.effects.map effectLine) ∧
    (∀ before after key taskId fence,
      shown step shows init labels = before ++ .commit key taskId fence :: after →
        .ask key taskId ∈ before ∧ .record taskId fence ∈ before ∧
          ∀ taskId' fence', .commit key taskId' fence' ∉ before ++ after) ∧
    ∀ before after taskId fence,
      shown step shows init labels = before ++ .record taskId fence :: after →
        0 < fence ∧ fence ≤ before.countP Ledger.Entry.grants ∧
          ∀ taskId', .record taskId' fence ∉ before := by
  obtain ⟨l, hl, hkeeps⟩ := run_shown (I := Reachable)
    (B := fun s => s.redis.leaseStore.fenceSeq ≤ 2 ^ 53) (R := Keeps)
    (fun s a s' hs hstep => Relation.ReflTransGen.tail hs ⟨a, trivial, hstep⟩)
    (fun s a s' hstep hbound => (fenceSeq_le_of_step hstep).trans hbound)
    (fun s a s' l hs hbound hkeeps hstep => follow hs hbound hkeeps hstep)
    (.refl _) keeps_init h hseq
  exact ⟨⟨l, hl, hkeeps.granted, hkeeps.recorded, hkeeps.committed⟩,
    fun before after key taskId fence hsplit => Ledger.commit_justified hl hsplit,
    fun before after taskId fence hsplit => Ledger.record_justified hl hsplit⟩

/-- The theorem at a race: two workers are granted fences, and one of them commits. -/
theorem refines_ledger_race : ∃ (s : Sys) (before after : List (Ledger.Entry Uuid String)),
    s.db.attempts.length = 2 ∧
    shown step shows init (overlap ++ proceeds 0 3) =
      before ++ .commit "k" ⟨1⟩ 1 :: after ∧
    .record ⟨1⟩ 1 ∈ before ∧ ∀ taskId fence, .commit "k" taskId fence ∉ before ++ after := by
  obtain ⟨s, hrun, hattempts, hseq⟩ := exists_run_of_check step init (overlap ++ proceeds 0 3)
    (fun s => s.db.attempts.length = 2 ∧ s.redis.leaseStore.fenceSeq ≤ 2 ^ 53) (by decide +kernel)
  have hshown : shown step shows init (overlap ++ proceeds 0 3) =
      [.ask "k" ⟨1⟩, .grant, .record ⟨1⟩ 1, .grant, .record ⟨1⟩ 2] ++ .commit "k" ⟨1⟩ 1 :: [] := by
    decide +kernel
  obtain ⟨-, hcommits, -⟩ := refines_ledger hrun hseq
  obtain ⟨-, hrecorded, honce⟩ := hcommits _ _ _ _ _ hshown
  exact ⟨s, _, _, hattempts, hshown, hrecorded, honce⟩

end Sys

end Dtq
