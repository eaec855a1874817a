import Mathlib.Data.Nat.Basic
import Mathlib.Data.List.Count
import Mathlib.Algebra.Order.Group.Unbundled.Int
import Mathlib.Tactic.Common

/-!
# The load generator's producer

`Producer::run` of `bench/src/producer.cpp`. A producer appends XADD commands to a connection and
reads the replies of a whole pipeline at once: in the loop, when `pipeline_size` commands have been
appended, and after it, for those that are left when the run is stopped. The two loops that read
replies treat them differently.

What goes over the connection is given as a function of the number of the XADD, which says what
`redisGetReply` comes back with if the producer asks for the reply to that XADD.

## Main results

* `flushPipeline_books`, `flushRemaining_books` — what each of the two loops enters in the books
* `run_counts_iff` — the runs whose counters tell what Redis answered
-/

set_option autoImplicit false

namespace Dtq.Bench

/-- What `redisGetReply` comes back with: a reply that is no error, an error reply, `REDIS_OK`
without a reply, or not `REDIS_OK`. The last comes with the outcome of a `connect` that follows. -/
inductive GetReply
  | accepted
  | error
  | empty
  | failure (reconnected : Bool)
deriving DecidableEq, Repr

/-- An answer, or a lost connection that can be made again. A blocking read returns `REDIS_OK`
with a reply. -/
def GetReply.Answered (r : GetReply) : Prop :=
  r = .accepted ∨ r = .error ∨ r = .failure true

instance (r : GetReply) : Decidable r.Answered := inferInstanceAs (Decidable (_ ∨ _))

/-- The two counters of `Stats` that a producer advances. -/
structure Stats where
  enqueued : ℕ := 0
  failed : ℕ := 0
deriving DecidableEq, Repr

namespace Stats

def recordEnqueue (s : Stats) : Stats := { s with enqueued := s.enqueued + 1 }

def recordFailure (s : Stats) : Stats := { s with failed := s.failed + 1 }

end Stats

/-- The state of a run: the number of XADDs appended, how many of them wait for the next flush,
the counters, and a log of what `redisGetReply` came back with. -/
structure Producer where
  seq : ℕ := 0
  pipelineCount : ℕ := 0
  stats : Stats := {}
  replies : List GetReply := []
deriving DecidableEq, Repr

namespace Producer

variable {answers : ℕ → GetReply} {p p' : Producer} {start : Stats} {size : ℤ}

/-- A reply is read and entered in the counters by `record`. -/
def read (p : Producer) (r : GetReply) (record : Stats → Stats) : Producer :=
  { p with stats := record p.stats, replies := p.replies ++ [r] }

/-- The number of replies read that are no errors. -/
def accepted (p : Producer) : ℕ := p.replies.count .accepted

/-- The flush of a full pipeline of `k` replies, the first of which answers the XADD `n`. A
`return` out of `run` is an `Except.error`. -/
def flushPipeline (answers : ℕ → GetReply) : ℕ → ℕ → Producer → Except Producer Producer
  | _, 0, p => .ok p
  | n, k + 1, p =>
    match answers n with
    | .accepted => flushPipeline answers (n + 1) k (p.read (answers n) Stats.recordEnqueue)
    | .error => flushPipeline answers (n + 1) k (p.read (answers n) Stats.recordFailure)
    | .empty => flushPipeline answers (n + 1) k (p.read (answers n) id)
    -- the rest of the pipeline went down with the connection
    | .failure true => .ok (p.read (answers n) Stats.recordFailure)
    | .failure false => .error (p.read (answers n) Stats.recordFailure)

/-- The flush after the loop. It does not reconnect, and on a connection that has failed every
further `redisGetReply` fails. -/
def flushRemaining (answers : ℕ → GetReply) : ℕ → ℕ → Bool → Producer → Producer
  | _, 0, _, p => p
  | n, k + 1, true, p => flushRemaining answers (n + 1) k true (p.read (.failure false) id)
  | n, k + 1, false, p =>
    match answers n with
    | .accepted | .error =>
      flushRemaining answers (n + 1) k false (p.read (answers n) Stats.recordEnqueue)
    | .empty => flushRemaining answers (n + 1) k false (p.read (answers n) id)
    | .failure _ => flushRemaining answers (n + 1) k true (p.read (answers n) id)

/-- One turn of the loop: an XADD is appended, and a full pipeline is flushed. -/
def turn (answers : ℕ → GetReply) (pipelineSize : ℤ) (p : Producer) : Except Producer Producer :=
  let n := p.seq - p.pipelineCount
  let p := { p with seq := p.seq + 1, pipelineCount := p.pipelineCount + 1 }
  if pipelineSize ≤ p.pipelineCount then do
    let p ← flushPipeline answers n p.pipelineCount p
    return { p with pipelineCount := 0 }
  else return p

/-- The loop, when `running` is found true `turns` times. -/
def loop (answers : ℕ → GetReply) (pipelineSize : ℤ) : ℕ → Producer → Except Producer Producer
  | 0, p => .ok p
  | turns + 1, p => turn answers pipelineSize p >>= loop answers pipelineSize turns

/-- `Producer::run`, of a new producer whose first `connect` succeeds or not, with counters that
other producers may have advanced before. -/
def run (start : Stats) (connected : Bool) (answers : ℕ → GetReply) (pipelineSize : ℤ)
    (turns : ℕ) : Producer :=
  if connected then
    match loop answers pipelineSize turns { stats := start } with
    | .error p => p
    | .ok p => flushRemaining answers (p.seq - p.pipelineCount) p.pipelineCount false p
  else { stats := start }

/-! ### The books of a full pipeline -/

/-- The number of XADDs that the counters account for. -/
def counted (p : Producer) : ℕ := p.stats.enqueued + p.stats.failed

@[simp] theorem seq_read (r : GetReply) (record : Stats → Stats) :
    (p.read r record).seq = p.seq := rfl

@[simp] theorem pipelineCount_read (r : GetReply) (record : Stats → Stats) :
    (p.read r record).pipelineCount = p.pipelineCount := rfl

@[simp] theorem stats_read (r : GetReply) (record : Stats → Stats) :
    (p.read r record).stats = record p.stats := rfl

@[simp] theorem accepted_read (r : GetReply) (record : Stats → Stats) :
    (p.read r record).accepted = p.accepted + if r = .accepted then 1 else 0 := by
  by_cases hr : r = .accepted
  · simp [accepted, read, hr]
  · simp [accepted, read, hr]

/-- What holds of the replies from `n` on holds of the first one and of those from `n + 1` on. -/
theorem forall_lt_succ_add {n k : ℕ} {Q : ℕ → ℕ → Prop} :
    (∀ i < k + 1, Q i (n + i)) ↔ Q 0 n ∧ ∀ i < k, Q (i + 1) (n + 1 + i) := by
  rw [Nat.forall_lt_succ_left, Nat.add_zero]
  refine and_congr_right fun _ => forall₂_congr fun i _ => ?_
  rw [Nat.add_assoc, Nat.add_comm 1]

/-- What the flush of a full pipeline of `k` replies does to the counters: it enters the accepted
replies as such and no XADD twice, and `complete` says when it enters them all. -/
structure Flushed (k : ℕ) (complete : Prop) (p p' : Producer) : Prop where
  seq : p'.seq = p.seq
  pipelineCount : p'.pipelineCount = p.pipelineCount
  enqueued : p'.stats.enqueued + p.accepted = p.stats.enqueued + p'.accepted
  failed_le : p.stats.failed ≤ p'.stats.failed
  counted_le : p'.counted ≤ p.counted + k
  counted_iff : p'.counted = p.counted + k ↔ complete

/-- A reply that is read and counted comes before the flush of the rest. -/
theorem Flushed.of_read {k : ℕ} {complete : Prop} {r : GetReply} {record : Stats → Stats}
    (henqueued : (record p.stats).enqueued = p.stats.enqueued + if r = .accepted then 1 else 0)
    (hfailed : p.stats.failed ≤ (record p.stats).failed)
    (hcounted : (record p.stats).enqueued + (record p.stats).failed = p.counted + 1)
    (h : Flushed k complete (p.read r record) p') : Flushed (k + 1) complete p p' := by
  have hbefore : (p.read r record).counted = p.counted + 1 := hcounted
  have hlog := h.enqueued
  have hle := h.counted_le
  rw [accepted_read, stats_read, henqueued] at hlog
  refine ⟨h.seq, h.pipelineCount, by omega, hfailed.trans h.failed_le, by omega, ?_⟩
  rw [← h.counted_iff, hbefore, Nat.add_assoc, Nat.add_comm 1 k]

/-- The flush of a pipeline enters all its XADDs unless the connection fails before the last
reply. -/
theorem flushPipeline_books (answers : ℕ → GetReply) {n k : ℕ}
    (hans : ∀ i < k, (answers (n + i)).Answered) :
    ∃ p', flushPipeline answers n k p = .ok p' ∧
      Flushed k (∀ i < k, answers (n + i) = .failure true → i + 1 = k) p p' := by
  induction k generalizing n p with
  | zero => exact ⟨p, rfl, rfl, rfl, rfl, Nat.le_refl _, Nat.le_refl _, by simp⟩
  | succ k ih =>
    obtain ⟨hfirst, hrest⟩ := (forall_lt_succ_add (Q := fun _ m => (answers m).Answered)).mp hans
    -- after a reply that is read, what is left of the pipeline is flushed as a shorter one
    have hshift (hread : answers n ≠ .failure true) :
        (∀ i < k, answers (n + 1 + i) = .failure true → i + 1 = k) =
          ∀ i < k + 1, answers (n + i) = .failure true → i + 1 = k + 1 := by
      rw [forall_lt_succ_add (Q := fun i m => answers m = .failure true → i + 1 = k + 1)]
      simp only [hread, false_implies, true_and, Nat.add_right_cancel_iff]
    rcases hfirst with hr | hr | hr
    · obtain ⟨p', hp', h⟩ := ih (p := p.read .accepted Stats.recordEnqueue) hrest
      rw [hshift (by simp [hr])] at h
      refine ⟨p', by simpa [flushPipeline, hr] using hp', h.of_read rfl (Nat.le_refl _) ?_⟩
      simp only [Stats.recordEnqueue, counted]
      omega
    · obtain ⟨p', hp', h⟩ := ih (p := p.read .error Stats.recordFailure) hrest
      rw [hshift (by simp [hr])] at h
      refine ⟨p', by simpa [flushPipeline, hr] using hp', h.of_read rfl (Nat.le_succ _) ?_⟩
      simp only [Stats.recordFailure, counted]
      omega
    · -- the flush ends here: one XADD is entered, the other `k` are not
      have hcounted : (p.read (.failure true) Stats.recordFailure).counted = p.counted + 1 := rfl
      refine ⟨p.read (.failure true) Stats.recordFailure, by simp [flushPipeline, hr], rfl, rfl,
        by simp [Stats.recordFailure], Nat.le_succ _, by omega, ?_⟩
      constructor
      · intro hall i hi _
        omega
      · intro hall
        have hk : 0 + 1 = k + 1 := hall 0 (by omega) hr
        omega

/-! ### The books of the loop -/

/-- The size of the pipelines that the loop flushes. -/
def pipeline (pipelineSize : ℤ) : ℕ := (max 1 pipelineSize).toNat

theorem forall_lt_add {m k : ℕ} {Q : ℕ → Prop} :
    (∀ n < m + k, Q n) ↔ (∀ n < m, Q n) ∧ ∀ i < k, Q (m + i) := by
  constructor
  · intro h
    exact ⟨fun n hn => h n (by omega), fun i hi => h (m + i) (by omega)⟩
  · rintro ⟨hleft, hright⟩ n hn
    by_cases hlt : n < m
    · exact hleft n hlt
    · have hn' : m + (n - m) = n := by omega
      exact hn' ▸ hright (n - m) (by omega)

/-- In the pipeline that starts at `q * P`, the last XADD is the one whose successor is a multiple
of `P`. -/
theorem dvd_succ_iff_last {q P i : ℕ} (hi : i < P) : P ∣ q * P + i + 1 ↔ i + 1 = P := by
  rw [Nat.add_assoc, Nat.dvd_add_right (Nat.dvd_mul_left P q)]
  constructor
  · intro h
    have := Nat.le_of_dvd (by omega) h
    omega
  · intro h
    exact ⟨1, by omega⟩

/-- What holds after `q` pipelines: none of their XADDs is entered twice, and all are entered
unless a connection has failed before the last reply of a pipeline. -/
structure Kept (answers : ℕ → GetReply) (size : ℤ) (start : Stats) (q : ℕ) (p : Producer) :
    Prop where
  seq : p.seq = q * pipeline size + p.pipelineCount
  pipelineCount_lt : p.pipelineCount < pipeline size
  enqueued : p.stats.enqueued = start.enqueued + p.accepted
  failed_le : start.failed ≤ p.stats.failed
  counted_le : p.counted ≤ start.enqueued + start.failed + q * pipeline size
  counted_iff : p.counted = start.enqueued + start.failed + q * pipeline size ↔
    ∀ n < q * pipeline size, answers n = .failure true → pipeline size ∣ n + 1

theorem Kept.init (answers : ℕ → GetReply) (size : ℤ) (start : Stats) :
    Kept answers size start 0 { stats := start } where
  seq := by simp
  pipelineCount_lt := by
    simp only [pipeline]
    omega
  enqueued := rfl
  failed_le := Nat.le_refl _
  counted_le := by simp [counted]
  counted_iff := by simp [counted]

/-- **Step lemma.** A turn of the loop keeps the books. -/
theorem Kept.turn {q : ℕ} (h : Kept answers size start q p)
    (hans : ∀ n ≤ p.seq, (answers n).Answered) :
    ∃ q' p', turn answers size p = .ok p' ∧ p'.seq = p.seq + 1 ∧ Kept answers size start q' p' := by
  have hseq := h.seq
  have hlt := h.pipelineCount_lt
  have hfirst : p.seq - p.pipelineCount = q * pipeline size := by omega
  by_cases hfull : size ≤ (p.pipelineCount + 1 : ℕ)
  · -- the pipeline is full: it is flushed, and the next one begins
    have hsize : p.pipelineCount + 1 = pipeline size := by
      simp only [pipeline] at hlt ⊢
      omega
    have hpipeline : ∀ i < pipeline size, (answers (q * pipeline size + i)).Answered := by
      intro i hi
      exact hans _ (by omega)
    obtain ⟨p', hp', hflush⟩ := flushPipeline_books answers hpipeline
      (p := { p with seq := p.seq + 1, pipelineCount := p.pipelineCount + 1 })
    refine ⟨q + 1, { p' with pipelineCount := 0 }, ?_, hflush.seq, ?_⟩
    · simp only [Producer.turn, hfirst, if_pos hfull]
      rw [hsize] at hp' ⊢
      rw [hp']
      rfl
    · have hmul : (q + 1) * pipeline size = q * pipeline size + pipeline size := Nat.succ_mul _ _
      have hseq' := hflush.seq
      have hlog := hflush.enqueued
      have hle := hflush.counted_le
      have hbefore : p.counted ≤ start.enqueued + start.failed + q * pipeline size := h.counted_le
      constructor
      · simp only [hseq', hmul]
        omega
      · simp only
        omega
      · have := h.enqueued
        simp only [accepted] at hlog this ⊢
        omega
      · exact h.failed_le.trans hflush.failed_le
      · simp only [counted] at hle hbefore ⊢
        omega
      · -- all are entered when those of the earlier pipelines and those of this one are
        have hboth : p'.counted = start.enqueued + start.failed + (q + 1) * pipeline size ↔
            p.counted = start.enqueued + start.failed + q * pipeline size ∧
              p'.counted = p.counted + pipeline size := by
          simp only [counted] at hle hbefore ⊢
          omega
        have hlast : p'.counted = p.counted + pipeline size ↔
            ∀ i < pipeline size, answers (q * pipeline size + i) = .failure true →
              pipeline size ∣ q * pipeline size + i + 1 := by
          refine hflush.counted_iff.trans (forall₂_congr fun i hi => ?_)
          rw [dvd_succ_iff_last hi]
        rw [hmul, forall_lt_add, ← h.counted_iff, ← hmul]
        exact hboth.trans (and_congr_right fun _ => hlast)
  · have hmore : p.pipelineCount + 1 < pipeline size := by
      simp only [pipeline]
      omega
    refine ⟨q, { p with seq := p.seq + 1, pipelineCount := p.pipelineCount + 1 }, ?_, rfl, ?_⟩
    · simp only [Producer.turn, if_neg hfull]
      rfl
    · exact ⟨by simp; omega, hmore, h.enqueued, h.failed_le, h.counted_le, h.counted_iff⟩

/-- **Run lemma.** So does the loop, which never returns from `run`. -/
theorem Kept.loop {q : ℕ} (turns : ℕ) (h : Kept answers size start q p)
    (hans : ∀ n < p.seq + turns, (answers n).Answered) :
    ∃ q' p', loop answers size turns p = .ok p' ∧ p'.seq = p.seq + turns ∧
      Kept answers size start q' p' := by
  induction turns generalizing q p with
  | zero => exact ⟨q, p, rfl, rfl, h⟩
  | succ turns ih =>
    obtain ⟨q₁, p₁, hturn, hseq₁, h₁⟩ := h.turn fun n hn => hans n (by omega)
    obtain ⟨q₂, p₂, hloop, hseq₂, h₂⟩ := ih h₁ fun n hn => hans n (by omega)
    refine ⟨q₂, p₂, ?_, by omega, h₂⟩
    rw [Producer.loop, hturn]
    exact hloop

/-! ### The books of the flush after the loop -/

/-- What the flush of the remaining `k` replies does to the counters: it enters every accepted
reply as such, perhaps others too, and no failure. -/
structure Drained (k : ℕ) (p p' : Producer) : Prop where
  seq : p'.seq = p.seq
  failed : p'.stats.failed = p.stats.failed
  enqueued_le : p'.stats.enqueued ≤ p.stats.enqueued + k
  accepted_le : p.stats.enqueued + p'.accepted ≤ p'.stats.enqueued + p.accepted

theorem Drained.refl (p : Producer) : Drained 0 p p :=
  ⟨rfl, rfl, Nat.le_refl _, Nat.le_refl _⟩

/-- A reply is read, and entered as accepted or not at all. -/
theorem Drained.of_read {k : ℕ} {r : GetReply} {record : Stats → Stats}
    (hfailed : (record p.stats).failed = p.stats.failed)
    (hle : (record p.stats).enqueued ≤ p.stats.enqueued + 1)
    (haccepted : p.stats.enqueued + (if r = .accepted then 1 else 0) ≤ (record p.stats).enqueued)
    (h : Drained k (p.read r record) p') : Drained (k + 1) p p' := by
  have henqueued := h.enqueued_le
  have hlog := h.accepted_le
  rw [stats_read] at henqueued
  rw [stats_read, accepted_read] at hlog
  exact ⟨h.seq, h.failed.trans hfailed, by omega, by omega⟩

/-- On a connection that has failed nothing more is entered. -/
theorem flushRemaining_broken (answers : ℕ → GetReply) (n k : ℕ) (p : Producer) :
    Drained k p (flushRemaining answers n k true p) ∧
      (flushRemaining answers n k true p).accepted = p.accepted := by
  induction k generalizing n p with
  | zero => exact ⟨.refl p, rfl⟩
  | succ k ih =>
    obtain ⟨hdrained, haccepted⟩ := ih (n + 1) (p.read (.failure false) id)
    rw [accepted_read, if_neg (by simp)] at haccepted
    exact ⟨hdrained.of_read rfl (Nat.le_succ _) (Nat.le_refl _), haccepted⟩

/-- The flush after the loop reads as many accepted replies as there are XADDs left exactly when
all of them are accepted. -/
theorem flushRemaining_books (answers : ℕ → GetReply) {n k : ℕ}
    (hans : ∀ i < k, (answers (n + i)).Answered) :
    Drained k p (flushRemaining answers n k false p) ∧
      (flushRemaining answers n k false p).accepted ≤ p.accepted + k ∧
      ((flushRemaining answers n k false p).accepted = p.accepted + k ↔
        ∀ i < k, answers (n + i) = .accepted) := by
  induction k generalizing n p with
  | zero => exact ⟨.refl p, Nat.le_refl _, by simp [flushRemaining]⟩
  | succ k ih =>
    obtain ⟨hfirst, hrest⟩ := (forall_lt_succ_add (Q := fun _ m => (answers m).Answered)).mp hans
    rw [forall_lt_succ_add (Q := fun _ m => answers m = .accepted)]
    rcases hfirst with hr | hr | hr
    · obtain ⟨hdrained, hle, hall⟩ := ih (p := p.read .accepted Stats.recordEnqueue) hrest
      simp only [flushRemaining, hr, true_and]
      rw [accepted_read, if_pos rfl] at hle hall
      refine ⟨hdrained.of_read rfl (Nat.le_refl _) (Nat.le_refl _), by omega, ?_⟩
      rw [← hall, Nat.add_assoc, Nat.add_comm 1 k]
    · -- an error reply is entered as accepted
      obtain ⟨hdrained, hle, hall⟩ := ih (p := p.read .error Stats.recordEnqueue) hrest
      simp only [flushRemaining, hr, reduceCtorEq, false_and, iff_false]
      rw [accepted_read, if_neg (by simp)] at hle
      exact ⟨hdrained.of_read rfl (Nat.le_refl _) (Nat.le_succ _), by omega, by omega⟩
    · -- the connection fails here: nothing more is accepted
      obtain ⟨hdrained, hsame⟩ :=
        flushRemaining_broken answers (n + 1) k (p.read (.failure true) id)
      simp only [flushRemaining, hr, reduceCtorEq, false_and, iff_false]
      rw [accepted_read, if_neg (by simp)] at hsame
      exact ⟨hdrained.of_read rfl (Nat.le_succ _) (Nat.le_refl _), by omega, by omega⟩

/-! ### The books of a run -/

/-- The counters tell what Redis answered: `enqueued` has grown by the number of XADDs that were
answered without error, and `failed` by the number of the other XADDs appended. -/
def Honest (start : Stats) (p : Producer) : Prop :=
  p.stats.enqueued = start.enqueued + p.accepted ∧
    p.stats.failed = start.failed + (p.seq - p.accepted)

instance (start : Stats) (p : Producer) : Decidable (Honest start p) :=
  inferInstanceAs (Decidable (_ ∧ _))

/-- **Which runs are counted honestly.** Either nothing is appended, or in every full pipeline no
reply but the last finds the connection lost, and every XADD that is left over when the run is
stopped is accepted. -/
theorem run_counts_iff (start : Stats) (connected : Bool) (answers : ℕ → GetReply) (size : ℤ)
    (turns : ℕ) (hans : ∀ n < turns, (answers n).Answered) :
    Honest start (run start connected answers size turns) ↔
      connected = false ∨
        (∀ n < turns / pipeline size * pipeline size,
          answers n = .failure true → pipeline size ∣ n + 1) ∧
        ∀ n < turns, turns / pipeline size * pipeline size ≤ n → answers n = .accepted := by
  cases connected with
  | false => simp [run, Honest, accepted]
  | true =>
    obtain ⟨q, p, hloop, hseq, h⟩ := (Kept.init answers size start).loop turns
      (by simpa using hans)
    -- the loop has flushed `q` full pipelines, and the last few XADDs are left to the stop
    have hturns : turns = q * pipeline size + p.pipelineCount := by
      rw [← h.seq, hseq, Nat.zero_add]
    have hq : turns / pipeline size = q := by
      rw [hturns, Nat.mul_comm, Nat.mul_add_div (by have := h.pipelineCount_lt; omega),
        Nat.div_eq_of_lt h.pipelineCount_lt, Nat.add_zero]
    have hfirst : p.seq - p.pipelineCount = q * pipeline size := by
      have := h.seq
      omega
    have hleft : ∀ i < p.pipelineCount, (answers (q * pipeline size + i)).Answered := by
      intro i hi
      exact hans _ (by omega)
    obtain ⟨hdrained, hle, hall⟩ := flushRemaining_books answers hleft (p := p)
    simp only [run, hloop, hfirst, if_true, reduceCtorEq, false_or]
    have hrest : (∀ n < turns, q * pipeline size ≤ n → answers n = .accepted) ↔
        ∀ i < p.pipelineCount, answers (q * pipeline size + i) = .accepted := by
      rw [hturns, forall_lt_add]
      constructor
      · intro hleft i hi
        exact hleft.2 i hi (Nat.le_add_right _ _)
      · intro hleft
        exact ⟨fun n hn hle => absurd hn (Nat.not_lt.mpr hle), fun i hi _ => hleft i hi⟩
    -- neither flush can count more than was accepted, so the sum is right when both parts are
    rw [hq, ← h.counted_iff, hrest, ← hall]
    have hlog := h.enqueued
    have hfailed := h.failed_le
    have hcounted := h.counted_le
    have hseq' := hdrained.seq
    have hfailed' := hdrained.failed
    have henqueued' := hdrained.enqueued_le
    have haccepted' := hdrained.accepted_le
    simp only [Honest, counted] at hcounted ⊢
    omega

/-- The two ways to miscount: an error reply that is left over when the run is stopped is counted
as accepted; and of a pipeline of three whose first reply finds the connection lost, one XADD is
counted and two are not. -/
theorem run_miscounts :
    ¬ Honest {} (run {} true (fun _ => .error) 100 1) ∧
      ¬ Honest {} (run {} true (fun n => if n = 0 then .failure true else .accepted) 3 3) := by
  decide

/-- Pipelines of two and five XADDs: an error in a full pipeline, and a connection lost at the
last reply of one, are both counted. -/
theorem run_counts_iff_five :
    Honest {} (run {} true
      (fun n => if n = 0 then .error else if n = 3 then .failure true else .accepted) 2 5) := by
  refine (run_counts_iff {} true _ 2 5 (by decide)).mpr (Or.inr ?_)
  decide

end Producer

end Dtq.Bench
