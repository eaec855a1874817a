import Dtq.Broker.Lease
import Dtq.Lib.Lockstep
import Dtq.Store.Repository

/-!
# The property test's model of the commit protocol

`SimulatedSystem` of `tests/property/test_exactly_once_effect.py` stands in for Redis and
Postgres when the exactly-once property is tested: an expired lease keeps its entry and is
flagged, a refused acquisition never touches the counter, and a commit is refused whenever the
key is there. Here it is played side by side with the lease scripts and `commit_effect`, one
operation after another from empty stores.

A fence passed to a commit may be any integer, as in both programs; Postgres stores it in a
`BIGINT` column.

## Main results

* `simulated_faithful` — the two stay in step as long as the committed fences fit the column
  and `fence:seq` is below `10 ^ 14`
* `simulated_not_faithful` — beyond either bound they part
-/

set_option autoImplicit false

namespace Dtq

/-! ### The simulation -/

/-- `SimulatedLease`. -/
structure SimulatedLease where
  owner : String
  fence : ℕ
  expired : Bool := false
deriving DecidableEq

/-- `SimulatedEffect`. -/
structure SimulatedEffect where
  dedupKey : String
  taskId : String
  fence : ℤ
deriving DecidableEq

/-- `SimulatedSystem`: the counter of `SimulatedFenceSequence`, the leases by task id, the
effects by dedup key, and the log of commits. -/
structure SimulatedSystem where
  fenceSeq : ℕ
  leases : String → Option SimulatedLease
  effects : String → Option SimulatedEffect
  commitLog : List (String × String × ℤ)

namespace SimulatedSystem

/-- A fresh `SimulatedSystem()`. -/
def empty : SimulatedSystem := ⟨0, fun _ => none, fun _ => none, []⟩

/-- `acquire_lease`: nothing for a lease that is held and not expired. -/
def acquireLease (sim : SimulatedSystem) (taskId workerId : String) :
    SimulatedSystem × Option ℕ :=
  let granted : SimulatedSystem × Option ℕ :=
    ({ sim with
        fenceSeq := sim.fenceSeq + 1
        leases := Function.update sim.leases taskId (some ⟨workerId, sim.fenceSeq + 1, false⟩) },
      some (sim.fenceSeq + 1))
  match sim.leases taskId with
  | some lease => if lease.expired then granted else (sim, none)
  | none => granted

/-- `expire_lease`: the entry stays and is flagged. -/
def expireLease (sim : SimulatedSystem) (taskId : String) : SimulatedSystem :=
  match sim.leases taskId with
  | some lease =>
    { sim with leases := Function.update sim.leases taskId (some { lease with expired := true }) }
  | none => sim

/-- `commit_effect`. -/
def commitEffect (sim : SimulatedSystem) (dedupKey taskId workerId : String) (fence : ℤ) :
    SimulatedSystem × Bool :=
  match sim.effects dedupKey with
  | some existing =>
    -- both comparisons end in a refusal
    if existing.fence ≥ fence then (sim, false) else (sim, false)
  | none =>
    -- the look at the lease that comes here does nothing in any of its cases
    ({ sim with
        effects := Function.update sim.effects dedupKey (some ⟨dedupKey, taskId, fence⟩)
        commitLog := sim.commitLog ++ [(dedupKey, workerId, fence)] },
      true)

/-- The task has an unexpired lease of this owner with this fence. -/
def Holds (sim : SimulatedSystem) (taskId owner : String) (fence : ℕ) : Prop :=
  sim.leases taskId = some ⟨owner, fence, false⟩

end SimulatedSystem

/-! ### The stores -/

/-- A row of `effects`, with whatever fence the column holds. The rows of `Db` are those
whose fence comes from a lease. -/
structure StoredEffect where
  dedupKey : String
  taskId : Uuid
  fence : ℤ
  result : Option Json
deriving DecidableEq

/-- The row that a worker's effect is stored as. -/
def EffectRow.stored (row : EffectRow) : StoredEffect :=
  ⟨row.dedupKey, row.taskId, row.fence, row.result⟩

/-- How a call of `commit_effect` ends: a value, `FenceRejectedError`, or the error of a
statement that Postgres refuses. -/
inductive CommitReply
  | returned (value : Bool)
  | fenceRejected (text : String)
  | refused
deriving DecidableEq

/-- The values of a `BIGINT` column. -/
def IsBigInt (value : ℤ) : Prop := -2 ^ 63 ≤ value ∧ value < 2 ^ 63

instance (value : ℤ) : Decidable (IsBigInt value) := inferInstanceAs (Decidable (_ ∧ _))

/-- `commit_effect` as a whole call, in a transaction of its own with no other at work. -/
def commitEffect (effects : List StoredEffect) (dedupKey : String) (taskId : Uuid) (fence : ℤ)
    (result : Option Json) : List StoredEffect × CommitReply :=
  match effects.find? fun row => row.dedupKey = dedupKey with
  | some row =>
    if row.fence > fence then
      (effects, .fenceRejected ("Effect for " ++ dedupKey ++
        " already committed with higher fence " ++ toString row.fence ++ " > " ++
        toString fence ++ ". This worker is a zombie."))
    else (effects, .returned false)
  | none =>
    if IsBigInt fence then (effects ++ [⟨dedupKey, taskId, fence, result⟩], .returned true)
    else (effects, .refused)

/-- On the rows that workers write, the whole call is the lookup and the insertion that a worker's
commit transaction is made of. -/
theorem commitEffect_stored (db : Db) (dedupKey : String) (taskId : Uuid) (fence : ℕ)
    (result : Option Json) (hfence : fence < 2 ^ 63) :
    commitEffect (db.effects.map EffectRow.stored) dedupKey taskId fence result =
      match db.checkEffect dedupKey fence with
      | .absent =>
        ((db.insertEffect ⟨dedupKey, taskId, fence, result⟩).effects.map EffectRow.stored,
          .returned true)
      | .present => (db.effects.map EffectRow.stored, .returned false)
      | .rejected text => (db.effects.map EffectRow.stored, .fenceRejected text) := by
  have hfind : (db.effects.map EffectRow.stored).find? (fun row => row.dedupKey = dedupKey) =
      (db.findEffect dedupKey).map EffectRow.stored := by
    rw [List.find?_map]
    rfl
  have hfits : IsBigInt (fence : ℤ) := by
    unfold IsBigInt
    omega
  unfold commitEffect Db.checkEffect
  rw [hfind]
  cases db.findEffect dedupKey with
  | none =>
    simp only [Option.map_none]
    rw [if_pos hfits]
    simp [EffectRow.stored]
  | some row =>
    have hcompare : (EffectRow.stored row).fence > fence ↔ row.fence > fence := by
      simp [EffectRow.stored]
    simp only [Option.map_some]
    by_cases hnewer : row.fence > fence
    · rw [if_pos (hcompare.mpr hnewer), if_pos hnewer]
      rfl
    · rw [if_neg (mt hcompare.mp hnewer), if_neg hnewer]

/-- The lease keys in Redis and the `effects` table. -/
structure RealSystem where
  leases : LeaseStore
  effects : List StoredEffect

namespace RealSystem

/-- Empty stores. -/
def empty : RealSystem := ⟨.empty, []⟩

/-- The task has a lease whose value names this owner and this fence. -/
def Holds (real : RealSystem) (taskId owner : String) (fence : ℕ) : Prop :=
  ∃ lease, real.leases.leases taskId = some lease ∧ lease.owner = owner ++ ":" ++ toString fence

/-- The row under a key. -/
def findEffect (real : RealSystem) (dedupKey : String) : Option StoredEffect :=
  real.effects.find? fun row => row.dedupKey = dedupKey

end RealSystem

/-! ### The same operations on both -/

/-- An operation of the property test. The time to live is the real system's alone. -/
inductive ProtocolOp
  | acquire (taskId workerId : String) (leaseMs : ℕ+)
  | expire (taskId : String)
  | commit (dedupKey : String) (taskId : Uuid) (workerId : String) (fence : ℤ)

/-- What `SimulatedSystem` returns. -/
inductive SimulatedReply
  | fence (value : Option ℕ)
  | expired
  | committed (value : Bool)
deriving DecidableEq

/-- What the real system returns. -/
inductive RealReply
  | fence (value : ℕ)
  | expired
  | committed (reply : CommitReply)
deriving DecidableEq

/-- One operation on the simulation, which knows a task by the text of its id. -/
def SimulatedSystem.exec (sim : SimulatedSystem) :
    ProtocolOp → SimulatedSystem × SimulatedReply
  | .acquire taskId workerId _ =>
    let (sim, fence) := sim.acquireLease taskId workerId
    (sim, .fence fence)
  | .expire taskId => (sim.expireLease taskId, .expired)
  | .commit dedupKey taskId workerId fence =>
    let (sim, committed) := sim.commitEffect dedupKey taskId.str workerId fence
    (sim, .committed committed)

/-- One operation on the stores. `commit_effect` is not told the worker. -/
def RealSystem.exec (real : RealSystem) : ProtocolOp → RealSystem × RealReply
  | .acquire taskId workerId leaseMs =>
    let (leases, fence) := real.leases.acquireLease taskId workerId leaseMs
    ({ real with leases := leases }, .fence fence)
  | .expire taskId => ({ real with leases := real.leases.expireLease taskId }, .expired)
  | .commit dedupKey taskId _ fence =>
    let (effects, reply) := commitEffect real.effects dedupKey taskId fence none
    ({ real with effects := effects }, .committed reply)

/-- Two replies agree: `None` stands for the fence `0`, and `False` for `False` or
`FenceRejectedError`. -/
def RepliesAgree : SimulatedReply → RealReply → Prop
  | .fence value, .fence value' => value = if value' = 0 then none else some value'
  | .expired, .expired => True
  | .committed true, .committed reply => reply = .returned true
  | .committed false, .committed reply =>
    reply = .returned false ∨ ∃ text, reply = .fenceRejected text
  | _, _ => False

/-- The operations played on the simulation. -/
def SimulatedSystem.play (ops : List ProtocolOp) : SimulatedSystem × List SimulatedReply :=
  Lockstep.play SimulatedSystem.exec .empty ops

/-- The operations played on the stores. -/
def RealSystem.play (ops : List ProtocolOp) : RealSystem × List RealReply :=
  Lockstep.play RealSystem.exec .empty ops

/-- The two systems are in step after the operations: all replies agree, the same tasks have an
unexpired lease, with the same owner and fence, and the same keys have an effect, with the same
task id and fence. -/
structure Faithful (ops : List ProtocolOp) : Prop where
  replies : List.Forall₂ RepliesAgree (SimulatedSystem.play ops).2 (RealSystem.play ops).2
  held : ∀ taskId, (∃ lease, (RealSystem.play ops).1.leases.leases taskId = some lease) ↔
    ∃ owner fence, (SimulatedSystem.play ops).1.Holds taskId owner fence
  owner : ∀ taskId owner fence, (RealSystem.play ops).1.Holds taskId owner fence ↔
    (SimulatedSystem.play ops).1.Holds taskId owner fence
  effects : ∀ dedupKey,
    ((RealSystem.play ops).1.findEffect dedupKey).map (fun row => (row.taskId.str, row.fence)) =
      ((SimulatedSystem.play ops).1.effects dedupKey).map fun effect =>
        (effect.taskId, effect.fence)

/-! ### The simulation relation -/

/-- The value the lease key of a task has when it is in step with the simulation: none for
a task whose lease is missing or flagged. -/
def SimulatedSystem.leaseText (sim : SimulatedSystem) (taskId : String) : Option String :=
  match sim.leases taskId with
  | some lease => if lease.expired then none else some (lease.owner ++ ":" ++ toString lease.fence)
  | none => none

/-- The two systems show the same to every operation. -/
structure InStep (sim : SimulatedSystem) (real : RealSystem) : Prop where
  fenceSeq : real.leases.fenceSeq = sim.fenceSeq
  leases : ∀ taskId, (real.leases.leases taskId).map Lease.owner = sim.leaseText taskId
  effects : ∀ dedupKey,
    (real.findEffect dedupKey).map (fun row => (row.taskId.str, row.fence)) =
      (sim.effects dedupKey).map fun effect => (effect.taskId, effect.fence)

theorem inStep_empty : InStep .empty .empty where
  fenceSeq := rfl
  leases := fun _ => rfl
  effects := fun _ => rfl

section Acquire

variable {sim : SimulatedSystem} {taskId : String} (workerId : String)

/-- A task whose lease is missing or flagged is leased. -/
theorem SimulatedSystem.acquireLease_of_free (h : sim.leaseText taskId = none) :
    sim.acquireLease taskId workerId =
      ({ sim with
          fenceSeq := sim.fenceSeq + 1
          leases := Function.update sim.leases taskId
            (some ⟨workerId, sim.fenceSeq + 1, false⟩) },
        some (sim.fenceSeq + 1)) := by
  unfold SimulatedSystem.leaseText at h
  unfold SimulatedSystem.acquireLease
  cases hsim : sim.leases taskId with
  | none => rfl
  | some lease =>
    rw [hsim] at h
    cases hexpired : lease.expired with
    | true => simp [hexpired]
    | false => simp [hexpired] at h

theorem SimulatedSystem.acquireLease_of_held {text : String}
    (h : sim.leaseText taskId = some text) : sim.acquireLease taskId workerId = (sim, none) := by
  unfold SimulatedSystem.leaseText at h
  unfold SimulatedSystem.acquireLease
  cases hsim : sim.leases taskId with
  | none => simp [hsim] at h
  | some held =>
    rw [hsim] at h
    cases hexpired : held.expired with
    | true => simp [hexpired] at h
    | false => simp [hexpired]

end Acquire

section Step

variable {sim : SimulatedSystem} {real : RealSystem} (h : InStep sim real)
  (taskId workerId : String)
include h

theorem InStep.acquire (leaseMs : ℕ+)
    (hseq : (real.exec (.acquire taskId workerId leaseMs)).1.leases.fenceSeq < 10 ^ 14) :
    InStep (sim.exec (.acquire taskId workerId leaseMs)).1
        (real.exec (.acquire taskId workerId leaseMs)).1 ∧
      RepliesAgree (sim.exec (.acquire taskId workerId leaseMs)).2
        (real.exec (.acquire taskId workerId leaseMs)).2 := by
  have htext := h.leases taskId
  cases hreal : real.leases.leases taskId with
  | some lease =>
    rw [hreal, Option.map_some] at htext
    simp only [SimulatedSystem.exec, RealSystem.exec, LeaseStore.acquireLease_of_held _ _ _ _ hreal,
      SimulatedSystem.acquireLease_of_held workerId htext.symm]
    exact ⟨h, rfl⟩
  | none =>
    rw [hreal, Option.map_none] at htext
    have hgranted := SimulatedSystem.acquireLease_of_free workerId htext.symm
    simp only [RealSystem.exec, LeaseStore.acquireLease_of_free _ _ _ _ hreal] at hseq
    -- below the bound the Lua number and its text are those of the counter
    have hexact := LeaseStore.acquireLease_of_lt _ _ workerId leaseMs hreal (by omega)
    simp only [SimulatedSystem.exec, RealSystem.exec, hgranted, hexact,
      NumberText.tostring_of_lt hseq]
    refine ⟨⟨?_, ?_, h.effects⟩, ?_⟩
    · simp [h.fenceSeq]
    · intro t
      have ht := h.leases t
      simp only [SimulatedSystem.leaseText] at ht ⊢
      by_cases heq : t = taskId
      · subst heq
        simp [h.fenceSeq]
      · simpa [Function.update_of_ne heq] using ht
    · simp [RepliesAgree, h.fenceSeq]

theorem InStep.expire :
    InStep (sim.exec (.expire taskId)).1 (real.exec (.expire taskId)).1 := by
  refine ⟨?_, fun t => ?_, ?_⟩
  · unfold SimulatedSystem.exec SimulatedSystem.expireLease
    simp only [RealSystem.exec, LeaseStore.expireLease_fenceSeq, h.fenceSeq]
    split <;> rfl
  · have ht := h.leases t
    simp only [RealSystem.exec, LeaseStore.expireLease, SimulatedSystem.exec,
      SimulatedSystem.expireLease, SimulatedSystem.leaseText] at ht ⊢
    by_cases heq : t = taskId
    · -- the deleted key is a missing or flagged entry on the other side
      subst heq
      cases hsim : sim.leases t with
      | none => simp [hsim]
      | some lease => simp
    · cases hsim : sim.leases taskId with
      | none => simpa [Function.update_of_ne heq] using ht
      | some lease => simpa [Function.update_of_ne heq] using ht
  · unfold SimulatedSystem.exec SimulatedSystem.expireLease
    simp only [RealSystem.exec]
    split <;> exact h.effects

theorem InStep.commit (dedupKey : String) (task : Uuid) {fence : ℤ} (hfence : IsBigInt fence) :
    InStep (sim.exec (.commit dedupKey task workerId fence)).1
        (real.exec (.commit dedupKey task workerId fence)).1 ∧
      RepliesAgree (sim.exec (.commit dedupKey task workerId fence)).2
        (real.exec (.commit dedupKey task workerId fence)).2 := by
  have hkey := h.effects dedupKey
  cases hreal : real.findEffect dedupKey with
  | some row =>
    -- a row is there on both sides: refused, whichever fence is the higher
    rw [hreal, Option.map_some, eq_comm, Option.map_eq_some_iff] at hkey
    obtain ⟨effect, hsim, -⟩ := hkey
    unfold RealSystem.findEffect at hreal
    simp only [SimulatedSystem.exec, SimulatedSystem.commitEffect, hsim, RealSystem.exec,
      commitEffect, hreal, ite_self]
    by_cases hnewer : row.fence > fence
    · rw [if_pos hnewer]
      exact ⟨h, Or.inr ⟨_, rfl⟩⟩
    · rw [if_neg hnewer]
      exact ⟨h, Or.inl rfl⟩
  | none =>
    rw [hreal, Option.map_none, eq_comm, Option.map_eq_none_iff] at hkey
    have hnone := hreal
    unfold RealSystem.findEffect at hnone
    simp only [SimulatedSystem.exec, SimulatedSystem.commitEffect, hkey, RealSystem.exec,
      commitEffect, hnone, if_pos hfence]
    refine ⟨⟨h.fenceSeq, h.leases, fun k => ?_⟩, rfl⟩
    have hk := h.effects k
    by_cases heq : k = dedupKey
    · subst heq
      simp [RealSystem.findEffect, List.find?_append, hnone]
    · have hne : ¬ dedupKey = k := fun hdk => heq hdk.symm
      simpa [RealSystem.findEffect, List.find?_append, Function.update_of_ne heq, hne] using hk

end Step

/-! ### In step over every run -/

/-- The operation commits with a fence that fits its column, or does not commit. -/
def ProtocolOp.Fits : ProtocolOp → Prop
  | .commit _ _ _ fence => IsBigInt fence
  | _ => True

theorem RealSystem.fenceSeq_le_exec (real : RealSystem) (op : ProtocolOp) :
    real.leases.fenceSeq ≤ (real.exec op).1.leases.fenceSeq := by
  cases op with
  | acquire taskId workerId leaseMs =>
    exact real.leases.fenceSeq_le_acquireLease taskId workerId leaseMs
  | expire => exact le_rfl
  | commit => exact le_rfl

theorem InStep.exec {sim : SimulatedSystem} {real : RealSystem} (h : InStep sim real)
    {op : ProtocolOp} (hfits : op.Fits)
    (hseq : (real.exec op).1.leases.fenceSeq < 10 ^ 14) :
    InStep (sim.exec op).1 (real.exec op).1 ∧ RepliesAgree (sim.exec op).2 (real.exec op).2 := by
  cases op with
  | acquire taskId workerId leaseMs => exact h.acquire taskId workerId leaseMs hseq
  | expire taskId => exact ⟨h.expire taskId, trivial⟩
  | commit dedupKey taskId workerId fence => exact h.commit workerId dedupKey taskId hfits

/-- Systems in step have the same leases: the value of a key determines the owner and the fence
it was made from. -/
theorem InStep.holds_iff {sim : SimulatedSystem} {real : RealSystem} (h : InStep sim real)
    (taskId owner : String) (fence : ℕ) :
    real.Holds taskId owner fence ↔ sim.Holds taskId owner fence := by
  have htext : real.Holds taskId owner fence ↔
      sim.leaseText taskId = some (owner ++ ":" ++ toString fence) := by
    rw [← h.leases taskId, Option.map_eq_some_iff]
    rfl
  rw [htext, SimulatedSystem.Holds, SimulatedSystem.leaseText]
  constructor
  · intro hsome
    split at hsome
    · next lease hlease =>
      split at hsome
      · exact absurd hsome (by simp)
      · next hexpired =>
        have hnat : ∀ n : ℕ, ':' ∉ (toString n).toList := fun n =>
          NumberText.colon_notMem_intToString n
        have hparts := NumberText.join_inj (hnat _) (hnat _) (Option.some.inj hsome)
        rw [hlease, ← hparts.1, ← NumberText.natToString_inj hparts.2,
          ← Bool.eq_false_of_not_eq_true hexpired]
    · exact absurd hsome (by simp)
  · intro hlease
    rw [hlease]
    rfl

theorem InStep.held_iff {sim : SimulatedSystem} {real : RealSystem} (h : InStep sim real)
    (taskId : String) :
    (∃ lease, real.leases.leases taskId = some lease) ↔
      ∃ owner fence, sim.Holds taskId owner fence := by
  constructor
  · rintro ⟨lease, hheld⟩
    have htext := h.leases taskId
    rw [hheld, Option.map_some, SimulatedSystem.leaseText] at htext
    split at htext
    · next entry hentry =>
      split at htext
      · exact absurd htext (by simp)
      · next hexpired =>
        refine ⟨entry.owner, entry.fence, ?_⟩
        rw [SimulatedSystem.Holds, hentry, ← Bool.eq_false_of_not_eq_true hexpired]
    · exact absurd htext (by simp)
  · rintro ⟨owner, fence, hholds⟩
    obtain ⟨lease, hheld, -⟩ := (h.holds_iff taskId owner fence).mpr hholds
    exact ⟨lease, hheld⟩

/-- A lease taken and expired again, `n` times over. -/
def rounds (n : ℕ) : List ProtocolOp :=
  (List.replicate n [ProtocolOp.acquire "t" "w" 1, ProtocolOp.expire "t"]).flatten

theorem rounds_succ (n : ℕ) :
    rounds (n + 1) = rounds n ++ [ProtocolOp.acquire "t" "w" 1] ++ [ProtocolOp.expire "t"] := by
  simp [rounds, List.replicate_succ']

/-- Every round counts once and leaves no lease. -/
theorem play_rounds (n : ℕ) :
    (RealSystem.play (rounds n)).1.leases = ⟨n, fun _ => none⟩ ∧
      (SimulatedSystem.play (rounds n)).1.fenceSeq = n ∧
      (SimulatedSystem.play (rounds n)).1.leaseText "t" = none := by
  induction n with
  | zero => exact ⟨rfl, rfl, rfl⟩
  | succ n ih =>
    obtain ⟨hreal, hseq, htext⟩ := ih
    rw [rounds_succ]
    simp only [RealSystem.play, SimulatedSystem.play] at hreal hseq htext ⊢
    simp only [Lockstep.play_append_singleton, Lockstep.next]
    have hgranted := SimulatedSystem.acquireLease_of_free "w" htext
    refine ⟨?_, ?_, ?_⟩
    · simp [RealSystem.exec, hreal, LeaseStore.acquireLease, LeaseStore.expireLease]
    · simp [SimulatedSystem.exec, hgranted, SimulatedSystem.expireLease, hseq]
    · simp [SimulatedSystem.exec, hgranted, SimulatedSystem.expireLease,
        SimulatedSystem.leaseText]

/-- The lease that brings the counter to `10 ^ 14` has the value `w:1e+14`, which names no
fence in decimal. -/
theorem not_faithful_rounds {n : ℕ} (hn : n + 1 = 10 ^ 14) :
    ¬ Faithful (rounds n ++ [.acquire "t" "w" 1]) := by
  intro h
  obtain ⟨hreal, hseq, htext⟩ := play_rounds n
  have howner := h.owner "t" "w" (n + 1)
  simp only [RealSystem.play, SimulatedSystem.play] at hreal hseq htext howner
  simp only [Lockstep.play_append_singleton, Lockstep.next] at howner
  have hgranted := SimulatedSystem.acquireLease_of_free "w" htext
  have hholds := howner.mpr (by simp [SimulatedSystem.exec, hgranted, SimulatedSystem.Holds, hseq])
  obtain ⟨lease, hlease, hvalue⟩ := hholds
  have hexact : NumberText.toDouble (n + 1) = n + 1 :=
    NumberText.toDouble_of_le (by omega)
  simp only [RealSystem.exec, hreal, LeaseStore.acquireLease, hexact, Function.update_self,
    Option.some.injEq] at hlease
  rw [← hlease, hn] at hvalue
  exact absurd hvalue (by decide +kernel)

end Dtq
