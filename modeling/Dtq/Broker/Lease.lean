import Mathlib.Data.PNat.Basic
import Mathlib.Logic.Function.Basic
import Dtq.Lib.NumberText
import Dtq.Lib.Transition

/-!
# Leases and fencing tokens in Redis

The keys `fence:seq` and `lease:<task_id>` and the three Lua scripts that use
them. A script runs atomically in Redis, so each one is a function on the store.
A lease key disappears when its time to live runs out; nothing else about time
is used, so expiry is an operation that may come at any moment.

The counter's value passes through a Lua number, which is a double, and the
owner text is built with Lua's `tostring`, while Python compares it with the
decimal text of the fence it was handed. `NumberText` says where these agree.

## Main results

* `LeaseRun.inv_play` — what the store holds is what the log of calls says:
  the key of a task exists exactly while an acquisition of it is live
* `LeaseRun.lease_and_fence_safety` — fences are never reused, and only the
  live owner of a lease can release or extend it
-/

set_option autoImplicit false

namespace Dtq

/-- A `lease:<task_id>` key: its value `<worker_id>:<fence>` and the time to live
it was last given, in milliseconds. Redis refuses a time to live that is not
positive. -/
structure Lease where
  owner : String
  px : ℕ+
deriving DecidableEq

/-- The keys the lease scripts use: `fence:seq`, and `lease:<task_id>` by task id. -/
structure LeaseStore where
  fenceSeq : ℕ
  leases : String → Option Lease

namespace LeaseStore

/-- `fence:seq` unset and no lease held. -/
def empty : LeaseStore := ⟨0, fun _ => none⟩

/-- `acquire_lease.lua`: `INCR fence:seq`, then `SET lease:<task_id> .. NX PX`;
when the key is already there the increment is undone and `0` returned. -/
def acquireLease (store : LeaseStore) (taskId workerId : String) (leaseMs : ℕ+) :
    LeaseStore × ℕ :=
  let incremented := store.fenceSeq + 1
  let fence := NumberText.toDouble incremented
  match store.leases taskId with
  | none =>
    ({ fenceSeq := incremented
       leases := Function.update store.leases taskId
        (some ⟨workerId ++ ":" ++ NumberText.tostring fence, leaseMs⟩) }, fence)
  | some _ => ({ store with fenceSeq := incremented - 1 }, 0)

/-- `RedisBroker.release_lease` and `release_lease.lua`: delete the key if its
value is the caller's owner text. -/
def releaseLease (store : LeaseStore) (taskId workerId : String) (fence : ℤ) :
    LeaseStore × Bool :=
  match store.leases taskId with
  | some lease =>
    if lease.owner = workerId ++ ":" ++ toString fence then
      ({ store with leases := Function.update store.leases taskId none }, true)
    else (store, false)
  | none => (store, false)

/-- `RedisBroker.extend_lease` and `extend_lease.lua`: set a new time to live if
the value is the caller's owner text. -/
def extendLease (store : LeaseStore) (taskId workerId : String) (fence : ℤ) (leaseMs : ℕ+) :
    LeaseStore × Bool :=
  match store.leases taskId with
  | some lease =>
    if lease.owner = workerId ++ ":" ++ toString fence then
      ({ store with
          leases := Function.update store.leases taskId (some { lease with px := leaseMs }) },
        true)
    else (store, false)
  | none => (store, false)

/-- The time to live of a task's lease runs out. -/
def expireLease (store : LeaseStore) (taskId : String) : LeaseStore :=
  { store with leases := Function.update store.leases taskId none }

section

variable (store : LeaseStore) (taskId workerId : String) (leaseMs : ℕ+) {lease : Lease}

theorem acquireLease_of_held (h : store.leases taskId = some lease) :
    store.acquireLease taskId workerId leaseMs = (store, 0) := by
  simp [acquireLease, h]

theorem acquireLease_of_free (h : store.leases taskId = none) :
    store.acquireLease taskId workerId leaseMs =
      ({ fenceSeq := store.fenceSeq + 1
         leases := Function.update store.leases taskId
          (some ⟨workerId ++ ":" ++
            NumberText.tostring (NumberText.toDouble (store.fenceSeq + 1)), leaseMs⟩) },
        NumberText.toDouble (store.fenceSeq + 1)) := by
  simp [acquireLease, h]

/-- The fence is the counter's next value, as long as that is a double. -/
theorem acquireLease_of_lt (h : store.leases taskId = none) (hseq : store.fenceSeq < 10 ^ 14) :
    store.acquireLease taskId workerId leaseMs =
      ({ fenceSeq := store.fenceSeq + 1
         leases := Function.update store.leases taskId
          (some ⟨workerId ++ ":" ++ NumberText.tostring (store.fenceSeq + 1), leaseMs⟩) },
        store.fenceSeq + 1) := by
  have hexact : NumberText.toDouble (store.fenceSeq + 1) = store.fenceSeq + 1 :=
    NumberText.toDouble_of_le (by omega)
  rw [acquireLease_of_free _ _ _ _ h, hexact]

/-- An acquisition that returns `0` found the lease held and changed nothing. -/
theorem eq_of_acquireLease_zero {store' : LeaseStore}
    (h : store.acquireLease taskId workerId leaseMs = (store', 0)) : store' = store := by
  cases hheld : store.leases taskId with
  | none =>
    -- a free key is given a fence, and no fence rounds down to zero
    have hpos : 0 < NumberText.toDouble (store.fenceSeq + 1) :=
      NumberText.toDouble_pos (Nat.succ_pos _)
    simp only [acquireLease, hheld, Prod.mk.injEq] at h
    omega
  | some lease =>
    rw [acquireLease_of_held _ _ _ _ hheld, Prod.mk.injEq] at h
    exact h.1.symm

/-- An acquisition that returns a fence found no lease and has moved the counter on. -/
theorem acquireLease_of_ne_zero {store' : LeaseStore} {fence : ℕ}
    (h : store.acquireLease taskId workerId leaseMs = (store', fence)) (hfence : fence ≠ 0) :
    store'.fenceSeq = store.fenceSeq + 1 ∧
      fence = NumberText.toDouble (store.fenceSeq + 1) := by
  cases hheld : store.leases taskId with
  | none =>
    simp only [acquireLease, hheld, Prod.mk.injEq] at h
    obtain ⟨rfl, rfl⟩ := h
    exact ⟨rfl, rfl⟩
  | some lease =>
    rw [acquireLease_of_held _ _ _ _ hheld, Prod.mk.injEq] at h
    exact absurd h.2.symm hfence

/-- No script lets the counter fall: a failed acquisition leaves it where it was. -/
theorem fenceSeq_le_acquireLease :
    store.fenceSeq ≤ (store.acquireLease taskId workerId leaseMs).1.fenceSeq := by
  unfold acquireLease
  split <;> simp

@[simp] theorem releaseLease_fenceSeq (fence : ℤ) :
    (store.releaseLease taskId workerId fence).1.fenceSeq = store.fenceSeq := by
  unfold releaseLease
  split <;> [split; skip] <;> rfl

@[simp] theorem extendLease_fenceSeq (fence : ℤ) :
    (store.extendLease taskId workerId fence leaseMs).1.fenceSeq = store.fenceSeq := by
  unfold extendLease
  split <;> [split; skip] <;> rfl

@[simp] theorem expireLease_fenceSeq : (store.expireLease taskId).fenceSeq = store.fenceSeq := rfl

end

end LeaseStore

/-! ### Runs of lease operations -/

/-- A call of the lease interface, or the expiry of a lease. -/
inductive LeaseOp
  | acquire (taskId workerId : String) (leaseMs : ℕ+)
  | extend (taskId workerId : String) (fence : ℤ) (leaseMs : ℕ+)
  | release (taskId workerId : String) (fence : ℤ)
  | expire (taskId : String)
deriving DecidableEq

/-- What a call returned: a fence (`0` for a refused acquisition) or a flag. -/
inductive LeaseReply
  | fence (value : ℕ)
  | flag (value : Bool)
  | expired
deriving DecidableEq

/-- The store together with the calls made so far and their replies, oldest
first. -/
structure LeaseRun where
  store : LeaseStore
  log : List (LeaseOp × LeaseReply)

namespace LeaseRun

/-- Carry out one operation on the store. -/
def exec (store : LeaseStore) : LeaseOp → LeaseStore × LeaseReply
  | .acquire taskId workerId leaseMs =>
    let (store, fence) := store.acquireLease taskId workerId leaseMs
    (store, .fence fence)
  | .extend taskId workerId fence leaseMs =>
    let (store, extended) := store.extendLease taskId workerId fence leaseMs
    (store, .flag extended)
  | .release taskId workerId fence =>
    let (store, released) := store.releaseLease taskId workerId fence
    (store, .flag released)
  | .expire taskId => (store.expireLease taskId, .expired)

/-- One operation, logged. -/
def next (r : LeaseRun) (op : LeaseOp) : LeaseRun :=
  ⟨(exec r.store op).1, r.log ++ [(op, (exec r.store op).2)]⟩

/-- Operations run one after another from an empty store. -/
def play (ops : List LeaseOp) : LeaseRun :=
  ops.foldl next ⟨.empty, []⟩

/-- The fence a logged call issued: the reply of an acquisition that was not
refused. -/
def issuedBy : LeaseOp × LeaseReply → Option ℕ
  | (.acquire _ _ _, .fence f) => if f = 0 then none else some f
  | _ => none

/-- The fences issued, in the order they were returned, over all tasks. -/
def issued (log : List (LeaseOp × LeaseReply)) : List ℕ := log.filterMap issuedBy

/-- The logged call is an acquisition of `taskId` by `workerId` that returned the
nonzero fence `f`. -/
def Acquires (taskId workerId : String) (f : ℕ) (entry : LeaseOp × LeaseReply) : Prop :=
  f ≠ 0 ∧ ∃ leaseMs, entry = (.acquire taskId workerId leaseMs, .fence f)

/-- The logged call ends the lease of `taskId`: its expiry, or a release that
returned true. -/
def Ends (taskId : String) (entry : LeaseOp × LeaseReply) : Prop :=
  entry.1 = .expire taskId ∨
    ∃ workerId fence, entry = (.release taskId workerId fence, .flag true)

/-- The lease live on `taskId` after the logged calls is the one whose acquisition
by `workerId` returned `f`: that acquisition is in the log and nothing after it
ended the task's lease. -/
def Live (log : List (LeaseOp × LeaseReply)) (taskId workerId : String) (f : ℕ) : Prop :=
  ∃ before entry after, log = before ++ entry :: after ∧ Acquires taskId workerId f entry ∧
    ∀ later ∈ after, ¬ Ends taskId later

theorem not_live_nil {taskId workerId : String} {f : ℕ} : ¬ Live [] taskId workerId f := by
  rintro ⟨before, entry, after, h, -⟩
  simp at h

/-- Liveness after one more call: that call acquired the lease, or the lease was
live and the call did not end it. -/
theorem live_append_singleton {log : List (LeaseOp × LeaseReply)}
    {entry : LeaseOp × LeaseReply} {taskId workerId : String} {f : ℕ} :
    Live (log ++ [entry]) taskId workerId f ↔
      Acquires taskId workerId f entry ∨
        Live log taskId workerId f ∧ ¬ Ends taskId entry := by
  constructor
  · rintro ⟨before, acquired, after, hlog, hacq, hafter⟩
    -- the new call is the acquisition itself, or the last one after it
    rcases List.eq_nil_or_concat after with rfl | ⟨front, last, rfl⟩
    · obtain ⟨-, rfl⟩ : log = before ∧ entry = acquired := by simpa using hlog
      exact Or.inl hacq
    · have hsplit : log = before ++ acquired :: front ∧ entry = last := by
        rw [List.concat_eq_append, ← List.cons_append, ← List.append_assoc] at hlog
        simpa using List.append_inj' hlog rfl
      obtain ⟨rfl, rfl⟩ := hsplit
      refine Or.inr ⟨⟨before, acquired, front, rfl, hacq, fun later hmem => ?_⟩, ?_⟩
      · exact hafter later (by simp [hmem])
      · exact hafter entry (by simp)
  · rintro (hacq | ⟨⟨before, acquired, after, rfl, hacq, hafter⟩, hends⟩)
    · exact ⟨log, entry, [], rfl, hacq, by simp⟩
    · refine ⟨before, acquired, after ++ [entry], by simp, hacq, fun later hmem => ?_⟩
      rcases List.mem_append.mp hmem with hmem | hmem
      · exact hafter later hmem
      · rw [List.mem_singleton.mp hmem]
        exact hends

/-! ### What the store says about the log -/

/-- The store agrees with the log: the counter bounds every fence issued, fences
were issued in increasing order, and the key of a task exists exactly while an
acquisition of it is live, with that acquisition's owner text as its value. -/
structure Inv (r : LeaseRun) : Prop where
  bounded : ∀ f ∈ issued r.log, f ≤ r.store.fenceSeq
  increasing : (issued r.log).Pairwise (· < ·)
  free : ∀ taskId, r.store.leases taskId = none → ∀ w f, ¬ Live r.log taskId w f
  held : ∀ taskId lease, r.store.leases taskId = some lease →
    ∃ w f, Live r.log taskId w f ∧ lease.owner = w ++ ":" ++ toString f ∧
      ∀ w' f', Live r.log taskId w' f' → w' = w ∧ f' = f

theorem inv_start : Inv ⟨.empty, []⟩ where
  bounded := by simp [issued]
  increasing := by simp [issued]
  free := fun _ _ _ _ => not_live_nil
  held := by simp [LeaseStore.empty]

theorem fenceSeq_le_next (r : LeaseRun) (op : LeaseOp) :
    r.store.fenceSeq ≤ (r.next op).store.fenceSeq := by
  cases op with
  | acquire taskId workerId leaseMs =>
    exact r.store.fenceSeq_le_acquireLease taskId workerId leaseMs
  | extend => simp [next, exec]
  | release => simp [next, exec]
  | expire => simp [next, exec]

/-- A call that issues no fence and neither acquires nor ends a lease keeps the
agreement as long as it leaves the owner texts alone. -/
theorem Inv.of_inert {r : LeaseRun} {store : LeaseStore} {entry : LeaseOp × LeaseReply}
    (h : r.Inv) (hissued : issuedBy entry = none)
    (hacq : ∀ taskId w f, ¬ Acquires taskId w f entry) (hends : ∀ taskId, ¬ Ends taskId entry)
    (hseq : store.fenceSeq = r.store.fenceSeq)
    (howner : ∀ taskId, (store.leases taskId).map Lease.owner =
      (r.store.leases taskId).map Lease.owner) :
    Inv ⟨store, r.log ++ [entry]⟩ := by
  have hlive : ∀ taskId w f, Live (r.log ++ [entry]) taskId w f ↔ Live r.log taskId w f := by
    intro taskId w f
    rw [live_append_singleton]
    simp [hacq, hends]
  have hlog : issued (r.log ++ [entry]) = issued r.log := by simp [issued, hissued]
  -- only the times to live may differ, and the invariant does not speak about them
  refine ⟨?_, ?_, ?_, ?_⟩
  · rw [hlog, hseq]
    exact h.bounded
  · rw [hlog]
    exact h.increasing
  · intro taskId hnone w f
    rw [hlive]
    refine h.free taskId ?_ w f
    have hmap := howner taskId
    rw [show store.leases taskId = none from hnone, Option.map_none, eq_comm] at hmap
    exact Option.map_eq_none_iff.mp hmap
  · intro taskId lease hsome
    have hmap := howner taskId
    rw [hsome, Option.map_some, eq_comm, Option.map_eq_some_iff] at hmap
    obtain ⟨old, hold, hsame⟩ := hmap
    simp only [hlive]
    rw [← hsame]
    exact h.held taskId old hold

/-- Deleting the key of a task by a call that ends its lease keeps the agreement. -/
theorem Inv.of_end {r : LeaseRun} {taskId : String} {entry : LeaseOp × LeaseReply}
    (h : r.Inv) (hissued : issuedBy entry = none)
    (hacq : ∀ t w f, ¬ Acquires t w f entry) (hends : ∀ t, Ends t entry ↔ t = taskId) :
    Inv ⟨{ r.store with leases := Function.update r.store.leases taskId none },
      r.log ++ [entry]⟩ := by
  have hlive : ∀ t w f, Live (r.log ++ [entry]) t w f ↔ Live r.log t w f ∧ t ≠ taskId := by
    intro t w f
    rw [live_append_singleton]
    simp [hacq, hends]
  have hlog : issued (r.log ++ [entry]) = issued r.log := by simp [issued, hissued]
  refine ⟨?_, ?_, ?_, ?_⟩
  · rw [hlog]
    exact h.bounded
  · rw [hlog]
    exact h.increasing
  · intro t hnone w f hl
    obtain ⟨hl, hne⟩ := (hlive t w f).mp hl
    simp only [Function.update_of_ne hne] at hnone
    exact h.free t hnone w f hl
  · intro t lease hsome
    have hne : t ≠ taskId := by
      rintro rfl
      simp at hsome
    simp only [Function.update_of_ne hne] at hsome
    simp only [hlive, hne, ne_eq, not_false_eq_true, and_true]
    exact h.held t lease hsome

/-- After an acquisition the new lease is live, and so are the others. -/
theorem live_append_acquire {log : List (LeaseOp × LeaseReply)} {taskId workerId : String}
    {leaseMs : ℕ+} {fence : ℕ} (hfence : fence ≠ 0) {t w : String} {f : ℕ} :
    Live (log ++ [(.acquire taskId workerId leaseMs, .fence fence)]) t w f ↔
      (t = taskId ∧ w = workerId ∧ f = fence) ∨ Live log t w f := by
  have hacq : Acquires t w f (.acquire taskId workerId leaseMs, .fence fence) ↔
      t = taskId ∧ w = workerId ∧ f = fence := by
    simp only [Acquires, Prod.mk.injEq, LeaseOp.acquire.injEq, LeaseReply.fence.injEq]
    constructor
    · rintro ⟨-, ms, ⟨rfl, rfl, -⟩, rfl⟩
      exact ⟨rfl, rfl, rfl⟩
    · rintro ⟨rfl, rfl, rfl⟩
      exact ⟨hfence, leaseMs, ⟨rfl, rfl, rfl⟩, rfl⟩
  rw [live_append_singleton, hacq]
  simp [Ends]

/-- A successful acquisition keeps the agreement: the counter has just moved past
every fence issued so far, and no lease of the task was live. -/
theorem Inv.of_acquire {r : LeaseRun} {taskId workerId : String} {leaseMs : ℕ+} (h : r.Inv)
    (hfree : r.store.leases taskId = none) (hseq : r.store.fenceSeq + 1 < 10 ^ 14) :
    Inv (r.next (.acquire taskId workerId leaseMs)) := by
  set entry : LeaseOp × LeaseReply :=
    (.acquire taskId workerId leaseMs, .fence (r.store.fenceSeq + 1)) with hentry
  -- below `10 ^ 14` the Lua number and its text are those of the counter itself
  have hnext : r.next (.acquire taskId workerId leaseMs) =
      ⟨⟨r.store.fenceSeq + 1, Function.update r.store.leases taskId
        (some ⟨workerId ++ ":" ++ toString (r.store.fenceSeq + 1), leaseMs⟩)⟩,
        r.log ++ [entry]⟩ := by
    simp [next, exec, LeaseStore.acquireLease_of_lt _ _ _ _ hfree (Nat.lt_of_succ_lt hseq),
      NumberText.tostring_of_lt hseq, hentry]
  have hlive : ∀ t w f, Live (r.log ++ [entry]) t w f ↔
      (t = taskId ∧ w = workerId ∧ f = r.store.fenceSeq + 1) ∨ Live r.log t w f :=
    fun t w f => live_append_acquire (by omega)
  have hissued : issued (r.log ++ [entry]) = issued r.log ++ [r.store.fenceSeq + 1] := by
    simp [issued, issuedBy, hentry]
  rw [hnext]
  refine ⟨?_, ?_, ?_, ?_⟩
  · intro f hf
    rw [hissued, List.mem_append, List.mem_singleton] at hf
    rcases hf with hf | rfl
    · have hle := h.bounded f hf
      show f ≤ r.store.fenceSeq + 1
      omega
    · exact le_rfl
  · show (issued (r.log ++ [entry])).Pairwise (· < ·)
    rw [hissued, List.pairwise_append]
    refine ⟨h.increasing, by simp, fun f hf g hg => ?_⟩
    have hle := h.bounded f hf
    rw [List.mem_singleton.mp hg]
    omega
  · intro t hnone w f hl
    have hne : t ≠ taskId := by
      rintro rfl
      simp at hnone
    simp only [Function.update_of_ne hne] at hnone
    rcases (hlive t w f).mp hl with ⟨rfl, -⟩ | hl
    · exact hne rfl
    · exact h.free t hnone w f hl
  · intro t lease hsome
    by_cases hne : t = taskId
    · -- the new lease is the only live one: the key was free, so none was live before
      subst hne
      simp only [Function.update_self, Option.some.injEq] at hsome
      refine ⟨workerId, r.store.fenceSeq + 1, (hlive _ _ _).mpr (Or.inl ⟨rfl, rfl, rfl⟩), ?_, ?_⟩
      · rw [← hsome]
      · intro w' f' hl
        rcases (hlive t w' f').mp hl with ⟨-, hw, hf⟩ | hl
        · exact ⟨hw, hf⟩
        · exact absurd hl (h.free t hfree w' f')
    · simp only [Function.update_of_ne hne] at hsome
      obtain ⟨w, f, hl, howner, huniq⟩ := h.held t lease hsome
      refine ⟨w, f, (hlive t w f).mpr (Or.inr hl), howner, fun w' f' hl' => ?_⟩
      rcases (hlive t w' f').mp hl' with ⟨rfl, -⟩ | hl'
      · exact absurd rfl hne
      · exact huniq w' f' hl'

/-- Only the live owner's text matches the value of a task's key. -/
theorem Inv.owner_eq_iff {r : LeaseRun} (h : r.Inv) {taskId : String} {lease : Lease}
    (hheld : r.store.leases taskId = some lease) (workerId : String) (fence : ℤ) :
    lease.owner = workerId ++ ":" ++ toString fence ↔
      ∃ f : ℕ, fence = f ∧ Live r.log taskId workerId f := by
  obtain ⟨w, f, hl, howner, huniq⟩ := h.held taskId lease hheld
  constructor
  · intro heq
    -- worker ids may contain colons, the text of a fence does not
    have hjoin : w ++ ":" ++ toString ((f : ℕ) : ℤ) = workerId ++ ":" ++ toString fence := by
      rw [← heq, howner]
      rfl
    obtain ⟨rfl, htext⟩ := NumberText.join_inj (NumberText.colon_notMem_intToString _)
      (NumberText.colon_notMem_intToString _) hjoin
    exact ⟨f, NumberText.intToString_eq_natToString htext.symm, hl⟩
  · rintro ⟨f', rfl, hl'⟩
    obtain ⟨rfl, rfl⟩ := huniq workerId f' hl'
    rw [howner]
    rfl

theorem Inv.next {r : LeaseRun} (h : r.Inv) (op : LeaseOp)
    (hseq : (r.next op).store.fenceSeq < 10 ^ 14) : (r.next op).Inv := by
  cases op with
  | acquire taskId workerId leaseMs =>
    cases hfree : r.store.leases taskId with
    | none =>
      refine h.of_acquire hfree ?_
      simpa [LeaseRun.next, exec, LeaseStore.acquireLease, hfree] using hseq
    | some lease =>
      -- refused: the increment is undone and the log only records a zero
      have hexec : exec r.store (.acquire taskId workerId leaseMs) = (r.store, .fence 0) := by
        simp [exec, LeaseStore.acquireLease_of_held _ _ _ _ hfree]
      rw [LeaseRun.next, hexec]
      refine h.of_inert ?_ ?_ ?_ rfl fun _ => rfl
      · simp [issuedBy]
      · rintro t w f ⟨hf, ms, heq⟩
        simp only [Prod.mk.injEq, LeaseReply.fence.injEq] at heq
        exact hf heq.2.symm
      · simp [Ends]
  | extend taskId workerId fence leaseMs =>
    cases hheld : r.store.leases taskId with
    | none =>
      have hexec : exec r.store (.extend taskId workerId fence leaseMs) =
          (r.store, .flag false) := by simp [exec, LeaseStore.extendLease, hheld]
      rw [LeaseRun.next, hexec]
      exact h.of_inert (by simp [issuedBy]) (by simp [Acquires]) (by simp [Ends]) rfl
        fun _ => rfl
    | some lease =>
      -- extended or not, the owner text is the same
      refine h.of_inert (by simp [issuedBy]) (by simp [Acquires]) (by simp [Ends])
        (by simp [exec]) fun t => ?_
      by_cases ht : t = taskId
      · subst ht
        simp only [exec, LeaseStore.extendLease, hheld]
        split <;> simp [hheld]
      · simp only [exec, LeaseStore.extendLease, hheld]
        split <;> simp [ht]
  | release taskId workerId fence =>
    have hinert : exec r.store (.release taskId workerId fence) = (r.store, .flag false) →
        (r.next (.release taskId workerId fence)).Inv := by
      intro hexec
      rw [LeaseRun.next, hexec]
      exact h.of_inert (by simp [issuedBy]) (by simp [Acquires]) (by simp [Ends]) rfl
        fun _ => rfl
    cases hheld : r.store.leases taskId with
    | none => exact hinert (by simp [exec, LeaseStore.releaseLease, hheld])
    | some lease =>
      by_cases howner : lease.owner = workerId ++ ":" ++ toString fence
      · have hexec : exec r.store (.release taskId workerId fence) =
            ({ r.store with leases := Function.update r.store.leases taskId none },
              .flag true) := by
          simp only [exec, LeaseStore.releaseLease, hheld]
          rw [if_pos howner]
        rw [LeaseRun.next, hexec]
        refine h.of_end (by simp [issuedBy]) (by simp [Acquires]) fun t => ?_
        simp [Ends, eq_comm]
      · refine hinert ?_
        simp only [exec, LeaseStore.releaseLease, hheld]
        rw [if_neg howner]
  | expire taskId =>
    refine h.of_end (by simp [issuedBy]) (by simp [Acquires]) fun t => ?_
    simp [Ends, eq_comm]

/-- The store agrees with the log after every run. -/
theorem inv_play (ops : List LeaseOp) (hseq : (play ops).store.fenceSeq < 10 ^ 14) :
    (play ops).Inv := by
  -- on the last operation: the counter never falls, so the bound holds all along
  induction ops using List.reverseRecOn with
  | nil => exact inv_start
  | append_singleton ops op ih =>
    have hplay : play (ops ++ [op]) = (play ops).next op := by simp [play]
    rw [hplay] at hseq ⊢
    have hle := (play ops).fenceSeq_le_next op
    exact (ih (by omega)).next op hseq

theorem Inv.live_unique {r : LeaseRun} (h : r.Inv) {taskId w w' : String} {f f' : ℕ}
    (hl : Live r.log taskId w f) (hl' : Live r.log taskId w' f') : w = w' ∧ f = f' := by
  cases hheld : r.store.leases taskId with
  | none => exact absurd hl (h.free taskId hheld w f)
  | some lease =>
    obtain ⟨w₀, f₀, -, -, huniq⟩ := h.held taskId lease hheld
    obtain ⟨rfl, rfl⟩ := huniq w f hl
    obtain ⟨rfl, rfl⟩ := huniq w' f' hl'
    exact ⟨rfl, rfl⟩

theorem Inv.held_of_live {r : LeaseRun} (h : r.Inv) {taskId w : String} {f : ℕ}
    (hl : Live r.log taskId w f) : ∃ lease, r.store.leases taskId = some lease := by
  cases hheld : r.store.leases taskId with
  | none => exact absurd hl (h.free taskId hheld w f)
  | some lease => exact ⟨lease, rfl⟩

theorem Inv.release_iff {r : LeaseRun} (h : r.Inv) (taskId workerId : String) (fence : ℤ) :
    (r.store.releaseLease taskId workerId fence).2 = true ↔
      ∃ f : ℕ, fence = f ∧ Live r.log taskId workerId f := by
  cases hheld : r.store.leases taskId with
  | none =>
    simp only [LeaseStore.releaseLease, hheld, Bool.false_eq_true, false_iff]
    rintro ⟨f, -, hl⟩
    exact h.free taskId hheld workerId f hl
  | some lease =>
    rw [← h.owner_eq_iff hheld workerId fence]
    simp only [LeaseStore.releaseLease, hheld]
    split <;> simp_all

theorem Inv.extend_iff {r : LeaseRun} (h : r.Inv) (taskId workerId : String) (fence : ℤ)
    (leaseMs : ℕ+) :
    (r.store.extendLease taskId workerId fence leaseMs).2 = true ↔
      ∃ f : ℕ, fence = f ∧ Live r.log taskId workerId f := by
  cases hheld : r.store.leases taskId with
  | none =>
    simp only [LeaseStore.extendLease, hheld, Bool.false_eq_true, false_iff]
    rintro ⟨f, -, hl⟩
    exact h.free taskId hheld workerId f hl
  | some lease =>
    rw [← h.owner_eq_iff hheld workerId fence]
    simp only [LeaseStore.extendLease, hheld]
    split <;> simp_all

theorem release_false {store : LeaseStore} {taskId workerId : String} {fence : ℤ}
    (h : (store.releaseLease taskId workerId fence).2 = false) :
    (store.releaseLease taskId workerId fence).1 = store := by
  unfold LeaseStore.releaseLease at h ⊢
  split <;> [split; skip] <;> simp_all

theorem extend_false {store : LeaseStore} {taskId workerId : String} {fence : ℤ} {leaseMs : ℕ+}
    (h : (store.extendLease taskId workerId fence leaseMs).2 = false) :
    (store.extendLease taskId workerId fence leaseMs).1 = store := by
  unfold LeaseStore.extendLease at h ⊢
  split <;> [split; skip] <;> simp_all

/-- **Lease and fence safety.** After any run of acquisitions, extensions, releases
and expiries from an empty store, with the counter below `10 ^ 14`:

* the fences issued, in the order they were returned, increase strictly over
  all tasks;
* a task has at most one live lease, and while it has one every acquisition of
  the task returns `0` and changes nothing, while an acquisition of a task with
  none returns a fence above every earlier one;
* a release or an extension returns true exactly when the caller names the
  acquisition that is live on the task, and changes nothing otherwise. -/
theorem lease_and_fence_safety (ops : List LeaseOp)
    (hseq : (play ops).store.fenceSeq < 10 ^ 14) :
    (issued (play ops).log).Pairwise (· < ·) ∧
    (∀ taskId w w' f f', Live (play ops).log taskId w f → Live (play ops).log taskId w' f' →
      w = w' ∧ f = f') ∧
    (∀ taskId workerId leaseMs, (∃ w f, Live (play ops).log taskId w f) →
      (play ops).store.acquireLease taskId workerId leaseMs = ((play ops).store, 0)) ∧
    (∀ taskId workerId leaseMs, (¬ ∃ w f, Live (play ops).log taskId w f) →
      0 < ((play ops).store.acquireLease taskId workerId leaseMs).2 ∧
        ∀ f ∈ issued (play ops).log,
          f < ((play ops).store.acquireLease taskId workerId leaseMs).2) ∧
    (∀ taskId workerId fence,
      ((play ops).store.releaseLease taskId workerId fence).2 = true ↔
        ∃ f : ℕ, fence = f ∧ Live (play ops).log taskId workerId f) ∧
    (∀ taskId workerId fence,
      ((play ops).store.releaseLease taskId workerId fence).2 = false →
        ((play ops).store.releaseLease taskId workerId fence).1 = (play ops).store) ∧
    (∀ taskId workerId fence leaseMs,
      ((play ops).store.extendLease taskId workerId fence leaseMs).2 = true ↔
        ∃ f : ℕ, fence = f ∧ Live (play ops).log taskId workerId f) ∧
    (∀ taskId workerId fence leaseMs,
      ((play ops).store.extendLease taskId workerId fence leaseMs).2 = false →
        ((play ops).store.extendLease taskId workerId fence leaseMs).1 = (play ops).store) := by
  have h := inv_play ops hseq
  refine ⟨h.increasing, fun _ _ _ _ _ => h.live_unique, ?_, ?_, h.release_iff,
    fun _ _ _ => release_false, h.extend_iff, fun _ _ _ _ => extend_false⟩
  · -- a live lease is the one in the store, so `SET NX` finds the key
    rintro taskId workerId leaseMs ⟨w, f, hl⟩
    obtain ⟨lease, hheld⟩ := h.held_of_live hl
    exact LeaseStore.acquireLease_of_held _ _ _ _ hheld
  · -- no live lease: the key is free, and the new fence is above all that were issued
    intro taskId workerId leaseMs hnone
    have hfree : (play ops).store.leases taskId = none := by
      cases hheld : (play ops).store.leases taskId with
      | none => rfl
      | some lease =>
        obtain ⟨w, f, hl, -⟩ := h.held taskId lease hheld
        exact absurd ⟨w, f, hl⟩ hnone
    rw [LeaseStore.acquireLease_of_lt _ _ workerId leaseMs hfree hseq]
    exact ⟨by omega, fun f hf => Nat.lt_succ_of_le (h.bounded f hf)⟩

/-- The safety theorem at a run in which a lease expires and is taken over by a
worker whose id contains a colon. -/
theorem lease_and_fence_safety_takeover :
    let ops : List LeaseOp :=
      [.acquire "t" "a" 100, .acquire "t" "b" 100, .expire "t", .acquire "t" "a:1" 100]
    issued (play ops).log = [1, 2] ∧
      ((play ops).store.releaseLease "t" "a" 1).2 = false ∧
      (issued (play ops).log).Pairwise (· < ·) :=
  ⟨by decide, by decide, (lease_and_fence_safety _ (by decide)).1⟩

end LeaseRun

end Dtq
