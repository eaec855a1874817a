import Dtq.Broker.Lease

/-!
# The owner text of a lease

`acquire_lease.lua` writes `<worker_id>:<fence>` with Lua's `tostring` of a double, and returns
the fence as a number that Redis makes an integer of. `release_lease` and `extend_lease` compare
the value with the text that Python makes of that integer. How Redis converts a double that no
64-bit integer holds is left open.

## Main result

* `LeaseStore.owner_text_agrees_iff` — the counter values for which the two texts are the same
-/

set_option autoImplicit false

namespace Dtq

namespace LeaseStore

variable {store : LeaseStore} {taskId workerId : String} {fence : ℤ} {lease : Lease}

theorem releaseLease_eq_true_iff (hheld : store.leases taskId = some lease) :
    (store.releaseLease taskId workerId fence).2 = true ↔
      lease.owner = workerId ++ ":" ++ toString fence := by
  simp only [releaseLease, hheld]
  split_ifs with hsame
  · exact iff_of_true rfl hsame
  · exact iff_of_false id hsame

theorem extendLease_eq_true_iff (leaseMs : ℕ+) (hheld : store.leases taskId = some lease) :
    (store.extendLease taskId workerId fence leaseMs).2 = true ↔
      lease.owner = workerId ++ ":" ++ toString fence := by
  simp only [extendLease, hheld]
  split_ifs with hsame
  · exact iff_of_true rfl hsame
  · exact iff_of_false id hsame

/-- The owner text that the script writes for a value of the counter. -/
def ownerText (workerId : String) (counter : ℕ) : String :=
  workerId ++ ":" ++ NumberText.tostring (NumberText.toDouble counter)

section Truncate

variable {truncate : ℕ → ℤ} (htruncate : ∀ d : ℕ, d < 2 ^ 63 → truncate d = d)
include htruncate

/-- Lua and Python write the fence alike exactly below `10 ^ 14`. -/
theorem ownerText_eq_iff {counter : ℕ} :
    ownerText workerId counter =
        workerId ++ ":" ++ toString (truncate (NumberText.toDouble counter)) ↔
      counter < 10 ^ 14 := by
  rw [ownerText, String.append_right_inj]
  constructor
  · intro hsame
    exact (NumberText.toDouble_lt_iff (by decide)).mp (NumberText.lt_of_tostring_eq hsame)
  · intro hsmall
    have hdouble : NumberText.toDouble counter = counter := NumberText.toDouble_of_le (by omega)
    rw [hdouble, NumberText.tostring_of_lt hsmall, htruncate counter (by omega)]
    rfl

/-- **Owner texts.** A worker acquires a free lease. The value that the script stores is the text
that Python makes of the fence it returns, exactly when the counter's new value is below
`10 ^ 14`; and as long as that value is stored, the worker's calls of `release_lease` and
`extend_lease` succeed exactly then. -/
theorem owner_text_agrees_iff (store : LeaseStore) (taskId workerId : String) (leaseMs : ℕ+)
    (hfree : store.leases taskId = none) :
    let granted := store.acquireLease taskId workerId leaseMs
    ∃ lease, granted.1.leases taskId = some lease ∧
      (lease.owner = workerId ++ ":" ++ toString (truncate granted.2) ↔
        store.fenceSeq + 1 < 10 ^ 14) ∧
      ∀ later : LeaseStore, (later.leases taskId).map Lease.owner = some lease.owner →
        ((later.releaseLease taskId workerId (truncate granted.2)).2 = true ↔
          store.fenceSeq + 1 < 10 ^ 14) ∧
        ∀ leaseMs', (later.extendLease taskId workerId (truncate granted.2) leaseMs').2 = true ↔
          store.fenceSeq + 1 < 10 ^ 14 := by
  intro granted
  have hgranted : granted = _ := acquireLease_of_free store taskId workerId leaseMs hfree
  have hsame : ownerText workerId (store.fenceSeq + 1) =
      workerId ++ ":" ++ toString (truncate granted.2) ↔ store.fenceSeq + 1 < 10 ^ 14 := by
    rw [hgranted]
    exact ownerText_eq_iff htruncate
  refine ⟨⟨ownerText workerId (store.fenceSeq + 1), leaseMs⟩, ?_, hsame, fun later hlater => ?_⟩
  · rw [hgranted]
    exact Function.update_self ..
  · obtain ⟨lease, hheld, howner⟩ := Option.map_eq_some_iff.mp hlater
    rw [releaseLease_eq_true_iff hheld, howner]
    refine ⟨hsame, fun leaseMs' => ?_⟩
    rw [extendLease_eq_true_iff leaseMs' hheld, howner]
    exact hsame

end Truncate

/-- The conversion of a double to a 64-bit integer on common hardware. -/
def toInt64 (d : ℕ) : ℤ := if d < 2 ^ 63 then d else -2 ^ 63

theorem toInt64_of_lt (d : ℕ) (h : d < 2 ^ 63) : toInt64 d = d := if_pos h

/-- The theorem at the first lease of a store. -/
theorem owner_text_agrees_iff_first :
    ((empty.acquireLease "t" "w" 100).1.releaseLease "t" "w" 1).2 = true := by
  obtain ⟨lease, hheld, -, hlater⟩ := owner_text_agrees_iff toInt64_of_lt empty "t" "w" 100 rfl
  have hrelease := (hlater _ (by rw [hheld, Option.map_some])).1.mpr (by decide)
  exact hrelease

/-- The counter comes to `10 ^ 14`: Lua writes `w:1e+14`, and the owner can neither release its
lease nor extend it. -/
theorem owner_text_differs :
    let store : LeaseStore := ⟨10 ^ 14 - 1, fun _ => none⟩
    let granted := store.acquireLease "t" "w" 100
    (granted.1.leases "t").map Lease.owner = some "w:1e+14" ∧ toInt64 granted.2 = 10 ^ 14 ∧
      "w" ++ ":" ++ toString (toInt64 granted.2) = "w:100000000000000" ∧
      (granted.1.releaseLease "t" "w" (toInt64 granted.2)).2 = false ∧
      (granted.1.extendLease "t" "w" (toInt64 granted.2) 100).2 = false := by
  decide +kernel

end LeaseStore

end Dtq
