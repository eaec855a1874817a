import Mathlib.Algebra.Order.Ring.Rat
import Mathlib.Tactic.NormNum
import Dtq.Core.Models

/-!
# Retry decisions

`dtq/core/backoff.py`, and the way `_process_message` recovers an error's type from
the text that `execute` reports. The exception classes of `dtq/core/exceptions.py` declare
for themselves whether they are worth a retry; nothing in the decision reads that.

## Main result

* `computeDelay_bounded_iff` — the attempts for which there is a delay
-/

set_option autoImplicit false

namespace Dtq

/-- `compute_delay`: full jitter under a capped exponential. `draw` stands for
`random.random()`, so the delay is `draw` times the cap. `none` is the
`OverflowError` that Python raises when `2 ** (attempt - 1)` does not fit a float. -/
def computeDelay (policy : RetryPolicy) (attempt : ℕ) (draw : ℚ) : Option ℚ :=
  if attempt - 1 < 1024 then
    some (draw * min (policy.baseDelayS * 2 ^ (attempt - 1)) policy.capS)
  else none

/-- The top of the range that a delay is drawn from. -/
def delayBound (policy : RetryPolicy) (attempt : ℕ) : ℚ :=
  min (policy.baseDelayS * 2 ^ (attempt - 1)) policy.capS

theorem delayBound_nonneg {policy : RetryPolicy} (hbase : 0 ≤ policy.baseDelayS)
    (hcap : 0 ≤ policy.capS) (attempt : ℕ) : 0 ≤ delayBound policy attempt :=
  le_min (mul_nonneg hbase (pow_nonneg (by norm_num) _)) hcap

theorem delayBound_mono {policy : RetryPolicy} (hbase : 0 ≤ policy.baseDelayS) :
    Monotone (delayBound policy) := by
  intro m n hmn
  refine min_le_min_right _ (mul_le_mul_of_nonneg_left ?_ hbase)
  exact pow_le_pow_right₀ (by norm_num) (Nat.sub_le_sub_right hmn 1)

theorem computeDelay_eq (policy : RetryPolicy) (attempt : ℕ) (draw : ℚ) :
    computeDelay policy attempt draw =
      if attempt ≤ 1024 then some (draw * delayBound policy attempt) else none := by
  have hiff : attempt - 1 < 1024 ↔ attempt ≤ 1024 := by omega
  rw [computeDelay]
  simp only [hiff, delayBound]

/-- **Backoff.** `compute_delay` returns a delay between zero and the capped exponential for every
draw exactly up to attempt 1024; the exponential is formed before it is capped. The bound never
decreases. -/
theorem computeDelay_bounded_iff {policy : RetryPolicy} (hbase : 0 ≤ policy.baseDelayS)
    (hcap : 0 ≤ policy.capS) :
    (∀ n : ℕ, 1 ≤ n → (n : ℤ) ≤ policy.maxAttempts →
      ((∀ draw, 0 ≤ draw → draw ≤ 1 → ∃ delay, computeDelay policy n draw = some delay ∧
        0 ≤ delay ∧ delay ≤ delayBound policy n) ↔ n ≤ 1024)) ∧
    ∀ m n, m ≤ n → delayBound policy m ≤ delayBound policy n := by
  refine ⟨fun n _ _ => ⟨fun hall => ?_, fun hn draw hlow hhigh => ?_⟩, fun m n hmn =>
    delayBound_mono hbase hmn⟩
  · obtain ⟨delay, hdelay, -⟩ := hall 0 le_rfl zero_le_one
    rw [computeDelay_eq] at hdelay
    by_contra hlarge
    rw [if_neg hlarge] at hdelay
    exact absurd hdelay (by simp)
  · have hbound := delayBound_nonneg hbase hcap n
    exact ⟨_, (computeDelay_eq policy n draw).trans (if_pos hn), mul_nonneg hlow hbound,
      mul_le_of_le_one_left hbound hhigh⟩

/-- The theorem at the defaults with 1100 attempts. -/
theorem computeDelay_bounded_iff_defaults :
    (∃ delay, computeDelay { maxAttempts := 1100 } 1024 (1 / 2) = some delay ∧
      0 ≤ delay ∧ delay ≤ 300) ∧
    ¬ ∀ draw, 0 ≤ draw → draw ≤ 1 → ∃ delay,
      computeDelay { maxAttempts := 1100 } 1025 draw = some delay ∧
        0 ≤ delay ∧ delay ≤ delayBound { maxAttempts := 1100 } 1025 := by
  have h := (@computeDelay_bounded_iff { maxAttempts := 1100 } (by norm_num) (by norm_num)).1
  constructor
  · obtain ⟨delay, hdelay, hlow, hhigh⟩ :=
      (h 1024 (by norm_num) (by norm_num)).mpr le_rfl (1 / 2) (by norm_num) (by norm_num)
    exact ⟨delay, hdelay, hlow, hhigh.trans (min_le_right _ _)⟩
  · exact fun hall => absurd ((h 1025 (by norm_num) (by norm_num)).mp hall) (by norm_num)

/-- Attempt 1025 of a task that may be tried 1100 times: no delay for any draw, although the cap is
300. -/
theorem no_delay : ∃ policy : RetryPolicy, 0 ≤ policy.baseDelayS ∧ 0 ≤ policy.capS ∧
    ∃ n : ℕ, 1 ≤ n ∧ (n : ℤ) ≤ policy.maxAttempts ∧
      ∀ draw, computeDelay policy n draw = none := by
  refine ⟨{ maxAttempts := 1100 }, by norm_num, by norm_num, 1025, by norm_num, by norm_num, ?_⟩
  exact fun draw => if_neg (by norm_num)

/-- `is_retryable`: the attempt limit first, then the terminal list, then the
whitelist when there is one. -/
def isRetryable (policy : RetryPolicy) (errorType : String) (attempt : ℕ) : Bool :=
  if policy.maxAttempts ≤ attempt then false
  else if errorType ∈ policy.terminalErrors then false
  else if policy.retryableErrors ≠ [] then errorType ∈ policy.retryableErrors
  else true

theorem lt_maxAttempts_of_isRetryable {policy : RetryPolicy} {errorType : String} {attempt : ℕ}
    (h : isRetryable policy errorType attempt = true) : (attempt : ℤ) < policy.maxAttempts := by
  by_contra hge
  rw [isRetryable, if_pos (not_lt.mp hge)] at h
  exact absurd h (by simp)

/-- `error_repr.split(":")[0]`, or the whole text when it has no colon. -/
def errorTypeOf (errorRepr : Option String) : String :=
  match errorRepr with
  | some text => String.ofList (text.toList.takeWhile (· ≠ ':'))
  | none => ""

example : errorTypeOf (some "StoreError: duplicate key") = "StoreError" := by decide

/-- The exception classes of `dtq/core/exceptions.py`. -/
inductive DtqError
  | dtqError
  | taskNotFoundError
  | duplicateTaskError
  | fenceRejectedError
  | leaseAcquireError
  | leaseExpiredError
  | brokerError
  | storeError
  | workflowCycleError
  | taskTerminalError
deriving DecidableEq

/-- The class attribute `retryable`. -/
def DtqError.retryable : DtqError → Bool
  | .dtqError | .leaseAcquireError | .leaseExpiredError | .brokerError | .storeError => true
  | .taskNotFoundError | .duplicateTaskError | .fenceRejectedError | .workflowCycleError
  | .taskTerminalError => false

end Dtq
