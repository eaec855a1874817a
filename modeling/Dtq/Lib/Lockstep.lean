import Mathlib.Data.List.Induction
import Mathlib.Data.List.Forall2

/-!
# Two systems that answer the same calls

A system that answers calls is given by `exec : σ → ω → σ × ρ`: what the call leaves behind
and what it returns. Two such systems are compared by playing the same calls on both. A
relation on their states that every call keeps, and under which every call gets agreeing
replies, holds after any calls, and all the replies agree.

The rule allows for a bound on the second system, such as a counter that must not have
grown past the range in which the two agree: it is asked for only at the end, and it must be one
that no call can restore once it is lost.

## Main results

* `related_play` — the states stay related and the replies agree
-/

set_option autoImplicit false

namespace Lockstep

variable {σ τ ω ρ π : Type*}

/-- Play one more call, keeping the replies in order. -/
def next (exec : σ → ω → σ × ρ) (played : σ × List ρ) (call : ω) : σ × List ρ :=
  ((exec played.1 call).1, played.2 ++ [(exec played.1 call).2])

/-- Calls played one after another from `start`: the state they leave and their replies. -/
def play (exec : σ → ω → σ × ρ) (start : σ) (calls : List ω) : σ × List ρ :=
  calls.foldl (next exec) (start, [])

@[simp] theorem play_nil (exec : σ → ω → σ × ρ) (start : σ) : play exec start [] = (start, []) :=
  rfl

@[simp] theorem play_append_singleton (exec : σ → ω → σ × ρ) (start : σ) (calls : List ω)
    (call : ω) :
    play exec start (calls ++ [call]) = next exec (play exec start calls) call := by
  simp [play]

section Related

variable {exec : σ → ω → σ × ρ} {exec' : τ → ω → τ × π} {R : σ → τ → Prop} {Q : ρ → π → Prop}
  {B : τ → Prop} {P : ω → Prop}

/-- **Lockstep rule.** If every call that meets `P` keeps the states related and gets agreeing
replies as long as it leaves the second system within `B`, and no call brings that system back
within `B`, then playing such calls on related states ends in related states with agreeing
replies, provided the second system ends within `B`. -/
theorem related_play {start : σ} {start' : τ} (hstart : R start start')
    (hback : ∀ t call, B (exec' t call).1 → B t)
    (hstep : ∀ s t call, R s t → P call → B (exec' t call).1 →
      R (exec s call).1 (exec' t call).1 ∧ Q (exec s call).2 (exec' t call).2) :
    ∀ calls : List ω, (∀ call ∈ calls, P call) → B (play exec' start' calls).1 →
      R (play exec start calls).1 (play exec' start' calls).1 ∧
        List.Forall₂ Q (play exec start calls).2 (play exec' start' calls).2 := by
  intro calls
  -- on the last call, so that the bound passes from the end to the calls before it
  induction calls using List.reverseRecOn with
  | nil => exact fun _ _ => ⟨hstart, .nil⟩
  | append_singleton calls call ih =>
    intro hcalls hbound
    rw [play_append_singleton, play_append_singleton]
    rw [play_append_singleton] at hbound
    have hcall : P call := hcalls call (by simp)
    have hbefore := ih (fun c hc => hcalls c (by simp [hc])) (hback _ call hbound)
    have hafter := hstep _ _ call hbefore.1 hcall hbound
    exact ⟨hafter.1, List.rel_append hbefore.2 (.cons hafter.2 .nil)⟩

end Related

end Lockstep
