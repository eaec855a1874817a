import Mathlib.Data.Rat.Defs
import Mathlib.Data.BitVec

/-!
# Domain types

The types of `dtq/core/models.py` that travel between the control plane, the
broker and the workers: task states, retry policies and the task envelope, with
the JSON values and UUIDs they are made of. Fields that no modelled function
reads keep their place in the envelope, since scheduling identifies an envelope
by its whole content.

Floats are taken as exact rationals.
-/

set_option autoImplicit false

namespace Dtq

/-- A JSON value, as held in payloads and results. -/
inductive Json
  | null
  | bool (value : Bool)
  | num (value : ℚ)
  | str (value : String)
  | arr (items : List Json)
  | obj (fields : List (String × Json))

namespace Json

-- `deriving` does not reach through the nested lists
mutual

/-- Equality of JSON values is decided by comparing them field by field. -/
def decEq : (a b : Json) → Decidable (a = b)
  | .null, .null => isTrue rfl
  | .bool a, .bool b => decidable_of_iff (a = b) (by simp)
  | .num a, .num b => decidable_of_iff (a = b) (by simp)
  | .str a, .str b => decidable_of_iff (a = b) (by simp)
  | .arr a, .arr b => @decidable_of_iff _ (a = b) (by simp) (decEqItems a b)
  | .obj a, .obj b => @decidable_of_iff _ (a = b) (by simp) (decEqFields a b)
  | .null, .bool _ | .null, .num _ | .null, .str _ | .null, .arr _ | .null, .obj _
  | .bool _, .null | .bool _, .num _ | .bool _, .str _ | .bool _, .arr _ | .bool _, .obj _
  | .num _, .null | .num _, .bool _ | .num _, .str _ | .num _, .arr _ | .num _, .obj _
  | .str _, .null | .str _, .bool _ | .str _, .num _ | .str _, .arr _ | .str _, .obj _
  | .arr _, .null | .arr _, .bool _ | .arr _, .num _ | .arr _, .str _ | .arr _, .obj _
  | .obj _, .null | .obj _, .bool _ | .obj _, .num _ | .obj _, .str _ | .obj _, .arr _ =>
    isFalse (by simp)

def decEqItems : (a b : List Json) → Decidable (a = b)
  | [], [] => isTrue rfl
  | [], _ :: _ | _ :: _, [] => isFalse (by simp)
  | a :: as, b :: bs =>
    match decEq a b, decEqItems as bs with
    | isTrue h, isTrue h' => isTrue (by rw [h, h'])
    | isFalse h, _ => isFalse (by simp [h])
    | _, isFalse h => isFalse (by simp [h])

def decEqFields : (a b : List (String × Json)) → Decidable (a = b)
  | [], [] => isTrue rfl
  | [], _ :: _ | _ :: _, [] => isFalse (by simp)
  | (k, a) :: as, (l, b) :: bs =>
    match String.decEq k l, decEq a b, decEqFields as bs with
    | isTrue h, isTrue h', isTrue h'' => isTrue (by rw [h, h', h''])
    | isFalse h, _, _ => isFalse (by simp [h])
    | _, isFalse h, _ => isFalse (by simp [h])
    | _, _, isFalse h => isFalse (by simp [h])

end

instance : DecidableEq Json := decEq

end Json

/-- `uuid.UUID`: 128 bits. -/
structure Uuid where
  bits : BitVec 128
deriving DecidableEq

/-- `str(uuid)`: thirty-two hexadecimal digits in five groups. -/
def Uuid.str (u : Uuid) : String :=
  let digit (i : ℕ) : Char := Nat.digitChar (u.bits.toNat / 16 ^ (31 - i) % 16)
  let group (start length : ℕ) : List Char := (List.range' start length).map digit
  String.ofList (group 0 8 ++ '-' :: group 8 4 ++ '-' :: group 12 4 ++ '-' :: group 16 4 ++
    '-' :: group 20 12)

example : (Uuid.mk 0x123e4567e89b12d3a456426614174000).str =
    "123e4567-e89b-12d3-a456-426614174000" := by decide +kernel

/-- A `datetime`: the wall clock in seconds, and the offset from UTC when it is
timezone-aware. -/
structure DateTime where
  wall : ℚ
  utcoffset : Option ℚ
deriving DecidableEq

namespace DateTime

/-- `datetime.timestamp()` of an aware datetime; a naive one names no instant. -/
def timestamp (d : DateTime) : Option ℚ := d.utcoffset.map (d.wall - ·)

/-- `d > datetime.now(timezone.utc)`. Comparing a naive datetime with an aware one
raises `TypeError`, which is `none` here. -/
def gtNow (d : DateTime) (now : ℚ) : Option Bool := d.timestamp.map fun t => decide (now < t)

end DateTime

/-- Lifecycle states for a task. -/
inductive TaskState
  | pending
  | scheduled
  | leased
  | succeeded
  | failed
  | dead
  | cancelled
deriving DecidableEq

/-- How an attempt concluded. -/
inductive AttemptOutcome
  | succeeded
  | failed
  | leaseLost
  | timeout
deriving DecidableEq

/-- Jittered exponential backoff configuration. -/
structure RetryPolicy where
  baseDelayS : ℚ := 1
  capS : ℚ := 300
  maxAttempts : ℤ := 5
  retryableErrors : List String := []
  terminalErrors : List String := []
deriving DecidableEq

/-- Wire-format envelope carried through the broker. `attempt` counts the attempts
already made, so the next one is numbered `attempt + 1`. -/
structure TaskEnvelope where
  taskId : Uuid
  queue : String
  taskName : String
  payload : Json
  attempt : ℕ := 0
  maxAttempts : ℤ := 5
  priority : ℤ := 0
  dedupKey : Option String := none
  retryPolicy : RetryPolicy := {}
  workflowId : Option Uuid := none
  stepName : Option String := none
  createdAt : ℚ
  traceparent : Option String := none
  tracestate : Option String := none
deriving DecidableEq

namespace TaskEnvelope

/-- `model_copy(update={"attempt": envelope.attempt + 1})`. -/
def nextAttempt (e : TaskEnvelope) : TaskEnvelope := { e with attempt := e.attempt + 1 }

/-- `attempt_no` of the execution this envelope starts. -/
def attemptNo (e : TaskEnvelope) : ℕ := e.attempt + 1

/-- `dedup_key or task_id`: a missing or empty key falls back to the id's text. -/
def keyOr (dedupKey : Option String) (taskId : Uuid) : String :=
  match dedupKey with
  | some key => if key = "" then taskId.str else key
  | none => taskId.str

/-- The key under which an execution of this envelope commits its effect. -/
def effectKey (e : TaskEnvelope) : String := keyOr e.dedupKey e.taskId

/-- Two envelopes agree in every field except `attempt`. -/
def SameTask (e e' : TaskEnvelope) : Prop := { e with attempt := 0 } = { e' with attempt := 0 }

instance (e e' : TaskEnvelope) : Decidable (SameTask e e') :=
  inferInstanceAs (Decidable (_ = _))

theorem SameTask.refl (e : TaskEnvelope) : SameTask e e := rfl

theorem SameTask.symm {e e' : TaskEnvelope} (h : SameTask e e') : SameTask e' e :=
  Eq.symm h

theorem SameTask.trans {e e' e'' : TaskEnvelope} (h : SameTask e e') (h' : SameTask e' e'') :
    SameTask e e'' :=
  Eq.trans h h'

theorem sameTask_nextAttempt (e : TaskEnvelope) : SameTask e e.nextAttempt := rfl

theorem SameTask.taskId_eq {e e' : TaskEnvelope} (h : SameTask e e') : e.taskId = e'.taskId := by
  unfold SameTask at h
  simpa using congrArg TaskEnvelope.taskId h

theorem SameTask.retryPolicy_eq {e e' : TaskEnvelope} (h : SameTask e e') :
    e.retryPolicy = e'.retryPolicy := by
  unfold SameTask at h
  simpa using congrArg TaskEnvelope.retryPolicy h

theorem SameTask.effectKey_eq {e e' : TaskEnvelope} (h : SameTask e e') :
    e.effectKey = e'.effectKey := by
  have hkey : e.dedupKey = e'.dedupKey := by
    unfold SameTask at h
    simpa using congrArg TaskEnvelope.dedupKey h
  rw [effectKey, effectKey, hkey, h.taskId_eq]

@[simp] theorem nextAttempt_taskId (e : TaskEnvelope) : e.nextAttempt.taskId = e.taskId := rfl

@[simp] theorem nextAttempt_effectKey (e : TaskEnvelope) :
    e.nextAttempt.effectKey = e.effectKey := rfl

@[simp] theorem nextAttempt_attempt (e : TaskEnvelope) :
    e.nextAttempt.attempt = e.attempt + 1 := rfl

@[simp] theorem nextAttempt_retryPolicy (e : TaskEnvelope) :
    e.nextAttempt.retryPolicy = e.retryPolicy := rfl

end TaskEnvelope

end Dtq
