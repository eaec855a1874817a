import Mathlib.Logic.Function.Basic
import Dtq.Core.Models
import Dtq.Lib.Indexed
import Dtq.Lib.Transition

/-!
# Control sessions of the workers

The registry of `dtq/control/grpc_server.py`. A worker registers, which puts a new session object
in the registry, and opens a stream, whose first event looks the object up. The stream goes on
reading the command queue of that object, whatever the registry says later; `send_command` puts
into the queue of the object that is registered, if it is alive; and the end of any stream clears
the flag of the object that is registered then.

An event loop runs each of these up to its next `await`, so each one is a step.

## Main result

* `Server.commands_not_lost` — which registrations lose commands, and which endings disconnect a
  worker that has a newer stream
-/

set_option autoImplicit false

namespace Dtq

/-- State for a connected worker's bidirectional session. -/
structure WorkerSession where
  workerId : String := ""
  queues : List String := []
  concurrency : ℤ := 0
  version : String := ""
  inFlight : ℤ := 0
  lastHeartbeat : ℚ := 0
  connectedAt : ℚ := 0
  commandQueue : List Json := []
  alive : Bool := true

/-- A stream after its first event: whose it is, and the session object it has looked up. -/
structure Stream where
  workerId : String
  session : ℕ
  isOpen : Bool
deriving DecidableEq

/-- A command that a stream has taken from the queue of a session object. -/
structure Handed where
  workerId : String
  session : ℕ
  command : Json
deriving DecidableEq

/-- The module's state: the session objects made so far, the registry `_sessions`, and the streams
in the order in which they were opened. With it, a log of the commands accepted by `send_command`
and of those taken. -/
structure Server where
  created : ℕ
  sessions : ℕ → WorkerSession
  registry : String → Option ℕ
  streams : List Stream
  accepted : List (String × Json)
  handed : List Handed

namespace Server

/-- Nobody has connected. -/
def init : Server := ⟨0, fun _ => {}, fun _ => none, [], [], []⟩

/-- `_sessions[worker_id] = session`, for a new object. -/
def addSession (s : Server) (session : WorkerSession) : Server :=
  { s with
    created := s.created + 1
    sessions := Function.update s.sessions s.created session
    registry := Function.update s.registry session.workerId (some s.created) }

/-- Change a session object. -/
def modifySession (s : Server) (i : ℕ) (f : WorkerSession → WorkerSession) : Server :=
  { s with sessions := Function.update s.sessions i (f (s.sessions i)) }

/-- `Register`. -/
def register (s : Server) (workerId : String) (queues : List String) (concurrency : ℤ)
    (version : String) (now : ℚ) : Server :=
  s.addSession
    { workerId := workerId
      queues := queues
      concurrency := concurrency
      version := version
      lastHeartbeat := now
      connectedAt := now }

/-- The first event of a stream: it looks its session up, or makes one. -/
def openStream (s : Server) (workerId : String) (now : ℚ) : Server :=
  match s.registry workerId with
  | some i => { s with streams := s.streams ++ [⟨workerId, i, true⟩] }
  | none =>
    { s.addSession { workerId := workerId, lastHeartbeat := now, connectedAt := now } with
      streams := s.streams ++ [⟨workerId, s.created, true⟩] }

/-- A stream that is open. -/
def openAt (s : Server) (k : ℕ) : Option Stream := (s.streams[k]?).filter Stream.isOpen

/-- A heartbeat event. -/
def heartbeat (s : Server) (k : ℕ) (inFlight : ℤ) (now : ℚ) : Option Server :=
  (s.openAt k).map fun stream =>
    s.modifySession stream.session fun session =>
      { session with inFlight := inFlight, lastHeartbeat := now }

/-- The `finally` of a stream: the session that is registered for its worker is not alive. -/
def closeStream (s : Server) (k : ℕ) : Option Server :=
  (s.openAt k).map fun stream =>
    let closed := { s with streams := s.streams.set k { stream with isOpen := false } }
    if stream.workerId = "" then closed
    else
      match s.registry stream.workerId with
      | some i => closed.modifySession i fun session => { session with alive := false }
      | none => closed

/-- Whether `send_command` finds the worker connected, so that it returns true. -/
def connected (s : Server) (workerId : String) : Bool :=
  (s.registry workerId).any fun i => (s.sessions i).alive

/-- `send_command`. -/
def sendCommand (s : Server) (workerId : String) (command : Json) : Server × Bool :=
  match s.registry workerId with
  | some i =>
    if (s.sessions i).alive then
      ({ s.modifySession i fun session =>
          { session with commandQueue := session.commandQueue ++ [command] } with
        accepted := s.accepted ++ [(workerId, command)] }, true)
    else (s, false)
  | none => (s, false)

/-- `drain_worker`: whether the command was sent, and the message. -/
def drainWorker (s : Server) (workerId : String) (timeoutS : ℤ) : Server × Bool × String :=
  match s.sendCommand workerId (.obj [("type", .str "drain"), ("timeout_s", .num timeoutS)]) with
  | (s, true) => (s, true, "Drain command sent to " ++ workerId)
  | (s, false) => (s, false, "Worker " ++ workerId ++ " not connected")

/-- A stream yields the next command of its session. -/
def takeCommand (s : Server) (k : ℕ) : Option Server :=
  (s.openAt k).bind fun stream =>
    match (s.sessions stream.session).commandQueue with
    | [] => none
    | command :: rest =>
      some { s.modifySession stream.session fun session =>
          { session with commandQueue := rest } with
        handed := s.handed ++ [⟨stream.workerId, stream.session, command⟩] }

/-- What can happen next. -/
inductive Act
  | register (workerId : String) (queues : List String) (concurrency : ℤ) (version : String)
      (now : ℚ)
  | openStream (workerId : String) (now : ℚ)
  | heartbeat (k : ℕ) (inFlight : ℤ) (now : ℚ)
  | closeStream (k : ℕ)
  | send (workerId : String) (command : Json)
  | drain (workerId : String) (timeoutS : ℤ)
  | take (k : ℕ)

/-- One such event. -/
def step (s : Server) : Act → Option Server
  | .register workerId queues concurrency version now =>
    some (s.register workerId queues concurrency version now)
  | .openStream workerId now => some (s.openStream workerId now)
  | .heartbeat k inFlight now => s.heartbeat k inFlight now
  | .closeStream k => s.closeStream k
  | .send workerId command => some (s.sendCommand workerId command).1
  | .drain workerId timeoutS => some (s.drainWorker workerId timeoutS).1
  | .take k => s.takeCommand k

/-! ### Where the commands are -/

/-- The session object whose queue is read: by the stream of the worker that was opened last and
is still open, or by the next one to open. -/
def readBy (s : Server) (workerId : String) : Option ℕ :=
  match (s.streams.filter fun stream => stream.workerId = workerId ∧ stream.isOpen).getLast? with
  | some stream => some stream.session
  | none => s.registry workerId

/-- The commands in the queue of a session object. -/
def waitingIn (s : Server) (target : Option ℕ) : List Json :=
  match target with
  | some i => (s.sessions i).commandQueue
  | none => []

/-- The commands for which `send_command` returned true. -/
def acceptedOf (s : Server) (workerId : String) : List Json :=
  (s.accepted.filter fun entry => entry.1 = workerId).map Prod.snd

/-- The commands that streams of the worker have taken. -/
def handedOf (s : Server) (workerId : String) : List Json :=
  (s.handed.filter fun entry => entry.workerId = workerId).map Handed.command

/-- Those taken from the queue of a session object. -/
def takenFrom (s : Server) (workerId : String) (target : Option ℕ) : List Json :=
  (s.handed.filter fun entry => entry.workerId = workerId ∧ some entry.session = target).map
    Handed.command

/-- Those taken from the queue of another one. -/
def takenElsewhere (s : Server) (workerId : String) (target : Option ℕ) : List Json :=
  (s.handed.filter fun entry => entry.workerId = workerId ∧ some entry.session ≠ target).map
    Handed.command

/-- Every command that was accepted for the worker sits in the queue that is read, or has been
taken from it, or had been taken before another session object took that one's place. -/
def Kept (s : Server) (workerId : String) : Prop :=
  s.acceptedOf workerId = s.takenElsewhere workerId (s.readBy workerId) ++
    s.takenFrom workerId (s.readBy workerId) ++ s.waitingIn (s.readBy workerId)

/-- A stream of the worker is open. -/
def Streaming (s : Server) (workerId : String) : Prop :=
  ∃ stream ∈ s.streams, stream.workerId = workerId ∧ stream.isOpen = true

instance (s : Server) (workerId : String) : Decidable (s.Streaming workerId) :=
  inferInstanceAs (Decidable (∃ stream ∈ s.streams, _))

/-- The stream is the worker's and is open, and so is one that was opened after it. -/
def HasNewer (s : Server) (workerId : String) (k : ℕ) : Prop :=
  (∃ stream ∈ s.openAt k, stream.workerId = workerId) ∧
    ∃ stream ∈ s.streams.drop (k + 1), stream.workerId = workerId ∧ stream.isOpen = true

instance (s : Server) (workerId : String) (k : ℕ) : Decidable (s.HasNewer workerId k) :=
  inferInstanceAs (Decidable ((∃ stream ∈ s.openAt k, _) ∧ ∃ stream ∈ s.streams.drop (k + 1), _))

/-- The worker registers only with no stream open and nothing waiting for it; and a stream of its
that has a newer one ends only when the worker has no id or is not connected. -/
def Orderly (workerId : String) (s : Server) : Act → Prop
  | .register called _ _ _ _ =>
    called = workerId → ¬ s.Streaming workerId ∧ s.waitingIn (s.readBy workerId) = []
  | .closeStream k => s.HasNewer workerId k → workerId = "" ∨ s.connected workerId = false
  | _ => True

instance (workerId : String) (s : Server) : DecidablePred (Orderly workerId s)
  | .register called _ _ _ _ =>
    inferInstanceAs (Decidable (called = workerId →
      ¬ s.Streaming workerId ∧ s.waitingIn (s.readBy workerId) = []))
  | .closeStream k =>
    inferInstanceAs (Decidable (s.HasNewer workerId k →
      workerId = "" ∨ s.connected workerId = false))
  | .openStream .. | .heartbeat .. | .send .. | .drain .. | .take .. =>
    inferInstanceAs (Decidable True)

/-- The worker registers only before any command has been accepted for it. -/
def RegistersFirst (workerId : String) (s : Server) : Act → Prop
  | .register called _ _ _ _ => called = workerId → s.acceptedOf workerId = []
  | _ => True

/-! ### What an orderly run keeps -/

variable {w : String} {s s' : Server}

/-- Session objects belong to their worker, the open streams of the worker read the object that is
registered, and what was accepted has been taken or waits there. -/
structure Inv (w : String) (s : Server) : Prop where
  registered : ∀ w' i, s.registry w' = some i → i < s.created ∧ (s.sessions i).workerId = w'
  opened : ∀ stream ∈ s.streams,
    stream.session < s.created ∧ (s.sessions stream.session).workerId = stream.workerId
  reading : ∀ stream ∈ s.streams, stream.workerId = w → stream.isOpen = true →
    s.registry w = some stream.session
  taken : ∀ entry ∈ s.handed, entry.session < s.created
  kept : s.acceptedOf w = s.handedOf w ++ s.waitingIn (s.registry w)
  split : s.handedOf w = s.takenElsewhere w (s.registry w) ++ s.takenFrom w (s.registry w)

theorem inv_init (w : String) : Inv w init where
  registered := fun _ _ h => absurd h (by simp [init])
  opened := fun _ h => absurd h List.not_mem_nil
  reading := fun _ h => absurd h List.not_mem_nil
  taken := fun _ h => absurd h List.not_mem_nil
  kept := rfl
  split := rfl

/-- The streams of the worker read the queue into which `send_command` puts. -/
theorem Inv.readBy_eq (h : Inv w s) : s.readBy w = s.registry w := by
  unfold readBy
  split
  next stream hlast =>
    obtain ⟨hmem, hcond⟩ := List.mem_filter.mp (List.mem_of_getLast? hlast)
    obtain ⟨hw, hopen⟩ : stream.workerId = w ∧ stream.isOpen = true := by simpa using hcond
    exact (h.reading stream hmem hw hopen).symm
  next => rfl

theorem Inv.kept_of (h : Inv w s) : s.Kept w := by
  rw [Kept, h.readBy_eq, ← h.split]
  exact h.kept

/-- The registered objects of two workers are different objects. -/
theorem Inv.ne_of_registered (h : Inv w s) {i j : ℕ} (hi : s.registry w = some i)
    (hj : (s.sessions j).workerId ≠ w) : i ≠ j := by
  rintro rfl
  exact hj (h.registered w i hi).2

theorem openAt_eq_some {k : ℕ} {stream : Stream} (h : s.openAt k = some stream) :
    s.streams[k]? = some stream ∧ stream.isOpen = true := by
  simpa [openAt, Option.filter_eq_some_iff] using h

@[simp] theorem modifySession_sessions_self (s : Server) (i : ℕ)
    (f : WorkerSession → WorkerSession) : (s.modifySession i f).sessions i = f (s.sessions i) :=
  Function.update_self ..

theorem modifySession_sessions_of_ne (s : Server) {i j : ℕ} (hne : j ≠ i)
    (f : WorkerSession → WorkerSession) : (s.modifySession i f).sessions j = s.sessions j :=
  Function.update_of_ne hne ..

/-- A change to a session object that keeps a field keeps it in every object. -/
theorem modifySession_keeps {β : Type*} (field : WorkerSession → β) {i : ℕ}
    {f : WorkerSession → WorkerSession} (hf : field (f (s.sessions i)) = field (s.sessions i))
    (j : ℕ) : field ((s.modifySession i f).sessions j) = field (s.sessions j) := by
  by_cases hj : j = i
  · subst hj
    rw [modifySession_sessions_self, hf]
  · rw [modifySession_sessions_of_ne s hj]

/-- The queue that is registered for the worker is not the one that changes. -/
theorem waitingIn_modifySession_of_ne {i : ℕ} (hne : s.registry w ≠ some i)
    (f : WorkerSession → WorkerSession) :
    (s.modifySession i f).waitingIn (s.registry w) = s.waitingIn (s.registry w) := by
  cases hreg : s.registry w with
  | none => rfl
  | some j =>
    have hj : j ≠ i := fun heq => hne (heq ▸ hreg)
    exact congrArg WorkerSession.commandQueue (modifySession_sessions_of_ne s hj f)

theorem waitingIn_modifySession_of_queue {i : ℕ} {f : WorkerSession → WorkerSession}
    (hf : (f (s.sessions i)).commandQueue = (s.sessions i).commandQueue) (target : Option ℕ) :
    (s.modifySession i f).waitingIn target = s.waitingIn target := by
  cases target with
  | none => rfl
  | some j => exact modifySession_keeps WorkerSession.commandQueue hf j

/-- A step that registers nobody and opens no stream keeps the invariant when it keeps the
account of the worker's commands. -/
theorem Inv.frame (h : Inv w s) (hcreated : s'.created = s.created)
    (hregistry : s'.registry = s.registry)
    (hworker : ∀ j, (s'.sessions j).workerId = (s.sessions j).workerId)
    (hstreams : ∀ stream ∈ s'.streams, ∃ before ∈ s.streams,
      before.workerId = stream.workerId ∧ before.session = stream.session ∧
        (stream.isOpen = true → before.isOpen = true))
    (htaken : ∀ entry ∈ s'.handed, entry.session < s.created)
    (hkept : s'.acceptedOf w = s'.handedOf w ++ s'.waitingIn (s.registry w))
    (hsplit : s'.handedOf w =
      s'.takenElsewhere w (s.registry w) ++ s'.takenFrom w (s.registry w)) : Inv w s' where
  registered := fun w' i hi => by
    rw [hregistry] at hi
    rw [hcreated, hworker]
    exact h.registered w' i hi
  opened := fun stream hstream => by
    obtain ⟨before, hmem, hid, hsession, -⟩ := hstreams stream hstream
    rw [hcreated, hworker, ← hid, ← hsession]
    exact h.opened before hmem
  reading := fun stream hstream hw hopen => by
    obtain ⟨before, hmem, hid, hsession, hbefore⟩ := hstreams stream hstream
    rw [hregistry, ← hsession]
    exact h.reading before hmem (hid.trans hw) (hbefore hopen)
  taken := fun entry hentry => hcreated ▸ htaken entry hentry
  kept := hregistry ▸ hkept
  split := hregistry ▸ hsplit

/-- A change to a session object that keeps its worker and its queue. -/
theorem Inv.modifySession (h : Inv w s) {i : ℕ} {f : WorkerSession → WorkerSession}
    (hid : (f (s.sessions i)).workerId = (s.sessions i).workerId)
    (hqueue : (f (s.sessions i)).commandQueue = (s.sessions i).commandQueue) :
    Inv w (s.modifySession i f) := by
  refine h.frame rfl rfl (modifySession_keeps WorkerSession.workerId hid)
    (fun stream hstream => ⟨stream, hstream, rfl, rfl, id⟩) h.taken ?_ h.split
  rw [waitingIn_modifySession_of_queue hqueue]
  exact h.kept

theorem sessions_addSession_new (session : WorkerSession) :
    (s.addSession session).sessions s.created = session := Function.update_self ..

theorem sessions_addSession_old (session : WorkerSession) {i : ℕ} (hi : i < s.created) :
    (s.addSession session).sessions i = s.sessions i := Function.update_of_ne hi.ne ..

/-- A stream stays bound to the object it opened. -/
theorem Inv.opened_addSession (h : Inv w s) (session : WorkerSession) :
    ∀ stream ∈ s.streams, stream.session < s.created + 1 ∧
      ((s.addSession session).sessions stream.session).workerId = stream.workerId := by
  intro stream hstream
  obtain ⟨hlt, hid⟩ := h.opened stream hstream
  exact ⟨by omega, by rw [sessions_addSession_old session hlt, hid]⟩

theorem Inv.registered_addSession (h : Inv w s) (session : WorkerSession) :
    ∀ w' i, (s.addSession session).registry w' = some i →
      i < s.created + 1 ∧ ((s.addSession session).sessions i).workerId = w' := by
  intro w' i hi
  by_cases hw' : w' = session.workerId
  · subst hw'
    obtain rfl : s.created = i := by simpa [Server.addSession] using hi
    exact ⟨by omega, by rw [sessions_addSession_new]⟩
  · have hi' : s.registry w' = some i := by
      simpa [Server.addSession, Function.update_of_ne hw'] using hi
    obtain ⟨hlt, hid⟩ := h.registered w' i hi'
    exact ⟨by omega, by rw [sessions_addSession_old session hlt, hid]⟩

/-- A new session object, for another worker, or when nobody reads and nothing waits. -/
theorem Inv.addSession (h : Inv w s) {session : WorkerSession} (hqueue : session.commandQueue = [])
    (hidle : session.workerId = w → ¬ s.Streaming w ∧ s.waitingIn (s.registry w) = []) :
    Inv w (s.addSession session) := by
  have hopened := h.opened_addSession session
  have hregistered := h.registered_addSession session
  have htaken : ∀ entry ∈ s.handed, entry.session < s.created + 1 := fun entry hentry =>
    (h.taken entry hentry).trans (Nat.lt_succ_self _)
  by_cases hw : session.workerId = w
  · subst hw
    obtain ⟨hclosed, hnothing⟩ := hidle rfl
    have hreg : (s.addSession session).registry session.workerId = some s.created :=
      Function.update_self ..
    refine ⟨hregistered, hopened, fun stream hstream hid hopen => ?_, htaken, ?_, ?_⟩
    · exact absurd ⟨stream, hstream, hid, hopen⟩ hclosed
    · have hkept := h.kept
      rw [hnothing] at hkept
      rw [hreg]
      simp only [waitingIn, sessions_addSession_new, hqueue]
      exact hkept
    · -- everything taken so far came from an older object
      have hfrom : (s.addSession session).takenFrom session.workerId (some s.created) = [] := by
        rw [takenFrom, List.map_eq_nil_iff, List.filter_eq_nil_iff]
        intro entry hentry
        have hlt := h.taken entry hentry
        simp only [Option.some.injEq, decide_eq_true_eq, not_and]
        omega
      have helse : (s.addSession session).takenElsewhere session.workerId (some s.created) =
          s.handedOf session.workerId := by
        refine congrArg (List.map _) (List.filter_congr fun entry hentry => ?_)
        have hlt := h.taken entry hentry
        simp [Nat.ne_of_lt hlt]
      rw [hreg, hfrom, helse, List.append_nil]
      rfl
  · -- another worker's object: what is registered for `w` and waits there is as before
    have hreg : (s.addSession session).registry w = s.registry w :=
      Function.update_of_ne (Ne.symm hw) ..
    have hwaiting : (s.addSession session).waitingIn (s.registry w) =
        s.waitingIn (s.registry w) := by
      cases hi : s.registry w with
      | none => rfl
      | some i =>
        exact congrArg WorkerSession.commandQueue
          (sessions_addSession_old session (h.registered w i hi).1)
    refine ⟨hregistered, hopened, fun stream hstream hid hopen => ?_, htaken, ?_, ?_⟩
    · rw [hreg]
      exact h.reading stream hstream hid hopen
    · rw [hreg, hwaiting]
      exact h.kept
    · rw [hreg]
      exact h.split

/-- A stream begins to read what is registered for its worker. -/
theorem Inv.appendStream (h : Inv w s) {stream : Stream}
    (hreg : s.registry stream.workerId = some stream.session) :
    Inv w { s with streams := s.streams ++ [stream] } where
  registered := h.registered
  opened := Indexed.forall_mem_append_singleton h.opened (h.registered _ _ hreg)
  reading := Indexed.forall_mem_append_singleton h.reading fun hw _ => hw ▸ hreg
  taken := h.taken
  kept := h.kept
  split := h.split

theorem Inv.register (h : Inv w s) {called : String} {queues : List String} {concurrency : ℤ}
    {version : String} {now : ℚ}
    (hidle : called = w → ¬ s.Streaming w ∧ s.waitingIn (s.readBy w) = []) :
    Inv w (s.register called queues concurrency version now) := by
  rw [h.readBy_eq] at hidle
  exact h.addSession rfl hidle

theorem Inv.openStream (h : Inv w s) (called : String) (now : ℚ) :
    Inv w (s.openStream called now) := by
  unfold Server.openStream
  cases hreg : s.registry called with
  | some i => exact h.appendStream hreg
  | none =>
    have hadd : Inv w (s.addSession
        { workerId := called, lastHeartbeat := now, connectedAt := now }) := by
      refine h.addSession rfl ?_
      rintro rfl
      refine ⟨?_, by rw [hreg]; rfl⟩
      rintro ⟨stream, hstream, hid, hopen⟩
      exact absurd ((h.reading stream hstream hid hopen).symm.trans hreg) (by simp)
    exact hadd.appendStream (Function.update_self ..)

theorem Inv.heartbeat (h : Inv w s) {k : ℕ} {inFlight : ℤ} {now : ℚ}
    (hstep : s.heartbeat k inFlight now = some s') : Inv w s' := by
  obtain ⟨stream, -, rfl⟩ := Option.map_eq_some_iff.mp hstep
  exact h.modifySession rfl rfl

/-- The stream that ends. -/
theorem Inv.setClosed (h : Inv w s) {k : ℕ} {stream : Stream} (hk : s.streams[k]? = some stream) :
    Inv w { s with streams := s.streams.set k { stream with isOpen := false } } := by
  refine h.frame rfl rfl (fun _ => rfl) ?_ h.taken h.kept h.split
  exact Indexed.forall_mem_set (fun before hbefore => ⟨before, hbefore, rfl, rfl, id⟩)
    ⟨stream, List.mem_of_getElem? hk, rfl, rfl, fun hopen => absurd hopen (by simp)⟩

theorem Inv.closeStream (h : Inv w s) {k : ℕ} (hstep : s.closeStream k = some s') : Inv w s' := by
  obtain ⟨stream, hat, rfl⟩ := Option.map_eq_some_iff.mp hstep
  have hclosed := h.setClosed (openAt_eq_some hat).1
  dsimp only
  split_ifs
  · exact hclosed
  · split
    · exact hclosed.modifySession rfl rfl
    · exact hclosed

theorem Inv.sendCommand (h : Inv w s) (called : String) (command : Json) :
    Inv w (s.sendCommand called command).1 := by
  unfold Server.sendCommand
  split
  next i hi =>
    split_ifs
    · let f : WorkerSession → WorkerSession := fun session =>
        { session with commandQueue := session.commandQueue ++ [command] }
      refine h.frame rfl rfl (modifySession_keeps (s := s) (f := f) WorkerSession.workerId rfl)
        (fun stream hstream => ⟨stream, hstream, rfl, rfl, id⟩) h.taken ?_ h.split
      by_cases hw : called = w
      · subst hw
        have haccepted : ((s.accepted ++ [(called, command)]).filter
            fun entry => entry.1 = called).map Prod.snd = s.acceptedOf called ++ [command] := by
          simp [acceptedOf, List.filter_append]
        refine haccepted.trans ?_
        rw [h.kept, List.append_assoc, hi]
        simp [waitingIn, Server.modifySession, handedOf]
      · have hne : s.registry w ≠ some i := fun hreg =>
          h.ne_of_registered hreg (fun hid => hw ((h.registered called i hi).2.symm.trans hid)) rfl
        have haccepted : ((s.accepted ++ [(called, command)]).filter
            fun entry => entry.1 = w).map Prod.snd = s.acceptedOf w := by
          simp [acceptedOf, List.filter_append, hw]
        refine haccepted.trans (h.kept.trans ?_)
        exact congrArg _ (waitingIn_modifySession_of_ne hne f).symm
    · exact h
  next => exact h

theorem drainWorker_fst (s : Server) (called : String) (timeoutS : ℤ) :
    (s.drainWorker called timeoutS).1 =
      (s.sendCommand called (.obj [("type", .str "drain"), ("timeout_s", .num timeoutS)])).1 := by
  unfold drainWorker
  split
  next heq => rw [heq]
  next heq => rw [heq]

theorem Inv.takeCommand (h : Inv w s) {k : ℕ} (hstep : s.takeCommand k = some s') : Inv w s' := by
  obtain ⟨stream, hat, htake⟩ := Option.bind_eq_some_iff.mp hstep
  obtain ⟨hk, hopen⟩ := openAt_eq_some hat
  have hmem := List.mem_of_getElem? hk
  obtain ⟨hlt, hid⟩ := h.opened stream hmem
  split at htake
  · cases htake
  next command rest hqueue =>
    obtain rfl := Option.some.inj htake
    let f : WorkerSession → WorkerSession := fun session => { session with commandQueue := rest }
    refine h.frame rfl rfl (modifySession_keeps (s := s) (f := f) WorkerSession.workerId rfl)
      (fun stream hstream => ⟨stream, hstream, rfl, rfl, id⟩)
      (Indexed.forall_mem_append_singleton h.taken hlt) ?_ ?_
    · refine h.kept.trans ?_
      let taken : Handed := ⟨stream.workerId, stream.session, command⟩
      change _ = ((s.handed ++ [taken]).filter fun entry => entry.workerId = w).map
        Handed.command ++ (s.modifySession stream.session f).waitingIn (s.registry w)
      by_cases hw : stream.workerId = w
      · -- its own stream reads the queue that is registered
        rw [h.reading stream hmem hw hopen]
        simp [handedOf, waitingIn, List.filter_append, hw, hqueue, f, taken]
      · have hne : s.registry w ≠ some stream.session := fun hreg =>
          h.ne_of_registered hreg (fun heq => hw (hid.symm.trans heq)) rfl
        rw [waitingIn_modifySession_of_ne hne]
        simp [handedOf, List.filter_append, hw, taken]
    · by_cases hw : stream.workerId = w
      · have hreg := h.reading stream hmem hw hopen
        have hsplit := h.split
        simp only [handedOf, takenElsewhere, takenFrom, hreg] at hsplit ⊢
        simp [hsplit, hw, List.filter_append]
      · simpa [handedOf, takenElsewhere, takenFrom, List.filter_append, hw] using h.split

theorem Inv.step (h : Inv w s) {a : Act} (horderly : Orderly w s a) (hstep : s.step a = some s') :
    Inv w s' := by
  cases a with
  | register called queues concurrency version now =>
    obtain rfl := Option.some.inj hstep
    exact h.register horderly
  | openStream called now =>
    obtain rfl := Option.some.inj hstep
    exact h.openStream called now
  | heartbeat k inFlight now => exact h.heartbeat hstep
  | closeStream k => exact h.closeStream hstep
  | send called command =>
    obtain rfl := Option.some.inj hstep
    exact h.sendCommand called command
  | drain called timeoutS =>
    obtain rfl := Option.some.inj hstep
    rw [drainWorker_fst]
    exact h.sendCommand called _
  | take k => exact h.takeCommand hstep

theorem inv_of_reaches (h : Transition.ReachesWhen Server.step (Orderly w) init s) : Inv w s :=
  h.invariant (fun _ _ _ hinv horderly hstep => hinv.step horderly hstep) (inv_init w)

/-! ### What the other registrations and endings do -/

/-- What was taken for the worker was taken from one object or from another one. -/
theorem length_taken (s : Server) (w : String) (target : Option ℕ) :
    (s.takenElsewhere w target).length + (s.takenFrom w target).length =
      (s.handedOf w).length := by
  simp only [takenElsewhere, takenFrom, handedOf, List.length_map]
  induction s.handed with
  | nil => rfl
  | cons entry rest ih =>
    by_cases hw : entry.workerId = w <;> by_cases htarget : some entry.session = target <;>
      simp [hw, htarget] at ih ⊢ <;> omega

theorem Kept.length (h : s.Kept w) : (s.acceptedOf w).length =
    (s.handedOf w).length + (s.waitingIn (s.readBy w)).length := by
  have hlength := congrArg List.length h
  rwa [List.length_append, List.length_append, length_taken] at hlength

/-- A command sent right after a registration goes to the new object. -/
theorem sendCommand_register (s : Server) (w : String) (queues : List String) (concurrency : ℤ)
    (version : String) (now : ℚ) (command : Json) :
    let sent := (s.register w queues concurrency version now).sendCommand w command
    sent.2 = true ∧ sent.1.registry w = some s.created ∧
      (sent.1.sessions s.created).commandQueue = [command] ∧
      (∀ i, i < s.created → sent.1.sessions i = s.sessions i) ∧
      sent.1.streams = s.streams ∧ sent.1.handed = s.handed ∧
      sent.1.acceptedOf w = s.acceptedOf w ++ [command] := by
  simp only [register, Server.addSession, sendCommand, Function.update_self, if_true]
  refine ⟨trivial, by simp [Server.modifySession], by simp [Server.modifySession], ?_, rfl, rfl, ?_⟩
  · intro i hi
    simp [Server.modifySession, Function.update_of_ne hi.ne]
  · simp [acceptedOf, List.filter_append]

/-- A registration while a stream is open, or while commands wait, loses a command: the next one
that is accepted at the latest. -/
theorem Inv.lost_of_register (h : Inv w s) {queues : List String} {concurrency : ℤ}
    {version : String} {now : ℚ}
    (hdisorder : ¬ Orderly w s (.register w queues concurrency version now)) (command : Json) :
    ((s.register w queues concurrency version now).sendCommand w command).2 = true ∧
      ¬ ((s.register w queues concurrency version now).sendCommand w command).1.Kept w := by
  obtain ⟨htrue, hregistry, hqueue, hold, hstreams, hhanded, haccepted⟩ :=
    sendCommand_register s w queues concurrency version now command
  refine ⟨htrue, fun hkept => ?_⟩
  set sent := ((s.register w queues concurrency version now).sendCommand w command).1
  have htaken : sent.handedOf w = s.handedOf w := by simp [handedOf, hhanded]
  -- one command more is accepted and none is taken, so the lengths cannot agree
  have hlength := hkept.length
  rw [haccepted, htaken, h.kept] at hlength
  simp only [List.length_append, List.length_singleton] at hlength
  by_cases hstreaming : s.Streaming w
  · -- the open streams go on reading the old object
    have hread : sent.readBy w = s.readBy w ∧ ∃ i, s.readBy w = some i ∧ i < s.created := by
      obtain ⟨stream, hstream, hid, hopen⟩ := hstreaming
      have hne : (s.streams.filter fun stream => stream.workerId = w ∧ stream.isOpen) ≠ [] :=
        List.ne_nil_of_mem (List.mem_filter.mpr ⟨hstream, by simp [hid, hopen]⟩)
      obtain ⟨last, hlast⟩ := Option.ne_none_iff_exists'.mp
        (mt List.getLast?_eq_none_iff.mp hne)
      have hmem := (List.mem_filter.mp (List.mem_of_getLast? hlast)).1
      refine ⟨by simp only [readBy, hstreams, hlast], last.session, by simp only [readBy, hlast],
        (h.opened last hmem).1⟩
    obtain ⟨hsame, i, hi, hlt⟩ := hread
    rw [hsame, ← h.readBy_eq, hi] at hlength
    simp only [waitingIn, hold i hlt] at hlength
    omega
  · -- the next stream reads the new object, and what waited in the old one is not there
    have hread : sent.readBy w = some s.created := by
      have hnone : (s.streams.filter fun stream => stream.workerId = w ∧ stream.isOpen) = [] := by
        rw [List.filter_eq_nil_iff]
        intro stream hstream hcond
        obtain ⟨hid, hopen⟩ : stream.workerId = w ∧ stream.isOpen = true := by simpa using hcond
        exact hstreaming ⟨stream, hstream, hid, hopen⟩
      simp only [readBy, hstreams, hnone, List.getLast?_nil]
      exact hregistry
    have hwaiting : s.waitingIn (s.registry w) ≠ [] := by
      intro hnil
      exact hdisorder fun _ => ⟨hstreaming, by rw [h.readBy_eq]; exact hnil⟩
    have hpos := List.length_pos_of_ne_nil hwaiting
    rw [hread] at hlength
    simp only [waitingIn, hqueue, List.length_singleton] at hlength hpos
    omega

/-- The end of a stream disconnects its worker, unless the worker has no id. -/
theorem Inv.connected_closeStream (h : Inv w s) {k : ℕ} (hstep : s.closeStream k = some s')
    (hk : ∃ stream ∈ s.openAt k, stream.workerId = w) :
    s'.connected w = (s.connected w && decide (w = "")) := by
  obtain ⟨stream, hat, hid⟩ := hk
  obtain ⟨closed, hat', rfl⟩ := Option.map_eq_some_iff.mp hstep
  obtain rfl := Option.mem_unique hat hat'
  obtain ⟨hmem, hopen⟩ := openAt_eq_some hat
  have hreg := h.reading stream (List.mem_of_getElem? hmem) hid hopen
  subst hid
  by_cases hw : stream.workerId = ""
  · simp [hw, connected]
  · simp [hw, hreg, connected, Server.modifySession]

theorem openStream_frame (s : Server) (called : String) (now : ℚ) :
    (s.openStream called now).handed = s.handed ∧
      ∀ w i, s.registry w = some i → (s.openStream called now).registry w = some i := by
  unfold openStream
  split
  next => exact ⟨rfl, fun _ _ => id⟩
  next hnone =>
    refine ⟨rfl, fun w i hi => ?_⟩
    have hne : w ≠ called := by
      rintro rfl
      exact absurd (hnone.symm.trans hi) (by simp)
    exact (Function.update_of_ne hne ..).trans hi

theorem closeStream_frame {k : ℕ} (h : s.closeStream k = some s') :
    s'.handed = s.handed ∧ s'.registry = s.registry := by
  obtain ⟨stream, -, rfl⟩ := Option.map_eq_some_iff.mp h
  dsimp only
  split_ifs
  · exact ⟨rfl, rfl⟩
  · split <;> exact ⟨rfl, rfl⟩

theorem sendCommand_frame (s : Server) (called : String) (command : Json) :
    (s.sendCommand called command).1.handed = s.handed ∧
      (s.sendCommand called command).1.registry = s.registry := by
  unfold sendCommand
  split
  · split_ifs <;> exact ⟨rfl, rfl⟩
  · exact ⟨rfl, rfl⟩

/-- Every command that a stream of the worker has taken came from the object that is registered. -/
def TakenHere (w : String) (s : Server) : Prop :=
  ∀ entry ∈ s.handed, entry.workerId = w → s.registry w = some entry.session

theorem TakenHere.frame (h : TakenHere w s) (hframe : s'.handed = s.handed ∧
    s'.registry = s.registry) : TakenHere w s' := by
  intro entry hentry hid
  rw [hframe.1] at hentry
  rw [hframe.2]
  exact h entry hentry hid

theorem TakenHere.step (h : TakenHere w s) (hinv : Inv w s) {a : Act}
    (hfirst : RegistersFirst w s a) (hstep : s.step a = some s') : TakenHere w s' := by
  cases a with
  | register called queues concurrency version now =>
    obtain rfl := Option.some.inj hstep
    intro entry hentry hid
    by_cases hw : called = w
    · -- the first registration: `w` has been handed nothing before
      have hnone : s.handedOf w = [] := by
        have hkept := hinv.kept
        rw [hfirst hw] at hkept
        exact (List.append_eq_nil_iff.mp hkept.symm).1
      rw [handedOf, List.map_eq_nil_iff, List.filter_eq_nil_iff] at hnone
      exact absurd (by simpa using hid) (hnone entry hentry)
    · exact (Function.update_of_ne (Ne.symm hw) ..).trans (h entry hentry hid)
  | openStream called now =>
    obtain rfl := Option.some.inj hstep
    obtain ⟨hhanded, hregistry⟩ := openStream_frame s called now
    intro entry hentry hid
    rw [hhanded] at hentry
    exact hregistry w _ (h entry hentry hid)
  | heartbeat k inFlight now =>
    obtain ⟨stream, -, rfl⟩ := Option.map_eq_some_iff.mp hstep
    exact h
  | closeStream k => exact h.frame (closeStream_frame hstep)
  | send called command =>
    obtain rfl := Option.some.inj hstep
    exact h.frame (sendCommand_frame s called command)
  | drain called timeoutS =>
    obtain rfl := Option.some.inj hstep
    rw [drainWorker_fst]
    exact h.frame (sendCommand_frame s called _)
  | take k =>
    obtain ⟨stream, hat, htake⟩ := Option.bind_eq_some_iff.mp hstep
    obtain ⟨hk, hopen⟩ := openAt_eq_some hat
    split at htake
    · cases htake
    · obtain rfl := Option.some.inj htake
      exact Indexed.forall_mem_append_singleton h fun hid =>
        hinv.reading stream (List.mem_of_getElem? hk) hid hopen

theorem TakenHere.takenElsewhere_eq_nil (h : TakenHere w s) (hinv : Inv w s) :
    s.takenElsewhere w (s.readBy w) = [] := by
  rw [hinv.readBy_eq, takenElsewhere, List.map_eq_nil_iff, List.filter_eq_nil_iff]
  intro entry hentry
  simp only [decide_eq_true_eq, not_and, not_not]
  exact fun hid => (h entry hentry hid).symm

/-- When the worker registers only before its first command, every command is in the queue that is
read or was taken from that very queue. -/
theorem kept_of_registersFirst (h : Transition.ReachesWhen Server.step
    (fun s a => Orderly w s a ∧ RegistersFirst w s a) init s) :
    s.acceptedOf w = s.takenFrom w (s.readBy w) ++ s.waitingIn (s.readBy w) := by
  have hinv : Inv w s := inv_of_reaches (h.mono fun _ _ hboth => hboth.1)
  have hhere : TakenHere w s := by
    refine h.invariant_along (I := TakenHere w) (fun _ hentry => absurd hentry List.not_mem_nil) ?_
    intro u a v hrun hu hboth hstep
    exact hu.step (inv_of_reaches (hrun.mono fun _ _ hboth => hboth.1)) hboth.2 hstep
  have hkept := hinv.kept_of
  rwa [Kept, hhere.takenElsewhere_eq_nil hinv, List.nil_append] at hkept

/-- **Commands are not lost.** As long as the worker registers only with no stream open and
nothing waiting, every command accepted for it has been taken or waits in the queue that is read;
and the end of a stream that has a newer one leaves the worker connected. From such a state, the
end of such a stream and the next registration do that only under the same condition. -/
theorem commands_not_lost (w : String) (s : Server)
    (hreach : Transition.ReachesWhen Server.step (Orderly w) init s) :
    s.Kept w ∧
      (Transition.ReachesWhen Server.step (fun s a => Orderly w s a ∧ RegistersFirst w s a) init s →
        s.acceptedOf w = s.takenFrom w (s.readBy w) ++ s.waitingIn (s.readBy w)) ∧
      (∀ k s', s.step (.closeStream k) = some s' → s.HasNewer w k →
        ((s.connected w = true → s'.connected w = true) ↔ Orderly w s (.closeStream k))) ∧
      ∀ queues concurrency version now command,
        ¬ Orderly w s (.register w queues concurrency version now) →
          ((s.register w queues concurrency version now).sendCommand w command).2 = true ∧
            ¬ ((s.register w queues concurrency version now).sendCommand w command).1.Kept w := by
  have hinv := inv_of_reaches hreach
  refine ⟨hinv.kept_of, kept_of_registersFirst, fun k s' hstep hnewer => ?_,
    fun _ _ _ _ command hdisorder => hinv.lost_of_register hdisorder command⟩
  rw [hinv.connected_closeStream hstep hnewer.1]
  constructor
  · intro hstays _
    cases hconnected : s.connected w with
    | false => exact Or.inr rfl
    | true => exact Or.inl (by simpa [hconnected] using hstays)
  · intro horderly hconnected
    rcases horderly hnewer with hw | hw
    · rw [hconnected, hw]
      rfl
    · exact absurd (hw.symm.trans hconnected) (by simp)

/-- A worker registers, takes its first command, loses its stream and comes back. -/
def reconnectRun : List Act :=
  [.register "w1" ["default"] 8 "1.0" 0, .openStream "w1" 1, .drain "w1" 30, .take 0,
    .closeStream 0, .register "w1" ["default"] 8 "1.0" 2, .openStream "w1" 3, .send "w1" .null]

/-- The theorem at a worker that reconnects: the first command has been taken, and the second one
waits in the queue that its new stream reads. -/
theorem commands_not_lost_reconnect : ∃ s,
    Transition.ReachesWhen Server.step (Orderly "w1") init s ∧ s.readBy "w1" = some 1 ∧
      s.acceptedOf "w1" = [.obj [("type", .str "drain"), ("timeout_s", .num 30)], .null] ∧
      s.waitingIn (some 1) = [.null] ∧ s.Kept "w1" := by
  obtain ⟨s, hrun, hread, haccepted, hwaiting⟩ := Transition.exists_reachesWhen_of_check
    Server.step (Orderly "w1") init reconnectRun
    (fun s => s.readBy "w1" = some 1 ∧
      s.acceptedOf "w1" = [.obj [("type", .str "drain"), ("timeout_s", .num 30)], .null] ∧
      s.waitingIn (some 1) = [.null]) (by decide +kernel)
  exact ⟨s, hrun, hread, haccepted, hwaiting, (commands_not_lost "w1" s hrun).1⟩

/-- A worker that registers again while its stream is open: the command that is accepted next waits
in a queue that the stream does not read. And a worker that opens a second stream before its first
one ends: the end of the first one disconnects it. -/
theorem command_lost :
    (∃ s, Transition.Reaches Server.step init s ∧ s.acceptedOf "w1" = [.null] ∧
      s.handedOf "w1" = [] ∧ s.readBy "w1" = some 0 ∧ s.waitingIn (some 0) = []) ∧
    ∃ s, Transition.Reaches Server.step init s ∧ s.HasNewer "w1" 0 ∧ s.connected "w1" = true ∧
      (s.step (.closeStream 0)).map (fun s' => (s'.sendCommand "w1" .null).2) = some false := by
  constructor
  · obtain ⟨s, hrun, hlost⟩ := Transition.exists_run_of_check Server.step init
      [.register "w1" ["default"] 8 "1.0" 0, .openStream "w1" 1,
        .register "w1" ["default"] 8 "1.0" 2, .send "w1" .null]
      (fun s => s.acceptedOf "w1" = [.null] ∧ s.handedOf "w1" = [] ∧ s.readBy "w1" = some 0 ∧
        s.waitingIn (some 0) = []) (by decide +kernel)
    exact ⟨s, .of_run hrun, hlost⟩
  · obtain ⟨s, hrun, hclosed⟩ := Transition.exists_run_of_check Server.step init
      [.register "w1" ["default"] 8 "1.0" 0, .openStream "w1" 1, .openStream "w1" 2]
      (fun s => s.HasNewer "w1" 0 ∧ s.connected "w1" = true ∧
        (s.step (.closeStream 0)).map (fun s' => (s'.sendCommand "w1" .null).2) = some false)
      (by decide +kernel)
    exact ⟨s, .of_run hrun, hclosed⟩

end Server

end Dtq
