import Mathlib.Data.Rat.Floor
import Dtq.Core.Models
import Dtq.Lib.Indexed
import Dtq.Lib.Transition

/-!
# The fleet

Every `heartbeat_interval_s` a worker writes what it is doing to a key `worker:<id>`, which Redis
keeps for three intervals; `GET /v1/workers` of `dtq/control/app.py` scans these keys and reads them
one by one. A write may fail, in which case the loop only goes back to sleep, so two writes that
fail one after the other can cost a worker its key while it is at work; one cannot, as long as the
loop gets round in half the time that the key is kept.

The scan is that of Redis: a key that is there all along comes up, another one may. Time is that of
Redis, in milliseconds; what a process sees on its own clock is in the label.

## Main results

* `Fleet.listed_justified` — what is listed was written, and not too long ago
* `Fleet.steady_worker_listed` — which workers are listed
-/

set_option autoImplicit false

namespace Dtq

/-! ### Keys and answers -/

/-- The `data` of a heartbeat. -/
structure Heartbeat where
  queues : List String
  inFlight : ℕ
  concurrency : ℤ
  startedAt : ℚ
  version : String
  timestamp : ℚ
deriving DecidableEq

/-- The settings that a worker's heartbeat depends on. -/
structure HeartbeatConfig where
  workerId : String := "worker-1"
  queues : List String := ["default"]
  concurrency : ℤ := 8
  heartbeatIntervalS : ℚ := 10

/-- `ttl_ms`; Redis refuses a `PX` of zero. -/
def HeartbeatConfig.ttlMs (config : HeartbeatConfig) : ℕ := ⌊config.heartbeatIntervalS * 3 * 1000⌋₊

def HeartbeatConfig.data (config : HeartbeatConfig) (startedAt : ℚ) (inFlight : ℕ)
    (timestamp : ℚ) : Heartbeat where
  queues := config.queues
  inFlight := inFlight
  concurrency := config.concurrency
  startedAt := startedAt
  version := "0.1.0"
  timestamp := timestamp

/-- What every presence key starts with. -/
def presenceKeyStart : String := "worker:"

/-- The key of `set_worker_heartbeat`. -/
def presenceKey (workerId : String) : String := presenceKeyStart ++ workerId

/-- A text without the occurrences of another one that are found from left to right; so many of its
characters belong to one that has been found. -/
def removeAll (old : List Char) : ℕ → List Char → List Char
  | _, [] => []
  | n + 1, _ :: text => removeAll old n text
  | 0, c :: text =>
    if old <+: c :: text then removeAll old (old.length - 1) text else c :: removeAll old 0 text

/-- `key.replace("worker:", "")`. -/
def workerIdOf (key : String) : String :=
  .ofList (removeAll presenceKeyStart.toList 0 key.toList)

structure WorkerInfoResponse where
  workerId : String
  queues : List String
  inFlight : ℕ
  concurrency : ℤ
  heartbeatAgeS : ℚ
  version : String
  alive : Bool
deriving DecidableEq

/-- `round(x, 1)`: to the nearest tenth, the even one of two. -/
def roundTenth (x : ℚ) : ℚ :=
  let low := ⌊x * 10⌋
  let rest := x * 10 - low
  if rest < 1 / 2 ∨ rest = 1 / 2 ∧ low % 2 = 0 then low / 10 else (low + 1) / 10

/-- The entry that `list_workers` makes of a key, when its own clock shows `clock` and its own
settings say `interval`. -/
def workerInfo (interval : ℚ) (key : String) (data : Heartbeat) (clock : ℚ) :
    WorkerInfoResponse where
  workerId := workerIdOf key
  queues := data.queues
  inFlight := data.inFlight
  concurrency := data.concurrency
  heartbeatAgeS := roundTenth (clock - data.timestamp)
  version := data.version
  alive := clock - data.timestamp < interval * 3

theorem removeAll_of_length (old head text : List Char) :
    removeAll old head.length (head ++ text) = removeAll old 0 text := by
  induction head with
  | nil => rfl
  | cons c head ih => exact ih

/-- A text is taken out where it comes first. -/
theorem removeAll_append (c : Char) (old text : List Char) :
    removeAll (c :: old) 0 (c :: old ++ text) = removeAll (c :: old) 0 text := by
  have hstart : c :: old <+: c :: (old ++ text) := List.prefix_append (c :: old) text
  rw [List.cons_append, removeAll, if_pos hstart]
  exact removeAll_of_length (c :: old) old text

/-- A text that is not there is not taken out. -/
theorem removeAll_of_not_infix {old text : List Char} (h : ¬ old <:+: text) :
    removeAll old 0 text = text := by
  induction text with
  | nil => rfl
  | cons c text ih =>
    have hhead : ¬ old <+: c :: text := fun hstart => h hstart.isInfix
    have hrest : ¬ old <:+: text := fun hin => h (hin.trans (List.suffix_cons c text).isInfix)
    rw [removeAll, if_neg hhead, ih hrest]

/-- A worker is listed under its id, unless that has the start of a key in it. -/
theorem workerIdOf_presenceKey {workerId : String}
    (h : ¬ presenceKeyStart.toList <:+: workerId.toList) :
    workerIdOf (presenceKey workerId) = workerId := by
  have hkey : (presenceKey workerId).toList = presenceKeyStart.toList ++ workerId.toList :=
    String.toList_append
  have hfound : removeAll presenceKeyStart.toList 0 (presenceKeyStart.toList ++ workerId.toList) =
      removeAll presenceKeyStart.toList 0 workerId.toList :=
    removeAll_append 'w' "orker:".toList workerId.toList
  rw [workerIdOf, hkey, hfound, removeAll_of_not_infix h, String.ofList_toList]

example : workerIdOf (presenceKey "eu-worker:7") = "eu-7" := by decide

/-! ### Workers, Redis and requests -/

/-- Where a heartbeat loop is: at its `while`, in the call that writes, asleep, or at its end. -/
inductive HeartbeatPc
  | top
  | setting (data : Heartbeat)
  | sleeping
  | ended

/-- The heartbeat loop of a worker. With it, when its last call ended, or else it started, and
whether that call has written nothing. -/
structure HeartbeatLoop where
  config : HeartbeatConfig
  startedAt : ℚ
  running : Bool
  pc : HeartbeatPc
  since : ℕ
  missed : Bool

/-- The value of a presence key, and the last millisecond for which it is kept. -/
structure Presence where
  data : Heartbeat
  expiresAt : ℕ

/-- A write that took effect: by which loop, what, and when. -/
structure PresenceWrite where
  loop : ℕ
  key : String
  data : Heartbeat
  ttlMs : ℕ
  time : ℕ

/-- An entry of an answer, and when its key was read. -/
structure PresenceRead where
  time : ℕ
  clock : ℚ
  info : WorkerInfoResponse

/-- Where a request is: waiting for the scan or for the value of a key, or at its end. -/
inductive ListingPc
  | scanning
  | reading (key : String)
  | answered
  | failed
deriving DecidableEq

/-- A request `GET /v1/workers`. With it, the keys that have been there since it began and have not
come up yet. -/
structure Listing where
  pc : ListingPc
  owed : List String
  reads : List PresenceRead

/-- The time in Redis, the presence keys, the workers' loops and the requests in the order in which
they began, and a log of the writes. -/
structure Fleet where
  now : ℕ
  keys : List (String × Presence)
  loops : List HeartbeatLoop
  listings : List Listing
  writes : List PresenceWrite

namespace Fleet

def init : Fleet := ⟨0, [], [], [], []⟩

/-- The value of a key, be it for as long as it is kept or for longer. -/
def find (s : Fleet) (key : String) : Option Presence :=
  (s.keys.find? fun k => k.1 = key).map Prod.snd

/-- `GET`. -/
def get (s : Fleet) (key : String) : Option Presence :=
  (s.find key).filter fun p => s.now ≤ p.expiresAt

/-- The keys that a scan would have to find. -/
def present (s : Fleet) : List String :=
  (s.keys.map Prod.fst).filter fun key => (s.get key).isSome

/-- `DEL`. -/
def del (s : Fleet) (key : String) : Fleet :=
  { s with keys := s.keys.filter fun k => k.1 ≠ key }

/-- `SET` with `PX`. -/
def set (s : Fleet) (key : String) (data : Heartbeat) (ttlMs : ℕ) : Fleet :=
  { s with keys := (key, ⟨data, s.now + ttlMs⟩) :: (s.del key).keys }

/-- Nobody is owed a key that has gone. -/
def disown (s : Fleet) : Fleet :=
  { s with listings := s.listings.map fun l =>
      { l with owed := l.owed.filter fun key => (s.get key).isSome } }

def setLoop (s : Fleet) (i : ℕ) (loop : HeartbeatLoop) : Fleet :=
  { s with loops := s.loops.set i loop }

def setListing (s : Fleet) (r : ℕ) (listing : Listing) : Fleet :=
  { s with listings := s.listings.set r listing }

end Fleet

/-- A loop goes on after the call that has written or not. -/
def HeartbeatLoop.sleep (loop : HeartbeatLoop) (now : ℕ) (missed : Bool) : HeartbeatLoop :=
  { loop with pc := .sleeping, since := now, missed := missed }

/-- What the loop can write. -/
def HeartbeatLoop.Writes (loop : HeartbeatLoop) (data : Heartbeat) : Prop :=
  ∃ inFlight clock, data = loop.config.data loop.startedAt inFlight clock

theorem HeartbeatLoop.Writes.of_eq {loop loop' : HeartbeatLoop} {data : Heartbeat}
    (h : loop.Writes data) (hconfig : loop'.config = loop.config)
    (hstarted : loop'.startedAt = loop.startedAt) : loop'.Writes data := by
  rw [Writes, hconfig, hstarted]
  exact h

/-- Clocks and numbers are what the party that moves has been told. -/
inductive FleetAction
  | start (config : HeartbeatConfig) (clock : ℚ)
  /-- `stop`, `drain` or a signal -/
  | stop (i : ℕ)
  | die (i : ℕ)
  | top (i : ℕ) (clock : ℚ) (inFlight : ℕ)
  /-- the call takes effect, or fails -/
  | set (i : ℕ) (applied : Bool)
  | wake (i : ℕ)
  | tick (ms : ℕ)
  /-- `POST /v1/chaos/kill-worker` -/
  | kill (workerId : String)
  | list
  | scan (r : ℕ) (key : String)
  | read (r : ℕ) (clock : ℚ)
  | answer (r : ℕ)
  | fail (r : ℕ)

namespace Fleet

/-- The store and the loop after a write. -/
def wrote (s : Fleet) (i : ℕ) (loop : HeartbeatLoop) (data : Heartbeat) : Fleet :=
  { (s.set (presenceKey loop.config.workerId) data loop.config.ttlMs).setLoop i
      (loop.sleep s.now false) with
    writes := s.writes ++ [⟨i, presenceKey loop.config.workerId, data, loop.config.ttlMs, s.now⟩] }

/-- One such event, with the setting `heartbeat_interval_s` of the control plane. -/
def step (interval : ℚ) (s : Fleet) : FleetAction → Option Fleet
  | .start config clock =>
    some { s with loops := s.loops ++ [⟨config, clock, true, .top, s.now, false⟩] }
  | .stop i => (s.loops[i]?).map fun loop => s.setLoop i { loop with running := false }
  | .die i => (s.loops[i]?).map fun loop => s.setLoop i { loop with pc := .ended }
  | .top i clock inFlight => (s.loops[i]?).bind fun loop =>
    match loop.pc with
    | .top =>
      if loop.running then
        some (s.setLoop i
          { loop with pc := .setting (loop.config.data loop.startedAt inFlight clock) })
      else some (s.setLoop i { loop with pc := .ended })
    | _ => none
  | .set i applied => (s.loops[i]?).bind fun loop =>
    match loop.pc with
    | .setting data =>
      if applied then
        if 0 < loop.config.ttlMs then some (s.wrote i loop data) else none
      else some (s.setLoop i (loop.sleep s.now true))
    | _ => none
  | .wake i => (s.loops[i]?).bind fun loop =>
    match loop.pc with
    | .sleeping =>
      if loop.since + loop.config.heartbeatIntervalS * 1000 ≤ s.now then
        some (s.setLoop i { loop with pc := .top })
      else none
    | _ => none
  | .tick ms => some { s with now := s.now + ms }.disown
  | .kill workerId => some (s.del (presenceKey workerId)).disown
  | .list => some { s with listings := s.listings ++ [⟨.scanning, s.present, []⟩] }
  | .scan r key => (s.listings[r]?).bind fun listing =>
    match listing.pc with
    | .scanning =>
      if key ∈ s.keys.map Prod.fst then
        some (s.setListing r
          { listing with pc := .reading key, owed := listing.owed.filter fun k => k ≠ key })
      else none
    | _ => none
  | .read r clock => (s.listings[r]?).bind fun listing =>
    match listing.pc with
    | .reading key =>
      match s.get key with
      | some p => some (s.setListing r
          { listing with
            pc := .scanning
            reads := listing.reads ++ [⟨s.now, clock, workerInfo interval key p.data clock⟩] })
      | none => some (s.setListing r { listing with pc := .scanning })
    | _ => none
  | .answer r => (s.listings[r]?).bind fun listing =>
    match listing.pc with
    | .scanning =>
      if listing.owed = [] then some (s.setListing r { listing with pc := .answered }) else none
    | _ => none
  | .fail r => (s.listings[r]?).bind fun listing =>
    match listing.pc with
    | .answered => none
    | _ => some (s.setListing r { listing with pc := .failed })

/-- What a loop does by itself. -/
inductive Turns (loop : HeartbeatLoop) : HeartbeatLoop → Prop
  | stopped : Turns loop { loop with running := false }
  | ended : Turns loop { loop with pc := .ended }
  | took (clock : ℚ) (inFlight : ℕ) : Turns loop
      { loop with pc := .setting (loop.config.data loop.startedAt inFlight clock) }
  | woke : Turns loop { loop with pc := .top }

/-- What a request does with the store as it is. -/
inductive Asks (interval : ℚ) (s : Fleet) (listing : Listing) : Listing → Prop
  | scanned (key : String) (hpc : listing.pc = .scanning) : Asks interval s listing
      { listing with pc := .reading key, owed := listing.owed.filter fun k => k ≠ key }
  | read {key : String} {p : Presence} (clock : ℚ) (hpc : listing.pc = .reading key)
      (hget : s.get key = some p) : Asks interval s listing
      { listing with
        pc := .scanning
        reads := listing.reads ++ [⟨s.now, clock, workerInfo interval key p.data clock⟩] }
  | gone {key : String} (hpc : listing.pc = .reading key) (hget : s.get key = none) :
      Asks interval s listing { listing with pc := .scanning }
  | answered (hpc : listing.pc = .scanning) (howed : listing.owed = []) :
      Asks interval s listing { listing with pc := .answered }
  | failed : Asks interval s listing { listing with pc := .failed }

/-- What a step can do. -/
inductive Moves (interval : ℚ) (s : Fleet) (a : FleetAction) : Fleet → Prop
  | started (config : HeartbeatConfig) (clock : ℚ) : Moves interval s a
      { s with loops := s.loops ++ [⟨config, clock, true, .top, s.now, false⟩] }
  | turned {i : ℕ} {loop loop' : HeartbeatLoop} (hloop : s.loops[i]? = some loop)
      (hturns : Turns loop loop') : Moves interval s a (s.setLoop i loop')
  | missed {i : ℕ} {loop : HeartbeatLoop} (ha : a = .set i false)
      (hloop : s.loops[i]? = some loop) :
      Moves interval s a (s.setLoop i (loop.sleep s.now true))
  | wrote {i : ℕ} {loop : HeartbeatLoop} {data : Heartbeat} (ha : a = .set i true)
      (hloop : s.loops[i]? = some loop) (hpc : loop.pc = .setting data)
      (hkept : 0 < loop.config.ttlMs) : Moves interval s a (s.wrote i loop data)
  | ticked {ms : ℕ} (ha : a = .tick ms) : Moves interval s a { s with now := s.now + ms }.disown
  | killed {workerId : String} (ha : a = .kill workerId) :
      Moves interval s a (s.del (presenceKey workerId)).disown
  | listed : Moves interval s a { s with listings := s.listings ++ [⟨.scanning, s.present, []⟩] }
  | asked {r : ℕ} {listing listing' : Listing} (hlisting : s.listings[r]? = some listing)
      (hasks : Asks interval s listing listing') : Moves interval s a (s.setListing r listing')

variable {interval : ℚ} {s s' : Fleet} {a : FleetAction}

theorem moves_of_step (h : s.step interval a = some s') : s.Moves interval a s' := by
  cases a with
  | start config clock =>
    obtain rfl := Option.some.inj h
    exact .started config clock
  | stop i =>
    obtain ⟨loop, hloop, rfl⟩ := Option.map_eq_some_iff.mp h
    exact .turned hloop .stopped
  | die i =>
    obtain ⟨loop, hloop, rfl⟩ := Option.map_eq_some_iff.mp h
    exact .turned hloop .ended
  | top i clock inFlight =>
    obtain ⟨loop, hloop, h⟩ := Option.bind_eq_some_iff.mp h
    split at h
    · split_ifs at h
      · obtain rfl := Option.some.inj h
        exact .turned hloop (.took clock inFlight)
      · obtain rfl := Option.some.inj h
        exact .turned hloop .ended
    · cases h
  | set i applied =>
    obtain ⟨loop, hloop, h⟩ := Option.bind_eq_some_iff.mp h
    split at h
    next data hpc =>
      -- a `PX` that Redis refuses comes back as an exception, which is the other branch
      split_ifs at h with happlied hkept
      · obtain rfl := Option.some.inj h
        exact .wrote (by rw [happlied]) hloop hpc hkept
      · obtain rfl := Option.some.inj h
        exact .missed (by rw [Bool.eq_false_iff.mpr happlied]) hloop
    next => cases h
  | wake i =>
    obtain ⟨loop, hloop, h⟩ := Option.bind_eq_some_iff.mp h
    split at h
    · split_ifs at h
      obtain rfl := Option.some.inj h
      exact .turned hloop .woke
    · cases h
  | tick ms =>
    obtain rfl := Option.some.inj h
    exact .ticked rfl
  | kill workerId =>
    obtain rfl := Option.some.inj h
    exact .killed rfl
  | list =>
    obtain rfl := Option.some.inj h
    exact .listed
  | scan r key =>
    obtain ⟨listing, hlisting, h⟩ := Option.bind_eq_some_iff.mp h
    split at h
    next hpc =>
      split_ifs at h
      obtain rfl := Option.some.inj h
      exact .asked hlisting (.scanned key hpc)
    next => cases h
  | read r clock =>
    obtain ⟨listing, hlisting, h⟩ := Option.bind_eq_some_iff.mp h
    split at h
    next key hpc =>
      split at h
      next p hget =>
        obtain rfl := Option.some.inj h
        exact .asked hlisting (.read clock hpc hget)
      next hget =>
        obtain rfl := Option.some.inj h
        exact .asked hlisting (.gone hpc hget)
    next => cases h
  | answer r =>
    obtain ⟨listing, hlisting, h⟩ := Option.bind_eq_some_iff.mp h
    split at h
    next hpc =>
      split_ifs at h with howed
      obtain rfl := Option.some.inj h
      exact .asked hlisting (.answered hpc howed)
    next => cases h
  | fail r =>
    obtain ⟨listing, hlisting, h⟩ := Option.bind_eq_some_iff.mp h
    split at h
    · cases h
    · obtain rfl := Option.some.inj h
      exact .asked hlisting .failed

/-! ### What is listed -/

theorem mem_keys_of_get {key : String} {p : Presence} (h : s.get key = some p) :
    (key, p) ∈ s.keys ∧ s.now ≤ p.expiresAt := by
  obtain ⟨hfind, hnow⟩ := Option.filter_eq_some_iff.mp h
  obtain ⟨k, hk, rfl⟩ := Option.map_eq_some_iff.mp hfind
  have hkey : k.1 = key := by simpa using List.find?_some hk
  exact ⟨hkey ▸ List.mem_of_find?_eq_some hk, by simpa using hnow⟩

/-- The worker, its settings and its start stay what they are. -/
theorem Moves.loop_kept (h : s.Moves interval a s') {i : ℕ} {loop : HeartbeatLoop}
    (hloop : s.loops[i]? = some loop) : ∃ loop', s'.loops[i]? = some loop' ∧
      loop'.config = loop.config ∧ loop'.startedAt = loop.startedAt := by
  -- a loop that changes is this one or another one
  have hset : ∀ {j : ℕ} {old new : HeartbeatLoop}, s.loops[j]? = some old →
      new.config = old.config → new.startedAt = old.startedAt →
      ∃ loop', (s.loops.set j new)[i]? = some loop' ∧ loop'.config = loop.config ∧
        loop'.startedAt = loop.startedAt := by
    intro j old new hold hconfig hstarted
    by_cases hij : i = j
    · subst hij
      obtain rfl := Option.some.inj (hloop.symm.trans hold)
      exact ⟨new, Indexed.getElem?_set_of_eq hold, hconfig, hstarted⟩
    · exact ⟨loop, (Indexed.getElem?_set_of_ne hij).trans hloop, rfl, rfl⟩
  cases h with
  | started config clock =>
    exact ⟨loop, Indexed.getElem?_of_grow (List.prefix_append _ _) hloop, rfl, rfl⟩
  | turned hold hturns => cases hturns <;> exact hset hold rfl rfl
  | missed ha hold => exact hset hold rfl rfl
  | wrote ha hold => exact hset hold rfl rfl
  | ticked | killed | listed | asked => exact ⟨loop, hloop, rfl, rfl⟩

/-- The write is one of that loop. -/
structure PresenceWriteBy (w : PresenceWrite) (loop : HeartbeatLoop) : Prop where
  key_eq : w.key = presenceKey loop.config.workerId
  ttlMs_eq : w.ttlMs = loop.config.ttlMs
  ttlMs_pos : 0 < w.ttlMs
  writes : loop.Writes w.data

theorem PresenceWriteBy.kept {w : PresenceWrite} {loop loop' : HeartbeatLoop}
    (h : PresenceWriteBy w loop) (hconfig : loop'.config = loop.config)
    (hstarted : loop'.startedAt = loop.startedAt) : PresenceWriteBy w loop' :=
  ⟨hconfig ▸ h.key_eq, hconfig ▸ h.ttlMs_eq, h.ttlMs_pos, h.writes.of_eq hconfig hstarted⟩

/-- The write is the last one of its key before that time. -/
structure LatestAt (writes : List PresenceWrite) (n : ℕ) (w : PresenceWrite) (time : ℕ) :
    Prop where
  logged : writes[n]? = some w
  later : ∀ m w', n < m → writes[m]? = some w' → w'.key = w.key → time ≤ w'.time

/-- Every key holds what was written to it last, and every entry what its key held. -/
structure Justified (interval : ℚ) (s : Fleet) : Prop where
  setting : ∀ loop ∈ s.loops, ∀ data, loop.pc = .setting data → loop.Writes data
  writes : ∀ w ∈ s.writes, w.time ≤ s.now ∧
    ∃ loop, s.loops[w.loop]? = some loop ∧ PresenceWriteBy w loop
  keys : ∀ k ∈ s.keys, ∃ (n : ℕ) (w : PresenceWrite), s.writes[n]? = some w ∧
    k = (w.key, ⟨w.data, w.time + w.ttlMs⟩) ∧
    ∀ m (w' : PresenceWrite), n < m → s.writes[m]? = some w' → w'.key ≠ w.key
  reads : ∀ listing ∈ s.listings, ∀ x ∈ listing.reads, x.time ≤ s.now ∧
    ∃ n w, LatestAt s.writes n w x.time ∧ x.info = workerInfo interval w.key w.data x.clock ∧
      w.time ≤ x.time ∧ x.time ≤ w.time + w.ttlMs

theorem justified_init : Justified interval init where
  setting := fun _ h => absurd h List.not_mem_nil
  writes := fun _ h => absurd h List.not_mem_nil
  keys := fun _ h => absurd h List.not_mem_nil
  reads := fun _ h => absurd h List.not_mem_nil

/-- A step that writes nothing keeps the account when it keeps the requests. -/
theorem Justified.frame (h : Justified interval s) (hmoves : s.Moves interval a s')
    (hsetting : ∀ loop ∈ s'.loops, ∀ data, loop.pc = .setting data → loop.Writes data)
    (hwrites : s'.writes = s.writes) (hnow : s.now ≤ s'.now) (hkeys : s'.keys ⊆ s.keys)
    (hlistings : ∀ listing ∈ s'.listings, ∃ before ∈ s.listings, before.reads = listing.reads) :
    Justified interval s' where
  setting := hsetting
  writes := fun w hw => by
    obtain ⟨htime, loop, hloop, hby⟩ := h.writes w (hwrites ▸ hw)
    obtain ⟨loop', hloop', hconfig, hstarted⟩ := hmoves.loop_kept hloop
    exact ⟨htime.trans hnow, loop', hloop', hby.kept hconfig hstarted⟩
  keys := fun k hk => hwrites ▸ h.keys k (hkeys hk)
  reads := fun listing hlisting x hx => by
    obtain ⟨before, hbefore, hreads⟩ := hlistings listing hlisting
    obtain ⟨htime, n, w, hlatest, hrest⟩ := h.reads before hbefore x (hreads ▸ hx)
    exact ⟨htime.trans hnow, n, w, ⟨hwrites ▸ hlatest.logged, hwrites ▸ hlatest.later⟩, hrest⟩

/-- Those who are owed less have read as much. -/
theorem exists_of_mem_disown {listing : Listing} (h : listing ∈ s.disown.listings) :
    ∃ before ∈ s.listings, before.reads = listing.reads := by
  obtain ⟨before, hbefore, rfl⟩ := List.mem_map.mp h
  exact ⟨before, hbefore, rfl⟩

theorem Turns.same {loop loop' : HeartbeatLoop} (h : Turns loop loop') :
    loop'.config = loop.config ∧ loop'.startedAt = loop.startedAt ∧ loop'.since = loop.since ∧
      loop'.missed = loop.missed := by
  cases h <;> exact ⟨rfl, rfl, rfl, rfl⟩

/-- A loop that turns writes what is so, if it writes. -/
theorem Turns.setting {loop loop' : HeartbeatLoop} (h : Turns loop loop')
    (hbefore : ∀ data, loop.pc = .setting data → loop.Writes data) :
    ∀ data, loop'.pc = .setting data → loop'.Writes data := by
  intro data hpc
  cases h with
  | stopped => exact hbefore data hpc
  | ended | woke => cases hpc
  | took clock inFlight =>
    cases hpc
    exact ⟨inFlight, clock, rfl⟩

/-- What is written is in the log, and it is the last write of its key. -/
theorem Justified.wrote (h : Justified interval s) {i : ℕ} {loop : HeartbeatLoop} {data : Heartbeat}
    (hloop : s.loops[i]? = some loop) (hpc : loop.pc = .setting data)
    (hkept : 0 < loop.config.ttlMs)
    (hmoves : s.Moves interval a (s.wrote i loop data)) :
    Justified interval (s.wrote i loop data) := by
  let new : PresenceWrite :=
    ⟨i, presenceKey loop.config.workerId, data, loop.config.ttlMs, s.now⟩
  have hwrites : (s.wrote i loop data).writes = s.writes ++ [new] := rfl
  have hold : ∀ {n : ℕ} {w : PresenceWrite}, s.writes[n]? = some w →
      (s.wrote i loop data).writes[n]? = some w := fun hn =>
    Indexed.getElem?_of_grow (List.prefix_append _ _) hn
  have hnew : (s.wrote i loop data).writes[s.writes.length]? = some new := by
    rw [hwrites, List.getElem?_append_right le_rfl, Nat.sub_self]
    rfl
  -- the log is read at an old place or at the new one
  have hcases : ∀ {m : ℕ} {w : PresenceWrite}, (s.wrote i loop data).writes[m]? = some w →
      s.writes[m]? = some w ∨ w = new := by
    intro m w hm
    rw [hwrites] at hm
    rcases Nat.lt_or_ge m s.writes.length with hlt | hge
    · exact Or.inl (by rwa [List.getElem?_append_left hlt] at hm)
    · rw [List.getElem?_append_right hge] at hm
      exact Or.inr (List.mem_singleton.mp (List.mem_of_getElem? hm))
  refine ⟨?_, fun w hw => ?_, fun k hk => ?_, fun listing hlisting x hx => ?_⟩
  · exact Indexed.forall_mem_set h.setting fun data' hpc' => by cases hpc'
  · rcases List.mem_append.mp (hwrites ▸ hw) with hmem | hmem
    · obtain ⟨htime, old, hold, hby⟩ := h.writes w hmem
      obtain ⟨loop', hloop', hconfig, hstarted⟩ := hmoves.loop_kept hold
      exact ⟨htime, loop', hloop', hby.kept hconfig hstarted⟩
    · -- what the loop was about to write is what it writes
      obtain rfl := List.mem_singleton.mp hmem
      exact ⟨le_rfl, loop.sleep s.now false, Indexed.getElem?_set_of_eq hloop,
        ⟨rfl, rfl, hkept, h.setting loop (List.mem_of_getElem? hloop) data hpc⟩⟩
  · rcases List.mem_cons.mp hk with rfl | hother
    · -- nothing comes after the new write
      refine ⟨s.writes.length, new, hnew, rfl, fun m w' hm hw' => ?_⟩
      have hlt := (List.getElem?_eq_some_iff.mp hw').1
      rw [hwrites, List.length_append, List.length_singleton] at hlt
      omega
    · -- a key that has not been overwritten is another one than that of the new write
      obtain ⟨hmem, hne⟩ := List.mem_filter.mp hother
      obtain ⟨n, w, hn, rfl, hlast⟩ := h.keys k hmem
      refine ⟨n, w, hold hn, rfl, fun m w' hm hw' => ?_⟩
      rcases hcases hw' with hbefore | rfl
      · exact hlast m w' hm hbefore
      · exact (of_decide_eq_true hne).symm
  · obtain ⟨htime, n, w, hlatest, hrest⟩ := h.reads listing hlisting x hx
    refine ⟨htime, n, w, ⟨hold hlatest.logged, fun m w' hm hw' hkey => ?_⟩, hrest⟩
    rcases hcases hw' with hbefore | rfl
    · exact hlatest.later m w' hm hbefore hkey
    · -- what has been read was read before
      exact htime

/-- What is read is what was written last. -/
theorem Justified.asked (h : Justified interval s) {r : ℕ} {listing listing' : Listing}
    (hlisting : s.listings[r]? = some listing) (hasks : Asks interval s listing listing') :
    Justified interval (s.setListing r listing') where
  setting := h.setting
  writes := h.writes
  keys := h.keys
  reads := by
    have hbefore := h.reads listing (List.mem_of_getElem? hlisting)
    apply Indexed.forall_mem_set h.reads
    cases hasks with
    | scanned | gone | answered | failed => exact hbefore
    | @read key p clock hpc hget =>
      intro x hx
      rcases List.mem_append.mp hx with hold | hnew
      · exact hbefore x hold
      · -- the key is there, so its last write is not longer ago than it is kept
        obtain rfl := List.mem_singleton.mp hnew
        obtain ⟨hmem, hnow⟩ := mem_keys_of_get hget
        obtain ⟨n, w, hn, heq, hlast⟩ := h.keys _ hmem
        obtain ⟨rfl, rfl⟩ := Prod.mk.inj heq
        exact ⟨le_rfl, n, w, ⟨hn, fun m w' hm hw' hkey => absurd hkey (hlast m w' hm hw')⟩, rfl,
          (h.writes w (List.mem_of_getElem? hn)).1, hnow⟩

theorem Justified.step (h : Justified interval s) (hmoves : s.Moves interval a s') :
    Justified interval s' := by
  cases hmoves with
  | started config clock =>
    refine h.frame (.started config clock : s.Moves interval a _) ?_ rfl le_rfl (List.Subset.refl _)
      fun listing hl => ⟨listing, hl, rfl⟩
    exact Indexed.forall_mem_append_singleton h.setting fun data hpc => by cases hpc
  | turned hloop hturns =>
    refine h.frame (.turned hloop hturns : s.Moves interval a _) ?_ rfl le_rfl (List.Subset.refl _)
      fun listing hl => ⟨listing, hl, rfl⟩
    exact Indexed.forall_mem_set h.setting
      (hturns.setting (h.setting _ (List.mem_of_getElem? hloop)))
  | missed ha hloop =>
    refine h.frame (.missed ha hloop) ?_ rfl le_rfl (List.Subset.refl _)
      fun listing hl => ⟨listing, hl, rfl⟩
    exact Indexed.forall_mem_set h.setting fun data hpc => by cases hpc
  | wrote ha hloop hpc hkept => exact h.wrote hloop hpc hkept (.wrote ha hloop hpc hkept)
  | ticked ha =>
    refine h.frame (.ticked ha) h.setting rfl (Nat.le_add_right _ _) (List.Subset.refl _)
      fun listing hl => ?_
    obtain ⟨before, hbefore, hreads⟩ := exists_of_mem_disown hl
    exact ⟨before, hbefore, hreads⟩
  | killed ha =>
    refine h.frame (.killed ha) h.setting rfl le_rfl (fun k hk => (List.mem_filter.mp hk).1)
      fun listing hl => ?_
    obtain ⟨before, hbefore, hreads⟩ := exists_of_mem_disown hl
    exact ⟨before, hbefore, hreads⟩
  | listed =>
    refine ⟨h.setting, h.writes, h.keys, ?_⟩
    exact Indexed.forall_mem_append_singleton h.reads fun x hx => absurd hx List.not_mem_nil
  | asked hlisting hasks => exact h.asked hlisting hasks

theorem justified_of_reaches (h : Transition.Reaches (step interval) init s) :
    Justified interval s :=
  Transition.Reaches.invariant (fun _ _ _ hbefore hstep => hbefore.step (moves_of_step hstep)) h
    justified_init

/-- **An entry of the fleet.** Whatever workers start, stop and die, whichever writes fail and
whenever requests come: an entry of `GET /v1/workers` shows what a worker has written to its key,
the last that was written there, and that not longer ago than the key is kept.

If it says that the worker is not alive, by a clock that is right and with an interval that is not
shorter than the worker's, then the key is about to go: it was read less than a millisecond before
the time for which it is kept has passed since the clock was read for its `timestamp`. -/
theorem listed_justified (h : Transition.Reaches (step interval) init s) {listing : Listing}
    (hlisting : listing ∈ s.listings) {x : PresenceRead} (hx : x ∈ listing.reads) :
    ∃ n w loop, LatestAt s.writes n w x.time ∧ w.time ≤ x.time ∧ x.time ≤ w.time + w.ttlMs ∧
      s.loops[w.loop]? = some loop ∧ PresenceWriteBy w loop ∧
      x.info = workerInfo interval w.key w.data x.clock ∧
      (loop.config.heartbeatIntervalS ≤ interval → x.clock * 1000 < x.time + 1 →
        x.info.alive = false → w.data.timestamp * 1000 + w.ttlMs < x.time + 1) := by
  have hjust := justified_of_reaches h
  obtain ⟨-, n, w, hlatest, hinfo, hfrom, huntil⟩ := hjust.reads listing hlisting x hx
  obtain ⟨-, loop, hloop, hby⟩ := hjust.writes w (List.mem_of_getElem? hlatest.logged)
  refine ⟨n, w, loop, hlatest, hfrom, huntil, hloop, hby, hinfo, fun hshorter hclock halive => ?_⟩
  have hlate : interval * 3 ≤ x.clock - w.data.timestamp := by
    rw [hinfo] at halive
    exact not_lt.mp (of_decide_eq_false halive)
  -- `int` makes the time for which a key is kept shorter, if anything
  have hkept : (w.ttlMs : ℚ) ≤ loop.config.heartbeatIntervalS * 3 * 1000 := by
    have hpos := hby.ttlMs_pos
    rw [hby.ttlMs_eq] at hpos ⊢
    exact Nat.floor_le (zero_le_one.trans (Nat.floor_pos.mp hpos))
  linarith

/-- The theorem at a worker whose write takes effect five milliseconds after its clock was read: it
is dead by the entry that a request finds in the last five milliseconds of the key. -/
theorem listed_justified_dead : ∃ (s : Fleet) (x : PresenceRead) (w : PresenceWrite),
    Transition.Reaches (step 10) init s ∧ x.info.alive = false ∧ x.time ≤ w.time + w.ttlMs ∧
    w.data.timestamp * 1000 + w.ttlMs < x.time + 1 := by
  obtain ⟨s, hrun, hcheck⟩ := Transition.exists_run_of_check (step 10) init
    [.start {} 0, .top 0 0 0, .tick 5, .set 0 true, .tick 30000, .list, .scan 0 "worker:worker-1",
      .read 0 30]
    (fun s => (s.listings[0]?).any fun listing => (listing.reads[0]?).any fun x =>
      x.info.alive = false ∧ x.clock * 1000 < (x.time : ℚ) + 1 ∧
        s.loops.all fun loop => loop.config.heartbeatIntervalS ≤ 10)
    (by decide +kernel)
  obtain ⟨listing, hlisting, hreads⟩ := (Option.any_eq_true _ _).mp hcheck
  obtain ⟨x, hx, hdata⟩ := (Option.any_eq_true _ _).mp hreads
  obtain ⟨halive, hclock, hloops⟩ := of_decide_eq_true hdata
  have hreach : Transition.Reaches (step 10) init s := .of_run hrun
  obtain ⟨-, w, loop, -, -, huntil, hloop, -, -, hdead⟩ :=
    listed_justified hreach (List.mem_of_getElem? hlisting) (List.mem_of_getElem? hx)
  have hinterval := List.all_eq_true.mp hloops loop (List.mem_of_getElem? hloop)
  exact ⟨s, x, w, hreach, halive, huntil, hdead (of_decide_eq_true hinterval) hclock halive⟩

/-! ### Who is listed -/

/-- The loop is kept up: it gets round in that many milliseconds, no two of its writes fail one
after the other, and nobody else writes its key or removes it. -/
def Steady (i round : ℕ) (s : Fleet) : FleetAction → Prop
  | .tick ms => ∀ loop ∈ s.loops[i]?, s.now + ms ≤ loop.since + round
  | .set j applied => ∀ loop ∈ s.loops[i]?,
      (j = i → loop.missed = true → applied = true) ∧
      (j ≠ i → ∀ other ∈ s.loops[j]?, other.config.workerId ≠ loop.config.workerId)
  | .kill workerId => ∀ loop ∈ s.loops[i]?, workerId ≠ loop.config.workerId
  | _ => True

instance (i round : ℕ) (s : Fleet) : DecidablePred (Steady i round s)
  | .tick ms => inferInstanceAs (Decidable (∀ loop ∈ s.loops[i]?, s.now + ms ≤ loop.since + round))
  | .set j applied => inferInstanceAs (Decidable (∀ loop ∈ s.loops[i]?,
      (j = i → loop.missed = true → applied = true) ∧
      (j ≠ i → ∀ other ∈ s.loops[j]?, other.config.workerId ≠ loop.config.workerId)))
  | .kill workerId =>
    inferInstanceAs (Decidable (∀ loop ∈ s.loops[i]?, workerId ≠ loop.config.workerId))
  | .start .. | .stop .. | .die .. | .top .. | .wake .. | .list | .scan .. | .read .. | .answer ..
  | .fail .. => inferInstanceAs (Decidable True)

theorem presenceKey_injective : Function.Injective presenceKey := by
  intro x y h
  have htext := congrArg String.toList h
  rw [presenceKey, presenceKey, String.toList_append, String.toList_append] at htext
  exact String.toList_injective (List.append_cancel_left htext)

theorem find_set_self (key : String) (data : Heartbeat) (ttlMs : ℕ) :
    (s.set key data ttlMs).find key = some ⟨data, s.now + ttlMs⟩ := by
  simp [find, set]

theorem find_del_of_ne {key other : String} (h : other ≠ key) :
    (s.del other).find key = s.find key := by
  have hother : ∀ k : String × Presence,
      decide (decide (k.1 ≠ other) = true ∧ decide (k.1 = key) = true) = decide (k.1 = key) := by
    intro k
    by_cases hk : k.1 = key
    · simp [hk, h.symm]
    · simp [hk]
  simp only [find, del, List.find?_filter, hother]

theorem find_set_of_ne {key other : String} (h : other ≠ key) (data : Heartbeat) (ttlMs : ℕ) :
    (s.set other data ttlMs).find key = s.find key := by
  have hrest : (s.set other data ttlMs).find key = (s.del other).find key := by
    rw [find, find, set, List.find?_cons_of_neg (by simpa using h)]
  exact hrest.trans (find_del_of_ne h)

theorem get_of_find {key : String} {p : Presence} (hfind : s.find key = some p)
    (hnow : s.now ≤ p.expiresAt) : s.get key = some p := by
  rw [get, hfind, Option.filter_some, if_pos (decide_eq_true hnow)]

/-- The key is in the scan of everybody who asks now. -/
theorem mem_present {key : String} {p : Presence} (h : s.get key = some p) : key ∈ s.present :=
  List.mem_filter.mpr ⟨List.mem_map_of_mem (mem_keys_of_get h).1, by simp [h]⟩

/-- The loop that was `first` is at work, and its key is kept for long enough: until it gets round
once more after a write that has failed, and once more after that if it has not. -/
structure Upheld (i round : ℕ) (first : HeartbeatLoop) (s : Fleet) (loop : HeartbeatLoop)
    (p : Presence) : Prop where
  at_place : s.loops[i]? = some loop
  config_eq : loop.config = first.config
  startedAt_eq : loop.startedAt = first.startedAt
  found : s.find (presenceKey first.config.workerId) = some p
  writes : first.Writes p.data
  setting : ∀ data, loop.pc = .setting data → first.Writes data
  in_time : s.now ≤ loop.since + round
  kept : loop.since + first.config.ttlMs ≤ p.expiresAt + round
  fresh : loop.missed = false → loop.since + first.config.ttlMs ≤ p.expiresAt

variable {i round : ℕ} {first loop : HeartbeatLoop} {p : Presence}

theorem Upheld.get_eq (h : Upheld i round first s loop p)
    (hround : 2 * round ≤ first.config.ttlMs) :
    s.get (presenceKey first.config.workerId) = some p := by
  -- two rounds after the last write at most, one of them after a write that failed
  have hin := h.in_time
  have hkept := h.kept
  exact get_of_find h.found (by omega)

/-- What others do to other keys and other loops. -/
theorem Upheld.frame (h : Upheld i round first s loop p) (hloop : s'.loops[i]? = some loop)
    (hnow : s'.now = s.now)
    (hfind : s'.find (presenceKey first.config.workerId) =
      s.find (presenceKey first.config.workerId)) : Upheld i round first s' loop p :=
  { h with
    at_place := hloop
    found := hfind.trans h.found
    in_time := hnow ▸ h.in_time }

theorem eq_wrote_of_step (h : s.step interval (.set i true) = some s') :
    ∃ loop data, s.loops[i]? = some loop ∧ loop.pc = .setting data ∧ s' = s.wrote i loop data := by
  obtain ⟨loop, hloop, h⟩ := Option.bind_eq_some_iff.mp h
  split at h
  next data hpc =>
    rw [if_pos rfl] at h
    split_ifs at h
    exact ⟨loop, data, hloop, hpc, (Option.some.inj h).symm⟩
  next => cases h

/-- The key has been written. -/
theorem upheld_wrote {data : Heartbeat} (hloop : s.loops[i]? = some loop)
    (hconfig : loop.config = first.config) (hstarted : loop.startedAt = first.startedAt)
    (hdata : first.Writes data) :
    Upheld i round first (s.wrote i loop data) (loop.sleep s.now false)
      ⟨data, s.now + first.config.ttlMs⟩ where
  at_place := Indexed.getElem?_set_of_eq hloop
  config_eq := hconfig
  startedAt_eq := hstarted
  found := hconfig ▸ find_set_self _ data _
  writes := hdata
  setting := fun _ hpc => by cases hpc
  in_time := Nat.le_add_right _ _
  kept := Nat.le_add_right _ _
  fresh := fun _ => le_rfl

theorem Justified.upheld_of_set (h : Justified interval s)
    (hset : s.step interval (.set i true) = some s') (hloop : s'.loops[i]? = some loop)
    (round : ℕ) : ∃ p, Upheld i round loop s' loop p := by
  obtain ⟨old, data, hold, hpc, rfl⟩ := eq_wrote_of_step hset
  obtain rfl := Option.some.inj ((Indexed.getElem?_set_of_eq hold).symm.trans hloop)
  exact ⟨_, upheld_wrote hold rfl rfl (h.setting old (List.mem_of_getElem? hold) data hpc)⟩

/-- Steady steps keep the key. -/
theorem Upheld.step (h : Upheld i round first s loop p) (hmoves : s.Moves interval a s')
    (hsteady : Steady i round s a) : ∃ loop' p', Upheld i round first s' loop' p' := by
  cases hmoves with
  | started config clock =>
    exact ⟨loop, p, h.frame (Indexed.getElem?_of_grow (List.prefix_append _ _) h.at_place) rfl rfl⟩
  | @turned j old new hold hturns =>
    by_cases hij : i = j
    · subst hij
      obtain rfl := Option.some.inj (h.at_place.symm.trans hold)
      obtain ⟨hconfig, hstarted, hsince, hmissed⟩ := hturns.same
      have hconfig' := hconfig.trans h.config_eq
      have hstarted' := hstarted.trans h.startedAt_eq
      have hsetting := hturns.setting fun data hpc =>
        (h.setting data hpc).of_eq h.config_eq h.startedAt_eq
      refine ⟨new, p, ?_⟩
      exact { h with
        at_place := Indexed.getElem?_set_of_eq hold
        config_eq := hconfig'
        startedAt_eq := hstarted'
        setting := fun data hpc => (hsetting data hpc).of_eq hconfig'.symm hstarted'.symm
        in_time := hsince ▸ h.in_time
        kept := hsince ▸ h.kept
        fresh := hsince ▸ hmissed ▸ h.fresh }
    · exact ⟨loop, p, h.frame ((Indexed.getElem?_set_of_ne hij).trans h.at_place) rfl rfl⟩
  | @missed j old ha hold =>
    subst ha
    by_cases hij : i = j
    · subst hij
      obtain rfl := Option.some.inj (h.at_place.symm.trans hold)
      -- the write before this one has not failed, so one more round is left
      have hfresh := h.fresh (Bool.eq_false_iff.mpr fun hmissed =>
        Bool.false_ne_true ((hsteady loop hold).1 rfl hmissed))
      have hin := h.in_time
      refine ⟨loop.sleep s.now true, p, ?_⟩
      exact { h with
        at_place := Indexed.getElem?_set_of_eq hold
        setting := fun _ hpc => by cases hpc
        in_time := Nat.le_add_right _ _
        kept := by simp only [HeartbeatLoop.sleep]; omega
        fresh := fun hmissed => by cases hmissed }
    · exact ⟨loop, p, h.frame ((Indexed.getElem?_set_of_ne hij).trans h.at_place) rfl rfl⟩
  | @wrote j old data ha hold hpc hkept =>
    subst ha
    by_cases hij : i = j
    · subst hij
      obtain rfl := Option.some.inj (h.at_place.symm.trans hold)
      exact ⟨_, _, upheld_wrote hold h.config_eq h.startedAt_eq (h.setting data hpc)⟩
    · -- a worker of another id writes another key
      have hother := (hsteady loop h.at_place).2 (Ne.symm hij) old hold
      refine ⟨loop, p, h.frame ((Indexed.getElem?_set_of_ne hij).trans h.at_place) rfl ?_⟩
      refine find_set_of_ne (fun hkey => hother ?_) data _
      exact (presenceKey_injective hkey).trans (congrArg _ h.config_eq.symm)
  | ticked ha =>
    subst ha
    exact ⟨loop, p, { h with in_time := hsteady loop h.at_place }⟩
  | @killed workerId ha =>
    subst ha
    have hother := hsteady loop h.at_place
    refine ⟨loop, p, h.frame h.at_place rfl (find_del_of_ne fun hkey => hother ?_)⟩
    exact (presenceKey_injective hkey).trans (congrArg _ h.config_eq.symm)
  | listed | asked => exact ⟨loop, p, h.frame h.at_place rfl rfl⟩

/-- A request has not come to the key yet, has its value, or has failed. -/
def Accounted (interval : ℚ) (first : HeartbeatLoop) (listing : Listing) : Prop :=
  listing.pc = .failed ∨
    listing.pc ≠ .answered ∧ presenceKey first.config.workerId ∈ listing.owed ∨
    listing.pc = .reading (presenceKey first.config.workerId) ∨
    ∃ x ∈ listing.reads, ∃ inFlight timestamp,
      x.info = workerInfo interval (presenceKey first.config.workerId)
        (first.config.data first.startedAt inFlight timestamp) x.clock

/-- A request moves on while the key is there. -/
theorem Accounted.asks {listing listing' : Listing} (h : Accounted interval first listing)
    (hheld : Upheld i round first s loop p) (hround : 2 * round ≤ first.config.ttlMs)
    (hasks : Asks interval s listing listing') : Accounted interval first listing' := by
  have hget := hheld.get_eq hround
  -- the scan cannot end before the key has come up, and what is read then is there
  cases hasks with
  | failed => exact Or.inl rfl
  | scanned key hpc =>
    by_cases hkey : presenceKey first.config.workerId = key
    · exact Or.inr (Or.inr (Or.inl (congrArg _ hkey.symm)))
    · rcases h with hfailed | howed | hreading | hread
      · simp [hpc] at hfailed
      · exact Or.inr (Or.inl ⟨by simp, List.mem_filter.mpr ⟨howed.2, decide_eq_true hkey⟩⟩)
      · simp [hpc] at hreading
      · exact Or.inr (Or.inr (Or.inr hread))
  | @read key q clock hpc hfound =>
    rcases h with hfailed | howed | hreading | ⟨x, hx, hinfo⟩
    · simp [hpc] at hfailed
    · exact Or.inr (Or.inl ⟨by simp, howed.2⟩)
    · obtain rfl := ListingPc.reading.inj (hpc.symm.trans hreading)
      obtain rfl := Option.some.inj (hget.symm.trans hfound)
      obtain ⟨inFlight, timestamp, hdata⟩ := hheld.writes
      refine Or.inr (Or.inr (Or.inr ⟨_, List.mem_append_right _ (List.mem_singleton_self _), ?_⟩))
      exact ⟨inFlight, timestamp, by rw [hdata]⟩
    · exact Or.inr (Or.inr (Or.inr ⟨x, List.mem_append_left _ hx, hinfo⟩))
  | @gone key hpc hnone =>
    rcases h with hfailed | howed | hreading | hread
    · simp [hpc] at hfailed
    · exact Or.inr (Or.inl ⟨by simp, howed.2⟩)
    · obtain rfl := ListingPc.reading.inj (hpc.symm.trans hreading)
      simp [hget] at hnone
    · exact Or.inr (Or.inr (Or.inr hread))
  | answered hpc hnone =>
    rcases h with hfailed | howed | hreading | hread
    · simp [hpc] at hfailed
    · simp [hnone] at howed
    · simp [hpc] at hreading
    · exact Or.inr (Or.inr (Or.inr hread))

/-- Nobody loses the claim to a key that is there. -/
theorem Accounted.disown {listing : Listing} (h : Accounted interval first listing)
    (hget : (s.get (presenceKey first.config.workerId)).isSome) : Accounted interval first
      { listing with owed := listing.owed.filter fun key => (s.get key).isSome } :=
  h.imp_right fun hrest => hrest.imp_left fun howed =>
    ⟨howed.1, List.mem_filter.mpr ⟨howed.2, hget⟩⟩

/-- The requests from that one on are accounted for after a steady step. -/
theorem accounted_step {r : ℕ} {loop' : HeartbeatLoop} {p' : Presence}
    (hall : ∀ k listing, r ≤ k → s.listings[k]? = some listing → Accounted interval first listing)
    (hheld : Upheld i round first s loop p) (hheld' : Upheld i round first s' loop' p')
    (hround : 2 * round ≤ first.config.ttlMs) (hmoves : s.Moves interval a s') :
    ∀ k listing, r ≤ k → s'.listings[k]? = some listing → Accounted interval first listing := by
  have hget' : (s'.get (presenceKey first.config.workerId)).isSome := by
    rw [hheld'.get_eq hround, Option.isSome_some]
  cases hmoves with
  | started | turned | missed | wrote => exact hall
  | ticked | killed =>
    intro k listing hk hlisting
    simp only [disown, List.getElem?_map] at hlisting
    obtain ⟨before, hbefore, rfl⟩ := Option.map_eq_some_iff.mp hlisting
    exact (hall k before hk hbefore).disown hget'
  | listed =>
    intro k listing hk hlisting
    rcases Nat.lt_or_ge k s.listings.length with hlt | hge
    · rw [List.getElem?_append_left hlt] at hlisting
      exact hall k listing hk hlisting
    · rw [List.getElem?_append_right hge] at hlisting
      obtain rfl := List.mem_singleton.mp (List.mem_of_getElem? hlisting)
      exact Or.inr (Or.inl ⟨by simp, mem_present (hheld.get_eq hround)⟩)
  | @asked q listing listing' hlisting hasks =>
    intro k other hk hother
    by_cases hkq : k = q
    · subst hkq
      obtain rfl := Indexed.eq_of_getElem?_set hother
      exact (hall k listing hk hlisting).asks hheld hround hasks
    · exact hall k other hk ((Indexed.getElem?_set_of_ne hkq).symm.trans hother)

/-- **A steady worker is listed.** Once a write of a worker has taken effect, and as long as its
loop gets round in half the time that the key is kept, no two of its writes fail one after the
other, and nobody else writes or removes the key: every request that begins from then on and is
answered has an entry for the worker, with its settings. -/
theorem steady_worker_listed {s₀ : Fleet} {r : ℕ} {listing : Listing}
    (h₀ : Transition.Reaches (step interval) init s₀)
    (hset : s₀.step interval (.set i true) = some s) (hloop : s.loops[i]? = some loop)
    (hround : 2 * round ≤ loop.config.ttlMs)
    (hrun : Transition.ReachesWhen (step interval) (Steady i round) s s')
    (hnew : s.listings.length ≤ r) (hlisting : s'.listings[r]? = some listing)
    (hanswered : listing.pc = .answered) :
    ∃ x ∈ listing.reads, ∃ inFlight timestamp,
      x.info = workerInfo interval (presenceKey loop.config.workerId)
        (loop.config.data loop.startedAt inFlight timestamp) x.clock := by
  obtain ⟨p, hheld⟩ := (justified_of_reaches h₀).upheld_of_set hset hloop round
  have hend : (∃ loop' p, Upheld i round loop s' loop' p) ∧
      ∀ k listing, s.listings.length ≤ k → s'.listings[k]? = some listing →
        Accounted interval loop listing := by
    apply hrun.invariant (I := fun t : Fleet => (∃ loop' p, Upheld i round loop t loop' p) ∧
      ∀ k listing, s.listings.length ≤ k → t.listings[k]? = some listing →
        Accounted interval loop listing)
    · rintro t a u ⟨⟨loop', p, hbefore⟩, hall⟩ hsteady hstep
      have hmoves := moves_of_step hstep
      obtain ⟨loop'', p', hafter⟩ := hbefore.step hmoves hsteady
      exact ⟨⟨loop'', p', hafter⟩, accounted_step hall hbefore hafter hround hmoves⟩
    · -- at the start there is no request to account for
      refine ⟨⟨loop, p, hheld⟩, fun k listing hk hlisting => ?_⟩
      have hlt := (List.getElem?_eq_some_iff.mp hlisting).1
      omega
  rcases hend.2 r listing hnew hlisting with hfailed | howed | hreading | hread
  · simp [hanswered] at hfailed
  · exact absurd hanswered howed.1
  · simp [hanswered] at hreading
  · exact hread

/-- The theorem at a worker one of whose writes fails: the request that is answered fifteen seconds
later still has it. -/
theorem steady_worker_listed_missed : ∃ (s : Fleet) (listing : Listing),
    Transition.Reaches (step 10) init s ∧ s.writes.length = 1 ∧ s.now = 25000 ∧
    listing ∈ s.listings ∧ listing.pc = .answered ∧
    ∃ x ∈ listing.reads, x.info.workerId = "worker-1" := by
  obtain ⟨s₀, hrun, hcheck⟩ := Transition.exists_run_of_check (step 10) init
    [.start {} 0, .top 0 0 0]
    (fun s₀ => (s₀.step 10 (.set 0 true)).any fun s => s.listings.length = 0 ∧
      ((s.loops[0]?).any fun loop => loop.config.workerId = "worker-1" ∧
        2 * 15000 ≤ loop.config.ttlMs) ∧
      (Transition.run (Transition.guard (step 10) (Steady 0 15000)) s
        [.tick 10000, .wake 0, .top 0 10 0, .set 0 false, .tick 15000, .list,
          .scan 0 "worker:worker-1", .read 0 25, .answer 0]).any fun s' =>
        s'.writes.length = 1 ∧ s'.now = 25000 ∧
          (s'.listings[0]?).any fun listing => listing.pc = .answered)
    (by decide +kernel)
  obtain ⟨s, hset, hparts⟩ := (Option.any_eq_true _ _).mp hcheck
  obtain ⟨hnew, hloops, hruns⟩ := of_decide_eq_true hparts
  obtain ⟨loop, hloop, hconfig⟩ := (Option.any_eq_true _ _).mp hloops
  obtain ⟨hid, hround⟩ := of_decide_eq_true hconfig
  obtain ⟨s', hrun', hend⟩ := (Option.any_eq_true _ _).mp hruns
  obtain ⟨hwrites, hnow, hlistings⟩ := of_decide_eq_true hend
  obtain ⟨listing, hlisting, hpc⟩ := (Option.any_eq_true _ _).mp hlistings
  have hreach : Transition.Reaches (step 10) init s₀ := .of_run hrun
  have hsteady : Transition.ReachesWhen (step 10) (Steady 0 15000) s s' := .of_run_guard hrun'
  have hall : Transition.Reaches (step 10) init s' :=
    (hreach.tail trivial hset).trans hsteady.reaches
  obtain ⟨x, hx, inFlight, timestamp, hinfo⟩ := steady_worker_listed hreach hset hloop hround
    hsteady hnew.le hlisting (of_decide_eq_true hpc)
  refine ⟨s', listing, hall, hwrites, hnow, List.mem_of_getElem? hlisting, of_decide_eq_true hpc,
    x, hx, ?_⟩
  rw [hinfo, hid]
  exact workerIdOf_presenceKey (by decide)

end Fleet

end Dtq
