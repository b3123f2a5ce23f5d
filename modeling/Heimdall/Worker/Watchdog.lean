import Heimdall.Lib.System
import Heimdall.Utils.Helper
import Heimdall.Worker.Await

/-!
# The watchdog (`watchdog.c`)

The reader stores the time in `timestamp_worker` before each request, and the watchdog wakes up now
and then, reads the timestamp and the clock, in either order, and ends the job when they are more
than `timeout_worker` seconds apart. `new_watchdog` does not set the timestamp: up to the first
store of the reader it is what `malloc` has left there.

The two threads take turns at any of their reads and stores: the reader can store a new time when
the watchdog has read the old one, and also when it has made its test and not yet set the flag.

`since` is when the reader last stored the timestamp, or when the watchdog was created, and
`setAfter` how long that was ago when the watchdog ended the job; no code reads them. A watchdog
that goes by a timestamp older than `since` can end the job at any time. In runs in which none does,
it is never early (`watchdog_late`).
-/

namespace Heimdall.Worker

open Await (watchOver watchTower)

/-- What `detach_watchdog` reads of the configuration. -/
structure WatchdogConfig where
  killerTime : List Byte
  timeoutWorker : List Byte

structure Watchdog where
  killerTime : Int
  timeoutWorker : Int
  timestampWorker : Int

def detachWatchdog (config : WatchdogConfig) (watchdog : Watchdog) : Throwable × Watchdog :=
  let (throwable, kTime) := strToLong config.killerTime
  if throwable.isAnError then (throwable.thrown "detach_watchdog", watchdog)
  else
    let (throwable, outTime) := strToLong config.timeoutWorker
    if throwable.isAnError then (throwable.thrown "detach_watchdog", watchdog)
    else
      (.create statusOk .null "detach_watchdog",
        { watchdog with killerTime := kTime, timeoutWorker := outTime })

/-- A `long` result: a value outside the type is signed overflow. -/
def checkLong (x : Int) : Exec Int :=
  if longMin ≤ x ∧ x ≤ longMax then .ok x else .error .overflow

/-- The test of `watch_over`. -/
def watchOverTest (timeoutWorker runningTimestamp currentTimestamp : Int) : Exec Bool := do
  let runningExecTime ← checkLong (currentTimestamp - runningTimestamp)
  .ok (timeoutWorker < runningExecTime)

/-! ## The threads -/

/-- What the watchdog does next: it sleeps; it is awake and has read the timestamp and the clock, or
not yet; it has found them too far apart; it has ended the job. -/
inductive WatchPc
  | asleep
  | awake (running : Option Int) (current : Option Int)
  | expired (running current : Int)
  | overdue
  deriving DecidableEq

/-- The timestamp that the watchdog goes by. -/
def WatchPc.running : WatchPc → Option Int
  | .asleep => none
  | .awake running _ => running
  | .expired running _ => some running
  | .overdue => none

/-- `reader` is what `time` has returned to the reader, when it is still to be stored. -/
structure Watch where
  clock : Int
  watchdog : Watchdog
  workerAwaitFlag : Nat
  pc : WatchPc
  reader : Option Int
  stored : Bool
  since : Int
  setAfter : Option Int

inductive WatchEvent
  | tick (now : Int)
  | time
  | store
  | wake
  | readTimestamp
  | readClock
  | compare
  | set
  deriving DecidableEq

/-- One step. There is none where the difference of the times is no `long`. -/
inductive WatchStep : Watch → WatchEvent → Watch → Prop
  | tick {s : Watch} {now : Int} (hle : s.clock ≤ now) (hfit : now ≤ longMax) :
      WatchStep s (.tick now) { s with clock := now }
  | time {s : Watch} (hr : s.reader = none) :
      WatchStep s .time { s with reader := some s.clock }
  | store {s : Watch} {v : Int} (hr : s.reader = some v) :
      WatchStep s .store { s with
        watchdog := { s.watchdog with timestampWorker := v }
        reader := none
        stored := true
        since := s.clock }
  | wake {s : Watch} (hp : s.pc = .asleep) : WatchStep s .wake { s with pc := .awake none none }
  | readTimestamp {s : Watch} {current : Option Int} (hp : s.pc = .awake none current) :
      WatchStep s .readTimestamp { s with pc := .awake (some s.watchdog.timestampWorker) current }
  | readClock {s : Watch} {running : Option Int} (hp : s.pc = .awake running none) :
      WatchStep s .readClock { s with pc := .awake running (some s.clock) }
  | expired {s : Watch} {running current : Int} (hp : s.pc = .awake (some running) (some current))
      (ht : watchOverTest s.watchdog.timeoutWorker running current = .ok true) :
      WatchStep s .compare { s with pc := .expired running current }
  | set {s : Watch} {running current : Int} (hp : s.pc = .expired running current) :
      WatchStep s .set { s with
        workerAwaitFlag := watchOver
        pc := .overdue
        setAfter := some (s.clock - s.since) }
  | back {s : Watch} {running current : Int} (hp : s.pc = .awake (some running) (some current))
      (ht : watchOverTest s.watchdog.timeoutWorker running current = .ok false) :
      WatchStep s .compare { s with pc := .asleep }

/-- `new_worker` has created the watchdog and `detach_watchdog` has set it up; the timestamp is
whatever the memory holds. The clock counts the seconds since the Epoch. -/
def watch (timeoutWorker : Int) : System Watch WatchEvent where
  init s := 0 ≤ s.clock ∧ s.clock ≤ longMax ∧ s.watchdog.timeoutWorker = timeoutWorker ∧
    s.workerAwaitFlag = watchTower ∧ s.pc = .asleep ∧ s.reader = none ∧ s.stored = false ∧
    s.since = s.clock ∧ s.setAfter = none
  step := WatchStep

/-- When the watchdog has ended the job, more than `timeoutWorker` seconds had passed since the
last store, or since it was created. -/
def Watch.Late (timeoutWorker : Int) (s : Watch) : Prop :=
  s.workerAwaitFlag = watchOver → ∃ waited, s.setAfter = some waited ∧ timeoutWorker < waited

/-- When the watchdog sets the flag, the timestamp that it goes by is not older than the last store.
-/
def Fresh (s : Watch) (event : WatchEvent) (_ : Watch) : Prop :=
  event = .set → ∀ running, s.pc.running = some running → s.since ≤ running

/-- The watchdog reads the timestamp only when it has been stored, and the reader stores the time at
once and not while the watchdog goes by a timestamp: not between its reading of it and its test, nor
between the test and the flag. -/
def Prompt (s : Watch) (event : WatchEvent) (_ : Watch) : Prop :=
  (event = .readTimestamp → s.stored = true) ∧
    (event = .store → s.reader = some s.clock ∧ s.pc.running = none)

/-! ## Runs -/

section Runs

variable {timeoutWorker : Int} {s t : Watch} {event : WatchEvent} {as : List WatchEvent}

theorem watchOverTest_true {running current : Int}
    (h : watchOverTest timeoutWorker running current = .ok true) :
    timeoutWorker < current - running := by
  unfold watchOverTest checkLong at h
  split at h
  · simpa using Except.ok.inj h
  · cases h

/-- What every step keeps: a time that has been read is not in the future, the times that have been
found too far apart are so, and a job that has been ended has not been ended early. -/
structure Watch.Kept (timeoutWorker : Int) (s : Watch) : Prop where
  timeout_eq : s.watchdog.timeoutWorker = timeoutWorker
  current_le : ∀ running current, s.pc = .awake running (some current) → current ≤ s.clock
  expired_lt : ∀ running current, s.pc = .expired running current →
    timeoutWorker < current - running ∧ current ≤ s.clock
  late : s.Late timeoutWorker

theorem kept_init (h : (watch timeoutWorker).init s) : s.Kept timeoutWorker := by
  obtain ⟨-, -, htimeout, hflag, hpc, -⟩ := h
  refine ⟨htimeout, ?_, ?_, ?_⟩
  · intro running current hawake
    cases hpc.symm.trans hawake
  · intro running current hexpired
    cases hpc.symm.trans hexpired
  · intro hover
    cases hflag.symm.trans hover

/-- The step lemma. -/
theorem kept_step (h : s.Kept timeoutWorker) (hstep : WatchStep s event t)
    (hfresh : Fresh s event t) : t.Kept timeoutWorker := by
  obtain ⟨htimeout, hcurrent, hexpired, hlate⟩ := h
  cases hstep with
  | tick hle hfit =>
    refine ⟨htimeout, ?_, ?_, hlate⟩
    · intro running current hawake
      exact Int.le_trans (hcurrent running current hawake) hle
    · intro running current hp
      obtain ⟨hpassed, hclock⟩ := hexpired running current hp
      exact ⟨hpassed, Int.le_trans hclock hle⟩
  | time hr | store hr => exact ⟨htimeout, hcurrent, hexpired, hlate⟩
  | wake hp | back hp ht =>
    refine ⟨htimeout, ?_, ?_, hlate⟩
    · intro running current hawake
      cases hawake
    · intro running current h0
      cases h0
  | @readTimestamp current hp =>
    refine ⟨htimeout, ?_, ?_, hlate⟩
    · intro running current hawake
      cases hawake
      exact hcurrent none current hp
    · intro running current h0
      cases h0
  | readClock hp =>
    refine ⟨htimeout, ?_, ?_, hlate⟩
    · intro running current hawake
      cases hawake
      exact Int.le_refl _
    · intro running current h0
      cases h0
  | @expired running current hp ht =>
    refine ⟨htimeout, ?_, ?_, hlate⟩
    · intro running current hawake
      cases hawake
    · intro running current h0
      cases h0
      have hpassed := watchOverTest_true ht
      rw [htimeout] at hpassed
      exact ⟨hpassed, hcurrent (some running) current hp⟩
  | @set running current hp =>
    refine ⟨htimeout, ?_, ?_, ?_⟩
    · intro running current hawake
      cases hawake
    · intro running current h0
      cases h0
    · intro _
      obtain ⟨hpassed, hclock⟩ := hexpired running current hp
      have hsince := hfresh rfl running (by rw [hp]; rfl)
      exact ⟨_, rfl, by omega⟩

/-- **The watchdog is never early** in the runs in which it does not set the flag by a timestamp
that is older than the last store, or than the watchdog where nothing has been stored yet. -/
theorem watchdog_late (h : ((watch timeoutWorker).restrict Fresh).Reachable s) :
    s.Late timeoutWorker := by
  have hkept : s.Kept timeoutWorker := by
    refine h.invariant (Watch.Kept timeoutWorker) ?_ ?_
    · intro s hs
      exact kept_init hs
    · intro s event t hs hstep
      exact kept_step hs hstep.1 hstep.2
  exact hkept.late

/-- What a prompt run keeps: the timestamp is the time of the last store. -/
structure Watch.Exact (s : Watch) : Prop where
  timestamp_eq : s.stored = true → s.watchdog.timestampWorker = s.since
  running_eq : ∀ running, s.pc.running = some running → running = s.since

theorem exact_step (h : s.Exact) (hstep : WatchStep s event t) (hprompt : Prompt s event t) :
    t.Exact := by
  obtain ⟨htimestamp, hrunning⟩ := h
  cases hstep with
  | tick hle hfit => exact ⟨htimestamp, hrunning⟩
  | time hr => exact ⟨htimestamp, hrunning⟩
  | @store v hr =>
    obtain ⟨hclock, hnone⟩ := hprompt.2 rfl
    refine ⟨fun _ => Option.some.inj (hr.symm.trans hclock), ?_⟩
    intro running hpc
    cases hnone.symm.trans hpc
  | wake hp | back hp ht | set hp =>
    refine ⟨htimestamp, ?_⟩
    intro running h0
    cases h0
  | readTimestamp hp =>
    refine ⟨htimestamp, ?_⟩
    intro running h0
    cases h0
    exact htimestamp (hprompt.1 rfl)
  | readClock hp | expired hp ht =>
    rw [hp] at hrunning
    exact ⟨htimestamp, hrunning⟩

/-- **A prompt run** never goes by an old timestamp. -/
theorem fresh_of_prompt (hs : (watch timeoutWorker).init s)
    (h : ((watch timeoutWorker).restrict Prompt).Run s as t) :
    ((watch timeoutWorker).restrict Fresh).Run s as t := by
  have hexact : s.Exact := by
    obtain ⟨-, -, -, -, hpc, -, hstored, -⟩ := hs
    refine ⟨fun h0 => ?_, fun running h0 => ?_⟩
    · cases hstored.symm.trans h0
    · rw [hpc] at h0
      cases h0
  clear hs
  induction h with
  | nil s => exact .nil s
  | cons hstep _ ih =>
    refine .cons ⟨hstep.1, ?_⟩ (ih (exact_step hexact hstep.1 hstep.2))
    intro _ running hrunning
    exact Int.le_of_eq (hexact.running_eq running hrunning).symm

end Runs

/-- A watchdog of 5 seconds, created at the time 1000; the memory holds zeros. -/
def zeroed : Watch := ⟨1000, ⟨0, 5, 0⟩, watchTower, .asleep, none, false, 1000, none⟩

theorem zeroed_init : (watch 5).init zeroed :=
  ⟨by decide, by decide, rfl, rfl, rfl, rfl, rfl, rfl, rfl⟩

/-- The reader stores the time 1000, and the watchdog wakes up at 1006. -/
theorem watchdog_late_six : ∃ s, (watch 5).Reachable s ∧ s.workerAwaitFlag = watchOver ∧
    s.Late 5 := by
  have hother : ∀ s event t, event ≠ .readTimestamp → event ≠ .store → Prompt s event t :=
    fun s event t hr hs => ⟨fun h0 => absurd h0 hr, fun h0 => absurd h0 hs⟩
  have hrun : ((watch 5).restrict Prompt).Run zeroed
      [.time, .store, .tick 1006, .wake, .readTimestamp, .readClock, .compare, .set] _ :=
    .cons ⟨.time rfl, hother _ _ _ (by decide) (by decide)⟩ <|
      .cons ⟨.store rfl, fun h0 => (by cases h0), fun _ => ⟨rfl, rfl⟩⟩ <|
      .cons ⟨.tick (by decide) (by decide), hother _ _ _ (by decide) (by decide)⟩ <|
      .cons ⟨.wake rfl, hother _ _ _ (by decide) (by decide)⟩ <|
      .cons ⟨.readTimestamp rfl, fun _ => rfl, fun h0 => by cases h0⟩ <|
      .cons ⟨.readClock rfl, hother _ _ _ (by decide) (by decide)⟩ <|
      .cons ⟨.expired rfl rfl, hother _ _ _ (by decide) (by decide)⟩ <|
      .cons ⟨.set rfl, hother _ _ _ (by decide) (by decide)⟩ <| .nil _
  have hfresh := fresh_of_prompt zeroed_init hrun
  exact ⟨_, ⟨zeroed, _, zeroed_init, hfresh.of_restrict⟩, rfl,
    watchdog_late ⟨zeroed, _, zeroed_init, hfresh⟩⟩

/-- The watchdog wakes up before the reader has stored anything, and at once ends the job. -/
theorem watchdog_early : ¬ ∀ timeoutWorker s, 0 ≤ timeoutWorker →
    (watch timeoutWorker).Reachable s → s.Late timeoutWorker := by
  intro hall
  have hrun : (watch 5).Run zeroed [.wake, .readTimestamp, .readClock, .compare, .set] _ :=
    .cons (.wake rfl) <| .cons (.readTimestamp rfl) <| .cons (.readClock rfl) <|
      .cons (.expired rfl rfl) <| .cons (.set rfl) <| .nil _
  obtain ⟨waited, hwaited, hlt⟩ := hall 5 _ (by decide) ⟨zeroed, _, zeroed_init, hrun⟩ rfl
  cases hwaited
  exact absurd hlt (by decide)

end Heimdall.Worker
