import Heimdall.Worker.Watchdog

/-!
# The sleep of the watchdog (`watchdog.c`)

Between two looks at the timestamp `enable_watchdog` sleeps for `killer_time` nanoseconds. It asks
`nanosleep` for `killer_time / 1000000000` seconds and `killer_time` nanoseconds, and after an
interruption for the nanoseconds that are left, with the same seconds. `nanosleep` refuses
nanoseconds that are not below a second, and then leaves the remaining time as it is.

Below a second this sleeps for the whole time, however often it is interrupted. From a second on the
first request is refused already (`sleepsWhole_iff`).
-/

namespace Heimdall.Worker

structure Timespec where
  tvSec : Int
  tvNsec : Int
  deriving DecidableEq, Repr

namespace Timespec

/-- What `nanosleep` accepts. -/
def Valid (t : Timespec) : Prop := 0 ≤ t.tvSec ∧ 0 ≤ t.tvNsec ∧ t.tvNsec < 1000000000

instance (t : Timespec) : Decidable t.Valid := inferInstanceAs (Decidable (_ ∧ _))

def nanos (t : Timespec) : Int := t.tvSec * 1000000000 + t.tvNsec

/-- How the kernel writes a number of nanoseconds. -/
def ofNanos (n : Int) : Timespec := ⟨n / 1000000000, n % 1000000000⟩

end Timespec

/-- The locals of `enable_watchdog`. `slept` is how long this cycle has slept, and `awake` says that
`nanosleep` has returned 0; the memory that `rem_time` leads to may hold anything at first. -/
structure Cycle where
  reqTime : Timespec
  remTime : Timespec
  slept : Int
  awake : Bool
  deriving DecidableEq, Repr

/-- What is asked for at the beginning of a cycle. -/
def request (killerTime : Int) : Timespec := ⟨killerTime.tdiv 1000000000, killerTime⟩

/-- After an error: the nanoseconds of `rem_time` are asked for next. -/
def Cycle.again (s : Cycle) : Cycle :=
  { s with reqTime := { s.reqTime with tvNsec := s.remTime.tvNsec } }

/-- A call of `nanosleep` is interrupted, refused, or returns; and the watchdog begins another
cycle. -/
inductive CycleEvent
  | interrupted (elapsed : Int)
  | refused
  | slept
  | cycle
  deriving DecidableEq

inductive CycleStep (killerTime : Int) : Cycle → CycleEvent → Cycle → Prop
  | interrupted {s : Cycle} {elapsed : Int} (ha : s.awake = false) (hv : s.reqTime.Valid)
      (h0 : 0 ≤ elapsed) (hle : elapsed ≤ s.reqTime.nanos) :
      CycleStep killerTime s (.interrupted elapsed) ({ s with
        remTime := .ofNanos (s.reqTime.nanos - elapsed)
        slept := s.slept + elapsed } : Cycle).again
  /-- `EINVAL`. -/
  | refused {s : Cycle} (ha : s.awake = false) (hv : ¬ s.reqTime.Valid) :
      CycleStep killerTime s .refused s.again
  | slept {s : Cycle} (ha : s.awake = false) (hv : s.reqTime.Valid) :
      CycleStep killerTime s .slept { s with slept := s.slept + s.reqTime.nanos, awake := true }
  | cycle {s : Cycle} (ha : s.awake = true) :
      CycleStep killerTime s .cycle { s with
        reqTime := request killerTime
        slept := 0
        awake := false }

def sleeping (killerTime : Int) : System Cycle CycleEvent where
  init s := s.reqTime = request killerTime ∧ s.slept = 0 ∧ s.awake = false
  step := CycleStep killerTime

/-- Whatever interrupts it, all that is passed to `nanosleep` is valid, and before each look at the
timestamp the watchdog has slept for `killerTime` nanoseconds. -/
def SleepsWhole (killerTime : Int) : Prop :=
  ∀ s, (sleeping killerTime).Reachable s →
    s.reqTime.Valid ∧ (s.awake = true → s.slept = killerTime)

section Sleep

variable {k : Int} {s t : Cycle} {event : CycleEvent}

/-- Below a second: no seconds are asked for, and what has been slept and what is asked for are
together the whole time. -/
structure Cycle.Whole (k : Int) (s : Cycle) : Prop where
  sec_eq : s.reqTime.tvSec = 0
  valid : s.reqTime.Valid
  left : s.awake = false → s.slept + s.reqTime.tvNsec = k
  whole : s.awake = true → s.slept = k

theorem Cycle.Whole.nanos_eq (h : s.Whole k) : s.reqTime.nanos = s.reqTime.tvNsec := by
  unfold Timespec.nanos
  rw [h.sec_eq]
  omega

theorem request_valid (h0 : 0 ≤ k) (hk : k < 1000000000) :
    (request k).tvSec = 0 ∧ (request k).Valid := by
  have hsec : k.tdiv 1000000000 = 0 := Int.tdiv_eq_zero_of_lt h0 hk
  exact ⟨hsec, Int.le_of_eq hsec.symm, h0, hk⟩

theorem whole_init (h0 : 0 ≤ k) (hk : k < 1000000000) (hs : (sleeping k).init s) :
    s.Whole k := by
  obtain ⟨hreq, hslept, hawake⟩ := hs
  obtain ⟨hsec, hvalid⟩ := request_valid h0 hk
  refine ⟨hreq ▸ hsec, hreq ▸ hvalid, ?_, ?_⟩
  · intro _
    rw [hreq, hslept]
    exact Int.zero_add k
  · intro h
    cases hawake.symm.trans h

/-- The step lemma: what is left after an interruption is less than a second again. -/
theorem whole_step (h0 : 0 ≤ k) (hk : k < 1000000000) (h : s.Whole k)
    (hstep : CycleStep k s event t) : t.Whole k := by
  have hnanos := h.nanos_eq
  obtain ⟨hsec, hvalid, hleft, hwhole⟩ := h
  cases hstep with
  | @interrupted elapsed ha hv he hle =>
    obtain ⟨-, hn0, hn⟩ := hvalid
    have hrem : (s.reqTime.nanos - elapsed) % 1000000000 = s.reqTime.tvNsec - elapsed := by
      rw [hnanos]
      exact Int.emod_eq_of_lt (by omega) (by omega)
    rw [hnanos] at hle
    refine ⟨hsec, ⟨Int.le_of_eq hsec.symm, ?_, ?_⟩, ?_, ?_⟩
    · change 0 ≤ (s.reqTime.nanos - elapsed) % 1000000000
      omega
    · change (s.reqTime.nanos - elapsed) % 1000000000 < 1000000000
      omega
    · intro _
      change s.slept + elapsed + (s.reqTime.nanos - elapsed) % 1000000000 = k
      have := hleft ha
      omega
    · intro hawake
      cases ha.symm.trans hawake
  | refused ha hv => exact absurd hvalid hv
  | slept ha hv =>
    refine ⟨hsec, hvalid, fun hawake => (by cases hawake), fun _ => ?_⟩
    rw [hnanos]
    exact hleft ha
  | cycle ha =>
    obtain ⟨hsec', hvalid'⟩ := request_valid h0 hk
    exact ⟨hsec', hvalid', fun _ => Int.zero_add k, fun hawake => by cases hawake⟩

/-- Exactly below a second. -/
theorem sleepsWhole_of_nonneg (h0 : 0 ≤ k) : SleepsWhole k ↔ k < 1000000000 := by
  constructor
  · intro h
    obtain ⟨⟨-, -, hlt⟩, -⟩ := h ⟨request k, ⟨0, 0⟩, 0, false⟩ (.of_init ⟨rfl, rfl, rfl⟩)
    exact hlt
  · intro hk s hs
    have hwhole : s.Whole k := by
      refine hs.invariant (Cycle.Whole k) ?_ ?_
      · intro s hinit
        exact whole_init h0 hk hinit
      · intro s event t hw hstep
        exact whole_step h0 hk hw hstep
    exact ⟨hwhole.valid, hwhole.whole⟩

/-- **The watchdog sleeps for the whole `killer_time`** that `detach_watchdog` has set, with valid
requests only, exactly when that is less than a second. -/
theorem sleepsWhole_iff (config : WatchdogConfig) (watchdog : Watchdog)
    (hpos : 0 ≤ (detachWatchdog config watchdog).2.killerTime) :
    SleepsWhole (detachWatchdog config watchdog).2.killerTime ↔
      (detachWatchdog config watchdog).2.killerTime < 1000000000 :=
  sleepsWhole_of_nonneg hpos

/-- Half a second, as in the configuration of the repository. -/
theorem sleepsWhole_half :
    SleepsWhole (detachWatchdog ⟨bytes "500000000", bytes "5"⟩ ⟨0, 0, 0⟩).2.killerTime :=
  (sleepsWhole_iff ⟨bytes "500000000", bytes "5"⟩ ⟨0, 0, 0⟩ (by decide)).2 (by decide)

/-- A second. -/
theorem sleepsWhole_second : ¬ ∀ config watchdog,
    (detachWatchdog config watchdog).1.isAnError = false →
    0 ≤ (detachWatchdog config watchdog).2.killerTime →
    SleepsWhole (detachWatchdog config watchdog).2.killerTime := by
  intro hall
  have h := hall ⟨bytes "1000000000", bytes "5"⟩ ⟨0, 0, 0⟩ (by decide) (by decide)
  have hinit : (sleeping 1000000000).init ⟨request 1000000000, ⟨0, 0⟩, 0, false⟩ :=
    ⟨rfl, rfl, rfl⟩
  obtain ⟨hvalid, -⟩ := h _ (.of_init hinit)
  exact absurd hvalid (by decide)

end Sleep

end Heimdall.Worker
