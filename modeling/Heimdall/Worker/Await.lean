import Mathlib.Logic.Function.Basic
import Heimdall.Lib.System

/-!
# The end of a job (`worker.c`, `watchdog.c`)

`start_worker` waits in a condition loop while `worker_await_flag` is `WATCH_TOWER`. The watchdog
and the reader end the job: each stores `WATCH_OVER` and then signals the condition, and neither
takes the mutex that guards the test. The mutex is free whenever `start_worker` asks for it, since
nobody else does; it holds it from the lock or the return of the wait to the next wait or unlock.

A signal is lost when it comes between the test and the wait (`signal_lost`). In runs in which no
signal does, `start_worker` is never left blocked (`released_iff_heard`).
-/

namespace Heimdall.Worker.Await

def watchOver : Nat := 42

def watchTower : Nat := 24

/-- What `start_worker` does next. `blocked`: it is in `pthread_cond_wait`, and no signal has woken
it; `woken`: one has, and it asks for the mutex. -/
inductive AwaitPc
  | lock
  | test
  | wait
  | blocked
  | woken
  | unlock
  | over
  deriving DecidableEq

inductive Ender
  | watchdog
  | reader
  deriving DecidableEq

/-- How far a thread is that ends the job. -/
inductive EnderPc
  | working
  | stored
  | signalled
  deriving DecidableEq

structure State where
  flag : Nat
  worker : AwaitPc
  ender : Ender → EnderPc

inductive Event
  | lock
  | test
  | wait
  | wake
  | unlock
  | store (thread : Ender)
  | signal (thread : Ender)
  deriving DecidableEq

inductive Step : State → Event → State → Prop
  | lock {s : State} (hw : s.worker = .lock) : Step s .lock { s with worker := .test }
  | testTower {s : State} (hw : s.worker = .test) (hf : s.flag = watchTower) :
      Step s .test { s with worker := .wait }
  | testOver {s : State} (hw : s.worker = .test) (hf : s.flag ≠ watchTower) :
      Step s .test { s with worker := .unlock }
  | wait {s : State} (hw : s.worker = .wait) : Step s .wait { s with worker := .blocked }
  | wake {s : State} (hw : s.worker = .woken) : Step s .wake { s with worker := .test }
  | unlock {s : State} (hw : s.worker = .unlock) : Step s .unlock { s with worker := .over }
  | store {s : State} {thread : Ender} (he : s.ender thread = .working) :
      Step s (.store thread) { s with
        flag := watchOver
        ender := Function.update s.ender thread .stored }
  | signal {s : State} {thread : Ender} (he : s.ender thread = .stored) :
      Step s (.signal thread) { s with
        worker := if s.worker = .blocked then .woken else s.worker
        ender := Function.update s.ender thread .signalled }

/-- A connection job, as `new_worker` has set it up. -/
def job : System State Event where
  init s := s = ⟨watchTower, .lock, fun _ => .working⟩
  step := Step

/-- The job is over, a thread that has stored it has also signalled it, and `start_worker` is
blocked. -/
def State.Stuck (s : State) : Prop :=
  s.flag = watchOver ∧ (∃ thread, s.ender thread = .signalled) ∧ s.worker = .blocked

/-- No signal comes when `start_worker` has found `WATCH_TOWER` and is not yet in the wait. -/
def Heard (s : State) (event : Event) (_ : State) : Prop :=
  ∀ thread, event = .signal thread → s.worker ≠ .wait

/-- Who is no longer working has stored `WATCH_OVER`. -/
def State.Stored (s : State) : Prop := ∀ thread, s.ender thread ≠ .working → s.flag = watchOver

/-- Once a signal has been heard `start_worker` does not wait again. -/
def State.Released (s : State) : Prop :=
  ∀ thread, s.ender thread = .signalled → s.worker ≠ .wait ∧ s.worker ≠ .blocked

section Steps

variable {s t : State} {event : Event}

theorem stored_step (h : s.Stored) (hstep : Step s event t) : t.Stored := by
  cases hstep with
  | lock | testTower | testOver | wait | wake | unlock => exact h
  | store he =>
    intro other _
    rfl
  | @signal thread he =>
    intro other _
    apply h thread
    rw [he]
    exact EnderPc.noConfusion

theorem stored_reachable (h : job.Reachable s) : s.Stored := by
  apply h.invariant State.Stored
  · rintro s rfl thread h0
    exact absurd rfl h0
  · intro s event t hs hstep
    exact stored_step hs hstep

theorem released_step (hf : s.Stored) (h : s.Released) (hstep : Step s event t)
    (hg : Heard s event t) : t.Released := by
  cases hstep with
  | lock hw =>
    intro thread _
    exact ⟨AwaitPc.noConfusion, AwaitPc.noConfusion⟩
  | testTower hw htower =>
    -- nobody has signalled, for the flag is still up
    intro thread he
    have hover : s.flag = watchOver := by
      apply hf thread
      intro h0
      exact EnderPc.noConfusion (h0.symm.trans he)
    rw [htower] at hover
    exact absurd hover (by decide)
  | testOver hw hover =>
    intro thread _
    exact ⟨AwaitPc.noConfusion, AwaitPc.noConfusion⟩
  | wait hw =>
    intro thread he
    exact absurd hw (h thread he).1
  | wake hw =>
    intro thread _
    exact ⟨AwaitPc.noConfusion, AwaitPc.noConfusion⟩
  | unlock hw =>
    intro thread _
    exact ⟨AwaitPc.noConfusion, AwaitPc.noConfusion⟩
  | @store thread he =>
    intro other ho
    by_cases h0 : other = thread
    · subst h0
      change Function.update s.ender other .stored other = .signalled at ho
      rw [Function.update_self] at ho
      cases ho
    · apply h other
      change Function.update s.ender thread .stored other = .signalled at ho
      rwa [Function.update_of_ne h0] at ho
  | @signal thread he =>
    intro other _
    have hne := hg thread rfl
    by_cases hb : s.worker = .blocked
    · simp only [hb, if_true]
      exact ⟨AwaitPc.noConfusion, AwaitPc.noConfusion⟩
    · simp only [hb, if_false]
      exact ⟨hne, hb⟩

theorem released_reachable (h : (job.restrict Heard).Reachable s) : s.Released := by
  apply h.induct State.Released
  · rintro s rfl thread h0
    cases h0
  · intro s event t hr hs hstep
    exact released_step (stored_reachable hr.of_restrict) hs hstep.1 hstep.2

theorem not_stuck_of_heard (h : (job.restrict Heard).Reachable s) : ¬ s.Stuck := by
  rintro ⟨-, ⟨thread, he⟩, hb⟩
  exact (released_reachable h thread he).2 hb

/-- A signal that is not heard leaves `start_worker` blocked as soon as it waits. -/
theorem stuck_of_not_heard {thread : Ender} (hf : s.Stored) (hstep : Step s (.signal thread) t)
    (hw : s.worker = .wait) : ∃ u, Step t .wait u ∧ u.Stuck := by
  cases hstep with
  | signal he =>
    refine ⟨_, .wait ?_, ?_, ⟨thread, Function.update_self ..⟩, rfl⟩
    · simp [hw]
    · apply hf thread
      rw [he]
      exact EnderPc.noConfusion

end Steps

/-- **Ending a job releases the worker** in every run in which each signal is heard: `start_worker`
is never blocked once a thread that has stored `WATCH_OVER` has signalled it. And where the next
step is a signal that is not heard, `start_worker` blocks in the wait that follows; only the other
thread, when it ends the job as well, can still release it. -/
theorem released_iff_heard {s : State} (h : (job.restrict Heard).Reachable s) :
    ¬ s.Stuck ∧ ∀ event t, Step s event t →
      (Heard s event t ↔ ¬ t.Stuck ∧ ¬∃ u, Step t .wait u ∧ u.Stuck) := by
  refine ⟨not_stuck_of_heard h, ?_⟩
  intro event t hstep
  constructor
  · intro hg
    have ht : (job.restrict Heard).Reachable t := h.step ⟨hstep, hg⟩
    refine ⟨not_stuck_of_heard ht, ?_⟩
    rintro ⟨u, hu, hs⟩
    refine not_stuck_of_heard (ht.step ⟨hu, ?_⟩) hs
    intro thread h0
    cases h0
  · rintro ⟨-, ht⟩ thread rfl hw
    exact ht (stuck_of_not_heard (stored_reachable h.of_restrict) hstep hw)

/-- A worker with its threads. -/
def started : State := ⟨watchTower, .lock, fun _ => .working⟩

/-- The reader ends the job while `start_worker` waits. -/
theorem released_iff_heard_waiting :
    ∃ s, (job.restrict Heard).Reachable s ∧ s.ender .reader = .signalled ∧ s.worker = .woken ∧
      ¬ s.Stuck := by
  have hquiet : ∀ {s t : State} {event : Event}, s.worker ≠ .wait → Heard s event t := by
    intro s t event hw thread _
    exact hw
  have hnone : ∀ {s t : State}, Heard s .wait t := by
    intro s t thread h0
    cases h0
  have hr := System.Run.cons (M := job.restrict Heard) (s := started)
    ⟨Step.lock rfl, hquiet AwaitPc.noConfusion⟩ <|
    .cons ⟨Step.testTower rfl rfl, hquiet AwaitPc.noConfusion⟩ <|
    .cons ⟨Step.wait rfl, hnone⟩ <|
    .cons ⟨(Step.store rfl : Step _ (.store .reader) _), hquiet AwaitPc.noConfusion⟩ <|
    .cons ⟨(Step.signal rfl : Step _ (.signal .reader) _), hquiet AwaitPc.noConfusion⟩ <| .nil _
  have hs : (job.restrict Heard).Reachable _ := ⟨started, _, rfl, hr⟩
  exact ⟨_, hs, rfl, rfl, (released_iff_heard hs).1⟩

/-- `start_worker` finds `WATCH_TOWER`; the reader stores `WATCH_OVER` and signals; `start_worker`
goes into the wait. -/
theorem signal_lost : ¬∀ s, job.Reachable s → ¬ s.Stuck := by
  intro h
  have hr := System.Run.cons (M := job) (s := started) (Step.lock rfl) <|
    .cons (Step.testTower rfl rfl) <|
    .cons (Step.store rfl : Step _ (.store .reader) _) <|
    .cons (Step.signal rfl : Step _ (.signal .reader) _) <|
    .cons (Step.wait rfl) <| .nil _
  exact h _ ⟨started, _, rfl, hr⟩ ⟨rfl, ⟨.reader, rfl⟩, rfl⟩

end Heimdall.Worker.Await
