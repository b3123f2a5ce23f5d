import Heimdall.Worker.Pipeline

/-!
# The limit on request threads

Before it receives a request, `read_work` waits while `max_thr_request` is greater than
`max_thread_pchild`. The reader itself counts: it adds one for each thread that it has created, and
it is the only one that signals the condition. No request thread takes anything off the counter
when it finishes.

So the counter is the number of all requests of the connection, and the test lets one more pass than
the limit says. The limit is kept, and the reader goes on, exactly on connections of at most
`max_thread_pchild` requests (`limit_kept_iff`); after one request more the reader is held for good
(`held_for_good`).

The counter is 0 when a connection begins: `start_worker` resets it at the end of the one before. It
does so without the mutex, and the reader of that connection may still be running and add one
afterwards; such a leftover is not modelled.
-/

namespace Heimdall.Worker

/-- What `read_work` does next: the test of its wait loop, the wait in it, the new node, a request
for it and its thread, or the counter. -/
inductive ReaderPc
  | test
  | waits
  | enqueue
  | receive
  | count
  deriving DecidableEq

/-- `maxThrRequest` counts the request threads. -/
structure Limited where
  pipeline : Pipeline
  reader : ReaderPc
  maxThrRequest : Int

/-- The request thread has been created and has not finished. -/
def RequestPc.alive : RequestPc → Bool
  | .absent => false
  | .ready => true
  | .chunks => true
  | .done => false

/-- The number of request threads that are alive. -/
def Pipeline.alive (p : Pipeline) : Nat :=
  (List.range p.created).countP fun i => (p.nodes i).request.alive

namespace Limited

inductive Event
  | test
  | wake
  | enqueue
  | receive
  | count
  | relay (e : Worker.Event)

/-- The client sends `requests` requests; `maxThreadPchild` is the limit. -/
inductive Step (maxThreadPchild requests : Nat) (reply : Nat → Reply) :
    Limited → Event → Limited → Prop
  | testBusy {s : Limited} (hr : s.reader = .test) (hm : s.maxThrRequest > maxThreadPchild) :
      Step maxThreadPchild requests reply s .test { s with reader := .waits }
  | testFree {s : Limited} (hr : s.reader = .test) (hm : ¬ s.maxThrRequest > maxThreadPchild) :
      Step maxThreadPchild requests reply s .test { s with reader := .enqueue }
  /-- The wait ends, for whatever reason, and the test follows. -/
  | wake {s : Limited} (hr : s.reader = .waits) :
      Step maxThreadPchild requests reply s .wake { s with reader := .test }
  | enqueue {s : Limited} {p : Pipeline} (hr : s.reader = .enqueue)
      (hp : Pipeline.Step requests reply s.pipeline .enqueue p) :
      Step maxThreadPchild requests reply s .enqueue { s with pipeline := p, reader := .receive }
  | receive {s : Limited} {p : Pipeline} (hr : s.reader = .receive)
      (hp : Pipeline.Step requests reply s.pipeline .create p) :
      Step maxThreadPchild requests reply s .receive { s with pipeline := p, reader := .count }
  | count {s : Limited} (hr : s.reader = .count) :
      Step maxThreadPchild requests reply s .count { s with
        maxThrRequest := s.maxThrRequest + 1
        reader := .test }
  | relay {s : Limited} {e : Worker.Event} {p : Pipeline} (he : e.ofOthers = true)
      (hp : Pipeline.Step requests reply s.pipeline e p) :
      Step maxThreadPchild requests reply s (.relay e) { s with pipeline := p }

end Limited

def limited (maxThreadPchild requests : Nat) (reply : Nat → Reply) :
    System Limited Limited.Event where
  init s := ∃ mem : Nat → List Byte, s = ⟨Pipeline.start mem reply, .test, 0⟩
  step := Limited.Step maxThreadPchild requests reply

namespace Limited

/-- At most `maxThreadPchild` request threads are alive, and the reader is held back only when so
many are. -/
def Kept (maxThreadPchild : Nat) (s : Limited) : Prop :=
  s.pipeline.alive ≤ maxThreadPchild ∧ (s.reader = .waits → s.pipeline.alive = maxThreadPchild)

/-- The thread that the reader has created and not counted. -/
def uncounted (s : Limited) : Nat := if s.reader = .count then 1 else 0

/-- The counter is the number of all threads that have been created. -/
structure Counted (maxThreadPchild requests : Nat) (s : Limited) : Prop where
  counter : s.maxThrRequest + s.uncounted = s.pipeline.created
  created_le : s.pipeline.created ≤ requests
  busy : s.reader = .waits → s.maxThrRequest > maxThreadPchild

theorem alive_le (p : Pipeline) : p.alive ≤ p.created := by
  have h : p.alive ≤ (List.range p.created).length := List.countP_le_length
  rwa [List.length_range] at h

section Steps

variable {maxThreadPchild requests : Nat} {reply : Nat → Reply} {s t : Limited} {event : Event}

theorem counted_init (h : (limited maxThreadPchild requests reply).init s) :
    s.Counted maxThreadPchild requests := by
  obtain ⟨mem, rfl⟩ := h
  refine ⟨rfl, Nat.zero_le _, ?_⟩
  intro h0
  cases h0

/-- **The step lemma** for the counter. -/
theorem counted_step (h : s.Counted maxThreadPchild requests)
    (hstep : Step maxThreadPchild requests reply s event t) :
    t.Counted maxThreadPchild requests := by
  obtain ⟨hc, hle, hbusy⟩ := h
  cases hstep with
  | testBusy hr hm =>
    simp only [uncounted, hr, reduceCtorEq, if_false] at hc
    exact ⟨hc, hle, fun _ => hm⟩
  | testFree hr hm =>
    simp only [uncounted, hr, reduceCtorEq, if_false] at hc
    refine ⟨hc, hle, ?_⟩
    intro h0
    cases h0
  | wake hr =>
    simp only [uncounted, hr, reduceCtorEq, if_false] at hc
    refine ⟨hc, hle, ?_⟩
    intro h0
    cases h0
  | enqueue hr hp =>
    simp only [uncounted, hr, reduceCtorEq, if_false] at hc
    cases hp
    refine ⟨hc, hle, ?_⟩
    intro h0
    cases h0
  | receive hr hp =>
    simp only [uncounted, hr, reduceCtorEq, if_false] at hc
    cases hp with
    | create hen hlt =>
      refine ⟨?_, hlt, ?_⟩
      · change s.maxThrRequest + (1 : Nat) = ((s.pipeline.created + 1 : Nat) : Int)
        omega
      · intro h0
        cases h0
  | count hr =>
    simp only [uncounted, hr, if_true] at hc
    refine ⟨?_, hle, ?_⟩
    · change s.maxThrRequest + 1 + (0 : Nat) = (s.pipeline.created : Int)
      omega
    · intro h0
      cases h0
  | relay he hp =>
    have hcreated := Pipeline.created_eq he hp
    refine ⟨?_, ?_, hbusy⟩
    · exact hc.trans (congrArg Nat.cast hcreated.symm)
    · rw [hcreated]
      exact hle

theorem counted_reachable (h : (limited maxThreadPchild requests reply).Reachable s) :
    s.Counted maxThreadPchild requests := by
  apply h.invariant (Counted maxThreadPchild requests)
  · intro s hs
    exact counted_init hs
  · intro s event t hs hstep
    exact counted_step hs hstep

theorem Counted.kept (h : s.Counted maxThreadPchild requests) (hle : requests ≤ maxThreadPchild) :
    s.Kept maxThreadPchild := by
  obtain ⟨hc, hcreated, hbusy⟩ := h
  refine ⟨(alive_le s.pipeline).trans (hcreated.trans hle), ?_⟩
  intro hw
  have hlt := hbusy hw
  omega

/-- As many threads as the limit, and one more, can be alive at the same time. The induction is on
the threads that are. -/
theorem exists_alive (maxThreadPchild requests : Nat) (reply : Nat → Reply) {k : Nat}
    (hk : k ≤ maxThreadPchild + 1) (hr : k ≤ requests) :
    ∃ s, (limited maxThreadPchild requests reply).Reachable s ∧ s.reader = .test ∧
      s.maxThrRequest = k ∧ s.pipeline.created = k ∧ s.pipeline.enqueued = k ∧
      ∀ i, i < k → (s.pipeline.nodes i).request = .ready := by
  induction k with
  | zero =>
    refine ⟨_, .of_init ⟨fun _ => [], rfl⟩, rfl, rfl, rfl, rfl, ?_⟩
    intro i hi
    exact absurd hi (Nat.not_lt_zero i)
  | succ k ih =>
    obtain ⟨s, hs, htest, hcounter, hcreated, henq, hready⟩ := ih (by omega) (by omega)
    have hfree := hs.step (.testFree htest (by omega))
    have hnode := hfree.step (.enqueue rfl (.enqueue (henq.trans hcreated.symm)))
    have hthread := hnode.step (.receive rfl (.create (congrArg (· + 1) (henq.trans hcreated.symm))
      (by
        change s.pipeline.created < requests
        omega)))
    refine ⟨_, hthread.step (.count rfl), rfl, ?_, ?_, ?_, ?_⟩
    · change s.maxThrRequest + 1 = ((k + 1 : Nat) : Int)
      omega
    · exact congrArg (· + 1) hcreated
    · exact congrArg (· + 1) henq
    · intro i hi
      change (Function.update s.pipeline.nodes s.pipeline.created _ i).request = .ready
      by_cases hik : i = s.pipeline.created
      · subst hik
        rw [Function.update_self]
      · rw [Function.update_of_ne hik]
        exact hready i (by omega)

theorem alive_eq {p : Pipeline} (h : ∀ i, i < p.created → (p.nodes i).request = .ready) :
    p.alive = p.created := by
  have hall : ∀ i ∈ List.range p.created, (p.nodes i).request.alive = true := by
    intro i hi
    rw [h i (List.mem_range.1 hi)]
    rfl
  exact (List.countP_eq_length.2 hall).trans List.length_range

/-- The reader is held back by its counter. -/
def Held (maxThreadPchild created : Nat) (s : Limited) : Prop :=
  s.maxThrRequest > maxThreadPchild ∧ (s.reader = .waits ∨ s.reader = .test) ∧
    s.pipeline.created = created

theorem held_step {created : Nat} (h : s.Held maxThreadPchild created)
    (hstep : Step maxThreadPchild requests reply s event t) : t.Held maxThreadPchild created := by
  obtain ⟨hm, hr, hc⟩ := h
  cases hstep with
  | testBusy => exact ⟨hm, .inl rfl, hc⟩
  | testFree hr' hfree => exact absurd hm hfree
  | wake => exact ⟨hm, .inr rfl, hc⟩
  | enqueue hr' | receive hr' | count hr' =>
    rw [hr'] at hr
    rcases hr with h0 | h0 <;> cases h0
  | relay he hp => exact ⟨hm, hr, (Pipeline.created_eq he hp).trans hc⟩

end Steps

end Limited

/-- **Held for good**: once the reader waits, it receives no further request, whatever the request
threads do, and even when all of them have finished. -/
theorem held_for_good {maxThreadPchild requests : Nat} {reply : Nat → Reply} {s t : Limited}
    {events : List Limited.Event} (h : (limited maxThreadPchild requests reply).Reachable s)
    (hw : s.reader = .waits) (hr : (limited maxThreadPchild requests reply).Run s events t) :
    t.pipeline.created = s.pipeline.created := by
  have hcounted := Limited.counted_reachable h
  have hheld := hr.invariant (Limited.Held maxThreadPchild s.pipeline.created)
    (fun _ _ _ hs hstep => Limited.held_step hs hstep) ⟨hcounted.busy hw, .inl hw, rfl⟩
  exact hheld.2.2

/-- **The limit is kept, and the reader is held back only at the limit,** in every run, exactly when
no more requests than the limit come in on the connection. -/
theorem limit_kept_iff (maxThreadPchild requests : Nat) (reply : Nat → Reply) :
    (∀ s, (limited maxThreadPchild requests reply).Reachable s → s.Kept maxThreadPchild) ↔
      requests ≤ maxThreadPchild := by
  constructor
  · intro hall
    refine Classical.byContradiction fun hlt => ?_
    obtain ⟨s, hs, -, -, hcreated, -, hready⟩ := Limited.exists_alive maxThreadPchild
      requests reply (Nat.le_refl (maxThreadPchild + 1)) (by omega)
    have hkept := (hall s hs).1
    rw [Limited.alive_eq (fun i hi => hready i (hcreated ▸ hi)), hcreated] at hkept
    omega
  · intro hle s hs
    exact (Limited.counted_reachable hs).kept hle

/-- The limit is one thread, and two are alive. -/
theorem limit_passed : ¬∀ (maxThreadPchild requests : Nat) (reply : Nat → Reply) (s : Limited),
    1 ≤ maxThreadPchild → (limited maxThreadPchild requests reply).Reachable s →
      s.Kept maxThreadPchild := by
  intro h
  obtain ⟨s, hs, -, -, hcreated, -, hready⟩ := Limited.exists_alive 1 2
    (fun _ => shortReply.reply) (Nat.le_refl 2) (by omega)
  have hkept := (h 1 2 _ s (by omega) hs).1
  rw [Limited.alive_eq (fun i hi => hready i (hcreated ▸ hi)), hcreated] at hkept
  omega

end Heimdall.Worker
