import Mathlib.Data.List.Basic
import Mathlib.Logic.Function.Basic
import Heimdall.Lib.System

/-!
# The dispatcher and the workers

`thread_pool_loop` takes a descriptor, picks an idle slot and marks it busy, and tries `send_fd`
until it succeeds. A worker goes round `receive_fd` and the connection it got: it removes its socket
path, binds it, listens, accepts, receives the descriptor, serves, removes the path and clears its
busy flag. The listeners of earlier rounds stay open.

A connection is made to whatever socket the path of the worker is bound to, and only while that
socket listens. `send_fd` fails where there is none to connect to, and where `sendmsg` fails; then
it leaves its end of the connection open, with nothing sent on it, and the next attempt makes a
second one. `sent` and `received` record the descriptors for which `send_fd` reported success and
those that `receive_fd` returned, worker by worker; no code reads them.

The stage of a worker (`Stage`) says how the three of busy flag, dispatcher and worker can stand to
each other. As long as no `sendmsg` fails, nothing is lost or doubled between them. The first time
that one fails, the worker takes the empty connection and waits for good in `recvmsg`, and what the
parent sends to it on the next one is lost (`handed_over`).
-/

namespace Heimdall.Pool

/-- What the socket path of a worker leads to: nothing, a file that an earlier process has left, or
the socket of a round, which may listen or not yet. -/
inductive Path
  | absent
  | stale
  | bound (round : Nat)
  | listening (round : Nat)
  deriving DecidableEq

inductive Pc
  | remove
  | bind
  | listen
  | accept
  | recvmsg (conn : Nat)
  | serve (fd : Nat)
  | unlink
  | release
  deriving DecidableEq

/-- `queue r` are the connections that wait at the listener of round `r`. -/
structure Worker where
  pc : Pc
  round : Nat
  path : Path
  queue : Nat → List Nat
  sent : List Nat
  received : List Nat

/-- The next step of a worker, unless it is blocked; `message` is what has been sent on a
connection. -/
def Worker.step (message : Nat → Option Nat) (x : Worker) : Option Worker :=
  match x.pc with
  | .remove => some { x with path := .absent, pc := .bind }
  | .bind =>
    if x.path = .absent then
      some { x with round := x.round + 1, path := .bound (x.round + 1), pc := .listen }
    else none
  | .listen => some { x with path := .listening x.round, pc := .accept }
  | .accept =>
    match x.queue x.round with
    | [] => none
    | conn :: rest =>
      some { x with queue := Function.update x.queue x.round rest, pc := .recvmsg conn }
  | .recvmsg conn =>
    match message conn with
    | none => none
    | some fd => some { x with received := x.received ++ [fd], pc := .serve fd }
  | .serve _ => some { x with pc := .unlink }
  | .unlink => some { x with path := .absent, pc := .release }
  | .release => some { x with pc := .remove }

inductive Dispatcher (n : Nat)
  | fetch
  | pick (fd : Nat)
  | connect (fd : Nat) (w : Fin n)
  | sendmsg (fd : Nat) (w : Fin n) (conn : Nat)
  | close (fd : Nat)

/-- The worker that the dispatcher is sending to. -/
def Dispatcher.target {n : Nat} : Dispatcher n → Option (Fin n)
  | .connect _ w => some w
  | .sendmsg _ w _ => some w
  | _ => none

structure State (n : Nat) where
  worker : Fin n → Worker
  busy : Fin n → Bool
  message : Nat → Option Nat
  nextConn : Nat
  dispatcher : Dispatcher n

inductive Event (n : Nat)
  | fetch (fd : Nat)
  | pick (w : Fin n)
  | refused
  | connect
  | sendmsg
  | notSent
  | close
  | worker (w : Fin n)
  deriving DecidableEq

inductive Step {n : Nat} : State n → Event n → State n → Prop
  | fetch {s : State n} {fd : Nat} (hd : s.dispatcher = .fetch) :
      Step s (.fetch fd) { s with dispatcher := .pick fd }
  | pick {s : State n} {fd : Nat} {w : Fin n} (hd : s.dispatcher = .pick fd)
      (hb : s.busy w = false) :
      Step s (.pick w) { s with
        busy := Function.update s.busy w true
        dispatcher := .connect fd w }
  /-- `send_fd` fails, and is tried again. -/
  | refused {s : State n} {fd : Nat} {w : Fin n} (hd : s.dispatcher = .connect fd w)
      (hp : ∀ r, (s.worker w).path ≠ .listening r) : Step s .refused s
  | connect {s : State n} {fd r : Nat} {w : Fin n} (hd : s.dispatcher = .connect fd w)
      (hp : (s.worker w).path = .listening r) :
      Step s .connect { s with
        worker := Function.update s.worker w { s.worker w with
          queue := Function.update (s.worker w).queue r ((s.worker w).queue r ++ [s.nextConn]) }
        nextConn := s.nextConn + 1
        dispatcher := .sendmsg fd w s.nextConn }
  | sendmsg {s : State n} {fd conn : Nat} {w : Fin n} (hd : s.dispatcher = .sendmsg fd w conn) :
      Step s .sendmsg { s with
        worker := Function.update s.worker w
          { s.worker w with sent := (s.worker w).sent ++ [fd] }
        message := Function.update s.message conn (some fd)
        dispatcher := .close fd }
  /-- `sendmsg` fails: `send_fd` returns with the connection open, and is tried again. -/
  | notSent {s : State n} {fd conn : Nat} {w : Fin n} (hd : s.dispatcher = .sendmsg fd w conn) :
      Step s .notSent { s with dispatcher := .connect fd w }
  | close {s : State n} {fd : Nat} (hd : s.dispatcher = .close fd) :
      Step s .close { s with dispatcher := .fetch }
  | worker {s : State n} {w : Fin n} {x : Worker}
      (hx : (s.worker w).step s.message = some x) :
      Step s (.worker w) { s with
        worker := Function.update s.worker w x
        busy := if (s.worker w).pc = .release then Function.update s.busy w false else s.busy }

/-- All workers have been created, none has served yet; a path may be left over from before. -/
def pool (n : Nat) : System (State n) (Event n) where
  init s := (∀ w, s.busy w = false ∧ ((s.worker w).path = .absent ∨ (s.worker w).path = .stale) ∧
      (s.worker w).pc = .remove ∧ (∀ r, (s.worker w).queue r = []) ∧ (s.worker w).sent = [] ∧
      (s.worker w).received = []) ∧
    (∀ c, s.message c = none) ∧ s.dispatcher = .fetch
  step := Step

/-- The runs in which no `sendmsg` fails. -/
def lossless (n : Nat) : System (State n) (Event n) :=
  (pool n).restrict fun _ e _ => e ≠ .notSent

/-! ## The stages of a worker -/

/-- Before a connection can have been accepted in the round. -/
def Pc.early : Pc → Bool
  | .remove => true
  | .bind => true
  | .listen => true
  | .accept => true
  | _ => false

/-- After the descriptor has been returned. -/
def Pc.late : Pc → Bool
  | .serve _ => true
  | .unlink => true
  | .release => true
  | _ => false

/-- The path, by what the worker does next. -/
def Worker.PathOk (x : Worker) : Prop :=
  match x.pc with
  | .remove => x.path = .absent ∨ x.path = .stale
  | .bind => x.path = .absent
  | .listen => x.path = .bound x.round
  | .accept => x.path = .listening x.round
  | .recvmsg _ => x.path = .listening x.round
  | .serve _ => x.path = .listening x.round
  | .unlink => x.path = .listening x.round
  | .release => x.path = .absent

/-- Nothing waits at the listeners of earlier rounds. -/
def Worker.OldEmpty (x : Worker) : Prop := ∀ r, r ≠ x.round → x.queue r = []

/-- The worker has the connection: it waits at the listener, or has been accepted. -/
def Worker.Has (x : Worker) (conn : Nat) : Prop :=
  x.pc = .accept ∧ x.queue x.round = [conn] ∨ x.pc = .recvmsg conn ∧ x.queue x.round = []

/-- The connection is the next that the worker accepts, or the one that it has accepted. -/
def Worker.Waits (x : Worker) (conn : Nat) : Prop :=
  x.pc = .accept ∧ (x.queue x.round).head? = some conn ∨ x.pc = .recvmsg conn

/-- The worker waits for a connection on which nothing will be sent any more. -/
structure Blocked {n : Nat} (s : State n) (w : Fin n) (dead : Nat) : Prop where
  waits : (s.worker w).Waits dead
  empty : s.message dead = none
  old : dead < s.nextConn
  left : ∀ fd v, s.dispatcher ≠ .sendmsg fd v dead

/-- How the busy flag, the dispatcher and the worker stand to each other; `failed` says that a
`sendmsg` may have failed. -/
inductive Stage {n : Nat} (failed : Prop) (s : State n) (w : Fin n) : Prop
  | idle (hb : s.busy w = false) (ht : s.dispatcher.target ≠ some w)
      (he : (s.worker w).pc.early = true) (hq : (s.worker w).queue (s.worker w).round = [])
      (hs : (s.worker w).sent = (s.worker w).received)
  | picked (hb : s.busy w = true) (fd : Nat) (hd : s.dispatcher = .connect fd w)
      (he : (s.worker w).pc.early = true) (hq : (s.worker w).queue (s.worker w).round = [])
      (hs : (s.worker w).sent = (s.worker w).received)
  | connected (hb : s.busy w = true) (fd conn : Nat) (hd : s.dispatcher = .sendmsg fd w conn)
      (hh : (s.worker w).Has conn) (hm : s.message conn = none) (hc : conn < s.nextConn)
      (hs : (s.worker w).sent = (s.worker w).received)
  | delivered (hb : s.busy w = true) (fd conn : Nat) (ht : s.dispatcher.target ≠ some w)
      (hh : (s.worker w).Has conn) (hm : s.message conn = some fd)
      (hs : (s.worker w).sent = (s.worker w).received ++ [fd])
  | served (hb : s.busy w = true) (ht : s.dispatcher.target ≠ some w)
      (hl : (s.worker w).pc.late = true) (hq : (s.worker w).queue (s.worker w).round = [])
      (hs : (s.worker w).sent = (s.worker w).received)
  | blocked (hf : failed) (hb : s.busy w = true) (dead : Nat) (h : Blocked s w dead)

/-- **What every step keeps.** -/
structure Invariant {n : Nat} (failed : Prop) (s : State n) : Prop where
  path : ∀ w, (s.worker w).PathOk
  stale : ∀ w, (s.worker w).OldEmpty
  fresh : ∀ c, s.nextConn ≤ c → s.message c = none
  sending : ∀ fd w c, s.dispatcher = .sendmsg fd w c → s.message c = none ∧ c < s.nextConn
  stage : ∀ w, Stage failed s w

/-! ## What a worker does, by its stage -/

section Workers

variable {message : Nat → Option Nat} {x y : Worker}

/-- The connections that wait at a listener of the worker, of whatever round. -/
def Worker.queued (x : Worker) : List Nat := (List.range (x.round + 1)).flatMap x.queue

/-- With the connection that has been accepted. -/
def Worker.connections (x : Worker) : List Nat :=
  match x.pc with
  | .recvmsg conn => x.queued ++ [conn]
  | _ => x.queued

/-- How many descriptors are queued for the worker or being served by it. -/
def Worker.holding (x : Worker) : Nat :=
  match x.pc with
  | .serve _ => x.connections.length + 1
  | _ => x.connections.length

/-- The descriptors that have been sent to the worker and that it has still to receive. -/
def Worker.pending (message : Nat → Option Nat) (x : Worker) : List Nat :=
  x.connections.filterMap message

/-- What a step of a worker keeps of its own: its path, and the emptiness of old queues. -/
theorem Worker.step_local (h : x.step message = some y) (hp : x.PathOk)
    (hstale : x.OldEmpty) (hq : x.pc = .bind → x.queue x.round = []) :
    y.PathOk ∧ y.OldEmpty := by
  unfold Worker.step at h
  unfold Worker.PathOk at hp
  cases hpc : x.pc with
  | remove =>
    simp only [hpc, Option.some.injEq] at h
    subst h
    exact ⟨rfl, hstale⟩
  | bind =>
    simp only [hpc] at h
    split at h
    · cases h
      refine ⟨rfl, fun r hr => ?_⟩
      by_cases hr' : r = x.round
      · rw [hr']
        exact hq hpc
      · exact hstale r hr'
    · cases h
  | listen =>
    simp only [hpc, Option.some.injEq] at h
    subst h
    exact ⟨rfl, hstale⟩
  | accept =>
    simp only [hpc] at h hp
    split at h
    · cases h
    · cases h
      refine ⟨hp, fun r hr => ?_⟩
      change Function.update x.queue x.round _ r = []
      rw [Function.update_of_ne hr]
      exact hstale r hr
  | recvmsg conn =>
    simp only [hpc] at h hp
    split at h
    · cases h
    · cases h
      exact ⟨hp, hstale⟩
  | serve fd =>
    simp only [hpc, Option.some.injEq] at h hp
    subst h
    exact ⟨hp, hstale⟩
  | unlink =>
    simp only [hpc, Option.some.injEq] at h
    subst h
    exact ⟨rfl, hstale⟩
  | release =>
    simp only [hpc, Option.some.injEq] at h hp
    subst h
    exact ⟨Or.inl hp, hstale⟩

theorem Worker.step_sent (h : x.step message = some y) : y.sent = x.sent := by
  unfold Worker.step at h
  split at h
  case h_2 | h_4 | h_5 =>
    split at h
    all_goals first | cases h; done | (cases h; rfl)
  all_goals
    cases h
    rfl

/-- Before it has a connection, a worker stays so, and its queue is empty. -/
theorem Worker.step_early (h : x.step message = some y) (he : x.pc.early = true)
    (hq : ∀ r, x.queue r = []) :
    y.pc.early = true ∧ (∀ r, y.queue r = []) ∧ y.received = x.received ∧
      x.pc ≠ .release := by
  unfold Worker.step at h
  cases hpc : x.pc with
  | remove | listen =>
    simp only [hpc, Option.some.injEq] at h
    subst h
    exact ⟨rfl, hq, rfl, Pc.noConfusion⟩
  | bind =>
    simp only [hpc] at h
    split at h
    · cases h
      exact ⟨rfl, hq, rfl, Pc.noConfusion⟩
    · cases h
  | accept =>
    simp only [hpc, hq] at h
    cases h
  | recvmsg | serve | unlink | release =>
    rw [hpc] at he
    cases he

/-- A worker that has a connection accepts it, and then receives what has been sent on it. -/
theorem Worker.step_has {conn : Nat} (h : x.step message = some y) (hx : x.Has conn) :
    x.pc = .accept ∧ y.pc = .recvmsg conn ∧ y.queue y.round = [] ∧ y.received = x.received ∨
      ∃ fd, x.pc = .recvmsg conn ∧ message conn = some fd ∧ y.pc = .serve fd ∧
        y.queue = x.queue ∧ y.round = x.round ∧ y.received = x.received ++ [fd] := by
  unfold Worker.step at h
  rcases hx with ⟨hpc, hq⟩ | ⟨hpc, hq⟩
  · left
    simp only [hpc, hq, Option.some.injEq] at h
    subst h
    refine ⟨hpc, rfl, ?_, rfl⟩
    exact Function.update_self ..
  · right
    simp only [hpc] at h
    split at h
    · cases h
    · next fd hm =>
      cases h
      exact ⟨fd, hpc, hm, rfl, rfl, rfl, rfl⟩

/-- After the descriptor has been returned, a worker serves it, and starts over. -/
theorem Worker.step_late (h : x.step message = some y) (hl : x.pc.late = true) :
    y.queue = x.queue ∧ y.round = x.round ∧ y.received = x.received ∧
      (x.pc = .release ∧ y.pc = .remove ∨ x.pc ≠ .release ∧ y.pc.late = true) := by
  unfold Worker.step at h
  cases hpc : x.pc with
  | serve | unlink =>
    simp only [hpc, Option.some.injEq] at h
    subst h
    exact ⟨rfl, rfl, rfl, .inr ⟨Pc.noConfusion, rfl⟩⟩
  | release =>
    simp only [hpc, Option.some.injEq] at h
    subst h
    exact ⟨rfl, rfl, rfl, .inl ⟨rfl, rfl⟩⟩
  | remove | bind | listen | accept | recvmsg =>
    rw [hpc] at hl
    cases hl

theorem Worker.step_received (h : x.step message = some y) : x.received <+: y.received := by
  unfold Worker.step at h
  split at h
  case h_2 | h_4 =>
    split at h
    all_goals first | cases h; done | (cases h; exact List.prefix_rfl)
  case h_5 =>
    split at h
    · cases h
    · cases h
      exact List.prefix_append ..
  all_goals
    cases h
    exact List.prefix_rfl

theorem Worker.Has.unique {c d : Nat} (hc : x.Has c) (hd : x.Has d) : c = d := by
  rcases hc with ⟨hp, hq⟩ | ⟨hp, -⟩
  · rcases hd with ⟨-, hq'⟩ | ⟨hp', -⟩
    · simpa using hq.symm.trans hq'
    · exact Pc.noConfusion (hp.symm.trans hp')
  · rcases hd with ⟨hp', -⟩ | ⟨hp', -⟩
    · exact Pc.noConfusion (hp'.symm.trans hp)
    · simpa using hp.symm.trans hp'

theorem Worker.Has.waits {c : Nat} (h : x.Has c) : x.Waits c := by
  rcases h with ⟨hp, hq⟩ | ⟨hp, -⟩
  · exact .inl ⟨hp, by rw [hq]; rfl⟩
  · exact .inr hp

theorem Worker.Waits.unique {c d : Nat} (hc : x.Waits c) (hd : x.Waits d) : c = d := by
  rcases hc with ⟨hp, hq⟩ | hp
  · rcases hd with ⟨-, hq'⟩ | hp'
    · exact Option.some.inj (hq.symm.trans hq')
    · exact Pc.noConfusion (hp.symm.trans hp')
  · rcases hd with ⟨hp', -⟩ | hp'
    · exact Pc.noConfusion (hp'.symm.trans hp)
    · exact Pc.recvmsg.inj (hp.symm.trans hp')

theorem Worker.Waits.pc_ne {c : Nat} (h : x.Waits c) : x.pc ≠ .release := by
  intro h0
  rcases h with ⟨hp, -⟩ | hp <;> cases h0.symm.trans hp

/-- A worker that waits for an empty connection accepts it, and gets no further. -/
theorem Worker.step_waits {c : Nat} (h : x.step message = some y) (hx : x.Waits c)
    (hm : message c = none) : y.Waits c ∧ y.received = x.received := by
  unfold Worker.step at h
  rcases hx with ⟨hpc, hq⟩ | hpc
  · simp only [hpc] at h
    cases hqueue : x.queue x.round with
    | nil =>
      rw [hqueue] at hq
      cases hq
    | cons conn rest =>
      rw [hqueue] at hq
      obtain rfl := Option.some.inj hq
      simp only [hqueue, Option.some.injEq] at h
      subst h
      exact ⟨.inr rfl, rfl⟩
  · simp only [hpc, hm] at h
    cases h

/-- A new connection queues behind. -/
theorem Worker.Waits.queue {c : Nat} (h : x.Waits c) (r conn : Nat) :
    Worker.Waits { x with queue := Function.update x.queue r (x.queue r ++ [conn]) } c := by
  rcases h with ⟨hpc, hq⟩ | hpc
  · refine .inl ⟨hpc, ?_⟩
    by_cases hr : x.round = r
    · subst hr
      simp [hq]
    · simpa [Function.update_of_ne hr] using hq
  · exact .inr hpc

theorem Worker.queued_eq (hstale : x.OldEmpty) : x.queued = x.queue x.round := by
  have hold : (List.range x.round).flatMap x.queue = [] := by
    apply List.flatMap_eq_nil_iff.2
    intro r hr
    exact hstale r (Nat.ne_of_lt (List.mem_range.1 hr))
  rw [Worker.queued, List.range_succ, List.flatMap_append, hold]
  simp

theorem Worker.Has.connections {conn : Nat} (h : x.Has conn) (hstale : x.OldEmpty) :
    x.connections = [conn] := by
  rcases h with ⟨hpc, hq⟩ | ⟨hpc, hq⟩
  · simp [Worker.connections, hpc, Worker.queued_eq hstale, hq]
  · simp [Worker.connections, hpc, Worker.queued_eq hstale, hq]

theorem Worker.connections_nil (hpc : x.pc.early = true ∨ x.pc.late = true)
    (hq : x.queue x.round = []) (hstale : x.OldEmpty) : x.connections = [] := by
  unfold Worker.connections
  split
  · next conn h =>
    rw [h] at hpc
    rcases hpc with hpc | hpc <;> cases hpc
  · rw [Worker.queued_eq hstale, hq]

theorem Worker.holding_le (h : x.connections.length ≤ 1)
    (hs : x.pc.late = true → x.connections = []) : x.holding ≤ 1 := by
  unfold Worker.holding
  split
  · next fd hpc =>
    rw [hs (by rw [hpc]; rfl)]
    exact Nat.le_refl 1
  · exact h

end Workers

section Steps

variable {n : Nat} {failed : Prop} {s t : State n} {e : Event n}

theorem invariant_init (h : (pool n).init s) : Invariant failed s := by
  obtain ⟨hw, hm, hd⟩ := h
  refine ⟨fun w => ?_, fun w r _ => (hw w).2.2.2.1 r, fun c _ => hm c, fun fd w c h0 => ?_,
    fun w => ?_⟩
  · obtain ⟨-, hp, hpc, -⟩ := hw w
    unfold Worker.PathOk
    rw [hpc]
    exact hp
  · cases hd.symm.trans h0
  · obtain ⟨hb, -, hpc, hq, hs, hr⟩ := hw w
    refine .idle hb ?_ ?_ (hq _) (hs.trans hr.symm)
    · rw [hd]
      intro h0
      exact nomatch h0
    · rw [hpc]
      rfl

/-- A worker is blocked for good. -/
theorem Blocked.step {w : Fin n} {dead : Nat} (h : Blocked s w dead) (hs : Step s e t) :
    Blocked t w dead ∧ (t.worker w).received = (s.worker w).received := by
  obtain ⟨hw, hm, hc, hleft⟩ := h
  cases hs with
  | fetch | pick | close =>
    refine ⟨⟨hw, hm, hc, ?_⟩, rfl⟩
    intro _ _ h0
    cases h0
  | refused => exact ⟨⟨hw, hm, hc, hleft⟩, rfl⟩
  | notSent =>
    refine ⟨⟨hw, hm, hc, ?_⟩, rfl⟩
    intro _ _ h0
    cases h0
  | @connect fd r w' hd hp =>
    refine ⟨⟨?_, hm, Nat.lt_succ_of_lt hc, ?_⟩, ?_⟩
    · by_cases hww : w = w'
      · subst hww
        simpa using hw.queue r s.nextConn
      · simpa [hww] using hw
    · intro _ _ h0
      cases h0
      exact Nat.lt_irrefl _ hc
    · by_cases hww : w = w'
      · subst hww
        simp
      · simp [hww]
  | @sendmsg fd conn w' hd =>
    have hne : dead ≠ conn := by
      rintro rfl
      exact hleft _ _ hd
    refine ⟨⟨?_, (Function.update_of_ne hne ..).trans hm, hc, ?_⟩, ?_⟩
    · by_cases hww : w = w'
      · subst hww
        simpa [Worker.Waits] using hw
      · simpa [hww] using hw
    · intro _ _ h0
      cases h0
    · by_cases hww : w = w'
      · subst hww
        simp
      · simp [hww]
  | @worker w' x hx =>
    by_cases hww : w = w'
    · subst hww
      obtain ⟨hy, hry⟩ := Worker.step_waits hx hw hm
      refine ⟨⟨?_, hm, hc, hleft⟩, ?_⟩
      · simpa using hy
      · simpa using hry
    · refine ⟨⟨?_, hm, hc, hleft⟩, ?_⟩
      · simpa [hww] using hw
      · simp [hww]

theorem Blocked.run {w : Fin n} {dead : Nat} {es : List (Event n)} (h : Blocked s w dead)
    (hr : (pool n).Run s es t) : (t.worker w).received = (s.worker w).received := by
  refine (hr.invariant
    (fun u => Blocked u w dead ∧ (u.worker w).received = (s.worker w).received) ?_ ⟨h, rfl⟩).2
  rintro u e v ⟨hu, hreceived⟩ hs
  obtain ⟨hv, heq⟩ := hu.step hs
  exact ⟨hv, heq.trans hreceived⟩

/-- It stays busy: nobody picks it, and it does not come to its release. -/
theorem Blocked.busy {w : Fin n} {dead : Nat} (h : Blocked s w dead) (hs : Step s e t)
    (hb : s.busy w = true) : t.busy w = true := by
  cases hs with
  | fetch | refused | connect | sendmsg | notSent | close => exact hb
  | @pick fd w' hd hb' =>
    have hw : w ≠ w' := by
      rintro rfl
      rw [hb'] at hb
      cases hb
    exact (Function.update_of_ne hw ..).trans hb
  | @worker w' x hx =>
    dsimp only
    split
    · next hpc =>
      have hw : w ≠ w' := by
        rintro rfl
        exact h.waits.pc_ne hpc
      exact (Function.update_of_ne hw ..).trans hb
    · exact hb

/-- What the dispatcher relies on when it connects. -/
theorem Invariant.of_connect {fd : Nat} {w : Fin n} (hI : Invariant failed s)
    (hd : s.dispatcher = .connect fd w) (hnot : ∀ dead, ¬ Blocked s w dead) :
    s.busy w = true ∧ (s.worker w).pc.early = true ∧
      (s.worker w).queue (s.worker w).round = [] ∧ (s.worker w).sent = (s.worker w).received := by
  have htarget : s.dispatcher.target = some w := by rw [hd]; rfl
  cases hI.stage w with
  | idle _ ht => exact absurd htarget ht
  | picked hb fd' _ he hq hs => exact ⟨hb, he, hq, hs⟩
  | connected _ _ _ hd' =>
    rw [hd] at hd'
    cases hd'
  | delivered _ _ _ ht => exact absurd htarget ht
  | served _ ht => exact absurd htarget ht
  | blocked _ _ dead h => exact absurd h (hnot dead)

/-- What the dispatcher relies on when it sends. -/
theorem Invariant.of_sendmsg {fd conn : Nat} {w : Fin n} (hI : Invariant failed s)
    (hd : s.dispatcher = .sendmsg fd w conn) (hnot : ∀ dead, ¬ Blocked s w dead) :
    s.busy w = true ∧ (s.worker w).Has conn ∧ (s.worker w).sent = (s.worker w).received := by
  have htarget : s.dispatcher.target = some w := by rw [hd]; rfl
  cases hI.stage w with
  | idle _ ht => exact absurd htarget ht
  | picked _ _ hd' =>
    rw [hd] at hd'
    cases hd'
  | connected hb fd' conn' hd' hh hm hc hs =>
    rw [hd] at hd'
    cases hd'
    exact ⟨hb, hh, hs⟩
  | delivered _ _ _ ht => exact absurd htarget ht
  | served _ ht => exact absurd htarget ht
  | blocked _ _ dead h => exact absurd h (hnot dead)

/-- A step that is neither the worker's own nor the dispatcher's towards it. A connection on which
something has been sent keeps it. -/
theorem step_elsewhere {w : Fin n} (hI : Invariant failed s) (h : Step s e t) (he : e ≠ .worker w)
    (hk : e ≠ .pick w) (ht : s.dispatcher.target ≠ some w) :
    t.worker w = s.worker w ∧ t.busy w = s.busy w ∧ t.dispatcher.target ≠ some w ∧
      ∀ c fd, s.message c = some fd → t.message c = some fd := by
  cases h with
  | fetch hd => exact ⟨rfl, rfl, (Option.some_ne_none w).symm, fun _ _ hm => hm⟩
  | @pick fd w' hd hb =>
    have hw : w ≠ w' := fun h0 => hk (by rw [h0])
    refine ⟨rfl, Function.update_of_ne hw .., ?_, fun _ _ hm => hm⟩
    intro h0
    exact hw (Option.some.inj h0).symm
  | refused hd hp => exact ⟨rfl, rfl, ht, fun _ _ hm => hm⟩
  | @notSent fd conn w' hd =>
    refine ⟨rfl, rfl, ?_, fun _ _ hm => hm⟩
    rw [hd] at ht
    exact ht
  | @connect fd r w' hd hp =>
    have hw : w ≠ w' := fun h0 => ht (by rw [hd, h0]; rfl)
    refine ⟨Function.update_of_ne hw .., rfl, ?_, fun _ _ hm => hm⟩
    intro h0
    exact hw (Option.some.inj h0).symm
  | @sendmsg fd conn w' hd =>
    have hw : w ≠ w' := fun h0 => ht (by rw [hd, h0]; rfl)
    refine ⟨Function.update_of_ne hw .., rfl, (Option.some_ne_none w).symm, fun c fd' hm => ?_⟩
    have hc : c ≠ conn := by
      intro h0
      rw [h0, (hI.sending _ _ _ hd).1] at hm
      cases hm
    exact (Function.update_of_ne hc ..).trans hm
  | close hd => exact ⟨rfl, rfl, (Option.some_ne_none w).symm, fun _ _ hm => hm⟩
  | @worker w' x hx =>
    have hw : w ≠ w' := fun h0 => he (by rw [h0])
    refine ⟨Function.update_of_ne hw .., ?_, ht, fun _ _ hm => hm⟩
    split
    · exact Function.update_of_ne hw ..
    · rfl

/-- A step of the worker itself. -/
theorem stage_own {w : Fin n} (hI : Invariant failed s) (hnot : ∀ dead, ¬ Blocked s w dead)
    {y : Worker}
    (hx : (s.worker w).step s.message = some y) (hw : t.worker w = y)
    (hb : t.busy w = if (s.worker w).pc = .release then false else s.busy w)
    (hd : t.dispatcher = s.dispatcher) (hm : t.message = s.message)
    (hn : t.nextConn = s.nextConn) : Stage failed t w := by
  have hsent : y.sent = (s.worker w).sent := Worker.step_sent hx
  have hempty : (s.worker w).queue (s.worker w).round = [] → ∀ r, (s.worker w).queue r = [] := by
    intro hq r
    by_cases hr : r = (s.worker w).round
    · rw [hr, hq]
    · exact hI.stale w r hr
  cases hI.stage w with
  | idle hb' ht he hq hs =>
    obtain ⟨hey, hqy, hry, hpc⟩ := Worker.step_early hx he (hempty hq)
    rw [if_neg hpc] at hb
    refine .idle (hb.trans hb') (hd ▸ ht) ?_ ?_ ?_
    · rw [hw, hey]
    · rw [hw, hqy]
    · rw [hw, hsent, hs, hry]
  | picked hb' fd hd' he hq hs =>
    obtain ⟨hey, hqy, hry, hpc⟩ := Worker.step_early hx he (hempty hq)
    rw [if_neg hpc] at hb
    refine .picked (hb.trans hb') fd (hd.trans hd') ?_ ?_ ?_
    · rw [hw, hey]
    · rw [hw, hqy]
    · rw [hw, hsent, hs, hry]
  | connected hb' fd conn hd' hh hm' hc hs =>
    rcases Worker.step_has hx hh with ⟨hpc, hpy, hqy, hry⟩ | ⟨fd', -, hfd, -⟩
    · rw [if_neg (by rw [hpc]; exact Pc.noConfusion)] at hb
      refine .connected (hb.trans hb') fd conn (hd.trans hd') ?_ (hm ▸ hm') (hn ▸ hc) ?_
      · rw [hw]
        exact .inr ⟨hpy, hqy⟩
      · rw [hw, hsent, hs, hry]
    · rw [hm'] at hfd
      cases hfd
  | delivered hb' fd conn ht hh hm' hs =>
    rcases Worker.step_has hx hh with ⟨hpc, hpy, hqy, hry⟩ | ⟨fd', hpc, hfd, hpy, hqy, hroy, hry⟩
    · rw [if_neg (by rw [hpc]; exact Pc.noConfusion)] at hb
      refine .delivered (hb.trans hb') fd conn (hd ▸ ht) ?_ (hm ▸ hm') ?_
      · rw [hw]
        exact .inr ⟨hpy, hqy⟩
      · rw [hw, hsent, hs, hry]
    · rw [if_neg (by rw [hpc]; exact Pc.noConfusion)] at hb
      obtain rfl : fd = fd' := by simpa using hm'.symm.trans hfd
      have hq : (s.worker w).queue (s.worker w).round = [] := by
        rcases hh with ⟨hpc', -⟩ | ⟨-, hq⟩
        · exact Pc.noConfusion (hpc.symm.trans hpc')
        · exact hq
      refine .served (hb.trans hb') (hd ▸ ht) ?_ ?_ ?_
      · rw [hw, hpy]
        rfl
      · rw [hw, hqy, hroy, hq]
      · rw [hw, hsent, hs, hry]
  | served hb' ht hl hq hs =>
    obtain ⟨hqy, hroy, hry, ⟨hpc, hpy⟩ | ⟨hpc, hly⟩⟩ := Worker.step_late hx hl
    · rw [if_pos hpc] at hb
      refine .idle hb (hd ▸ ht) ?_ ?_ ?_
      · rw [hw, hpy]
        rfl
      · rw [hw, hqy, hroy, hq]
      · rw [hw, hsent, hs, hry]
    · rw [if_neg hpc] at hb
      refine .served (hb.trans hb') (hd ▸ ht) ?_ ?_ ?_
      · rw [hw, hly]
      · rw [hw, hqy, hroy, hq]
      · rw [hw, hsent, hs, hry]
  | blocked _ _ dead h => exact absurd h (hnot dead)

/-- A step elsewhere leaves a worker that the dispatcher is not sending to in its stage. -/
theorem stage_elsewhere {w : Fin n} (hI : Invariant failed s) (hnot : ∀ dead, ¬ Blocked s w dead)
    (h : Step s e t) (he : e ≠ .worker w) (hk : e ≠ .pick w)
    (ht : s.dispatcher.target ≠ some w) : Stage failed t w := by
  obtain ⟨hw, hb, ht', hm⟩ := step_elsewhere hI h he hk ht
  cases hI.stage w with
  | idle hb' _ he' hq hs =>
    rw [← hw] at he' hq hs
    exact .idle (hb.trans hb') ht' he' hq hs
  | picked _ _ hd => exact absurd (by rw [hd]; rfl) ht
  | connected _ _ _ hd => exact absurd (by rw [hd]; rfl) ht
  | delivered hb' fd conn _ hh hm' hs =>
    rw [← hw] at hh hs
    exact .delivered (hb.trans hb') fd conn ht' hh (hm conn fd hm') hs
  | served hb' _ hl hq hs =>
    rw [← hw] at hl hq hs
    exact .served (hb.trans hb') ht' hl hq hs
  | blocked _ _ dead h => exact absurd h (hnot dead)

/-- The worker that is picked. -/
theorem stage_pick {fd : Nat} {w : Fin n} (hI : Invariant failed s) (hb : s.busy w = false)
    (hw : t.worker w = s.worker w) (hb' : t.busy w = true) (hd : t.dispatcher = .connect fd w) :
    Stage failed t w := by
  cases hI.stage w with
  | idle _ _ he hq hs =>
    rw [← hw] at he hq hs
    exact .picked hb' fd hd he hq hs
  | picked h0 | connected h0 | delivered h0 | served h0 | blocked _ h0 =>
    rw [h0] at hb
    cases hb

/-- A worker listens in its current round. -/
theorem Worker.PathOk.round {x : Worker} {r : Nat} (h : x.PathOk) (hr : x.path = .listening r) :
    r = x.round := by
  unfold Worker.PathOk at h
  cases hpc : x.pc with
  | remove =>
    simp only [hpc, hr] at h
    rcases h with h | h <;> cases h
  | bind | listen | release =>
    simp only [hpc, hr] at h
    cases h
  | accept | recvmsg | serve | unlink =>
    simp only [hpc, hr, Path.listening.injEq] at h
    exact h

/-- While a worker listens in a round in which it has accepted nothing, it waits in `accept`. -/
theorem Worker.PathOk.listening {x : Worker} {r : Nat} (h : x.PathOk) (he : x.pc.early = true)
    (hr : x.path = .listening r) : x.pc = .accept := by
  unfold Worker.PathOk at h
  cases hpc : x.pc with
  | remove =>
    simp only [hpc, hr] at h
    rcases h with h | h <;> cases h
  | bind | listen =>
    simp only [hpc, hr] at h
    cases h
  | accept => rfl
  | recvmsg | serve | unlink | release =>
    rw [hpc] at he
    cases he

/-- The worker that the dispatcher is sending to, in a step that is not the worker's own. -/
theorem stage_target {w : Fin n} (hI : Invariant failed s) (hnot : ∀ dead, ¬ Blocked s w dead)
    (h : Step s e t) (he : e ≠ .worker w) (hfail : e = .notSent → failed)
    (ht : s.dispatcher.target = some w) : Stage failed t w := by
  cases h with
  | fetch hd | close hd | pick hd =>
    rw [hd] at ht
    cases ht
  | refused hd hp => exact hI.stage w
  | @connect fd r w' hd hp =>
    obtain rfl : w' = w := by
      rw [hd] at ht
      exact Option.some.inj ht
    obtain ⟨hb, he', hq, hs⟩ := hI.of_connect hd hnot
    have hpc := (hI.path w').listening he' hp
    obtain rfl := (hI.path w').round hp
    refine .connected hb fd s.nextConn rfl (.inl ?_) (hI.fresh _ (Nat.le_refl _)) (by simp) ?_
    · simpa [hq] using hpc
    · simpa using hs
  | @sendmsg fd conn w' hd =>
    obtain rfl : w' = w := by
      rw [hd] at ht
      exact Option.some.inj ht
    obtain ⟨hb, hh, hs⟩ := hI.of_sendmsg hd hnot
    refine .delivered hb fd conn (Option.some_ne_none w').symm ?_ ?_ ?_
    · simpa [Worker.Has] using hh
    · simp
    · simp [hs]
  | @notSent fd conn w' hd =>
    obtain rfl : w' = w := by
      rw [hd] at ht
      exact Option.some.inj ht
    obtain ⟨hb, hh, hs⟩ := hI.of_sendmsg hd hnot
    obtain ⟨hm, hc⟩ := hI.sending _ _ _ hd
    refine .blocked (hfail rfl) hb conn ⟨hh.waits, hm, hc, ?_⟩
    intro _ _ h0
    cases h0
  | @worker w' x hx =>
    have hw : w ≠ w' := fun h0 => he (by rw [h0])
    have hworker : Function.update s.worker w' x w = s.worker w := Function.update_of_ne hw ..
    have hbusy : (if (s.worker w').pc = .release then Function.update s.busy w' false else s.busy) w
        = s.busy w := by
      split
      · exact Function.update_of_ne hw ..
      · rfl
    cases hI.stage w with
    | picked hb fd hd he' hq hs =>
      refine .picked (hbusy.trans hb) fd hd ?_ ?_ ?_
      all_goals
        dsimp only
        rw [hworker]
        assumption
    | connected hb fd conn hd hh hm hc hs =>
      refine .connected (hbusy.trans hb) fd conn hd ?_ hm hc ?_
      all_goals
        dsimp only
        rw [hworker]
        assumption
    | idle _ ht' | delivered _ _ _ ht' | served _ ht' => exact absurd ht ht'
    | blocked _ _ dead h => exact absurd h (hnot dead)

/-- A worker that is blocked is busy. -/
theorem Invariant.of_blocked {w : Fin n} {dead : Nat} (hI : Invariant failed s)
    (h : Blocked s w dead) : failed ∧ s.busy w = true := by
  have hwaits := h.waits
  cases hI.stage w with
  | idle _ _ he hq | picked _ _ _ he hq =>
    rcases hwaits with ⟨-, h0⟩ | h0
    · rw [hq] at h0
      cases h0
    · rw [h0] at he
      cases he
  | connected _ fd conn hd hh =>
    obtain rfl := hwaits.unique hh.waits
    exact absurd hd (h.left fd w)
  | delivered _ fd conn _ hh hm =>
    obtain rfl := hwaits.unique hh.waits
    cases h.empty.symm.trans hm
  | served _ _ hl =>
    rcases hwaits with ⟨h0, -⟩ | h0
    all_goals
      rw [h0] at hl
      cases hl
  | blocked hf hb => exact ⟨hf, hb⟩

theorem stage_step (hI : Invariant failed s) (h : Step s e t) (hfail : e = .notSent → failed)
    (w : Fin n) : Stage failed t w := by
  by_cases hblocked : ∃ dead, Blocked s w dead
  · obtain ⟨dead, hdead⟩ := hblocked
    obtain ⟨hf, hb⟩ := hI.of_blocked hdead
    exact .blocked hf (hdead.busy h hb) dead (hdead.step h).1
  have hnot : ∀ dead, ¬ Blocked s w dead := fun dead h0 => hblocked ⟨dead, h0⟩
  by_cases he : e = .worker w
  · subst he
    cases h with
    | worker hx =>
      refine stage_own hI hnot hx (Function.update_self ..) ?_ rfl rfl rfl
      dsimp only
      split
      · exact Function.update_self ..
      · rfl
  · by_cases ht : s.dispatcher.target = some w
    · exact stage_target hI hnot h he hfail ht
    · by_cases hk : e = .pick w
      · subst hk
        cases h with
        | pick hd hb => exact stage_pick hI hb rfl (Function.update_self ..) rfl
      · exact stage_elsewhere hI hnot h he hk ht

/-- Behind a connection on which something is sent no other waits. -/
theorem Invariant.queue_empty (hI : Invariant failed s) {w : Fin n} (h : (s.worker w).pc ≠ .accept)
    (hm : ∀ conn, (s.worker w).pc = .recvmsg conn → s.message conn = none → ¬ failed) :
    (s.worker w).queue (s.worker w).round = [] := by
  cases hI.stage w with
  | idle _ _ _ hq | picked _ _ _ _ hq | served _ _ _ hq => exact hq
  | connected _ _ _ _ hh | delivered _ _ _ _ hh =>
    rcases hh with ⟨hpc, -⟩ | ⟨-, hq⟩
    · exact absurd hpc h
    · exact hq
  | blocked hf _ dead hdead =>
    rcases hdead.waits with ⟨hpc, -⟩ | hpc
    · exact absurd hpc h
    · exact absurd hf (hm dead hpc hdead.empty)

/-- What holds of every worker and of the new one holds of every worker afterwards. -/
theorem forall_update {P : Worker → Prop} {f : Fin n → Worker} {w : Fin n} {x : Worker}
    (hf : ∀ v, P (f v)) (hx : P x) (v : Fin n) : P (Function.update f w x v) :=
  (Function.forall_update_iff f fun _ y => P y).2 ⟨hx, fun v _ => hf v⟩ v

theorem invariant_step (hI : Invariant failed s) (h : Step s e t)
    (hfail : e = .notSent → failed) : Invariant failed t := by
  have hstage := stage_step hI h hfail
  cases h with
  | fetch hd | pick hd | close hd | notSent hd =>
    refine ⟨hI.path, hI.stale, hI.fresh, ?_, hstage⟩
    intro fd w c h0
    cases h0
  | refused hd => exact ⟨hI.path, hI.stale, hI.fresh, hI.sending, hstage⟩
  | @connect fd r w' hd hp =>
    obtain rfl := (hI.path w').round hp
    refine ⟨forall_update (P := Worker.PathOk) hI.path ?_,
      forall_update (P := Worker.OldEmpty) hI.stale ?_, fun c hc => ?_, fun _ _ c h0 => ?_, hstage⟩
    · exact hI.path w'
    · intro r hr
      exact (Function.update_of_ne hr ..).trans (hI.stale w' r hr)
    · exact hI.fresh c (by dsimp only at hc; omega)
    · cases h0
      exact ⟨hI.fresh _ (Nat.le_refl _), Nat.lt_succ_self _⟩
  | @sendmsg fd conn w' hd =>
    refine ⟨forall_update (P := Worker.PathOk) hI.path ?_,
      forall_update (P := Worker.OldEmpty) hI.stale ?_, fun c hc => ?_, fun _ _ c h0 => ?_, hstage⟩
    · exact hI.path w'
    · exact hI.stale w'
    · have hconn : conn < s.nextConn := (hI.sending _ _ _ hd).2
      have hne : c ≠ conn := by
        dsimp only at hc
        omega
      exact (Function.update_of_ne hne ..).trans (hI.fresh c hc)
    · cases h0
  | @worker w' x hx =>
    obtain ⟨hpath, hstale⟩ := Worker.step_local hx (hI.path w') (hI.stale w') fun hpc =>
      hI.queue_empty (by rw [hpc]; exact Pc.noConfusion) fun conn h0 => by cases hpc.symm.trans h0
    exact ⟨forall_update (P := Worker.PathOk) hI.path hpath,
      forall_update (P := Worker.OldEmpty) hI.stale hstale, hI.fresh, hI.sending, hstage⟩

theorem invariant_reachable (h : (pool n).Reachable s) : Invariant True s :=
  h.invariant (Invariant True) (fun _ => invariant_init)
    (fun _ _ _ hI hs => invariant_step hI hs fun _ => trivial)

/-- While no `sendmsg` fails, no worker is blocked. -/
theorem invariant_lossless (h : (lossless n).Reachable s) : Invariant False s :=
  System.Reachable.invariant (M := lossless n) (Invariant False) (fun _ => invariant_init)
    (fun _ _ _ hI hs => invariant_step hI hs.1 hs.2) h

/-! ## Handing over -/

theorem Invariant.of_delivered {w : Fin n} {conn fd : Nat} (hI : Invariant failed s)
    (hh : (s.worker w).Has conn) (hm : s.message conn = some fd) :
    s.busy w = true ∧ s.dispatcher.target ≠ some w := by
  have hnot : ((s.worker w).pc.early = true ∨ (s.worker w).pc.late = true) →
      (s.worker w).queue (s.worker w).round = [] → False := by
    intro hpc hq
    have h0 := hh.connections (hI.stale w)
    rw [Worker.connections_nil hpc hq (hI.stale w)] at h0
    cases h0
  cases hI.stage w with
  | idle _ _ he hq => exact (hnot (.inl he) hq).elim
  | picked _ _ _ he hq => exact (hnot (.inl he) hq).elim
  | connected _ _ conn' _ hh' hm' =>
    rw [hh.unique hh', hm'] at hm
    cases hm
  | delivered hb _ _ ht => exact ⟨hb, ht⟩
  | served _ _ hl hq => exact (hnot (.inr hl) hq).elim
  | blocked _ _ dead h =>
    obtain rfl := h.waits.unique hh.waits
    cases h.empty.symm.trans hm

/-- A descriptor that has been delivered waits for the worker. -/
theorem delivered_elsewhere {w : Fin n} {conn fd : Nat} (hI : Invariant failed s) (h : Step s e t)
    (he : e ≠ .worker w) (hh : (s.worker w).Has conn) (hm : s.message conn = some fd) :
    t.worker w = s.worker w ∧ t.message conn = some fd := by
  obtain ⟨hb, ht⟩ := hI.of_delivered hh hm
  have hk : e ≠ .pick w := by
    intro h0
    subst h0
    cases h with
    | pick _ hb' =>
      rw [hb] at hb'
      cases hb'
  obtain ⟨hw, -, -, hkeep⟩ := step_elsewhere hI h he hk ht
  exact ⟨hw, hkeep conn fd hm⟩

theorem step_received {w : Fin n} (h : Step s e t) :
    (s.worker w).received <+: (t.worker w).received := by
  cases h with
  | fetch | pick | refused | notSent | close => exact List.prefix_rfl
  | @connect fd r w' hd hp =>
    by_cases hw : w = w'
    · subst hw
      simp
    · simp [hw]
  | @sendmsg fd conn w' hd =>
    by_cases hw : w = w'
    · subst hw
      simp
    · simp [hw]
  | @worker w' x hx =>
    by_cases hw : w = w'
    · subst hw
      simpa using Worker.step_received hx
    · simp [hw]

theorem run_received {w : Fin n} {es : List (Event n)} (h : (pool n).Run s es t) :
    (s.worker w).received <+: (t.worker w).received :=
  h.invariant (fun u => (s.worker w).received <+: (u.worker w).received)
    (fun _ _ _ hu ha => hu.trans (step_received ha)) List.prefix_rfl

/-- A worker that has accepted the connection receives the descriptor in its next step. -/
theorem received_of_accepted {w : Fin n} {conn fd : Nat} {es : List (Event n)}
    (hI : Invariant True s) (hpc : (s.worker w).pc = .recvmsg conn) (hh : (s.worker w).Has conn)
    (hm : s.message conn = some fd) (hr : (pool n).Run s es t) (hc : 1 ≤ es.count (.worker w)) :
    (s.worker w).received ++ [fd] <+: (t.worker w).received := by
  induction hr with
  | nil => simp at hc
  | @cons s u t e es hs hr ih =>
    by_cases he : e = .worker w
    · subst he
      refine List.IsPrefix.trans ?_ (run_received hr)
      cases hs with
      | worker hx =>
        rcases Worker.step_has hx hh with ⟨hpc', -⟩ | ⟨fd', -, hfd, -, -, -, hry⟩
        · exact Pc.noConfusion (hpc.symm.trans hpc')
        · obtain rfl : fd = fd' := by simpa using hm.symm.trans hfd
          simp [hry]
    · obtain ⟨hw, hm'⟩ := delivered_elsewhere hI hs he hh hm
      rw [List.count_cons_of_ne he] at hc
      rw [← hw] at hpc hh ⊢
      exact ih (invariant_step hI hs fun _ => trivial) hpc hh hm' hc

/-- Two steps of the worker are enough for it to receive what has been sent to it. -/
theorem received_of_queued {w : Fin n} {conn fd : Nat} {es : List (Event n)} (hI : Invariant True s)
    (hh : (s.worker w).Has conn) (hm : s.message conn = some fd) (hr : (pool n).Run s es t)
    (hc : 2 ≤ es.count (.worker w)) :
    (s.worker w).received ++ [fd] <+: (t.worker w).received := by
  induction hr with
  | nil => simp at hc
  | @cons s u t e es hs hr ih =>
    have hI' := invariant_step hI hs fun _ => trivial
    by_cases he : e = .worker w
    · subst he
      rw [List.count_cons_self] at hc
      cases hs with
      | @worker _ x hx =>
        rcases Worker.step_has hx hh with ⟨-, hpy, hqy, hry⟩ | ⟨fd', -, hfd, -, -, -, hry⟩
        · rw [← hry]
          have h := received_of_accepted (w := w) hI' (by simpa using hpy)
            (.inr ⟨by simpa using hpy, by simpa using hqy⟩) hm hr (by omega)
          simpa using h
        · obtain rfl : fd = fd' := by simpa using hm.symm.trans hfd
          rw [← hry]
          simpa using run_received (w := w) hr
    · obtain ⟨hw, hm'⟩ := delivered_elsewhere hI hs he hh hm
      rw [List.count_cons_of_ne he] at hc
      rw [← hw] at hh ⊢
      exact ih hI' hh hm' hc

/-- What is between the dispatcher and a worker: nothing, or one descriptor that has been sent on
the one connection that the worker has. -/
theorem Invariant.pending (hI : Invariant failed s) (w : Fin n) (hf : ¬ failed) :
    (s.worker w).pending s.message = [] ∧ (s.worker w).sent = (s.worker w).received ∨
      ∃ conn fd, (s.worker w).Has conn ∧ s.message conn = some fd ∧
        (s.worker w).pending s.message = [fd] ∧
        (s.worker w).sent = (s.worker w).received ++ [fd] := by
  cases hI.stage w with
  | idle _ _ he hq hs | picked _ _ _ he hq hs =>
    left
    refine ⟨?_, hs⟩
    rw [Worker.pending, Worker.connections_nil (.inl he) hq (hI.stale w)]
    rfl
  | connected _ _ conn _ hh hm _ hs =>
    left
    refine ⟨?_, hs⟩
    rw [Worker.pending, hh.connections (hI.stale w)]
    simp [hm]
  | delivered _ fd conn _ hh hm hs =>
    right
    refine ⟨conn, fd, hh, hm, ?_, hs⟩
    rw [Worker.pending, hh.connections (hI.stale w)]
    simp [hm]
  | served _ _ hl hq hs =>
    left
    refine ⟨?_, hs⟩
    rw [Worker.pending, Worker.connections_nil (.inr hl) hq (hI.stale w)]
    rfl
  | blocked h0 => exact absurd h0 hf

theorem Invariant.holding (hI : Invariant failed s) (w : Fin n) (hf : ¬ failed) :
    (s.worker w).holding ≤ 1 := by
  have hstale := hI.stale w
  cases hI.stage w with
  | idle _ _ he hq | picked _ _ _ he hq =>
    have hnil := Worker.connections_nil (.inl he) hq hstale
    exact Worker.holding_le (by simp [hnil]) (fun _ => hnil)
  | connected _ _ _ _ hh | delivered _ _ _ _ hh =>
    refine Worker.holding_le (by simp [hh.connections hstale]) (fun hl => ?_)
    rcases hh with ⟨hpc, -⟩ | ⟨hpc, -⟩
    all_goals
      rw [hpc] at hl
      cases hl
  | served _ _ hl hq =>
    have hnil := Worker.connections_nil (.inr hl) hq hstale
    exact Worker.holding_le (by simp [hnil]) (fun _ => hnil)
  | blocked h0 => exact absurd h0 hf

/-- A worker that has a descriptor to receive can take its next step. -/
theorem Worker.Has.step_isSome {message : Nat → Option Nat} {x : Worker} {conn fd : Nat}
    (h : x.Has conn) (hm : message conn = some fd) : (x.step message).isSome := by
  unfold Worker.step
  rcases h with ⟨hpc, hq⟩ | ⟨hpc, -⟩
  · simp [hpc, hq]
  · simp [hpc, hm]

end Steps

/-- Every descriptor is handed over once, as far as one state shows. The worker holds at most one
connection that is queued for it or being served; connections wait only at the listener of its
current round, at which it is about to accept; what was sent to it is what it has received and what
is pending, in this order and nothing else; and while something is pending the worker can go on, and
two steps of it receive it. -/
structure State.HandsOver {n : Nat} (s : State n) (w : Fin n) : Prop where
  one : (s.worker w).holding ≤ 1
  queued : ∀ r, (s.worker w).queue r ≠ [] → r = (s.worker w).round ∧ (s.worker w).pc = .accept
  sent : (s.worker w).sent = (s.worker w).received ++ (s.worker w).pending s.message
  goesOn : (s.worker w).pending s.message ≠ [] → ((s.worker w).step s.message).isSome
  returned : ∀ es t, (pool n).Run s es t → 2 ≤ es.count (.worker w) →
    (s.worker w).sent <+: (t.worker w).received

section Results

variable {n : Nat} {s t : State n} {w : Fin n}

theorem handsOver_of_lossless (h : (lossless n).Reachable s) (w : Fin n) : s.HandsOver w := by
  have hI := invariant_lossless h
  have hpending := hI.pending w not_false
  constructor
  case one => exact hI.holding w not_false
  case queued =>
    intro r hr
    have hround : r = (s.worker w).round := by
      by_contra hne
      exact hr (hI.stale w r hne)
    refine ⟨hround, ?_⟩
    by_contra hpc
    exact hr (hround ▸ hI.queue_empty hpc fun _ _ _ => not_false)
  case sent =>
    rcases hpending with ⟨hp, hs⟩ | ⟨conn, fd, -, -, hp, hs⟩
    · rw [hp, hs, List.append_nil]
    · rw [hp, hs]
  case goesOn =>
    intro hp
    rcases hpending with ⟨hp', -⟩ | ⟨conn, fd, hh, hm, -, -⟩
    · exact absurd hp' hp
    · exact hh.step_isSome hm
  case returned =>
    intro es t hrun hc
    rcases hpending with ⟨-, hs⟩ | ⟨conn, fd, hh, hm, -, hs⟩
    · rw [hs]
      exact run_received hrun
    · rw [hs]
      exact received_of_queued (invariant_reachable h.of_restrict) hh hm hrun hc

/-- The next attempt to send to a worker that listens. -/
theorem resend {fd r : Nat} (hd : s.dispatcher = .connect fd w)
    (hp : (s.worker w).path = .listening r) :
    ∃ t u, Step s .connect t ∧ Step t .sendmsg u ∧ u.worker w = { s.worker w with
      queue := Function.update (s.worker w).queue r ((s.worker w).queue r ++ [s.nextConn])
      sent := (s.worker w).sent ++ [fd] } :=
  ⟨_, _, .connect hd hp, .sendmsg rfl, by simp⟩

/-- A worker that has a connection, and a second one behind it. -/
theorem Worker.Has.two {x y : Worker} {conn c : Nat} (h : x.Has conn) (hpc : y.pc = x.pc)
    (hq : y.queue y.round = x.queue x.round ++ [c]) (hstale : y.OldEmpty) : y.holding = 2 := by
  rcases h with ⟨hx, hqx⟩ | ⟨hx, hqx⟩
  · simp [Worker.holding, Worker.connections, hpc, hx, Worker.queued_eq hstale, hq, hqx]
  · simp [Worker.holding, Worker.connections, hpc, hx, Worker.queued_eq hstale, hq, hqx]

theorem Worker.Has.listening {x : Worker} {conn : Nat} (h : x.Has conn) (hp : x.PathOk) :
    x.path = .listening x.round := by
  unfold Worker.PathOk at hp
  rcases h with ⟨hpc, -⟩ | ⟨hpc, -⟩
  · simpa only [hpc] using hp
  · simpa only [hpc] using hp

/-- What is sent after a `sendmsg` has failed does not come to the worker. -/
theorem lost_of_notSent (h : (lossless n).Reachable s) (hs : Step s .notSent t) :
    ∃ w fd u, (pool n).Run t [.connect, .sendmsg] u ∧ (u.worker w).holding = 2 ∧
      (u.worker w).sent = (u.worker w).received ++ [fd] ∧
      ∀ es v, (pool n).Run u es v → (v.worker w).received = (u.worker w).received := by
  have hI := invariant_lossless h
  have ht := h.of_restrict.step hs
  cases hs with
  | @notSent fd conn w hd =>
    obtain ⟨-, hh, hsent⟩ := hI.of_sendmsg hd fun dead h0 => (hI.of_blocked h0).1
    obtain ⟨hm, hc⟩ := hI.sending _ _ _ hd
    have hblocked : Blocked { s with dispatcher := .connect fd w } w conn := by
      refine ⟨hh.waits, hm, hc, ?_⟩
      intro _ _ h0
      cases h0
    obtain ⟨v, u, hconnect, hsendmsg, hu⟩ :=
      resend (s := { s with dispatcher := .connect fd w }) rfl (hh.listening (hI.path w))
    have hrun : (pool n).Run _ [.connect, .sendmsg] u := .cons hconnect (.single hsendmsg)
    refine ⟨w, fd, u, hrun, ?_, ?_, fun es v' hrun' => ?_⟩
    · have hstale := (invariant_reachable (ht.run hrun)).stale w
      exact hh.two (by rw [hu]) (by rw [hu]; exact Function.update_self ..) hstale
    · rw [hu]
      exact congrArg (· ++ [fd]) hsent
    · exact ((hblocked.step hconnect).1.step hsendmsg).1.run hrun'

/-- **Every descriptor is handed over once, as long as no `sendmsg` fails**, whatever the number of
workers and connections. When the next one fails, its descriptor is sent to the worker on another
connection and not received in any run. -/
theorem handed_over (h : (lossless n).Reachable s) :
    (∀ w, s.HandsOver w) ∧ ∀ t, Step s .notSent t → ∃ w u,
      (pool n).Run t [.connect, .sendmsg] u ∧ ¬ u.HandsOver w ∧
        ∀ es v, (pool n).Run u es v → ¬ (u.worker w).sent <+: (v.worker w).received := by
  refine ⟨handsOver_of_lossless h, fun t hs => ?_⟩
  obtain ⟨w, fd, u, hrun, htwo, hsent, hstays⟩ := lost_of_notSent h hs
  have hnever (es : List (Event n)) (v : State n) (hv : (pool n).Run u es v) :
      ¬ (u.worker w).sent <+: (v.worker w).received := by
    rw [hsent, hstays es v hv]
    intro h0
    have hlen := h0.length_le
    rw [List.length_append, List.length_singleton] at hlen
    omega
  refine ⟨w, u, hrun, ?_, hnever⟩
  intro hover
  have hone := hover.one
  omega

end Results

/-- `n` workers, before their first steps. -/
def unstarted (n : Nat) : State n where
  worker _ :=
    { pc := .remove
      round := 0
      path := .absent
      queue := fun _ => []
      sent := []
      received := [] }
  busy _ := false
  message _ := none
  nextConn := 0
  dispatcher := .fetch

theorem unstarted_init (n : Nat) : (pool n).init (unstarted n) :=
  ⟨fun _ => ⟨rfl, .inl rfl, rfl, fun _ => rfl, rfl, rfl⟩, fun _ => rfl, rfl⟩

/-- The worker 1 of two waits in `accept` when the descriptor 7 is sent to it. -/
theorem handed_over_first : ∃ s : State 2, (lossless 2).Reachable s ∧ (s.worker 1).sent = [7] ∧
    (s.worker 1).received = [] ∧ (s.worker 1).pending s.message = [7] ∧ (s.worker 0).sent = [] ∧
    s.HandsOver 0 ∧ s.HandsOver 1 := by
  have h : (pool 2).Run (unstarted 2)
      [.worker 1, .worker 1, .worker 0, .worker 1, .fetch 7, .pick 1, .connect, .sendmsg] _ :=
    .cons (.worker rfl) <| .cons (.worker rfl) <| .cons (.worker rfl) <| .cons (.worker rfl) <|
      .cons (.fetch rfl) <| .cons (.pick rfl rfl) <| .cons (.connect rfl rfl) <|
      .cons (.sendmsg rfl) <| .nil _
  have hr : (lossless 2).Reachable _ := System.Reachable.run (.of_init (unstarted_init 2))
    (h.to_restrict fun _ e _ he => ne_of_mem_of_not_mem he (by decide))
  obtain ⟨hover, -⟩ := handed_over hr
  exact ⟨_, hr, rfl, rfl, rfl, rfl, hover 0, hover 1⟩

/-- Of the two connections that the only worker gets, nothing is sent on the first, for which it
waits. The descriptor 7 is on the second. -/
theorem handed_over_lost : ∃ s : State 1, (pool 1).Reachable s ∧ (s.worker 0).sent = [7] ∧
    (∀ es t, (pool 1).Run s es t → (t.worker 0).received = []) ∧ ¬ s.HandsOver 0 := by
  have h : (pool 1).Run (unstarted 1)
      [.worker 0, .worker 0, .worker 0, .fetch 7, .pick 0, .connect, .notSent, .connect,
        .sendmsg] _ :=
    .cons (.worker rfl) <| .cons (.worker rfl) <| .cons (.worker rfl) <| .cons (.fetch rfl) <|
      .cons (.pick rfl rfl) <| .cons (.connect rfl rfl) <| .cons (.notSent rfl) <|
      .cons (.connect rfl rfl) <| .cons (.sendmsg rfl) <| .nil _
  refine ⟨_, System.Reachable.run (.of_init (unstarted_init 1)) h, rfl, fun es t hrun => ?_, ?_⟩
  · refine Blocked.run (?_ : Blocked _ 0 0) hrun
    refine ⟨.inl ⟨rfl, rfl⟩, rfl, by decide, ?_⟩
    intro _ _ h0
    cases h0
  · intro hover
    exact Nat.lt_irrefl 1 hover.one

end Heimdall.Pool
