import Heimdall.Lib.Sections
import Heimdall.Pool.Requests

/-!
# The semaphore of the shared memory

The parent, the workers and their requests touch the shared arrays between `sem_wait` and `sem_post`
only, but for the two reads of `request_work` (the status and the ip of the server in its slot),
which come after the `sem_post`. In `Heimdall.Pool.Requests` a section is one step. Here it goes
slot by slot through the arrays and store by store, and a server is copied field by field, while
everything else goes on.

With the semaphore at 1 in the beginning the sections exclude each other, and they are what they are
as single steps (`sections_atomic`). The reads outside never meet a server that is half copied: the
slot that is being written is that of an idle worker. No section waits for anything but the
parent's, in `get_server` (`section_ends`).
-/

namespace Heimdall.Pool

open Heimdall.RoundRobin (Server)

namespace THPSharedMem

/-- `worker_busy[position] = 1`. -/
def mark (m : THPSharedMem) (position : Nat) : THPSharedMem :=
  { m with workerBusy := Function.update m.workerBusy position 1 }

/-- `worker_counter[position] = worker_counter[position] + 1`. -/
def count (m : THPSharedMem) (position : Nat) : THPSharedMem :=
  { m with
    workerCounter := Function.update m.workerCounter position (m.workerCounter position + 1) }

/-- `worker_busy[i] = 0`. -/
def clear (m : THPSharedMem) (i : Nat) : THPSharedMem :=
  { m with workerBusy := Function.update m.workerBusy i 0 }

end THPSharedMem

/-- The field `k` of a server is stored over that of another. -/
def copyField (server : Server) (k : Nat) (old : Server) : Server :=
  match k with
  | 0 => { old with address := server.address }
  | 1 => { old with ip := server.ip }
  | 2 => { old with weight := server.weight }
  | _ => { old with status := server.status }

/-- The first `k` fields have been stored. -/
def copyFields (server : Server) : Nat → Server → Server
  | 0, old => old
  | k + 1, old => copyField server k (copyFields server k old)

/-- `worker_server[position] = *server`, after `k` of its four stores. -/
def THPSharedMem.copy (m : THPSharedMem) (position : Nat) (server : Server) (k : Nat) :
    THPSharedMem :=
  { m with
    workerServer := Function.update m.workerServer position
      (copyFields server k (m.workerServer position)) }

/-- The three sections. -/
inductive Code (n : Nat)
  | select
  | lookup (j : Nat) (w : Fin n)
  | release (w : Fin n)

inductive Thread (n : Nat)
  | parent
  | request (j : Nat)
  | worker (w : Fin n)
  deriving DecidableEq

def Code.thread {n : Nat} : Code n → Thread n
  | .select => .parent
  | .lookup j _ => .request j
  | .release w => .worker w

/-- What a section has found when it gives the semaphore back. -/
inductive Outcome
  | full
  | selected (position : Nat) (pid : Int) (server : Server)
  | slot (i : Option Nat)
  | released

/-- Where a section is, with its locals. `find` is the search for a pid, which a worker follows with
the store that clears its flag. -/
inductive Local
  | scan (i : Nat) (s : Scan)
  | mark (position : Nat)
  | pid (position : Nat)
  | count (position : Nat) (pid : Int)
  | schedule (position : Nat) (pid : Int)
  | copy (position : Nat) (pid : Int) (server : Server) (k : Nat)
  | find (clears : Bool) (pid : Int) (i : Nat)
  | clear (i : Nat)
  | done (r : Outcome)

def Code.start {n : Nat} (pid : Fin n → Pid) : Code n → Local
  | .select => .scan 0 ⟨-1, -1⟩
  | .lookup _ w => .find false (pid w) 0
  | .release w => .find true (pid w) 0

/-- One step of a section. `get_server` waits for the mutex of the buffer, which the updater may
hold, and goes round the buffer; here it may return any server, and nothing says that it does. -/
inductive Inner (n : Nat) : Local × THPSharedMem → Local × THPSharedMem → Prop
  | visit {m : THPSharedMem} {i : Nat} {s : Scan} (hi : i < n) :
      Inner n (.scan i s, m) (.scan (i + 1) (s.visit m i), m)
  | full {m : THPSharedMem} {i : Nat} {s : Scan} (hi : n ≤ i) (hp : s.position = -1) :
      Inner n (.scan i s, m) (.done .full, m)
  | choose {m : THPSharedMem} {i : Nat} {s : Scan} (hi : n ≤ i) (hp : s.position ≠ -1) :
      Inner n (.scan i s, m) (.mark s.position.toNat, m)
  | mark {m : THPSharedMem} {p : Nat} : Inner n (.mark p, m) (.pid p, m.mark p)
  | pid {m : THPSharedMem} {p : Nat} : Inner n (.pid p, m) (.count p (m.workerArray p), m)
  | count {m : THPSharedMem} {p : Nat} {q : Int} :
      Inner n (.count p q, m) (.schedule p q, m.count p)
  | schedule {m : THPSharedMem} {p : Nat} {q : Int} (server : Server) :
      Inner n (.schedule p q, m) (.copy p q server 0, m)
  | copy {m : THPSharedMem} {p k : Nat} {q : Int} {server : Server} (hk : k < 4) :
      Inner n (.copy p q server k, m) (.copy p q server (k + 1), { m with
        workerServer := Function.update m.workerServer p
          (copyField server k (m.workerServer p)) })
  | copied {m : THPSharedMem} {p : Nat} {q : Int} {server : Server} :
      Inner n (.copy p q server 4, m) (.done (.selected p q server), m)
  | next {m : THPSharedMem} {i : Nat} {q : Int} {clears : Bool} (hi : i < n)
      (hne : m.workerArray i ≠ q) : Inner n (.find clears q i, m) (.find clears q (i + 1), m)
  | found {m : THPSharedMem} {i : Nat} {q : Int} (hi : i < n) (heq : m.workerArray i = q) :
      Inner n (.find false q i, m) (.done (.slot (some i)), m)
  | own {m : THPSharedMem} {i : Nat} {q : Int} (hi : i < n) (heq : m.workerArray i = q) :
      Inner n (.find true q i, m) (.clear i, m)
  | clear {m : THPSharedMem} {i : Nat} : Inner n (.clear i, m) (.done .released, m.clear i)
  | missing {m : THPSharedMem} {i : Nat} {q : Int} {clears : Bool} (hi : n ≤ i) :
      Inner n (.find clears q i, m) (.done (if clears then .released else .slot none), m)

/-- Everything but the shared memory. -/
structure Outside (n : Nat) where
  pool : State n
  requests : List (RequestWork n)
  scheduled : Nat → Option Server
  busyFor : Fin n → Option Nat

def Outside.service {n : Nat} (c : Outside n) (m : THPSharedMem) : Service n :=
  ⟨c.pool, m, c.requests, c.scheduled, c.busyFor⟩

namespace Outside

variable {n : Nat}

inductive Step : Outside n → Service.Event n → Outside n → Prop
  | plain {c : Outside n} {e : Event n} {p : State n} (he : c.pool.Plain e)
      (hnew : ∀ fd, e = .fetch fd → c.scheduled fd = none) (hp : Pool.Step c.pool e p) :
      Step c (.plain e) { c with pool := p }
  | request {c : Outside n} {w : Fin n} {conn : Nat} (hr : conn ∈ (c.pool.worker w).received) :
      Step c (.request w conn) { c with requests := c.requests ++ [⟨w, conn, none⟩] }

/-- The thread of a section is where the section begins. -/
def Ready (c : Outside n) : Code n → Prop
  | .select => ∃ fd, c.pool.dispatcher = .pick fd
  | .lookup j w => ∃ r, c.requests[j]? = some r ∧ r.worker = w ∧ r.remote = none
  | .release w => (c.pool.worker w).pc = .release

/-- What a thread does with the outcome of its section. -/
inductive Commit (pid : Fin n → Pid) : Outside n → Code n → Outcome → Outside n → Prop
  | full {c : Outside n} {fd : Nat} (hd : c.pool.dispatcher = .pick fd) :
      Commit pid c .select .full c
  | selected {c : Outside n} {fd p : Nat} {w : Fin n} {server : Server}
      (hd : c.pool.dispatcher = .pick fd) :
      Commit pid c .select (.selected p (pid w) server) { c with
        pool := { c.pool with
          busy := Function.update c.pool.busy w true
          dispatcher := .connect fd w }
        scheduled := Function.update c.scheduled fd (some server)
        busyFor := Function.update c.busyFor w (some fd) }
  | slot {c : Outside n} {j : Nat} {r : RequestWork n} {i : Option Nat}
      (hj : c.requests[j]? = some r) (hr : r.remote = none) :
      Commit pid c (.lookup j r.worker) (.slot i) { c with
        requests := c.requests.set j { r with remote := some i } }
  | released {c : Outside n} {w : Fin n} {x : Worker} (hpc : (c.pool.worker w).pc = .release)
      (hx : (c.pool.worker w).step c.pool.message = some x) :
      Commit pid c (.release w) .released { c with
        pool := { c.pool with
          worker := Function.update c.pool.worker w x
          busy := Function.update c.pool.busy w false }
        busyFor := Function.update c.busyFor w none }

end Outside

/-- The sections of the program, under the semaphore that `do_prefork` creates. -/
def semaphore {n : Nat} (pid : Fin n → Pid) :
    Sections THPSharedMem (Outside n) (Service.Event n) (Code n) Local Outcome (Thread n) where
  init m c := (service pid).init (c.service m)
  thread := Code.thread
  start := Code.start pid
  inner := Inner n
  result l r := l = .done r
  outside := Outside.Step
  ready := Outside.Ready
  commit := Outside.Commit pid

/-! ## What a section has done so far -/

/-- Where a section can be, and the memory then, when it found the memory `m`. -/
inductive Along {n : Nat} (pid : Fin n → Pid) (m : THPSharedMem) :
    Code n → Local → THPSharedMem → Prop
  | scan {i : Nat} (hi : i ≤ n) :
      Along pid m .select (.scan i ((List.range i).foldl (Scan.visit m) ⟨-1, -1⟩)) m
  | full (hp : (scan n m).position = -1) : Along pid m .select (.done .full) m
  | mark {p : Nat} (hp : (scan n m).position = p) : Along pid m .select (.mark p) m
  | pid {p : Nat} (hp : (scan n m).position = p) : Along pid m .select (.pid p) (m.mark p)
  | count {p : Nat} (hp : (scan n m).position = p) :
      Along pid m .select (.count p (m.workerArray p)) (m.mark p)
  | schedule {p : Nat} (hp : (scan n m).position = p) :
      Along pid m .select (.schedule p (m.workerArray p)) ((m.mark p).count p)
  | copy {p k : Nat} {server : Server} (hp : (scan n m).position = p) (hk : k ≤ 4) :
      Along pid m .select (.copy p (m.workerArray p) server k)
        (((m.mark p).count p).copy p server k)
  | selected {p : Nat} {server : Server} (hp : (scan n m).position = p) :
      Along pid m .select (.done (.selected p (m.workerArray p) server))
        (((m.mark p).count p).copy p server 4)
  | find {code : Code n} {w : Fin n} {clears : Bool} {i : Nat}
      (hcode : code.start pid = .find clears (pid w) 0)
      (hne : ∀ j, j < i → m.workerArray j ≠ (pid w : Int)) :
      Along pid m code (.find clears (pid w) i) m
  | slot {j : Nat} {w : Fin n} {i : Option Nat} (hi : findSlot n (pid w) m = i) :
      Along pid m (.lookup j w) (.done (.slot i)) m
  | clear {w : Fin n} {i : Nat} (hi : findSlot n (pid w) m = some i) :
      Along pid m (.release w) (.clear i) m
  | released {w : Fin n} {m' : THPSharedMem} (hm : m' = release n (pid w) m) :
      Along pid m (.release w) (.done .released) m'

section Along

variable {n : Nat} {pid : Fin n → Pid} {m m₁ m₂ : THPSharedMem} {code : Code n} {l l' : Local}

theorem along_start (pid : Fin n → Pid) (m : THPSharedMem) (code : Code n) :
    Along pid m code (code.start pid) m := by
  cases code with
  | select => exact .scan (Nat.zero_le n)
  | lookup j w => exact .find rfl fun i hi => absurd hi (Nat.not_lt_zero i)
  | release w => exact .find rfl fun i hi => absurd hi (Nat.not_lt_zero i)

theorem find_start {w : Fin n} {clears : Bool} (h : code.start pid = .find clears (pid w) 0) :
    (∃ j v, code = .lookup j v ∧ pid v = pid w ∧ clears = false) ∨
      ∃ v, code = .release v ∧ pid v = pid w ∧ clears = true := by
  cases code with
  | select => cases h
  | lookup j v =>
    simp only [Code.start, Local.find.injEq] at h
    exact .inl ⟨j, v, rfl, Subtype.ext h.2.1, h.1.symm⟩
  | release v =>
    simp only [Code.start, Local.find.injEq] at h
    exact .inr ⟨v, rfl, Subtype.ext h.2.1, h.1.symm⟩

theorem findSlot_none {q : Int} (h : ∀ j, j < n → m.workerArray j ≠ q) : findSlot n q m = none := by
  refine List.find?_eq_none.2 fun j hj => ?_
  simpa using h j (List.mem_range.1 hj)

theorem findSlot_first {q : Int} {i : Nat} (hi : i < n) (heq : m.workerArray i = q)
    (h : ∀ j, j < i → m.workerArray j ≠ q) : findSlot n q m = some i := by
  refine List.find?_range_eq_some.2 ⟨?_, List.mem_range.2 hi, ?_⟩
  · simpa using heq
  · intro j hj
    simpa using h j hj

/-- The position is a slot, once it is not -1. -/
theorem scan_choose (h : (Pool.scan n m).position ≠ -1) :
    (Pool.scan n m).position = ((Pool.scan n m).position.toNat : Int) := by
  rcases Pool.scan_found n m with ⟨heq, -⟩ | ⟨i, -, hpos, -⟩
  · rw [heq] at h
    exact absurd rfl h
  · rw [hpos, Int.toNat_natCast]

/-- **What one step of a section keeps.** -/
theorem Along.step (h : Along pid m code l m₁) (hstep : Inner n (l, m₁) (l', m₂)) :
    Along pid m code l' m₂ := by
  cases hstep with
  | visit hi =>
    cases h with
    | scan _ =>
      have hnext := @Along.scan _ pid m _ (Nat.succ_le_of_lt hi)
      rwa [List.range_succ, List.foldl_append] at hnext
  | full hi hp =>
    cases h with
    | scan hle =>
      obtain rfl := Nat.le_antisymm hle hi
      exact .full hp
  | choose hi hp =>
    cases h with
    | scan hle =>
      obtain rfl := Nat.le_antisymm hle hi
      exact .mark (scan_choose hp)
  | mark =>
    cases h with
    | mark hp => exact .pid hp
  | pid =>
    cases h with
    | pid hp => exact .count hp
  | count =>
    cases h with
    | count hp => exact .schedule hp
  | schedule server =>
    cases h with
    | schedule hp =>
      have hcopy := @Along.copy _ pid _ _ 0 server hp (Nat.zero_le 4)
      rwa [THPSharedMem.copy, copyFields, Function.update_eq_self] at hcopy
  | @copy _ p k q server hk =>
    cases h with
    | copy hp =>
      have hcopy := @Along.copy _ pid _ _ (k + 1) server hp hk
      simpa only [THPSharedMem.copy, copyFields, Function.update_self, Function.update_idem]
        using hcopy
  | copied =>
    cases h with
    | copy hp => exact .selected hp
  | next hi hne =>
    cases h with
    | find hcode hbefore =>
      refine .find hcode fun j hj => ?_
      rcases Nat.lt_succ_iff_lt_or_eq.1 hj with hlt | rfl
      · exact hbefore j hlt
      · exact hne
  | found hi heq =>
    cases h with
    | find hcode hbefore =>
      obtain ⟨j, v, rfl, hv, -⟩ | ⟨v, -, -, h0⟩ := find_start hcode
      · refine .slot ?_
        rw [hv]
        exact findSlot_first hi heq hbefore
      · cases h0
  | own hi heq =>
    cases h with
    | find hcode hbefore =>
      obtain ⟨j, v, -, -, h0⟩ | ⟨v, rfl, hv, -⟩ := find_start hcode
      · cases h0
      · refine .clear ?_
        rw [hv]
        exact findSlot_first hi heq hbefore
  | clear =>
    cases h with
    | clear hi => exact .released (release_eq hi).symm
  | @missing _ _ _ clears hi =>
    cases h with
    | find hcode hbefore =>
      have hnone := findSlot_none fun j hj => hbefore j (Nat.lt_of_lt_of_le hj hi)
      obtain ⟨j, v, rfl, hv, rfl⟩ | ⟨v, rfl, hv, rfl⟩ := find_start hcode
      · refine .slot ?_
        rw [hv]
        exact hnone
      · refine .released ?_
        rw [release, hv, hnone]

theorem along_of_steps (h : Relation.ReflTransGen (Inner n) (code.start pid, m) (l, m₁)) :
    Along pid m code l m₁ := by
  obtain ⟨q, hq⟩ : ∃ q, q = (l, m₁) := ⟨_, rfl⟩
  rw [← hq] at h
  induction h generalizing l m₁ with
  | refl =>
    cases hq
    exact along_start pid m code
  | @tail p q _ hstep ih =>
    subst hq
    exact (@ih p.2 p.1 rfl).step hstep

/-- The slots of busy workers are as the section has found them, and so are all pids. -/
theorem Along.busy_server (h : Along pid m code l m₁) {i : Nat} (hi : m.workerBusy i ≠ 0) :
    m₁.workerServer i = m.workerServer i := by
  cases h with
  | scan | full | mark | pid | count | schedule | find | slot | clear => rfl
  | copy hp | selected hp =>
    refine Function.update_of_ne ?_ ..
    rintro rfl
    rcases Pool.scan_found n m with ⟨heq, -⟩ | ⟨j, -, hpos, hidle⟩
    · rw [heq] at hp
      cases hp
    · obtain rfl := Int.ofNat.inj (hpos.symm.trans hp)
      exact hi hidle
  | released hm =>
    rw [hm, release]
    split <;> rfl

end Along

/-! ## The sections as single steps -/

section Atomic

variable {n : Nat} {pid : Fin n → Pid} {m m' : THPSharedMem} {c c' : Outside n}

theorem selectWorker_eq {p : Nat} (server : Server) (hp : (Pool.scan n m).position = p) :
    selectWorker n server m =
      some (p, m.workerArray p, ((m.mark p).count p).copy p server 4) := by
  have hne : (p : Int) ≠ -1 := by omega
  unfold selectWorker
  rw [hp, if_neg hne, Int.toNat_natCast]
  rfl

/-- **A section with its outcome is a step of the service**. -/
theorem service_step {a : Sections.Action (Service.Event n) (Code n) Outcome}
    (h : (semaphore pid).AtomicStep (m, c) a (m', c')) :
    ∃ e, Service.Step pid (c.service m) e (c'.service m') := by
  cases h with
  | outside ho =>
    cases ho with
    | plain he hnew hp => exact ⟨_, .plain he hnew hp⟩
    | request hr => exact ⟨_, .request hr⟩
  | whole heff hc =>
    obtain ⟨l, hsteps, rfl⟩ := heff
    have halong := along_of_steps hsteps
    cases hc with
    | full hd =>
      cases halong with
      | full hp => exact ⟨_, @Service.Step.full _ _ _ _ ⟨0, 0, 0, 0⟩ hd (if_pos hp)⟩
    | @selected fd p w server hd =>
      generalize hq : (pid w : Int) = q at halong
      cases halong with
      | selected hp =>
        refine ⟨_, Service.Step.select (i := p) (w := w) hd ?_⟩
        rw [hq]
        exact selectWorker_eq server hp
    | slot hj hr =>
      cases halong with
      | slot hi =>
        subst hi
        exact ⟨_, .findSlot hj hr⟩
    | released hpc hx =>
      cases halong with
      | released hm =>
        subst hm
        exact ⟨_, .release hpc hx⟩

theorem service_reachable (h : (semaphore pid).atomic.Reachable (m, c)) :
    (service pid).Reachable (c.service m) := by
  refine h.map (fun s => Outside.service s.2 s.1) ?_ ?_
  · intro s hs
    exact hs
  · rintro ⟨m, c⟩ a ⟨m', c'⟩ - hstep
    exact .inr (service_step hstep)

end Atomic

/-! ## A section can be gone through -/

section Progress

variable {n : Nat} {pid : Fin n → Pid} {m m₁ : THPSharedMem} {c c' : Outside n} {code : Code n}
  {l : Local}

/-- Nothing outside moves a thread from its section. -/
theorem Outside.Ready.step {e : Service.Event n} (h : c.Ready code) (hstep : Outside.Step c e c') :
    c'.Ready code := by
  cases hstep with
  | request hr =>
    cases code with
    | select | release => exact h
    | lookup j w =>
      obtain ⟨r, hj, hw, hremote⟩ := h
      refine ⟨r, ?_, hw, hremote⟩
      rw [List.getElem?_append_left (List.getElem?_eq_some_iff.1 hj).1]
      exact hj
  | @plain e p he hnew hp =>
    cases code with
    | lookup => exact h
    | select =>
      obtain ⟨fd, hd⟩ := h
      cases hp with
      | worker hx => exact ⟨fd, hd⟩
      | pick => exact he.elim
      | fetch hd' | refused hd' | connect hd' | sendmsg hd' | notSent hd' | close hd' =>
        cases hd.symm.trans hd'
    | release w =>
      have hpc : (c.pool.worker w).pc = .release := h
      change (p.worker w).pc = .release
      cases hp with
      | fetch | refused | notSent | close => exact hpc
      | pick => exact he.elim
      | connect hd' hp' => exact (worker_update Worker.pc (by rfl) w).trans hpc
      | sendmsg hd' => exact (worker_update Worker.pc (by rfl) w).trans hpc
      | @worker v x hx =>
        have hv : w ≠ v := by
          rintro rfl
          exact he hpc
        dsimp only
        rw [Function.update_of_ne hv]
        exact hpc

/-- The parent is in `get_server`. -/
def Local.Scheduling (l : Local) : Prop := ∃ p q, l = .schedule p q

/-- How many steps a section may have to go, or the parent to its call of `get_server`. -/
def Local.rank (n : Nat) : Local → Nat
  | .scan i _ => n - i + 4
  | .mark _ => 3
  | .pid _ => 2
  | .count _ _ => 1
  | .schedule _ _ => 0
  | .copy _ _ _ k => 5 - k
  | .find _ _ i => n - i + 2
  | .clear _ => 1
  | .done _ => 0

/-- **A section that is not over has a next step**, when it is not in `get_server`. -/
theorem Along.next (h : Along pid m code l m₁) (hschedule : ¬ l.Scheduling) :
    (∃ r, l = .done r) ∨ ∃ l' m₂, Inner n (l, m₁) (l', m₂) ∧ l'.rank n < l.rank n := by
  cases h with
  | full | selected | slot | released => exact .inl ⟨_, rfl⟩
  | schedule => exact absurd ⟨_, _, rfl⟩ hschedule
  | @scan i hi =>
    refine .inr ?_
    by_cases hn : i < n
    · exact ⟨_, _, .visit hn, by simp only [Local.rank]; omega⟩
    · by_cases hp : ((List.range i).foldl (Scan.visit m) ⟨-1, -1⟩).position = -1
      · exact ⟨_, _, .full (by omega) hp, by simp only [Local.rank]; omega⟩
      · exact ⟨_, _, .choose (by omega) hp, by simp only [Local.rank]; omega⟩
  | mark => exact .inr ⟨_, _, .mark, Nat.lt_succ_self 2⟩
  | pid => exact .inr ⟨_, _, .pid, Nat.lt_succ_self 1⟩
  | count => exact .inr ⟨_, _, .count, Nat.zero_lt_one⟩
  | @copy p k server hp hk =>
    refine .inr ?_
    rcases Nat.lt_or_eq_of_le hk with hlt | rfl
    · exact ⟨_, _, .copy hlt, by simp only [Local.rank]; omega⟩
    · exact ⟨_, _, .copied, Nat.zero_lt_one⟩
  | @find code w clears i hcode hne =>
    refine .inr ?_
    by_cases hn : i < n
    · by_cases heq : m.workerArray i = pid w
      · cases clears with
        | false => exact ⟨_, _, .found hn heq, by simp only [Local.rank]; omega⟩
        | true => exact ⟨_, _, .own hn heq, by simp only [Local.rank]; omega⟩
      · exact ⟨_, _, .next hn heq, by simp only [Local.rank]; omega⟩
    · exact ⟨_, _, .missing (by omega), by simp only [Local.rank]; omega⟩
  | clear => exact .inr ⟨_, _, .clear, Nat.zero_lt_one⟩

/-- A section that is over has an outcome with which its thread goes on. -/
theorem Along.commit (h : Along pid m code l m₁) (htied : (c.service m).Tied pid)
    (hready : c.Ready code) {r : Outcome} (hl : l = .done r) :
    ∃ c', Outside.Commit pid c code r c' := by
  subst hl
  cases h with
  | full =>
    obtain ⟨fd, hd⟩ := hready
    exact ⟨_, .full hd⟩
  | @selected p server hp =>
    obtain ⟨fd, hd⟩ := hready
    obtain ⟨hlt, -⟩ := selectWorker_some (selectWorker_eq server hp)
    have hpid : m.workerArray p = (pid ⟨p, hlt⟩ : Int) := htied.array ⟨p, hlt⟩
    rw [hpid]
    exact ⟨_, .selected hd⟩
  | slot =>
    obtain ⟨r, hj, rfl, hremote⟩ := hready
    exact ⟨_, .slot hj hremote⟩
  | @released w =>
    have hpc : (c.pool.worker w).pc = .release := hready
    have hx : (c.pool.worker w).step c.pool.message =
        some { c.pool.worker w with pc := .remove } := by
      unfold Worker.step
      rw [hpc]
    exact ⟨_, .released hpc hx⟩

end Progress

section Results

variable {n : Nat} {pid : Fin n → Pid}
  {s t : Sections.State THPSharedMem (Outside n) (Code n) Local (Thread n)}

/-- The thread of a section that has begun is where the section begins. -/
def Standing (s : Sections.State THPSharedMem (Outside n) (Code n) Local (Thread n)) : Prop :=
  ∀ u code l, s.inside u = some (code, l) → u = code.thread ∧ s.rest.Ready code

theorem standing_step {m : THPSharedMem} {e : Sections.Event (Service.Event n) (Code n) Outcome}
    (halone : (semaphore pid).Alone s m) (hs : Standing s) (hstep : (semaphore pid).Step s e t) :
    Standing t := by
  cases hstep with
  | outside ho =>
    intro u code l hu
    obtain ⟨hthread, hready⟩ := hs u code l hu
    exact ⟨hthread, hready.step ho⟩
  | @wait code v hr hi hv =>
    intro u code' l hu
    by_cases hthread : u = code.thread
    · subst hthread
      cases (Function.update_self ..).symm.trans hu
      exact ⟨rfl, hr⟩
    · exact hs u code' l ((Function.update_of_ne hthread ..).symm.trans hu)
  | @inner code k k' m' hi hk =>
    intro u code' l hu
    by_cases hthread : u = code.thread
    · subst hthread
      cases (Function.update_self ..).symm.trans hu
      exact ⟨rfl, (hs _ _ _ hi).2⟩
    · exact hs u code' l ((Function.update_of_ne hthread ..).symm.trans hu)
  | @post code k r c hi hk hc =>
    intro u code' l hu
    -- nobody is inside any more
    obtain ⟨-, hother, -⟩ := halone.inside_eq hi
    by_cases hthread : u = code.thread
    · subst hthread
      cases (Function.update_self ..).symm.trans hu
    · cases (hother u hthread).symm.trans ((Function.update_of_ne hthread ..).symm.trans hu)

theorem standing_of_reachable (h : (semaphore pid).small.Reachable s) : Standing s := by
  refine h.induct Standing ?_ ?_
  · intro s hs u code l hu
    cases (hs.2.2 u).symm.trans hu
  · intro s e t hs hstanding hstep
    obtain ⟨m, halone, -⟩ := Sections.alone_of_reachable hs
    exact standing_step halone hstanding hstep

/-- **The sections under the semaphore.** In every interleaving of their small steps with everything
else: at most one thread is inside. What the sections that are over have done is what they do as
single steps. And a request that reads its slot outside of the semaphore, whoever is inside, gets
the server that was scheduled for its connection, while its worker is busy for it. -/
theorem sections_atomic (hpid : Function.Injective pid) (h : (semaphore pid).small.Reachable s) :
    (∀ u v, s.inside u ≠ none → s.inside v ≠ none → u = v) ∧
      (∃ m, (service pid).Reachable (s.rest.service m) ∧
        ((∀ u, s.inside u = none) → m = s.memory)) ∧
      ∀ r ∈ s.rest.requests, ∀ i, r.remote = some (some i) →
        s.rest.busyFor r.worker = some r.conn →
          s.rest.scheduled r.conn = some (s.memory.workerServer i) := by
  obtain ⟨m, halone, hatomic⟩ := Sections.alone_of_reachable h
  have hservice := service_reachable hatomic
  have htied := Service.tied_reachable hpid hservice
  refine ⟨fun u v => halone.unique, ⟨m, hservice, ?_⟩, ?_⟩
  · intro hnone
    cases halone with
    | out _ _ hm => exact hm.symm
    | inside _ i k hi => cases (hnone _).symm.trans hi
  · intro r hr i hi hfor
    obtain rfl : i = (r.worker : Nat) := Option.some.inj (htied.remote r hr _ hi)
    have hserver := htied.server r.worker r.conn hfor
    cases halone with
    | out _ _ hm =>
      rw [hm]
      exact hserver
    | inside _ code l _ _ hsteps =>
      have hbusy : m.workerBusy r.worker ≠ 0 := by
        intro h0
        cases ((htied.marked r.worker).1 ((htied.busy r.worker).1 h0)).symm.trans hfor
      rw [(along_of_steps hsteps).busy_server hbusy]
      exact hserver

/-- The events of a section that is going on. -/
def OfSection (code : Code n) : Sections.Event (Service.Event n) (Code n) Outcome → Prop
  | .inner code' => code' = code
  | .post code' _ => code' = code
  | _ => False

/-- Only the parent calls `get_server`. -/
theorem Along.select_of_scheduling {m m₁ : THPSharedMem} {code : Code n} {l : Local}
    (h : Along pid m code l m₁) (hl : l.Scheduling) : code = .select := by
  obtain ⟨p, q, rfl⟩ := hl
  cases h with
  | schedule => rfl

/-- **The semaphore comes back.** Whoever is inside can go through its section on its own, in a
number of steps that depends only on how far it is, and gives the semaphore back then, unless it is
the parent on its way to `get_server`, which comes to this call. -/
theorem section_ends (hpid : Function.Injective pid) (h : (semaphore pid).small.Reachable s)
    {u : Thread n} {code : Code n} {l : Local} (hu : s.inside u = some (code, l)) :
    ∃ es t, (semaphore pid).small.Run s es t ∧ (∀ e ∈ es, OfSection code e) ∧
      es.length ≤ l.rank n + 1 ∧ ((t.value = 1 ∧ ∀ v, t.inside v = none) ∨
        code = .select ∧ ∃ p q, t.inside u = some (code, .schedule p q)) := by
  induction hrank : l.rank n using Nat.strong_induction_on generalizing s l with
  | _ k ih =>
    obtain ⟨m, halone, hatomic⟩ := Sections.alone_of_reachable h
    obtain ⟨rfl, hready⟩ := standing_of_reachable h u code l hu
    obtain ⟨hv, hother, hsteps⟩ := halone.inside_eq (P := semaphore pid) hu
    have halong := along_of_steps hsteps
    by_cases hschedule : l.Scheduling
    · have hselect := halong.select_of_scheduling hschedule
      obtain ⟨p, q, rfl⟩ := hschedule
      refine ⟨[], s, .nil s, ?_, Nat.zero_le _, .inr ⟨hselect, p, q, hu⟩⟩
      intro e he
      cases he
    rcases halong.next hschedule with ⟨r, hl⟩ | ⟨l', m₂, hinner, hlt⟩
    · have htied := Service.tied_reachable hpid (service_reachable hatomic)
      obtain ⟨c, hc⟩ := halong.commit (c := s.rest) htied hready hl
      refine ⟨[.post code r], _, .single (.post hu hl hc), ?_, ?_, .inl ⟨congrArg Nat.succ hv, ?_⟩⟩
      · intro e he
        rw [List.mem_singleton.1 he]
        rfl
      · exact Nat.succ_le_succ (Nat.zero_le k)
      · intro v
        by_cases hthread : v = code.thread
        · subst hthread
          exact Function.update_self ..
        · exact (Function.update_of_ne hthread ..).trans (hother v hthread)
    · have hstep : (semaphore pid).small.step s (.inner code) _ := .inner hu hinner
      obtain ⟨es, t, hrun, hes, hlen, ht⟩ := ih (l'.rank n) (hrank ▸ hlt) (h.step hstep)
        (Function.update_self ..) rfl
      refine ⟨.inner code :: es, t, .cons hstep hrun, ?_, ?_, ht⟩
      · intro e he
        rcases List.mem_cons.1 he with rfl | he
        · rfl
        · exact hes e he
      · rw [List.length_cons]
        omega

end Results

/-! ## Two workers -/

/-- Two workers, their slots and the semaphore in the beginning. -/
def twoSemaphore : Sections.State THPSharedMem (Outside 2) (Code 2) Local (Thread 2) :=
  ⟨twoService.memory, ⟨unstarted 2, [], fun _ => none, fun _ => none⟩, 1, fun _ => none⟩

theorem twoSemaphore_reachable : (semaphore twoPids).small.Reachable twoSemaphore :=
  .of_init ⟨twoService_init, rfl, fun _ => rfl⟩

/-- The parent has begun its scan. -/
theorem section_ends_select : ∃ s, (semaphore twoPids).small.Reachable s ∧ s.value = 0 ∧
    ∃ es t, (semaphore twoPids).small.Run s es t ∧ (∀ e ∈ es, OfSection .select e) ∧
      es.length ≤ 7 ∧ ((t.value = 1 ∧ ∀ v, t.inside v = none) ∨
        Code.select = (.select : Code 2) ∧
          ∃ p q, t.inside .parent = some (.select, .schedule p q)) := by
  have h₁ := twoSemaphore_reachable.step
    (.outside (.plain (e := .fetch 5) trivial (fun _ _ => rfl) (.fetch rfl)))
  have h₂ := h₁.step (.wait (i := Code.select) (by exact ⟨5, rfl⟩) rfl rfl)
  refine ⟨_, h₂, rfl, ?_⟩
  exact section_ends twoPids_injective h₂ (u := .parent) rfl

/-- The worker 1 serves the connection 5, for which a server with the ip 80 was scheduled; its
request has found the slot, and the parent is inside again. -/
theorem sections_atomic_two : ∃ s, (semaphore twoPids).small.Reachable s ∧
    s.inside .parent ≠ none ∧ s.rest.requests = [⟨1, 5, some (some 1)⟩] ∧
      s.rest.scheduled 5 = some ⟨1, 80, 1, 1⟩ ∧ (s.memory.workerServer 1).ip = 80 := by
  have h₁ := ((twoSemaphore_reachable.step
    (.outside (.plain Pc.noConfusion (worker_not_fetch _ 1) (.worker rfl)))).step
    (.outside (.plain Pc.noConfusion (worker_not_fetch _ 1) (.worker rfl)))).step
    (.outside (.plain Pc.noConfusion (worker_not_fetch _ 1) (.worker rfl)))
  have h₂ := h₁.step (.outside (.plain (e := .fetch 5) trivial (fun _ _ => rfl) (.fetch rfl)))
  have h₃ := h₂.step (.wait (i := Code.select) (by exact ⟨5, rfl⟩) rfl rfl)
  have h₄ := (((((((h₃.step (.inner (i := Code.select) rfl (.visit Nat.zero_lt_two))).step
    (.inner (i := Code.select) rfl (.visit Nat.one_lt_two))).step
    (.inner (i := Code.select) rfl (.choose (Nat.le_refl 2) (by decide)))).step
    (.inner (i := Code.select) rfl .mark)).step
    (.inner (i := Code.select) rfl .pid)).step
    (.inner (i := Code.select) rfl .count)).step
    (.inner (i := Code.select) rfl (.schedule ⟨1, 80, 1, 1⟩)))
  have h₅ := (((((h₄.step (.inner (i := Code.select) rfl (.copy (by decide)))).step
    (.inner (i := Code.select) rfl (.copy (by decide)))).step
    (.inner (i := Code.select) rfl (.copy (by decide)))).step
    (.inner (i := Code.select) rfl (.copy (by decide)))).step
    (.inner (i := Code.select) rfl .copied))
  have h₆ := h₅.step (.post (i := Code.select) rfl rfl (.selected (w := 1) rfl))
  have h₇ := ((((h₆.step
    (.outside (.plain (e := .connect) trivial (fun _ h0 => by cases h0) (.connect rfl rfl)))).step
    (.outside (.plain (e := .sendmsg) trivial (fun _ h0 => by cases h0) (.sendmsg rfl)))).step
    (.outside (.plain Pc.noConfusion (worker_not_fetch _ 1) (.worker rfl)))).step
    (.outside (.plain Pc.noConfusion (worker_not_fetch _ 1) (.worker rfl)))).step
    (.outside (@Outside.Step.request _ _ 1 5 (List.mem_singleton.2 rfl)))
  have h₈ := (((h₇.step
    (.wait (i := Code.lookup 0 1) (by exact ⟨⟨1, 5, none⟩, rfl, rfl, rfl⟩) rfl rfl)).step
    (.inner (i := Code.lookup 0 1) rfl (.next Nat.zero_lt_two (by decide)))).step
    (.inner (i := Code.lookup 0 1) rfl (.found Nat.one_lt_two rfl))).step
    (.post (i := Code.lookup 0 1) rfl rfl (.slot (r := ⟨1, 5, none⟩) rfl rfl))
  have h₉ := ((h₈.step
    (.outside (.plain (e := .close) trivial (fun _ h0 => by cases h0) (.close rfl)))).step
    (.outside (.plain (e := .fetch 6) trivial (fun _ h0 => by cases h0; rfl) (.fetch rfl)))).step
    (.wait (i := Code.select) (by exact ⟨6, rfl⟩) rfl rfl)
  have hreads := (sections_atomic twoPids_injective h₉).2.2
    ⟨1, 5, some (some 1)⟩ (List.mem_singleton.2 rfl) 1 rfl rfl
  refine ⟨_, h₉, Option.some_ne_none _, rfl, rfl, ?_⟩
  exact congrArg Server.ip (Option.some.inj hreads).symm

end Heimdall.Pool
