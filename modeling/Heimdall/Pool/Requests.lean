import Heimdall.Pool.Dispatch
import Heimdall.Pool.Prefork

/-!
# The server of a request

The parent schedules a server for each connection and leaves it in the slot of the worker to which
it gives the connection. A `request_work` of that worker looks its slot up by the pid, with the
semaphore held, and reads the server there after the semaphore has been released.

The steps of the dispatcher and of the workers are those of `Step`; the flags that the sections test
and set are those of the shared memory. What is modelled as a descriptor is the connection that it
stands for, so that no two connections have the same. `scheduled` and `busyFor` record the server
that was scheduled for a connection, and the connection for which a worker was marked as busy; no
code reads them.

While a worker is marked as busy for a connection its slot keeps the server of that connection
(`reads_scheduled`), and it is as long as it serves the connection (`serving_marked`).
-/

namespace Heimdall.Pool

open Heimdall.RoundRobin (Server)

/-- The descriptor is on its way to the worker, or the worker serves it. -/
def State.Carries {n : Nat} (s : State n) (w : Fin n) (fd : Nat) : Prop :=
  s.dispatcher = .connect fd w ∨ (∃ conn, s.dispatcher = .sendmsg fd w conn) ∨
    (∃ conn, (s.worker w).Has conn ∧ s.message conn = some fd) ∨ (s.worker w).pc = .serve fd

section Update

variable {n : Nat} {w : Fin n}

/-- What is set in a worker does not show in anything else of it. -/
theorem worker_update {β : Type*} (g : Worker → β) {f : Fin n → Worker} {y : Worker}
    (hy : g y = g (f w)) (v : Fin n) : g (Function.update f w y v) = g (f v) := by
  by_cases hv : v = w
  · subst hv
    rw [Function.update_self, hy]
  · rw [Function.update_of_ne hv]

/-- A relation between slots and workers, kept where a slot and its worker are set together. -/
theorem slots_update {κ α β : Type*} [DecidableEq κ] {slot : Fin n → κ}
    (hslot : Function.Injective slot) {R : α → β → Prop} {f : κ → α} {g : Fin n → β} {x : α} {y : β}
    (h : ∀ v, R (f (slot v)) (g v)) (hxy : R x y) (v : Fin n) :
    R (Function.update f (slot w) x (slot v)) (Function.update g w y v) := by
  by_cases hv : v = w
  · subst hv
    rwa [Function.update_self, Function.update_self]
  · rw [Function.update_of_ne (hslot.ne hv), Function.update_of_ne hv]
    exact h v

end Update

section Carries

variable {n : Nat} {failed : Prop} {s t : State n} {e : Event n} {w : Fin n}

/-- What a worker has while the dispatcher is sending to it, is empty. -/
theorem Invariant.empty_of_has {fd conn c : Nat} (hI : Invariant failed s)
    (hd : s.dispatcher = .sendmsg fd w conn) (hh : (s.worker w).Has c) : s.message c = none := by
  by_cases hblocked : ∃ dead, Blocked s w dead
  · obtain ⟨dead, hdead⟩ := hblocked
    obtain rfl := hdead.waits.unique hh.waits
    exact hdead.empty
  · obtain ⟨-, hh', -⟩ := hI.of_sendmsg hd fun dead h0 => hblocked ⟨dead, h0⟩
    obtain rfl := hh.unique hh'
    exact (hI.sending _ _ _ hd).1

/-- A connection of a worker that the dispatcher is not sending to is not the dispatcher's. -/
theorem Invariant.not_sending {fd conn : Nat} {v : Fin n} (hI : Invariant failed s)
    (hh : (s.worker w).Has conn) (ht : s.dispatcher.target ≠ some w) :
    s.dispatcher ≠ .sendmsg fd v conn := by
  intro hd
  have hnot : ((s.worker w).pc.early = true ∨ (s.worker w).pc.late = true) →
      (s.worker w).queue (s.worker w).round ≠ [] := by
    intro hpc hq
    have h0 := hh.connections (hI.stale w)
    rw [Worker.connections_nil hpc hq (hI.stale w)] at h0
    cases h0
  cases hI.stage w with
  | idle _ _ he hq => exact hnot (.inl he) hq
  | picked _ _ _ he hq => exact hnot (.inl he) hq
  | connected _ _ _ hd' =>
    rw [hd'] at ht
    exact ht rfl
  | delivered _ _ conn' _ hh' hm =>
    obtain rfl := hh.unique hh'
    cases (hI.sending _ _ _ hd).1.symm.trans hm
  | served _ _ hl hq => exact hnot (.inr hl) hq
  | blocked _ _ dead h =>
    obtain rfl := h.waits.unique hh.waits
    exact h.left fd v hd

/-- A worker has a connection because it had it, and serves what it has received on one. -/
theorem Invariant.own_step {y : Worker} (hI : Invariant failed s)
    (hx : (s.worker w).step s.message = some y) :
    (∀ conn, y.Has conn → (s.worker w).Has conn) ∧
      ∀ fd, y.pc = .serve fd → ∃ conn, (s.worker w).Has conn ∧ s.message conn = some fd := by
  have hempty : (s.worker w).pc ≠ .accept →
      (∀ conn, (s.worker w).pc = .recvmsg conn → s.message conn ≠ none) →
      (s.worker w).queue (s.worker w).round = [] :=
    fun hpc hm => hI.queue_empty hpc fun conn h0 hnone => absurd hnone (hm conn h0)
  unfold Worker.step at hx
  cases hpc : (s.worker w).pc with
  | remove | serve | unlink | release =>
    simp only [hpc, Option.some.injEq] at hx
    subst hx
    refine ⟨?_, ?_⟩
    · rintro conn (⟨h0, -⟩ | ⟨h0, -⟩) <;> cases h0
    · intro fd h0
      cases h0
  | bind =>
    simp only [hpc] at hx
    split at hx
    · cases hx
      refine ⟨?_, ?_⟩
      · rintro conn (⟨h0, -⟩ | ⟨h0, -⟩) <;> cases h0
      · intro fd h0
        cases h0
    · cases hx
  | listen =>
    simp only [hpc, Option.some.injEq] at hx
    subst hx
    refine ⟨?_, ?_⟩
    · rintro conn (⟨-, hq⟩ | ⟨h0, -⟩)
      · change (s.worker w).queue (s.worker w).round = [conn] at hq
        rw [hempty (by rw [hpc]; exact Pc.noConfusion) (by rw [hpc]; rintro _ ⟨⟩)] at hq
        cases hq
      · cases h0
    · intro fd h0
      cases h0
  | accept =>
    simp only [hpc] at hx
    split at hx
    · cases hx
    · rename_i conn rest hq
      cases hx
      refine ⟨?_, ?_⟩
      · rintro conn' (⟨h0, -⟩ | ⟨h0, hq'⟩)
        · cases h0
        · cases h0
          have hrest : rest = [] := by simpa using hq'
          exact .inl ⟨hpc, by rw [hq, hrest]⟩
      · intro fd h0
        cases h0
  | recvmsg conn =>
    simp only [hpc] at hx
    split at hx
    · cases hx
    · rename_i fd hm
      cases hx
      refine ⟨?_, ?_⟩
      · rintro conn' (⟨h0, -⟩ | ⟨h0, -⟩) <;> cases h0
      · intro fd' h0
        cases h0
        refine ⟨conn, .inr ⟨hpc, hempty (by rw [hpc]; exact Pc.noConfusion) ?_⟩, hm⟩
        intro conn' h0
        cases hpc.symm.trans h0
        rw [hm]
        exact Option.some_ne_none fd

/-- **A worker gets a descriptor by being picked** for it. -/
theorem carries_step {fd : Nat} (hI : Invariant True s) (h : Step s e t) (hc : t.Carries w fd) :
    s.Carries w fd ∨ e = .pick w ∧ s.dispatcher = .pick fd := by
  have hI' : Invariant True t := invariant_step hI h fun _ => trivial
  cases h with
  | fetch hd =>
    rcases hc with h0 | ⟨conn, h0⟩ | hrest
    · cases h0
    · cases h0
    · exact .inl (.inr (.inr hrest))
  | @pick fd' w' hd hb =>
    rcases hc with h0 | ⟨conn, h0⟩ | hrest
    · cases h0
      exact .inr ⟨rfl, hd⟩
    · cases h0
    · exact .inl (.inr (.inr hrest))
  | refused hd hp => exact .inl hc
  | @connect fd' r w' hd hp =>
    rcases hc with h0 | ⟨conn, h0⟩ | ⟨conn, hh, hm⟩ | hpc
    · cases h0
    · cases h0
      exact .inl (.inl hd)
    · by_cases hw : w = w'
      · -- the new connection is the only one, and nothing has been sent on it
        subst hw
        cases (hI'.empty_of_has rfl hh).symm.trans hm
      · dsimp only at hh
        rw [Function.update_of_ne hw] at hh
        exact .inl (.inr (.inr (.inl ⟨conn, hh, hm⟩)))
    · refine .inl (.inr (.inr (.inr ((worker_update Worker.pc ?_ w).symm.trans hpc))))
      rfl
  | @sendmsg fd' conn' w' hd =>
    rcases hc with h0 | ⟨conn, h0⟩ | ⟨conn, hh, hm⟩ | hpc
    · cases h0
    · cases h0
    · have hh' : (s.worker w).Has conn := by
        refine (worker_update (fun x => x.Has conn) ?_ w).mp hh
        rfl
      by_cases hconn : conn = conn'
      · subst hconn
        dsimp only at hm
        rw [Function.update_self] at hm
        cases hm
        by_cases hw : w = w'
        · subst hw
          exact .inl (.inr (.inl ⟨conn, hd⟩))
        · -- what another worker has is not the dispatcher's
          refine absurd hd (hI.not_sending hh' ?_)
          rw [hd]
          intro h0
          exact hw (Option.some.inj h0).symm
      · dsimp only at hm
        rw [Function.update_of_ne hconn] at hm
        exact .inl (.inr (.inr (.inl ⟨conn, hh', hm⟩)))
    · refine .inl (.inr (.inr (.inr ((worker_update Worker.pc ?_ w).symm.trans hpc))))
      rfl
  | @notSent fd' conn' w' hd =>
    rcases hc with h0 | ⟨conn, h0⟩ | hrest
    · cases h0
      exact .inl (.inr (.inl ⟨conn', hd⟩))
    · cases h0
    · exact .inl (.inr (.inr hrest))
  | close hd =>
    rcases hc with h0 | ⟨conn, h0⟩ | hrest
    · cases h0
    · cases h0
    · exact .inl (.inr (.inr hrest))
  | @worker w' y hx =>
    rcases hc with h0 | ⟨conn, h0⟩ | hrest
    · exact .inl (.inl h0)
    · exact .inl (.inr (.inl ⟨conn, h0⟩))
    · by_cases hw : w = w'
      · subst hw
        dsimp only at hrest
        rw [Function.update_self] at hrest
        obtain ⟨hhas, hserve⟩ := hI.own_step hx
        rcases hrest with ⟨conn, hh, hm⟩ | hpc
        · exact .inl (.inr (.inr (.inl ⟨conn, hhas conn hh, hm⟩)))
        · exact .inl (.inr (.inr (.inl (hserve fd hpc))))
      · dsimp only at hrest
        rw [Function.update_of_ne hw] at hrest
        exact .inl (.inr (.inr hrest))

/-- A worker that releases its slot has no descriptor. -/
theorem Invariant.not_carries {fd : Nat} (hI : Invariant failed s)
    (hpc : (s.worker w).pc = .release) : ¬ s.Carries w fd := by
  have htarget : s.dispatcher.target ≠ some w := by
    cases hI.stage w with
    | idle _ ht | delivered _ _ _ ht | served _ ht => exact ht
    | picked _ _ _ he =>
      rw [hpc] at he
      cases he
    | connected _ _ _ _ hh =>
      rcases hh with ⟨h0, -⟩ | ⟨h0, -⟩ <;> cases hpc.symm.trans h0
    | blocked _ _ dead h => exact absurd hpc h.waits.pc_ne
  rintro (hd | ⟨conn, hd⟩ | ⟨conn, hh, -⟩ | h0)
  · exact htarget (by rw [hd]; rfl)
  · exact htarget (by rw [hd]; rfl)
  · rcases hh with ⟨h0, -⟩ | ⟨h0, -⟩ <;> cases hpc.symm.trans h0
  · cases hpc.symm.trans h0

end Carries

/-! ## The sections on the shared memory -/

/-- A `request_work` thread of a worker, for a request that came on the connection `conn`. `remote`
is the slot that it has found, once it has looked for it. -/
structure RequestWork (n : Nat) where
  worker : Fin n
  conn : Nat
  remote : Option (Option Nat)

structure Service (n : Nat) where
  pool : State n
  memory : THPSharedMem
  requests : List (RequestWork n)
  scheduled : Nat → Option Server
  busyFor : Fin n → Option Nat

/-- The step takes no section that sets a flag. -/
def State.Plain {n : Nat} (s : State n) : Event n → Prop
  | .pick _ => False
  | .worker w => (s.worker w).pc ≠ .release
  | _ => True

namespace Service

inductive Event (n : Nat)
  | plain (e : Pool.Event n)
  | full
  | select (w : Fin n) (server : Server)
  | release (w : Fin n)
  | request (w : Fin n) (conn : Nat)
  | findSlot (j : Nat) (slot : Option Nat)
  | readStatus (j : Nat) (status : Int)
  | readIp (j : Nat) (ip : CharPtr)

inductive Step {n : Nat} (pid : Fin n → Pid) : Service n → Event n → Service n → Prop
  /-- A descriptor that is fetched is one for which no server has been scheduled. -/
  | plain {s : Service n} {e : Pool.Event n} {p : State n} (he : s.pool.Plain e)
      (hnew : ∀ fd, e = .fetch fd → s.scheduled fd = none) (hp : Pool.Step s.pool e p) :
      Step pid s (.plain e) { s with pool := p }
  | full {s : Service n} {fd : Nat} {server : Server} (hd : s.pool.dispatcher = .pick fd)
      (hs : selectWorker n server s.memory = none) : Step pid s .full s
  /-- The descriptor is sent to the process whose pid is in the slot. -/
  | select {s : Service n} {fd i : Nat} {w : Fin n} {server : Server} {m : THPSharedMem}
      (hd : s.pool.dispatcher = .pick fd)
      (hs : selectWorker n server s.memory = some (i, (pid w : Int), m)) :
      Step pid s (.select w server) { s with
        pool := { s.pool with
          busy := Function.update s.pool.busy w true
          dispatcher := .connect fd w }
        memory := m
        scheduled := Function.update s.scheduled fd (some server)
        busyFor := Function.update s.busyFor w (some fd) }
  | release {s : Service n} {w : Fin n} {x : Worker} (hpc : (s.pool.worker w).pc = .release)
      (hx : (s.pool.worker w).step s.pool.message = some x) :
      Step pid s (.release w) { s with
        pool := { s.pool with
          worker := Function.update s.pool.worker w x
          busy := Function.update s.pool.busy w false }
        memory := release n (pid w) s.memory
        busyFor := Function.update s.busyFor w none }
  | request {s : Service n} {w : Fin n} {conn : Nat}
      (hr : conn ∈ (s.pool.worker w).received) :
      Step pid s (.request w conn) { s with requests := s.requests ++ [⟨w, conn, none⟩] }
  | findSlot {s : Service n} {j : Nat} {r : RequestWork n} (hj : s.requests[j]? = some r)
      (hr : r.remote = none) :
      Step pid s (.findSlot j (findSlot n (pid r.worker) s.memory)) { s with
        requests := s.requests.set j
          { r with remote := some (findSlot n (pid r.worker) s.memory) } }
  | readStatus {s : Service n} {i j : Nat} {r : RequestWork n} (hj : s.requests[j]? = some r)
      (hr : r.remote = some (some i)) :
      Step pid s (.readStatus j (s.memory.workerServer i).status) s
  | readIp {s : Service n} {i j : Nat} {r : RequestWork n} (hj : s.requests[j]? = some r)
      (hr : r.remote = some (some i)) : Step pid s (.readIp j (s.memory.workerServer i).ip) s

end Service

/-- `n` workers, which `do_prefork` has created with the pids `pid`. -/
def service {n : Nat} (pid : Fin n → Pid) : System (Service n) (Service.Event n) where
  init s := (pool n).init s.pool ∧ (∃ m, doPrefork n (fun k => if h : k < n then some (pid ⟨k, h⟩)
      else none) m = .ok s.memory) ∧
    s.requests = [] ∧ (∀ fd, s.scheduled fd = none) ∧ ∀ w, s.busyFor w = none
  step := Service.Step pid

namespace Service

/-- **How the shared memory, the pool and the connections stand to each other.** -/
structure Tied {n : Nat} (pid : Fin n → Pid) (s : Service n) : Prop where
  pool : Invariant True s.pool
  array : ∀ w : Fin n, s.memory.workerArray w = (pid w : Int)
  busy : ∀ w : Fin n, s.memory.workerBusy w = 0 ↔ s.pool.busy w = false
  marked : ∀ w : Fin n, s.pool.busy w = false ↔ s.busyFor w = none
  server : ∀ w fd, s.busyFor w = some fd → s.scheduled fd = some (s.memory.workerServer w)
  fresh : ∀ fd, s.pool.dispatcher = .pick fd → s.scheduled fd = none
  carries : ∀ w fd, s.pool.Carries w fd → s.busyFor w = some fd
  remote : ∀ r ∈ s.requests, ∀ slot, r.remote = some slot → slot = some (r.worker : Nat)

section Steps

variable {n : Nat} {pid : Fin n → Pid} {s t : Service n} {event : Event n} {w : Fin n}

/-- The slot of a worker. -/
theorem Tied.findSlot_eq (hpid : Function.Injective pid) (h : s.Tied pid) (w : Fin n) :
    findSlot n (pid w) s.memory = some (w : Nat) := by
  apply Pool.findSlot_eq w.2 (h.array w)
  intro j hj heq
  have hslot : s.memory.workerArray j = (pid ⟨j, hj⟩ : Int) := h.array ⟨j, hj⟩
  have hw : (⟨j, hj⟩ : Fin n) = w := hpid (Subtype.ext (hslot.symm.trans heq))
  exact congrArg Fin.val hw

/-- What is selected is the slot of an idle worker. -/
theorem Tied.select_eq (hpid : Function.Injective pid) (h : s.Tied pid) {i : Nat} {server : Server}
    {m : THPSharedMem} (hs : selectWorker n server s.memory = some (i, (pid w : Int), m)) :
    i = w ∧ s.pool.busy w = false ∧ m.workerArray = s.memory.workerArray ∧
      m.workerBusy = Function.update s.memory.workerBusy w 1 ∧
      m.workerServer = Function.update s.memory.workerServer w server := by
  obtain ⟨hi, hidle, hp, harray, hbusy, hserver⟩ := selectWorker_some hs
  have hslot : s.memory.workerArray i = (pid ⟨i, hi⟩ : Int) := h.array ⟨i, hi⟩
  have hw : w = ⟨i, hi⟩ := hpid (Subtype.ext (hp.trans hslot))
  subst hw
  exact ⟨rfl, (h.busy ⟨i, hi⟩).1 hidle, harray, hbusy, hserver⟩

theorem tied_init (h : (service pid).init s) : s.Tied pid := by
  obtain ⟨hpool, ⟨m, hm⟩, hreq, hsched, hfor⟩ := h
  obtain ⟨m', hm', hreg⟩ := doPrefork_registered n
    (fun k => if h : k < n then some (pid ⟨k, h⟩) else none) m
  obtain rfl : m' = s.memory := Except.ok.inj (hm'.symm.trans hm)
  have hslots : ∀ w : Fin n, (w : Nat) < slots n := by
    intro w
    have hpos : n ≠ 0 := Nat.ne_of_gt (Nat.zero_lt_of_lt w.2)
    unfold slots
    rw [if_neg hpos]
    exact w.2
  have hI : Invariant True s.pool := invariant_init hpool
  refine ⟨hI, ?_, ?_, ?_, ?_, ?_, ?_, ?_⟩
  · intro w
    rw [hreg.taken w (hslots w), dif_pos w.2]
    rfl
  · intro w
    exact ⟨fun _ => (hpool.1 w).1, fun _ => hreg.idle w (hslots w)⟩
  · intro w
    exact ⟨fun _ => hfor w, fun _ => (hpool.1 w).1⟩
  · intro w fd hbusy
    rw [hfor w] at hbusy
    cases hbusy
  · intro fd _
    exact hsched fd
  · rintro w fd (hd | ⟨conn, hd⟩ | ⟨conn, -, hmsg⟩ | hpc)
    · cases hpool.2.2.symm.trans hd
    · cases hpool.2.2.symm.trans hd
    · cases (hpool.2.1 conn).symm.trans hmsg
    · cases (hpool.1 w).2.2.1.symm.trans hpc
  · intro r hr
    rw [hreq] at hr
    cases hr

/-- The dispatcher and the workers between the sections. -/
theorem tied_plain (h : s.Tied pid) {e : Pool.Event n} {p : State n} (he : s.pool.Plain e)
    (hnew : ∀ fd, e = .fetch fd → s.scheduled fd = none) (hp : Pool.Step s.pool e p) :
    Tied pid { s with pool := p } := by
  have hpick : ∀ w, e ≠ .pick w := by
    rintro w rfl
    exact he
  have hbusy : p.busy = s.pool.busy := by
    cases hp with
    | fetch | refused | connect | sendmsg | notSent | close => rfl
    | pick => exact absurd rfl (hpick _)
    | worker hx => exact if_neg he
  refine ⟨invariant_step h.pool hp fun _ => trivial, h.array, ?_, ?_, h.server, ?_, ?_, h.remote⟩
  · intro w
    rw [hbusy]
    exact h.busy w
  · intro w
    rw [hbusy]
    exact h.marked w
  · intro fd hd
    cases hp with
    | fetch hd' =>
      cases hd
      exact hnew _ rfl
    | refused hd' => exact h.fresh fd hd
    | worker hx => exact h.fresh fd hd
    | pick => exact absurd rfl (hpick _)
    | connect | sendmsg | notSent | close => cases hd
  · intro w fd hc
    rcases carries_step h.pool hp hc with hs | ⟨heq, -⟩
    · exact h.carries w fd hs
    · exact absurd heq (hpick w)

/-- The section of the parent. -/
theorem tied_select (hpid : Function.Injective pid) (h : s.Tied pid) {fd i : Nat}
    {server : Server} {m : THPSharedMem} (hd : s.pool.dispatcher = .pick fd)
    (hs : selectWorker n server s.memory = some (i, (pid w : Int), m)) :
    Tied pid { s with
      pool := { s.pool with
        busy := Function.update s.pool.busy w true
        dispatcher := .connect fd w }
      memory := m
      scheduled := Function.update s.scheduled fd (some server)
      busyFor := Function.update s.busyFor w (some fd) } := by
  obtain ⟨-, hidle, harray, hbusy, hserver⟩ := h.select_eq hpid hs
  have hstep : Pool.Step s.pool (.pick w) _ := .pick hd hidle
  have hslot : ∀ v : Fin n, v ≠ w → (v : Nat) ≠ w := fun v hv h0 => hv (Fin.ext h0)
  refine ⟨invariant_step h.pool hstep fun _ => trivial, ?_, ?_, ?_, ?_, ?_, ?_, h.remote⟩
  · intro v
    dsimp only
    rw [harray]
    exact h.array v
  · intro v
    dsimp only
    rw [hbusy]
    exact slots_update (R := fun a b => a = 0 ↔ b = false) (fun _ _ => Fin.ext) h.busy (by simp) v
  · exact slots_update (R := fun a b => a = false ↔ b = none) Function.injective_id h.marked
      (by simp)
  · intro v fd' hfor
    dsimp only at hfor ⊢
    rw [hserver]
    by_cases hv : v = w
    · subst hv
      rw [Function.update_self] at hfor ⊢
      cases hfor
      exact Function.update_self ..
    · rw [Function.update_of_ne hv] at hfor
      rw [Function.update_of_ne (hslot v hv)]
      -- the descriptor of another worker has a server, and this one has none yet
      have hne : fd' ≠ fd := by
        rintro rfl
        cases (h.fresh fd' hd).symm.trans (h.server v fd' hfor)
      exact (Function.update_of_ne hne ..).trans (h.server v fd' hfor)
  · intro fd' h0
    cases h0
  · intro v fd' hc
    dsimp only
    rcases carries_step h.pool hstep hc with hc' | ⟨heq, hpick⟩
    · have hfor := h.carries v fd' hc'
      have hv : v ≠ w := by
        rintro rfl
        cases ((h.marked v).1 hidle).symm.trans hfor
      rw [Function.update_of_ne hv]
      exact hfor
    · cases heq
      cases hd.symm.trans hpick
      exact Function.update_self ..

/-- The section of a worker at the end of a job. -/
theorem tied_release (hpid : Function.Injective pid) (h : s.Tied pid) {x : Worker}
    (hpc : (s.pool.worker w).pc = .release)
    (hx : (s.pool.worker w).step s.pool.message = some x) :
    Tied pid { s with
      pool := { s.pool with
        worker := Function.update s.pool.worker w x
        busy := Function.update s.pool.busy w false }
      memory := release n (pid w) s.memory
      busyFor := Function.update s.busyFor w none } := by
  have hstep : Pool.Step s.pool (.worker w) { s.pool with
      worker := Function.update s.pool.worker w x
      busy := Function.update s.pool.busy w false } := by
    have hw := Pool.Step.worker hx
    rwa [if_pos hpc] at hw
  rw [release_eq (h.findSlot_eq hpid w)]
  refine ⟨invariant_step h.pool hstep fun _ => trivial, h.array, ?_, ?_, ?_, h.fresh, ?_, h.remote⟩
  · exact slots_update (R := fun a b => a = 0 ↔ b = false) (fun _ _ => Fin.ext) h.busy (by simp)
  · exact slots_update (R := fun a b => a = false ↔ b = none) Function.injective_id h.marked
      (by simp)
  · intro v fd hfor
    dsimp only at hfor
    by_cases hv : v = w
    · subst hv
      rw [Function.update_self] at hfor
      cases hfor
    · rw [Function.update_of_ne hv] at hfor
      exact h.server v fd hfor
  · intro v fd hc
    dsimp only
    rcases carries_step h.pool hstep hc with hc' | ⟨heq, -⟩
    · have hv : v ≠ w := by
        rintro rfl
        exact h.pool.not_carries hpc hc'
      rw [Function.update_of_ne hv]
      exact h.carries v fd hc'
    · cases heq

/-- **The step lemma** for the shared memory. -/
theorem tied_step (hpid : Function.Injective pid) (h : s.Tied pid)
    (hstep : Step pid s event t) : t.Tied pid := by
  cases hstep with
  | plain he hnew hp => exact tied_plain h he hnew hp
  | full => exact h
  | select hd hs => exact tied_select hpid h hd hs
  | release hpc hx => exact tied_release hpid h hpc hx
  | request hr =>
    refine { h with remote := ?_ }
    intro r hmem slot hslot
    rcases List.mem_append.1 hmem with hold | hnew
    · exact h.remote r hold slot hslot
    · rw [List.mem_singleton.1 hnew] at hslot
      cases hslot
  | @findSlot j r hj hr =>
    refine { h with remote := ?_ }
    intro r' hmem slot hslot
    rcases List.mem_or_eq_of_mem_set hmem with hold | rfl
    · exact h.remote r' hold slot hslot
    · cases hslot
      exact h.findSlot_eq hpid r.worker
  | readStatus => exact h
  | readIp => exact h

theorem tied_reachable (hpid : Function.Injective pid) (h : (service pid).Reachable s) :
    s.Tied pid := by
  apply h.invariant (Tied pid)
  · intro s hs
    exact tied_init hs
  · intro s event t hs hstep
    exact tied_step hpid hs hstep

end Steps

end Service

section Results

variable {n : Nat} {pid : Fin n → Pid} {s : Service n}

/-- The service simulates the pool: what holds of its runs holds of the dispatcher and the workers
when they use the shared memory. -/
theorem pool_reachable (hpid : Function.Injective pid) (h : (service pid).Reachable s) :
    (pool n).Reachable s.pool := by
  apply h.map Service.pool
  · intro s hs
    exact hs.1
  · intro s event t hs hstep
    have htied := Service.tied_reachable hpid hs
    cases hstep with
    | plain he hnew hp => exact .inr ⟨_, hp⟩
    | select hd hsel => exact .inr ⟨_, .pick hd (htied.select_eq hpid hsel).2.1⟩
    | @release w x hpc hx =>
      have hw := Pool.Step.worker hx
      rw [if_pos hpc] at hw
      exact .inr ⟨_, hw⟩
    | full | request | findSlot | readStatus | readIp => exact .inl rfl

/-- While a worker serves a connection it is marked as busy for it. -/
theorem serving_marked (hpid : Function.Injective pid) (h : (service pid).Reachable s) {w : Fin n}
    {fd : Nat} (hpc : (s.pool.worker w).pc = .serve fd) : s.busyFor w = some fd :=
  (Service.tied_reachable hpid h).carries w fd (.inr (.inr (.inr hpc)))

/-- **A request reads the server of its connection.** For any number of workers with different pids
and any interleaving of the sections: the lookup of a request finds the slot of its worker; and what
a request reads there, while its worker is marked as busy for the connection that the request came
from, is the server that was scheduled for this connection. -/
theorem reads_scheduled (hpid : Function.Injective pid) (h : (service pid).Reachable s) {j : Nat}
    {r : RequestWork n} (hr : s.requests[j]? = some r) :
    (∀ slot t, Service.Step pid s (.findSlot j slot) t → slot = some (r.worker : Nat)) ∧
      (s.busyFor r.worker = some r.conn → ∃ server, s.scheduled r.conn = some server ∧
        (∀ status t, Service.Step pid s (.readStatus j status) t → status = server.status) ∧
        ∀ ip t, Service.Step pid s (.readIp j ip) t → ip = server.ip) := by
  have htied := Service.tied_reachable hpid h
  refine ⟨?_, ?_⟩
  · intro slot t hstep
    cases hstep with
    | findSlot hj _ =>
      cases hr.symm.trans hj
      exact htied.findSlot_eq hpid r.worker
  · intro hfor
    have hslot : ∀ {r' : RequestWork n} {i : Nat}, s.requests[j]? = some r' →
        r'.remote = some (some i) → i = (r.worker : Nat) := by
      intro r' i hj hi
      cases hr.symm.trans hj
      exact Option.some.inj (htied.remote r (List.mem_of_getElem? hr) _ hi)
    refine ⟨_, htied.server r.worker r.conn hfor, ?_, ?_⟩
    · intro status t hstep
      cases hstep with
      | readStatus hj hi => rw [hslot hj hi]
    · intro ip t hstep
      cases hstep with
      | readIp hj hi => rw [hslot hj hi]

end Results

/-- Two workers with the pids 71 and 72, before their first steps, and their slots. -/
def twoService : Service 2 where
  pool := unstarted 2
  memory := { initSharedMem 2 blankMem with
    workerArray := Function.update
      (Function.update (initSharedMem 2 blankMem).workerArray 0 71) 1 72 }
  requests := []
  scheduled _ := none
  busyFor _ := none

theorem twoService_init : (service twoPids).init twoService :=
  ⟨unstarted_init 2, ⟨blankMem, rfl⟩, rfl, fun _ => rfl, fun _ => rfl⟩

theorem twoPids_injective : Function.Injective twoPids := by
  unfold Function.Injective
  decide

/-- The steps of a worker, which are not those of the dispatcher. -/
theorem worker_not_fetch {n : Nat} (scheduled : Nat → Option Server) (w : Fin n) (fd : Nat)
    (h : (.worker w : Event n) = .fetch fd) : scheduled fd = none := by cases h

/-- The worker 1 serves the connection 5, for which a server with the ip 80 was scheduled, and its
request has found the slot. For the worker 0 another server has been scheduled since. -/
theorem reads_scheduled_two : ∃ s : Service 2, (service twoPids).Reachable s ∧
    s.busyFor 1 = some 5 ∧ s.busyFor 0 = some 6 ∧ s.scheduled 6 = some ⟨2, 81, 1, 1⟩ ∧
      s.requests[0]? = some ⟨1, 5, some (some 1)⟩ ∧
      ∀ ip t, Service.Step twoPids s (.readIp 0 ip) t → ip = 80 := by
  have h₀ := System.Reachable.of_init twoService_init
  have h₁ := ((h₀.step (.plain Pc.noConfusion (worker_not_fetch _ 1) (.worker rfl))).step
    (.plain Pc.noConfusion (worker_not_fetch _ 1) (.worker rfl))).step
    (.plain Pc.noConfusion (worker_not_fetch _ 1) (.worker rfl))
  have h₂ := h₁.step (.plain (e := .fetch 5) trivial (fun _ _ => rfl) (.fetch rfl))
  have h₃ := h₂.step (Service.Step.select rfl rfl :
    Service.Step twoPids _ (.select 1 ⟨1, 80, 1, 1⟩) _)
  have h₄ := (h₃.step (.plain (e := .connect) trivial (fun _ h0 => by cases h0)
    (.connect rfl rfl))).step (.plain (e := .sendmsg) trivial (fun _ h0 => by cases h0)
    (.sendmsg rfl))
  have h₅ := (h₄.step (.plain Pc.noConfusion (worker_not_fetch _ 1) (.worker rfl))).step
    (.plain Pc.noConfusion (worker_not_fetch _ 1) (.worker rfl))
  have h₆ := (h₅.step (.request (w := 1) (List.mem_singleton.2 rfl))).step
    (.findSlot (j := 0) rfl rfl)
  have h₇ := (h₆.step (.plain (e := .close) trivial (fun _ h0 => by cases h0) (.close rfl))).step
    (.plain (e := .fetch 6) trivial (fun _ h0 => by cases h0; rfl) (.fetch rfl))
  have h₈ := h₇.step (Service.Step.select rfl rfl :
    Service.Step twoPids _ (.select 0 ⟨2, 81, 1, 1⟩) _)
  refine ⟨_, h₈, rfl, rfl, rfl, rfl, ?_⟩
  intro ip t hstep
  obtain ⟨-, hreads⟩ := reads_scheduled twoPids_injective h₈ (j := 0) rfl
  obtain ⟨server, hserver, -, hip⟩ := hreads rfl
  cases hserver
  exact hip ip t hstep

end Heimdall.Pool
