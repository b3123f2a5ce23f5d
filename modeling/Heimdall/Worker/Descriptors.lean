import Heimdall.Lib.Ledger
import Mathlib.Data.Fintype.EquivFin

/-!
# The descriptors of a worker

`start_worker` takes one connection after the other: `receive_fd` makes a socket to listen on,
accepts the parent on a second one and receives the connection's descriptor over it. Neither of the
two is ever closed. The request threads make a socket each and close it only on the path on which
nothing fails, and they live on when `start_worker` has closed the connection and cancelled the
others.

When `receive_fd` fails, the worker leaves the process. So every connection brings the worker two
descriptors closer to its end (`connections_le`), and every request that fails brings it one.
-/

namespace Heimdall.Worker.Descriptors

abbrev Fd := Nat

/-- `start_worker`, by what it has open: before the socket of `receive_fd`, in `unix_listen`, in
`accept`, in `recvmsg`, with a connection, and from its close to the end of the loop's pass. -/
inductive Main
  | ready
  | bind (lfd : Fd)
  | accept (lfd : Fd)
  | recvmsg (lfd sfd : Fd)
  | serve (fd : Fd)
  | ending
  deriving DecidableEq

def Main.held : Main → Multiset Fd
  | .ready => 0
  | .bind lfd => {lfd}
  | .accept lfd => {lfd}
  | .recvmsg lfd sfd => {lfd} + {sfd}
  | .serve fd => {fd}
  | .ending => 0

/-- `readers` are the reader threads that run, the cancelled ones that have not noticed yet among
them, `created` the request threads that have not made their socket, `sockets` the sockets of the
others. `lost` are open descriptors that no code knows any more. -/
structure State where
  table : Finset Fd
  main : Main
  readers : Nat
  created : Nat
  sockets : Multiset Fd
  lost : Multiset Fd
  exited : Bool

/-- What the threads own, or have lost. -/
def State.owned (s : State) : Multiset Fd := s.main.held + s.sockets + s.lost

inductive Event
  | socket (lfd : Fd)
  | listen
  | accept (sfd : Fd)
  | receive (fd : Fd)
  | exit
  | close
  | again
  | create
  | readerEnds
  | noSocket
  | request (sd : Fd)
  | failed (sd : Fd)
  | done (sd : Fd)
  deriving DecidableEq

/-- A descriptor that a system call may return. -/
def State.Free (limit : Nat) (s : State) (fd : Fd) : Prop := fd ∉ s.table ∧ s.table.card < limit

instance (limit : Nat) (s : State) (fd : Fd) : Decidable (s.Free limit fd) :=
  inferInstanceAs (Decidable (_ ∧ _))

/-- The steps of `start_worker` and of the request threads; none after the worker has left the
process, which any failure in `receive_fd`, or where `start_worker` makes its threads, makes it do.
-/
inductive Step (limit : Nat) : State → Event → State → Prop
  | socket {s : State} {lfd : Fd} (he : s.exited = false) (hm : s.main = .ready)
      (hf : s.Free limit lfd) :
      Step limit s (.socket lfd) { s with table := insert lfd s.table, main := .bind lfd }
  | listen {s : State} {lfd : Fd} (he : s.exited = false) (hm : s.main = .bind lfd) :
      Step limit s .listen { s with main := .accept lfd }
  | accept {s : State} {lfd sfd : Fd} (he : s.exited = false) (hm : s.main = .accept lfd)
      (hf : s.Free limit sfd) :
      Step limit s (.accept sfd) { s with table := insert sfd s.table, main := .recvmsg lfd sfd }
  | receive {s : State} {lfd sfd fd : Fd} (he : s.exited = false) (hm : s.main = .recvmsg lfd sfd)
      (hf : s.Free limit fd) :
      Step limit s (.receive fd) { s with
        table := insert fd s.table, main := .serve fd, readers := s.readers + 1,
        lost := {lfd} + {sfd} + s.lost }
  | exit {s : State} (he : s.exited = false) : Step limit s .exit { s with exited := true }
  | close {s : State} {fd : Fd} (he : s.exited = false) (hm : s.main = .serve fd) :
      Step limit s .close { s with table := s.table.erase fd, main := .ending }
  | again {s : State} (he : s.exited = false) (hm : s.main = .ending) :
      Step limit s .again { s with main := .ready }
  | create {s : State} (he : s.exited = false) (hr : s.readers ≠ 0) :
      Step limit s .create { s with created := s.created + 1 }
  | readerEnds {s : State} {n : Nat} (he : s.exited = false) (hr : s.readers = n + 1) :
      Step limit s .readerEnds { s with readers := n }
  /-- The server is marked as broken, or `create_socket` fails. -/
  | noSocket {s : State} {n : Nat} (he : s.exited = false) (hc : s.created = n + 1) :
      Step limit s .noSocket { s with created := n }
  | request {s : State} {sd : Fd} {n : Nat} (he : s.exited = false) (hc : s.created = n + 1)
      (hf : s.Free limit sd) :
      Step limit s (.request sd) { s with
        table := insert sd s.table, created := n, sockets := {sd} + s.sockets }
  /-- Everything that can fail between `socket` and `close_connection`. -/
  | failed {s : State} {sd : Fd} {a : Multiset Fd} (he : s.exited = false)
      (ha : s.sockets = {sd} + a) :
      Step limit s (.failed sd) { s with sockets := a, lost := {sd} + s.lost }
  | done {s : State} {sd : Fd} {a : Multiset Fd} (he : s.exited = false)
      (ha : s.sockets = {sd} + a) :
      Step limit s (.done sd) { s with table := s.table.erase sd, sockets := a }

/-- A worker that enters `start_worker` with the descriptors `base`. -/
def start (base : Finset Fd) : State := ⟨base, .ready, 0, 0, 0, 0, false⟩

def worker (limit : Nat) (base : Finset Fd) : System State Event where
  init s := s = start base
  step := Step limit

/-- The descriptors that the step leaves open and that no code knows any more. -/
def Event.loses : Event → Nat
  | .receive _ => 2
  | .failed _ => 1
  | _ => 0

def Event.isReceive : Event → Bool
  | .receive _ => true
  | _ => false

def Event.isFailed : Event → Bool
  | .failed _ => true
  | _ => false

section Steps

variable {limit : Nat} {base : Finset Fd} {s t : State} {e : Event} {es : List Event}

/-- **What a step does to the table.** -/
theorem tableStep_of_step (h : Step limit s e t) :
    TableStep limit s.table t.table s.owned t.owned := by
  unfold State.owned
  cases h with
  | @socket lfd he hm hf =>
    refine .opened lfd hf.1 hf.2 rfl ?_
    simp only [hm, Main.held]
    abel
  | listen he hm =>
    refine .passed rfl ?_
    simp only [hm, Main.held]
  | @accept lfd sfd he hm hf =>
    refine .opened sfd hf.1 hf.2 rfl ?_
    simp only [hm, Main.held]
    abel
  | @receive lfd sfd fd he hm hf =>
    refine .opened fd hf.1 hf.2 rfl ?_
    simp only [hm, Main.held]
    abel
  | exit | create | readerEnds | noSocket => exact .passed rfl rfl
  | @close fd he hm =>
    refine .closed fd rfl ?_
    simp only [hm, Main.held]
    abel
  | again he hm =>
    refine .passed rfl ?_
    simp only [hm, Main.held]
  | @request sd n he hc hf =>
    refine .opened sd hf.1 hf.2 rfl ?_
    dsimp only
    abel
  | @failed sd a he ha =>
    refine .passed rfl ?_
    simp only [ha]
    abel
  | @done sd a he ha =>
    refine .closed sd rfl ?_
    simp only [ha]
    abel

theorem ledger_run (hrun : (worker limit base).Run s es t)
    (h : Ledger limit base s.table s.owned) : Ledger limit base t.table t.owned :=
  Ledger.run (fun _ _ _ => tableStep_of_step) hrun h

theorem ledger_start (h : base.card ≤ limit) :
    Ledger limit base (start base).table (start base).owned := .of_base h

theorem lost_step (h : Step limit s e t) :
    Multiset.card t.lost = Multiset.card s.lost + e.loses := by
  cases h with
  | receive | failed =>
    simp only [Multiset.card_add, Multiset.card_singleton, Event.loses]
    omega
  | socket | listen | accept | exit | close | again | create | readerEnds | noSocket | request
  | done => rfl

theorem loses_eq (e : Event) :
    e.loses = 2 * (if e.isReceive then 1 else 0) + if e.isFailed then 1 else 0 := by
  cases e <;> rfl

theorem loses_sum (es : List Event) :
    (es.map Event.loses).sum = 2 * es.countP Event.isReceive + es.countP Event.isFailed := by
  induction es with
  | nil => rfl
  | cons e es ih =>
    rw [List.map_cons, List.sum_cons, ih, loses_eq, List.countP_cons, List.countP_cons]
    omega

theorem lost_run (h : (worker limit base).Run s es t) :
    Multiset.card t.lost =
      Multiset.card s.lost + (2 * es.countP Event.isReceive + es.countP Event.isFailed) := by
  rw [← loses_sum]
  exact h.gain (f := fun s => Multiset.card s.lost) fun _ _ _ => lost_step

/-- A connection is received over two sockets, and needs a descriptor of its own. -/
theorem room_at_receive (h : Step limit s e t) (he : e.isReceive = true)
    (hs : Ledger limit base s.table s.owned) :
    Multiset.card s.lost + 2 + (base.card + 1) ≤ limit := by
  have hcard := hs.card_eq
  cases h with
  | receive _ hm hf =>
    simp only [State.owned, hm, Main.held, Multiset.card_add, Multiset.card_singleton] at hcard
    have hlt := hf.2
    omega
  | socket | listen | accept | exit | close | again | create | readerEnds | noSocket | request
  | failed | done => cases he

theorem receives_le (hrun : (worker limit base).Run s es t)
    (hs : Ledger limit base s.table s.owned) (hpos : es.countP Event.isReceive ≠ 0) :
    Multiset.card s.lost + 2 * es.countP Event.isReceive + (base.card + 1) ≤ limit := by
  refine hrun.budget (I := fun s => Ledger limit base s.table s.owned)
    (f := fun s => Multiset.card s.lost) (fun s e t hs h => hs.step (tableStep_of_step h))
    (fun _ _ _ => lost_step) ?_ ?_ hs hpos
  · intro e he
    cases e with
    | receive => exact Nat.le_refl 2
    | _ => cases he
  · intro s e t hs h he
    exact room_at_receive h he hs

end Steps

/-! ## The end of it -/

section Rounds

variable {limit : Nat} {base : Finset Fd} {s t : State} {es : List Event}

theorem exists_free (s : State) (h : s.table.card < limit) : ∃ fd, s.Free limit fd := by
  obtain ⟨fd, hfd⟩ := Infinite.exists_notMem_finset s.table
  exact ⟨fd, hfd, h⟩

/-- A connection is received, and the two sockets that it is received over stay open. -/
theorem run_receive (base : Finset Fd) (hm : s.main = .ready) (he : s.exited = false)
    (h : s.table.card + 3 ≤ limit) :
    ∃ es t fd, (worker limit base).Run s es t ∧ es.countP Event.isReceive = 1 ∧
      t.main = .serve fd ∧ fd ∈ t.table ∧ t.exited = false ∧
      t.table.card = s.table.card + 3 := by
  have hlt : s.table.card < limit := by omega
  obtain ⟨lfd, hlfd⟩ := exists_free s hlt
  have hcard := Finset.card_insert_of_notMem hlfd.1
  have hroom : (insert lfd s.table).card < limit := by omega
  obtain ⟨sfd, hsfd⟩ :=
    exists_free { s with table := insert lfd s.table, main := .accept lfd } hroom
  have hcard' := Finset.card_insert_of_notMem hsfd.1
  dsimp only at hcard'
  have hroom' : (insert sfd (insert lfd s.table)).card < limit := by omega
  obtain ⟨fd, hfd⟩ := exists_free
    { s with table := insert sfd (insert lfd s.table), main := .recvmsg lfd sfd } hroom'
  have hcard'' := Finset.card_insert_of_notMem hfd.1
  dsimp only at hcard''
  refine ⟨[.socket lfd, .listen, .accept sfd, .receive fd], _, fd, .cons (.socket he hm hlfd)
    (.cons (.listen he rfl) (.cons (.accept he rfl hsfd) (.cons (.receive he rfl hfd) (.nil _)))),
    rfl, rfl, Finset.mem_insert_self .., he, ?_⟩
  dsimp only
  omega

/-- A whole pass of `start_worker` costs two descriptors. -/
theorem run_round (base : Finset Fd) (hm : s.main = .ready) (he : s.exited = false)
    (h : s.table.card + 3 ≤ limit) :
    ∃ es t, (worker limit base).Run s es t ∧ es.countP Event.isReceive = 1 ∧ t.main = .ready ∧
      t.exited = false ∧ t.table.card = s.table.card + 2 := by
  obtain ⟨es, t, fd, hrun, hcount, hserve, hmem, het, hcard⟩ := run_receive base hm he h
  have hend : (worker limit base).Run t [.close, .again]
      { t with table := t.table.erase fd, main := .ready } :=
    .cons (.close het hserve) (.cons (.again het rfl) (.nil _))
  refine ⟨es ++ [.close, .again], { t with table := t.table.erase fd, main := .ready },
    hrun.append hend, ?_, rfl, het, ?_⟩
  · rw [List.countP_append, hcount]
    rfl
  · dsimp only
    rw [Finset.card_erase_of_mem hmem, hcard]
    rfl

theorem run_rounds (base : Finset Fd) {k : Nat} (hm : s.main = .ready) (he : s.exited = false)
    (h : s.table.card + 2 * k + 1 ≤ limit) :
    ∃ es t, (worker limit base).Run s es t ∧ es.countP Event.isReceive = k := by
  induction k generalizing s with
  | zero => exact ⟨[], s, .nil s, rfl⟩
  | succ k ih =>
    have hthree : s.table.card + 3 ≤ limit := by omega
    obtain ⟨es, t, hrun, hcount, hmt, het, hcard⟩ := run_round base hm he hthree
    have hroom : t.table.card + 2 * k + 1 ≤ limit := by omega
    obtain ⟨es', u, hrun', hcount'⟩ := ih hmt het hroom
    refine ⟨es ++ es', u, hrun.append hrun', ?_⟩
    rw [List.countP_append, hcount, hcount', Nat.add_comm]

/-- **How many connections a worker can take.** In every run, what is open is what was open in the
beginning and what the threads own or have lost, nothing twice. Every connection costs two
descriptors for good and every request that fails after its socket has been made costs one; so the
worker receives no more connections than half of what the limit leaves free, one descriptor set
aside, and it can receive as many. -/
theorem connections_le (hbase : base.card ≤ limit) :
    (∀ es t, (worker limit base).Run (start base) es t →
      t.table.val = base.val + t.owned ∧
      base.card + 2 * es.countP Event.isReceive + es.countP Event.isFailed ≤ limit ∧
      es.countP Event.isReceive ≤ (limit - base.card - 1) / 2) ∧
    ∃ es t, (worker limit base).Run (start base) es t ∧
      es.countP Event.isReceive = (limit - base.card - 1) / 2 := by
  refine ⟨?_, ?_⟩
  · intro es t h
    have hledger := ledger_run h (ledger_start hbase)
    have hlost : Multiset.card t.lost =
        Multiset.card (start base).lost +
          (2 * es.countP Event.isReceive + es.countP Event.isFailed) :=
      lost_run h
    have hsub : Multiset.card t.lost ≤ Multiset.card t.owned :=
      Multiset.card_le_card (Multiset.le_add_left ..)
    have hcard := hledger.card_eq
    have hlimit := hledger.card_le
    have hzero : Multiset.card (start base).lost = 0 := rfl
    refine ⟨hledger.table_eq, by omega, ?_⟩
    by_cases hpos : es.countP Event.isReceive = 0
    · omega
    · have hle := receives_le h (ledger_start hbase) hpos
      omega
  · by_cases hfull : base.card + 1 ≤ limit
    · have hroom : (start base).table.card + 2 * ((limit - base.card - 1) / 2) + 1 ≤ limit := by
        change base.card + _ + 1 ≤ limit
        omega
      exact run_rounds base rfl rfl hroom
    · refine ⟨[], _, .nil _, ?_⟩
      rw [List.countP_nil]
      omega

/-- A worker with five descriptors to use takes two connections. -/
theorem connections_le_two :
    (∀ es t, (worker 9 {0, 1, 2, 3}).Run (start {0, 1, 2, 3}) es t →
      es.countP Event.isReceive ≤ 2) ∧
    ∃ es t, (worker 9 {0, 1, 2, 3}).Run (start {0, 1, 2, 3}) es t ∧
      es.countP Event.isReceive = 2 := by
  have h := connections_le (show ({0, 1, 2, 3} : Finset Fd).card ≤ 9 by decide)
  exact ⟨fun es t hrun => (h.1 es t hrun).2.2, h.2⟩

end Rounds

end Heimdall.Worker.Descriptors
