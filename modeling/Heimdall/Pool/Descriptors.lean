import Heimdall.Lib.Ledger
import Mathlib.Data.Fintype.EquivFin

/-!
# The descriptors of the parent

Three threads of the parent open and close descriptors in one table: `main` accepts connections, the
pool thread sends each to a worker over a new socket and closes its copy, and the updater asks the
machines for their status pages. `send_fd` never closes the socket that it has sent over, and what
fails after a socket has been made (`sendmsg`, and everything in `retrieve_apache_status`) leaves
the socket open.

So the table fills up: every connection that is handed over costs a descriptor for good, and the
parent can hand over no more than the limit leaves room for (`handed_over_le`). When the table is
full while the pool thread wants a socket, it tries for ever (`send_stuck`).
-/

namespace Heimdall.Pool.Parent

abbrev Fd := Nat

/-- The pool thread, between `get_fd` and `close_connection`. -/
inductive Sender
  | fetch
  | pick (fd : Fd)
  | socket (fd : Fd)
  | connect (fd sd : Fd)
  | sendmsg (fd sd : Fd)
  | close (fd : Fd)
  deriving DecidableEq

/-- The descriptors that the pool thread knows. -/
def Sender.held : Sender → Multiset Fd
  | .fetch => 0
  | .pick fd => {fd}
  | .socket fd => {fd}
  | .connect fd sd => {fd} + {sd}
  | .sendmsg fd sd => {fd} + {sd}
  | .close fd => {fd}

/-- `array` are the descriptors in `fd_array`, `main` the one that `main` has accepted and not
stored yet, `updater` the socket of a probe. `lost` are open descriptors that no code knows any
more. -/
structure State where
  table : Finset Fd
  array : Multiset Fd
  main : Option Fd
  sender : Sender
  updater : Option Fd
  lost : Multiset Fd
  exited : Bool

/-- What the threads own, or have lost. -/
def State.owned (s : State) : Multiset Fd :=
  s.array + s.main.elim 0 singleton + s.sender.held + s.updater.elim 0 singleton + s.lost

inductive Event
  | accept (fd : Fd)
  | exit
  | add
  | addZero
  | get (fd : Fd)
  | pick
  | socket (sd : Fd)
  | noSocket
  | connect
  | refused
  | handOver
  | notSent
  | close
  | probe (sd : Fd)
  | probeFailed
  | probed
  deriving DecidableEq

/-- A descriptor that `accept` or `socket` may return. -/
def State.Free (limit : Nat) (s : State) (fd : Fd) : Prop := fd ∉ s.table ∧ s.table.card < limit

instance (limit : Nat) (s : State) (fd : Fd) : Decidable (s.Free limit fd) :=
  inferInstanceAs (Decidable (_ ∧ _))

/-- The steps of the three threads, with an array of `maxFd` slots; none after `main` has left the
process because `accept` failed. -/
inductive Step (limit maxFd : Nat) : State → Event → State → Prop
  | accept {s : State} {fd : Fd} (he : s.exited = false) (hm : s.main = none)
      (hf : s.Free limit fd) :
      Step limit maxFd s (.accept fd) { s with table := insert fd s.table, main := some fd }
  | exit {s : State} (he : s.exited = false) (hm : s.main = none) :
      Step limit maxFd s .exit { s with exited := true }
  | add {s : State} {fd : Fd} (he : s.exited = false) (hm : s.main = some fd) (h0 : fd ≠ 0)
      (ha : Multiset.card s.array < maxFd) :
      Step limit maxFd s .add { s with array := {fd} + s.array, main := none }
  /-- A slot that holds 0 is a free one. -/
  | addZero {s : State} (he : s.exited = false) (hm : s.main = some 0)
      (ha : Multiset.card s.array < maxFd) :
      Step limit maxFd s .addZero { s with lost := {0} + s.lost, main := none }
  | get {s : State} {fd : Fd} {a : Multiset Fd} (he : s.exited = false) (hs : s.sender = .fetch)
      (ha : s.array = {fd} + a) :
      Step limit maxFd s (.get fd) { s with array := a, sender := .pick fd }
  | pick {s : State} {fd : Fd} (he : s.exited = false) (hs : s.sender = .pick fd) :
      Step limit maxFd s .pick { s with sender := .socket fd }
  | socket {s : State} {fd sd : Fd} (he : s.exited = false) (hs : s.sender = .socket fd)
      (hf : s.Free limit sd) :
      Step limit maxFd s (.socket sd)
        { s with table := insert sd s.table, sender := .connect fd sd }
  /-- `send_fd` fails without a socket, and is tried again. -/
  | noSocket {s : State} {fd : Fd} (he : s.exited = false) (hs : s.sender = .socket fd) :
      Step limit maxFd s .noSocket s
  | connect {s : State} {fd sd : Fd} (he : s.exited = false) (hs : s.sender = .connect fd sd) :
      Step limit maxFd s .connect { s with sender := .sendmsg fd sd }
  /-- `unix_connect` closes the socket when it cannot connect. -/
  | refused {s : State} {fd sd : Fd} (he : s.exited = false) (hs : s.sender = .connect fd sd) :
      Step limit maxFd s .refused { s with table := s.table.erase sd, sender := .socket fd }
  | handOver {s : State} {fd sd : Fd} (he : s.exited = false) (hs : s.sender = .sendmsg fd sd) :
      Step limit maxFd s .handOver { s with sender := .close fd, lost := {sd} + s.lost }
  | notSent {s : State} {fd sd : Fd} (he : s.exited = false) (hs : s.sender = .sendmsg fd sd) :
      Step limit maxFd s .notSent { s with sender := .socket fd, lost := {sd} + s.lost }
  | close {s : State} {fd : Fd} (he : s.exited = false) (hs : s.sender = .close fd) :
      Step limit maxFd s .close { s with table := s.table.erase fd, sender := .fetch }
  | probe {s : State} {sd : Fd} (he : s.exited = false) (hu : s.updater = none)
      (hf : s.Free limit sd) :
      Step limit maxFd s (.probe sd) { s with table := insert sd s.table, updater := some sd }
  | probeFailed {s : State} {sd : Fd} (he : s.exited = false) (hu : s.updater = some sd) :
      Step limit maxFd s .probeFailed { s with updater := none, lost := {sd} + s.lost }
  | probed {s : State} {sd : Fd} (he : s.exited = false) (hu : s.updater = some sd) :
      Step limit maxFd s .probed { s with table := s.table.erase sd, updater := none }

/-- The parent when it has set everything up, with the descriptors `base`. -/
def start (base : Finset Fd) : State := ⟨base, 0, none, .fetch, none, 0, false⟩

def parent (limit maxFd : Nat) (base : Finset Fd) : System State Event where
  init s := s = start base
  step := Step limit maxFd

/-- The descriptors that the step leaves open and that no code knows any more. -/
def Event.loses : Event → Nat
  | .addZero => 1
  | .handOver => 1
  | .notSent => 1
  | .probeFailed => 1
  | _ => 0

section Steps

variable {limit maxFd : Nat} {base : Finset Fd} {s t : State} {e : Event} {es : List Event}

/-- **What a step does to the table.** -/
theorem tableStep_of_step (h : Step limit maxFd s e t) :
    TableStep limit s.table t.table s.owned t.owned := by
  unfold State.owned
  cases h with
  | @accept fd he hm hf =>
    refine .opened fd hf.1 hf.2 rfl ?_
    simp only [hm, Option.elim]
    abel
  | exit => exact .passed rfl rfl
  | @add fd he hm =>
    refine .passed rfl ?_
    simp only [hm, Option.elim]
    abel
  | addZero he hm =>
    refine .passed rfl ?_
    simp only [hm, Option.elim]
    abel
  | @get fd a he hs ha =>
    refine .passed rfl ?_
    simp only [hs, ha, Sender.held]
    abel
  | pick he hs =>
    refine .passed rfl ?_
    simp only [hs, Sender.held]
  | @socket fd sd he hs hf =>
    refine .opened sd hf.1 hf.2 rfl ?_
    simp only [hs, Sender.held]
    abel
  | noSocket => exact .passed rfl rfl
  | connect he hs =>
    refine .passed rfl ?_
    simp only [hs, Sender.held]
  | @refused fd sd he hs =>
    refine .closed sd rfl ?_
    simp only [hs, Sender.held]
    abel
  | handOver he hs | notSent he hs =>
    refine .passed rfl ?_
    simp only [hs, Sender.held]
    abel
  | @close fd he hs =>
    refine .closed fd rfl ?_
    simp only [hs, Sender.held]
    abel
  | @probe sd he hu hf =>
    refine .opened sd hf.1 hf.2 rfl ?_
    simp only [hu, Option.elim]
    abel
  | probeFailed he hu =>
    refine .passed rfl ?_
    simp only [hu, Option.elim]
    abel
  | @probed sd he hu =>
    refine .closed sd rfl ?_
    simp only [hu, Option.elim]
    abel

theorem ledger_run (hrun : (parent limit maxFd base).Run s es t)
    (h : Ledger limit base s.table s.owned) : Ledger limit base t.table t.owned :=
  Ledger.run (fun _ _ _ => tableStep_of_step) hrun h

theorem ledger_start (h : base.card ≤ limit) :
    Ledger limit base (start base).table (start base).owned := .of_base h

theorem lost_step (h : Step limit maxFd s e t) :
    Multiset.card t.lost = Multiset.card s.lost + e.loses := by
  cases h with
  | addZero | handOver | notSent | probeFailed => simp [Event.loses]
  | accept | exit | add | get | pick | socket | noSocket | connect | refused | close | probe
  | probed => rfl

theorem lost_run (h : (parent limit maxFd base).Run s es t) :
    Multiset.card t.lost = Multiset.card s.lost + (es.map Event.loses).sum :=
  h.gain (f := fun s => Multiset.card s.lost) fun _ _ _ => lost_step

/-- At a hand-over both the connection and the socket that it is sent over are open. -/
theorem room_at_handOver (h : Step limit maxFd s .handOver t)
    (hs : Ledger limit base s.table s.owned) :
    base.card + Multiset.card s.lost + 2 ≤ limit := by
  have hcard := hs.card_eq
  have hle := hs.card_le
  cases h with
  | handOver he hsender =>
    simp only [State.owned, hsender, Sender.held, Multiset.card_add, Multiset.card_singleton]
      at hcard
    omega

/-- What has been lost and is still to be handed over finds room, with one connection in hand. -/
theorem handOvers_le (hrun : (parent limit maxFd base).Run s es t)
    (hs : Ledger limit base s.table s.owned) (hpos : es.count .handOver ≠ 0) :
    Multiset.card s.lost + 1 * es.count .handOver + (base.card + 1) ≤ limit := by
  refine hrun.budget (I := fun s => Ledger limit base s.table s.owned)
    (f := fun s => Multiset.card s.lost) (fun s e t hs h => hs.step (tableStep_of_step h))
    (fun _ _ _ => lost_step) ?_ ?_ hs hpos
  · intro e he
    rw [eq_of_beq he]
    exact Nat.le_refl 1
  · intro s e t hs h he
    obtain rfl := eq_of_beq he
    have hroom := room_at_handOver h hs
    omega

end Steps

/-! ## The end of it -/

section Rounds

variable {limit maxFd : Nat} {base : Finset Fd} {s t : State} {es : List Event}

/-- Nothing is going on. -/
structure State.Resting (s : State) : Prop where
  array_eq : s.array = 0
  main_eq : s.main = none
  sender_eq : s.sender = .fetch
  updater_eq : s.updater = none
  running : s.exited = false

theorem exists_free (s : State) (h : s.table.card < limit) : ∃ fd, s.Free limit fd ∧ fd ≠ 0 := by
  obtain ⟨fd, hfd⟩ := Infinite.exists_notMem_finset (insert 0 s.table)
  rw [Finset.mem_insert, not_or] at hfd
  exact ⟨fd, ⟨hfd.2, h⟩, hfd.1⟩

/-- A connection is accepted and gets to the pool thread. -/
theorem run_accept (m : Nat) (base : Finset Fd) (hs : s.Resting) (h : s.table.card < limit) :
    ∃ fd, fd ∉ s.table ∧ (parent limit (m + 1) base).Run s [.accept fd, .add, .get fd, .pick]
      { s with table := insert fd s.table, sender := .socket fd } := by
  obtain ⟨fd, hfree, h0⟩ := exists_free s h
  obtain ⟨harray, hmain, hsender, hupdater, hrunning⟩ := hs
  refine ⟨fd, hfree.1, .cons (.accept hrunning hmain hfree) (.cons (.add hrunning rfl h0 ?_) (.cons
    (.get hrunning hsender (a := 0) ?_) (.cons (.pick hrunning rfl) ?_)))⟩
  · rw [harray]
    exact Nat.succ_pos m
  · rw [harray]
  · rw [← harray, ← hmain]
    exact .nil _

/-- A whole round costs one descriptor. -/
theorem run_round (m : Nat) (base : Finset Fd) (hs : s.Resting) (h : s.table.card + 2 ≤ limit) :
    ∃ es t, (parent limit (m + 1) base).Run s es t ∧ t.Resting ∧ es.count .handOver = 1 ∧
      t.table.card = s.table.card + 1 := by
  obtain ⟨fd, hfd, hrun⟩ := run_accept m base hs (Nat.lt_of_succ_lt h)
  have hroom : (insert fd s.table).card < limit := by
    rw [Finset.card_insert_of_notMem hfd]
    exact h
  obtain ⟨sd, hfree, -⟩ :=
    exists_free { s with table := insert fd s.table, sender := .socket fd } hroom
  have hne : fd ≠ sd := by
    rintro rfl
    exact hfree.1 (Finset.mem_insert_self ..)
  refine ⟨_, _, hrun.append (.cons (.socket hs.running rfl hfree) (.cons (.connect hs.running rfl)
    (.cons (.handOver hs.running rfl) (.cons (.close hs.running rfl) (.nil _))))), ?_, ?_, ?_⟩
  · exact ⟨hs.array_eq, hs.main_eq, rfl, hs.updater_eq, hs.running⟩
  · rfl
  · have hsd : sd ∉ insert fd s.table := hfree.1
    dsimp only
    rw [Finset.card_erase_of_mem (Finset.mem_insert_of_mem (Finset.mem_insert_self ..)),
      Finset.card_insert_of_notMem hsd, Finset.card_insert_of_notMem hfd]
    rfl

theorem run_rounds (m : Nat) (base : Finset Fd) {k : Nat} (hs : s.Resting)
    (h : s.table.card + k + 1 ≤ limit) :
    ∃ es t, (parent limit (m + 1) base).Run s es t ∧ t.Resting ∧ es.count .handOver = k ∧
      t.table.card = s.table.card + k := by
  induction k generalizing s with
  | zero => exact ⟨[], s, .nil s, hs, rfl, rfl⟩
  | succ k ih =>
    have htwo : s.table.card + 2 ≤ limit := by omega
    obtain ⟨es, t, hrun, ht, hcount, hcard⟩ := run_round m base hs htwo
    have hroom : t.table.card + k + 1 ≤ limit := by omega
    obtain ⟨es', u, hrun', hu, hcount', hcard'⟩ := ih ht hroom
    refine ⟨es ++ es', u, hrun.append hrun', hu, ?_, by omega⟩
    rw [List.count_append]
    omega

/-- The pool thread wants a socket and there is none. -/
structure State.Stuck (limit : Nat) (fd : Fd) (s : State) : Prop where
  sender_eq : s.sender = .socket fd
  full : limit ≤ s.table.card
  updater_eq : s.updater = none

/-- **The retries of `send_fd` never end** once the table is full. -/
theorem stuck_step {fd : Fd} {e : Event} (hs : s.Stuck limit fd) (h : Step limit maxFd s e t) :
    t.Stuck limit fd ∧ e ≠ .handOver := by
  obtain ⟨hsender, hfull, hupdater⟩ := hs
  cases h with
  | accept _ _ hf | socket _ _ hf | probe _ _ hf => exact absurd hf.2 (Nat.not_lt.2 hfull)
  | exit | add | addZero | noSocket => exact ⟨⟨hsender, hfull, hupdater⟩, Event.noConfusion⟩
  | get _ h0 | pick _ h0 | connect _ h0 | refused _ h0 | handOver _ h0 | notSent _ h0
  | close _ h0 => cases hsender.symm.trans h0
  | probeFailed _ h0 | probed _ h0 => cases hupdater.symm.trans h0

theorem stuck_run {fd : Fd} (hs : s.Stuck limit fd) (h : (parent limit maxFd base).Run s es t) :
    t.Stuck limit fd ∧ .handOver ∉ es := by
  induction h with
  | nil => exact ⟨hs, List.not_mem_nil⟩
  | cons hstep _ ih =>
    obtain ⟨ht, hne⟩ := stuck_step hs hstep
    obtain ⟨hu, hes⟩ := ih ht
    exact ⟨hu, List.not_mem_cons_of_ne_of_not_mem hne.symm hes⟩

/-- **The account of the descriptors.** In every run, what is open is what was open in the beginning
and what the threads own or have lost, nothing twice; a descriptor has been lost for every
hand-over, every failed `sendmsg`, every failed probe and a connection that got the number 0; and
all of them together stay within the limit. -/
theorem accounted (hbase : base.card ≤ limit)
    (h : (parent limit maxFd base).Run (start base) es t) :
    t.table.val = base.val + t.owned ∧ t.lost ≤ t.table.val ∧
      Multiset.card t.lost = (es.map Event.loses).sum ∧
      base.card + (es.map Event.loses).sum ≤ limit := by
  have hledger := ledger_run h (ledger_start hbase)
  have hlost : Multiset.card t.lost = (es.map Event.loses).sum := by
    rw [lost_run h]
    exact Nat.zero_add _
  have hle : t.lost ≤ t.owned := Multiset.le_add_left ..
  refine ⟨hledger.table_eq, ?_, hlost, ?_⟩
  · rw [hledger.table_eq]
    exact hle.trans (Multiset.le_add_left ..)
  · have hcard := hledger.card_eq
    have hlimit := hledger.card_le
    have hsub := Multiset.card_le_card hle
    omega

/-- A connection that could not be sent once. -/
theorem run_notSent : ∃ t, (parent 8 1 {0, 1, 2, 3}).Run (start {0, 1, 2, 3})
    [.accept 4, .add, .get 4, .pick, .socket 5, .connect, .notSent] t :=
  ⟨_, .cons (.accept rfl rfl (by decide)) (.cons (.add rfl rfl (by decide) (by decide))
    (.cons (.get rfl rfl (a := 0) rfl) (.cons (.pick rfl rfl) (.cons (.socket rfl rfl (by decide))
    (.cons (.connect rfl rfl) (.cons (.notSent rfl rfl) (.nil _)))))))⟩

theorem accounted_notSent : ∃ t : State, t.table.val = ({0, 1, 2, 3} : Finset Fd).val + t.owned ∧
    t.lost ≤ t.table.val ∧ Multiset.card t.lost = 1 ∧ 4 + 1 ≤ 8 :=
  let ⟨t, h⟩ := run_notSent
  ⟨t, accounted (by decide) h⟩

/-- **How many connections the parent can hand over**: one less than there is room for when it has
set everything up. With the last of them the pool thread can get to where it holds a connection that
it will never hand over. -/
theorem handed_over_le (m : Nat) (hbase : base.card < limit) :
    (∀ es t, (parent limit (m + 1) base).Run (start base) es t →
      es.count .handOver ≤ limit - base.card - 1) ∧
    ∃ es t fd, (parent limit (m + 1) base).Run (start base) es t ∧
      es.count .handOver = limit - base.card - 1 ∧ t.sender = .socket fd ∧
      ∀ es' u, (parent limit (m + 1) base).Run t es' u →
        u.sender = .socket fd ∧ .handOver ∉ es' := by
  refine ⟨?_, ?_⟩
  · intro es t h
    by_cases hpos : es.count .handOver = 0
    · omega
    · have hle := handOvers_le h (ledger_start (Nat.le_of_lt hbase)) hpos
      omega
  · have hrest : (start base).Resting := ⟨rfl, rfl, rfl, rfl, rfl⟩
    have hroom : (start base).table.card + (limit - base.card - 1) + 1 ≤ limit := by
      change base.card + _ + 1 ≤ limit
      omega
    obtain ⟨es, t, hrun, ht, hcount, hcard⟩ := run_rounds m base hrest hroom
    change t.table.card = base.card + _ at hcard
    have hlt : t.table.card < limit := by omega
    obtain ⟨fd, hfd, hlast⟩ := run_accept m base ht hlt
    refine ⟨_, _, fd, hrun.append hlast, ?_, rfl, ?_⟩
    · rw [List.count_append, hcount]
      rfl
    · intro es' u h
      have hstuck : State.Stuck limit fd { t with
          table := insert fd t.table, sender := .socket fd } := by
        refine ⟨rfl, ?_, ht.updater_eq⟩
        dsimp only
        rw [Finset.card_insert_of_notMem hfd]
        omega
      obtain ⟨hu, hes⟩ := stuck_run hstuck h
      exact ⟨hu.sender_eq, hes⟩

/-- The limit leaves room for three hand-overs. -/
theorem handed_over_le_three : ∃ es t fd, (parent 8 1 {0, 1, 2, 3}).Run (start {0, 1, 2, 3}) es t ∧
    es.count .handOver = 3 ∧ t.sender = .socket fd ∧
      ∀ es' u, (parent 8 1 {0, 1, 2, 3}).Run t es' u → u.sender = .socket fd ∧ .handOver ∉ es' :=
  (handed_over_le 0 (by decide)).2

end Rounds

end Heimdall.Pool.Parent
