import Heimdall.Worker.Pipeline

/-!
# How long a node is used

When `send_http_chunks` has returned, `write_work` dequeues the node and destroys it, with its
request, its response and its chunk. Nothing asks whether the `request_work` of the node still needs
it.

It does not (`destroyed_unused`): the sender returns when it has sent as many bytes as the header
announces, all of them have been read then, and the receiver has left its loop with the same hold of
the mutex in which it has read the last of them. One thing can come too late, the status that is
stored when the connection to the server cannot be closed.
-/

namespace Heimdall.Http.Transfer

/-- **What every step keeps**, whatever the header announces and the server sends. -/
structure Settled (n : Int) (t : Transfer) : Prop where
  totals : t.totalSent + (if t.chunk.wrote then 0 else t.chunk.dimen) = t.totalReceived
  held_wrote : t.held = true → t.chunk.wrote = false
  waits : t.recvWaits = true → t.received = none
  all : 0 < n → (t.totalReceived : Int) = n → ∃ r, t.received = some r ∧ r.isAnError = false
  complete : t.sentAll ≠ none → 0 < n ∧ ∃ r, t.received = some r ∧ r.isAnError = false

section Settled

variable {n : Int} {reset : Bool} {t u : Transfer} {a : Act}

theorem settled_start (n : Int) (mem socket : List Byte) : Settled n (start mem socket) where
  totals := rfl
  held_wrote h := nomatch h
  waits h := nomatch h
  all hn h := absurd h (by
    change ((0 : Nat) : Int) ≠ n
    omega)
  complete h := absurd rfl h

/-- What has been announced matters only when something has been read. -/
theorem Settled.unread {k : Int} (h : Settled n t) (hzero : t.totalReceived = 0)
    (hnone : t.received = none) : Settled k t where
  totals := h.totals
  held_wrote := h.held_wrote
  waits := h.waits
  all hk heq := by omega
  complete hs := by
    obtain ⟨-, r, hr, -⟩ := h.complete hs
    exact nomatch hnone.symm.trans hr

theorem Settled.receive (h : Settled n t) (hr : t.received = none) (hc : t.chunk.wrote = true)
    (hw : t.recvWaits = false) (r : ReadResult) : Settled n (t.receive n r) := by
  have htotals := h.totals
  rw [if_pos hc] at htotals
  have hover : t.sentAll = none := by
    by_contra hs
    obtain ⟨-, r, h0, -⟩ := h.complete hs
    exact nomatch hr.symm.trans h0
  have hwaits : ∀ s : Option Throwable, t.recvWaits = true → s = none :=
    fun s h0 => nomatch hw.symm.trans h0
  cases r with
  | error =>
    refine ⟨h.totals, h.held_wrote, hwaits _, fun hn heq => ?_, fun h0 => absurd hover h0⟩
    obtain ⟨r, h0, -⟩ := h.all hn heq
    exact nomatch hr.symm.trans h0
  | eof =>
    exact ⟨h.totals, h.held_wrote, hwaits _, fun _ _ => ⟨_, rfl, rfl⟩, fun h0 => absurd hover h0⟩
  | data bytes =>
    refine ⟨?_, fun _ => rfl, hwaits _, fun hn heq => ⟨_, if_pos heq, rfl⟩,
      fun h0 => absurd hover h0⟩
    change t.totalSent + bytes.length = t.totalReceived + bytes.length
    omega

theorem Settled.leave (h : Settled n t) (hh : t.held = true) : Settled n (t.leave n) := by
  have htotals := h.totals
  rw [if_neg (by rw [h.held_wrote hh]; exact Bool.false_ne_true)] at htotals
  refine ⟨htotals, fun h0 => (nomatch h0), fun h0 => (nomatch h0), h.all, fun hs => ?_⟩
  by_cases hall : n = (t.totalSent + t.chunk.dimen : Nat) ∧ 0 < t.totalSent + t.chunk.dimen
  · have hn : 0 < n := by omega
    exact ⟨hn, h.all hn (by omega)⟩
  · exact absurd (if_neg hall) hs

/-- **The step lemma.** -/
theorem settled_step (h : Settled n t) (hstep : Step n reset t a u) : Settled n u := by
  cases hstep with
  | recvWait hr hw hh hc => exact { h with waits := fun _ => hr }
  | recvWake hw => exact { h with waits := fun h0 => nomatch h0 }
  | receive hr hw hh hc hread => exact h.receive hr hc hw _
  | sendWait hs hw hh hc => exact { h with }
  | sendWake hw => exact { h with }
  | enter hs hw hh hc => exact { h with held_wrote := fun _ => hc }
  | write hh hk hle => exact ⟨h.totals, h.held_wrote, h.waits, h.all, h.complete⟩
  | leave hh hd => exact h.leave hh

end Settled

end Heimdall.Http.Transfer

namespace Heimdall.Worker

open Heimdall.Http

namespace Node

/-- A step of `request_work` uses the node, its response or its chunk; `closes` says whether the
connection to the server can be closed. What is left after `receive_http_chunks` has returned is the
status, which is stored only after an error. -/
def Uses (closes : Bool) (n : Node) : Act → Prop
  | .finish => closes = false ∨ ∃ r, n.transfer.received = some r ∧ r.isAnError = true
  | _ => True

/-- **What a node keeps**, whatever its request meets. -/
structure Settled (n : Node) : Prop where
  transfer : n.transfer.Settled n.contentLen
  unread : n.request.served = false → n.transfer.totalReceived = 0 ∧ n.transfer.received = none
  written : n.writer = .done → n.transfer.sentAll ≠ none

section Settled

variable {reply : Reply} {n m : Node} {a : Act}

theorem settled_start (mem : List Byte) (reply : Reply) : (start mem reply).Settled where
  transfer := Transfer.settled_start _ mem reply.body
  unread _ := ⟨rfl, rfl⟩
  written h := nomatch h

/-- The header is stored: nothing has been read before it, and the writer was not done. -/
theorem Settled.serve (h : n.Settled) (hr : n.request = .ready) (reply : Reply) :
    (n.serve reply).Settled := by
  obtain ⟨hzero, hnone⟩ := h.unread (by rw [hr]; rfl)
  have hwriter : (n.serve reply).writer = .done → n.writer = .done := by
    intro hd
    cases reply with
    | exit | badHeader => exact hd
    | header =>
      simp only [Node.serve] at hd
      split at hd
      · cases hd
      · exact hd
  cases reply with
  | exit | badHeader | header =>
    refine ⟨h.transfer.unread hzero hnone, ?_, fun hd => h.written (hwriter hd)⟩
    intro h0
    cases h0

/-- The sender reads nothing. -/
theorem send_unread {k : Int} {reset : Bool} {t u : Transfer} {a : Transfer.Act}
    (ha : receives a = false) (ht : Transfer.Step k reset t a u) :
    u.totalReceived = t.totalReceived := by
  cases ht with
  | recvWait | recvWake | receive => cases ha
  | sendWait | sendWake | enter | write | leave => rfl

/-- **The step lemma.** -/
theorem settled_step (h : n.Settled) (hstep : Step reply n a m) : m.Settled := by
  cases hstep with
  | serve hr => exact h.serve hr reply
  | noLength hr hl => exact ⟨h.transfer, fun h0 => (nomatch h0), h.written⟩
  | receive hr hl ha ht =>
    have hserved : n.request.served = true := by rw [hr]; rfl
    refine ⟨Transfer.settled_step h.transfer ht, fun h0 => (nomatch hserved.symm.trans h0),
      fun hd => ?_⟩
    rw [(receive_frame ha ht).2]
    exact h.written hd
  | finish hr ht => exact ⟨h.transfer, fun h0 => (nomatch h0), h.written⟩
  | lock hw =>
    refine ⟨h.transfer, h.unread, fun hd => ?_⟩
    simp only at hd
    split at hd <;> cases hd
  | wake hw | header hw hh hk hle | unlock hw hh hj =>
    exact ⟨h.transfer, h.unread, fun hd => nomatch hd⟩
  | send hw ha ht =>
    refine ⟨Transfer.settled_step h.transfer ht, fun h0 => ?_, fun hd => nomatch hw.symm.trans hd⟩
    rw [send_unread ha ht, send_frame ha ht]
    exact h.unread h0
  | last hw ht => exact ⟨h.transfer, h.unread, fun _ h0 => nomatch ht.symm.trans h0⟩

/-- When the writer is done, only the end of `request_work` is left. -/
theorem Settled.uses_iff (h : n.Settled) (hd : n.writer = .done) (ha : a.writes = false)
    (hstep : Step reply n a m) (closes : Bool) :
    a = .finish ∧ (n.Uses closes a ↔ closes = false) := by
  obtain ⟨hpos, r, hr, hok⟩ := h.transfer.complete (h.written hd)
  cases hstep with
  | serve hready =>
    obtain ⟨-, hnone⟩ := h.unread (by rw [hready]; rfl)
    exact nomatch hnone.symm.trans hr
  | noLength hc hl => omega
  | receive hc hl hreceives ht =>
    have hnone : n.transfer.received = none := by
      cases ht with
      | recvWait h0 | receive h0 => exact h0
      | recvWake hw => exact h.transfer.waits hw
      | sendWait | sendWake | enter | write | leave => cases hreceives
    exact nomatch hnone.symm.trans hr
  | finish hc ht =>
    refine ⟨rfl, fun huses => huses.resolve_right ?_, .inl⟩
    rintro ⟨r', hr', herr⟩
    cases hr.symm.trans hr'
    exact nomatch hok.symm.trans herr
  | lock | wake | header | unlock | send | last => cases ha

end Settled

end Node

/-! ## The connection -/

namespace Pipeline

/-- **What the connection keeps.** -/
structure Settled (s : Pipeline) : Prop where
  nodes : ∀ i, (s.nodes i).Settled
  absent : ∀ i, s.created ≤ i → (s.nodes i).request = .absent
  dequeued : ∀ i, i < s.front → (s.nodes i).writer = .done

section Settled

variable {count : Nat} {reply : Nat → Reply} {s t : Pipeline} {e : Event}

theorem settled_init (h : (pipeline count reply).init s) : s.Settled := by
  obtain ⟨mem, rfl⟩ := h
  refine ⟨fun i => ?_, fun _ _ => rfl, fun _ hi => absurd hi (Nat.not_lt_zero _)⟩
  have h := Node.settled_start (mem i) (reply i)
  exact ⟨h.transfer, h.unread, h.written⟩

/-- A node is replaced; a request thread moves the writer only from its wait. -/
theorem Settled.update {i : Nat} {n : Node} (h : s.Settled) (hn : n.Settled)
    (habsent : s.created ≤ i → n.request = .absent)
    (hdone : (s.nodes i).writer = .done → n.writer = .done) :
    Settled { s with nodes := Function.update s.nodes i n } := by
  refine ⟨fun j => update_of (P := Node.Settled) (h.nodes j) fun _ => hn,
    fun j hj => update_of (P := fun m => m.request = .absent) (h.absent j hj) fun hji => ?_,
    fun j hj => update_of (P := fun m => m.writer = .done) (h.dequeued j hj) fun hji => ?_⟩
  · subst hji
    exact habsent hj
  · subst hji
    exact hdone (h.dequeued j hj)

/-- **The step lemma** for the connection. -/
theorem settled_step (h : s.Settled) (hstep : Step count reply s e t) : t.Settled := by
  cases hstep with
  | enqueue => exact ⟨h.nodes, h.absent, h.dequeued⟩
  | create henq hc =>
    have hn := h.nodes s.created
    have habs := h.absent s.created (Nat.le_refl _)
    have hready : Node.Settled { s.nodes s.created with request := .ready } :=
      ⟨hn.transfer, fun _ => hn.unread (by rw [habs]; rfl), hn.written⟩
    refine ⟨fun j => update_of (P := Node.Settled) (h.nodes j) fun _ => hready, fun j hj => ?_,
      fun j hj => update_of (P := fun m => m.writer = .done) (h.dequeued j hj) fun hji => ?_⟩
    · have hj' : s.created + 1 ≤ j := hj
      change (Function.update s.nodes s.created _ j).request = .absent
      rw [Function.update_of_ne (by omega)]
      exact h.absent j (by omega)
    · subst hji
      exact h.dequeued _ hj
  | @request i a n hi ha hn =>
    refine h.update (Node.settled_step (h.nodes i) hn) (fun hle => by omega) fun hd => ?_
    rcases Node.writer_request hn ha with h0 | ⟨h0, -⟩
    · exact h0.trans hd
    · exact nomatch hd.symm.trans h0
  | @write a n hf ha hn =>
    have hfront := h.update (i := s.front) (Node.settled_step (h.nodes s.front) hn)
      (fun hle => (Node.request_writer hn ha).trans (h.absent _ hle)) (fun hd => by
        cases hn with
        | serve | noLength | receive | finish => cases ha
        | lock hw | wake hw | header hw | unlock hw | send hw | last hw =>
          exact nomatch hd.symm.trans hw)
    exact ⟨hfront.nodes, hfront.absent, hfront.dequeued⟩
  | dequeue hf hd =>
    refine ⟨h.nodes, h.absent, fun j hj => ?_⟩
    have hj' : j < s.front + 1 := hj
    rcases Nat.lt_or_eq_of_le (Nat.lt_succ_iff.1 hj') with hlt | rfl
    · exact h.dequeued j hlt
    · exact hd

theorem settled_reachable (h : (pipeline count reply).Reachable s) : s.Settled := by
  apply h.invariant Settled
  · intro s hs
    exact settled_init hs
  · intro s e t hs hstep
    exact settled_step hs hstep

end Settled

end Pipeline

/-- **A destroyed node is not used.** In every run, whatever the requests meet and in whatever order
the threads step: of a node that the writer has destroyed, nothing is left to be done but the end of
its `request_work`, and that uses the node exactly if the connection to the server cannot be
closed. -/
theorem destroyed_unused {count : Nat} {reply : Nat → Reply} {s : Pipeline}
    (h : (pipeline count reply).Reachable s) {i : Nat} (hi : i < s.front) {a : Node.Act} {n : Node}
    (ha : a.writes = false) (hstep : Node.Step (reply i) (s.nodes i) a n) (closes : Bool) :
    a = .finish ∧ ((s.nodes i).Uses closes a ↔ closes = false) := by
  have hs := Pipeline.settled_reachable h
  exact (hs.nodes i).uses_iff (hs.dequeued i hi) ha hstep closes

/-! ## A node that has been destroyed -/

section Front

variable {count : Nat} {reply : Nat → Reply} {r : Reply} {s : Pipeline} {n m : Node}
  {as : List Node.Act}

/-- What the node at the front can do on its own it can do in the queue. -/
theorem reachable_front (h : (pipeline count reply).Reachable s) (hc : s.front < s.created)
    (he : s.front < s.enqueued) (hr : reply s.front = r) (hrun : (node r).Run n as m)
    (hn : s.nodes s.front = n) : ∃ client, (pipeline count reply).Reachable
      { s with nodes := Function.update s.nodes s.front m, client := client } := by
  induction hrun generalizing s with
  | nil n =>
    refine ⟨s.client, ?_⟩
    rw [← hn, Function.update_eq_self]
    exact h
  | @cons n u m a as hstep _ ih =>
    subst hn hr
    have hnext : ∃ client, (pipeline count reply).Reachable
        { s with nodes := Function.update s.nodes s.front u, client := client } := by
      cases ha : a.writes with
      | true => exact ⟨_, h.step (.write he ha hstep)⟩
      | false => exact ⟨s.client, h.step (.request hc ha hstep)⟩
    obtain ⟨client, hu⟩ := hnext
    obtain ⟨client', hm⟩ := ih hu hc he rfl (Function.update_self ..)
    refine ⟨client', ?_⟩
    simpa only [Function.update_idem] using hm

end Front

/-- A node whose response of one byte has been written, before its `request_work` is over. -/
theorem run_oneByte : ∃ n as, (node oneByte).Run (Node.start [] oneByte) as n ∧ n.writer = .done ∧
    n.request = .chunks ∧ ∃ r, n.transfer.received = some r := by
  have hread : CanRead (chunkSize 1 0) [65] false (.data [65]) :=
    ⟨List.cons_ne_nil _ _, by decide, List.prefix_rfl⟩
  refine ⟨_, _, .cons (.serve rfl) (.cons (.lock rfl)
    (.cons (.header (k := 1) rfl rfl Nat.one_pos (Nat.le_refl 1)) (.cons (.unlock rfl rfl rfl)
    (.cons (.receive rfl (by decide) rfl (.receive rfl rfl rfl rfl hread))
    (.cons (.send rfl rfl (.enter rfl rfl rfl rfl))
    (.cons (.send rfl rfl (.write (k := 1) rfl Nat.one_pos (Nat.le_refl 1)))
    (.cons (.send rfl rfl (.leave rfl rfl)) (.cons (.last rfl rfl) (.nil _))))))))), rfl, rfl, _,
    rfl⟩

theorem destroyed_unused_oneByte : ∃ s n, (pipeline 1 fun _ => oneByte).Reachable s ∧ 0 < s.front ∧
    Node.Step oneByte (s.nodes 0) .finish n ∧ ¬ (s.nodes 0).Uses true .finish := by
  have hstart : (pipeline 1 fun _ => oneByte).Reachable _ := .of_init ⟨fun _ => [], rfl⟩
  have hready := (hstart.step (.enqueue rfl)).step (.create rfl Nat.one_pos)
  obtain ⟨n, as, hrun, hdone, hchunks, r, hreceived⟩ := run_oneByte
  obtain ⟨client, hfront⟩ := reachable_front hready Nat.one_pos Nat.one_pos rfl hrun rfl
  have hover := hfront.step (.dequeue Nat.one_pos hdone)
  have hfinish := @Node.Step.finish oneByte _ _ hchunks hreceived
  refine ⟨_, _, hover, Nat.one_pos, hfinish, fun huses => ?_⟩
  exact Bool.noConfusion ((destroyed_unused hover Nat.one_pos rfl hfinish true).2.1 huses)

end Heimdall.Worker
