import Mathlib.Algebra.Order.BigOperators.Group.Finset
import Mathlib.Tactic.DeriveCountable
import Heimdall.Lib.Fair
import Heimdall.Worker.Limit

/-!
# Which answers arrive

`Heimdall.Worker.Pipeline` says what the client can have got. Here it is what it does get, with the
wait loop of `read_work` in front of every request: if the scheduler leaves no thread out for ever,
and every reply is complete, then at some time the client has the messages for the first
`max_thread_pchild + 1` requests, whatever the order of the steps and however often the waits on the
conditions end for nothing; and it never gets more (`delivered`). The connection stays open
meanwhile.

What is still to be done on a connection is counted in `Limited.remaining`. No step raises it; what
does not lower it is a thread that looks for something that is not there and waits on. Who has to
make it be there is `Pipeline.helper`.
-/

namespace Heimdall.Http.Transfer

/-- What the two threads still have to do for a body of `len` bytes: read it, and what is in the
chunk, write it. -/
def remaining (len : Nat) (t : Transfer) : Nat :=
  5 * (len - t.totalReceived) +
    if t.chunk.wrote then (if t.recvWaits then 1 else 0)
    else (if t.held then t.chunk.dimen - t.written + 1 else t.chunk.dimen + 2) +
      (if t.sendWaits then 1 else 0)

section Remaining

variable {len : Nat} {stream : List Byte} {reset : Bool} {t u : Transfer} {a : Act}

/-- A step that has nothing to do is a wait: of the receiver while the chunk is full, of the sender
while it is empty. -/
theorem remaining_step (hs : len ≤ stream.length) (h : Relayed len stream t)
    (hstep : Step len reset t a u) :
    u.remaining len < t.remaining len ∨
      u.remaining len = t.remaining len ∧ u.chunk = t.chunk ∧ u.sentAll = t.sentAll ∧
        Worker.receives a = !t.chunk.wrote ∧ (Worker.receives a = false → t.sentAll = none) := by
  cases hstep with
  | recvWait hr hw hh hc => exact .inr (by simp [remaining, hc, Worker.receives])
  | recvWake hw =>
    cases hc : t.chunk.wrote with
    | true => exact .inl (by simp [remaining, hc, hw])
    | false => exact .inr (by simp [remaining, hc, Worker.receives])
  | receive hr hw hh hc hread =>
    obtain ⟨bytes, rfl, hne, hlen, -⟩ := read_data hs h hr hread
    left
    have hpos : 0 < bytes.length := List.length_pos_iff.2 hne
    have hrest := (chunkSize_of_lt (h.received_iff.1 hr)).2.2
    simp only [remaining, receive, hc, hw, hh, Bool.false_eq_true, if_false, if_true]
    omega
  | sendWait hs hw hh hc => exact .inr (by simp [remaining, hc, Worker.receives, hs])
  | sendWake hw =>
    cases hc : t.chunk.wrote with
    | true => exact .inr (by simp [remaining, hc, Worker.receives, (h.waits_sending hw).2])
    | false => exact .inl (by simp [remaining, hc, hw])
  | enter hs hw hh hc =>
    left
    simp only [remaining, hc, hh, Bool.false_eq_true, if_false, if_true]
    omega
  | write hh hk hle =>
    left
    simp only [remaining, write, h.held_wrote hh, hh, Bool.false_eq_true, if_false, if_true]
    omega
  | leave hh hd =>
    left
    simp only [remaining, leave, h.held_wrote hh, hh, Bool.false_eq_true, if_false, if_true]
    omega

/-- With an empty chunk and bytes to read, the receiver can go on. -/
theorem receiver_enabled (hs : len ≤ stream.length) (h : Relayed len stream t)
    (hc : t.chunk.wrote = true) (hr : t.received = none) :
    ∃ a u, Worker.receives a = true ∧ Step len reset t a u := by
  cases hw : t.recvWaits with
  | true => exact ⟨_, _, rfl, .recvWake hw⟩
  | false =>
    have hh : t.held = false := by
      cases hh : t.held with
      | false => rfl
      | true => exact absurd hc (by rw [h.held_wrote hh]; exact Bool.false_ne_true)
    have hlt := h.received_iff.1 hr
    have hpos := (chunkSize_of_lt hlt).1
    obtain ⟨b, rest, hsocket⟩ : ∃ b rest, t.socket = b :: rest := by
      apply List.exists_cons_of_ne_nil
      rw [h.socket_eq]
      intro hnil
      have := List.drop_eq_nil_iff.1 hnil
      omega
    refine ⟨_, _, rfl, .receive (r := .data [b]) hr hw hh hc ⟨List.cons_ne_nil b [], ?_, ?_⟩⟩
    · change (1 : Int) ≤ _
      omega
    · rw [hsocket]
      exact ⟨rest, rfl⟩

/-- With a full chunk, the sender can go on. -/
theorem sender_enabled (h : Relayed len stream t) (hc : t.chunk.wrote = false)
    (hs : t.sentAll = none) : ∃ a u, Worker.receives a = false ∧ Step len reset t a u := by
  cases hw : t.sendWaits with
  | true => exact ⟨_, _, rfl, .sendWake hw⟩
  | false =>
    cases hh : t.held with
    | false => exact ⟨_, _, rfl, .enter hs hw hh hc⟩
    | true =>
      rcases Nat.lt_or_eq_of_le h.written_le with hlt | heq
      · exact ⟨_, _, rfl, .write (k := 1) hh Nat.one_pos hlt⟩
      · exact ⟨_, _, rfl, .leave hh heq⟩

end Remaining

end Heimdall.Http.Transfer

namespace Heimdall.Worker

open Heimdall.Http

/-- The threads of a connection. -/
inductive Thread
  | reader
  | writer
  | request (i : Nat)
  deriving DecidableEq, Countable, Inhabited

namespace Node

/-- The thread of a step, on the node `i`. -/
def Act.thread (i : Nat) (a : Act) : Thread := if a.writes then .writer else .request i

end Node

def RequestPc.remaining : RequestPc → Nat
  | .absent => 2
  | .ready => 2
  | .chunks => 1
  | .done => 0

/-- The steps before the next request comes in. -/
def ReaderPc.remaining : ReaderPc → Nat
  | .count => 3
  | .test => 2
  | .waits => 2
  | .enqueue => 1
  | .receive => 0

/-- For a header of `len` bytes. -/
def WriterPc.remaining (len : Nat) : WriterPc → Nat
  | .front => len + 3
  | .waits => len + 3
  | .header k => len - k + 2
  | .chunks => 1
  | .done => 0

namespace Node

/-- What is still to be done on a node with a complete response. -/
def remaining (h : List Byte) (len : Nat) (n : Node) : Nat :=
  n.request.remaining + n.writer.remaining (cString h).length + n.transfer.remaining len

/-- Who has to go on, on the node `i`. -/
def helper (i : Nat) (n : Node) : Thread :=
  if n.request.served = true ∧
      (n.writer = .chunks → n.transfer.sentAll = none → n.transfer.chunk.wrote = false) then .writer
  else .request i

section Progress

variable {h body : List Byte} {len : Nat} {reset : Bool} {n m : Node} {a : Act} {i : Nat}

theorem helper_unserved (hr : n.request.served = false) : n.helper i = .request i :=
  if_neg fun h0 => by
    rw [hr] at h0
    cases h0.1

theorem Kept.unserved_of_none (hk : Kept h len body n) (hh : n.header = none) :
    n.request.served = false := by
  by_contra h0
  rw [Bool.not_eq_false] at h0
  exact nomatch hh.symm.trans (hk.served h0).1

theorem Kept.served_of_header (hk : Kept h len body n) (hh : n.header ≠ none) :
    n.request.served = true := Bool.not_eq_false _ ▸ fun h0 => hh (hk.unserved h0)

/-- A writer that looks for a header that is not there leaves everything to `request_work`. -/
theorem remaining_unserved (hr : n.request.served = false) {w : WriterPc}
    (hw : w.remaining (cString h).length = n.writer.remaining (cString h).length) :
    Thread.writer ≠ n.helper i ∧
      ({ n with writer := w } : Node).remaining h len = n.remaining h len ∧
      ({ n with writer := w } : Node).helper i = n.helper i := by
  have hhelper : ({ n with writer := w } : Node).helper i = .request i := helper_unserved hr
  refine ⟨?_, ?_, ?_⟩
  · rw [helper_unserved hr]
    exact Thread.noConfusion
  · simp only [remaining, hw]
  · rw [hhelper, helper_unserved hr]

/-- A step on the chunk gets the node on, or is a wait: of `request_work` while the chunk is full,
of the writer while it is empty. -/
theorem remaining_chunk (hle : len ≤ body.length) (hk : Kept h len body n)
    (hserved : n.request.served = true) {a : Transfer.Act} {t : Transfer}
    (ht : Transfer.Step n.contentLen reset n.transfer a t) :
    ({ n with transfer := t } : Node).remaining h len < n.remaining h len ∨
      (({ n with transfer := t } : Node).remaining h len = n.remaining h len ∧
        ({ n with transfer := t } : Node).helper i = n.helper i ∧
        receives a = !n.transfer.chunk.wrote ∧
        (receives a = false → n.transfer.sentAll = none)) := by
  rw [(hk.served hserved).2] at ht
  rcases Transfer.remaining_step hle hk.relayed ht with hlt | ⟨heq, hchunk, hall, hwrote, hs⟩
  · left
    unfold remaining
    dsimp only
    omega
  · right
    refine ⟨?_, ?_, hwrote, hs⟩
    · unfold remaining
      dsimp only
      omega
    · unfold helper
      dsimp only
      rw [hchunk, hall]

/-- A step either gets the node on or is a wait of a thread that is not the helper. -/
theorem remaining_step (hlen : 1 ≤ len) (hle : len ≤ body.length) (hk : Kept h len body n)
    (hstep : Step (.header h len body reset) n a m) :
    m.remaining h len < n.remaining h len ∨
      a.thread i ≠ n.helper i ∧ m.remaining h len = n.remaining h len ∧
        m.helper i = n.helper i := by
  cases hstep with
  | serve hr =>
    left
    have hw : (if n.writer = .waits then .front else n.writer : WriterPc).remaining
        (cString h).length = n.writer.remaining (cString h).length := by
      split
      · next hw =>
        rw [hw]
        rfl
      · rfl
    simp only [remaining, serve, hr, RequestPc.remaining, hw]
    omega
  | noLength hr hl =>
    obtain ⟨-, hcl⟩ := hk.served (by rw [hr]; rfl)
    omega
  | receive hr hl ha ht =>
    have hserved : n.request.served = true := by
      rw [hr]
      rfl
    rcases remaining_chunk (i := i) hle hk hserved ht with hlt | ⟨heq, hhelper, hwrote, -⟩
    · exact .inl hlt
    · have hc : n.transfer.chunk.wrote = false := by
        rw [ha] at hwrote
        simpa using hwrote.symm
      refine .inr ⟨?_, heq, hhelper⟩
      rw [helper, if_pos ⟨hserved, fun _ _ => hc⟩]
      exact Thread.noConfusion
  | finish hr ht =>
    left
    simp only [remaining, hr, RequestPc.remaining]
    omega
  | lock hw =>
    by_cases hh : n.header = none
    · rw [if_pos hh]
      exact .inr (remaining_unserved (hk.unserved_of_none hh) (by rw [hw]; rfl))
    · left
      rw [if_neg hh]
      simp only [remaining, hw, WriterPc.remaining]
      omega
  | wake hw =>
    exact .inr (remaining_unserved (hk.unserved_of_none (hk.waits hw)) (by rw [hw]; rfl))
  | @header h' j k hw hh hpos hle' =>
    left
    have hsome := hk.header_eq hw WriterPc.noConfusion WriterPc.noConfusion
    rw [hsome] at hh
    cases hh
    simp only [remaining, hw, WriterPc.remaining]
    omega
  | unlock hw hh hj =>
    left
    simp only [remaining, hw, WriterPc.remaining]
    omega
  | send hw ha ht =>
    have hsome := hk.header_eq hw WriterPc.noConfusion WriterPc.noConfusion
    have hserved := hk.served_of_header (by rw [hsome]; exact Option.some_ne_none h)
    rcases remaining_chunk (i := i) hle hk hserved ht with hlt | ⟨heq, hhelper, hwrote, hs⟩
    · exact .inl hlt
    · have hc : n.transfer.chunk.wrote = true := by
        rw [ha] at hwrote
        simpa using hwrote.symm
      refine .inr ⟨?_, heq, hhelper⟩
      rw [helper, if_neg fun h0 => by
        have hfull := h0.2 hw (hs ha)
        rw [hc] at hfull
        cases hfull]
      exact Thread.noConfusion
  | last hw ht =>
    left
    simp only [remaining, hw, WriterPc.remaining]
    omega

/-- Who has to go on can do so. -/
theorem helper_enabled (hle : len ≤ body.length) (hk : Kept h len body n)
    (hpresent : n.request ≠ .absent) (hdone : n.writer ≠ .done) :
    ∃ a m, a.thread i = n.helper i ∧ Step (.header h len body reset) n a m := by
  cases hserved : n.request.served with
  | false =>
    have hr : n.request = .ready := by
      cases hr : n.request with
      | absent => exact absurd hr hpresent
      | ready => rfl
      | chunks | done =>
        rw [hr] at hserved
        cases hserved
    exact ⟨.serve, _, (helper_unserved hserved).symm, .serve hr⟩
  | true =>
    obtain ⟨hh, hcl⟩ := hk.served hserved
    have hwriter (hw : n.writer ≠ .chunks) : n.helper i = .writer :=
      if_pos ⟨hserved, fun h0 => absurd h0 hw⟩
    cases hw : n.writer with
    | front =>
      rw [hwriter (by rw [hw]; exact WriterPc.noConfusion)]
      exact ⟨.lock, _, rfl, .lock hw⟩
    | waits => exact nomatch (hk.waits hw).symm.trans hh
    | header k =>
      rw [hwriter (by rw [hw]; exact WriterPc.noConfusion)]
      rcases Nat.lt_or_eq_of_le (hk.header_le k hw) with hlt | heq
      · exact ⟨.header 1, _, rfl, .header hw hh Nat.one_pos hlt⟩
      · exact ⟨.unlock, _, rfl, .unlock hw hh heq⟩
    | done => exact absurd hw hdone
    | chunks =>
      cases hs : n.transfer.sentAll with
      | some r =>
        rw [helper, if_pos ⟨hserved, fun _ h0 => nomatch hs.symm.trans h0⟩]
        exact ⟨.last, _, rfl, .last hw hs⟩
      | none =>
        cases hc : n.transfer.chunk.wrote with
        | false =>
          rw [helper, if_pos ⟨hserved, fun _ _ => hc⟩]
          obtain ⟨a, t, ha, ht⟩ := Transfer.sender_enabled hk.relayed hc hs
          exact ⟨.send a, _, rfl, .send hw ha (hcl ▸ ht)⟩
        | true =>
          have htotals := hk.relayed.totals
          rw [if_pos hc] at htotals
          have hlt := hk.relayed.sentAll_iff.1 hs
          have hnone : n.transfer.received = none := hk.relayed.received_iff.2 (by omega)
          have hr : n.request = .chunks := by
            cases hr : n.request with
            | absent => exact absurd hr hpresent
            | ready =>
              rw [hr] at hserved
              cases hserved
            | chunks => rfl
            | done => exact absurd hnone (hk.done hr)
          rw [helper, if_neg fun h0 => by
            have hfull := h0.2 hw hs
            rw [hc] at hfull
            cases hfull]
          obtain ⟨a, t, ha, ht⟩ := Transfer.receiver_enabled hle hk.relayed hc hnone
          exact ⟨.receive a, _, rfl, .receive hr (by omega) ha (hcl ▸ ht)⟩

end Progress

end Node

def Event.thread : Event → Option Thread
  | .enqueue => some .reader
  | .create => some .reader
  | .request i _ => some (.request i)
  | .write _ => some .writer
  | .dequeue => some .writer

/-- The thread of a step. -/
def Limited.Event.thread : Limited.Event → Option Thread
  | .test => some .reader
  | .wake => some .reader
  | .enqueue => some .reader
  | .receive => some .reader
  | .count => some .reader
  | .relay e => e.thread

namespace Pipeline

/-- What the request threads and the writer still have to do for `count` requests. -/
def remaining (count : Nat) (answer : Nat → CompleteReply) (s : Pipeline) : Nat :=
  ∑ i ∈ Finset.range count, (s.nodes i).remaining (answer i).header (answer i).length +
    (count - s.front)

def helper (s : Pipeline) : Thread :=
  if s.front < s.created then (s.nodes s.front).helper s.front else .reader

/-- The nodes of the requests that have come in have their threads. -/
def Present (s : Pipeline) : Prop := ∀ i, i < s.created → (s.nodes i).request ≠ .absent

section Progress

variable {count count' : Nat} {reply : Nat → Reply} {answer : Nat → CompleteReply}
  {s t : Pipeline} {e : Event}

theorem present_init (h : (pipeline count reply).init s) : s.Present := by
  obtain ⟨mem, rfl⟩ := h
  exact fun i hi => absurd hi (Nat.not_lt_zero i)

theorem present_node {reply : Reply} {n m : Node} {a : Node.Act} (h : n.request ≠ .absent)
    (hstep : Node.Step reply n a m) : m.request ≠ .absent := by
  cases hstep with
  | serve => cases reply <;> exact RequestPc.noConfusion
  | noLength | finish => exact RequestPc.noConfusion
  | receive | lock | wake | header | unlock | send | last => exact h

theorem present_step (h : s.Present) (hstep : Step count reply s e t) : t.Present := by
  intro j hj
  cases hstep with
  | enqueue => exact h j hj
  | dequeue => exact h j hj
  | create he hc =>
    by_cases hcreated : j = s.created
    · subst hcreated
      dsimp only
      rw [Function.update_self]
      exact RequestPc.noConfusion
    · dsimp only at hj ⊢
      rw [Function.update_of_ne hcreated]
      exact h j (by omega)
  | @request i a n hi ha hn =>
    exact update_of (P := fun n => n.request ≠ .absent) (h j hj) fun hji =>
      present_node (hji ▸ h j hj) hn
  | @write a n hf ha hn =>
    exact update_of (P := fun n => n.request ≠ .absent) (h j hj) fun hji =>
      present_node (hji ▸ h j hj) hn

theorem present_reachable (h : (pipeline count reply).Reachable s) : s.Present :=
  h.invariant Present (fun _ => present_init) fun _ _ _ hq hstep => present_step hq hstep

/-- How many requests arrive is a matter of the reader. -/
theorem Step.of_others (he : e.ofOthers = true) (h : Step count reply s e t) :
    Step count' reply s e t := by
  cases h with
  | enqueue | create => cases he
  | request hi ha hn => exact .request hi ha hn
  | write hf ha hn => exact .write hf ha hn
  | dequeue hf hd => exact .dequeue hf hd

/-- Only the summand of the node that changes changes. -/
theorem sum_update (f : Nat → Node → Nat) (nodes : Nat → Node) (n : Node) {i : Nat}
    (hi : i < count) :
    ∑ j ∈ Finset.range count, f j (Function.update nodes i n j) + f i (nodes i) =
      ∑ j ∈ Finset.range count, f j (nodes j) + f i n := by
  have hmem : i ∈ Finset.range count := Finset.mem_range.2 hi
  have hrest : ∑ j ∈ (Finset.range count).erase i, f j (Function.update nodes i n j) =
      ∑ j ∈ (Finset.range count).erase i, f j (nodes j) :=
    Finset.sum_congr rfl fun j hj => by rw [Function.update_of_ne (Finset.ne_of_mem_erase hj)]
  rw [← Finset.add_sum_erase _ _ hmem, ← Finset.add_sum_erase _ (fun j => f j (nodes j)) hmem,
    hrest, Function.update_self]
  omega

theorem helper_ne {n : Node} {i j : Nat} (h : i ≠ j) : Thread.request i ≠ n.helper j := by
  unfold Node.helper
  split
  · exact Thread.noConfusion
  · exact fun h0 => h (Thread.request.inj h0)

/-- A new request thread has all of its work before it. -/
theorem remaining_create (hs : s.Ordered count answer)
    (hstep : Step count' reply s .create t) (hc : s.created < count) :
    t.remaining count answer = s.remaining count answer := by
  cases hstep with
  | create =>
    have hsum := sum_update (fun j n => n.remaining (answer j).header (answer j).length) s.nodes
      { s.nodes s.created with request := .ready } hc
    have hnode : Node.remaining (answer s.created).header (answer s.created).length
        { s.nodes s.created with request := .ready } =
        (s.nodes s.created).remaining (answer s.created).header (answer s.created).length := by
      unfold Node.remaining
      rw [hs.absent s.created (Nat.le_refl _)]
      rfl
    unfold remaining
    dsimp only at hsum hnode ⊢
    omega

theorem remaining_step (hs : s.Ordered count answer) (hfront : s.front < count)
    (he : e.ofOthers = true) (hstep : Step count (fun i => (answer i).reply) s e t) :
    t.remaining count answer < s.remaining count answer ∨
      e.thread ≠ some s.helper ∧ t.remaining count answer = s.remaining count answer ∧
        t.helper = s.helper := by
  cases hstep with
  | enqueue | create => cases he
  | @request i a n hi ha hn =>
    have hsum := sum_update (fun j n => n.remaining (answer j).header (answer j).length) s.nodes n
      (Nat.lt_of_lt_of_le hi hs.created_le)
    rcases Node.remaining_step (i := i) (answer i).length_pos (answer i).length_le (hs.kept i) hn
      with hlt | ⟨hne, heq, hhelper⟩
    · left
      unfold remaining
      dsimp only
      omega
    · right
      have hthread : a.thread i = .request i := by
        unfold Node.Act.thread
        rw [ha]
        rfl
      rw [hthread] at hne
      refine ⟨?_, ?_, ?_⟩
      · refine fun h0 => ?_
        unfold helper at h0
        split at h0
        · by_cases hfi : i = s.front
          · subst hfi
            exact hne (Option.some.inj h0)
          · exact helper_ne hfi (Option.some.inj h0)
        · cases h0
      · unfold remaining
        dsimp only
        omega
      · unfold helper
        dsimp only
        by_cases hfi : s.front = i
        · subst hfi
          rw [Function.update_self, hhelper]
        · rw [Function.update_of_ne hfi]
  | @write a n hf ha hn =>
    have hsum := sum_update (fun j n => n.remaining (answer j).header (answer j).length) s.nodes n
      hfront
    rcases Node.remaining_step (i := s.front) (answer s.front).length_pos
      (answer s.front).length_le (hs.kept s.front) hn with hlt | ⟨hne, heq, hhelper⟩
    · left
      unfold remaining
      dsimp only
      omega
    · right
      have hthread : a.thread s.front = .writer := if_pos ha
      rw [hthread] at hne
      refine ⟨?_, ?_, ?_⟩
      · refine fun h0 => ?_
        unfold helper at h0
        split at h0
        · exact hne (Option.some.inj h0)
        · cases h0
      · unfold remaining
        dsimp only
        omega
      · unfold helper
        dsimp only
        rw [Function.update_self, hhelper]
  | dequeue hf hd =>
    left
    unfold remaining
    dsimp only
    omega

/-- The request at the front has come in: who has to go on with it can do so. -/
theorem helper_enabled (hs : s.Ordered count answer) (hpresent : s.Present)
    (henqueued : s.created ≤ s.enqueued) (hfront : s.front < s.created) :
    ∃ e t, e.ofOthers = true ∧ e.thread = some s.helper ∧
      Step count (fun i => (answer i).reply) s e t := by
  have hf : s.front < s.enqueued := Nat.lt_of_lt_of_le hfront henqueued
  have hk := hs.kept s.front
  unfold helper
  rw [if_pos hfront]
  by_cases hd : (s.nodes s.front).writer = .done
  · have hsome := hk.header_eq hd WriterPc.noConfusion WriterPc.noConfusion
    have hserved := hk.served_of_header (by
      rw [hsome]
      exact Option.some_ne_none _)
    refine ⟨.dequeue, _, rfl, ?_, .dequeue hf hd⟩
    rw [Node.helper, if_pos ⟨hserved, fun h0 => nomatch hd.symm.trans h0⟩]
    rfl
  · obtain ⟨a, n, ha, hn⟩ := Node.helper_enabled (i := s.front) (answer s.front).length_le hk
      (hpresent s.front hfront) hd
    unfold Node.Act.thread at ha
    cases hw : a.writes with
    | true =>
      rw [hw, if_pos rfl] at ha
      exact ⟨.write a, _, rfl, congrArg some ha, .write hf hw hn⟩
    | false =>
      rw [hw, if_neg Bool.false_ne_true] at ha
      exact ⟨.request s.front a, _, rfl, congrArg some ha, .request hfront hw hn⟩

end Progress

end Pipeline

namespace Limited

/-- As many requests come in: the test lets one more pass than the limit says. -/
def admitted (maxThreadPchild requests : Nat) : Nat := min requests (maxThreadPchild + 1)

/-- What is still to be done on a connection on which `count` requests come in. -/
def remaining (count : Nat) (answer : Nat → CompleteReply) (s : Limited) : Nat :=
  s.pipeline.remaining count answer + 4 * (count - s.pipeline.created) + s.reader.remaining

/-- What the reader keeps: no more than the admitted requests come in, and the queue has one node
more while it receives. -/
structure Reading (maxThreadPchild requests : Nat) (reply : Nat → Reply) (s : Limited) : Prop where
  counted : s.Counted maxThreadPchild requests
  relayed : (Worker.pipeline (admitted maxThreadPchild requests) reply).Reachable s.pipeline
  free : s.reader = .enqueue ∨ s.reader = .receive → s.maxThrRequest ≤ maxThreadPchild
  enqueued : s.pipeline.enqueued = s.pipeline.created + if s.reader = .receive then 1 else 0

section Progress

variable {maxThreadPchild requests : Nat} {reply : Nat → Reply} {answer : Nat → CompleteReply}
  {s t : Limited} {event : Event}

theorem reading_init (h : (limited maxThreadPchild requests reply).init s) :
    s.Reading maxThreadPchild requests reply := by
  have hcounted := counted_init h
  obtain ⟨mem, rfl⟩ := h
  refine ⟨hcounted, .of_init ⟨mem, rfl⟩, ?_, rfl⟩
  rintro (h0 | h0) <;> cases h0

/-- The reader receives a request only where one is admitted. -/
theorem Reading.created_lt (h : s.Reading maxThreadPchild requests reply) (hr : s.reader = .receive)
    (hlt : s.pipeline.created < requests) :
    s.pipeline.created < admitted maxThreadPchild requests := by
  have hcounter := h.counted.counter
  have hfree := h.free (.inr hr)
  simp only [uncounted, hr, reduceCtorEq, if_false] at hcounter
  unfold admitted
  omega

theorem reading_step (h : s.Reading maxThreadPchild requests reply)
    (hstep : Step maxThreadPchild requests reply s event t) :
    t.Reading maxThreadPchild requests reply := by
  have hcounted := counted_step h.counted hstep
  have henqueued := h.enqueued
  cases hstep with
  | testBusy hr hm | wake hr =>
    refine ⟨hcounted, h.relayed, ?_, ?_⟩
    · rintro (h0 | h0) <;> cases h0
    · simpa [hr] using henqueued
  | testFree hr hm =>
    refine ⟨hcounted, h.relayed, fun _ => not_lt.1 hm, ?_⟩
    simpa [hr] using henqueued
  | enqueue hr hp =>
    cases hp with
    | enqueue he =>
      exact ⟨hcounted, h.relayed.step (.enqueue he), fun _ => h.free (.inl hr),
        congrArg (· + 1) he⟩
  | receive hr hp =>
    cases hp with
    | create he hlt =>
      refine ⟨hcounted, h.relayed.step (.create he (h.created_lt hr hlt)), ?_, ?_⟩
      · rintro (h0 | h0) <;> cases h0
      · exact he
  | count hr =>
    refine ⟨hcounted, h.relayed, ?_, ?_⟩
    · rintro (h0 | h0) <;> cases h0
    · simpa [hr] using henqueued
  | relay he hp =>
    refine ⟨hcounted, h.relayed.step (hp.of_others he), h.free, ?_⟩
    dsimp only
    rw [Pipeline.enqueued_eq he hp, Pipeline.created_eq he hp]
    exact henqueued

theorem reading_reachable (h : (limited maxThreadPchild requests reply).Reachable s) :
    s.Reading maxThreadPchild requests reply :=
  h.invariant (Reading maxThreadPchild requests reply) (fun _ => reading_init)
    fun _ _ _ hs hstep => reading_step hs hstep

/-- While the reader is held back, a request has come in that the writer has not passed. -/
theorem Reading.helper_busy (h : s.Reading maxThreadPchild requests reply)
    (hm : s.maxThrRequest > maxThreadPchild)
    (hfront : s.pipeline.front < admitted maxThreadPchild requests) :
    some Thread.reader ≠ some s.pipeline.helper := by
  have hcounter := h.counted.counter
  unfold admitted at hfront
  have hlt : s.pipeline.front < s.pipeline.created := by omega
  unfold Pipeline.helper Node.helper
  rw [if_pos hlt]
  split <;> exact fun h0 => Thread.noConfusion (Option.some.inj h0)

/-- A step of the connection lowers what is to be done, or is a wait of a thread that is not the one
to go on. -/
theorem remaining_step
    (h : s.Reading maxThreadPchild requests fun i => (answer i).reply)
    (hfront : s.pipeline.front < admitted maxThreadPchild requests)
    (hstep : Step maxThreadPchild requests (fun i => (answer i).reply) s event t) :
    t.remaining (admitted maxThreadPchild requests) answer <
        s.remaining (admitted maxThreadPchild requests) answer ∨
      event.thread ≠ some s.pipeline.helper ∧
        t.remaining (admitted maxThreadPchild requests) answer =
          s.remaining (admitted maxThreadPchild requests) answer ∧
        t.pipeline.helper = s.pipeline.helper := by
  have hs := Pipeline.ordered_reachable h.relayed
  cases hstep with
  | testBusy hr hm =>
    right
    refine ⟨h.helper_busy hm hfront, ?_, rfl⟩
    simp only [remaining, hr, ReaderPc.remaining]
  | wake hr =>
    right
    refine ⟨h.helper_busy (h.counted.busy hr) hfront, ?_, rfl⟩
    simp only [remaining, hr, ReaderPc.remaining]
  | testFree hr hm | count hr =>
    left
    simp only [remaining, hr, ReaderPc.remaining]
    omega
  | enqueue hr hp =>
    left
    cases hp with
    | enqueue he =>
      simp only [remaining, Pipeline.remaining, hr, ReaderPc.remaining]
      omega
  | receive hr hp =>
    left
    have hlt : s.pipeline.created < requests := by
      cases hp with
      | create he hlt => exact hlt
    have hcreated := h.created_lt hr hlt
    have hsame := Pipeline.remaining_create hs hp hcreated
    cases hp with
    | create =>
      simp only [remaining, hr, ReaderPc.remaining, hsame]
      omega
  | @relay e p he hp =>
    have hcreated := Pipeline.created_eq he hp
    rcases Pipeline.remaining_step hs hfront he (hp.of_others he) with hlt | ⟨hne, heq, hhelper⟩
    · left
      simp only [remaining, hcreated]
      omega
    · right
      refine ⟨hne, ?_, hhelper⟩
      simp only [remaining, hcreated, heq]

/-- Who has to go on can do so. -/
theorem helper_enabled (h : s.Reading maxThreadPchild requests fun i => (answer i).reply)
    (hfront : s.pipeline.front < admitted maxThreadPchild requests) :
    (limited maxThreadPchild requests fun i => (answer i).reply).Enabled
      (fun _ event => event.thread) s s.pipeline.helper := by
  have hs := Pipeline.ordered_reachable h.relayed
  have henqueued := h.enqueued
  have hcounter := h.counted.counter
  by_cases hcreated : s.pipeline.front < s.pipeline.created
  · obtain ⟨e, p, he, hthread, hp⟩ := Pipeline.helper_enabled hs
      (Pipeline.present_reachable h.relayed) (by omega) hcreated
    exact ⟨.relay e, _, hthread, .relay he (hp.of_others he)⟩
  -- the next request has not come in, so fewer than the admitted ones have
  have hle := hs.front_le
  have hhelper : s.pipeline.helper = .reader := if_neg hcreated
  unfold admitted at hfront
  rw [hhelper]
  cases hr : s.reader with
  | test =>
    simp only [uncounted, hr, reduceCtorEq, if_false] at hcounter
    exact ⟨.test, _, rfl, .testFree hr (by omega)⟩
  | waits => exact ⟨.wake, _, rfl, .wake hr⟩
  | enqueue =>
    simp only [hr, reduceCtorEq, if_false] at henqueued
    exact ⟨.enqueue, _, rfl, .enqueue hr (.enqueue henqueued)⟩
  | receive =>
    simp only [hr, if_true] at henqueued
    exact ⟨.receive, _, rfl, .receive hr (.create henqueued (by omega))⟩
  | count => exact ⟨.count, _, rfl, .count hr⟩

theorem front_mono (hstep : Step maxThreadPchild requests reply s event t) :
    s.pipeline.front ≤ t.pipeline.front := by
  cases hstep with
  | testBusy | testFree | wake | count => exact Nat.le_refl _
  | enqueue hr hp | receive hr hp =>
    cases hp
    exact Nat.le_refl _
  | relay he hp =>
    cases hp with
    | enqueue | create | request | write => exact Nat.le_refl _
    | dequeue => exact Nat.le_succ _

/-- In a fair execution the writer passes all the requests that are admitted. -/
theorem front_admitted (x : (limited maxThreadPchild requests fun i => (answer i).reply).Execution)
    (h : (limited maxThreadPchild requests fun i => (answer i).reply).Reachable (x.state 0))
    (hfair : x.Fair fun _ event => event.thread) :
    ∃ k, ∀ j, k ≤ j → (Worker.pipeline (admitted maxThreadPchild requests) fun i =>
        (answer i).reply).Reachable (x.state j).pipeline ∧
      (x.state j).pipeline.front = admitted maxThreadPchild requests := by
  have hle {s : Limited} (hs : s.Reading maxThreadPchild requests fun i => (answer i).reply) :
      s.pipeline.front ≤ admitted maxThreadPchild requests :=
    Nat.le_trans (Pipeline.ordered_reachable hs.relayed).front_le
      (Pipeline.ordered_reachable hs.relayed).created_le
  have hreading (j : Nat) :
      (x.state j).Reading maxThreadPchild requests fun i => (answer i).reply :=
    reading_reachable (x.invariant _ (fun _ _ _ hs ha => hs.step ha) h (Nat.zero_le j))
  obtain ⟨k, -, hk⟩ := System.Execution.reaches hfair
    (Reading maxThreadPchild requests fun i => (answer i).reply)
    (fun s => s.pipeline.front = admitted maxThreadPchild requests)
    (remaining (admitted maxThreadPchild requests) answer) (fun s => s.pipeline.helper)
    (fun s hs hfront => helper_enabled hs (Nat.lt_of_le_of_ne (hle hs) hfront))
    (fun s e t hs hfront hstep => .inr ⟨reading_step hs hstep,
      remaining_step hs (Nat.lt_of_le_of_ne (hle hs) hfront) hstep⟩) (hreading 0)
  refine ⟨k, fun j hj => ⟨(hreading j).relayed, ?_⟩⟩
  -- the writer goes on only forwards
  induction j, hj using Nat.le_induction with
  | base => exact hk
  | succ j hj ih =>
    refine Nat.le_antisymm (hle (hreading (j + 1))) ?_
    rw [← ih]
    rcases x.next j with ⟨-, heq⟩ | ⟨a, -, ha⟩
    · rw [heq]
    · exact front_mono ha

end Progress

end Limited

/-- **Which answers arrive.** Whatever has happened on the connection so far, if from now on no
thread that can go on is left out for ever, then at some time the client has the messages for the
requests that are admitted, whole and in their order, and from then on nothing is added to them. -/
theorem delivered {maxThreadPchild requests : Nat} {answer : Nat → CompleteReply}
    (x : (limited maxThreadPchild requests fun i => (answer i).reply).Execution)
    (h : (limited maxThreadPchild requests fun i => (answer i).reply).Reachable (x.state 0))
    (hfair : x.Fair fun _ event => event.thread) :
    ∃ k, ∀ j, k ≤ j → (x.state j).pipeline.client =
      messages (fun i => (answer i).message) (min requests (maxThreadPchild + 1)) := by
  obtain ⟨k, hk⟩ := Limited.front_admitted x h hfair
  refine ⟨k, fun j hj => ?_⟩
  obtain ⟨hreach, hfront⟩ := hk j hj
  obtain ⟨-, -, -, hall⟩ := messages_in_order hreach
  exact hall hfront

/-- The limit is one thread, three requests come with short answers, and the threads go on in turn:
the client gets two answers. -/
theorem delivered_short : ∃ x : (limited 1 3 fun _ => shortReply.reply).Execution,
    (x.state 0).pipeline.client = [] ∧
      ∃ k, ∀ j, k ≤ j → (x.state j).pipeline.client = [72, 65, 72, 65] := by
  obtain ⟨x, hstart, hfair⟩ := System.exists_fair (M := limited 1 3 fun _ => shortReply.reply)
    (fun _ event => event.thread) ⟨Pipeline.start (fun _ => []) fun _ => shortReply.reply, .test, 0⟩
  have h : (limited 1 3 fun _ => shortReply.reply).Reachable (x.state 0) := by
    rw [hstart]
    exact .of_init ⟨fun _ => [], rfl⟩
  refine ⟨x, ?_, ?_⟩
  · rw [hstart]
    rfl
  · exact @delivered 1 3 (fun _ => shortReply) x h hfair

/-- There is a run in which the client gets all the messages. -/
theorem exists_delivered (count : Nat) (answer : Nat → CompleteReply) :
    ∃ s, (pipeline count fun i => (answer i).reply).Reachable s ∧ s.front = count ∧
      s.client = messages (fun i => (answer i).message) count := by
  obtain ⟨x, hstart, hfair⟩ := System.exists_fair
    (M := limited count count fun i => (answer i).reply) (fun _ event => event.thread)
    ⟨Pipeline.start (fun _ => []) fun i => (answer i).reply, .test, 0⟩
  have h : (limited count count fun i => (answer i).reply).Reachable (x.state 0) := by
    rw [hstart]
    exact .of_init ⟨fun _ => [], rfl⟩
  obtain ⟨k, hk⟩ := Limited.front_admitted x h hfair
  obtain ⟨hreach, hfront⟩ := hk k (Nat.le_refl k)
  have hcount : Limited.admitted count count = count := Nat.min_eq_left (Nat.le_succ count)
  rw [hcount] at hreach hfront
  obtain ⟨-, -, -, hall⟩ := messages_in_order hreach
  exact ⟨_, hreach, hfront, hall hfront⟩

end Heimdall.Worker
