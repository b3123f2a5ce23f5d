import Mathlib.Data.List.TakeWhile
import Mathlib.Logic.Function.Basic
import Heimdall.Worker.Node

/-!
# The pipeline of one client connection

`read_work` enqueues a node, receives a request into it and creates its `request_work`, over and
over; the request threads run in any order; `write_work` works on the node at the front and dequeues
it when its response has been written. The nodes are numbered in the order in which they are
enqueued.

The writer alone writes to the client, and it leaves a node only when as many bytes are out as
`request_work` has read from the header. So what the client has got at any time are the messages for
the first requests and a part of the next one (`messages_in_order`).
-/

namespace Heimdall.Worker

open Heimdall.Http

/-- A reply that is complete: `length` is what has been read from the header, and `data` what the
server sends after that. -/
structure CompleteReply where
  header : List Byte
  length : Nat
  data : List Byte
  reset : Bool
  length_pos : 1 ≤ length
  length_le : length ≤ data.length

namespace CompleteReply

def reply (r : CompleteReply) : Reply := .header r.header r.length r.data r.reset

/-- What the client gets of it. -/
def message (r : CompleteReply) : List Byte := cString r.header ++ r.data.take r.length

end CompleteReply

theorem Reply.Complete.exists_eq {reply : Reply} (h : reply.Complete) :
    ∃ r : CompleteReply, reply = r.reply := by
  cases reply with
  | exit | badHeader => exact h.elim
  | header header len data reset =>
    obtain ⟨hpos, hle⟩ := h
    obtain ⟨k, rfl⟩ := Int.eq_ofNat_of_zero_le (Int.le_trans (by decide) hpos)
    exact ⟨⟨header, k, data, reset, by omega, by omega⟩, rfl⟩

namespace Node

/-- The bytes of this node's response that the writer has written. -/
def out (n : Node) : List Byte :=
  match n.writer with
  | .front | .waits => []
  | .header k => (cString (n.header.getD [])).take k
  | .chunks | .done => cString (n.header.getD []) ++ n.transfer.sent

/-- The bytes that a step writes. -/
def emit (n : Node) : Act → List Byte
  | .header k =>
    match n.writer with
    | .header j => ((cString (n.header.getD [])).drop j).take k
    | _ => []
  | .send (.write k) => (n.transfer.chunk.data.drop n.transfer.written).take k
  | _ => []

/-- The steps of `write_work`, as against those of `request_work`. -/
def Act.writes : Act → Bool
  | .lock => true
  | .wake => true
  | .header _ => true
  | .unlock => true
  | .send _ => true
  | .last => true
  | _ => false

section Out

variable {h body : List Byte} {len : Nat} {reset : Bool} {n m : Node} {a : Act}

/-- **What a step writes** is appended to what has been written. -/
theorem out_step (hk : Kept h len body n) (hstep : Step (.header h len body reset) n a m) :
    m.out = n.out ++ n.emit a := by
  cases hstep with
  | serve hr =>
    have hnone := hk.unserved (by rw [hr]; rfl)
    have hw : n.writer = .front ∨ n.writer = .waits := by
      rcases hk.front with h0 | h0 | h0
      · exact Or.inl h0
      · exact Or.inr h0
      · exact nomatch hnone.symm.trans h0
    rcases hw with hw | hw <;> simp [out, emit, serve, hw]
  | noLength hr hl => exact (List.append_nil _).symm
  | receive hr hl ha ht =>
    have hsent := (receive_frame ha ht).1
    unfold out emit
    cases n.writer <;> simp only [hsent, List.append_nil]
  | finish hr ht => exact (List.append_nil _).symm
  | lock hw =>
    simp only [out, emit, hw, List.append_nil]
    by_cases hh : n.header = none
    · rw [if_pos hh]
    · rw [if_neg hh]
      rfl
  | wake hw => simp [out, emit, hw]
  | @header h' j k hw hh hpos hle =>
    simp only [out, emit, hw]
    exact List.take_add
  | @unlock h' j hw hh hj =>
    have hsent := hk.sent_eq hw WriterPc.noConfusion WriterPc.noConfusion
    simp only [out, emit, hw, hsent, hh, Option.getD_some, hj, List.append_nil, List.take_length]
  | @send a t hw ha ht =>
    simp only [out, hw]
    cases ht with
    | write hh hpos hle => exact (List.append_assoc _ _ _).symm
    | sendWait | sendWake | enter | leave => exact (List.append_nil _).symm
    | recvWait | recvWake | receive => cases ha
  | last hw ht => simp [out, emit, hw]

/-- `request_work` moves the writer only from its wait. -/
theorem writer_request {reply : Reply} (hstep : Step reply n a m) (ha : a.writes = false) :
    m.writer = n.writer ∨ n.writer = .waits ∧ m.writer = .front := by
  cases hstep with
  | serve hr =>
    cases reply with
    | exit | badHeader => exact Or.inl rfl
    | header =>
      simp only [serve]
      split
      · exact Or.inr ⟨‹_›, rfl⟩
      · exact Or.inl rfl
  | noLength | receive | finish => exact Or.inl rfl
  | lock | wake | header | unlock | send | last => cases ha

theorem request_writer {reply : Reply} (hstep : Step reply n a m) (ha : a.writes = true) :
    m.request = n.request := by
  cases hstep with
  | serve | noLength | receive | finish => cases ha
  | lock | wake | header | unlock | send | last => rfl

/-- Only the writer's steps write. -/
theorem emit_request (ha : a.writes = false) : n.emit a = [] := by
  cases a with
  | serve | noLength | receive | finish => rfl
  | lock | wake | header | unlock | send | last => cases ha

end Out

section Message

variable {r : CompleteReply} {n : Node}

/-- What has been written is the beginning of the message. -/
theorem out_prefix (hk : Kept r.header r.length r.data n) : n.out <+: r.message := by
  have hheader : ∀ w, n.writer = w → w ≠ .front → w ≠ .waits →
      cString (n.header.getD []) = cString r.header := fun w hw h0 h1 => by
    rw [hk.header_eq hw h0 h1, Option.getD_some]
  have hsent : n.transfer.sent <+: r.data.take r.length := by
    have h0 : n.transfer.sent <+: r.data.take n.transfer.totalReceived :=
      ⟨_, hk.relayed.sent_eq⟩
    exact h0.trans (List.take_prefix_take_left hk.relayed.received_le)
  unfold out
  cases hw : n.writer with
  | front => exact List.nil_prefix
  | waits => exact List.nil_prefix
  | header k =>
    rw [hheader _ hw WriterPc.noConfusion WriterPc.noConfusion]
    exact (List.take_prefix k _).trans (List.prefix_append _ _)
  | chunks =>
    rw [hheader _ hw WriterPc.noConfusion WriterPc.noConfusion]
    exact (List.prefix_append_right_inj _).2 hsent
  | done =>
    rw [hheader _ hw WriterPc.noConfusion WriterPc.noConfusion]
    exact (List.prefix_append_right_inj _).2 hsent

/-- Nothing has been written before there is a header. -/
theorem out_unserved (hk : Kept r.header r.length r.data n) (hr : n.request.served = false) :
    n.out = [] := by
  unfold out
  rcases hk.front with h0 | h0 | h0
  · rw [h0]
  · rw [h0]
  · exact nomatch (hk.unserved hr).symm.trans h0

/-- When the writer is done with a node, the whole message has been written. -/
theorem out_done (hk : Kept r.header r.length r.data n) (hd : n.writer = .done) :
    n.out = r.message := by
  have hsome := hk.header_eq hd WriterPc.noConfusion WriterPc.noConfusion
  have hsent := hk.relayed.sent_eq
  have htotals := hk.relayed.totals
  have hle := hk.relayed.received_le
  have hall : ¬ n.transfer.totalSent < r.length := fun hlt =>
    hk.finished hd (hk.relayed.sentAll_iff.2 hlt)
  have hnil : n.transfer.pending = [] := by
    unfold Transfer.pending
    split
    · rfl
    · rename_i hw
      rw [if_neg hw] at htotals
      have h0 : n.transfer.chunk.dimen = 0 := by omega
      rw [h0, List.take_zero, List.drop_nil]
  have htot : n.transfer.totalReceived = r.length := by omega
  rw [hnil, List.append_nil, htot] at hsent
  simp only [out, hd, hsome, Option.getD_some, hsent, CompleteReply.message]

end Message

end Node

/-! ## The connection -/

/-- `enqueued` nodes have been put into the queue, the first `created` of them have a request
thread, the first `front` have been dequeued; `client` is what has been written to the client. -/
structure Pipeline where
  nodes : Nat → Node
  enqueued : Nat
  created : Nat
  front : Nat
  client : List Byte

inductive Event
  | enqueue
  | create
  | request (i : Nat) (a : Node.Act)
  | write (a : Node.Act)
  | dequeue

/-- The steps of the request threads and of the writer, as against those of the reader. -/
def Event.ofOthers : Event → Bool
  | .enqueue => false
  | .create => false
  | _ => true

/-- A connection on which `count` requests arrive, the `i`-th of which meets `reply i`. -/
inductive Pipeline.Step (count : Nat) (reply : Nat → Reply) : Pipeline → Event → Pipeline → Prop
  | enqueue {s : Pipeline} (h : s.enqueued = s.created) :
      Step count reply s .enqueue { s with enqueued := s.enqueued + 1 }
  | create {s : Pipeline} (h : s.enqueued = s.created + 1) (hc : s.created < count) :
      Step count reply s .create { s with
        nodes := Function.update s.nodes s.created { s.nodes s.created with request := .ready }
        created := s.created + 1 }
  | request {s : Pipeline} {i : Nat} {a : Node.Act} {n : Node} (hi : i < s.created)
      (ha : a.writes = false) (hn : Node.Step (reply i) (s.nodes i) a n) :
      Step count reply s (.request i a) { s with nodes := Function.update s.nodes i n }
  | write {s : Pipeline} {a : Node.Act} {n : Node} (hf : s.front < s.enqueued)
      (ha : a.writes = true) (hn : Node.Step (reply s.front) (s.nodes s.front) a n) :
      Step count reply s (.write a) { s with
        nodes := Function.update s.nodes s.front n
        client := s.client ++ (s.nodes s.front).emit a }
  | dequeue {s : Pipeline} (hf : s.front < s.enqueued) (hd : (s.nodes s.front).writer = .done) :
      Step count reply s .dequeue { s with front := s.front + 1 }

/-- The request threads and the writer receive no request. -/
theorem Pipeline.created_eq {count : Nat} {reply : Nat → Reply} {s t : Pipeline} {e : Event}
    (he : e.ofOthers = true) (h : Pipeline.Step count reply s e t) : t.created = s.created := by
  cases h with
  | enqueue | create => cases he
  | request | write | dequeue => rfl

theorem Pipeline.enqueued_eq {count : Nat} {reply : Nat → Reply} {s t : Pipeline} {e : Event}
    (he : e.ofOthers = true) (h : Pipeline.Step count reply s e t) : t.enqueued = s.enqueued := by
  cases h with
  | enqueue | create => cases he
  | request | write | dequeue => rfl

/-- Nothing has happened; `mem i` is what is in the chunk of the node `i`. -/
def Pipeline.start (mem : Nat → List Byte) (reply : Nat → Reply) : Pipeline :=
  ⟨fun i => { Node.start (mem i) (reply i) with request := .absent }, 0, 0, 0, []⟩

def pipeline (count : Nat) (reply : Nat → Reply) : System Pipeline Event where
  init s := ∃ mem : Nat → List Byte, s = Pipeline.start mem reply
  step := Pipeline.Step count reply

/-- The first `k` messages, one after the other. -/
def messages (message : Nat → List Byte) (k : Nat) : List Byte := (List.range k).flatMap message

theorem messages_succ (message : Nat → List Byte) (k : Nat) :
    messages message (k + 1) = messages message k ++ message k := by
  simp [messages, List.range_succ]

theorem messages_le (message : Nat → List Byte) {j k : Nat} (h : j ≤ k) :
    messages message j <+: messages message k := by
  induction k with
  | zero =>
    obtain rfl : j = 0 := by omega
    exact List.prefix_rfl
  | succ k ih =>
    rcases Nat.lt_or_eq_of_le h with hlt | rfl
    · rw [messages_succ]
      exact (ih (by omega)).trans (List.prefix_append _ _)
    · exact List.prefix_rfl

/-- **What the connection keeps.** -/
structure Pipeline.Ordered (count : Nat) (answer : Nat → CompleteReply) (s : Pipeline) : Prop where
  kept : ∀ i, (s.nodes i).Kept (answer i).header (answer i).length (answer i).data
  created_le : s.created ≤ count
  absent : ∀ i, s.created ≤ i → (s.nodes i).request = .absent
  dequeued : ∀ i, i < s.front → (s.nodes i).writer = .done
  queued : ∀ i, s.front < i → (s.nodes i).writer = .front
  client_eq : s.client = messages (fun i => (answer i).message) s.front ++ (s.nodes s.front).out

namespace Pipeline

section Lemmas

variable {count : Nat} {answer : Nat → CompleteReply} {s t : Pipeline} {e : Event}

theorem ordered_init (h : (pipeline count fun i => (answer i).reply).init s) :
    s.Ordered count answer := by
  obtain ⟨mem, rfl⟩ := h
  refine ⟨fun i => ?_, Nat.zero_le _, fun _ _ => rfl, fun _ hi => absurd hi (Nat.not_lt_zero _),
    fun _ _ => rfl, rfl⟩
  have hk : (Node.start (mem i) (answer i).reply).Kept (answer i).header (answer i).length
      (answer i).data :=
    Node.kept_start (mem i) (answer i).length_pos
  exact { hk with
    unserved := fun _ => rfl
    served := fun h0 => nomatch h0
    done := fun h0 => nomatch h0 }

/-- A node's new state matters to the queue at its own place only. -/
theorem update_of {P : Node → Prop} {i j : Nat} {n : Node} (h : P (s.nodes j))
    (hi : j = i → P n) : P (Function.update s.nodes i n j) := by
  by_cases hj : j = i
  · subst hj
    rw [Function.update_self]
    exact hi rfl
  · rw [Function.update_of_ne hj]
    exact h

theorem kept_update {i j : Nat} {n : Node} (hs : s.Ordered count answer)
    (hn : n.Kept (answer i).header (answer i).length (answer i).data) :
    (Function.update s.nodes i n j).Kept (answer j).header (answer j).length (answer j).data :=
  update_of (P := fun m => m.Kept (answer j).header (answer j).length (answer j).data) (hs.kept j)
    fun hj => hj ▸ hn

theorem Ordered.create (hs : s.Ordered count answer) (hc : s.created < count) :
    Pipeline.Ordered count answer { s with
      nodes := Function.update s.nodes s.created { s.nodes s.created with request := .ready }
      created := s.created + 1 } := by
  have hk := hs.kept s.created
  have habs := hs.absent s.created (Nat.le_refl _)
  have hnode : ∀ j, (Function.update s.nodes s.created
      { s.nodes s.created with request := .ready } j).writer = (s.nodes j).writer ∧
      (Function.update s.nodes s.created
      { s.nodes s.created with request := .ready } j).out = (s.nodes j).out := by
    intro j
    refine update_of (P := fun m => m.writer = (s.nodes j).writer ∧ m.out = (s.nodes j).out)
      ⟨rfl, rfl⟩ fun hj => ?_
    subst hj
    exact ⟨rfl, rfl⟩
  refine ⟨fun j => kept_update hs ?_, hc, fun j hj => ?_, fun j hj => ?_, fun j hj => ?_, ?_⟩
  · exact { hk with
      unserved := fun _ => hk.unserved (by rw [habs]; rfl)
      served := fun h0 => nomatch h0
      done := fun h0 => nomatch h0 }
  · have hj' : s.created + 1 ≤ j := hj
    change (Function.update s.nodes s.created _ j).request = .absent
    rw [Function.update_of_ne (by omega)]
    exact hs.absent j (by omega)
  · exact (hnode j).1.trans (hs.dequeued j hj)
  · exact (hnode j).1.trans (hs.queued j hj)
  · change s.client = messages (fun i => (answer i).message) s.front ++ _
    rw [(hnode s.front).2]
    exact hs.client_eq

theorem Ordered.request {i : Nat} {a : Node.Act} {n : Node} (hs : s.Ordered count answer)
    (hi : i < s.created) (ha : a.writes = false)
    (hn : Node.Step (answer i).reply (s.nodes i) a n) :
    Pipeline.Ordered count answer { s with nodes := Function.update s.nodes i n } := by
  have hk := hs.kept i
  have hk' := Node.kept_step (answer i).length_pos (answer i).length_le hk hn
  have hwriter := Node.writer_request hn ha
  refine ⟨fun j => kept_update hs hk', hs.created_le, fun j hj => ?_, fun j hj => ?_,
    fun j hj => ?_, ?_⟩
  · have hj' : s.created ≤ j := hj
    change (Function.update s.nodes i n j).request = .absent
    rw [Function.update_of_ne (by omega)]
    exact hs.absent j hj'
  · have hd := hs.dequeued j hj
    refine update_of (P := fun m => m.writer = .done) hd fun hji => ?_
    subst hji
    rcases hwriter with h0 | ⟨h0, -⟩
    · exact h0.trans hd
    · exact nomatch hd.symm.trans h0
  · have hq := hs.queued j hj
    refine update_of (P := fun m => m.writer = .front) hq fun hji => ?_
    subst hji
    rcases hwriter with h0 | ⟨-, h0⟩
    · exact h0.trans hq
    · exact h0
  · change s.client = messages (fun i => (answer i).message) s.front ++
      (Function.update s.nodes i n s.front).out
    rw [hs.client_eq]
    by_cases hfi : s.front = i
    · subst hfi
      rw [Function.update_self, Node.out_step hk hn, Node.emit_request ha, List.append_nil]
    · rw [Function.update_of_ne hfi]

theorem Ordered.write {a : Node.Act} {n : Node} (hs : s.Ordered count answer)
    (ha : a.writes = true) (hn : Node.Step (answer s.front).reply (s.nodes s.front) a n) :
    Pipeline.Ordered count answer { s with
      nodes := Function.update s.nodes s.front n
      client := s.client ++ (s.nodes s.front).emit a } := by
  have hk := hs.kept s.front
  have hk' := Node.kept_step (answer s.front).length_pos (answer s.front).length_le hk hn
  refine ⟨fun j => kept_update hs hk', hs.created_le, fun j hj => ?_, fun j hj => ?_,
    fun j hj => ?_, ?_⟩
  · have habs := hs.absent j hj
    refine update_of (P := fun m => m.request = .absent) habs fun hjf => ?_
    subst hjf
    exact (Node.request_writer hn ha).trans habs
  · have hj' : j < s.front := hj
    change (Function.update s.nodes s.front n j).writer = .done
    rw [Function.update_of_ne (by omega)]
    exact hs.dequeued j hj'
  · have hj' : s.front < j := hj
    change (Function.update s.nodes s.front n j).writer = .front
    rw [Function.update_of_ne (by omega)]
    exact hs.queued j hj'
  · change s.client ++ (s.nodes s.front).emit a
      = messages (fun i => (answer i).message) s.front ++
        (Function.update s.nodes s.front n s.front).out
    rw [Function.update_self, Node.out_step hk hn, hs.client_eq, List.append_assoc]

/-- The next node is untouched, and the client has the whole message of this one. -/
theorem Ordered.dequeue (hs : s.Ordered count answer)
    (hd : (s.nodes s.front).writer = .done) :
    Pipeline.Ordered count answer { s with front := s.front + 1 } := by
  refine ⟨hs.kept, hs.created_le, hs.absent, fun j hj => ?_, fun j hj => ?_, ?_⟩
  · have hj' : j < s.front + 1 := hj
    rcases Nat.lt_or_eq_of_le (Nat.lt_succ_iff.1 hj') with hlt | rfl
    · exact hs.dequeued j hlt
    · exact hd
  · have hj' : s.front + 1 < j := hj
    exact hs.queued j (by omega)
  · have hnext : (s.nodes (s.front + 1)).out = [] := by
      unfold Node.out
      rw [hs.queued (s.front + 1) (Nat.lt_succ_self _)]
    change s.client = messages (fun i => (answer i).message) (s.front + 1) ++
      (s.nodes (s.front + 1)).out
    rw [hnext, List.append_nil, messages_succ, hs.client_eq, Node.out_done (hs.kept s.front) hd]

/-- **The step lemma** for the connection. -/
theorem ordered_step (hs : s.Ordered count answer)
    (hstep : Step count (fun i => (answer i).reply) s e t) : t.Ordered count answer := by
  cases hstep with
  | enqueue h => exact { hs with }
  | create h hc => exact hs.create hc
  | request hi ha hn => exact hs.request hi ha hn
  | write hf ha hn => exact hs.write ha hn
  | dequeue hf hd => exact hs.dequeue hd

/-- The writer has not passed the requests that have come in. -/
theorem Ordered.front_le (hs : s.Ordered count answer) : s.front ≤ s.created := by
  refine Classical.byContradiction fun hlt => ?_
  -- the last node passed was written, so it had a header
  have hd := hs.dequeued s.created (by omega)
  have habs := hs.absent s.created (Nat.le_refl _)
  have hk := hs.kept s.created
  have hsome := hk.header_eq hd WriterPc.noConfusion WriterPc.noConfusion
  exact nomatch hsome.symm.trans (hk.unserved (by rw [habs]; rfl))

theorem ordered_reachable (h : (pipeline count fun i => (answer i).reply).Reachable s) :
    s.Ordered count answer := by
  apply h.invariant (Pipeline.Ordered count answer)
  · intro s hs
    exact ordered_init hs
  · intro s e t hs hstep
    exact ordered_step hs hstep

end Lemmas

end Pipeline

/-- **The messages arrive in order.** At any time the client has got the messages for the first
requests, and the beginning of the next one, whatever the order in which the servers answer; and it
has got all of them when the writer has passed all requests. -/
theorem messages_in_order {count : Nat} {answer : Nat → CompleteReply} {s : Pipeline}
    (h : (pipeline count fun i => (answer i).reply).Reachable s) :
    s.front ≤ count ∧ (∃ part, part <+: (answer s.front).message ∧
        s.client = messages (fun i => (answer i).message) s.front ++ part) ∧
      s.client <+: messages (fun i => (answer i).message) count ∧
      (s.front = count → s.client = messages (fun i => (answer i).message) count) := by
  have hs := Pipeline.ordered_reachable h
  have hle := Nat.le_trans hs.front_le hs.created_le
  have hout := Node.out_prefix (hs.kept s.front)
  have hall : s.front = count → s.client = messages (fun i => (answer i).message) count := by
    intro heq
    -- all requests are answered: the node at the front has none
    have habs := hs.absent s.front (by have := hs.created_le; omega)
    have hnil := Node.out_unserved (hs.kept s.front) (by rw [habs]; rfl)
    rw [hs.client_eq, hnil, List.append_nil, heq]
  refine ⟨hle, ⟨_, hout, hs.client_eq⟩, ?_, hall⟩
  rcases Nat.lt_or_eq_of_le hle with hlt | heq
  · rw [hs.client_eq]
    refine List.IsPrefix.trans ?_ (messages_le _ hlt)
    rw [messages_succ]
    exact (List.prefix_append_right_inj _).2 hout
  · exact hall heq ▸ List.prefix_rfl

/-- A header and a body of one byte each. -/
def shortReply : CompleteReply := ⟨[72], 1, [65], false, Nat.le_refl 1, Nat.le_refl 1⟩

end Heimdall.Worker
