import Heimdall.Http.Chunk

/-!
# A node of the request queue, between `request_work` and `write_work`

`request_work` holds the mutex of the node from its start until it has the header of the response,
so that everything up to there is one step (`Node.serve`), by what the request meets (`Reply`). The
writer takes the mutex, waits on the condition of the node while there is no header, writes the
header and goes on to the chunks.

Only a complete response leaves the writer a way out: every other exit of `request_work` returns
without a signal, or leaves the writer waiting for bytes that nobody will read
(`never_stuck_iff`).
-/

namespace Heimdall.Worker

open Heimdall.Http

/-- The exits of `request_work` before it reads a header. -/
inductive Exit
  | serverBroken
  | hostNull
  | notConnected
  | notBuilt
  | notSent
  deriving DecidableEq

/-- What a request meets: an exit without a header; a header that cannot be read or parsed, with
what has been stored until then; or a header with the announced length (-1 without a
Content-Length), a body, and whether the server ends with a reset. -/
inductive Reply
  | exit (e : Exit)
  | badHeader (header : Option (List Byte)) (contentLen : Int)
  | header (header : List Byte) (contentLen : Int) (body : List Byte) (reset : Bool)
  deriving DecidableEq

namespace Reply

def body : Reply → List Byte
  | .header _ _ body _ => body
  | _ => []

def reset : Reply → Bool
  | .header _ _ _ reset => reset
  | _ => false

def contentLen : Reply → Int
  | .exit _ => -1
  | .badHeader _ len => len
  | .header _ len _ _ => len

/-- A header that announces at least one byte, and all the bytes that it announces. -/
def Complete : Reply → Prop
  | .header _ len body _ => 1 ≤ len ∧ len ≤ body.length
  | _ => False

end Reply

/-- What `strlen` sees of a string. -/
def cString (bytes : List Byte) : List Byte := bytes.takeWhile (· ≠ 0)

inductive RequestPc
  | absent
  | ready
  | chunks
  | done
  deriving DecidableEq

/-- `request_work` has stored the header, or has gone on from there. -/
def RequestPc.served : RequestPc → Bool
  | .absent => false
  | .ready => false
  | .chunks => true
  | .done => true

/-- `header k`: the writer holds the mutex, and has written `k` bytes of the header. -/
inductive WriterPc
  | front
  | waits
  | header (k : Nat)
  | chunks
  | done
  deriving DecidableEq

structure Node where
  header : Option (List Byte)
  contentLen : Int
  workerStatus : Int
  request : RequestPc
  writer : WriterPc
  transfer : Transfer
  deriving DecidableEq

namespace Node

/-- `init_request_node`, for a request that will meet `reply`. -/
def start (mem : List Byte) (reply : Reply) : Node :=
  ⟨none, -1, statusOk, .ready, .front, .start mem reply.body⟩

/-- `request_work` up to the release of the mutex. Only a header that has been parsed is
signalled. -/
def serve (n : Node) : Reply → Node
  | .exit _ => { n with workerStatus := statusError, request := .done }
  | .badHeader header contentLen =>
    { n with
      header := header
      contentLen := contentLen
      workerStatus := statusError
      request := .done }
  | .header header contentLen _ _ =>
    { n with
      header := some header
      contentLen := contentLen
      request := .chunks
      writer := if n.writer = .waits then .front else n.writer }

inductive Act
  | serve
  | noLength
  | receive (a : Transfer.Act)
  | finish
  | lock
  | wake
  | header (k : Nat)
  | unlock
  | send (a : Transfer.Act)
  | last

end Node

/-- The steps of `receive_http_chunks`, as against those of `send_http_chunks`. -/
def receives : Transfer.Act → Bool
  | .recvWait => true
  | .recvWake => true
  | .receive _ => true
  | _ => false

namespace Node

inductive Step (reply : Reply) : Node → Act → Node → Prop
  | serve {n : Node} (hr : n.request = .ready) : Step reply n .serve (n.serve reply)
  /-- `receive_http_chunks` refuses a response without a length before it touches the chunk. -/
  | noLength {n : Node} (hr : n.request = .chunks) (hl : n.contentLen = -1) :
      Step reply n .noLength { n with workerStatus := statusError, request := .done }
  | receive {n : Node} {a : Transfer.Act} {t : Transfer} (hr : n.request = .chunks)
      (hl : n.contentLen ≠ -1) (ha : receives a = true)
      (ht : Transfer.Step n.contentLen reply.reset n.transfer a t) :
      Step reply n (.receive a) { n with transfer := t }
  | finish {n : Node} {r : Throwable} (hr : n.request = .chunks)
      (ht : n.transfer.received = some r) :
      Step reply n .finish { n with
        workerStatus := if r.isAnError then statusError else n.workerStatus
        request := .done }
  | lock {n : Node} (hw : n.writer = .front) :
      Step reply n .lock { n with writer := if n.header = none then .waits else .header 0 }
  | wake {n : Node} (hw : n.writer = .waits) : Step reply n .wake { n with writer := .front }
  | header {n : Node} {h : List Byte} {j k : Nat} (hw : n.writer = .header j)
      (hh : n.header = some h) (hk : 0 < k) (hle : j + k ≤ (cString h).length) :
      Step reply n (.header k) { n with writer := .header (j + k) }
  | unlock {n : Node} {h : List Byte} {j : Nat} (hw : n.writer = .header j)
      (hh : n.header = some h) (hj : j = (cString h).length) :
      Step reply n .unlock { n with writer := .chunks }
  | send {n : Node} {a : Transfer.Act} {t : Transfer} (hw : n.writer = .chunks)
      (ha : receives a = false) (ht : Transfer.Step n.contentLen reply.reset n.transfer a t) :
      Step reply n (.send a) { n with transfer := t }
  | last {n : Node} {r : Throwable} (hw : n.writer = .chunks)
      (ht : n.transfer.sentAll = some r) : Step reply n .last { n with writer := .done }

/-- `request_work` has finished, and the writer waits for a header that is not there, or for bytes
in a chunk that nobody will fill. -/
def Stuck (n : Node) : Prop :=
  n.request = .done ∧ (n.writer = .waits ∧ n.header = none ∨
    n.writer = .chunks ∧ n.transfer.sendWaits = true ∧ n.transfer.chunk.wrote = true)

end Node

/-- The node at the front of the queue, `request_work` on it and `write_work`. -/
def node (reply : Reply) : System Node Node.Act where
  init n := ∃ mem, n = Node.start mem reply
  step := Node.Step reply

/-! ## A complete response -/

namespace Node

/-- What a node keeps whose response is complete, with a body of `len` bytes. -/
structure Kept (h : List Byte) (len : Nat) (body : List Byte) (n : Node) : Prop where
  relayed : n.transfer.Relayed len body
  unserved : n.request.served = false → n.header = none
  served : n.request.served = true → n.header = some h ∧ n.contentLen = len
  done : n.request = .done → n.transfer.received ≠ none
  waits : n.writer = .waits → n.header = none
  front : n.writer = .front ∨ n.writer = .waits ∨ n.header = some h
  header_le : ∀ k, n.writer = .header k → k ≤ (cString h).length
  unsent : n.writer ≠ .chunks → n.writer ≠ .done → n.transfer.sent = []
  finished : n.writer = .done → n.transfer.sentAll ≠ none

section Complete

variable {h body : List Byte} {len : Nat} {reset : Bool} {n m : Node} {a : Act}

/-- The writer is past the header: it has seen one. -/
theorem Kept.header_eq {w : WriterPc} (hk : Kept h len body n) (hw : n.writer = w)
    (h0 : w ≠ .front) (h1 : w ≠ .waits) : n.header = some h := by
  rcases hk.front with hf | hwait | hh
  · exact absurd (hw.symm.trans hf) h0
  · exact absurd (hw.symm.trans hwait) h1
  · exact hh

theorem Kept.sent_eq {w : WriterPc} (hk : Kept h len body n) (hw : n.writer = w)
    (h0 : w ≠ .chunks) (h1 : w ≠ .done) : n.transfer.sent = [] :=
  hk.unsent (fun hc => h0 (hw.symm.trans hc)) fun hd => h1 (hw.symm.trans hd)

theorem kept_start (mem : List Byte) (hlen : 1 ≤ len) :
    Kept h len body (start mem (.header h len body reset)) where
  relayed := Transfer.relayed_start mem hlen
  unserved := fun _ => rfl
  served := fun hr => nomatch hr
  done := fun hr => nomatch hr
  waits := fun hw => nomatch hw
  front := Or.inl rfl
  header_le := fun _ hw => nomatch hw
  unsent := fun _ _ => rfl
  finished := fun hw => nomatch hw

/-- The receiver leaves the sender's side alone, and the sender the receiver's. -/
theorem receive_frame {k : Int} {t u : Transfer} {a : Transfer.Act} (ha : receives a = true)
    (ht : Transfer.Step k reset t a u) : u.sent = t.sent ∧ u.sentAll = t.sentAll := by
  cases ht with
  | recvWait | recvWake => exact ⟨rfl, rfl⟩
  | @receive r => cases r <;> exact ⟨rfl, rfl⟩
  | sendWait | sendWake | enter | write | leave => cases ha

theorem send_frame {k : Int} {t u : Transfer} {a : Transfer.Act} (ha : receives a = false)
    (ht : Transfer.Step k reset t a u) : u.received = t.received := by
  cases ht with
  | recvWait | recvWake | receive => cases ha
  | sendWait | sendWake | enter | write | leave => rfl

/-- The header has been read: the writer goes on as it was, or looks again if it waits. -/
theorem Kept.of_serve (hk : Kept h len body n) :
    Kept h len body (n.serve (.header h len body reset)) := by
  have hwriter : (n.serve (.header h len body reset)).writer = .front ∨
      (n.serve (.header h len body reset)).writer = n.writer ∧ n.writer ≠ .waits := by
    simp only [serve]
    split
    · exact Or.inl rfl
    · exact Or.inr ⟨rfl, ‹_›⟩
  refine ⟨hk.relayed, fun h0 => (nomatch h0), fun _ => ⟨rfl, rfl⟩, fun h0 => (nomatch h0), ?_,
    Or.inr (Or.inr rfl), ?_, ?_, ?_⟩
  · intro hw
    rcases hwriter with h0 | ⟨h0, h1⟩
    · exact nomatch h0.symm.trans hw
    · exact absurd (h0.symm.trans hw) h1
  · intro k hw
    rcases hwriter with h0 | ⟨h0, -⟩
    · exact nomatch h0.symm.trans hw
    · exact hk.header_le k (h0.symm.trans hw)
  · intro hc hd
    rcases hwriter with h0 | ⟨h0, -⟩
    · -- the writer was at the front or waiting
      refine hk.unsent ?_ ?_ <;> intro hw <;> simp only [serve, hw] at hc hd <;>
        exact absurd rfl (by assumption)
    · rw [h0] at hc hd
      exact hk.unsent hc hd
  · intro hd
    rcases hwriter with h0 | ⟨h0, -⟩
    · exact nomatch h0.symm.trans hd
    · exact hk.finished (h0.symm.trans hd)

/-- **The step lemma** for a node with a complete response. -/
theorem kept_step (hlen : 1 ≤ len) (hle : len ≤ body.length) (hk : Kept h len body n)
    (hstep : Step (.header h len body reset) n a m) : Kept h len body m := by
  cases hstep with
  | serve hr => exact hk.of_serve
  | noLength hr hl =>
    obtain ⟨-, hcl⟩ := hk.served (by rw [hr]; rfl)
    omega
  | receive hr hl ha ht =>
    obtain ⟨-, hcl⟩ := hk.served (by rw [hr]; rfl)
    rw [hcl] at ht
    obtain ⟨hsent, hall⟩ := receive_frame ha ht
    exact { hk with
      relayed := Transfer.relayed_step hlen hle hk.relayed ht
      done := fun h0 => nomatch hr.symm.trans h0
      unsent := fun hc hd => hsent.trans (hk.unsent hc hd)
      finished := fun hd h0 => hk.finished hd (hall.symm.trans h0) }
  | finish hr ht =>
    exact { hk with
      unserved := fun h0 => nomatch h0
      served := fun _ => hk.served (by rw [hr]; rfl)
      done := fun _ h0 => nomatch ht.symm.trans h0 }
  | lock hw =>
    have hunsent := hk.sent_eq hw WriterPc.noConfusion WriterPc.noConfusion
    by_cases hh : n.header = none
    · rw [if_pos hh]
      exact { hk with
        waits := fun _ => hh
        front := Or.inr (Or.inl rfl)
        header_le := fun _ h0 => nomatch h0
        unsent := fun _ _ => hunsent
        finished := fun h0 => nomatch h0 }
    · rw [if_neg hh]
      have hserved : n.request.served = true := Bool.not_eq_false _ ▸ fun h0 => hh (hk.unserved h0)
      exact { hk with
        waits := fun h0 => nomatch h0
        front := Or.inr (Or.inr (hk.served hserved).1)
        header_le := fun k h0 => by cases h0; exact Nat.zero_le _
        unsent := fun _ _ => hunsent
        finished := fun h0 => nomatch h0 }
  | wake hw =>
    exact { hk with
      waits := fun h0 => nomatch h0
      front := Or.inl rfl
      header_le := fun _ h0 => nomatch h0
      unsent := fun _ _ => hk.sent_eq hw WriterPc.noConfusion WriterPc.noConfusion
      finished := fun h0 => nomatch h0 }
  | @header h' j k hw hh hpos hle' =>
    have hsome := hk.header_eq hw WriterPc.noConfusion WriterPc.noConfusion
    rw [hsome] at hh
    cases hh
    exact { hk with
      waits := fun h0 => nomatch h0
      front := Or.inr (Or.inr hsome)
      header_le := fun k' hk' => by cases hk'; exact hle'
      unsent := fun _ _ => hk.sent_eq hw WriterPc.noConfusion WriterPc.noConfusion
      finished := fun h0 => nomatch h0 }
  | unlock hw hh hj =>
    have hsome := hk.header_eq hw WriterPc.noConfusion WriterPc.noConfusion
    exact { hk with
      waits := fun h0 => nomatch h0
      front := Or.inr (Or.inr hsome)
      header_le := fun _ h0 => nomatch h0
      unsent := fun hc => absurd rfl hc
      finished := fun h0 => nomatch h0 }
  | send hw ha ht =>
    have hsome := hk.header_eq hw WriterPc.noConfusion WriterPc.noConfusion
    have hserved : n.request.served = true := Bool.not_eq_false _ ▸ fun h0 =>
      nomatch hsome.symm.trans (hk.unserved h0)
    rw [(hk.served hserved).2] at ht
    exact { hk with
      relayed := Transfer.relayed_step hlen hle hk.relayed ht
      done := fun hd h0 => hk.done hd ((send_frame ha ht).symm.trans h0)
      unsent := fun hc => absurd hw hc
      finished := fun hd => nomatch hw.symm.trans hd }
  | last hw ht =>
    have hsome := hk.header_eq hw WriterPc.noConfusion WriterPc.noConfusion
    exact { hk with
      waits := fun h0 => nomatch h0
      front := Or.inr (Or.inr hsome)
      header_le := fun _ h0 => nomatch h0
      unsent := fun _ hd => absurd rfl hd
      finished := fun _ h0 => nomatch ht.symm.trans h0 }

theorem Kept.not_stuck (hk : Kept h len body n) : ¬ n.Stuck := by
  rintro ⟨hd, ⟨-, hh⟩ | ⟨-, hsw, hwr⟩⟩
  · exact nomatch hh.symm.trans (hk.served (by rw [hd]; rfl)).1
  · -- all was read and nothing is pending, so the sender would have returned
    have hread : ¬ n.transfer.totalReceived < len := fun hlt =>
      hk.done hd (hk.relayed.received_iff.2 hlt)
    have hsent := hk.relayed.sentAll_iff.1 (hk.relayed.waits_sending hsw).2
    have htotals := hk.relayed.totals
    rw [if_pos hwr] at htotals
    omega

end Complete

/-! ## Every other outcome -/

/-- Both threads are between two rounds, with nothing in the chunk. -/
structure AtRest (t : Transfer) : Prop where
  received : t.received = none
  recvWaits : t.recvWaits = false
  held : t.held = false
  written : t.written = 0
  wrote : t.chunk.wrote = true
  sentAll : t.sentAll = none
  sendWaits : t.sendWaits = false
  totals : t.totalSent = t.totalReceived

section Incomplete

variable {reply : Reply} {n : Node} {h : List Byte}

theorem atRest_start (mem socket : List Byte) : AtRest (Transfer.start mem socket) :=
  ⟨rfl, rfl, rfl, rfl, rfl, rfl, rfl, rfl⟩

/-- A writer that finds a header gets to the chunks. -/
theorem reachable_chunks (hn : (node reply).Reachable n) (hw : n.writer = .front)
    (hh : n.header = some h) : (node reply).Reachable { n with writer := .chunks } := by
  have hlock := hn.step (.lock hw)
  rw [if_neg (by rw [hh]; exact Option.some_ne_none h)] at hlock
  by_cases hlen : (cString h).length = 0
  · exact hlock.step (.unlock rfl hh hlen.symm)
  · have hhead := hlock.step (.header (k := (cString h).length) rfl hh (Nat.pos_of_ne_zero hlen)
      (Nat.le_of_eq (Nat.zero_add _)))
    exact hhead.step (.unlock rfl hh (Nat.zero_add _))

/-- Once it is there and `request_work` has finished, it waits for good. -/
theorem stuck_in_chunks (hn : (node reply).Reachable n) (hr : n.request = .done)
    (hw : n.writer = .chunks) (hs : n.transfer.sentAll = none) (hsw : n.transfer.sendWaits = false)
    (hh : n.transfer.held = false) (hwr : n.transfer.chunk.wrote = true) :
    ∃ m, (node reply).Reachable m ∧ m.Stuck :=
  ⟨_, hn.step (.send hw rfl (.sendWait hs hsw hh hwr)), hr, Or.inr ⟨hw, rfl, hwr⟩⟩

/-- The body ends, or a byte count of zero is read. -/
theorem stuck_at_end (hn : (node reply).Reachable n) (hr : n.request = .chunks)
    (hw : n.writer = .chunks) (hl : n.contentLen ≠ -1) (ht : AtRest n.transfer) {r : ReadResult}
    (hread : CanRead (chunkSize n.contentLen n.transfer.totalReceived) n.transfer.socket reply.reset
      r) (hend : r = .eof ∨ r = .error) : ∃ m, (node reply).Reachable m ∧ m.Stuck := by
  have hrecv := hn.step (.receive hr hl rfl
    (.receive ht.received ht.recvWaits ht.held ht.wrote hread))
  rcases hend with rfl | rfl
  · exact stuck_in_chunks (hrecv.step (.finish hr rfl)) rfl hw ht.sentAll rfl ht.held ht.wrote
  · exact stuck_in_chunks (hrecv.step (.finish hr rfl)) rfl hw ht.sentAll ht.sendWaits ht.held
      ht.wrote

/-- One byte is relayed. -/
theorem reachable_byte (hn : (node reply).Reachable n) (hr : n.request = .chunks)
    (hw : n.writer = .chunks) (ht : AtRest n.transfer) {b : Byte} {s : List Byte}
    (hs : n.transfer.socket = b :: s)
    (hlt : ((n.transfer.totalReceived + 1 : Nat) : Int) < n.contentLen) :
    ∃ t, (node reply).Reachable { n with transfer := t } ∧ AtRest t ∧ t.socket = s ∧
      t.totalReceived = n.transfer.totalReceived + 1 := by
  have hl : n.contentLen ≠ -1 := by omega
  have hread : CanRead (chunkSize n.contentLen n.transfer.totalReceived) n.transfer.socket
      reply.reset (.data [b]) := by
    refine ⟨List.cons_ne_nil b [], ?_, hs ▸ ⟨s, rfl⟩⟩
    unfold chunkSize maxChunkSize
    rw [List.length_singleton]
    split <;> omega
  have hrecv := hn.step (.receive hr hl rfl
    (.receive ht.received ht.recvWaits ht.held ht.wrote hread))
  have hleft := (((hrecv.step (.send hw rfl (.enter ht.sentAll rfl ht.held rfl))).step
    (.send hw rfl (.write (k := 1) rfl Nat.one_pos (Nat.le_of_eq (by
      change n.transfer.written + 1 = 1
      rw [ht.written]))))).step
    (.send hw rfl (.leave rfl (by
      change n.transfer.written + 1 = 1
      rw [ht.written]))))
  refine ⟨_, hleft, ⟨?_, rfl, rfl, rfl, rfl, ?_, rfl, ?_⟩, ?_, rfl⟩
  · exact if_neg (by simp only [List.length_singleton]; omega)
  · refine if_neg fun h0 => ?_
    have h1 : n.contentLen = ((n.transfer.totalSent + 1 : Nat) : Int) := h0.1
    rw [ht.totals] at h1
    omega
  · change n.transfer.totalSent + 1 = n.transfer.totalReceived + 1
    rw [ht.totals]
  · change n.transfer.socket.drop 1 = s
    rw [hs]
    rfl

/-- A body that is too short is relayed to its end. The induction is on what is left of it. -/
theorem reachable_end {s : List Byte} (hn : (node reply).Reachable n) (hr : n.request = .chunks)
    (hw : n.writer = .chunks) (ht : AtRest n.transfer) (hs : n.transfer.socket = s)
    (hlt : ((n.transfer.totalReceived + s.length : Nat) : Int) < n.contentLen) :
    ∃ t, (node reply).Reachable { n with transfer := t } ∧ AtRest t ∧ t.socket = [] ∧
      (t.totalReceived : Int) < n.contentLen := by
  induction s generalizing n with
  | nil => exact ⟨n.transfer, hn, ht, hs, hlt⟩
  | cons b s ih =>
    rw [List.length_cons] at hlt
    obtain ⟨t, ht₁, hrest, hsock, htot⟩ := reachable_byte hn hr hw ht hs (by omega)
    obtain ⟨u, hu, hrest', hsock', hlt'⟩ := ih ht₁ hr hw hrest hsock (by
      change ((t.totalReceived + s.length : Nat) : Int) < n.contentLen
      rw [htot]
      omega)
    exact ⟨u, hu, hrest', hsock', hlt'⟩

/-- **An incomplete outcome** can leave the writer blocked for good. -/
theorem exists_stuck (hc : ¬ reply.Complete) (hlen : -1 ≤ reply.contentLen) :
    ∃ n, (node reply).Reachable n ∧ n.Stuck := by
  have hstart : (node reply).Reachable (start [] reply) := .of_init ⟨[], rfl⟩
  have hserve := hstart.step (.serve rfl)
  cases reply with
  | exit e =>
    -- the writer waits first, and no signal follows
    have hwait := (hstart.step (.lock rfl)).step (.serve rfl)
    exact ⟨_, hwait, rfl, Or.inl ⟨rfl, rfl⟩⟩
  | badHeader header len =>
    cases header with
    | none =>
      have hwait := (hstart.step (.lock rfl)).step (.serve rfl)
      exact ⟨_, hwait, rfl, Or.inl ⟨rfl, rfl⟩⟩
    | some h => exact stuck_in_chunks (reachable_chunks hserve rfl rfl) rfl rfl rfl rfl rfl rfl
  | header h len body reset =>
    have hlen' : -1 ≤ len := hlen
    have hchunks := reachable_chunks hserve rfl rfl
    by_cases hneg : len = -1
    · exact stuck_in_chunks (hchunks.step (.noLength rfl hneg)) rfl rfl rfl rfl rfl rfl
    by_cases hzero : len = 0
    · refine stuck_at_end hchunks rfl rfl hneg (atRest_start [] body) (r := .eof) ?_ (Or.inl rfl)
      subst hzero
      exact Or.inl rfl
    · have hshort : (body.length : Int) < len := by
        have hc' : ¬ (1 ≤ len ∧ len ≤ body.length) := hc
        omega
      obtain ⟨t, ht, hrest, hsock, hlt⟩ := reachable_end (s := body) hchunks rfl rfl
        (atRest_start [] body) rfl (by
          change ((0 + body.length : Nat) : Int) < len
          omega)
      have hlt' : (t.totalReceived : Int) < len := hlt
      have hsize : 0 < chunkSize len t.totalReceived := by
        unfold chunkSize maxChunkSize
        split <;> omega
      cases reset with
      | false =>
        exact stuck_at_end ht rfl rfl hneg hrest (r := .eof) (Or.inr ⟨hsock, rfl⟩) (Or.inl rfl)
      | true =>
        exact stuck_at_end ht rfl rfl hneg hrest (r := .error) ⟨hsize, hsock, rfl⟩ (Or.inr rfl)

end Incomplete

end Node

theorem kept_of_reachable {h body : List Byte} {len : Nat} {reset : Bool} {n : Node}
    (hlen : 1 ≤ len) (hle : len ≤ body.length)
    (hn : (node (.header h len body reset)).Reachable n) : n.Kept h len body := by
  refine hn.invariant (Node.Kept h len body) ?_ fun _ _ _ hk hstep =>
    Node.kept_step hlen hle hk hstep
  rintro n ⟨mem, rfl⟩
  exact Node.kept_start mem hlen

/-- **The writer is never blocked for good** on the node at the front, in any interleaving with its
`request_work`, exactly when the response is complete. -/
theorem never_stuck_iff {reply : Reply} (hlen : -1 ≤ reply.contentLen) :
    (∀ n, (node reply).Reachable n → ¬ n.Stuck) ↔ reply.Complete := by
  constructor
  · intro hall
    refine Classical.byContradiction fun hc => ?_
    obtain ⟨n, hn, hs⟩ := Node.exists_stuck hc hlen
    exact hall n hn hs
  · intro hc n hn
    cases reply with
    | exit e => exact hc.elim
    | badHeader header len => exact hc.elim
    | header h len body reset =>
      obtain ⟨hpos, hle⟩ : 1 ≤ len ∧ len ≤ body.length := hc
      lift len to Nat using by omega
      exact (kept_of_reachable (by omega) (by omega) hn).not_stuck

/-- A response of one byte. -/
def oneByte : Reply := .header [72] 1 [65] false

theorem never_stuck_oneByte : ¬ ∃ n, (node oneByte).Reachable n ∧ n.Stuck := by
  have hcomplete : oneByte.Complete := ⟨by decide, by decide⟩
  intro ⟨n, hn, hs⟩
  exact (never_stuck_iff (by decide)).2 hcomplete n hn hs

/-- The server of the connection is marked as BROKEN: the writer waits for a header that never
comes. -/
theorem writer_stuck : ¬ ∀ reply n, -1 ≤ reply.contentLen → (node reply).Reachable n →
    ¬ n.Stuck := by
  intro h
  have hstuck : ∃ n, (node (.exit .serverBroken)).Reachable n ∧ n.Stuck :=
    Node.exists_stuck not_false (by decide)
  obtain ⟨n, hn, hs⟩ := hstuck
  exact h _ n (by decide) hn hs

end Heimdall.Worker
