import Mathlib.Data.List.Basic
import Heimdall.Basic
import Heimdall.Lib.System

/-!
# The chunk between two threads

`receive_http_chunks` reads the body of a response into the chunk, `send_http_chunks` writes the
chunk to the client. They share the flag `wrote`, the count `dimen` and the data under the mutex of
the chunk, and wait for each other on its condition. A `Transfer` is the chunk with the locals of
both functions, its steps are the rounds between lock and unlock. A round of the receiver is one
step; a round of the sender is entered, writes in as many parts as the socket takes, and is left.

What every step keeps is `Transfer.Relayed`: what has been sent, followed by what is pending in the
chunk, is what has been read.
-/

namespace Heimdall.Http

def maxChunkSize : Nat := 4096

structure Chunk where
  wrote : Bool
  dimen : Nat
  data : List Byte
  deriving DecidableEq

/-- `mem` is what `malloc(MAX_CHUNK_SIZE + 1)` returns. -/
def newChunk (mem : List Byte) : Chunk := ⟨true, 0, mem.set maxChunkSize 0⟩

/-- What `read` does: bytes, the end of the stream, or an error. -/
inductive ReadResult
  | data (bytes : List Byte)
  | eof
  | error
  deriving DecidableEq

/-- What `read` may do when asked for `size` bytes. At the end of what the peer has sent, `reset`
decides between the end of the stream and an error. -/
def CanRead (size : Int) (socket : List Byte) (reset : Bool) : ReadResult → Prop
  | .data bytes => bytes ≠ [] ∧ (bytes.length : Int) ≤ size ∧ bytes <+: socket
  | .eof => size = 0 ∨ socket = [] ∧ reset = false
  | .error => 0 < size ∧ socket = [] ∧ reset = true

/-- The bytes that the next `read` asks for. -/
def chunkSize (contentLen : Int) (totalReceived : Nat) : Int :=
  if contentLen - totalReceived ≥ maxChunkSize then maxChunkSize else contentLen - totalReceived

/-- The chunk, and how far `receive_http_chunks` and `send_http_chunks` are. `socket` is what the
server has sent and nobody has read, `sent` what has been written to the client; `received` and
`sentAll` are what the two functions have returned. -/
structure Transfer where
  chunk : Chunk
  socket : List Byte
  totalReceived : Nat
  recvWaits : Bool
  received : Option Throwable
  held : Bool
  written : Nat
  totalSent : Nat
  sendWaits : Bool
  sentAll : Option Throwable
  sent : List Byte
  deriving DecidableEq

namespace Transfer

/-- Before both functions are called. -/
def start (mem socket : List Byte) : Transfer :=
  ⟨newChunk mem, socket, 0, false, none, false, 0, 0, false, none, []⟩

/-- The round of `receive_http_chunks` after its wait. An error is not signalled. -/
def receive (contentLen : Int) (t : Transfer) : ReadResult → Transfer
  | .error => { t with received := some (.create statusError .errno "receive_http_chunks") }
  | .eof =>
    { t with
      sendWaits := false
      received := some (.create statusOk .null "receive_http_chunks") }
  | .data bytes =>
    { t with
      chunk := ⟨false, bytes.length, bytes ++ t.chunk.data.drop bytes.length⟩
      socket := t.socket.drop bytes.length
      totalReceived := t.totalReceived + bytes.length
      sendWaits := false
      received :=
        if ((t.totalReceived + bytes.length : Nat) : Int) = contentLen then
          some (.create statusOk .null "receive_http_chunks")
        else none }

/-- One `write` of `send_http`, of which the socket takes `k` bytes. -/
def write (t : Transfer) (k : Nat) : Transfer :=
  { t with
    written := t.written + k
    sent := t.sent ++ (t.chunk.data.drop t.written).take k }

/-- The end of the round of `send_http_chunks`, after `send_http`. -/
def leave (total : Int) (t : Transfer) : Transfer :=
  { t with
    chunk := { t.chunk with dimen := 0, wrote := true }
    held := false
    written := 0
    recvWaits := false
    totalSent := t.totalSent + t.chunk.dimen
    sentAll :=
      if total = (t.totalSent + t.chunk.dimen : Nat) ∧ 0 < t.totalSent + t.chunk.dimen then
        some (.create statusOk .null "send_http_chunks")
      else none }

/-- The steps of the two threads. A wait may end at any time; a signal ends it too. -/
inductive Act
  | recvWait
  | recvWake
  | receive (r : ReadResult)
  | sendWait
  | sendWake
  | enter
  | write (k : Nat)
  | leave

/-- A body of `n` bytes by its header, and a server that ends with a reset or without. -/
inductive Step (n : Int) (reset : Bool) : Transfer → Act → Transfer → Prop
  | recvWait {t : Transfer} (hr : t.received = none) (hw : t.recvWaits = false)
      (hh : t.held = false) (hc : t.chunk.wrote = false) :
      Step n reset t .recvWait { t with recvWaits := true }
  | recvWake {t : Transfer} (hw : t.recvWaits = true) :
      Step n reset t .recvWake { t with recvWaits := false }
  | receive {t : Transfer} {r : ReadResult} (hr : t.received = none) (hw : t.recvWaits = false)
      (hh : t.held = false) (hc : t.chunk.wrote = true)
      (hread : CanRead (chunkSize n t.totalReceived) t.socket reset r) :
      Step n reset t (.receive r) (t.receive n r)
  | sendWait {t : Transfer} (hs : t.sentAll = none) (hw : t.sendWaits = false)
      (hh : t.held = false) (hc : t.chunk.wrote = true) :
      Step n reset t .sendWait { t with sendWaits := true }
  | sendWake {t : Transfer} (hw : t.sendWaits = true) :
      Step n reset t .sendWake { t with sendWaits := false }
  | enter {t : Transfer} (hs : t.sentAll = none) (hw : t.sendWaits = false)
      (hh : t.held = false) (hc : t.chunk.wrote = false) :
      Step n reset t .enter { t with held := true }
  | write {t : Transfer} {k : Nat} (hh : t.held = true) (hk : 0 < k)
      (hle : t.written + k ≤ t.chunk.dimen) : Step n reset t (.write k) (t.write k)
  | leave {t : Transfer} (hh : t.held = true) (hd : t.written = t.chunk.dimen) :
      Step n reset t .leave (t.leave n)

/-- What the chunk still holds for the client. -/
def pending (t : Transfer) : List Byte :=
  if t.chunk.wrote then [] else (t.chunk.data.take t.chunk.dimen).drop t.written

/-- **What every step keeps**, for a body of `n` bytes by its header on a stream that has them. -/
structure Relayed (n : Nat) (stream : List Byte) (t : Transfer) : Prop where
  socket_eq : t.socket = stream.drop t.totalReceived
  received_le : t.totalReceived ≤ n
  sent_eq : t.sent ++ t.pending = stream.take t.totalReceived
  totals : t.totalSent + (if t.chunk.wrote then 0 else t.chunk.dimen) = t.totalReceived
  dimen_le : t.chunk.dimen ≤ maxChunkSize
  dimen_data : t.chunk.wrote = false → t.chunk.dimen ≤ t.chunk.data.length
  written_le : t.written ≤ t.chunk.dimen
  written_zero : t.held = false → t.written = 0
  held_wrote : t.held = true → t.chunk.wrote = false
  held_sending : t.held = true → t.sentAll = none
  received_iff : t.received = none ↔ t.totalReceived < n
  received_ok : ∀ r, t.received = some r → r.isAnError = false
  sentAll_iff : t.sentAll = none ↔ t.totalSent < n
  sentAll_ok : ∀ r, t.sentAll = some r → r.isAnError = false
  waits_sending : t.sendWaits = true → t.held = false ∧ t.sentAll = none

section Lemmas

variable {n : Nat} {stream : List Byte} {reset : Bool} {t u : Transfer} {a : Act}

theorem relayed_start (mem : List Byte) (hn : 0 < n) : Relayed n stream (start mem stream) where
  socket_eq := rfl
  received_le := Nat.zero_le n
  sent_eq := rfl
  totals := rfl
  dimen_le := Nat.zero_le _
  dimen_data := fun h => nomatch h
  written_le := Nat.le_refl 0
  written_zero := fun _ => rfl
  held_wrote := fun h => nomatch h
  held_sending := fun h => nomatch h
  received_iff := ⟨fun _ => hn, fun _ => rfl⟩
  received_ok := fun _ h => nomatch h
  sentAll_iff := ⟨fun _ => hn, fun _ => rfl⟩
  sentAll_ok := fun _ h => nomatch h
  waits_sending := fun h => nomatch h

theorem chunkSize_of_lt {k : Nat} (hk : k < n) :
    0 < chunkSize n k ∧ chunkSize n k ≤ maxChunkSize ∧ chunkSize n k ≤ n - k := by
  unfold chunkSize maxChunkSize
  split <;> omega

/-- Before the end of the body `read` returns bytes. -/
theorem read_data (hs : n ≤ stream.length) (h : Relayed n stream t) (hr : t.received = none)
    {r : ReadResult} (hread : CanRead (chunkSize n t.totalReceived) t.socket reset r) :
    ∃ bytes, r = .data bytes ∧ bytes ≠ [] ∧
      (bytes.length : Int) ≤ chunkSize n t.totalReceived ∧ bytes <+: t.socket := by
  have hlt := h.received_iff.1 hr
  have hpos := (chunkSize_of_lt hlt).1
  have hne : t.socket ≠ [] := by
    rw [h.socket_eq]
    intro hnil
    have := List.drop_eq_nil_iff.1 hnil
    omega
  cases r with
  | data bytes => exact ⟨bytes, rfl, hread⟩
  | eof =>
    rcases hread with h0 | ⟨h0, -⟩
    · omega
    · exact absurd h0 hne
  | error => exact absurd hread.2.1 hne

theorem relayed_receive (h : Relayed n stream t) (hh : t.held = false)
    (hc : t.chunk.wrote = true) (hr : t.received = none) {bytes : List Byte} (hne : bytes ≠ [])
    (hlen : (bytes.length : Int) ≤ chunkSize n t.totalReceived) (hp : bytes <+: t.socket) :
    Relayed n stream (t.receive n (.data bytes)) := by
  have hlt := h.received_iff.1 hr
  obtain ⟨-, hmax, hrest⟩ := chunkSize_of_lt hlt
  have hpos : 0 < bytes.length := List.length_pos_iff.2 hne
  have hsent : t.sent = stream.take t.totalReceived := by
    have := h.sent_eq
    rwa [pending, if_pos hc, List.append_nil] at this
  have htotal := h.totals
  rw [if_pos hc] at htotal
  have hsentlt : t.totalSent < n := by omega
  refine ⟨?_, ?_, ?_, ?_, ?_, ?_, ?_, h.written_zero, fun _ => rfl, h.held_sending, ?_, ?_,
    h.sentAll_iff, h.sentAll_ok, fun h0 => (nomatch h0)⟩
  · change t.socket.drop bytes.length = stream.drop (t.totalReceived + bytes.length)
    rw [h.socket_eq, List.drop_drop]
  · change t.totalReceived + bytes.length ≤ n
    omega
  · change t.sent ++ ((bytes ++ t.chunk.data.drop bytes.length).take bytes.length).drop t.written
      = stream.take (t.totalReceived + bytes.length)
    rw [h.written_zero hh, List.drop_zero, List.take_left, hsent, List.take_add, ← h.socket_eq]
    exact congrArg _ (List.prefix_iff_eq_take.1 hp)
  · change t.totalSent + bytes.length = t.totalReceived + bytes.length
    omega
  · change bytes.length ≤ maxChunkSize
    omega
  · intro _
    change bytes.length ≤ (bytes ++ t.chunk.data.drop bytes.length).length
    rw [List.length_append]
    omega
  · change t.written ≤ bytes.length
    rw [h.written_zero hh]
    exact Nat.zero_le _
  · change (if ((t.totalReceived + bytes.length : Nat) : Int) = n then _ else none) = none ↔ _
    split
    · have hnot : ¬ t.totalReceived + bytes.length < n := by omega
      exact ⟨fun h0 => (nomatch h0), fun h0 => absurd h0 hnot⟩
    · exact ⟨fun _ => by show t.totalReceived + bytes.length < n; omega, fun _ => rfl⟩
  · intro r hr'
    simp only [receive] at hr'
    split at hr'
    · cases hr'
      rfl
    · cases hr'

theorem relayed_write (h : Relayed n stream t) (hh : t.held = true) {k : Nat}
    (hle : t.written + k ≤ t.chunk.dimen) : Relayed n stream (t.write k) := by
  have hc := h.held_wrote hh
  refine ⟨h.socket_eq, h.received_le, ?_, h.totals, h.dimen_le, h.dimen_data, hle,
    fun h0 => (nomatch hh.symm.trans h0), h.held_wrote, h.held_sending,
    h.received_iff, h.received_ok, h.sentAll_iff, h.sentAll_ok, h.waits_sending⟩
  have hsent := h.sent_eq
  unfold pending at hsent ⊢
  simp only [hc, write, Bool.false_eq_true, if_false] at hsent ⊢
  -- the bytes move from what is pending to what is sent
  rw [← hsent, List.append_assoc]
  refine congrArg _ ?_
  rw [← List.drop_drop,
    ← List.take_append_drop k ((t.chunk.data.take t.chunk.dimen).drop t.written)]
  refine congrArg₂ _ ?_ (by rw [List.take_append_drop])
  rw [List.drop_take, List.take_take, Nat.min_eq_left (by omega)]

theorem relayed_leave (h : Relayed n stream t) (hn : 0 < n) (hh : t.held = true)
    (hd : t.written = t.chunk.dimen) :
    Relayed n stream (t.leave n) := by
  have hc := h.held_wrote hh
  have htotal := h.totals
  rw [if_neg (by rw [hc]; exact Bool.false_ne_true)] at htotal
  have hle := h.received_le
  refine ⟨h.socket_eq, h.received_le, ?_, ?_, Nat.zero_le _, fun h0 => (nomatch h0), Nat.zero_le _,
    fun _ => rfl, fun h0 => (nomatch h0), fun h0 => (nomatch h0), h.received_iff, h.received_ok,
    ?_, ?_, fun h0 => (nomatch hh.symm.trans (h.waits_sending h0).1)⟩
  · have hsent := h.sent_eq
    unfold pending at hsent
    rw [if_neg (by rw [hc]; exact Bool.false_ne_true), hd, List.drop_of_length_le
        (List.length_take_le _ _),
      List.append_nil] at hsent
    change t.sent ++ [] = _
    rw [List.append_nil, hsent]
    rfl
  · change t.totalSent + t.chunk.dimen + 0 = t.totalReceived
    omega
  · simp only [leave]
    split
    · exact ⟨fun h0 => (nomatch h0), fun h0 => absurd h0 (by omega)⟩
    · exact ⟨fun _ => by omega, fun _ => rfl⟩
  · intro r hr
    simp only [leave] at hr
    split at hr
    · cases hr
      rfl
    · cases hr

/-- **The step lemma.** -/
theorem relayed_step (hn : 0 < n) (hs : n ≤ stream.length) (h : Relayed n stream t)
    (hstep : Step n reset t a u) : Relayed n stream u := by
  cases hstep with
  | recvWait hr hw hh hc => exact { h with }
  | recvWake hw => exact { h with }
  | receive hr hw hh hc hread =>
    obtain ⟨bytes, rfl, hne, hlen, hp⟩ := read_data hs h hr hread
    exact relayed_receive h hh hc hr hne hlen hp
  | sendWait hs hw hh hc => exact { h with waits_sending := fun _ => ⟨hh, hs⟩ }
  | sendWake hw => exact { h with waits_sending := fun h0 => nomatch h0 }
  | enter hs hw hh hc =>
    exact { h with
      written_zero := fun h0 => nomatch h0
      held_wrote := fun _ => hc
      held_sending := fun _ => hs
      waits_sending := fun h0 => nomatch hw.symm.trans h0 }
  | write hh hk hle => exact relayed_write h hh hle
  | leave hh hd => exact relayed_leave h hn hh hd

end Lemmas

end Transfer

/-! ## One response -/

/-- Both functions on a new chunk, for a body of `n` bytes on a stream of the server. -/
def transfers (n : Nat) (stream : List Byte) (reset : Bool) : System Transfer Transfer.Act where
  init t := ∃ mem, t = Transfer.start mem stream
  step := Transfer.Step n reset

section Transfers

variable {n : Nat} {stream : List Byte} {reset : Bool} {t : Transfer}

theorem relayed_of_reachable (hn : 0 < n) (hs : n ≤ stream.length)
    (h : (transfers n stream reset).Reachable t) : t.Relayed n stream := by
  refine h.invariant (Transfer.Relayed n stream) ?_ fun s a u hi hstep =>
    Transfer.relayed_step hn hs hi hstep
  rintro t ⟨mem, rfl⟩
  exact Transfer.relayed_start mem hn

/-- **The body is relayed.** In every state, what has been sent to the client, followed by what the
chunk still holds for it, is what has been read from the server, in order; the chunk holds at most
4096 bytes; no more than `n` bytes are read; and when both functions have returned OK, the first `n`
bytes of the stream have been sent, each once. Between two rounds of the sender what the chunk holds
is its first `dimen` bytes when `wrote` is FALSE. -/
theorem body_relayed (hn : 1 ≤ n) (hs : n ≤ stream.length)
    (h : (transfers n stream reset).Reachable t) :
    t.sent ++ t.pending = stream.take t.totalReceived ∧
      (t.held = false →
        t.sent ++ (if t.chunk.wrote then [] else t.chunk.data.take t.chunk.dimen)
          = stream.take t.totalReceived) ∧
      t.socket = stream.drop t.totalReceived ∧ t.pending.length ≤ maxChunkSize ∧
      t.chunk.dimen ≤ maxChunkSize ∧ t.totalReceived ≤ n ∧
      ∀ r s, t.received = some r → t.sentAll = some s → r.isAnError = false →
        s.isAnError = false → t.sent = stream.take n := by
  have hr := relayed_of_reachable hn hs h
  have hpending : t.pending.length ≤ t.chunk.dimen := by
    unfold Transfer.pending
    split
    · exact Nat.zero_le _
    · rw [List.length_drop]
      exact Nat.le_trans (Nat.sub_le _ _) (List.length_take_le _ _)
  refine ⟨hr.sent_eq, ?_, hr.socket_eq, Nat.le_trans hpending hr.dimen_le, hr.dimen_le,
    hr.received_le, ?_⟩
  · intro hheld
    have hsent := hr.sent_eq
    rwa [Transfer.pending, hr.written_zero hheld, List.drop_zero] at hsent
  · intro r s hrecv hsent _ _
    have hread : ¬ t.totalReceived < n := fun hlt => by
      rw [hr.received_iff.2 hlt] at hrecv
      cases hrecv
    have hdone : ¬ t.totalSent < n := fun hlt => by
      rw [hr.sentAll_iff.2 hlt] at hsent
      cases hsent
    have hle := hr.received_le
    have htotals := hr.totals
    -- all that was read has been sent, so nothing is pending
    have hnil : t.pending = [] := by
      unfold Transfer.pending
      split
      · rfl
      · rename_i hw
        rw [if_neg hw] at htotals
        have h0 : t.chunk.dimen = 0 := by omega
        rw [h0, List.take_zero, List.drop_nil]
    have hall : t.totalReceived = n := by omega
    rw [← hall, ← hr.sent_eq, hnil, List.append_nil]

/-- A body of two bytes that is read at once and written one byte at a time. -/
def twoBytes : Transfer :=
  let t := (Transfer.start [] [65, 66, 67]).receive 2 (.data [65, 66])
  ((({ t with held := true }).write 1).write 1).leave 2

theorem twoBytes_reachable : (transfers 2 [65, 66, 67] false).Reachable twoBytes := by
  have hread : Transfer.Step 2 false (Transfer.start [] [65, 66, 67]) (.receive (.data [65, 66]))
      ((Transfer.start [] [65, 66, 67]).receive 2 (.data [65, 66])) :=
    .receive rfl rfl rfl rfl ⟨by decide, by decide, by decide⟩
  have h₀ : (transfers 2 [65, 66, 67] false).Reachable (Transfer.start [] [65, 66, 67]) :=
    .of_init ⟨[], rfl⟩
  have h₁ := (h₀.step hread).step (.enter rfl rfl rfl rfl)
  have h₂ := (h₁.step (.write rfl (k := 1) (by decide) (by decide))).step
    (.write rfl (k := 1) (by decide) (by decide))
  exact h₂.step (.leave rfl rfl)

theorem twoBytes_relayed : twoBytes.sent = [65, 66] :=
  (body_relayed (by decide) (by decide) twoBytes_reachable).2.2.2.2.2.2 _ _ rfl rfl rfl rfl

end Transfers

end Heimdall.Http
