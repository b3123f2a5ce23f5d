import Heimdall.Http.Chunk
import Heimdall.Lib.Mutex

/-!
# The mutex of the chunk (`connection.c`)

`receive_http_chunks` and `send_http_chunks` line by line: what either of them does with the mutex
of the chunk between its calls of `read` and `send_http`. A wait gives the mutex up and takes it
again when it ends, which it may do at any time.

The receiver leaves its loop with the mutex held when it has read the whole body, and unlocks it
behind the loop. At the end of the stream it has unlocked it already, and unlocks it once more. In
all other runs both functions unlock what they hold and nothing else (`chunkLock_kept`). When
`send_http` fails the sender does not return: it calls `thrown` of the singleton, which
`new_throwable` has not set, and the process crashes with the mutex held.
-/

namespace Heimdall.Http.ChunkLock

inductive Role
  | receiver
  | sender
  deriving DecidableEq

/-- What `receive_http_chunks` does next. `unlockEnd` is the unlock behind the loop. -/
inductive RecvPc
  | enter
  | lock
  | test
  | blocked
  | read
  | unlockError
  | signalEof
  | unlockEof
  | signal
  | unlockChunk
  | unlockEnd
  | returned (t : Throwable)
  deriving DecidableEq

/-- What `send_http_chunks` does next. -/
inductive SendPc
  | lock
  | test
  | blocked
  | send
  | signal
  | unlock
  | returned (t : Throwable)
  deriving DecidableEq

structure State where
  mutex : Mutex Role
  chunk : Chunk
  recv : RecvPc
  totalReceived : Int
  send : SendPc
  totalSent : Int
  crashed : Bool

/-- What `send_http` comes to. -/
inductive WriteResult
  | sent
  | error (t : Throwable)
  deriving DecidableEq

inductive Event
  | recv
  | read (r : ReadResult)
  | send
  | write (r : WriteResult)
  deriving DecidableEq

/-- One line of either function, for a body of `contentLen` bytes by its header; `total` is the
argument of the sender. -/
inductive Step (contentLen total : Int) : State → Event → State → Prop
  | unset {s : State} (hr : s.recv = .enter) (hl : contentLen = -1) :
      Step contentLen total s .recv { s with
        recv := .returned
          (.create statusError (.text "req_content_len not set!") "receive_http_chunks") }
  | enter {s : State} (hr : s.recv = .enter) (hl : contentLen ≠ -1) :
      Step contentLen total s .recv { s with recv := .lock }
  | recvLock {s : State} (hr : s.recv = .lock) (hm : s.mutex.owner = none) :
      Step contentLen total s .recv { s with mutex := s.mutex.lock .receiver, recv := .test }
  | recvWait {s : State} (hr : s.recv = .test) (hw : s.chunk.wrote = false) :
      Step contentLen total s .recv { s with mutex := s.mutex.unlock .receiver, recv := .blocked }
  | recvWake {s : State} (hr : s.recv = .blocked) (hm : s.mutex.owner = none) :
      Step contentLen total s .recv { s with mutex := s.mutex.lock .receiver, recv := .test }
  | recvReady {s : State} (hr : s.recv = .test) (hw : s.chunk.wrote = true) :
      Step contentLen total s .recv { s with recv := .read }
  | readError {s : State} (hr : s.recv = .read) :
      Step contentLen total s (.read .error) { s with recv := .unlockError }
  | unlockError {s : State} (hr : s.recv = .unlockError) :
      Step contentLen total s .recv { s with
        mutex := s.mutex.unlock .receiver
        recv := .returned (.create statusError .errno "receive_http_chunks") }
  | readEof {s : State} (hr : s.recv = .read) :
      Step contentLen total s (.read .eof) { s with recv := .signalEof }
  | signalEof {s : State} (hr : s.recv = .signalEof) :
      Step contentLen total s .recv { s with recv := .unlockEof }
  | unlockEof {s : State} (hr : s.recv = .unlockEof) :
      Step contentLen total s .recv { s with
        mutex := s.mutex.unlock .receiver
        recv := .unlockEnd }
  | readData {s : State} {bytes : List Byte} (hr : s.recv = .read) (hb : bytes ≠ []) :
      Step contentLen total s (.read (.data bytes)) { s with
        chunk := ⟨false, bytes.length, bytes ++ s.chunk.data.drop bytes.length⟩
        recv := .signal
        totalReceived := s.totalReceived + bytes.length }
  | signalAll {s : State} (hr : s.recv = .signal) (ht : s.totalReceived = contentLen) :
      Step contentLen total s .recv { s with recv := .unlockEnd }
  | signalPart {s : State} (hr : s.recv = .signal) (ht : s.totalReceived ≠ contentLen) :
      Step contentLen total s .recv { s with recv := .unlockChunk }
  | unlockAll {s : State} (hr : s.recv = .unlockChunk) (ht : s.totalReceived = contentLen) :
      Step contentLen total s .recv { s with
        mutex := s.mutex.unlock .receiver
        recv := .unlockEnd }
  | unlockPart {s : State} (hr : s.recv = .unlockChunk) (ht : s.totalReceived ≠ contentLen) :
      Step contentLen total s .recv { s with mutex := s.mutex.unlock .receiver, recv := .lock }
  | unlockEnd {s : State} (hr : s.recv = .unlockEnd) :
      Step contentLen total s .recv { s with
        mutex := s.mutex.unlock .receiver
        recv := .returned (.create statusOk .null "receive_http_chunks") }
  | sendLock {s : State} (hs : s.send = .lock) (hm : s.mutex.owner = none) :
      Step contentLen total s .send { s with mutex := s.mutex.lock .sender, send := .test }
  | sendWait {s : State} (hs : s.send = .test) (hw : s.chunk.wrote = true) :
      Step contentLen total s .send { s with mutex := s.mutex.unlock .sender, send := .blocked }
  | sendWake {s : State} (hs : s.send = .blocked) (hm : s.mutex.owner = none) :
      Step contentLen total s .send { s with mutex := s.mutex.lock .sender, send := .test }
  | sendReady {s : State} (hs : s.send = .test) (hw : s.chunk.wrote = false) :
      Step contentLen total s .send { s with send := .send }
  /-- `get_throwable()->thrown`, as against `throwable->thrown`, is a pointer to no function. -/
  | writeError {s : State} {t : Throwable} (hs : s.send = .send) :
      Step contentLen total s (.write (.error t)) { s with crashed := true }
  | writeSent {s : State} (hs : s.send = .send) :
      Step contentLen total s (.write .sent) { s with
        chunk := { s.chunk with dimen := 0, wrote := true }
        send := .signal
        totalSent := s.totalSent + s.chunk.dimen }
  | sendSignal {s : State} (hs : s.send = .signal) :
      Step contentLen total s .send { s with send := .unlock }
  | sendAll {s : State} (hs : s.send = .unlock) (ht : total = s.totalSent ∧ 0 < s.totalSent) :
      Step contentLen total s .send { s with
        mutex := s.mutex.unlock .sender
        send := .returned (.create statusOk .null "send_http_chunks") }
  | sendPart {s : State} (hs : s.send = .unlock) (ht : ¬ (total = s.totalSent ∧ 0 < s.totalSent)) :
      Step contentLen total s .send { s with mutex := s.mutex.unlock .sender, send := .lock }

/-- Both functions are called on a chunk that nobody holds. A crash ends both. -/
def chunkLock (contentLen total : Int) : System State Event where
  init s := s.mutex = .free ∧ s.recv = .enter ∧ s.totalReceived = 0 ∧ s.send = .lock ∧
    s.totalSent = 0 ∧ s.crashed = false
  step s event t := s.crashed = false ∧ Step contentLen total s event t

/-- The mutex has been unlocked only by who held it, and who has returned does not hold it. -/
structure State.Right (s : State) : Prop where
  misused_eq : s.mutex.misused = false
  received : ∀ t, s.recv = .returned t → s.mutex.owner ≠ some .receiver
  sent : ∀ t, s.send = .returned t → s.mutex.owner ≠ some .sender

/-- The stream does not end before the body. -/
def Smooth (_ : State) (event : Event) (_ : State) : Prop := event ≠ .read .eof

/-! ## Who holds the mutex -/

def RecvPc.holds : RecvPc → Bool
  | .test | .read | .unlockError | .signalEof | .unlockEof | .signal | .unlockChunk
  | .unlockEnd => true
  | .enter | .lock | .blocked | .returned _ => false

def SendPc.holds : SendPc → Bool
  | .test | .send | .signal | .unlock => true
  | .lock | .blocked | .returned _ => false

def holdsAt (p : RecvPc) (q : SendPc) : Role → Bool
  | .receiver => p.holds
  | .sender => q.holds

/-- What the steps of smooth runs keep: the next line of each function says whether it holds the
mutex, and the lines behind which it does not are those of a stream that has ended, and of a body
that has been read whole and is still unlocked in the loop. -/
structure State.Kept (contentLen : Int) (s : State) : Prop where
  guarded : s.mutex.Guarded (holdsAt s.recv s.send)
  part : s.recv = .unlockChunk → s.totalReceived ≠ contentLen
  noEof : s.recv ≠ .signalEof ∧ s.recv ≠ .unlockEof

section Steps

variable {contentLen total : Int} {s t : State} {event : Event} {m : Mutex Role} {p : RecvPc}
  {q : SendPc}

theorem recv_other (p p' : RecvPc) (q : SendPc) :
    ∀ r, r ≠ .receiver → holdsAt p' q r = holdsAt p q r := by
  intro r hr
  cases r with
  | receiver => exact absurd rfl hr
  | sender => rfl

theorem send_other (p : RecvPc) (q q' : SendPc) :
    ∀ r, r ≠ .sender → holdsAt p q' r = holdsAt p q r := by
  intro r hr
  cases r with
  | receiver => rfl
  | sender => exact absurd rfl hr

/-- A line of the receiver that leaves the mutex alone. -/
theorem guarded_recv (h : m.Guarded (holdsAt p q)) (p' : RecvPc) (heq : p'.holds = p.holds) :
    m.Guarded (holdsAt p' q) := by
  apply h.congr
  intro r
  cases r with
  | receiver => exact heq
  | sender => rfl

/-- A line of the sender that leaves the mutex alone. -/
theorem guarded_send (h : m.Guarded (holdsAt p q)) (q' : SendPc) (heq : q'.holds = q.holds) :
    m.Guarded (holdsAt p q') := by
  apply h.congr
  intro r
  cases r with
  | receiver => rfl
  | sender => exact heq

variable (total) in
theorem kept_init (h : (chunkLock contentLen total).init s) : s.Kept contentLen := by
  obtain ⟨hmutex, hrecv, -, hsend, -, -⟩ := h
  refine ⟨?_, ?_, ?_⟩
  · rw [hmutex, hrecv, hsend]
    apply Mutex.guarded_free
    intro r
    cases r <;> rfl
  · rw [hrecv]
    exact nofun
  · rw [hrecv]
    exact ⟨nofun, nofun⟩

/-- The step lemma. -/
theorem kept_step (h : s.Kept contentLen) (hstep : Step contentLen total s event t)
    (hsmooth : Smooth s event t) : t.Kept contentLen := by
  obtain ⟨hg, hpart, heof⟩ := h
  cases hstep with
  | unset hr | enter hr | recvReady hr | readError hr | readData hr | signalAll hr =>
    exact ⟨guarded_recv hg _ (by rw [hr]; rfl), nofun, nofun, nofun⟩
  | signalPart hr ht =>
    exact ⟨guarded_recv hg _ (by rw [hr]; rfl), fun _ => ht, nofun, nofun⟩
  | recvLock hr hm | recvWake hr hm =>
    exact ⟨hg.lock hm rfl (recv_other _ _ _), nofun, nofun, nofun⟩
  | recvWait hr | unlockError hr | unlockPart hr | unlockEnd hr =>
    exact ⟨hg.unlock (congrArg RecvPc.holds hr) rfl (recv_other _ _ _), nofun, nofun, nofun⟩
  | readEof hr => exact absurd rfl hsmooth
  | signalEof hr => exact absurd hr heof.1
  | unlockEof hr => exact absurd hr heof.2
  | unlockAll hr ht => exact absurd ht (hpart hr)
  | sendLock hs hm | sendWake hs hm =>
    exact ⟨hg.lock hm rfl (send_other _ _ _), hpart, heof⟩
  | sendWait hs | sendAll hs | sendPart hs =>
    exact ⟨hg.unlock (congrArg SendPc.holds hs) rfl (send_other _ _ _), hpart, heof⟩
  | sendReady hs | writeSent hs | sendSignal hs =>
    exact ⟨guarded_send hg _ (by rw [hs]; rfl), hpart, heof⟩
  | writeError => exact ⟨hg, hpart, heof⟩

theorem State.Kept.right (h : s.Kept contentLen) : s.Right := by
  refine ⟨h.guarded.misused_eq, ?_, ?_⟩
  · intro t ht howner
    have hholds := (h.guarded.owner_iff .receiver).1 howner
    rw [ht] at hholds
    cases hholds
  · intro t ht howner
    have hholds := (h.guarded.owner_iff .sender).1 howner
    rw [ht] at hholds
    cases hholds

theorem kept_reachable (h : ((chunkLock contentLen total).restrict Smooth).Reachable s) :
    s.Kept contentLen := by
  refine h.invariant (State.Kept contentLen) ?_ ?_
  · intro s hs
    exact kept_init total hs
  · intro s event t hs hstep
    exact kept_step hs hstep.1.2 hstep.2

/-! ## Where a run is not smooth -/

/-- Behind the end of the stream the receiver unlocks the mutex twice. -/
theorem misused_of_eof (h : s.Kept contentLen)
    (hstep : (chunkLock contentLen total).step s (.read .eof) t) :
    ∃ u, (chunkLock contentLen total).Run t [.recv, .recv, .recv] u ∧ ¬ u.Right := by
  obtain ⟨hlive, hstep⟩ := hstep
  cases hstep with
  | readEof hr =>
    have hholds : s.recv.holds = true := congrArg RecvPc.holds hr
    have hfree : (s.mutex.unlock .receiver).Guarded (holdsAt .blocked s.send) :=
      h.guarded.unlock hholds rfl (recv_other _ _ _)
    refine ⟨_, .cons ⟨hlive, .signalEof rfl⟩ (.cons ⟨hlive, .unlockEof rfl⟩
      (.single ⟨hlive, .unlockEnd rfl⟩)), ?_⟩
    intro hright
    cases (hfree.misuse rfl).symm.trans hright.misused_eq

end Steps

/-- **Both functions unlock what they hold** and return without it in every run in which `read` does
not come to the end of the stream. And where the next step is such an end, the next lines of the
receiver unlock the mutex twice. -/
theorem chunkLock_kept (contentLen total : Int) {s : State}
    (h : ((chunkLock contentLen total).restrict Smooth).Reachable s) :
    s.Right ∧ ∀ event t, (chunkLock contentLen total).step s event t →
      (Smooth s event t ↔ t.Right ∧
        ¬ ∃ u, (chunkLock contentLen total).Run t [.recv, .recv, .recv] u ∧ ¬ u.Right) := by
  refine ⟨(kept_reachable h).right, ?_⟩
  intro event t hstep
  constructor
  · intro hsmooth
    have ht : ((chunkLock contentLen total).restrict Smooth).Reachable t := h.step ⟨hstep, hsmooth⟩
    refine ⟨(kept_reachable ht).right, ?_⟩
    rintro ⟨u, hrun, hwrong⟩
    cases hrun with
    | cons h₁ hrun =>
      cases hrun with
      | cons h₂ hrun =>
        cases hrun with
        | cons h₃ hrun =>
          obtain rfl := hrun.nil_inv
          exact hwrong (kept_reachable
            (((ht.step ⟨h₁, nofun⟩).step ⟨h₂, nofun⟩).step ⟨h₃, nofun⟩)).right
  · rintro ⟨-, hrun⟩ rfl
    exact hrun (misused_of_eof (kept_reachable h) hstep)

/-- A body of one byte is passed on, and both have returned. -/
theorem chunkLock_kept_done : ∃ s : State, (∃ r, s.recv = .returned r) ∧
    (∃ r, s.send = .returned r) ∧ s.Right := by
  have hinit : ((chunkLock 1 1).restrict Smooth).Reachable
      ⟨.free, newChunk [0], .enter, 0, .lock, 0, false⟩ :=
    System.Reachable.of_init ⟨rfl, rfl, rfl, rfl, rfl, rfl⟩
  have h₁ := hinit.step ⟨⟨rfl, .enter rfl (by decide)⟩, nofun⟩
  have h₂ := h₁.step ⟨⟨rfl, .recvLock rfl rfl⟩, nofun⟩
  have h₃ := h₂.step ⟨⟨rfl, .recvReady rfl rfl⟩, nofun⟩
  have hb : ([0] : List Byte) ≠ [] := nofun
  have h₄ := h₃.step ⟨⟨rfl, .readData rfl hb⟩, nofun⟩
  have h₅ := h₄.step ⟨⟨rfl, .signalAll rfl rfl⟩, nofun⟩
  have h₆ := h₅.step ⟨⟨rfl, .unlockEnd rfl⟩, nofun⟩
  have h₇ := h₆.step ⟨⟨rfl, .sendLock rfl rfl⟩, nofun⟩
  have h₈ := h₇.step ⟨⟨rfl, .sendReady rfl rfl⟩, nofun⟩
  have h₉ := h₈.step ⟨⟨rfl, .writeSent rfl⟩, nofun⟩
  have h₁₀ := h₉.step ⟨⟨rfl, .sendSignal rfl⟩, nofun⟩
  have h₁₁ := h₁₀.step ⟨⟨rfl, .sendAll rfl ⟨rfl, by decide⟩⟩, nofun⟩
  exact ⟨_, ⟨_, rfl⟩, ⟨_, rfl⟩, (chunkLock_kept 1 1 h₁₁).1⟩

/-- The stream ends before the body. -/
theorem chunkLock_eof : ¬ ∀ (contentLen total : Int) (s : State),
    (chunkLock contentLen total).Reachable s → s.Right := by
  intro h
  have hinit : (chunkLock 1 1).Reachable ⟨.free, newChunk [0], .enter, 0, .lock, 0, false⟩ :=
    System.Reachable.of_init ⟨rfl, rfl, rfl, rfl, rfl, rfl⟩
  have hread := ((hinit.step ⟨rfl, .enter rfl (by decide)⟩).step ⟨rfl, .recvLock rfl rfl⟩).step
    ⟨rfl, .recvReady rfl rfl⟩
  have heof := hread.step ⟨rfl, .readEof rfl⟩
  have hend := ((heof.step ⟨rfl, .signalEof rfl⟩).step ⟨rfl, .unlockEof rfl⟩).step
    ⟨rfl, .unlockEnd rfl⟩
  cases (h 1 1 _ hend).misused_eq

end Heimdall.Http.ChunkLock
