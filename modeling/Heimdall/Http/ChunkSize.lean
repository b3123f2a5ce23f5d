import Mathlib.Data.Int.Order.Basic
import Heimdall.Http.Chunk
import Heimdall.Http.Head

/-!
# The sizes of the reads of `receive_http_chunks`

The size of a read is what is missing of the body, at most `MAX_CHUNK_SIZE`. It is signed, and
`read` takes it as a `size_t`. A negative `Content-Length` is accepted by the parser, and only -1 is
told apart, as the value of a length that is not set: for any other one the first read asks for
almost 2^64 bytes (`sizes_iff`).
-/

namespace Heimdall.Http

/-! ## The length that a header block leaves -/

theorem strToInt_fits (v : List Byte) : FitsInt (strToInt v).2 := by
  unfold strToInt FitsInt longToInt intMin intMax
  have hlow := @Int.le_bmod (strtol v).value 4294967296 (by decide)
  have hhigh := @Int.bmod_lt (strtol v).value 4294967296 (by decide)
  dsimp only
  omega

/-- Whatever the text, the length is an `int`. -/
theorem Kind.keeps_fits (kind : Kind) : kind.Keeps fun self => FitsInt self.reqContentLen where
  first v h := by cases kind <;> exact h
  second v h := by cases kind <;> exact h
  third v h := by cases kind <;> exact h
  field hself hstore := by
    rcases (HTTPRequest.storeHeader_ok hstore).2 with hlen | ⟨v, hlen⟩
    · rw [hlen]
      exact hself
    · rw [hlen]
      exact strToInt_fits v

/-! ## The reads -/

/-- The conversion of an `ssize_t` to `size_t`. -/
def toSizeT (x : Int) : Nat := (x % 18446744073709551616).toNat

/-- `receive_http_chunks`: what it has received, and what it has returned. -/
structure Receiving where
  totalReceived : Nat
  received : Option Throwable

/-- Before the loop: -1 is a length that is not set. -/
def Receiving.start (contentLen : Int) : Receiving where
  totalReceived := 0
  received :=
    if contentLen = -1 then
      some (.create statusError (.text "req_content_len not set!") "receive_http_chunks")
    else none

/-- What a pass of the loop does with the result of its read. -/
def Receiving.read (contentLen : Int) (s : Receiving) : ReadResult → Receiving
  | .error => { s with received := some (.create statusError .errno "receive_http_chunks") }
  | .eof => { s with received := some (.create statusOk .null "receive_http_chunks") }
  | .data bytes =>
    { totalReceived := s.totalReceived + bytes.length
      received :=
        if ((s.totalReceived + bytes.length : Nat) : Int) = contentLen then
          some (.create statusOk .null "receive_http_chunks")
        else none }

/-- What `read` may return when it is asked for `size` bytes. -/
def Returns (size : Nat) : ReadResult → Prop
  | .data bytes => bytes ≠ [] ∧ bytes.length ≤ size
  | .eof => True
  | .error => True

/-- The reads of `receive_http_chunks`, each with the size it asks for, for any results. -/
def receives (contentLen : Int) : System Receiving (Nat × ReadResult) where
  init s := s = .start contentLen
  step s a s' := s.received = none ∧ a.1 = toSizeT (chunkSize contentLen s.totalReceived) ∧
    Returns a.1 a.2 ∧ s' = s.read contentLen a.2

/-- No read asks for more than the chunk can hold. -/
def SizesFit (contentLen : Int) : Prop :=
  ∀ s₀ s as, (receives contentLen).init s₀ → (receives contentLen).Run s₀ as s →
    ∀ a ∈ as, a.1 ≤ maxChunkSize

/-- No more is received than the header says. -/
def TotalsFit (contentLen : Int) : Prop :=
  ∀ s, (receives contentLen).Reachable s → (s.totalReceived : Int) ≤ contentLen

section Reads

variable {contentLen : Int} {s s' : Receiving} {a : Nat × ReadResult}

theorem toSizeT_of_nonneg {x : Int} (h : 0 ≤ x) (h' : x < 18446744073709551616) :
    (toSizeT x : Int) = x := by
  unfold toSizeT
  rw [Int.emod_eq_of_lt h h', Int.toNat_of_nonneg h]

/-- A negative size is a huge one. -/
theorem toSizeT_of_neg {x : Int} (h : x < 0) (h' : intMin ≤ x) : maxChunkSize < toSizeT x := by
  unfold toSizeT maxChunkSize
  unfold intMin at h'
  have hmod : x % 18446744073709551616 = x + 18446744073709551616 := by
    rw [← Int.add_emod_right]
    exact Int.emod_eq_of_lt (by omega) (by omega)
  rw [hmod]
  omega

/-- While the total is within the length, a read asks for what fits in both. -/
theorem size_eq (h : (s.totalReceived : Int) ≤ contentLen)
    (hstep : (receives contentLen).step s a s') :
    a.1 ≤ maxChunkSize ∧ (s.totalReceived : Int) + a.1 ≤ contentLen := by
  obtain ⟨-, hsize, -, -⟩ := hstep
  have hchunk : 0 ≤ chunkSize contentLen s.totalReceived ∧
      chunkSize contentLen s.totalReceived ≤ maxChunkSize ∧
      chunkSize contentLen s.totalReceived ≤ contentLen - s.totalReceived := by
    unfold chunkSize maxChunkSize
    split <;> omega
  unfold maxChunkSize at hchunk ⊢
  have hcast := toSizeT_of_nonneg hchunk.1 (by omega)
  rw [← hsize] at hcast
  omega

/-- The step lemma: a read keeps the total within the length. -/
theorem total_step (h : (s.totalReceived : Int) ≤ contentLen)
    (hstep : (receives contentLen).step s a s') : (s'.totalReceived : Int) ≤ contentLen := by
  have hsize := size_eq h hstep
  obtain ⟨-, -, hreturns, rfl⟩ := hstep
  obtain ⟨size, r⟩ := a
  cases r with
  | data bytes =>
    have hlen := hreturns.2
    change ((s.totalReceived + bytes.length : Nat) : Int) ≤ contentLen
    dsimp only at hlen hsize
    omega
  | eof => exact h
  | error => exact h

/-- **Runs of reads** for a length that is not negative. -/
theorem run_fits {s₀ : Receiving} {as : List (Nat × ReadResult)}
    (h₀ : (s₀.totalReceived : Int) ≤ contentLen) (h : (receives contentLen).Run s₀ as s) :
    (∀ a ∈ as, a.1 ≤ maxChunkSize) ∧ (s.totalReceived : Int) ≤ contentLen := by
  induction h with
  | nil s => exact ⟨fun a ha => absurd ha List.not_mem_nil, h₀⟩
  | cons hstep _ ih =>
    obtain ⟨hsizes, htotal⟩ := ih (total_step h₀ hstep)
    exact ⟨List.forall_mem_cons.2 ⟨(size_eq h₀ hstep).1, hsizes⟩, htotal⟩

theorem start_total (contentLen : Int) : (Receiving.start contentLen).totalReceived = 0 := rfl

/-- A negative length is asked for as it is. -/
theorem not_sizesFit (hneg : contentLen < 0) (hmin : intMin ≤ contentLen) (hne : contentLen ≠ -1) :
    ¬ SizesFit contentLen := by
  intro h
  have hopen : (Receiving.start contentLen).received = none := if_neg hne
  have hsize : chunkSize contentLen (Receiving.start contentLen).totalReceived = contentLen := by
    rw [start_total]
    unfold chunkSize maxChunkSize
    split <;> omega
  have hread : (receives contentLen).step (Receiving.start contentLen) (toSizeT contentLen, .eof)
      ((Receiving.start contentLen).read contentLen .eof) :=
    ⟨hopen, by rw [hsize], trivial, rfl⟩
  have hfits := h _ _ _ rfl (.single hread) _ (List.mem_singleton.2 rfl)
  exact absurd (toSizeT_of_neg hneg hmin) (Nat.not_lt.2 hfits)

/-- What the receiver sees of a transfer. -/
def Transfer.receiving (t : Transfer) : Receiving := ⟨t.totalReceived, t.received⟩

/-- What `read` may do in a transfer it may do here. -/
theorem returns_of_canRead {size : Int} {socket : List Byte} {reset : Bool} {r : ReadResult}
    (hsize : size ≤ maxChunkSize) (h : CanRead size socket reset r) : Returns (toSizeT size) r := by
  unfold maxChunkSize at hsize
  cases r with
  | data bytes =>
    obtain ⟨hne, hlen, -⟩ := h
    have hcast := @toSizeT_of_nonneg size (by omega) (by omega)
    exact ⟨hne, by omega⟩
  | eof => trivial
  | error => trivial

/-- **The receiver of a transfer** makes these reads. -/
theorem receives_of_transfers {n : Nat} {stream : List Byte} {reset : Bool} {t : Transfer}
    (h : (transfers n stream reset).Reachable t) : (receives n).Reachable t.receiving := by
  apply h.map Transfer.receiving
  · intro t ht
    obtain ⟨mem, rfl⟩ := ht
    have hn : (n : Int) ≠ -1 := by omega
    change _ = Receiving.start n
    unfold Receiving.start
    rw [if_neg hn]
    rfl
  · intro s a u _ hstep
    cases hstep with
    | receive hr hw hh hc hread =>
      rename_i r
      have hmax : chunkSize n s.totalReceived ≤ maxChunkSize := by
        unfold chunkSize maxChunkSize
        split <;> omega
      refine Or.inr ⟨(toSizeT (chunkSize n s.totalReceived), r), hr, rfl,
        returns_of_canRead hmax hread, ?_⟩
      cases r <;> rfl
    | recvWait => exact Or.inl rfl
    | recvWake => exact Or.inl rfl
    | sendWait => exact Or.inl rfl
    | sendWake => exact Or.inl rfl
    | enter => exact Or.inl rfl
    | write => exact Or.inl rfl
    | leave => exact Or.inl rfl

theorem newHttpRequest_fits : FitsInt newHttpRequest.reqContentLen := by decide

/-- **The reads for a header block that has been accepted**, with a length in it: all of them fit in
the chunk, and in the length, exactly when the length is not negative. -/
theorem sizes_iff {text : List Byte} {t : Throwable} {self : HTTPRequest}
    (h : readHeaders newHttpRequest text .resp = .ok (t, self))
    (hset : self.reqContentLen ≠ -1) :
    (SizesFit self.reqContentLen ↔ 0 ≤ self.reqContentLen) ∧
      (TotalsFit self.reqContentLen ↔ 0 ≤ self.reqContentLen) := by
  have hfits : FitsInt self.reqContentLen :=
    Kind.resp.keeps_fits.readHeaders newHttpRequest_fits h
  constructor
  · constructor
    · intro hsizes
      by_contra hneg
      exact not_sizesFit (Int.not_le.1 hneg) hfits.1 hset hsizes
    · intro hnn s₀ s as h₀ hrun
      exact (run_fits (h₀ ▸ hnn) hrun).1
  · constructor
    · intro htotals
      exact htotals _ (.of_init rfl)
    · intro hnn s hs
      obtain ⟨s₀, as, h₀, hrun⟩ := hs
      exact (run_fits (h₀ ▸ hnn) hrun).2

/-- A length of ten bytes. -/
def tenBytes : List Byte := bytes "HTTP/1.1 200 OK\r\nContent-Length: 10\r\n\r\n"

theorem sizesFit_tenBytes : ∃ self : HTTPRequest, self.reqContentLen = 10 ∧
    SizesFit self.reqContentLen := by
  have hlen : (readHeaders newHttpRequest tenBytes .resp).map (fun p => p.2.reqContentLen)
      = .ok 10 := by decide
  cases hread : readHeaders newHttpRequest tenBytes .resp with
  | error e =>
    rw [hread] at hlen
    cases hlen
  | ok p =>
    rw [hread] at hlen
    have hten : p.2.reqContentLen = 10 := Except.ok.inj hlen
    refine ⟨p.2, hten, (sizes_iff hread ?_).1.2 ?_⟩
    · rw [hten]
      decide
    · rw [hten]
      decide

/-- A length of -5: the first read asks for all but five of 2^64 bytes. -/
theorem size_negative : ¬ ∀ text t self,
    readHeaders newHttpRequest text .resp = .ok (t, self) → t.isAnError = false →
      self.reqContentLen ≠ -1 → SizesFit self.reqContentLen := by
  intro h
  have hlen : (readHeaders newHttpRequest
      (bytes "HTTP/1.1 200 OK\r\nContent-Length: -5\r\n\r\n") .resp).map
        (fun p => (p.1.isAnError, p.2.reqContentLen)) = .ok (false, -5) := by decide
  cases hread : readHeaders newHttpRequest
      (bytes "HTTP/1.1 200 OK\r\nContent-Length: -5\r\n\r\n") .resp with
  | error e =>
    rw [hread] at hlen
    cases hlen
  | ok p =>
    rw [hread] at hlen
    have hpair := Except.ok.inj hlen
    have hfive : p.2.reqContentLen = -5 := congrArg Prod.snd hpair
    have hsizes := h _ p.1 p.2 hread (congrArg Prod.fst hpair) (by rw [hfive]; decide)
    rw [hfive] at hsizes
    exact not_sizesFit (by decide) (by decide) (by decide) hsizes

end Reads

end Heimdall.Http
