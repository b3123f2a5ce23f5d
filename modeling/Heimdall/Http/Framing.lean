import Mathlib.Algebra.GroupWithZero.Nat
import Heimdall.Http.Receive

/-!
# Requests on a persistent connection

`read_work` calls `receive_http_request` again and again on the connection of a client. The header
block of a request says in `Content-Length` how long the body is, and `get_header` stores the
number, but nothing on this path takes the body from the socket: the next call starts with its first
byte.

So the calls return the requests that the client has sent exactly when no request has a body
(`framed_iff`), apart from two things that can go wrong in a header block: a `Content-Length` that
`str_to_int` refuses, and a block for which the buffer has to be moved.
-/

namespace Heimdall.Http

def Field.IsContentLength (f : Field) : Prop := strToLower f.name = bytes "content-length"

instance (f : Field) : Decidable f.IsContentLength := inferInstanceAs (Decidable (_ = _))

/-- What follows the colon is a number in decimal digits, with blanks around it. -/
def Field.Announces (f : Field) (n : Nat) : Prop := ∃ before digits after,
  f.raw = before ++ digits ++ after ∧ (∀ b ∈ before ++ after, b = sp ∨ b = 9) ∧ digits ≠ [] ∧
    (∀ b ∈ digits, 48 ≤ b ∧ b ≤ 57) ∧ numeral 10 digits = n

/-- A header block and a body, of as many bytes as every `Content-Length` says; without any there is
no body. -/
structure Request where
  head : Head
  body : List Byte
  announced : ∀ f ∈ head.fields, f.IsContentLength → f.Announces body.length
  absent : (∀ f ∈ head.fields, ¬ f.IsContentLength) → body = []

def Request.text (q : Request) : List Byte := q.head.text ++ q.body

/-- What the client sends. -/
def stream (qs : List Request) : List Byte := qs.flatMap Request.text

/-- `n` calls of `receive_http_request`, the `k`-th with the memory `heap k`: the requests and what
is left, or none if a call fails. -/
def receiveRequests (broken : Bool) :
    (heap : Nat → Heap) → Nat → List Byte → Exec (Option (List HTTPRequest × List Byte))
  | _, 0, socket => .ok (some ([], socket))
  | heap, n + 1, socket => do
    let (t, r, rest) ← receiveHttpRequest (heap 0) broken socket newHttpRequest
    if t.isAnError then .ok none
    else
      match ← receiveRequests broken (fun k => heap (k + 1)) n rest with
      | none => .ok none
      | some (rs, rest) => .ok (some (r :: rs, rest))

/-- The calls return the requests that have been sent, in their order, and leave nothing that
another call could take for a request. -/
def Framed (broken : Bool) (heap : Nat → Heap) (qs : List Request) : Prop :=
  ∃ rs, receiveRequests broken heap qs.length (stream qs) = .ok (some (rs, [])) ∧
    List.Forall₂ (fun q r => Parses q.head r) qs rs

/-- The value of every `Content-Length`, which begins with the second byte after the colon, is one
that `str_to_int` accepts. -/
def Request.Counted (q : Request) : Prop :=
  ∀ f ∈ q.head.fields, f.IsContentLength → IsInt (f.raw.drop 1)

section Calls

variable {broken : Bool} {heap : Nat → Heap} {q : Request} {qs : List Request} {n : Nat}
  {socket rest : List Byte} {rs : List HTTPRequest}

theorem accepted_iff {fs : List Field} (h : ∀ f ∈ fs, f.IsContentLength → f.raw ≠ []) :
    Accepted fs ↔ ∀ f ∈ fs, f.IsContentLength → IsInt (f.raw.drop 1) := by
  induction fs with
  | nil => simp [Accepted]
  | cons f fs ih =>
    have hdata : f.IsContentLength → f.data fs = f.raw.drop 1 := by
      intro hlen
      have hraw := h f (by simp) hlen
      unfold Field.data
      cases hf : f.raw with
      | nil => exact absurd hf hraw
      | cons b v => rfl
    rw [List.forall_mem_cons, Accepted, ih (fun g hg => h g (List.mem_cons_of_mem _ hg))]
    constructor
    · intro hacc
      exact ⟨fun hlen => hdata hlen ▸ hacc.1 hlen, hacc.2⟩
    · intro hacc
      exact ⟨fun hlen => (hdata hlen).symm ▸ hacc.1 hlen, hacc.2⟩

theorem Request.counted_iff (q : Request) : Accepted q.head.fields ↔ q.Counted := by
  apply accepted_iff
  intro f hf hlen hraw
  obtain ⟨before, digits, after, heq, -, hne, -⟩ := q.announced f hf hlen
  rw [hraw] at heq
  simp [hne] at heq

theorem receiveRequests_succ :
    receiveRequests broken heap (n + 1) socket = .ok (some (rs, rest)) ↔
      ∃ r rs' mid, rs = r :: rs' ∧ Received (heap 0) broken socket r mid ∧
        receiveRequests broken (fun k => heap (k + 1)) n mid = .ok (some (rs', rest)) := by
  constructor
  · intro h
    obtain ⟨⟨t, r, mid⟩, hcall, h⟩ := Exec.bind_ok h
    dsimp only at h
    split at h
    · cases h
    · next hok =>
      obtain ⟨o, hrec, h⟩ := Exec.bind_ok h
      split at h
      · cases h
      · next rs' rest' =>
        cases h
        exact ⟨r, rs', mid, rfl, ⟨t, hcall, by simpa using hok⟩, hrec⟩
  · rintro ⟨r, rs', mid, rfl, ⟨t, hcall, hok⟩, hrec⟩
    rw [receiveRequests, hcall, Exec.ok_bind]
    simp [hok, hrec]

/-- Altogether no more bytes are taken than the header blocks have. -/
theorem receiveRequests_length (h : receiveRequests broken heap n socket = .ok (some (rs, rest)))
    (hrs : List.Forall₂ (fun q r => Parses q.head r) qs rs) (hn : n = qs.length) :
    socket.length ≤ (qs.map fun q => q.head.text.length).sum + rest.length := by
  induction qs generalizing heap n socket rs with
  | nil =>
    subst hn
    cases hrs
    cases h
    simp
  | cons q qs ih =>
    subst hn
    obtain ⟨r, rs', mid, rfl, hr, hrec⟩ := receiveRequests_succ.1 h
    cases hrs with
    | cons hparses hrs' =>
      have hfirst := hr.length_le hparses.header
      have hothers := ih hrec hrs' rfl
      rw [List.map_cons, List.sum_cons]
      omega

theorem stream_length (qs : List Request) : (stream qs).length =
    (qs.map fun q => q.head.text.length).sum + (qs.map fun q => q.body.length).sum := by
  induction qs with
  | nil => rfl
  | cons q qs ih =>
    simp only [stream, List.flatMap_cons, List.length_append, Request.text, List.map_cons,
      List.sum_cons] at ih ⊢
    omega

/-- When the calls return the requests, there were no bodies. -/
theorem Framed.body_eq_nil (h : Framed broken heap qs) : ∀ q ∈ qs, q.body = [] := by
  obtain ⟨rs, hcalls, hrs⟩ := h
  have hlen := receiveRequests_length hcalls hrs rfl
  rw [stream_length, List.length_nil] at hlen
  have hsum : (qs.map fun q => q.body.length).sum = 0 := by omega
  intro q hq
  apply List.length_eq_zero_iff.1
  exact List.sum_eq_zero_iff_forall_eq_nat.1 hsum _ (List.mem_map_of_mem hq)

/-- The first request, and those that follow. -/
theorem framed_cons (hbody : q.body = []) :
    Framed broken heap (q :: qs) ↔
      (q.Counted ∧ (heap 0).Keeps q.head.text.length) ∧
        Framed broken (fun k => heap (k + 1)) qs := by
  have hstream : stream (q :: qs) = q.head.text ++ stream qs := by
    simp [stream, Request.text, hbody]
  constructor
  · rintro ⟨rs, hcalls, hrs⟩
    obtain ⟨r, rs', mid, rfl, hr, hrec⟩ := receiveRequests_succ.1 hcalls
    rw [hstream] at hr
    rw [hr.rest_eq] at hrec
    cases hrs with
    | cons hparses hrs' =>
      exact ⟨⟨q.counted_iff.1 hr.accepted, hr.keeps⟩, rs', hrec, hrs'⟩
  · rintro ⟨⟨hcounted, hkeeps⟩, rs, hcalls, hrs⟩
    obtain ⟨r, hr, hparses⟩ :=
      received_text broken hkeeps (q.counted_iff.2 hcounted) (stream qs)
    refine ⟨r :: rs, receiveRequests_succ.2 ⟨r, rs, stream qs, rfl, ?_, hcalls⟩,
      .cons hparses hrs⟩
    rw [hstream]
    exact hr

theorem framed_of_empty (hbody : ∀ q ∈ qs, q.body = []) :
    Framed broken heap qs ↔ (∀ q ∈ qs, q.Counted) ∧
      ∀ k q, qs[k]? = some q → (heap k).Keeps q.head.text.length := by
  induction qs generalizing heap with
  | nil =>
    constructor
    · intro _
      exact ⟨fun q hq => (by cases hq), fun k q hq => (by cases hq)⟩
    · intro _
      exact ⟨[], rfl, .nil⟩
  | cons q qs ih =>
    rw [framed_cons (hbody q (by simp)), ih (fun p hp => hbody p (List.mem_cons_of_mem _ hp)),
      List.forall_mem_cons]
    constructor
    · rintro ⟨⟨hcounted, hkeeps⟩, hcounteds, hkeepss⟩
      refine ⟨⟨hcounted, hcounteds⟩, fun k p hp => ?_⟩
      cases k with
      | zero =>
        cases hp
        exact hkeeps
      | succ k => exact hkeepss k p hp
    · rintro ⟨⟨hcounted, hcounteds⟩, hkeeps⟩
      exact ⟨⟨hcounted, hkeeps 0 q rfl⟩, hcounteds, fun k p hp => hkeeps (k + 1) p hp⟩

end Calls

/-- **Pipelined requests** are returned one by one, each from its own header block, exactly when
none has a body, every `Content-Length` is accepted, and `realloc` leaves the buffer in its place
whenever a header block fills it. -/
theorem framed_iff (broken : Bool) (heap : Nat → Heap) (qs : List Request) :
    Framed broken heap qs ↔ (∀ q ∈ qs, q.body = []) ∧ (∀ q ∈ qs, q.Counted) ∧
      ∀ k q, qs[k]? = some q → (heap k).Keeps q.head.text.length := by
  constructor
  · intro h
    exact ⟨h.body_eq_nil, (framed_of_empty h.body_eq_nil).1 h⟩
  · rintro ⟨hbody, h⟩
    exact (framed_of_empty hbody).2 h

/-- The field of a request with one byte in its body. -/
def oneByteField : Field :=
  ⟨bytes "Content-Length", bytes " 1", contentLength_plain, contentLength_colon, by decide⟩

def oneByteHead : Head where
  first := bytes "POST"
  second := bytes "/"
  third := bytes "HTTP/1.1"
  fields := [oneByteField]
  first_plain := by decide
  first_space := by decide
  second_plain := by decide
  second_space := by decide
  third_plain := protocol_plain

def oneByteRequest : Request where
  head := oneByteHead
  body := bytes "x"
  announced f hf _ := by
    obtain rfl : f = oneByteField := by simpa [oneByteHead] using hf
    exact ⟨bytes " ", bytes "1", [], rfl, by simp [bytes, sp], by decide, by simp [bytes], rfl⟩
  absent h := absurd (by decide) (h oneByteField (by simp [oneByteHead]))

/-- The byte of the body is left for the next call. -/
theorem body_left : ¬ ∀ (broken : Bool) (heap : Nat → Heap) (qs : List Request),
    Framed broken heap qs := by
  intro h
  have hbody := (h false (fun _ => ⟨fun _ => 0, fun _ => .inPlace⟩) [oneByteRequest]).body_eq_nil
  exact absurd (hbody oneByteRequest (by simp)) (by decide)

end Heimdall.Http
