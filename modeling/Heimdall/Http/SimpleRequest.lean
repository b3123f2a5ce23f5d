import Heimdall.Http.Forward

/-!
# The requests that the switch makes itself

`set_simple_request` and `make_simple_request` write a request of four parts. The lines of the
message end with a line feed alone, and so does the empty line after them. `read_headers` takes the
byte before a line feed for the carriage return of the line and overwrites it, and it stops only at
an empty line with a carriage return. So it cuts the last byte off the protocol and the host, comes
to the empty line as to any other, finds no colon in it and calls through the NULL that it gets
(`readHeaders_message`).
-/

namespace Heimdall.Http

/-- `set_simple_request`, with the memory for the four copies. -/
def setSimpleRequest (self : HTTPRequest) (requestType requestResource requestProtocol host :
    List Byte) : Throwable × HTTPRequest :=
  (.create statusOk .null "set_simple_http_request",
    { self with
      reqType := some requestType
      reqProtocol := some requestProtocol
      reqResource := some requestResource
      reqHost := some host })

/-- A part of a request: not empty, without space, carriage return, line feed and NUL. -/
structure Word where
  text : List Byte
  nonempty : text ≠ []
  plain : Plain text
  noSpace : sp ∉ text

structure SimpleRequest where
  reqType : Word
  reqResource : Word
  reqProtocol : Word
  reqHost : Word

namespace SimpleRequest

/-- A fresh request with the four parts. -/
def request (q : SimpleRequest) : HTTPRequest :=
  (setSimpleRequest newHttpRequest q.reqType.text q.reqResource.text q.reqProtocol.text
    q.reqHost.text).2

/-- The request is written out and parsed, and the four parts are those it was made of. -/
def RoundTrip (q : SimpleRequest) : Prop :=
  ∃ message t self, (makeSimpleRequest q.request).2 = some message ∧
    readHeaders newHttpRequest message .rqst = .ok (t, self) ∧ t.isAnError = false ∧
    self.reqType = some q.reqType.text ∧ self.reqResource = some q.reqResource.text ∧
    self.reqProtocol = some q.reqProtocol.text ∧ self.reqHost = some q.reqHost.text

end SimpleRequest

/-! ## What is cut -/

/-- The last byte of a part, and what is before it. -/
theorem Word.exists_last (w : Word) : ∃ v c, w.text = v ++ [c] ∧ Plain v ∧ sp ∉ v ∧ c ≠ lf := by
  have hsplit : w.text.dropLast ++ [w.text.getLast w.nonempty] = w.text :=
    List.dropLast_append_getLast w.nonempty
  refine ⟨_, _, hsplit.symm, ?_, ?_, (w.plain _ (List.getLast_mem w.nonempty)).2.2⟩
  · intro b hb
    exact w.plain b (List.dropLast_subset _ hb)
  · intro hsp
    exact w.noSpace (List.dropLast_subset _ hsp)

theorem host_plain : Plain (bytes "Host") := by decide

theorem host_colon : colon ∉ bytes "Host" := by decide

/-- The first line that `read_headers` sees, the last byte of the protocol cut off. -/
def cutHead (reqType reqResource : Word) (protocol : List Byte) (h : Plain protocol) : Head where
  first := reqType.text
  second := reqResource.text
  third := protocol
  fields := []
  first_plain := reqType.plain
  first_space := reqType.noSpace
  second_plain := reqResource.plain
  second_space := reqResource.noSpace
  third_plain := h

/-- The second line, the last byte of the host cut off. -/
def cutHost (host : List Byte) (h : Plain host) : Field where
  name := bytes "Host"
  raw := sp :: host
  name_plain := host_plain
  name_colon := host_colon
  raw_plain := .cons sp_plain h

section Parse

variable {kind : Kind} {self : HTTPRequest}

/-- **The empty line** after a line feed has no colon: the line that ended there is ended again, and
`get_header` is given a line feed. -/
theorem Reading.line_empty (pre post : List Byte) (c : Byte) :
    Reading.line ⟨self, pre ++ [c] ++ lf :: 0 :: post, (pre ++ [c]).length⟩ kind
      (pre ++ [c]).length = .error .nullDeref := by
  have hset : (pre ++ [c] ++ lf :: 0 :: post).set ((pre ++ [c]).length - 1) 0 =
      pre ++ [0] ++ [lf] ++ 0 :: post := by
    simp
  have hlen : (pre ++ [c]).length = (pre ++ [0]).length := by simp
  have hpos : (pre ++ [0]).length ≠ 0 := by simp
  unfold Reading.line
  rw [if_neg (by simp)]
  simp only [hset]
  rw [hlen, if_neg hpos, getHeader_noColon self (by decide) (by decide)]
  rfl

/-- What follows the `Host` line of a message is not the end of a block. -/
theorem Reading.atEnd_lf (pre post : List Byte) (self : HTTPRequest) (start i : Nat)
    (hi : i + 1 = pre.length) : Reading.atEnd ⟨self, pre ++ lf :: post, start⟩ i = .ok false := by
  unfold Reading.atEnd
  have hget : (pre ++ lf :: post)[i + 1]? = some lf := by simp [hi]
  simp only [hget]
  rfl

/-- **`read_headers` on a message of the switch** never comes back from it: the third line feed
leads to a call through NULL. -/
theorem readHeaders_message (q : SimpleRequest) {message : List Byte}
    (hmessage : (makeSimpleRequest q.request).2 = some message) (self : HTTPRequest) :
    readHeaders self message .rqst = .error .nullDeref := by
  obtain ⟨protocol, c, hprotocol, hpp, -, hc⟩ := q.reqProtocol.exists_last
  obtain ⟨host, d, hhost, hhp, -, hd⟩ := q.reqHost.exists_last
  let head := cutHead q.reqType q.reqResource protocol hpp
  let field := cutHost host hhp
  have htext : message ++ [0] =
      head.firstLine ++ c :: lf :: (field.line ++ d :: lf :: [lf, 0]) := by
    cases hmessage
    simp [hprotocol, hhost, head, cutHead, field, cutHost, Head.firstLine, Field.line, bytes, lf,
      sp, colon]
  have hlen : message.length =
      head.firstLine.length + 1 + (field.line.length + 1 + (1 + 1) + 1) := by
    have h := congrArg List.length htext
    simp only [List.length_append, List.length_cons, List.length_nil] at h
    omega
  have hend : ∀ pre self start i, i + 1 = pre.length →
      Reading.atEnd ⟨self, pre ++ (field.line ++ d :: lf :: [lf, 0]), start⟩ i = .ok false := by
    intro pre self start i hi
    simp [Reading.atEnd, field, Field.line, cutHost, hi, bytes, cr]
  have hvalue : afterColon field.raw (lf :: [lf, 0]) = .ok host := rfl
  -- the last line feed of the three
  have hlast : ∀ self : HTTPRequest, readHeadersLoop .rqst 1 (head.parsed ++ field.parsed).length
      ⟨self, head.parsed ++ field.parsed ++ [lf, 0], (head.parsed ++ field.parsed).length⟩ =
      .error .nullDeref := by
    intro self
    have hpre : head.parsed ++ field.parsed =
        head.parsed ++ strToLower field.name ++ 0 :: (field.raw ++ [0]) ++ [lf] := by
      simp [Field.parsed]
    have hline := readHeadersLoop_line .rqst self (head.parsed ++ field.parsed) [0]
      (l := []) (by simp) (head.parsed ++ field.parsed).length 0
    rw [List.append_nil, hpre, Reading.line_empty] at hline
    rw [hpre]
    exact hline
  unfold readHeaders
  rw [htext, hlen, readHeadersLoop_first self head _ hc hend]
  rw [if_neg Bool.false_ne_true,
    readHeadersLoop_field field _ 1 hd (by simp [Head.parsed]) hvalue
      (Reading.atEnd_lf · [0])]
  have hstore : ∀ self : HTTPRequest, self.storeHeader (strToLower field.name) (.ok host) =
      .ok (.create statusOk .null "get_header", { self with reqHost := some host }) := fun _ => rfl
  rw [hstore, Exec.ok_bind]
  exact hlast _

end Parse

/-- **The switch cannot parse the requests it sends**: whatever the four parts are, they are not
recovered from the message. -/
theorem simpleRequest_lost (q : SimpleRequest) : ¬ q.RoundTrip := by
  intro h
  obtain ⟨message, t, self, hmessage, hread, -⟩ := h
  rw [readHeaders_message q hmessage] at hread
  cases hread

/-- The request for the status page of a server. -/
theorem simpleRequest_status_lost : ¬ ∀ q : SimpleRequest, q.RoundTrip := by
  intro hall
  obtain ⟨message, t, self, hmessage, hread, -⟩ := hall
    ⟨⟨bytes "GET", by decide, by decide, by decide⟩,
      ⟨bytes "/server-status?auto", by decide, by decide, by decide⟩,
      ⟨bytes "HTTP/1.1", by decide, by decide, by decide⟩,
      ⟨bytes "10.0.0.1", by decide, by decide, by decide⟩⟩
  cases hmessage
  have hstop : readHeaders newHttpRequest
      (bytes "GET /server-status?auto HTTP/1.1\nHost: 10.0.0.1\n\n") .rqst =
      .error .nullDeref := rfl
  cases hstop.symm.trans hread

end Heimdall.Http
