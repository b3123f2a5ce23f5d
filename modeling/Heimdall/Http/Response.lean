import Heimdall.Http.HeaderBlock

/-!
# Responses that are held as a whole (`http_response.c`)

`get_http_response` cuts a response at its first empty line and hands the part before it to
`read_headers`. The cut is made before the line end of the last header line, and `read_headers`
parses a line only when it meets the line feed at its end. So the last header is not parsed, and of
a response without headers not even the status line (`readAlike_iff`).
-/

namespace Heimdall.Http

structure HTTPResponse where
  response : HTTPRequest
  httpResponseType : Kind
  httpResponseBody : Option (List Byte)
  deriving DecidableEq

def newHttpResponse : HTTPResponse := ⟨newHttpRequest, .resp, none⟩

/-- Where the first empty line begins: at the line end before it. -/
def headEnd : List Byte → Option Nat
  | [] => none
  | b :: s => if (b :: s).take 4 = [cr, lf, cr, lf] then some 0 else (headEnd s).map (· + 1)

def getResponseHead (self : HTTPResponse) (head : List Byte) : Exec (Throwable × HTTPResponse) := do
  let (throwable, response) ← readHeaders self.response head self.httpResponseType
  let self := { self with response := response }
  if throwable.isAnError then
    .ok (.create statusError (.text "Trying to parse remote server response") "get_response_head",
      self)
  else .ok (.create statusOk .null "get_response_head", self)

/-- `malloc` says whether the block for the body could be allocated; no body is NULL. -/
def getResponseBody (malloc : Bool) (self : HTTPResponse) (body : Option (List Byte)) :
    Throwable × HTTPResponse :=
  match body with
  | none =>
    (.create statusError (.text "Trying to parse remote server response - no body")
      "get_response_body", self)
  | some body =>
    if malloc then
      (.create statusOk .null "get_response_body", { self with httpResponseBody := some body })
    else (.create statusError .errno "get_response_body", self)

/-- `get_http_response` on a string. -/
def getHttpResponse (malloc : Bool) (self : HTTPResponse) (buffer : List Byte) :
    Exec (Throwable × HTTPResponse) := do
  let (head, body) :=
    match headEnd buffer with
    | none => (buffer, none)
    | some i => (buffer.take i, some (buffer.drop (i + 4)))
  let (throwable, self) ← getResponseHead self head
  if throwable.isAnError then .ok (throwable.thrown "get_http_response", self)
  else
    let (throwable, self) := getResponseBody malloc self body
    if throwable.isAnError then .ok (throwable.thrown "get_http_response", self)
    else .ok (.create statusOk .null "get_response", self)

/-! ## The cut -/

section Cut

theorem HeaderBlock.firstLine_plain (b : HeaderBlock) : Plain b.firstLine :=
  (((b.first_plain.append (.cons sp_plain .nil)).append b.second_plain).append
    (.cons sp_plain .nil)).append b.third_plain

/-- The line of a header, without its end. -/
def Header.line (h : Header) : List Byte := h.name ++ [colon, sp] ++ h.value

theorem Header.line_plain (h : Header) : Plain h.line :=
  (h.name_plain.append (.cons colon_plain (.cons sp_plain .nil))).append h.value_plain

theorem Header.line_head (h : Header) : ∃ b l, h.line = b :: l ∧ b ≠ cr := by
  obtain ⟨b, l, hl⟩ : ∃ b l, h.line = b :: l := by
    unfold Header.line
    cases h.name with
    | nil => exact ⟨_, _, rfl⟩
    | cons b l => exact ⟨_, _, rfl⟩
  exact ⟨b, l, hl, (h.line_plain b (by rw [hl]; exact List.mem_cons_self)).2.1⟩

theorem Header.text_eq (h : Header) : h.text = h.line ++ [cr, lf] := rfl

theorem headEnd_cons_of_ne {b : Byte} {s : List Byte} (h : b ≠ cr) :
    headEnd (b :: s) = (headEnd s).map (· + 1) := by
  rw [headEnd, if_neg]
  intro htake
  exact h (List.head_eq_of_cons_eq htake)

theorem headEnd_plain {l : List Byte} (hl : Plain l) (s : List Byte) :
    headEnd (l ++ s) = (headEnd s).map (· + l.length) := by
  induction l with
  | nil => simp
  | cons b l ih =>
    have hb := hl b List.mem_cons_self
    have hl' : Plain l := fun c hc => hl c (List.mem_cons_of_mem b hc)
    rw [List.cons_append, headEnd_cons_of_ne hb.2.1, ih hl', Option.map_map]
    congr 1

/-- The end of a line that another one follows. -/
theorem headEnd_lineEnd {b : Byte} {s : List Byte} (h : b ≠ cr) :
    headEnd (cr :: lf :: b :: s) = (headEnd (b :: s)).map (· + 2) := by
  have hlf : lf ≠ cr := by decide
  rw [headEnd, if_neg, headEnd_cons_of_ne hlf, Option.map_map]
  · rfl
  · intro htake
    simp only [List.take_succ_cons, List.cons.injEq] at htake
    exact h htake.2.2.1

/-- **The first empty line** after a first line and any headers. -/
theorem headEnd_lines {l : List Byte} (hl : Plain l) (hs : List Header) (body : List Byte) :
    headEnd (l ++ cr :: lf :: (hs.flatMap Header.text ++ cr :: lf :: body)) =
      some (l.length + (hs.flatMap Header.text).length) := by
  induction hs generalizing l with
  | nil =>
    rw [headEnd_plain hl]
    simp [headEnd]
  | cons h hs ih =>
    obtain ⟨b, m, hbm, hb⟩ := h.line_head
    have hih := ih h.line_plain
    rw [List.flatMap_cons, Header.text_eq, headEnd_plain hl]
    rw [hbm, List.cons_append] at hih
    simp only [hbm, List.append_assoc, List.cons_append, List.nil_append] at hih ⊢
    rw [headEnd_lineEnd hb, hih]
    simp
    omega

end Cut

/-! ## The head without its last line end -/

section Unended

variable {kind : Kind} {pre : List Byte}

/-- A byte that is no carriage return does not begin an empty line. -/
theorem Reading.atEnd_of_ne {b : Byte} (hb : b ≠ cr) (post : List Byte) (self : HTTPRequest)
    (start i : Nat) (hi : i + 1 = pre.length) :
    Reading.atEnd ⟨self, pre ++ b :: post, start⟩ i = .ok false := by
  unfold Reading.atEnd
  simp [hi, hb]

theorem Reading.atEnd_headers (hs : List Header) (h : Header) (pre : List Byte)
    (self : HTTPRequest) (start i : Nat) (hi : i + 1 = pre.length) :
    Reading.atEnd ⟨self, pre ++ (hs.flatMap Header.text ++ (h.line ++ [0])), start⟩ i
      = .ok false := by
  cases hs with
  | nil =>
    obtain ⟨b, l, hbl, hb⟩ := h.line_head
    rw [List.flatMap_nil, List.nil_append, hbl]
    exact Reading.atEnd_of_ne hb _ self start i hi
  | cons g gs =>
    obtain ⟨b, l, hbl, hb⟩ := g.line_head
    rw [List.flatMap_cons, Header.text_eq, hbl]
    exact Reading.atEnd_of_ne hb _ self start i hi

/-- The last header is not parsed when its line has no end. -/
theorem readHeadersLoop_unended (hs : List Header) (h : Header) (self : HTTPRequest)
    (hpre : pre ≠ []) :
    readHeadersLoop kind (hs.flatMap Header.text ++ h.line).length pre.length
      ⟨self, pre ++ (hs.flatMap Header.text ++ (h.line ++ [0])), pre.length⟩ =
      self.storeFields (hs.map Header.field) := by
  induction hs generalizing self pre with
  | nil =>
    have hskip := readHeadersLoop_skip kind pre [0] h.line_plain.lf_not_mem self pre.length 0
    rw [List.append_assoc, Nat.add_zero] at hskip
    exact hskip
  | cons g gs ih =>
    have hline : g.field.line = g.line := by
      simp [Field.line, Header.field, Header.line]
    have hbuffer : (g :: gs).flatMap Header.text ++ (h.line ++ [0]) =
        g.field.line ++ cr :: lf :: (gs.flatMap Header.text ++ (h.line ++ [0])) := by
      rw [hline, List.flatMap_cons, Header.text_eq]
      simp
    have hlen : ((g :: gs).flatMap Header.text ++ h.line).length =
        g.field.line.length + 1 + ((gs.flatMap Header.text ++ h.line).length + 1) := by
      rw [hline, List.flatMap_cons, Header.text_eq]
      simp
      omega
    rw [hbuffer, hlen, readHeadersLoop_field g.field self _ (by decide) hpre rfl
      (Reading.atEnd_headers gs h), List.map_cons, HTTPRequest.storeFields]
    change (self.storeHeader (strToLower g.field.name) (.ok g.value) >>= _) =
      (self.storeHeader (strToLower g.field.name) (.ok g.value) >>= _)
    cases self.storeHeader (strToLower g.field.name) (.ok g.value) with
    | error e => rfl
    | ok p =>
      have hrec := @ih (pre ++ g.field.parsed) p.2 (by simp [hpre])
      simp only [Exec.ok_bind]
      rw [hrec]
      rfl

/-- **`read_headers` on a head that is cut off** stores all headers but the last. -/
theorem readHeaders_unended (b : HeaderBlock) (hs : List Header) (h : Header)
    (self : HTTPRequest) :
    readHeaders self (b.firstLine ++ cr :: lf :: (hs.flatMap Header.text ++ h.line)) kind =
      (self.storeFirst b.head kind).storeFields (hs.map Header.field) := by
  have hfirst : b.firstLine = b.head.firstLine := by
    simp [HeaderBlock.firstLine, HeaderBlock.head, Head.firstLine]
  have hbuffer : b.firstLine ++ cr :: lf :: (hs.flatMap Header.text ++ h.line) ++ [0] =
      b.head.firstLine ++ cr :: lf :: (hs.flatMap Header.text ++ (h.line ++ [0])) := by
    rw [hfirst]
    simp
  have hlen : (b.firstLine ++ cr :: lf :: (hs.flatMap Header.text ++ h.line)).length =
      b.head.firstLine.length + 1 + ((hs.flatMap Header.text ++ h.line).length + 1) := by
    rw [hfirst]
    simp
    omega
  unfold readHeaders
  rw [hbuffer, hlen, readHeadersLoop_first self b.head _ (by decide) (Reading.atEnd_headers hs h)]
  exact readHeadersLoop_unended hs h _ (by simp [Head.parsed])

/-- A first line that is cut off is not parsed either. -/
theorem readHeaders_unended_first (b : HeaderBlock) (self : HTTPRequest) :
    readHeaders self b.firstLine kind = .ok (.create statusOk .null "read_headers", self) := by
  exact readHeadersLoop_skip kind [] [0] b.firstLine_plain.lf_not_mem self 0 0

end Unended

/-! ## The two ways to read a response -/

/-- A response as a string. -/
structure Response where
  block : HeaderBlock
  body : List Byte
  body_nul : 0 ∉ body

def Response.text (r : Response) : List Byte := r.block.text ++ r.body

/-- `get_http_response` on the whole response sets the fields that `read_headers` sets on the
complete header block, and the body. -/
def Response.ReadAlike (r : Response) (malloc : Bool) : Prop :=
  ∃ t http t' self, getHttpResponse malloc newHttpResponse r.text = .ok (t, http) ∧
    readHeaders newHttpRequest r.block.text .resp = .ok (t', self) ∧
    http.response = self ∧ http.httpResponseBody = some r.body

/-- The header `h` has nothing to add to `hs`: none of the five names, or the value that its name
has already. -/
def Repeats (hs : List Header) (h : Header) : Prop :=
  (∀ name ∈ [bytes "accept", bytes "from", bytes "host", bytes "content-type"],
    strToLower h.name = name → lastValue name hs = some h.value) ∧
  (strToLower h.name = bytes "content-length" →
    ((lastValue (bytes "content-length") hs).map fun v => (strToInt v).2).getD (-1) =
      (strToInt h.value).2)

section ReadAlike

variable {r : Response} {hs : List Header} {h : Header} {malloc : Bool}

theorem Response.text_eq (r : Response) :
    r.text = r.block.firstLine ++
      cr :: lf :: (r.block.headers.flatMap Header.text ++ cr :: lf :: r.body) := by
  simp [Response.text, HeaderBlock.text]

/-- A response that is cut behind `head`, which `read_headers` takes to be a response. -/
theorem readAlike_of_cut {head : List Byte} {t t' : Throwable} {self self' : HTTPRequest}
    (hsplit : r.text = head ++ ([cr, lf, cr, lf] ++ r.body))
    (hend : headEnd r.text = some head.length)
    (hhead : readHeaders newHttpRequest head .resp = .ok (t, self))
    (hblock : readHeaders newHttpRequest r.block.text .resp = .ok (t', self')) :
    r.ReadAlike malloc ↔ malloc = true ∧ t.isAnError = false ∧ self = self' := by
  have htake : r.text.take head.length = head := by
    rw [hsplit, List.take_left]
  have hdrop : r.text.drop (head.length + 4) = r.body := by
    rw [hsplit, ← List.drop_drop, List.drop_left]
    rfl
  have hget : getHttpResponse malloc newHttpResponse r.text =
      (getResponseHead newHttpResponse head >>= fun p =>
        if p.1.isAnError then .ok (p.1.thrown "get_http_response", p.2)
        else
          let q := getResponseBody malloc p.2 (some r.body)
          if q.1.isAnError then .ok (q.1.thrown "get_http_response", q.2)
          else .ok (.create statusOk .null "get_response", q.2)) := by
    rw [getHttpResponse, hend]
    simp only [htake, hdrop]
  rw [getResponseHead, show newHttpResponse.response = newHttpRequest from rfl,
    show newHttpResponse.httpResponseType = .resp from rfl, hhead, Exec.ok_bind] at hget
  unfold Response.ReadAlike
  rw [hget, hblock]
  cases ht : t.isAnError with
  | true =>
    -- the error comes before the body
    refine iff_of_false ?_ fun h => Bool.noConfusion h.2.1
    intro ⟨_, http, _, _, hhttp, _, _, hbody⟩
    simp only [ht, if_true] at hhttp
    cases hhttp
    cases hbody
  | false =>
    simp only [ht, Bool.false_eq_true, if_false]
    cases malloc with
    | false =>
      refine iff_of_false ?_ fun h => Bool.noConfusion h.1
      intro ⟨_, http, _, _, hhttp, _, _, hbody⟩
      cases hhttp
      cases hbody
    | true =>
      constructor
      · intro ⟨_, http, _, _, hhttp, hread, hself, _⟩
        cases hhttp
        cases hread
        exact ⟨rfl, trivial, hself⟩
      · intro ⟨_, _, hself⟩
        exact ⟨_, _, _, _, rfl, rfl, hself, rfl⟩

/-- **The cut of a response with headers**: in front of the end of the last header line. -/
theorem headEnd_response (hlast : r.block.headers = hs ++ [h]) :
    r.text = (r.block.firstLine ++ cr :: lf :: (hs.flatMap Header.text ++ h.line)) ++
        ([cr, lf, cr, lf] ++ r.body) ∧
      headEnd r.text =
        some (r.block.firstLine ++ cr :: lf :: (hs.flatMap Header.text ++ h.line)).length := by
  rw [r.text_eq, headEnd_lines r.block.firstLine_plain, hlast, List.flatMap_append,
    List.flatMap_singleton, Header.text_eq]
  constructor
  · simp
  · simp
    omega

/-- **The cut of one without**: in front of the end of the status line. -/
theorem headEnd_response_nil (hnil : r.block.headers = []) :
    r.text = r.block.firstLine ++ ([cr, lf, cr, lf] ++ r.body) ∧
      headEnd r.text = some r.block.firstLine.length := by
  constructor
  · rw [r.text_eq, hnil]
    rfl
  · rw [r.text_eq, headEnd_lines r.block.firstLine_plain, hnil]
    rfl

/-- A header after accepted ones is stored, whether it is accepted itself or not. -/
theorem HTTPRequest.storeFields_append (self : HTTPRequest) (hs : List Header) (h : Header)
    (hacc : LengthsAccepted hs) : ∃ t, self.storeFields ((hs ++ [h]).map Header.field) =
      .ok (t, (self.withHeaders hs).withHeaders [h]) := by
  induction hs generalizing self with
  | nil =>
    obtain ⟨t, hstore, -⟩ := self.storeHeader_header h
    change ∃ t, (self.storeHeader (strToLower h.name) (.ok h.value) >>= _) = _
    rw [hstore, Exec.ok_bind]
    cases herr : t.isAnError with
    | true => exact ⟨t.thrown "read_headers", by simp only [herr, if_true]; rfl⟩
    | false => exact ⟨_, by simp only [herr, Bool.false_eq_true, if_false]; rfl⟩
  | cons g gs ih =>
    obtain ⟨t, hstore, hiff⟩ := self.storeHeader_header g
    have ht : t.isAnError = false := hiff.2 fun f hf => hacc f (by
      rw [List.mem_singleton.1 hf]
      exact List.mem_cons_self)
    obtain ⟨t', hrest⟩ := ih (self.withHeaders [g]) fun f hf => hacc f (List.mem_cons_of_mem g hf)
    refine ⟨t', ?_⟩
    rw [self.withHeaders_cons g gs, ← hrest]
    change (self.storeHeader (strToLower g.name) (.ok g.value) >>= _) = _
    rw [hstore, Exec.ok_bind]
    simp only [ht, Bool.false_eq_true, if_false]
    rfl

/-- What it means that a further header changes nothing. -/
theorem withHeaders_single_eq_iff {self : HTTPRequest} (hfresh : self.reqAccept = none ∧
    self.reqFrom = none ∧ self.reqHost = none ∧ self.reqContentType = none ∧
    self.reqContentLen = -1) (hs : List Header) (h : Header) :
    (self.withHeaders hs).withHeaders [h] = self.withHeaders hs ↔ Repeats hs h := by
  obtain ⟨haccept, hfrom, hhost, htype, hlen⟩ := hfresh
  have hor : ∀ (name : List Byte) (x : Option (List Byte)),
      (lastValue name [h]).or x = x ↔ (strToLower h.name = name → x = some h.value) := by
    intro name x
    rw [lastValue_single]
    by_cases hn : strToLower h.name = name
    · simp only [hn, if_true, Option.some_or, forall_const, eq_comm]
    · simp only [hn, if_false, Option.none_or, false_implies]
  have hnum : ∀ x : Int,
      ((lastValue (bytes "content-length") [h]).map fun v => (strToInt v).2).getD x = x ↔
        (strToLower h.name = bytes "content-length" → x = (strToInt h.value).2) := by
    intro x
    rw [lastValue_single]
    by_cases hn : strToLower h.name = bytes "content-length"
    · simp only [hn, if_true, Option.map_some, Option.getD_some, forall_const, eq_comm]
    · simp only [hn, if_false, Option.map_none, Option.getD_none, false_implies]
  unfold HTTPRequest.withHeaders Repeats
  simp only [HTTPRequest.mk.injEq, haccept, hfrom, hhost, htype, hlen, Option.or_none, hor, hnum,
    true_and, and_true, and_assoc, List.forall_mem_cons, List.not_mem_nil, false_implies,
    implies_true]

/-- What `read_headers` has of the first line, when it has got to the headers. -/
def HeaderBlock.started (b : HeaderBlock) : HTTPRequest := newHttpRequest.storeFirst b.head .resp

theorem HeaderBlock.readHeaders_started (b : HeaderBlock) :
    readHeaders newHttpRequest b.text .resp =
      b.started.storeFields (b.headers.map Header.field) := by
  rw [← b.head_text, readHeaders_text]
  rfl

/-- Without headers the one has the status line and the other has not. -/
theorem not_readAlike_of_nil {r : Response} (malloc : Bool) (hnil : r.block.headers = []) :
    ¬ r.ReadAlike malloc := by
  obtain ⟨hsplit, hend⟩ := headEnd_response_nil hnil
  have hblock : readHeaders newHttpRequest r.block.text .resp =
      .ok (.create statusOk .null "read_headers", r.block.started) := by
    rw [r.block.readHeaders_started, hnil]
    rfl
  rw [readAlike_of_cut hsplit hend (readHeaders_unended_first r.block _) hblock]
  intro ⟨_, _, hself⟩
  have hcode := congrArg HTTPRequest.respCode hself
  cases hcode

/-- The one has the headers up to the last, the other all of them. -/
theorem readAlike_concat_iff {r : Response} (malloc : Bool) {hs : List Header} {h : Header}
    (hlast : r.block.headers = hs ++ [h]) :
    r.ReadAlike malloc ↔ malloc = true ∧ LengthsAccepted hs ∧ Repeats hs h := by
  obtain ⟨hsplit, hend⟩ := headEnd_response hlast
  obtain ⟨t, self, hstore, hiff, hstored⟩ := r.block.started.storeFields_headers hs
  obtain ⟨t', self', hstore', -⟩ := r.block.started.storeFields_headers r.block.headers
  rw [readAlike_of_cut hsplit hend ((readHeaders_unended r.block hs h _).trans hstore)
    (r.block.readHeaders_started.trans hstore'), hiff]
  refine and_congr_right fun _ => and_congr_right fun hacc => ?_
  obtain ⟨t'', hall⟩ := r.block.started.storeFields_append hs h hacc
  rw [← hlast, hstore'] at hall
  cases hall
  rw [hstored (hiff.2 hacc), eq_comm]
  exact withHeaders_single_eq_iff ⟨rfl, rfl, rfl, rfl, rfl⟩ hs h

/-- **Two ways to read a response.** They set the same fields, and the body, exactly when there is a
block for the body and a last header, which repeats what the headers before it say; no
`Content-Length` before it may be refused, since then there is no body. -/
theorem readAlike_iff (r : Response) (malloc : Bool) : r.ReadAlike malloc ↔
    malloc = true ∧ ∃ hs h, r.block.headers = hs ++ [h] ∧ LengthsAccepted hs ∧ Repeats hs h := by
  rcases List.eq_nil_or_concat r.block.headers with hnil | ⟨hs, h, hlast⟩
  · refine iff_of_false (not_readAlike_of_nil malloc hnil) ?_
    intro ⟨_, hs, h, hlast, _⟩
    rw [hnil] at hlast
    exact List.cons_ne_nil _ _ (List.append_eq_nil_iff.1 hlast.symm).2
  · rw [List.concat_eq_append] at hlast
    rw [readAlike_concat_iff malloc hlast]
    constructor
    · intro ⟨hm, hacc, hrep⟩
      exact ⟨hm, hs, h, hlast, hacc, hrep⟩
    · intro ⟨hm, hs', h', hlast', hacc, hrep⟩
      obtain ⟨rfl, hh⟩ := List.append_inj' (hlast.symm.trans hlast') rfl
      cases hh
      exact ⟨hm, hacc, hrep⟩

theorem contentLength_ascii : ∀ b ∈ bytes "Content-Length", b < 128 := forall_mem_of_all rfl

/-- A response with one header, a `Content-Length`. -/
def shortResponse : Response where
  block :=
    { first := bytes "HTTP/1.1"
      second := bytes "200"
      third := bytes "OK"
      headers :=
        [⟨bytes "Content-Length", bytes "2", contentLength_ascii, contentLength_plain,
          contentLength_colon, by decide⟩]
      first_plain := protocol_plain
      first_space := by decide
      second_plain := by decide
      second_space := by decide
      third_plain := by decide }
  body := bytes "hi"
  body_nul := by decide

/-- Its length is lost. -/
theorem length_lost : ¬ ∀ r : Response, r.ReadAlike true := by
  intro h
  obtain ⟨t, http, t', self, hget, hread, hself, -⟩ := h shortResponse
  have hwhole : (getHttpResponse true newHttpResponse shortResponse.text).map
      (fun p => p.2.response.reqContentLen) = .ok (-1) := by decide
  have hhead : (readHeaders newHttpRequest shortResponse.block.text .resp).map
      (fun p => p.2.reqContentLen) = .ok 2 := by decide
  rw [hget] at hwhole
  rw [hread, ← hself] at hhead
  have hlen := Except.ok.inj (hwhole.symm.trans hhead)
  exact absurd hlen (by decide)

end ReadAlike

/-! ## The body -/

section Body

variable {malloc : Bool} {text : List Byte}

end Body

end Heimdall.Http
