import Heimdall.Http.Forward
import Heimdall.Http.Framing
import Heimdall.Http.Send
import Heimdall.RoundRobin.Circular
import Heimdall.Worker.Pipeline

/-!
# `request_work`, from the slot to the header of the response

What `Worker.Node` takes as given, the outcome of a request (`Reply`), is worked out here from what
`request_work` reads: the slot of the worker in the shared memory, the request that the client has
sent, and what the machine behind the slot does. With it the whole way of a request is known, from
the bytes of the client to those of the machine and back: the machine gets the request line and a
`Host` line, the client gets the header block of the machine as it is and the body (`proxied`), and
the writer gets stuck on a request unless everything on the way goes well (`writer_free_iff`).
-/

namespace Heimdall.Worker

open Heimdall.Http

/-- The fields of `worker_server[i]` that `request_work` reads. -/
structure Slot where
  status : Int
  ip : Option (List Byte)

/-- A machine, as a connection to it shows: whether it accepts the connection, what `write` does on
it, and what the machine sends until it ends the connection, with a reset or without. -/
structure Machine where
  connects : Bool
  calls : List WriteCall
  stream : List Byte
  reset : Bool

def receiveHttpResponseHeader (h : Heap) (broken : Bool) (socket : List Byte)
    (self : HTTPRequest) : Exec (Throwable × HTTPRequest × List Byte) := do
  let (t, self, socket) ← receiveHttpHeader2 h broken socket self
  if t.isAnError then .ok (t.thrown "receive_http_response", self, socket)
  else
    let (t, self) ← readHeaders self (← self.headerStr) .resp
    if t.isAnError then .ok (t.thrown "receive_http_response", self, socket)
    else .ok (.create statusOk .null "receive_http_response_header", self, socket)

/-- What the writer finds at the header of a response that `request_work` has given up. -/
def leftHeader (response : HTTPRequest) : Exec (Option (List Byte)) :=
  match response.header with
  | none => .ok none
  | some b => do
    let s ← b.str
    .ok (some s)

/-- The part of `request_work` from `receive_http_response_header` on. -/
def receiveReply (h : Heap) (m : Machine) : Exec Reply := do
  let (t, response, rest) ← receiveHttpResponseHeader h m.reset m.stream newHttpRequest
  if t.isAnError then
    let header ← leftHeader response
    .ok (.badHeader header response.reqContentLen)
  else
    let header ← response.headerStr
    .ok (.header header response.reqContentLen rest m.reset)

/-- `request_work` with the mutex of the node: what the node meets, and the bytes that the machine
has been sent. There is no reply while `write` has not been called often enough, or when it has
ended the process. -/
def requestWork (h : Heap) (slot : Slot) (m : Machine) (request : HTTPRequest) :
    Exec (Option Reply × List Byte) :=
  if slot.status = RoundRobin.serverStatusBroken then .ok (some (.exit .serverBroken), [])
  else
    match slot.ip with
    | none => .ok (some (.exit .hostNull), [])
    | some ip =>
      if m.connects then
        match (makeSimpleRequest (request.setHost ip)).2 with
        | none => .ok (some (.exit .notBuilt), [])
        | some message => do
          let (s, out) ← sendHttp message (strlen message) 0 m.calls
          match s with
          | .writing => .ok (none, out)
          | .killed => .ok (none, out)
          | .returned t =>
            if t.isAnError then .ok (some (.exit .notSent), out)
            else do
              let reply ← receiveReply h m
              .ok (some reply, out)
      else .ok (some (.exit .notConnected), [])

/-! ## The length of a response -/

/-- What is in `req_content_len` after the fields, if none of them is refused: the value of the last
`Content-Length`. -/
def lengthAfter : List Field → Int → Int
  | [], len => len
  | f :: fs, len =>
    lengthAfter fs (if f.IsContentLength then (strToInt (f.data fs)).2 else len)

section Length

variable {self self' : HTTPRequest} {t : Throwable}

theorem storeHeader_length {header v : List Byte}
    (h : self.storeHeader header (.ok v) = .ok (t, self')) :
    self'.reqContentLen =
      if header = bytes "content-length" then (strToInt v).2 else self.reqContentLen := by
  unfold HTTPRequest.storeHeader at h
  split at h
  · next heq =>
    cases h
    rw [heq, if_neg (by decide)]
  split at h
  · next heq =>
    cases h
    rw [heq, if_neg (by decide)]
  split at h
  · next heq =>
    cases h
    rw [heq, if_neg (by decide)]
  split at h
  · next heq =>
    cases h
    rw [heq, if_neg (by decide)]
  split at h
  · next heq =>
    rw [if_pos heq]
    rw [Exec.ok_bind] at h
    dsimp only at h
    split at h <;> cases h <;> rfl
  · next hne =>
    cases h
    rw [if_neg hne]

/-- The fields one after the other, when all are accepted. The induction is on the fields. -/
theorem storeFields_length {fs : List Field} (hacc : Accepted fs)
    (h : self.storeFields fs = .ok (t, self')) :
    self'.reqContentLen = lengthAfter fs self.reqContentLen := by
  induction fs generalizing self with
  | nil =>
    cases h
    rfl
  | cons f fs ih =>
    obtain ⟨t₁, self₁, hstore, -, hiff⟩ := self.storeHeader_spec (strToLower f.name) (f.data fs)
    rw [HTTPRequest.storeFields, hstore, Exec.ok_bind] at h
    have hok : t₁.isAnError = false := hiff.2 hacc.1
    simp only [hok, Bool.false_eq_true, if_false] at h
    rw [ih hacc.2 h, storeHeader_length hstore]
    rfl

end Length

/-! ## The header of a response -/

section Header

variable (h : Heap) (broken : Bool)

/-- A header block is received into the response, and what follows it is left. -/
theorem receiveHttpHeader2_text {a : Head} (hkeep : h.Keeps a.text.length) (post : List Byte)
    (self : HTTPRequest) : ∃ (t : Throwable) (b : Block), b.str = .ok a.text ∧
      t.isAnError = false ∧ receiveHttpHeader2 h broken (a.text ++ post) self =
        .ok (t, { self with header := some b }, post) := by
  rcases receiveHeaderLoop_ends h broken (HeaderRead.start_holds h) a.ends_text post with
    ⟨-, s, hs, heq⟩ | ⟨⟨n, h₁, h₂, h₃⟩, -⟩
  · rw [List.nil_append] at hs heq
    have htotal : s.total ≠ 0 := by
      rw [hs.total]
      exact fun h0 => a.text_ne_nil (List.length_eq_zero_iff.1 h0)
    refine ⟨.create statusOk .null "receive_http_header2", _, hs.str_nul a.text_nul, rfl, ?_⟩
    unfold receiveHttpHeader2
    rw [heq, Exec.ok_bind]
    simp only [if_neg htotal]
  · exact absurd (hkeep n (by simpa using h₁) (by simpa using h₂)) h₃

/-- What `read_headers` makes of the first line of a response. -/
structure StatusLineOf (a : Head) (response : HTTPRequest) : Prop where
  reqProtocol : response.reqProtocol = some a.first
  respCode : response.respCode = some a.second
  respMsg : response.respMsg = some a.third

/-- **A header block is parsed as a response**: it is refused if a `Content-Length` is, and
otherwise the announced length is that of the last one. -/
theorem receiveHttpResponseHeader_text {a : Head} (hkeep : h.Keeps a.text.length)
    (post : List Byte) : ∃ t response,
      receiveHttpResponseHeader h broken (a.text ++ post) newHttpRequest =
        .ok (t, response, post) ∧ response.headerStr = .ok a.text ∧ StatusLineOf a response ∧
      (t.isAnError = false ↔ Accepted a.fields) ∧
      (Accepted a.fields → response.reqContentLen = lengthAfter a.fields (-1)) := by
  obtain ⟨t₀, b, hstr, hok, heq⟩ := receiveHttpHeader2_text h broken hkeep post newHttpRequest
  obtain ⟨t, response, hread, hsame, hiff⟩ :=
    readHeaders_spec { newHttpRequest with header := some b } a .resp
  have hheader : response.headerStr = .ok a.text := by
    unfold HTTPRequest.headerStr
    rw [hsame.header]
    exact hstr
  have hparts : StatusLineOf a response := ⟨hsame.reqProtocol, hsame.respCode, hsame.respMsg⟩
  have hlen : Accepted a.fields → response.reqContentLen = lengthAfter a.fields (-1) := by
    intro hacc
    rw [readHeaders_text] at hread
    exact storeFields_length hacc hread
  have hblock : HTTPRequest.headerStr { newHttpRequest with header := some b } = .ok a.text := hstr
  unfold receiveHttpResponseHeader
  rw [heq, Exec.ok_bind]
  simp only [hok, Bool.false_eq_true, if_false, hblock, Exec.ok_bind, hread]
  by_cases herr : t.isAnError
  · rw [if_pos herr]
    refine ⟨_, response, rfl, hheader, hparts, ?_, hlen⟩
    rw [Throwable.isAnError_thrown]
    exact hiff
  · rw [if_neg herr]
    exact ⟨_, response, rfl, hheader, hparts, iff_of_true rfl (hiff.1 (by simpa using herr)), hlen⟩

end Header

/-! ## When the writer is free -/

section Free

variable {h : Heap} {slot : Slot} {m : Machine} {request : HTTPRequest} {a : Head}
  {rest out : List Byte} {reply : Reply}

theorem headerStr_ok {r : HTTPRequest} {s : List Byte} (h : r.headerStr = .ok s) :
    ∃ b, r.header = some b ∧ b.str = .ok s := by
  unfold HTTPRequest.headerStr at h
  cases hb : r.header with
  | none => simp only [hb, reduceCtorEq] at h
  | some b =>
    simp only [hb] at h
    exact ⟨b, rfl, h⟩

/-- What comes of the header block that a machine sends. -/
theorem receiveReply_text (hkeep : h.Keeps a.text.length) (hstream : m.stream = a.text ++ rest) :
    (Accepted a.fields →
      receiveReply h m = .ok (.header a.text (lengthAfter a.fields (-1)) rest m.reset)) ∧
    (¬ Accepted a.fields → ∃ header len, receiveReply h m = .ok (.badHeader header len)) := by
  obtain ⟨t, response, heq, hheader, -, hiff, hlen⟩ :=
    receiveHttpResponseHeader_text h m.reset hkeep rest
  unfold receiveReply
  rw [hstream, heq, Exec.ok_bind]
  refine ⟨fun hacc => ?_, fun hacc => ?_⟩
  · simp only [hiff.2 hacc, Bool.false_eq_true, if_false, hheader, Exec.ok_bind, hlen hacc]
  · have herr : t.isAnError = true := by
      rw [← Bool.not_eq_false]
      exact fun h0 => hacc (hiff.1 h0)
    have hleft : leftHeader response = .ok (some a.text) := by
      obtain ⟨b, hb, hstr⟩ := headerStr_ok hheader
      unfold leftHeader
      rw [hb]
      simp only [hstr, Exec.ok_bind]
    simp only [herr, if_true, hleft, Exec.ok_bind]
    exact ⟨_, _, rfl⟩

/-- `request_work` gets to the header of the answer. -/
theorem requestWork_eq {ip message : List Byte}
    (hready : slot.status ≠ RoundRobin.serverStatusBroken) (hip : slot.ip = some ip)
    (hconnects : m.connects = true)
    (hmessage : (makeSimpleRequest (request.setHost ip)).2 = some message)
    (hint : (strlen message : Int) ≤ intMax)
    (hwrites : Writes (strlen message) m.calls)
    (hall : TakesAll (strlen message) m.calls) (hreply : receiveReply h m = .ok reply) :
    requestWork h slot m request = .ok (some reply, message.take (strlen message)) := by
  obtain ⟨t, herr, hsend⟩ := sendHttp_takesAll hint (strlen_le message) hwrites hall
  unfold requestWork
  rw [if_neg hready]
  simp only [hip, hconnects, if_true, hmessage, hsend, Exec.ok_bind, herr, Bool.false_eq_true,
    if_false, hreply]

end Free

/-! ## The whole way -/

/-- What a machine gets of a request: the first line, with the host of the slot. -/
def forwarded (q : Head) (ip : List Byte) : List Byte :=
  q.first ++ bytes " " ++ q.second ++ bytes " " ++ q.third ++ bytes "\nHost: " ++
    (ip ++ bytes ":80") ++ bytes "\n\n"

theorem cString_text (a : Head) : cString a.text = a.text :=
  List.takeWhile_eq_self_iff.2 fun _ hb => decide_eq_true fun h0 => a.text_nul (h0 ▸ hb)

/-- A response of a server: a header block with a `Content-Length`, and a body of as many bytes as
every `Content-Length` says, at least one. `extra` is what the server sends after that, and `reset`
how it ends. -/
structure Response where
  head : Head
  body : List Byte
  extra : List Byte
  reset : Bool
  announced : ∀ f ∈ head.fields, f.IsContentLength → f.Announces body.length
  counted : ∃ f ∈ head.fields, f.IsContentLength
  body_pos : 1 ≤ body.length

namespace Response

def stream (r : Response) : List Byte := r.head.text ++ (r.body ++ r.extra)

/-- What the client is to get. -/
def message (r : Response) : List Byte := r.head.text ++ r.body

/-- The `Content-Length`s as they are read, each from the second byte after its colon: all are
accepted, and the last is the length of the body. -/
structure LengthRead (r : Response) : Prop where
  accepted : Accepted r.head.fields
  length_eq : lengthAfter r.head.fields (-1) = r.body.length

/-- The response as `request_work` is to read it. -/
def complete (r : Response) : CompleteReply where
  header := r.head.text
  length := r.body.length
  data := r.body ++ r.extra
  reset := r.reset
  length_pos := r.body_pos
  length_le := by simp

theorem complete_message (r : Response) : r.complete.message = r.message := by
  change cString r.head.text ++ (r.body ++ r.extra).take r.body.length = _
  rw [cString_text, List.take_left]
  rfl

end Response

/-- The machine sends the response. -/
structure Sends (m : Machine) (r : Response) : Prop where
  stream_eq : m.stream = r.stream
  reset_eq : m.reset = r.reset

/-- The machine sends the response, and the buffer for its header block stays in its place. -/
structure Answers (h : Heap) (m : Machine) (r : Response) : Prop extends Sends m r where
  keeps : h.Keeps r.head.text.length

/-- What `request_work` reads of a response whose length it reads. -/
theorem Answers.receiveReply_eq {h : Heap} {m : Machine} {r : Response} (ha : Answers h m r)
    (hr : r.LengthRead) : receiveReply h m = .ok r.complete.reply := by
  have hreply := (receiveReply_text ha.keeps ha.stream_eq).1 hr.accepted
  rw [hr.length_eq, ha.reset_eq] at hreply
  exact hreply

section Lengths

theorem strToInt_value {d : DigitString} {n : Nat} (hzero : ¬ d.LeadingZero)
    (hvalue : d.value 10 = n) (hn : (n : Int) ≤ intMax) :
    IsInt d.digits ∧ (strToInt d.digits).2 = n := by
  have hrun := d.run_of_not_leadingZero hzero
  have hnumeral : numeral d.base d.run = n := by
    rw [hrun, DigitString.base_of_not_leadingZero hzero, DigitString.numeral_eq d.decimal]
    exact hvalue
  obtain ⟨hiff, hstored⟩ := d.strToInt_digits
  have hfits : ¬ longMax < (numeral d.base d.run : Nat) := by
    rw [hnumeral]
    unfold longMax
    unfold intMax at hn
    omega
  refine ⟨?_, ?_⟩
  · unfold IsInt
    rw [← Bool.not_eq_true, hiff]
    exact fun h0 => h0.elim hfits (by rw [hrun]; exact Nat.lt_irrefl _)
  · rw [hstored hfits, hnumeral, DigitString.longToInt_of_le hn]

/-- Fields whose `Content-Length`s are all `n` are accepted, and `n` is what is stored. -/
theorem lengthAfter_eq {n : Nat} (hn : (n : Int) ≤ intMax) {fs : List Field}
    (hfs : ∀ f ∈ fs, f.IsContentLength → ∃ d : DigitString,
      f.raw = sp :: d.digits ∧ ¬ d.LeadingZero ∧ d.value 10 = n) :
    Accepted fs ∧
      ∀ len : Int, len = n ∨ (∃ f ∈ fs, f.IsContentLength) → lengthAfter fs len = n := by
  induction fs with
  | nil =>
    refine ⟨trivial, fun len h => ?_⟩
    rcases h with h | ⟨f, hf, -⟩
    · exact h
    · cases hf
  | cons f fs ih =>
    obtain ⟨hacc, hafter⟩ := ih fun g hg => hfs g (List.mem_cons_of_mem f hg)
    have hfirst : f.IsContentLength → IsInt (f.data fs) ∧ (strToInt (f.data fs)).2 = n := by
      intro hf
      obtain ⟨d, hraw, hzero, hvalue⟩ := hfs f List.mem_cons_self hf
      have hdata : f.data fs = d.digits := by
        unfold Field.data
        rw [hraw]
      rw [hdata]
      exact strToInt_value hzero hvalue hn
    refine ⟨⟨fun hf => (hfirst hf).1, hacc⟩, fun len h => ?_⟩
    rw [lengthAfter]
    by_cases hf : f.IsContentLength
    · rw [if_pos hf]
      exact hafter _ (.inl (hfirst hf).2)
    · rw [if_neg hf]
      refine hafter _ (h.imp_right ?_)
      rintro ⟨g, hg, hlen⟩
      rcases List.mem_cons.1 hg with rfl | hg
      · exact absurd hlen hf
      · exact ⟨g, hg, hlen⟩

/-- A length is read if it stands behind one space, in digits the first of which is not a zero, and
fits in an `int`. -/
theorem Response.lengthRead_of_plain {r : Response} (hle : (r.body.length : Int) ≤ intMax)
    (hplain : ∀ f ∈ r.head.fields, f.IsContentLength → ∃ d : DigitString,
      f.raw = sp :: d.digits ∧ ¬ d.LeadingZero ∧ d.value 10 = r.body.length) : r.LengthRead := by
  obtain ⟨haccepted, hafter⟩ := lengthAfter_eq hle hplain
  exact ⟨haccepted, hafter (-1) (.inr r.counted)⟩

end Lengths

section Forward

variable {q : Head} {ip : List Byte} {r : HTTPRequest}

theorem makeSimpleRequest_parses (hr : Parses q r) :
    (makeSimpleRequest (r.setHost ip)).2 = some (forwarded q ip) := by
  unfold makeSimpleRequest HTTPRequest.setHost
  simp only [hr.reqType, hr.reqResource, hr.reqProtocol]
  rfl

theorem forwarded_nul (hip : 0 ∉ ip) : 0 ∉ forwarded q ip := by
  have h₀ : 0 ∉ bytes " " := by decide
  have h₁ : 0 ∉ bytes "\nHost: " := by decide
  have h₂ : 0 ∉ bytes ":80" := by decide
  have h₃ : 0 ∉ bytes "\n\n" := by decide
  simp [forwarded, q.first_plain.nul_not_mem, q.second_plain.nul_not_mem,
    q.third_plain.nul_not_mem, hip, h₀, h₁, h₂, h₃]

end Forward

/-- The machine takes the message and sends the response, and the length of it is read. -/
structure Serves (h : Heap) (m : Machine) (message : List Byte) (r : Response) : Prop where
  connects : m.connects = true
  short : (message.length : Int) ≤ intMax
  writes : Writes message.length m.calls
  takes : TakesAll message.length m.calls
  answers : Answers h m r
  read : r.LengthRead

section Proxy

variable {broken : Bool} {heap heap' : Nat → Heap} {slot : Slot} {ip : List Byte}
  {qs : List Request} {machine : Nat → Machine} {response : Nat → Response}

/-- One request: the machine has been sent the first line of it, and the node meets the answer. -/
theorem requestWork_serves {h : Heap} {m : Machine} {q : Head} {a : Response} {r : HTTPRequest}
    (hready : slot.status ≠ RoundRobin.serverStatusBroken) (hip : slot.ip = some ip)
    (hnul : 0 ∉ ip) (hr : Parses q r) (hs : Serves h m (forwarded q ip) a) :
    requestWork h slot m r = .ok (some a.complete.reply, forwarded q ip) := by
  have hreply := hs.answers.receiveReply_eq hs.read
  have hstr : strlen (forwarded q ip) = (forwarded q ip).length := strlen_eq (forwarded_nul hnul)
  have heq := requestWork_eq hready hip hs.connects (makeSimpleRequest_parses hr)
    (hstr.symm ▸ hs.short) (hstr.symm ▸ hs.writes) (hstr.symm ▸ hs.takes) hreply
  rw [hstr, List.take_length] at heq
  exact heq

/-- **The whole way of the requests of a connection.** The client sends requests without bodies, the
slot of the worker has a server that is not marked as BROKEN, and the machine behind it takes each
request and sends a response whose length is read. Then the calls of `receive_http_request` return
for each request its header block and the parts of its first line; for each of them `request_work`
sends to the machine the first line of that request with the host of the slot, and nothing else; and
in every order of the steps of the request threads and the writer, what the client has got at any
time is the beginning of all the responses, each its header block and its body, in the order of the
requests, and it is all of them when the writer has passed the last request. -/
theorem proxied (hbody : ∀ q ∈ qs, q.body = []) (hcounted : ∀ q ∈ qs, q.Counted)
    (hkeeps : ∀ k q, qs[k]? = some q → (heap k).Keeps q.head.text.length)
    (hready : slot.status ≠ RoundRobin.serverStatusBroken) (hip : slot.ip = some ip)
    (hnul : 0 ∉ ip)
    (hserves : ∀ k q, qs[k]? = some q →
      Serves (heap' k) (machine k) (forwarded q.head ip) (response k)) :
    ∃ rs, receiveRequests broken heap qs.length (stream qs) = .ok (some (rs, [])) ∧
      List.Forall₂ (fun q r => Parses q.head r) qs rs ∧
      (∀ (k : Nat) (q : Request) (r : HTTPRequest), qs[k]? = some q → rs[k]? = some r →
        requestWork (heap' k) slot (machine k) r =
          .ok (some (response k).complete.reply, forwarded q.head ip)) ∧
      ∀ s, (pipeline qs.length fun k => (response k).complete.reply).Reachable s →
        s.client <+: messages (fun k => (response k).message) qs.length ∧
        (s.front = qs.length →
          s.client = messages (fun k => (response k).message) qs.length) := by
  have hframed : Framed broken heap qs := (framed_of_empty hbody).2 ⟨hcounted, hkeeps⟩
  obtain ⟨rs, hcalls, hrs⟩ := hframed
  refine ⟨rs, hcalls, hrs, ?_, fun s hs => ?_⟩
  · intro k q r hq hr
    obtain ⟨hk, rfl⟩ := List.getElem?_eq_some_iff.1 hq
    obtain ⟨hk', rfl⟩ := List.getElem?_eq_some_iff.1 hr
    have hparses : Parses qs[k].head rs[k] := hrs.get hk hk'
    exact requestWork_serves hready hip hnul hparses (hserves k _ hq)
  · obtain ⟨-, -, hbegins, hall⟩ := messages_in_order hs
    simp only [Response.complete_message] at hbegins hall
    exact ⟨hbegins, hall⟩

end Proxy

/-! ## One request and its answer -/

def steadyHeap : Heap := ⟨fun _ => 0, fun _ => .inPlace⟩

theorem steadyHeap_keeps (n : Nat) : steadyHeap.Keeps n := fun _ _ _ _ => rfl

def simpleGet : Request where
  head :=
    { first := bytes "GET"
      second := bytes "/"
      third := bytes "HTTP/1.1"
      fields := []
      first_plain := by decide
      first_space := by decide
      second_plain := oneByteHead.second_plain
      second_space := oneByteHead.second_space
      third_plain := protocol_plain }
  body := []
  announced f hf := nomatch hf
  absent _ := rfl

theorem oneByteField_announces : oneByteField.Announces 1 :=
  ⟨[sp], bytes "1", [], rfl, by simp [sp], by decide, by simp [bytes], rfl⟩

theorem oneByteField_counts : oneByteField.IsContentLength := by decide

def okResponse : Response where
  head :=
    { first := bytes "HTTP/1.0"
      second := bytes "201"
      third := bytes "Created"
      fields := [oneByteField]
      first_plain := by decide
      first_space := by decide
      second_plain := by decide
      second_space := by decide
      third_plain := by decide }
  body := [120]
  extra := []
  reset := false
  announced f hf _ := List.mem_singleton.1 hf ▸ oneByteField_announces
  counted := ⟨oneByteField, List.mem_singleton_self _, oneByteField_counts⟩
  body_pos := Nat.one_pos

theorem okResponse_read : okResponse.LengthRead := by
  refine Response.lengthRead_of_plain (by decide) fun f hf _ => ?_
  obtain rfl : f = oneByteField := by simpa [okResponse] using hf
  exact ⟨⟨bytes "1", by decide, forall_mem_of_all (by decide)⟩, rfl, by decide, by decide⟩

def okSlot : Slot := ⟨RoundRobin.serverStatusReady, some (bytes "10.0.0.1")⟩

def okMachine : Machine where
  connects := true
  calls := [.took 20, .took 14, .took 0]
  stream := okResponse.stream
  reset := false

theorem okMachine_serves : Serves steadyHeap okMachine
    (forwarded simpleGet.head (bytes "10.0.0.1")) okResponse where
  connects := rfl
  short := by decide
  writes := by decide
  takes := ⟨by decide, by decide, by rfl⟩
  answers := ⟨⟨rfl, rfl⟩, steadyHeap_keeps _⟩
  read := okResponse_read

theorem proxied_simpleGet : ∃ rs,
    receiveRequests false (fun _ => steadyHeap) 1 (stream [simpleGet]) = .ok (some (rs, [])) ∧
      ∀ s, (pipeline 1 fun _ => okResponse.complete.reply).Reachable s → s.front = 1 →
        s.client = okResponse.message := by
  have hone : ∀ (k : Nat) (q : Request), [simpleGet][k]? = some q → q = simpleGet := by
    intro k q hq
    simpa using List.mem_of_getElem? hq
  have hbody : ∀ q ∈ [simpleGet], q.body = [] := by
    intro q hq
    obtain rfl := List.mem_singleton.1 hq
    rfl
  have hcounted : ∀ q ∈ [simpleGet], q.Counted := by
    intro q hq f hf
    obtain rfl := List.mem_singleton.1 hq
    cases hf
  obtain ⟨rs, hcalls, -, -, hclient⟩ := @proxied false (fun _ => steadyHeap) (fun _ => steadyHeap)
    okSlot (bytes "10.0.0.1") [simpleGet] (fun _ => okMachine) (fun _ => okResponse) hbody hcounted
    (fun _ _ _ => steadyHeap_keeps _) (by decide) rfl (by decide)
    (fun k q hq => hone k q hq ▸ okMachine_serves)
  refine ⟨rs, hcalls, fun s hs hfront => ?_⟩
  rw [(hclient s hs).2 hfront]
  exact List.append_nil _

end Heimdall.Worker
