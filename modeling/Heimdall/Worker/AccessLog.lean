import Heimdall.Utils.Log
import Heimdall.Worker.RequestWork

/-!
# The log of requests and responses (`r` of `log.c`, `worker.c`)

`request_work` writes a record when it has a connection to the server, and another one when it has
the header of the response. Both are meant to be a line. That of a request has in it what the client
has sent as `Host`, and where nothing stands behind the colon this is the rest of the header block
from the line feed on: so a client can put lines of its own into the log (`recorded_lines`). That of
a response is always one line.

The threads of the requests write at any time, each record with one `fwrite`, so the log has the
records in any order. `timestamp` returns the buffer of `asctime`, which all threads share, and
takes the line feed off it; another thread can put one back before the record is formatted. So that
the time in a record has no line feed is a hypothesis here: no two calls of `r` are under way at
once.
-/

namespace Heimdall.Worker

open Heimdall.Http

/-- What `%s` prints; NULL is printed as well. -/
def shown (s : Option (List Byte)) : List Byte := s.getD (bytes "(null)")

/-- What the process has for its log: the configuration, whether the two files have been opened, and
its process id. `reports` bounds how often an error in the configuration is reported. -/
structure Logging where
  config : Configuration.Config
  reports : Nat
  reqLog : Bool
  respLog : Bool
  pid : Nat

/-- The line of `r` for a request. `stamp` is what `timestamp` returns. -/
def requestRecord (stamp remote : List Byte) (pid : Nat) (request : HTTPRequest) : List Byte :=
  bytes "[" ++ stamp ++ bytes "] - " ++ shown request.reqHost ++ bytes " to: " ++ remote ++
    bytes " - worker: " ++ decimal pid ++ bytes " - " ++ shown request.reqType ++
    bytes " " ++ shown request.reqResource ++ bytes " " ++ shown request.reqProtocol ++ bytes "\n"

/-- The line of `r` for a response. -/
def responseRecord (stamp remote : List Byte) (pid : Nat) (response : HTTPRequest) : List Byte :=
  bytes "[" ++ stamp ++ bytes "] - " ++ remote ++ bytes " response to Heimdall - worker: " ++
    decimal pid ++ bytes ": " ++ shown response.reqProtocol ++ bytes " " ++
    shown response.respCode ++ bytes " " ++ shown response.respMsg ++ bytes "\n"

/-- What a call of `request_work` adds to the two files. -/
structure Written where
  requests : List Byte
  responses : List Byte

/-- `request_work`, with what it writes to the log. `stamp` and `stamp'` are the times of the two
records. -/
def requestWorkLogged (l : Logging) (h : Heap) (slot : Slot) (m : Machine)
    (stamp stamp' : List Byte) (request : HTTPRequest) :
    Exec ((Option Reply × List Byte) × Written) :=
  if slot.status = RoundRobin.serverStatusBroken then
    .ok ((some (.exit .serverBroken), []), ⟨[], []⟩)
  else
    match slot.ip with
    | none => .ok ((some (.exit .hostNull), []), ⟨[], []⟩)
    | some ip =>
      if m.connects then do
        let (_, requests) ←
          Log.r l.config l.reports l.reqLog (requestRecord stamp ip l.pid request)
        match (makeSimpleRequest (request.setHost ip)).2 with
        | none => .ok ((some (.exit .notBuilt), []), ⟨requests, []⟩)
        | some message => do
          let (s, out) ← sendHttp message (strlen message) 0 m.calls
          match s with
          | .writing => .ok ((none, out), ⟨requests, []⟩)
          | .killed => .ok ((none, out), ⟨requests, []⟩)
          | .returned t =>
            if t.isAnError then .ok ((some (.exit .notSent), out), ⟨requests, []⟩)
            else do
              let (t, response, rest) ←
                receiveHttpResponseHeader h m.reset m.stream newHttpRequest
              if t.isAnError then do
                let header ← leftHeader response
                .ok ((some (.badHeader header response.reqContentLen), out), ⟨requests, []⟩)
              else do
                let (_, responses) ←
                  Log.r l.config l.reports l.respLog (responseRecord stamp' ip l.pid response)
                let header ← response.headerStr
                .ok ((some (.header header response.reqContentLen rest m.reset), out),
                  ⟨requests, responses⟩)
      else .ok ((some (.exit .notConnected), []), ⟨[], []⟩)

/-! ## What the client has sent as `Host` -/

def IsHost (f : Field) : Prop := strToLower f.name = bytes "host"

instance (f : Field) : Decidable (IsHost f) := inferInstanceAs (Decidable (_ = _))

/-- What is in `req_host` after the fields. -/
def hostAfter : List Field → Option (List Byte) → Option (List Byte)
  | [], host => host
  | f :: fs, host => hostAfter fs (if IsHost f then some (f.data fs) else host)

/-- The last `Host` has nothing behind its colon. -/
def EmptyHost (fs : List Field) : Prop :=
  ∃ pre f post, fs = pre ++ f :: post ∧ IsHost f ∧ f.raw = [] ∧ ∀ g ∈ post, ¬ IsHost g

section Host

variable {self self' : HTTPRequest} {t : Throwable} {fs : List Field}

theorem storeHeader_host {header v : List Byte}
    (h : self.storeHeader header (.ok v) = .ok (t, self')) :
    self'.reqHost = if header = bytes "host" then some v else self.reqHost := by
  unfold HTTPRequest.storeHeader at h
  split at h
  · next heq =>
    cases h
    rw [heq, if_neg (by decide)]
  split at h
  · next heq =>
    cases h
    rw [heq, if_neg (by decide)]
  split at h
  · next heq =>
    cases h
    rw [if_pos heq]
  next hne =>
  rw [if_neg hne]
  split at h
  · cases h
    rfl
  split at h
  · rw [Exec.ok_bind] at h
    dsimp only at h
    split at h <;> cases h <;> rfl
  · cases h
    rfl

/-- The fields one after the other, when all are accepted. The induction is on the fields. -/
theorem storeFields_host (hacc : Accepted fs) (h : self.storeFields fs = .ok (t, self')) :
    self'.reqHost = hostAfter fs self.reqHost := by
  induction fs generalizing self with
  | nil =>
    cases h
    rfl
  | cons f fs ih =>
    obtain ⟨t₁, self₁, hstore, -, hiff⟩ := self.storeHeader_spec (strToLower f.name) (f.data fs)
    rw [HTTPRequest.storeFields, hstore, Exec.ok_bind] at h
    have hok : t₁.isAnError = false := hiff.2 hacc.1
    simp only [hok, Bool.false_eq_true, if_false] at h
    rw [ih hacc.2 h, storeHeader_host hstore]
    rfl

theorem hostAfter_none (h : ∀ f ∈ fs, ¬ IsHost f) (host : Option (List Byte)) :
    hostAfter fs host = host := by
  induction fs with
  | nil => rfl
  | cons f fs ih =>
    rw [List.forall_mem_cons] at h
    rw [hostAfter, if_neg h.1, ih h.2]

/-- The last `Host` says what is stored. -/
theorem hostAfter_last {f : Field} {post : List Field} (hf : IsHost f)
    (hpost : ∀ g ∈ post, ¬ IsHost g) (pre : List Field) (host : Option (List Byte)) :
    hostAfter (pre ++ f :: post) host = some (f.data post) := by
  induction pre generalizing host with
  | nil => rw [List.nil_append, hostAfter, if_pos hf, hostAfter_none hpost]
  | cons g pre ih => exact ih _

/-- There is a last `Host`, or there is none. -/
theorem exists_last_host (fs : List Field) : (∀ f ∈ fs, ¬ IsHost f) ∨
    ∃ pre f post, fs = pre ++ f :: post ∧ IsHost f ∧ ∀ g ∈ post, ¬ IsHost g := by
  induction fs with
  | nil => exact .inl nofun
  | cons f fs ih =>
    rcases ih with hnone | ⟨pre, g, post, rfl, hg, hpost⟩
    · by_cases hf : IsHost f
      · exact .inr ⟨[], f, fs, rfl, hf, hnone⟩
      · exact .inl (List.forall_mem_cons.2 ⟨hf, hnone⟩)
    · exact .inr ⟨f :: pre, g, post, rfl, hg, hpost⟩

/-- A value is one line exactly if there is a byte behind the colon. -/
theorem lf_mem_data (f : Field) (fs : List Field) : lf ∈ f.data fs ↔ f.raw = [] := by
  have hplain := f.raw_plain
  unfold Field.data
  cases hraw : f.raw with
  | nil => exact iff_of_true List.mem_cons_self rfl
  | cons b value =>
    rw [hraw] at hplain
    exact iff_of_false (fun h => hplain.lf_not_mem (List.mem_cons_of_mem b h))
      (List.cons_ne_nil b value)

/-- What is printed for `req_host` is one line unless the last `Host` is empty. -/
theorem lf_mem_shown (fs : List Field) : lf ∈ shown (hostAfter fs none) ↔ EmptyHost fs := by
  rcases exists_last_host fs with hnone | ⟨pre, f, post, rfl, hf, hpost⟩
  · rw [hostAfter_none hnone]
    refine iff_of_false (by decide) ?_
    rintro ⟨pre, f, post, rfl, hf, -⟩
    exact hnone f (List.mem_append_right _ List.mem_cons_self) hf
  · rw [hostAfter_last hf hpost]
    change lf ∈ f.data post ↔ _
    rw [lf_mem_data f]
    constructor
    · exact fun hraw => ⟨pre, f, post, rfl, hf, hraw, hpost⟩
    · rintro ⟨pre', f', post', heq, hf', hraw, hpost'⟩
      have hdata := hostAfter_last hf' hpost' pre' none
      rw [← heq, hostAfter_last hf hpost] at hdata
      rw [← lf_mem_data f post, Option.some.inj hdata, lf_mem_data f']
      exact hraw

/-- What has been stored of a request that has been received. -/
theorem reqHost_of_parses {q : Head} {r : HTTPRequest} (hr : Parses q r)
    (hacc : Accepted q.fields) : r.reqHost = hostAfter q.fields none := by
  obtain ⟨t, hread⟩ := hr.parsed
  rw [readHeaders_text] at hread
  exact storeFields_host hacc hread

end Host

/-! ## One record -/

section Record

variable {stamp stamp' ip : List Byte} {pid : Nat} {q : Head} {r : HTTPRequest}

/-- The digits of a process id. -/
theorem lf_not_mem_pid (pid : Nat) : lf ∉ decimal pid := fun h =>
  absurd (decimal_range h).1 (by decide)

theorem count_requestRecord (hstamp : lf ∉ stamp) (hip : lf ∉ ip) (hr : Parses q r)
    (hacc : Accepted q.fields) : (requestRecord stamp ip pid r).count lf =
      (shown (hostAfter q.fields none)).count lf + 1 := by
  have h₁ : (bytes "[").count lf = 0 := by decide
  have h₂ : (bytes "] - ").count lf = 0 := by decide
  have h₃ : (bytes " to: ").count lf = 0 := by decide
  have h₄ : (bytes " - worker: ").count lf = 0 := by decide
  have h₅ : (bytes " - ").count lf = 0 := by decide
  have h₆ : (bytes " ").count lf = 0 := by decide
  have h₇ : (bytes "\n").count lf = 1 := by decide
  have htype : (shown r.reqType).count lf = 0 := by
    rw [hr.reqType]
    exact List.count_eq_zero.2 q.first_plain.lf_not_mem
  have hresource : (shown r.reqResource).count lf = 0 := by
    rw [hr.reqResource]
    exact List.count_eq_zero.2 q.second_plain.lf_not_mem
  have hprotocol : (shown r.reqProtocol).count lf = 0 := by
    rw [hr.reqProtocol]
    exact List.count_eq_zero.2 q.third_plain.lf_not_mem
  unfold requestRecord
  rw [reqHost_of_parses hr hacc]
  simp only [List.count_append, h₁, h₂, h₃, h₄, h₅, h₆, h₇, htype, hresource, hprotocol,
    List.count_eq_zero.2 hstamp, List.count_eq_zero.2 hip,
    List.count_eq_zero.2 (lf_not_mem_pid pid)]
  omega

theorem count_responseRecord (hstamp : lf ∉ stamp) (hip : lf ∉ ip) (hr : StatusLineOf q r) :
    (responseRecord stamp ip pid r).count lf = 1 := by
  have h₁ : (bytes "[").count lf = 0 := by decide
  have h₂ : (bytes "] - ").count lf = 0 := by decide
  have h₃ : (bytes " response to Heimdall - worker: ").count lf = 0 := by decide
  have h₄ : (bytes ": ").count lf = 0 := by decide
  have h₅ : (bytes " ").count lf = 0 := by decide
  have h₆ : (bytes "\n").count lf = 1 := by decide
  have hprotocol : (shown r.reqProtocol).count lf = 0 := by
    rw [hr.reqProtocol]
    exact List.count_eq_zero.2 q.first_plain.lf_not_mem
  have hcode : (shown r.respCode).count lf = 0 := by
    rw [hr.respCode]
    exact List.count_eq_zero.2 q.second_plain.lf_not_mem
  have hmsg : (shown r.respMsg).count lf = 0 := by
    rw [hr.respMsg]
    exact List.count_eq_zero.2 q.third_plain.lf_not_mem
  unfold responseRecord
  simp only [List.count_append, h₁, h₂, h₃, h₄, h₅, h₆, hprotocol, hcode, hmsg,
    List.count_eq_zero.2 hstamp, List.count_eq_zero.2 hip,
    List.count_eq_zero.2 (lf_not_mem_pid pid)]

/-- What stands behind an empty `Host` in the block is in the record. -/
theorem stray_infix {pre post : List Field} {f : Field} (hr : Parses q r)
    (hacc : Accepted q.fields) (hfields : q.fields = pre ++ f :: post) (hf : IsHost f)
    (hraw : f.raw = []) (hpost : ∀ g ∈ post, ¬ IsHost g) :
    lf :: fieldsText post ++ [cr, lf] <:+: requestRecord stamp ip pid r := by
  have hhost : shown r.reqHost = lf :: fieldsText post ++ [cr, lf] := by
    rw [reqHost_of_parses hr hacc, hfields, hostAfter_last hf hpost]
    unfold Field.data shown
    rw [hraw]
    rfl
  unfold requestRecord
  rw [hhost]
  refine ⟨bytes "[" ++ stamp ++ bytes "] - ", bytes " to: " ++ ip ++ bytes " - worker: " ++
    decimal pid ++ bytes " - " ++ shown r.reqType ++ bytes " " ++ shown r.reqResource ++
    bytes " " ++ shown r.reqProtocol ++ bytes "\n", ?_⟩
  simp only [List.append_assoc]

end Record

/-! ## The calls of `request_work` -/

section Calls

variable {l : Logging} {h : Heap} {slot : Slot} {m : Machine} {stamp stamp' ip : List Byte}
  {request r : HTTPRequest} {q : Head} {a : Response}

/-- Records are written, and the files are there. -/
structure Logging.On (l : Logging) : Prop where
  numeric : Log.Numeric l.config .writeEnable
  one : Log.value l.config .writeEnable = 1
  reqLog : l.reqLog = true
  respLog : l.respLog = true

theorem Logging.On.record (hon : l.On) (line : List Byte) :
    Log.r l.config l.reports true line = .ok ([], line) := by
  unfold Log.r
  rw [Log.number_numeric hon.numeric, Exec.ok_bind]
  simp only [hon.one, if_true]

/-- The log does not change what a request meets. -/
theorem requestWork_of_logged {p : Option Reply × List Byte} {written : Written}
    (heq : requestWorkLogged l h slot m stamp stamp' request = .ok (p, written)) :
    requestWork h slot m request = .ok p := by
  unfold requestWorkLogged at heq
  unfold requestWork
  by_cases hbroken : slot.status = RoundRobin.serverStatusBroken
  · rw [if_pos hbroken] at heq ⊢
    cases heq
    rfl
  rw [if_neg hbroken] at heq ⊢
  cases hip : slot.ip with
  | none =>
    simp only [hip] at heq ⊢
    cases heq
    rfl
  | some ip =>
    simp only [hip] at heq ⊢
    by_cases hconnects : m.connects = true
    · rw [if_pos hconnects] at heq ⊢
      obtain ⟨⟨printed, requests⟩, -, heq⟩ := Exec.bind_ok heq
      cases hmessage : (makeSimpleRequest (request.setHost ip)).2 with
      | none =>
        simp only [hmessage] at heq ⊢
        cases heq
        rfl
      | some message =>
        simp only [hmessage] at heq ⊢
        obtain ⟨⟨s, sent⟩, hsend, heq⟩ := Exec.bind_ok heq
        rw [hsend, Exec.ok_bind]
        cases s with
        | writing | killed =>
          cases heq
          rfl
        | returned t =>
          simp only at heq ⊢
          by_cases herr : t.isAnError = true
          · rw [if_pos herr] at heq ⊢
            cases heq
            rfl
          rw [if_neg herr] at heq ⊢
          obtain ⟨⟨t', response, rest⟩, hreceive, heq⟩ := Exec.bind_ok heq
          unfold receiveReply
          rw [hreceive, Exec.ok_bind]
          simp only at heq ⊢
          by_cases herr' : t'.isAnError = true
          · rw [if_pos herr'] at heq ⊢
            obtain ⟨header, hheader, heq⟩ := Exec.bind_ok heq
            cases heq
            rw [hheader]
            rfl
          rw [if_neg herr'] at heq ⊢
          obtain ⟨⟨printed', responses⟩, -, heq⟩ := Exec.bind_ok heq
          obtain ⟨header, hheader, heq⟩ := Exec.bind_ok heq
          cases heq
          rw [hheader]
          rfl
    · rw [if_neg hconnects] at heq ⊢
      cases heq
      rfl

variable (stamp stamp') in
/-- One request with its answer: what is written. -/
theorem requestWorkLogged_serves (hon : l.On)
    (hready : slot.status ≠ RoundRobin.serverStatusBroken) (hip : slot.ip = some ip)
    (hnul : 0 ∉ ip) (hr : Parses q r) (hs : Serves h m (forwarded q ip) a) :
    ∃ response, StatusLineOf a.head response ∧
      requestWorkLogged l h slot m stamp stamp' r =
        .ok ((some a.complete.reply, forwarded q ip),
          ⟨requestRecord stamp ip l.pid r, responseRecord stamp' ip l.pid response⟩) := by
  obtain ⟨t, response, hreceive, hheader, hparts, hiff, hlen⟩ :=
    receiveHttpResponseHeader_text h m.reset hs.answers.keeps (a.body ++ a.extra)
  have hok : ¬ t.isAnError = true := by
    rw [hiff.2 hs.read.accepted]
    decide
  have hstr : strlen (forwarded q ip) = (forwarded q ip).length := strlen_eq (forwarded_nul hnul)
  obtain ⟨t', herr, hsend⟩ := sendHttp_takesAll (hstr.symm ▸ hs.short) (strlen_le (forwarded q ip))
    (hstr.symm ▸ hs.writes) (hstr.symm ▸ hs.takes)
  rw [hstr, List.take_length] at hsend
  rw [hs.answers.reset_eq] at hreceive
  refine ⟨response, hparts, ?_⟩
  unfold requestWorkLogged
  rw [if_neg hready]
  simp only [hip, hs.connects, if_true, hon.reqLog, hon.respLog, hon.record, Exec.ok_bind,
    makeSimpleRequest_parses hr, hstr, hsend, herr, Bool.false_eq_true, if_false,
    hs.answers.stream_eq, hs.answers.reset_eq, Response.stream, hreceive, if_neg hok, hheader,
    hlen hs.read.accepted, hs.read.length_eq]
  rfl

end Calls

/-! ## All the requests of a connection -/

section All

variable {broken : Bool} {heap heap' : Nat → Heap} {slot : Slot} {ip : List Byte}
  {qs : List Request} {machine : Nat → Machine} {response : Nat → Response} {l : Logging}
  {stamp stamp' : Nat → List Byte}

/-- The line feeds of texts one after the other, in any order. -/
theorem count_flatMap {f : Nat → List Byte} {c : Nat → Nat} {n : Nat}
    (hf : ∀ k < n, (f k).count lf = c k) {order : List Nat} (horder : order.Perm (List.range n)) :
    (order.flatMap f).count lf = ((List.range n).map c).sum := by
  rw [List.count_flatMap, (horder.map _).sum_nat]
  exact congrArg List.sum (List.map_congr_left fun k hk => hf k (List.mem_range.1 hk))

theorem length_le_sum (c : Nat → Nat) (ks : List Nat) :
    ks.length ≤ (ks.map fun k => c k + 1).sum := by
  induction ks with
  | nil => exact Nat.le_refl 0
  | cons k ks ih =>
    rw [List.map_cons, List.sum_cons, List.length_cons]
    omega

theorem sum_eq_length_iff (c : Nat → Nat) (ks : List Nat) :
    (ks.map fun k => c k + 1).sum = ks.length ↔ ∀ k ∈ ks, c k = 0 := by
  induction ks with
  | nil => exact iff_of_true rfl nofun
  | cons k ks ih =>
    have hle := length_le_sum c ks
    rw [List.forall_mem_cons, ← ih, List.map_cons, List.sum_cons, List.length_cons]
    omega

/-- **The lines of the log.** Where records are written, the requests of a connection without
bodies, to a server that is not marked as BROKEN and sends responses whose lengths are read, are
worked on as without the log. In whatever order the records are written, each with a time without a
line feed, the log of the responses gets one line for each request; and the log of the requests does
exactly if no request has a last `Host` with nothing behind its colon. The record of such a request
has in it all that stands behind that `Host` in the header block, beginning on a new line. -/
theorem recorded_lines (hbody : ∀ q ∈ qs, q.body = []) (hcounted : ∀ q ∈ qs, q.Counted)
    (hkeeps : ∀ k q, qs[k]? = some q → (heap k).Keeps q.head.text.length)
    (hready : slot.status ≠ RoundRobin.serverStatusBroken) (hip : slot.ip = some ip)
    (hnul : 0 ∉ ip) (hlf : lf ∉ ip)
    (hserves : ∀ k q, qs[k]? = some q →
      Serves (heap' k) (machine k) (forwarded q.head ip) (response k))
    (hon : l.On) (hstamp : ∀ k, lf ∉ stamp k ∧ lf ∉ stamp' k) :
    ∃ (rs : List HTTPRequest) (written : Nat → Written),
      receiveRequests broken heap qs.length (stream qs) = .ok (some (rs, [])) ∧
      rs.length = qs.length ∧
      (∀ (k : Nat) (q : Request) (r : HTTPRequest), qs[k]? = some q → rs[k]? = some r →
        requestWorkLogged l (heap' k) slot (machine k) (stamp k) (stamp' k) r =
          .ok ((some (response k).complete.reply, forwarded q.head ip), written k)) ∧
      (∀ order : List Nat, order.Perm (List.range qs.length) →
        (order.flatMap fun k => (written k).responses).count lf = qs.length ∧
        ((order.flatMap fun k => (written k).requests).count lf = qs.length ↔
          ∀ q ∈ qs, ¬ EmptyHost q.head.fields)) ∧
      ∀ (k : Nat) (q : Request) (pre : List Field) (f : Field) (post : List Field),
        qs[k]? = some q → q.head.fields = pre ++ f :: post → IsHost f → f.raw = [] →
        (∀ g ∈ post, ¬ IsHost g) →
        lf :: fieldsText post ++ [cr, lf] <:+: (written k).requests := by
  have hframed : Framed broken heap qs := (framed_of_empty hbody).2 ⟨hcounted, hkeeps⟩
  obtain ⟨rs, hcalls, hrs⟩ := hframed
  have hlen : rs.length = qs.length := hrs.length_eq.symm
  have hparses (k : Nat) (hk : k < qs.length) : Parses qs[k].head rs[k] := hrs.get hk (hlen ▸ hk)
  have hacc (k : Nat) (hk : k < qs.length) : Accepted qs[k].head.fields :=
    qs[k].counted_iff.2 (hcounted _ (List.getElem_mem hk))
  have hone (k : Nat) : ∃ w : Written, ∀ hk : k < qs.length,
      requestWorkLogged l (heap' k) slot (machine k) (stamp k) (stamp' k) rs[k] =
        .ok ((some (response k).complete.reply, forwarded qs[k].head ip), w) ∧
      w.requests = requestRecord (stamp k) ip l.pid rs[k] ∧ w.responses.count lf = 1 := by
    by_cases hk : k < qs.length
    · obtain ⟨response, hparts, heq⟩ := requestWorkLogged_serves (stamp k) (stamp' k) hon hready
        hip hnul (hparses k hk) (hserves k _ (List.getElem?_eq_getElem hk))
      exact ⟨_, fun _ => ⟨heq, rfl, count_responseRecord (hstamp k).2 hlf hparts⟩⟩
    · exact ⟨⟨[], []⟩, fun h => absurd h hk⟩
  choose written hwritten using hone
  refine ⟨rs, written, hcalls, hlen, ?_, ?_, ?_⟩
  · intro k q r hq hr
    obtain ⟨hk, rfl⟩ := List.getElem?_eq_some_iff.1 hq
    obtain ⟨hk', rfl⟩ := List.getElem?_eq_some_iff.1 hr
    exact (hwritten k hk).1
  · intro order horder
    have hresponses := count_flatMap (fun k hk => (hwritten k hk).2.2) horder
    let host : Nat → Nat := fun k =>
      (shown (hostAfter ((qs[k]?.map fun q => q.head.fields).getD []) none)).count lf
    have hrequests := count_flatMap (f := fun k => (written k).requests) (c := fun k => host k + 1)
      (fun k hk => by
        rw [(hwritten k hk).2.1, count_requestRecord (hstamp k).1 hlf (hparses k hk) (hacc k hk)]
        simp only [host, List.getElem?_eq_getElem hk, Option.map_some, Option.getD_some]) horder
    refine ⟨?_, ?_⟩
    · rw [hresponses]
      simp
    · have hsum := sum_eq_length_iff host (List.range qs.length)
      rw [List.length_range] at hsum
      rw [hrequests, hsum]
      constructor
      · intro h q hq
        obtain ⟨k, hk, rfl⟩ := List.getElem_of_mem hq
        have hzero := h k (List.mem_range.2 hk)
        simp only [host, List.getElem?_eq_getElem hk, Option.map_some, Option.getD_some] at hzero
        rw [← lf_mem_shown]
        exact List.count_eq_zero.1 hzero
      · intro h k hk
        have hk' := List.mem_range.1 hk
        simp only [host, List.getElem?_eq_getElem hk', Option.map_some, Option.getD_some]
        rw [List.count_eq_zero, lf_mem_shown]
        exact h _ (List.getElem_mem hk')
  · intro k q pre f post hq hfields hf hraw hpost
    obtain ⟨hk, rfl⟩ := List.getElem?_eq_some_iff.1 hq
    rw [(hwritten k hk).2.1]
    exact stray_infix (hparses k hk) (hacc k hk) hfields hf hraw hpost

/-- A `Host` with nothing behind its colon, and a line that looks like a record. -/
def forgedGet : Request where
  head :=
    { simpleGet.head with
      fields :=
        [{ name := bytes "Host"
           raw := []
           name_plain := by decide
           name_colon := by decide
           raw_plain := Plain.nil },
          { name := bytes "[today] - a to"
            raw := bytes " b - worker: 1 - GET /c HTTP/1.1"
            name_plain := by decide
            name_colon := by decide
            raw_plain := by decide }] }
  body := []
  announced f hf hlen := by
    rcases List.mem_pair.1 hf with rfl | rfl
    · exact absurd hlen (by decide)
    · exact absurd hlen (by decide)
  absent _ := rfl

def onLogging : Logging where
  config := Configuration.Config.unassigned.assign .writeEnable (bytes "1")
  reports := 0
  reqLog := true
  respLog := true
  pid := 7

theorem onLogging_on : onLogging.On where
  numeric := ⟨bytes "1", rfl, by decide⟩
  one := by decide
  reqLog := rfl
  respLog := rfl

/-- One request, and a line in the log that nobody has logged. -/
theorem recorded_lines_forged : ∃ written, ∃ r,
    requestWorkLogged onLogging steadyHeap okSlot okMachine [] [] r =
      .ok ((some okResponse.complete.reply, forwarded forgedGet.head (bytes "10.0.0.1")), written) ∧
    written.requests.count lf ≠ 1 ∧ written.responses.count lf = 1 ∧
    bytes "\n[today] - a to: b - worker: 1 - GET /c HTTP/1.1\r\n\r\n" <:+: written.requests := by
  have hone : ∀ (k : Nat) (q : Request), [forgedGet][k]? = some q → q = forgedGet := by
    intro k q hq
    simpa using List.mem_of_getElem? hq
  have hbody : ∀ q ∈ [forgedGet], q.body = [] := by
    intro q hq
    obtain rfl := List.mem_singleton.1 hq
    rfl
  have hcounted : ∀ q ∈ [forgedGet], q.Counted := by
    intro q hq f hf hlen
    obtain rfl := List.mem_singleton.1 hq
    rcases List.mem_pair.1 hf with rfl | rfl
    · exact absurd hlen (by decide)
    · exact absurd hlen (by decide)
  obtain ⟨rs, written, -, hlen, hwork, hlines, hstray⟩ := @recorded_lines false
    (fun _ => steadyHeap) (fun _ => steadyHeap) okSlot (bytes "10.0.0.1") [forgedGet]
    (fun _ => okMachine) (fun _ => okResponse) onLogging (fun _ => []) (fun _ => []) hbody hcounted
    (fun _ _ _ => steadyHeap_keeps _) (by decide) rfl (by decide) (by decide)
    (fun k q hq => hone k q hq ▸ okMachine_serves) onLogging_on
    (fun _ => ⟨List.not_mem_nil, List.not_mem_nil⟩)
  obtain ⟨r, rfl⟩ := List.length_eq_one_iff.1 hlen
  obtain ⟨hresponses, hrequests⟩ := hlines [0] (List.Perm.refl _)
  rw [List.flatMap_singleton] at hresponses hrequests
  have hempty : EmptyHost forgedGet.head.fields :=
    ⟨[], _, _, rfl, by decide, rfl, fun g hg => by
      obtain rfl := List.mem_singleton.1 hg
      decide⟩
  refine ⟨written 0, r, hwork 0 forgedGet r rfl rfl, ?_, hresponses, ?_⟩
  · exact fun h => hrequests.1 h forgedGet (List.mem_singleton_self _) hempty
  · refine hstray 0 forgedGet [] _ _ rfl rfl (by decide) rfl fun g hg => ?_
    obtain rfl := List.mem_singleton.1 hg
    decide

end All

end Heimdall.Worker
