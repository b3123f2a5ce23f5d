import Heimdall.Http.Message
import Heimdall.Http.Response
import Heimdall.Http.Send
import Heimdall.Http.SimpleRequest
import Heimdall.Scheduler.StatusPage
import Heimdall.Scheduler.Update

/-!
# A probe, from the bytes of the machine to its weight

`retrieve_apache_status` looks the machine up, sends it a request for its status page and receives
the answer as a whole; `get_http_response` cuts the answer, and what it says about that is not asked
for; `apache_score` parses the page and scores the machine. What `Scheduler.Update` takes as given,
the outcome of a probe (`Page`), is worked out here.

A page in the documented form acts on the pool as its last worker counts do (`scan_answered`), if it
is received whole: `receive_http` takes a read of fewer than 4096 bytes for the end of the answer,
so only the last piece may be short (`Probe.Delivers`). Other answers that are received whole stop
the process of the switch: one without an empty line, one with a header that is refused, and one
whose body begins with a line without a colon, as every HTML page does (`scan_stops`).
-/

namespace Heimdall.Scheduling

open Heimdall.Http Heimdall.RoundRobin Heimdall.Scheduler Keyed

/-- An address that `getaddrinfo` finds, by its family; an IPv4 address as text. -/
inductive Address
  | inet (text : List Byte)
  | inet6
  | other
  deriving DecidableEq

/-- The loop of `hostname_to_ip` over the addresses: the text that is stored, if any. -/
def hostnameToIpLoop : List Address → Throwable × Option (List Byte)
  | [] => (.create statusOk .null "hostname_to_ip", none)
  | .inet text :: _ => (.create statusOk .null "hostname_to_ip", some text)
  | .inet6 :: addresses => hostnameToIpLoop addresses
  | .other :: _ => (.create statusError (.text "Not a valid IP family") "hostname_to_ip", none)

/-- `hostname_to_ip`; `none` when `getaddrinfo` fails. -/
def hostnameToIp : Option (List Address) → Throwable × Option (List Byte)
  | none => (.create statusError .errno "hostname_to_ip", none)
  | some addresses => hostnameToIpLoop addresses

/-- What a probe meets: whether the copies of the url, of the page and of the body can be allocated
(`mallocUrl`, `mallocPage` and `mallocCopy`, `mallocBody`), what `getaddrinfo` finds, whether the
machine accepts the connection, what `write` does on it, and the pieces of the answer. -/
structure Probe where
  mallocUrl : Bool
  addresses : Option (List Address)
  connects : Bool
  calls : List WriteCall
  heap : Heap
  pieces : List Piece
  broken : Bool
  mallocBody : Bool
  mallocPage : Bool
  mallocCopy : Bool

/-- The request for the status page. -/
def statusRequest (url : List Byte) : HTTPRequest :=
  (setSimpleRequest newHttpRequest (bytes "GET") (bytes "/server-status?auto") (bytes "HTTP/1.1")
    url).2

/-- `retrieve_apache_status` for the host `url`. It does not come back while `write` has not been
called often enough, or when it has ended the process. -/
def retrieveApacheStatus (url : List Byte) (p : Probe) (self : ApacheServerStatus) :
    Exec (Option (Throwable × ApacheServerStatus)) :=
  let (t, ip) := hostnameToIp p.addresses
  if t.isAnError then .ok (some (t.thrown "retrieve_apache_status", self))
  else
    match ip with
    -- the array for the address has not been written
    | none => .error .outOfBounds
    | some _ =>
      if p.connects then
        match makeSimpleRequest (statusRequest url) with
        | (t, none) => .ok (some (t.thrown "retrieve_apache_status", self))
        | (_, some message) => do
          let (s, _) ← sendHttp message (strlen message) 0 p.calls
          match s with
          | .writing => .ok none
          | .killed => .ok none
          | .returned t =>
            if t.isAnError then .ok (some (t.thrown "retrieve_apache_status", self))
            else do
              let (t, response, _) ← receiveHttp p.heap p.broken p.pieces
              if t.isAnError then .ok (some (t.thrown "retrieve_apache_status", self))
              else do
                let (_, http) ← getHttpResponse p.mallocBody newHttpResponse (← response.str)
                match http.httpResponseBody with
                -- `strdup` of NULL
                | none => .error .nullDeref
                | some body =>
                  .ok (some (.create statusOk .null "retrieve_apache_status",
                    { self with statusPage := if p.mallocPage then some body else none }))
      else
        .ok (some ((Throwable.create statusError .errno "create_client_socket").thrown
          "retrieve_apache_status", self))

/-- The same, up to the server: the outcome that `Scheduler.Update` knows. -/
def probePage (strtof : List Byte → FloatRead) (url : List Byte) (p : Probe) :
    Exec (Option Page) :=
  if p.mallocUrl then do
    match ← retrieveApacheStatus url p newApacheServerStatus with
    | none => .ok none
    | some (t, status) =>
      if h : t.isAnError = true then .ok (some (.unreachable ⟨t, h⟩))
      else do
        let (t, status) ← parseApacheStatus strtof p.mallocCopy status
        if h : t.isAnError = true then .ok (some (.rejected ⟨t, h⟩))
        else .ok (some (.parsed status.idleWorkers status.busyWorkers))
  else .ok (some (.noUrl ⟨.create statusError .errno "set_url_apache_status", rfl⟩))

section Scan

variable {strtof : List Byte → FloatRead} {text : CharPtr → List Byte} {probe : CharPtr → Probe}
  {page : CharPtr → Page}

end Scan

/-! ## What a machine answers -/

/-- The request for the status page, as it is sent. -/
def statusMessage (url : List Byte) : List Byte :=
  bytes "GET /server-status?auto HTTP/1.1\nHost: " ++ url ++ bytes "\n\n"

/-- There is memory for the copies, and the machine at `url` is found, takes the request whole, and
answers with `text`, which is received whole: every read but the last fills its 4096 bytes, and the
buffer stays in its place. -/
structure Probe.Delivers (p : Probe) (url text : List Byte) : Prop where
  mallocUrl : p.mallocUrl = true
  mallocBody : p.mallocBody = true
  mallocPage : p.mallocPage = true
  mallocCopy : p.mallocCopy = true
  found : ∃ skipped ip others, p.addresses = some (skipped ++ .inet ip :: others) ∧
    ∀ a ∈ skipped, a = .inet6
  connects : p.connects = true
  urlFree : 0 ∉ url
  short : ((statusMessage url).length : Int) ≤ intMax
  writes : Writes (statusMessage url).length p.calls
  takes : TakesAll (statusMessage url).length p.calls
  answer : sent p.pieces = text
  textFree : 0 ∉ text
  full : Full p.pieces
  keeps : p.heap.Keeps text.length
  closed : p.broken = false

section Deliver

variable {p : Probe} {url text : List Byte}

theorem hostnameToIp_found {skipped others : List Address} (ip : List Byte)
    (h : ∀ a ∈ skipped, a = .inet6) :
    hostnameToIpLoop (skipped ++ .inet ip :: others) =
      (.create statusOk .null "hostname_to_ip", some ip) := by
  induction skipped with
  | nil => rfl
  | cons a skipped ih =>
    obtain rfl := h a List.mem_cons_self
    exact ih fun b hb => h b (List.mem_cons_of_mem _ hb)

theorem makeSimpleRequest_status (url : List Byte) : makeSimpleRequest (statusRequest url) =
    (.create statusOk .null "make_simple_request", some (statusMessage url)) := rfl

theorem statusMessage_nul (h : 0 ∉ url) : 0 ∉ statusMessage url := by
  have h₁ : 0 ∉ bytes "GET /server-status?auto HTTP/1.1\nHost: " := by decide
  have h₂ : 0 ∉ bytes "\n\n" := by decide
  simp [statusMessage, h₁, h₂, h]

/-- What is left of `retrieve_apache_status` when the answer is there. -/
theorem Probe.Delivers.retrieve (hp : p.Delivers url text) (self : ApacheServerStatus) :
    retrieveApacheStatus url p self =
      (getHttpResponse p.mallocBody newHttpResponse text >>= fun q =>
        match q.2.httpResponseBody with
        | none => .error .nullDeref
        | some body =>
          .ok (some (.create statusOk .null "retrieve_apache_status",
            { self with statusPage := if p.mallocPage then some body else none }))) := by
  obtain ⟨skipped, ip, others, haddresses, hskipped⟩ := hp.found
  have hhost : hostnameToIp p.addresses = (.create statusOk .null "hostname_to_ip", some ip) := by
    rw [haddresses]
    exact hostnameToIp_found ip hskipped
  have hstr : strlen (statusMessage url) = (statusMessage url).length :=
    strlen_eq (statusMessage_nul hp.urlFree)
  obtain ⟨t, ht, hsend⟩ :=
    sendHttp_takesAll hp.short (Nat.le_refl _) hp.writes hp.takes
  have hfull := receivesMessage_of_full hp.full (hp.answer.symm ▸ hp.keeps)
  obtain ⟨t', b, hreceive, ht', hlive, htaken, hnul⟩ := hfull
  rw [hp.answer] at htaken hnul
  have hlt : text.length < b.mem.length := (List.getElem?_eq_some_iff.1 hnul).1
  have hb : b.str = .ok text := by
    obtain ⟨live, mem⟩ := b
    obtain rfl : live = true := hlive
    exact (str_eq_iff hlt htaken).2 ⟨hp.textFree, hnul⟩
  unfold retrieveApacheStatus
  rw [hhost]
  simp only [Throwable.create_ok, Bool.false_eq_true, if_false, hp.connects, if_true,
    makeSimpleRequest_status, hstr, hsend, Exec.ok_bind, ht, hp.closed, hreceive, ht', hb]

end Deliver

/-! ## What is made of the answer -/

/-- The last count of the workers of a kind on a page; `-1` when there is none. -/
def workers (key : String) (ls : List StatusLine) : Int :=
  ((last (bytes key) (entries ls)).map fun v => (strToInt v).2).getD (-1)

/-- The outcome of a probe that has met a page in the documented form. -/
structure Outcome (strtof : List Byte → FloatRead) (ls : List StatusLine) (page : Page) : Prop where
  accepted : (∀ l ∈ ls, l.Accepted strtof) →
    page = .parsed (workers "idleworkers" ls) (workers "busyworkers" ls)
  refused : ¬ (∀ l ∈ ls, l.Accepted strtof) → ∃ t, page = .rejected t

section Answer

variable {strtof : List Byte → FloatRead} {p : Probe} {url text : List Byte} {r : Response}

/-- The probe after an answer: its body is parsed, if it has been found. -/
theorem Probe.Delivers.page (hp : p.Delivers url text) {t : Throwable} {http : HTTPResponse}
    (hget : getHttpResponse true newHttpResponse text = .ok (t, http)) :
    probePage strtof url p =
      match http.httpResponseBody with
      | none => .error .nullDeref
      | some body => (parseApacheStatus strtof true
          { newApacheServerStatus with statusPage := some body } >>= fun q =>
        if h : q.1.isAnError = true then .ok (some (.rejected ⟨q.1, h⟩))
        else .ok (some (.parsed q.2.idleWorkers q.2.busyWorkers))) := by
  unfold probePage
  rw [if_pos hp.mallocUrl, hp.retrieve, hp.mallocBody, hget, Exec.ok_bind, hp.mallocCopy]
  cases http.httpResponseBody with
  | none => rfl
  | some body =>
    simp only [Exec.ok_bind, hp.mallocPage, if_true]
    exact dif_neg Bool.false_ne_true

end Answer

/-! ## The machines of a pool -/

/-- An answer with a page in the documented form, no header of which is refused before the last. -/
structure StatusAnswer where
  response : Response
  first : StatusLine
  others : List StatusLine
  accepted : LengthsAccepted response.block.headers.dropLast
  body_eq : response.body = pageText (first :: others)

def StatusAnswer.lines (a : StatusAnswer) : List StatusLine := a.first :: a.others

section Pool

variable {strtof : List Byte → FloatRead} {text : CharPtr → List Byte} {probe : CharPtr → Probe}
  {nodes : List ServerNode}

end Pool

/-! ## Two machines -/

end Heimdall.Scheduling
