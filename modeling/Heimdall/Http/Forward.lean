import Mathlib.Data.List.TakeWhile
import Heimdall.Http.Head

/-!
# The request that is forwarded

`request_work` replaces the host of a request by that of the server, and `make_simple_request`
writes the request out again: method, resource and protocol on the first line, and a `Host` line.
What the client sent otherwise is not forwarded.

The three parts are cut out of the buffer of `read_headers` when it meets the first line feed, all
of them before it (`getRequest_cut`), and nothing that is parsed later changes them. So none of them
contains a line feed, whatever the client has sent (`forwarded_lines`).
-/

namespace Heimdall.Http

/-- `request_work` sets the host of a request to that of the server with this ip. -/
def HTTPRequest.setHost (self : HTTPRequest) (ip : List Byte) : HTTPRequest :=
  { self with reqHost := some (ip ++ bytes ":80") }

/-- The error for a part that is NULL. -/
def notSet (param : String) : Throwable :=
  .create statusError
    (.text ("Trying to create a simple http request with no param " ++ param ++ " set"))
    "make_simple_request"

def makeSimpleRequest (self : HTTPRequest) : Throwable × Option (List Byte) :=
  match self.reqType with
  | none => (notSet "req_type", none)
  | some reqType =>
    match self.reqProtocol with
    | none => (notSet "req_protocol", none)
    | some reqProtocol =>
      match self.reqResource with
      | none => (notSet "req_resource", none)
      | some reqResource =>
        match self.reqHost with
        | none => (notSet "req_host", none)
        | some reqHost =>
          (.create statusOk .null "make_simple_request",
            some (reqType ++ bytes " " ++ reqResource ++ bytes " " ++ reqProtocol ++
              bytes "\nHost: " ++ reqHost ++ bytes "\n\n"))

/-! ## What is cut out of the buffer -/

/-- No line feed stands before `m`. -/
def NoLfBelow (buffer : List Byte) (m : Nat) : Prop := ∀ j, j < m → buffer[j]? ≠ some lf

/-- The parts of the first line that have been stored contain no line feed. -/
structure HTTPRequest.LfFree (self : HTTPRequest) : Prop where
  reqType : ∀ v, self.reqType = some v → lf ∉ v
  reqResource : ∀ v, self.reqResource = some v → lf ∉ v
  reqProtocol : ∀ v, self.reqProtocol = some v → lf ∉ v

section Cut

variable {buffer v : List Byte} {i k m p : Nat}

/-- A NUL that is stored brings no line feed. -/
theorem NoLfBelow.set (h : NoLfBelow buffer m) (i : Nat) : NoLfBelow (buffer.set i 0) m := by
  intro j hj
  rw [List.getElem?_set]
  split
  · split
    · intro h0
      exact absurd (Option.some.inj h0) (by decide)
    · exact (Option.some_ne_none lf).symm
  · exact h j hj

/-- A string that ends before the first line feed does not contain one. -/
theorem cstr_noLf (h : NoLfBelow buffer k) (hv : cstr buffer p = .ok v) (hp : p ≤ k)
    (hk : buffer[k]? = some 0) : lf ∉ v := by
  intro hlf
  have hv' : v = (buffer.drop p).takeWhile (· != 0) := by
    unfold cstr at hv
    split at hv
    · cases hv
      rfl
    · cases hv
  obtain ⟨rest, hrest⟩ := List.takeWhile_prefix (l := buffer.drop p) (· != 0)
  rw [← hv'] at hrest
  have hget : ∀ q, q < v.length → v[q]? = buffer[p + q]? := by
    intro q hq
    rw [← List.getElem?_drop, ← hrest, List.getElem?_append_left hq]
  obtain ⟨q, hq⟩ := List.getElem?_of_mem hlf
  obtain ⟨hlt, -⟩ := List.getElem?_eq_some_iff.1 hq
  have hle : k ≤ p + q := by
    refine Nat.le_of_not_lt fun h0 => ?_
    exact h (p + q) h0 ((hget q hlt).symm.trans hq)
  -- the NUL would be part of the string
  have hzero : v[k - p]? = some 0 := by
    rw [hget (k - p) (by omega), Nat.add_sub_cancel' hp]
    exact hk
  have hmem : (0 : Byte) ∈ (buffer.drop p).takeWhile (· != 0) := hv' ▸ List.mem_of_getElem? hzero
  simpa using List.mem_takeWhile_imp hmem

theorem getElem?_set_zero (h : buffer[i]? = some sp) : (buffer.set i 0)[i]? = some 0 := by
  obtain ⟨hlt, -⟩ := List.getElem?_eq_some_iff.1 h
  exact List.getElem?_set_self hlt

end Cut

/-- **The parts of the first line are cut out before the line feed** at `m + 1`: the byte before it
is a NUL by then. -/
theorem getRequest_cut {self self' : HTTPRequest} {buffer buffer' : List Byte} {m : Nat}
    {t : Throwable} (hfree : NoLfBelow buffer (m + 1)) (hend : buffer[m]? = some 0)
    (hself : self.LfFree) (h : getRequest self buffer (m + 1) = .ok (t, self', buffer')) :
    self'.LfFree := by
  unfold getRequest FirstLine.get at h
  cases hi : nextSpace buffer 0 (m + 1) with
  | none =>
    simp only [hi] at h
    cases h
    exact hself
  | some i =>
    obtain ⟨-, hilt, hisp⟩ := nextSpace_spec hi
    simp only [hi] at h
    obtain ⟨v₁, hv₁, h⟩ := Exec.bind_ok h
    have hfree₁ := hfree.set i
    have hfirst : lf ∉ v₁ := by
      refine cstr_noLf ?_ hv₁ (Nat.zero_le i) (getElem?_set_zero hisp)
      intro j hj
      exact hfree₁ j (by omega)
    have hend₁ : (buffer.set i 0)[m]? = some 0 := by
      by_cases him : i = m
      · rw [him] at hisp
        exact absurd (Option.some.inj (hend.symm.trans hisp)) (by decide)
      · rw [List.getElem?_set_ne him]
        exact hend
    cases hj : nextSpace (buffer.set i 0) (i + 1) (m + 1) with
    | none =>
      simp only [hj] at h
      cases h
      exact { hself with reqType := fun v hv => Option.some.inj hv ▸ hfirst }
    | some j =>
      obtain ⟨hij, hjlt, hjsp⟩ := nextSpace_spec hj
      simp only [hj] at h
      obtain ⟨v₂, hv₂, h⟩ := Exec.bind_ok h
      obtain ⟨v₃, hv₃, h⟩ := Exec.bind_ok h
      cases h
      have hfree₂ := hfree₁.set j
      have hne : j ≠ m := by
        rintro rfl
        exact absurd (Option.some.inj (hend₁.symm.trans hjsp)) (by decide)
      have hsecond : lf ∉ v₂ := by
        refine cstr_noLf ?_ hv₂ hij (getElem?_set_zero hjsp)
        intro q hq
        exact hfree₂ q (by omega)
      have hthird : lf ∉ v₃ := by
        refine cstr_noLf (k := m) ?_ hv₃ (by omega) ?_
        · intro q hq
          exact hfree₂ q (by omega)
        · rw [List.getElem?_set_ne hne]
          exact hend₁
      exact ⟨fun v hv => Option.some.inj hv ▸ hfirst, fun v hv => Option.some.inj hv ▸ hsecond,
        fun v hv => Option.some.inj hv ▸ hthird⟩

/-! ## The loop of `read_headers` -/

section Loop

variable {self self' : HTTPRequest}

theorem HTTPRequest.LfFree.of_same (hself : self.LfFree) (h : self'.Same self) :
    self'.LfFree := by
  obtain ⟨htype, hresource, hprotocol⟩ := hself
  rw [← h.reqType] at htype
  rw [← h.reqResource] at hresource
  rw [← h.reqProtocol] at hprotocol
  exact ⟨htype, hresource, hprotocol⟩

/-- No field line changes the parts of the first line. -/
theorem getHeader_lfFree {buffer : List Byte} {start : Nat} {l : HeaderLine}
    (hself : self.LfFree) (h : getHeader self buffer start = .ok l) : l.self.LfFree := by
  rcases getHeader_ok h with heq | ⟨header, data, t, hstore⟩
  · rw [heq]
    exact hself
  · exact hself.of_same (HTTPRequest.storeHeader_ok hstore).1

/-- Before the first line feed nothing has been parsed. -/
structure Reading.Free (r : Reading) (i : Nat) : Prop where
  lfFree : r.self.LfFree
  first : r.start = 0 → NoLfBelow r.buffer i

/-- The step lemma: a line is parsed. -/
theorem Reading.Free.line {r r' : Reading} {i : Nat} {t : Option Throwable} (hr : r.Free i)
    (hi : r.buffer[i]? = some lf) (h : r.line .rqst i = .ok (t, r')) :
    r'.self.LfFree ∧ r'.start = i + 1 := by
  unfold Reading.line at h
  split at h
  · cases h
  · rename_i hne
    obtain ⟨m, rfl⟩ := Nat.exists_eq_succ_of_ne_zero hne
    simp only [Nat.succ_sub_one] at h
    split at h
    · rename_i hstart
      obtain ⟨⟨t', self', buffer'⟩, hget, h⟩ := Exec.bind_ok h
      cases h
      refine ⟨getRequest_cut ((hr.first hstart).set m) ?_ hr.lfFree hget, rfl⟩
      obtain ⟨hlt, -⟩ := List.getElem?_eq_some_iff.1 hi
      exact List.getElem?_set_self (by omega)
    · obtain ⟨l, hl, h⟩ := Exec.bind_ok h
      have hself := getHeader_lfFree hr.lfFree hl
      split at h
      · cases h
      · cases h
        exact ⟨hself, rfl⟩

/-- **The loop** leaves the parts of the first line without a line feed. The induction is on the
passes to go. -/
theorem readHeadersLoop_lfFree {n i : Nat} {r : Reading} {t : Throwable} (hr : r.Free i)
    (h : readHeadersLoop .rqst n i r = .ok (t, self')) : self'.LfFree := by
  induction n generalizing i r with
  | zero =>
    cases h
    exact hr.lfFree
  | succ n ih =>
    unfold readHeadersLoop at h
    split at h
    · cases h
    · rename_i b hb
      split at h
      · rename_i hlf
        rw [hlf] at hb
        obtain ⟨⟨t', r'⟩, hline, h⟩ := Exec.bind_ok h
        obtain ⟨hself, hstart⟩ := hr.line hb hline
        dsimp only at h
        split at h
        · cases h
          exact hself
        · obtain ⟨last, -, h⟩ := Exec.bind_ok h
          split at h
          · cases h
            exact hself
          · refine ih ⟨hself, ?_⟩ h
            intro h0
            omega
      · rename_i hlf
        refine ih ⟨hr.lfFree, ?_⟩ h
        intro h0 j hj
        rcases Nat.lt_succ_iff_lt_or_eq.1 hj with hlt | rfl
        · exact hr.first h0 j hlt
        · rw [hb]
          intro h1
          exact hlf (Option.some.inj h1)

theorem readHeaders_lfFree {text : List Byte} {t : Throwable} (hself : self.LfFree)
    (h : readHeaders self text .rqst = .ok (t, self')) : self'.LfFree := by
  refine readHeadersLoop_lfFree ⟨hself, ?_⟩ h
  intro _ j hj
  exact absurd hj (Nat.not_lt_zero j)

end Loop

/-! ## The message -/

/-- **Nothing that a client sends adds a line to what is forwarded.** Whatever `read_headers` has
made of the text of a client, the request with the host of the server is refused, or it is written
out as a request line and a `Host` line, each without a line feed in it, and an empty line: the line
feeds of the message are the three of its format. -/
theorem forwarded_lines {text ip : List Byte} {t : Throwable} {self : HTTPRequest}
    (h : readHeaders newHttpRequest text .rqst = .ok (t, self)) (hip : lf ∉ ip) :
    (makeSimpleRequest (self.setHost ip)).1.isAnError = true ∧
        (makeSimpleRequest (self.setHost ip)).2 = none ∨
      ∃ line message, (makeSimpleRequest (self.setHost ip)).2 = some message ∧
        message = line ++ [lf] ++ (bytes "Host: " ++ ip ++ bytes ":80") ++ [lf, lf] ∧
        lf ∉ line ∧ lf ∉ bytes "Host: " ++ ip ++ bytes ":80" ∧ message.count lf = 3 := by
  have hfresh : newHttpRequest.LfFree := by
    refine ⟨?_, ?_, ?_⟩ <;> intro v hv <;> cases hv
  obtain ⟨htype, hresource, hprotocol⟩ := readHeaders_lfFree hfresh h
  have hhost : lf ∉ bytes "Host: " ++ ip ++ bytes ":80" := by
    have h0 : lf ∉ bytes "Host: " := by decide
    have h1 : lf ∉ bytes ":80" := by decide
    simp [h0, h1, hip]
  unfold makeSimpleRequest
  cases hrt : self.reqType with
  | none => exact .inl (by simp [HTTPRequest.setHost, hrt, notSet])
  | some reqType =>
    cases hrp : self.reqProtocol with
    | none => exact .inl (by simp [HTTPRequest.setHost, hrt, hrp, notSet])
    | some reqProtocol =>
      cases hrr : self.reqResource with
      | none => exact .inl (by simp [HTTPRequest.setHost, hrt, hrp, hrr, notSet])
      | some reqResource =>
        right
        have hline : lf ∉ reqType ++ bytes " " ++ reqResource ++ bytes " " ++ reqProtocol := by
          have h0 : lf ∉ bytes " " := by decide
          simp [h0, htype _ hrt, hresource _ hrr, hprotocol _ hrp]
        refine ⟨_, reqType ++ bytes " " ++ reqResource ++ bytes " " ++ reqProtocol ++ [lf] ++
          (bytes "Host: " ++ ip ++ bytes ":80") ++ [lf, lf], ?_, rfl, hline, hhost, ?_⟩
        · simp [HTTPRequest.setHost, hrt, hrp, hrr, bytes, lf]
        · rw [List.count_append, List.count_append, List.count_append,
            List.count_eq_zero_of_not_mem hline, List.count_eq_zero_of_not_mem hhost]
          rfl

theorem forwarded_lines_get : ∃ t self,
    readHeaders newHttpRequest (bytes "GET / HTTP/1.1\r\n\r\n") .rqst = .ok (t, self) ∧
      ∃ message, (makeSimpleRequest (self.setHost (bytes "10.0.0.1"))).2 = some message ∧
        message.count lf = 3 := by
  have hread : readHeaders newHttpRequest (bytes "GET / HTTP/1.1\r\n\r\n") .rqst = .ok (_, _) := rfl
  refine ⟨_, _, hread, ?_⟩
  rcases forwarded_lines hread (by decide : lf ∉ bytes "10.0.0.1") with
    ⟨herr, -⟩ | ⟨-, message, hmessage, -, -, -, hcount⟩
  · cases herr
  · exact ⟨message, hmessage, hcount⟩

end Heimdall.Http
