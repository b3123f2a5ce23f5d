import Mathlib.Data.List.TakeWhile
import Heimdall.Http.Head
import Heimdall.Lib.Lines

/-!
# `read_headers` on any text

`read_headers` takes a text apart at its line feeds and hands every line to `get_request`,
`get_response` or `get_header`. `readHeadersWithin` is `read_headers` with nothing but the line in
the buffer of these functions, and with no byte before the line to overwrite; so a run of it that
returns has read and written only the line that was parsed (`readHeadersWithin_sound`).

It returns exactly if the first line is not empty, and every further line that is reached has,
without its last byte, a colon, and behind the colon of a name that `get_header` looks for another
byte (`readHeadersWithin_iff`).
-/

namespace Heimdall.Http

open Lines

/-- The end of a line, with the line alone in the buffer. -/
def Reading.lineWithin (kind : Kind) (r : Reading) (i : Nat) :
    Exec (Option Throwable × Reading) :=
  if i ≤ r.start then .error .outOfBounds
  else do
    let (t, r') ← Reading.line { r with buffer := r.buffer.take (i + 1) } kind i
    .ok (t, { r' with buffer := r'.buffer ++ r.buffer.drop (i + 1) })

/-- `read_headers`, where every line is parsed with the line alone in the buffer. -/
def readHeadersWithin (self : HTTPRequest) (string : List Byte) (kind : Kind) :
    Exec (Throwable × HTTPRequest) :=
  readHeadersLoopBy (Reading.lineWithin kind) string.length 0 ⟨self, string ++ [0], 0⟩

/-! ## Lines -/

/-- The names that `get_header` looks for. -/
def headerNames : List (List Byte) :=
  [bytes "accept", bytes "from", bytes "host", bytes "content-type", bytes "content-length"]

/-- What stands before the colon, in lower case. -/
def lineName (l : List Byte) : List Byte := strToLower (l.takeWhile (· != colon))

/-- What stands behind the colon. -/
def lineData (l : List Byte) : List Byte := (l.dropWhile (· != colon)).tail

/-- A line that `get_header` stays in; the byte before the line feed is overwritten. -/
def HeaderGood (l : List Byte) : Prop :=
  colon ∈ l.dropLast ∧ (lineName l.dropLast ∈ headerNames → lineData l.dropLast ≠ [])

/-- A line at which `read_headers` returns an error: its length is no number. -/
def HeaderRefused (l : List Byte) : Prop :=
  lineName l.dropLast = bytes "content-length" ∧ ¬ IsInt (lineData l.dropLast).tail

instance : DecidablePred HeaderGood := fun _ => inferInstanceAs (Decidable (_ ∧ _))

instance : DecidablePred HeaderRefused := fun _ => inferInstanceAs (Decidable (_ ∧ _))

/-- The text can be parsed line by line. A line that is a carriage return ends the headers. -/
def HeaderLines (text : List Byte) : Prop :=
  match lines lf text with
  | [] => True
  | l :: ls => l ≠ [] ∧ (ls.head? = some [cr] ∨ Passes HeaderGood HeaderRefused [cr] ls)

instance : DecidablePred HeaderLines := fun text =>
  match h : lines lf text with
  | [] => isTrue (by unfold HeaderLines; rw [h]; trivial)
  | l :: ls =>
    decidable_of_iff
      (l ≠ [] ∧ (ls.head? = some [cr] ∨ Passes HeaderGood HeaderRefused [cr] ls))
      (by unfold HeaderLines; rw [h])

/-! ## What does not depend on the rest of the buffer -/

section Frame

variable {b : List Byte} {p : Nat}

theorem cstr_length {v : List Byte} (h : cstr b p = .ok v) : p + v.length < b.length := by
  unfold cstr at h
  split at h
  · rename_i hnul
    cases h
    have hlt : ((b.drop p).takeWhile (· != 0)).length < (b.drop p).length := by
      apply Nat.lt_of_le_of_ne (List.takeWhile_prefix _).length_le
      intro hlen
      have hall : (b.drop p).takeWhile (· != 0) = b.drop p :=
        (List.takeWhile_prefix _).eq_of_length hlen
      have hmem := List.mem_takeWhile_imp (hall.symm ▸ hnul)
      simp at hmem
    rw [List.length_drop] at hlt
    omega
  · cases h

theorem cstr_frame {v : List Byte} (h : cstr b p = .ok v) (post : List Byte) :
    cstr (b ++ post) p = .ok v := by
  have hlen := cstr_length h
  unfold cstr at h ⊢
  split at h
  · rename_i hnul
    cases h
    have hdrop : (b ++ post).drop p = b.drop p ++ post :=
      List.drop_append_of_le_length (by omega)
    rw [hdrop, if_pos (List.mem_append_left post hnul), List.takeWhile_append, if_neg]
    rw [List.length_drop]
    omega
  · cases h

theorem cstr_of_nul {k : Nat} (hk : b[k]? = some 0) (hp : p ≤ k) : ∃ v, cstr b p = .ok v := by
  unfold cstr
  rw [if_pos]
  · exact ⟨_, rfl⟩
  · apply List.mem_of_getElem? (i := k - p)
    rw [List.getElem?_drop, Nat.add_sub_cancel' hp]
    exact hk

/-- The data of a line are read or not. -/
theorem HTTPRequest.storeHeader_mono {self : HTTPRequest} {name : List Byte}
    {d d' : Exec (List Byte)} {x : Throwable × HTTPRequest} (hd : ∀ v, d = .ok v → d' = .ok v)
    (h : self.storeHeader name d = .ok x) : self.storeHeader name d' = .ok x := by
  cases d with
  | ok v => rw [hd v rfl]; exact h
  | error e =>
    unfold HTTPRequest.storeHeader at h ⊢
    split at h
    · cases h
    split at h
    · cases h
    split at h
    · cases h
    split at h
    · cases h
    split at h
    · cases h
    · simp only [*, if_false]

/-- The search for a colon does not look behind the line; the data can begin there. -/
theorem splitColon_frame {s : Option ColonSplit} (h : splitColon b p = .ok s) (post : List Byte) :
    ∃ d, (∀ s' v, s = some s' → s'.data = .ok v → d = .ok v) ∧
      splitColon (b ++ post) p =
        .ok (s.map fun s' => { s' with data := d, buffer := s'.buffer ++ post }) := by
  unfold splitColon at h ⊢
  obtain ⟨line, hline, h⟩ := Exec.bind_ok h
  have hlen := cstr_length hline
  rw [cstr_frame hline post, Exec.ok_bind]
  cases hidx : line.findIdx? (· == colon) with
  | none =>
    simp only [hidx] at h ⊢
    cases h
    refine ⟨.ok [], ?_, rfl⟩
    intro s' v hs
    cases hs
  | some i =>
    have hi : i < line.length := (List.findIdx?_eq_some_iff_getElem.1 hidx).1
    have htake : (b ++ post).take p = b.take p := List.take_append_of_le_length (by omega)
    have hdrop : (b ++ post).drop (p + i + 1) = b.drop (p + i + 1) ++ post :=
      List.drop_append_of_le_length (by omega)
    have hbuffer : b.take p ++ strToLower (line.take i) ++ 0 :: (b.drop (p + i + 1) ++ post) =
        b.take p ++ strToLower (line.take i) ++ 0 :: b.drop (p + i + 1) ++ post := by
      simp
    simp only [hidx, htake, hdrop, hbuffer] at h ⊢
    cases h
    refine ⟨_, ?_, rfl⟩
    intro s' v hs hv
    cases hs
    exact cstr_frame hv post

theorem getHeader_frame {self : HTTPRequest} {l : HeaderLine} (h : getHeader self b p = .ok l)
    (post : List Byte) :
    getHeader self (b ++ post) p = .ok { l with buffer := l.buffer ++ post } := by
  rw [getHeader_eq] at h ⊢
  obtain ⟨s, hsplit, h⟩ := Exec.bind_ok h
  obtain ⟨d, hd, hframe⟩ := splitColon_frame hsplit post
  rw [hframe, Exec.ok_bind]
  cases s with
  | none =>
    cases h
    rfl
  | some s =>
    obtain ⟨x, hx, h⟩ := Exec.bind_ok h
    simp only [Option.map_some]
    rw [HTTPRequest.storeHeader_mono (hd s · rfl) hx]
    cases h
    rfl

theorem nextSpace_frame {start len : Nat} (hlen : len ≤ b.length) (post : List Byte) :
    nextSpace (b ++ post) start len = nextSpace b start len := by
  unfold nextSpace
  rw [List.take_append_of_le_length hlen]

/-- `get_request` and `get_response` do not look behind the line. -/
theorem FirstLine.get_frame {l : FirstLine} {self : HTTPRequest} {len : Nat}
    {t : Throwable} {self' : HTTPRequest} {b' : List Byte} (hlen : len ≤ b.length)
    (h : l.get self b len = .ok (t, self', b')) (post : List Byte) :
    l.get self (b ++ post) len = .ok (t, self', b' ++ post) := by
  unfold FirstLine.get at h ⊢
  rw [nextSpace_frame hlen]
  cases hi : nextSpace b 0 len with
  | none =>
    simp only [hi] at h ⊢
    cases h
    rfl
  | some i =>
    have hilt := (nextSpace_spec hi).2.1
    have hset : (b ++ post).set i 0 = b.set i 0 ++ post := List.set_append_left i 0 (by omega)
    simp only [hi, hset] at h ⊢
    obtain ⟨v, hv, h⟩ := Exec.bind_ok h
    rw [cstr_frame hv post, Exec.ok_bind, nextSpace_frame (by simpa using hlen)]
    cases hj : nextSpace (b.set i 0) (i + 1) len with
    | none =>
      simp only [hj] at h ⊢
      cases h
      rfl
    | some j =>
      have hjlt := (nextSpace_spec hj).2.1
      have hset' : (b.set i 0 ++ post).set j 0 = (b.set i 0).set j 0 ++ post :=
        List.set_append_left j 0 (by rw [List.length_set]; omega)
      simp only [hj, hset'] at h ⊢
      obtain ⟨v₂, hv₂, h⟩ := Exec.bind_ok h
      obtain ⟨v₃, hv₃, h⟩ := Exec.bind_ok h
      rw [cstr_frame hv₂ post, Exec.ok_bind, cstr_frame hv₃ post, Exec.ok_bind]
      cases h
      rfl

/-- The end of a line does not depend on what follows the line. -/
theorem Reading.line_frame {kind : Kind} {self : HTTPRequest} {start i : Nat}
    {t : Option Throwable} {r : Reading} (hi : i < b.length)
    (h : Reading.line ⟨self, b, start⟩ kind i = .ok (t, r)) (post : List Byte) :
    Reading.line ⟨self, b ++ post, start⟩ kind i =
      .ok (t, { r with buffer := r.buffer ++ post }) := by
  have hset : (b ++ post).set (i - 1) 0 = b.set (i - 1) 0 ++ post :=
    List.set_append_left (i - 1) 0 (by omega)
  have hlen : i ≤ (b.set (i - 1) 0).length := by
    rw [List.length_set]
    omega
  unfold Reading.line at h ⊢
  split at h
  · cases h
  · rename_i hpos
    rw [if_neg hpos]
    simp only [hset] at h ⊢
    split at h
    · rename_i hstart
      rw [if_pos hstart]
      cases kind with
      | rqst =>
        obtain ⟨⟨t', self', b'⟩, hget, h⟩ := Exec.bind_ok h
        have hframe : getRequest self (b.set (i - 1) 0 ++ post) i = .ok (t', self', b' ++ post) :=
          FirstLine.get_frame hlen hget post
        simp only [hframe, Exec.ok_bind]
        cases h
        rfl
      | resp =>
        obtain ⟨⟨t', self', b'⟩, hget, h⟩ := Exec.bind_ok h
        have hframe : getResponse self (b.set (i - 1) 0 ++ post) i = .ok (t', self', b' ++ post) :=
          FirstLine.get_frame hlen hget post
        simp only [hframe, Exec.ok_bind]
        cases h
        rfl
    · rename_i hstart
      rw [if_neg hstart]
      obtain ⟨l, hl, h⟩ := Exec.bind_ok h
      rw [getHeader_frame hl post, Exec.ok_bind]
      cases hthrow : l.throwable with
      | none =>
        simp only [hthrow] at h
        cases h
      | some t' =>
        simp only [hthrow] at h ⊢
        cases h
        rfl

end Frame

/-! ## A run within the lines is a run -/

section Sound

variable {kind : Kind}

theorem Reading.lineWithin_sound {r : Reading} {i : Nat} {x : Option Throwable × Reading}
    (hi : i < r.buffer.length) (h : r.lineWithin kind i = .ok x) : r.line kind i = .ok x := by
  unfold Reading.lineWithin at h
  split at h
  · cases h
  · obtain ⟨⟨t, r'⟩, hline, h⟩ := Exec.bind_ok h
    have htake : i < (r.buffer.take (i + 1)).length := by
      rw [List.length_take]
      omega
    have hframe := Reading.line_frame htake hline (r.buffer.drop (i + 1))
    rw [List.take_append_drop] at hframe
    cases h
    exact hframe

/-- What every end of a line keeps, the loop keeps. -/
theorem readHeadersLoopBy_mono {line line' : Reading → Nat → Exec (Option Throwable × Reading)}
    (hline : ∀ r i x, i < r.buffer.length → line r i = .ok x → line' r i = .ok x)
    {n i : Nat} {r : Reading} {p : Throwable × HTTPRequest}
    (h : readHeadersLoopBy line n i r = .ok p) : readHeadersLoopBy line' n i r = .ok p := by
  induction n generalizing i r with
  | zero => exact h
  | succ n ih =>
    unfold readHeadersLoopBy at h ⊢
    cases hget : r.buffer[i]? with
    | none =>
      simp only [hget] at h
      cases h
    | some b =>
      simp only [hget] at h ⊢
      split at h
      · rename_i hb
        obtain ⟨⟨t, r'⟩, hr, h⟩ := Exec.bind_ok h
        have hi : i < r.buffer.length := (List.getElem?_eq_some_iff.1 hget).1
        rw [if_pos hb, hline r i _ hi hr, Exec.ok_bind]
        cases t with
        | some t => exact h
        | none =>
          obtain ⟨e, hend, h⟩ := Exec.bind_ok h
          dsimp only
          rw [hend, Exec.ok_bind]
          split at h
          · rename_i he
            rw [if_pos he]
            exact h
          · rename_i he
            rw [if_neg he]
            exact ih h
      · rename_i hb
        rw [if_neg hb]
        exact ih h

theorem readHeadersWithin_sound {self : HTTPRequest} {string : List Byte}
    {p : Throwable × HTTPRequest} (h : readHeadersWithin self string kind = .ok p) :
    readHeaders self string kind = .ok p := by
  unfold readHeaders
  rw [readHeadersLoop_eq]
  exact readHeadersLoopBy_mono (fun r i x hi hx => Reading.lineWithin_sound hi hx) h

end Sound

/-! ## One line -/

section Line

variable {kind : Kind} {self : HTTPRequest} {name raw l post : List Byte}

theorem lineName_colon (hcolon : colon ∉ name) :
    lineName (name ++ colon :: raw) = strToLower name := by
  unfold lineName
  rw [takeWhile_before hcolon]

theorem lineData_colon (hcolon : colon ∉ name) : lineData (name ++ colon :: raw) = raw := by
  unfold lineData
  rw [List.dropWhile_append_of_pos]
  · simp
  · intro b hb
    have hne : b ≠ colon := fun h0 => hcolon (h0 ▸ hb)
    simpa using hne

theorem HTTPRequest.storeHeader_of_not_mem (hname : name ∉ headerNames) (d : Exec (List Byte)) :
    self.storeHeader name d = .ok (.create statusOk .null "get_header", self) := by
  simp only [headerNames, List.mem_cons, List.not_mem_nil, or_false, not_or] at hname
  unfold HTTPRequest.storeHeader
  simp only [hname, if_false]

theorem HTTPRequest.storeHeader_error (hname : name ∈ headerNames) (e : Stop) :
    self.storeHeader name (.error e) = .error e := by
  simp only [headerNames, List.mem_cons, List.not_mem_nil, or_false] at hname
  rcases hname with rfl | rfl | rfl | rfl | rfl <;> rfl

/-- `get_header` on the line alone. -/
theorem HTTPRequest.storeHeader_line (hdata : strToLower name ∈ headerNames → raw ≠ []) :
    ∃ t self', self.storeHeader (strToLower name) (afterColon raw [lf]) = .ok (t, self') ∧
      (t.isAnError ↔ strToLower name = bytes "content-length" ∧ ¬ IsInt raw.tail) := by
  by_cases hname : strToLower name ∈ headerNames
  · cases raw with
    | nil => exact absurd rfl (hdata hname)
    | cons b value =>
      obtain ⟨t, self', hstore, -, hok⟩ := self.storeHeader_spec (strToLower name) value
      refine ⟨t, self', hstore, ?_⟩
      rw [List.tail_cons, ← Classical.not_imp, ← hok, Bool.not_eq_false]
  · refine ⟨_, self, self.storeHeader_of_not_mem hname _, ?_⟩
    have hlen : strToLower name ≠ bytes "content-length" := by
      intro h0
      apply hname
      rw [h0]
      decide
    simp [hlen]

theorem exists_last (h : l ≠ []) : ∃ s c, l = s ++ [c] :=
  ⟨l.dropLast, l.getLast h, (List.dropLast_append_getLast h).symm⟩

theorem take_line (pre l post : List Byte) :
    (pre ++ l ++ lf :: post).take ((pre ++ l).length + 1) = pre ++ l ++ [lf] := by
  rw [List.take_length_add_append]
  rfl

theorem drop_line (pre l post : List Byte) :
    (pre ++ l ++ lf :: post).drop ((pre ++ l).length + 1) = post := by
  rw [List.drop_length_add_append]
  rfl

variable (kind self post) in
/-- A line that is not empty, in front of any text. -/
theorem Reading.lineWithin_eq {pre : List Byte} (start : Nat) (hstart : start < (pre ++ l).length) :
    Reading.lineWithin kind ⟨self, pre ++ l ++ lf :: post, start⟩ (pre ++ l).length =
      (Reading.line ⟨self, pre ++ l ++ [lf], start⟩ kind (pre ++ l).length >>= fun p =>
        .ok (p.1, { p.2 with buffer := p.2.buffer ++ post })) := by
  unfold Reading.lineWithin
  rw [if_neg (Nat.not_le_of_lt hstart)]
  simp only [take_line, drop_line]

variable (kind) in
/-- **A good line** is parsed: an error, if it is refused, or else the next line can begin. -/
theorem Reading.lineWithin_good (self : HTTPRequest) {pre : List Byte} (hpre : pre ≠ [])
    (hnul : 0 ∉ l) (hgood : HeaderGood l) (post : List Byte) :
    ∃ t self' mem, mem ≠ [] ∧ mem.length = (pre ++ l).length + 1 ∧ (t.isSome ↔ HeaderRefused l) ∧
      Reading.lineWithin kind ⟨self, pre ++ l ++ lf :: post, pre.length⟩ (pre ++ l).length =
        .ok (t, ⟨self', mem ++ post, mem.length⟩) := by
  have hne : l ≠ [] := by
    intro h0
    rw [h0] at hgood
    cases hgood.1
  obtain ⟨s, c, rfl⟩ := exists_last hne
  unfold HeaderGood at hgood
  unfold HeaderRefused
  rw [List.dropLast_concat] at hgood ⊢
  obtain ⟨name, raw, rfl, hcolon⟩ := List.eq_append_cons_of_mem hgood.1
  have hdata := hgood.2
  rw [lineName_colon hcolon, lineData_colon hcolon] at hdata ⊢
  obtain ⟨t, self', hstore, hrefused⟩ := self.storeHeader_line hdata
  have hraw : 0 ∉ name ++ colon :: raw := fun hm => hnul (List.mem_append_left _ hm)
  have hline := Reading.line_colon kind self c [] hpre hcolon hraw
  have hbuffer : pre ++ (name ++ colon :: raw) ++ c :: [lf] =
      pre ++ (name ++ colon :: raw ++ [c]) ++ [lf] := by
    simp
  have hindex : pre.length + (name ++ colon :: raw).length + 1 =
      (pre ++ (name ++ colon :: raw ++ [c])).length := by
    simp
    omega
  have hstart : pre.length < (pre ++ (name ++ colon :: raw ++ [c])).length := by omega
  rw [hbuffer, hindex, hstore, Exec.ok_bind] at hline
  refine ⟨if t.isAnError then some (t.thrown "read_headers") else none, self',
    pre ++ strToLower name ++ 0 :: (raw ++ [0, lf]), by simp, ?_, ?_, ?_⟩
  · simp [strToLower_length]
    omega
  · rw [← hrefused]
    by_cases herr : t.isAnError
    · simp [herr]
    · simp [herr]
  · rw [Reading.lineWithin_eq kind self post _ hstart, hline, Exec.ok_bind]
    simp [strToLower_length]
    omega

variable (kind) in
/-- Any other line is left, or leads to a call through NULL. -/
theorem Reading.lineWithin_bad (self : HTTPRequest) {pre : List Byte} (hpre : pre ≠ [])
    (hnul : 0 ∉ l) (hbad : ¬ HeaderGood l) (post : List Byte) :
    ∃ e, Reading.lineWithin kind ⟨self, pre ++ l ++ lf :: post, pre.length⟩ (pre ++ l).length =
      .error e := by
  by_cases hne : l = []
  · subst hne
    refine ⟨.outOfBounds, ?_⟩
    unfold Reading.lineWithin
    rw [if_pos (by simp)]
  · obtain ⟨s, c, rfl⟩ := exists_last hne
    unfold HeaderGood at hbad
    rw [List.dropLast_concat] at hbad
    have hs : 0 ∉ s := fun hm => hnul (List.mem_append_left _ hm)
    have hstart : pre.length < (pre ++ (s ++ [c])).length := by simp
    by_cases hcolon : colon ∈ s
    · obtain ⟨name, raw, rfl, hname⟩ := List.eq_append_cons_of_mem hcolon
      rw [lineName_colon hname, lineData_colon hname] at hbad
      have hmem : strToLower name ∈ headerNames := by
        by_contra h0
        exact hbad ⟨hcolon, fun h => absurd h h0⟩
      have hraw : raw = [] := by
        by_contra h0
        exact hbad ⟨hcolon, fun _ => h0⟩
      subst hraw
      have hline := Reading.line_colon kind self c [] hpre hname hs
      have hbuffer : pre ++ (name ++ [colon]) ++ c :: [lf] =
          pre ++ (name ++ [colon] ++ [c]) ++ [lf] := by
        simp
      have hindex : pre.length + (name ++ [colon]).length + 1 =
          (pre ++ (name ++ [colon] ++ [c])).length := by
        simp
        omega
      have hdata : afterColon [] [lf] = .error .outOfBounds := rfl
      rw [hbuffer, hindex, hdata, HTTPRequest.storeHeader_error hmem] at hline
      refine ⟨.outOfBounds, ?_⟩
      rw [Reading.lineWithin_eq kind self post _ hstart, hline]
      rfl
    · refine ⟨.nullDeref, ?_⟩
      rw [Reading.lineWithin_eq kind self post _ hstart, Reading.line_noColon hpre hcolon hs]
      rfl

end Line

/-! ## The first line -/

section First

variable {kind : Kind} {self : HTTPRequest} {l post : List Byte}

/-- The parts of a line that ends with a NUL end in it. -/
theorem FirstLine.get_ok (f : FirstLine) (self : HTTPRequest) {b : List Byte} {len : Nat}
    (hnul : b[len]? = some 0) :
    ∃ t self' b', f.get self b (len + 1) = .ok (t, self', b') ∧ t.isAnError = false ∧
      b'.length = b.length := by
  have hspace : ∀ {b : List Byte} {start i : Nat}, b[len]? = some 0 →
      nextSpace b start (len + 1) = some i → start ≤ i ∧ i < len := by
    intro b start i hnul h
    obtain ⟨hstart, hi, hsp⟩ := nextSpace_spec h
    have hne : i ≠ len := by
      intro h0
      rw [h0, hnul, Option.some.injEq] at hsp
      exact absurd hsp (by decide)
    omega
  have hlen : len < b.length := (List.getElem?_eq_some_iff.1 hnul).1
  unfold FirstLine.get
  cases hi : nextSpace b 0 (len + 1) with
  | none => exact ⟨_, self, b, rfl, rfl, rfl⟩
  | some i =>
    have hilt := (hspace hnul hi).2
    have hat : (b.set i 0)[i]? = some 0 := List.getElem?_set_self (by omega)
    obtain ⟨v, hv⟩ := cstr_of_nul hat (Nat.zero_le i)
    have hnul' : (b.set i 0)[len]? = some 0 := by
      rw [List.getElem?_set_ne (by omega)]
      exact hnul
    simp only [hv, Exec.ok_bind]
    cases hj : nextSpace (b.set i 0) (i + 1) (len + 1) with
    | none => exact ⟨_, _, _, rfl, rfl, List.length_set⟩
    | some j =>
      obtain ⟨hij, hjlt⟩ := hspace hnul' hj
      have hat' : ((b.set i 0).set j 0)[j]? = some 0 :=
        List.getElem?_set_self (by rw [List.length_set]; omega)
      have hnul'' : ((b.set i 0).set j 0)[len]? = some 0 := by
        rw [List.getElem?_set_ne (by omega)]
        exact hnul'
      obtain ⟨v₂, hv₂⟩ := cstr_of_nul hat' hij
      obtain ⟨v₃, hv₃⟩ := cstr_of_nul hnul'' (p := j + 1) (by omega)
      simp only [hv₂, hv₃, Exec.ok_bind]
      refine ⟨_, _, _, rfl, rfl, ?_⟩
      rw [List.length_set, List.length_set]

/-- **The first line** is parsed unless it is empty. -/
theorem Reading.lineWithin_first (kind : Kind) (self : HTTPRequest) (hl : l ≠ [])
    (post : List Byte) :
    ∃ self' mem, mem ≠ [] ∧ mem.length = l.length + 1 ∧
      Reading.lineWithin kind ⟨self, l ++ lf :: post, 0⟩ l.length =
        .ok (none, ⟨self', mem ++ post, mem.length⟩) := by
  obtain ⟨s, c, rfl⟩ := exists_last hl
  have hlen : (s ++ [c]).length = s.length + 1 := by simp
  have hset : (s ++ [c] ++ [lf]).set (s.length + 1 - 1) 0 = s ++ 0 :: [lf] := by
    rw [List.append_assoc]
    exact set_append s [lf] rfl
  have hnul : (s ++ 0 :: [lf])[s.length]? = some 0 := by simp
  obtain ⟨t, self', mem, hget, herr, hmem⟩ := kind.firstLine.get_ok self hnul
  have hmemlen : mem.length = s.length + 2 := by
    rw [hmem]
    simp
  have hline : Reading.line ⟨self, s ++ [c] ++ [lf], 0⟩ kind (s.length + 1) =
      .ok (none, ⟨self', mem, mem.length⟩) := by
    unfold Reading.line
    rw [if_neg (by omega), hmemlen]
    simp only [hset, if_true]
    cases kind with
    | rqst =>
      simp only [getRequest]
      rw [show requestLine.get self (s ++ 0 :: [lf]) (s.length + 1) = _ from hget]
      simp [herr]
    | resp =>
      simp only [getResponse]
      rw [show responseLine.get self (s ++ 0 :: [lf]) (s.length + 1) = _ from hget]
      simp [herr]
  have hwithin := @Reading.lineWithin_eq kind self (s ++ [c]) post [] 0 (by simp)
  refine ⟨self', mem, ?_, by omega, ?_⟩
  · intro h0
    rw [h0] at hmemlen
    simp at hmemlen
  · rw [List.nil_append, hlen] at hwithin
    rw [hlen, hwithin, hline]
    rfl

end First

/-! ## The text -/

section Text

variable {kind : Kind}

/-- The headers end where a line that is a carriage return follows. -/
theorem Reading.atEnd_lines (self : HTTPRequest) (start i : Nat) (pre text : List Byte)
    (hi : i + 1 = pre.length) :
    Reading.atEnd ⟨self, pre ++ (text ++ [0]), start⟩ i =
      .ok (decide ((lines lf text).head? = some [cr])) := by
  have hi' : i + 2 = pre.length + 1 := by omega
  unfold Reading.atEnd
  cases text with
  | nil => simp [hi, lines, show (0 : Byte) ≠ cr by decide]
  | cons b text =>
    by_cases hb : b = cr
    · subst hb
      cases text with
      | nil => simp [hi, hi', lines, show cr ≠ lf by decide, show (0 : Byte) ≠ lf by decide]
      | cons b' text =>
        have hget : (pre ++ (cr :: b' :: text ++ [0]))[pre.length + 1]? = some b' := by simp
        have hiff : (lines lf (cr :: b' :: text)).head? = some [cr] ↔ b' = lf := by
          rw [head?_lines_iff]
          constructor
          · intro h
            obtain ⟨-, rest, h⟩ := h
            exact (List.cons.inj (List.cons.inj h).2).1
          · intro h
            exact ⟨by decide, text, by rw [h]; rfl⟩
        simp only [hi, hi', hget, hiff]
        simp
        rfl
    · have hiff : ¬ (lines lf (b :: text)).head? = some [cr] := by
        rw [head?_lines_iff]
        intro h
        obtain ⟨-, rest, h⟩ := h
        exact hb (List.cons.inj h).1
      simp [hi, hb, hiff]

/-- The loop at the beginning of a line that is not the first. -/
structure Behind where
  self : HTTPRequest
  pre : List Byte
  pre_ne : pre ≠ []

/-- The loop returns, with `text` before it. -/
def Behind.Returns (kind : Kind) (s : Behind) (text : List Byte) : Prop :=
  ∃ p, readHeadersLoopBy (Reading.lineWithin kind) text.length s.pre.length
    ⟨s.self, s.pre ++ (text ++ [0]), s.pre.length⟩ = .ok p

theorem headers_walk (kind : Kind) :
    Walk lf (· ≠ 0) HeaderGood HeaderRefused [cr] (Behind.Returns kind) where
  tail s l hl := by
    have h := readHeadersLoopBy_skip (Reading.lineWithin kind) s.pre [0] hl.1 s.self
      s.pre.length 0
    rw [List.append_assoc] at h
    exact ⟨_, h⟩
  bad s l text hl hbad := by
    have hnul : 0 ∉ l := fun h0 => hl.2 0 h0 rfl
    obtain ⟨e, he⟩ := Reading.lineWithin_bad kind s.self s.pre_ne hnul hbad (text ++ [0])
    have hline := readHeadersLoopBy_line (Reading.lineWithin kind) s.self s.pre
      (text ++ [0]) hl.1 s.pre.length text.length
    intro h
    obtain ⟨p, hp⟩ := h
    rw [List.length_append, List.length_cons, List.append_assoc l, ← List.append_assoc s.pre,
      List.cons_append, hline, he] at hp
    cases hp
  line s l text hl hgood := by
    have hnul : 0 ∉ l := fun h0 => hl.2 0 h0 rfl
    obtain ⟨t, self', mem, hne, hlen, ht, hwithin⟩ :=
      Reading.lineWithin_good kind s.self s.pre_ne hnul hgood (text ++ [0])
    have hline := readHeadersLoopBy_line (Reading.lineWithin kind) s.self s.pre
      (text ++ [0]) hl.1 s.pre.length text.length
    refine ⟨⟨self', mem, hne⟩, ?_⟩
    unfold Behind.Returns
    rw [List.length_append, List.length_cons, List.append_assoc l, ← List.append_assoc s.pre,
      List.cons_append, hline, hwithin, Exec.ok_bind, ← ht]
    cases t with
    | some t => simp
    | none =>
      dsimp only
      rw [Reading.atEnd_lines _ _ _ _ _ hlen.symm, Exec.ok_bind, ← hlen]
      by_cases hlast : (lines lf text).head? = some [cr]
      · simp [hlast]
      · simp [hlast]

/-- **Exactly when `read_headers` returns and stays within its lines.** -/
theorem readHeadersWithin_iff (kind : Kind) (self : HTTPRequest) {text : List Byte}
    (hnul : 0 ∉ text) :
    (∃ p, readHeadersWithin self text kind = .ok p) ↔ HeaderLines text := by
  unfold readHeadersWithin HeaderLines
  rcases exists_line lf text with hopen | ⟨l, rest, hl, rfl⟩
  · have hskip := readHeadersLoopBy_skip (Reading.lineWithin kind) [] [0] hopen self 0 0
    rw [lines_open hopen]
    exact ⟨fun _ => trivial, fun _ => ⟨_, hskip⟩⟩
  · have hrest : ∀ b ∈ rest, b ≠ 0 := by
      intro b hb h0
      exact hnul (h0 ▸ List.mem_append_right l (List.mem_cons_of_mem lf hb))
    have hline := readHeadersLoopBy_line (Reading.lineWithin kind) self []
      (rest ++ [0]) hl 0 rest.length
    rw [List.nil_append, List.length_nil] at hline
    rw [lines_append hl, List.length_append, List.length_cons, List.append_assoc,
      List.cons_append, hline]
    by_cases hne : l = []
    · subst hne
      constructor
      · intro h
        obtain ⟨p, hp⟩ := h
        cases hp
      · intro h
        exact absurd rfl h.1
    · obtain ⟨self', mem, hmem, hlen, hwithin⟩ :=
        Reading.lineWithin_first kind self hne (rest ++ [0])
      have hwalk := (headers_walk kind).ends_iff ⟨self', mem, hmem⟩ hrest
      rw [hwithin, Exec.ok_bind]
      dsimp only
      rw [Reading.atEnd_lines _ _ _ _ _ hlen.symm, Exec.ok_bind, ← hlen, ← hwalk]
      by_cases hlast : (lines lf rest).head? = some [cr]
      · simp [hlast, hne]
      · simp [hlast, hne, Behind.Returns]

end Text

end Heimdall.Http
