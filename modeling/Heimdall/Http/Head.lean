import Heimdall.Http.Request

/-!
# What `read_headers` does with a header block

A header block (`Head`) is a first line of three parts, field lines with a colon, and an empty line,
all of them ended by a carriage return and a line feed. On such a block `read_headers` stores the
three parts and then goes through the fields up to the first that is refused (`readHeaders_text`).

Whatever follows the first byte after the colon is the value. Where nothing does, `header_data` is
the line feed of the line, and the value is the rest of the block from there.
-/

namespace Heimdall.Http

/-- No byte that ends a string or a line. -/
def Plain (l : List Byte) : Prop := ∀ b ∈ l, b ≠ 0 ∧ b ≠ cr ∧ b ≠ lf

instance (l : List Byte) : Decidable (Plain l) :=
  decidable_of_iff (l.all fun b => b != 0 && b != cr && b != lf) (by simp [Plain, and_assoc])

/-- `raw` is all that stands between the colon and the end of the line. -/
structure Field where
  name : List Byte
  raw : List Byte
  name_plain : Plain name
  name_colon : colon ∉ name
  raw_plain : Plain raw

def Field.line (f : Field) : List Byte := f.name ++ colon :: f.raw

structure Head where
  first : List Byte
  second : List Byte
  third : List Byte
  fields : List Field
  first_plain : Plain first
  first_space : sp ∉ first
  second_plain : Plain second
  second_space : sp ∉ second
  third_plain : Plain third

def Head.firstLine (q : Head) : List Byte := q.first ++ sp :: q.second ++ sp :: q.third

def fieldsText (fs : List Field) : List Byte := fs.flatMap (fun f => f.line ++ [cr, lf])

/-- The block, with the empty line at its end. -/
def Head.text (q : Head) : List Byte :=
  q.firstLine ++ [cr, lf] ++ fieldsText q.fields ++ [cr, lf]

/-- What `get_header` finds at `header_data`, when the fields `fs` follow. -/
def Field.data (f : Field) (fs : List Field) : List Byte :=
  match f.raw with
  | [] => lf :: fieldsText fs ++ [cr, lf]
  | _ :: value => value

/-- The fields one after the other, up to the first error. -/
def HTTPRequest.storeFields (self : HTTPRequest) : List Field → Exec (Throwable × HTTPRequest)
  | [] => .ok (.create statusOk .null "read_headers", self)
  | f :: fs => do
    let (t, self) ← self.storeHeader (strToLower f.name) (.ok (f.data fs))
    if t.isAnError then .ok (t.thrown "read_headers", self) else self.storeFields fs

/-- The parts of the first line of a request or a response. -/
def Kind.firstLine : Kind → FirstLine
  | .rqst => requestLine
  | .resp => responseLine

/-! ## Strings in the buffer -/

section Strings

variable {l : List Byte}

theorem Plain.nil : Plain [] := fun b hb => by cases hb

theorem Plain.append {l' : List Byte} (hl : Plain l) (hp : Plain l') : Plain (l ++ l') := by
  intro b hb
  rcases List.mem_append.1 hb with hb | hb
  · exact hl b hb
  · exact hp b hb

theorem Plain.cons {b : Byte} (hb : b ≠ 0 ∧ b ≠ cr ∧ b ≠ lf) (hl : Plain l) : Plain (b :: l) := by
  intro c hc
  rcases List.mem_cons.1 hc with rfl | hc
  · exact hb
  · exact hl c hc

theorem Plain.lf_not_mem (h : Plain l) : lf ∉ l := fun hm => (h lf hm).2.2 rfl

theorem Plain.nul_not_mem (h : Plain l) : 0 ∉ l := fun hm => (h 0 hm).1 rfl

theorem colon_plain : colon ≠ 0 ∧ colon ≠ cr ∧ colon ≠ lf := by decide

theorem sp_plain : sp ≠ 0 ∧ sp ≠ cr ∧ sp ≠ lf := by decide

theorem protocol_plain : Plain (bytes "HTTP/1.1") := by decide

theorem contentLength_plain : Plain (bytes "Content-Length") := by decide

theorem contentLength_colon : colon ∉ bytes "Content-Length" := by decide

theorem Field.line_plain (f : Field) : Plain f.line :=
  f.name_plain.append (.cons colon_plain f.raw_plain)

theorem Head.firstLine_plain (q : Head) : Plain q.firstLine :=
  (q.first_plain.append (.cons sp_plain q.second_plain)).append
    (.cons sp_plain q.third_plain)

/-- A string ends at the first NUL. -/
theorem cstr_append (pre post : List Byte) {p : Nat} (hp : p = pre.length) (hl : 0 ∉ l) :
    cstr (pre ++ l ++ 0 :: post) p = .ok l := by
  have hdrop : (pre ++ l ++ 0 :: post).drop p = l ++ 0 :: post := by
    rw [hp, List.append_assoc, List.drop_left]
  unfold cstr
  rw [hdrop, if_pos (by simp)]
  rw [takeWhile_before hl]

theorem set_append (pre post : List Byte) {p : Nat} {b c : Byte} (hp : p = pre.length) :
    (pre ++ b :: post).set p c = pre ++ c :: post := by
  subst hp
  simp

/-- The first occurrence of a byte is right after what does not contain it. -/
theorem findIdx?_append {post : List Byte} {c : Byte} (hl : c ∉ l) :
    (l ++ c :: post).findIdx? (· == c) = some l.length := by
  induction l with
  | nil => simp [List.findIdx?_cons]
  | cons b l ih =>
    have hb : b ≠ c := (List.ne_of_not_mem_cons hl).symm
    have hl' : c ∉ l := List.not_mem_of_not_mem_cons hl
    simp [List.findIdx?_cons, hb, ih hl']

theorem fieldsText_nul (fs : List Field) : 0 ∉ fieldsText fs ++ [cr, lf] := by
  intro hm
  rcases List.mem_append.1 hm with hm | hm
  · obtain ⟨f, -, hf⟩ := List.mem_flatMap.1 hm
    rcases List.mem_append.1 hf with hf | hf
    · exact f.line_plain.nul_not_mem hf
    · revert hf
      decide
  · revert hm
    decide

end Strings

/-! ## One line -/

section Lines

variable {pre post : List Byte}

theorem strToLower_length (l : List Byte) : (strToLower l).length = l.length := List.length_map _

/-- What stands one byte behind the byte after the colon, `raw` being the rest of the line, which
ends with a NUL, and `post` what comes after that. -/
def afterColon (raw post : List Byte) : Exec (List Byte) :=
  match raw with
  | [] => cstr post 0
  | _ :: value => .ok value

theorem cstr_headerData {name raw : List Byte} (hraw : 0 ∉ raw) :
    cstr (pre ++ strToLower name ++ 0 :: (raw ++ 0 :: post)) (pre.length + name.length + 2) =
      afterColon raw post := by
  cases raw with
  | nil =>
    have hdrop : (pre ++ strToLower name ++ 0 :: ([] ++ 0 :: post)).drop
        (pre.length + name.length + 2) = post := by
      have h : pre ++ strToLower name ++ 0 :: ([] ++ 0 :: post) =
          (pre ++ strToLower name ++ [0, 0]) ++ post := by simp
      rw [h, List.drop_left']
      simp [strToLower_length]
      omega
    unfold cstr
    rw [hdrop]
    rfl
  | cons b value =>
    have hvalue : 0 ∉ value := fun hm => hraw (List.mem_cons_of_mem b hm)
    have hlen : pre.length + name.length + 2 = (pre ++ strToLower name ++ [0, b]).length := by
      simp [strToLower_length]
      omega
    have h := cstr_append _ post hlen hvalue
    simpa [afterColon] using h

/-- What a line with a colon is split into: the name in lower case, the string one byte behind the
byte after the colon, and the buffer. -/
structure ColonSplit where
  name : List Byte
  data : Exec (List Byte)
  buffer : List Byte

/-- The search for a colon with which `get_header` begins. -/
def splitColon (buffer : List Byte) (start : Nat) : Exec (Option ColonSplit) := do
  let line ← cstr buffer start
  match line.findIdx? (· == colon) with
  | none => .ok none
  | some i =>
    let name := strToLower (line.take i)
    let buffer := buffer.take start ++ name ++ 0 :: buffer.drop (start + i + 1)
    .ok (some ⟨name, cstr buffer (start + i + 2), buffer⟩)

theorem splitColon_colon {name raw : List Byte} (hcolon : colon ∉ name)
    (hnul : 0 ∉ name ++ colon :: raw) :
    splitColon (pre ++ (name ++ colon :: raw) ++ 0 :: post) pre.length =
      .ok (some ⟨strToLower name, afterColon raw post,
        pre ++ strToLower name ++ 0 :: (raw ++ 0 :: post)⟩) := by
  have hraw : 0 ∉ raw := fun hm =>
    hnul (List.mem_append_right _ (List.mem_cons_of_mem _ hm))
  have hidx : (name ++ colon :: raw).findIdx? (· == colon) = some name.length :=
    findIdx?_append hcolon
  have htake : (name ++ colon :: raw).take name.length = name := List.take_left
  have hstart : (pre ++ (name ++ colon :: raw) ++ 0 :: post).take pre.length = pre := by
    rw [List.append_assoc, List.take_left]
  have hdrop : (pre ++ (name ++ colon :: raw) ++ 0 :: post).drop (pre.length + name.length + 1) =
      raw ++ 0 :: post := by
    have h : pre ++ (name ++ colon :: raw) ++ 0 :: post =
        (pre ++ name ++ [colon]) ++ (raw ++ 0 :: post) := by simp
    rw [h, List.drop_left']
    simp
    omega
  unfold splitColon
  rw [cstr_append _ _ rfl hnul, Exec.ok_bind]
  simp only [hidx, htake, hstart, hdrop, cstr_headerData hraw]

theorem splitColon_noColon {l : List Byte} (hcolon : colon ∉ l) (hnul : 0 ∉ l) :
    splitColon (pre ++ l ++ 0 :: post) pre.length = .ok none := by
  have hidx : l.findIdx? (· == colon) = none := by
    rw [List.findIdx?_eq_none_iff]
    intro b hb
    have hne : b ≠ colon := fun h0 => hcolon (h0 ▸ hb)
    simpa using hne
  unfold splitColon
  rw [cstr_append _ _ rfl hnul, Exec.ok_bind]
  simp only [hidx]

theorem getHeader_eq (self : HTTPRequest) (buffer : List Byte) (start : Nat) :
    getHeader self buffer start =
      (splitColon buffer start >>= fun s =>
        match s with
        | none => .ok ⟨none, self, buffer⟩
        | some s => self.storeHeader s.name s.data >>= fun p =>
          .ok ⟨some p.1, p.2, s.buffer⟩) := by
  unfold getHeader splitColon
  cases cstr buffer start with
  | error e => rfl
  | ok line =>
    simp only [Exec.ok_bind]
    cases line.findIdx? (· == colon) with
    | none => rfl
    | some i => rfl

/-- `get_header` on a line with a colon. -/
theorem getHeader_colon (self : HTTPRequest) {name raw : List Byte} (hcolon : colon ∉ name)
    (hnul : 0 ∉ name ++ colon :: raw) :
    getHeader self (pre ++ (name ++ colon :: raw) ++ 0 :: post) pre.length =
      (self.storeHeader (strToLower name) (afterColon raw post) >>= fun p =>
        .ok ⟨some p.1, p.2, pre ++ strToLower name ++ 0 :: (raw ++ 0 :: post)⟩) := by
  rw [getHeader_eq, splitColon_colon hcolon hnul]
  rfl

/-- `get_header` on a line without one. -/
theorem getHeader_noColon (self : HTTPRequest) {l : List Byte} (hcolon : colon ∉ l)
    (hnul : 0 ∉ l) :
    getHeader self (pre ++ l ++ 0 :: post) pre.length =
      .ok ⟨none, self, pre ++ l ++ 0 :: post⟩ := by
  rw [getHeader_eq, splitColon_noColon hcolon hnul]
  rfl

/-- The value of a field, with the end of the block behind its line. -/
theorem Field.afterColon_raw (f : Field) (fs : List Field) :
    afterColon f.raw (lf :: (fieldsText fs ++ [cr, lf, 0])) = .ok (f.data fs) := by
  unfold Field.data afterColon
  cases f.raw with
  | nil =>
    have hplain : 0 ∉ lf :: fieldsText fs ++ [cr, lf] := by
      rw [List.cons_append, List.mem_cons, not_or]
      exact ⟨by decide, fieldsText_nul fs⟩
    have h := cstr_append [] [] rfl hplain
    simpa using h
  | cons b value => rfl

theorem nextSpace_spec {buffer : List Byte} {start len i : Nat}
    (h : nextSpace buffer start len = some i) :
    start ≤ i ∧ i < len ∧ buffer[i]? = some sp := by
  unfold nextSpace at h
  obtain ⟨j, hj, rfl⟩ := Option.map_eq_some_iff.1 h
  obtain ⟨hlt, hsp, -⟩ := List.findIdx?_eq_some_iff_getElem.1 hj
  rw [List.length_drop, List.length_take] at hlt
  refine ⟨Nat.le_add_right start j, by omega, ?_⟩
  rw [List.getElem_drop, List.getElem_take] at hsp
  rw [List.getElem?_eq_getElem (by omega)]
  simpa using hsp

theorem nextSpace_append (pre post : List Byte) (len : Nat) {l : List Byte} (hl : sp ∉ l)
    (hlen : pre.length + l.length < len) :
    nextSpace (pre ++ l ++ sp :: post) pre.length len = some (pre.length + l.length) := by
  unfold nextSpace
  obtain ⟨n, rfl⟩ : ∃ n, len = pre.length + (l.length + (n + 1)) :=
    ⟨len - pre.length - l.length - 1, by omega⟩
  rw [List.append_assoc, List.take_length_add_append, List.take_length_add_append,
    List.drop_left, List.take_succ_cons, findIdx?_append hl]
  rfl

/-- The first line is split into its parts. -/
theorem FirstLine.get_split (l : FirstLine) (self : HTTPRequest) (q : Head) :
    l.get self (q.firstLine ++ 0 :: post) (q.firstLine.length + 1) =
      .ok (.create statusOk .null l.split,
        l.third (l.second (l.first self q.first) q.second) q.third,
        q.first ++ 0 :: (q.second ++ 0 :: (q.third ++ 0 :: post))) := by
  have hlen : q.firstLine.length = q.first.length + (q.second.length + (q.third.length + 2)) := by
    simp [Head.firstLine]
    omega
  have hspace₁ : nextSpace (q.firstLine ++ 0 :: post) 0 (q.firstLine.length + 1) =
      some q.first.length := by
    have h := nextSpace_append [] (q.second ++ sp :: q.third ++ 0 :: post)
      (q.firstLine.length + 1) q.first_space (by simp; omega)
    simpa [Head.firstLine] using h
  have hset₁ : (q.firstLine ++ 0 :: post).set q.first.length 0 =
      q.first ++ 0 :: (q.second ++ sp :: (q.third ++ 0 :: post)) := by
    simp [Head.firstLine]
  have hspace₂ : nextSpace (q.first ++ 0 :: (q.second ++ sp :: (q.third ++ 0 :: post)))
      (q.first.length + 1) (q.firstLine.length + 1) =
      some (q.first.length + 1 + q.second.length) := by
    have h := nextSpace_append (q.first ++ [0]) (q.third ++ 0 :: post)
      (q.firstLine.length + 1) q.second_space (by simp; omega)
    simpa using h
  have hset₂ : (q.first ++ 0 :: (q.second ++ sp :: (q.third ++ 0 :: post))).set
      (q.first.length + 1 + q.second.length) 0 =
      q.first ++ 0 :: (q.second ++ 0 :: (q.third ++ 0 :: post)) := by
    have h := set_append (q.first ++ 0 :: q.second) (q.third ++ 0 :: post) (b := sp) (c := 0)
      (p := q.first.length + 1 + q.second.length)
      (by simp; omega)
    simpa using h
  have hfirst : cstr (q.first ++ 0 :: (q.second ++ sp :: (q.third ++ 0 :: post))) 0 =
      .ok q.first := by
    exact cstr_append [] _ rfl q.first_plain.nul_not_mem
  have hsecond : cstr (q.first ++ 0 :: (q.second ++ 0 :: (q.third ++ 0 :: post)))
      (q.first.length + 1) = .ok q.second := by
    have h := cstr_append (q.first ++ [0]) (q.third ++ 0 :: post)
      (p := q.first.length + 1) (by simp) q.second_plain.nul_not_mem
    simpa using h
  have hthird : cstr (q.first ++ 0 :: (q.second ++ 0 :: (q.third ++ 0 :: post)))
      (q.first.length + 1 + q.second.length + 1) = .ok q.third := by
    have h := cstr_append (q.first ++ 0 :: q.second ++ [0]) post
      (p := q.first.length + 1 + q.second.length + 1) (by simp; omega)
      q.third_plain.nul_not_mem
    simpa using h
  unfold FirstLine.get
  simp only [hspace₁, hset₁, hfirst, Exec.ok_bind, hspace₂, hset₂, hsecond, hthird]

end Lines

/-! ## The block -/

section Loop

variable {kind : Kind} {pre post : List Byte}

/-- The loop of `read_headers`, with `line` for what it does at the end of a line. -/
def readHeadersLoopBy (line : Reading → Nat → Exec (Option Throwable × Reading)) :
    Nat → Nat → Reading → Exec (Throwable × HTTPRequest)
  | 0, _, r => .ok (.create statusOk .null "read_headers", r.self)
  | n + 1, i, r =>
    match r.buffer[i]? with
    | none => .error .outOfBounds
    | some b =>
      if b = lf then do
        let (t, r) ← line r i
        match t with
        | some t => .ok (t, r.self)
        | none =>
          if ← r.atEnd i then .ok (.create statusOk .null "read_headers", r.self)
          else readHeadersLoopBy line n (i + 1) r
      else readHeadersLoopBy line n (i + 1) r

theorem readHeadersLoop_eq (kind : Kind) (n i : Nat) (r : Reading) :
    readHeadersLoop kind n i r = readHeadersLoopBy (Reading.line · kind) n i r := by
  induction n generalizing i r with
  | zero => rfl
  | succ n ih =>
    have h : readHeadersLoop kind n = readHeadersLoopBy (Reading.line · kind) n :=
      funext fun i => funext fun r => ih i r
    unfold readHeadersLoop readHeadersLoopBy
    exact h ▸ rfl

section Line

variable {line : Reading → Nat → Exec (Option Throwable × Reading)}

variable (line) in
/-- The loop passes over what contains no line feed. -/
theorem readHeadersLoopBy_skip (pre post : List Byte) {l : List Byte} (hl : lf ∉ l)
    (self : HTTPRequest) (start n : Nat) :
    readHeadersLoopBy line (l.length + n) pre.length ⟨self, pre ++ l ++ post, start⟩ =
      readHeadersLoopBy line n (pre ++ l).length ⟨self, pre ++ l ++ post, start⟩ := by
  induction l generalizing pre with
  | nil => simp
  | cons b l ih =>
    have hb : b ≠ lf := (List.ne_of_not_mem_cons hl).symm
    have hl' : lf ∉ l := List.not_mem_of_not_mem_cons hl
    have hget : (pre ++ b :: l ++ post)[pre.length]? = some b := by simp
    have hstep : readHeadersLoopBy line ((b :: l).length + n) pre.length
        ⟨self, pre ++ b :: l ++ post, start⟩ =
        readHeadersLoopBy line (l.length + n) (pre.length + 1)
          ⟨self, pre ++ b :: l ++ post, start⟩ := by
      rw [List.length_cons, Nat.add_right_comm]
      rw [readHeadersLoopBy]
      simp only [hget, if_neg hb]
    have h := ih (pre ++ [b]) hl'
    rw [hstep]
    simpa using h

variable (line) in
/-- **One line**: from its beginning on, the loop comes to the line feed at its end, and then to an
error, the end of the block, or the next line. -/
theorem readHeadersLoopBy_line (self : HTTPRequest) (pre post : List Byte)
    {l : List Byte} (hl : lf ∉ l) (start n : Nat) :
    readHeadersLoopBy line (l.length + (n + 1)) pre.length
      ⟨self, pre ++ l ++ lf :: post, start⟩ =
      (line ⟨self, pre ++ l ++ lf :: post, start⟩ (pre ++ l).length >>= fun p =>
        match p.1 with
        | some t => .ok (t, p.2.self)
        | none => p.2.atEnd (pre ++ l).length >>= fun e =>
          if e then .ok (.create statusOk .null "read_headers", p.2.self)
          else readHeadersLoopBy line n ((pre ++ l).length + 1) p.2) := by
  have hget : (pre ++ l ++ lf :: post)[(pre ++ l).length]? = some lf := by simp
  rw [readHeadersLoopBy_skip line pre (lf :: post) hl self start (n + 1), readHeadersLoopBy]
  simp only [hget, if_true]

theorem readHeadersLoop_skip (kind : Kind) (pre post : List Byte) {l : List Byte} (hl : lf ∉ l)
    (self : HTTPRequest) (start n : Nat) :
    readHeadersLoop kind (l.length + n) pre.length ⟨self, pre ++ l ++ post, start⟩ =
      readHeadersLoop kind n (pre ++ l).length ⟨self, pre ++ l ++ post, start⟩ := by
  rw [readHeadersLoop_eq, readHeadersLoop_eq]
  exact readHeadersLoopBy_skip (Reading.line · kind) pre post hl self start n

end Line

/-- What the end of a line means when the fields `fs` follow: the end of the block, if there are
none. -/
theorem Reading.atEnd_iff (pre : List Byte) (self : HTTPRequest) (fs : List Field) (start i : Nat)
    (hi : i + 1 = pre.length) :
    Reading.atEnd ⟨self, pre ++ (fieldsText fs ++ [cr, lf, 0]), start⟩ i = .ok fs.isEmpty := by
  unfold Reading.atEnd
  cases fs with
  | nil => simp [hi, fieldsText, show i + 2 = pre.length + 1 by omega]
  | cons f fs =>
    obtain ⟨b, l, hbl⟩ : ∃ b l, f.line = b :: l := by
      unfold Field.line
      cases f.name with
      | nil => exact ⟨_, _, rfl⟩
      | cons b l => exact ⟨_, _, rfl⟩
    have hb : b ≠ cr := (f.line_plain b (by simp [hbl])).2.1
    simp [hi, fieldsText, hbl, hb]

/-- What the buffer holds in place of a field line that has been parsed. -/
def Field.parsed (f : Field) : List Byte := strToLower f.name ++ 0 :: (f.raw ++ [0, lf])

theorem Field.parsed_length (f : Field) : f.parsed.length = f.line.length + 2 := by
  simp [Field.parsed, Field.line, strToLower_length]
  omega

/-- The end of a line with a colon, after the first line. The byte before the line feed is
overwritten, whatever it is. -/
theorem Reading.line_colon (kind : Kind) (self : HTTPRequest) (c : Byte) (post : List Byte)
    {pre name raw : List Byte} (hpre : pre ≠ []) (hcolon : colon ∉ name)
    (hnul : 0 ∉ name ++ colon :: raw) :
    Reading.line ⟨self, pre ++ (name ++ colon :: raw) ++ c :: lf :: post, pre.length⟩ kind
      (pre.length + (name ++ colon :: raw).length + 1) =
      (self.storeHeader (strToLower name) (afterColon raw (lf :: post)) >>= fun p =>
        .ok (if p.1.isAnError then some (p.1.thrown "read_headers") else none,
          ⟨p.2, pre ++ strToLower name ++ 0 :: (raw ++ 0 :: lf :: post),
            pre.length + (name ++ colon :: raw).length + 2⟩)) := by
  have hpos : pre.length ≠ 0 := fun h0 => hpre (List.length_eq_zero_iff.1 h0)
  have hset : (pre ++ (name ++ colon :: raw) ++ c :: lf :: post).set
      (pre.length + (name ++ colon :: raw).length + 1 - 1) 0
        = pre ++ (name ++ colon :: raw) ++ 0 :: lf :: post :=
    set_append _ _ (by rw [Nat.add_sub_cancel]; exact List.length_append.symm)
  unfold Reading.line
  rw [if_neg (by omega)]
  simp only [hset, if_neg hpos]
  rw [getHeader_colon self hcolon hnul]
  cases self.storeHeader (strToLower name) (afterColon raw (lf :: post)) with
  | error e => rfl
  | ok p => rfl

theorem readHeadersLoop_line (kind : Kind) (self : HTTPRequest) (pre post : List Byte)
    {l : List Byte} (hl : lf ∉ l) (start n : Nat) :
    readHeadersLoop kind (l.length + (n + 1)) pre.length ⟨self, pre ++ l ++ lf :: post, start⟩ =
      (Reading.line ⟨self, pre ++ l ++ lf :: post, start⟩ kind (pre ++ l).length >>= fun p =>
        match p.1 with
        | some t => .ok (t, p.2.self)
        | none => p.2.atEnd (pre ++ l).length >>= fun e =>
          if e then .ok (.create statusOk .null "read_headers", p.2.self)
          else readHeadersLoop kind n ((pre ++ l).length + 1) p.2) := by
  simp only [readHeadersLoop_eq]
  exact readHeadersLoopBy_line (Reading.line · kind) self pre post hl start n

/-- The call through NULL at the end of a line without a colon. -/
theorem Reading.line_noColon {kind : Kind} {self : HTTPRequest} {c : Byte} {post : List Byte}
    {pre s : List Byte} (hpre : pre ≠ []) (hcolon : colon ∉ s) (hnul : 0 ∉ s) :
    Reading.line ⟨self, pre ++ (s ++ [c]) ++ lf :: post, pre.length⟩ kind
      (pre ++ (s ++ [c])).length = .error .nullDeref := by
  have hpos : pre.length ≠ 0 := fun h0 => hpre (List.length_eq_zero_iff.1 h0)
  have hset : (pre ++ (s ++ [c]) ++ lf :: post).set ((pre ++ (s ++ [c])).length - 1) 0 =
      pre ++ s ++ 0 :: lf :: post := by
    rw [← List.append_assoc, List.append_assoc (pre ++ s)]
    exact set_append (pre ++ s) (lf :: post) (by simp)
  unfold Reading.line
  rw [if_neg (by simp)]
  simp only [hset, if_neg hpos]
  rw [getHeader_noColon self hcolon hnul]
  rfl

/-- One field line with the value `v`, when the text behind it is the end of a block or not: an
error, the end, or the next line. The byte before the line feed need not be a carriage return. -/
theorem readHeadersLoop_field (f : Field) {c : Byte} {post v : List Byte} {e : Bool}
    (self : HTTPRequest) (n : Nat) (hc : c ≠ lf) (hpre : pre ≠ [])
    (hdata : afterColon f.raw (lf :: post) = .ok v)
    (hend : ∀ pre self start i, i + 1 = pre.length →
      Reading.atEnd ⟨self, pre ++ post, start⟩ i = .ok e) :
    readHeadersLoop kind (f.line.length + 1 + (n + 1)) pre.length
      ⟨self, pre ++ (f.line ++ c :: lf :: post), pre.length⟩ =
      (self.storeHeader (strToLower f.name) (.ok v) >>= fun p =>
        if p.1.isAnError then .ok (p.1.thrown "read_headers", p.2)
        else if e then .ok (.create statusOk .null "read_headers", p.2)
        else readHeadersLoop kind n (pre ++ f.parsed).length
          ⟨p.2, pre ++ f.parsed ++ post, (pre ++ f.parsed).length⟩) := by
  have hplain : lf ∉ f.line ++ [c] := by
    rw [List.mem_append, not_or, List.mem_singleton]
    exact ⟨f.line_plain.lf_not_mem, hc.symm⟩
  have hline := readHeadersLoop_line kind self pre post hplain pre.length n
  have hstore := Reading.line_colon kind self c post hpre f.name_colon
    f.line_plain.nul_not_mem
  have hbuffer : pre ++ (f.line ++ [c]) ++ lf :: post = pre ++ (f.line ++ c :: lf :: post) := by
    simp
  have hbuffer' : pre ++ (f.name ++ colon :: f.raw) ++ c :: lf :: post =
      pre ++ (f.line ++ c :: lf :: post) := by
    simp [Field.line]
  have hindex : (pre ++ (f.line ++ [c])).length =
      pre.length + (f.name ++ colon :: f.raw).length + 1 := by
    simp [Field.line]
    omega
  rw [hbuffer, List.length_append, List.length_singleton] at hline
  rw [hbuffer', hdata, ← hindex] at hstore
  rw [hline, hstore]
  cases self.storeHeader (strToLower f.name) (.ok v) with
  | error e => rfl
  | ok p =>
    simp only [Exec.ok_bind]
    by_cases herr : p.1.isAnError
    · simp only [if_pos herr]
    · have hparsed : pre ++ strToLower f.name ++ 0 :: (f.raw ++ 0 :: lf :: post) =
          pre ++ f.parsed ++ post := by
        simp [Field.parsed]
      have hnext : pre.length + (f.name ++ colon :: f.raw).length + 2 =
          (pre ++ f.parsed).length := by
        have hlen := f.parsed_length
        unfold Field.line at hlen
        simp only [List.length_append] at hlen ⊢
        omega
      have hsucc : (pre ++ (f.line ++ [c])).length + 1 = (pre ++ f.parsed).length := by
        rw [hindex, ← hnext]
      simp only [if_neg herr]
      rw [hparsed, hnext, hend _ _ _ _ hsucc, Exec.ok_bind, hsucc]

/-- From the beginning of a field line on, the loop stores the fields one after the other. -/
theorem readHeadersLoop_fields (kind : Kind) (pre : List Byte) (f : Field) (fs : List Field)
    (self : HTTPRequest) (n : Nat)
    (hpre : pre ≠ []) (hn : (fieldsText (f :: fs)).length ≤ n) :
    readHeadersLoop kind n pre.length
      ⟨self, pre ++ (fieldsText (f :: fs) ++ [cr, lf, 0]), pre.length⟩ =
      self.storeFields (f :: fs) := by
  have hsplit : ∀ (f : Field) (fs : List Field), fieldsText (f :: fs) ++ [cr, lf, 0] =
      f.line ++ cr :: lf :: (fieldsText fs ++ [cr, lf, 0]) := by
    intro f fs
    simp [fieldsText]
  induction fs generalizing f self pre n with
  | nil =>
    obtain ⟨m, rfl⟩ : ∃ m, n = f.line.length + 1 + (m + 1) :=
      ⟨n - f.line.length - 2, by simp [fieldsText] at hn; omega⟩
    rw [hsplit, readHeadersLoop_field f self m (by decide) hpre (f.afterColon_raw [])
      fun pre self start i => Reading.atEnd_iff pre self [] start i]
    rfl
  | cons g fs ih =>
    have hlen : (fieldsText (f :: g :: fs)).length =
        f.line.length + 2 + (fieldsText (g :: fs)).length := by
      simp [fieldsText]
      omega
    obtain ⟨m, rfl⟩ : ∃ m, n = f.line.length + 1 + (m + 1) :=
      ⟨n - f.line.length - 2, by omega⟩
    rw [hsplit, readHeadersLoop_field f self m (by decide) hpre (f.afterColon_raw (g :: fs))
      fun pre self start i => Reading.atEnd_iff pre self (g :: fs) start i, HTTPRequest.storeFields]
    cases self.storeHeader (strToLower f.name) (.ok (f.data (g :: fs))) with
    | error e => rfl
    | ok p =>
      have h := ih (pre ++ f.parsed) g p.2 m (by simp [hpre]) (by omega)
      simp only [Exec.ok_bind, List.isEmpty_cons]
      rw [h]
      rfl

/-- What the buffer holds in place of the first line. -/
def Head.parsed (q : Head) : List Byte :=
  q.first ++ 0 :: (q.second ++ 0 :: (q.third ++ [0, lf]))

theorem Head.parsed_length (q : Head) : q.parsed.length = q.firstLine.length + 2 := by
  simp [Head.parsed, Head.firstLine]
  omega

/-- The parts of the first line, stored. -/
def HTTPRequest.storeFirst (self : HTTPRequest) (q : Head) (kind : Kind) : HTTPRequest :=
  kind.firstLine.third (kind.firstLine.second (kind.firstLine.first self q.first) q.second) q.third

/-- The end of the first line. The byte before the line feed is overwritten, whatever it is. -/
theorem Reading.line_first (self : HTTPRequest) (q : Head) (c : Byte) :
    Reading.line ⟨self, q.firstLine ++ c :: post, 0⟩ kind (q.firstLine.length + 1) =
      .ok (none, ⟨self.storeFirst q kind,
        q.first ++ 0 :: (q.second ++ 0 :: (q.third ++ 0 :: post)), q.firstLine.length + 2⟩) := by
  have hset : (q.firstLine ++ c :: post).set (q.firstLine.length + 1 - 1) 0 =
      q.firstLine ++ 0 :: post := set_append _ _ rfl
  unfold Reading.line
  rw [if_neg (by omega)]
  simp only [hset, if_true]
  cases kind with
  | rqst =>
    simp only [getRequest]
    rw [FirstLine.get_split]
    rfl
  | resp =>
    simp only [getResponse]
    rw [FirstLine.get_split]
    rfl

/-- The first line, when the text behind it is the end of a block or not. -/
theorem readHeadersLoop_first (self : HTTPRequest) (q : Head) {c : Byte} {post : List Byte}
    {e : Bool} (n : Nat) (hc : c ≠ lf) (hend : ∀ pre self start i, i + 1 = pre.length →
      Reading.atEnd ⟨self, pre ++ post, start⟩ i = .ok e) :
    readHeadersLoop kind (q.firstLine.length + 1 + (n + 1)) 0
      ⟨self, q.firstLine ++ c :: lf :: post, 0⟩ =
      if e then .ok (.create statusOk .null "read_headers", self.storeFirst q kind)
      else readHeadersLoop kind n q.parsed.length
        ⟨self.storeFirst q kind, q.parsed ++ post, q.parsed.length⟩ := by
  have hplain : lf ∉ q.firstLine ++ [c] := by
    rw [List.mem_append, not_or, List.mem_singleton]
    exact ⟨q.firstLine_plain.lf_not_mem, hc.symm⟩
  have hline := readHeadersLoop_line kind self [] post hplain 0 n
  have hbuffer : [] ++ (q.firstLine ++ [c]) ++ lf :: post = q.firstLine ++ c :: lf :: post := by
    simp
  have hindex : ([] ++ (q.firstLine ++ [c])).length = q.firstLine.length + 1 := by simp
  have hparsed : q.first ++ 0 :: (q.second ++ 0 :: (q.third ++ 0 :: lf :: post)) =
      q.parsed ++ post := by
    simp [Head.parsed]
  rw [hbuffer, hindex, List.length_append, List.length_singleton, List.length_nil] at hline
  rw [hline, Reading.line_first, Exec.ok_bind, hparsed, ← q.parsed_length]
  dsimp only
  rw [hend _ _ _ _ q.parsed_length.symm, Exec.ok_bind, q.parsed_length]

/-- **`read_headers` on a header block** stores the parts of the first line and then the fields. -/
theorem readHeaders_text (self : HTTPRequest) (q : Head) (kind : Kind) :
    readHeaders self q.text kind = (self.storeFirst q kind).storeFields q.fields := by
  have hbuffer : q.text ++ [0] =
      q.firstLine ++ cr :: lf :: (fieldsText q.fields ++ [cr, lf, 0]) := by
    simp [Head.text]
  have hlen : q.text.length = q.firstLine.length + 1 + ((fieldsText q.fields).length + 2 + 1) := by
    simp [Head.text]
    omega
  unfold readHeaders
  rw [hbuffer, hlen, readHeadersLoop_first self q _ (by decide)
    fun pre self start i => Reading.atEnd_iff pre self q.fields start i]
  cases hfields : q.fields with
  | nil => rfl
  | cons f fs =>
    exact readHeadersLoop_fields kind q.parsed f fs (self.storeFirst q kind)
      ((fieldsText (f :: fs)).length + 2) (by simp [Head.parsed]) (by omega)

end Loop

/-! ## When it succeeds -/

/-- Every `Content-Length` has a value that `str_to_int` accepts. -/
def Accepted : List Field → Prop
  | [] => True
  | f :: fs => (strToLower f.name = bytes "content-length" → IsInt (f.data fs)) ∧ Accepted fs

/-- All that no field line changes. -/
structure HTTPRequest.Same (a b : HTTPRequest) : Prop where
  reqType : a.reqType = b.reqType
  reqResource : a.reqResource = b.reqResource
  reqProtocol : a.reqProtocol = b.reqProtocol
  respCode : a.respCode = b.respCode
  respMsg : a.respMsg = b.respMsg
  header : a.header = b.header

section Store

variable {self : HTTPRequest}

theorem HTTPRequest.Same.refl (a : HTTPRequest) : a.Same a := ⟨rfl, rfl, rfl, rfl, rfl, rfl⟩

theorem HTTPRequest.Same.trans {a b c : HTTPRequest} (h : a.Same b) (h' : b.Same c) : a.Same c :=
  ⟨h.reqType.trans h'.reqType, h.reqResource.trans h'.reqResource,
    h.reqProtocol.trans h'.reqProtocol, h.respCode.trans h'.respCode,
    h.respMsg.trans h'.respMsg, h.header.trans h'.header⟩

/-- Only a `Content-Length` that is no number is refused. -/
theorem HTTPRequest.storeHeader_spec (self : HTTPRequest) (header v : List Byte) :
    ∃ t self', self.storeHeader header (.ok v) = .ok (t, self') ∧ self'.Same self ∧
      (t.isAnError = false ↔ (header = bytes "content-length" → IsInt v)) := by
  by_cases hlen : header = bytes "content-length"
  · subst hlen
    by_cases hint : (strToInt v).1.isAnError
    · refine ⟨(strToInt v).1.thrown "get_header", { self with reqContentLen := (strToInt v).2 }, ?_,
        ⟨rfl, rfl, rfl, rfl, rfl, rfl⟩, ?_⟩
      · simp [HTTPRequest.storeHeader, hint, bytes]
      · simp [IsInt]
    · refine ⟨.create statusOk .null "get_header", { self with reqContentLen := (strToInt v).2 },
        ?_, ⟨rfl, rfl, rfl, rfl, rfl, rfl⟩, ?_⟩
      · simp [HTTPRequest.storeHeader, hint, bytes]
      · simpa [IsInt] using hint
  · have hok : ∃ self', self.storeHeader header (.ok v) =
        .ok (.create statusOk .null "get_header", self') ∧ self'.Same self := by
      unfold HTTPRequest.storeHeader
      rw [if_neg hlen]
      split
      · exact ⟨_, rfl, rfl, rfl, rfl, rfl, rfl, rfl⟩
      split
      · exact ⟨_, rfl, rfl, rfl, rfl, rfl, rfl, rfl⟩
      split
      · exact ⟨_, rfl, rfl, rfl, rfl, rfl, rfl, rfl⟩
      split
      · exact ⟨_, rfl, rfl, rfl, rfl, rfl, rfl, rfl⟩
      · exact ⟨_, rfl, .refl self⟩
    obtain ⟨self', h, hsame⟩ := hok
    exact ⟨_, self', h, hsame, by simp [hlen]⟩

theorem HTTPRequest.storeFields_spec (self : HTTPRequest) (fs : List Field) :
    ∃ t self', self.storeFields fs = .ok (t, self') ∧ self'.Same self ∧
      (t.isAnError = false ↔ Accepted fs) := by
  induction fs generalizing self with
  | nil => exact ⟨_, self, rfl, .refl self, by simp [Accepted]⟩
  | cons f fs ih =>
    obtain ⟨t, self', h, hsame, hiff⟩ :=
      self.storeHeader_spec (strToLower f.name) (f.data fs)
    rw [HTTPRequest.storeFields, h, Exec.ok_bind]
    by_cases herr : t.isAnError
    · refine ⟨t.thrown "read_headers", self', by simp [herr], hsame, ?_⟩
      rw [Throwable.isAnError_thrown]
      exact ⟨fun h0 => absurd (h0.symm.trans herr) Bool.false_ne_true,
        fun hacc => hiff.2 hacc.1⟩
    · obtain ⟨t', self'', h', hsame', hiff'⟩ := ih self'
      refine ⟨t', self'', by simpa [herr] using h', hsame'.trans hsame, ?_⟩
      rw [hiff']
      exact ⟨fun hacc => ⟨hiff.1 (by simpa using herr), hacc⟩, fun hacc => hacc.2⟩

/-- `read_headers` returns on every header block; it succeeds if every `Content-Length` is a
number, and then the parts of the first line have been stored. -/
theorem readHeaders_spec (self : HTTPRequest) (q : Head) (kind : Kind) :
    ∃ t self', readHeaders self q.text kind = .ok (t, self') ∧
      self'.Same (self.storeFirst q kind) ∧ (t.isAnError = false ↔ Accepted q.fields) := by
  rw [readHeaders_text]
  exact HTTPRequest.storeFields_spec _ _

end Store

/-! ## What the parser keeps -/

/-- The parts of a first line, and every field, keep `P`. -/
structure Kind.Keeps (kind : Kind) (P : HTTPRequest → Prop) : Prop where
  first : ∀ {self : HTTPRequest} (v : List Byte), P self → P (kind.firstLine.first self v)
  second : ∀ {self : HTTPRequest} (v : List Byte), P self → P (kind.firstLine.second self v)
  third : ∀ {self : HTTPRequest} (v : List Byte), P self → P (kind.firstLine.third self v)
  field : ∀ {self self' : HTTPRequest} {header : List Byte} {data : Exec (List Byte)}
    {t : Throwable}, P self → self.storeHeader header data = .ok (t, self') → P self'

section Keeps

variable {kind : Kind} {P : HTTPRequest → Prop} {self self' : HTTPRequest} {t : Throwable}

/-- A field sets what it is the name of; the length is what `str_to_int` stores. -/
theorem HTTPRequest.storeHeader_ok {header : List Byte} {data : Exec (List Byte)}
    (h : self.storeHeader header data = .ok (t, self')) :
    self'.Same self ∧ (self'.reqContentLen = self.reqContentLen ∨
      ∃ v, self'.reqContentLen = (strToInt v).2) := by
  unfold HTTPRequest.storeHeader at h
  split at h
  · obtain ⟨v, -, h⟩ := Exec.bind_ok h
    cases h
    exact ⟨⟨rfl, rfl, rfl, rfl, rfl, rfl⟩, .inl rfl⟩
  split at h
  · obtain ⟨v, -, h⟩ := Exec.bind_ok h
    cases h
    exact ⟨⟨rfl, rfl, rfl, rfl, rfl, rfl⟩, .inl rfl⟩
  split at h
  · obtain ⟨v, -, h⟩ := Exec.bind_ok h
    cases h
    exact ⟨⟨rfl, rfl, rfl, rfl, rfl, rfl⟩, .inl rfl⟩
  split at h
  · obtain ⟨v, -, h⟩ := Exec.bind_ok h
    cases h
    exact ⟨⟨rfl, rfl, rfl, rfl, rfl, rfl⟩, .inl rfl⟩
  split at h
  · obtain ⟨v, -, h⟩ := Exec.bind_ok h
    dsimp only at h
    split at h <;> cases h <;> exact ⟨⟨rfl, rfl, rfl, rfl, rfl, rfl⟩, .inr ⟨v, rfl⟩⟩
  · cases h
    exact ⟨.refl self, .inl rfl⟩

/-- `get_header` stores one field or none. -/
theorem getHeader_ok {buffer : List Byte} {start : Nat} {l : HeaderLine}
    (h : getHeader self buffer start = .ok l) :
    l.self = self ∨ ∃ header data t, self.storeHeader header data = .ok (t, l.self) := by
  rw [getHeader_eq] at h
  obtain ⟨s, -, h⟩ := Exec.bind_ok h
  cases s with
  | none =>
    cases h
    exact .inl rfl
  | some s =>
    obtain ⟨⟨t, self'⟩, hstore, h⟩ := Exec.bind_ok h
    cases h
    exact .inr ⟨s.name, s.data, t, hstore⟩

theorem Kind.Keeps.get {buffer buffer' : List Byte} {len : Nat} (hk : kind.Keeps P)
    (hself : P self) (h : kind.firstLine.get self buffer len = .ok (t, self', buffer')) :
    P self' := by
  unfold FirstLine.get at h
  split at h
  · cases h
    exact hself
  · obtain ⟨v, -, h⟩ := Exec.bind_ok h
    dsimp only at h
    split at h
    · cases h
      exact hk.first v hself
    · obtain ⟨v₂, -, h⟩ := Exec.bind_ok h
      obtain ⟨v₃, -, h⟩ := Exec.bind_ok h
      cases h
      exact hk.third v₃ (hk.second v₂ (hk.first v hself))

/-- The step lemma: a line is parsed. -/
theorem Kind.Keeps.line {r r' : Reading} {i : Nat} {o : Option Throwable} (hk : kind.Keeps P)
    (hr : P r.self) (h : r.line kind i = .ok (o, r')) : P r'.self := by
  unfold Reading.line at h
  split at h
  · cases h
  · dsimp only at h
    split at h
    · cases kind with
      | rqst =>
        obtain ⟨⟨t, self', buffer'⟩, hget, h⟩ := Exec.bind_ok h
        cases h
        exact hk.get hr hget
      | resp =>
        obtain ⟨⟨t, self', buffer'⟩, hget, h⟩ := Exec.bind_ok h
        cases h
        exact hk.get hr hget
    · obtain ⟨l, hl, h⟩ := Exec.bind_ok h
      have hself : P l.self := by
        rcases getHeader_ok hl with heq | ⟨header, data, t, hstore⟩
        · rw [heq]
          exact hr
        · exact hk.field hr hstore
      split at h <;> cases h
      exact hself

/-- **What a line keeps, `read_headers` keeps.** The induction is on the passes to go. -/
theorem Kind.Keeps.readHeadersLoop {n i : Nat} {r : Reading} (hk : kind.Keeps P) (hr : P r.self)
    (h : readHeadersLoop kind n i r = .ok (t, self')) : P self' := by
  induction n generalizing i r with
  | zero =>
    cases h
    exact hr
  | succ n ih =>
    unfold Http.readHeadersLoop at h
    split at h
    · cases h
    split at h
    · obtain ⟨⟨o, r'⟩, hline, h⟩ := Exec.bind_ok h
      have hr' := hk.line hr hline
      dsimp only at h
      split at h
      · cases h
        exact hr'
      · obtain ⟨e, -, h⟩ := Exec.bind_ok h
        split at h
        · cases h
          exact hr'
        · exact ih hr' h
    · exact ih hr h

theorem Kind.Keeps.readHeaders {string : List Byte} (hk : kind.Keeps P) (hself : P self)
    (h : readHeaders self string kind = .ok (t, self')) : P self' :=
  hk.readHeadersLoop hself h

end Keeps

end Heimdall.Http
