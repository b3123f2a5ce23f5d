import Heimdall.Http.Head

/-!
# Header blocks in the documented form

A block of the documented form has a space between the colon and the value of every header
(`HeaderBlock`). On such a block `read_headers` stores the value of the last header of each of the
five names it knows, and refuses the block only for a `Content-Length` that `str_to_int` refuses
(`readHeaders_headerBlock`).
-/

namespace Heimdall.Http

structure Header where
  name : List Byte
  value : List Byte
  name_ascii : ∀ b ∈ name, b < 128
  name_plain : Plain name
  name_colon : colon ∉ name
  value_plain : Plain value

/-- `NAME ':' SP VALUE CR LF`. -/
def Header.text (h : Header) : List Byte := h.name ++ [colon, sp] ++ h.value ++ [cr, lf]

/-- A first line of three parts, any headers, and an empty line. -/
structure HeaderBlock where
  first : List Byte
  second : List Byte
  third : List Byte
  headers : List Header
  first_plain : Plain first
  first_space : sp ∉ first
  second_plain : Plain second
  second_space : sp ∉ second
  third_plain : Plain third

def HeaderBlock.firstLine (b : HeaderBlock) : List Byte :=
  b.first ++ [sp] ++ b.second ++ [sp] ++ b.third

def HeaderBlock.text (b : HeaderBlock) : List Byte :=
  b.firstLine ++ [cr, lf] ++ b.headers.flatMap Header.text ++ [cr, lf]

/-! ## The fields of the headers -/

def Header.field (h : Header) : Field where
  name := h.name
  raw := sp :: h.value
  name_plain := h.name_plain
  name_colon := h.name_colon
  raw_plain := .cons sp_plain h.value_plain

def HeaderBlock.head (b : HeaderBlock) : Head where
  first := b.first
  second := b.second
  third := b.third
  fields := b.headers.map Header.field
  first_plain := b.first_plain
  first_space := b.first_space
  second_plain := b.second_plain
  second_space := b.second_space
  third_plain := b.third_plain

/-- The value of the last header of a name, which is given in lower case. -/
def lastValue (name : List Byte) (hs : List Header) : Option (List Byte) :=
  (hs.reverse.find? fun h => strToLower h.name = name).map Header.value

/-- Every `Content-Length` is one that `str_to_int` accepts. -/
def LengthsAccepted (hs : List Header) : Prop :=
  ∀ h ∈ hs, strToLower h.name = bytes "content-length" → IsInt h.value

/-- The request with the last value of each name, where there is one. -/
def HTTPRequest.withHeaders (self : HTTPRequest) (hs : List Header) : HTTPRequest :=
  { self with
    reqAccept := (lastValue (bytes "accept") hs).or self.reqAccept
    reqFrom := (lastValue (bytes "from") hs).or self.reqFrom
    reqHost := (lastValue (bytes "host") hs).or self.reqHost
    reqContentType := (lastValue (bytes "content-type") hs).or self.reqContentType
    reqContentLen :=
      ((lastValue (bytes "content-length") hs).map fun v => (strToInt v).2).getD
        self.reqContentLen }

section Headers

variable {self : HTTPRequest} {h : Header} {hs : List Header}

theorem fieldsText_headers (hs : List Header) :
    fieldsText (hs.map Header.field) = hs.flatMap Header.text := by
  induction hs with
  | nil => rfl
  | cons h hs ih =>
    have hline : h.field.line ++ [cr, lf] = h.text := by
      simp [Field.line, Header.field, Header.text]
    rw [List.map_cons, fieldsText, List.flatMap_cons, hline, List.flatMap_cons, ← ih]
    rfl

theorem HeaderBlock.head_text (b : HeaderBlock) : b.head.text = b.text := by
  unfold Head.text HeaderBlock.text
  rw [HeaderBlock.head, fieldsText_headers]
  simp [Head.firstLine, HeaderBlock.firstLine]

theorem lastValue_single (name : List Byte) (h : Header) :
    lastValue name [h] = if strToLower h.name = name then some h.value else none := by
  unfold lastValue
  by_cases hn : strToLower h.name = name <;> simp [hn]

/-- A later header hides an earlier one. -/
theorem lastValue_cons (name : List Byte) (h : Header) (hs : List Header) :
    lastValue name (h :: hs) = (lastValue name hs).or (lastValue name [h]) := by
  unfold lastValue
  rw [List.reverse_cons, List.find?_append, List.reverse_singleton, Option.map_or]

theorem HTTPRequest.withHeaders_cons (self : HTTPRequest) (h : Header) (hs : List Header) :
    self.withHeaders (h :: hs) = (self.withHeaders [h]).withHeaders hs := by
  unfold withHeaders
  simp only [lastValue_cons _ h hs, Option.or_assoc]
  cases lastValue (bytes "content-length") hs <;> rfl

/-- **One header**: an error for a `Content-Length` that is no number, and otherwise its value. -/
theorem HTTPRequest.storeHeader_header (self : HTTPRequest) (h : Header) :
    ∃ t, self.storeHeader (strToLower h.name) (.ok h.value) = .ok (t, self.withHeaders [h]) ∧
      (t.isAnError = false ↔ LengthsAccepted [h]) := by
  obtain ⟨t, self', hstore, -, hiff⟩ := self.storeHeader_spec (strToLower h.name) h.value
  refine ⟨t, ?_, hiff.trans ?_⟩
  · have hself : self' = self.withHeaders [h] := by
      unfold HTTPRequest.storeHeader at hstore
      unfold withHeaders
      simp only [lastValue_single]
      generalize strToLower h.name = header at hstore ⊢
      by_cases h₁ : header = bytes "accept"
      · subst h₁
        cases hstore
        rfl
      by_cases h₂ : header = bytes "from"
      · subst h₂
        cases hstore
        rfl
      by_cases h₃ : header = bytes "host"
      · subst h₃
        cases hstore
        rfl
      by_cases h₄ : header = bytes "content-type"
      · subst h₄
        cases hstore
        rfl
      by_cases h₅ : header = bytes "content-length"
      · subst h₅
        simp only [if_neg h₁, if_neg h₂, if_neg h₃, if_neg h₄, if_true, Exec.ok_bind] at hstore ⊢
        split at hstore <;> cases hstore <;> rfl
      · simp only [if_neg h₁, if_neg h₂, if_neg h₃, if_neg h₄, if_neg h₅] at hstore ⊢
        cases hstore
        rfl
    rw [hstore, hself]
  · constructor
    · intro hlen g hg
      rw [List.mem_singleton.1 hg]
      exact hlen
    · intro hacc
      exact hacc h (List.mem_singleton.2 rfl)

/-- **All headers.** The induction is on the list; what is stored for its head is hidden by what
the tail has. -/
theorem HTTPRequest.storeFields_headers (self : HTTPRequest) (hs : List Header) :
    ∃ t self', self.storeFields (hs.map Header.field) = .ok (t, self') ∧
      (t.isAnError = false ↔ LengthsAccepted hs) ∧
      (t.isAnError = false → self' = self.withHeaders hs) := by
  induction hs generalizing self with
  | nil =>
    refine ⟨_, self, rfl, iff_of_true rfl ?_, fun _ => rfl⟩
    intro h hm
    cases hm
  | cons h hs ih =>
    obtain ⟨t, hstore, hiff⟩ := self.storeHeader_header h
    have hsplit : LengthsAccepted (h :: hs) ↔ LengthsAccepted [h] ∧ LengthsAccepted hs := by
      unfold LengthsAccepted
      rw [List.forall_mem_cons, List.forall_mem_singleton]
    have hdata : h.field.data (hs.map Header.field) = h.value := rfl
    rw [List.map_cons, storeFields, hdata, show h.field.name = h.name from rfl, hstore,
      Exec.ok_bind, hsplit, self.withHeaders_cons h hs]
    cases herr : t.isAnError with
    | true =>
      have hbad : ¬ LengthsAccepted [h] := by
        rw [← hiff, herr]
        exact Bool.noConfusion
      refine ⟨t.thrown "read_headers", self.withHeaders [h], by simp only [herr, if_true], ?_, ?_⟩
      · rw [Throwable.isAnError_thrown, herr]
        exact iff_of_false Bool.noConfusion fun hacc => hbad hacc.1
      · rw [Throwable.isAnError_thrown, herr]
        exact Bool.noConfusion
    | false =>
      obtain ⟨t', self', hrest, hiff', hstored⟩ := ih (self.withHeaders [h])
      refine ⟨t', self', by simp only [herr, Bool.false_eq_true, if_false, hrest], ?_, hstored⟩
      rw [hiff']
      exact ⟨fun hacc => ⟨hiff.1 herr, hacc⟩, fun hacc => hacc.2⟩

end Headers

/-! ## The block -/

/-- A request or response with the three parts of its first line and the values of its headers. -/
def HeaderBlock.read (b : HeaderBlock) (kind : Kind) : HTTPRequest :=
  let self :=
    match kind with
    | .rqst =>
      { newHttpRequest with
        reqType := some b.first
        reqResource := some b.second
        reqProtocol := some b.third }
    | .resp =>
      { newHttpRequest with
        reqProtocol := some b.first
        respCode := some b.second
        respMsg := some b.third }
  self.withHeaders b.headers

/-- **`read_headers` on a block in the documented form.** It returns; it succeeds exactly when every
`Content-Length` is accepted, and then what it has read is the first line and the last header of
each name. -/
theorem readHeaders_headerBlock (b : HeaderBlock) (kind : Kind) :
    ∃ t self, readHeaders newHttpRequest b.text kind = .ok (t, self) ∧
      (t.isAnError = false ↔ LengthsAccepted b.headers) ∧
      (t.isAnError = false → self = b.read kind) := by
  obtain ⟨t, self, hstore, hiff, hstored⟩ :=
    (newHttpRequest.storeFirst b.head kind).storeFields_headers b.headers
  refine ⟨t, self, ?_, hiff, ?_⟩
  · rw [← b.head_text, readHeaders_text]
    exact hstore
  · intro ht
    rw [hstored ht]
    cases kind <;> rfl

end Heimdall.Http
