import Heimdall.Lib.Keyed
import Heimdall.Scheduler.ApacheStatus

/-!
# Status pages in the documented form

A page of the documented form has lines `KEY: VALUE`. `parse_apache_status` reads such a page up to
the first value that is no number, and every number goes to the field that its key names
(`parseApacheStatusLoop_page`). So a field holds what the last line with its key says, and what it
held before if there is none (`parseApacheStatus_page`).
-/

namespace Heimdall.Scheduler

open Heimdall.Http Keyed

structure StatusLine where
  key : List Byte
  value : List Byte
  key_ascii : ∀ b ∈ key, b < 128
  key_colon : colon ∉ key
  key_lf : lf ∉ key
  key_nul : 0 ∉ key
  value_lf : lf ∉ value
  value_nul : 0 ∉ value

/-- `KEY ':' SP VALUE LF`. -/
def StatusLine.text (l : StatusLine) : List Byte := l.key ++ [colon, sp] ++ l.value ++ [lf]

def pageText (ls : List StatusLine) : List Byte := ls.flatMap StatusLine.text

/-- The key as it is compared, and the value. -/
def StatusLine.entry (l : StatusLine) : List Byte × List Byte := (strToLower l.key, l.value)

def entries (ls : List StatusLine) : List (List Byte × List Byte) := ls.map StatusLine.entry

def intKeys : List (List Byte) :=
  ["total accesses", "total kbytes", "uptime", "busyworkers", "idleworkers"].map bytes

def floatKeys : List (List Byte) :=
  ["cpuload", "reqpersec", "bytespersec", "bytesperreq"].map bytes

/-- The value of a line is a number, if its key asks for one. -/
def StatusLine.Accepted (strtof : List Byte → FloatRead) (l : StatusLine) : Prop :=
  (strToLower l.key ∈ intKeys → IsInt l.value) ∧
    (strToLower l.key ∈ floatKeys → (strToFloat strtof l.value).1.isAnError = false)

/-- What an entry changes. -/
def ApacheServerStatus.store (strtof : List Byte → FloatRead) (self : ApacheServerStatus)
    (e : List Byte × List Byte) : ApacheServerStatus :=
  match (dataFields strtof).find? (fun f => f.name = e.1) with
  | some f => (f.read e.2).2 self
  | none => self

/-- The status with the last value for each of the nine keys, where there is one. -/
def ApacheServerStatus.withEntries (strtof : List Byte → FloatRead) (self : ApacheServerStatus)
    (es : List (List Byte × List Byte)) : ApacheServerStatus :=
  let int (key : String) (old : Int) : Int :=
    ((last (bytes key) es).map fun v => (strToInt v).2).getD old
  let float (key : String) (old : UInt32) : UInt32 :=
    ((last (bytes key) es).map fun v => (strToFloat strtof v).2).getD old
  { self with
    totalAccesses := int "total accesses" self.totalAccesses
    totalKBytes := int "total kbytes" self.totalKBytes
    cpuLoad := float "cpuload" self.cpuLoad
    uptime := int "uptime" self.uptime
    reqPerSec := float "reqpersec" self.reqPerSec
    bytesPerSec := float "bytespersec" self.bytesPerSec
    bytesPerReq := float "bytesperreq" self.bytesPerReq
    busyWorkers := int "busyworkers" self.busyWorkers
    idleWorkers := int "idleworkers" self.idleWorkers }

/-! ## One line -/

section Line

variable {strtof : List Byte → FloatRead} {self : ApacheServerStatus}

theorem dataNames_nodup : dataNames.Nodup := by decide

/-- The comparisons with names that are all different: the data go to the first field that has the
name, and the comparisons after it fail. -/
theorem ApacheServerStatus.storeData_find (self : ApacheServerStatus) (text v : List Byte)
    (fs : List DataField) (hfs : (fs.map (·.name)).Nodup) :
    ∃ t, self.storeData text (.ok v) fs =
      .ok (t, match fs.find? (fun f => f.name = text) with
        | some f => (f.read v).2 self
        | none => self) := by
  induction fs with
  | nil => exact ⟨_, rfl⟩
  | cons f fs ih =>
    rw [List.map_cons, List.nodup_cons] at hfs
    by_cases htext : text = f.name
    · subst htext
      rw [ApacheServerStatus.storeData, if_pos rfl, Exec.ok_bind, List.find?_cons_of_pos (by simp)]
      dsimp only
      by_cases herr : (f.read v).1.isAnError
      · exact ⟨_, by rw [if_pos herr]⟩
      · exact ⟨_, by rw [if_neg herr, ApacheServerStatus.storeData_of_not_mem hfs.1]⟩
    · have hne : ¬ f.name = text := fun h => htext h.symm
      rw [ApacheServerStatus.storeData, if_neg htext, List.find?_cons_of_neg (by simpa using hne)]
      exact ih hfs.2

theorem intKeys_floatKeys {key : List Byte} (hint : key ∈ intKeys) : key ∉ floatKeys := by
  have hall : intKeys.all (fun key => key ∉ floatKeys) = true := by decide
  simpa using List.all_eq_true.1 hall key hint

theorem intKeys_subset : intKeys ⊆ dataNames := by decide

theorem floatKeys_subset : floatKeys ⊆ dataNames := by decide

/-- What a field is read with. -/
theorem dataFields_read {f : DataField} (hf : f ∈ dataFields strtof) (v : List Byte) :
    f.name ∈ intKeys ∧ (f.read v).1 = (strToInt v).1 ∨
      f.name ∈ floatKeys ∧ (f.read v).1 = (strToFloat strtof v).1 := by
  simp only [dataFields, List.mem_cons, List.not_mem_nil, or_false] at hf
  rcases hf with rfl | rfl | rfl | rfl | rfl | rfl | rfl | rfl | rfl <;>
    first
    | exact .inl ⟨by simp [intField, intKeys], rfl⟩
    | exact .inr ⟨by simp [floatField, floatKeys], rfl⟩

theorem exists_dataField (strtof : List Byte → FloatRead) {key : List Byte}
    (hkey : key ∈ dataNames) : ∃ f ∈ dataFields strtof, f.name = key := by
  rw [← dataFields_names strtof] at hkey
  exact List.mem_map.1 hkey

/-- Which values are refused. -/
theorem dataFields_refuse (strtof : List Byte → FloatRead) (l : StatusLine) :
    (∃ f ∈ dataFields strtof, strToLower l.key = f.name ∧ (f.read l.value).1.isAnError) ↔
      ¬ l.Accepted strtof := by
  constructor
  · rintro ⟨f, hf, hname, herr⟩ ⟨hint, hfloat⟩
    rcases dataFields_read hf l.value with ⟨hmem, hread⟩ | ⟨hmem, hread⟩
    · rw [hread, hint (hname ▸ hmem)] at herr
      cases herr
    · rw [hread, hfloat (hname ▸ hmem)] at herr
      cases herr
  · intro h
    by_contra hno
    push Not at hno
    refine h ⟨fun hkey => ?_, fun hkey => ?_⟩
    · obtain ⟨f, hf, hname⟩ := exists_dataField strtof (intKeys_subset hkey)
      have hok := hno f hf hname.symm
      rcases dataFields_read hf l.value with ⟨-, hread⟩ | ⟨hmem, -⟩
      · rw [hread] at hok
        exact Bool.eq_false_iff.2 hok
      · exact absurd (hname ▸ hmem) (intKeys_floatKeys hkey)
    · obtain ⟨f, hf, hname⟩ := exists_dataField strtof (floatKeys_subset hkey)
      have hok := hno f hf hname.symm
      rcases dataFields_read hf l.value with ⟨hmem, -⟩ | ⟨-, hread⟩
      · exact absurd hkey (intKeys_floatKeys (hname ▸ hmem))
      · rw [hread] at hok
        exact Bool.eq_false_iff.2 hok

variable (strtof) in
/-- **One line**: an error if the value is no number, and it is stored. -/
theorem ApacheServerStatus.storeData_entry (self : ApacheServerStatus) (l : StatusLine) :
    ∃ t, self.storeData (strToLower l.key) (.ok l.value) (dataFields strtof) =
        .ok (t, self.store strtof l.entry) ∧ (t.isAnError = false ↔ l.Accepted strtof) := by
  obtain ⟨t, ht⟩ :=
    self.storeData_find (strToLower l.key) l.value (dataFields strtof) dataNames_nodup
  obtain ⟨t', self', ht', herr⟩ :=
    self.storeData_ok (strToLower l.key) l.value (dataFields strtof)
  obtain ⟨rfl, rfl⟩ := Prod.mk.inj (Except.ok.inj (ht.symm.trans ht'))
  refine ⟨t, ht, ?_⟩
  rw [← not_iff_not, ← dataFields_refuse, ← herr, Bool.not_eq_false]

/-- The field that an entry is stored in. -/
theorem store_cases (strtof : List Byte → FloatRead) (self : ApacheServerStatus)
    (e : List Byte × List Byte) :
    (e.1 ∉ dataNames ∧ self.store strtof e = self) ∨
      ∃ f ∈ dataFields strtof, f.name = e.1 ∧ self.store strtof e = (f.read e.2).2 self := by
  unfold ApacheServerStatus.store
  cases hfind : (dataFields strtof).find? (fun f => f.name = e.1) with
  | none =>
    refine .inl ⟨?_, rfl⟩
    rw [← dataFields_names strtof, List.mem_map]
    rintro ⟨f, hf, hname⟩
    simpa [hname] using List.find?_eq_none.1 hfind f hf
  | some f =>
    refine .inr ⟨f, List.mem_of_find?_eq_some hfind, ?_, rfl⟩
    simpa using List.find?_some hfind

end Line

/-! ## The fields -/

section Fields

variable {strtof : List Byte → FloatRead}

/-- What an entry does to each of the fields: those with another name keep their value. -/
theorem store_fields (strtof : List Byte → FloatRead) (self : ApacheServerStatus)
    (e : List Byte × List Byte) :
    self.store strtof e =
      { statusPage := self.statusPage
        totalAccesses :=
          if e.1 = bytes "total accesses" then (strToInt e.2).2 else self.totalAccesses
        totalKBytes := if e.1 = bytes "total kbytes" then (strToInt e.2).2 else self.totalKBytes
        cpuLoad := if e.1 = bytes "cpuload" then (strToFloat strtof e.2).2 else self.cpuLoad
        uptime := if e.1 = bytes "uptime" then (strToInt e.2).2 else self.uptime
        reqPerSec := if e.1 = bytes "reqpersec" then (strToFloat strtof e.2).2 else self.reqPerSec
        bytesPerSec :=
          if e.1 = bytes "bytespersec" then (strToFloat strtof e.2).2 else self.bytesPerSec
        bytesPerReq :=
          if e.1 = bytes "bytesperreq" then (strToFloat strtof e.2).2 else self.bytesPerReq
        busyWorkers := if e.1 = bytes "busyworkers" then (strToInt e.2).2 else self.busyWorkers
        idleWorkers :=
          if e.1 = bytes "idleworkers" then (strToInt e.2).2 else self.idleWorkers } := by
  rcases store_cases strtof self e with ⟨hname, heq⟩ | ⟨f, hf, hname, heq⟩
  · simp only [dataNames, List.map_cons, List.map_nil, List.mem_cons, List.not_mem_nil, or_false,
      not_or] at hname
    rw [heq]
    simp only [hname, if_false]
  · rw [heq, ← hname]
    simp only [dataFields, List.mem_cons, List.not_mem_nil, or_false] at hf
    rcases hf with rfl | rfl | rfl | rfl | rfl | rfl | rfl | rfl | rfl <;> rfl

end Fields

/-! ## The page -/

section Page

variable {strtof : List Byte → FloatRead}

theorem entries_cons (l : StatusLine) (ls : List StatusLine) :
    entries (l :: ls) = l.entry :: entries ls := rfl

/-- A line begins neither with a line feed nor with a NUL. -/
theorem pageText_head (l : StatusLine) (ls : List StatusLine) :
    ∃ b rest, pageText (l :: ls) = b :: rest ∧ b ≠ lf ∧ b ≠ 0 := by
  unfold pageText StatusLine.text
  rw [List.flatMap_cons]
  cases hkey : l.key with
  | nil => exact ⟨colon, _, rfl, by decide, by decide⟩
  | cons b key =>
    refine ⟨b, _, rfl, ?_, ?_⟩
    · intro h
      exact l.key_lf (by simp [hkey, h])
    · intro h
      exact l.key_nul (by simp [hkey, h])

/-- What the buffer holds in place of a line that has been parsed. -/
def StatusLine.parsed (l : StatusLine) : List Byte :=
  strToLower l.key ++ 0 :: (sp :: l.value ++ [0])

theorem StatusLine.text_length (l : StatusLine) :
    l.text.length = (l.key ++ colon :: (sp :: l.value)).length + 1 := by
  simp [StatusLine.text]
  omega

theorem StatusLine.parsed_length (l : StatusLine) : l.parsed.length = l.text.length := by
  simp [StatusLine.parsed, StatusLine.text, strToLower_length]

/-- One line of a page, with `b` behind it: an error, the end of the page, or the next line. -/
theorem parseApacheStatusLoop_entry (l : StatusLine) (self : ApacheServerStatus)
    (pre post : List Byte) (b : Byte) (n : Nat) :
    parseApacheStatusLoop (Parsing.line strtof) (l.text.length + n) pre.length
      ⟨self, pre ++ (l.text ++ b :: post), pre.length⟩ =
      (self.storeData (strToLower l.key) (.ok l.value) (dataFields strtof) >>= fun p =>
        if p.1.isAnError then .ok (p.1.thrown "parse_apache_status", p.2)
        else if b = lf ∨ b = 0 then .ok (.create statusOk .null "parse_apache_status", p.2)
        else parseApacheStatusLoop (Parsing.line strtof) n (pre ++ l.parsed).length
          ⟨p.2, pre ++ l.parsed ++ b :: post, (pre ++ l.parsed).length⟩) := by
  have hlf : lf ∉ l.key ++ colon :: (sp :: l.value) := by
    have hsep : lf ≠ colon ∧ lf ≠ sp := by decide
    simp [l.key_lf, l.value_lf, hsep]
  have hnul : 0 ∉ l.key ++ colon :: (sp :: l.value) := by
    simp [l.key_nul, l.value_nul, colon, sp]
  have htext : pre ++ (l.text ++ b :: post) =
      pre ++ (l.key ++ colon :: (sp :: l.value)) ++ lf :: (b :: post) := by
    simp [StatusLine.text]
  have hlen : l.text.length + n = (l.key ++ colon :: (sp :: l.value)).length + (n + 1) := by
    rw [l.text_length]
    omega
  have hend : (pre ++ (l.key ++ colon :: (sp :: l.value))).length + 1 =
      (pre ++ l.parsed).length := by
    simp only [List.length_append, l.parsed_length, l.text_length, Nat.add_assoc]
  have hbuffer : pre ++ strToLower l.key ++ 0 :: (sp :: l.value ++ 0 :: (b :: post)) =
      pre ++ l.parsed ++ b :: post := by
    simp [StatusLine.parsed]
  rw [htext, hlen, parseApacheStatusLoop_line _ self pre (b :: post) hlf hnul,
    Parsing.line_colon self pre (b :: post) l.key_colon hnul, hbuffer, hend]
  change (self.storeData (strToLower l.key) (.ok l.value) (dataFields strtof) >>= _) >>= _ = _
  cases self.storeData (strToLower l.key) (.ok l.value) (dataFields strtof) with
  | error e => rfl
  | ok p =>
    have hget : (pre ++ l.parsed ++ b :: post)[(pre ++ l.parsed).length]? = some b := by simp
    simp only [Exec.ok_bind]
    by_cases herr : p.1.isAnError
    · simp only [if_pos herr]
    · simp only [if_neg herr, hget]

variable (strtof) in
/-- **The loop over a page.** The induction is on the lines; `pre` is what stands before them in the
buffer. -/
theorem parseApacheStatusLoop_page (l : StatusLine) (ls : List StatusLine)
    (self : ApacheServerStatus) (pre : List Byte) (n : Nat) :
    ∃ t self', parseApacheStatusLoop (Parsing.line strtof) ((pageText (l :: ls)).length + n)
        pre.length ⟨self, pre ++ (pageText (l :: ls) ++ [0]), pre.length⟩ = .ok (t, self') ∧
      (t.isAnError = false ↔ ∀ x ∈ l :: ls, x.Accepted strtof) ∧
      (t.isAnError = false →
        self' = (entries (l :: ls)).foldl (ApacheServerStatus.store strtof) self) := by
  induction ls generalizing l self pre n with
  | nil =>
    obtain ⟨t, hstore, ht⟩ := self.storeData_entry strtof l
    have hpage : pageText [l] = l.text := List.append_nil l.text
    rw [hpage, parseApacheStatusLoop_entry, hstore, Exec.ok_bind, List.forall_mem_singleton, ← ht]
    cases herr : t.isAnError with
    | true =>
      exact ⟨t.thrown "parse_apache_status", self.store strtof l.entry, by simp,
        by simp [herr], by simp [herr]⟩
    | false =>
      exact ⟨.create statusOk .null "parse_apache_status", self.store strtof l.entry,
        by simp, by simp, fun _ => rfl⟩
  | cons m ls ih =>
    obtain ⟨t, hstore, ht⟩ := self.storeData_entry strtof l
    obtain ⟨b, rest, hb, hlf, hnul⟩ := pageText_head m ls
    have hpage : pageText (l :: m :: ls) ++ [0] = l.text ++ b :: (rest ++ [0]) := by
      rw [pageText, List.flatMap_cons, ← pageText, hb]
      simp
    have hlen : (pageText (l :: m :: ls)).length + n =
        l.text.length + ((pageText (m :: ls)).length + n) := by
      rw [pageText, List.flatMap_cons, ← pageText, List.length_append]
      omega
    rw [hpage, hlen, parseApacheStatusLoop_entry, hstore, Exec.ok_bind, List.forall_mem_cons, ← ht]
    cases herr : t.isAnError with
    | true =>
      exact ⟨t.thrown "parse_apache_status", self.store strtof l.entry, by simp,
        by simp [herr], by simp [herr]⟩
    | false =>
      obtain ⟨t', self', hrest, ht', hself'⟩ := ih m (self.store strtof l.entry) (pre ++ l.parsed) n
      refine ⟨t', self', ?_, by simpa using ht', hself'⟩
      simpa [herr, hlf, hnul, hb] using hrest

variable (strtof) in
theorem foldl_statusPage (self : ApacheServerStatus) (es : List (List Byte × List Byte)) :
    (es.foldl (ApacheServerStatus.store strtof) self).statusPage = self.statusPage := by
  induction es generalizing self with
  | nil => rfl
  | cons e es ih => rw [List.foldl_cons, ih, store_fields]

variable (strtof) in
/-- The fields after all lines. -/
theorem foldl_store (self : ApacheServerStatus) (es : List (List Byte × List Byte)) :
    es.foldl (ApacheServerStatus.store strtof) self = self.withEntries strtof es := by
  have hint : ∀ (key : List Byte) (get : ApacheServerStatus → Int),
      (∀ s e, get (s.store strtof e) = if e.1 = key then (strToInt e.2).2 else get s) →
      get (es.foldl (ApacheServerStatus.store strtof) self) =
        ((last key es).map fun v => (strToInt v).2).getD (get self) :=
    fun key get h => foldl_get (fun v => (strToInt v).2) h self es
  have hfloat : ∀ (key : List Byte) (get : ApacheServerStatus → UInt32),
      (∀ s e, get (s.store strtof e) = if e.1 = key then (strToFloat strtof e.2).2 else get s) →
      get (es.foldl (ApacheServerStatus.store strtof) self) =
        ((last key es).map fun v => (strToFloat strtof v).2).getD (get self) :=
    fun key get h => foldl_get (fun v => (strToFloat strtof v).2) h self es
  have hstatusPage := foldl_statusPage strtof self es
  have htotalAccesses := hint (bytes "total accesses") (·.totalAccesses) fun s e => by
    rw [store_fields]
  have htotalKBytes := hint (bytes "total kbytes") (·.totalKBytes) fun s e => by rw [store_fields]
  have hcpuLoad := hfloat (bytes "cpuload") (·.cpuLoad) fun s e => by rw [store_fields]
  have huptime := hint (bytes "uptime") (·.uptime) fun s e => by rw [store_fields]
  have hreqPerSec := hfloat (bytes "reqpersec") (·.reqPerSec) fun s e => by rw [store_fields]
  have hbytesPerSec := hfloat (bytes "bytespersec") (·.bytesPerSec) fun s e => by rw [store_fields]
  have hbytesPerReq := hfloat (bytes "bytesperreq") (·.bytesPerReq) fun s e => by rw [store_fields]
  have hbusyWorkers := hint (bytes "busyworkers") (·.busyWorkers) fun s e => by rw [store_fields]
  have hidleWorkers := hint (bytes "idleworkers") (·.idleWorkers) fun s e => by rw [store_fields]
  unfold ApacheServerStatus.withEntries
  dsimp only
  rw [← hstatusPage, ← htotalAccesses, ← htotalKBytes, ← hcpuLoad, ← huptime, ← hreqPerSec,
    ← hbytesPerSec, ← hbytesPerReq, ← hbusyWorkers, ← hidleWorkers]

/-- **`parse_apache_status` on a page in the documented form.** It returns; it succeeds exactly when
every value of a line with one of the nine keys is a number of its kind, and then every field holds
the value of the last line with its key, or else what it held before. -/
theorem parseApacheStatus_page (strtof : List Byte → FloatRead) (status : ApacheServerStatus)
    (l : StatusLine) (ls : List StatusLine) :
    ∃ t self, parseApacheStatus strtof true
        { status with statusPage := some (pageText (l :: ls)) } = .ok (t, self) ∧
      (t.isAnError = false ↔ ∀ x ∈ l :: ls, x.Accepted strtof) ∧
      (t.isAnError = false → self =
        ({ status with statusPage := some (pageText (l :: ls)) } : ApacheServerStatus).withEntries
          strtof (entries (l :: ls))) := by
  obtain ⟨t, self, hloop, ht, hself⟩ := parseApacheStatusLoop_page strtof l ls
    { status with statusPage := some (pageText (l :: ls)) } [] 1
  refine ⟨t, self, hloop, ht, ?_⟩
  intro herr
  rw [hself herr, foldl_store]

end Page

end Heimdall.Scheduler
