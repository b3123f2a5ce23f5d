import Heimdall.Http.HeaderLines

/-!
# The status page of a server (`apache_status.c`)

`parse_apache_status` takes a copy of the status page apart at its line feeds and hands every line
to `get_data`. As for `read_headers`, `parseApacheStatusWithin` is the function with nothing of the
buffer but the line before `get_data`, and a run of it that returns is a run that has read and
written only the line that was parsed (`parseApacheStatusWithin_sound`).

It returns exactly if the copy could be allocated, and every line that is reached has a colon, and
behind the colon of a name that `get_data` looks for another byte (`parseApacheStatusWithin_iff`).
-/

namespace Heimdall.Scheduler

open Heimdall.Http Lines

/-- A `float` is the bits of its value. -/
structure ApacheServerStatus where
  statusPage : Option (List Byte)
  totalAccesses : Int
  totalKBytes : Int
  cpuLoad : UInt32
  uptime : Int
  reqPerSec : UInt32
  bytesPerSec : UInt32
  bytesPerReq : UInt32
  busyWorkers : Int
  idleWorkers : Int
  deriving DecidableEq

/-- The bits of `-1`. -/
def floatMinusOne : UInt32 := 0xBF800000

def newApacheServerStatus : ApacheServerStatus :=
  ⟨none, -1, -1, floatMinusOne, -1, floatMinusOne, floatMinusOne, floatMinusOne, -1, -1⟩

/-! ## One line -/

/-- A name that `get_data` looks for: how its data are read and stored, and the name under which an
error is passed on. -/
structure DataField where
  name : List Byte
  read : List Byte → Throwable × (ApacheServerStatus → ApacheServerStatus)
  caller : String

def intField (name caller : String) (set : ApacheServerStatus → Int → ApacheServerStatus) :
    DataField :=
  ⟨bytes name, fun data => ((strToInt data).1, fun self => set self (strToInt data).2), caller⟩

def floatField (strtof : List Byte → FloatRead) (name caller : String)
    (set : ApacheServerStatus → UInt32 → ApacheServerStatus) : DataField :=
  ⟨bytes name,
    fun data => ((strToFloat strtof data).1, fun self => set self (strToFloat strtof data).2),
    caller⟩

/-- The names, in the order in which they are compared. -/
def dataFields (strtof : List Byte → FloatRead) : List DataField :=
  [intField "total accesses" "get_data.total_access" fun self v =>
      { self with totalAccesses := v },
    intField "total kbytes" "get_data.total_kBytes" fun self v => { self with totalKBytes := v },
    floatField strtof "cpuload" "get_data.cpu_load" fun self v => { self with cpuLoad := v },
    intField "uptime" "get_data.uptime" fun self v => { self with uptime := v },
    floatField strtof "reqpersec" "get_data.req_per_sec" fun self v => { self with reqPerSec := v },
    floatField strtof "bytespersec" "get_data.bytes_per_sec" fun self v =>
      { self with bytesPerSec := v },
    floatField strtof "bytesperreq" "get_data.bytes_per_req" fun self v =>
      { self with bytesPerReq := v },
    intField "busyworkers" "get_data.busy_workers" fun self v => { self with busyWorkers := v },
    intField "idleworkers" "get_data.idle_workers" fun self v => { self with idleWorkers := v }]

/-- The comparisons of `get_data`. The data are read only for a name that is equal. -/
def ApacheServerStatus.storeData (self : ApacheServerStatus) (text : List Byte)
    (data : Exec (List Byte)) : List DataField → Exec (Throwable × ApacheServerStatus)
  | [] => .ok (.create statusOk .null "get_data", self)
  | f :: fs =>
    if text = f.name then do
      let v ← data
      let (t, set) := f.read v
      if t.isAnError then .ok (t.thrown f.caller, set self)
      else (set self).storeData text data fs
    else self.storeData text data fs

/-- `get_data` on the line at `start`. Without a colon the text that is compared is NULL. -/
def getData (strtof : List Byte → FloatRead) (self : ApacheServerStatus) (buffer : List Byte)
    (start : Nat) : Exec (Throwable × ApacheServerStatus × List Byte) := do
  match ← splitColon buffer start with
  | none => .error .nullDeref
  | some s =>
    let (t, self) ← self.storeData s.name s.data (dataFields strtof)
    .ok (t, self, s.buffer)

/-! ## The page -/

/-- The locals of the loop of `parse_apache_status`. -/
structure Parsing where
  self : ApacheServerStatus
  buffer : List Byte
  start : Nat
  deriving DecidableEq

/-- The line that ends with the line feed at `i` is parsed: an error, or the loop goes on. -/
def Parsing.line (strtof : List Byte → FloatRead) (r : Parsing) (i : Nat) :
    Exec (Option Throwable × Parsing) := do
  let (t, self, buffer) ← getData strtof r.self (r.buffer.set i 0) r.start
  .ok (if t.isAnError then some (t.thrown "parse_apache_status") else none,
    ⟨self, buffer, i + 1⟩)

/-- The end of a line, with nothing behind the line in the buffer. -/
def Parsing.lineWithin (strtof : List Byte → FloatRead) (r : Parsing) (i : Nat) :
    Exec (Option Throwable × Parsing) := do
  let (t, r') ← Parsing.line strtof { r with buffer := r.buffer.take (i + 1) } i
  .ok (t, { r' with buffer := r'.buffer ++ r.buffer.drop (i + 1) })

/-- The loop of `parse_apache_status` from `i` on, with `n` passes to go and `line` for the end of
a line. -/
def parseApacheStatusLoop (line : Parsing → Nat → Exec (Option Throwable × Parsing)) :
    Nat → Nat → Parsing → Exec (Throwable × ApacheServerStatus)
  | 0, _, _ => .error .fuel
  | n + 1, i, r =>
    match r.buffer[i]? with
    | none => .error .outOfBounds
    | some b =>
      if b = 0 then .ok (.create statusOk .null "parse_apache_status", r.self)
      else if b = lf then do
        let (t, r) ← line r i
        match t with
        | some t => .ok (t, r.self)
        | none =>
          match r.buffer[i + 1]? with
          | none => .error .outOfBounds
          | some b =>
            if b = lf ∨ b = 0 then .ok (.create statusOk .null "parse_apache_status", r.self)
            else parseApacheStatusLoop line n (i + 1) r
      else parseApacheStatusLoop line n (i + 1) r

/-- The copy of the page and the loop over it. Without memory the copy goes to NULL: the throwable
that says so is not returned. -/
def parseApacheStatusBy (line : Parsing → Nat → Exec (Option Throwable × Parsing))
    (malloc : Bool) (self : ApacheServerStatus) : Exec (Throwable × ApacheServerStatus) :=
  match self.statusPage with
  | none => .error .nullDeref
  | some page =>
    if malloc then parseApacheStatusLoop line (page.length + 1) 0 ⟨self, page ++ [0], 0⟩
    else .error .nullDeref

/-- `parse_apache_status`; `malloc` says whether the copy could be allocated. -/
def parseApacheStatus (strtof : List Byte → FloatRead) (malloc : Bool)
    (self : ApacheServerStatus) : Exec (Throwable × ApacheServerStatus) :=
  parseApacheStatusBy (Parsing.line strtof) malloc self

/-- `parse_apache_status`, where every line is parsed with the line alone in the buffer. -/
def parseApacheStatusWithin (strtof : List Byte → FloatRead) (malloc : Bool)
    (self : ApacheServerStatus) : Exec (Throwable × ApacheServerStatus) :=
  parseApacheStatusBy (Parsing.lineWithin strtof) malloc self

/-! ## Lines -/

def dataNames : List (List Byte) :=
  ["total accesses", "total kbytes", "cpuload", "uptime", "reqpersec", "bytespersec",
    "bytesperreq", "busyworkers", "idleworkers"].map bytes

/-- A line that `get_data` stays in. -/
def DataGood (l : List Byte) : Prop :=
  colon ∈ l ∧ (lineName l ∈ dataNames → lineData l ≠ [])

/-- A line at which `parse_apache_status` returns an error: its data are no number. -/
def DataRefused (strtof : List Byte → FloatRead) (l : List Byte) : Prop :=
  ∃ f ∈ dataFields strtof, lineName l = f.name ∧ (f.read (lineData l).tail).1.isAnError

instance : DecidablePred DataGood := fun _ => inferInstanceAs (Decidable (_ ∧ _))

instance (strtof : List Byte → FloatRead) : DecidablePred (DataRefused strtof) := fun _ =>
  inferInstanceAs (Decidable (∃ f ∈ dataFields strtof, _ ∧ _))

/-- The text can be parsed line by line. An empty line ends the page. -/
def DataLines (strtof : List Byte → FloatRead) (text : List Byte) : Prop :=
  Passes DataGood (DataRefused strtof) [] (lines lf text)

instance (strtof : List Byte → FloatRead) : DecidablePred (DataLines strtof) := fun text =>
  inferInstanceAs (Decidable (Passes DataGood (DataRefused strtof) [] (lines lf text)))

/-! ## What does not depend on the rest of the buffer -/

section Frame

variable {strtof : List Byte → FloatRead} {self : ApacheServerStatus}

theorem ApacheServerStatus.storeData_mono {text : List Byte} {d d' : Exec (List Byte)}
    {fs : List DataField} {x : Throwable × ApacheServerStatus} (hd : ∀ v, d = .ok v → d' = .ok v)
    (h : self.storeData text d fs = .ok x) : self.storeData text d' fs = .ok x := by
  induction fs generalizing self with
  | nil => exact h
  | cons f fs ih =>
    unfold ApacheServerStatus.storeData at h ⊢
    split at h
    · rename_i htext
      obtain ⟨v, hv, h⟩ := Exec.bind_ok h
      rw [if_pos htext, hd v hv, Exec.ok_bind]
      dsimp only at h ⊢
      split at h
      · rename_i herr
        rw [if_pos herr]
        exact h
      · rename_i herr
        rw [if_neg herr, ← hd v hv]
        exact ih h
    · rename_i htext
      rw [if_neg htext]
      exact ih h

theorem getData_frame {b : List Byte} {p : Nat} {t : Throwable} {self' : ApacheServerStatus}
    {b' : List Byte} (h : getData strtof self b p = .ok (t, self', b')) (post : List Byte) :
    getData strtof self (b ++ post) p = .ok (t, self', b' ++ post) := by
  unfold getData at h ⊢
  obtain ⟨s, hsplit, h⟩ := Exec.bind_ok h
  obtain ⟨d, hd, hframe⟩ := splitColon_frame hsplit post
  rw [hframe, Exec.ok_bind]
  cases s with
  | none => cases h
  | some s =>
    obtain ⟨x, hx, h⟩ := Exec.bind_ok h
    simp only [Option.map_some]
    rw [ApacheServerStatus.storeData_mono (hd s · rfl) hx]
    cases h
    rfl

theorem Parsing.lineWithin_sound {r : Parsing} {i : Nat} {x : Option Throwable × Parsing}
    (hi : i < r.buffer.length) (h : r.lineWithin strtof i = .ok x) : r.line strtof i = .ok x := by
  unfold Parsing.lineWithin at h
  obtain ⟨⟨t, r'⟩, hline, h⟩ := Exec.bind_ok h
  unfold Parsing.line at hline ⊢
  obtain ⟨⟨t', self', b'⟩, hget, hline⟩ := Exec.bind_ok hline
  have htake : (r.buffer.take (i + 1)).set i 0 ++ r.buffer.drop (i + 1) = r.buffer.set i 0 := by
    rw [← List.set_append_left i 0 (by rw [List.length_take]; omega), List.take_append_drop]
  have hframe := getData_frame hget (r.buffer.drop (i + 1))
  rw [htake] at hframe
  rw [hframe, Exec.ok_bind]
  cases hline
  exact h

theorem parseApacheStatusLoop_mono
    {line line' : Parsing → Nat → Exec (Option Throwable × Parsing)}
    (hline : ∀ r i x, i < r.buffer.length → line r i = .ok x → line' r i = .ok x)
    {n i : Nat} {r : Parsing} {p : Throwable × ApacheServerStatus}
    (h : parseApacheStatusLoop line n i r = .ok p) : parseApacheStatusLoop line' n i r = .ok p := by
  induction n generalizing i r with
  | zero => exact h
  | succ n ih =>
    unfold parseApacheStatusLoop at h ⊢
    cases hget : r.buffer[i]? with
    | none =>
      simp only [hget] at h
      cases h
    | some b =>
      simp only [hget] at h ⊢
      split at h
      · rename_i hb
        rw [if_pos hb]
        exact h
      · rename_i hb
        rw [if_neg hb]
        split at h
        · rename_i hlf
          obtain ⟨⟨t, r'⟩, hr, h⟩ := Exec.bind_ok h
          have hi : i < r.buffer.length := (List.getElem?_eq_some_iff.1 hget).1
          rw [if_pos hlf, hline r i _ hi hr, Exec.ok_bind]
          cases t with
          | some t => exact h
          | none =>
            cases hnext : r'.buffer[i + 1]? with
            | none =>
              simp only [hnext] at h
              cases h
            | some b' =>
              simp only [hnext] at h ⊢
              split at h
              · rename_i hend
                rw [if_pos hend]
                exact h
              · rename_i hend
                rw [if_neg hend]
                exact ih h
        · rename_i hlf
          rw [if_neg hlf]
          exact ih h

theorem parseApacheStatusWithin_sound {malloc : Bool} {p : Throwable × ApacheServerStatus}
    (h : parseApacheStatusWithin strtof malloc self = .ok p) :
    parseApacheStatus strtof malloc self = .ok p := by
  unfold parseApacheStatusWithin parseApacheStatusBy at h
  unfold parseApacheStatus parseApacheStatusBy
  cases hpage : self.statusPage with
  | none =>
    simp only [hpage] at h
    cases h
  | some page =>
    simp only [hpage] at h ⊢
    split at h
    · rename_i hmalloc
      rw [if_pos hmalloc]
      exact parseApacheStatusLoop_mono (fun r i x hi hx => Parsing.lineWithin_sound hi hx) h
    · cases h

end Frame

/-! ## One line, and the page -/

section Page

variable {strtof : List Byte → FloatRead} {self : ApacheServerStatus}
  {line : Parsing → Nat → Exec (Option Throwable × Parsing)}

theorem dataFields_names (strtof : List Byte → FloatRead) :
    (dataFields strtof).map (·.name) = dataNames := rfl

/-- Only data that are no number are refused. -/
theorem ApacheServerStatus.storeData_ok (self : ApacheServerStatus) (text v : List Byte)
    (fs : List DataField) :
    ∃ t self', self.storeData text (.ok v) fs = .ok (t, self') ∧
      (t.isAnError ↔ ∃ f ∈ fs, text = f.name ∧ (f.read v).1.isAnError) := by
  induction fs generalizing self with
  | nil => exact ⟨_, self, rfl, by simp⟩
  | cons f fs ih =>
    rw [ApacheServerStatus.storeData]
    by_cases htext : text = f.name
    · rw [if_pos htext, Exec.ok_bind]
      dsimp only
      by_cases herr : (f.read v).1.isAnError
      · rw [if_pos herr]
        refine ⟨_, _, rfl, ?_⟩
        simp [htext, herr]
      · obtain ⟨t, self', hstore, ht⟩ := ih ((f.read v).2 self)
        rw [if_neg herr]
        refine ⟨t, self', hstore, ?_⟩
        simp [ht, herr]
    · obtain ⟨t, self', hstore, ht⟩ := ih self
      rw [if_neg htext]
      refine ⟨t, self', hstore, ?_⟩
      simp [ht, htext]

theorem ApacheServerStatus.storeData_of_not_mem {text : List Byte} {fs : List DataField}
    (htext : text ∉ fs.map (·.name)) (d : Exec (List Byte)) :
    self.storeData text d fs = .ok (.create statusOk .null "get_data", self) := by
  induction fs with
  | nil => rfl
  | cons f fs ih =>
    rw [List.map_cons, List.mem_cons, not_or] at htext
    rw [ApacheServerStatus.storeData, if_neg htext.1, ih htext.2]

theorem ApacheServerStatus.storeData_error {text : List Byte} {fs : List DataField}
    (htext : text ∈ fs.map (·.name)) (e : Stop) :
    self.storeData text (.error e) fs = .error e := by
  induction fs with
  | nil => cases htext
  | cons f fs ih =>
    rw [ApacheServerStatus.storeData]
    by_cases heq : text = f.name
    · rw [if_pos heq]
      rfl
    · rw [List.map_cons, List.mem_cons] at htext
      rw [if_neg heq, ih (htext.resolve_left heq)]

variable (strtof) in
/-- The comparisons of `get_data` on the line alone. -/
theorem ApacheServerStatus.storeData_line (self : ApacheServerStatus) {name raw : List Byte}
    (hdata : strToLower name ∈ dataNames → raw ≠ []) :
    ∃ t self', self.storeData (strToLower name) (afterColon raw []) (dataFields strtof) =
      .ok (t, self') ∧
      (t.isAnError ↔ ∃ f ∈ dataFields strtof,
        strToLower name = f.name ∧ (f.read raw.tail).1.isAnError) := by
  by_cases hname : strToLower name ∈ dataNames
  · cases raw with
    | nil => exact absurd rfl (hdata hname)
    | cons b value => exact self.storeData_ok (strToLower name) value (dataFields strtof)
  · refine ⟨_, self, self.storeData_of_not_mem hname _, ?_⟩
    constructor
    · intro h
      cases h
    · intro h
      obtain ⟨f, hf, heq, -⟩ := h
      refine absurd ?_ hname
      rw [heq, ← dataFields_names strtof]
      exact List.mem_map_of_mem hf

/-- The end of a line with a colon. -/
theorem Parsing.line_colon (self : ApacheServerStatus) (pre post : List Byte)
    {name raw : List Byte} (hcolon : colon ∉ name) (hnul : 0 ∉ name ++ colon :: raw) :
    Parsing.line strtof ⟨self, pre ++ (name ++ colon :: raw) ++ lf :: post, pre.length⟩
      (pre ++ (name ++ colon :: raw)).length =
      (self.storeData (strToLower name) (afterColon raw post) (dataFields strtof) >>= fun p =>
        .ok (if p.1.isAnError then some (p.1.thrown "parse_apache_status") else none,
          ⟨p.2, pre ++ strToLower name ++ 0 :: (raw ++ 0 :: post),
            (pre ++ (name ++ colon :: raw)).length + 1⟩)) := by
  have hset : (pre ++ (name ++ colon :: raw) ++ lf :: post).set
      (pre ++ (name ++ colon :: raw)).length 0 = pre ++ (name ++ colon :: raw) ++ 0 :: post :=
    set_append _ _ rfl
  unfold Parsing.line getData
  simp only [hset]
  rw [splitColon_colon hcolon hnul, Exec.ok_bind]
  dsimp only
  cases self.storeData (strToLower name) (afterColon raw post) (dataFields strtof) with
  | error e => rfl
  | ok p => rfl

/-- The comparison with NULL at the end of a line without a colon. -/
theorem Parsing.line_noColon (self : ApacheServerStatus) (pre post : List Byte) {l : List Byte}
    (hcolon : colon ∉ l) (hnul : 0 ∉ l) :
    Parsing.line strtof ⟨self, pre ++ l ++ lf :: post, pre.length⟩ (pre ++ l).length =
      .error .nullDeref := by
  have hset : (pre ++ l ++ lf :: post).set (pre ++ l).length 0 = pre ++ l ++ 0 :: post :=
    set_append _ _ rfl
  unfold Parsing.line getData
  simp only [hset]
  rw [splitColon_noColon hcolon hnul]
  rfl

theorem Parsing.lineWithin_eq (self : ApacheServerStatus) (pre l post : List Byte) (start : Nat) :
    Parsing.lineWithin strtof ⟨self, pre ++ l ++ lf :: post, start⟩ (pre ++ l).length =
      (Parsing.line strtof ⟨self, pre ++ l ++ [lf], start⟩ (pre ++ l).length >>= fun p =>
        .ok (p.1, { p.2 with buffer := p.2.buffer ++ post })) := by
  unfold Parsing.lineWithin
  simp only [take_line, drop_line]

variable (strtof) in
/-- **A good line** is parsed: an error, if it is refused, or else the next line can begin. -/
theorem Parsing.lineWithin_good (self : ApacheServerStatus) (pre : List Byte) {l : List Byte}
    (hnul : 0 ∉ l) (hgood : DataGood l) (post : List Byte) :
    ∃ t self' mem, mem.length = (pre ++ l).length + 1 ∧ (t.isSome ↔ DataRefused strtof l) ∧
      Parsing.lineWithin strtof ⟨self, pre ++ l ++ lf :: post, pre.length⟩ (pre ++ l).length =
        .ok (t, ⟨self', mem ++ post, mem.length⟩) := by
  obtain ⟨name, raw, rfl, hcolon⟩ := List.eq_append_cons_of_mem hgood.1
  have hdata := hgood.2
  unfold DataRefused
  rw [lineName_colon hcolon, lineData_colon hcolon] at hdata ⊢
  obtain ⟨t, self', hstore, ht⟩ := self.storeData_line strtof hdata
  have hlen : (pre ++ strToLower name ++ 0 :: (raw ++ [0])).length =
      (pre ++ (name ++ colon :: raw)).length + 1 := by
    simp [strToLower_length]
    omega
  refine ⟨if t.isAnError then some (t.thrown "parse_apache_status") else none, self',
    pre ++ strToLower name ++ 0 :: (raw ++ [0]), hlen, ?_, ?_⟩
  · rw [← ht]
    by_cases herr : t.isAnError
    · simp [herr]
    · simp [herr]
  · rw [Parsing.lineWithin_eq, Parsing.line_colon self pre [] hcolon hnul, hstore, Exec.ok_bind,
      hlen]
    rfl

variable (strtof) in
/-- Any other line is left, or leads to a comparison with NULL. -/
theorem Parsing.lineWithin_bad (self : ApacheServerStatus) (pre : List Byte) {l : List Byte}
    (hnul : 0 ∉ l) (hbad : ¬ DataGood l) (post : List Byte) :
    ∃ e, Parsing.lineWithin strtof ⟨self, pre ++ l ++ lf :: post, pre.length⟩ (pre ++ l).length =
      .error e := by
  by_cases hcolon : colon ∈ l
  · obtain ⟨name, raw, rfl, hname⟩ := List.eq_append_cons_of_mem hcolon
    unfold DataGood at hbad
    rw [lineName_colon hname, lineData_colon hname] at hbad
    have hmem : strToLower name ∈ dataNames := by
      by_contra h0
      exact hbad ⟨hcolon, fun h => absurd h h0⟩
    have hraw : raw = [] := by
      by_contra h0
      exact hbad ⟨hcolon, fun _ => h0⟩
    subst hraw
    have hdata : afterColon [] [] = .error .outOfBounds := rfl
    refine ⟨.outOfBounds, ?_⟩
    rw [Parsing.lineWithin_eq, Parsing.line_colon self pre [] hname hnul, hdata,
      ApacheServerStatus.storeData_error (dataFields_names strtof ▸ hmem)]
    rfl
  · refine ⟨.nullDeref, ?_⟩
    rw [Parsing.lineWithin_eq, Parsing.line_noColon self pre [] hcolon hnul]
    rfl

variable (line) in
/-- The loop passes over what contains no line feed and no NUL. -/
theorem parseApacheStatusLoop_skip (self : ApacheServerStatus) (pre post : List Byte)
    {l : List Byte} (hlf : lf ∉ l) (hnul : 0 ∉ l) (start n : Nat) :
    parseApacheStatusLoop line (l.length + n) pre.length ⟨self, pre ++ l ++ post, start⟩ =
      parseApacheStatusLoop line n (pre ++ l).length ⟨self, pre ++ l ++ post, start⟩ := by
  induction l generalizing pre with
  | nil => simp
  | cons b l ih =>
    have hblf : b ≠ lf := fun h0 => hlf (h0 ▸ List.mem_cons_self)
    have hbnul : b ≠ 0 := fun h0 => hnul (h0 ▸ List.mem_cons_self)
    have hlf' : lf ∉ l := fun h0 => hlf (List.mem_cons_of_mem b h0)
    have hnul' : 0 ∉ l := fun h0 => hnul (List.mem_cons_of_mem b h0)
    have hget : (pre ++ b :: l ++ post)[pre.length]? = some b := by simp
    have hstep : parseApacheStatusLoop line ((b :: l).length + n) pre.length
        ⟨self, pre ++ b :: l ++ post, start⟩ =
        parseApacheStatusLoop line (l.length + n) (pre.length + 1)
          ⟨self, pre ++ b :: l ++ post, start⟩ := by
      rw [List.length_cons, Nat.add_right_comm, parseApacheStatusLoop]
      simp only [hget, if_neg hbnul, if_neg hblf]
    have h := ih (pre ++ [b]) hlf' hnul'
    rw [hstep]
    simpa using h

variable (line) in
/-- **One line**: from its beginning on, the loop comes to the line feed at its end, and then to an
error, the end of the page, or the next line. -/
theorem parseApacheStatusLoop_line (self : ApacheServerStatus) (pre post : List Byte)
    {l : List Byte} (hlf : lf ∉ l) (hnul : 0 ∉ l) (start n : Nat) :
    parseApacheStatusLoop line (l.length + (n + 1)) pre.length
      ⟨self, pre ++ l ++ lf :: post, start⟩ =
      (line ⟨self, pre ++ l ++ lf :: post, start⟩ (pre ++ l).length >>= fun p =>
        match p.1 with
        | some t => .ok (t, p.2.self)
        | none =>
          match p.2.buffer[(pre ++ l).length + 1]? with
          | none => .error .outOfBounds
          | some b =>
            if b = lf ∨ b = 0 then .ok (.create statusOk .null "parse_apache_status", p.2.self)
            else parseApacheStatusLoop line n ((pre ++ l).length + 1) p.2) := by
  have hget : (pre ++ l ++ lf :: post)[(pre ++ l).length]? = some lf := by simp
  have hne : lf ≠ 0 := by decide
  rw [parseApacheStatusLoop_skip line self pre (lf :: post) hlf hnul start (n + 1),
    parseApacheStatusLoop]
  simp only [hget, if_neg hne, if_true]

/-- The loop at the beginning of a line: what it has stored, and the buffer before the line. -/
structure AtLine where
  self : ApacheServerStatus
  pre : List Byte

/-- The loop returns, with `text` before it. -/
def AtLine.Returns (strtof : List Byte → FloatRead) (s : AtLine) (text : List Byte) : Prop :=
  ∃ p, parseApacheStatusLoop (Parsing.lineWithin strtof) (text.length + 1) s.pre.length
    ⟨s.self, s.pre ++ (text ++ [0]), s.pre.length⟩ = .ok p

theorem AtLine.returns_open (s : AtLine) {l : List Byte} (hlf : lf ∉ l) (hnul : 0 ∉ l) :
    s.Returns strtof l := by
  have hskip := parseApacheStatusLoop_skip (Parsing.lineWithin strtof) s.self s.pre [0]
    hlf hnul s.pre.length 1
  have hget : (s.pre ++ l ++ [0])[(s.pre ++ l).length]? = some 0 := by simp
  unfold AtLine.Returns
  rw [← List.append_assoc, hskip, parseApacheStatusLoop]
  simp only [hget, if_true]
  exact ⟨_, rfl⟩

theorem AtLine.returns_nul (s : AtLine) {text rest : List Byte} (h : text ++ [0] = 0 :: rest) :
    s.Returns strtof text := by
  have hget : (s.pre ++ (text ++ [0]))[s.pre.length]? = some 0 := by
    rw [h]
    simp
  unfold AtLine.Returns
  rw [parseApacheStatusLoop]
  simp only [hget, if_true]
  exact ⟨_, rfl⟩

/-- The page ends where an empty line follows. -/
theorem head?_lines_nil_iff {text rest : List Byte} {b : Byte} (h : text ++ [0] = b :: rest)
    (hb : b ≠ 0) : (lines lf text).head? = some [] ↔ b = lf := by
  cases text with
  | nil => exact absurd (List.head_eq_of_cons_eq h).symm hb
  | cons b' text =>
    rw [List.cons_append] at h
    have hb' : b' = b := List.head_eq_of_cons_eq h
    rw [head?_lines_iff, hb']
    constructor
    · intro h
      obtain ⟨-, rest, h⟩ := h
      exact List.head_eq_of_cons_eq h
    · intro h
      exact ⟨List.not_mem_nil, text, by rw [h]; rfl⟩

theorem data_walk (strtof : List Byte → FloatRead) :
    Walk lf (· ≠ 0) DataGood (DataRefused strtof) [] (AtLine.Returns strtof) where
  tail s l hl := s.returns_open hl.1 fun h0 => hl.2 0 h0 rfl
  bad s l text hl hbad := by
    have hnul : 0 ∉ l := fun h0 => hl.2 0 h0 rfl
    obtain ⟨e, he⟩ := Parsing.lineWithin_bad strtof s.self s.pre hnul hbad (text ++ [0])
    have hline := parseApacheStatusLoop_line (Parsing.lineWithin strtof) s.self s.pre
      (text ++ [0]) hl.1 hnul s.pre.length (text.length + 1)
    intro h
    obtain ⟨p, hp⟩ := h
    rw [List.length_append, List.length_cons, List.append_assoc l, ← List.append_assoc s.pre,
      List.cons_append, Nat.add_assoc, hline, he] at hp
    cases hp
  line s l text hl hgood := by
    have hnul : 0 ∉ l := fun h0 => hl.2 0 h0 rfl
    obtain ⟨t, self', mem, hlen, ht, hwithin⟩ :=
      Parsing.lineWithin_good strtof s.self s.pre hnul hgood (text ++ [0])
    have hline := parseApacheStatusLoop_line (Parsing.lineWithin strtof) s.self s.pre
      (text ++ [0]) hl.1 hnul s.pre.length (text.length + 1)
    obtain ⟨b, rest, hb⟩ : ∃ b rest, text ++ [0] = b :: rest :=
      List.exists_cons_of_ne_nil (by simp)
    have hget : (mem ++ (text ++ [0]))[(s.pre ++ l).length + 1]? = some b := by
      rw [hb, ← hlen]
      simp
    refine ⟨⟨self', mem⟩, ?_⟩
    conv_lhs => unfold AtLine.Returns
    rw [List.length_append, List.length_cons, List.append_assoc l, ← List.append_assoc s.pre,
      List.cons_append, Nat.add_assoc, hline, hwithin, Exec.ok_bind, ← ht]
    cases t with
    | some t => simp
    | none =>
      simp only [hget]
      by_cases hnul : b = 0
      · subst hnul
        have hret : AtLine.Returns strtof ⟨self', mem⟩ text := AtLine.returns_nul _ hb
        simp [hret]
      · have hlast := head?_lines_nil_iff hb hnul
        by_cases hblf : b = lf
        · simp [hlast, hblf]
        · simp [hlast, hblf, hnul, AtLine.Returns, hlen]

/-- **Exactly when `parse_apache_status` returns and stays within its lines.** -/
theorem parseApacheStatusWithin_iff (malloc : Bool) (self : ApacheServerStatus)
    {text : List Byte} (hnul : 0 ∉ text) :
    (∃ p, parseApacheStatusWithin strtof malloc { self with statusPage := some text } = .ok p) ↔
      malloc = true ∧ DataLines strtof text := by
  have htext : ∀ b ∈ text, b ≠ 0 := by
    intro b hb h0
    exact hnul (h0 ▸ hb)
  have hwalk := (data_walk strtof).ends_iff ⟨{ self with statusPage := some text }, []⟩ htext
  unfold parseApacheStatusWithin parseApacheStatusBy DataLines
  rw [← hwalk]
  cases malloc with
  | false => simp
  | true => simp [AtLine.Returns]

end Page

/-! ## Both parsers -/

/-- **Exactly when a text is parsed**: `read_headers` and `parse_apache_status` return a throwable,
having read and written nothing but the line that was parsed. -/
theorem linesParsed_iff (strtof : List Byte → FloatRead) (malloc : Bool) (kind : Kind)
    (self : HTTPRequest) (status : ApacheServerStatus) (text : List Byte) (hnul : 0 ∉ text) :
    ((∃ p, readHeaders self text kind = .ok p ∧ readHeadersWithin self text kind = .ok p) ↔
      HeaderLines text) ∧
    ((∃ p, parseApacheStatus strtof malloc { status with statusPage := some text } = .ok p ∧
        parseApacheStatusWithin strtof malloc { status with statusPage := some text } = .ok p) ↔
      malloc = true ∧ DataLines strtof text) := by
  constructor
  · rw [← readHeadersWithin_iff kind self hnul]
    constructor
    · intro h
      obtain ⟨p, -, hp⟩ := h
      exact ⟨p, hp⟩
    · intro h
      obtain ⟨p, hp⟩ := h
      exact ⟨p, readHeadersWithin_sound hp, hp⟩
  · rw [← parseApacheStatusWithin_iff malloc status hnul]
    constructor
    · intro h
      obtain ⟨p, -, hp⟩ := h
      exact ⟨p, hp⟩
    · intro h
      obtain ⟨p, hp⟩ := h
      exact ⟨p, parseApacheStatusWithin_sound hp, hp⟩

/-- A page of two lines, which is also a header. -/
theorem statusPage_parsed :
    (∃ p, readHeaders newHttpRequest (bytes "Uptime: 12\nIdleWorkers: 4\n") .resp = .ok p ∧
      readHeadersWithin newHttpRequest (bytes "Uptime: 12\nIdleWorkers: 4\n") .resp = .ok p) ∧
    ∃ p,
      parseApacheStatus (fun _ => ⟨0, 0, false⟩) true { newApacheServerStatus with
        statusPage := some (bytes "Uptime: 12\nIdleWorkers: 4\n") } = .ok p ∧
      parseApacheStatusWithin (fun _ => ⟨0, 0, false⟩) true { newApacheServerStatus with
        statusPage := some (bytes "Uptime: 12\nIdleWorkers: 4\n") } = .ok p := by
  have h := linesParsed_iff (fun _ => ⟨0, 0, false⟩) true .resp newHttpRequest
    newApacheServerStatus (bytes "Uptime: 12\nIdleWorkers: 4\n") (by decide)
  exact ⟨h.1.2 (by decide), h.2.2 ⟨rfl, by decide⟩⟩

/-- A line without a colon: a call through NULL, and a comparison with NULL. -/
theorem line_without_colon :
    (¬ ∃ p, readHeaders newHttpRequest (bytes "GET / HTTP/1.1\r\nHost\r\n\r\n") .rqst = .ok p) ∧
    ¬ ∃ p, parseApacheStatus (fun _ => ⟨0, 0, false⟩) true
      { newApacheServerStatus with statusPage := some (bytes "Scoreboard\n") } = .ok p := by
  have hheader : readHeaders newHttpRequest (bytes "GET / HTTP/1.1\r\nHost\r\n\r\n") .rqst =
      .error .nullDeref := by decide
  have hdata : parseApacheStatus (fun _ => ⟨0, 0, false⟩) true
      { newApacheServerStatus with statusPage := some (bytes "Scoreboard\n") } =
      .error .nullDeref := by decide
  constructor
  · intro h
    obtain ⟨p, hp⟩ := h
    rw [hheader] at hp
    cases hp
  · intro h
    obtain ⟨p, hp⟩ := h
    rw [hdata] at hp
    cases hp

end Heimdall.Scheduler
