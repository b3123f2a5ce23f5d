import Heimdall.Config.ServerConfig

/-!
# Files of comments, names and addresses

On a file of short lines `parse_line` stores the values in the order of their lines
(`parseLine_pieces`), and `count_server` counts the pairs `IP` at the even offsets of the lines. So
the count is that of the addresses exactly if no line has `IP` at an even offset, other than an
address at its beginning (`passesAgree_iff`). A comment such as `# IP` is counted, and leaves an
entry of both arrays unset.
-/

namespace Heimdall.Configuration

open Loop

inductive EntryType
  | name
  | ip
  deriving DecidableEq

def EntryType.text : EntryType → List Byte
  | .name => bytes "Name"
  | .ip => bytes "IP"

/-- What stands in a line. -/
inductive Content
  | comment (text : List Byte)
  | blank
  | entry (type : EntryType) (value : List Byte)

def Content.text : Content → List Byte
  | .comment text => hash :: text
  | .blank => []
  | .entry type value => type.text ++ escapeChr :: value

structure ServerLine where
  content : Content
  noNewline : newline ∉ content.text
  short : content.text.length ≤ 126

def ServerLine.value? (type : EntryType) (l : ServerLine) : Option (List Byte) :=
  match l.content with
  | .entry type' value => if type' = type then some value else none
  | _ => none

/-- The values of the lines of the type. -/
def values (type : EntryType) (ls : List ServerLine) : List (List Byte) :=
  ls.filterMap (·.value? type)

structure ServerFile where
  lines : List ServerLine
  balanced : (values .name lines).length = (values .ip lines).length

def linesText (ls : List ServerLine) : List Byte := ls.flatMap fun l => l.content.text ++ [newline]

/-- The only `IP` at an even offset of the line is the one that an address begins with. -/
def ServerLine.Aligned (l : ServerLine) : Prop :=
  ∀ i, bytes "IP" <+: l.content.text.drop (2 * i) → i = 0 ∧ (l.value? .ip).isSome

/-- `count_server` returns the number of addresses and of names that `parse_line` stores in the
arrays, where it leaves no entry unset. -/
def PassesAgree (string string' : List Cell) (file : List Byte) : Prop :=
  ∃ n s, countServer string (some file) = .ok n ∧
    parseLine string' (some file) (unset n) = .ok (0, s) ∧ s.countIp = n ∧ s.countName = n ∧
    ∀ entry ∈ s.config.serversIp ++ s.config.serversNames, entry ≠ none

/-! ## What is counted -/

section Line

variable {l : ServerLine} {ls : List ServerLine}

theorem values_cons (type : EntryType) (l : ServerLine) (ls : List ServerLine) :
    values type (l :: ls) = (l.value? type).toList ++ values type ls := by
  unfold values
  rw [List.filterMap_cons]
  cases l.value? type <;> rfl

/-- A line is counted as often as it is an address, and once more for every other pair. -/
theorem ServerLine.ipPairs_cases (l : ServerLine) :
    (l.value? .ip).toList.length ≤ ipPairs l.content.text ∧
      (ipPairs l.content.text = (l.value? .ip).toList.length ↔ l.Aligned) := by
  have hnone (hv : l.value? .ip = none) :
      (l.value? .ip).toList.length ≤ ipPairs l.content.text ∧
        (ipPairs l.content.text = (l.value? .ip).toList.length ↔ l.Aligned) := by
    unfold Aligned
    rw [hv]
    refine ⟨Nat.zero_le _, ipPairs_eq_zero_iff.trans ?_⟩
    exact forall_congr' fun i => ⟨fun h hip => absurd hip h, fun h hip => nomatch (h hip).2⟩
  match hc : l.content with
  | .comment text | .blank | .entry .name value =>
    rw [← hc]
    exact hnone (by simp [value?, hc])
  | .entry .ip value =>
    have hv : l.value? .ip = some value := by rw [value?, hc]; rfl
    have htext : l.content.text = 73 :: 80 :: (escapeChr :: value) := by rw [hc]; rfl
    have hpairs : ipPairs l.content.text = 1 + ipPairs (escapeChr :: value) := by
      rw [htext]
      rfl
    unfold Aligned
    rw [← hc, hpairs, hv, htext]
    refine ⟨Nat.le_add_right 1 _, ?_⟩
    change 1 + ipPairs (escapeChr :: value) = 1 ↔ _
    rw [Nat.add_eq_left, ipPairs_eq_zero_iff]
    constructor
    · intro h i hip
      cases i with
      | zero => exact ⟨rfl, rfl⟩
      | succ i => exact absurd hip (h i)
    · intro h i hip
      exact absurd (h (i + 1) hip).1 (Nat.succ_ne_zero i)

theorem linesText_cons (l : ServerLine) (ls : List ServerLine) :
    linesText (l :: ls) = l.content.text ++ newline :: linesText ls := by
  unfold linesText
  rw [List.flatMap_cons, List.append_assoc]
  rfl

theorem sum_pieces (ls : List ServerLine) :
    ((Pieces.pieces newline 2 (linesText ls)).map ipPair).sum =
      (ls.map fun l => ipPairs l.content.text).sum := by
  induction ls with
  | nil => rfl
  | cons l ls ih =>
    rw [linesText_cons, pieces_ipPairs l.noNewline, ih, List.map_cons, List.sum_cons]

theorem le_sum_pairs (ls : List ServerLine) :
    (values .ip ls).length ≤ (ls.map fun l => ipPairs l.content.text).sum := by
  induction ls with
  | nil => exact Nat.le_refl 0
  | cons l ls ih =>
    rw [values_cons, List.length_append, List.map_cons, List.sum_cons]
    exact Nat.add_le_add l.ipPairs_cases.1 ih

/-- The count is that of the addresses exactly if every line is aligned. -/
theorem sum_pairs_iff (ls : List ServerLine) :
    (ls.map fun l => ipPairs l.content.text).sum = (values .ip ls).length ↔
      ∀ l ∈ ls, l.Aligned := by
  induction ls with
  | nil => exact iff_of_true rfl fun l hl => absurd hl List.not_mem_nil
  | cons l ls ih =>
    have hle := le_sum_pairs ls
    obtain ⟨hline, haligned⟩ := l.ipPairs_cases
    rw [values_cons, List.length_append, List.map_cons, List.sum_cons, List.forall_mem_cons,
      ← haligned, ← ih]
    omega

end Line

/-! ## What is stored -/

section Store

variable {total : Nat}

/-- An array of which the first entries have been assigned. -/
def filled (vs : List (List Byte)) (room : Nat) : List (Option (List Byte)) :=
  vs.map some ++ List.replicate room none

/-- `parse_line` between two lines, when it has stored the names and the addresses. -/
def ParseLine.having (string : List Cell) (total : Nat) (names ips : List (List Byte)) :
    ParseLine :=
  { string
    config :=
      { serversNames := filled names (total - names.length)
        serversIp := filled ips (total - ips.length)
        totalServer := total }
    countName := names.length
    countIp := ips.length }

theorem storeAt_filled (vs : List (List Byte)) (v : List Byte) (h : vs.length < total) :
    storeAt (filled vs (total - vs.length)) vs.length v =
      .ok (filled (vs ++ [v]) (total - (vs ++ [v]).length)) := by
  obtain ⟨room, hroom⟩ : ∃ room, total = vs.length + (room + 1) := ⟨total - vs.length - 1, by omega⟩
  have hlen : (filled vs (room + 1)).length = vs.length + (room + 1) := by
    unfold filled
    rw [List.length_append, List.length_map, List.length_replicate]
  subst hroom
  unfold storeAt
  rw [Nat.add_sub_cancel_left, if_pos (by rw [hlen]; omega)]
  simp [filled, List.replicate_succ, Nat.add_sub_add_left]

/-- The values that an array holds behind a line. -/
def kept (key : List Byte) (type value : Subset) (vs : List (List Byte)) : List (List Byte) :=
  if type.str = key then vs ++ [value.chars] else vs

theorem storeEntry_filled {key : List Byte} {type value : Subset} {vs : List (List Byte)}
    (hmax : (total : Int) ≤ intMax) (hroom : type.str = key → vs.length < total) :
    storeEntry key type value (filled vs (total - vs.length)) vs.length =
      .ok (filled (kept key type value vs) (total - (kept key type value vs).length),
        (kept key type value vs).length) := by
  unfold storeEntry kept
  by_cases htype : type.str = key
  · have hlt := hroom htype
    have hfits : FitsInt ((vs.length : Int) + 1) := ⟨by unfold intMin; omega, by omega⟩
    rw [if_pos htype, if_pos htype, storeAt_filled vs value.chars hlt, Exec.ok_bind,
      checkInt_of_fits hfits, Exec.ok_bind]
    simp
  · rw [if_neg htype, if_neg htype]

theorem storeIp_having {string : List Cell} {names ips : List (List Byte)} {type value : Subset}
    (hmax : (total : Int) ≤ intMax) (hroom : type.str = bytes "IP" → ips.length < total) :
    (ParseLine.having string total names ips).storeIp type value =
      .ok (.having string total names (kept (bytes "IP") type value ips)) := by
  unfold ParseLine.storeIp ParseLine.having
  dsimp only
  rw [storeEntry_filled hmax hroom, Exec.ok_bind]

theorem storeName_having {string : List Cell} {names ips : List (List Byte)} {type value : Subset}
    (hmax : (total : Int) ≤ intMax) (hroom : type.str = bytes "Name" → names.length < total) :
    (ParseLine.having string total names ips).storeName type value =
      .ok (.having string total (kept (bytes "Name") type value names) ips) := by
  unfold ParseLine.storeName ParseLine.having
  dsimp only
  rw [storeEntry_filled hmax hroom, Exec.ok_bind]

theorem lineGet_type (string : List Cell) {type : EntryType} {value : List Byte} :
    lineGet (stored string (type.text ++ escapeChr :: value)) 0 escapeChr =
      .ok ⟨type.text, taken (type.text ++ [escapeChr])⟩ := by
  refine copyUntil_stored string rfl ?_
  cases type <;> decide

theorem lineGet_value (string : List Cell) {pre value : List Byte} (hv : newline ∉ value) :
    lineGet (stored string (pre ++ escapeChr :: (value ++ [newline]))) (pre.length + 1) newline =
      .ok ⟨value, taken (value ++ [newline])⟩ := by
  have hdrop : (pre ++ escapeChr :: (value ++ [newline])).drop (pre.length + 1) =
      value ++ newline :: [] := by
    rw [← List.drop_drop, List.drop_left]
    rfl
  exact copyUntil_stored string hdrop hv

theorem EntryType.text_eq_iff (type type' : EntryType) : type.text = type'.text ↔ type = type' := by
  cases type <;> cases type' <;> decide

theorem EntryType.first (type : EntryType) (string : List Cell) (post : List Byte) :
    ∃ b, charAt (stored string (type.text ++ post)) 0 = .ok b ∧ ¬ (b = hash ∨ b = newline) := by
  cases type with
  | name => exact ⟨78, charAt_stored rfl, by decide⟩
  | ip => exact ⟨73, charAt_stored rfl, by decide⟩

theorem parseLineBody_skipped (s : ParseLine) {b : Byte} (hb : b = hash ∨ b = newline)
    (p : List Byte) :
    parseLineBody s (b :: p) = .ok (.again { s with string := stored s.string (b :: p) }) := by
  have hfirst : charAt (stored s.string (b :: p)) 0 = .ok b := charAt_stored rfl
  unfold parseLineBody
  dsimp only
  rw [hfirst, Exec.ok_bind, if_pos hb]

theorem parseLineBody_entry (string : List Cell) (names ips : List (List Byte)) (type : EntryType)
    {value : List Byte} (hvalue : newline ∉ value) (hmax : (total : Int) ≤ intMax)
    (hnames : type = .name → names.length < total) (hips : type = .ip → ips.length < total) :
    ∃ string', parseLineBody (.having string total names ips)
        (type.text ++ escapeChr :: (value ++ [newline])) =
      .ok (.again (.having string' total (if type = .name then names ++ [value] else names)
        (if type = .ip then ips ++ [value] else ips))) := by
  refine ⟨stored string (type.text ++ escapeChr :: (value ++ [newline])), ?_⟩
  have hstr : Subset.str ⟨type.text, taken (type.text ++ [escapeChr])⟩ = type.text := by
    cases type <;> rfl
  have hname : type.text = bytes "Name" ↔ type = .name := type.text_eq_iff .name
  have hip : type.text = bytes "IP" ↔ type = .ip := type.text_eq_iff .ip
  obtain ⟨first, hfirst, hne⟩ := type.first string (escapeChr :: (value ++ [newline]))
  unfold parseLineBody
  change (charAt (stored string _) 0 >>= fun first => _) = _
  rw [hfirst, Exec.ok_bind, if_neg hne, lineGet_type, Exec.ok_bind, hstr, lineGet_value _ hvalue,
    Exec.ok_bind]
  change ((ParseLine.having (stored string _) total names ips).storeIp _ _ >>= fun s => _) = _
  rw [storeIp_having hmax fun h => hips (hip.1 (hstr ▸ h)), Exec.ok_bind,
    storeName_having hmax fun h => hnames (hname.1 (hstr ▸ h)), Exec.ok_bind]
  unfold kept
  simp only [hstr, hname, hip]

/-- **One line**: the value goes to the array of its type. -/
theorem parseLineBody_having (string : List Cell) {names ips : List (List Byte)} (l : ServerLine)
    (hmax : (total : Int) ≤ intMax)
    (hnames : (names ++ (l.value? .name).toList).length ≤ total)
    (hips : (ips ++ (l.value? .ip).toList).length ≤ total) :
    ∃ string', parseLineBody (.having string total names ips) (l.content.text ++ [newline]) =
      .ok (.again (.having string' total (names ++ (l.value? .name).toList)
        (ips ++ (l.value? .ip).toList))) := by
  have hno := l.noNewline
  unfold ServerLine.value? at hnames hips ⊢
  match hc : l.content with
  | .comment text =>
    refine ⟨stored string (hash :: (text ++ [newline])),
      (parseLineBody_skipped _ (.inl rfl) _).trans ?_⟩
    simp [ParseLine.having]
  | .blank =>
    refine ⟨stored string [newline], (parseLineBody_skipped _ (.inr rfl) _).trans ?_⟩
    simp [ParseLine.having]
  | .entry type value =>
    rw [hc] at hno hnames hips
    have hvalue : newline ∉ value := fun h =>
      hno (List.mem_append_right _ (List.mem_cons_of_mem escapeChr h))
    have hread : Content.text (.entry type value) ++ [newline] =
        type.text ++ escapeChr :: (value ++ [newline]) := List.append_assoc _ _ _
    rw [hread]
    cases type with
    | name =>
      have hroom : names.length < total := by simpa [Nat.succ_le_iff] using hnames
      obtain ⟨string', hbody⟩ :=
        parseLineBody_entry string names ips .name hvalue hmax (fun _ => hroom) nofun
      exact ⟨string', hbody.trans (by simp)⟩
    | ip =>
      have hroom : ips.length < total := by simpa [Nat.succ_le_iff] using hips
      obtain ⟨string', hbody⟩ :=
        parseLineBody_entry string names ips .ip hvalue hmax nofun (fun _ => hroom)
      exact ⟨string', hbody.trans (by simp)⟩

/-- **The whole file**: the values are stored in the order of their lines. -/
theorem parseLine_pieces (string : List Cell) (names ips : List (List Byte))
    (ls : List ServerLine) (hmax : (total : Int) ≤ intMax)
    (hnames : (names ++ values .name ls).length ≤ total)
    (hips : (ips ++ values .ip ls).length ≤ total) :
    ∃ string', forPieces parseLineBody (fun s => (0, s)) (.having string total names ips)
        (Pieces.pieces newline 127 (linesText ls)) =
      .ok (0, .having string' total (names ++ values .name ls) (ips ++ values .ip ls)) := by
  induction ls generalizing string names ips with
  | nil =>
    refine ⟨string, ?_⟩
    simp [linesText, values, Pieces.pieces_nil, forPieces]
  | cons l ls ih =>
    rw [values_cons, ← List.append_assoc] at hnames hips
    have hnames' := Nat.le_trans (List.prefix_append _ _).length_le hnames
    have hips' := Nat.le_trans (List.prefix_append _ _).length_le hips
    obtain ⟨string', hline⟩ := parseLineBody_having string l hmax hnames' hips'
    obtain ⟨string'', hrest⟩ := ih string' _ _ hnames hips
    have hshort : l.content.text.length < 127 := Nat.lt_succ_of_le l.short
    refine ⟨string'', ?_⟩
    rw [linesText_cons, Pieces.pieces_line l.noNewline hshort, forPieces_again hline, hrest,
      values_cons, values_cons, List.append_assoc, List.append_assoc]

end Store

/-! ## The two passes -/

section Passes

variable (string string' : List Cell)

theorem countServer_lines (ls : List ServerLine) (n : Int) :
    countServer string (some (linesText ls)) = .ok n ↔
      n = (ls.map fun l => ipPairs l.content.text).sum ∧ n ≤ intMax := by
  have hne : ∀ p ∈ Pieces.pieces newline 2 (linesText ls), p ≠ [] := fun p hp =>
    Pieces.ne_nil_of_mem hp
  unfold countServer
  dsimp only
  rw [whileFgets_eq (by decide)]
  change forPieces _ _ _ (Pieces.pieces newline 2 (linesText ls)) = _ ↔ _
  rw [forPieces_count hne ⟨Int.le_refl 0, by decide⟩, sum_pieces, Int.zero_add]

theorem parseLine_lines (ls : List ServerLine) {total : Nat} (hmax : (total : Int) ≤ intMax)
    (hnames : (values .name ls).length ≤ total) (hips : (values .ip ls).length ≤ total) :
    ∃ string'', parseLine string' (some (linesText ls)) (unset total) =
      .ok (0, .having string'' total (values .name ls) (values .ip ls)) := by
  obtain ⟨string'', hrun⟩ := parseLine_pieces string' [] [] ls hmax hnames hips
  refine ⟨string'', ?_⟩
  unfold parseLine
  dsimp only
  rw [whileFgets_eq (by decide)]
  exact hrun

theorem filled_assigned_iff (vs : List (List Byte)) (room : Nat) :
    (∀ entry ∈ filled vs room, entry ≠ none) ↔ room = 0 := by
  cases room with
  | zero => simp [filled]
  | succ room =>
    refine iff_of_false (fun h => h none ?_ rfl) (Nat.succ_ne_zero room)
    exact List.mem_append_right _ (List.mem_replicate.2 ⟨Nat.succ_ne_zero room, rfl⟩)

theorem passes_of_aligned (f : ServerFile) (haligned : ∀ l ∈ f.lines, l.Aligned)
    (hmax : ((values .ip f.lines).length : Int) ≤ intMax) :
    countServer string (some (linesText f.lines)) = .ok (values .ip f.lines).length ∧
      ∃ string'', parseLine string' (some (linesText f.lines))
          (unset (values .ip f.lines).length) =
        .ok (0, .having string'' (values .ip f.lines).length (values .name f.lines)
          (values .ip f.lines)) := by
  have hsum := (sum_pairs_iff f.lines).2 haligned
  exact ⟨(countServer_lines string f.lines _).2 ⟨by rw [hsum], hmax⟩,
    parseLine_lines string' f.lines hmax (Nat.le_of_eq f.balanced) (Nat.le_refl _)⟩

/-- **The two passes agree** on a file exactly if `IP` stands at an even offset of a line only where
an address begins, and the addresses can be counted by an `int`. -/
theorem passesAgree_iff (f : ServerFile) :
    PassesAgree string string' (linesText f.lines) ↔
      (∀ l ∈ f.lines, l.Aligned) ∧ ((values .ip f.lines).length : Int) ≤ intMax := by
  have hle := le_sum_pairs f.lines
  have hbalanced := f.balanced
  constructor
  · rintro ⟨n, s, hcount, hparse, hip, -, -⟩
    obtain ⟨rfl, hmax⟩ := (countServer_lines string f.lines n).1 hcount
    obtain ⟨string'', hrun⟩ := parseLine_lines string' f.lines hmax (by omega) hle
    rw [hrun] at hparse
    cases hparse
    have hsum : (f.lines.map fun l => ipPairs l.content.text).sum = (values .ip f.lines).length :=
      (Int.ofNat.inj hip).symm
    exact ⟨(sum_pairs_iff f.lines).1 hsum, hsum ▸ hmax⟩
  · rintro ⟨haligned, hmax⟩
    obtain ⟨hcount, string'', hrun⟩ := passes_of_aligned string string' f haligned hmax
    refine ⟨_, _, hcount, hrun, rfl, congrArg Int.ofNat hbalanced, ?_⟩
    intro entry hentry
    rcases List.mem_append.1 hentry with hentry | hentry
    · exact (filled_assigned_iff _ _).2 (Nat.sub_self _) entry hentry
    · have hroom := Nat.sub_eq_zero_of_le (Nat.le_of_eq hbalanced.symm)
      exact (filled_assigned_iff _ _).2 hroom entry hentry

/-- What `new_server_config` returns for such a file. -/
theorem newServerConfig_lines (f : ServerFile) (haligned : ∀ l ∈ f.lines, l.Aligned)
    (hmax : ((values .ip f.lines).length : Int) ≤ intMax) :
    newServerConfig string string' (some (linesText f.lines)) = .ok (some
      { serversNames := (values .name f.lines).map some
        serversIp := (values .ip f.lines).map some
        totalServer := (values .ip f.lines).length }) := by
  have hbalanced := f.balanced
  obtain ⟨hcount, string'', hrun⟩ := passes_of_aligned string string' f haligned hmax
  unfold newServerConfig
  rw [hcount, Exec.ok_bind, if_neg (Int.not_lt.2 (Int.natCast_nonneg _)), hrun, Exec.ok_bind]
  dsimp only [ParseLine.having]
  rw [if_neg (by decide), hbalanced, Nat.sub_self]
  simp [filled]

/-- `# IP`, and one server. -/
theorem passesAgree_comment : ¬ ∀ (string string' : List Cell) (f : ServerFile),
    PassesAgree string string' (linesText f.lines) := by
  intro h
  obtain ⟨n, s, hcount, hparse, hip, -, -⟩ := h [] []
    { lines :=
        [⟨.comment (bytes " IP"), by decide, by decide⟩,
          ⟨.entry .name (bytes "a"), by decide, by decide⟩,
          ⟨.entry .ip (bytes "b"), by decide, by decide⟩]
      balanced := rfl }
  have hn : n = 2 := by
    cases hcount
    rfl
  subst hn
  cases hparse
  cases hip

end Passes

end Heimdall.Configuration
