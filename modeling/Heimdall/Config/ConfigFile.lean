import Heimdall.Config.HeimdallConfig

/-!
# Files of comments and settings

`init_config` goes through the pieces of at most 127 characters of the file. It stays in the file if
those it reads are skipped or complete (`Readable`). Then it does what their keys and values say
(`forPieces_readable`), and else it reads behind what `fgets` has stored (`forPieces_stray`).

A setting that is too long for a piece, or that no line feed ends, makes it stray. The rest of a
long comment may be taken for a setting. And nothing asks whether all members of the configuration
have been assigned (`initConfigRight_iff`).
-/

namespace Heimdall.Configuration

open Loop Keyed

/-- The pieces that are read are skipped or complete. -/
def Readable : List (List Byte) → Prop
  | [] => True
  | p :: ps => (¬ Skipped p → Complete p) ∧ (Stops p ∨ Readable ps)

def entries (ps : List (List Byte)) : List (List Byte × List Byte) :=
  (ps.filter fun p => ¬ Skipped p).map entryOf

/-! ## All pieces -/

section Pieces

variable {s t : InitConfig} {p : List Byte} {ps : List (List Byte)} {r : Int}

theorem entries_cons_skipped (hskip : Skipped p) : entries (p :: ps) = entries ps := by
  unfold entries
  rw [List.filter_cons_of_neg (by simpa using hskip)]

theorem entries_cons (hskip : ¬ Skipped p) : entries (p :: ps) = entryOf p :: entries ps := by
  unfold entries
  rw [List.filter_cons_of_pos (by simpa using hskip), List.map_cons]

/-- The pass goes on behind a piece that is read and has no unknown key. -/
theorem initConfigBody_again (s : InitConfig) (ps : List (List Byte)) (hpiece : IsPiece p)
    (hcomplete : ¬ Skipped p → Complete p) (hstops : ¬ Stops p) :
    ∃ t cells, initConfigBody configHandler s p = .ok (.again t) ∧
      t.cells = s.cells ++ cells ∧ (∀ c ∈ cells, c.fromFile = true) ∧
      (entries ps).foldl handled t.config = (entries (p :: ps)).foldl handled s.config := by
  by_cases hskip : Skipped p
  · obtain ⟨cells, hcells, hbody⟩ := initConfigBody_skipped s hskip
    exact ⟨_, cells, hbody, rfl, hcells, by rw [entries_cons_skipped hskip]⟩
  · obtain ⟨cells, hcells, hbody⟩ := initConfigBody_complete s hpiece hskip (hcomplete hskip)
    rw [if_neg hstops] at hbody
    exact ⟨_, cells, hbody, rfl, hcells, by rw [entries_cons hskip, List.foldl_cons]⟩

/-- **The search stays in the file**, an unknown key is an error, and else the configuration is what
the entries say. -/
theorem forPieces_readable (s : InitConfig) (hps : ∀ p ∈ ps, IsPiece p) (h : Readable ps) :
    ∃ t cells, forPieces (initConfigBody configHandler) (fun s => (0, s)) s ps =
        .ok (if ∃ p ∈ ps, Stops p then -1 else 0, t) ∧
      t.cells = s.cells ++ cells ∧ (∀ c ∈ cells, c.fromFile = true) ∧
      ((∀ p ∈ ps, ¬ Stops p) → t.config = (entries ps).foldl handled s.config) := by
  induction ps generalizing s with
  | nil => exact ⟨s, [], rfl, (List.append_nil _).symm, nofun, fun _ => rfl⟩
  | cons p ps ih =>
    obtain ⟨hcomplete, hrest⟩ := h
    have hpiece := hps p List.mem_cons_self
    have hps' : ∀ p ∈ ps, IsPiece p := fun q hq => hps q (List.mem_cons_of_mem p hq)
    by_cases hstops : Stops p
    · obtain ⟨cells, hcells, hbody⟩ :=
        initConfigBody_complete s hpiece hstops.1 (hcomplete hstops.1)
      rw [if_pos hstops] at hbody
      have hno : ¬ ∀ q ∈ p :: ps, ¬ Stops q := fun hno => hno p List.mem_cons_self hstops
      refine ⟨⟨stored s.string p, s.config, s.cells ++ cells⟩, cells, ?_, rfl, hcells,
        fun h => absurd h hno⟩
      rw [forPieces_leave hbody, if_pos ⟨p, List.mem_cons_self, hstops⟩]
    · obtain ⟨t, cells, hbody, ht, hcells, hfold⟩ :=
        initConfigBody_again s ps hpiece hcomplete hstops
      obtain ⟨u, cells', hrun, hu, hcells', hconfig⟩ := ih t hps' (hrest.resolve_left hstops)
      refine ⟨u, cells ++ cells', ?_, ?_, ?_, ?_⟩
      · rw [forPieces_again hbody, hrun]
        have hiff : (∃ q ∈ p :: ps, Stops q) ↔ ∃ q ∈ ps, Stops q := by simp [hstops]
        simp only [hiff]
      · rw [hu, ht, List.append_assoc]
      · intro c hc
        exact (List.mem_append.1 hc).elim (hcells c) (hcells' c)
      · intro hno
        rw [hconfig fun q hq => hno q (List.mem_cons_of_mem p hq), hfold]

theorem forPieces_cells (hps : ∀ p ∈ ps, IsPiece p)
    (h : forPieces (initConfigBody configHandler) (fun s => (0, s)) s ps = .ok (r, t)) :
    s.cells ⊆ t.cells := by
  induction ps generalizing s with
  | nil =>
    cases h
    exact fun c hc => hc
  | cons p ps ih =>
    have hne := (hps p List.mem_cons_self).ne_nil
    obtain ⟨pass, hbody, hrest⟩ := Exec.bind_ok h
    have hcells := initConfigBody_cells hne hbody
    cases pass with
    | again u =>
      exact List.Subset.trans hcells (ih (fun q hq => hps q (List.mem_cons_of_mem p hq)) hrest)
    | leave u =>
      cases hrest
      exact hcells

/-- **The search goes astray**: if it comes to an end, it has read what is not of the file. -/
theorem forPieces_stray (hps : ∀ p ∈ ps, IsPiece p) (hread : ¬ Readable ps)
    (h : forPieces (initConfigBody configHandler) (fun s => (0, s)) s ps = .ok (r, t)) :
    ∃ c ∈ t.cells, c.fromFile = false := by
  induction ps generalizing s with
  | nil => exact absurd trivial hread
  | cons p ps ih =>
    have hpiece := hps p List.mem_cons_self
    have hps' : ∀ p ∈ ps, IsPiece p := fun q hq => hps q (List.mem_cons_of_mem p hq)
    obtain ⟨pass, hbody, hrest⟩ := Exec.bind_ok h
    by_cases hcomplete : ¬ Skipped p → Complete p
    · have hread' : ¬ Stops p ∧ ¬ Readable ps := by
        rw [← not_or]
        exact fun hor => hread ⟨hcomplete, hor⟩
      cases pass with
      | again u => exact ih hps' hread'.2 hrest
      | leave u =>
        obtain ⟨t, cells, hagain, -⟩ := initConfigBody_again s ps hpiece hcomplete hread'.1
        cases hagain.symm.trans hbody
    · obtain ⟨hskip, hno⟩ := Classical.not_imp.1 hcomplete
      obtain ⟨c, hc, hstray⟩ := initConfigBody_stray hpiece hskip hno hbody
      cases pass with
      | again u => exact ⟨c, forPieces_cells hps' hrest hc, hstray⟩
      | leave u =>
        cases hrest
        exact ⟨c, hc, hstray⟩

end Pieces

/-! ## Files -/

/-- A key has no space, and does not begin like a comment. -/
structure Setting where
  key : List Byte
  value : List Byte
  key_space : escapeCharacter ∉ key
  key_newline : newline ∉ key
  key_hash : key.head? ≠ some hash
  value_newline : newline ∉ value

def Setting.text (s : Setting) : List Byte := s.key ++ escapeCharacter :: s.value

inductive ConfigLine
  | comment (text : List Byte) (text_newline : newline ∉ text)
  | blank
  | setting (s : Setting)

def ConfigLine.text : ConfigLine → List Byte
  | .comment text _ => hash :: text
  | .blank => []
  | .setting s => s.text

/-- `ended` says whether there is a line feed after the last line. -/
def fileText (ended : Bool) : List ConfigLine → List Byte
  | [] => []
  | [l] => l.text ++ if ended then [newline] else []
  | l :: ls => l.text ++ newline :: fileText ended ls

def ConfigLine.setting? : ConfigLine → Option (List Byte × List Byte)
  | .setting s => some (s.key, s.value)
  | _ => none

/-- The keys and values of the lines. -/
def settings (ls : List ConfigLine) : List (List Byte × List Byte) := ls.filterMap (·.setting?)

/-- The pieces that `fgets` reads. -/
def filePieces (ended : Bool) (ls : List ConfigLine) : List (List Byte) :=
  Pieces.pieces newline 127 (fileText ended ls)

/-- `init_config` reads only characters of the file, it returns -1 if there is an unknown key, and
where it returns 0 every member is what the last line with its key says. -/
def InitConfigRight (string : List Cell) (ended : Bool) (ls : List ConfigLine) : Prop :=
  ∃ r s, initConfig string (some (fileText ended ls)) configHandler .unassigned = .ok (r, s) ∧
    (∀ c ∈ s.cells, c.fromFile = true) ∧ ((∃ e ∈ settings ls, e.1 ∉ keys) → r = -1) ∧
    (r = 0 → ∀ f : Field, ∃ value,
      last f.key (settings ls) = some value ∧ s.config f = some value)

/-- The pieces that are read are skipped or complete. If none of them has an unknown key, then no
key of a line has a NUL, and there is a line with each of the sixteen keys, the value of which the
last piece with the key has too. -/
def ReadWell (ended : Bool) (ls : List ConfigLine) : Prop :=
  Readable (filePieces ended ls) ∧ ((∀ p ∈ filePieces ended ls, ¬ Stops p) →
    (∀ e ∈ settings ls, 0 ∉ e.1) ∧ ∀ f : Field, ∃ value,
      last f.key (settings ls) = some value ∧
        last f.key (entries (filePieces ended ls)) = some value)

section Lines

variable {ended : Bool} {l : ConfigLine} {ls : List ConfigLine}

theorem keys_nul {key : List Byte} (h : key ∈ keys) : 0 ∉ key := by
  have hall : keys.all (fun key => 0 ∉ key) = true := by decide
  simpa using List.all_eq_true.1 hall key h

/-- What stands behind a line. -/
theorem fileText_cons (ended : Bool) (l : ConfigLine) (ls : List ConfigLine) :
    (fileText ended (l :: ls) = l.text ∧ ls = []) ∨
      fileText ended (l :: ls) = l.text ++ newline :: fileText ended ls := by
  cases ls with
  | nil =>
    cases ended with
    | false => exact .inl ⟨List.append_nil _, rfl⟩
    | true => exact .inr rfl
  | cons l' ls => exact .inr rfl

theorem settings_cons (l : ConfigLine) (ls : List ConfigLine) :
    settings (l :: ls) = l.setting?.toList ++ settings ls := by
  unfold settings
  rw [List.filterMap_cons]
  cases l.setting? <;> rfl

theorem Setting.text_newline (s : Setting) : newline ∉ s.text := by
  intro h
  rcases List.mem_append.1 h with h | h
  · exact s.key_newline h
  · rcases List.mem_cons.1 h with h | h
    · exact absurd h (by decide)
    · exact s.value_newline h

theorem Setting.text_head (s : Setting) :
    ∃ b, s.text.head? = some b ∧ b ≠ hash ∧ b ≠ newline := by
  have hkey := s.key_hash
  have hnewline := s.key_newline
  unfold text
  cases hk : s.key with
  | nil => exact ⟨escapeCharacter, rfl, by decide, by decide⟩
  | cons b k =>
    rw [hk] at hkey hnewline
    exact ⟨b, rfl, fun h => hkey (h ▸ rfl), fun h => hnewline (h ▸ List.mem_cons_self)⟩

theorem Setting.not_skipped (s : Setting) (post : List Byte) : ¬ Skipped (s.text ++ post) := by
  obtain ⟨b, hb, hhash, hnewline⟩ := s.text_head
  have hhead : (s.text ++ post).head? = some b := by
    rw [List.head?_append, hb]
    rfl
  rw [skipped_iff hhead]
  exact not_or.2 ⟨hhash, hnewline⟩

theorem skipped_append {p post : List Byte} (hp : p ≠ []) :
    Skipped (p ++ post) ↔ Skipped p := by
  unfold Skipped
  rw [List.head?_append_of_ne_nil _ hp]

theorem Setting.entryOf_key (s : Setting) (post : List Byte) :
    (entryOf (s.text ++ post)).1 = cstring s.key := by
  unfold entryOf text
  rw [List.append_assoc, List.cons_append, takeWhile_before s.key_space]

/-- The first piece of a setting is the line, if it is complete. -/
theorem Setting.first_piece (s : Setting) {text rest : List Byte}
    (htext : text = s.text ∨ text = s.text ++ newline :: rest)
    (hgood : ∀ p ∈ Pieces.pieces newline 127 text, ¬ Skipped p → Complete p) :
    s.text ++ [newline] ∈ Pieces.pieces newline 127 text := by
  have hskipped : ¬ Skipped text := by
    rcases htext with rfl | rfl
    · exact List.append_nil s.text ▸ s.not_skipped []
    · exact s.not_skipped _
  have hne : text ≠ [] := by
    rcases htext with rfl | rfl
    · exact List.append_ne_nil_of_right_ne_nil _ (List.cons_ne_nil _ _)
    · exact List.append_ne_nil_of_right_ne_nil _ (List.cons_ne_nil _ _)
  obtain ⟨p, rest', happend, hp⟩ : ∃ p rest', p ++ rest' = text ∧
      p ∈ Pieces.pieces newline 127 text := by
    refine ⟨_, _, Pieces.cut_append newline 127 text, ?_⟩
    rw [Pieces.pieces_eq_cut newline (by decide) hne]
    exact List.mem_cons_self
  have hpiece := isPiece_of_mem hp
  rw [← happend, skipped_append hpiece.ne_nil] at hskipped
  obtain ⟨q, rfl, hq⟩ := hpiece.shape (hgood p hp hskipped).2
  have hsplit : q ++ newline :: rest' = text := by
    rw [← happend, List.append_assoc]
    rfl
  -- The line feed of the piece is the first of the text.
  have hline := takeWhile_before hq rest'
  rcases htext with rfl | rfl
  · have hin : newline ∈ s.text := hsplit ▸ List.mem_append_right _ List.mem_cons_self
    exact absurd hin s.text_newline
  · rw [hsplit, takeWhile_before s.text_newline] at hline
    rw [← hline] at hp
    exact hp

/-- If all pieces are skipped or complete, every setting is a piece. -/
theorem setting_piece (hgood : ∀ p ∈ filePieces ended ls, ¬ Skipped p → Complete p)
    {e : List Byte × List Byte} (he : e ∈ settings ls) :
    ∃ p ∈ filePieces ended ls, ¬ Skipped p ∧ (entryOf p).1 = cstring e.1 := by
  induction ls with
  | nil => cases he
  | cons l ls ih =>
    have hline (rest : List Byte) (htext : fileText ended (l :: ls) = l.text ∨
        fileText ended (l :: ls) = l.text ++ newline :: rest) (he : e ∈ l.setting?.toList) :
        ∃ p ∈ filePieces ended (l :: ls), ¬ Skipped p ∧ (entryOf p).1 = cstring e.1 := by
      cases l with
      | comment | blank => cases he
      | setting s =>
        cases List.mem_singleton.1 he
        exact ⟨_, s.first_piece htext hgood, s.not_skipped _, s.entryOf_key _⟩
    rw [settings_cons] at he
    rcases fileText_cons ended l ls with ⟨htext, rfl⟩ | htext
    · rcases List.mem_append.1 he with he | he
      · exact hline [] (.inl htext) he
      · cases he
    · rcases List.mem_append.1 he with he | he
      · exact hline _ (.inr htext) he
      · have hpieces : filePieces ended (l :: ls) =
            Pieces.pieces newline 127 (l.text ++ [newline]) ++ filePieces ended ls := by
          unfold filePieces
          rw [htext, Pieces.pieces_append]
        rw [hpieces] at hgood ⊢
        obtain ⟨p, hp, hpe⟩ := ih (fun p hp => hgood p (List.mem_append_right _ hp)) he
        exact ⟨p, List.mem_append_right _ hp, hpe⟩

theorem readable_of_good {ps : List (List Byte)} (h : ∀ p ∈ ps, ¬ Skipped p → Complete p) :
    Readable ps := by
  induction ps with
  | nil => trivial
  | cons p ps ih =>
    rw [List.forall_mem_cons] at h
    exact ⟨h.1, .inr (ih h.2)⟩

theorem good_of_readable {ps : List (List Byte)} (h : Readable ps) (hno : ∀ p ∈ ps, ¬ Stops p) :
    ∀ p ∈ ps, ¬ Skipped p → Complete p := by
  induction ps with
  | nil => exact nofun
  | cons p ps ih =>
    rw [List.forall_mem_cons] at hno ⊢
    exact ⟨h.1, ih (h.2.resolve_left hno.1) hno.2⟩

end Lines

/-! ## Short lines -/

section Short

variable {ls : List ConfigLine}

/-- A line that fits in a piece, and can be copied as a string. -/
def ConfigLine.Short (l : ConfigLine) : Prop := l.text.length ≤ 126 ∧ 0 ∉ l.text

theorem ConfigLine.newline_not_mem (l : ConfigLine) : newline ∉ l.text := by
  cases l with
  | comment text htext => exact List.not_mem_cons_of_ne_of_not_mem (by decide) htext
  | blank => exact List.not_mem_nil
  | setting s => exact s.text_newline

theorem filePieces_short (hshort : ∀ l ∈ ls, l.Short) :
    filePieces true ls = ls.map fun l => l.text ++ [newline] := by
  induction ls with
  | nil => rfl
  | cons l ls ih =>
    rw [List.forall_mem_cons] at hshort
    have htext : fileText true (l :: ls) = l.text ++ newline :: fileText true ls := by
      cases ls <;> rfl
    have hlen : l.text.length < 127 := Nat.lt_succ_of_le hshort.1.1
    unfold filePieces
    rw [htext, Pieces.pieces_line l.newline_not_mem hlen, List.map_cons]
    exact congrArg _ (ih hshort.2)

/-- The piece of a line is skipped, or it is complete and has the key and the value of the line. -/
theorem ConfigLine.piece_cases {l : ConfigLine} (hl : 0 ∉ l.text) :
    (Skipped (l.text ++ [newline]) ∧ l.setting? = none) ∨
      ¬ Skipped (l.text ++ [newline]) ∧ Complete (l.text ++ [newline]) ∧
        l.setting? = some (entryOf (l.text ++ [newline])) := by
  cases l with
  | comment text htext => exact .inl ⟨.inl rfl, rfl⟩
  | blank => exact .inl ⟨.inr rfl, rfl⟩
  | setting s =>
    have hkey : 0 ∉ s.key := fun h => hl (List.mem_append_left _ h)
    have hvalue : 0 ∉ s.value := fun h =>
      hl (List.mem_append_right _ (List.mem_cons_of_mem _ h))
    have hentry : (entryOf (s.text ++ [newline])).1 = s.key := by
      rw [s.entryOf_key, cstring_of_nul hkey]
    have hdrop : (s.text ++ [newline]).drop (s.key.length + 1) = s.value ++ newline :: [] := by
      unfold Setting.text
      rw [List.append_assoc, ← List.drop_drop, List.drop_left]
      rfl
    refine .inr ⟨s.not_skipped _, ⟨?_, List.mem_append_right _ (List.mem_singleton_self _)⟩, ?_⟩
    · exact List.mem_append_left _ (List.mem_append_right _ List.mem_cons_self)
    · refine congrArg some (Prod.ext hentry.symm ?_)
      change s.value = cstring (((s.text ++ [newline]).drop
        ((entryOf (s.text ++ [newline])).1.length + 1)).takeWhile (· != newline))
      rw [hentry, hdrop, takeWhile_before s.value_newline, cstring_of_nul hvalue]

theorem entries_short (hshort : ∀ l ∈ ls, l.Short) :
    entries (filePieces true ls) = settings ls := by
  rw [filePieces_short hshort]
  induction ls with
  | nil => rfl
  | cons l ls ih =>
    rw [List.forall_mem_cons] at hshort
    rw [List.map_cons, settings_cons]
    rcases ConfigLine.piece_cases hshort.1.2 with ⟨hskip, hl⟩ | ⟨hskip, -, hl⟩
    · rw [entries_cons_skipped hskip, ih hshort.2, hl]
      rfl
    · rw [entries_cons hskip, ih hshort.2, hl]
      rfl

/-- The keys behind which no more is read are those of the entries. -/
theorem stops_iff {ps : List (List Byte)} :
    (∀ p ∈ ps, ¬ Stops p) ↔ ∀ e ∈ entries ps, e.1 ∈ keys := by
  constructor
  · intro h e he
    obtain ⟨p, hp, rfl⟩ := List.mem_map.1 he
    rw [List.mem_filter, decide_eq_true_eq] at hp
    by_contra hkey
    exact h p hp.1 ⟨hp.2, hkey⟩
  · intro h p hp hstops
    have hentry : entryOf p ∈ entries ps :=
      List.mem_map_of_mem (List.mem_filter.2 ⟨hp, decide_eq_true hstops.1⟩)
    exact hstops.2 (h _ hentry)

theorem readable_short (hshort : ∀ l ∈ ls, l.Short) : Readable (filePieces true ls) := by
  rw [filePieces_short hshort]
  refine readable_of_good fun p hp hskip => ?_
  obtain ⟨l, hl, rfl⟩ := List.mem_map.1 hp
  rcases ConfigLine.piece_cases (hshort l hl).2 with ⟨hskip', -⟩ | ⟨-, hcomplete, -⟩
  · exact absurd hskip' hskip
  · exact hcomplete

/-- **A file of short lines is read well** exactly if it has an unknown key, or all known ones. -/
theorem readWell_short_iff (hshort : ∀ l ∈ ls, l.Short) :
    ReadWell true ls ↔
      (∃ e ∈ settings ls, e.1 ∉ keys) ∨ ∀ f : Field, ∃ e ∈ settings ls, e.1 = f.key := by
  have hread := readable_short hshort
  unfold ReadWell
  rw [stops_iff, entries_short hshort]
  constructor
  · rintro ⟨-, h⟩
    by_cases hkeys : ∃ e ∈ settings ls, e.1 ∉ keys
    · exact .inl hkeys
    · push Not at hkeys
      refine .inr fun f => ?_
      obtain ⟨value, hlast, -⟩ := (h hkeys).2 f
      exact exists_last_iff.1 ⟨value, hlast⟩
  · intro h
    refine ⟨hread, fun hkeys => ⟨fun e he => keys_nul (hkeys e he), fun f => ?_⟩⟩
    rcases h with ⟨e, he, hkey⟩ | hall
    · exact absurd (hkeys e he) hkey
    · obtain ⟨value, hlast⟩ := exists_last_iff.2 (hall f)
      exact ⟨value, hlast, hlast⟩

end Short

/-! ## `init_config` -/

section Right

variable (string : List Cell) (ended : Bool) (ls : List ConfigLine)

theorem initConfig_pieces :
    initConfig string (some (fileText ended ls)) configHandler .unassigned =
      forPieces (initConfigBody configHandler) (fun s => (0, s)) ⟨string, .unassigned, []⟩
        (filePieces ended ls) :=
  whileFgets_eq (by decide) _ _

theorem filePieces_isPiece : ∀ p ∈ filePieces ended ls, IsPiece p := fun _ hp => isPiece_of_mem hp

/-- What a member is after the entries. -/
theorem foldl_unassigned (es : List (List Byte × List Byte)) (f : Field) :
    es.foldl handled .unassigned f = last f.key es := by
  rw [foldl_handled]
  cases last f.key es <;> rfl

/-- What `init_config` does with a file that it does not stray from. -/
theorem initConfig_readable (hread : Readable (filePieces ended ls)) :
    ∃ t, initConfig string (some (fileText ended ls)) configHandler .unassigned =
        .ok (if ∃ p ∈ filePieces ended ls, Stops p then -1 else 0, t) ∧
      (∀ c ∈ t.cells, c.fromFile = true) ∧ ((∀ p ∈ filePieces ended ls, ¬ Stops p) →
        ∀ f, t.config f = last f.key (entries (filePieces ended ls))) := by
  obtain ⟨t, cells, hrun, ht, hcells, hconfig⟩ :=
    forPieces_readable ⟨string, .unassigned, []⟩ (filePieces_isPiece ended ls) hread
  refine ⟨t, (initConfig_pieces string ended ls).trans hrun, ?_, fun hno f => ?_⟩
  · rw [ht]
    exact hcells
  · rw [hconfig hno, foldl_unassigned]

/-- What `new_config` returns for it: NULL if there is a key that nobody knows, and else what the
last pieces with the keys say. -/
theorem newConfig_readable (hread : Readable (filePieces ended ls)) :
    ∃ config, newConfig string (some (fileText ended ls)) = .ok config ∧
      (config = none ↔ ∃ p ∈ filePieces ended ls, Stops p) ∧
      ∀ c, config = some c → ∀ f, c f = last f.key (entries (filePieces ended ls)) := by
  obtain ⟨t, hrun, -, hconfig⟩ := initConfig_readable string ended ls hread
  unfold newConfig
  rw [hrun, Exec.ok_bind]
  dsimp only
  by_cases hstops : ∃ p ∈ filePieces ended ls, Stops p
  · rw [if_pos hstops, if_pos rfl]
    exact ⟨none, rfl, iff_of_true rfl hstops, nofun⟩
  · rw [if_neg hstops, if_neg (by decide)]
    refine ⟨some t.config, rfl, iff_of_false nofun hstops, ?_⟩
    intro c hc f
    cases hc
    exact hconfig (fun p hp h => hstops ⟨p, hp, h⟩) f

theorem InitConfigRight.readable (h : InitConfigRight string ended ls) :
    Readable (filePieces ended ls) := by
  obtain ⟨r, t, hrun, hcells, -⟩ := h
  by_contra hread
  rw [initConfig_pieces] at hrun
  obtain ⟨c, hc, hstray⟩ := forPieces_stray (filePieces_isPiece ended ls) hread hrun
  cases hstray.symm.trans (hcells c hc)

/-- If the keys of all pieces are known, and no key of a line has a NUL, those of all lines are. -/
theorem settings_known (hread : Readable (filePieces ended ls))
    (hno : ∀ p ∈ filePieces ended ls, ¬ Stops p) (hnul : ∀ e ∈ settings ls, 0 ∉ e.1) :
    ∀ e ∈ settings ls, e.1 ∈ keys := by
  intro e he
  obtain ⟨p, hp, hskip, hentry⟩ := setting_piece (good_of_readable hread hno) he
  rw [cstring_of_nul (hnul e he)] at hentry
  by_contra hkey
  exact hno p hp ⟨hskip, hentry ▸ hkey⟩

/-- **`init_config` is right on a file** exactly if it reads the file well. -/
theorem initConfigRight_iff : InitConfigRight string ended ls ↔ ReadWell ended ls := by
  constructor
  · intro h
    have hread := h.readable
    obtain ⟨t', hrun', -, hconfig⟩ := initConfig_readable string ended ls hread
    obtain ⟨r, t, hrun, -, hunknown, hassigned⟩ := h
    refine ⟨hread, fun hno => ?_⟩
    have hnone : ¬ ∃ p ∈ filePieces ended ls, Stops p := fun ⟨p, hp, hstops⟩ => hno p hp hstops
    rw [hrun, if_neg hnone] at hrun'
    cases hrun'
    refine ⟨fun e he => keys_nul ?_, fun f => ?_⟩
    · by_contra hkey
      cases hunknown ⟨e, he, hkey⟩
    · obtain ⟨value, hlast, hmember⟩ := hassigned rfl f
      exact ⟨value, hlast, (hconfig hno f).symm.trans hmember⟩
  · rintro ⟨hread, hsame⟩
    obtain ⟨t, hrun, hcells, hconfig⟩ := initConfig_readable string ended ls hread
    refine ⟨_, t, hrun, hcells, ?_, ?_⟩
    · rintro ⟨e, he, hkey⟩
      refine if_pos ?_
      by_contra hnone
      have hno : ∀ p ∈ filePieces ended ls, ¬ Stops p := fun p hp h => hnone ⟨p, hp, h⟩
      exact hkey (settings_known ended ls hread hno (hsame hno).1 e he)
    · intro hr f
      have hno : ∀ p ∈ filePieces ended ls, ¬ Stops p := by
        intro p hp hstops
        rw [if_pos ⟨p, hp, hstops⟩] at hr
        cases hr
      obtain ⟨value, hlast, hentry⟩ := (hsame hno).2 f
      exact ⟨value, hlast, (hconfig hno f).trans hentry⟩

end Right

set_option maxRecDepth 4000 in
/-- The last line has no line feed. -/
theorem initConfigRight_open : ¬ ∀ (string : List Cell) (ended : Bool) (ls : List ConfigLine),
    InitConfigRight string ended ls := by
  intro h
  obtain ⟨r, s, hrun, -⟩ := h (List.replicate 128 ⟨0, false⟩) false
    [.setting ⟨bytes "backlog", bytes "10", by decide, by decide, by decide, by decide⟩]
  cases hrun

end Heimdall.Configuration
