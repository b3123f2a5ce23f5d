import Mathlib.Data.List.Nodup
import Heimdall.Config.Buffer
import Heimdall.Lib.Keyed

/-!
# The configuration file (`heimdall_config.c`)

`init_config` takes the file line by line, in an array of 128 characters, and gives the key and the
value of every line that is neither empty nor a comment to `config_handler`, until there is a key
that it does not know. `_get` looks for the space behind the key and the line feed behind the value,
and goes on looking where the line has none.

A piece that `fgets` has read is skipped, or it has a space and a line feed, and its key and value
are handled (`initConfigBody_complete`), or characters are read that are not of the file
(`initConfigBody_stray`).
-/

namespace Heimdall.Configuration

open Loop Keyed

def escapeCharacter : Byte := 32

def get (array : List Cell) (start : Nat) (escape : Byte) : Exec Subset :=
  copyUntil array start escape

/-- The members of `Config`. -/
inductive Field
  | algorithmSelection
  | preFork
  | printEnable
  | logLevel
  | writeEnable
  | logFileReq
  | logFileResp
  | timeoutWorker
  | killerTime
  | updateTime
  | serverConfig
  | serverMainPort
  | backlog
  | maxFd
  | socketsPath
  | maxThreadPchild
  deriving DecidableEq

def Field.key : Field → List Byte
  | .algorithmSelection => bytes "algorithm_selection"
  | .preFork => bytes "pre_fork"
  | .printEnable => bytes "print_enable"
  | .logLevel => bytes "log_level"
  | .writeEnable => bytes "write_enable"
  | .logFileReq => bytes "log_file_req"
  | .logFileResp => bytes "log_file_resp"
  | .timeoutWorker => bytes "timeout_worker"
  | .killerTime => bytes "killer_time"
  | .updateTime => bytes "update_time"
  | .serverConfig => bytes "server_config"
  | .serverMainPort => bytes "server_main_port"
  | .backlog => bytes "backlog"
  | .maxFd => bytes "max_fd"
  | .socketsPath => bytes "sockets_path"
  | .maxThreadPchild => bytes "max_thread_pchild"

/-- In the order in which `config_handler` compares the keys. -/
def fields : List Field :=
  [.algorithmSelection, .preFork, .printEnable, .logLevel, .writeEnable, .logFileReq, .logFileResp,
    .timeoutWorker, .killerTime, .updateTime, .serverConfig, .serverMainPort, .backlog, .maxFd,
    .socketsPath, .maxThreadPchild]

/-- A member that has not been assigned is `none`. -/
def Config := Field → Option (List Byte)

/-- What `malloc` returns. -/
def Config.unassigned : Config := fun _ => none

def Config.assign (config : Config) (f : Field) (value : List Byte) : Config :=
  fun g => if g = f then some value else config g

/-! ## The functions -/

/-- `asprintf` does not fail. -/
def configHandler (key value : List Byte) (config : Config) : Int × Config :=
  match fields.find? (fun f => f.key = key) with
  | some f => (0, config.assign f value)
  | none => (-1, config)

/-- What an entry of the file changes. -/
def handled (config : Config) (e : List Byte × List Byte) : Config :=
  (configHandler e.1 e.2 config).2

/-- The array, the configuration, and the cells of the array that have been read. -/
structure InitConfig where
  string : List Cell
  config : Config
  cells : List Cell

def initConfigBody (handler : List Byte → List Byte → Config → Int × Config) (s : InitConfig)
    (read : List Byte) : Exec (Pass InitConfig (Int × InitConfig)) := do
  let string := stored s.string read
  let first ← charAt string 0
  let cells := s.cells ++ string.take 1
  if first = hash ∨ first = newline then .ok (.again { s with string, cells })
  else do
    let key ← get string 0 escapeCharacter
    let value ← get string (key.str.length + 1) newline
    let cells := cells ++ key.read ++ value.read
    let (r, config) := handler key.str value.str s.config
    if r = -1 then .ok (.leave (-1, ⟨string, config, cells⟩))
    else .ok (.again ⟨string, config, cells⟩)

/-- `string` is the array as it is at the call; `none` is a file that `fopen` does not open. -/
def initConfig (string : List Cell) (file : Option (List Byte))
    (handler : List Byte → List Byte → Config → Int × Config) (config : Config) :
    Exec (Int × InitConfig) :=
  match file with
  | none => .ok (-1, ⟨string, config, []⟩)
  | some file =>
    whileFgets maxLength (initConfigBody handler) (fun s => (0, s)) ⟨string, config, []⟩ file

/-- `none` is NULL. -/
def newConfig (string : List Cell) (file : Option (List Byte)) : Exec (Option Config) := do
  let (r, s) ← initConfig string file configHandler .unassigned
  if r = -1 then .ok none else .ok (some s.config)

/-! ## Pieces of the file -/

def Skipped (p : List Byte) : Prop := p.head? = some hash ∨ p.head? = some newline

instance : DecidablePred Skipped := fun p => inferInstanceAs (Decidable (p.head? = _ ∨ _))

/-- A piece has what the two searches look for. -/
def Complete (p : List Byte) : Prop := escapeCharacter ∈ p ∧ newline ∈ p

instance : DecidablePred Complete := fun p => inferInstanceAs (Decidable (_ ∈ p ∧ _))

/-- The key and the value of a piece. -/
def entryOf (p : List Byte) : List Byte × List Byte :=
  let key := cstring (p.takeWhile (· != escapeCharacter))
  (key, cstring ((p.drop (key.length + 1)).takeWhile (· != newline)))

def keys : List (List Byte) := fields.map Field.key

/-- A piece with an unknown key, behind which no more is read. -/
def Stops (p : List Byte) : Prop := ¬ Skipped p ∧ (entryOf p).1 ∉ keys

instance : DecidablePred Stops := fun p => inferInstanceAs (Decidable (¬ Skipped p ∧ _))

/-! ## `config_handler` -/

section Handler

variable {key value : List Byte} {config : Config}

theorem mem_fields (f : Field) : f ∈ fields := by cases f <;> decide

theorem keys_nodup : keys.Nodup := by decide

theorem key_mem_keys (f : Field) : f.key ∈ keys := List.mem_map_of_mem (mem_fields f)

theorem key_injective {f g : Field} (h : f.key = g.key) : f = g :=
  List.inj_on_of_nodup_map keys_nodup (mem_fields f) (mem_fields g) h

theorem configHandler_key (f : Field) (value : List Byte) (config : Config) :
    configHandler f.key value config = (0, config.assign f value) := by
  have hfind : fields.find? (fun g => g.key = f.key) = some f := by
    cases hfind : fields.find? (fun g => g.key = f.key) with
    | none => exact absurd (List.find?_eq_none.1 hfind f (mem_fields f)) (by simp)
    | some g =>
      have hg : g.key = f.key := by simpa using List.find?_some hfind
      rw [key_injective hg]
  unfold configHandler
  rw [hfind]

theorem configHandler_unknown (h : key ∉ keys) (value : List Byte) (config : Config) :
    configHandler key value config = (-1, config) := by
  have hfind : fields.find? (fun g => g.key = key) = none := by
    rw [List.find?_eq_none]
    intro g hg hkey
    exact h (List.mem_map.2 ⟨g, hg, by simpa using hkey⟩)
  unfold configHandler
  rw [hfind]

theorem configHandler_known (h : key ∈ keys) (value : List Byte) (config : Config) :
    configHandler key value config = (0, handled config (key, value)) := by
  obtain ⟨f, -, rfl⟩ := List.mem_map.1 h
  unfold handled
  rw [configHandler_key]

/-- What it does to each member. -/
theorem handled_member (e : List Byte × List Byte) (config : Config) (f : Field) :
    handled config e f = if e.1 = f.key then some e.2 else config f := by
  unfold handled
  by_cases h : e.1 ∈ keys
  · obtain ⟨g, -, hg⟩ := List.mem_map.1 h
    rw [← hg, configHandler_key]
    have hiff : f = g ↔ g.key = f.key := ⟨fun h => h ▸ rfl, fun h => (key_injective h).symm⟩
    exact if_congr hiff rfl rfl
  · have hne : e.1 ≠ f.key := fun he => h (he ▸ key_mem_keys f)
    rw [configHandler_unknown h, if_neg hne]

/-- The last entry with its key says what a member is. -/
theorem foldl_handled (es : List (List Byte × List Byte)) (config : Config) (f : Field) :
    es.foldl handled config f = ((last f.key es).map some).getD (config f) :=
  @foldl_get _ _ _ f.key _ _ _ (fun config : Config => config f) some
    (fun config e => handled_member e config f) config es

end Handler

/-! ## One piece -/

section Piece

variable {s : InitConfig} {p : List Byte}

/-- What `string[0]` is. -/
theorem first_stored (string : List Cell) {b : Byte} (hp : p.head? = some b) :
    charAt (stored string p) 0 = .ok b ∧ (stored string p).take 1 = taken [b] := by
  cases p with
  | nil => cases hp
  | cons c p =>
    cases hp
    exact ⟨charAt_stored rfl, rfl⟩

theorem exists_head (hne : p ≠ []) : ∃ b, p.head? = some b := by
  cases p with
  | nil => exact absurd rfl hne
  | cons b p => exact ⟨b, rfl⟩

theorem skipped_iff {b : Byte} (hp : p.head? = some b) : Skipped p ↔ b = hash ∨ b = newline := by
  unfold Skipped
  rw [hp, Option.some.injEq, Option.some.injEq]

theorem initConfigBody_skipped (s : InitConfig) (hskip : Skipped p) :
    ∃ cells, (∀ c ∈ cells, c.fromFile = true) ∧
      initConfigBody configHandler s p =
        .ok (.again ⟨stored s.string p, s.config, s.cells ++ cells⟩) := by
  obtain ⟨b, hp⟩ : ∃ b, p.head? = some b := hskip.elim (fun h => ⟨_, h⟩) fun h => ⟨_, h⟩
  have hb := (skipped_iff hp).1 hskip
  obtain ⟨hfirst, htake⟩ := first_stored s.string hp
  refine ⟨taken [b], fun c hc => taken_fromFile hc, ?_⟩
  unfold initConfigBody
  dsimp only
  rw [hfirst, Exec.ok_bind, if_pos hb, htake]

/-- What a pass goes on with, or leaves. -/
def passed : Pass InitConfig (Int × InitConfig) → InitConfig
  | .again t => t
  | .leave r => r.2

/-- What a pass has read, if it comes to an end. -/
theorem initConfigBody_inv {b : Byte} (hp : p.head? = some b)
    {pass : Pass InitConfig (Int × InitConfig)}
    (h : initConfigBody configHandler s p = .ok pass) :
    (b = hash ∨ b = newline) ∧ (passed pass).cells = s.cells ++ taken [b] ∨
      ∃ key value, get (stored s.string p) 0 escapeCharacter = .ok key ∧
        get (stored s.string p) (key.str.length + 1) newline = .ok value ∧
        (passed pass).cells = s.cells ++ taken [b] ++ key.read ++ value.read := by
  obtain ⟨hfirst, htake⟩ := first_stored s.string hp
  unfold initConfigBody at h
  dsimp only at h
  rw [hfirst, Exec.ok_bind, htake] at h
  split at h
  · cases h
    exact .inl ⟨‹_›, rfl⟩
  · obtain ⟨key, hkey, h⟩ := Exec.bind_ok h
    obtain ⟨value, hvalue, h⟩ := Exec.bind_ok h
    refine .inr ⟨key, value, hkey, hvalue, ?_⟩
    split at h <;> cases h <;> rfl

/-- A pass does not forget what has been read before. -/
theorem initConfigBody_cells (hne : p ≠ []) {pass : Pass InitConfig (Int × InitConfig)}
    (h : initConfigBody configHandler s p = .ok pass) : s.cells ⊆ (passed pass).cells := by
  obtain ⟨b, hp⟩ := exists_head hne
  rcases initConfigBody_inv hp h with ⟨-, hcells⟩ | ⟨key, value, -, -, hcells⟩
  · rw [hcells]
    exact List.subset_append_left _ _
  · rw [hcells, List.append_assoc, List.append_assoc]
    exact List.subset_append_left _ _

/-- The key of a piece stands before its first space. -/
theorem key_length_lt (hspace : escapeCharacter ∈ p) : (entryOf p).1.length < p.length := by
  obtain ⟨k, rest, rfl, hk⟩ := List.eq_append_cons_of_mem hspace
  have hkey : (entryOf (k ++ escapeCharacter :: rest)).1 = cstring k := by
    unfold entryOf
    rw [takeWhile_before hk]
  have hle : (cstring k).length ≤ k.length := (List.takeWhile_prefix _).length_le
  rw [hkey, List.length_append, List.length_cons]
  omega

/-- Pieces are not empty, and a line feed is the last of them. -/
structure IsPiece (p : List Byte) : Prop where
  ne_nil : p ≠ []
  shape : newline ∈ p → ∃ q, p = q ++ [newline] ∧ newline ∉ q

theorem isPiece_of_mem {n : Nat} {text : List Byte} (hp : p ∈ Pieces.pieces newline n text) :
    IsPiece p :=
  ⟨Pieces.ne_nil_of_mem hp, Pieces.shape_of_mem hp⟩

/-- The line feed of a complete piece stands behind the key, and the space after it. -/
theorem newline_after_key (hpiece : IsPiece p) (hp : Complete p) :
    newline ∈ p.drop ((entryOf p).1.length + 1) := by
  obtain ⟨hspace, hnewline⟩ := hp
  obtain ⟨q, rfl, -⟩ := hpiece.shape hnewline
  have hq : escapeCharacter ∈ q := by
    rcases List.mem_append.1 hspace with h | h
    · exact h
    · exact absurd (List.mem_singleton.1 h) (by decide)
  have hkey : entryOf (q ++ [newline]) = ((entryOf q).1, (entryOf (q ++ [newline])).2) := by
    obtain ⟨k, rest, rfl, hk⟩ := List.eq_append_cons_of_mem hq
    unfold entryOf
    rw [takeWhile_before hk, List.append_assoc, List.cons_append, takeWhile_before hk]
  rw [hkey, List.drop_append_of_le_length (key_length_lt hq)]
  exact List.mem_append_right _ (List.mem_singleton_self newline)

theorem initConfigBody_complete (s : InitConfig) (hpiece : IsPiece p) (hskip : ¬ Skipped p)
    (hp : Complete p) :
    ∃ cells, (∀ c ∈ cells, c.fromFile = true) ∧ initConfigBody configHandler s p =
      if Stops p then .ok (.leave (-1, ⟨stored s.string p, s.config, s.cells ++ cells⟩))
      else .ok (.again ⟨stored s.string p, handled s.config (entryOf p), s.cells ++ cells⟩) := by
  obtain ⟨b, hhead⟩ := exists_head hpiece.ne_nil
  have hb := mt (skipped_iff hhead).2 hskip
  obtain ⟨hfirst, htake⟩ := first_stored s.string hhead
  have hspace : escapeCharacter ∈ p.drop 0 := hp.1
  obtain ⟨keyCells, hkeyCells, hkey⟩ := copyUntil_mem s.string hspace
  obtain ⟨valueCells, hvalueCells, hvalue⟩ := copyUntil_mem s.string (newline_after_key hpiece hp)
  refine ⟨taken [b] ++ keyCells ++ valueCells, ?_, ?_⟩
  · intro c hc
    rcases List.mem_append.1 hc with hc | hc
    · rcases List.mem_append.1 hc with hc | hc
      · exact taken_fromFile hc
      · exact hkeyCells c hc
    · exact hvalueCells c hc
  · have hkeyStr : Subset.str ⟨(p.drop 0).takeWhile (· != escapeCharacter), keyCells⟩ =
        (entryOf p).1 := rfl
    have hvalueStr : Subset.str ⟨(p.drop ((entryOf p).1.length + 1)).takeWhile (· != newline),
        valueCells⟩ = (entryOf p).2 := rfl
    unfold initConfigBody get
    dsimp only
    rw [hfirst, Exec.ok_bind, if_neg hb, htake, hkey, Exec.ok_bind, hkeyStr, hvalue, Exec.ok_bind,
      hvalueStr, ← List.append_assoc, ← List.append_assoc]
    by_cases hkeys : (entryOf p).1 ∈ keys
    · have hstops : ¬ Stops p := fun h => h.2 hkeys
      rw [configHandler_known hkeys, if_neg hstops]
      rfl
    · have hstops : Stops p := ⟨hskip, hkeys⟩
      rw [configHandler_unknown hkeys, if_pos hstops]
      rfl

theorem initConfigBody_stray (hpiece : IsPiece p) (hskip : ¬ Skipped p) (hp : ¬ Complete p)
    {pass : Pass InitConfig (Int × InitConfig)}
    (h : initConfigBody configHandler s p = .ok pass) :
    ∃ c ∈ (passed pass).cells, c.fromFile = false := by
  obtain ⟨b, hhead⟩ := exists_head hpiece.ne_nil
  have hb := mt (skipped_iff hhead).2 hskip
  rcases initConfigBody_inv hhead h with ⟨hskip', -⟩ | ⟨key, value, hkey, hvalue, hcells⟩
  · exact absurd hskip' hb
  · rw [hcells]
    by_cases hspace : escapeCharacter ∈ p
    · have hnewline : newline ∉ p.drop ((entryOf p).1.length + 1) := fun h =>
        hp ⟨hspace, List.mem_of_mem_drop h⟩
      have hspace' : escapeCharacter ∈ p.drop 0 := hspace
      obtain ⟨cells, -, hok⟩ := copyUntil_mem s.string hspace'
      cases hok.symm.trans hkey
      obtain ⟨c, hc, hstray⟩ := copyUntil_stray s.string (key_length_lt hspace) hnewline hvalue
      exact ⟨c, List.mem_append_right _ hc, hstray⟩
    · obtain ⟨c, hc, hstray⟩ := copyUntil_stray s.string (Nat.zero_le _) hspace hkey
      exact ⟨c, List.mem_append_left _ (List.mem_append_right _ hc), hstray⟩

end Piece

end Heimdall.Configuration
