import Mathlib.Data.List.TakeWhile
import Heimdall.Lib.Loop
import Heimdall.Lib.Pieces
import Heimdall.Utils.Helper

/-!
# Lines in a buffer (`heimdall_config.c`, `server_config.c`)

Both configuration files are read with `fgets` into an array on the stack, and `_get` and
`line_get`, which are the same function, search it for a character without regard to where the line
ends. The array is modelled with what earlier lines left in it, and every character of it says
whether `fgets` took it from the file.

A loop over `fgets` goes through the pieces of the file (`whileFgets_eq`). The search reads only
characters of the file if it finds its character in what `fgets` has read (`copyUntil_stored`), and
else it goes past them (`copyUntil_stray`).
-/

namespace Heimdall.Configuration

open Loop

def newline : Byte := 10

/-- `#`, which begins a comment. -/
def hash : Byte := 35

structure Cell where
  char : Byte
  fromFile : Bool
  deriving DecidableEq

def maxLength : Nat := 128

/-! ## `fgets` -/

/-- The characters that `fgets(string, size, file)` takes, and the file behind them. -/
def fgets (size : Nat) (file : List Byte) : Option (List Byte × List Byte) :=
  if file = [] then none else some (Pieces.cut newline (size - 1) file)

/-- The cells of characters of the file. -/
def taken (read : List Byte) : List Cell := read.map fun b => ⟨b, true⟩

/-- The array after `fgets` has put `read` there, and a NUL. -/
def stored (string : List Cell) (read : List Byte) : List Cell :=
  taken read ++ ⟨0, false⟩ :: string.drop (read.length + 1)

def charAt (string : List Cell) (i : Nat) : Exec Byte :=
  match string[i]? with
  | some c => .ok c.char
  | none => .error .outOfBounds

section Loops

variable {σ ρ : Type} (size : Nat) (body : σ → List Byte → Exec (Pass σ ρ)) (out : σ → ρ)

def fgetsPass (s : σ × List Byte) : Exec (Pass (σ × List Byte) ρ) :=
  match fgets size s.2 with
  | none => .ok (.leave (out s.1))
  | some (read, file) => do
    match ← body s.1 read with
    | .again t => .ok (.again (t, file))
    | .leave r => .ok (.leave r)

/-- `while (fgets(string, size, file)) body`, and `out` behind it. -/
def whileFgets (s : σ) (file : List Byte) : Exec ρ :=
  run (fgetsPass size body out) .fuel (file.length + 1) (s, file)

/-- The loop, over what the calls of `fgets` read. -/
def forPieces : σ → List (List Byte) → Exec ρ
  | s, [] => .ok (out s)
  | s, p :: ps => do
    match ← body s p with
    | .again t => forPieces t ps
    | .leave r => .ok r

variable {size body out} {s t : σ} {p : List Byte} {ps : List (List Byte)} {r : ρ}

theorem forPieces_again (h : body s p = .ok (.again t)) :
    forPieces body out s (p :: ps) = forPieces body out t ps := by
  rw [forPieces, h, Exec.ok_bind]

theorem forPieces_leave (h : body s p = .ok (.leave r)) :
    forPieces body out s (p :: ps) = .ok r := by
  rw [forPieces, h, Exec.ok_bind]

theorem forPieces_error {e : Stop} (h : body s p = .error e) :
    forPieces body out s (p :: ps) = .error e := by
  rw [forPieces, h]
  rfl

theorem run_fgetsPass (hsize : 1 < size) (n : Nat) (s : σ) (file : List Byte)
    (hn : file.length < n) : run (fgetsPass size body out) .fuel n (s, file) =
      forPieces body out s (Pieces.pieces newline (size - 1) file) := by
  induction n generalizing s file with
  | zero => omega
  | succ n ih =>
    by_cases hfile : file = []
    · subst hfile
      exact run_leave rfl n
    · have hread : fgets size file = some (Pieces.cut newline (size - 1) file) := if_neg hfile
      have hpos : 0 < size - 1 := by omega
      have hlen := Pieces.cut_rest_length newline hpos hfile
      rw [Pieces.pieces_eq_cut newline hpos hfile]
      rcases hb : body s (Pieces.cut newline (size - 1) file).1 with e | pass
      · rw [forPieces_error hb]
        refine run_error ?_ n
        simp only [fgetsPass, hread, hb]
        rfl
      · cases pass with
        | again t =>
          rw [forPieces_again hb, ← ih t _ (by omega)]
          refine run_again ?_ n
          simp only [fgetsPass, hread, hb, Exec.ok_bind]
        | leave r =>
          rw [forPieces_leave hb]
          refine run_leave ?_ n
          simp only [fgetsPass, hread, hb, Exec.ok_bind]

/-- **The loop goes through the pieces**, and it ends. -/
theorem whileFgets_eq (hsize : 1 < size) (s : σ) (file : List Byte) :
    whileFgets size body out s file =
      forPieces body out s (Pieces.pieces newline (size - 1) file) :=
  run_fgetsPass hsize _ s file (Nat.lt_succ_self _)

end Loops

theorem taken_length (read : List Byte) : (taken read).length = read.length := List.length_map _

theorem taken_chars (read : List Byte) : (taken read).map (·.char) = read := by
  unfold taken
  rw [List.map_map]
  exact List.map_id read

theorem taken_fromFile {read : List Byte} {c : Cell} (hc : c ∈ taken read) : c.fromFile = true := by
  obtain ⟨b, -, rfl⟩ := List.mem_map.1 hc
  rfl

theorem charAt_stored {string : List Cell} {read : List Byte} {i : Nat} {b : Byte}
    (h : (read ++ [0])[i]? = some b) : charAt (stored string read) i = .ok b := by
  have hcell : ∃ c, (stored string read)[i]? = some c ∧ c.char = b := by
    unfold stored
    rcases Nat.lt_or_ge i read.length with hi | hi
    · rw [List.getElem?_append_left hi] at h
      rw [List.getElem?_append_left (by rwa [taken_length]), taken, List.getElem?_map, h]
      exact ⟨_, rfl, rfl⟩
    · rw [List.getElem?_append_right hi] at h
      rw [List.getElem?_append_right (by rwa [taken_length]), taken_length]
      cases hj : i - read.length with
      | zero =>
        rw [hj] at h
        exact ⟨_, rfl, Option.some.inj h⟩
      | succ j =>
        rw [hj] at h
        cases h
  obtain ⟨c, hc, rfl⟩ := hcell
  unfold charAt
  rw [hc]

/-! ## `_get` -/

/-- The cells before the next `escape`, and its own. -/
def scan (escape : Byte) : List Cell → Exec (List Cell × Cell)
  | [] => .error .outOfBounds
  | c :: array =>
    if c.char = escape then .ok ([], c)
    else do
      let (subset, stop) ← scan escape array
      .ok (c :: subset, stop)

/-- The characters of a copy before the NUL at its end, and the cells that were read for it. -/
structure Subset where
  chars : List Byte
  read : List Cell

/-- The body of `_get` and `line_get`, whose `malloc` does not fail. -/
def copyUntil (array : List Cell) (start : Nat) (escape : Byte) : Exec Subset := do
  let (subset, stop) ← scan escape (array.drop start)
  .ok ⟨subset.map (·.char), subset ++ [stop]⟩

/-- A string ends at the first NUL. -/
def cstring (l : List Byte) : List Byte := l.takeWhile (· != 0)

def Subset.str (s : Subset) : List Byte := cstring s.chars

theorem cstring_of_nul {l : List Byte} (h : 0 ∉ l) : cstring l = l := by
  refine List.takeWhile_eq_self_iff.2 fun b hb => ?_
  have hne : b ≠ 0 := fun h0 => h (h0 ▸ hb)
  simpa using hne

section Scan

variable {escape : Byte} {l read : List Byte} {start : Nat}

theorem scan_taken (hl : escape ∉ l) (post : List Cell) :
    scan escape (taken l ++ ⟨escape, true⟩ :: post) = .ok (taken l, ⟨escape, true⟩) := by
  induction l with
  | nil => exact if_pos rfl
  | cons b l ih =>
    have hb : b ≠ escape := (List.ne_of_not_mem_cons hl).symm
    have hl' : escape ∉ l := List.not_mem_of_not_mem_cons hl
    have hrest := ih hl'
    rw [taken] at hrest
    rw [taken, List.map_cons, List.cons_append, scan, if_neg hb, hrest]
    rfl

/-- What a search has read that passes a cell, or ends there. -/
theorem scan_stray (hl : escape ∉ l) {c : Cell} {post subset : List Cell} {stop : Cell}
    (h : scan escape (taken l ++ c :: post) = .ok (subset, stop)) : c ∈ subset ++ [stop] := by
  induction l generalizing subset with
  | nil =>
    rw [taken, List.map_nil, List.nil_append, scan] at h
    split at h
    · cases h
      exact List.mem_singleton_self _
    · obtain ⟨⟨subset', stop'⟩, -, hok⟩ := Exec.bind_ok h
      cases hok
      exact List.mem_cons_self
  | cons b l ih =>
    have hb : b ≠ escape := (List.ne_of_not_mem_cons hl).symm
    have hl' : escape ∉ l := List.not_mem_of_not_mem_cons hl
    rw [taken, List.map_cons, List.cons_append, scan, if_neg hb] at h
    obtain ⟨⟨subset', stop'⟩, hrest, hok⟩ := Exec.bind_ok h
    cases hok
    exact List.mem_cons_of_mem _ (ih hl' hrest)

theorem drop_stored (string : List Cell) (hstart : start ≤ read.length) :
    (stored string read).drop start =
      taken (read.drop start) ++ ⟨0, false⟩ :: string.drop (read.length + 1) := by
  unfold stored taken
  rw [List.drop_append_of_le_length (by rwa [List.length_map]), List.map_drop]

/-- The search that finds its character in what has been read. -/
theorem copyUntil_stored (string : List Cell) {rest : List Byte}
    (h : read.drop start = l ++ escape :: rest) (hl : escape ∉ l) :
    copyUntil (stored string read) start escape = .ok ⟨l, taken (l ++ [escape])⟩ := by
  have hstart : start ≤ read.length := by
    by_contra hlt
    rw [List.drop_eq_nil_of_le (by omega)] at h
    exact absurd h.symm (by simp)
  have hdrop : (stored string read).drop start = taken l ++ ⟨escape, true⟩ ::
      (taken rest ++ ⟨0, false⟩ :: string.drop (read.length + 1)) := by
    rw [drop_stored string hstart, h, taken, List.map_append, List.append_assoc]
    rfl
  unfold copyUntil
  rw [hdrop, scan_taken hl, Exec.ok_bind]
  dsimp only
  rw [taken_chars, taken, taken, List.map_append]
  rfl

theorem copyUntil_mem (string : List Cell) (h : escape ∈ read.drop start) :
    ∃ cells, (∀ c ∈ cells, c.fromFile = true) ∧ copyUntil (stored string read) start escape =
      .ok ⟨(read.drop start).takeWhile (· != escape), cells⟩ := by
  obtain ⟨l, rest, hread, hl⟩ := List.eq_append_cons_of_mem h
  refine ⟨taken (l ++ [escape]), fun c hc => taken_fromFile hc, ?_⟩
  rw [copyUntil_stored string hread hl, hread, takeWhile_before hl]

/-- The search that does not find it there reads the NUL behind it, whatever it comes to. -/
theorem copyUntil_stray (string : List Cell) (hstart : start ≤ read.length)
    (h : escape ∉ read.drop start) {s : Subset}
    (hs : copyUntil (stored string read) start escape = .ok s) :
    ∃ c ∈ s.read, c.fromFile = false := by
  unfold copyUntil at hs
  obtain ⟨⟨subset, stop⟩, hok, heq⟩ := Exec.bind_ok hs
  cases heq
  rw [drop_stored string hstart] at hok
  exact ⟨_, scan_stray h hok, rfl⟩

end Scan

end Heimdall.Configuration
