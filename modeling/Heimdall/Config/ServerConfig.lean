import Mathlib.Algebra.GroupWithZero.Nat
import Heimdall.Config.Buffer

/-!
# The server file (`server_config.c`)

`count_server` reads the file two characters at a time, and counts the pairs `IP`. `parse_line`
reads it line by line, and stores the names and addresses in two arrays of as many entries as have
been counted.

What is counted are the pieces of two characters that are `IP` (`forPieces_count`). As a line feed
ends a piece, these are the pairs at the even offsets of a line (`pieces_ipPairs`).
-/

namespace Heimdall.Configuration

open Loop

/-- `:` -/
def escapeChr : Byte := 58

def lineGet (array : List Cell) (start : Nat) (escape : Byte) : Exec Subset :=
  copyUntil array start escape

/-- An entry that has not been assigned is `none`. -/
structure ServerConfig where
  serversNames : List (Option (List Byte))
  serversIp : List (Option (List Byte))
  totalServer : Int
  deriving DecidableEq

/-! ## `parse_line` -/

/-- The locals of `parse_line`, and what it changes. -/
structure ParseLine where
  string : List Cell
  config : ServerConfig
  countName : Int
  countIp : Int
  deriving DecidableEq

def storeAt (array : List (Option (List Byte))) (i : Int) (value : List Byte) :
    Exec (List (Option (List Byte))) :=
  if 0 ≤ i ∧ i < array.length then .ok (array.set i.toNat (some value)) else .error .outOfBounds

/-- What `parse_line` does for the lines of one type, with their array and counter. -/
def storeEntry (key : List Byte) (type value : Subset) (array : List (Option (List Byte)))
    (count : Int) : Exec (List (Option (List Byte)) × Int) :=
  if type.str = key then do
    let array ← storeAt array count value.chars
    let count ← checkInt (count + 1)
    .ok (array, count)
  else .ok (array, count)

def ParseLine.storeIp (s : ParseLine) (type value : Subset) : Exec ParseLine := do
  let (serversIp, countIp) ← storeEntry (bytes "IP") type value s.config.serversIp s.countIp
  .ok { s with config := { s.config with serversIp }, countIp }

def ParseLine.storeName (s : ParseLine) (type value : Subset) : Exec ParseLine := do
  let (serversNames, countName) ←
    storeEntry (bytes "Name") type value s.config.serversNames s.countName
  .ok { s with config := { s.config with serversNames }, countName }

def parseLineBody (s : ParseLine) (read : List Byte) : Exec (Pass ParseLine (Int × ParseLine)) := do
  let string := stored s.string read
  let first ← charAt string 0
  if first = hash ∨ first = newline then .ok (.again { s with string })
  else do
    let type ← lineGet string 0 escapeChr
    let value ← lineGet string (type.str.length + 1) newline
    let s ← ParseLine.storeIp { s with string } type value
    let s ← s.storeName type value
    .ok (.again s)

/-- `string` is the array as it is at the call; `none` is a file that `fopen` does not open. -/
def parseLine (string : List Cell) (file : Option (List Byte)) (config : ServerConfig) :
    Exec (Int × ParseLine) :=
  match file with
  | none => .ok (-1, ⟨string, config, 0, 0⟩)
  | some file =>
    whileFgets maxLength parseLineBody (fun s => (0, s)) ⟨string, config, 0, 0⟩ file

/-! ## `count_server` -/

def countServerBody (s : List Cell × Int) (read : List Byte) :
    Exec (Pass (List Cell × Int) Int) := do
  let string := stored s.1 read
  let first ← charAt string 0
  let second ← charAt string 1
  if first = 73 ∧ second = 80 then do
    let serverCount ← checkInt (s.2 + 1)
    .ok (.again (string, serverCount))
  else .ok (.again (string, s.2))

def countServer (string : List Cell) (file : Option (List Byte)) : Exec Int :=
  match file with
  | none => .ok (-1)
  | some file => whileFgets 3 countServerBody (fun s => s.2) (string, 0) file

/-! ## `new_server_config` -/

/-- What `malloc` makes room for. -/
def unset (total : Int) : ServerConfig :=
  ⟨List.replicate total.toNat none, List.replicate total.toNat none, total⟩

/-- `malloc` fails for a negative number of entries, and else does not. `none` is NULL. -/
def newServerConfig (string string' : List Cell) (file : Option (List Byte)) :
    Exec (Option ServerConfig) := do
  let total ← countServer string file
  if total < 0 then .ok none
  else do
    let (r, s) ← parseLine string' file (unset total)
    if r ≠ 0 then .ok none else .ok (some s.config)

/-! ## What is counted -/

def ipPair : List Byte → Nat
  | a :: b :: _ => if a = 73 ∧ b = 80 then 1 else 0
  | _ => 0

/-- The pairs `IP` at the even offsets. -/
def ipPairs : List Byte → Nat
  | a :: b :: l => ipPair [a, b] + ipPairs l
  | _ => 0

section Count

variable {string : List Cell} {count n : Int} {p l : List Byte} {ps : List (List Byte)}

theorem ipPair_le_one (p : List Byte) : ipPair p ≤ 1 := by
  match p with
  | [] | [_] => exact Nat.zero_le 1
  | a :: b :: _ => by_cases h : a = 73 ∧ b = 80 <;> simp [ipPair, h]

theorem countServerBody_eq (hp : p ≠ []) (string : List Cell) (count : Int) :
    countServerBody (string, count) p =
      (if ipPair p = 1 then checkInt (count + 1) else .ok count) >>= fun serverCount =>
        .ok (.again (stored string p, serverCount)) := by
  unfold countServerBody
  match p with
  | [] => exact absurd rfl hp
  | [a] =>
    have hfirst : charAt (stored string [a]) 0 = .ok a := charAt_stored rfl
    have hsecond : charAt (stored string [a]) 1 = .ok 0 := charAt_stored rfl
    dsimp only
    rw [hfirst, hsecond, Exec.ok_bind, Exec.ok_bind, if_neg (by simp), if_neg (by simp [ipPair])]
    rfl
  | a :: b :: l =>
    have hfirst : charAt (stored string (a :: b :: l)) 0 = .ok a := charAt_stored rfl
    have hsecond : charAt (stored string (a :: b :: l)) 1 = .ok b := charAt_stored rfl
    dsimp only
    rw [hfirst, hsecond, Exec.ok_bind, Exec.ok_bind]
    by_cases h : a = 73 ∧ b = 80
    · have hpair : ipPair (a :: b :: l) = 1 := if_pos h
      rw [if_pos h, if_pos hpair]
    · rw [if_neg h, if_neg (by simp [ipPair, h])]
      rfl

/-- The count is that of the pairs, if it is an `int`. -/
theorem forPieces_count (hps : ∀ p ∈ ps, p ≠ []) (hcount : 0 ≤ count ∧ count ≤ intMax) :
    forPieces countServerBody (fun s => s.2) (string, count) ps = .ok n ↔
      n = count + (ps.map ipPair).sum ∧ n ≤ intMax := by
  induction ps generalizing string count with
  | nil =>
    simp only [forPieces, Except.ok.injEq, List.map_nil, List.sum_nil]
    omega
  | cons p ps ih =>
    have hrest : ∀ p ∈ ps, p ≠ [] := fun q hq => hps q (List.mem_cons_of_mem p hq)
    rw [forPieces, countServerBody_eq (hps p List.mem_cons_self), List.map_cons, List.sum_cons]
    by_cases hp : ipPair p = 1
    · rw [if_pos hp]
      by_cases hmax : count + 1 ≤ intMax
      · have hfits : FitsInt (count + 1) := ⟨by unfold intMin; omega, hmax⟩
        rw [checkInt_of_fits hfits, Exec.ok_bind, Exec.ok_bind, ih hrest ⟨by omega, hmax⟩, hp]
        omega
      · have hover : ¬ FitsInt (count + 1) := fun h => hmax h.2
        have herror : checkInt (count + 1) = .error .overflow := if_neg hover
        rw [herror]
        constructor
        · intro h
          cases h
        · intro h
          omega
    · have hle := ipPair_le_one p
      have hzero : ipPair p = 0 := by omega
      rw [if_neg hp, Exec.ok_bind, Exec.ok_bind, ih hrest hcount, hzero]
      omega

/-- The pairs of a line are the pieces of two characters. -/
theorem pieces_ipPairs (hl : newline ∉ l) (text : List Byte) :
    ((Pieces.pieces newline 2 (l ++ newline :: text)).map ipPair).sum =
      ipPairs l + ((Pieces.pieces newline 2 text).map ipPair).sum := by
  induction l using ipPairs.induct with
  | case1 a b l ih =>
    have hab : newline ∉ [a, b] := fun h => hl (List.mem_append_left l h)
    have hrest : newline ∉ l := fun h => hl (List.mem_append_right [a, b] h)
    have hpieces : Pieces.pieces newline 2 ([a, b] ++ (l ++ newline :: text)) =
        [a, b] :: Pieces.pieces newline 2 (l ++ newline :: text) :=
      Pieces.pieces_full hab rfl (List.cons_ne_nil a [b]) _
    change ((Pieces.pieces newline 2 ([a, b] ++ (l ++ newline :: text))).map ipPair).sum = _
    rw [hpieces, List.map_cons, List.sum_cons, ih hrest, ipPairs]
    omega
  | case2 l hshort =>
    match l with
    | [] =>
      rw [Pieces.pieces_line hl (by decide), List.map_cons, List.sum_cons]
      rfl
    | [a] =>
      have hpair : ipPair ([a] ++ [newline]) = 0 := if_neg fun h => absurd h.2 (by decide)
      rw [Pieces.pieces_line hl (by simp), List.map_cons, List.sum_cons, hpair]
      rfl
    | a :: b :: l => exact absurd rfl (hshort a b l)

theorem ip_prefix_iff {a b : Byte} : bytes "IP" <+: a :: b :: l ↔ a = 73 ∧ b = 80 := by
  have hip : bytes "IP" = [73, 80] := rfl
  rw [hip, List.cons_prefix_cons, List.cons_prefix_cons]
  exact ⟨fun h => ⟨h.1.symm, h.2.1.symm⟩, fun h => ⟨h.1.symm, h.2.symm, List.nil_prefix⟩⟩

theorem ipPairs_eq_zero_iff : ipPairs l = 0 ↔ ∀ i, ¬ bytes "IP" <+: l.drop (2 * i) := by
  induction l using ipPairs.induct with
  | case1 a b l ih =>
    have hpair : ipPair [a, b] = 0 ↔ ¬ bytes "IP" <+: a :: b :: l := by
      rw [ip_prefix_iff]
      by_cases h : a = 73 ∧ b = 80 <;> simp [ipPair, h]
    rw [ipPairs, Nat.add_eq_zero_iff, hpair, ih]
    constructor
    · rintro ⟨hfirst, hrest⟩ i
      cases i with
      | zero => exact hfirst
      | succ i => exact hrest i
    · intro h
      exact ⟨h 0, fun i => h (i + 1)⟩
  | case2 l hshort =>
    refine iff_of_true ?_ fun i hip => ?_
    · match l with
      | [] => rfl
      | [a] => rfl
      | a :: b :: l => exact absurd rfl (hshort a b l)
    · have hlen : 2 ≤ (l.drop (2 * i)).length := hip.length_le
      match l with
      | [] => simp at hlen
      | [a] =>
        rw [List.length_drop, List.length_singleton] at hlen
        omega
      | a :: b :: l => exact absurd rfl (hshort a b l)

end Count

end Heimdall.Configuration
