import Mathlib.Data.List.Basic
import Heimdall.Basic

/-!
# Strings and numbers

`str_to_int`, `str_to_long`, `str_to_float` and `str_to_lower` on the bytes of a C string, without
its NUL. `strtol` is the function of the C library with base 0 and a 64-bit `long`: white space, a
sign, the prefix that decides the base, then as many digits as there are. `strtof` is not defined:
it is a parameter of what calls it. `tolower` and `isspace` are those of the C locale.
-/

namespace Heimdall

/-- The bytes of a string literal. -/
def bytes (s : String) : List Byte := s.toList.map (fun c => UInt8.ofNat c.toNat)

/-- What is checked of a text byte by byte. -/
theorem forall_mem_of_all {p : Byte → Prop} [DecidablePred p] {l : List Byte}
    (h : l.all (fun b => decide (p b)) = true) : ∀ b ∈ l, p b := by
  simpa using h

/-- What stands before the first `b`. -/
theorem takeWhile_before {b : Byte} {l : List Byte} (hl : b ∉ l) (rest : List Byte) :
    (l ++ b :: rest).takeWhile (· != b) = l := by
  rw [List.takeWhile_append_of_pos]
  · simp
  · intro c hc
    have hne : c ≠ b := fun h => hl (h ▸ hc)
    simpa using hne

def isSpace (b : Byte) : Bool := b == 32 || (9 ≤ b && b ≤ 13)

/-- `tolower`. -/
def toLower (b : Byte) : Byte := if 65 ≤ b ∧ b ≤ 90 then b + 32 else b

def strToLower (s : List Byte) : List Byte := s.map toLower

/-! ## Decimal numbers -/

/-- What `%d` and `%ld` print of a number that is not negative. -/
def decimal (n : Nat) : List Byte := bytes (toString n)

theorem decimal_eq (n : Nat) :
    decimal n = (Nat.toDigits 10 n).map fun c => UInt8.ofNat c.toNat := by
  unfold decimal bytes
  rw [Nat.toString_eq_repr, Nat.toList_repr]

/-- The byte of a digit is its code. -/
theorem digit_toNat {n : Nat} {c : Char} (hc : c ∈ Nat.toDigits 10 n) :
    (UInt8.ofNat c.toNat).toNat = c.toNat ∧ 48 ≤ c.toNat ∧ c.toNat ≤ 57 := by
  have hdigit : c.isDigit := Nat.isDigit_of_mem_toDigits (by decide) (by decide) hc
  have hrange : 48 ≤ c.toNat ∧ c.toNat ≤ 57 := Char.isDigit_iff_toNat.1 hdigit
  refine ⟨?_, hrange⟩
  rw [UInt8.toNat_ofNat']
  omega

theorem decimal_range {n : Nat} {b : Byte} (hb : b ∈ decimal n) : 48 ≤ b.toNat ∧ b.toNat ≤ 57 := by
  rw [decimal_eq] at hb
  obtain ⟨c, hc, rfl⟩ := List.mem_map.1 hb
  obtain ⟨heq, hrange⟩ := digit_toNat hc
  rw [heq]
  exact hrange

theorem decimal_injective {n m : Nat} (h : decimal n = decimal m) : n = m := by
  have hread (k : Nat) : (decimal k).map (fun b => Char.ofNat b.toNat) = Nat.toDigits 10 k := by
    rw [decimal_eq, List.map_map]
    refine (List.map_congr_left fun c hc => ?_).trans (List.map_id _)
    change Char.ofNat (UInt8.ofNat c.toNat).toNat = c
    rw [(digit_toNat hc).1, Char.ofNat_toNat]
  have hdigits : Nat.toDigits 10 n = Nat.toDigits 10 m := by rw [← hread, h, hread]
  rw [← @Nat.ofDigitChars_ten_toDigits n, hdigits, Nat.ofDigitChars_ten_toDigits]

/-! ## strtol -/

/-- The value of a digit or letter as a digit of some base. -/
def digitValue (b : Byte) : Option Nat :=
  if 48 ≤ b ∧ b ≤ 57 then some (b.toNat - 48)
  else if 97 ≤ toLower b ∧ toLower b ≤ 122 then some ((toLower b).toNat - 87)
  else none

def isDigitOf (base : Nat) (b : Byte) : Bool := (digitValue b).any (· < base)

/-- The base that the text decides, and how long the prefix is that says so. -/
def prefixOf : List Byte → Nat × Nat
  | 48 :: x :: d :: _ => if (x == 120 || x == 88) && isDigitOf 16 d then (16, 2) else (8, 0)
  | 48 :: _ => (8, 0)
  | _ => (10, 0)

def numeral (base : Nat) (ds : List Byte) : Nat :=
  ds.foldl (fun v d => v * base + (digitValue d).getD 0) 0

def longMin : Int := -9223372036854775808

def longMax : Int := 9223372036854775807

/-- The value, how many bytes have been read, and whether `errno` is `ERANGE`. -/
structure Long where
  value : Int
  read : Nat
  range : Bool
  deriving DecidableEq

def clamp (x : Int) (read : Nat) : Long :=
  if x < longMin then ⟨longMin, read, true⟩
  else if longMax < x then ⟨longMax, read, true⟩
  else ⟨x, read, false⟩

/-- Whether there is a minus, and how long the sign is. -/
def signOf : List Byte → Bool × Nat
  | 45 :: _ => (true, 1)
  | 43 :: _ => (false, 1)
  | _ => (false, 0)

/-- `strtol(s, &pointer, 0)`; nothing has been read when there are no digits. -/
def strtol (s : List Byte) : Long :=
  let space := (s.takeWhile isSpace).length
  let unspaced := s.drop space
  let sign := signOf unspaced
  let unsigned := unspaced.drop sign.2
  let base := prefixOf unsigned
  let digits := (unsigned.drop base.2).takeWhile (isDigitOf base.1)
  if digits = [] then ⟨0, 0, false⟩
  else
    let value := (numeral base.1 digits : Int)
    clamp (if sign.1 then -value else value) (space + sign.2 + base.2 + digits.length)

/-! ## str_to_int -/

/-- The cast from `long` to `int`. -/
def longToInt (x : Int) : Int := x.bmod 4294967296

/-- `str_to_int`, and what it stores: the value is stored whether or not there is an error. -/
def strToInt (s : List Byte) : Throwable × Int :=
  let l := strtol s
  let t :=
    if l.range then .create statusError .errno "str_to_int"
    else if l.read = 0 then .create statusError (.text "No digits were found") "str_to_int"
    else if l.read < s.length then
      .create statusError (.text "There is some characters") "str_to_int"
    else .create statusOk .null "str_to_int"
  (t, longToInt l.value)

/-- `str_to_int` accepts the text. -/
def IsInt (s : List Byte) : Prop := (strToInt s).1.isAnError = false

instance (s : List Byte) : Decidable (IsInt s) := inferInstanceAs (Decidable (_ = _))

/-! ## str_to_long -/

/-- `str_to_long`, and what it stores. -/
def strToLong (s : List Byte) : Throwable × Int :=
  let l := strtol s
  let t :=
    if l.range then .create statusError .errno "str_to_long"
    else if l.read = 0 then .create statusError (.text "No digits were found") "str_to_long"
    else if l.read < s.length then
      .create statusError (.text "There is some characters") "str_to_long"
    else .create statusOk .null "str_to_long"
  (t, l.value)

/-! ## str_to_float -/

/-- What `strtof` returns: the bits of the value, how many bytes have been read, and whether
`errno` is `ERANGE`. -/
structure FloatRead where
  value : UInt32
  read : Nat
  range : Bool
  deriving DecidableEq

/-- `LONG_MAX` as a `float`. -/
def floatLongMax : UInt32 := 0x5F000000

/-- `LONG_MIN` as a `float`. -/
def floatLongMin : UInt32 := 0xDF000000

/-- Both zeros are equal to 0. -/
def isZeroFloat (x : UInt32) : Bool := x == 0 || x == 0x80000000

/-- `str_to_float`, and what it stores. -/
def strToFloat (strtof : List Byte → FloatRead) (s : List Byte) : Throwable × UInt32 :=
  let f := strtof s
  let t :=
    if (f.range && (f.value == floatLongMax || f.value == floatLongMin)) ||
        (f.range && isZeroFloat f.value) then
      .create statusError .errno "str_to_float"
    else if f.read = 0 then .create statusError (.text "No digits were found") "str_to_float"
    else if f.read < s.length then
      .create statusError (.text "There is some characters") "str_to_float"
    else .create statusOk .null "str_to_float"
  (t, f.value)

example : strToInt (bytes " 42") = (.create statusOk .null "str_to_int", 42) := by decide

example : ¬ IsInt (bytes "08") := by decide

end Heimdall
