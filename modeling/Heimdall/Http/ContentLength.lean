import Mathlib.Data.List.Induction
import Mathlib.Data.List.TakeWhile
import Mathlib.Data.Nat.Digits.Defs
import Mathlib.Tactic.Ring
import Heimdall.Http.Head

/-!
# A `Content-Length` in decimal digits

`str_to_int` lets `strtol` choose the base, casts the `long` to an `int` and asks only afterwards
whether the value was out of range, of the `long`. So a number with a leading zero is read as octal,
and a value between the greatest `int` and the greatest `long` is stored modulo 2^32. What is left
is `DigitString.Converted` (`contentLength_iff`).
-/

namespace Heimdall.Http

structure DigitString where
  digits : List Byte
  ne_nil : digits ≠ []
  decimal : ∀ b ∈ digits, 48 ≤ b ∧ b ≤ 57

namespace DigitString

/-- The number that the digits are in a base. -/
def value (d : DigitString) (base : Nat) : Nat :=
  Nat.ofDigits base (d.digits.reverse.map fun b => b.toNat - 48)

def LeadingZero (d : DigitString) : Prop := d.digits.head? = some 48

/-- No digit is 8 or 9. -/
def Octal (d : DigitString) : Prop := ∀ b ∈ d.digits, b < 56

instance (d : DigitString) : Decidable d.LeadingZero := inferInstanceAs (Decidable (_ = _))

instance (d : DigitString) : Decidable d.Octal := inferInstanceAs (Decidable (∀ b ∈ d.digits, _))

/-- The base that `strtol` chooses. -/
def base (d : DigitString) : Nat := if d.LeadingZero then 8 else 10

/-- The digits that it converts. -/
def run (d : DigitString) : List Byte := d.digits.takeWhile (isDigitOf d.base)

/-! ## What `strtol` reads -/

section Strtol

variable (d : DigitString)

theorem digitValue_digit {b : Byte} (hb : 48 ≤ b ∧ b ≤ 57) : digitValue b = some (b.toNat - 48) :=
  if_pos hb

theorem isDigitOf_ten {b : Byte} (hb : 48 ≤ b ∧ b ≤ 57) : isDigitOf 10 b = true := by
  have hle : b.toNat ≤ 57 := hb.2
  unfold isDigitOf
  rw [digitValue_digit hb, Option.any_some, decide_eq_true_eq]
  omega

theorem isDigitOf_eight {b : Byte} (hb : 48 ≤ b ∧ b ≤ 57) : isDigitOf 8 b = true ↔ b < 56 := by
  have hge : 48 ≤ b.toNat := hb.1
  have hlt : b < 56 ↔ b.toNat < 56 := Iff.rfl
  unfold isDigitOf
  rw [digitValue_digit hb, Option.any_some, decide_eq_true_eq, hlt]
  omega

/-- The numeral of digits is their value in Horner's order. -/
theorem numeral_eq {l : List Byte} (hl : ∀ b ∈ l, 48 ≤ b ∧ b ≤ 57) (base : Nat) :
    numeral base l = Nat.ofDigits base (l.reverse.map fun b => b.toNat - 48) := by
  induction l using List.reverseRecOn with
  | nil => rfl
  | append_singleton l b ih =>
    have hb := hl b (List.mem_append_right _ (List.mem_singleton.2 rfl))
    have hl' : ∀ c ∈ l, 48 ≤ c ∧ c ≤ 57 := fun c hc => hl c (List.mem_append_left _ hc)
    have hstep : numeral base (l ++ [b]) = numeral base l * base + (digitValue b).getD 0 := by
      unfold numeral
      rw [List.foldl_append]
      rfl
    rw [hstep, ih hl', digitValue_digit hb, List.reverse_append, List.reverse_singleton,
      List.singleton_append, List.map_cons, Nat.ofDigits_cons, Option.getD_some]
    ring

theorem exists_cons : ∃ b l, d.digits = b :: l ∧ 48 ≤ b ∧ b ≤ 57 := by
  obtain ⟨b, l, hl⟩ := List.exists_cons_of_ne_nil d.ne_nil
  exact ⟨b, l, hl, d.decimal b (by rw [hl]; exact List.mem_cons_self)⟩

theorem signOf_digits : signOf d.digits = (false, 0) := by
  obtain ⟨b, l, hl, hb⟩ := d.exists_cons
  rw [hl]
  unfold signOf
  split
  · rename_i h
    cases h
    exact absurd hb.1 (by decide)
  · rename_i h
    cases h
    exact absurd hb.1 (by decide)
  · rfl

variable {d} in
theorem base_of_leadingZero (h : d.LeadingZero) : d.base = 8 := if_pos h

variable {d} in
theorem base_of_not_leadingZero (h : ¬ d.LeadingZero) : d.base = 10 := if_neg h

/-- The prefix is empty: no digit is an x. -/
theorem prefixOf_digits : prefixOf d.digits = (d.base, 0) := by
  unfold prefixOf
  split
  · rename_i x c l h
    have hzero : d.LeadingZero := by
      unfold LeadingZero
      rw [h, List.head?_cons]
    have hx := d.decimal x (by rw [h]; exact List.mem_cons_of_mem _ List.mem_cons_self)
    have hlow : ¬ x = 120 := fun h0 => absurd (h0 ▸ hx.2) (by decide)
    have hhigh : ¬ x = 88 := fun h0 => absurd (h0 ▸ hx.2) (by decide)
    rw [base_of_leadingZero hzero]
    simp [hlow, hhigh]
  · rename_i h
    have hzero : d.LeadingZero := by
      unfold LeadingZero
      rw [h, List.head?_cons]
    rw [base_of_leadingZero hzero]
  · rename_i h
    have hzero : ¬ d.LeadingZero := by
      intro h0
      obtain ⟨b, l, hl, -⟩ := d.exists_cons
      unfold LeadingZero at h0
      rw [hl, List.head?_cons, Option.some.injEq] at h0
      exact h l (by rw [hl, h0])
    rw [base_of_not_leadingZero hzero]

theorem isDigitOf_base {b : Byte} (hb : d.digits.head? = some b) : isDigitOf d.base b = true := by
  have hd := d.decimal b (List.mem_of_mem_head? hb)
  by_cases h : d.LeadingZero
  · rw [base_of_leadingZero h]
    unfold LeadingZero at h
    rw [hb, Option.some.injEq] at h
    rw [h]
    decide
  · rw [base_of_not_leadingZero h]
    exact isDigitOf_ten hd

theorem run_ne_nil : d.run ≠ [] := by
  obtain ⟨b, l, hl, -⟩ := d.exists_cons
  have hb := d.isDigitOf_base (b := b) (by rw [hl, List.head?_cons])
  unfold run
  rw [hl, List.takeWhile_cons_of_pos hb]
  exact List.cons_ne_nil _ _

/-- **`strtol` on digits.** -/
theorem strtol_digits : strtol d.digits = clamp (numeral d.base d.run : Nat) d.run.length := by
  have hspace : d.digits.takeWhile isSpace = [] := by
    obtain ⟨b, l, hl, hb⟩ := d.exists_cons
    have hno : ¬ isSpace b = true := by
      have hge : 48 ≤ b.toNat := hb.1
      have h32 : b ≠ 32 := fun h0 => absurd (h0 ▸ hb.1) (by decide)
      have h13 : ¬ b ≤ 13 := fun h0 => by
        have hle : b.toNat ≤ 13 := h0
        omega
      simp [isSpace, h32, h13]
    rw [hl, List.takeWhile_cons_of_neg hno]
  have hrun := d.run_ne_nil
  unfold run at hrun ⊢
  unfold strtol
  simp only [hspace, List.length_nil, List.drop_zero, d.signOf_digits, d.prefixOf_digits,
    if_neg hrun, Bool.false_eq_true, if_false, Nat.zero_add]

end Strtol

/-! ## What `str_to_int` stores -/

section StrToInt

variable {d : DigitString}

theorem longToInt_of_le {n : Nat} (h : (n : Int) ≤ intMax) : longToInt n = n := by
  unfold intMax at h
  unfold longToInt
  rw [Int.bmod_def]
  omega

/-- **`str_to_int` on digits** refuses a number that is out of the range of a `long`, or digits that
`strtol` leaves, and stores what is left of any other. -/
theorem strToInt_digits (d : DigitString) :
    ((strToInt d.digits).1.isAnError = true ↔
      longMax < (numeral d.base d.run : Nat) ∨ d.run.length < d.digits.length) ∧
    (¬ longMax < (numeral d.base d.run : Nat) →
      (strToInt d.digits).2 = longToInt (numeral d.base d.run : Nat)) := by
  have hlen : d.run.length ≠ 0 := fun h0 => d.run_ne_nil (List.length_eq_zero_iff.1 h0)
  have hmin : ¬ ((numeral d.base d.run : Nat) : Int) < longMin := by
    unfold longMin
    omega
  unfold strToInt
  rw [d.strtol_digits, clamp, if_neg hmin]
  by_cases hmax : longMax < ((numeral d.base d.run : Nat) : Int)
  · simp only [if_pos hmax, if_true]
    exact ⟨iff_of_true rfl (Or.inl hmax), fun h => absurd hmax h⟩
  · simp only [if_neg hmax, Bool.false_eq_true, if_false, if_neg hlen]
    refine ⟨?_, fun _ => trivial⟩
    by_cases hshort : d.run.length < d.digits.length
    · rw [if_pos hshort]
      exact iff_of_true rfl (Or.inr hshort)
    · rw [if_neg hshort]
      exact iff_of_false Bool.noConfusion fun h => h.elim hmax hshort

theorem run_of_not_leadingZero (h : ¬ d.LeadingZero) : d.run = d.digits := by
  unfold run
  rw [base_of_not_leadingZero h]
  exact List.takeWhile_eq_self_iff.2 fun b hb => isDigitOf_ten (d.decimal b hb)

theorem run_of_octal (h : d.LeadingZero) (ho : d.Octal) : d.run = d.digits := by
  unfold run
  rw [base_of_leadingZero h]
  exact List.takeWhile_eq_self_iff.2 fun b hb => (isDigitOf_eight (d.decimal b hb)).2 (ho b hb)

theorem run_of_not_octal (h : d.LeadingZero) (ho : ¬ d.Octal) :
    d.run.length < d.digits.length := by
  have hne : d.run ≠ d.digits := by
    intro heq
    unfold run at heq
    rw [base_of_leadingZero h] at heq
    exact ho fun b hb =>
      (isDigitOf_eight (d.decimal b hb)).1 (List.takeWhile_eq_self_iff.1 heq b hb)
  have hpre : d.run <+: d.digits := List.takeWhile_prefix _
  exact Nat.lt_of_le_of_ne hpre.length_le fun hl => hne (hpre.eq_of_length hl)

/-- The number is the same in both bases only as long as it has one digit. -/
theorem value_eight_eq_iff (ho : d.Octal) :
    d.value 8 ≤ d.value 10 ∧ (d.value 8 = d.value 10 ↔ d.value 10 < 8) := by
  refine ⟨Nat.ofDigits_monotone _ (by decide), ?_⟩
  unfold value
  cases hd : d.digits.reverse with
  | nil => exact absurd (List.reverse_eq_nil_iff.1 hd) d.ne_nil
  | cons b l =>
    have hb : b ∈ d.digits := List.mem_reverse.1 (by rw [hd]; exact List.mem_cons_self)
    have hlt : b.toNat < 56 := ho b hb
    have hmono := Nat.ofDigits_monotone (l.map fun b => b.toNat - 48) (show 8 ≤ 10 by decide)
    rw [List.map_cons, Nat.ofDigits_cons, Nat.ofDigits_cons]
    omega

end StrToInt

/-! ## The line -/

/-- The line `Content-Length: d`, as a string. -/
def line (d : DigitString) : List Byte := bytes "Content-Length: " ++ d.digits ++ [0]

/-- `get_header` on the line stores the decimal value, or returns an error, the latter exactly when
the value does not fit in an `int`. -/
def StoredExactly (self : HTTPRequest) (d : DigitString) : Prop :=
  ∃ t self' buffer, getHeader self d.line 0 = .ok ⟨some t, self', buffer⟩ ∧
    (t.isAnError = true ↔ ¬ FitsInt (d.value 10)) ∧
    (t.isAnError = false → self'.reqContentLen = d.value 10)

/-- The digits whose conversion is right. -/
structure Converted (d : DigitString) : Prop where
  plain : ¬ d.LeadingZero → (d.value 10 : Int) ≤ intMax ∨ longMax < d.value 10
  octal : d.LeadingZero → d.Octal → d.value 10 < 8 ∨ longMax < d.value 8
  mixed : d.LeadingZero → ¬ d.Octal → intMax < d.value 10

section Line

variable {self : HTTPRequest} {d : DigitString}

theorem storedExactly_iff : StoredExactly self d ↔
    ((strToInt d.digits).1.isAnError = true ↔ intMax < d.value 10) ∧
      ((strToInt d.digits).1.isAnError = false → (strToInt d.digits).2 = d.value 10) := by
  have hfits : ¬ FitsInt (d.value 10) ↔ intMax < d.value 10 := by
    unfold FitsInt intMin intMax
    omega
  have hnul : 0 ∉ bytes "Content-Length" ++ colon :: sp :: d.digits := by
    intro hm
    rcases List.mem_append.1 hm with hm | hm
    · revert hm
      decide
    · rcases List.mem_cons.1 hm with hm | hm
      · cases hm
      · rcases List.mem_cons.1 hm with hm | hm
        · cases hm
        · exact absurd (d.decimal 0 hm).1 (by decide)
  have hline : d.line = [] ++ (bytes "Content-Length" ++ colon :: sp :: d.digits) ++ 0 :: [] := by
    have hname : bytes "Content-Length: " = bytes "Content-Length" ++ [colon, sp] := by decide
    unfold line
    rw [hname]
    simp
  obtain ⟨t₀, ht₀, hstore⟩ : ∃ t₀, t₀.isAnError = (strToInt d.digits).1.isAnError ∧
      self.storeHeader (strToLower (bytes "Content-Length")) (.ok d.digits) =
        .ok (t₀, { self with reqContentLen := (strToInt d.digits).2 }) := by
    have hlower : strToLower (bytes "Content-Length") = bytes "content-length" := by decide
    rw [hlower]
    unfold HTTPRequest.storeHeader
    rw [if_neg (by decide), if_neg (by decide), if_neg (by decide), if_neg (by decide), if_pos rfl,
      Exec.ok_bind]
    dsimp only
    split
    · exact ⟨_, Throwable.isAnError_thrown _ _, rfl⟩
    · rename_i h
      exact ⟨.create statusOk .null "get_header", (Bool.eq_false_iff.2 h).symm, rfl⟩
  have hget := @getHeader_colon [] [] self (bytes "Content-Length") (sp :: d.digits)
    contentLength_colon hnul
  have hdata : afterColon (sp :: d.digits) [] = .ok d.digits := rfl
  rw [List.length_nil, ← hline, hdata, hstore, Exec.ok_bind] at hget
  unfold StoredExactly
  rw [hget, hfits, ← ht₀]
  constructor
  · intro ⟨t, self', buffer, heq, hiff, hvalue⟩
    cases heq
    exact ⟨hiff, hvalue⟩
  · intro ⟨hiff, hvalue⟩
    exact ⟨_, _, _, rfl, hiff, hvalue⟩

/-- When all digits are converted, the number is that of the base that has been chosen. -/
theorem storedExactly_whole {base : Nat} (hbase : d.base = base) (hrun : d.run = d.digits) :
    StoredExactly self d ↔ (longMax < d.value base ↔ intMax < d.value 10) ∧
      (¬ longMax < d.value base → longToInt (d.value base) = d.value 10) := by
  have hnum : numeral d.base d.run = d.value base := by
    rw [hrun, hbase]
    exact numeral_eq d.decimal base
  have hlen : ¬ d.run.length < d.digits.length := by
    rw [hrun]
    exact Nat.lt_irrefl _
  obtain ⟨herr, hstored⟩ := strToInt_digits d
  rw [storedExactly_iff, herr, ← Bool.not_eq_true, herr, not_or, hnum, or_iff_left hlen,
    and_iff_left hlen]
  rw [hnum] at hstored
  refine and_congr_right fun _ => forall_congr' fun hmax => ?_
  rw [hstored hmax]

/-- When digits are left, the line is refused. -/
theorem storedExactly_part (hlen : d.run.length < d.digits.length) :
    StoredExactly self d ↔ intMax < d.value 10 := by
  obtain ⟨herr, -⟩ := strToInt_digits d
  have hrefused : (strToInt d.digits).1.isAnError = true := herr.2 (Or.inr hlen)
  rw [storedExactly_iff, hrefused]
  constructor
  · intro ⟨hiff, _⟩
    exact hiff.1 rfl
  · intro hmax
    exact ⟨iff_of_true rfl hmax, fun h => Bool.noConfusion h⟩

theorem storedExactly_octal (hzero : d.LeadingZero) (hoct : d.Octal) :
    StoredExactly self d ↔ d.value 10 < 8 ∨ longMax < d.value 8 := by
  have hlong : intMax < longMax := by decide
  obtain ⟨hle, heq⟩ := value_eight_eq_iff hoct
  rw [storedExactly_whole (base_of_leadingZero hzero) (run_of_octal hzero hoct)]
  constructor
  · intro ⟨hiff, hvalue⟩
    by_cases hmax : longMax < d.value 8
    · exact Or.inr hmax
    · have hdec : ¬ intMax < d.value 10 := fun h => hmax (hiff.2 h)
      have hval := hvalue hmax
      rw [longToInt_of_le (by omega)] at hval
      exact Or.inl (heq.1 (by omega))
  · intro hconv
    rcases hconv with hsmall | hmax
    · have hval := heq.2 hsmall
      have hfits : (d.value 10 : Int) ≤ intMax := by
        unfold intMax
        omega
      exact ⟨iff_of_false (by omega) (by omega), fun _ => by rw [longToInt_of_le (by omega), hval]⟩
    · exact ⟨iff_of_true hmax (by omega), fun h => absurd hmax h⟩

theorem storedExactly_plain (hzero : ¬ d.LeadingZero) :
    StoredExactly self d ↔ (d.value 10 : Int) ≤ intMax ∨ longMax < d.value 10 := by
  have hlong : intMax < longMax := by decide
  rw [storedExactly_whole (base_of_not_leadingZero hzero) (run_of_not_leadingZero hzero)]
  constructor
  · intro ⟨hiff, _⟩
    by_cases hmax : intMax < d.value 10
    · exact Or.inr (hiff.2 hmax)
    · exact Or.inl (Int.not_lt.1 hmax)
  · intro hconv
    rcases hconv with hfits | hmax
    · exact ⟨iff_of_false (by omega) (by omega), fun _ => longToInt_of_le hfits⟩
    · exact ⟨iff_of_true hmax (by omega), fun h => absurd hmax h⟩

/-- **A `Content-Length` in decimal digits.** The line stores the decimal value, or returns an error
for a value that does not fit in an `int`, exactly when: without a leading zero, the value fits in
an `int` or not even in a `long`; with one, and octal digits only, the value is less than 8 or its
octal reading does not fit in a `long`; with one and an 8 or a 9, the value does not fit. -/
theorem contentLength_iff (self : HTTPRequest) (d : DigitString) :
    StoredExactly self d ↔ d.Converted := by
  by_cases hzero : d.LeadingZero
  · by_cases hoct : d.Octal
    · rw [storedExactly_octal hzero hoct]
      constructor
      · intro h
        exact ⟨fun h' => absurd hzero h', fun _ _ => h, fun _ h' => absurd hoct h'⟩
      · intro hconv
        exact hconv.octal hzero hoct
    · rw [storedExactly_part (run_of_not_octal hzero hoct)]
      constructor
      · intro h
        exact ⟨fun h' => absurd hzero h', fun _ h' => absurd h' hoct, fun _ _ => h⟩
      · intro hconv
        exact hconv.mixed hzero hoct
  · rw [storedExactly_plain hzero]
    constructor
    · intro h
      exact ⟨fun _ => h, fun h' => absurd h' hzero, fun h' => absurd h' hzero⟩
    · intro hconv
      exact hconv.plain hzero

/-- `010` is stored as 8. -/
theorem octal_length : ¬ ∀ self d, StoredExactly self d := by
  intro h
  have hd := storedExactly_iff.1 (h newHttpRequest ⟨bytes "010", by decide, forall_mem_of_all rfl⟩)
  have hval := hd.2 (by decide)
  exact absurd hval (by decide)

end Line

end DigitString

end Heimdall.Http
