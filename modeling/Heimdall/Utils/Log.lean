import Heimdall.Config.HeimdallConfig

/-!
# The log (`log.c`)

`d`, `i` and `e` differ in the letter and in the level that they compare with. Each of them reads
two numbers from the configuration first, and hands the error to `t` when one cannot be read; `t`
prints it with `e`, which reads the same two numbers. So where a message is not to be printed
nothing is printed, and where it cannot be known the call does not return (`logged_iff`).
-/

namespace Heimdall.Log

open Heimdall.Configuration (Config Field)

inductive Level
  | debug
  | info
  | error
  deriving DecidableEq

def Level.value : Level → Int
  | .debug => 2
  | .info => 3
  | .error => 4

/-- What there is to print: a message, once it has been formatted, or a throwable. -/
inductive Text
  | message (s : List Byte)
  | throwable (t : Throwable)
  deriving DecidableEq

/-- One call of `printf`, the time left out. -/
structure Printed where
  level : Level
  tag : String
  text : Text
  deriving DecidableEq

/-- A member that has not been assigned leads anywhere. -/
def member (config : Config) (f : Field) : Exec (List Byte) :=
  match config f with
  | some s => .ok s
  | none => .error .outOfBounds

/-- A member as a number, and what has been printed about it. -/
def number (config : Config) (f : Field) (t : Throwable → Exec (List Printed)) :
    Exec (Int × List Printed) := do
  let s ← member config f
  let (throwable, v) := strToInt s
  if throwable.isAnError then do
    let printed ← t throwable
    .ok (v, printed)
  else .ok (v, [])

/-- What `d`, `i` and `e` have in common. The error of a number goes to `t`, and so back here:
`fuel` bounds how often. -/
def log (config : Config) : Nat → Level → String → Text → Exec (List Printed)
  | 0, _, _, _ => .error .fuel
  | fuel + 1, level, tag, text => do
    let t := fun throwable => log config fuel .error "Throwable" (.throwable throwable)
    let (logLevel, printed) ← number config .logLevel t
    let (printEnable, printed') ← number config .printEnable t
    .ok (printed ++ printed' ++
      if logLevel ≤ level.value ∧ printEnable = 1 then [⟨level, tag, text⟩] else [])

def d (config : Config) (fuel : Nat) (tag : String) (s : List Byte) : Exec (List Printed) :=
  log config fuel .debug tag (.message s)

def i (config : Config) (fuel : Nat) (tag : String) (s : List Byte) : Exec (List Printed) :=
  log config fuel .info tag (.message s)

def e (config : Config) (fuel : Nat) (tag : String) (s : List Byte) : Exec (List Printed) :=
  log config fuel .error tag (.message s)

def t (config : Config) (fuel : Nat) (throwable : Throwable) : Exec (List Printed) :=
  log config fuel .error "Throwable" (.throwable throwable)

/-- `r`, with the line that it makes: what is printed, and what is written to its file. The file
may not have been opened. -/
def r (config : Config) (fuel : Nat) (opened : Bool) (line : List Byte) :
    Exec (List Printed × List Byte) := do
  let (writeEnable, printed) ← number config .writeEnable (t config fuel)
  if writeEnable = 1 then
    if opened then .ok (printed, line) else .error .nullDeref
  else .ok (printed, [])

/-! ## When a call returns -/

/-- The member is assigned, and is a number. -/
def Numeric (config : Config) (f : Field) : Prop := ∃ s, config f = some s ∧ IsInt s

/-- The value of a member that is a number. -/
def value (config : Config) (f : Field) : Int := (strToInt ((config f).getD [])).2

section Returns

variable {config : Config} {f : Field} {report : Throwable → Exec (List Printed)}

theorem number_numeric (h : Numeric config f) :
    number config f report = .ok (value config f, []) := by
  obtain ⟨s, hs, hint⟩ := h
  unfold number member value
  rw [hs, Exec.ok_bind]
  simp only [Option.getD_some]
  rw [if_neg (by rw [show (strToInt s).1.isAnError = false from hint]; decide)]

/-- What is no number is returned only after it has been reported. -/
theorem number_inv {p : Int × List Printed} (h : number config f report = .ok p) :
    Numeric config f ∨ ∃ throwable printed, report throwable = .ok printed := by
  unfold number member at h
  cases hs : config f with
  | none =>
    rw [hs] at h
    cases h
  | some s =>
    simp only [hs, Exec.ok_bind] at h
    split at h
    · obtain ⟨printed, hreport, -⟩ := Exec.bind_ok h
      exact .inr ⟨_, printed, hreport⟩
    · next hok => exact .inl ⟨s, hs, by simpa [IsInt] using hok⟩

theorem log_numeric (hlevel : Numeric config .logLevel) (hprint : Numeric config .printEnable)
    (fuel : Nat) (level : Level) (tag : String) (text : Text) :
    log config (fuel + 1) level tag text =
      .ok (if value config .logLevel ≤ level.value ∧ value config .printEnable = 1 then
        [⟨level, tag, text⟩] else []) := by
  unfold log
  simp only [number_numeric hlevel, number_numeric hprint, Exec.ok_bind, List.nil_append]

/-- A call that returns has read two numbers. The induction is on the fuel: the report of a number
is a call with less of it. -/
theorem numeric_of_log {fuel : Nat} {level : Level} {tag : String} {text : Text}
    {printed : List Printed} (h : log config fuel level tag text = .ok printed) :
    Numeric config .logLevel ∧ Numeric config .printEnable := by
  induction fuel generalizing level tag text printed with
  | zero => cases h
  | succ fuel ih =>
    unfold log at h
    obtain ⟨p, hlevel, h⟩ := Exec.bind_ok h
    obtain ⟨q, hprint, -⟩ := Exec.bind_ok h
    rcases number_inv hlevel with hl | ⟨throwable, printed', hreport⟩
    · rcases number_inv hprint with hp | ⟨throwable, printed', hreport⟩
      · exact ⟨hl, hp⟩
      · exact ih hreport
    · exact ih hreport

end Returns

/-- **What is logged.** A call returns exactly if the level and the switch of the configuration are
numbers, and then it prints its message if its level is at least that level and the switch is 1,
and nothing otherwise. -/
theorem logged_iff (config : Config) (level : Level) (tag : String) (text : Text) :
    ((∃ fuel printed, log config fuel level tag text = .ok printed) ↔
      Numeric config .logLevel ∧ Numeric config .printEnable) ∧
    ∀ fuel printed, log config fuel level tag text = .ok printed → printed =
      if value config .logLevel ≤ level.value ∧ value config .printEnable = 1 then
        [⟨level, tag, text⟩] else [] := by
  refine ⟨⟨?_, ?_⟩, ?_⟩
  · rintro ⟨fuel, printed, h⟩
    exact numeric_of_log h
  · rintro ⟨hlevel, hprint⟩
    exact ⟨1, _, log_numeric hlevel hprint 0 level tag text⟩
  · intro fuel printed h
    obtain ⟨hlevel, hprint⟩ := numeric_of_log h
    cases fuel with
    | zero => cases h
    | succ fuel =>
      rw [log_numeric hlevel hprint] at h
      exact (Except.ok.inj h).symm

end Heimdall.Log
