import Mathlib.Data.List.Basic

/-!
# Text that is taken apart line by line

`lines e text` are the parts of `text` that an `e` ends, each of them without it. What stands behind
the last `e` is no line.

A walk goes from line to line, and stops behind a line at which `stop` holds, before a line that is
`last`, and behind the last line. It ends well if it passes `good` lines only (`Walk.ends_iff`);
lines that it does not reach do not count.
-/

namespace Lines

variable {α : Type*} [DecidableEq α] {e : α} {l : List α}

/-- The lines that `e` ends. -/
def lines (e : α) : List α → List (List α)
  | [] => []
  | b :: text =>
    if b = e then [] :: lines e text
    else
      match lines e text with
      | [] => []
      | l :: ls => (b :: l) :: ls

theorem lines_open (hl : e ∉ l) : lines e l = [] := by
  induction l with
  | nil => rfl
  | cons b l ih =>
    have hb : b ≠ e := (List.ne_of_not_mem_cons hl).symm
    have hl' : e ∉ l := List.not_mem_of_not_mem_cons hl
    rw [lines, if_neg hb, ih hl']

theorem lines_append (hl : e ∉ l) (text : List α) :
    lines e (l ++ e :: text) = l :: lines e text := by
  induction l with
  | nil => rw [List.nil_append, lines, if_pos rfl]
  | cons b l ih =>
    have hb : b ≠ e := (List.ne_of_not_mem_cons hl).symm
    have hl' : e ∉ l := List.not_mem_of_not_mem_cons hl
    rw [List.cons_append, lines, if_neg hb, ih hl']

/-- A text is a line and a text, or it has no line. -/
theorem exists_line (e : α) (text : List α) :
    e ∉ text ∨ ∃ l rest, e ∉ l ∧ text = l ++ e :: rest := by
  by_cases h : e ∈ text
  · right
    obtain ⟨l, rest, htext, hl⟩ := List.eq_append_cons_of_mem h
    exact ⟨l, rest, hl, htext⟩
  · exact Or.inl h

/-- The first line, as the beginning of the text. -/
theorem head?_lines_iff {text : List α} :
    (lines e text).head? = some l ↔ e ∉ l ∧ ∃ rest, text = l ++ e :: rest := by
  rcases exists_line e text with hopen | ⟨m, rest, hm, rfl⟩
  · rw [lines_open hopen]
    constructor
    · intro h
      cases h
    · rintro ⟨-, rest, rfl⟩
      exact absurd (List.mem_append_right l List.mem_cons_self) hopen
  · rw [lines_append hm, List.head?_cons, Option.some.injEq]
    constructor
    · intro h
      subst h
      exact ⟨hm, rest, rfl⟩
    · intro h
      obtain ⟨hl, rest', h⟩ := h
      have hlines : lines e (m ++ e :: rest) = l :: lines e rest' := by
        rw [h, lines_append hl]
      rw [lines_append hm] at hlines
      exact List.head_eq_of_cons_eq hlines

/-- Induction on the lines of a text. -/
theorem text_induction {P : List α → Prop} (e : α) (hopen : ∀ l, e ∉ l → P l)
    (hline : ∀ l text, e ∉ l → P text → P (l ++ e :: text)) (text : List α) : P text := by
  induction hn : text.length using Nat.strongRecOn generalizing text with
  | ind n ih =>
    rcases exists_line e text with h | ⟨l, rest, hl, rfl⟩
    · exact hopen text h
    · refine hline l rest hl (ih rest.length ?_ rest rfl)
      rw [← hn, List.length_append, List.length_cons]
      omega

/-! ## Walks -/

variable {good stop : List α → Prop} {last : List α}

/-- The lines that a walk reaches are good. -/
def Passes (good stop : List α → Prop) (last : List α) : List (List α) → Prop
  | [] => True
  | l :: ls => good l ∧ (stop l ∨ ls.head? = some last ∨ Passes good stop last ls)

instance Passes.decidable [DecidablePred good] [DecidablePred stop] :
    DecidablePred (Passes good stop last)
  | [] => isTrue trivial
  | _ :: ls =>
    have := Passes.decidable ls
    inferInstanceAs (Decidable (_ ∧ _))

/-- A line whose elements `P` allows. -/
def OneLine (e : α) (P : α → Prop) (l : List α) : Prop := e ∉ l ∧ ∀ b ∈ l, P b

/-- What makes `ends`, a statement about a state and the text before it, one about a walk. -/
structure Walk {σ : Type*} (e : α) (P : α → Prop) (good stop : List α → Prop) (last : List α)
    (ends : σ → List α → Prop) : Prop where
  tail : ∀ s l, OneLine e P l → ends s l
  bad : ∀ s l text, OneLine e P l → ¬ good l → ¬ ends s (l ++ e :: text)
  line : ∀ s l text, OneLine e P l → good l →
    ∃ s', ends s (l ++ e :: text) ↔ stop l ∨ (lines e text).head? = some last ∨ ends s' text

theorem Walk.ends_iff {σ : Type*} {P : α → Prop} {ends : σ → List α → Prop}
    (w : Walk e P good stop last ends) (s : σ) {text : List α} (htext : ∀ b ∈ text, P b) :
    ends s text ↔ Passes good stop last (lines e text) := by
  induction text using text_induction e generalizing s with
  | hopen l hl =>
    rw [lines_open hl]
    exact ⟨fun _ => trivial, fun _ => w.tail s l ⟨hl, htext⟩⟩
  | hline l text hl ih =>
    have hone : OneLine e P l := ⟨hl, fun b hb => htext b (List.mem_append_left _ hb)⟩
    have hrest : ∀ b ∈ text, P b := fun b hb =>
      htext b (List.mem_append_right l (List.mem_cons_of_mem e hb))
    rw [lines_append hl, Passes]
    by_cases hgood : good l
    · obtain ⟨s', hline⟩ := w.line s l text hone hgood
      rw [hline, ih s' hrest]
      exact ⟨fun h => ⟨hgood, h⟩, fun h => h.2⟩
    · exact ⟨fun h => absurd h (w.bad s l text hone hgood), fun h => absurd h.1 hgood⟩

end Lines
