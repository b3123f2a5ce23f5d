import Mathlib.Data.List.Basic

/-!
# Text that is read in pieces of bounded length

`cut e n text` is one reading: the elements up to the first `e`, that one included, but not more
than `n`; and what is left. `pieces e n text` are the readings until nothing is left, found in one
pass over the text (`pieces_eq_cut`).

A reading never goes past an `e`, so that what `e` ends is taken apart by itself (`pieces_append`).
A line of at most `n` elements, with its `e`, is one piece (`pieces_line`), a longer one begins with
a piece of `n` elements (`pieces_full`).
-/

namespace Pieces

variable {α : Type*} [DecidableEq α] {e : α} {n : Nat} {l text p : List α}

def cut (e : α) : Nat → List α → List α × List α
  | 0, text => ([], text)
  | _ + 1, [] => ([], [])
  | n + 1, b :: text =>
    if b = e then ([b], text) else (b :: (cut e n text).1, (cut e n text).2)

/-- The pieces of a text of which `room` elements fit in the first piece. -/
def piecesFrom (e : α) (n : Nat) : Nat → List α → List (List α)
  | _, [] => []
  | room, b :: text =>
    if b = e ∨ room ≤ 1 then [b] :: piecesFrom e n n text
    else
      match piecesFrom e n (room - 1) text with
      | [] => [[b]]
      | p :: ps => (b :: p) :: ps

def pieces (e : α) (n : Nat) (text : List α) : List (List α) := piecesFrom e n n text

/-! ## One reading -/

theorem cut_append (e : α) (n : Nat) (text : List α) :
    (cut e n text).1 ++ (cut e n text).2 = text := by
  induction n generalizing text with
  | zero => rfl
  | succ n ih =>
    cases text with
    | nil => rfl
    | cons b text =>
      rw [cut]
      split
      · rfl
      · exact congrArg (b :: ·) (ih text)

/-- Something is read, if there is something. -/
theorem cut_rest_length (e : α) (hn : 0 < n) (htext : text ≠ []) :
    (cut e n text).2.length < text.length := by
  obtain ⟨m, rfl⟩ : ∃ m, n = m + 1 := ⟨n - 1, by omega⟩
  cases text with
  | nil => exact absurd rfl htext
  | cons b text =>
    rw [cut]
    split
    · exact Nat.lt_succ_self _
    · have hlen := congrArg List.length (cut_append e m text)
      rw [List.length_append] at hlen
      simp only [List.length_cons]
      omega

/-! ## The readings one after the other -/

theorem piecesFrom_eq_cut (e : α) (n : Nat) {room : Nat} (hroom : 0 < room) (htext : text ≠ []) :
    piecesFrom e n room text =
      (cut e room text).1 :: piecesFrom e n n (cut e room text).2 := by
  induction text generalizing room with
  | nil => exact absurd rfl htext
  | cons b text ih =>
    obtain ⟨room, rfl⟩ : ∃ r, room = r + 1 := ⟨room - 1, by omega⟩
    rw [piecesFrom, cut]
    by_cases hb : b = e
    · rw [if_pos (.inl hb), if_pos hb]
    · rw [if_neg hb]
      cases room with
      | zero => rw [if_pos (.inr (Nat.le_refl 1))]; rfl
      | succ room =>
        rw [if_neg (by simp [hb])]
        cases text with
        | nil => rfl
        | cons c text =>
          rw [Nat.add_sub_cancel, ih (Nat.succ_pos room) (List.cons_ne_nil c text)]

theorem pieces_eq_cut (e : α) (hn : 0 < n) (htext : text ≠ []) :
    pieces e n text = (cut e n text).1 :: pieces e n (cut e n text).2 :=
  piecesFrom_eq_cut e n hn htext

theorem pieces_nil (e : α) (n : Nat) : pieces e n [] = [] := rfl

theorem piecesFrom_ne_nil (e : α) (n : Nat) {room : Nat} (htext : text ≠ []) :
    piecesFrom e n room text ≠ [] := by
  cases text with
  | nil => exact absurd rfl htext
  | cons b text =>
    rw [piecesFrom]
    split
    · exact List.cons_ne_nil _ _
    · split <;> exact List.cons_ne_nil _ _

theorem ne_nil_of_mem {room : Nat} (hp : p ∈ piecesFrom e n room text) : p ≠ [] := by
  induction text generalizing room with
  | nil => cases hp
  | cons b text ih =>
    rw [piecesFrom] at hp
    split at hp
    · rcases List.mem_cons.1 hp with rfl | hp
      · exact List.cons_ne_nil b []
      · exact ih hp
    · split at hp
      · rw [List.mem_singleton.1 hp]
        exact List.cons_ne_nil b []
      · rename_i hps
        rcases List.mem_cons.1 hp with rfl | hp
        · exact List.cons_ne_nil b _
        · exact ih (hps ▸ List.mem_cons_of_mem _ hp)

/-- An `e` is the last of its piece. -/
theorem shape_of_mem {room : Nat} (hp : p ∈ piecesFrom e n room text) (he : e ∈ p) :
    ∃ q, p = q ++ [e] ∧ e ∉ q := by
  induction text generalizing room p with
  | nil => cases hp
  | cons b text ih =>
    have hone (hp : p = [b]) : ∃ q, p = q ++ [e] ∧ e ∉ q := by
      subst hp
      exact ⟨[], by rw [List.mem_singleton.1 he]; rfl, List.not_mem_nil⟩
    rw [piecesFrom] at hp
    split at hp
    · rcases List.mem_cons.1 hp with hp | hp
      · exact hone hp
      · exact ih hp he
    · rename_i hroom
      have hb : e ≠ b := fun h => hroom (.inl h.symm)
      split at hp
      · exact hone (List.mem_singleton.1 hp)
      · rename_i hps
        rcases List.mem_cons.1 hp with rfl | hp
        · obtain ⟨q, rfl, hq⟩ := ih (hps ▸ List.mem_cons_self)
            ((List.mem_cons.1 he).resolve_left hb)
          exact ⟨b :: q, rfl, List.not_mem_cons_of_ne_of_not_mem hb hq⟩
        · exact ih (hps ▸ List.mem_cons_of_mem _ hp) he

theorem piecesFrom_append (l text : List α) {room : Nat} :
    piecesFrom e n room (l ++ e :: text) =
      piecesFrom e n room (l ++ [e]) ++ piecesFrom e n n text := by
  induction l generalizing room with
  | nil => simp [piecesFrom]
  | cons b l ih =>
    rw [List.cons_append, List.cons_append, piecesFrom, piecesFrom, ih, ih]
    split
    · rfl
    · have hne : piecesFrom e n (room - 1) (l ++ [e]) ≠ [] := piecesFrom_ne_nil e n (by simp)
      cases hps : piecesFrom e n (room - 1) (l ++ [e]) with
      | nil => exact absurd hps hne
      | cons p ps => rfl

/-- **What `e` ends is taken apart by itself.** -/
theorem pieces_append (l text : List α) :
    pieces e n (l ++ e :: text) = pieces e n (l ++ [e]) ++ pieces e n text :=
  piecesFrom_append l text

theorem piecesFrom_line (hl : e ∉ l) {room : Nat} (hroom : l.length < room) (text : List α) :
    piecesFrom e n room (l ++ e :: text) = (l ++ [e]) :: piecesFrom e n n text := by
  induction l generalizing room with
  | nil => rw [List.nil_append, piecesFrom, if_pos (.inl rfl)]; rfl
  | cons b l ih =>
    rw [List.length_cons] at hroom
    have hb : b ≠ e := (List.ne_of_not_mem_cons hl).symm
    have hl' : e ∉ l := List.not_mem_of_not_mem_cons hl
    have hroom' : ¬ (b = e ∨ room ≤ 1) := by
      rintro (h | h)
      · exact hb h
      · omega
    rw [List.cons_append, piecesFrom, if_neg hroom', ih hl' (by omega)]
    rfl

theorem pieces_line (hl : e ∉ l) (hn : l.length < n) (text : List α) :
    pieces e n (l ++ e :: text) = (l ++ [e]) :: pieces e n text :=
  piecesFrom_line hl hn text

theorem piecesFrom_full (hl : e ∉ l) (hpos : l ≠ []) (text : List α) :
    piecesFrom e n l.length (l ++ text) = l :: piecesFrom e n n text := by
  induction l with
  | nil => exact absurd rfl hpos
  | cons b l ih =>
    have hb : b ≠ e := (List.ne_of_not_mem_cons hl).symm
    have hl' : e ∉ l := List.not_mem_of_not_mem_cons hl
    cases l with
    | nil => rw [List.cons_append, piecesFrom, if_pos (.inr (Nat.le_refl 1))]; rfl
    | cons c l =>
      have hroom : ¬ (b = e ∨ (b :: c :: l).length ≤ 1) := by simp [hb]
      rw [List.cons_append, piecesFrom, if_neg hroom, List.length_cons, Nat.add_sub_cancel,
        ih hl' (List.cons_ne_nil c l)]

theorem pieces_full (hl : e ∉ l) (hn : l.length = n) (hpos : l ≠ []) (text : List α) :
    pieces e n (l ++ text) = l :: pieces e n text := by
  subst hn
  exact piecesFrom_full hl hpos text

end Pieces
