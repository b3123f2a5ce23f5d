import Heimdall.RoundRobin.AnyWeight

/-!
# The cursor of the circular buffer

`allocate_buffer` sets the head and the tail and keeps the position, which may lie beyond the new
buffer. What holds of the cursor therefore depends on the steps made since (`Cursor`): the position
and the head are right from the first step on, the tail follows the head from the second step on.
A call of `get_server` is one step or more of `progress` (`getServer_progresses`).
-/

namespace Heimdall.RoundRobin

/-- `progress`, `k` times. -/
def progresses : Nat → Circular → Exec Circular
  | 0, c => .ok c
  | k + 1, c => do
    let c ← progresses k c
    progress c

/-- The cursor after `steps` steps of `progress` on the current buffer. -/
structure Circular.Cursor (steps : Nat) (c : Circular) : Prop where
  published : c.Published
  tail_lt : c.tail < c.bufferLen
  position_lt : 0 < steps → c.bufferPosition < c.bufferLen
  head_eq : 0 < steps → c.head = c.bufferPosition
  tail_eq : 2 ≤ steps → c.tail = (c.head + (c.bufferLen - 1)) % c.bufferLen

/-! ## One step, and one call -/

section Steps

variable {c d : Circular} {n k : Nat}

theorem Circular.Cursor.progress (h : c.Cursor n) :
    ∃ d, RoundRobin.progress c = .ok d ∧ d.Cursor (n + 1) := by
  obtain ⟨hpub, htail, hpos, hhead, -⟩ := h
  have hlen := hpub.len_pos
  have hlt : (c.bufferPosition + 1) % c.bufferLen < c.bufferLen := Nat.mod_lt _ hlen
  refine ⟨_, if_neg (Nat.pos_iff_ne_zero.1 hlen), ⟨hpub.len_eq, hlen, hlt⟩, hpub.head_lt,
    fun _ => hlt, fun _ => rfl, fun hn => ?_⟩
  -- the tail is the old head, which the position had been moved to a step before
  have hn' : 0 < n := by omega
  change c.head = ((c.bufferPosition + 1) % c.bufferLen + (c.bufferLen - 1)) % c.bufferLen
  rw [hhead hn', Nat.mod_add_mod]
  have hsum : c.bufferPosition + 1 + (c.bufferLen - 1) = c.bufferPosition + c.bufferLen := by omega
  rw [hsum, Nat.add_mod_right, Nat.mod_eq_of_lt (hpos hn')]

theorem Circular.Cursor.progresses (h : c.Cursor n) (k : Nat) :
    ∃ d, RoundRobin.progresses k c = .ok d ∧ d.Cursor (n + k) := by
  induction k with
  | zero => exact ⟨c, rfl, h⟩
  | succ k ih =>
    obtain ⟨d, hd, hcur⟩ := ih
    obtain ⟨e, he, hcur'⟩ := hcur.progress
    exact ⟨e, by rw [RoundRobin.progresses, hd, Exec.ok_bind, he], hcur'⟩

/-- A reset starts the count again, wherever the position was. -/
theorem cursor_publish (c : Circular) {buffer : List Server} (h : buffer ≠ []) :
    (c.publish buffer).Cursor 0 := by
  have hlen : 0 < buffer.length := List.length_pos_iff.2 h
  refine ⟨publish_published h, ?_, fun h0 => ?_, fun h0 => ?_, fun h2 => ?_⟩
  · change buffer.length - 1 < buffer.length
    omega
  · exact absurd h0 (Nat.lt_irrefl 0)
  · exact absurd h0 (Nat.lt_irrefl 0)
  · exact absurd h2 (Nat.not_succ_le_zero 1)

/-- What a pass of `get_server` keeps: the buffer has moved by the entries looked at. -/
theorem getServerPass_progresses {x : Scan} {r : Loop.Pass Scan Scan}
    (hx : progresses x.looks c = .ok x.circular) (h : getServerPass x = .ok r) :
    r = .leave x ∨ ∃ y, (r = .leave y ∨ r = .again y) ∧
      progresses y.looks c = .ok y.circular := by
  unfold getServerPass at h
  split at h
  · cases h
    exact Or.inl rfl
  · obtain ⟨d, hd, h⟩ := Exec.bind_ok h
    obtain ⟨server, -, h⟩ := Exec.bind_ok h
    have hnext : progresses (x.notAvailable + 1 + 1) c = .ok d := by
      change (progresses x.looks c >>= progress) = .ok d
      rw [hx, Exec.ok_bind, hd]
    simp only at h
    split at h <;> cases h
    · exact Or.inr ⟨_, Or.inl rfl, hnext⟩
    · exact Or.inr ⟨_, Or.inr rfl, hnext⟩

/-- **A call of `get_server`** moves the cursor by one step for every entry it looks at. -/
theorem getServer_progresses {fuel : Nat} {x : Scan} (h : getServer fuel c = .ok x) :
    progresses x.looks c = .ok x.circular := by
  obtain ⟨d, hd, h⟩ := Exec.bind_ok h
  obtain ⟨server, -, h⟩ := Exec.bind_ok h
  apply Loop.run_invariant (fun y => progresses y.looks c = .ok y.circular) _ ?_ ?_ ?_ h
  · intro y z hy hpass
    rcases getServerPass_progresses hy hpass with hr | ⟨w, hr | hr, hw⟩
    · cases hr
    · cases hr
    · cases hr
      exact hw
  · intro y z hy hpass
    rcases getServerPass_progresses hy hpass with hr | ⟨w, hr | hr, hw⟩
    · cases hr
      exact hy
    · cases hr
      exact hw
    · cases hr
  · exact hd

end Steps

/-! ## Runs -/

/-- A new buffer is allocated, or `get_server` is called and looks at `looks` entries. -/
inductive Move
  | reset (buffer : List Server)
  | get (looks : Nat)

/-- Allocations of buffers of any length and calls of `get_server`, in any order. -/
def moves : System Circular Move where
  init c := ∃ mem, c = newCircular mem
  step c move c' :=
    match move with
    | .reset buffer =>
      ∃ t, allocateBuffer c (some buffer) buffer.length = (t, c') ∧ t.isAnError = false
    | .get looks => ∃ fuel x, getServer fuel c = .ok x ∧ x.looks = looks ∧ x.circular = c'

/-- The steps of `progress` since the last reset. -/
def stepsSince (as : List Move) : Nat :=
  as.foldl (fun steps move => match move with | .reset _ => 0 | .get looks => steps + looks) 0

section Runs

variable {c c' : Circular} {as : List Move}

theorem step_publish (c : Circular) {buffer : List Server} (h : buffer ≠ []) :
    moves.step c (.reset buffer) (c.publish buffer) :=
  ⟨_, allocateBuffer_eq_publish c h, rfl⟩

/-- A successful `reset_servers` is a reset here, whatever the pool and the weights. -/
theorem step_of_resetServers {fuel : Nat} {mallocs : Mallocs} {pool : ServerPool} {serverNum : Nat}
    {t : Throwable} (h : resetServers fuel mallocs c pool serverNum = .ok (t, c'))
    (ht : t.isAnError = false) : moves.step c (.reset c'.buffer) c' := by
  unfold resetServers at h
  split at h
  · obtain ⟨nodes, -, h⟩ := Exec.bind_ok h
    obtain ⟨⟨t', c''⟩, hw, h⟩ := Exec.bind_ok h
    cases ht' : t'.isAnError with
    | true =>
      simp only [ht', if_true] at h
      cases h
      rw [Throwable.isAnError_thrown, ht'] at ht
      cases ht
    | false =>
      simp only [ht', Bool.false_eq_true, if_false] at h
      cases h
      obtain ⟨hne, hpub⟩ := weightServers_publish hw ht'
      rw [hpub]
      exact step_publish c hne
  · cases h
    cases ht

theorem step_reset_inv {buffer : List Server} (h : moves.step c (.reset buffer) c') :
    buffer ≠ [] ∧ c' = c.publish buffer := by
  obtain ⟨t, hal, ht⟩ := h
  have hne : buffer ≠ [] := by
    rintro rfl
    cases hal
    cases ht
  rw [allocateBuffer_eq_publish c hne] at hal
  cases hal
  exact ⟨hne, rfl⟩

/-- The states a call goes through are those of its steps. -/
theorem cursor_get {n looks : Nat} (h : moves.step c (.get looks) c') (hc : c.Cursor n) :
    c'.Cursor (n + looks) ∧ 0 < looks := by
  obtain ⟨fuel, x, hx, rfl, rfl⟩ := h
  obtain ⟨d, hd, hcur⟩ := hc.progresses x.looks
  rw [getServer_progresses hx] at hd
  cases hd
  exact ⟨hcur, Nat.succ_pos _⟩

theorem stepsSince_append (as : List Move) (move : Move) : stepsSince (as ++ [move]) =
    match move with | .reset _ => 0 | .get looks => stepsSince as + looks := by
  unfold stepsSince
  rw [List.foldl_append]
  cases move <;> rfl

/-- **The cursor along a run.** The induction is on the moves, the last one first. -/
theorem cursor_of_moves {c₀ : Circular} (h : moves.Run c₀ as c) :
    (∀ buffer, Move.reset buffer ∉ as) ∨ c.Cursor (stepsSince as) := by
  induction as using List.reverseRecOn generalizing c with
  | nil => exact Or.inl fun _ hm => List.not_mem_nil hm
  | append_singleton as move ih =>
    obtain ⟨c₁, hrun, hstep⟩ := h.snoc_inv
    rw [stepsSince_append]
    cases move with
    | reset buffer =>
      obtain ⟨hne, rfl⟩ := step_reset_inv hstep
      exact Or.inr (cursor_publish c₁ hne)
    | get looks =>
      rcases ih hrun with hnone | hcur
      · left
        intro buffer hm
        rcases List.mem_append.1 hm with hm | hm
        · exact hnone buffer hm
        · cases List.mem_singleton.1 hm
      · exact Or.inr (cursor_get hstep hcur).1

/-- **The cursor of every run with a reset in it.** The cursor is that of the steps made since the
last reset, through any number of further steps, none of which divides by 0; after a call of
`get_server` the position lies in the buffer and is that of the head. -/
theorem cursor_of_run {c₀ c : Circular} {as : List Move} (h : moves.Run c₀ as c)
    (hreset : ∃ buffer, Move.reset buffer ∈ as) :
    c.Cursor (stepsSince as) ∧
      (∀ k, ∃ d, progresses k c = .ok d ∧ d.Cursor (stepsSince as + k)) ∧
      ∀ bs looks, as = bs ++ [.get looks] →
        c.bufferPosition < c.bufferLen ∧ c.head = c.bufferPosition := by
  obtain ⟨buffer, hm⟩ := hreset
  have hcur := (cursor_of_moves h).resolve_left fun hnone => hnone buffer hm
  refine ⟨hcur, hcur.progresses, ?_⟩
  intro bs looks has
  have hpos : 0 < stepsSince as := by
    obtain ⟨c₁, -, fuel, x, -, rfl, -⟩ := (has ▸ h).snoc_inv
    rw [has, stepsSince_append]
    exact Nat.add_pos_right _ (Nat.succ_pos _)
  exact ⟨hcur.position_lt hpos, hcur.head_eq hpos⟩

/-- One server that is up. -/
def upServer : Server := ⟨1, 2, 1, serverStatusReady⟩

/-- The position is 1 when a buffer with a single entry is published. -/
theorem cursor_of_shorter_buffer :
    ((((newCircular blank).publish [upServer, upServer]).walk 1).publish [upServer]).Cursor 0 := by
  have hget : moves.step ((newCircular blank).publish [upServer, upServer]) (.get 1)
      (((newCircular blank).publish [upServer, upServer]).walk 1) := ⟨1, _, rfl, rfl, rfl⟩
  have hfirst := step_publish (newCircular blank) (List.cons_ne_nil upServer [upServer])
  have hrun := System.Run.cons hfirst
    (.cons hget (.single (step_publish _ (List.cons_ne_nil upServer []))))
  exact (cursor_of_run hrun ⟨_, List.mem_cons_self⟩).1

end Runs

end Heimdall.RoundRobin
