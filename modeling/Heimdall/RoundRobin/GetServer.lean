import Mathlib.Data.Nat.Find
import Heimdall.RoundRobin.Circular

/-!
# What `get_server` returns

On a published buffer the loop of `get_server` returns the first READY entry among the first
`bufferLen` entries of its walk (`getServer_found`), and a BROKEN server when there is none
(`getServer_down`). Those `bufferLen` entries are the whole buffer when the cursor is in step; when
it is not, they miss the entry at the position (`readyWithin_iff`).
-/

namespace Heimdall.RoundRobin

section Pass

variable {c : Circular} {k : Nat} {s t : Server}

theorem getServerPass_ready (hs : s.status = serverStatusReady) :
    getServerPass ⟨c.walk (k + 1), s, k⟩ = .ok (.leave ⟨c.walk (k + 1), s, k⟩) := by
  unfold getServerPass
  rw [if_pos hs]

theorem getServerPass_skip (h : c.Published) (hs : s.status ≠ serverStatusReady)
    (ht : c.buffer[c.look (k + 1)]? = some t) (hk : k + 1 ≠ c.bufferLen) :
    getServerPass ⟨c.walk (k + 1), s, k⟩ = .ok (.again ⟨c.walk (k + 2), t, k + 1⟩) := by
  unfold getServerPass
  rw [if_neg hs, progress_walk h, Exec.ok_bind, readTail_walk ht, Exec.ok_bind]
  simp only [walk_bufferLen, if_neg hk]

theorem getServerPass_giveUp (h : c.Published) (hs : s.status ≠ serverStatusReady)
    (ht : c.buffer[c.look (k + 1)]? = some t) (hk : k + 1 = c.bufferLen) :
    getServerPass ⟨c.walk (k + 1), s, k⟩ =
      .ok (.leave ⟨c.walk (k + 2), { t with status := serverStatusBroken }, k + 1⟩) := by
  unfold getServerPass
  rw [if_neg hs, progress_walk h, Exec.ok_bind, readTail_walk ht, Exec.ok_bind]
  simp only [walk_bufferLen, if_pos hk]

end Pass

/-- The entry at offset `i` is READY. -/
def Circular.ReadyAt (c : Circular) (i : Nat) : Prop :=
  ∃ s, c.buffer[i]? = some s ∧ s.status = serverStatusReady

instance (c : Circular) (i : Nat) : Decidable (c.ReadyAt i) :=
  decidable_of_iff (c.buffer[i]?.any fun s => s.status == serverStatusReady) (by
    cases h : c.buffer[i]? <;> simp [Circular.ReadyAt, h])

theorem Circular.ReadyAt.lt {c : Circular} {i : Nat} (h : c.ReadyAt i) : i < c.buffer.length := by
  obtain ⟨s, hs, -⟩ := h
  exact (List.getElem?_eq_some_iff.1 hs).1

theorem exists_ready_iff (c : Circular) :
    (∃ s ∈ c.buffer, s.status = serverStatusReady) ↔ ∃ i, c.ReadyAt i := by
  constructor
  · rintro ⟨s, hs, hr⟩
    obtain ⟨i, hi⟩ := List.mem_iff_getElem?.1 hs
    exact ⟨i, s, hi, hr⟩
  · rintro ⟨i, s, hs, hr⟩
    exact ⟨s, List.mem_of_getElem? hs, hr⟩

section Scan

variable {c : Circular} (h : c.Published)

include h in
/-- From the `j`-th entry of the walk, with no READY entry before the `k`-th, the loop gets to the
`k`-th. The induction is on the entries still to be skipped. -/
theorem scan_to {j k : Nat} {s : Server} (hjk : j ≤ k) (hk : k < c.bufferLen)
    (hs : c.buffer[c.look j]? = some s) (hn : ∀ i, j ≤ i → i < k → ¬ c.ReadyAt (c.look i)) :
    ∃ t, c.buffer[c.look k]? = some t ∧ ∀ n, Loop.run getServerPass Stop.fuel (n + (k - j))
      ⟨c.walk (j + 1), s, j⟩ = Loop.run getServerPass .fuel n ⟨c.walk (k + 1), t, k⟩ := by
  generalize hm : k - j = m
  induction m generalizing j s with
  | zero =>
    obtain rfl : j = k := by omega
    exact ⟨s, hs, fun n => rfl⟩
  | succ m ih =>
    obtain ⟨s', hs'⟩ := exists_look h (j + 1)
    obtain ⟨t, ht, hrun⟩ := ih (by omega) hs' (fun i hi => hn i (by omega)) (by omega)
    refine ⟨t, ht, fun n => ?_⟩
    have hsr : s.status ≠ serverStatusReady := fun hr => hn j (Nat.le_refl j) (by omega) ⟨s, hs, hr⟩
    rw [← Nat.add_assoc, Loop.run_again (getServerPass_skip h hsr hs' (by omega)), hrun n]

include h in
theorem getServer_start {s : Server} (hs : c.buffer[c.look 0]? = some s) (fuel : Nat) :
    getServer fuel c = Loop.run getServerPass .fuel fuel ⟨c.walk 1, s, 0⟩ := by
  have hp : progress c = .ok (c.walk 1) := progress_walk h 0
  unfold getServer
  rw [hp, Exec.ok_bind, readTail_walk hs, Exec.ok_bind]

include h in
/-- **A READY entry within the scan**: `get_server` returns the first one. -/
theorem getServer_found {k : Nat} {t : Server} (hk : k < c.bufferLen)
    (ht : c.buffer[c.look k]? = some t) (hr : t.status = serverStatusReady)
    (hn : ∀ i < k, ¬ c.ReadyAt (c.look i)) :
    getServer c.bufferLen c = .ok ⟨c.walk (k + 1), t, k⟩ := by
  obtain ⟨s, hs⟩ := exists_look h 0
  obtain ⟨t', ht', hrun⟩ := scan_to h (Nat.zero_le k) hk hs (fun i _ hi => hn i hi)
  rw [ht] at ht'
  cases ht'
  obtain ⟨n, hL⟩ : ∃ n, c.bufferLen = (n + 1) + (k - 0) := ⟨c.bufferLen - k - 1, by omega⟩
  rw [getServer_start h hs, hL, hrun]
  exact Loop.run_leave (getServerPass_ready hr) n

include h in
/-- **No READY entry within the scan**: `get_server` steps once more and reports BROKEN. -/
theorem getServer_down (hn : ∀ i < c.bufferLen, ¬ c.ReadyAt (c.look i)) :
    ∃ t, c.buffer[c.look c.bufferLen]? = some t ∧ getServer c.bufferLen c =
      .ok ⟨c.walk (c.bufferLen + 1), { t with status := serverStatusBroken }, c.bufferLen⟩ := by
  obtain ⟨m, hm⟩ : ∃ m, c.bufferLen = m + 1 := ⟨c.bufferLen - 1, by have := h.len_pos; omega⟩
  obtain ⟨s, hs⟩ := exists_look h 0
  obtain ⟨u, hu, hrun⟩ := scan_to h (Nat.zero_le m) (by omega) hs (fun i _ hi => hn i (by omega))
  obtain ⟨t, ht⟩ := exists_look h (m + 1)
  have hur : u.status ≠ serverStatusReady := fun hr => hn m (by omega) ⟨u, hu, hr⟩
  refine ⟨t, by rw [hm]; exact ht, ?_⟩
  have h1 : m + 1 = 1 + (m - 0) := by omega
  rw [getServer_start h hs]
  conv_lhs => rw [hm, h1, hrun 1]
  rw [Loop.run_leave (getServerPass_giveUp h hur ht hm.symm), hm]

end Scan

/-! ## The entries that are tested -/

/-- A READY entry is among the `bufferLen` entries whose status `get_server` tests. -/
def Circular.ReadyWithin (c : Circular) : Prop := ∃ k < c.bufferLen, c.ReadyAt (c.look k)

/-- **What `get_server` returns**: it ends, after at most `bufferLen + 1` entries, and the server is
READY exactly when a READY entry was among those tested. The buffer stays as it is, with the cursor
in step. -/
theorem getServer_spec {c : Circular} (h : c.Published) :
    ∃ x, getServer c.bufferLen c = .ok x ∧ x.looks ≤ c.bufferLen + 1 ∧
      (x.serverReady.status = serverStatusReady ↔ c.ReadyWithin) ∧
      (∃ k, x.circular = c.walk (k + 1)) ∧
      ∃ s ∈ c.buffer, x.serverReady.address = s.address ∧ x.serverReady.ip = s.ip ∧
        (x.serverReady.status = serverStatusReady → x.serverReady = s) := by
  by_cases hw : ∃ k, k < c.bufferLen ∧ c.ReadyAt (c.look k)
  · -- the first READY entry of the walk
    obtain ⟨hk, hr⟩ := Nat.find_spec hw
    have hmin := fun i hi => Nat.find_min (H := hw) (m := i) hi
    generalize Nat.find hw = k at hk hr hmin
    obtain ⟨t, ht, htr⟩ := hr
    refine ⟨_, getServer_found h hk ht htr fun i hi hri => hmin i hi ⟨by omega, hri⟩, ?_, ?_,
      ⟨k, rfl⟩, t, List.mem_of_getElem? ht, rfl, rfl, fun _ => rfl⟩
    · simp only [Scan.looks]; omega
    · exact ⟨fun _ => hw, fun _ => htr⟩
  · have hn : ∀ i < c.bufferLen, ¬ c.ReadyAt (c.look i) := fun i hi hri => hw ⟨i, hi, hri⟩
    obtain ⟨t, ht, hg⟩ := getServer_down h hn
    have hb : serverStatusBroken ≠ serverStatusReady := by decide
    exact ⟨_, hg, Nat.le_refl _, ⟨fun hr => absurd hr hb, fun hr => absurd hr hw⟩, ⟨_, rfl⟩, t,
      List.mem_of_getElem? ht, rfl, rfl, fun hr => absurd hr hb⟩

/-- Every entry except the one at the position is tested, and that one is the first to be tested
when the cursor is in step. -/
theorem readyWithin_iff {c : Circular} (h : c.Published) :
    c.ReadyWithin ↔ c.ReadyAt c.head ∨ ∃ i, i ≠ c.bufferPosition % c.bufferLen ∧ c.ReadyAt i := by
  constructor
  · rintro ⟨k, hk, hr⟩
    by_cases h0 : k = 0
    · subst h0
      exact Or.inl hr
    · refine Or.inr ⟨c.look k, fun he => h0 ?_, hr⟩
      unfold Circular.look at he
      rw [if_neg h0] at he
      exact Cyclic.mod_add_inj (j := k) (k := 0) hk h.len_pos he
  · rintro (hr | ⟨i, hi, hr⟩)
    · exact ⟨0, h.len_pos, hr⟩
    · obtain ⟨k, hk, he⟩ := Cyclic.exists_window (h.len_eq ▸ hr.lt) c.bufferPosition
      have h0 : k ≠ 0 := by rintro rfl; exact hi he.symm
      refine ⟨k, hk, ?_⟩
      unfold Circular.look
      rw [if_neg h0, he]
      exact hr

/-- The scan sees whatever is READY, except when the only READY entry is the one at the position
and the cursor is not in step. -/
theorem sees_ready_iff {c : Circular} (h : c.Published) :
    (c.ReadyWithin ↔ ∃ i, c.ReadyAt i) ↔
      c.InStep ∨ ¬ c.ReadyAt (c.bufferPosition % c.bufferLen) ∨
        ∃ i, i ≠ c.bufferPosition % c.bufferLen ∧ c.ReadyAt i := by
  rw [readyWithin_iff h]
  unfold Circular.InStep
  by_cases ho : ∃ i, i ≠ c.bufferPosition % c.bufferLen ∧ c.ReadyAt i
  · obtain ⟨i, hi, hr⟩ := ho
    exact ⟨fun _ => Or.inr (Or.inr ⟨i, hi, hr⟩),
      fun _ => ⟨fun _ => ⟨i, hr⟩, fun _ => Or.inr ⟨i, hi, hr⟩⟩⟩
  · have hall : ∀ i, c.ReadyAt i → i = c.bufferPosition % c.bufferLen := fun i hr =>
      Classical.byContradiction fun hi => ho ⟨i, hi, hr⟩
    constructor
    · intro hiff
      by_cases hp : c.ReadyAt (c.bufferPosition % c.bufferLen)
      · rcases hiff.2 ⟨_, hp⟩ with hh | hh
        · exact Or.inl (hall _ hh)
        · exact absurd hh ho
      · exact Or.inr (Or.inl hp)
    · rintro (hs | hp | hx)
      · refine ⟨fun hr => hr.elim (fun hh => ⟨_, hh⟩) (fun hh => absurd hh ho), ?_⟩
        rintro ⟨i, hr⟩
        rw [hall i hr, ← hs] at hr
        exact Or.inl hr
      · refine ⟨fun hr => hr.elim (fun hh => ⟨_, hh⟩) (fun hh => absurd hh ho), ?_⟩
        rintro ⟨i, hr⟩
        exact absurd (hall i hr ▸ hr) hp
      · exact absurd hx ho

end Heimdall.RoundRobin
