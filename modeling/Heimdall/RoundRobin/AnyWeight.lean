import Heimdall.RoundRobin.Reset

/-!
# `weight_servers` with weights of either sign

The loop nest sums over the greatest weights so far (`Exchange.map_heads`), and the pattern loop
takes entries from servers with a positive weight only, until there are as many as the sum says. So
if it ends, the pattern is not empty and has no entry of another server (`pattern_entries`).
-/

namespace Heimdall.RoundRobin

/-- The sum of the loop nest stays within `int` at every server. -/
def SumFits (servers : List Server) : Prop :=
  ∀ j < servers.length, FitsInt (((Exchange.heights Server.weight servers).take (j + 1)).sum)

instance (servers : List Server) : Decidable (SumFits servers) :=
  inferInstanceAs (Decidable (∀ j < servers.length, _))

section AnySign

variable {c c' : Circular} {servers : List Server} {malloc : Bool} {fuel : Nat} {t : Throwable}

theorem sortServers_ok_iff {k : Nat} {w : Int} {l : List Server} (hl : l.length = k + 1) :
    (∃ r, sortServers k w l = .ok r) ↔
      ∀ j < k + 1, FitsInt (w + ((Exchange.heights Server.weight l).take (j + 1)).sum) := by
  rw [← Exchange.map_heads Server.weight (Nat.le_of_eq hl)]
  induction k generalizing w l with
  | zero =>
    obtain ⟨server, rfl⟩ := List.length_eq_one_iff.1 hl
    simp only [Exchange.heads, List.map_cons, List.map_nil]
    constructor
    · intro h j hj
      obtain ⟨r, h⟩ := h
      obtain ⟨sum, hsum, -⟩ := Exec.bind_ok h
      obtain rfl : j = 0 := by omega
      simpa using (checkInt_ok hsum).2
    · intro h
      have hfit : FitsInt (w + server.weight) := by simpa using h 0 (by omega)
      exact ⟨_, by rw [sortServers, checkInt_of_fits hfit, Exec.ok_bind]⟩
  | succ k ih =>
    obtain ⟨server, rest, rfl⟩ := List.exists_cons_of_length_eq_add_one hl
    have hlen : (Exchange.sweep Server.weight server rest).2.length = k + 1 := by
      rw [Exchange.sweep_length]
      simpa using hl
    have hrec := ih (w := w + server.weight) hlen
    simp only [Exchange.heads, List.map_cons, List.take_succ_cons, List.sum_cons]
    constructor
    · intro h j hj
      obtain ⟨r, h⟩ := h
      obtain ⟨sum, hsum, h⟩ := Exec.bind_ok h
      obtain ⟨rfl, hfit⟩ := checkInt_ok hsum
      obtain ⟨⟨sum', sorted⟩, hsort, -⟩ := Exec.bind_ok h
      cases j with
      | zero => simpa using hfit
      | succ j =>
        have hj' := hrec.1 ⟨_, hsort⟩ j (by omega)
        rwa [Int.add_assoc] at hj'
    · intro h
      have hfit : FitsInt (w + server.weight) := by simpa using h 0 (by omega)
      obtain ⟨⟨sum', sorted⟩, hsort⟩ := hrec.2 (by
        intro j hj
        have hj' := h (j + 1) (by omega)
        rwa [← Int.add_assoc] at hj')
      exact ⟨_, by rw [sortServers, checkInt_of_fits hfit, Exec.ok_bind, hsort, Exec.ok_bind]⟩

theorem sumFits_iff (hne : servers ≠ []) :
    SumFits servers ↔ ∃ r, sortServers (servers.length - 1) 0 servers = .ok r := by
  have hlen : 0 < servers.length := List.length_pos_iff.2 hne
  have hk : servers.length - 1 + 1 = servers.length := by omega
  rw [sortServers_ok_iff hk.symm, hk]
  simp only [Int.zero_add]
  rfl

/-- The pattern loop has only ever lowered weights, and entered servers with a positive one. -/
structure Pattern.From (l : List Server) (p : Pattern) : Prop where
  servers : ∀ s ∈ p.servers, ∃ s₀ ∈ l, s₀.machine = s.machine ∧ s.weight ≤ s₀.weight
  wServers : ∀ e ∈ p.wServers, ∃ s₀ ∈ l, s₀.machine = e.machine ∧ 0 < s₀.weight

/-- **The entries of a pattern**, if the loop ends: as many as the sum says, none of a server whose
weight is not positive. -/
theorem pattern_entries {weightSum : Int} {l r : List Server} {n : Nat}
    (h : Loop.run (patternPass weightSum) Stop.fuel n ⟨l, [], 0⟩ = .ok r) :
    (r.length : Int) = weightSum ∧ r ≠ [] ∧
      ∀ e ∈ r, ∃ s₀ ∈ l, s₀.machine = e.machine ∧ 0 < s₀.weight := by
  have hentry : ∀ {p : Pattern} {server : Server}, p.From l → p.servers[p.s]? = some server →
      server.weight > 0 → ∀ e ∈ p.wServers ++ [server],
        ∃ s₀ ∈ l, s₀.machine = e.machine ∧ 0 < s₀.weight := by
    intro p server hp hs hpos e he
    rcases List.mem_append.1 he with he | he
    · exact hp.wServers e he
    · obtain rfl := List.mem_singleton.1 he
      obtain ⟨s₀, hs₀, hm, hle⟩ := hp.servers e (List.mem_of_getElem? hs)
      exact ⟨s₀, hs₀, hm, by omega⟩
  refine Loop.run_invariant (Pattern.From l)
    (fun r => (r.length : Int) = weightSum ∧ r ≠ [] ∧
      ∀ e ∈ r, ∃ s₀ ∈ l, s₀.machine = e.machine ∧ 0 < s₀.weight) ?_ ?_ ⟨?_, ?_⟩ h
  · intro p q hp hpass
    obtain ⟨server, hs, ⟨hpos, ⟨-, hr⟩ | hr⟩ | hr⟩ := patternPass_cases hpass
    · cases hr
    · cases hr
      refine ⟨fun s hmem => ?_, hentry hp hs hpos⟩
      rcases List.mem_or_eq_of_mem_set hmem with hmem | rfl
      · exact hp.servers s hmem
      · obtain ⟨s₀, hs₀, hm, hle⟩ := hp.servers server (List.mem_of_getElem? hs)
        exact ⟨s₀, hs₀, hm, by change server.weight - 1 ≤ _; omega⟩
    · cases hr
      exact ⟨hp.servers, hp.wServers⟩
  · intro p r hp hpass
    obtain ⟨server, hs, ⟨hpos, ⟨hlen, hr⟩ | hr⟩ | hr⟩ := patternPass_cases hpass
    · cases hr
      refine ⟨by simpa using hlen, by simp, hentry hp hs hpos⟩
    · cases hr
    · cases hr
  · intro s hs
    exact ⟨s, hs, rfl, Int.le_refl _⟩
  · intro e he
    cases he

/-- Once its block has been allocated, `weight_servers` can only end by publishing a pattern. -/
theorem weightServers_ok {serverNum : Nat}
    (h : weightServers fuel true c servers serverNum = .ok (t, c')) :
    t.isAnError = false ∧ c'.buffer ≠ [] ∧ c' = c.publish c'.buffer ∧ ∃ weightSum sorted,
      sortServers (serverNum - 1) 0 (servers.take serverNum) = .ok (weightSum, sorted) ∧
        ∀ e ∈ c'.buffer, ∃ s ∈ sorted, s.machine = e.machine ∧ 0 < s.weight := by
  unfold weightServers at h
  split at h
  · cases h
  · obtain ⟨⟨weightSum, sorted⟩, hsort, h⟩ := Exec.bind_ok h
    obtain ⟨buffer, hrun, h⟩ := Exec.bind_ok h
    obtain ⟨hlen, hne, hentries⟩ := pattern_entries hrun
    rw [← hlen, Int.toNat_natCast, allocateBuffer_eq_publish c hne] at h
    cases h
    exact ⟨rfl, hne, rfl, weightSum, sorted, hsort, hentries⟩

/-- **What `weight_servers` publishes** when it ends, for weights of either sign. -/
theorem weightServers_entries (hne : servers ≠ [])
    (h : weightServers fuel true c servers servers.length = .ok (t, c')) :
    t.isAnError = false ∧ ∀ e ∈ c'.buffer, ∃ s ∈ servers, s.machine = e.machine ∧ 0 < s.weight := by
  have hlen : 0 < servers.length := List.length_pos_iff.2 hne
  obtain ⟨ht, -, -, weightSum, sorted, hsort, hentries⟩ := weightServers_ok h
  rw [List.take_length] at hsort
  obtain ⟨-, -, hsorted⟩ := sortServers_spec (by omega) hsort
  have hperm : sorted.Perm servers := hsorted ▸ Exchange.sort_perm _ _ servers
  refine ⟨ht, fun e he => ?_⟩
  obtain ⟨s, hs, hm, hpos⟩ := hentries e he
  exact ⟨s, hperm.mem_iff.1 hs, hm, hpos⟩

/-- A success of `weight_servers` is a buffer that has been published. -/
theorem weightServers_publish {serverNum : Nat}
    (h : weightServers fuel malloc c servers serverNum = .ok (t, c')) (ht : t.isAnError = false) :
    c'.buffer ≠ [] ∧ c' = c.publish c'.buffer := by
  cases malloc with
  | true =>
    obtain ⟨-, hne, hpub, -⟩ := weightServers_ok h
    exact ⟨hne, hpub⟩
  | false =>
    unfold weightServers at h
    split at h
    · cases h
    · obtain ⟨⟨weightSum, sorted⟩, -, h⟩ := Exec.bind_ok h
      cases h
      cases ht

end AnySign

end Heimdall.RoundRobin
