import Heimdall.Lib.Deal
import Heimdall.RoundRobin.Weight

/-!
# The pattern in rounds

What `weight_servers` publishes is dealt in rounds: the round `r` has the servers with a weight
greater than `r`, in the order of the sorted array, each with the weight that it has left. So every
server gets as many entries as its weight says, and at any time a server that is still to get one is
at most one behind any other (`dealt_rounds`).

That is what is published whenever something is; and something is published exactly when the servers
are in ascending order beforehand (`weighted_iff`).
-/

namespace Heimdall.RoundRobin

/-- The entry of a server in the round `r`. -/
def Server.after (s : Server) (r : Nat) : Server := { s with weight := s.weight - r }

/-- The round `r`, counted from 0. -/
def round (l : List Server) (r : Nat) : List Server :=
  (l.filter fun s => (r : Int) < s.weight).map fun s => s.after r

def rounds (l : List Server) : List Server := deal (round l) (maxWeight l)

/-- The servers of the round `r`, with their places in the array. -/
def turns (l : List Server) (r : Nat) : List (Server × Nat) :=
  l.zipIdx.filter fun e => (r : Int) < e.1.weight

def places (l : List Server) (r : Nat) : List Nat := (turns l r).map Prod.snd

/-- `owner` says which server of `l` each entry of `buffer` is for. Each server has as many entries
as its weight says; and in what has been dealt at any time, a server that has not got all of its
entries is at most one behind any other. -/
structure Dealt (l buffer : List Server) (owner : List Nat) : Prop where
  entries : List.Forall₂ (fun entry i => ∃ s, l[i]? = some s ∧ entry.machine = s.machine)
    buffer owner
  count : ∀ i s, l[i]? = some s → (owner.count i : Int) = s.weight
  balance : ∀ p, p <+: owner → ∀ i j s, l[i]? = some s → (p.count i : Int) < s.weight →
    p.count j ≤ p.count i + 1

section Rounds

variable {l : List Server} {r i : Nat} {s : Server}

theorem round_tick (h : ∀ s ∈ l, 0 ≤ s.weight) (r : Nat) :
    round (l.map Server.tick) r = round l (r + 1) := by
  induction l with
  | nil => rfl
  | cons s l ih =>
    have hs := h s List.mem_cons_self
    have hl := ih fun t ht => h t (List.mem_cons_of_mem s ht)
    unfold round at hl ⊢
    rw [List.map_cons, List.filter_cons, List.filter_cons]
    by_cases hr : ((r + 1 : Nat) : Int) < s.weight
    · have htick : s.tick = { s with weight := s.weight - 1 } := if_pos (by omega)
      have hr' : (r : Int) < s.tick.weight := by
        rw [htick]
        change (r : Int) < s.weight - 1
        omega
      have hafter : s.tick.after r = s.after (r + 1) := by
        rw [htick]
        simp only [Server.after, Server.mk.injEq, true_and, and_true]
        omega
      simp only [hr, hr', decide_true, if_true, List.map_cons, hafter, hl]
    · have hr' : ¬ (r : Int) < s.tick.weight := by
        unfold Server.tick
        split
        · change ¬ (r : Int) < s.weight - 1
          omega
        · omega
      simp only [hr, hr', decide_false, Bool.false_eq_true, if_false, hl]

theorem round_zero (l : List Server) : round l 0 = live l := by
  have hafter : (fun s : Server => s.after 0) = id := by
    funext s
    simp [Server.after]
  unfold round live
  rw [hafter, List.map_id]
  rfl

/-- The rounds of the pattern loop. -/
theorem spread_eq_deal {k : Nat} (h : ∀ s ∈ l, 0 ≤ s.weight) : spread k l = deal (round l) k := by
  induction k generalizing l with
  | zero => rfl
  | succ k ih =>
    have htick : ∀ t ∈ l.map Server.tick, 0 ≤ t.weight := by
      intro t ht
      obtain ⟨s, hs, rfl⟩ := List.mem_map.1 ht
      have hs' := h s hs
      unfold Server.tick
      split
      · change 0 ≤ s.weight - 1
        omega
      · exact hs'
    have hround : round (l.map Server.tick) = fun r => round l (r + 1) := by
      funext r
      exact round_tick h r
    rw [spread, ih htick, hround, Deal.deal_succ', round_zero]

theorem pattern_eq_rounds (h : ∀ s ∈ l, 0 ≤ s.weight) : pattern l = rounds l := spread_eq_deal h

/-! ## Whose turn it is -/

theorem mem_places : i ∈ places l r ↔ ∃ s, l[i]? = some s ∧ (r : Int) < s.weight := by
  unfold places turns
  constructor
  · intro h
    obtain ⟨⟨s, j⟩, hmem, rfl⟩ := List.mem_map.1 h
    obtain ⟨hzip, hr⟩ := List.mem_filter.1 hmem
    exact ⟨s, List.mk_mem_zipIdx_iff_getElem?.1 hzip, of_decide_eq_true hr⟩
  · rintro ⟨s, hs, hr⟩
    refine List.mem_map.2 ⟨(s, i), List.mem_filter.2 ⟨?_, decide_eq_true hr⟩, rfl⟩
    exact List.mk_mem_zipIdx_iff_getElem?.2 hs

theorem places_nodup (l : List Server) (r : Nat) : (places l r).Nodup := by
  have hall : (l.zipIdx.map Prod.snd).Nodup := by
    rw [List.zipIdx_map_snd]
    exact List.nodup_range'
  exact hall.sublist (List.Sublist.map Prod.snd List.filter_sublist)

theorem places_subset (l : List Server) (r : Nat) : places l (r + 1) ⊆ places l r := by
  intro i hi
  obtain ⟨s, hs, hr⟩ := mem_places.1 hi
  exact mem_places.2 ⟨s, hs, by omega⟩

/-- A round is its turns, without the places. -/
theorem round_eq_turns (l : List Server) (r : Nat) :
    round l r = (turns l r).map fun e => e.1.after r := by
  have hfst : l.filter (fun s => (r : Int) < s.weight) = (turns l r).map Prod.fst := by
    conv_lhs => rw [← List.zipIdx_map_fst 0 l, List.filter_map]
    rfl
  unfold round
  rw [hfst, List.map_map]
  rfl

theorem round_places (l : List Server) (r : Nat) :
    List.Forall₂ (fun entry i => ∃ s, l[i]? = some s ∧ entry.machine = s.machine)
      (round l r) (places l r) := by
  rw [round_eq_turns, places, List.forall₂_map_left_iff, List.forall₂_map_right_iff,
    List.forall₂_same]
  rintro ⟨s, i⟩ hmem
  exact ⟨s, List.mk_mem_zipIdx_iff_getElem?.1 (List.mem_filter.1 hmem).1, rfl⟩

/-- A server gets one entry in each of as many rounds as its weight says. -/
theorem count_places (hs : l[i]? = some s) (hpos : 1 ≤ s.weight) :
    ((deal (places l) (maxWeight l)).count i : Int) = s.weight := by
  obtain ⟨w, hw⟩ : ∃ w : Nat, s.weight = w + 1 := ⟨(s.weight - 1).toNat, by omega⟩
  have hmax : s.weight ≤ maxWeight l := le_maxWeight s (List.mem_of_getElem? hs)
  have hlast : i ∈ places l w := mem_places.2 ⟨s, hs, by omega⟩
  have hout : i ∉ places l (w + 1) := by
    intro h0
    obtain ⟨s', hs', hr⟩ := mem_places.1 h0
    rw [hs] at hs'
    cases hs'
    omega
  rw [Deal.count_eq_of_not_mem (places_subset l) hout (by omega), Deal.deal_succ, List.count_append,
    Deal.count_eq (places_nodup l) (places_subset l) hlast,
    List.count_eq_one_of_mem (places_nodup l w) hlast]
  omega

/-- **The rounds are balanced.** -/
theorem dealt_rounds (hpos : ∀ s ∈ l, 1 ≤ s.weight) :
    Dealt l (rounds l) (deal (places l) (maxWeight l)) := by
  have hcount : ∀ i s, l[i]? = some s →
      ((deal (places l) (maxWeight l)).count i : Int) = s.weight := by
    intro i s hs
    exact count_places hs (hpos s (List.mem_of_getElem? hs))
  refine ⟨Deal.forall₂ (round_places l) (maxWeight l), hcount, ?_⟩
  intro p hp i j s hs hlt
  apply Deal.balance (places_nodup l) (places_subset l) hp
  have hall := hcount i s hs
  omega

end Rounds

/-! ## What `weight_servers` does -/

/-- `weight_servers` ends without an error: the loop nest has sorted the servers and added up their
weights, and what is published is dealt in rounds. -/
def Weighted (c : Circular) (servers : List Server) : Prop :=
  ∃ l, sortServers (servers.length - 1) 0 servers = .ok (totalWeight servers, l) ∧
    l.Perm servers ∧ Exchange.Ascending Server.weight l ∧
    ∃ fuel t c', weightServers fuel true c servers servers.length = .ok (t, c') ∧
      t.isAnError = false ∧ (c'.bufferLen : Int) = totalWeight servers ∧ c'.buffer = rounds l ∧
      ∃ owner, Dealt l c'.buffer owner

/-- **`weight_servers` publishes the rounds** exactly when the servers are in ascending order when
it is called. -/
theorem weighted_iff {servers : List Server} (c : Circular) (hne : servers ≠ [])
    (hpos : ∀ s ∈ servers, 1 ≤ s.weight) (hfit : totalWeight servers ≤ intMax) :
    Weighted c servers ↔ Exchange.Ascending Server.weight servers := by
  have hnn : ∀ s ∈ servers, 0 ≤ s.weight := fun s hs => by have := hpos s hs; omega
  constructor
  · rintro ⟨l, -, -, -, fuel, t, c', hrun, ht, -⟩
    exact (weightServers_success hne hpos hrun ht).2.1
  · intro hasc
    have hlen : 0 < servers.length := List.length_pos_iff.2 hne
    have hsort := sortServers_of_ascending (k := servers.length - 1) (by omega) hasc hnn
      (Int.le_refl 0) (by omega)
    rw [Int.zero_add] at hsort
    refine ⟨servers, hsort, List.Perm.refl servers, hasc, _, _, _,
      weightServers_of_ascending hne hpos hasc hfit, rfl, length_pattern hnn,
      pattern_eq_rounds hnn, deal (places servers) (maxWeight servers), ?_⟩
    change Dealt servers (pattern servers) _
    rw [pattern_eq_rounds hnn]
    exact dealt_rounds hpos

/-- Three servers with the weights 1, 2 and 3. -/
def usageServers : List Server :=
  [⟨1, 11, 1, serverStatusReady⟩, ⟨2, 12, 2, serverStatusReady⟩, ⟨3, 13, 3, serverStatusReady⟩]

theorem weighted_iff_usage : ∃ c, Weighted c usageServers := by
  refine ⟨⟨[], 0, 0, 0, 0⟩, (weighted_iff _ (List.cons_ne_nil _ _) ?_ ?_).2 ?_⟩
  · simp
  · decide
  · decide

/-- The greater weight stands in front: the sum is 6, where the servers weigh 4. -/
theorem greater_first : ¬∀ (c : Circular) (servers : List Server), servers ≠ [] →
    (∀ s ∈ servers, 1 ≤ s.weight) → totalWeight servers ≤ intMax → Weighted c servers := by
  intro h
  have hpos : ∀ s ∈ [(⟨1, 11, 3, serverStatusReady⟩ : Server), ⟨2, 12, 1, serverStatusReady⟩],
      1 ≤ s.weight := by
    simp
  obtain ⟨l, -, -, -, fuel, t, c', hrun, ht, -⟩ :=
    h ⟨[], 0, 0, 0, 0⟩ _ (List.cons_ne_nil _ _) hpos (by decide)
  have hasc := (weightServers_success (List.cons_ne_nil _ _) hpos hrun ht).2.1
  exact absurd hasc (by decide)

end Heimdall.RoundRobin
