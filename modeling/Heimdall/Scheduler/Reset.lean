import Heimdall.RoundRobin.AnyWeight
import Heimdall.Scheduler.Score

/-!
# `reset_servers` on any pool of the scheduler

The score of a status report may be 0 or negative, and a configuration may have no servers. The
pattern loop counts up to the sum of the weights, which is summed over the greatest weights so far
(`Exchange.map_heads`), and takes entries from servers with a positive weight only. So it either
goes on for good, writes past its block, or leaves out a server, unless every weight is at least 1
and the servers ascend (`resets_iff`).
-/

namespace Heimdall.Scheduling

open Heimdall.RoundRobin

/-! ## The pools of the scheduler -/

/-- A weight that `init_scheduler` stores, or `apache_score` for a report that has a score. -/
def Storable (w : Int) : Prop := w = weightDefault ∨ ∃ r : Report, r.Stores w

/-- A pool of `init_scheduler`, at any time. Every ip in the configuration is a string of its
own, so the servers are told apart by it. -/
structure Pooled (pool : ServerPool) : Prop where
  numServers_eq : pool.numServers = pool.nodes.length
  ips_nodup : (pool.nodes.map ServerNode.hostIp).Nodup
  weight_storable : ∀ node ∈ pool.nodes, Storable node.weight
  status_cases : ∀ node ∈ pool.nodes,
    node.status = serverStatusReady ∨ node.status = serverStatusBroken

/-- `reset_servers` ends, and without an error only after it has published a buffer with an entry
for every server of the pool. -/
def Resets (mallocs : Mallocs) (c : Circular) (pool : ServerPool) : Prop :=
  ∃ fuel t c', resetServers fuel mallocs c pool pool.numServers = .ok (t, c') ∧
    (t.isAnError = false → c'.Published ∧
      ∀ node ∈ pool.nodes, ∃ s ∈ c'.buffer, s.machine = node.toServer.machine)

section Pools

variable {pool : ServerPool} {c : Circular} {mallocs : Mallocs}

theorem Pooled.copyNodes_eq (h : Pooled pool) :
    copyNodes pool.numServers pool.nodes = .ok pool.servers := by
  rw [h.numServers_eq]
  exact copyNodes_length pool.nodes

theorem Pooled.length_servers (h : Pooled pool) : pool.numServers = pool.servers.length := by
  rw [h.numServers_eq, ServerPool.servers, List.length_map]

theorem Pooled.weighted (h : Pooled pool) (hne : pool.nodes ≠ [])
    (hpos : ∀ node ∈ pool.nodes, 1 ≤ node.weight) : pool.Weighted :=
  ⟨h.numServers_eq, hne, hpos, h.status_cases⟩

theorem mallocs_eq (hs : mallocs.servers = true) (hw : mallocs.wServers = true) :
    mallocs = ⟨true, true⟩ := by
  obtain ⟨servers, wServers⟩ := mallocs
  cases hs
  cases hw
  rfl

/-- Two nodes that stand for one machine are one node. -/
theorem Pooled.eq_of_machine (h : Pooled pool) {node node' : ServerNode} (hn : node ∈ pool.nodes)
    (hn' : node' ∈ pool.nodes) (hm : node.toServer.machine = node'.toServer.machine) :
    node = node' := by
  have hip : node.hostIp = node'.hostIp := congrArg (fun m => m.2.1) hm
  exact List.inj_on_of_nodup_map h.ips_nodup hn hn' hip

/-- Without the first block the reset is given up at once. -/
theorem resets_of_no_servers (h : mallocs.servers = false) : Resets mallocs c pool := by
  refine ⟨0, _, _, by rw [resetServers, h]; rfl, ?_⟩
  intro ht
  cases ht

/-- Without the second block it is given up after the sum. -/
theorem resets_of_no_wServers (hp : Pooled pool) (hne : pool.nodes ≠ [])
    (hfits : SumFits pool.servers) (hs : mallocs.servers = true) (hw : mallocs.wServers = false) :
    Resets mallocs c pool := by
  have hne' : pool.servers ≠ [] := fun h => hne (List.map_eq_nil_iff.1 h)
  have hlen : 0 < pool.servers.length := List.length_pos_iff.2 hne'
  obtain ⟨⟨sum, sorted⟩, hsort⟩ := (sumFits_iff hne').1 hfits
  refine ⟨0, .thrown (.create statusError (.text "Memory allocation error!") "weight_servers")
    "reset_servers", c, ?_, ?_⟩
  · rw [resetServers, if_pos hs, hp.copyNodes_eq, Exec.ok_bind, hp.length_servers, weightServers,
      if_neg (by omega), List.take_length, hsort, Exec.ok_bind, hw]
    rfl
  · intro ht
    cases ht

/-- Weights of at least 1 in ascending order get every server into the buffer. -/
theorem resets_of_ascending (hp : Pooled pool) (hne : pool.nodes ≠ [])
    (hpos : ∀ node ∈ pool.nodes, 1 ≤ node.weight)
    (hasc : Exchange.Ascending Server.weight pool.servers)
    (hfit : totalWeight pool.servers ≤ intMax) : Resets ⟨true, true⟩ c pool := by
  have hw := hp.weighted hne hpos
  refine ⟨_, _, _, resetServers_of_ascending hw hasc hfit, fun _ => ?_⟩
  refine ⟨publish_published (pattern_ne_nil hw.servers_ne_nil hw.servers_pos), fun node hn => ?_⟩
  have hmem : node.toServer.machine ∈ (pattern pool.servers).map Server.machine := by
    refine (pattern_machines pool.servers).mem_iff.2 (List.mem_flatMap.2
      ⟨node.toServer, List.mem_map_of_mem hn, List.mem_replicate.2 ⟨?_, rfl⟩⟩)
    have hp := hpos node hn
    change node.weight.toNat ≠ 0
    omega
  obtain ⟨s, hs, hm⟩ := List.mem_map.1 hmem
  exact ⟨s, hs, hm⟩

/-- The sum of ascending weights is the greatest of the sums. -/
theorem totalWeight_le_of_sumFits (hne : pool.servers ≠ [])
    (hasc : Exchange.Ascending Server.weight pool.servers) (hfits : SumFits pool.servers) :
    totalWeight pool.servers ≤ intMax := by
  have hlen : 0 < pool.servers.length := List.length_pos_iff.2 hne
  obtain ⟨⟨sum, sorted⟩, hsort⟩ := (sumFits_iff hne).1 hfits
  obtain ⟨hsum, hfit, -⟩ := sortServers_spec (by omega) hsort
  rw [Exchange.heads_of_ascending hasc, Int.zero_add] at hsum
  unfold totalWeight
  rw [← hsum]
  exact hfit.2

/-- What an end of `reset_servers` says about the weighting. -/
theorem resetServers_ok {fuel : Nat} {t : Throwable} {c' : Circular} (hp : Pooled pool)
    (hs : mallocs.servers = true)
    (h : resetServers fuel mallocs c pool pool.numServers = .ok (t, c')) :
    pool.servers ≠ [] ∧ SumFits pool.servers ∧ ∃ t',
      weightServers fuel mallocs.wServers c pool.servers pool.servers.length = .ok (t', c') ∧
        t.isAnError = t'.isAnError := by
  rw [resetServers, if_pos hs, hp.copyNodes_eq, Exec.ok_bind, hp.length_servers] at h
  obtain ⟨⟨t', c''⟩, hweight, h⟩ := Exec.bind_ok h
  have hne : pool.servers ≠ [] := by
    intro hnil
    rw [hnil] at hweight
    cases hweight
  have hsort : ∃ r, sortServers (pool.servers.length - 1) 0 pool.servers = .ok r := by
    have hlen : 0 < pool.servers.length := List.length_pos_iff.2 hne
    have hsum := hweight
    rw [weightServers, if_neg (by omega), List.take_length] at hsum
    obtain ⟨r, hr, -⟩ := Exec.bind_ok hsum
    exact ⟨r, hr⟩
  refine ⟨hne, (sumFits_iff hne).2 hsort, t', ?_⟩
  simp only at h
  split at h <;> cases h
  · exact ⟨hweight, Throwable.isAnError_thrown _ _⟩
  · rename_i ht'
    exact ⟨hweight, (Bool.eq_false_iff.2 ht').symm⟩

/-- With both blocks, an end that publishes every server leaves only the good order. -/
theorem ascending_of_resets (hp : Pooled pool) (h : Resets ⟨true, true⟩ c pool) :
    (∀ node ∈ pool.nodes, 1 ≤ node.weight) ∧ Exchange.Ascending Server.weight pool.servers := by
  obtain ⟨fuel, t, c', hreset, hspec⟩ := h
  obtain ⟨hne, -, t', hweight, ht⟩ := resetServers_ok hp rfl hreset
  obtain ⟨ht', hentries⟩ := weightServers_entries hne hweight
  rw [ht'] at ht
  obtain ⟨-, hall⟩ := hspec ht
  have hpos : ∀ node ∈ pool.nodes, 1 ≤ node.weight := by
    intro node hn
    obtain ⟨e, he, hm⟩ := hall node hn
    obtain ⟨s, hs, hm', hw⟩ := hentries e he
    obtain ⟨node', hn', rfl⟩ := List.mem_map.1 hs
    obtain rfl := hp.eq_of_machine hn' hn (hm'.trans hm)
    exact hw
  have hne' : pool.nodes ≠ [] := fun h => hne (List.map_eq_nil_iff.2 h)
  obtain ⟨-, hasc, -⟩ := resetServers_success (hp.weighted hne' hpos) hreset ht
  exact ⟨hpos, hasc⟩

/-- **The reset of a pool.** `reset_servers` ends, and publishes every server if it says so, exactly
when it has no first block; or has servers whose sum stays within `int`, and no second block or
only weights of at least 1, in ascending order. -/
theorem resets_iff (hp : Pooled pool) (mallocs : Mallocs) (c : Circular) :
    Resets mallocs c pool ↔ mallocs.servers = false ∨
      (pool.nodes ≠ [] ∧ SumFits pool.servers ∧ (mallocs.wServers = false ∨
        ((∀ node ∈ pool.nodes, 1 ≤ node.weight) ∧
          Exchange.Ascending Server.weight pool.servers))) := by
  constructor
  · intro h
    cases hs : mallocs.servers with
    | false => exact Or.inl rfl
    | true =>
      obtain ⟨fuel, t, c', hreset, -⟩ := id h
      obtain ⟨hne, hfits, -⟩ := resetServers_ok hp hs hreset
      refine Or.inr ⟨fun hnil => hne (List.map_eq_nil_iff.2 hnil), hfits, ?_⟩
      cases hw : mallocs.wServers with
      | false => exact Or.inl rfl
      | true =>
        obtain rfl := mallocs_eq hs hw
        exact Or.inr (ascending_of_resets hp h)
  · intro h
    cases hs : mallocs.servers with
    | false => exact resets_of_no_servers hs
    | true =>
      obtain ⟨hne, hfits, h⟩ := h.resolve_left (by rw [hs]; exact Bool.noConfusion)
      cases hw : mallocs.wServers with
      | false => exact resets_of_no_wServers hp hne hfits hs hw
      | true =>
        obtain ⟨hpos, hasc⟩ := h.resolve_left (by rw [hw]; exact Bool.noConfusion)
        obtain rfl := mallocs_eq hs hw
        have hne' : pool.servers ≠ [] := fun h => hne (List.map_eq_nil_iff.1 h)
        exact resets_of_ascending hp hne hpos hasc (totalWeight_le_of_sumFits hne' hasc hfits)

/-- A server that has just been configured, and one with two idle workers of three. -/
def scoredPool : ServerPool :=
  ⟨[⟨1, 2, serverStatusReady, 1⟩, ⟨3, 4, serverStatusReady, 3⟩], 2⟩

theorem storable_three : Storable 3 :=
  Or.inr ⟨⟨2, 1, by decide, by decide, by decide, by decide⟩,
    Report.stores_iff.2 ⟨⟨by decide, by decide, by decide⟩, rfl⟩⟩

theorem pooled_scoredPool : Pooled scoredPool where
  numServers_eq := rfl
  ips_nodup := by decide
  weight_storable := by
    intro node hn
    rcases List.mem_pair.1 hn with rfl | rfl
    · exact Or.inl rfl
    · exact storable_three
  status_cases := by decide

theorem resets_scoredPool : Resets ⟨true, true⟩ (newCircular blank) scoredPool :=
  (resets_iff pooled_scoredPool _ _).2 (Or.inr ⟨List.cons_ne_nil _ _, by decide,
    Or.inr ⟨by decide, by decide⟩⟩)

/-- The same two servers the other way round: the sum is 3 and 3, for four entries. -/
theorem reset_hangs : ¬ ∀ pool mallocs c, Pooled pool → Resets mallocs c pool := by
  intro h
  have hp : Pooled ⟨scoredPool.nodes.reverse, 2⟩ := by
    refine ⟨rfl, by decide, ?_, by decide⟩
    intro node hn
    exact pooled_scoredPool.weight_storable node (List.mem_reverse.1 hn)
  have hasc := (ascending_of_resets hp (h _ _ blank hp)).2
  exact absurd hasc (by decide)

end Pools

end Heimdall.Scheduling
