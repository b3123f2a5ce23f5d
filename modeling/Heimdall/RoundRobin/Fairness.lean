import Heimdall.RoundRobin.Reset

/-!
# Fairness of the weighted round robin

A block of `bufferLen` calls with no reset in between. When all servers are READY every call serves
the next entry of the walk, so the block serves the entry at the head and then those at the
positions that follow: all of the buffer, when the head carries the entry at the position
(`block_fair_iff`). After a reset it need not.
-/

namespace Heimdall.RoundRobin

/-- `n` calls of `get_server` in a row: what they return, and the buffer they leave. -/
def serve : Nat → Circular → Exec (List Server × Circular)
  | 0, c => .ok ([], c)
  | n + 1, c => do
    let x ← getServer c.bufferLen c
    let (served, c) ← serve n x.circular
    .ok (x.serverReady :: served, c)

/-- The calls of a block serve each entry of the buffer once, and each server of the pool as often
as its weight says. -/
def Circular.Fair (c : Circular) (pool : ServerPool) : Prop :=
  ∃ served c', serve c.bufferLen c = .ok (served, c') ∧ served.Perm c.buffer ∧
    (served.map Server.machine).Perm (pool.servers.flatMap Server.copies)

section Block

variable {c : Circular}

theorem walk_walk_one (c : Circular) (j : Nat) : (c.walk j).walk 1 = c.walk (j + 1) := by
  simp only [Circular.walk, walk_bufferLen]

/-- With all entries READY every call takes one step. -/
theorem getServer_allReady (h : c.Published) (hall : ∀ s ∈ c.buffer, s.status = serverStatusReady)
    (j : Nat) : ∃ s, c.buffer[c.look j]? = some s ∧
      getServer (c.walk j).bufferLen (c.walk j) = .ok ⟨c.walk (j + 1), s, 0⟩ := by
  have hj := walk_published h j
  obtain ⟨s, hs⟩ := exists_look h j
  have hlook : (c.walk j).buffer[(c.walk j).look 0]? = some s := by
    rw [walk_buffer]
    change c.buffer[(c.walk j).head]? = some s
    rw [walk_head, hs]
  refine ⟨s, hs, ?_⟩
  rw [← walk_walk_one]
  exact getServer_found hj hj.len_pos hlook (hall s (List.mem_of_getElem? hs))
    fun i hi => absurd hi (Nat.not_lt_zero i)

/-- A block serves the entries of the walk. -/
theorem serve_allReady (h : c.Published) (hall : ∀ s ∈ c.buffer, s.status = serverStatusReady)
    (n j : Nat) : ∃ served, serve n (c.walk j) = .ok (served, c.walk (j + n)) ∧
      served.map some = (List.range n).map fun k => c.buffer[c.look (j + k)]? := by
  induction n generalizing j with
  | zero => exact ⟨[], rfl, rfl⟩
  | succ n ih =>
    obtain ⟨s, hs, hget⟩ := getServer_allReady h hall j
    obtain ⟨served, hserve, hmap⟩ := ih (j + 1)
    refine ⟨s :: served, ?_, ?_⟩
    · rw [serve, hget, Exec.ok_bind]
      simp only [hserve, Exec.ok_bind]
      rw [show j + 1 + n = j + (n + 1) by omega]
    · rw [List.map_cons, hmap, List.range_succ_eq_map, List.map_cons, List.map_map]
      refine congrArg₂ _ hs.symm (List.map_congr_left fun k _ => ?_)
      simp only [Function.comp, Nat.succ_eq_add_one]
      rw [show j + (k + 1) = j + 1 + k by omega]

theorem buffer_map_some (h : c.Published) :
    c.buffer.map some = (List.range c.bufferLen).map fun i => c.buffer[i]? := by
  rw [h.len_eq]
  refine List.ext_getElem (by simp) fun i h₁ h₂ => ?_
  simp at h₁
  simp [h₁]

/-- **A block of calls** serves each entry once exactly when the head carries the entry at the
position. -/
theorem serve_perm_iff (h : c.Published) (hall : ∀ s ∈ c.buffer, s.status = serverStatusReady) :
    (∃ served c', serve c.bufferLen c = .ok (served, c') ∧ served.Perm c.buffer) ↔
      c.buffer[c.head]? = c.buffer[c.bufferPosition % c.bufferLen]? := by
  obtain ⟨served, hserve, hmap⟩ := serve_allReady h hall c.bufferLen 0
  have hskew : served.map some
      = (Cyclic.skewed c.head c.bufferPosition c.bufferLen).map fun i => c.buffer[i]? := by
    rw [hmap, ← map_look c h.len_pos rfl, List.map_map]
    refine List.map_congr_left fun k _ => ?_
    simp only [Function.comp, Nat.zero_add]
  have hiff : served.Perm c.buffer ↔
      c.buffer[c.head]? = c.buffer[c.bufferPosition % c.bufferLen]? := by
    rw [← List.map_perm_map_iff (Option.some_injective _), hskew, buffer_map_some h]
    exact Cyclic.skewed_map_perm_iff h.len_pos
  rw [← hiff]
  constructor
  · rintro ⟨served', c', hs, hp⟩
    have hserve' : serve c.bufferLen c = .ok (served, c.walk (0 + c.bufferLen)) := hserve
    rw [hserve'] at hs
    cases hs
    exact hp
  · intro hp
    exact ⟨served, _, hserve, hp⟩

end Block

section Fair

variable {c₀ c : Circular} {as : List Call} {pool : ServerPool}

theorem Running.allReady (hr : Running pool c)
    (hready : ∀ node ∈ pool.nodes, node.status = serverStatusReady) :
    ∀ s ∈ c.buffer, s.status = serverStatusReady := by
  intro s hs
  rw [hr.buffer_eq] at hs
  have hm := (pattern_machines pool.servers).mem_iff.1 (List.mem_map_of_mem hs)
  obtain ⟨s', hs', hc⟩ := List.mem_flatMap.1 hm
  obtain ⟨node, hn, rfl⟩ := List.mem_map.1 hs'
  have hstatus : s.status = node.status := congrArg (·.2.2) (List.eq_of_mem_replicate hc)
  rw [hstatus, hready node hn]

/-- Serving the buffer is serving every server as often as its weight says. -/
theorem Running.fair_iff (hr : Running pool c) : c.Fair pool ↔
    ∃ served c', serve c.bufferLen c = .ok (served, c') ∧ served.Perm c.buffer := by
  constructor
  · rintro ⟨served, c', hs, hp, -⟩
    exact ⟨served, c', hs, hp⟩
  · rintro ⟨served, c', hs, hp⟩
    refine ⟨served, c', hs, hp, (hp.map _).trans ?_⟩
    rw [hr.buffer_eq]
    exact pattern_machines pool.servers

/-- **Fairness of a block** of `bufferLen` calls after any run whose last reset was that of `pool`,
with all servers READY: every entry is served once, and so every server as often as its weight says,
exactly when the head carries the entry at the position. -/
theorem block_fair_iff (hc₀ : calls.init c₀) (h : calls.Run c₀ as c)
    (hlast : lastPool as = some pool)
    (hready : ∀ node ∈ pool.nodes, node.status = serverStatusReady) :
    c.Fair pool ↔ c.buffer[c.head]? = c.buffer[c.bufferPosition % c.bufferLen]? := by
  have hr : Running pool c := by
    rcases running_of_run hc₀ h with ⟨rfl, -⟩ | ⟨pool', hlast', hr⟩
    · cases hlast
    · rw [hlast] at hlast'
      cases hlast'
      exact hr
  rw [hr.fair_iff]
  exact serve_perm_iff hr.published (hr.allReady hready)

theorem block_fair_after_reset :
    ((newCircular blank).publish (pattern (pairPool serverStatusReady).servers)).Fair
      (pairPool serverStatusReady) :=
  (block_fair_iff ⟨blank, rfl⟩ (.single (step_reset_pair _ (Or.inl rfl))) rfl (by decide)).2 rfl

/-- A reset between two calls: the block after it serves the first server twice. -/
theorem block_unfair : ¬ ∀ c₀ c as pool, calls.init c₀ → calls.Run c₀ as c →
    lastPool as = some pool → (∀ node ∈ pool.nodes, node.status = serverStatusReady) →
    c.Fair pool := by
  intro h
  let c₁ := (newCircular blank).publish (pattern (pairPool serverStatusReady).servers)
  let c₃ := (c₁.walk 1).publish (pattern (pairPool serverStatusReady).servers)
  have hget : calls.step c₁ .get (c₁.walk 1) := ⟨2, _, rfl, rfl⟩
  have hrun : calls.Run (newCircular blank)
      [.reset (pairPool serverStatusReady), .get, .reset (pairPool serverStatusReady)] c₃ :=
    .cons (step_reset_pair _ (Or.inl rfl)) (.cons hget (.single (step_reset_pair _ (Or.inl rfl))))
  obtain ⟨served, c', hs, hp, -⟩ := h _ _ _ _ ⟨blank, rfl⟩ hrun rfl (by decide)
  have htwice : (serve c₃.bufferLen c₃).map (·.1.map Server.machine)
      = .ok [(1, 2, 1), (1, 2, 1)] := by decide
  rw [hs] at htwice
  have hmem : ((3, 4, 1) : CharPtr × CharPtr × Int) ∈ served.map Server.machine :=
    ((hp.map Server.machine).mem_iff).2 (by decide)
  rw [show served.map Server.machine = _ from Except.ok.inj htwice] at hmem
  exact absurd hmem (by decide)

end Fair

end Heimdall.RoundRobin
