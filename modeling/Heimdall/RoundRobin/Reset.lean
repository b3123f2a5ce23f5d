import Heimdall.Lib.System
import Heimdall.RoundRobin.GetServer
import Heimdall.RoundRobin.Weight

/-!
# `reset_servers`, and runs of the round robin

`reset_servers` copies the pool into an array, has it weighted, and so publishes a new pattern. A
run of the round robin is any sequence of successful resets and of calls of `get_server`
(`calls`). What every run keeps (`Running`): the buffer is the pattern of the pool that was last
reset, and the cursor lies in it.

A reset moves the head to the first entry and leaves the position where it is. The head is the entry
at the position again after the next `get_server`; in between, that call looks past one entry, and
reports that every server is down when the entry it does not see is the only READY one
(`sees_ready_iff_of_run`).
-/

namespace Heimdall.RoundRobin

structure ServerNode where
  hostAddress : CharPtr
  hostIp : CharPtr
  status : Int
  weight : Int
  deriving DecidableEq, Repr

/-- `nodes` is what the links from `head` on lead to. -/
structure ServerPool where
  nodes : List ServerNode
  numServers : Nat
  deriving DecidableEq, Repr

def ServerNode.toServer (node : ServerNode) : Server :=
  ⟨node.hostAddress, node.hostIp, node.weight, node.status⟩

/-- The copying loop of `reset_servers`, with `k` servers to go. -/
def copyNodes : Nat → List ServerNode → Exec (List Server)
  | 0, _ => .ok []
  | _ + 1, [] => .error .nullDeref
  | k + 1, node :: nodes => do
    let servers ← copyNodes k nodes
    .ok (node.toServer :: servers)

/-- Which of the two blocks of a reset can be allocated. -/
structure Mallocs where
  servers : Bool
  wServers : Bool
  deriving DecidableEq, Repr

/-- `reset_servers`, as far as the values in the buffer go: the release of the old block is in
`Heimdall.RoundRobin.Memory`. -/
def resetServers (fuel : Nat) (mallocs : Mallocs) (circular : Circular) (pool : ServerPool)
    (serverNum : Nat) : Exec (Throwable × Circular) :=
  if mallocs.servers then do
    let servers ← copyNodes pool.numServers pool.nodes
    let (throwable, circular) ← weightServers fuel mallocs.wServers circular servers serverNum
    if throwable.isAnError then .ok (throwable.thrown "reset_servers", circular)
    else .ok (.create statusOk .null "reset_servers", circular)
  else .ok (.create statusError (.text "Memory allocation error!") "reset_servers", circular)

/-! ## Pools -/

/-- A pool with at least one server, weights of at least 1, and no status but READY and BROKEN. -/
structure ServerPool.Weighted (pool : ServerPool) : Prop where
  numServers_eq : pool.numServers = pool.nodes.length
  ne_nil : pool.nodes ≠ []
  weight_pos : ∀ node ∈ pool.nodes, 1 ≤ node.weight
  status_cases : ∀ node ∈ pool.nodes,
    node.status = serverStatusReady ∨ node.status = serverStatusBroken

instance (pool : ServerPool) : Decidable pool.Weighted :=
  decidable_of_iff (pool.numServers = pool.nodes.length ∧ pool.nodes ≠ [] ∧
      (∀ node ∈ pool.nodes, 1 ≤ node.weight) ∧ ∀ node ∈ pool.nodes,
        node.status = serverStatusReady ∨ node.status = serverStatusBroken)
    ⟨fun ⟨a, b, c, d⟩ => ⟨a, b, c, d⟩, fun ⟨a, b, c, d⟩ => ⟨a, b, c, d⟩⟩

def ServerPool.servers (pool : ServerPool) : List Server := pool.nodes.map ServerNode.toServer

section Reset

variable {pool : ServerPool} {c c' : Circular} {fuel : Nat} {mallocs : Mallocs} {t : Throwable}

theorem copyNodes_length (nodes : List ServerNode) :
    copyNodes nodes.length nodes = .ok (nodes.map ServerNode.toServer) := by
  induction nodes with
  | nil => rfl
  | cons node nodes ih =>
    simp only [List.length_cons, copyNodes, ih, Exec.ok_bind, List.map_cons]

theorem ServerPool.Weighted.servers_pos (h : pool.Weighted) : ∀ s ∈ pool.servers, 1 ≤ s.weight := by
  intro s hs
  obtain ⟨node, hn, rfl⟩ := List.mem_map.1 hs
  exact h.weight_pos node hn

theorem ServerPool.Weighted.servers_ne_nil (h : pool.Weighted) : pool.servers ≠ [] := fun hn =>
  h.ne_nil (List.map_eq_nil_iff.1 hn)

theorem ServerPool.Weighted.copyNodes_eq (h : pool.Weighted) :
    copyNodes pool.numServers pool.nodes = .ok pool.servers := by
  rw [h.numServers_eq]
  exact copyNodes_length pool.nodes

theorem ServerPool.Weighted.length_servers (h : pool.Weighted) :
    pool.numServers = pool.servers.length := by
  rw [h.numServers_eq, ServerPool.servers, List.length_map]

/-- **Success of `reset_servers`**: the pool was in ascending order, and its pattern is
published. -/
theorem resetServers_success (hp : pool.Weighted)
    (h : resetServers fuel mallocs c pool pool.numServers = .ok (t, c'))
    (ht : t.isAnError = false) : mallocs = ⟨true, true⟩ ∧
      Exchange.Ascending Server.weight pool.servers ∧ totalWeight pool.servers ≤ intMax ∧
      c' = c.publish (pattern pool.servers) := by
  obtain ⟨servers, wServers⟩ := mallocs
  unfold resetServers at h
  cases servers with
  | false =>
    simp only [Bool.false_eq_true, if_false] at h
    cases h
    cases ht
  | true =>
    simp only [if_true, hp.copyNodes_eq, Exec.ok_bind] at h
    rw [hp.length_servers] at h
    obtain ⟨⟨t', c''⟩, hw, h⟩ := Exec.bind_ok h
    simp only at h
    by_cases ht' : t'.isAnError
    · rw [if_pos ht'] at h
      cases h
      rw [Throwable.isAnError_thrown, ht'] at ht
      cases ht
    · rw [if_neg ht'] at h
      cases h
      obtain ⟨rfl, hasc, hfit, rfl⟩ := weightServers_success hp.servers_ne_nil hp.servers_pos hw
        (Bool.eq_false_iff.2 ht')
      exact ⟨rfl, hasc, hfit, rfl⟩

theorem resetServers_of_ascending (hp : pool.Weighted)
    (hasc : Exchange.Ascending Server.weight pool.servers)
    (hfit : totalWeight pool.servers ≤ intMax) :
    resetServers (maxWeight pool.servers * pool.servers.length) ⟨true, true⟩ c pool pool.numServers
      = .ok (.create statusOk .null "reset_servers", c.publish (pattern pool.servers)) := by
  have hw := weightServers_of_ascending (c := c) hp.servers_ne_nil hp.servers_pos hasc hfit
  unfold resetServers
  simp only [if_true, hp.copyNodes_eq, Exec.ok_bind]
  rw [hp.length_servers, hw]
  rfl

theorem publish_published {buffer : List Server} (h : buffer ≠ []) :
    (c.publish buffer).Published :=
  ⟨rfl, List.length_pos_iff.2 h, List.length_pos_iff.2 h⟩

end Reset

/-! ## Runs -/

inductive Call
  | reset (pool : ServerPool)
  | get
  deriving DecidableEq

/-- Successful resets of pools, and calls of `get_server`, in any order, on a new buffer. -/
def calls : System Circular Call where
  init c := ∃ mem, c = newCircular mem
  step c call c' :=
    match call with
    | .reset pool => pool.Weighted ∧ ∃ fuel mallocs t,
        resetServers fuel mallocs c pool pool.numServers = .ok (t, c') ∧ t.isAnError = false
    | .get => ∃ fuel x, getServer fuel c = .ok x ∧ c' = x.circular

/-- The pool of the last reset in a sequence of calls. -/
def lastPool (as : List Call) : Option ServerPool :=
  as.foldl (fun last call => match call with | .reset pool => some pool | .get => last) none

/-- The state after calls whose last reset was that of `pool`. -/
structure Running (pool : ServerPool) (c : Circular) : Prop where
  weighted : pool.Weighted
  ascending : Exchange.Ascending Server.weight pool.servers
  published : c.Published
  buffer_eq : c.buffer = pattern pool.servers

section Runs

variable {c c' : Circular} {as : List Call} {pool : ServerPool}

theorem step_reset (h : calls.step c (.reset pool) c') :
    pool.Weighted ∧ Exchange.Ascending Server.weight pool.servers ∧
      totalWeight pool.servers ≤ intMax ∧ c' = c.publish (pattern pool.servers) := by
  obtain ⟨hp, fuel, mallocs, t, hr, ht⟩ := h
  obtain ⟨-, hasc, hfit, rfl⟩ := resetServers_success hp hr ht
  exact ⟨hp, hasc, hfit, rfl⟩

theorem running_reset (h : calls.step c (.reset pool) c') : Running pool c' := by
  obtain ⟨hp, hasc, -, rfl⟩ := step_reset h
  exact ⟨hp, hasc, publish_published (pattern_ne_nil hp.servers_ne_nil hp.servers_pos), rfl⟩

/-- A call of `get_server` moves the cursor by the entries it looks at. -/
theorem step_get (h : calls.step c .get c') (hp : c.Published) : ∃ k, c' = c.walk (k + 1) := by
  obtain ⟨fuel, x, hx, rfl⟩ := h
  obtain ⟨y, hy, -, -, ⟨k, hk⟩, -⟩ := getServer_spec hp
  obtain ⟨c₁, hc₁, hx⟩ := Exec.bind_ok hx
  obtain ⟨s, hs, hx⟩ := Exec.bind_ok hx
  obtain ⟨c₂, hc₂, hy⟩ := Exec.bind_ok hy
  obtain ⟨s₂, hs₂, hy⟩ := Exec.bind_ok hy
  rw [hc₁] at hc₂
  cases hc₂
  rw [hs] at hs₂
  cases hs₂
  obtain rfl := Loop.run_agree hx hy
  exact ⟨k, hk⟩

theorem running_get (h : calls.step c .get c') (hr : Running pool c) : Running pool c' := by
  obtain ⟨k, rfl⟩ := step_get h hr.published
  exact ⟨hr.weighted, hr.ascending, walk_published hr.published _,
    by rw [walk_buffer, hr.buffer_eq]⟩

/-- Before the first reset `get_server` has nothing to read. -/
theorem not_step_get_new (mem : Circular) : ¬ calls.step (newCircular mem) .get c' := by
  rintro ⟨fuel, x, hx, -⟩
  obtain ⟨c₁, hc₁, hx⟩ := Exec.bind_ok hx
  obtain ⟨s, hs, -⟩ := Exec.bind_ok hx
  have hbuf : c₁.buffer = [] := by
    unfold progress at hc₁
    split at hc₁ <;> cases hc₁
    rfl
  unfold readTail at hs
  rw [hbuf] at hs
  cases hs

theorem step_reset_of_ascending (hp : pool.Weighted)
    (hasc : Exchange.Ascending Server.weight pool.servers)
    (hfit : totalWeight pool.servers ≤ intMax) :
    calls.step c (.reset pool) (c.publish (pattern pool.servers)) :=
  ⟨hp, _, _, _, resetServers_of_ascending hp hasc hfit, rfl⟩

/-- **Runs of the round robin**: the buffer is the pattern of the pool last reset. -/
theorem running_of_run {c₀ : Circular} (hc₀ : calls.init c₀) (h : calls.Run c₀ as c) :
    (as = [] ∧ c = c₀) ∨ ∃ pool, lastPool as = some pool ∧ Running pool c := by
  induction as using List.reverseRecOn generalizing c with
  | nil => exact Or.inl ⟨rfl, h.nil_inv⟩
  | append_singleton as call ih =>
    obtain ⟨c₁, hr, hs⟩ := h.snoc_inv
    right
    simp only [lastPool, List.foldl_append, List.foldl_cons, List.foldl_nil]
    cases call with
    | reset pool => exact ⟨pool, rfl, running_reset hs⟩
    | get =>
      rcases ih hr with ⟨-, rfl⟩ | ⟨pool, hlast, hrun⟩
      · obtain ⟨mem, rfl⟩ := hc₀
        exact absurd hs (not_step_get_new mem)
      · exact ⟨pool, hlast, running_get hs hrun⟩

end Runs

/-! ## A server that is available is always selected -/

/-- What the dispatcher counts on: `get_server` ends, after at most one entry more than there are,
with a READY server exactly when there is one. -/
def Circular.SeesReady (c : Circular) : Prop :=
  ∃ x, getServer c.bufferLen c = .ok x ∧ x.looks ≤ c.bufferLen + 1 ∧
    (x.serverReady.status = serverStatusReady ↔ ∃ s ∈ c.buffer, s.status = serverStatusReady)

/-- **Selection of an available server.** After any run with a reset in it, `get_server` ends, and
selects an available server if there is one, exactly when one of these holds: the head is the entry
at the position; the entry at the position is not READY; some other entry is READY. -/
theorem seesReady_iff_of_run {c₀ c : Circular} {as : List Call} (hc₀ : calls.init c₀)
    (h : calls.Run c₀ as c) (hreset : ∃ pool, Call.reset pool ∈ as) :
    c.SeesReady ↔ c.InStep ∨ ¬ c.ReadyAt (c.bufferPosition % c.bufferLen) ∨
      ∃ i, i ≠ c.bufferPosition % c.bufferLen ∧ c.ReadyAt i := by
  have hp : c.Published := by
    rcases running_of_run hc₀ h with ⟨rfl, -⟩ | ⟨pool, -, hr⟩
    · obtain ⟨pool, hm⟩ := hreset
      cases hm
    · exact hr.published
  obtain ⟨x, hx, hlooks, hstatus, -, -⟩ := getServer_spec hp
  rw [← sees_ready_iff hp, ← exists_ready_iff, ← hstatus]
  constructor
  · rintro ⟨y, hy, -, hiff⟩
    rw [hx] at hy
    cases hy
    exact hiff
  · intro hiff
    exact ⟨x, hx, hlooks, hiff⟩

/-- Two servers of weight 1, the second of them up. -/
def pairPool (first : Int) : ServerPool :=
  ⟨[⟨1, 2, first, 1⟩, ⟨3, 4, serverStatusReady, 1⟩], 2⟩

/-- What the buffer is like before anything is stored in it. -/
def blank : Circular := ⟨[], 0, 0, 0, 0⟩

theorem step_reset_pair (c : Circular) {first : Int}
    (h : first = serverStatusReady ∨ first = serverStatusBroken) :
    calls.step c (.reset (pairPool first)) (c.publish (pattern (pairPool first).servers)) := by
  rcases h with rfl | rfl <;> exact step_reset_of_ascending (by decide) (by decide) (by decide)

theorem seesReady_iff_after_reset :
    ((newCircular blank).publish (pattern (pairPool serverStatusReady).servers)).SeesReady :=
  (seesReady_iff_of_run ⟨blank, rfl⟩ (.single (step_reset_pair _ (Or.inl rfl)))
    ⟨pairPool serverStatusReady, List.mem_singleton.2 rfl⟩).2 (Or.inl rfl)

/-- Both servers are up, one call is served, and then the first server goes down: the next call
tests that server twice and never the other one. -/
theorem ready_server_hidden : ¬ ∀ c₀ c as, calls.init c₀ → calls.Run c₀ as c →
    (∃ pool, Call.reset pool ∈ as) → c.SeesReady := by
  intro h
  let c₁ := (newCircular blank).publish (pattern (pairPool serverStatusReady).servers)
  let c₃ := (c₁.walk 1).publish (pattern (pairPool serverStatusBroken).servers)
  have hget : calls.step c₁ .get (c₁.walk 1) := ⟨2, _, rfl, rfl⟩
  have hrun : calls.Run (newCircular blank)
      [.reset (pairPool serverStatusReady), .get, .reset (pairPool serverStatusBroken)] c₃ :=
    .cons (step_reset_pair _ (Or.inl rfl)) (.cons hget (.single (step_reset_pair _ (Or.inr rfl))))
  obtain ⟨x, hx, -, hiff⟩ := h _ _ _ ⟨blank, rfl⟩ hrun ⟨_, List.mem_cons_self⟩
  have hbroken : (getServer c₃.bufferLen c₃).map (·.serverReady.status)
      = .ok serverStatusBroken := by decide
  have hready : ∃ s ∈ c₃.buffer, s.status = serverStatusReady := by decide
  rw [hx] at hbroken
  have hstatus : x.serverReady.status = serverStatusBroken := Except.ok.inj hbroken
  rw [← hiff, hstatus] at hready
  exact absurd hready (by decide)

end Heimdall.RoundRobin
