import Heimdall.RoundRobin.Reset

/-!
# The update routine of the scheduler (`scheduler.c`)

A cycle asks every server for its status page, scores the server and then resets the round robin,
unless some page was rejected. What a machine answers during a cycle is an outcome of its own
(`Page`), so the cycle is a function of the outcomes.

The pool has the new statuses as soon as the scan is over, the buffer only after a reset. A single
rejected page keeps the whole cluster from being reset, and weights that do not ascend keep the
reset from ending: the two cases in which the buffer and the pool may part (`cycle_agrees_iff`).
-/

namespace Heimdall.Scheduling

open Heimdall.RoundRobin

def weightDefault : Int := 1

def weightMaximum : Int := 5

/-- A throwable that is an error. -/
abbrev Failure := { t : Throwable // t.isAnError = true }

/-- What a cycle meets at one server: no memory for its url, no page, a page that the parser
rejects, or the worker counts of a page (-1 where the page has none). -/
inductive Page
  | noUrl (t : Failure)
  | unreachable (t : Failure)
  | rejected (t : Failure)
  | parsed (idleWorkers busyWorkers : Int)
  deriving DecidableEq

/-- `(IDLE - 1) * (5 - 1) / (TOTAL - 1) + 1`, in `int`. -/
def score (idleWorkers busyWorkers : Int) : Exec Int := do
  let totalWorkers ← checkInt (busyWorkers + idleWorkers)
  let idle ← checkInt (idleWorkers - weightDefault)
  let scaled ← checkInt (idle * (weightMaximum - weightDefault))
  let total ← checkInt (totalWorkers - weightDefault)
  if total = 0 then .error .divByZero
  else do
    let quotient ← checkInt (scaled.tdiv total)
    checkInt (quotient + weightDefault)

def apacheScore (page : Page) (server : ServerNode) : Exec (Throwable × ServerNode) :=
  match page with
  | .noUrl t => .ok (t.1.thrown "apache_score", server)
  | .unreachable t =>
    .ok (t.1.thrown "apache_score",
      { server with weight := weightDefault, status := serverStatusBroken })
  | .rejected t => .ok (t.1.thrown "apache_score", { server with status := serverStatusReady })
  | .parsed idleWorkers busyWorkers =>
    let server := { server with status := serverStatusReady }
    if idleWorkers < 0 then .ok (.create statusOk (.text "No update") "apache_score", server)
    else do
      let weight ← score idleWorkers busyWorkers
      .ok (.create statusOk .null "apache_score", { server with weight := weight })

/-- The scan over the pool, with `k` servers to go; the machine at `ip` answers `page ip`. -/
def scanServers (page : CharPtr → Page) : Nat → List ServerNode → Int →
    Exec (List ServerNode × Int)
  | 0, nodes, proceed => .ok (nodes, proceed)
  | _ + 1, [], _ => .error .nullDeref
  | k + 1, node :: nodes, proceed => do
    let (throwable, node) ← apacheScore (page node.hostIp) node
    let proceed :=
      if throwable.isAnError ∧ node.status ≠ serverStatusBroken then proceed - 1 else proceed
    -- the scan ends at the last node, whatever the count says
    if nodes = [] then .ok ([node], proceed)
    else do
      let (nodes, proceed) ← scanServers page k nodes proceed
      .ok (node :: nodes, proceed)

structure Scheduler where
  serverPool : ServerPool
  circular : Circular
  deriving DecidableEq, Repr

/-- One cycle of `update_server_routine`; the flag says whether the routine goes on. -/
def updateCycle (fuel : Nat) (mallocs : Mallocs) (page : CharPtr → Page) (scheduler : Scheduler) :
    Exec (Bool × Scheduler) := do
  let (nodes, proceed) ←
    scanServers page scheduler.serverPool.numServers scheduler.serverPool.nodes 0
  let pool := { scheduler.serverPool with nodes := nodes }
  if proceed = 0 then do
    let (throwable, circular) ←
      resetServers fuel mallocs scheduler.circular pool pool.numServers
    .ok (!throwable.isAnError, ⟨pool, circular⟩)
  else .ok (true, ⟨pool, scheduler.circular⟩)

/-- `init_scheduler`, for the configured servers (canonical name and ip). -/
def initScheduler (fuel : Nat) (mallocs : Mallocs) (mem : Circular)
    (configured : List (CharPtr × CharPtr)) : Exec (Option Scheduler) := do
  let nodes := configured.map fun s => ⟨s.1, s.2, serverStatusReady, weightDefault⟩
  let pool : ServerPool := ⟨nodes, nodes.length⟩
  let (throwable, circular) ← resetServers fuel mallocs (newCircular mem) pool pool.numServers
  if throwable.isAnError then .ok none
  else .ok (some ⟨pool, circular⟩)

/-! ## What a cycle stores in the pool -/

section Scan

/-- The weight of a server once its page has been scored. -/
def Page.weight (page : Page) (node : ServerNode) : Int :=
  match page with
  | .noUrl _ => node.weight
  | .unreachable _ => 1
  | .rejected _ => node.weight
  | .parsed idle busy =>
    if idle < 0 then node.weight else ((idle - 1) * 4).tdiv (busy + idle - 1) + 1

/-- The status that a cycle finds a server in. -/
def Page.status (page : Page) (node : ServerNode) : Int :=
  match page with
  | .noUrl _ => node.status
  | .unreachable _ => serverStatusBroken
  | .rejected _ => serverStatusReady
  | .parsed _ _ => serverStatusReady

/-- The page holds up the reset of the cluster. -/
def Page.Fails (page : Page) (node : ServerNode) : Prop :=
  match page with
  | .noUrl _ => node.status ≠ serverStatusBroken
  | .unreachable _ => False
  | .rejected _ => True
  | .parsed _ _ => False

instance (page : Page) (node : ServerNode) : Decidable (page.Fails node) := by
  unfold Page.Fails
  split <;> infer_instance

/-- The node after the cycle. -/
def Page.update (page : CharPtr → Page) (node : ServerNode) : ServerNode :=
  { node with
    weight := (page node.hostIp).weight node
    status := (page node.hostIp).status node }

theorem score_eq {idle busy w : Int} (h : score idle busy = .ok w) :
    w = ((idle - 1) * 4).tdiv (busy + idle - 1) + 1 := by
  obtain ⟨total, h₁, h⟩ := Exec.bind_ok h
  obtain ⟨i, h₂, h⟩ := Exec.bind_ok h
  obtain ⟨scaled, h₃, h⟩ := Exec.bind_ok h
  obtain ⟨t, h₄, h⟩ := Exec.bind_ok h
  obtain ⟨rfl, -⟩ := checkInt_ok h₁
  obtain ⟨rfl, -⟩ := checkInt_ok h₂
  obtain ⟨rfl, -⟩ := checkInt_ok h₃
  obtain ⟨rfl, -⟩ := checkInt_ok h₄
  split at h
  · cases h
  · obtain ⟨q, h₅, h⟩ := Exec.bind_ok h
    obtain ⟨rfl, -⟩ := checkInt_ok h₅
    obtain ⟨rfl, -⟩ := checkInt_ok h
    rfl

/-- **What `apache_score` does to a server**, and when its error counts. -/
theorem apacheScore_ok {page : CharPtr → Page} {node node' : ServerNode} {t : Throwable}
    (h : apacheScore (page node.hostIp) node = .ok (t, node')) :
    node' = Page.update page node ∧
      (t.isAnError = true ∧ node'.status ≠ serverStatusBroken ↔ (page node.hostIp).Fails node) := by
  unfold apacheScore at h
  unfold Page.update
  cases hp : page node.hostIp with
  | noUrl t =>
    rw [hp] at h
    cases h
    exact ⟨rfl, fun ht => ht.2, fun hs => ⟨t.2, hs⟩⟩
  | unreachable t =>
    rw [hp] at h
    cases h
    exact ⟨rfl, fun ht => ht.2 rfl, fun hf => hf.elim⟩
  | rejected t =>
    rw [hp] at h
    cases h
    have hne : serverStatusReady ≠ serverStatusBroken := by decide
    exact ⟨rfl, fun _ => trivial, fun _ => ⟨t.2, hne⟩⟩
  | parsed idle busy =>
    rw [hp] at h
    simp only at h
    split at h
    · rename_i hi
      cases h
      exact ⟨by simp only [Page.weight, if_pos hi, Page.status], fun ht => (nomatch ht.1),
        fun hf => hf.elim⟩
    · rename_i hi
      obtain ⟨w, hw, h⟩ := Exec.bind_ok h
      obtain rfl := score_eq hw
      cases h
      exact ⟨by simp only [Page.weight, if_neg hi, Page.status], fun ht => (nomatch ht.1),
        fun hf => hf.elim⟩

/-- **The scan** stores its findings in every node, and counts the pages that hold up the reset. -/
theorem scanServers_ok {page : CharPtr → Page} {nodes nodes' : List ServerNode}
    {proceed proceed' : Int}
    (h : scanServers page nodes.length nodes proceed = .ok (nodes', proceed')) :
    nodes' = nodes.map (Page.update page) ∧ proceed' ≤ proceed ∧
      (proceed' = proceed ↔ ∀ node ∈ nodes, ¬ (page node.hostIp).Fails node) := by
  induction nodes generalizing nodes' proceed proceed' with
  | nil =>
    cases h
    exact ⟨rfl, Int.le_refl _, fun _ node hn => (nomatch hn), fun _ => rfl⟩
  | cons node nodes ih =>
    obtain ⟨⟨t, node'⟩, hs, h⟩ := Exec.bind_ok h
    obtain ⟨rfl, hf⟩ := apacheScore_ok hs
    simp only [hf] at h
    generalize hq : (if (page node.hostIp).Fails node then proceed - 1 else proceed) = q at h
    have hqle : q ≤ proceed ∧ (q = proceed ↔ ¬ (page node.hostIp).Fails node) := by
      rw [← hq]
      split
      · exact ⟨by omega, fun h0 => absurd h0 (by omega), fun h0 => absurd ‹_› h0⟩
      · exact ⟨Int.le_refl _, fun _ => ‹_›, fun _ => rfl⟩
    by_cases hn : nodes = []
    · rw [if_pos hn] at h
      cases h
      subst hn
      refine ⟨rfl, hqle.1, hqle.2.trans ⟨fun h0 n hm => ?_, fun h0 => h0 node List.mem_cons_self⟩⟩
      obtain rfl := List.mem_singleton.1 hm
      exact h0
    · rw [if_neg hn] at h
      obtain ⟨⟨nodes'', q'⟩, hrec, h⟩ := Exec.bind_ok h
      cases h
      obtain ⟨rfl, hle, hiff⟩ := ih hrec
      refine ⟨rfl, by omega, ⟨fun h0 n hm => ?_, fun h0 => ?_⟩⟩
      · rcases List.mem_cons.1 hm with rfl | hm
        · exact hqle.2.1 (by omega)
        · exact hiff.1 (by omega) n hm
      · have h₁ := hqle.2.2 (h0 node List.mem_cons_self)
        have h₂ := hiff.2 fun n hm => h0 n (List.mem_cons_of_mem _ hm)
        omega

end Scan

/-! ## Runs of the scheduler -/

inductive Event
  | cycle (page : CharPtr → Page)
  | get

/-- A scheduler that `init_scheduler` has made, its update cycles, and the calls of `get_server` in
between. -/
def updates : System Scheduler Event where
  init s := ∃ fuel mallocs mem configured, (configured.map Prod.snd).Nodup ∧
    initScheduler fuel mallocs mem configured = .ok (some s)
  step s event s' :=
    match event with
    | .cycle page => ∃ fuel mallocs, updateCycle fuel mallocs page s = .ok (true, s')
    | .get => ∃ fuel x, getServer fuel s.circular = .ok x ∧ s' = { s with circular := x.circular }

/-- What every cycle keeps of the pool. -/
structure Scheduler.Pooled (s : Scheduler) : Prop where
  numServers_eq : s.serverPool.numServers = s.serverPool.nodes.length
  ne_nil : s.serverPool.nodes ≠ []
  ips_nodup : (s.serverPool.nodes.map ServerNode.hostIp).Nodup
  status_cases : ∀ node ∈ s.serverPool.nodes,
    node.status = serverStatusReady ∨ node.status = serverStatusBroken

section Runs

variable {s s' : Scheduler}

theorem Page.status_cases (page : Page) (node : ServerNode)
    (h : node.status = serverStatusReady ∨ node.status = serverStatusBroken) :
    page.status node = serverStatusReady ∨ page.status node = serverStatusBroken := by
  cases page with
  | noUrl t => exact h
  | unreachable t => exact Or.inr rfl
  | rejected t => exact Or.inl rfl
  | parsed idle busy => exact Or.inl rfl

theorem Scheduler.Pooled.update (h : s.Pooled) (page : CharPtr → Page) (c : Circular) :
    Scheduler.Pooled
      ⟨{ s.serverPool with nodes := s.serverPool.nodes.map (Page.update page) }, c⟩ where
  numServers_eq := by simpa using h.numServers_eq
  ne_nil := fun hn => h.ne_nil (List.map_eq_nil_iff.1 hn)
  ips_nodup := by
    rw [List.map_map]
    exact h.ips_nodup
  status_cases := fun node hn => by
    obtain ⟨n, hm, rfl⟩ := List.mem_map.1 hn
    exact Page.status_cases _ _ (h.status_cases n hm)

theorem updateCycle_pool {fuel : Nat} {mallocs : Mallocs} {page : CharPtr → Page} {go : Bool}
    (h : updateCycle fuel mallocs page s = .ok (go, s')) (hp : s.Pooled) :
    s'.serverPool = { s.serverPool with nodes := s.serverPool.nodes.map (Page.update page) } := by
  obtain ⟨⟨nodes, proceed⟩, hscan, h⟩ := Exec.bind_ok h
  rw [hp.numServers_eq] at hscan
  obtain ⟨rfl, -, -⟩ := scanServers_ok hscan
  simp only at h
  split at h
  · obtain ⟨⟨t, c⟩, -, h⟩ := Exec.bind_ok h
    cases h
    rfl
  · cases h
    rfl

theorem pooled_init (h : updates.init s) : s.Pooled := by
  obtain ⟨fuel, mallocs, mem, configured, hnd, h⟩ := h
  obtain ⟨⟨t, c⟩, hr, h⟩ := Exec.bind_ok h
  simp only at h
  split at h
  · cases h
  · rename_i ht
    cases h
    refine ⟨rfl, ?_, ?_, ?_⟩
    · -- an empty configuration is not survived: the sum is read from before the array
      intro hn
      obtain rfl := List.map_eq_nil_iff.1 hn
      unfold resetServers at hr
      split at hr
      · obtain ⟨servers, -, hr⟩ := Exec.bind_ok hr
        obtain ⟨_, hw, -⟩ := Exec.bind_ok hr
        exact nomatch (weightServers_zero _ _ _ servers).symm.trans hw
      · cases hr
        exact ht rfl
    · rw [List.map_map]
      exact hnd
    · intro node hn
      obtain ⟨_, -, rfl⟩ := List.mem_map.1 hn
      exact Or.inl rfl

theorem pooled_of_reachable (h : updates.Reachable s) : s.Pooled := by
  refine h.invariant Scheduler.Pooled (fun s => pooled_init) ?_
  intro s event s' hs hstep
  cases event with
  | cycle page =>
    obtain ⟨fuel, mallocs, hc⟩ := hstep
    have hpool := updateCycle_pool hc hs
    obtain ⟨pool, c⟩ := s'
    obtain rfl : pool = _ := hpool
    exact hs.update page c
  | get =>
    obtain ⟨fuel, x, -, rfl⟩ := hstep
    exact ⟨hs.numServers_eq, hs.ne_nil, hs.ips_nodup, hs.status_cases⟩

end Runs

/-! ## The buffer and the pool -/

/-- The buffer has entries of the server at `ip`, and all of them have the status. -/
def Records (c : Circular) (ip : CharPtr) (status : Int) : Prop :=
  (∃ entry ∈ c.buffer, entry.ip = ip) ∧ ∀ entry ∈ c.buffer, entry.ip = ip → entry.status = status

/-- The buffer records for each server the status that the pool has for it. -/
def Scheduler.Agrees (s : Scheduler) : Prop :=
  ∀ node ∈ s.serverPool.nodes, Records s.circular node.hostIp node.status

/-- No page holds up the reset, and the weights that it works on ascend and can be summed. -/
structure Scheduler.Rebuilds (s : Scheduler) (page : CharPtr → Page) : Prop where
  noneFails : ∀ node ∈ s.serverPool.nodes, ¬ (page node.hostIp).Fails node
  ascending : s.serverPool.nodes.Pairwise fun a b =>
    (page a.hostIp).weight a ≤ (page b.hostIp).weight b
  fits : (s.serverPool.nodes.map fun node => (page node.hostIp).weight node).sum ≤ intMax

/-- Some page holds up the reset, but what the cycle finds is what the buffer has. -/
structure Scheduler.Unchanged (s : Scheduler) (page : CharPtr → Page) : Prop where
  someFails : ∃ node ∈ s.serverPool.nodes, (page node.hostIp).Fails node
  recorded : ∀ node ∈ s.serverPool.nodes,
    Records s.circular node.hostIp ((page node.hostIp).status node)

section Agreement

variable {s : Scheduler} {page : CharPtr → Page}

/-- A published pattern records the statuses of the pool. -/
theorem records_pattern {pool : ServerPool} (hp : pool.Weighted)
    (hnd : (pool.nodes.map ServerNode.hostIp).Nodup) (c : Circular) :
    Scheduler.Agrees ⟨pool, c.publish (pattern pool.servers)⟩ := by
  intro node hn
  have hmem := fun m => (pattern_machines pool.servers).mem_iff (a := m)
  constructor
  · have hcopy : node.toServer.machine ∈ pool.servers.flatMap Server.copies := by
      refine List.mem_flatMap.2 ⟨_, List.mem_map_of_mem hn, List.mem_replicate.2 ⟨?_, rfl⟩⟩
      have : 1 ≤ node.toServer.weight := hp.weight_pos node hn
      omega
    obtain ⟨entry, he, hm⟩ := List.mem_map.1 ((hmem _).2 hcopy)
    exact ⟨entry, he, congrArg (·.2.1) hm⟩
  · intro entry he hip
    obtain ⟨server, hs, hc⟩ := List.mem_flatMap.1 ((hmem _).1 (List.mem_map_of_mem he))
    obtain ⟨node', hn', rfl⟩ := List.mem_map.1 hs
    have hm := List.eq_of_mem_replicate hc
    have hip' : node'.hostIp = node.hostIp := (congrArg (·.2.1) hm).symm.trans hip
    obtain rfl := List.inj_on_of_nodup_map hnd hn' hn hip'
    exact congrArg (·.2.2) hm

theorem totalWeight_update (nodes : List ServerNode) (page : CharPtr → Page) :
    totalWeight ((nodes.map (Page.update page)).map ServerNode.toServer)
      = (nodes.map fun node => (page node.hostIp).weight node).sum := by
  unfold totalWeight
  rw [List.map_map, List.map_map]
  rfl

theorem ascending_update (nodes : List ServerNode) (page : CharPtr → Page) :
    Exchange.Ascending Server.weight ((nodes.map (Page.update page)).map ServerNode.toServer) ↔
      nodes.Pairwise fun a b => (page a.hostIp).weight a ≤ (page b.hostIp).weight b := by
  unfold Exchange.Ascending
  rw [List.pairwise_map, List.pairwise_map]
  exact Iff.rfl

/-- The pool after a cycle that has found `nodes`. -/
def Scheduler.found (s : Scheduler) (nodes : List ServerNode) : ServerPool :=
  { s.serverPool with nodes := nodes }

/-- The reset of a cycle succeeds when the new weights ascend and can be summed; what it publishes
agrees with the pool. -/
theorem reset_agrees_iff (hp : s.Pooled) {nodes : List ServerNode}
    (hnodes : nodes = s.serverPool.nodes.map (Page.update page))
    (hw : ∀ node ∈ nodes, 1 ≤ node.weight) :
    (∃ fuel t c, resetServers fuel ⟨true, true⟩ s.circular (s.found nodes) s.serverPool.numServers
        = .ok (t, c) ∧ t.isAnError = false ∧ Scheduler.Agrees ⟨s.found nodes, c⟩) ↔
      (s.serverPool.nodes.Pairwise fun a b =>
        (page a.hostIp).weight a ≤ (page b.hostIp).weight b) ∧
      (s.serverPool.nodes.map fun node => (page node.hostIp).weight node).sum ≤ intMax := by
  have hupd := hp.update page s.circular
  rw [← hnodes] at hupd
  have hweighted : (s.found nodes).Weighted :=
    ⟨hupd.numServers_eq, hupd.ne_nil, hw, hupd.status_cases⟩
  have hasc : Exchange.Ascending Server.weight (s.found nodes).servers ↔ s.serverPool.nodes.Pairwise
      fun a b => (page a.hostIp).weight a ≤ (page b.hostIp).weight b := by
    rw [← ascending_update, ← hnodes]
    rfl
  have htot : totalWeight (s.found nodes).servers
      = (s.serverPool.nodes.map fun node => (page node.hostIp).weight node).sum := by
    rw [← totalWeight_update, ← hnodes]
    rfl
  constructor
  · intro ⟨fuel, t, c, hr, ht, _⟩
    obtain ⟨-, ha, hf, -⟩ := resetServers_success hweighted hr ht
    exact ⟨hasc.1 ha, htot ▸ hf⟩
  · intro ⟨hascending, hfits⟩
    have hr := resetServers_of_ascending (c := s.circular) hweighted (hasc.2 hascending)
      (htot ▸ hfits)
    exact ⟨_, _, _, hr, rfl, records_pattern hweighted hupd.ips_nodup _⟩

/-- When the buffer stays, it agrees with the pool if it has what the cycle has found. -/
theorem kept_agrees_iff {nodes : List ServerNode}
    (hnodes : nodes = s.serverPool.nodes.map (Page.update page)) :
    Scheduler.Agrees ⟨s.found nodes, s.circular⟩ ↔
      ∀ node ∈ s.serverPool.nodes,
        Records s.circular node.hostIp ((page node.hostIp).status node) := by
  subst hnodes
  unfold Scheduler.Agrees Scheduler.found
  rw [List.forall_mem_map]
  exact Iff.rfl

/-- **Agreement after a cycle.** In every state that earlier cycles leave, and for every outcome of
a cycle whose weights come out as at least 1: the cycle ends with every server recorded in the
buffer as it is in the pool, exactly when it rebuilds the buffer or finds nothing new. -/
theorem cycle_agrees_iff {nodes : List ServerNode} {proceed : Int} (hs : updates.Reachable s)
    (hscan : scanServers page s.serverPool.numServers s.serverPool.nodes 0 = .ok (nodes, proceed))
    (hw : ∀ node ∈ nodes, 1 ≤ node.weight) :
    (∃ fuel s', updateCycle fuel ⟨true, true⟩ page s = .ok (true, s') ∧ s'.Agrees) ↔
      s.Rebuilds page ∨ s.Unchanged page := by
  have hp := pooled_of_reachable hs
  have hscan' := hscan
  rw [hp.numServers_eq] at hscan'
  obtain ⟨hnodes, -, hproceed⟩ := scanServers_ok hscan'
  have hcycle : ∀ fuel, updateCycle fuel ⟨true, true⟩ page s
      = if proceed = 0 then do
          let (throwable, circular) ← resetServers fuel ⟨true, true⟩ s.circular (s.found nodes)
            s.serverPool.numServers
          .ok (!throwable.isAnError, ⟨s.found nodes, circular⟩)
        else .ok (true, ⟨s.found nodes, s.circular⟩) := by
    intro fuel
    unfold updateCycle
    rw [hscan, Exec.ok_bind]
    rfl
  by_cases h0 : proceed = 0
  · -- no page fails: the reset decides
    have hnone := hproceed.1 h0
    have hreset := reset_agrees_iff hp hnodes hw
    constructor
    · intro ⟨fuel, s', h, ha⟩
      rw [hcycle, if_pos h0] at h
      obtain ⟨⟨t, c⟩, hr, h⟩ := Exec.bind_ok h
      obtain ⟨ht, rfl⟩ := Prod.mk.inj (Except.ok.inj h)
      obtain ⟨hascending, hfits⟩ := hreset.1 ⟨fuel, t, c, hr, by simpa using ht, ha⟩
      exact .inl ⟨hnone, hascending, hfits⟩
    · intro h
      rcases h with h | h
      · obtain ⟨fuel, t, c, hr, ht, ha⟩ := hreset.2 ⟨h.ascending, h.fits⟩
        refine ⟨fuel, _, ?_, ha⟩
        rw [hcycle, if_pos h0, hr, Exec.ok_bind]
        simp only [ht, Bool.not_false]
      · obtain ⟨node, hn, hf⟩ := h.someFails
        exact absurd hf (hnone node hn)
  · -- some page fails: the buffer stays
    have hsome : ∃ node ∈ s.serverPool.nodes, (page node.hostIp).Fails node := by
      by_contra hn
      exact h0 (hproceed.2 fun node hm hf => hn ⟨node, hm, hf⟩)
    constructor
    · intro ⟨fuel, s', h, ha⟩
      rw [hcycle, if_neg h0] at h
      cases h
      exact .inr ⟨hsome, (kept_agrees_iff hnodes).1 ha⟩
    · intro h
      rcases h with h | h
      · obtain ⟨node, hn, hf⟩ := hsome
        exact absurd hf (h.noneFails node hn)
      · refine ⟨0, _, ?_, (kept_agrees_iff hnodes).2 h.recorded⟩
        rw [hcycle, if_neg h0]

/-- Two configured servers, as `init_scheduler` leaves them. -/
def pairScheduler : Scheduler :=
  ⟨pairPool serverStatusReady,
    (newCircular blank).publish (pattern (pairPool serverStatusReady).servers)⟩

theorem reachable_pairScheduler : updates.Reachable pairScheduler :=
  .of_init ⟨2, ⟨true, true⟩, blank, [(1, 2), (3, 4)], by decide, by decide⟩

/-- An error of one of the calls below `apache_score`. -/
def failure : Failure := ⟨.create statusError .errno "retrieve_apache_status", rfl⟩

/-- The first server is down; the second one answers with `page`. -/
def firstDown (page : Page) (ip : CharPtr) : Page := if ip = 2 then .unreachable failure else page

theorem cycle_agrees_firstDown : ∃ fuel s',
    updateCycle fuel ⟨true, true⟩ (firstDown (.parsed 3 1)) pairScheduler = .ok (true, s') ∧
      s'.Agrees :=
  have hscan : scanServers (firstDown (.parsed 3 1)) 2 (pairPool serverStatusReady).nodes 0
      = .ok ([⟨1, 2, serverStatusBroken, 1⟩, ⟨3, 4, serverStatusReady, 3⟩], 0) := by decide
  (cycle_agrees_iff reachable_pairScheduler hscan (by decide)).2
    (Or.inl ⟨by decide, by decide, by decide⟩)

/-- One server is down, and the page of the other one is rejected: the buffer keeps the first one as
READY. -/
theorem down_server_kept : ¬ ∀ s page nodes proceed, updates.Reachable s →
    scanServers page s.serverPool.numServers s.serverPool.nodes 0 = .ok (nodes, proceed) →
    (∀ node ∈ nodes, 1 ≤ node.weight) →
    ∃ fuel s', updateCycle fuel ⟨true, true⟩ page s = .ok (true, s') ∧ s'.Agrees := by
  intro h
  obtain ⟨fuel, s', hc, ha⟩ := h pairScheduler (firstDown (.rejected failure))
    [⟨1, 2, serverStatusBroken, 1⟩, ⟨3, 4, serverStatusReady, 1⟩] (-1) reachable_pairScheduler
    (by decide) (by decide)
  have hres : updateCycle fuel ⟨true, true⟩ (firstDown (.rejected failure)) pairScheduler
      = .ok (true, ⟨⟨[⟨1, 2, serverStatusBroken, 1⟩, ⟨3, 4, serverStatusReady, 1⟩], 2⟩,
          pairScheduler.circular⟩) := rfl
  rw [hres] at hc
  cases hc
  have hbroken := (ha ⟨1, 2, serverStatusBroken, 1⟩ List.mem_cons_self).2
    ⟨1, 2, 1, serverStatusReady⟩ (by decide) rfl
  exact absurd hbroken (by decide)

/-- While the buffer agrees with the pool, a server handed out as READY is READY in the pool. -/
theorem ready_of_agrees (h : s.Agrees) (hp : s.circular.Published) {x : Scan}
    (hx : getServer s.circular.bufferLen s.circular = .ok x)
    (hr : x.serverReady.status = serverStatusReady) :
    ∀ node ∈ s.serverPool.nodes, node.hostIp = x.serverReady.ip →
      node.status = serverStatusReady := by
  intro node hn hip
  obtain ⟨y, hy, -, -, -, entry, he, -, -, hentry⟩ := getServer_spec hp
  rw [hx] at hy
  cases hy
  obtain rfl := hentry hr
  rw [← (h node hn).2 _ he hip.symm, hr]

end Agreement

end Heimdall.Scheduling
