import Mathlib.Data.List.ReduceOption
import Heimdall.Lib.Chain
import Heimdall.Lib.Deal
import Heimdall.RoundRobin.Fairness
import Heimdall.Scheduler.Update

/-!
# The server pool (`server_pool.c`), and the servers in turn

The pool is a list that is linked from `head` on, and `init_scheduler` puts its nodes at the tail.
What the links lead through is then the configuration, in its order (`Holds`), so the linked reset
is the reset of the pool that `Heimdall.Scheduling.initScheduler` works on
(`initScheduler_refines`).

With the weights of `init_scheduler` the buffer has each server once. Until the next reset, calls
of `get_ready_server` hand out the servers in turn (`served_in_turn`). The thread that resets the
buffer later is not a part of `initScheduler`.
-/

namespace Heimdall.Scheduling.Linked

open Heimdall.RoundRobin (Server Circular Mallocs newCircular weightServers getServer pattern
  serverStatusReady)

/-- Where a node is; NULL is `none` of an `Option`. -/
abbrev Addr := Nat

structure ServerNode extends RoundRobin.ServerNode where
  next : Option Addr

structure ServerPool where
  head : Option Addr
  tail : Option Addr
  numServers : Int
  deriving DecidableEq, Repr

structure Memory where
  pool : ServerPool
  node : Addr → ServerNode

namespace Memory

def next (m : Memory) (a : Addr) : Option Addr := (m.node a).next

/-- What the node at `a` holds, but for its link. -/
def server (m : Memory) (a : Addr) : RoundRobin.ServerNode := (m.node a).toServerNode

def setNext (m : Memory) (a : Addr) (v : Option Addr) : Memory :=
  { m with node := Function.update m.node a { m.node a with next := v } }

/-- The fields of the node at `a` are set, its link is left as it is. -/
def setServer (m : Memory) (a : Addr) (v : RoundRobin.ServerNode) : Memory :=
  { m with node := Function.update m.node a { m.node a with toServerNode := v } }

def setHead (m : Memory) (v : Option Addr) : Memory :=
  { m with pool := { m.pool with head := v } }

def setTail (m : Memory) (v : Option Addr) : Memory :=
  { m with pool := { m.pool with tail := v } }

def setNumServers (m : Memory) (v : Int) : Memory :=
  { m with pool := { m.pool with numServers := v } }

end Memory

def initServerPool : ServerPool := ⟨none, none, 0⟩

def addServer (m : Memory) (newNode : Addr) : Exec Memory := do
  let m ←
    match m.pool.head with
    | none => .ok (((m.setHead (some newNode)).setTail (some newNode)).setNext newNode none)
    | some _ =>
      match m.pool.tail with
      | none => .error .nullDeref
      | some tail =>
        .ok (((m.setNext tail (some newNode)).setTail (some newNode)).setNext newNode none)
  let numServers ← checkInt (m.pool.numServers + 1)
  .ok (m.setNumServers numServers)

/-- The entries of the arrays behind `total_server` are not there to be read. -/
structure ServerConfig where
  serversNames : Nat → CharPtr
  serversIp : Nat → CharPtr
  totalServer : Int
  fits : FitsInt totalServer

/-- The canonical name and the ip of the server `i`. -/
def ServerConfig.host (config : ServerConfig) (i : Nat) : CharPtr × CharPtr :=
  (config.serversNames i, config.serversIp i)

/-- What `init_scheduler` stores in the node of the server `i`. -/
def ServerConfig.node (config : ServerConfig) (i : Nat) : RoundRobin.ServerNode :=
  ⟨config.serversNames i, config.serversIp i, serverStatusReady, weightDefault⟩

/-- The blocks that `init_scheduler` asks for: the scheduler, the node of the server `i`, and those
of the reset. `malloc` does not give the same block twice. -/
structure Blocks extends Mallocs where
  scheduler : Bool
  node : Nat → Option Addr
  distinct : ∀ i j a, node i = some a → node j = some a → i = j

/-- The loop of `init_scheduler`, with `k` servers to go, the next one of which is `i`. -/
def addServers (config : ServerConfig) (blocks : Blocks) : Nat → Nat → Memory →
    Exec (Option Memory)
  | 0, _, m => .ok (some m)
  | k + 1, i, m =>
    match blocks.node i with
    | none => .ok none
    | some node => do
      let m ← addServer (m.setServer node (config.node i)) node
      addServers config blocks k (i + 1) m

/-- The copying loop of `reset_servers` at `node`, with `k` servers to go. -/
def copyNodes (m : Memory) : Nat → Option Addr → Exec (List Server)
  | 0, _ => .ok []
  | _ + 1, none => .error .nullDeref
  | k + 1, some node => do
    let servers ← copyNodes m k (m.next node)
    .ok ((m.server node).toServer :: servers)

def resetServers (fuel : Nat) (mallocs : Mallocs) (circular : Circular) (m : Memory)
    (serverNum : Nat) : Exec (Throwable × Circular) :=
  if mallocs.servers then do
    let servers ← copyNodes m m.pool.numServers.toNat m.pool.head
    let (throwable, circular) ← weightServers fuel mallocs.wServers circular servers serverNum
    if throwable.isAnError then .ok (throwable.thrown "reset_servers", circular)
    else .ok (.create statusOk .null "reset_servers", circular)
  else .ok (.create statusError (.text "Memory allocation error!") "reset_servers", circular)

structure Scheduler where
  memory : Memory
  circular : Circular

/-- `init_scheduler`, up to the thread that it may start; `start` and `mem` are what the nodes and
the structure of the buffer happen to contain. -/
def initScheduler (fuel : Nat) (blocks : Blocks) (start : Addr → ServerNode) (mem : Circular)
    (config : ServerConfig) : Exec (Option Scheduler) :=
  if blocks.scheduler then do
    match ← addServers config blocks config.totalServer.toNat 0 ⟨initServerPool, start⟩ with
    | none => .ok none
    | some m => do
      let (throwable, circular) ←
        resetServers fuel blocks.toMallocs (newCircular mem) m m.pool.numServers.toNat
      if throwable.isAnError then .ok none else .ok (some ⟨m, circular⟩)
  else .ok none

/-- `get_ready_server`; `malloc` says whether there is memory for what it returns. The block that
`get_server` asks for in between is there. -/
def getReadyServer (malloc : Bool) (circular : Circular) : Exec (Option Server × Circular) :=
  if malloc then do
    let x ← getServer circular.bufferLen circular
    .ok (some x.serverReady, x.circular)
  else .ok (none, circular)

/-- Calls of `get_ready_server` in a row. -/
def getReadyServers : List Bool → Circular → Exec (List (Option Server) × Circular)
  | [], c => .ok ([], c)
  | malloc :: mallocs, c => do
    let (server, c) ← getReadyServer malloc c
    let (servers, c) ← getReadyServers mallocs c
    .ok (server :: servers, c)

/-! ## The links after a store -/

namespace Memory

variable (m : Memory) (a : Addr) (v : Option Addr) (s : RoundRobin.ServerNode) (k : Int)

@[simp] theorem setNext_pool : (m.setNext a v).pool = m.pool := rfl

@[simp] theorem setNext_next : (m.setNext a v).next = Function.update m.next a v :=
  Function.comp_update ServerNode.next m.node a _

@[simp] theorem setNext_server : (m.setNext a v).server = m.server :=
  (Function.comp_update ServerNode.toServerNode m.node a _).trans
    (Function.update_eq_self a m.server)

@[simp] theorem setServer_pool : (m.setServer a s).pool = m.pool := rfl

@[simp] theorem setServer_next : (m.setServer a s).next = m.next :=
  (Function.comp_update ServerNode.next m.node a _).trans (Function.update_eq_self a m.next)

@[simp] theorem setServer_server : (m.setServer a s).server = Function.update m.server a s :=
  Function.comp_update ServerNode.toServerNode m.node a _

@[simp] theorem setHead_next : (m.setHead v).next = m.next := rfl

@[simp] theorem setHead_server : (m.setHead v).server = m.server := rfl

@[simp] theorem setHead_pool : (m.setHead v).pool = { m.pool with head := v } := rfl

@[simp] theorem setTail_next : (m.setTail v).next = m.next := rfl

@[simp] theorem setTail_server : (m.setTail v).server = m.server := rfl

@[simp] theorem setTail_pool : (m.setTail v).pool = { m.pool with tail := v } := rfl

@[simp] theorem setNumServers_next : (m.setNumServers k).next = m.next := rfl

@[simp] theorem setNumServers_server : (m.setNumServers k).server = m.server := rfl

@[simp] theorem setNumServers_pool :
    (m.setNumServers k).pool = { m.pool with numServers := k } := rfl

end Memory

/-! ## What the links lead through -/

/-- The links lead through the nodes at `xs`, which hold `nodes`. -/
structure Holds (m : Memory) (xs : List Addr) (nodes : List RoundRobin.ServerNode) : Prop where
  forward : Chain m.next m.pool.head xs none
  tail_eq : m.pool.tail = xs.getLast?
  numServers_eq : m.pool.numServers = xs.length
  server_eq : xs.map m.server = nodes

section Pool

variable {m m' : Memory} {xs : List Addr} {nodes : List RoundRobin.ServerNode} {a : Addr}
  {s : RoundRobin.ServerNode}

theorem holds_init (start : Addr → ServerNode) : Holds ⟨initServerPool, start⟩ [] [] :=
  ⟨rfl, rfl, rfl, rfl⟩

/-- What is stored outside of the list does not show in it. -/
theorem map_server_update (ha : a ∉ xs) :
    xs.map (Function.update m.server a s) = xs.map m.server := by
  apply List.map_congr_left
  intro x hx
  apply Function.update_of_ne
  rintro rfl
  exact ha hx

/-- **`add_server`** puts a new node behind the others. -/
theorem addServer_holds (h : Holds m xs nodes) (hnd : xs.Nodup) (ha : a ∉ xs)
    (hfit : (xs.length : Int) + 1 ≤ intMax) :
    ∃ m', addServer (m.setServer a s) a = .ok m' ∧ Holds m' (xs ++ [a]) (nodes ++ [s]) := by
  obtain ⟨hf, htail, hnum, hserver⟩ := h
  have hcheck : checkInt (m.pool.numServers + 1) = .ok (m.pool.numServers + 1) := by
    apply checkInt_of_fits
    refine ⟨?_, by omega⟩
    unfold intMin
    omega
  have hstored : (xs ++ [a]).map (Function.update m.server a s) = nodes ++ [s] := by
    rw [List.map_append, map_server_update ha, hserver, List.map_singleton, Function.update_self]
  have hcount : m.pool.numServers + 1 = (xs ++ [a]).length := by
    rw [hnum, List.length_append, List.length_singleton]
    omega
  unfold addServer
  rcases List.eq_nil_or_concat xs with rfl | ⟨ys, x, rfl⟩
  · have hhead : m.pool.head = none := hf
    simp only [Memory.setServer_pool, hhead, Exec.ok_bind, Memory.setNext_pool,
      Memory.setTail_pool, Memory.setHead_pool, hcheck]
    refine ⟨_, rfl, ?_, ?_, ?_, ?_⟩
    · simp
    · simp
    · simpa using hcount
    · simpa using hstored
  · have hx : x ∉ ys := ((List.nodup_concat ys x).1 hnd).1
    rw [List.concat_eq_append] at *
    obtain ⟨b, hhead⟩ : ∃ b, m.pool.head = some b := by
      rw [hf.head_eq]
      cases ys with
      | nil => exact ⟨x, rfl⟩
      | cons y ys => exact ⟨y, rfl⟩
    have hlast : m.pool.tail = some x := by
      rw [htail, List.getLast?_concat]
    simp only [Memory.setServer_pool, hhead, hlast, Exec.ok_bind, Memory.setNext_pool,
      Memory.setTail_pool, hcheck]
    refine ⟨_, rfl, ?_, ?_, ?_, ?_⟩
    · -- the link of the new node is set after the one that leads to it
      have hax : x ≠ a := by
        rintro rfl
        exact ha (List.mem_append_right _ (List.mem_singleton.2 rfl))
      simp only [Memory.setNumServers_next, Memory.setNext_next, Memory.setTail_next,
        Memory.setServer_next, Memory.setNumServers_pool, Memory.setNext_pool, Memory.setTail_pool,
        Memory.setServer_pool]
      rw [Function.update_comm hax]
      apply Chain.snoc
      · exact hf.update ha none
      · exact hx
      · exact ha
      · exact Function.update_self ..
    · simp
    · simpa using hcount
    · simpa using hstored

/-- A loop of `init_scheduler` that finds memory puts the servers `i, ..., i + k - 1` behind the
others; the induction is on `k`. -/
theorem addServers_holds (config : ServerConfig) (blocks : Blocks) {k i : Nat}
    (h : Holds m xs nodes) (hnd : xs.Nodup)
    (hfresh : ∀ j, i ≤ j → ∀ a, blocks.node j = some a → a ∉ xs)
    (hfit : (xs.length : Int) + k ≤ intMax) :
    (addServers config blocks k i m = .ok none ∧ ∃ j, j < i + k ∧ blocks.node j = none) ∨
      ∃ m' xs', addServers config blocks k i m = .ok (some m') ∧
        Holds m' xs' (nodes ++ (List.range' i k).map config.node) := by
  induction k generalizing i m xs nodes with
  | zero =>
    refine .inr ⟨m, xs, rfl, ?_⟩
    rwa [List.range'_zero, List.map_nil, List.append_nil]
  | succ k ih =>
    cases hnode : blocks.node i with
    | none =>
      refine .inl ⟨?_, i, by omega, hnode⟩
      rw [addServers, hnode]
    | some a =>
      have ha := hfresh i (Nat.le_refl i) a hnode
      obtain ⟨m₁, hadd, h₁⟩ := addServer_holds (s := config.node i) h hnd ha (by omega)
      have hnd₁ : (xs ++ [a]).Nodup := by
        rw [← List.concat_eq_append]
        exact List.Nodup.concat ha hnd
      have hfresh₁ : ∀ j, i + 1 ≤ j → ∀ b, blocks.node j = some b → b ∉ xs ++ [a] := by
        intro j hj b hb hmem
        rcases List.mem_append.1 hmem with hmem | hmem
        · exact hfresh j (by omega) b hb hmem
        · rw [List.mem_singleton.1 hmem] at hb
          have hij := blocks.distinct j i a hb hnode
          omega
      have hfit₁ : ((xs ++ [a]).length : Int) + k ≤ intMax := by
        rw [List.length_append, List.length_singleton]
        omega
      rw [addServers, hnode]
      simp only [hadd, Exec.ok_bind]
      rcases ih h₁ hnd₁ hfresh₁ hfit₁ with ⟨hnone, j, hj, hjn⟩ | ⟨m', xs', hsome, hholds⟩
      · exact .inl ⟨hnone, j, by omega, hjn⟩
      · refine .inr ⟨m', xs', hsome, ?_⟩
        rwa [List.range'_succ, List.map_cons, List.append_cons]

/-- The copying loop follows the links. -/
theorem copyNodes_chain {p : Option Addr} (h : Chain m.next p xs none) :
    copyNodes m xs.length p = .ok ((xs.map m.server).map RoundRobin.ServerNode.toServer) := by
  induction xs generalizing p with
  | nil => rfl
  | cons x xs ih =>
    obtain ⟨rfl, hxs⟩ := h
    rw [List.length_cons, copyNodes, ih hxs, Exec.ok_bind]
    rfl

/-- The pool that the links lead through. -/
def listed (nodes : List RoundRobin.ServerNode) : RoundRobin.ServerPool := ⟨nodes, nodes.length⟩

/-- **The linked reset** is the reset of the pool that the links lead through. -/
theorem resetServers_eq (h : Holds m xs nodes) (fuel : Nat) (mallocs : Mallocs) (c : Circular)
    (n : Nat) :
    resetServers fuel mallocs c m n = RoundRobin.resetServers fuel mallocs c (listed nodes) n := by
  obtain ⟨hf, -, hnum, hserver⟩ := h
  have hcopy := copyNodes_chain hf
  rw [hserver, ← RoundRobin.copyNodes_length] at hcopy
  unfold resetServers RoundRobin.resetServers
  rw [hnum, Int.toNat_natCast, hcopy]
  rfl

end Pool

section Init

variable {config : ServerConfig} {blocks : Blocks} {start : Addr → ServerNode} {mem : Circular}
  {fuel : Nat} {s : Scheduler}

/-- The configured servers, as `init_scheduler` reads them. -/
def ServerConfig.configured (config : ServerConfig) : List (CharPtr × CharPtr) :=
  (List.range config.totalServer.toNat).map config.host

/-- The nodes of the pool, in the order of the configuration. -/
def ServerConfig.nodes (config : ServerConfig) : List RoundRobin.ServerNode :=
  (List.range config.totalServer.toNat).map config.node

theorem map_configured (config : ServerConfig) : config.configured.map
    (fun s => (⟨s.1, s.2, serverStatusReady, weightDefault⟩ : RoundRobin.ServerNode))
      = config.nodes := by
  unfold ServerConfig.configured ServerConfig.nodes
  rw [List.map_map]
  rfl

/-- The blocks for the servers of a configuration are all there. -/
structure Blocks.Complete (blocks : Blocks) (config : ServerConfig) : Prop where
  scheduler_eq : blocks.scheduler = true
  reset_eq : blocks.toMallocs = ⟨true, true⟩
  node_ne : ∀ i, i < config.totalServer.toNat → blocks.node i ≠ none

/-- The loop of `init_scheduler` lists the configuration, or some node finds no memory. -/
theorem addServers_config (config : ServerConfig) (blocks : Blocks) (start : Addr → ServerNode) :
    (addServers config blocks config.totalServer.toNat 0 ⟨initServerPool, start⟩ = .ok none ∧
        ¬ blocks.Complete config) ∨
      ∃ m xs, addServers config blocks config.totalServer.toNat 0 ⟨initServerPool, start⟩
        = .ok (some m) ∧ Holds m xs config.nodes := by
  have hfit : (([] : List Addr).length : Int) + config.totalServer.toNat ≤ intMax := by
    have hmax := config.fits.2
    have hpos : (0 : Int) ≤ intMax := by decide
    rw [List.length_nil]
    omega
  rcases addServers_holds config blocks (i := 0) (holds_init start) List.nodup_nil
      (fun _ _ _ _ => List.not_mem_nil) hfit with
    ⟨hnone, j, hj, hjn⟩ | ⟨m, xs, hsome, hholds⟩
  · refine .inl ⟨hnone, fun hc => hc.node_ne j (by omega) hjn⟩
  · refine .inr ⟨m, xs, hsome, ?_⟩
    rwa [List.nil_append, ← List.range_eq_range'] at hholds

/-- **The pool refines its list**: once the links lead through the configuration, `init_scheduler`
does what it does on the list of the servers. -/
theorem initScheduler_refines {m : Memory} {xs : List Addr} (hb : blocks.scheduler = true)
    (hadd : addServers config blocks config.totalServer.toNat 0 ⟨initServerPool, start⟩
      = .ok (some m))
    (h : Holds m xs config.nodes) (fuel : Nat) (mem : Circular) :
    initScheduler fuel blocks start mem config
      = (Scheduling.initScheduler fuel blocks.toMallocs mem config.configured).map
          (Option.map fun s => ⟨m, s.circular⟩) := by
  unfold initScheduler Scheduling.initScheduler
  rw [if_pos hb, hadd, Exec.ok_bind]
  simp only [map_configured, resetServers_eq h]
  have hnum : m.pool.numServers.toNat = config.nodes.length := by
    rw [h.numServers_eq, ← h.server_eq, List.length_map]
    rfl
  rw [hnum, listed]
  generalize RoundRobin.resetServers fuel blocks.toMallocs (newCircular mem)
    ⟨config.nodes, config.nodes.length⟩ config.nodes.length = r
  cases r with
  | error e => rfl
  | ok r =>
    obtain ⟨t, c⟩ := r
    simp only [Exec.ok_bind]
    by_cases ht : t.isAnError = true
    · rw [if_pos ht, if_pos ht]
      rfl
    · rw [if_neg ht, if_neg ht]
      rfl

/-- The list that `init_scheduler` works on is a pool of READY servers of weight 1. -/
theorem weighted_listed (hn : 1 ≤ config.totalServer) : (listed config.nodes).Weighted := by
  have hmem : ∀ node ∈ config.nodes, node.weight = 1 ∧ node.status = serverStatusReady := by
    intro node hnode
    obtain ⟨i, -, rfl⟩ := List.mem_map.1 hnode
    exact ⟨rfl, rfl⟩
  refine ⟨rfl, ?_, ?_, ?_⟩
  · intro hnil
    have hlen := congrArg List.length hnil
    simp only [listed, ServerConfig.nodes, List.length_map, List.length_range,
      List.length_nil] at hlen
    omega
  · intro node hnode
    rw [(hmem node hnode).1]
  · intro node hnode
    exact .inl (hmem node hnode).2

/-- The entries for the configured servers. -/
def ServerConfig.servers (config : ServerConfig) : List Server := (listed config.nodes).servers

theorem ServerConfig.length_servers (config : ServerConfig) :
    config.servers.length = config.totalServer.toNat := by
  simp [ServerConfig.servers, RoundRobin.ServerPool.servers, listed, ServerConfig.nodes]

theorem ServerConfig.getElem?_servers {i : Nat} (hi : i < config.totalServer.toNat) :
    config.servers[i]? = some (config.node i).toServer := by
  simp [ServerConfig.servers, RoundRobin.ServerPool.servers, listed, ServerConfig.nodes, hi]

theorem ServerConfig.weight_eq : ∀ s ∈ config.servers, s.weight = 1 := by
  intro s hs
  obtain ⟨node, hnode, rfl⟩ := List.mem_map.1 hs
  obtain ⟨i, -, rfl⟩ := List.mem_map.1 hnode
  rfl

theorem ServerConfig.status_eq : ∀ s ∈ config.servers, s.status = serverStatusReady := by
  intro s hs
  obtain ⟨node, hnode, rfl⟩ := List.mem_map.1 hs
  obtain ⟨i, -, rfl⟩ := List.mem_map.1 hnode
  rfl

theorem ServerConfig.servers_ne_nil (hn : 1 ≤ config.totalServer) : config.servers ≠ [] :=
  (weighted_listed hn).servers_ne_nil

/-- On the list of the servers, `init_scheduler` publishes their entries in their order. -/
theorem circular_of_listed {mallocs : Mallocs} {t : Scheduling.Scheduler}
    (hn : 1 ≤ config.totalServer)
    (h : Scheduling.initScheduler fuel mallocs mem config.configured = .ok (some t)) :
    t.circular = (newCircular mem).publish config.servers := by
  rw [Scheduling.initScheduler, map_configured] at h
  obtain ⟨⟨throwable, c⟩, hreset, h⟩ := Exec.bind_ok h
  simp only at h
  by_cases ht : throwable.isAnError = true
  · rw [if_pos ht] at h
    cases h
  · rw [if_neg ht] at h
    cases h
    obtain ⟨-, -, -, rfl⟩ := RoundRobin.resetServers_success (weighted_listed hn) hreset
      (Bool.eq_false_iff.2 ht)
    change (newCircular mem).publish (pattern config.servers) = _
    rw [RoundRobin.pattern_of_weight_one config.weight_eq (config.servers_ne_nil hn)]

/-- **What `init_scheduler` publishes.** -/
theorem circular_of_init (hn : 1 ≤ config.totalServer)
    (h : initScheduler fuel blocks start mem config = .ok (some s)) :
    s.circular = (newCircular mem).publish config.servers := by
  cases hb : blocks.scheduler with
  | false =>
    rw [initScheduler, hb] at h
    cases h
  | true =>
    rcases addServers_config config blocks start with ⟨hnone, -⟩ | ⟨m, xs, hsome, hholds⟩
    · rw [initScheduler, if_pos hb, hnone] at h
      cases h
    · rw [initScheduler_refines hb hsome hholds] at h
      cases hlist : Scheduling.initScheduler fuel blocks.toMallocs mem config.configured with
      | error e =>
        rw [hlist] at h
        cases h
      | ok r =>
        rw [hlist] at h
        cases r with
        | none => cases h
        | some t =>
          cases h
          exact circular_of_listed hn hlist

/-- With memory for all that it asks for, `init_scheduler` succeeds. -/
theorem initScheduler_complete (hn : 1 ≤ config.totalServer) (hc : blocks.Complete config)
    (start : Addr → ServerNode) (mem : Circular) :
    ∃ fuel s, initScheduler fuel blocks start mem config = .ok (some s) := by
  have hfit : RoundRobin.totalWeight config.servers ≤ intMax := by
    have hmax := config.fits.2
    rw [RoundRobin.totalWeight_of_weight_one config.weight_eq, config.length_servers]
    omega
  have hreset : RoundRobin.resetServers
      (RoundRobin.maxWeight config.servers * config.servers.length) ⟨true, true⟩ (newCircular mem)
      (listed config.nodes) config.nodes.length = .ok (.create statusOk .null "reset_servers",
        (newCircular mem).publish (pattern config.servers)) :=
    RoundRobin.resetServers_of_ascending (weighted_listed hn)
      (RoundRobin.ascending_of_weight_one config.weight_eq) hfit
  rcases addServers_config config blocks start with ⟨-, hnot⟩ | ⟨m, xs, hsome, hholds⟩
  · exact absurd hc hnot
  · refine ⟨RoundRobin.maxWeight config.servers * config.servers.length,
      ⟨m, (newCircular mem).publish (pattern config.servers)⟩, ?_⟩
    rw [initScheduler_refines hc.scheduler_eq hsome hholds, hc.reset_eq, Scheduling.initScheduler,
      map_configured]
    change Except.map _ (RoundRobin.resetServers _ _ _ (listed config.nodes)
      config.nodes.length >>= _) = _
    rw [hreset]
    rfl

end Init

/-! ## Calls of `get_ready_server` -/

section Calls

variable {c : Circular}

/-- With all entries READY, each call that finds memory takes the next entry of the walk. -/
theorem getReadyServers_allReady (h : c.Published)
    (hall : ∀ s ∈ c.buffer, s.status = serverStatusReady) (mallocs : List Bool) (j : Nat) :
    ∃ returned, getReadyServers mallocs (c.walk j)
        = .ok (returned, c.walk (j + mallocs.count true)) ∧
      returned.map Option.isSome = mallocs ∧ returned.reduceOption.map some
        = (List.range (mallocs.count true)).map fun k => c.buffer[c.look (j + k)]? := by
  induction mallocs generalizing j with
  | nil => exact ⟨[], rfl, rfl, rfl⟩
  | cons malloc mallocs ih =>
    cases malloc with
    | false =>
      obtain ⟨returned, hrun, hsome, hmap⟩ := ih j
      refine ⟨none :: returned, ?_, ?_, ?_⟩
      · rw [getReadyServers, getReadyServer, if_neg Bool.false_ne_true, Exec.ok_bind]
        simp only [hrun, Exec.ok_bind]
        rfl
      · rw [List.map_cons, hsome]
        rfl
      · exact hmap
    | true =>
      obtain ⟨s, hs, hget⟩ := RoundRobin.getServer_allReady h hall j
      obtain ⟨returned, hrun, hsome, hmap⟩ := ih (j + 1)
      have hcount : (true :: mallocs).count true = mallocs.count true + 1 := List.count_cons_self
      refine ⟨some s :: returned, ?_, ?_, ?_⟩
      · rw [getReadyServers, getReadyServer, if_pos rfl, hget, Exec.ok_bind]
        simp only [Exec.ok_bind, hrun]
        rw [hcount, Nat.add_right_comm, Nat.add_assoc]
      · rw [List.map_cons, hsome]
        rfl
      · rw [List.reduceOption_cons_of_some, List.map_cons, hmap, hcount, List.range_succ_eq_map,
          List.map_cons, List.map_map]
        refine congrArg₂ _ hs.symm (List.map_congr_left fun k _ => ?_)
        simp only [Function.comp, Nat.succ_eq_add_one]
        rw [Nat.add_right_comm, Nat.add_assoc]

/-- The numbers of the servers, for calls in a row. -/
theorem look_publish (buffer : List Server) (mem : Circular) (k : Nat) :
    ((newCircular mem).publish buffer).look k = k % buffer.length := by
  unfold Circular.look
  split
  · rename_i hk
    rw [hk, Nat.zero_mod]
    rfl
  · change (0 + k) % buffer.length = _
    rw [Nat.zero_add]

/-- Who the entry is for. -/
def host (s : Server) : CharPtr × CharPtr := (s.address, s.ip)

/-- In any sequence of calls of `get_ready_server`, those that find memory, and no others, return a
server. They return the servers in turn, so that no server gets more than one connection more than
any other. -/
def InTurn (config : ServerConfig) (c : Circular) : Prop :=
  ∀ mallocs, ∃ returned c', getReadyServers mallocs c = .ok (returned, c') ∧
    returned.map Option.isSome = mallocs ∧
    returned.reduceOption.map host
      = (turns config.totalServer.toNat (mallocs.count true)).map config.host ∧
    ∀ i j, i < config.totalServer.toNat → j < config.totalServer.toNat →
      (turns config.totalServer.toNat (mallocs.count true)).count j
        ≤ (turns config.totalServer.toNat (mallocs.count true)).count i + 1

theorem inTurn_publish {config : ServerConfig} (hn : 1 ≤ config.totalServer) (mem : Circular) :
    InTurn config ((newCircular mem).publish config.servers) := by
  intro mallocs
  have hne := config.servers_ne_nil hn
  obtain ⟨returned, hrun, hsome, hmap⟩ := getReadyServers_allReady
    (RoundRobin.publish_published (c := newCircular mem) hne) config.status_eq mallocs 0
  refine ⟨returned, _, hrun, hsome, ?_, fun i j hi _ => Deal.turns_balanced hi⟩
  have hmap' : returned.reduceOption.map some
      = (turns config.totalServer.toNat (mallocs.count true)).map
          fun i => some (config.node i).toServer := by
    rw [hmap, turns, List.map_map]
    apply List.map_congr_left
    intro k _
    have hlt : k % config.totalServer.toNat < config.totalServer.toNat :=
      Nat.mod_lt _ (by omega)
    rw [Nat.zero_add, look_publish, config.length_servers]
    exact config.getElem?_servers hlt
  have hservers : returned.reduceOption
      = (turns config.totalServer.toNat (mallocs.count true)).map
          fun i => (config.node i).toServer := by
    apply List.map_injective_iff.2 (Option.some_injective Server)
    rw [hmap', List.map_map]
    rfl
  rw [hservers, List.map_map]
  rfl

/-- **The servers in turn.** With memory for what it asks for, `init_scheduler` succeeds; and after
every `init_scheduler` that succeeds, until the next reset, the servers are handed out in turn. -/
theorem served_in_turn (config : ServerConfig) (blocks : Blocks) (start : Addr → ServerNode)
    (mem : Circular) (hn : 1 ≤ config.totalServer) :
    (blocks.Complete config →
      ∃ fuel s, initScheduler fuel blocks start mem config = .ok (some s)) ∧
    ∀ fuel s, initScheduler fuel blocks start mem config = .ok (some s) →
      InTurn config s.circular := by
  constructor
  · intro hc
    exact initScheduler_complete hn hc start mem
  · intro fuel s h
    rw [circular_of_init hn h]
    exact inTurn_publish hn mem

/-- Three servers. -/
def threeServers : ServerConfig := ⟨fun i => 1 + i, fun i => 11 + i, 3, by decide⟩

/-- There is memory, and the node of the server `i` gets the address `100 + i`. -/
def plenty : Blocks where
  servers := true
  wServers := true
  scheduler := true
  node := fun i => some (100 + i)
  distinct := by
    intro i j a hi hj
    exact Nat.add_left_cancel (Option.some.inj (hi.trans hj.symm))

theorem served_in_turn_three : ∃ fuel s returned c',
    initScheduler fuel plenty (fun _ => ⟨⟨0, 0, 0, 0⟩, none⟩) RoundRobin.blank threeServers
      = .ok (some s) ∧
    getReadyServers [true, true, true, true] s.circular = .ok (returned, c') ∧
    returned.reduceOption.map host = [(1, 11), (2, 12), (3, 13), (1, 11)] := by
  obtain ⟨hinit, hturn⟩ := served_in_turn threeServers plenty (fun _ => ⟨⟨0, 0, 0, 0⟩, none⟩)
    RoundRobin.blank (by decide)
  obtain ⟨fuel, s, h⟩ := hinit ⟨rfl, rfl, fun _ _ => Option.some_ne_none _⟩
  obtain ⟨returned, c', hrun, -, hhost, -⟩ := hturn fuel s h [true, true, true, true]
  exact ⟨fuel, s, returned, c', h, hrun, hhost⟩

end Calls

end Heimdall.Scheduling.Linked
