import Heimdall.Scheduler.ServerPool

/-!
# Servers that leave the pool

`delete_server` looks from `head` on for the node whose link leads to the one that is to go. Before
the head there is no such node, so to delete it the search runs off the list (`findPrev_head`). Any
other node is taken out of the links, and the tail is moved where it has to be
(`deleteServer_links`). But the number of servers stays what it was.

So a sequence of calls leaves the pool right exactly when nothing is deleted in it
(`poolCalls_correct`).
-/

namespace Heimdall.Scheduling.Linked

/-- The search of `delete_server` for the node before `delNode`. -/
def findPrev (m : Memory) (delNode : Addr) : Nat → Option Addr → Exec Addr
  | 0, _ => .error .fuel
  | _ + 1, none => .error .nullDeref
  | n + 1, some server =>
    if m.next server = some delNode then .ok server else findPrev m delNode n (m.next server)

/-- `delete_server`, up to the `free` of the node. -/
def deleteServer (fuel : Nat) (m : Memory) (delNode : Addr) : Exec Memory := do
  let server ← findPrev m delNode fuel m.pool.head
  let m := if m.pool.tail = some delNode then m.setTail (some server) else m
  .ok (m.setNext server (m.next delNode))

/-- A call on the pool: the node at `a`, with its fields set, is added, or it is deleted. -/
inductive PoolCall
  | add (a : Addr) (s : RoundRobin.ServerNode)
  | delete (a : Addr)

namespace PoolCall

def isAdd : PoolCall → Bool
  | add _ _ => true
  | delete _ => false

def run (fuel : Nat) (m : Memory) : PoolCall → Exec Memory
  | add a s => addServer (m.setServer a s) a
  | delete a => deleteServer fuel m a

/-- The nodes that ought to be in the pool after the call, when those at `xs` have been before. -/
def after (xs : List Addr) : PoolCall → List Addr
  | add a _ => xs ++ [a]
  | delete a => xs.erase a

end PoolCall

/-- Fresh nodes are added, and members are deleted. -/
def Allowed : List Addr → List PoolCall → Prop
  | _, [] => True
  | xs, .add a s :: calls => a ∉ xs ∧ Allowed (PoolCall.after xs (.add a s)) calls
  | xs, .delete a :: calls => a ∈ xs ∧ Allowed (PoolCall.after xs (.delete a)) calls

/-- The pool is the list of the nodes at `xs`, and a loop over as many nodes as it says stays on
it. -/
structure Lists (m : Memory) (xs : List Addr) : Prop where
  holds : Holds m xs (xs.map m.server)
  walk : ∃ servers, copyNodes m m.pool.numServers.toNat m.pool.head = .ok servers

/-- The pool is right, and so it is after each of the calls, all of which return. -/
def Correct (m : Memory) (xs : List Addr) : List PoolCall → Prop
  | [] => Lists m xs
  | call :: calls =>
    Lists m xs ∧ ∃ fuel m', call.run fuel m = .ok m' ∧ Correct m' (call.after xs) calls

/-! ## What `delete_server` does -/

section Delete

variable {m m' : Memory} {xs ys : List Addr} {a b : Addr} {p : Option Addr} {fuel : Nat}

/-- The search stops at the node before. -/
theorem findPrev_chain (h : Chain m.next p (xs ++ a :: b :: ys) none)
    (hnd : (xs ++ a :: b :: ys).Nodup) (hfuel : xs.length < fuel) :
    findPrev m b fuel p = .ok a := by
  induction xs generalizing p fuel with
  | nil =>
    obtain ⟨n, rfl⟩ := Nat.exists_eq_succ_of_ne_zero (Nat.pos_iff_ne_zero.1 hfuel)
    obtain ⟨rfl, hnext, -⟩ := h
    rw [findPrev, if_pos hnext]
  | cons x xs ih =>
    obtain ⟨n, rfl⟩ := Nat.exists_eq_succ_of_ne_zero (Nat.ne_zero_of_lt hfuel)
    obtain ⟨rfl, hrest⟩ := h
    rw [List.cons_append, List.nodup_cons] at hnd
    have hne : m.next x ≠ some b := by
      rw [hrest.head_eq]
      intro hb
      cases xs with
      | nil =>
        obtain rfl : a = b := Option.some.inj hb
        simp at hnd
      | cons y xs =>
        obtain rfl : y = b := Option.some.inj hb
        simp at hnd
    rw [findPrev, if_neg hne]
    exact ih hrest hnd.2 (Nat.lt_of_succ_lt_succ hfuel)

/-- No node of the list comes before the first one, so the search for it does not return. -/
theorem findPrev_head (h : Chain m.next p xs none) (ha : a ∉ xs.tail) (fuel : Nat) :
    ∃ e, findPrev m a fuel p = .error e := by
  induction xs generalizing p fuel with
  | nil =>
    obtain rfl : p = none := h
    cases fuel with
    | zero => exact ⟨.fuel, rfl⟩
    | succ n => exact ⟨.nullDeref, rfl⟩
  | cons x xs ih =>
    obtain ⟨rfl, hrest⟩ := h
    cases fuel with
    | zero => exact ⟨.fuel, rfl⟩
    | succ n =>
      have hne : m.next x ≠ some a := by
        rw [hrest.head_eq]
        intro hx
        cases xs with
        | nil => cases hx
        | cons y ys =>
          obtain rfl : y = a := Option.some.inj hx
          exact ha List.mem_cons_self
      rw [findPrev, if_neg hne]
      exact ih hrest (fun hmem => ha (List.mem_of_mem_tail hmem)) n

/-- **A node behind the head** is taken out: the links and the tail are right then, and the number
of servers is one too many. -/
theorem deleteServer_links (h : Holds m (xs ++ a :: b :: ys) ((xs ++ a :: b :: ys).map m.server))
    (hnd : (xs ++ a :: b :: ys).Nodup) :
    ∃ fuel m', deleteServer fuel m b = .ok m' ∧ Chain m'.next m'.pool.head (xs ++ a :: ys) none ∧
      m'.pool.tail = (xs ++ a :: ys).getLast? ∧ m'.server = m.server ∧
      m'.pool.numServers = (xs ++ a :: ys).length + 1 := by
  have hprev := findPrev_chain h.forward hnd (Nat.lt_succ_self xs.length)
  have ha : a ∉ xs ∧ a ∉ ys := by
    rw [List.nodup_append] at hnd
    refine ⟨fun hmem => hnd.2.2 a hmem a List.mem_cons_self rfl, fun hmem => ?_⟩
    exact (List.nodup_cons.1 hnd.2.1).1 (List.mem_cons_of_mem b hmem)
  have hlinks := h.forward.unlink ha.1 ha.2
  have hnum : m.pool.numServers = (xs ++ a :: ys).length + 1 := by
    rw [h.numServers_eq]
    simp
    omega
  refine ⟨xs.length + 1, _, by unfold deleteServer; rw [hprev]; rfl, ?_⟩
  have htail := h.tail_eq
  cases ys with
  | nil =>
    have hlast : m.pool.tail = some b := by
      rw [htail]
      simp
    simp only [if_pos hlast]
    exact ⟨by simpa using hlinks, by simp, by simp, hnum⟩
  | cons y ys =>
    have hlast : m.pool.tail ≠ some b := by
      rw [htail]
      intro hb
      have hmem : b ∈ y :: ys := by
        apply List.mem_of_getLast?
        simpa [List.getLast?_append] using hb
      rw [List.nodup_append] at hnd
      exact (List.nodup_cons.1 (List.nodup_cons.1 hnd.2.1).2).1 hmem
    simp only [if_neg hlast]
    exact ⟨by simpa using hlinks, by simp [htail, List.getLast?_append], by simp, hnum⟩

/-- **No member is deleted rightly**: the call does not return, or the pool still counts it. -/
theorem deleteServer_wrong (h : Lists m xs) (hb : b ∈ xs)
    (hrun : deleteServer fuel m b = .ok m') : ¬ Lists m' (xs.erase b) := by
  intro h'
  have hnum : m'.pool.numServers = m.pool.numServers := by
    unfold deleteServer at hrun
    obtain ⟨server, -, hrun⟩ := Exec.bind_ok hrun
    cases hrun
    split <;> rfl
  rw [h'.holds.numServers_eq, h.holds.numServers_eq, List.length_erase_of_mem hb] at hnum
  have hpos : 0 < xs.length := List.length_pos_of_mem hb
  omega

/-- What a call of `add_server` returns from fits. -/
theorem addServer_fits (h : addServer m a = .ok m') : m.pool.numServers + 1 ≤ intMax := by
  unfold addServer at h
  cases hhead : m.pool.head with
  | none =>
    simp only [hhead, Exec.ok_bind] at h
    obtain ⟨n, hn, -⟩ := Exec.bind_ok h
    exact (checkInt_ok hn).2.2
  | some head =>
    simp only [hhead] at h
    cases htail : m.pool.tail with
    | none =>
      simp only [htail] at h
      cases h
    | some tail =>
      simp only [htail, Exec.ok_bind] at h
      obtain ⟨n, hn, -⟩ := Exec.bind_ok h
      exact (checkInt_ok hn).2.2

end Delete

/-! ## Sequences of calls -/

section Calls

variable {m : Memory} {xs : List Addr} {nodes : List RoundRobin.ServerNode}

theorem Holds.lists (h : Holds m xs nodes) : Lists m xs := by
  have hserver := h.server_eq
  subst hserver
  refine ⟨h, ?_⟩
  rw [h.numServers_eq, Int.toNat_natCast]
  exact ⟨_, copyNodes_chain h.forward⟩

/-- From a pool that is right. The induction is on the calls; the first one that deletes ends it. -/
theorem correct_iff (h : Lists m xs) (hnd : xs.Nodup) (hlen : (xs.length : Int) ≤ intMax)
    (calls : List PoolCall) (hcalls : Allowed xs calls) :
    Correct m xs calls ↔
      (∀ call ∈ calls, call.isAdd = true) ∧ (xs.length : Int) + calls.length ≤ intMax := by
  induction calls generalizing m xs with
  | nil =>
    exact iff_of_true h ⟨fun call hcall => absurd hcall List.not_mem_nil, by simpa using hlen⟩
  | cons call calls ih =>
    rw [List.forall_mem_cons, List.length_cons]
    cases call with
    | delete b =>
      refine iff_of_false ?_ fun hall => Bool.noConfusion hall.1.1
      rintro ⟨-, fuel, m', hrun, hrest⟩
      refine deleteServer_wrong h hcalls.1 hrun ?_
      cases calls with
      | nil => exact hrest
      | cons _ _ => exact hrest.1
    | add a s =>
      by_cases hfit : (xs.length : Int) + 1 ≤ intMax
      · obtain ⟨m', hadd, hholds⟩ := addServer_holds (s := s) h.holds hnd hcalls.1 hfit
        have hnd' : (xs ++ [a]).Nodup := by
          rw [← List.concat_eq_append]
          exact List.Nodup.concat hcalls.1 hnd
        have hlen' : ((xs ++ [a]).length : Int) = xs.length + 1 := by simp
        have hrest := ih hholds.lists hnd' (hlen' ▸ hfit) hcalls.2
        have hstep : Correct m xs (.add a s :: calls) ↔ Correct m' (xs ++ [a]) calls := by
          constructor
          · rintro ⟨-, fuel, m'', hrun, hcorrect⟩
            obtain rfl := Except.ok.inj (hadd.symm.trans hrun)
            exact hcorrect
          · intro hcorrect
            exact ⟨h, 0, m', hadd, hcorrect⟩
        rw [hstep, hrest, hlen']
        constructor
        · rintro ⟨hall, hle⟩
          exact ⟨⟨rfl, hall⟩, by push_cast; omega⟩
        · rintro ⟨⟨-, hall⟩, hle⟩
          exact ⟨hall, by push_cast at hle; omega⟩
      · refine iff_of_false ?_ ?_
        · rintro ⟨-, fuel, m', hrun, -⟩
          have hle := addServer_fits hrun
          rw [Memory.setServer_pool, h.holds.numServers_eq] at hle
          exact hfit hle
        · rintro ⟨-, hle⟩
          push_cast at hle
          omega

/-- **The pool is right after every call, and every call returns**, exactly when no server is
deleted and the number of servers fits in an `int`. -/
theorem poolCalls_correct (start : Addr → ServerNode) (calls : List PoolCall)
    (h : Allowed [] calls) :
    Correct ⟨initServerPool, start⟩ [] calls ↔
      (∀ call ∈ calls, call.isAdd = true) ∧ (calls.length : Int) ≤ intMax := by
  have hiff := correct_iff (holds_init start).lists List.nodup_nil (by decide) calls h
  simpa using hiff

/-- Three servers are added. -/
theorem poolCalls_correct_three :
    Correct ⟨initServerPool, fun _ => ⟨⟨0, 0, 0, 0⟩, none⟩⟩ []
      [.add 1 ⟨0, 0, 0, 0⟩, .add 2 ⟨0, 0, 0, 0⟩, .add 3 ⟨0, 0, 0, 0⟩] :=
  (poolCalls_correct _ _ (by simp [Allowed, PoolCall.after])).2
    ⟨by simp [PoolCall.isAdd], by decide⟩

/-- The only server is deleted again. -/
theorem poolCalls_delete_only : ¬ ∀ start calls, Allowed [] calls →
    Correct ⟨initServerPool, start⟩ [] calls := by
  intro hall
  obtain ⟨-, fuel, m, hadd, -, fuel', m', hdelete, -⟩ :=
    hall (fun _ => ⟨⟨0, 0, 0, 0⟩, none⟩) [.add 1 ⟨0, 0, 0, 0⟩, .delete 1]
      (by simp [Allowed, PoolCall.after])
  cases hadd
  unfold PoolCall.run deleteServer at hdelete
  obtain ⟨server, hprev, -⟩ := Exec.bind_ok hdelete
  rcases fuel' with _ | _ | n
  · cases hprev
  · cases hprev
  · cases hprev

end Calls

end Heimdall.Scheduling.Linked
