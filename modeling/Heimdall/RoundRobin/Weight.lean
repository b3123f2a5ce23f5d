import Heimdall.Lib.Exchange
import Heimdall.RoundRobin.Circular

/-!
# `weight_servers`

The loop nest sorts the servers by weight and sums the weights up (`sortServers`); the loop after it
makes the pattern, one round over the servers after the other (`patternPass`).

The sum is taken from the server that stands in front when its round of the exchange sort begins,
which is not the one that the round leaves there. With weights of at least 1 the sum is therefore
right only for servers that are already in ascending order, and any other order asks for more
entries than the rounds can make: `weight_servers` succeeds on ascending servers only
(`weightServers_success`, `weightServers_of_ascending`).
-/

namespace Heimdall.RoundRobin

/-- The outer loop with `k` rounds left, on the servers from `i` on. -/
def sortServers : Nat → Int → List Server → Exec (Int × List Server)
  | _, _, [] => .error .outOfBounds
  | 0, weightSum, server :: rest => do
    let weightSum ← checkInt (weightSum + server.weight)
    .ok (weightSum, server :: rest)
  | k + 1, weightSum, server :: rest => do
    -- the weight is added before the inner loop may exchange the server
    let weightSum ← checkInt (weightSum + server.weight)
    let (weightSum, sorted) ← sortServers k weightSum (Exchange.sweep Server.weight server rest).2
    .ok (weightSum, (Exchange.sweep Server.weight server rest).1 :: sorted)

/-- The state of the pattern loop; `w` is the number of entries written. -/
structure Pattern where
  servers : List Server
  wServers : List Server
  s : Nat
  deriving DecidableEq, Repr

/-- `if (++s == server_num) s = 0`. -/
def Pattern.next (p : Pattern) : Nat := if p.s + 1 = p.servers.length then 0 else p.s + 1

/-- One pass of the pattern loop. -/
def patternPass (weightSum : Int) (p : Pattern) : Exec (Loop.Pass Pattern (List Server)) :=
  match p.servers[p.s]? with
  | none => .error .outOfBounds
  | some server =>
    if server.weight > 0 then
      if weightSum ≤ p.wServers.length then .error .outOfBounds
      else
        let wServers := p.wServers ++ [server]
        let servers := p.servers.set p.s { server with weight := server.weight - 1 }
        if (wServers.length : Int) = weightSum then .ok (.leave wServers)
        else .ok (.again ⟨servers, wServers, p.next⟩)
    else .ok (.again { p with s := p.next })

/-- `malloc` says whether the block for the pattern could be allocated. -/
def weightServers (fuel : Nat) (malloc : Bool) (circular : Circular) (servers : List Server)
    (serverNum : Nat) : Exec (Throwable × Circular) :=
  if serverNum = 0 ∨ servers.length < serverNum then .error .outOfBounds
  else do
    let (weightSum, servers) ← sortServers (serverNum - 1) 0 (servers.take serverNum)
    if malloc then
      let wServers ← Loop.run (patternPass weightSum) .fuel fuel ⟨servers, [], 0⟩
      let (throwable, circular) := allocateBuffer circular (some wServers) weightSum.toNat
      if throwable.isAnError then .ok (throwable.thrown "weight_servers", circular)
      else .ok (.create statusOk .null "weight_servers", circular)
    else
      .ok (.create statusError (.text "Memory allocation error!") "weight_servers", circular)

/-- Without servers the sum is read from before the array. -/
theorem weightServers_zero (fuel : Nat) (malloc : Bool) (c : Circular) (servers : List Server) :
    weightServers fuel malloc c servers 0 = .error .outOfBounds := rfl

/-- What the servers weigh together. -/
def totalWeight (servers : List Server) : Int := (servers.map Server.weight).sum

/-! ## The sum and the sort -/

section Sum

theorem sortServers_spec {k : Nat} {w w' : Int} {l l' : List Server} (hl : l.length = k + 1)
    (h : sortServers k w l = .ok (w', l')) :
    w' = w + ((Exchange.heads Server.weight k l).map Server.weight).sum ∧ FitsInt w' ∧
      l' = Exchange.sort Server.weight k l := by
  induction k generalizing w l l' with
  | zero =>
    obtain ⟨server, rfl⟩ := List.length_eq_one_iff.1 hl
    obtain ⟨sum, hsum, h⟩ := Exec.bind_ok h
    obtain ⟨rfl, hfit⟩ := checkInt_ok hsum
    cases h
    exact ⟨by simp [Exchange.heads], hfit, rfl⟩
  | succ k ih =>
    obtain ⟨server, rest, rfl⟩ := List.exists_cons_of_length_eq_add_one hl
    obtain ⟨sum, hsum, h⟩ := Exec.bind_ok h
    obtain ⟨rfl, -⟩ := checkInt_ok hsum
    obtain ⟨⟨sum', sorted⟩, hrec, h⟩ := Exec.bind_ok h
    cases h
    have hlen : (Exchange.sweep Server.weight server rest).2.length = k + 1 := by
      rw [Exchange.sweep_length]; simpa using hl
    obtain ⟨rfl, hfit, rfl⟩ := ih hlen hrec
    refine ⟨?_, hfit, rfl⟩
    simp only [Exchange.heads, List.map_cons, List.sum_cons]
    omega

theorem totalWeight_cons (s : Server) (l : List Server) :
    totalWeight (s :: l) = s.weight + totalWeight l := by
  simp [totalWeight]

theorem totalWeight_nonneg {l : List Server} (h : ∀ s ∈ l, 0 ≤ s.weight) : 0 ≤ totalWeight l :=
  List.sum_nonneg fun x hx => by
    obtain ⟨s, hs, rfl⟩ := List.mem_map.1 hx
    exact h s hs

/-- On ascending servers the sum is the right one and nothing is moved. -/
theorem sortServers_of_ascending {k : Nat} {w : Int} {l : List Server} (hl : l.length = k + 1)
    (hasc : Exchange.Ascending Server.weight l) (hpos : ∀ s ∈ l, 0 ≤ s.weight) (hw : 0 ≤ w)
    (hfit : w + totalWeight l ≤ intMax) : sortServers k w l = .ok (w + totalWeight l, l) := by
  have hfits : ∀ x : Int, 0 ≤ x → x ≤ intMax → FitsInt x := fun x h0 h1 =>
    ⟨Int.le_trans (by decide) h0, h1⟩
  induction k generalizing w l with
  | zero =>
    obtain ⟨server, rfl⟩ := List.length_eq_one_iff.1 hl
    have h0 := hpos server List.mem_cons_self
    rw [totalWeight_cons] at hfit ⊢
    simp only [totalWeight, List.map_nil, List.sum_nil, Int.add_zero] at hfit ⊢
    simp only [sortServers, checkInt_of_fits (hfits _ (by omega) hfit), Exec.ok_bind]
  | succ k ih =>
    obtain ⟨server, rest, rfl⟩ := List.exists_cons_of_length_eq_add_one hl
    have h0 := hpos server List.mem_cons_self
    have hpos' : ∀ s ∈ rest, 0 ≤ s.weight := fun s hs => hpos s (List.mem_cons_of_mem _ hs)
    have hrest := totalWeight_nonneg hpos'
    obtain ⟨hmin, hasc'⟩ := List.pairwise_cons.1 hasc
    rw [totalWeight_cons, ← Int.add_assoc] at hfit ⊢
    have hrec := ih (w := w + server.weight) (l := rest) (by simpa using hl) hasc' hpos' (by omega)
      hfit
    simp only [sortServers, checkInt_of_fits (hfits (w + server.weight) (by omega) (by omega)),
      Exec.ok_bind, Exchange.sweep_of_le hmin, hrec]

end Sum

/-! ## The rounds of the pattern -/

/-- The entry of a server in the working array after the pattern loop has passed it. -/
def Server.tick (s : Server) : Server :=
  if s.weight > 0 then { s with weight := s.weight - 1 } else s

/-- The servers that a round adds to the pattern. -/
def live (l : List Server) : List Server := l.filter fun s => s.weight > 0

/-- What `k` rounds add. -/
def spread : Nat → List Server → List Server
  | 0, _ => []
  | k + 1, l => live l ++ spread k (l.map Server.tick)

/-- The entries that a server gets, up to the weight that is left in them. -/
def Server.copies (s : Server) : List (CharPtr × CharPtr × Int) :=
  List.replicate s.weight.toNat s.machine

section Rounds

@[simp] theorem tick_machine (s : Server) : s.tick.machine = s.machine := by
  unfold Server.tick
  split <;> rfl

theorem tick_weight_le {s : Server} {k : Nat} (h : s.weight ≤ (k + 1 : Nat)) :
    s.tick.weight ≤ k := by
  unfold Server.tick
  split
  · change s.weight - 1 ≤ k
    omega
  · omega

theorem live_cons_of_pos {s : Server} (h : s.weight > 0) (l : List Server) :
    live (s :: l) = s :: live l := by
  simp [live, h]

theorem live_cons_of_not_pos {s : Server} (h : ¬ s.weight > 0) (l : List Server) :
    live (s :: l) = live l := by
  simp [live, h]

theorem live_map_tick_nil {l : List Server} (h : live l = []) : live (l.map Server.tick) = [] := by
  refine List.filter_eq_nil_iff.2 fun t ht => ?_
  obtain ⟨s, hs, rfl⟩ := List.mem_map.1 ht
  have := List.filter_eq_nil_iff.1 h s hs
  unfold Server.tick
  split
  · rename_i hpos
    exact absurd (decide_eq_true hpos) this
  · exact this

theorem spread_nil_of_live {k : Nat} {l : List Server} (h : live l = []) : spread k l = [] := by
  induction k generalizing l with
  | zero => rfl
  | succ k ih => rw [spread, h, ih (live_map_tick_nil h), List.append_nil]

theorem copies_perm (s : Server) :
    s.copies = (live [s]).map Server.machine ++ s.tick.copies := by
  unfold Server.copies
  rw [tick_machine]
  by_cases h : s.weight > 0
  · obtain ⟨n, hn⟩ : ∃ n, s.weight.toNat = n + 1 := ⟨s.weight.toNat - 1, by omega⟩
    have ht : s.tick.weight.toNat = n := by
      unfold Server.tick
      rw [if_pos h]
      change (s.weight - 1).toNat = n
      omega
    rw [live_cons_of_pos h, hn, ht]
    rfl
  · have ht : s.tick = s := by
      unfold Server.tick
      rw [if_neg h]
    rw [live_cons_of_not_pos h, ht]
    rfl

/-- A round takes one entry from every server that has one left. -/
theorem flatMap_copies_perm (l : List Server) :
    (l.flatMap Server.copies).Perm
      ((live l).map Server.machine ++ (l.map Server.tick).flatMap Server.copies) := by
  induction l with
  | nil => exact List.Perm.refl _
  | cons s l ih =>
    have hsplit : (live (s :: l)).map Server.machine
        = (live [s]).map Server.machine ++ (live l).map Server.machine := by
      rw [← List.map_append]
      by_cases h : s.weight > 0
      · rw [live_cons_of_pos h, live_cons_of_pos h]; rfl
      · rw [live_cons_of_not_pos h, live_cons_of_not_pos h]; rfl
    rw [List.map_cons, List.flatMap_cons, List.flatMap_cons, hsplit, copies_perm s,
      List.append_assoc, List.append_assoc]
    refine List.Perm.append_left _ ((List.Perm.append_left _ ih).trans ?_)
    rw [← List.append_assoc, ← List.append_assoc]
    exact List.Perm.append_right _ List.perm_append_comm

/-- **Every server gets as many entries as its weight says.** -/
theorem spread_machines {k : Nat} {l : List Server} (hk : ∀ s ∈ l, s.weight ≤ k) :
    ((spread k l).map Server.machine).Perm (l.flatMap Server.copies) := by
  induction k generalizing l with
  | zero =>
    have hnil : l.flatMap Server.copies = [] := by
      refine List.flatMap_eq_nil_iff.2 fun s hs => ?_
      have h0 : s.weight.toNat = 0 := by have := hk s hs; omega
      rw [Server.copies, h0]
      rfl
    rw [hnil]
    exact List.Perm.refl _
  | succ k ih =>
    rw [spread, List.map_append]
    refine (List.Perm.append_left _ (ih ?_)).trans (flatMap_copies_perm l).symm
    intro t ht
    obtain ⟨s, hs, rfl⟩ := List.mem_map.1 ht
    exact tick_weight_le (hk s hs)

theorem length_flatMap_copies {l : List Server} (h : ∀ s ∈ l, 0 ≤ s.weight) :
    ((l.flatMap Server.copies).length : Int) = totalWeight l := by
  induction l with
  | nil => rfl
  | cons s l ih =>
    have h0 := h s List.mem_cons_self
    have hl := ih fun t ht => h t (List.mem_cons_of_mem _ ht)
    rw [List.flatMap_cons, List.length_append, totalWeight_cons, ← hl, Server.copies,
      List.length_replicate]
    push_cast
    omega

theorem length_spread {k : Nat} {l : List Server} (h : ∀ s ∈ l, 0 ≤ s.weight)
    (hk : ∀ s ∈ l, s.weight ≤ k) : ((spread k l).length : Int) = totalWeight l := by
  rw [← length_flatMap_copies h, ← (spread_machines hk).length_eq, List.length_map]

end Rounds

/-! ## The pattern loop -/

section PatternLoop

variable {weightSum : Int} {p rest w : List Server} {x : Server}

theorem getElem?_at (p : List Server) (x : Server) (rest : List Server) :
    (p ++ x :: rest)[p.length]? = some x := by
  simp

theorem set_tick (hx : x.weight > 0) (p rest : List Server) :
    (p ++ x :: rest).set p.length { x with weight := x.weight - 1 }
      = p ++ x.tick :: rest := by
  rw [List.set_append_right _ _ (Nat.le_refl _), Nat.sub_self, List.set_cons_zero]
  unfold Server.tick
  rw [if_pos hx]

/-- A pass that does not fill the pattern. -/
theorem patternPass_again (hroom : ((w ++ live [x]).length : Int) < weightSum) :
    patternPass weightSum ⟨p ++ x :: rest, w, p.length⟩ = .ok (.again
      ⟨p ++ x.tick :: rest, w ++ live [x], if rest = [] then 0 else p.length + 1⟩) := by
  have hnext : (if p.length + 1 = (p ++ x :: rest).length then 0 else p.length + 1)
      = if rest = [] then 0 else p.length + 1 := by
    cases rest with
    | nil => simp
    | cons y ys => simp
  unfold patternPass
  simp only [getElem?_at, Pattern.next, hnext]
  by_cases hx : x.weight > 0
  · rw [live_cons_of_pos hx] at hroom ⊢
    simp only [List.length_append, List.length_singleton, live, List.filter_nil] at hroom
    push_cast at hroom
    rw [if_pos hx, if_neg (by omega), set_tick hx, if_neg]
    · rfl
    · simp only [List.length_append, List.length_singleton]
      push_cast
      omega
  · have ht : x.tick = x := by
      unfold Server.tick
      rw [if_neg hx]
    rw [if_neg hx, live_cons_of_not_pos hx, ht]
    simp [live]

/-- The pass that fills the pattern. -/
theorem patternPass_leave (hx : x.weight > 0) (hlast : ((w ++ [x]).length : Int) = weightSum) :
    patternPass weightSum ⟨p ++ x :: rest, w, p.length⟩ = .ok (.leave (w ++ [x])) := by
  unfold patternPass
  simp only [getElem?_at]
  rw [if_pos hx, if_neg, if_pos hlast]
  simp only [List.length_append, List.length_singleton] at hlast
  push_cast at hlast
  omega

theorem live_cons (x : Server) (l : List Server) : live (x :: l) = live [x] ++ live l := by
  by_cases hx : x.weight > 0
  · rw [live_cons_of_pos hx, live_cons_of_pos hx]; rfl
  · rw [live_cons_of_not_pos hx, live_cons_of_not_pos hx]; rfl

/-- A round that does not fill the pattern. The induction is on the servers still to be passed. -/
theorem pattern_round (hne : rest ≠ []) (hroom : ((w ++ live rest).length : Int) < weightSum)
    (n : Nat) :
    Loop.run (patternPass weightSum) Stop.fuel (n + rest.length) ⟨p ++ rest, w, p.length⟩
      = Loop.run (patternPass weightSum) .fuel n
          ⟨p ++ rest.map Server.tick, w ++ live rest, 0⟩ := by
  induction rest generalizing p w with
  | nil => exact absurd rfl hne
  | cons x rest ih =>
    rw [live_cons, ← List.append_assoc] at hroom ⊢
    have hx : ((w ++ live [x]).length : Int) < weightSum := by
      rw [List.length_append] at hroom
      push_cast at hroom
      omega
    rw [List.length_cons, ← Nat.add_assoc, Loop.run_again (patternPass_again hx)]
    cases rest with
    | nil => simp [live]
    | cons y ys =>
      have hih := ih (p := p ++ [x.tick]) (w := w ++ live [x]) (List.cons_ne_nil y ys) hroom
      simp only [List.append_assoc, List.singleton_append, List.length_append,
        List.length_singleton] at hih
      simp only [reduceCtorEq, if_false, List.map_cons, List.append_assoc] at hih ⊢
      exact hih

/-- The round that fills it. -/
theorem pattern_lastRound (hlive : live rest ≠ [])
    (hlast : ((w ++ live rest).length : Int) = weightSum) (n : Nat) :
    Loop.run (patternPass weightSum) Stop.fuel (n + rest.length) ⟨p ++ rest, w, p.length⟩
      = .ok (w ++ live rest) := by
  induction rest generalizing p w with
  | nil => exact absurd rfl hlive
  | cons x rest ih =>
    rw [List.length_cons, ← Nat.add_assoc]
    by_cases hrest : live rest = []
    · have hx : x.weight > 0 := Classical.byContradiction fun hx =>
        hlive (by rw [live_cons_of_not_pos hx, hrest])
      rw [live_cons_of_pos hx, hrest] at hlast ⊢
      exact Loop.run_leave (patternPass_leave hx hlast) _
    · rw [live_cons, ← List.append_assoc] at hlast ⊢
      have hpos : 0 < (live rest).length := List.length_pos_iff.2 hrest
      have hx : ((w ++ live [x]).length : Int) < weightSum := by
        rw [List.length_append] at hlast
        push_cast at hlast
        omega
      have hne : rest ≠ [] := by
        rintro rfl
        exact hrest rfl
      rw [Loop.run_again (patternPass_again hx), if_neg hne]
      have hih := ih (p := p ++ [x.tick]) (w := w ++ live [x]) hrest hlast
      simpa only [List.append_assoc, List.singleton_append, List.length_append,
        List.length_singleton] using hih

/-- **The pattern.** With the right sum the loop ends, and the pattern is that of the rounds. -/
theorem pattern_spread {k : Nat} {l : List Server} (hk : ∀ s ∈ l, s.weight ≤ k)
    (hlive : live l ≠ []) (hsum : ((w ++ spread k l).length : Int) = weightSum) :
    Loop.run (patternPass weightSum) Stop.fuel (k * l.length) ⟨l, w, 0⟩
      = .ok (w ++ spread k l) := by
  induction k generalizing l w with
  | zero =>
    refine absurd (List.filter_eq_nil_iff.2 fun s hs => ?_) hlive
    have := hk s hs
    simp only [decide_eq_true_eq]
    omega
  | succ k ih =>
    have hne : l ≠ [] := by
      rintro rfl
      exact hlive rfl
    rw [Nat.succ_mul]
    by_cases hmore : live (l.map Server.tick) = []
    · rw [spread, spread_nil_of_live hmore, List.append_nil] at hsum ⊢
      exact pattern_lastRound (p := []) hlive hsum _
    · have hk' : ∀ t ∈ l.map Server.tick, t.weight ≤ k := by
        intro t ht
        obtain ⟨s, hs, rfl⟩ := List.mem_map.1 ht
        exact tick_weight_le (hk s hs)
      have hspread : 0 < (spread k (l.map Server.tick)).length := by
        obtain ⟨t, ht⟩ := List.exists_mem_of_ne_nil _ hmore
        have hmem := (spread_machines hk').length_eq
        rw [List.length_map] at hmem
        rw [hmem]
        obtain ⟨ht, hpos⟩ := List.mem_filter.1 ht
        refine List.length_pos_iff.2 fun hnil => ?_
        have := List.flatMap_eq_nil_iff.1 hnil t ht
        simp only [Server.copies, List.replicate_eq_nil_iff] at this
        simp only [decide_eq_true_eq] at hpos
        omega
      rw [spread, ← List.append_assoc] at hsum ⊢
      have hroom : ((w ++ live l).length : Int) < weightSum := by
        rw [List.length_append] at hsum
        push_cast at hsum
        omega
      have hround := pattern_round (p := []) hne hroom (k * l.length)
      simp only [List.nil_append, List.length_nil] at hround
      have hih := ih (w := w ++ live l) hk' hmore hsum
      rw [List.length_map] at hih
      rw [hround, hih]

theorem totalWeight_set {l : List Server} {i : Nat} {s : Server} (hs : l[i]? = some s) :
    totalWeight (l.set i { s with weight := s.weight - 1 }) = totalWeight l - 1 := by
  induction l generalizing i with
  | nil => cases hs
  | cons y ys ih =>
    cases i with
    | zero =>
      cases hs
      rw [List.set_cons_zero, totalWeight_cons, totalWeight_cons]
      change s.weight - 1 + _ = _
      omega
    | succ i =>
      rw [List.set_cons_succ, totalWeight_cons, totalWeight_cons, ih hs]
      omega

/-- What the pattern loop keeps: an entry made is a unit of weight taken. -/
structure Pattern.Balanced (total : Int) (p : Pattern) : Prop where
  sum_eq : (p.wServers.length : Int) + totalWeight p.servers = total
  nonneg : ∀ s ∈ p.servers, 0 ≤ s.weight

/-- What a pass does, by the server it stands on. -/
theorem patternPass_cases {p : Pattern} {r : Loop.Pass Pattern (List Server)}
    (h : patternPass weightSum p = .ok r) : ∃ server, p.servers[p.s]? = some server ∧
      ((server.weight > 0 ∧ ((p.wServers.length : Int) + 1 = weightSum ∧
          r = .leave (p.wServers ++ [server]) ∨
        r = .again ⟨p.servers.set p.s { server with weight := server.weight - 1 },
          p.wServers ++ [server], p.next⟩)) ∨ r = .again { p with s := p.next }) := by
  unfold patternPass at h
  split at h
  · cases h
  · rename_i server hs
    refine ⟨server, hs, ?_⟩
    split at h
    · rename_i hpos
      refine Or.inl ⟨hpos, ?_⟩
      split at h
      · cases h
      · simp only [List.length_append, List.length_singleton] at h
        push_cast at h
        split at h <;> cases h
        · exact Or.inl ⟨‹_›, rfl⟩
        · exact Or.inr rfl
    · cases h
      exact Or.inr rfl

/-- The loop never makes more entries than the servers weigh. -/
theorem pattern_length_le {l r : List Server} {n : Nat} (hpos : ∀ s ∈ l, 0 ≤ s.weight)
    (h : Loop.run (patternPass weightSum) Stop.fuel n ⟨l, [], 0⟩ = .ok r) :
    (r.length : Int) = weightSum ∧ weightSum ≤ totalWeight l := by
  refine Loop.run_invariant (Pattern.Balanced (totalWeight l))
    (fun r => (r.length : Int) = weightSum ∧ weightSum ≤ totalWeight l) ?_ ?_
    ⟨by simp, hpos⟩ h
  · rintro p q ⟨hsum, hnn⟩ hp
    obtain ⟨server, hs, ⟨hw, ⟨-, hr⟩ | hr⟩ | hr⟩ := patternPass_cases hp
    · cases hr
    · cases hr
      refine ⟨?_, fun t ht => ?_⟩
      · rw [totalWeight_set hs, List.length_append, List.length_singleton]
        push_cast
        omega
      · rcases List.mem_or_eq_of_mem_set ht with ht | rfl
        · exact hnn t ht
        · change 0 ≤ server.weight - 1
          omega
    · cases hr
      exact ⟨hsum, hnn⟩
  · rintro p r ⟨hsum, hnn⟩ hp
    obtain ⟨server, hs, ⟨hw, ⟨hlen, hr⟩ | hr⟩ | hr⟩ := patternPass_cases hp
    · cases hr
      have hset := totalWeight_set hs
      have : 0 ≤ totalWeight (p.servers.set p.s { server with weight := server.weight - 1 }) := by
        refine totalWeight_nonneg fun t ht => ?_
        rcases List.mem_or_eq_of_mem_set ht with ht | rfl
        · exact hnn t ht
        · change 0 ≤ server.weight - 1
          omega
      rw [List.length_append, List.length_singleton]
      push_cast
      omega
    · cases hr
    · cases hr

end PatternLoop

/-! ## What is published -/

/-- The rounds that the greatest weight asks for. -/
def maxWeight (l : List Server) : Nat := l.foldr (fun s m => max s.weight.toNat m) 0

/-- The pattern of the servers, in the order in which they stand. -/
def pattern (l : List Server) : List Server := spread (maxWeight l) l

/-- `buffer` is published: the entry pointers move, the position stays. -/
def Circular.publish (c : Circular) (buffer : List Server) : Circular :=
  { c with buffer := buffer, bufferLen := buffer.length, head := 0, tail := buffer.length - 1 }

section Publish

variable {c c' : Circular} {servers : List Server} {malloc : Bool} {fuel : Nat} {t : Throwable}

theorem allocateBuffer_eq_publish (c : Circular) {buffer : List Server} (h : buffer ≠ []) :
    allocateBuffer c (some buffer) buffer.length
      = (.create statusOk .null "allocate_buffer", c.publish buffer) := by
  have hl : buffer.length ≠ 0 := fun h0 => h (List.length_eq_zero_iff.1 h0)
  simp only [allocateBuffer, if_neg hl]
  rfl

theorem le_maxWeight {l : List Server} : ∀ s ∈ l, s.weight ≤ maxWeight l := by
  induction l with
  | nil => intro s hs; cases hs
  | cons x l ih =>
    intro s hs
    simp only [maxWeight, List.foldr_cons]
    rcases List.mem_cons.1 hs with rfl | hs
    · omega
    · have := ih s hs
      simp only [maxWeight] at this
      omega

theorem pattern_machines (l : List Server) :
    ((pattern l).map Server.machine).Perm (l.flatMap Server.copies) :=
  spread_machines le_maxWeight

theorem length_pattern {l : List Server} (h : ∀ s ∈ l, 0 ≤ s.weight) :
    ((pattern l).length : Int) = totalWeight l :=
  length_spread h le_maxWeight

theorem live_of_pos {l : List Server} (h : ∀ s ∈ l, 1 ≤ s.weight) : live l = l :=
  List.filter_eq_self.2 fun s hs => by
    have := h s hs
    simp only [decide_eq_true_eq]
    omega

theorem pattern_ne_nil {l : List Server} (hne : l ≠ []) (h : ∀ s ∈ l, 1 ≤ s.weight) :
    pattern l ≠ [] := by
  obtain ⟨s, hs⟩ := List.exists_mem_of_ne_nil l hne
  have hmem : s.machine ∈ (pattern l).map Server.machine := by
    refine (pattern_machines l).mem_iff.2 (List.mem_flatMap.2 ⟨s, hs, ?_⟩)
    have := h s hs
    exact List.mem_replicate.2 ⟨by omega, rfl⟩
  rintro hnil
  rw [hnil] at hmem
  cases hmem

/-- **Ascending servers**: `weight_servers` publishes their pattern. -/
theorem weightServers_of_ascending (hne : servers ≠ []) (hpos : ∀ s ∈ servers, 1 ≤ s.weight)
    (hasc : Exchange.Ascending Server.weight servers) (hfit : totalWeight servers ≤ intMax) :
    weightServers (maxWeight servers * servers.length) true c servers servers.length
      = .ok (.create statusOk .null "weight_servers", c.publish (pattern servers)) := by
  have hnn : ∀ s ∈ servers, 0 ≤ s.weight := fun s hs => by have := hpos s hs; omega
  have hlen : 0 < servers.length := List.length_pos_iff.2 hne
  have hsort := sortServers_of_ascending (k := servers.length - 1) (by omega) hasc hnn
    (Int.le_refl 0) (by omega)
  rw [Int.zero_add] at hsort
  have hrun := pattern_spread (w := []) le_maxWeight (by rw [live_of_pos hpos]; exact hne)
    (length_pattern hnn)
  have htot : (totalWeight servers).toNat = (pattern servers).length := by
    rw [← length_pattern hnn, Int.toNat_natCast]
  unfold weightServers
  rw [if_neg (by omega), List.take_length, hsort, Exec.ok_bind]
  simp only [if_true, hrun, Exec.ok_bind, List.nil_append]
  rw [htot, show spread (maxWeight servers) servers = pattern servers from rfl,
    allocateBuffer_eq_publish c (pattern_ne_nil hne hpos)]
  rfl

/-- **Success of `weight_servers`**: the servers were ascending, and their pattern is published. -/
theorem weightServers_success (hne : servers ≠ []) (hpos : ∀ s ∈ servers, 1 ≤ s.weight)
    (h : weightServers fuel malloc c servers servers.length = .ok (t, c'))
    (ht : t.isAnError = false) : malloc = true ∧ Exchange.Ascending Server.weight servers ∧
      totalWeight servers ≤ intMax ∧ c' = c.publish (pattern servers) := by
  have hlen : 0 < servers.length := List.length_pos_iff.2 hne
  have hnn : ∀ s ∈ servers, 0 ≤ s.weight := fun s hs => by have := hpos s hs; omega
  unfold weightServers at h
  rw [if_neg (by omega), List.take_length] at h
  obtain ⟨⟨weightSum, sorted⟩, hsort, h⟩ := Exec.bind_ok h
  obtain ⟨hsum, hfit, hsorted⟩ := sortServers_spec (by omega) hsort
  cases malloc with
  | false =>
    simp only [Bool.false_eq_true, if_false] at h
    cases h
    cases ht
  | true =>
    simp only [if_true] at h
    obtain ⟨wServers, hrun, h⟩ := Exec.bind_ok h
    -- the loop has ended, so the sum asks for no more than the servers weigh
    have hperm : sorted.Perm servers := hsorted ▸ Exchange.sort_perm _ _ servers
    have htot : totalWeight sorted = totalWeight servers := (hperm.map Server.weight).sum_eq
    obtain ⟨hwlen, hle⟩ := pattern_length_le (fun s hs => hnn s (hperm.mem_iff.1 hs)) hrun
    have hheads := Exchange.sum_le_heads Server.weight (servers.length - 1) servers
    have heq : ((Exchange.heads Server.weight (servers.length - 1) servers).map Server.weight).sum
        = (servers.map Server.weight).sum := by
      unfold totalWeight at htot hle
      omega
    have hasc := (Exchange.heads_sum_eq_iff (by omega)).1 heq
    rw [Exchange.sort_of_ascending hasc] at hsorted
    have hws : weightSum = totalWeight servers := by
      unfold totalWeight
      omega
    subst hws
    rw [hsorted] at hrun
    have hrun' := pattern_spread (w := []) le_maxWeight (by rw [live_of_pos hpos]; exact hne)
      (length_pattern hnn)
    obtain rfl : wServers = pattern servers := Loop.run_agree hrun hrun'
    rw [← hwlen, Int.toNat_natCast, allocateBuffer_eq_publish c (pattern_ne_nil hne hpos)] at h
    cases h
    exact ⟨rfl, hasc, hfit.2, rfl⟩

end Publish

/-! ## Servers of weight 1 -/

section Uniform

variable {l : List Server} (h : ∀ s ∈ l, s.weight = 1)

include h

theorem ascending_of_weight_one : Exchange.Ascending Server.weight l := by
  apply List.pairwise_of_forall_mem_list
  intro s hs t ht
  rw [h s hs, h t ht]

theorem totalWeight_of_weight_one : totalWeight l = l.length := by
  rw [totalWeight, List.map_congr_left h, List.map_const', List.sum_replicate]
  simp

theorem maxWeight_of_weight_one (hne : l ≠ []) : maxWeight l = 1 := by
  induction l with
  | nil => exact absurd rfl hne
  | cons s l ih =>
    have hs : s.weight.toNat = 1 := by
      rw [h s List.mem_cons_self]
      rfl
    rw [maxWeight, List.foldr_cons, hs]
    cases l with
    | nil => rfl
    | cons t l =>
      have hl := ih (fun u hu => h u (List.mem_cons_of_mem s hu)) (List.cons_ne_nil t l)
      rw [maxWeight] at hl
      rw [hl]
      rfl

/-- The pattern has each of them once, in the order in which they stand. -/
theorem pattern_of_weight_one (hne : l ≠ []) : pattern l = l := by
  have hpos : ∀ s ∈ l, 1 ≤ s.weight := by
    intro s hs
    rw [h s hs]
  rw [pattern, maxWeight_of_weight_one h hne, spread, spread, List.append_nil, live_of_pos hpos]

end Uniform

end Heimdall.RoundRobin
