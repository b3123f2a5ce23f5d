import Heimdall.Pool.FdArray

/-!
# The order of service

Both `add_fd_to_array` and `get_fd` go through the array from slot 0 on. So while a descriptor waits
in slot `i`, `get_fd` hands out what is in the slots below, and each of those that are stored later
and handed out before it has been stored in such a slot (`overtaken`). Slot 0 is never overtaken.
Every other slot can be, as often as there are new descriptors for the slots below
(`overtaken_often`).
-/

namespace Heimdall.FdArray

/-- A call and what it does: a descriptor is stored in a slot or finds none, and a descriptor is
handed out from a slot or there is none. -/
inductive Call
  | put (fd : Int) (i : Nat)
  | full (fd : Int)
  | take (fd : Int) (i : Nat)
  | empty
  deriving DecidableEq

inductive CallStep : State → Call → State → Prop
  | put {s : State} {fd : Int} {i : Nat} (hfd : fd ≠ 0) (hnew : fd ∉ s.accepted)
      (hi : scan (· == 0) s.maxFd s.fdArray = .found i) :
      CallStep s (.put fd i) (s.addFdToArray fd)
  | full {s : State} {fd : Int} (hi : scan (· == 0) s.maxFd s.fdArray = .nothing) :
      CallStep s (.full fd) (s.addFdToArray fd)
  | take {s : State} {i : Nat} (hi : scan (· != 0) s.maxFd s.fdArray = .found i) :
      CallStep s (.take ((s.fdArray.getD []).getD i 0) i) s.getFd
  | empty {s : State} (hi : scan (· != 0) s.maxFd s.fdArray = .nothing) :
      CallStep s .empty s.getFd

/-- The array when `init_pool` has returned. -/
def initialised (m : Nat) : State where
  maxFd := m
  fdArray := some (List.replicate m 0)
  pc := .loop
  main := none
  fault := false
  accepted := []
  returned := []

/-- The runs of calls on an initialised array. -/
def calls (m : Nat) : System State Call where
  init s := s = initialised m
  step := CallStep

/-- The descriptors that are stored, those of them below slot `i`, and those that are handed out. -/
def stored (cs : List Call) : List Int :=
  cs.filterMap fun
    | .put fd _ => some fd
    | _ => none

def storedBelow (i : Nat) (cs : List Call) : List Int :=
  cs.filterMap fun
    | .put fd j => if j < i then some fd else none
    | _ => none

def taken (cs : List Call) : List Int :=
  cs.filterMap fun
    | .take fd _ => some fd
    | _ => none

/-- The descriptors that are stored and handed out in the calls. -/
def overtakers (cs : List Call) : List Int := (taken cs).filter (· ∈ stored cs)

/-! ## One call -/

/-- What a call does to the array `a`. -/
inductive CallEffect (a : List Int) (s t : State) : Call → Prop
  | put {fd : Int} {i : Nat} (hfd : fd ≠ 0) (hnew : fd ∉ s.accepted) (hi : a[i]? = some 0)
      (ht : t.fdArray = some (a.set i fd)) (hacc : t.accepted = s.accepted ++ [fd]) :
      CallEffect a s t (.put fd i)
  | take {fd : Int} {i : Nat} (hfd : fd ≠ 0) (hi : a[i]? = some fd)
      (hfirst : ∀ j v, j < i → a[j]? = some v → v = 0) (ht : t.fdArray = some (a.set i 0))
      (hacc : t.accepted = s.accepted) : CallEffect a s t (.take fd i)
  | full (fd : Int) (ht : t = s) : CallEffect a s t (.full fd)
  | empty (ht : t = s) : CallEffect a s t .empty

section Step

variable {m i : Nat} {s t : State} {a : List Int} {e : Call}

/-- No slot before the one that is found meets the condition. -/
theorem scan_first {p : Int → Bool} (h : scan p m (some a) = .found i) {j : Nat} {v : Int}
    (hj : j < i) (hv : a[j]? = some v) : p v = false := by
  unfold scan at h
  split at h
  · cases h
  · dsimp only at h
    split at h
    · cases h
    · next k hk =>
      cases h
      obtain ⟨_, _, hbefore⟩ := List.findIdx?_eq_some_iff_getElem.1 hk
      have hget := hbefore j hj
      rw [List.getElem_take] at hget
      obtain ⟨hlt, rfl⟩ := List.getElem?_eq_some_iff.1 hv
      simpa using hget

theorem CallStep.effect (h : CallStep s e t) (ha : s.fdArray = some a) : CallEffect a s t e := by
  cases h with
  | @put fd i hfd hnew hi =>
    obtain ⟨a', v, ha', -, hv, hzero⟩ := scan_found hi
    obtain rfl : a = a' := Option.some.inj (ha.symm.trans ha')
    obtain rfl : v = 0 := by simpa using hzero
    refine .put hfd hnew hv ?_ ?_ <;> unfold State.addFdToArray <;> rw [hi]
    simp [State.store, ha]
  | full hi =>
    refine .full _ ?_
    unfold State.addFdToArray
    rw [hi]
  | @take i hi =>
    obtain ⟨a', v, ha', -, hv, hne⟩ := scan_found hi
    obtain rfl : a = a' := Option.some.inj (ha.symm.trans ha')
    have hvalue : (s.fdArray.getD []).getD i 0 = v := by
      rw [ha]
      simp [hv]
    rw [ha] at hi
    rw [hvalue]
    refine .take (by simpa using hne) hv ?_ ?_ ?_
    · intro j w hj hw
      simpa using scan_first hi hj hw
    · unfold State.getFd
      rw [ha, hi]
      simp [State.store, ha]
    · unfold State.getFd
      rw [ha, hi]
      rfl
  | empty hi =>
    refine .empty ?_
    unfold State.getFd
    rw [hi]

end Step

/-! ## Runs -/

section Runs

variable {m i : Nat} {d : Int} {s t : State} {a : List Int} {base : List Int} {cs : List Call}

/-- How many of the slots below `i` hold a descriptor that is not in `base`. -/
def waitingBelow (base : List Int) (i : Nat) (a : List Int) : Nat :=
  (a.take i).countP fun v => v ≠ 0 ∧ v ∉ base

theorem waitingBelow_set_ge {j : Nat} {v : Int} (h : i ≤ j) :
    waitingBelow base i (a.set j v) = waitingBelow base i a := by
  unfold waitingBelow
  rw [List.take_set_of_le h]

/-- A descriptor that is not in `base` is put into a slot below `i`. -/
theorem waitingBelow_put {j : Nat} {v : Int} (hj : a[j]? = some 0) (hji : j < i) (hv : v ≠ 0)
    (hbase : v ∉ base) : waitingBelow base i (a.set j v) = waitingBelow base i a + 1 := by
  obtain ⟨hlt, hzero⟩ := List.getElem?_eq_some_iff.1 hj
  unfold waitingBelow
  rw [List.take_set, List.countP_set (by rw [List.length_take]; omega), List.getElem_take, hzero]
  simp [hv, hbase]

variable (base) in
/-- What is in a slot below `i` is taken out. -/
theorem waitingBelow_take {j : Nat} {v : Int} (hj : a[j]? = some v) (hji : j < i) (hv : v ≠ 0) :
    waitingBelow base i (a.set j 0) + (if v ∈ base then 0 else 1) = waitingBelow base i a := by
  obtain ⟨hlt, hvalue⟩ := List.getElem?_eq_some_iff.1 hj
  have hlen : j < (a.take i).length := by
    rw [List.length_take]
    omega
  have hget : (a.take i)[j] = v := by rw [List.getElem_take, hvalue]
  unfold waitingBelow
  rw [List.take_set, List.countP_set hlen, hget]
  by_cases hbase : v ∈ base
  · simp [hbase]
  · have hpos : 0 < (a.take i).countP fun v => v ≠ 0 ∧ v ∉ base := by
      rw [List.countP_pos_iff]
      exact ⟨v, hget ▸ List.getElem_mem hlen, by simp [hv, hbase]⟩
    rw [if_pos (by simp [hv, hbase]), if_neg (by simp), if_neg hbase]
    omega

/-- **While `d` waits in slot `i`**, only slots below it are emptied, and what is stored there is
handed out or still there. -/
structure Waited (base : List Int) (i : Nat) (d : Int) (a : List Int) (cs : List Call) (t : State) :
    Prop where
  waits : ∃ b, t.fdArray = some b ∧ b[i]? = some d ∧
    ((taken cs).filter (· ∉ base)).length + waitingBelow base i b =
      (storedBelow i cs).length + waitingBelow base i a
  below : ∀ x j, .take x j ∈ cs → j < i
  later : ∀ x ∈ stored cs, x ∉ base

theorem Waited.skip {e : Call} (h : Waited base i d a cs t)
    (he : e = .empty ∨ ∃ fd, e = .full fd) : Waited base i d a (e :: cs) t := by
  obtain ⟨hwaits, hbelow, hlater⟩ := h
  rcases he with rfl | ⟨fd, rfl⟩ <;>
  · refine ⟨hwaits, ?_, hlater⟩
    intro x k hx
    rcases List.mem_cons.1 hx with hx | hx
    · cases hx
    · exact hbelow x k hx

/-- One more descriptor has been stored, below `i` or not. -/
theorem Waited.put {fd : Int} {j : Nat} (h : Waited base i d (a.set j fd) cs t)
    (hj : a[j]? = some 0) (hfd : fd ≠ 0) (hfresh : fd ∉ base) :
    Waited base i d a (.put fd j :: cs) t := by
  obtain ⟨⟨b, hb, hbi, hcount⟩, hbelow, hlater⟩ := h
  refine ⟨⟨b, hb, hbi, ?_⟩, ?_, ?_⟩
  · by_cases hji : j < i
    · rw [waitingBelow_put hj hji hfd hfresh] at hcount
      simp only [taken, storedBelow, List.filterMap_cons, if_pos hji, List.length_cons] at hcount ⊢
      omega
    · rw [waitingBelow_set_ge (Nat.le_of_not_lt hji)] at hcount
      simpa [taken, storedBelow, hji] using hcount
  · intro x k hx
    rcases List.mem_cons.1 hx with hx | hx
    · cases hx
    · exact hbelow x k hx
  · intro x hx
    rcases List.mem_cons.1 hx with rfl | hx
    · exact hfresh
    · exact hlater x hx

/-- One more descriptor has been handed out, from a slot below `i`. -/
theorem Waited.take {fd : Int} {j : Nat} (h : Waited base i d (a.set j 0) cs t)
    (hj : a[j]? = some fd) (hji : j < i) (hfd : fd ≠ 0) :
    Waited base i d a (.take fd j :: cs) t := by
  obtain ⟨⟨b, hb, hbi, hcount⟩, hbelow, hlater⟩ := h
  refine ⟨⟨b, hb, hbi, ?_⟩, ?_, hlater⟩
  · have hcount' := waitingBelow_take base hj hji hfd
    by_cases hmem : fd ∈ base
    · simp [taken, storedBelow, hmem] at hcount hcount' ⊢
      omega
    · simp [taken, storedBelow, hmem] at hcount hcount' ⊢
      omega
  · intro x k hx
    rcases List.mem_cons.1 hx with hx | hx
    · cases hx
      exact hji
    · exact hbelow x k hx

/-- The run lemma; the induction is on the run. -/
theorem waited_of_run (h : (calls m).Run s cs t) (ha : s.fdArray = some a) (hi : a[i]? = some d)
    (hd : d ≠ 0) (hbase : ∀ x ∈ base, x ∈ s.accepted) (hcs : ∀ j, .take d j ∉ cs) :
    Waited base i d a cs t := by
  induction h generalizing a with
  | nil s =>
    refine ⟨⟨a, ha, hi, rfl⟩, ?_, ?_⟩
    · intro x j hx
      cases hx
    · intro x hx
      cases hx
  | @cons s u t e cs hs hr ih =>
    have hcs' : ∀ j, .take d j ∉ cs := fun j hj => hcs j (List.mem_cons_of_mem e hj)
    have heffect := CallStep.effect hs ha
    cases heffect with
    | @put fd j hfd hnew hj ht hacc =>
      have hne : j ≠ i := by
        rintro rfl
        exact hd (Option.some.inj (hi.symm.trans hj))
      have hfresh : fd ∉ base := fun hmem => hnew (hbase fd hmem)
      have hbase' : ∀ x ∈ base, x ∈ u.accepted := fun x hx => by
        rw [hacc]
        exact List.mem_append_left _ (hbase x hx)
      exact (ih ht (by rwa [List.getElem?_set_ne hne]) hbase' hcs').put hj hfd hfresh
    | @take fd j hfd hj hfirst ht hacc =>
      have hji : j < i := by
        by_contra hle
        rcases Nat.lt_or_eq_of_le (Nat.le_of_not_lt hle) with hlt | rfl
        · exact hd (hfirst i d hlt hi)
        · obtain rfl : d = fd := Option.some.inj (hi.symm.trans hj)
          exact hcs i List.mem_cons_self
      have hbase' : ∀ x ∈ base, x ∈ u.accepted := fun x hx => hacc ▸ hbase x hx
      have hi' : (a.set j 0)[i]? = some d := by rwa [List.getElem?_set_ne (Nat.ne_of_lt hji)]
      exact (ih ht hi' hbase' hcs').take hj hji hfd
    | full fd ht =>
      subst ht
      exact (ih ha hi hbase hcs').skip (.inr ⟨fd, rfl⟩)
    | empty ht =>
      subst ht
      exact (ih ha hi hbase hcs').skip (.inl rfl)

/-- The array has `m` slots, and what they hold has been accepted. -/
def Kept (m : Nat) (s : State) : Prop :=
  ∃ a, s.fdArray = some a ∧ a.length = m ∧ ∀ v ∈ a, v ≠ 0 → v ∈ s.accepted

theorem kept_initialised (m : Nat) : Kept m (initialised m) := by
  refine ⟨List.replicate m 0, rfl, List.length_replicate, ?_⟩
  intro v hv hne
  exact absurd (List.eq_of_mem_replicate hv) hne

theorem kept_step {e : Call} (hs : Kept m s) (h : CallStep s e t) : Kept m t := by
  obtain ⟨a, ha, hlen, hmem⟩ := hs
  cases CallStep.effect h ha with
  | @put fd i hfd hnew hi ht hacc =>
    refine ⟨a.set i fd, ht, List.length_set.trans hlen, ?_⟩
    intro v hv hne
    rw [hacc]
    rcases List.mem_or_eq_of_mem_set hv with hv | rfl
    · exact List.mem_append_left _ (hmem v hv hne)
    · exact List.mem_append_right _ (List.mem_singleton.2 rfl)
  | @take fd i hfd hi hfirst ht hacc =>
    refine ⟨a.set i 0, ht, List.length_set.trans hlen, ?_⟩
    intro v hv hne
    rw [hacc]
    rcases List.mem_or_eq_of_mem_set hv with hv | rfl
    · exact hmem v hv hne
    · exact absurd rfl hne
  | full fd ht =>
    subst ht
    exact ⟨a, ha, hlen, hmem⟩
  | empty ht =>
    subst ht
    exact ⟨a, ha, hlen, hmem⟩

/-- Where a descriptor has been stored, all that the array holds is in `accepted`. -/
theorem waitingBelow_accepted (h : ∀ v ∈ a, v ≠ 0 → v ∈ base) : waitingBelow base i a = 0 := by
  unfold waitingBelow
  rw [List.countP_eq_zero]
  intro v hv
  simpa using h v (List.mem_of_mem_take hv)

/-- A descriptor is stored, and the calls after it do not hand it out. -/
theorem waited_of_put {pre : List Call} (hs : (calls m).init s)
    (h : (calls m).Run s (pre ++ .put d i :: cs) t) (hcs : ∀ j, .take d j ∉ cs) :
    i < m ∧ ∃ base a, waitingBelow base i a = 0 ∧ Waited base i d a cs t := by
  obtain ⟨u, hpre, hrun⟩ := h.split
  cases hrun with
  | @cons _ v _ _ _ hput hrest =>
    have hkept : Kept m u := by
      refine hpre.invariant (Kept m) (fun _ _ _ hk hstep => kept_step hk hstep) ?_
      obtain rfl : s = initialised m := hs
      exact kept_initialised m
    obtain ⟨b, hb, -, hmem⟩ := kept_step hkept hput
    obtain ⟨a, ha, hlen, -⟩ := hkept
    cases CallStep.effect hput ha with
    | put hfd hnew hi ht hacc =>
      obtain ⟨hlt, -⟩ := List.getElem?_eq_some_iff.1 hi
      obtain rfl : a.set i d = b := Option.some.inj (ht.symm.trans hb)
      exact ⟨hlen ▸ hlt, v.accepted, a.set i d, waitingBelow_accepted hmem,
        waited_of_run hrest ht (List.getElem?_set_self hlt) hfd (fun _ hx => hx) hcs⟩

/-! ## New descriptors in slot 0 -/

/-- Descriptors that are stored in slot 0 and handed out again, from `next` on. -/
def rounds : Nat → Int → List Call
  | 0, _ => []
  | k + 1, next => .put next 0 :: .take next 0 :: rounds k (next + 1)

theorem scan_head {p : Int → Bool} {v : Int} (hm : m ≠ 0) (hp : p v = true) (rest : List Int) :
    scan p m (some (v :: rest)) = .found 0 := by
  obtain ⟨n, rfl⟩ := Nat.exists_eq_succ_of_ne_zero hm
  simp [scan, List.findIdx?_cons, hp]

/-- One round: slot 0 is free again. -/
theorem round_run {fd : Int} {rest : List Int} (hm : s.maxFd ≠ 0)
    (ha : s.fdArray = some (0 :: rest)) (hfd : fd ≠ 0) (hnew : fd ∉ s.accepted) :
    ∃ t, (calls m).Run s [.put fd 0, .take fd 0] t ∧ t.maxFd = s.maxFd ∧
      t.fdArray = some (0 :: rest) ∧ t.accepted = s.accepted ++ [fd] := by
  have hput : scan (· == 0) s.maxFd s.fdArray = .found 0 := by
    rw [ha]
    exact scan_head hm rfl rest
  have hu : s.addFdToArray fd =
      { s.store 0 fd with main := none, accepted := s.accepted ++ [fd] } := by
    unfold State.addFdToArray
    rw [hput]
  have harray : (s.addFdToArray fd).fdArray = some (fd :: rest) := by
    rw [hu]
    simp [State.store, ha]
  have hmax : (s.addFdToArray fd).maxFd = s.maxFd := by rw [hu]; rfl
  have htake : scan (· != 0) (s.addFdToArray fd).maxFd (s.addFdToArray fd).fdArray = .found 0 := by
    rw [harray, hmax]
    exact scan_head hm (by simpa using hfd) rest
  have hvalue : ((s.addFdToArray fd).fdArray.getD []).getD 0 0 = fd := by
    rw [harray]
    rfl
  have hget : (s.addFdToArray fd).getFd = { (s.addFdToArray fd).store 0 0 with
      returned := (s.addFdToArray fd).returned ++ [fd] } := by
    conv_lhs => unfold State.getFd
    rw [htake]
    dsimp only
    rw [hvalue]
  have hstep := CallStep.take htake
  rw [hvalue] at hstep
  refine ⟨_, .cons (.put hfd hnew hput) (.single hstep), ?_, ?_, ?_⟩
  · rw [hget]
    exact hmax
  · rw [hget]
    simp [State.store, harray]
  · rw [hget, hu]
    rfl

/-- As many rounds as one likes. -/
theorem rounds_run {rest : List Int} (k : Nat) {next : Int} (hm : s.maxFd ≠ 0)
    (ha : s.fdArray = some (0 :: rest)) (hnext : 0 < next) (hnew : ∀ x ∈ s.accepted, x < next) :
    ∃ t, (calls m).Run s (rounds k next) t := by
  induction k generalizing s next with
  | zero => exact ⟨s, .nil s⟩
  | succ k ih =>
    obtain ⟨u, hrun, hmax, hu, hacc⟩ := round_run (m := m) hm ha (Int.ne_of_gt hnext)
      (fun hmem => Int.lt_irrefl next (hnew next hmem))
    obtain ⟨t, hrest⟩ := ih (hmax ▸ hm) hu (Int.lt_add_one_of_le (Int.le_of_lt hnext)) (by
      intro x hx
      rw [hacc] at hx
      rcases List.mem_append.1 hx with hx | hx
      · exact Int.lt_add_one_of_le (Int.le_of_lt (hnew x hx))
      · rw [List.mem_singleton.1 hx]
        exact Int.lt_succ next)
    exact ⟨t, hrun.append hrest⟩

theorem stored_rounds (k : Nat) (next : Int) :
    stored (rounds k next) = taken (rounds k next) ∧ (taken (rounds k next)).length = k ∧
      ∀ x ∈ stored (rounds k next), next ≤ x := by
  induction k generalizing next with
  | zero =>
    refine ⟨rfl, rfl, ?_⟩
    intro x hx
    cases hx
  | succ k ih =>
    obtain ⟨heq, hlen, hle⟩ := ih (next + 1)
    refine ⟨congrArg (next :: ·) heq, congrArg (· + 1) hlen, ?_⟩
    intro x hx
    rcases List.mem_cons.1 hx with rfl | hx
    · exact Int.le_refl _
    · have := hle x hx
      omega

/-- **A descriptor in slot 1 is overtaken** by as many as are stored while it waits. -/
theorem overtaken_often (k : Nat) : ∃ t, (calls (m + 2)).Run (initialised (m + 2))
    ([.put 1 0] ++ .put 2 1 :: .take 1 0 :: rounds k 3) t ∧
      (∀ j, .take 2 j ∉ .take 1 0 :: rounds k 3) ∧
      (overtakers (.take 1 0 :: rounds k 3)).length = k := by
  let rest := List.replicate m (0 : Int)
  let s₁ : State := { initialised (m + 2) with fdArray := some (1 :: 0 :: rest), accepted := [1] }
  let s₂ : State := { s₁ with fdArray := some (1 :: 2 :: rest), accepted := [1, 2] }
  let s₃ : State := { s₂ with fdArray := some (0 :: 2 :: rest), returned := [1] }
  have hput₁ : CallStep (initialised (m + 2)) (.put 1 0) s₁ :=
    .put (by decide) List.not_mem_nil (scan_head (Nat.succ_ne_zero _) rfl (0 :: rest))
  have hput₂ : CallStep s₁ (.put 2 1) s₂ := by
    have hscan : scan (· == 0) s₁.maxFd s₁.fdArray = .found 1 := by
      simp [scan, s₁, initialised, List.findIdx?_cons]
    have hstep : CallStep s₁ (.put 2 1) (s₁.addFdToArray 2) :=
      .put (by decide) (by simp [s₁]) hscan
    unfold State.addFdToArray at hstep
    rw [hscan] at hstep
    exact hstep
  have htake : CallStep s₂ (.take 1 0) s₃ := by
    have hscan : scan (· != 0) s₂.maxFd s₂.fdArray = .found 0 :=
      scan_head (Nat.succ_ne_zero _) rfl (2 :: rest)
    have hstep : CallStep s₂ (.take 1 0) s₂.getFd := .take hscan
    unfold State.getFd at hstep
    rw [hscan] at hstep
    exact hstep
  have haccepted : ∀ x ∈ s₃.accepted, x < 3 := by simp [s₃, s₂]
  obtain ⟨t, hrun⟩ := rounds_run (m := m + 2) (s := s₃) k (Nat.succ_ne_zero _) rfl
    (by decide : (0 : Int) < 3) haccepted
  obtain ⟨hstored, hlen, hle⟩ := stored_rounds k 3
  refine ⟨t, .cons hput₁ (.cons hput₂ (.cons htake hrun)), ?_, ?_⟩
  · intro j hj
    rcases List.mem_cons.1 hj with hj | hj
    · cases hj
    · have hmem : (2 : Int) ∈ taken (rounds k 3) :=
        List.mem_filterMap.2 ⟨.take 2 j, hj, rfl⟩
      have := hle 2 (hstored ▸ hmem)
      omega
  · have hfirst : (1 : Int) ∉ stored (rounds k 3) := by
      intro hmem
      have := hle 1 hmem
      omega
    have htaken : taken (.take 1 0 :: rounds k 3) = 1 :: stored (rounds k 3) :=
      congrArg (1 :: ·) hstored.symm
    have hlater : stored (.take 1 0 :: rounds k 3) = stored (rounds k 3) := rfl
    rw [overtakers, htaken, hlater, List.filter_cons_of_neg (by simpa using hfirst),
      List.filter_eq_self.2 (by simp), hstored, hlen]

/-- **What overtakes a descriptor.** While it waits in slot `i`, `get_fd` hands out only from slots
below `i`, and those of the descriptors that have been stored after it are not more than have been
stored below it. So nothing overtakes a descriptor in slot 0, and with one slot nothing overtakes
any. With two slots or more there is no bound: for every `k` there is a run in which a descriptor is
overtaken by `k` others while it waits. -/
theorem overtaken (m : Nat) :
    (∀ s t pre d i post, (calls m).init s → (calls m).Run s (pre ++ .put d i :: post) t →
      (∀ j, .take d j ∉ post) →
      (∀ x j, .take x j ∈ post → j < i) ∧
      (overtakers post).length ≤ (storedBelow i post).length ∧
      (i = 0 → overtakers post = []) ∧ (m = 1 → overtakers post = [])) ∧
    (2 ≤ m → ∀ k, ∃ s t pre d i post, (calls m).init s ∧
      (calls m).Run s (pre ++ .put d i :: post) t ∧ (∀ j, .take d j ∉ post) ∧
      (overtakers post).length = k) := by
  constructor
  · intro s t pre d i post hs hrun hpost
    obtain ⟨hlt, base, a, hzero, ⟨b, -, -, hcount⟩, hbelow, hlater⟩ := waited_of_put hs hrun hpost
    have hnone : i = 0 → overtakers post = [] := by
      rintro rfl
      have htaken : taken post = [] := by
        rw [taken, List.filterMap_eq_nil_iff]
        intro e he
        cases e with
        | take x j => exact absurd (hbelow x j he) (Nat.not_lt_zero j)
        | put | full | empty => rfl
      rw [overtakers, htaken]
      rfl
    refine ⟨hbelow, ?_, hnone, fun hm => hnone (by omega)⟩
    have hsub : (overtakers post).Sublist ((taken post).filter (· ∉ base)) := by
      refine List.monotone_filter_right _ ?_
      intro x hx
      simpa using hlater x (by simpa using hx)
    have hle := hsub.length_le
    omega
  · intro hm k
    obtain ⟨n, rfl⟩ : ∃ n, m = n + 2 := ⟨m - 2, by omega⟩
    obtain ⟨t, hrun, hpost, hlen⟩ := overtaken_often (m := n) k
    exact ⟨_, t, _, _, _, _, rfl, hrun, hpost, hlen⟩

/-- With two slots, the descriptor in slot 1 waits while three that came after it are handed out. -/
theorem overtaken_three : ¬ ∀ m s t pre d i post, 1 ≤ m → (calls m).init s →
    (calls m).Run s (pre ++ .put d i :: post) t → (∀ j, .take d j ∉ post) →
      (overtakers post).length ≤ m := by
  intro hall
  obtain ⟨t, hrun, hpost, hlen⟩ := overtaken_often (m := 0) 3
  have hle := hall 2 _ t _ _ _ _ (by decide) rfl hrun hpost
  omega

end Runs

end Heimdall.FdArray
