import Mathlib.Data.List.Perm.Basic
import Heimdall.Lib.System

/-!
# The array of descriptors

`main` puts the descriptor of every connection that it accepts into `fd_array` (`add_fd_to_array`,
tried until it succeeds), and the pool thread takes them out again (`get_fd`). Both hold the mutex.
`init_pool`, on the pool thread, stores the size, then the array, then clears the array slot by
slot, and it does not hold the mutex. `main` does not wait for it.

The array comes from `malloc`, with any content. A descriptor that goes into a slot which is still
to be cleared is lost, and while the size is there and the array is not, `add_fd_to_array` follows a
null pointer (`fault`). In all other runs nothing is lost, doubled or invented (`conserved_iff`).

`accepted` and `returned` record the descriptors that the two functions have reported success for;
no code reads them.
-/

namespace Heimdall.FdArray

/-- What `init_pool` does next. -/
inductive Pc
  | reset
  | size
  | malloc
  | clear (i : Nat)
  | loop
  deriving DecidableEq

/-- `main` is the descriptor that `main` is trying to add. -/
structure State where
  maxFd : Nat
  fdArray : Option (List Int)
  pc : Pc
  main : Option Int
  fault : Bool
  accepted : List Int
  returned : List Int

/-- What the loop over the slots comes to. -/
inductive Scan
  | fault
  | nothing
  | found (i : Nat)
  deriving DecidableEq

/-- The first slot whose content meets `p`. -/
def scan (p : Int → Bool) (maxFd : Nat) (fdArray : Option (List Int)) : Scan :=
  if maxFd = 0 then .nothing
  else
    match fdArray with
    | none => .fault
    | some a =>
      match (a.take maxFd).findIdx? p with
      | none => .nothing
      | some i => .found i

/-- `fd_array[i] = fd`. -/
def State.store (s : State) (i : Nat) (fd : Int) : State :=
  { s with fdArray := s.fdArray.map (fun a => a.set i fd) }

/-- `add_fd_to_array`, which `main` leaves only after it has succeeded. -/
def State.addFdToArray (s : State) (fd : Int) : State :=
  match scan (· == 0) s.maxFd s.fdArray with
  | .fault => { s with fault := true }
  | .nothing => s
  | .found i => { s.store i fd with main := none, accepted := s.accepted ++ [fd] }

/-- `get_fd`. -/
def State.getFd (s : State) : State :=
  match scan (· != 0) s.maxFd s.fdArray with
  | .fault => { s with fault := true }
  | .nothing => s
  | .found i => { s.store i 0 with returned := s.returned ++ [(s.fdArray.getD []).getD i 0] }

inductive Event
  | accept (fd : Int)
  | add
  | init
  | get

/-- One step, `max_fd` being configured as `m`. There is none after a fault. -/
inductive Step (m : Nat) : State → Event → State → Prop
  | accept {s : State} {fd : Int} (hf : s.fault = false) (hm : s.main = none) (hfd : fd ≠ 0) :
      Step m s (.accept fd) { s with main := some fd }
  | add {s : State} {fd : Int} (hf : s.fault = false) (hm : s.main = some fd) :
      Step m s .add (s.addFdToArray fd)
  | reset {s : State} (hf : s.fault = false) (hp : s.pc = .reset) :
      Step m s .init { s with maxFd := 0, pc := .size }
  | size {s : State} (hf : s.fault = false) (hp : s.pc = .size) :
      Step m s .init { s with maxFd := m, pc := .malloc }
  | malloc {s : State} (hf : s.fault = false) (hp : s.pc = .malloc) (a : List Int)
      (ha : a.length = s.maxFd) : Step m s .init { s with fdArray := some a, pc := .clear 0 }
  | clear {s : State} {i : Nat} (hf : s.fault = false) (hp : s.pc = .clear i) (hi : i < s.maxFd) :
      Step m s .init { s.store i 0 with pc := .clear (i + 1) }
  | loop {s : State} {i : Nat} (hf : s.fault = false) (hp : s.pc = .clear i) (hi : s.maxFd ≤ i) :
      Step m s .init { s with pc := .loop }
  | get {s : State} (hf : s.fault = false) (hp : s.pc = .loop) : Step m s .get s.getFd

/-- Nothing has been stored and no connection accepted. -/
def startUp (m : Nat) : System State Event where
  init s := s.maxFd = 0 ∧ s.fdArray = none ∧ s.pc = .reset ∧ s.main = none ∧ s.fault = false ∧
    s.accepted = [] ∧ s.returned = []
  step := Step m

/-! ## What counts -/

/-- How many slots have been cleared. -/
def State.cleared (s : State) : Nat :=
  match s.pc with
  | .clear i => i
  | .loop => s.maxFd
  | _ => 0

/-- The descriptors in the array: its contents that are not 0. -/
def State.contents (s : State) : List Int := (s.fdArray.getD []).filter (· != 0)

/-- Those in the slots that have been cleared. -/
def State.live (s : State) : List Int := ((s.fdArray.getD []).take s.cleared).filter (· != 0)

/-- A call of `add_fd_to_array` does not meet a missing array, and the slot that it finds, if it
finds one, has been cleared. -/
def Safe (s : State) : Event → Prop
  | .add =>
    match scan (· == 0) s.maxFd s.fdArray with
    | .fault => False
    | .nothing => True
    | .found i => i < s.cleared
  | _ => True

/-- The runs whose steps are all safe. -/
def safeRuns (m : Nat) : System State Event := (startUp m).restrict (fun s e _ => Safe s e)

/-- The size of the array, and how far `init_pool` is. -/
def State.Shape (s : State) : Prop :=
  match s.pc with
  | .reset => s.maxFd = 0 ∧ s.fdArray = none
  | .size => s.maxFd = 0 ∧ s.fdArray = none
  | .malloc => s.fdArray = none
  | .clear i => i ≤ s.maxFd ∧ ∃ a, s.fdArray = some a ∧ a.length = s.maxFd
  | .loop => ∃ a, s.fdArray = some a ∧ a.length = s.maxFd

/-- What every step keeps. -/
structure Invariant (s : State) : Prop where
  main : ∀ fd, s.main = some fd → fd ≠ 0
  shape : s.Shape

/-- What a step does to the descriptors that count. -/
inductive Effect (s t : State) : Prop
  | idle (ha : t.accepted = s.accepted) (hr : t.returned = s.returned) (hl : t.live = s.live)
  | put (fd : Int) (ha : t.accepted = s.accepted ++ [fd]) (hr : t.returned = s.returned)
      (hl : t.live.Perm (fd :: s.live))
  | got (fd : Int) (ha : t.accepted = s.accepted) (hr : t.returned = s.returned ++ [fd])
      (hl : s.live.Perm (fd :: t.live))

section Slots

variable {a : List Int} {i : Nat} {fd : Int}

/-- A free slot is taken. -/
theorem filter_put (hi : a[i]? = some 0) (hfd : fd ≠ 0) :
    ((a.set i fd).filter (· != 0)).Perm (fd :: a.filter (· != 0)) := by
  have h := (List.getD_set_perm_cons a i fd).filter (· != 0)
  rw [hi] at h
  simpa [hfd] using h

/-- A slot is emptied. -/
theorem filter_got (hi : a[i]? = some fd) (hfd : fd ≠ 0) :
    (a.filter (· != 0)).Perm (fd :: (a.set i 0).filter (· != 0)) := by
  have h := (List.getD_set_perm_cons a i 0).filter (· != 0)
  rw [hi] at h
  simpa [hfd] using h.symm

theorem scan_found {p : Int → Bool} {maxFd : Nat} {fdArray : Option (List Int)}
    (h : scan p maxFd fdArray = .found i) :
    ∃ a v, fdArray = some a ∧ i < maxFd ∧ a[i]? = some v ∧ p v = true := by
  unfold scan at h
  split at h
  · cases h
  · split at h
    · cases h
    · next a =>
      split at h
      · cases h
      · next j hj =>
        cases h
        obtain ⟨hlt, hp, -⟩ := List.findIdx?_eq_some_iff_getElem.1 hj
        rw [List.getElem_take] at hp
        rw [List.length_take] at hlt
        exact ⟨a, a[i], rfl, by omega, List.getElem?_eq_getElem _, hp⟩

end Slots

section Steps

variable {m : Nat} {s t : State} {e : Event}

theorem invariant_init (h : (startUp m).init s) : Invariant s := by
  obtain ⟨hmax, harr, hpc, hmain, -⟩ := h
  refine ⟨fun fd hfd => ?_, ?_⟩
  · rw [hmain] at hfd
    cases hfd
  · unfold State.Shape
    rw [hpc]
    exact ⟨hmax, harr⟩

/-- Storing in a slot changes neither the size nor how far `init_pool` is. -/
theorem State.Shape.store (hS : s.Shape) (i : Nat) (fd : Int) : (s.store i fd).Shape := by
  unfold State.Shape at hS ⊢
  cases hpc : s.pc with
  | reset | size =>
    simp only [hpc] at hS
    simpa [State.store, hpc] using hS
  | malloc =>
    simp only [hpc] at hS
    simpa [State.store, hpc] using hS
  | clear j =>
    simp only [hpc] at hS
    obtain ⟨hj, a, ha, hlen⟩ := hS
    simpa [State.store, hpc, ha, hlen] using hj
  | loop =>
    simp only [hpc] at hS
    obtain ⟨a, ha, hlen⟩ := hS
    simpa [State.store, hpc, ha] using hlen

theorem invariant_step (hI : Invariant s) (h : Step m s e t) : Invariant t := by
  obtain ⟨hmain, hS⟩ := hI
  cases h with
  | accept hf hm hfd =>
    refine ⟨fun fd hfd' => ?_, hS⟩
    cases hfd'
    exact hfd
  | @add fd hf hm =>
    unfold State.addFdToArray
    split
    · exact ⟨hmain, hS⟩
    · exact ⟨hmain, hS⟩
    · next i hi =>
      refine ⟨fun fd hfd => ?_, hS.store i fd⟩
      cases hfd
  | reset hf hp =>
    simp only [State.Shape, hp] at hS
    exact ⟨hmain, rfl, hS.2⟩
  | size hf hp =>
    simp only [State.Shape, hp] at hS
    exact ⟨hmain, hS.2⟩
  | malloc hf hp a ha => exact ⟨hmain, Nat.zero_le _, a, rfl, ha⟩
  | @clear i hf hp hi =>
    simp only [State.Shape, hp] at hS
    obtain ⟨-, a, ha, hlen⟩ := hS
    refine ⟨hmain, Nat.succ_le_of_lt hi, a.set i 0, ?_, ?_⟩
    · simp [State.store, ha]
    · exact List.length_set.trans hlen
  | loop hf hp hi =>
    simp only [State.Shape, hp] at hS
    exact ⟨hmain, hS.2⟩
  | get hf hp =>
    unfold State.getFd
    split
    · exact ⟨hmain, hS⟩
    · exact ⟨hmain, hS⟩
    · next i hi => exact ⟨hmain, hS.store i 0⟩

/-! ## What a step does -/

theorem State.live_eq {a : List Int} (ha : s.fdArray = some a) :
    s.live = (a.take s.cleared).filter (· != 0) := by
  rw [State.live, ha]
  rfl

theorem State.live_store {a : List Int} (ha : s.fdArray = some a) (i : Nat) (fd : Int) :
    (s.store i fd).live = ((a.take s.cleared).set i fd).filter (· != 0) := by
  have hstore : (s.store i fd).fdArray = some (a.set i fd) := by simp [State.store, ha]
  rw [State.live_eq hstore, List.take_set]
  rfl

/-- A descriptor put into a slot that is still to be cleared does not count. -/
theorem State.live_store_beyond {a : List Int} {i : Nat} (ha : s.fdArray = some a)
    (hi : s.cleared ≤ i) (fd : Int) : (s.store i fd).live = s.live := by
  rw [State.live_store ha, State.live_eq ha, List.set_eq_of_length_le]
  rw [List.length_take]
  omega

theorem addFdToArray_effect {fd : Int} (hI : Invariant s) (hf : s.fault = false)
    (hm : s.main = some fd) (hs : Safe s .add) :
    (s.addFdToArray fd).fault = false ∧ Effect s (s.addFdToArray fd) := by
  unfold Safe at hs
  unfold State.addFdToArray
  cases hscan : scan (· == 0) s.maxFd s.fdArray with
  | fault =>
    rw [hscan] at hs
    exact hs.elim
  | nothing => exact ⟨hf, .idle rfl rfl rfl⟩
  | found i =>
    rw [hscan] at hs
    obtain ⟨a, v, ha, -, hv, hp⟩ := scan_found hscan
    have hzero : (a.take s.cleared)[i]? = some 0 := by
      rw [List.getElem?_take_of_lt hs, hv]
      simpa using hp
    refine ⟨hf, .put fd rfl rfl ?_⟩
    rw [State.live_eq ha]
    refine List.Perm.trans ?_ (filter_put hzero (hI.main fd hm))
    rw [← State.live_store ha]
    exact List.Perm.refl _

/-- A call that is not safe ends in a fault or loses the descriptor. -/
theorem addFdToArray_lost (fd : Int) (hs : ¬ Safe s .add) :
    (s.addFdToArray fd).fault = true ∨
      (s.addFdToArray fd).accepted = s.accepted ++ [fd] ∧
        (s.addFdToArray fd).returned = s.returned ∧ (s.addFdToArray fd).live = s.live := by
  unfold Safe at hs
  unfold State.addFdToArray
  cases hscan : scan (· == 0) s.maxFd s.fdArray with
  | fault => exact .inl rfl
  | nothing =>
    rw [hscan] at hs
    exact (hs trivial).elim
  | found i =>
    rw [hscan] at hs
    obtain ⟨a, v, ha, -⟩ := scan_found hscan
    exact .inr ⟨rfl, rfl, State.live_store_beyond ha (Nat.le_of_not_lt hs) fd⟩

theorem getFd_effect (hI : Invariant s) (hf : s.fault = false) (hp : s.pc = .loop) :
    s.getFd.fault = false ∧ Effect s s.getFd := by
  unfold State.getFd
  cases hscan : scan (· != 0) s.maxFd s.fdArray with
  | fault =>
    have hS := hI.shape
    simp only [State.Shape, hp] at hS
    obtain ⟨a, ha, -⟩ := hS
    unfold scan at hscan
    rw [ha] at hscan
    dsimp only at hscan
    split at hscan
    · cases hscan
    · split at hscan <;> cases hscan
  | nothing => exact ⟨hf, .idle rfl rfl rfl⟩
  | found i =>
    obtain ⟨a, v, ha, hi, hv, hne⟩ := scan_found hscan
    have hcleared : s.cleared = s.maxFd := by rw [State.cleared, hp]
    have hvalue : (a.take s.cleared)[i]? = some v := by
      rw [List.getElem?_take_of_lt (by omega), hv]
    have hreturned : (s.fdArray.getD []).getD i 0 = v := by
      rw [ha]
      simp [hv]
    refine ⟨hf, .got v rfl ?_ ?_⟩
    · dsimp only
      rw [hreturned]
    · rw [State.live_eq ha]
      refine (filter_got hvalue (by simpa using hne)).trans ?_
      rw [← State.live_store ha]
      exact List.Perm.refl _

/-- A step that meets the condition loses nothing. -/
theorem safe_effect (hI : Invariant s) (h : Step m s e t) (hs : Safe s e) :
    t.fault = false ∧ Effect s t := by
  have hS := hI.shape
  cases h with
  | accept hf hm hfd => exact ⟨hf, .idle rfl rfl rfl⟩
  | add hf hm => exact addFdToArray_effect hI hf hm hs
  | reset hf hp => exact ⟨hf, .idle rfl rfl (by simp [State.live, State.cleared, hp])⟩
  | size hf hp => exact ⟨hf, .idle rfl rfl (by simp [State.live, State.cleared, hp])⟩
  | malloc hf hp a ha => exact ⟨hf, .idle rfl rfl (by simp [State.live, State.cleared, hp])⟩
  | @clear i hf hp hi =>
    simp only [State.Shape, hp] at hS
    obtain ⟨-, a, ha, hlen⟩ := hS
    refine ⟨hf, .idle rfl rfl ?_⟩
    have hcleared : s.cleared = i := by rw [State.cleared, hp]
    have hnext : (a.set i 0).take (i + 1) = a.take i ++ [0] := by
      rw [List.take_add_one, List.take_set_of_le (Nat.le_refl i),
        List.getElem?_set_self (by omega)]
      rfl
    have hnow : ({ s.store i 0 with pc := .clear (i + 1) } : State).live =
        ((a.set i 0).take (i + 1)).filter (· != 0) := by
      apply State.live_eq
      simp [State.store, ha]
    rw [hnow, hnext, State.live_eq ha, hcleared, List.filter_append]
    simp
  | @loop i hf hp hi =>
    simp only [State.Shape, hp] at hS
    obtain ⟨hle, -⟩ := hS
    obtain rfl : i = s.maxFd := Nat.le_antisymm hle hi
    exact ⟨hf, .idle rfl rfl (by simp [State.live, State.cleared, hp])⟩
  | get hf hp => exact getFd_effect hI hf hp

theorem Effect.perm (h : Effect s t) (hs : s.accepted.Perm (s.returned ++ s.live)) :
    t.accepted.Perm (t.returned ++ t.live) := by
  cases h with
  | idle ha hr hl =>
    rw [ha, hr, hl]
    exact hs
  | put fd ha hr hl =>
    rw [ha, hr]
    calc (s.accepted ++ [fd]).Perm (fd :: s.accepted) := List.perm_append_singleton fd _
      List.Perm _ (fd :: (s.returned ++ s.live)) := hs.cons fd
      List.Perm _ (s.returned ++ fd :: s.live) := List.perm_middle.symm
      List.Perm _ (s.returned ++ t.live) := hl.symm.append_left _
  | got fd ha hr hl =>
    rw [ha, hr, List.append_assoc]
    exact hs.trans (hl.append_left _)

theorem Effect.length (h : Effect s t) :
    t.accepted.length + (s.returned.length + s.live.length) =
      s.accepted.length + (t.returned.length + t.live.length) := by
  cases h with
  | idle ha hr hl => rw [ha, hr, hl]
  | put fd ha hr hl =>
    rw [ha, hr, hl.length_eq, List.length_append]
    simp only [List.length_cons, List.length_nil]
    omega
  | got fd ha hr hl =>
    rw [ha, hr, hl.length_eq, List.length_append, List.length_cons, List.length_singleton]
    omega

/-! ## Runs -/

/-- A fault, or at least `k` of the accepted descriptors are neither returned nor in the array. -/
def State.Short (s : State) (k : Nat) : Prop :=
  s.fault = true ∨ s.returned.length + s.live.length + k ≤ s.accepted.length

theorem Step.fault_eq (h : Step m s e t) : s.fault = false := by
  cases h <;> assumption

/-- What is missing stays so, and a step that is not safe adds to it. -/
theorem short_step {k : Nat} (hI : Invariant s) (h : Step m s e t) (hk : s.Short k) :
    t.Short k ∧ (¬ Safe s e → t.Short (k + 1)) := by
  have hk : s.returned.length + s.live.length + k ≤ s.accepted.length := by
    rcases hk with hf | hk
    · rw [h.fault_eq] at hf
      cases hf
    · exact hk
  by_cases hs : Safe s e
  · obtain ⟨-, heffect⟩ := safe_effect hI h hs
    have hlength := heffect.length
    exact ⟨.inr (by omega), fun h0 => absurd hs h0⟩
  · have hlost : t.Short (k + 1) := by
      cases h with
      | @add fd hf hm =>
        rcases addFdToArray_lost fd hs with h0 | ⟨ha, hr, hl⟩
        · exact .inl h0
        · right
          rw [ha, hr, hl, List.length_append, List.length_singleton]
          omega
      | accept | reset | size | malloc | clear | loop | get => exact absurd trivial hs
    refine ⟨?_, fun _ => hlost⟩
    rcases hlost with h0 | h0
    · exact .inl h0
    · exact .inr (by omega)

theorem run_short {k : Nat} {es : List Event} (hI : Invariant s) (h : (startUp m).Run s es t)
    (hk : s.Short k) : t.Short k := by
  have hall : Invariant t ∧ t.Short k :=
    h.invariant (fun u => Invariant u ∧ u.Short k)
      (fun u a v hu ha => ⟨invariant_step hu.1 ha, (short_step hu.1 ha hu.2).1⟩) ⟨hI, hk⟩
  exact hall.2

/-- Either all steps are safe, or something is missing in the end. -/
theorem safe_or_short {es : List Event} (hI : Invariant s) (h : (startUp m).Run s es t)
    (hk : s.Short 0) : (safeRuns m).Run s es t ∨ t.Short 1 := by
  induction h with
  | nil s => exact .inl (.nil s)
  | @cons s u t e es hs hr ih =>
    have hI' : Invariant u := invariant_step hI hs
    obtain ⟨hk', hlost⟩ := short_step hI hs hk
    by_cases hsafe : Safe s e
    · rcases ih hI' hk' with hrun | hshort
      · exact .inl (.cons ⟨hs, hsafe⟩ hrun)
      · exact .inr hshort
    · exact .inr (run_short hI' hr (hlost hsafe))

/-- Once `init_pool` is in its loop, all slots count. -/
theorem contents_eq_live (hI : Invariant s) (hp : s.pc = .loop) : s.contents = s.live := by
  have hS := hI.shape
  simp only [State.Shape, hp] at hS
  obtain ⟨a, ha, hlen⟩ := hS
  have hcleared : s.cleared = a.length := by rw [State.cleared, hp, hlen]
  rw [State.live_eq ha, hcleared, List.take_length, State.contents, ha]
  rfl

end Steps

/-- There has been no fault, and once `init_pool` is in its loop the descriptors that were accepted
are those that were returned and those in the array. -/
def State.Conserved (s : State) : Prop :=
  s.fault = false ∧ (s.pc = .loop → s.accepted.Perm (s.returned ++ s.contents))

/-- **No descriptor is lost, doubled or invented** in the runs in which no `add_fd_to_array` comes
between the stores of the size and of the array and none puts its descriptor into a slot that is
still to be cleared; and in no other run that gets through the start-up or to a fault. -/
theorem conserved_iff {m : Nat} {s t : State} {es : List Event} (h0 : (startUp m).init s)
    (hr : (startUp m).Run s es t) :
    ((safeRuns m).Run s es t → t.Conserved) ∧
      (t.fault = true ∨ t.pc = .loop → t.Conserved → (safeRuns m).Run s es t) := by
  have hI := invariant_init h0
  have hI' : Invariant t := hr.invariant Invariant (fun _ _ _ hu ha => invariant_step hu ha) hI
  obtain ⟨hmax, harr, hpc, hmain, hf, ha, hret⟩ := h0
  have hlive : s.live = [] := by simp [State.live, harr]
  constructor
  · intro hrun
    have hperm : s.accepted.Perm (s.returned ++ s.live) := by rw [ha, hret, hlive]; rfl
    obtain ⟨-, hf', hperm'⟩ := hrun.invariant
      (fun u => Invariant u ∧ u.fault = false ∧ u.accepted.Perm (u.returned ++ u.live))
      (fun u e v hu hv => by
        obtain ⟨hstep, hsafe⟩ := hv
        obtain ⟨hfault, heffect⟩ := safe_effect hu.1 hstep hsafe
        exact ⟨invariant_step hu.1 hstep, hfault, heffect.perm hu.2.2⟩)
      ⟨hI, hf, hperm⟩
    refine ⟨hf', fun hp => ?_⟩
    rw [contents_eq_live hI' hp]
    exact hperm'
  · intro hend hcons
    obtain ⟨hf', hperm⟩ := hcons
    have hp : t.pc = .loop := by
      rcases hend with hend | hend
      · rw [hf'] at hend
        cases hend
      · exact hend
    have hlength := (hperm hp).length_eq
    rw [contents_eq_live hI' hp, List.length_append] at hlength
    rcases safe_or_short hI hr (.inr (by rw [hret, hlive]; simp)) with hrun | hshort | hshort
    · exact hrun
    · rw [hf'] at hshort
      cases hshort
    · omega

/-- Before anything has been stored. -/
def beforeInit : State where
  maxFd := 0
  fdArray := none
  pc := .reset
  main := none
  fault := false
  accepted := []
  returned := []

theorem beforeInit_init (m : Nat) : (startUp m).init beforeInit :=
  ⟨rfl, rfl, rfl, rfl, rfl, rfl, rfl⟩

/-- The descriptor 5 comes when the only slot has been cleared. -/
theorem conserved_after_clear : ∃ t, (startUp 1).Run beforeInit
    [.init, .init, .init, .init, .init, .accept 5, .add, .get] t ∧ t.returned = [5] ∧
      t.Conserved := by
  have h : (safeRuns 1).Run beforeInit
      [.init, .init, .init, .init, .init, .accept 5, .add, .get] _ :=
    .cons ⟨.reset rfl rfl, trivial⟩ <| .cons ⟨.size rfl rfl, trivial⟩ <|
      .cons ⟨.malloc rfl rfl [0] rfl, trivial⟩ <|
      .cons ⟨.clear rfl rfl Nat.zero_lt_one, trivial⟩ <|
      .cons ⟨.loop rfl rfl (Nat.le_refl 1), trivial⟩ <|
      .cons ⟨.accept rfl rfl (by decide), trivial⟩ <|
      .cons ⟨.add rfl rfl, Nat.zero_lt_one⟩ <| .cons ⟨.get rfl rfl, trivial⟩ <| .nil _
  exact ⟨_, h.of_restrict, rfl, (conserved_iff (beforeInit_init 1) h.of_restrict).1 h⟩

/-- It comes when `malloc` has returned and the slot, which contains 0, is still to be cleared. -/
theorem descriptor_lost : ¬ ∀ (m : Nat) (s t : State) (es : List Event), 1 ≤ m →
    (startUp m).init s → (startUp m).Run s es t → t.pc = .loop →
      t.accepted.Perm (t.returned ++ t.contents) := by
  intro hall
  have h : (startUp 1).Run beforeInit [.init, .init, .init, .accept 5, .add, .init, .init] _ :=
    .cons (.reset rfl rfl) <| .cons (.size rfl rfl) <| .cons (.malloc rfl rfl [0] rfl) <|
      .cons (.accept rfl rfl (by decide)) <| .cons (.add rfl rfl) <|
      .cons (.clear rfl rfl Nat.zero_lt_one) <| .cons (.loop rfl rfl (Nat.le_refl 1)) <| .nil _
  have hperm := hall 1 _ _ _ (Nat.le_refl 1) (beforeInit_init 1) h rfl
  exact absurd hperm.length_eq (by decide)

end Heimdall.FdArray
