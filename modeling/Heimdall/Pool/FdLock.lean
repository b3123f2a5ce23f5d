import Heimdall.Lib.Sections
import Heimdall.Pool.Overtake

/-!
# The mutex of the array of descriptors

`add_fd_to_array` (of `main`) and `get_fd` (of the pool thread) go slot by slot through the array,
and what they find at a slot they use a step later: a free slot is filled, a descriptor is copied
and then its slot cleared. In `Heimdall.FdArray` a call is one step. Here each look at a slot and
each store is one, and the two threads are interleaved, with the mutex held from the first to the
last step of a call.

On an initialised array the calls are then what they are as single steps, in the order in which the
mutex is given back, and every sequence of single steps comes about (`calls_iff`).
-/

namespace Heimdall.FdArray

namespace Lock

/-- A call that is being made. -/
inductive Code
  | add (fd : Int)
  | get

inductive Thread
  | main
  | pool
  deriving DecidableEq

def Code.thread : Code → Thread
  | .add _ => .main
  | .get => .pool

/-- What the call looks for. -/
def Code.wants : Code → Int → Bool
  | .add _, v => v == 0
  | .get, v => v != 0

/-- What the call comes to when no slot has it. -/
def Code.failed : Code → Call
  | .add fd => .full fd
  | .get => .empty

/-- How far a call is: it looks at a slot, it has found one, it has copied the descriptor, or it is
over. -/
inductive Local
  | look (i : Nat)
  | hit (i : Nat)
  | got (i : Nat) (v : Int)
  | done (r : Call)

inductive Inner (m : Nat) : (Code × Local) × List Int → (Code × Local) × List Int → Prop
  | miss {code : Code} {i : Nat} {a : List Int} {v : Int} (hi : i < m) (hv : a[i]? = some v)
      (hw : code.wants v = false) : Inner m ((code, .look i), a) ((code, .look (i + 1)), a)
  | hit {code : Code} {i : Nat} {a : List Int} {v : Int} (hi : i < m) (hv : a[i]? = some v)
      (hw : code.wants v = true) : Inner m ((code, .look i), a) ((code, .hit i), a)
  | store {fd : Int} {i : Nat} {a : List Int} :
      Inner m ((.add fd, .hit i), a) ((.add fd, .done (.put fd i)), a.set i fd)
  | copy {i : Nat} {a : List Int} {v : Int} (hv : a[i]? = some v) :
      Inner m ((.get, .hit i), a) ((.get, .got i v), a)
  | clear {i : Nat} {a : List Int} {v : Int} :
      Inner m ((.get, .got i v), a) ((.get, .done (.take v i)), a.set i 0)
  | fail {code : Code} {i : Nat} {a : List Int} (hi : m ≤ i) :
      Inner m ((code, .look i), a) ((code, .done code.failed), a)

/-- The descriptors for which the two functions have reported success. -/
structure Record where
  accepted : List Int
  returned : List Int

/-- `main` has a connection that it has not stored yet, under a number other than 0. Numbers that
`accept` gives out once more stand here for new ones. -/
def Record.Ready (c : Record) : Code → Prop
  | .add fd => fd ≠ 0 ∧ fd ∉ c.accepted
  | .get => True

inductive Record.Commit : Record → Code → Call → Record → Prop
  | put {c : Record} {fd : Int} {i : Nat} (hfd : fd ≠ 0) (hnew : fd ∉ c.accepted) :
      Commit c (.add fd) (.put fd i) { c with accepted := c.accepted ++ [fd] }
  | full {c : Record} {fd : Int} (hfd : fd ≠ 0) (hnew : fd ∉ c.accepted) :
      Commit c (.add fd) (.full fd) c
  | take {c : Record} {v : Int} {i : Nat} :
      Commit c .get (.take v i) { c with returned := c.returned ++ [v] }
  | empty {c : Record} : Commit c .get .empty c

/-- The two functions under `mtx_wait_request`, on an initialised array of `m` slots. -/
def locked (m : Nat) : Sections (List Int) Record Empty Code (Code × Local) Call Thread where
  init a c := a = List.replicate m 0 ∧ c = ⟨[], []⟩
  thread := Code.thread
  start code := (code, .look 0)
  inner := Inner m
  result l r := l.2 = .done r
  outside _ _ _ := False
  ready := Record.Ready
  commit := Record.Commit

/-- The calls are those of `Heimdall.FdArray.calls` in the state with this array and record. -/
def stateOf (m : Nat) (a : List Int) (c : Record) : State :=
  { initialised m with fdArray := some a, accepted := c.accepted, returned := c.returned }

/-- The descriptor that a call brings is a new one. -/
def Proper (s : State) : Call → Prop
  | .full fd => fd ≠ 0 ∧ fd ∉ s.accepted
  | _ => True

/-- The call that an event ends. -/
def called : Sections.Event Empty Code Call → Option Call
  | .post _ r => some r
  | _ => none

def calledBy : Sections.Action Empty Code Call → Call
  | .whole _ r => r
  | .outside e => e.elim

section Scan

variable {p : Int → Bool} {m i : Nat} {a : List Int}

/-- The slot `i` is the first that has what is looked for. -/
structure FirstAt (p : Int → Bool) (a : List Int) (i : Nat) : Prop where
  has : ∃ v, a[i]? = some v ∧ p v = true
  before : ∀ j v, j < i → a[j]? = some v → p v = false

theorem FirstAt.lt (h : FirstAt p a i) : i < a.length := by
  obtain ⟨v, hv, -⟩ := h.has
  exact (List.getElem?_eq_some_iff.1 hv).1

theorem scan_found_iff (ha : a.length = m) : scan p m (some a) = .found i ↔ FirstAt p a i := by
  constructor
  · intro h
    obtain ⟨a', v, ha', -, hv, hp⟩ := scan_found h
    cases ha'
    exact ⟨⟨v, hv, hp⟩, fun j w hj hw => scan_first h hj hw⟩
  · intro h
    have hpos : m ≠ 0 := by
      have := h.lt
      omega
    obtain ⟨v, hv, hp⟩ := h.has
    have hfind : a.findIdx? p = some i := by
      refine List.findIdx?_eq_some_iff_getElem.2 ⟨h.lt, ?_, ?_⟩
      · rw [(List.getElem?_eq_some_iff.1 hv).2]
        exact hp
      · intro j hj
        have hlt : j < a.length := by
          have := h.lt
          omega
        simpa using h.before j a[j] hj (List.getElem?_eq_getElem hlt)
    unfold scan
    dsimp only
    rw [if_neg hpos, List.take_of_length_le (Nat.le_of_eq ha), hfind]

theorem scan_nothing_iff (ha : a.length = m) :
    scan p m (some a) = .nothing ↔ ∀ (j : Nat) v, a[j]? = some v → p v = false := by
  have hscan : scan p m (some a) = .nothing ↔ a.findIdx? p = none := by
    unfold scan
    dsimp only
    rw [List.take_of_length_le (Nat.le_of_eq ha)]
    by_cases hm : m = 0
    · have hnil : a = [] := List.eq_nil_of_length_eq_zero (ha.trans hm)
      simp [hm, hnil]
    · rw [if_neg hm]
      cases a.findIdx? p <;> simp
  rw [hscan, List.findIdx?_eq_none_iff]
  constructor
  · intro h j v hv
    exact h v (List.mem_of_getElem? hv)
  · intro h v hv
    obtain ⟨j, hj⟩ := List.getElem?_of_mem hv
    exact h j v hj

end Scan

/-! ## A call, from its first to its last step -/

/-- Where a call can be, and the array then, when it found the array `a`. -/
inductive Along (m : Nat) (a : List Int) (code : Code) : Code × Local → List Int → Prop
  | look {i : Nat} (hi : i ≤ m) (hb : ∀ j v, j < i → a[j]? = some v → code.wants v = false) :
      Along m a code (code, .look i) a
  | hit {i : Nat} (h : FirstAt code.wants a i) : Along m a code (code, .hit i) a
  | put {fd : Int} {i : Nat} (hc : code = .add fd) (h : FirstAt code.wants a i) :
      Along m a code (code, .done (.put fd i)) (a.set i fd)
  | got {i : Nat} {v : Int} (hc : code = .get) (h : FirstAt code.wants a i)
      (hv : a[i]? = some v) : Along m a code (code, .got i v) a
  | take {i : Nat} {v : Int} (hc : code = .get) (h : FirstAt code.wants a i)
      (hv : a[i]? = some v) : Along m a code (code, .done (.take v i)) (a.set i 0)
  | fail (h : ∀ j v, j < m → a[j]? = some v → code.wants v = false) :
      Along m a code (code, .done code.failed) a

section Calls

variable {m : Nat} {a a' b : List Int} {code : Code} {l l' : Code × Local} {c c' : Record}
  {r : Call}

theorem Along.step (h : Along m a code l b) (hstep : Inner m (l, b) (l', a')) :
    Along m a code l' a' := by
  cases hstep with
  | @miss code i b v hi hv hw =>
    cases h with
    | look _ hb =>
      refine .look (Nat.succ_le_of_lt hi) fun j w hj hjw => ?_
      rcases Nat.lt_succ_iff_lt_or_eq.1 hj with hlt | rfl
      · exact hb j w hlt hjw
      · cases hv.symm.trans hjw
        exact hw
  | hit hi hv hw =>
    cases h with
    | look _ hb => exact .hit ⟨⟨_, hv, hw⟩, hb⟩
  | store =>
    cases h with
    | hit hfirst => exact .put rfl hfirst
  | copy hv =>
    cases h with
    | hit hfirst => exact .got rfl hfirst hv
  | clear =>
    cases h with
    | got hc hfirst hv => exact .take rfl hfirst hv
  | fail hi =>
    cases h with
    | look hle hb =>
      obtain rfl := Nat.le_antisymm hle hi
      exact .fail fun j v => hb j v

theorem along_of_steps
    (h : Relation.ReflTransGen (Inner m) ((code, .look 0), a) (l, b)) : Along m a code l b := by
  obtain ⟨q, hq⟩ : ∃ q, q = (l, b) := ⟨_, rfl⟩
  rw [← hq] at h
  induction h generalizing l b with
  | refl =>
    cases hq
    exact .look (Nat.zero_le m) fun j v hj => absurd hj (Nat.not_lt_zero j)
  | @tail p q _ hstep ih =>
    subst hq
    exact (ih (l := p.1) (b := p.2) rfl).step hstep

/-- The looks at slots that do not have what is looked for. -/
theorem steps_look (code : Code) (ha : a.length = m) {i : Nat} (hi : i ≤ m)
    (hb : ∀ j v, j < i → a[j]? = some v → code.wants v = false) :
    Relation.ReflTransGen (Inner m) ((code, .look 0), a) ((code, .look i), a) := by
  induction i with
  | zero => exact .refl
  | succ i ih =>
    have hlt : i < a.length := by omega
    have hget := List.getElem?_eq_getElem hlt
    exact (ih (by omega) fun j v hj => hb j v (by omega)).tail
      (.miss (by omega) hget (hb i _ (Nat.lt_succ_self i) hget))

theorem steps_hit (code : Code) (ha : a.length = m) {i : Nat} (h : FirstAt code.wants a i) :
    Relation.ReflTransGen (Inner m) ((code, .look 0), a) ((code, .hit i), a) := by
  obtain ⟨v, hv, hw⟩ := h.has
  exact (steps_look code ha (by have := h.lt; omega) h.before).tail
    (.hit (by have := h.lt; omega) hv hw)

section Single

variable {fd v : Int} {i : Nat}

theorem addFdToArray_found (ha : a.length = m) (h : FirstAt (· == 0) a i) (c : Record) (fd : Int) :
    (stateOf m a c).addFdToArray fd =
      stateOf m (a.set i fd) { c with accepted := c.accepted ++ [fd] } := by
  have hi : scan (· == 0) (stateOf m a c).maxFd (stateOf m a c).fdArray = .found i :=
    (scan_found_iff ha).2 h
  unfold State.addFdToArray
  rw [hi]
  rfl

theorem addFdToArray_nothing (h : scan (· == 0) m (some a) = .nothing) (c : Record) (fd : Int) :
    (stateOf m a c).addFdToArray fd = stateOf m a c := by
  have hi : scan (· == 0) (stateOf m a c).maxFd (stateOf m a c).fdArray = .nothing := h
  unfold State.addFdToArray
  rw [hi]

theorem getFd_found (ha : a.length = m) (h : FirstAt (· != 0) a i) (hv : a[i]? = some v)
    (c : Record) : (stateOf m a c).getFd =
      stateOf m (a.set i 0) { c with returned := c.returned ++ [v] } := by
  have hi : scan (· != 0) (stateOf m a c).maxFd (stateOf m a c).fdArray = .found i :=
    (scan_found_iff ha).2 h
  unfold State.getFd
  rw [hi]
  simp [stateOf, State.store, hv]

theorem getFd_nothing (h : scan (· != 0) m (some a) = .nothing) (c : Record) :
    (stateOf m a c).getFd = stateOf m a c := by
  have hi : scan (· != 0) (stateOf m a c).maxFd (stateOf m a c).fdArray = .nothing := h
  unfold State.getFd
  rw [hi]

end Single

/-- **A call is the single step that it is taken for**. -/
theorem callStep_of_atomic (ha : a.length = m) {e : Sections.Action Empty Code Call}
    (h : (locked m).AtomicStep (a, c) e (a', c')) :
    (CallStep (stateOf m a c) (calledBy e) (stateOf m a' c') ∧
      Proper (stateOf m a c) (calledBy e)) ∧ a'.length = m := by
  cases h with
  | outside h => exact h.elim
  | whole heff hc =>
    obtain ⟨⟨code, l⟩, hsteps, hl⟩ := heff
    obtain rfl : l = _ := hl
    have halong := along_of_steps hsteps
    cases hc with
    | @put fd i hfd hnew =>
      cases halong with
      | put _ hfirst =>
        rw [← addFdToArray_found ha hfirst]
        exact ⟨⟨.put hfd hnew ((scan_found_iff ha).2 hfirst), trivial⟩, List.length_set.trans ha⟩
    | @full fd hfd hnew =>
      cases halong with
      | fail hall =>
        have hnothing := (scan_nothing_iff ha).2 fun j v hv =>
          hall j v (ha ▸ (List.getElem?_eq_some_iff.1 hv).1) hv
        have hstep : CallStep (stateOf m a c) (.full fd) _ := .full hnothing
        rw [addFdToArray_nothing hnothing] at hstep
        exact ⟨⟨hstep, hfd, hnew⟩, ha⟩
    | @take v i =>
      cases halong with
      | take _ hfirst hv =>
        have hstep : CallStep (stateOf m a c) (.take _ i) _ := .take ((scan_found_iff ha).2 hfirst)
        rw [getFd_found ha hfirst hv] at hstep
        have hvalue : ((stateOf m a c).fdArray.getD []).getD i 0 = v := by simp [stateOf, hv]
        rw [hvalue] at hstep
        exact ⟨⟨hstep, trivial⟩, List.length_set.trans ha⟩
    | empty =>
      cases halong with
      | fail hall =>
        have hnothing := (scan_nothing_iff ha).2 fun j v hv =>
          hall j v (ha ▸ (List.getElem?_eq_some_iff.1 hv).1) hv
        have hstep : CallStep (stateOf m a c) .empty _ := .empty hnothing
        rw [getFd_nothing hnothing] at hstep
        exact ⟨⟨hstep, trivial⟩, ha⟩

/-- **A single step is a call**. -/
theorem atomic_of_callStep (ha : a.length = m) {t : State}
    (h : CallStep (stateOf m a c) r t) (hr : Proper (stateOf m a c) r) :
    ∃ code a' c', t = stateOf m a' c' ∧ a'.length = m ∧
      (locked m).AtomicStep (a, c) (.whole code r) (a', c') := by
  cases h with
  | @put fd i hfd hnew hi =>
    have hfirst := (scan_found_iff ha).1 hi
    refine ⟨.add fd, _, _, addFdToArray_found ha hfirst c fd, List.length_set.trans ha, ?_⟩
    exact .whole ⟨_, (steps_hit (.add fd) ha hfirst).tail .store, rfl⟩ (.put hfd hnew)
  | @full fd hi =>
    refine ⟨.add fd, a, c, addFdToArray_nothing hi c fd, ha, ?_⟩
    exact .whole ⟨_, (steps_look (.add fd) ha (Nat.le_refl m)
      fun j v _ => (scan_nothing_iff ha).1 hi j v).tail (.fail (Nat.le_refl m)), rfl⟩
      (.full hr.1 hr.2)
  | @take i hi =>
    have hfirst := (scan_found_iff ha).1 hi
    obtain ⟨v, hv, -⟩ := hfirst.has
    have hvalue : ((stateOf m a c).fdArray.getD []).getD i 0 = v := by simp [stateOf, hv]
    rw [hvalue]
    refine ⟨.get, _, _, getFd_found ha hfirst hv c, List.length_set.trans ha, ?_⟩
    exact .whole ⟨_, ((steps_hit .get ha hfirst).tail (.copy hv)).tail .clear, rfl⟩ .take
  | empty hi =>
    refine ⟨.get, a, c, getFd_nothing hi c, ha, ?_⟩
    exact .whole ⟨_, (steps_look .get ha (Nat.le_refl m)
      fun j v _ => (scan_nothing_iff ha).1 hi j v).tail (.fail (Nat.le_refl m)), rfl⟩ .empty

theorem calls_of_atomic {as : List (Sections.Action Empty Code Call)} (ha : a.length = m)
    (h : (locked m).atomic.Run (a, c) as (a', c')) :
    ((calls m).restrict fun s e _ => Proper s e).Run (stateOf m a c) (as.map calledBy)
      (stateOf m a' c') := by
  generalize hp : (a, c) = p at h
  generalize hq : (a', c') = q at h
  induction h generalizing a c with
  | nil =>
    cases hp.trans hq.symm
    exact .nil _
  | @cons p q u e as hstep _ ih =>
    subst hp
    obtain ⟨hcall, hlen⟩ := callStep_of_atomic ha hstep
    exact .cons hcall (ih hlen rfl hq)

theorem atomic_of_calls {s t : State} {cs : List Call} (ha : a.length = m)
    (h : ((calls m).restrict fun s e _ => Proper s e).Run s cs t) (hs : s = stateOf m a c) :
    ∃ as a' c', as.map calledBy = cs ∧ t = stateOf m a' c' ∧
      (locked m).atomic.Run (a, c) as (a', c') := by
  induction h generalizing a c with
  | nil => exact ⟨[], a, c, rfl, hs, .nil _⟩
  | @cons s s₁ t r cs hstep _ ih =>
    subst hs
    obtain ⟨code, a₁, c₁, rfl, hlen, hatomic⟩ := atomic_of_callStep ha hstep.1 hstep.2
    obtain ⟨as, a₂, c₂, rfl, ht, hrun⟩ := ih hlen rfl
    exact ⟨_, a₂, c₂, List.map_cons .., ht, .cons hatomic hrun⟩

theorem filterMap_called (es : List (Sections.Event Empty Code Call)) :
    es.filterMap called = (es.filterMap Sections.Event.action).map calledBy := by
  rw [List.map_filterMap]
  congr 1
  funext e
  cases e with
  | outside e => exact e.elim
  | wait | inner | post => rfl

theorem ready_of_commit (c : Record) (code : Code) (r : Call) (c' : Record)
    (h : (locked m).commit c code r c') : (locked m).ready c code := by
  cases h with
  | put hfd hnew | full hfd hnew => exact ⟨hfd, hnew⟩
  | take | empty => trivial

/-- **The two functions under the mutex.** The calls that the small steps of both threads make, and
what they leave in the array, are those of whole calls one after the other; all of these come
about; and never are both threads inside. -/
theorem calls_iff (m : Nat) :
    (∀ s, (locked m).small.Reachable s →
      ¬ (s.inside .main ≠ none ∧ s.inside .pool ≠ none)) ∧
    ∀ cs a c, (∃ es, es.filterMap called = cs ∧ (locked m).small.Run
        (Sections.idle Thread (List.replicate m 0) ⟨[], []⟩) es (Sections.idle Thread a c)) ↔
      ((calls m).restrict fun s e _ => Proper s e).Run (initialised m) cs (stateOf m a c) := by
  have hlen : (List.replicate m (0 : Int)).length = m := List.length_replicate ..
  refine ⟨?_, fun cs a c => ⟨?_, ?_⟩⟩
  · rintro s h ⟨hmain, hpool⟩
    obtain ⟨a, halone, -⟩ := Sections.alone_of_reachable h
    cases halone.unique hmain hpool
  · rintro ⟨es, rfl, hrun⟩
    have hinit : (locked m).small.init (Sections.idle Thread (List.replicate m 0) ⟨[], []⟩) :=
      ⟨⟨rfl, rfl⟩, rfl, fun _ => rfl⟩
    obtain ⟨a', halone, hatomic⟩ := (Sections.alone_init hinit).run hrun
    have ha : a' = a := by
      cases halone with
      | out _ _ hm => exact hm.symm
      | inside hv => cases hv
    subst ha
    rw [filterMap_called]
    exact calls_of_atomic hlen hatomic
  · intro h
    obtain ⟨as, a', c', rfl, ht, hatomic⟩ := atomic_of_calls (c := ⟨[], []⟩) hlen h rfl
    have ha : a = a' := by
      have h0 := congrArg State.fdArray ht
      exact Option.some.inj h0
    have hc : c = c' := by
      have h1 := congrArg State.accepted ht
      have h2 := congrArg State.returned ht
      cases c
      cases c'
      exact congrArg₂ Record.mk h1 h2
    subst ha hc
    obtain ⟨es, hes, hrun⟩ := Sections.run_atomic ready_of_commit hatomic
    exact ⟨es, (filterMap_called es).trans (congrArg _ hes), hrun⟩

end Calls

end Lock

end Heimdall.FdArray
