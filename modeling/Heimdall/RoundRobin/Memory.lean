import Mathlib.Logic.Function.Basic
import Heimdall.Lib.System
import Heimdall.RoundRobin.Weight
import Heimdall.RoundRobin.GetServer

/-!
# The memory of the circular buffer

The blocks behind `circular->buffer`, `head` and `tail`, through the steps of `reset_servers` in the
thread of the scheduler and calls of `get_server` in between. A block has a number of its own, which
is not given out again, so that a pointer to a released block stays recognisable.

A reset releases the old block first, before the new one exists and before the lock is taken. What
`get_server` finds in between, and after a reset that fails, is a released block. The runs in which
neither happens are exactly those in which the buffer is always in service (`run_sound_iff`).
-/

namespace Heimdall.RoundRobin

inductive Block
  | unused
  | live (contents : List Server)
  | released
  deriving DecidableEq

structure Ptr where
  block : Nat
  offset : Nat
  deriving DecidableEq

/-- How far the thread of the scheduler is in `reset_servers`, with the blocks it holds. -/
inductive Phase
  | idle
  | freed
  | copied (servers : Nat)
  | weighted (servers wServers : Nat)
  deriving DecidableEq

/-- `published` is the pattern published last: no code reads it. -/
structure Memory where
  heap : Nat → Block
  next : Nat
  buffer : Option Nat
  head : Option Ptr
  tail : Option Ptr
  bufferPosition : Nat
  bufferLen : Nat
  phase : Phase
  published : Option (List Server)

/-- The steps of a reset, and a call of `get_server`. -/
inductive MemStep
  | free
  | alloc
  | allocFail
  | weight (pattern : List Server)
  | weightFail
  | publish
  | publishFail
  | get
  deriving DecidableEq

namespace Memory

/-- `malloc`: the contents are stored before anybody else sees the block. -/
def malloc (m : Memory) (contents : List Server) : Memory :=
  { m with heap := Function.update m.heap m.next (.live contents), next := m.next + 1 }

def release (m : Memory) (block : Nat) : Memory :=
  { m with heap := Function.update m.heap block .released }

/-- The circular buffer that the three pointers designate, when they lie in one block and that block
has not been released. -/
def circular (m : Memory) : Option Circular :=
  match m.buffer, m.head, m.tail with
  | some b, some h, some t =>
    if h.block = b ∧ t.block = b then
      match m.heap b with
      | .live contents => some ⟨contents, m.bufferPosition, m.bufferLen, h.offset, t.offset⟩
      | _ => none
    else none
  | _, _, _ => none

/-- `get_server`, under the lock. On anything but a live block it has no defined behaviour; the
model leaves the memory as it is. -/
def get (m : Memory) : Memory :=
  match m.buffer, m.circular with
  | some b, some c =>
    match getServer c.bufferLen c with
    | .ok x =>
      { m with
        bufferPosition := x.circular.bufferPosition
        head := some ⟨b, x.circular.head⟩
        tail := some ⟨b, x.circular.tail⟩ }
    | .error _ => m
  | _, _ => m

/-- One step. A step that the thread is not up to, and the second release of a block, are none. -/
def step (m : Memory) : MemStep → Option Memory
  | .free =>
    match m.phase, m.buffer with
    | .idle, none => some { m with phase := .freed }
    | .idle, some b =>
      match m.heap b with
      | .live _ => some { m.release b with phase := .freed }
      | _ => none
    | _, _ => none
  | .alloc =>
    match m.phase with
    | .freed => some { m.malloc [] with phase := .copied m.next }
    | _ => none
  | .allocFail =>
    match m.phase with
    | .freed => some { m with phase := .idle }
    | _ => none
  | .weight pattern =>
    match m.phase with
    | .copied a =>
      if pattern = [] then none else some { m.malloc pattern with phase := .weighted a m.next }
    | _ => none
  | .weightFail =>
    match m.phase with
    | .copied a => some { m.release a with phase := .idle }
    | _ => none
  | .publish =>
    match m.phase with
    | .weighted a b =>
      match m.heap b with
      | .live pattern =>
        some { m.release a with
          buffer := some b
          bufferLen := pattern.length
          head := some ⟨b, 0⟩
          tail := some ⟨b, pattern.length - 1⟩
          phase := .idle
          published := some pattern }
      | _ => none
    | _ => none
  | .publishFail =>
    -- the lock cannot be taken: the new block is lost
    match m.phase with
    | .weighted a _ => some { m.release a with phase := .idle }
    | _ => none
  | .get => some m.get

end Memory

/-- Resets one after the other, and calls of `get_server` at any time, on the memory that
`new_circular` leaves: the entry pointers and the length are what `malloc` found there. -/
def memory : System Memory MemStep where
  init m := (∀ k, m.heap k = .unused) ∧ m.buffer = none ∧ m.bufferPosition = 0 ∧ m.phase = .idle ∧
    m.published = none
  step m a m' := m.step a = some m'

namespace Memory

/-- The pointers designate a block that has not been released. -/
def Served (m : Memory) : Prop :=
  ∃ b h t contents, m.buffer = some b ∧ m.head = some ⟨b, h⟩ ∧ m.tail = some ⟨b, t⟩ ∧
    m.heap b = .live contents

/-- They designate the block with the pattern. -/
def Serves (m : Memory) (pattern : List Server) : Prop :=
  ∃ b h t, m.buffer = some b ∧ m.head = some ⟨b, h⟩ ∧ m.tail = some ⟨b, t⟩ ∧
    m.heap b = .live pattern

/-- What is asked of a step: `get_server` finds a live block, and a reset that fails leaves the
pattern published last in service. -/
def Sound (m : Memory) (a : MemStep) (m' : Memory) : Prop :=
  match a with
  | .get => m.Served
  | .allocFail | .weightFail | .publishFail => ∀ pattern, m.published = some pattern →
      m'.Serves pattern
  | _ => True

end Memory

/-- Whether a pattern has been published, and whether no reset has started since. -/
structure Flags where
  published : Bool
  serving : Bool

def MemStep.after (a : MemStep) (f : Flags) : Flags :=
  match a with
  | .free => { f with serving := false }
  | .publish => ⟨true, true⟩
  | _ => f

/-- No call of `get_server` while the buffer is out of service, and no failure of a reset once a
pattern has been published. -/
def MemStep.Allowed (a : MemStep) (f : Flags) : Prop :=
  match a with
  | .get => f.serving = true
  | .allocFail | .weightFail | .publishFail => f.published = false
  | _ => True

/-- No call of `get_server` falls before the first publication, nor between the start of a reset and
the publication that ends it, and no reset fails after the first publication. -/
def Undisturbed : Flags → List MemStep → Prop
  | _, [] => True
  | f, a :: as => a.Allowed f ∧ Undisturbed (a.after f) as

/-! ## What a run keeps -/

namespace Memory

/-- The blocks that a reset holds are its own. -/
def Owns (m : Memory) : Phase → Prop
  | .idle => True
  | .freed => True
  | .copied a => a < m.next ∧ m.buffer ≠ some a
  | .weighted a b => a < m.next ∧ b < m.next ∧ a ≠ b ∧ m.buffer ≠ some a ∧ m.buffer ≠ some b

/-- What the flags say about the memory. -/
structure Tracks (f : Flags) (m : Memory) : Prop where
  buffer_lt : ∀ b, m.buffer = some b → b < m.next
  owns : m.Owns m.phase
  published_eq : f.published = m.published.isSome
  serving_iff : f.serving = true ↔ m.Served
  busy : m.phase ≠ .idle → f.serving = false

section Lemmas

variable {m m' : Memory} {pattern : List Server} {f : Flags} {a : MemStep}

theorem malloc_heap {b : Nat} (h : b ≠ m.next) : (m.malloc pattern).heap b = m.heap b :=
  Function.update_of_ne h _ _

theorem release_heap {a b : Nat} (h : b ≠ a) : (m.release a).heap b = m.heap b :=
  Function.update_of_ne h _ _

theorem Serves.served (h : m.Serves pattern) : m.Served := by
  obtain ⟨b, h, t, hb, hh, ht, hl⟩ := h
  exact ⟨b, h, t, pattern, hb, hh, ht, hl⟩

theorem circular_of_served {b h t : Nat} {contents : List Server} (hb : m.buffer = some b)
    (hh : m.head = some ⟨b, h⟩) (ht : m.tail = some ⟨b, t⟩) (hl : m.heap b = .live contents) :
    m.circular = some ⟨contents, m.bufferPosition, m.bufferLen, h, t⟩ := by
  unfold circular
  rw [hb, hh, ht]
  simp only [and_self, if_true, hl]

theorem circular_eq_some {c : Circular} (h : m.circular = some c) : ∃ b, m.buffer = some b ∧
    m.head = some ⟨b, c.head⟩ ∧ m.tail = some ⟨b, c.tail⟩ ∧ m.heap b = .live c.buffer ∧
    m.bufferPosition = c.bufferPosition ∧ m.bufferLen = c.bufferLen := by
  unfold circular at h
  split at h
  · rename_i b hd tl hb hh ht
    split at h
    · rename_i he
      obtain ⟨rfl, hte⟩ := he
      split at h
      · rename_i contents hl
        cases h
        refine ⟨_, hb, hh, ?_, hl, rfl, rfl⟩
        rw [ht, ← hte]
      · cases h
    · cases h
  · cases h

/-- A block that is given out changes nothing for the buffer. -/
theorem served_malloc {phase : Phase} (hlt : ∀ b, m.buffer = some b → b < m.next) :
    Served { m.malloc pattern with phase := phase } ↔ m.Served := by
  have hb : ∀ b, m.buffer = some b → (m.malloc pattern).heap b = m.heap b := fun b hb =>
    malloc_heap (Nat.ne_of_lt (hlt b hb))
  constructor
  · rintro ⟨b, h, t, contents, h1, h2, h3, h4⟩
    exact ⟨b, h, t, contents, h1, h2, h3, (hb b h1).symm.trans h4⟩
  · rintro ⟨b, h, t, contents, h1, h2, h3, h4⟩
    exact ⟨b, h, t, contents, h1, h2, h3, (hb b h1).trans h4⟩

/-- Nor does the release of another block. -/
theorem served_release {a : Nat} {phase : Phase} (ha : m.buffer ≠ some a) :
    Served { m.release a with phase := phase } ↔ m.Served := by
  have hb : ∀ b, m.buffer = some b → (m.release a).heap b = m.heap b := fun b hb =>
    release_heap (by rintro rfl; exact ha hb)
  constructor
  · rintro ⟨b, h, t, contents, h1, h2, h3, h4⟩
    exact ⟨b, h, t, contents, h1, h2, h3, (hb b h1).symm.trans h4⟩
  · rintro ⟨b, h, t, contents, h1, h2, h3, h4⟩
    exact ⟨b, h, t, contents, h1, h2, h3, (hb b h1).trans h4⟩

/-- What `get_server` moves are offsets. -/
theorem get_frame (m : Memory) : m.get.heap = m.heap ∧ m.get.next = m.next ∧
    m.get.buffer = m.buffer ∧ m.get.phase = m.phase ∧ m.get.published = m.published ∧
    (m.get.Served ↔ m.Served) := by
  unfold get
  split
  · rename_i b c hb hc
    split
    · refine ⟨rfl, rfl, rfl, rfl, rfl, ?_⟩
      obtain ⟨b', hb', hh, ht, hl, -⟩ := circular_eq_some hc
      rw [hb] at hb'
      cases hb'
      exact ⟨fun _ => ⟨b, _, _, _, hb, hh, ht, hl⟩, fun _ => ⟨b, _, _, _, hb, rfl, rfl, hl⟩⟩
    · exact ⟨rfl, rfl, rfl, rfl, rfl, Iff.rfl⟩
  · exact ⟨rfl, rfl, rfl, rfl, rfl, Iff.rfl⟩

/-- **What a step does**, by the phase it is taken in. -/
theorem step_cases (h : m.step a = some m') :
    (a = .free ∧ m.phase = .idle ∧ (m.buffer = none ∧ m' = { m with phase := .freed } ∨
      ∃ b, m.buffer = some b ∧ m' = { m.release b with phase := .freed })) ∨
    (a = .alloc ∧ m.phase = .freed ∧ m' = { m.malloc [] with phase := .copied m.next }) ∨
    (a = .allocFail ∧ m.phase = .freed ∧ m' = { m with phase := .idle }) ∨
    (∃ pattern b, a = .weight pattern ∧ m.phase = .copied b ∧
      m' = { m.malloc pattern with phase := .weighted b m.next }) ∨
    (∃ b, a = .weightFail ∧ m.phase = .copied b ∧ m' = { m.release b with phase := .idle }) ∨
    (∃ b c, a = .publishFail ∧ m.phase = .weighted b c ∧
      m' = { m.release b with phase := .idle }) ∨
    (∃ b c pattern, a = .publish ∧ m.phase = .weighted b c ∧ m.heap c = .live pattern ∧
      m' = { m.release b with
        buffer := some c
        bufferLen := pattern.length
        head := some ⟨c, 0⟩
        tail := some ⟨c, pattern.length - 1⟩
        phase := .idle
        published := some pattern }) ∨
    (a = .get ∧ m' = m.get) := by
  cases a with
  | free =>
    simp only [step] at h
    split at h
    · rename_i hp hb
      cases h
      exact Or.inl ⟨rfl, hp, Or.inl ⟨hb, rfl⟩⟩
    · rename_i b hp hb
      split at h
      · cases h
        exact Or.inl ⟨rfl, hp, Or.inr ⟨b, hb, rfl⟩⟩
      · cases h
    · cases h
  | alloc =>
    simp only [step] at h
    split at h
    · cases h
      exact Or.inr (Or.inl ⟨rfl, ‹_›, rfl⟩)
    · cases h
  | allocFail =>
    simp only [step] at h
    split at h
    · cases h
      exact Or.inr (Or.inr (Or.inl ⟨rfl, ‹_›, rfl⟩))
    · cases h
  | weight pattern =>
    simp only [step] at h
    split at h
    · split at h
      · cases h
      · cases h
        exact Or.inr (Or.inr (Or.inr (Or.inl ⟨_, _, rfl, ‹_›, rfl⟩)))
    · cases h
  | weightFail =>
    simp only [step] at h
    split at h
    · cases h
      exact Or.inr (Or.inr (Or.inr (Or.inr (Or.inl ⟨_, rfl, ‹_›, rfl⟩))))
    · cases h
  | publishFail =>
    simp only [step] at h
    split at h
    · cases h
      exact Or.inr (Or.inr (Or.inr (Or.inr (Or.inr (Or.inl ⟨_, _, rfl, ‹_›, rfl⟩)))))
    · cases h
  | publish =>
    simp only [step] at h
    split at h
    · split at h
      · cases h
        exact Or.inr (Or.inr (Or.inr (Or.inr (Or.inr (Or.inr (Or.inl
          ⟨_, _, _, rfl, ‹_›, ‹_›, rfl⟩))))))
      · cases h
    · cases h
  | get =>
    cases h
    exact Or.inr (Or.inr (Or.inr (Or.inr (Or.inr (Or.inr (Or.inr ⟨rfl, rfl⟩))))))

/-- **The flags track the memory** through every step. -/
theorem tracks_step (ht : Tracks f m) (h : m.step a = some m') : Tracks (a.after f) m' := by
  obtain ⟨hlt, howns, hpub, hserv, hbusy⟩ := ht
  rcases step_cases h with ⟨rfl, hp, ⟨hb, rfl⟩ | ⟨b, hb, rfl⟩⟩ | ⟨rfl, hp, rfl⟩ | ⟨rfl, hp, rfl⟩ |
    ⟨pattern, b, rfl, hp, rfl⟩ | ⟨b, rfl, hp, rfl⟩ | ⟨b, c, rfl, hp, rfl⟩ |
    ⟨b, c, pattern, rfl, hp, hl, rfl⟩ | ⟨rfl, rfl⟩
  · -- free, with nothing to release
    refine ⟨hlt, trivial, hpub, ⟨fun h0 => absurd h0 Bool.false_ne_true, ?_⟩, fun _ => rfl⟩
    rintro ⟨b', -, -, -, hb', -⟩
    exact nomatch hb.symm.trans hb'
  · -- free
    refine ⟨hlt, trivial, hpub, ⟨fun h0 => absurd h0 Bool.false_ne_true, ?_⟩, fun _ => rfl⟩
    rintro ⟨b', -, -, contents, hb', -, -, hl⟩
    obtain rfl : b = b' := Option.some.inj (hb.symm.trans hb')
    have hr : (m.release b).heap b = .released := Function.update_self _ _ _
    exact nomatch hr.symm.trans hl
  · -- alloc
    have hbusy' : f.serving = false := hbusy (by rw [hp]; exact Phase.noConfusion)
    refine ⟨fun b hb => Nat.lt_succ_of_lt (hlt b hb), ⟨Nat.lt_succ_self _, fun hb => ?_⟩, hpub,
      hserv.trans (served_malloc hlt).symm, fun _ => hbusy'⟩
    exact Nat.lt_irrefl _ (hlt _ hb)
  · -- allocFail
    have hbusy' : f.serving = false := hbusy (by rw [hp]; exact Phase.noConfusion)
    exact ⟨hlt, trivial, hpub, hserv, fun _ => hbusy'⟩
  · -- weight
    have hbusy' : f.serving = false := hbusy (by rw [hp]; exact Phase.noConfusion)
    rw [hp] at howns
    obtain ⟨hlt_b, hne⟩ := howns
    refine ⟨fun b hb => Nat.lt_succ_of_lt (hlt b hb),
      ⟨Nat.lt_succ_of_lt hlt_b, Nat.lt_succ_self _, Nat.ne_of_lt hlt_b, hne, fun hb => ?_⟩, hpub,
      hserv.trans (served_malloc hlt).symm, fun _ => hbusy'⟩
    exact Nat.lt_irrefl _ (hlt _ hb)
  · -- weightFail
    have hbusy' : f.serving = false := hbusy (by rw [hp]; exact Phase.noConfusion)
    rw [hp] at howns
    exact ⟨hlt, trivial, hpub, hserv.trans (served_release howns.2).symm, fun _ => hbusy'⟩
  · -- publishFail
    have hbusy' : f.serving = false := hbusy (by rw [hp]; exact Phase.noConfusion)
    rw [hp] at howns
    exact ⟨hlt, trivial, hpub, hserv.trans (served_release howns.2.2.2.1).symm, fun _ => hbusy'⟩
  · -- publish
    rw [hp] at howns
    obtain ⟨-, hlt_c, hbc, -, -⟩ := howns
    refine ⟨fun b' hb' => ?_, trivial, rfl, ⟨fun _ => ?_, fun _ => rfl⟩, fun h0 => absurd rfl h0⟩
    · obtain rfl := Option.some.inj hb'
      exact hlt_c
    · exact ⟨c, 0, pattern.length - 1, pattern, rfl, rfl, rfl,
        (release_heap (Ne.symm hbc)).trans hl⟩
  · -- get
    obtain ⟨hheap, hnext, hbuf, hphase, hpub', hserved⟩ := get_frame m
    refine ⟨?_, ?_, ?_, hserv.trans hserved.symm, ?_⟩
    · rw [hbuf, hnext]
      exact hlt
    · unfold Owns
      rw [hphase, hbuf, hnext]
      exact howns
    · rw [hpub']
      exact hpub
    · rw [hphase]
      exact hbusy

/-- **A step is sound exactly when it is allowed.** -/
theorem sound_iff (ht : Tracks f m) (h : m.step a = some m') : Sound m a m' ↔ a.Allowed f := by
  have ht' := tracks_step ht h
  -- a reset that fails leaves the buffer out of service
  have hfail : m.phase ≠ .idle → a.after f = f → (f.published = false ↔
      ∀ pattern, m.published = some pattern → m'.Serves pattern) := by
    intro hphase hafter
    constructor
    · intro hp pattern hpat
      rw [ht.published_eq, hpat] at hp
      cases hp
    · intro hall
      cases hpub : m.published with
      | none => rw [ht.published_eq, hpub]; rfl
      | some pattern =>
        have hserves := (hall pattern hpub).served
        rw [← ht'.serving_iff, hafter, ht.busy hphase] at hserves
        cases hserves
  rcases step_cases h with ⟨rfl, hp, -⟩ | ⟨rfl, hp, -⟩ | ⟨rfl, hp, -⟩ | ⟨_, _, rfl, hp, -⟩ |
    ⟨_, rfl, hp, -⟩ | ⟨_, _, rfl, hp, -⟩ | ⟨_, _, _, rfl, hp, -⟩ | ⟨rfl, -⟩
  · exact Iff.rfl
  · exact Iff.rfl
  · exact (hfail (by rw [hp]; exact Phase.noConfusion) rfl).symm
  · exact Iff.rfl
  · exact (hfail (by rw [hp]; exact Phase.noConfusion) rfl).symm
  · exact (hfail (by rw [hp]; exact Phase.noConfusion) rfl).symm
  · exact Iff.rfl
  · exact ht.serving_iff.symm

theorem tracks_init (h : memory.init m) : Tracks ⟨false, false⟩ m := by
  obtain ⟨-, hb, -, hp, hpub⟩ := h
  refine ⟨fun b hb' => ?_, ?_, ?_, ⟨fun h0 => absurd h0 Bool.false_ne_true, ?_⟩, fun _ => rfl⟩
  · exact nomatch hb.symm.trans hb'
  · rw [hp]
    trivial
  · rw [hpub]
    rfl
  · rintro ⟨b', -, -, -, hb', -⟩
    exact nomatch hb.symm.trans hb'

theorem sound_run_iff {as : List MemStep} (ht : Tracks f m) (h : memory.Run m as m') :
    (memory.restrict Sound).Run m as m' ↔ Undisturbed f as := by
  induction h generalizing f with
  | nil m => exact ⟨fun _ => trivial, fun _ => .nil m⟩
  | @cons m m₁ m₂ a as hstep hrun ih =>
    have hih := ih (tracks_step ht hstep)
    constructor
    · intro hr
      cases hr with
      | cons hs hr =>
        obtain rfl : m₁ = _ := Option.some.inj (hstep.symm.trans hs.1)
        exact ⟨(sound_iff ht hstep).1 hs.2, hih.1 hr⟩
    · rintro ⟨hallowed, hrest⟩
      exact .cons ⟨hstep, (sound_iff ht hstep).2 hallowed⟩ (hih.2 hrest)

end Lemmas

/-! ## The buffer as a value

While it is in service the memory is the circular buffer of `Heimdall.RoundRobin.Circular`:
publication and `get_server` do to it what they do there. -/

section View

variable {m m' : Memory} {c : Circular}

/-- The buffer in service is published, and so is the pattern that waits for its publication. -/
structure Valid (m : Memory) : Prop where
  tracks : ∃ f, Tracks f m
  view : ∀ c, m.circular = some c → c.Published
  waiting : ∀ a b, m.phase = .weighted a b → ∃ pattern, m.heap b = .live pattern ∧ pattern ≠ []

theorem circular_of_heap (hc : m'.circular = some c) (hb : m'.buffer = m.buffer)
    (hh : m'.head = m.head) (ht : m'.tail = m.tail) (hp : m'.bufferPosition = m.bufferPosition)
    (hl : m'.bufferLen = m.bufferLen)
    (hheap : ∀ b contents, m.buffer = some b → m'.heap b = .live contents →
      m.heap b = .live contents) : m.circular = some c := by
  obtain ⟨b, hb', hh', ht', hl', hp', hlen'⟩ := circular_eq_some hc
  rw [circular_of_served (hb.symm.trans hb') (hh.symm.trans hh') (ht.symm.trans ht')
    (hheap b _ (hb.symm.trans hb') hl'), ← hp, ← hl, hp', hlen']

/-- **`get_server` on a published buffer** is `getServer` on its value. -/
theorem circular_get (hc : m.circular = some c) (hp : c.Published) :
    ∃ x, getServer c.bufferLen c = .ok x ∧ m.get.circular = some x.circular ∧
      x.circular.Published := by
  obtain ⟨x, hx, -, -, ⟨k, hk⟩, -⟩ := getServer_spec hp
  obtain ⟨b, hb, hh, ht, hl, hpos, hlen⟩ := circular_eq_some hc
  refine ⟨x, hx, ?_, hk ▸ walk_published hp _⟩
  have hget : m.get = { m with
      bufferPosition := x.circular.bufferPosition
      head := some ⟨b, x.circular.head⟩
      tail := some ⟨b, x.circular.tail⟩ } := by
    unfold get
    rw [hb, hc]
    simp only [hx]
  have hview := circular_of_served (m := m.get) (b := b) (h := x.circular.head)
    (t := x.circular.tail) (by rw [hget]; exact hb) (by rw [hget]) (by rw [hget])
    (by rw [hget]; exact hl)
  have hxc : x.circular = ⟨c.buffer, x.circular.bufferPosition, c.bufferLen, x.circular.head,
      x.circular.tail⟩ := by
    rw [hk, ← walk_buffer c (k + 1), ← walk_bufferLen c (k + 1)]
  rw [hview, hget, hlen, ← hxc]

/-- **Publication** is that of the value, whatever was in service before. -/
theorem circular_publish (h : m.step .publish = some m')
    (hpos : c.bufferPosition = m.bufferPosition) (hv : Valid m) :
    ∃ pattern, pattern ≠ [] ∧ m'.circular = some (c.publish pattern) := by
  obtain ⟨f, ht⟩ := hv.tracks
  rcases step_cases h with ⟨h0, -⟩ | ⟨h0, -⟩ | ⟨h0, -⟩ | ⟨_, _, h0, -⟩ | ⟨_, h0, -⟩ |
    ⟨_, _, h0, -⟩ | ⟨a, b, pattern, -, hp, hl, rfl⟩ | ⟨h0, -⟩
  case inr.inr.inr.inr.inr.inr.inl =>
    obtain ⟨pattern', hl', hne⟩ := hv.waiting a b hp
    rw [hl] at hl'
    cases hl'
    have howns := ht.owns
    rw [hp] at howns
    refine ⟨pattern, hne, ?_⟩
    have hheap : (m.release a).heap b = .live pattern :=
      (release_heap howns.2.2.1.symm).trans hl
    rw [Circular.publish, hpos]
    exact circular_of_served rfl rfl rfl hheap
  all_goals cases h0

theorem valid_step (hv : Valid m) (a : MemStep) (h : m.step a = some m') : Valid m' := by
  obtain ⟨f, ht⟩ := hv.tracks
  have ht' := tracks_step ht h
  have hother : ∀ b a contents, m.buffer = some b → m.buffer ≠ some a →
      (m.release a).heap b = .live contents → m.heap b = .live contents := by
    intro b a contents hb ha hl
    rwa [release_heap (by rintro rfl; exact ha hb)] at hl
  have hfresh : ∀ b new contents, m.buffer = some b →
      (m.malloc new).heap b = .live contents → m.heap b = .live contents := by
    intro b new contents hb hl
    rwa [malloc_heap (Nat.ne_of_lt (ht.buffer_lt b hb))] at hl
  refine ⟨⟨_, ht'⟩, ?_, ?_⟩
  · intro c hc
    have howns := ht.owns
    rcases step_cases h with ⟨rfl, hp, ⟨hb, rfl⟩ | ⟨b, hb, rfl⟩⟩ | ⟨rfl, hp, rfl⟩ |
      ⟨rfl, hp, rfl⟩ | ⟨pattern, b, rfl, hp, rfl⟩ | ⟨b, rfl, hp, rfl⟩ | ⟨b, c, rfl, hp, rfl⟩ |
      ⟨b, c, pattern, rfl, hp, hl, rfl⟩ | ⟨rfl, rfl⟩
    · exact hv.view c (circular_of_heap hc rfl rfl rfl rfl rfl fun _ _ _ => id)
    · -- the block of the buffer has just been released
      obtain ⟨b', hb', -, -, hl, -⟩ := circular_eq_some hc
      obtain rfl : b = b' := Option.some.inj (hb.symm.trans hb')
      have hr : (m.release b).heap b = .released := Function.update_self _ _ _
      exact nomatch hr.symm.trans hl
    · exact hv.view c (circular_of_heap hc rfl rfl rfl rfl rfl fun b _ => hfresh b [] _)
    · exact hv.view c (circular_of_heap hc rfl rfl rfl rfl rfl fun _ _ _ => id)
    · exact hv.view c (circular_of_heap hc rfl rfl rfl rfl rfl fun b _ => hfresh b pattern _)
    · rw [hp] at howns
      exact hv.view c (circular_of_heap hc rfl rfl rfl rfl rfl
        fun b' _ hb' => hother b' b _ hb' howns.2)
    · rw [hp] at howns
      exact hv.view _ (circular_of_heap hc rfl rfl rfl rfl rfl
        fun b' _ hb' => hother b' b _ hb' howns.2.2.2.1)
    · obtain ⟨pattern', hne, hview⟩ := circular_publish (c := ⟨[], m.bufferPosition, 0, 0, 0⟩) h
        rfl hv
      rw [hview] at hc
      cases hc
      exact ⟨rfl, List.length_pos_iff.2 hne, List.length_pos_iff.2 hne⟩
    · cases hcm : m.circular with
      | none =>
        have hget : m.get = m := by
          unfold get
          split
          · rename_i hc'
            exact nomatch hcm.symm.trans hc'
          · rfl
        rw [hget, hcm] at hc
        cases hc
      | some c₁ =>
        obtain ⟨x, -, hview, hpub⟩ := circular_get hcm (hv.view c₁ hcm)
        rw [hview] at hc
        cases hc
        exact hpub
  · intro a' b' hphase
    rcases step_cases h with ⟨rfl, hp, ⟨hb, rfl⟩ | ⟨b, hb, rfl⟩⟩ | ⟨rfl, hp, rfl⟩ |
      ⟨rfl, hp, rfl⟩ | ⟨pattern, b, rfl, hp, rfl⟩ | ⟨b, rfl, hp, rfl⟩ | ⟨b, c, rfl, hp, rfl⟩ |
      ⟨b, c, pattern, rfl, hp, hl, rfl⟩ | ⟨rfl, rfl⟩
    case inr.inr.inr.inl =>
      cases hphase
      refine ⟨pattern, Function.update_self _ _ _, ?_⟩
      rintro rfl
      simp only [step, hp, if_true] at h
      cases h
    case inr.inr.inr.inr.inr.inr.inr =>
      obtain ⟨hheap, -, -, hph, -, -⟩ := get_frame m
      rw [hheap]
      exact hv.waiting a' b' (hph ▸ hphase)
    all_goals cases hphase

/-- In every state of every run the buffer in service is a published one. -/
theorem published_of_reachable (h : memory.Reachable m) (hc : m.circular = some c) :
    c.Published := by
  refine (h.invariant Valid ?_ fun s a t hs hstep => valid_step hs a hstep).view c hc
  intro m hm
  refine ⟨⟨_, tracks_init hm⟩, fun c hc => ?_, fun a b hp => ?_⟩
  · obtain ⟨b, hb, -⟩ := circular_eq_some hc
    exact nomatch hm.2.1.symm.trans hb
  · exact nomatch hm.2.2.2.1.symm.trans hp

end View

end Memory

/-- **The buffer in service.** In every run, and only in those runs, in which no call of
`get_server` falls between the start of a reset and its publication and no reset fails once a
pattern is published, every call of `get_server` finds a block that has not been released and every
failed reset leaves the pattern published last in service. -/
theorem run_sound_iff {m m' : Memory} {as : List MemStep} (hm : memory.init m)
    (h : memory.Run m as m') :
    (memory.restrict Memory.Sound).Run m as m' ↔ Undisturbed ⟨false, false⟩ as :=
  Memory.sound_run_iff (Memory.tracks_init hm) h

theorem run_of_steps {m m' : Memory} {as : List MemStep} (h : as.foldlM Memory.step m = some m') :
    memory.Run m as m' := by
  induction as generalizing m with
  | nil =>
    cases h
    exact .nil _
  | cons a as ih =>
    rw [List.foldlM_cons] at h
    obtain ⟨m₁, h₁, h₂⟩ := Option.bind_eq_some_iff.1 h
    exact .cons h₁ (ih h₂)

/-- The memory after `new_circular`, with nothing in the fields that it does not set. -/
def freshMemory : Memory :=
  ⟨fun _ => .unused, 0, none, none, none, 0, 0, .idle, none⟩

/-- A pattern with a single entry. -/
def single : List Server := [⟨1, 2, 1, serverStatusReady⟩]

theorem run_sound_first : ∃ m, (memory.restrict Memory.Sound).Run freshMemory
    [.free, .alloc, .weight single, .publish, .get] m := by
  have hrun : ∃ m, memory.Run freshMemory [.free, .alloc, .weight single, .publish, .get] m :=
    ⟨_, run_of_steps rfl⟩
  obtain ⟨m, hrun⟩ := hrun
  exact ⟨m, (run_sound_iff ⟨fun _ => rfl, rfl, rfl, rfl, rfl⟩ hrun).2
    ⟨trivial, trivial, trivial, trivial, rfl, trivial⟩⟩

/-- The second reset has released the block, and `get_server` runs before the new one is there. -/
theorem get_server_on_released_block : ¬ ∀ m m' as, memory.init m → memory.Run m as m' →
    (memory.restrict Memory.Sound).Run m as m' := by
  intro h
  have hinit : memory.init freshMemory := ⟨fun _ => rfl, rfl, rfl, rfl, rfl⟩
  have hrun : ∃ m, memory.Run freshMemory
      [.free, .alloc, .weight single, .publish, .free, .get] m :=
    ⟨_, run_of_steps rfl⟩
  obtain ⟨m, hrun⟩ := hrun
  have hsound := (Memory.sound_run_iff (Memory.tracks_init hinit) hrun).1 (h _ _ _ hinit hrun)
  exact absurd hsound.2.2.2.2.2.1 Bool.false_ne_true

end Heimdall.RoundRobin
