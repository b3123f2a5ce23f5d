import Heimdall.Lib.Chain
import Heimdall.Lib.System

/-!
# The request queue (`request_queue.c`)

The queue is a doubly linked list: `front` and `back` designate its ends, the nodes are linked in
both directions, and `size` counts them. A memory holds the fields of the queue and the two links of
every node; the other fields of a node play no part in the queue. The C counter is an `int`, which
the number of nodes that fit in memory does not exceed.

A memory represents a list (`Represents`) when the links lead through it from both ends. `enqueue`
and `dequeue` do on memories what a FIFO does on lists, in every sequence of calls
(`queue_refines_fifo`).
-/

namespace Heimdall.Queue

/-- Where a node is; NULL is `none` of an `Option`. -/
abbrev Addr := Nat

/-- The links of a node. -/
structure RequestNode where
  previous : Option Addr
  next : Option Addr
  deriving DecidableEq, Repr

structure RequestQueue where
  front : Option Addr
  back : Option Addr
  size : Int
  deriving DecidableEq, Repr

structure Memory where
  queue : RequestQueue
  node : Addr → RequestNode

namespace Memory

def next (m : Memory) (a : Addr) : Option Addr := (m.node a).next

def previous (m : Memory) (a : Addr) : Option Addr := (m.node a).previous

def setNext (m : Memory) (a : Addr) (v : Option Addr) : Memory :=
  { m with node := Function.update m.node a { m.node a with next := v } }

def setPrevious (m : Memory) (a : Addr) (v : Option Addr) : Memory :=
  { m with node := Function.update m.node a { m.node a with previous := v } }

def setFront (m : Memory) (v : Option Addr) : Memory :=
  { m with queue := { m.queue with front := v } }

def setBack (m : Memory) (v : Option Addr) : Memory :=
  { m with queue := { m.queue with back := v } }

def setSize (m : Memory) (v : Int) : Memory := { m with queue := { m.queue with size := v } }

end Memory

def initRequestQueue : RequestQueue := ⟨none, none, 0⟩

/-- `init_request_node`, which has got the memory at `a`. -/
def initRequestNode (m : Memory) (a : Addr) : Memory :=
  { m with node := Function.update m.node a ⟨none, none⟩ }

def getSizeRequestQueue (m : Memory) : Int := m.queue.size

def getFrontRequestQueue (m : Memory) : Option Addr := m.queue.front

def isEmptyRequestQueue (m : Memory) : Bool := m.queue.front.isNone

def dequeueRequestQueue (m : Memory) : Option Addr × Memory :=
  match getFrontRequestQueue m with
  | none => (none, m)
  | some front =>
    let next := m.next front
    let m := m.setNext front none
    let m :=
      match next with
      | some next => m.setPrevious next none
      | none => m.setBack none
    let m := m.setFront next
    (some front, m.setSize (m.queue.size - 1))

def enqueueRequestQueue (m : Memory) (node : Addr) : Memory :=
  let m :=
    match m.queue.back with
    | none => (m.setFront (some node)).setBack (some node)
    | some back => ((m.setNext back (some node)).setPrevious node (some back)).setBack (some node)
  m.setSize (m.queue.size + 1)

/-! ## The links after a store -/

namespace Memory

variable (m : Memory) (a : Addr) (v : Option Addr) (k : Int)

@[simp] theorem setNext_queue : (m.setNext a v).queue = m.queue := rfl

@[simp] theorem setPrevious_queue : (m.setPrevious a v).queue = m.queue := rfl

@[simp] theorem setNext_next : (m.setNext a v).next = Function.update m.next a v :=
  Function.comp_update RequestNode.next m.node a _

@[simp] theorem setNext_previous : (m.setNext a v).previous = m.previous :=
  (Function.comp_update RequestNode.previous m.node a _).trans
    (Function.update_eq_self a m.previous)

@[simp] theorem setPrevious_previous :
    (m.setPrevious a v).previous = Function.update m.previous a v :=
  Function.comp_update RequestNode.previous m.node a _

@[simp] theorem setPrevious_next : (m.setPrevious a v).next = m.next :=
  (Function.comp_update RequestNode.next m.node a _).trans (Function.update_eq_self a m.next)

@[simp] theorem setFront_next : (m.setFront v).next = m.next := rfl

@[simp] theorem setFront_previous : (m.setFront v).previous = m.previous := rfl

@[simp] theorem setFront_queue : (m.setFront v).queue = { m.queue with front := v } := rfl

@[simp] theorem setBack_next : (m.setBack v).next = m.next := rfl

@[simp] theorem setBack_previous : (m.setBack v).previous = m.previous := rfl

@[simp] theorem setBack_queue : (m.setBack v).queue = { m.queue with back := v } := rfl

@[simp] theorem setSize_next : (m.setSize k).next = m.next := rfl

@[simp] theorem setSize_previous : (m.setSize k).previous = m.previous := rfl

@[simp] theorem setSize_queue : (m.setSize k).queue = { m.queue with size := k } := rfl

@[simp] theorem initRequestNode_queue : (initRequestNode m a).queue = m.queue := rfl

@[simp] theorem initRequestNode_next :
    (initRequestNode m a).next = Function.update m.next a none :=
  Function.comp_update RequestNode.next m.node a _

@[simp] theorem initRequestNode_previous :
    (initRequestNode m a).previous = Function.update m.previous a none :=
  Function.comp_update RequestNode.previous m.node a _

end Memory

/-! ## What a memory represents -/

/-- The links lead through the nodes `xs`, from both ends. -/
structure Represents (m : Memory) (xs : List Addr) : Prop where
  forward : Chain m.next m.queue.front xs none
  backward : Chain m.previous m.queue.back xs.reverse none
  size_eq : m.queue.size = xs.length
  nodup : xs.Nodup

section Represents

variable {m : Memory} {xs : List Addr} {a b x : Addr}

theorem Represents.front_eq (h : Represents m xs) : m.queue.front = xs.head? := by
  simpa using h.forward.head_eq

theorem Represents.back_eq (h : Represents m xs) : m.queue.back = xs.getLast? := by
  simpa using h.backward.head_eq

theorem represents_init {m : Memory} (h : m.queue = initRequestQueue) : Represents m [] := by
  refine ⟨?_, ?_, ?_, List.nodup_nil⟩ <;> rw [h] <;> rfl

/-- The first node of an empty queue. -/
theorem enqueue_nil (h : Represents m []) (a : Addr) :
    Represents (enqueueRequestQueue (initRequestNode m a) a) [a] ∧
      ∀ b, b ≠ a → (enqueueRequestQueue (initRequestNode m a) a).next b = m.next b ∧
        (enqueueRequestQueue (initRequestNode m a) a).previous b = m.previous b := by
  have hback : m.queue.back = none := h.back_eq
  have hsize : m.queue.size = 0 := h.size_eq
  unfold enqueueRequestQueue
  simp only [Memory.initRequestNode_queue, hback]
  refine ⟨⟨?_, ?_, ?_, List.nodup_singleton a⟩, ?_⟩
  · simp
  · simp
  · simp [hsize]
  · intro b hb
    simp [hb]

/-- A node behind the last one, which is `x`. -/
theorem enqueue_snoc (h : Represents m (xs ++ [x])) (ha : a ∉ xs ++ [x]) :
    Represents (enqueueRequestQueue (initRequestNode m a) a) (xs ++ [x] ++ [a]) ∧
      ∀ b, b ∉ xs ++ [x] ++ [a] →
        (enqueueRequestQueue (initRequestNode m a) a).next b = m.next b ∧
        (enqueueRequestQueue (initRequestNode m a) a).previous b = m.previous b := by
  obtain ⟨hf, hb, hsize, hnd⟩ := h
  have hback : m.queue.back = some x := by simpa using hb.head_eq
  have hx : x ∉ xs := ((List.nodup_concat xs x).1 (List.concat_eq_append ▸ hnd)).1
  have hxa : x ≠ a := by
    rintro rfl
    exact ha (List.mem_append_right _ (List.mem_singleton.2 rfl))
  unfold enqueueRequestQueue
  simp only [Memory.initRequestNode_queue, hback]
  refine ⟨⟨?_, ?_, ?_, ?_⟩, ?_⟩
  · simp only [Memory.setSize_next, Memory.setBack_next, Memory.setPrevious_next,
      Memory.setNext_next, Memory.initRequestNode_next, Memory.setSize_queue, Memory.setBack_queue,
      Memory.setPrevious_queue, Memory.setNext_queue, Memory.initRequestNode_queue]
    apply Chain.snoc
    · exact hf.update ha none
    · exact hx
    · exact ha
    · exact Function.update_self ..
  · simp only [Memory.setSize_previous, Memory.setBack_previous, Memory.setPrevious_previous,
      Memory.setNext_previous, Memory.initRequestNode_previous, Memory.setSize_queue,
      Memory.setBack_queue, Function.update_idem, List.reverse_append, List.reverse_cons,
      List.reverse_nil, List.nil_append, List.singleton_append]
    refine ⟨rfl, ?_⟩
    rw [Function.update_self, ← hback]
    apply Chain.update
    · simpa using hb
    · simpa [and_comm] using ha
  · simp only [Memory.setSize_queue, Memory.setBack_queue, Memory.setPrevious_queue,
      Memory.setNext_queue, Memory.initRequestNode_queue, hsize, List.length_append,
      List.length_singleton]
    omega
  · rw [← List.concat_eq_append]
    exact List.Nodup.concat ha hnd
  · intro b hb
    simp only [List.mem_append, List.mem_singleton, not_or] at hb
    obtain ⟨⟨-, hbx⟩, hba⟩ := hb
    simp [hbx, hba]

/-- **`enqueue`** puts a new node behind the others, and leaves what is not in the queue alone. -/
theorem enqueue_represents (h : Represents m xs) (ha : a ∉ xs) :
    Represents (enqueueRequestQueue (initRequestNode m a) a) (xs ++ [a]) ∧
      ∀ b, b ∉ xs → b ≠ a →
        (enqueueRequestQueue (initRequestNode m a) a).next b = m.next b ∧
        (enqueueRequestQueue (initRequestNode m a) a).previous b = m.previous b := by
  rcases List.eq_nil_or_concat xs with rfl | ⟨ys, x, rfl⟩
  · obtain ⟨hr, hframe⟩ := enqueue_nil h a
    exact ⟨hr, fun b _ hb => hframe b hb⟩
  · rw [List.concat_eq_append] at h ha ⊢
    obtain ⟨hr, hframe⟩ := enqueue_snoc h ha
    refine ⟨hr, fun b hb hba => hframe b ?_⟩
    intro hmem
    rcases List.mem_append.1 hmem with hmem | hmem
    · exact hb hmem
    · exact hba (List.mem_singleton.1 hmem)

theorem dequeue_nil (h : Represents m []) : dequeueRequestQueue m = (none, m) := by
  unfold dequeueRequestQueue getFrontRequestQueue
  rw [h.front_eq]
  rfl

/-- **`dequeue`** takes the first node out, with both its links NULL. -/
theorem dequeue_represents (h : Represents m (x :: xs)) : ∃ m',
    dequeueRequestQueue m = (some x, m') ∧ Represents m' xs ∧ m'.next x = none ∧
      m'.previous x = none ∧
      ∀ b, b ∉ x :: xs → m'.next b = m.next b ∧ m'.previous b = m.previous b := by
  obtain ⟨⟨hfront, hf⟩, hb, hsize, hnd⟩ := h
  obtain ⟨hx, hnd'⟩ := List.nodup_cons.1 hnd
  have hlen : m.queue.size - 1 = xs.length := by
    rw [hsize]
    simp
  have hprev : m.previous x = none := by
    rw [List.reverse_cons] at hb
    obtain ⟨p, -, -, hlast⟩ := Chain.append_iff.1 hb
    exact hlast
  unfold dequeueRequestQueue getFrontRequestQueue
  simp only [hfront]
  cases xs with
  | nil =>
    have hnext : m.next x = none := hf
    simp only [hnext]
    refine ⟨_, rfl, ⟨rfl, rfl, ?_, List.nodup_nil⟩, ?_, ?_, ?_⟩
    · simpa using hlen
    · simp
    · simp [hprev]
    · intro b hb'
      have hbx : b ≠ x := fun h0 => hb' (List.mem_singleton.2 h0)
      simp [hbx]
  | cons y ys =>
    obtain ⟨hnext, hys⟩ := hf
    have hy : y ∉ ys := (List.nodup_cons.1 hnd').1
    have hxy : x ≠ y := fun h0 => hx (h0 ▸ List.mem_cons_self)
    simp only [hnext]
    refine ⟨_, rfl, ⟨?_, ?_, ?_, hnd'⟩, ?_, ?_, ?_⟩
    · simp only [Memory.setSize_next, Memory.setFront_next, Memory.setPrevious_next,
        Memory.setNext_next, Memory.setSize_queue, Memory.setFront_queue]
      have hchain : Chain m.next (some y) (y :: ys) none := ⟨rfl, hys⟩
      exact hchain.update hx none
    · simp only [Memory.setSize_previous, Memory.setFront_previous, Memory.setPrevious_previous,
        Memory.setNext_previous, Memory.setSize_queue, Memory.setFront_queue,
        Memory.setPrevious_queue, Memory.setNext_queue, List.reverse_cons]
      rw [List.reverse_cons, List.reverse_cons, List.append_assoc, List.singleton_append] at hb
      apply hb.cut
      simpa using hy
    · simpa using hlen
    · simp
    · simp [hprev, hxy]
    · intro b hb'
      simp only [List.mem_cons, not_or] at hb'
      obtain ⟨hbx, hby, -⟩ := hb'
      simp [hbx, hby]

end Represents

/-! ## Calls in a sequence -/

/-- A call, with what it takes or returns. -/
inductive Call
  | enqueue (node : Addr)
  | dequeue (result : Option Addr)
  deriving DecidableEq

/-- What a queue is for: a list that grows at the end and shrinks at the front. -/
def fifo : System (List Addr) Call where
  init xs := xs = []
  step xs call ys :=
    match call with
    | .enqueue node => ys = xs ++ [node]
    | .dequeue result => result = xs.head? ∧ ys = xs.tail

/-- `allocated` are the nodes that `init_request_node` has returned so far. -/
structure State where
  memory : Memory
  allocated : List Addr

/-- Calls on a queue made by `init_request_queue`, each `enqueue` with a node fresh from
`init_request_node`. -/
def requestQueue : System State Call where
  init s := s.memory.queue = initRequestQueue ∧ s.allocated = []
  step s call t :=
    match call with
    | .enqueue node => node ∉ s.allocated ∧
        t = ⟨enqueueRequestQueue (initRequestNode s.memory node) node, s.allocated ++ [node]⟩
    | .dequeue result => dequeueRequestQueue s.memory = (result, t.memory) ∧
        t.allocated = s.allocated

def enqueued (calls : List Call) : List Addr :=
  calls.filterMap fun call => match call with | .enqueue node => some node | .dequeue _ => none

def dequeued (calls : List Call) : List Addr :=
  calls.filterMap fun call => match call with | .enqueue _ => none | .dequeue result => result

/-- The nodes `gone` have been taken out, the nodes `xs` are in the queue, and there are no
others. -/
structure State.Holds (s : State) (gone xs : List Addr) : Prop where
  represents : Represents s.memory xs
  allocated_eq : s.allocated = gone ++ xs
  nodup : s.allocated.Nodup
  unlinked : ∀ a ∈ gone, s.memory.next a = none ∧ s.memory.previous a = none

section Calls

variable {s t : State} {gone xs : List Addr} {call : Call} {calls : List Call}

theorem holds_init (h : requestQueue.init s) : s.Holds [] [] where
  represents := represents_init h.1
  allocated_eq := h.2
  nodup := by
    rw [h.2]
    exact List.nodup_nil
  unlinked := fun a ha => nomatch ha

/-- **The step lemma**: a call does to the list what it does on a FIFO. -/
theorem holds_step (hs : s.Holds gone xs) (h : requestQueue.step s call t) :
    ∃ ys, fifo.step xs call ys ∧ t.Holds (gone ++ dequeued [call]) ys ∧
      t.allocated = s.allocated ++ enqueued [call] := by
  obtain ⟨hr, hall, hnd, hun⟩ := hs
  have hdisj : ∀ a ∈ gone, a ∉ xs := by
    intro a ha hx
    rw [hall] at hnd
    exact (List.nodup_append.1 hnd).2.2 a ha a hx rfl
  cases call with
  | enqueue node =>
    obtain ⟨hfresh, rfl⟩ := h
    have hnode : node ∉ xs := by
      intro hx
      exact hfresh (hall ▸ List.mem_append_right _ hx)
    obtain ⟨hr', hframe⟩ := enqueue_represents hr hnode
    refine ⟨xs ++ [node], rfl, ⟨hr', ?_, ?_, ?_⟩, rfl⟩
    · simp [hall, dequeued]
    · change (s.allocated ++ [node]).Nodup
      rw [← List.concat_eq_append]
      exact List.Nodup.concat hfresh hnd
    · intro a ha
      have ha' : a ∈ gone := by simpa [dequeued] using ha
      have hane : a ≠ node := by
        rintro rfl
        exact hfresh (hall ▸ List.mem_append_left _ ha')
      obtain ⟨hnext, hprev⟩ := hframe a (hdisj a ha') hane
      rw [hnext, hprev]
      exact hun a ha'
  | dequeue result =>
    obtain ⟨hdeq, halloc⟩ := h
    have htall : t.allocated = s.allocated ++ enqueued [Call.dequeue result] := by
      simp [halloc, enqueued]
    cases xs with
    | nil =>
      rw [dequeue_nil hr] at hdeq
      obtain ⟨rfl, hmem⟩ := Prod.mk.inj hdeq
      refine ⟨[], ⟨rfl, rfl⟩, ⟨hmem ▸ hr, ?_, halloc ▸ hnd, ?_⟩, htall⟩
      · simp [halloc, hall, dequeued]
      · intro a ha
        rw [← hmem]
        apply hun
        simpa [dequeued] using ha
    | cons x xs =>
      obtain ⟨m', hm', hr', hnext, hprev, hframe⟩ := dequeue_represents hr
      rw [hm'] at hdeq
      obtain ⟨rfl, hmem⟩ := Prod.mk.inj hdeq
      refine ⟨xs, ⟨rfl, rfl⟩, ⟨hmem ▸ hr', ?_, halloc ▸ hnd, ?_⟩, htall⟩
      · simp [halloc, hall, dequeued]
      · intro a ha
        rw [← hmem]
        have ha' : a ∈ gone ∨ a = x := by simpa [dequeued] using ha
        rcases ha' with ha' | rfl
        · obtain ⟨hn, hp⟩ := hframe a (hdisj a ha')
          rw [hn, hp]
          exact hun a ha'
        · exact ⟨hnext, hprev⟩

theorem enqueued_cons (call : Call) (calls : List Call) :
    enqueued (call :: calls) = enqueued [call] ++ enqueued calls :=
  List.filterMap_append (l := [call])

theorem dequeued_cons (call : Call) (calls : List Call) :
    dequeued (call :: calls) = dequeued [call] ++ dequeued calls :=
  List.filterMap_append (l := [call])

/-- **The run lemma.** -/
theorem holds_run (h : requestQueue.Run s calls t) (hs : s.Holds gone xs) :
    ∃ ys, fifo.Run xs calls ys ∧ t.Holds (gone ++ dequeued calls) ys ∧
      t.allocated = s.allocated ++ enqueued calls := by
  induction h generalizing gone xs with
  | nil s =>
    refine ⟨xs, .nil xs, ?_, ?_⟩
    · simpa [dequeued] using hs
    · simp [enqueued]
  | cons hstep _ ih =>
    obtain ⟨ys, hfifo, hu, hall⟩ := holds_step hs hstep
    obtain ⟨zs, hrun, ht, hall'⟩ := ih hu
    refine ⟨zs, .cons hfifo hrun, ?_, ?_⟩
    · rw [dequeued_cons, ← List.append_assoc]
      exact ht
    · rw [enqueued_cons, ← List.append_assoc, ← hall]
      exact hall'

end Calls

/-- **The queue refines a FIFO.** After any sequence of calls the links lead, from both ends,
through the list that a FIFO has after the same calls with the same results. The fields and the
inspecting functions agree with the list; the nodes put in are, in this order, those taken out and
those in the list, all different; and those taken out have no links. -/
theorem queue_refines_fifo {s t : State} {calls : List Call} (hs : requestQueue.init s)
    (h : requestQueue.Run s calls t) : ∃ xs, fifo.Run [] calls xs ∧
      Chain t.memory.next t.memory.queue.front xs none ∧
      Chain t.memory.previous t.memory.queue.back xs.reverse none ∧
      (t.memory.queue.front = none ↔ xs = []) ∧ (t.memory.queue.back = none ↔ xs = []) ∧
      t.memory.queue.size = xs.length ∧ getSizeRequestQueue t.memory = xs.length ∧
      isEmptyRequestQueue t.memory = xs.isEmpty ∧ getFrontRequestQueue t.memory = xs.head? ∧
      enqueued calls = dequeued calls ++ xs ∧ (enqueued calls).Nodup ∧
      ∀ a ∈ dequeued calls, t.memory.next a = none ∧ t.memory.previous a = none := by
  obtain ⟨xs, hfifo, ⟨hr, hall, hnd, hun⟩, halloc⟩ := holds_run h (holds_init hs)
  have hnil : s.allocated = [] := hs.2
  rw [hnil, List.nil_append] at halloc
  rw [List.nil_append] at hall hun
  refine ⟨xs, hfifo, hr.forward, hr.backward, ?_, ?_, hr.size_eq, hr.size_eq, ?_, hr.front_eq,
    ?_, ?_, hun⟩
  · rw [hr.front_eq, List.head?_eq_none_iff]
  · rw [hr.back_eq, List.getLast?_eq_none_iff]
  · unfold isEmptyRequestQueue
    rw [hr.front_eq]
    cases xs <;> rfl
  · rw [← halloc, hall]
  · rw [← halloc]
    exact hnd

/-- Two nodes go in and the first comes out. -/
theorem queue_refines_fifo_three : ∃ t : State,
    t.memory.queue = ⟨some 2, some 2, 1⟩ ∧ t.memory.next 1 = none ∧ ∃ xs,
      fifo.Run [] [.enqueue 1, .enqueue 2, .dequeue (some 1)] xs ∧
      Chain t.memory.next t.memory.queue.front xs none := by
  let m₀ : Memory := ⟨initRequestQueue, fun _ => ⟨none, none⟩⟩
  let m₁ := enqueueRequestQueue (initRequestNode m₀ 1) 1
  let m₂ := enqueueRequestQueue (initRequestNode m₁ 2) 2
  let t : State := ⟨(dequeueRequestQueue m₂).2, [1, 2]⟩
  have h : requestQueue.Run ⟨m₀, []⟩ [.enqueue 1, .enqueue 2, .dequeue (some 1)] t :=
    .cons (t := ⟨m₁, [1]⟩) ⟨by decide, rfl⟩
      (.cons (t := ⟨m₂, [1, 2]⟩) ⟨by decide, rfl⟩ (.single ⟨rfl, rfl⟩))
  obtain ⟨xs, hfifo, hchain, -⟩ := queue_refines_fifo ⟨rfl, rfl⟩ h
  exact ⟨t, rfl, rfl, xs, hfifo, hchain⟩

end Heimdall.Queue
