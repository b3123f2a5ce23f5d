import Heimdall.Queue.RequestQueue

/-!
# The request queue without a lock

`read_work` enqueues and `write_work` dequeues on the same queue, in two threads and without a lock.
Here every test and every assignment of the two functions is a step of its own (`Step`), and the
steps interleave in any order.

The two get in each other's way around a queue of one node only: when `dequeue` has found that its
node is the last one, and `enqueue` still finds or leaves it at the back. Runs in which they stay
apart there lose nothing (`apart_conserves`); a run in which they do not may lose a node
(`node_lost`).
-/

namespace Heimdall.Queue.Race

/-- What `enqueue_request_queue` does next with its node. -/
inductive EnqueuePc
  | idle
  | test (node : Addr)
  | setFront (node : Addr)
  | setBackFirst (node : Addr)
  | linkNext (node : Addr)
  | linkPrevious (node : Addr)
  | setBack (node : Addr)
  | grow
  deriving DecidableEq

/-- What `dequeue_request_queue` does next with `front`, and the `next` it has read. -/
inductive DequeuePc
  | idle
  | readNext (front : Addr)
  | clearNext (front : Addr) (next : Option Addr)
  | unlink (front : Addr) (next : Option Addr)
  | setFront (front : Addr) (next : Option Addr)
  | shrink (front : Addr)
  deriving DecidableEq

/-- `enqueued` are the nodes of all calls of `enqueue` so far, `dequeued` those that `dequeue` has
returned; no code reads them. -/
structure State where
  memory : Memory
  enqueuer : EnqueuePc
  dequeuer : DequeuePc
  enqueued : List Addr
  dequeued : List Addr

inductive Event
  | callEnqueue (node : Addr)
  | enqueue
  | getFront
  | callDequeue
  | dequeue
  deriving DecidableEq

inductive Step : State → Event → State → Prop
  | callEnqueue {m : Memory} {d : DequeuePc} {ins outs : List Addr} {node : Addr}
      (hn : node ∉ ins) :
      Step ⟨m, .idle, d, ins, outs⟩ (.callEnqueue node)
        ⟨initRequestNode m node, .test node, d, ins ++ [node], outs⟩
  | testEmpty {m : Memory} {d : DequeuePc} {ins outs : List Addr} {node : Addr}
      (hb : m.queue.back = none) :
      Step ⟨m, .test node, d, ins, outs⟩ .enqueue ⟨m, .setFront node, d, ins, outs⟩
  | testLast {m : Memory} {d : DequeuePc} {ins outs : List Addr} {node back : Addr}
      (hb : m.queue.back = some back) :
      Step ⟨m, .test node, d, ins, outs⟩ .enqueue ⟨m, .linkNext node, d, ins, outs⟩
  | setFront {m : Memory} {d : DequeuePc} {ins outs : List Addr} {node : Addr} :
      Step ⟨m, .setFront node, d, ins, outs⟩ .enqueue
        ⟨m.setFront (some node), .setBackFirst node, d, ins, outs⟩
  | setBackFirst {m : Memory} {d : DequeuePc} {ins outs : List Addr} {node : Addr} :
      Step ⟨m, .setBackFirst node, d, ins, outs⟩ .enqueue
        ⟨m.setBack (some node), .grow, d, ins, outs⟩
  /-- A `back` that is NULL by now ends the process here. -/
  | linkNext {m : Memory} {d : DequeuePc} {ins outs : List Addr} {node back : Addr}
      (hb : m.queue.back = some back) :
      Step ⟨m, .linkNext node, d, ins, outs⟩ .enqueue
        ⟨m.setNext back (some node), .linkPrevious node, d, ins, outs⟩
  | linkPrevious {m : Memory} {d : DequeuePc} {ins outs : List Addr} {node : Addr} :
      Step ⟨m, .linkPrevious node, d, ins, outs⟩ .enqueue
        ⟨m.setPrevious node m.queue.back, .setBack node, d, ins, outs⟩
  | setBack {m : Memory} {d : DequeuePc} {ins outs : List Addr} {node : Addr} :
      Step ⟨m, .setBack node, d, ins, outs⟩ .enqueue ⟨m.setBack (some node), .grow, d, ins, outs⟩
  | grow {m : Memory} {d : DequeuePc} {ins outs : List Addr} :
      Step ⟨m, .grow, d, ins, outs⟩ .enqueue ⟨m.setSize (m.queue.size + 1), .idle, d, ins, outs⟩
  | getFront {m : Memory} {e : EnqueuePc} {ins outs : List Addr} :
      Step ⟨m, e, .idle, ins, outs⟩ .getFront ⟨m, e, .idle, ins, outs⟩
  | callEmpty {m : Memory} {e : EnqueuePc} {ins outs : List Addr} (hf : m.queue.front = none) :
      Step ⟨m, e, .idle, ins, outs⟩ .callDequeue ⟨m, e, .idle, ins, outs⟩
  | callDequeue {m : Memory} {e : EnqueuePc} {ins outs : List Addr} {front : Addr}
      (hf : m.queue.front = some front) :
      Step ⟨m, e, .idle, ins, outs⟩ .callDequeue ⟨m, e, .readNext front, ins, outs⟩
  | readNext {m : Memory} {e : EnqueuePc} {ins outs : List Addr} {front : Addr} :
      Step ⟨m, e, .readNext front, ins, outs⟩ .dequeue
        ⟨m, e, .clearNext front (m.next front), ins, outs⟩
  | clearNext {m : Memory} {e : EnqueuePc} {ins outs : List Addr} {front : Addr}
      {next : Option Addr} :
      Step ⟨m, e, .clearNext front next, ins, outs⟩ .dequeue
        ⟨m.setNext front none, e, .unlink front next, ins, outs⟩
  | unlinkNext {m : Memory} {e : EnqueuePc} {ins outs : List Addr} {front next : Addr} :
      Step ⟨m, e, .unlink front (some next), ins, outs⟩ .dequeue
        ⟨m.setPrevious next none, e, .setFront front (some next), ins, outs⟩
  | unlinkLast {m : Memory} {e : EnqueuePc} {ins outs : List Addr} {front : Addr} :
      Step ⟨m, e, .unlink front none, ins, outs⟩ .dequeue
        ⟨m.setBack none, e, .setFront front none, ins, outs⟩
  | setFirst {m : Memory} {e : EnqueuePc} {ins outs : List Addr} {front : Addr}
      {next : Option Addr} :
      Step ⟨m, e, .setFront front next, ins, outs⟩ .dequeue
        ⟨m.setFront next, e, .shrink front, ins, outs⟩
  | shrink {m : Memory} {e : EnqueuePc} {ins outs : List Addr} {front : Addr} :
      Step ⟨m, e, .shrink front, ins, outs⟩ .dequeue
        ⟨m.setSize (m.queue.size - 1), e, .idle, ins, outs ++ [front]⟩

/-- Two threads on a queue made by `init_request_queue`. -/
def race : System State Event where
  init s := s.memory.queue = initRequestQueue ∧ s.enqueuer = .idle ∧ s.dequeuer = .idle ∧
    s.enqueued = [] ∧ s.dequeued = []
  step := Step

/-- Both threads are between two operations. -/
def State.Quiet (s : State) : Prop := s.enqueuer = .idle ∧ s.dequeuer = .idle

/-- Every node that was put in has been returned once or can be reached from the front, in order,
and the size is the number of those that can be reached. -/
def State.Conserved (s : State) : Prop :=
  ∃ xs, Chain s.memory.next s.memory.queue.front xs none ∧ s.enqueued = s.dequeued ++ xs ∧
    s.enqueued.Nodup ∧ s.memory.queue.size = xs.length

/-- `enqueue` has found a node at the back, and has not yet put its own there. -/
def EnqueuePc.linking : EnqueuePc → Bool
  | .linkNext _ => true
  | .linkPrevious _ => true
  | .setBack _ => true
  | _ => false

/-- The two threads stay apart at a queue of one node. When `dequeue` sets `back` to NULL, its node
is still at the back and no `enqueue` is linking another one behind it; and an `enqueue` that has
found the queue empty does not set `front` between the two stores of such a `dequeue`. -/
def Apart (s : State) (event : Event) (_ : State) : Prop :=
  (event = .dequeue → ∀ front, s.dequeuer = .unlink front none →
    s.memory.queue.back = some front ∧ s.enqueuer.linking = false) ∧
  (event = .enqueue → ∀ node, s.enqueuer = .setFront node →
    ∀ front, s.dequeuer ≠ .setFront front none)

/-! ## What the threads keep -/

/-- The node that is being taken out. -/
def DequeuePc.taking : DequeuePc → List Addr
  | .readNext front => [front]
  | .clearNext front _ => [front]
  | .unlink front _ => [front]
  | .setFront front _ => [front]
  | _ => []

/-- The node that is about to be returned. -/
def DequeuePc.returning : DequeuePc → List Addr
  | .shrink front => [front]
  | _ => []

/-- The node that is still to be linked. -/
def EnqueuePc.waiting : EnqueuePc → List Addr
  | .test node => [node]
  | .setFront node => [node]
  | .linkNext node => [node]
  | _ => []

/-- A node has been linked but not counted. -/
def EnqueuePc.uncounted : EnqueuePc → Nat
  | .setBackFirst _ => 1
  | .linkPrevious _ => 1
  | .setBack _ => 1
  | .grow => 1
  | _ => 0

/-- Where the nodes behind the one that is being taken out begin. -/
def DequeuePc.start (m : Memory) : DequeuePc → Option Addr
  | .readNext front => m.next front
  | .clearNext _ next => next
  | .unlink _ next => next
  | .setFront _ next => next
  | _ => m.queue.front

/-- The nodes whose last one is at the back, `ys` being those behind the one that is taken out. -/
def DequeuePc.upToBack (ys : List Addr) : DequeuePc → List Addr
  | .readNext front => front :: ys
  | .clearNext front _ => front :: ys
  | .unlink front _ => front :: ys
  | .setFront front (some _) => front :: ys
  | _ => ys

/-- What `back` is, by what `enqueue` does next. -/
def BackOk (m : Memory) (d : DequeuePc) (ys : List Addr) : EnqueuePc → Prop
  | .idle => m.queue.back = (d.upToBack ys).getLast?
  | .test _ => m.queue.back = (d.upToBack ys).getLast?
  | .setFront _ => m.queue.back = none ∧ d.upToBack ys = []
  | .setBackFirst node => m.queue.back = none ∧ d.upToBack ys = [node]
  | .linkNext _ => m.queue.back = (d.upToBack ys).getLast? ∧
      (ys = [] → ∃ front, d = .readNext front)
  | .linkPrevious node => (d.upToBack ys).getLast? = some node
  | .setBack node => (d.upToBack ys).getLast? = some node
  | .grow => m.queue.back = (d.upToBack ys).getLast?

/-- The nodes `ys` are linked behind the one that is being taken out, and nothing is lost. -/
structure State.Linked (s : State) (ys : List Addr) : Prop where
  enqueued_eq : s.enqueued = s.dequeued ++ (s.dequeuer.returning ++ (s.dequeuer.taking ++
    (ys ++ s.enqueuer.waiting)))
  nodup : s.enqueued.Nodup
  chain : Chain s.memory.next (s.dequeuer.start s.memory) ys none
  link : ∀ front next, s.dequeuer = .clearNext front next → s.memory.next front = next
  fresh : ∀ node ∈ s.enqueuer.waiting, s.memory.next node = none
  size_eq : s.memory.queue.size + s.enqueuer.uncounted =
    s.dequeuer.returning.length + s.dequeuer.taking.length + ys.length
  back : BackOk s.memory s.dequeuer ys s.enqueuer

/-- What `enqueue` has in hand, or has left at the back, is not `front`. -/
def Ahead (m : Memory) (front : Addr) : EnqueuePc → Prop
  | .idle => ∃ b, m.queue.back = some b ∧ b ≠ front
  | .test node => (∃ b, m.queue.back = some b ∧ b ≠ front) ∧ node ≠ front
  | .setFront _ => False
  | .setBackFirst _ => False
  | .linkNext node => node ≠ front
  | .linkPrevious node => node ≠ front
  | .setBack node => node ≠ front
  | .grow => ∃ b, m.queue.back = some b ∧ b ≠ front

/-- `dequeue` takes its node for the last one, and `enqueue` has gone on behind it. Its store to
`back` is then never one that stays apart. -/
def State.Overtaken (s : State) : Prop :=
  ∃ front, (s.dequeuer = .clearNext front none ∨ s.dequeuer = .unlink front none) ∧
    front ∈ s.enqueued ∧ Ahead s.memory front s.enqueuer

section Steps

variable {m : Memory} {e : EnqueuePc} {d : DequeuePc} {ins outs ys : List Addr}
  {node back front : Addr} {next : Option Addr}

theorem upToBack_getLast? (h : ys ≠ []) : (d.upToBack ys).getLast? = ys.getLast? := by
  have hcons : ∀ a : Addr, (a :: ys).getLast? = ys.getLast? := by
    intro a
    cases ys with
    | nil => exact absurd rfl h
    | cons y ys => rfl
  cases d with
  | setFront front next =>
    cases next with
    | none => rfl
    | some next => exact hcons front
  | readNext front | clearNext front | unlink front => exact hcons front
  | idle | shrink => rfl

theorem start_congr {m' : Memory} (hfront : m'.queue.front = m.queue.front)
    (hnext : ∀ a ∈ d.taking, m'.next a = m.next a) : d.start m' = d.start m := by
  cases d with
  | readNext front => exact hnext front (List.mem_singleton.2 rfl)
  | idle | shrink => exact hfront
  | clearNext | unlink | setFront => rfl

/-- A link that is set elsewhere than in the node taken out. -/
theorem start_update {m' : Memory} {b : Addr} {v : Option Addr}
    (hfront : m'.queue.front = m.queue.front) (hnext : m'.next = Function.update m.next b v)
    (hb : ∀ a ∈ d.taking, a ≠ b) : d.start m' = d.start m := by
  apply start_congr hfront
  intro a ha
  rw [hnext]
  exact Function.update_of_ne (hb a ha) ..

/-- What `dequeue` does leaves the end alone, except where the last node leaves. -/
theorem BackOk.of_upToBack_eq {m' : Memory} {d' : DequeuePc} (h : BackOk m d ys e)
    (hd : ∀ front, d ≠ .readNext front) (hb : m'.queue.back = m.queue.back)
    (hup : d'.upToBack ys = d.upToBack ys) : BackOk m' d' ys e := by
  cases e with
  | linkNext node =>
    refine ⟨hb.trans (hup ▸ h.1), ?_⟩
    intro hys
    obtain ⟨front, hd'⟩ := h.2 hys
    exact absurd hd' (hd front)
  | setFront node => exact ⟨hb.trans h.1, hup.trans h.2⟩
  | setBackFirst node => exact ⟨hb.trans h.1, hup.trans h.2⟩
  | linkPrevious node | setBack node =>
    change (d'.upToBack ys).getLast? = some node
    rw [hup]
    exact h
  | idle | test | grow =>
    change m'.queue.back = (d'.upToBack ys).getLast?
    rw [hup, hb]
    exact h

theorem State.Linked.nodup_rest {s : State} (h : s.Linked ys) :
    (s.dequeuer.taking ++ (ys ++ s.enqueuer.waiting)).Nodup := by
  have hnd := h.nodup
  rw [h.enqueued_eq] at hnd
  exact (List.nodup_append.1 (List.nodup_append.1 hnd).2.1).2.1

theorem linked_init {s : State} (h : race.init s) : s.Linked [] := by
  obtain ⟨hq, he, hd, hin, hout⟩ := h
  refine ⟨?_, ?_, ?_, ?_, ?_, ?_, ?_⟩
  · simp [hin, hout, hd, he, DequeuePc.returning, DequeuePc.taking, EnqueuePc.waiting]
  · rw [hin]
    exact List.nodup_nil
  · rw [hd]
    change Chain _ s.memory.queue.front [] none
    rw [hq]
    rfl
  · intro front next h0
    exact DequeuePc.noConfusion (hd.symm.trans h0)
  · intro node h0
    rw [he] at h0
    cases h0
  · rw [hq, he, hd]
    rfl
  · rw [he, hd]
    change s.memory.queue.back = none
    rw [hq]
    rfl

theorem linked_callEnqueue (h : State.Linked ⟨m, .idle, d, ins, outs⟩ ys) (hn : node ∉ ins) :
    State.Linked ⟨initRequestNode m node, .test node, d, ins ++ [node], outs⟩ ys := by
  obtain ⟨hall, hnd, hchain, hlink, -, hsize, hback⟩ := h
  simp only [EnqueuePc.waiting, List.append_nil] at hall
  have hys : node ∉ ys := by
    intro hy
    apply hn
    rw [hall]
    simp [hy]
  have htaking : ∀ a ∈ d.taking, a ≠ node := by
    rintro a ha rfl
    apply hn
    rw [hall]
    simp [ha]
  have hstart : d.start (initRequestNode m node) = d.start m :=
    start_update rfl (Memory.initRequestNode_next m node) htaking
  refine ⟨?_, ?_, ?_, ?_, ?_, hsize, hback⟩
  · simp [hall, EnqueuePc.waiting]
  · rw [← List.concat_eq_append]
    exact List.Nodup.concat hn hnd
  · rw [hstart]
    change Chain (initRequestNode m node).next _ ys none
    rw [Memory.initRequestNode_next]
    exact hchain.update hys none
  · intro front next hd
    change (initRequestNode m node).next front = next
    rw [Memory.initRequestNode_next, Function.update_of_ne, hlink front next hd]
    apply htaking
    change d = _ at hd
    rw [hd]
    exact List.mem_singleton.2 rfl
  · intro a ha
    obtain rfl := List.mem_singleton.1 ha
    change (initRequestNode m a).next a = none
    rw [Memory.initRequestNode_next]
    exact Function.update_self ..

theorem linked_testEmpty (h : State.Linked ⟨m, .test node, d, ins, outs⟩ ys)
    (hb : m.queue.back = none) : State.Linked ⟨m, .setFront node, d, ins, outs⟩ ys := by
  refine { h with back := ⟨hb, ?_⟩ }
  have hback : m.queue.back = (d.upToBack ys).getLast? := h.back
  rw [hb] at hback
  exact List.getLast?_eq_none_iff.1 hback.symm

/-- `enqueue` finds a node at the back: a `dequeue` that takes it for the last one is overtaken. -/
theorem linked_testLast (h : State.Linked ⟨m, .test node, d, ins, outs⟩ ys)
    (hb : m.queue.back = some back) : State.Linked ⟨m, .linkNext node, d, ins, outs⟩ ys ∨
      State.Overtaken ⟨m, .linkNext node, d, ins, outs⟩ := by
  have hback : m.queue.back = (d.upToBack ys).getLast? := h.back
  have hlinked : (ys = [] → ∃ front, d = .readNext front) →
      State.Linked ⟨m, .linkNext node, d, ins, outs⟩ ys := by
    intro hys
    exact { h with back := ⟨hback, hys⟩ }
  by_cases hys : ys = []
  · subst hys
    have hne : d.upToBack [] ≠ [] := by
      intro h0
      rw [hb, h0] at hback
      cases hback
    have hover : ∀ front, d.taking = [front] → front ∈ ins ∧ node ≠ front := by
      intro front htake
      have hall := h.enqueued_eq
      have hnd := h.nodup
      simp only [htake, EnqueuePc.waiting, List.nil_append] at hall
      change ins = _ at hall
      change ins.Nodup at hnd
      rw [hall] at hnd ⊢
      refine ⟨by simp, ?_⟩
      rintro rfl
      simp only [List.nodup_append, List.nodup_cons, List.mem_append] at hnd
      simp at hnd
    have hchain : d.start m = none := h.chain
    cases d with
    | idle => exact absurd rfl hne
    | shrink front => exact absurd rfl hne
    | readNext front => exact .inl (hlinked fun _ => ⟨front, rfl⟩)
    | clearNext front next =>
      obtain rfl : next = none := hchain
      exact .inr ⟨front, .inl rfl, hover front rfl⟩
    | unlink front next =>
      obtain rfl : next = none := hchain
      exact .inr ⟨front, .inr rfl, hover front rfl⟩
    | setFront front next =>
      obtain rfl : next = none := hchain
      exact absurd rfl hne
  · exact .inl (hlinked fun h0 => absurd h0 hys)

/-- The first node of an empty queue, which no `dequeue` is just leaving. -/
theorem linked_setFront (h : State.Linked ⟨m, .setFront node, d, ins, outs⟩ ys)
    (ha : ∀ front, d ≠ .setFront front none) :
    State.Linked ⟨m.setFront (some node), .setBackFirst node, d, ins, outs⟩ [node] := by
  obtain ⟨hall, hnd, hchain, hlink, hfresh, hsize, hb, hup⟩ := h
  have hnode : m.next node = none := hfresh node (List.mem_singleton.2 rfl)
  have hout : ys = [] ∧ d.taking = [] ∧ d.start m = m.queue.front ∧ d.upToBack [node] = [node] ∧
      d.start (m.setFront (some node)) = some node ∧ ∀ front next, d ≠ .clearNext front next := by
    cases d with
    | idle => exact ⟨hup, rfl, rfl, rfl, rfl, fun _ _ h0 => DequeuePc.noConfusion h0⟩
    | shrink front => exact ⟨hup, rfl, rfl, rfl, rfl, fun _ _ h0 => DequeuePc.noConfusion h0⟩
    | readNext | clearNext | unlink => cases hup
    | setFront front next =>
      cases next with
      | none => exact absurd rfl (ha front)
      | some next => cases hup
  obtain ⟨rfl, htake, -, hup', hstart, hclear⟩ := hout
  refine ⟨?_, hnd, ?_, ?_, ?_, ?_, hb, hup'⟩
  · simpa [EnqueuePc.waiting, htake] using hall
  · rw [hstart]
    exact ⟨rfl, hnode⟩
  · intro front next h0
    exact absurd h0 (hclear front next)
  · intro a h0
    cases h0
  · simp only [htake, EnqueuePc.uncounted, List.length_nil] at hsize ⊢
    change m.queue.size + _ = _ at hsize
    change m.queue.size + _ = _
    simp only [List.length_singleton]
    omega

/-- A step of `enqueue` that leaves the links to the next node and the front alone. -/
theorem linked_of_next_eq {m' : Memory} {e' : EnqueuePc} (h : State.Linked ⟨m, e, d, ins, outs⟩ ys)
    (hnext : m'.next = m.next) (hfront : m'.queue.front = m.queue.front)
    (hwait : e'.waiting = e.waiting)
    (hsize : m'.queue.size + e'.uncounted = m.queue.size + e.uncounted)
    (hback : BackOk m' d ys e') : State.Linked ⟨m', e', d, ins, outs⟩ ys := by
  obtain ⟨hall, hnd, hchain, hlink, hfresh, hsize', -⟩ := h
  refine ⟨?_, hnd, ?_, ?_, ?_, hsize.trans hsize', hback⟩
  · change ins = _ ++ (_ ++ (_ ++ (ys ++ e'.waiting)))
    rw [hwait]
    exact hall
  · change Chain m'.next (d.start m') ys none
    rw [start_congr hfront (fun a _ => congrFun hnext a), hnext]
    exact hchain
  · intro front next hd
    change m'.next front = next
    rw [hnext]
    exact hlink front next hd
  · intro a ha
    change a ∈ e'.waiting at ha
    rw [hwait] at ha
    change m'.next a = none
    rw [hnext]
    exact hfresh a ha

theorem linked_setBackFirst (h : State.Linked ⟨m, .setBackFirst node, d, ins, outs⟩ ys) :
    State.Linked ⟨m.setBack (some node), .grow, d, ins, outs⟩ ys := by
  obtain ⟨-, hup⟩ : BackOk m d ys (.setBackFirst node) := h.back
  refine linked_of_next_eq h rfl rfl rfl rfl ?_
  change some node = (d.upToBack ys).getLast?
  rw [hup]
  rfl

/-- The node at the back is given its next one. -/
theorem linked_linkNext (h : State.Linked ⟨m, .linkNext node, d, ins, outs⟩ ys)
    (hb : m.queue.back = some back) :
    State.Linked ⟨m.setNext back (some node), .linkPrevious node, d, ins, outs⟩ (ys ++ [node]) := by
  have hrest := h.nodup_rest
  obtain ⟨hall, hnd, hchain, hlink, hfresh, hsize, hback, hempty⟩ := h
  change m.queue.back = (d.upToBack ys).getLast? at hback
  change (d.taking ++ (ys ++ [node])).Nodup at hrest
  have hnode : m.next node = none := hfresh node (List.mem_singleton.2 rfl)
  have hsize' : m.queue.size + (1 : Nat) =
      d.returning.length + d.taking.length + (ys ++ [node]).length := by
    change m.queue.size + (0 : Nat) = d.returning.length + d.taking.length + ys.length at hsize
    rw [List.length_append, List.length_singleton]
    omega
  have hall' : ins = outs ++ (d.returning ++ (d.taking ++ ((ys ++ [node]) ++ []))) := by
    rw [List.append_nil]
    exact hall
  have hlast : (d.upToBack (ys ++ [node])).getLast? = some node := by
    rw [upToBack_getLast? (by simp)]
    simp
  -- the node at the back is the one that is taken out, or the last one behind it
  rcases List.eq_nil_or_concat' ys with rfl | ⟨zs, b, rfl⟩
  · obtain ⟨front, rfl⟩ := hempty rfl
    obtain rfl : back = front := Option.some.inj (hb.symm.trans hback)
    have hne : node ≠ back := by
      rintro rfl
      simp [DequeuePc.taking] at hrest
    refine ⟨hall', hnd, ⟨?_, ?_⟩, ?_, ?_, hsize', hlast⟩
    · change (m.setNext back (some node)).next back = some node
      rw [Memory.setNext_next, Function.update_self]
    · change (m.setNext back (some node)).next node = none
      rw [Memory.setNext_next, Function.update_of_ne hne, hnode]
    · intro front next hd
      cases hd
    · intro a ha
      cases ha
  · rw [upToBack_getLast? (by simp)] at hback
    obtain rfl : back = b := by simpa using hb.symm.trans hback
    obtain ⟨htake, hdisj⟩ : (zs ++ [back] ++ [node]).Nodup ∧
        ∀ a ∈ d.taking, ∀ b ∈ zs ++ [back] ++ [node], a ≠ b :=
      (List.nodup_append.1 hrest).2
    have hback_ne : ∀ a ∈ d.taking, a ≠ back := by
      intro a ha
      exact hdisj a ha back (by simp)
    refine ⟨hall', hnd, ?_, ?_, ?_, hsize', hlast⟩
    · change Chain (m.setNext back (some node)).next (d.start (m.setNext back (some node))) _ none
      have hstart : d.start (m.setNext back (some node)) = d.start m :=
        start_update rfl (Memory.setNext_next m back (some node)) hback_ne
      rw [hstart, Memory.setNext_next]
      rw [← List.concat_eq_append, ← List.concat_eq_append] at htake
      obtain ⟨hnode', hzs⟩ := (List.nodup_concat ..).1 htake
      rw [List.concat_eq_append] at hnode'
      apply Chain.snoc hchain
      · exact ((List.nodup_concat ..).1 hzs).1
      · exact hnode'
      · exact hnode
    · intro front next hd
      change (m.setNext back (some node)).next front = next
      change d = .clearNext front next at hd
      rw [Memory.setNext_next, Function.update_of_ne, hlink front next hd]
      apply hback_ne
      rw [hd]
      exact List.mem_singleton.2 rfl
    · intro a ha
      cases ha

theorem linked_linkPrevious (h : State.Linked ⟨m, .linkPrevious node, d, ins, outs⟩ ys) :
    State.Linked ⟨m.setPrevious node m.queue.back, .setBack node, d, ins, outs⟩ ys :=
  linked_of_next_eq h (Memory.setPrevious_next ..) rfl rfl rfl h.back

theorem linked_setBack (h : State.Linked ⟨m, .setBack node, d, ins, outs⟩ ys) :
    State.Linked ⟨m.setBack (some node), .grow, d, ins, outs⟩ ys := by
  refine linked_of_next_eq h rfl rfl rfl rfl ?_
  have hlast : (d.upToBack ys).getLast? = some node := h.back
  exact hlast.symm

theorem linked_grow (h : State.Linked ⟨m, .grow, d, ins, outs⟩ ys) :
    State.Linked ⟨m.setSize (m.queue.size + 1), .idle, d, ins, outs⟩ ys := by
  refine linked_of_next_eq h rfl rfl rfl ?_ ?_
  · change m.queue.size + 1 + (0 : Nat) = m.queue.size + (1 : Nat)
    omega
  · exact h.back

/-- `dequeue` takes the first node, if there is one. -/
theorem linked_callDequeue (h : State.Linked ⟨m, e, .idle, ins, outs⟩ ys)
    (hf : m.queue.front = some front) :
    ∃ zs, ys = front :: zs ∧ State.Linked ⟨m, e, .readNext front, ins, outs⟩ zs := by
  obtain ⟨hall, hnd, hchain, -, hfresh, hsize, hback⟩ := h
  change Chain m.next m.queue.front ys none at hchain
  rw [hf] at hchain
  cases ys with
  | nil => cases hchain
  | cons a zs =>
    obtain ⟨hfa, hzs⟩ := hchain
    cases hfa
    refine ⟨zs, rfl, hall, hnd, hzs, ?_, hfresh, ?_, ?_⟩
    · intro front next hd
      cases hd
    · change m.queue.size + e.uncounted =
        ((0 : Nat) : Int) + (0 : Nat) + (front :: zs).length at hsize
      change m.queue.size + e.uncounted = ((0 : Nat) : Int) + (1 : Nat) + zs.length
      rw [List.length_cons] at hsize
      omega
    · cases e with
      | linkNext node => exact ⟨hback.1, fun _ => ⟨front, rfl⟩⟩
      | setFront node => exact hback
      | setBackFirst node => exact hback
      | idle | test | linkPrevious | setBack | grow => exact hback

/-- `dequeue` reads what is behind its node: when `enqueue` is about to link the first one there,
`dequeue` is overtaken. -/
theorem linked_readNext (h : State.Linked ⟨m, e, .readNext front, ins, outs⟩ ys) :
    State.Linked ⟨m, e, .clearNext front (m.next front), ins, outs⟩ ys ∨
      State.Overtaken ⟨m, e, .clearNext front (m.next front), ins, outs⟩ := by
  have hrest := h.nodup_rest
  obtain ⟨hall, hnd, hchain, -, hfresh, hsize, hback⟩ := h
  have hlinked : BackOk m (.clearNext front (m.next front)) ys e →
      State.Linked ⟨m, e, .clearNext front (m.next front), ins, outs⟩ ys := by
    intro hb
    refine ⟨hall, hnd, hchain, ?_, hfresh, hsize, hb⟩
    intro front' next' hd
    cases hd
    rfl
  cases e with
  | linkNext node =>
    by_cases hys : ys = []
    · subst hys
      have hnone : m.next front = none := hchain
      refine .inr ⟨front, .inl ?_, ?_, ?_⟩
      · rw [hnone]
      · change front ∈ ins
        change ins = _ at hall
        rw [hall]
        simp [DequeuePc.taking]
      · change node ≠ front
        rintro rfl
        simp [DequeuePc.taking, EnqueuePc.waiting] at hrest
    · exact .inl (hlinked ⟨hback.1, fun h0 => absurd h0 hys⟩)
  | setFront node => exact .inl (hlinked hback)
  | setBackFirst node => exact .inl (hlinked hback)
  | idle | test | linkPrevious | setBack | grow => exact .inl (hlinked hback)

theorem linked_clearNext (h : State.Linked ⟨m, e, .clearNext front next, ins, outs⟩ ys) :
    State.Linked ⟨m.setNext front none, e, .unlink front next, ins, outs⟩ ys := by
  have hrest := h.nodup_rest
  obtain ⟨hall, hnd, hchain, -, hfresh, hsize, hback⟩ := h
  have hfront : front ∉ ys ++ e.waiting := by
    intro hy
    exact (List.nodup_append.1 hrest).2.2 front (List.mem_singleton.2 rfl) front hy rfl
  refine ⟨hall, hnd, ?_, ?_, ?_, hsize, ?_⟩
  · change Chain (m.setNext front none).next next ys none
    rw [Memory.setNext_next]
    apply Chain.update hchain
    intro hy
    exact hfront (List.mem_append_left _ hy)
  · intro front' next' hd
    cases hd
  · intro a ha
    change (m.setNext front none).next a = none
    rw [Memory.setNext_next, Function.update_of_ne, hfresh a ha]
    rintro rfl
    exact hfront (List.mem_append_right _ ha)
  · exact BackOk.of_upToBack_eq hback (fun _ hd => DequeuePc.noConfusion hd) rfl rfl

theorem linked_unlinkNext {next : Addr}
    (h : State.Linked ⟨m, e, .unlink front (some next), ins, outs⟩ ys) :
    State.Linked ⟨m.setPrevious next none, e, .setFront front (some next), ins, outs⟩ ys := by
  obtain ⟨hall, hnd, hchain, -, hfresh, hsize, hback⟩ := h
  have hnext : (m.setPrevious next none).next = m.next := Memory.setPrevious_next ..
  refine ⟨hall, hnd, ?_, ?_, ?_, hsize, ?_⟩
  · change Chain (m.setPrevious next none).next (some next) ys none
    rw [hnext]
    exact hchain
  · intro front' next' hd
    cases hd
  · intro a ha
    change (m.setPrevious next none).next a = none
    rw [hnext]
    exact hfresh a ha
  · exact BackOk.of_upToBack_eq hback (fun _ hd => DequeuePc.noConfusion hd) rfl rfl

/-- The last node leaves while nothing is being linked behind it. -/
theorem linked_unlinkLast (h : State.Linked ⟨m, e, .unlink front none, ins, outs⟩ ys)
    (hb : m.queue.back = some front) (he : e.linking = false) :
    State.Linked ⟨m.setBack none, e, .setFront front none, ins, outs⟩ ys := by
  obtain ⟨hall, hnd, hchain, -, hfresh, hsize, hback⟩ := h
  obtain rfl : ys = [] := Chain.nil_of_none hchain
  refine ⟨hall, hnd, rfl, ?_, hfresh, hsize, ?_⟩
  · intro front' next' hd
    cases hd
  · cases e with
    | setFront node => cases hback.2
    | setBackFirst node => exact absurd (hb.symm.trans hback.1) (Option.some_ne_none front)
    | linkNext | linkPrevious | setBack => cases he
    | idle | test | grow => rfl

theorem linked_setFirst (h : State.Linked ⟨m, e, .setFront front next, ins, outs⟩ ys) :
    State.Linked ⟨m.setFront next, e, .shrink front, ins, outs⟩ ys := by
  obtain ⟨hall, hnd, hchain, -, hfresh, hsize, hback⟩ := h
  have hlast : (DequeuePc.upToBack ys (.setFront front next)).getLast? = ys.getLast? := by
    cases next with
    | none => rfl
    | some next =>
      apply upToBack_getLast?
      rintro rfl
      cases hchain
  have hne : ∀ zs : List Addr, zs.length < 2 →
      DequeuePc.upToBack ys (.setFront front next) = zs → ys = zs := by
    intro zs hzs heq
    cases next with
    | none => exact heq
    | some next =>
      subst heq
      cases ys with
      | nil => cases hchain
      | cons y ys =>
        change ys.length + 2 < 2 at hzs
        omega
  refine ⟨?_, hnd, hchain, ?_, hfresh, hsize, ?_⟩
  · simpa [DequeuePc.taking, DequeuePc.returning] using hall
  · intro front' next' hd
    cases hd
  · cases e with
    | setFront node => exact ⟨hback.1, hne [] (by simp) hback.2⟩
    | setBackFirst node => exact ⟨hback.1, hne [node] (by simp) hback.2⟩
    | linkNext node =>
      refine ⟨hback.1.trans hlast, ?_⟩
      intro hys
      obtain ⟨front', hd⟩ := hback.2 hys
      cases hd
    | linkPrevious | setBack => exact hlast.symm.trans hback
    | idle | test | grow => exact Eq.trans hback hlast

theorem linked_shrink (h : State.Linked ⟨m, e, .shrink front, ins, outs⟩ ys) :
    State.Linked ⟨m.setSize (m.queue.size - 1), e, .idle, ins, outs ++ [front]⟩ ys := by
  obtain ⟨hall, hnd, hchain, -, hfresh, hsize, hback⟩ := h
  refine ⟨?_, hnd, hchain, ?_, hfresh, ?_, ?_⟩
  · simpa [DequeuePc.taking, DequeuePc.returning] using hall
  · intro front' next' hd
    cases hd
  · change m.queue.size + e.uncounted = ((1 : Nat) : Int) + (0 : Nat) + ys.length at hsize
    change m.queue.size - 1 + e.uncounted = ((0 : Nat) : Int) + (0 : Nat) + ys.length
    omega
  · exact BackOk.of_upToBack_eq hback (fun _ hd => DequeuePc.noConfusion hd) rfl rfl

end Steps

/-- `dequeue` that has been overtaken stays so as long as the threads stay apart. -/
theorem overtaken_step {s t : State} {event : Event} (h : s.Overtaken) (hstep : Step s event t)
    (ha : Apart s event t) : t.Overtaken := by
  obtain ⟨front, hd, hin, hahead⟩ := h
  cases hstep with
  | @callEnqueue m d ins outs node hn =>
    refine ⟨front, hd, List.mem_append_left _ hin, hahead, ?_⟩
    rintro rfl
    exact hn hin
  | testEmpty hb =>
    obtain ⟨⟨b, hb', -⟩, -⟩ := hahead
    cases hb.symm.trans hb'
  | testLast hb => exact ⟨front, hd, hin, hahead.2⟩
  | setFront => cases hahead
  | setBackFirst => cases hahead
  | linkNext hb => exact ⟨front, hd, hin, hahead⟩
  | linkPrevious => exact ⟨front, hd, hin, hahead⟩
  | @setBack m d ins outs node => exact ⟨front, hd, hin, node, rfl, hahead⟩
  | grow => exact ⟨front, hd, hin, hahead⟩
  | getFront => rcases hd with hd | hd <;> cases hd
  | callEmpty hf => rcases hd with hd | hd <;> cases hd
  | callDequeue hf => rcases hd with hd | hd <;> cases hd
  | readNext => rcases hd with hd | hd <;> cases hd
  | @clearNext m e ins outs front' next =>
    rcases hd with hd | hd
    · cases hd
      refine ⟨front, .inr rfl, hin, ?_⟩
      cases e <;> exact hahead
    · cases hd
  | unlinkNext => rcases hd with hd | hd <;> cases hd
  | @unlinkLast m e ins outs front' =>
    rcases hd with hd | hd
    · cases hd
    · cases hd
      -- the store to `back` is not one that stays apart
      obtain ⟨hb, he⟩ := ha.1 rfl front rfl
      have hfar : ¬∃ b, m.queue.back = some b ∧ b ≠ front := by
        rintro ⟨b, hb', hne⟩
        exact hne (Option.some.inj (hb'.symm.trans hb))
      cases e with
      | idle => exact absurd hahead hfar
      | test node => exact absurd hahead.1 hfar
      | grow => exact absurd hahead hfar
      | setFront => cases hahead
      | setBackFirst => cases hahead
      | linkNext | linkPrevious | setBack => cases he
  | setFirst => rcases hd with hd | hd <;> cases hd
  | shrink => rcases hd with hd | hd <;> cases hd

/-- Nothing is lost, or `dequeue` has been overtaken and does not go on. -/
def State.Safe (s : State) : Prop := (∃ ys, s.Linked ys) ∨ s.Overtaken

theorem safe_step {s t : State} {event : Event} (h : s.Safe) (hstep : Step s event t)
    (ha : Apart s event t) : t.Safe := by
  rcases h with ⟨ys, h⟩ | h
  · cases hstep with
    | callEnqueue hn => exact .inl ⟨ys, linked_callEnqueue h hn⟩
    | testEmpty hb => exact .inl ⟨ys, linked_testEmpty h hb⟩
    | testLast hb => exact (linked_testLast h hb).imp_left fun h => ⟨ys, h⟩
    | setFront => exact .inl ⟨_, linked_setFront h (ha.2 rfl _ rfl)⟩
    | setBackFirst => exact .inl ⟨ys, linked_setBackFirst h⟩
    | linkNext hb => exact .inl ⟨_, linked_linkNext h hb⟩
    | linkPrevious => exact .inl ⟨ys, linked_linkPrevious h⟩
    | setBack => exact .inl ⟨ys, linked_setBack h⟩
    | grow => exact .inl ⟨ys, linked_grow h⟩
    | getFront => exact .inl ⟨ys, h⟩
    | callEmpty hf => exact .inl ⟨ys, h⟩
    | callDequeue hf =>
      obtain ⟨zs, -, hzs⟩ := linked_callDequeue h hf
      exact .inl ⟨zs, hzs⟩
    | readNext => exact (linked_readNext h).imp_left fun h => ⟨ys, h⟩
    | clearNext => exact .inl ⟨ys, linked_clearNext h⟩
    | unlinkNext => exact .inl ⟨ys, linked_unlinkNext h⟩
    | unlinkLast =>
      obtain ⟨hb, he⟩ := ha.1 rfl _ rfl
      exact .inl ⟨ys, linked_unlinkLast h hb he⟩
    | setFirst => exact .inl ⟨ys, linked_setFirst h⟩
    | shrink => exact .inl ⟨ys, linked_shrink h⟩
  · exact .inr (overtaken_step h hstep ha)

theorem safe_reachable {s : State} (h : (race.restrict Apart).Reachable s) : s.Safe := by
  apply h.invariant State.Safe
  · intro s hs
    exact .inl ⟨[], linked_init hs⟩
  · intro s event t hs hstep
    exact safe_step hs hstep.1 hstep.2

theorem State.Linked.conserved {s : State} {ys : List Addr} (h : s.Linked ys) (hq : s.Quiet) :
    s.Conserved := by
  obtain ⟨hall, hnd, hchain, -, -, hsize, -⟩ := h
  obtain ⟨he, hd⟩ := hq
  rw [he, hd] at hall hsize
  rw [hd] at hchain
  refine ⟨ys, hchain, ?_, hnd, ?_⟩
  · simpa [DequeuePc.returning, DequeuePc.taking, EnqueuePc.waiting] using hall
  · simpa [DequeuePc.returning, DequeuePc.taking, EnqueuePc.uncounted] using hsize

/-- **Nothing is lost** in a run in which the two threads stay apart around a queue of one node:
whenever both are between operations, every node that was put in has been returned once, or is
reached from the front, in order. -/
theorem apart_conserves {s : State} (h : (race.restrict Apart).Reachable s) (hq : s.Quiet) :
    s.Conserved := by
  rcases safe_reachable h with ⟨ys, hs⟩ | ⟨front, hd, -⟩
  · exact hs.conserved hq
  · rw [hq.2] at hd
    rcases hd with hd | hd <;> cases hd

/-- A queue made by `init_request_queue`, and two threads that have not begun. -/
def created : State := ⟨⟨initRequestQueue, fun _ => ⟨none, none⟩⟩, .idle, .idle, [], []⟩

theorem created_init : race.init created := ⟨rfl, rfl, rfl, rfl, rfl⟩

theorem apart_of_idle {s t : State} {event : Event} (hd : s.dequeuer = .idle) :
    Apart s event t := by
  refine ⟨?_, ?_⟩ <;> intro _ <;> rw [hd]
  · intro front h0
    cases h0
  · intro node _ front h0
    cases h0

theorem apart_of_last {s t : State} {event : Event} (he : s.enqueuer = .idle)
    (hb : ∀ front, s.dequeuer = .unlink front none → s.memory.queue.back = some front) :
    Apart s event t := by
  refine ⟨?_, ?_⟩ <;> intro _
  · intro front hd
    refine ⟨hb front hd, ?_⟩
    rw [he]
    rfl
  · intro node h0
    rw [he] at h0
    cases h0

/-- One node goes through the queue. -/
theorem apart_conserves_one :
    ∃ s, (race.restrict Apart).Reachable s ∧ s.enqueued = [0] ∧ s.dequeued = [0] ∧
      s.Conserved := by
  have hr := System.Run.cons (M := race.restrict Apart) (s := created)
    ⟨Step.callEnqueue (List.not_mem_nil (a := 0)), apart_of_idle rfl⟩ <|
    .cons ⟨Step.testEmpty rfl, apart_of_idle rfl⟩ <|
    .cons ⟨Step.setFront, apart_of_idle rfl⟩ <| .cons ⟨Step.setBackFirst, apart_of_idle rfl⟩ <|
    .cons ⟨Step.grow, apart_of_idle rfl⟩ <| .cons ⟨Step.callDequeue rfl, apart_of_idle rfl⟩ <|
    .cons ⟨Step.readNext, apart_of_last rfl fun _ h0 => DequeuePc.noConfusion h0⟩ <|
    .cons ⟨Step.clearNext, apart_of_last rfl fun _ h0 => DequeuePc.noConfusion h0⟩ <|
    .cons ⟨Step.unlinkLast, apart_of_last rfl fun _ h0 => by cases h0; rfl⟩ <|
    .cons ⟨Step.setFirst, apart_of_last rfl fun _ h0 => DequeuePc.noConfusion h0⟩ <|
    .cons ⟨Step.shrink, apart_of_last rfl fun _ h0 => DequeuePc.noConfusion h0⟩ <| .nil _
  have hs : (race.restrict Apart).Reachable _ := ⟨created, _, created_init, hr⟩
  exact ⟨_, hs, rfl, rfl, apart_conserves hs ⟨rfl, rfl⟩⟩

/-- `dequeue` reads that nothing is behind the only node; `enqueue` puts the next one behind it;
`dequeue` empties the queue. The second node is neither returned nor reached. -/
theorem node_lost : ¬∀ s, race.Reachable s → s.Quiet → s.Conserved := by
  intro h
  have one_fresh : 1 ∉ [0] := by decide
  have hr := System.Run.cons (M := race) (s := created)
    (Step.callEnqueue (List.not_mem_nil (a := 0))) <| .cons (Step.testEmpty rfl) <|
    .cons Step.setFront <| .cons Step.setBackFirst <| .cons Step.grow <|
    .cons (Step.callDequeue rfl) <| .cons Step.readNext <|
    .cons (Step.callEnqueue one_fresh) <| .cons (Step.testLast rfl) <|
    .cons (Step.linkNext rfl) <| .cons Step.linkPrevious <| .cons Step.setBack <|
    .cons Step.grow <| .cons Step.clearNext <| .cons Step.unlinkLast <| .cons Step.setFirst <|
    .cons Step.shrink <| .nil _
  obtain ⟨xs, hchain, hall, -⟩ := h _ ⟨created, _, created_init, hr⟩ ⟨rfl, rfl⟩
  obtain rfl : xs = [] := Chain.nil_of_none hchain
  simp at hall

end Heimdall.Queue.Race
