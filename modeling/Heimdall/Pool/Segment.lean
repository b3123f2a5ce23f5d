import Heimdall.Lib.Bytes
import Heimdall.Pool.Prefork

/-!
# The bytes of the shared memory (`main.c`, `shared_mem.c`)

`do_prefork` lays the segment out: four pointers at its beginning, and behind them the four arrays
that the pointers lead to. The pointers are addresses of the mapping that `init_shm` has made. A
worker keeps that mapping across `fork`, and so does the pool thread; `get_shm` gives each of them a
second mapping, for reading only, and it is there that they read the pointers.

Here are `do_prefork` and the sections over those bytes, and what a load or a store of an element
does to a segment that stands for four arrays (`Represents`). A load or store of several bytes may
begin at any address.
-/

namespace Heimdall.Pool

open RoundRobin (Server)

/-! ## The segment and its mappings -/

structure Segment where
  size : Nat
  bytes : Bytes.Memory

/-- The two mappings of a process: of `init_shm`, for reading and writing, and of `get_shm`, for
reading. Before `get_shm` both are the first. -/
structure Process where
  start : Nat
  header : Nat

namespace Process

/-- The byte of the segment where `k` bytes at an address begin. -/
def find (p : Process) (size a k : Nat) : Option Nat :=
  if p.start ≤ a ∧ a + k ≤ p.start + size then some (a - p.start)
  else if p.header ≤ a ∧ a + k ≤ p.header + size then some (a - p.header)
  else none

def load (p : Process) (s : Segment) (a k : Nat) : Exec Nat :=
  match p.find s.size a k with
  | some o => .ok (Bytes.load s.bytes o k)
  | none => .error .outOfBounds

def store (p : Process) (s : Segment) (a k v : Nat) : Exec Segment :=
  if p.start ≤ a ∧ a + k ≤ p.start + s.size then
    .ok { s with bytes := Bytes.store s.bytes (a - p.start) k v }
  else .error .outOfBounds

end Process

/-- The members of `THPSharedMem`, which are pointers. -/
inductive Member
  | workerArray
  | workerBusy
  | workerCounter
  | workerServer
  deriving DecidableEq

/-- Where the member is in the structure. -/
def Member.offset : Member → Nat
  | .workerArray => 0
  | .workerBusy => 8
  | .workerCounter => 16
  | .workerServer => 24

/-- `sizeof(THPSharedMem)`. -/
def sizeofSharedMem : Nat := 32

/-- The size of what the member points to: `pid_t`, `int`, `int`, `Server`. -/
def Member.sizeof : Member → Nat
  | .workerServer => 24
  | _ => 4

/-- How far behind the beginning of the segment `do_prefork` puts the array. -/
def Member.begin (n : Nat) : Member → Nat
  | .workerArray => sizeofSharedMem
  | .workerBusy => sizeofSharedMem + 4 * n
  | .workerCounter => sizeofSharedMem + 4 * n + 4 * n
  | .workerServer => sizeofSharedMem + 4 * n + 4 * n + 4 * n

namespace Process

variable (p : Process) (s : Segment)

/-- `&worker_pool->a[i]`. -/
def element (a : Member) (i : Nat) : Exec Nat := do
  let base ← p.load s (p.header + a.offset) 8
  .ok (base + a.sizeof * i)

def loadInt (a : Member) (i : Nat) : Exec Int := do
  let address ← p.element s a i
  .ok (Bytes.signed 4 (← p.load s address 4))

def storeInt (a : Member) (i : Nat) (v : Int) : Exec Segment := do
  let address ← p.element s a i
  p.store s address 4 (Bytes.unsigned 4 v)

/-- `worker_pool->worker_server[i] = *server`. -/
def storeServer (i : Nat) (server : Server) : Exec Segment := do
  let address ← p.element s .workerServer i
  let s ← p.store s address 8 server.address
  let s ← p.store s (address + 8) 8 server.ip
  let s ← p.store s (address + 16) 4 (Bytes.unsigned 4 server.weight)
  p.store s (address + 20) 4 (Bytes.unsigned 4 server.status)

/-- `remote->status` and `remote->ip`, where `remote` is `&worker_pool->worker_server[i]`. -/
def loadRemote (i : Nat) : Exec (Int × CharPtr) := do
  let remote ← p.element s .workerServer i
  let status ← p.load s (remote + 20) 4
  let ip ← p.load s (remote + 8) 8
  .ok (Bytes.signed 4 status, ip)

end Process

/-! ## `do_prefork` -/

/-- `total_size += bytes`: the sum is a `size_t`, which is stored in an `int`. -/
def addSize (total : Int) (bytes : Nat) : Int := (total + bytes).bmod 4294967296

def totalSize (n : Nat) : Int :=
  let total := addSize 0 sizeofSharedMem
  let total := addSize total (4 * n)
  let total := addSize total (4 * n)
  let total := addSize total (4 * n)
  addSize total (24 * n)

/-- `init_shm`: a size that is negative as an `off_t` is refused by `ftruncate`, and the result is
NULL. What the segment holds is not known: it may be there from before. -/
def initShm (size : Int) (bytes : Bytes.Memory) : Option Segment :=
  if size < 0 then none else some ⟨size.toNat, bytes⟩

/-- The four pointers. -/
def mapPool (p : Process) (n : Nat) (s : Segment) : Exec Segment :=
  [Member.workerArray, .workerBusy, .workerCounter, .workerServer].foldlM
    (fun s a => p.store s (p.header + a.offset) 8 (p.start + a.begin n)) s

/-- The loop that initialises the arrays. -/
def zeroPool (p : Process) (n : Nat) (s : Segment) : Exec Segment :=
  (List.range n).foldlM (fun s i => do
    let s ← p.storeInt s .workerArray i 0
    let s ← p.storeInt s .workerBusy i 0
    p.storeInt s .workerCounter i 0) s

def findWorker (p : Process) (n : Nat) (pid : Int) (s : Segment) : Exec (Option Nat) :=
  (List.range n).findM? fun i => do
    let q ← p.loadInt s .workerArray i
    .ok (decide (q = pid))

/-- `register` over the bytes. -/
def registerShared (p : Process) (n : Nat) (pid : Int) (s : Segment) :
    Exec (Except Throwable Segment) := do
  match ← findWorker p n 0 s with
  | some i => do
    let s ← p.storeInt s .workerArray i pid
    .ok (.ok s)
  | none => .ok (.error (.create statusError (.text "Cannot add worker_pid to array") "do_prefork"))

/-- The children: none is forked after an error. -/
def registerAll (p : Process) (n : Nat) (fork : Nat → Option Pid) (s : Segment) (k : Nat) :
    Exec (Except Throwable Segment) :=
  (List.range k).foldlM (fun r k =>
    match r with
    | .ok s => registerShared p n (childPid (fork k)) s
    | .error t => .ok (.error t)) (.ok s)

/-- `do_prefork` once the segment is there. -/
def preforkSegment (nPrefork start : Nat) (fork : Nat → Option Pid) (s : Segment) :
    Exec (Except Throwable Segment) := do
  let p : Process := ⟨start, start⟩
  let s ← mapPool p (slots nPrefork) s
  let s ← zeroPool p (slots nPrefork) s
  registerAll p (slots nPrefork) fork s (slots nPrefork)

/-- `do_prefork`, with what `init_shm` has returned; `none` is an exit. -/
def preforkWith (nPrefork start : Nat) (fork : Nat → Option Pid) :
    Option Segment → Exec (Option (Except Throwable Segment))
  | none => .ok none
  | some s => (preforkSegment nPrefork start fork s).map some

/-- `do_prefork` over the bytes. -/
def preforkShared (nPrefork start : Nat) (fork : Nat → Option Pid) (bytes : Bytes.Memory) :
    Exec (Option (Except Throwable Segment)) :=
  preforkWith nPrefork start fork (initShm (totalSize (slots nPrefork)) bytes)

/-! ## The sections -/

/-- `Scan.visit` over the bytes. -/
def visitShared (p : Process) (s : Segment) (x : Scan) (i : Nat) : Exec Scan := do
  let busy ← p.loadInt s .workerBusy i
  if busy = 0 then do
    let counter ← p.loadInt s .workerCounter i
    let x := if x.min = -1 then ⟨counter, i⟩ else x
    .ok (if counter ≤ x.min then ⟨counter, i⟩ else x)
  else .ok x

/-- `selectWorker` over the bytes. -/
def selectShared (p : Process) (n : Nat) (server : Server) (s : Segment) :
    Exec (Option (Nat × Int) × Segment) := do
  let x ← (List.range n).foldlM (visitShared p s) ⟨-1, -1⟩
  if x.position = -1 then .ok (none, s)
  else do
    let position := x.position.toNat
    let s ← p.storeInt s .workerBusy position 1
    let pid ← p.loadInt s .workerArray position
    let counter ← p.loadInt s .workerCounter position
    let counter ← checkInt (counter + 1)
    let s ← p.storeInt s .workerCounter position counter
    let s ← p.storeServer s position server
    .ok (some (position, pid), s)

/-- `release` over the bytes. -/
def releaseShared (p : Process) (n : Nat) (pid : Int) (s : Segment) : Exec Segment := do
  match ← findWorker p n pid s with
  | some i => p.storeInt s .workerBusy i 0
  | none => .ok s

/-! ## The cells -/

/-- What the segment consists of: the pointers, and for each slot its elements of the arrays. -/
inductive Cell (n : Nat)
  | pointer (a : Member)
  | worker (i : Fin n)
  | busy (i : Fin n)
  | counter (i : Fin n)
  | address (i : Fin n)
  | ip (i : Fin n)
  | weight (i : Fin n)
  | status (i : Fin n)
  deriving DecidableEq

namespace Cell

variable {n : Nat}

def offset : Cell n → Nat
  | pointer a => a.offset
  | worker i => Member.begin n .workerArray + 4 * i
  | busy i => Member.begin n .workerBusy + 4 * i
  | counter i => Member.begin n .workerCounter + 4 * i
  | address i => Member.begin n .workerServer + 24 * i
  | ip i => Member.begin n .workerServer + 24 * i + 8
  | weight i => Member.begin n .workerServer + 24 * i + 16
  | status i => Member.begin n .workerServer + 24 * i + 20

def width : Cell n → Nat
  | pointer _ | address _ | ip _ => 8
  | _ => 4

theorem offset_le (c : Cell n) : c.offset + c.width ≤ sizeofSharedMem + 36 * n := by
  cases c with
  | pointer a => cases a <;> simp only [offset, width, Member.offset, sizeofSharedMem] <;> omega
  | worker i | busy i | counter i | address i | ip i | weight i | status i =>
    have hi := i.isLt
    simp only [offset, width, Member.begin, sizeofSharedMem]
    omega

theorem apart (c d : Cell n) (h : c ≠ d) :
    c.offset + c.width ≤ d.offset ∨ d.offset + d.width ≤ c.offset := by
  cases c with
  | pointer a =>
    cases d with
    | pointer b =>
      cases a <;> cases b <;> first | exact absurd rfl h | simp [offset, width, Member.offset]
    | worker j | busy j | counter j | address j | ip j | weight j | status j =>
      cases a <;> simp only [offset, width, Member.offset, Member.begin, sizeofSharedMem] <;> omega
  | worker i | busy i | counter i | address i | ip i | weight i | status i =>
    have hi := i.isLt
    cases d with
    | pointer b =>
      cases b <;> simp only [offset, width, Member.offset, Member.begin, sizeofSharedMem] <;> omega
    | worker j | busy j | counter j | address j | ip j | weight j | status j =>
      have hj := j.isLt
      simp only [ne_eq, reduceCtorEq, not_false_eq_true, worker.injEq, busy.injEq, counter.injEq,
        address.injEq, ip.injEq, weight.injEq, status.injEq, Fin.ext_iff] at h
      simp only [offset, width, Member.begin, sizeofSharedMem]
      omega

end Cell

/-- The layout of a segment with `n` slots. -/
def layout (n : Nat) : Layout (Cell n) where
  offset := Cell.offset
  width := Cell.width
  apart := Cell.apart

/-! ## What the cells hold -/

/-- A server as it can be stored: two addresses and two `int`s. -/
structure Storable (server : Server) : Prop where
  address_lt : server.address < 256 ^ 8
  ip_lt : server.ip < 256 ^ 8
  weight_fits : FitsInt server.weight
  status_fits : FitsInt server.status

/-- The numbers of the first `n` slots are `int`s. -/
structure THPSharedMem.Fits (n : Nat) (m : THPSharedMem) : Prop where
  array : ∀ i, i < n → FitsInt (m.workerArray i)
  busy : ∀ i, i < n → FitsInt (m.workerBusy i)
  counter : ∀ i, i < n → FitsInt (m.workerCounter i)
  server : ∀ i, i < n → Storable (m.workerServer i)

/-- What the cells hold of four arrays, in a segment whose pointers lead to the mapping at
`start`. -/
def content {n : Nat} (start : Nat) (m : THPSharedMem) : Cell n → Nat
  | .pointer a => start + a.begin n
  | .worker i => Bytes.unsigned 4 (m.workerArray i)
  | .busy i => Bytes.unsigned 4 (m.workerBusy i)
  | .counter i => Bytes.unsigned 4 (m.workerCounter i)
  | .address i => (m.workerServer i).address
  | .ip i => (m.workerServer i).ip
  | .weight i => Bytes.unsigned 4 (m.workerServer i).weight
  | .status i => Bytes.unsigned 4 (m.workerServer i).status

/-- The segment has room for `n` slots, and its cells hold `f`. -/
structure Holds (n : Nat) (s : Segment) (f : Cell n → Nat) : Prop where
  room : sizeofSharedMem + 36 * n ≤ s.size
  view_eq : (layout n).view s.bytes = f

/-- **The segment stands for four arrays** of `n` slots. -/
structure Represents (n start : Nat) (s : Segment) (m : THPSharedMem) : Prop where
  holds : Holds n s (content start m)
  fits : m.Fits n

/-- The mappings of a process to a segment: they are the same, or they have nothing in common. -/
structure Process.Maps (p : Process) (start size : Nat) : Prop where
  start_eq : p.start = start
  start_le : start + size ≤ 256 ^ 8
  header_cases : p.header = start ∨ p.header + size ≤ start ∨ start + size ≤ p.header

theorem signed_unsigned {v : Int} (h : FitsInt v) : Bytes.signed 4 (Bytes.unsigned 4 v) = v := by
  obtain ⟨hmin, hmax⟩ := h
  unfold intMin at hmin
  unfold intMax at hmax
  apply Bytes.signed_unsigned <;> omega

section Access

variable {n start : Nat} {s : Segment} {m : THPSharedMem} {p : Process}

theorem load_start (hp : p.Maps start s.size) {o k : Nat} (ho : o + k ≤ s.size) :
    p.load s (start + o) k = .ok (Bytes.load s.bytes o k) := by
  have hfind : p.find s.size (start + o) k = some o := by
    unfold Process.find
    rw [hp.start_eq, if_pos (by omega), Nat.add_sub_cancel_left]
  unfold Process.load
  rw [hfind]

theorem load_header (hp : p.Maps start s.size) {o k : Nat} (ho : o + k ≤ s.size) (hk : 0 < k) :
    p.load s (p.header + o) k = .ok (Bytes.load s.bytes o k) := by
  have hfind : p.find s.size (p.header + o) k = some o := by
    unfold Process.find
    rw [hp.start_eq]
    rcases hp.header_cases with heq | hbelow | habove
    · rw [heq, if_pos (by omega), Nat.add_sub_cancel_left]
    · rw [if_neg (by omega), if_pos (by omega), Nat.add_sub_cancel_left]
    · rw [if_neg (by omega), if_pos (by omega), Nat.add_sub_cancel_left]
  unfold Process.load
  rw [hfind]

theorem store_start (hp : p.Maps start s.size) {o k : Nat} (ho : o + k ≤ s.size) (v : Nat) :
    p.store s (start + o) k v = .ok { s with bytes := Bytes.store s.bytes o k v } := by
  unfold Process.store
  rw [hp.start_eq, if_pos (by omega), Nat.add_sub_cancel_left]

/-- A cell is loaded. -/
theorem Holds.load {f : Cell n → Nat} (h : Holds n s f) (hp : p.Maps start s.size) (c : Cell n) :
    p.load s (start + c.offset) c.width = .ok (f c) := by
  rw [load_start hp (Nat.le_trans c.offset_le h.room)]
  exact congrArg Except.ok (congrFun h.view_eq c)

/-- A cell is stored to. -/
theorem Holds.store {f : Cell n → Nat} (h : Holds n s f) (hp : p.Maps start s.size) (c : Cell n)
    {v : Nat} (hv : v < 256 ^ c.width) :
    ∃ s', p.store s (start + c.offset) c.width v = .ok s' ∧ s'.size = s.size ∧
      Holds n s' (Function.update f c v) := by
  refine ⟨_, store_start hp (Nat.le_trans c.offset_le h.room) v, rfl, h.room, ?_⟩
  rw [← h.view_eq]
  exact (layout n).view_store s.bytes c hv

/-- The pointers lead to the arrays. -/
structure Pointers (n start : Nat) (s : Segment) : Prop where
  room : sizeofSharedMem ≤ s.size
  load_eq : ∀ a : Member, Bytes.load s.bytes a.offset 8 = start + a.begin n

theorem Member.offset_le (a : Member) : a.offset + 8 ≤ sizeofSharedMem := by
  cases a <;> decide

theorem Pointers.element (h : Pointers n start s) (hp : p.Maps start s.size) (a : Member)
    (i : Nat) : p.element s a i = .ok (start + (a.begin n + a.sizeof * i)) := by
  unfold Process.element
  rw [load_header hp (Nat.le_trans a.offset_le h.room) (by decide), h.load_eq, Exec.ok_bind,
    Nat.add_assoc]

theorem Represents.pointers (h : Represents n start s m) : Pointers n start s where
  room := Nat.le_trans (Nat.le_add_right ..) h.holds.room
  load_eq a := congrFun h.holds.view_eq (.pointer a)

theorem Represents.element (h : Represents n start s m) (hp : p.Maps start s.size) (a : Member)
    (i : Nat) : p.element s a i = .ok (start + (a.begin n + a.sizeof * i)) :=
  h.pointers.element hp a i

end Access

/-! ## Loads and stores of elements -/

section Elements

variable {n start i : Nat} {s : Segment} {m m' : THPSharedMem} {p : Process} {a : Member} {v : Int}

theorem Represents.loadInt (h : Represents n start s m) (hp : p.Maps start s.size) (c : Cell n)
    (hc : c.offset = a.begin n + a.sizeof * i) (hw : c.width = 4)
    (hv : content start m c = Bytes.unsigned 4 v) (hfits : FitsInt v) :
    p.loadInt s a i = .ok v := by
  have hload := h.holds.load hp c
  rw [hc, hw, hv] at hload
  unfold Process.loadInt
  rw [h.element hp, Exec.ok_bind, hload, Exec.ok_bind, signed_unsigned hfits]

theorem Represents.storeInt (h : Represents n start s m) (hp : p.Maps start s.size) (c : Cell n)
    (hc : c.offset = a.begin n + a.sizeof * i) (hw : c.width = 4)
    (hm : Function.update (content start m) c (Bytes.unsigned 4 v) = content start m')
    (hfits : m'.Fits n) :
    ∃ s', p.storeInt s a i v = .ok s' ∧ s'.size = s.size ∧ Represents n start s' m' := by
  have hv : Bytes.unsigned 4 v < 256 ^ c.width := hw ▸ Bytes.unsigned_lt 4 v
  obtain ⟨s', hstore, hsize, hholds⟩ := h.holds.store hp c hv
  rw [hc, hw] at hstore
  rw [hm] at hholds
  refine ⟨s', ?_, hsize, hholds, hfits⟩
  unfold Process.storeInt
  rw [h.element hp, Exec.ok_bind]
  exact hstore

/-- One slot of an array changes. -/
theorem forall_cell_update {α : Type} {P : α → Prop} {f : Nat → α} {x : α}
    (hf : ∀ j, j < n → P (f j)) (hx : P x) (i j : Nat) (hj : j < n) :
    P (Function.update f i x j) := by
  by_cases hij : j = i
  · rw [hij, Function.update_self]
    exact hx
  · rw [Function.update_of_ne hij]
    exact hf j hj

variable (h : Represents n start s m) (hp : p.Maps start s.size) (hi : i < n)
include h hp hi

theorem Represents.loadArray : p.loadInt s .workerArray i = .ok (m.workerArray i) :=
  h.loadInt hp (.worker ⟨i, hi⟩) rfl rfl rfl (h.fits.array i hi)

theorem Represents.loadBusy : p.loadInt s .workerBusy i = .ok (m.workerBusy i) :=
  h.loadInt hp (.busy ⟨i, hi⟩) rfl rfl rfl (h.fits.busy i hi)

theorem Represents.loadCounter : p.loadInt s .workerCounter i = .ok (m.workerCounter i) :=
  h.loadInt hp (.counter ⟨i, hi⟩) rfl rfl rfl (h.fits.counter i hi)

theorem Represents.storeArray (hv : FitsInt v) : ∃ s', p.storeInt s .workerArray i v = .ok s' ∧
    s'.size = s.size ∧
    Represents n start s' { m with workerArray := Function.update m.workerArray i v } := by
  refine h.storeInt hp (.worker ⟨i, hi⟩) rfl rfl ?_
    { h.fits with array := forall_cell_update h.fits.array hv i }
  funext c
  cases c with
  | worker j =>
    simp only [content, Function.update_apply, Cell.worker.injEq, Fin.ext_iff]
    split <;> rfl
  | _ => rfl

theorem Represents.storeBusy (hv : FitsInt v) : ∃ s', p.storeInt s .workerBusy i v = .ok s' ∧
    s'.size = s.size ∧
    Represents n start s' { m with workerBusy := Function.update m.workerBusy i v } := by
  refine h.storeInt hp (.busy ⟨i, hi⟩) rfl rfl ?_
    { h.fits with busy := forall_cell_update h.fits.busy hv i }
  funext c
  cases c with
  | busy j =>
    simp only [content, Function.update_apply, Cell.busy.injEq, Fin.ext_iff]
    split <;> rfl
  | _ => rfl

theorem Represents.storeCounter (hv : FitsInt v) : ∃ s', p.storeInt s .workerCounter i v = .ok s' ∧
    s'.size = s.size ∧
    Represents n start s' { m with workerCounter := Function.update m.workerCounter i v } := by
  refine h.storeInt hp (.counter ⟨i, hi⟩) rfl rfl ?_
    { h.fits with counter := forall_cell_update h.fits.counter hv i }
  funext c
  cases c with
  | counter j =>
    simp only [content, Function.update_apply, Cell.counter.injEq, Fin.ext_iff]
    split <;> rfl
  | _ => rfl

/-- The four stores of a server. -/
theorem Represents.storeServer {server : Server} (hs : Storable server) :
    ∃ s', p.storeServer s i server = .ok s' ∧ s'.size = s.size ∧
      Represents n start s' { m with
        workerServer := Function.update m.workerServer i server } := by
  obtain ⟨s₁, h₁, hsize₁, hholds₁⟩ := h.holds.store hp (.address ⟨i, hi⟩) hs.address_lt
  obtain ⟨s₂, h₂, hsize₂, hholds₂⟩ :=
    hholds₁.store (hsize₁ ▸ hp) (.ip ⟨i, hi⟩) hs.ip_lt
  obtain ⟨s₃, h₃, hsize₃, hholds₃⟩ :=
    hholds₂.store (hsize₂ ▸ hsize₁ ▸ hp) (.weight ⟨i, hi⟩) (Bytes.unsigned_lt 4 server.weight)
  obtain ⟨s₄, h₄, hsize₄, hholds₄⟩ :=
    hholds₃.store (hsize₃ ▸ hsize₂ ▸ hsize₁ ▸ hp) (.status ⟨i, hi⟩)
      (Bytes.unsigned_lt 4 server.status)
  simp only [Cell.offset, Cell.width, ← Nat.add_assoc] at h₁ h₂ h₃ h₄
  refine ⟨s₄, ?_, hsize₄.trans (hsize₃.trans (hsize₂.trans hsize₁)), ⟨hholds₄.room, ?_⟩,
    { h.fits with server := forall_cell_update h.fits.server hs i }⟩
  · unfold Process.storeServer
    rw [h.element hp, Exec.ok_bind]
    simp only [Member.sizeof, ← Nat.add_assoc]
    rw [h₁, Exec.ok_bind, h₂, Exec.ok_bind, h₃, Exec.ok_bind, h₄]
  · rw [hholds₄.view_eq]
    funext c
    cases c with
    | address j | ip j | weight j | status j =>
      simp only [content, Function.update_apply, Cell.address.injEq, Cell.ip.injEq,
        Cell.weight.injEq, Cell.status.injEq, Fin.ext_iff, reduceCtorEq, if_false]
      split <;> rfl
    | _ => rfl

theorem Represents.loadRemote :
    p.loadRemote s i = .ok ((m.workerServer i).status, (m.workerServer i).ip) := by
  have hstatus := h.holds.load hp (.status ⟨i, hi⟩)
  have hip := h.holds.load hp (.ip ⟨i, hi⟩)
  simp only [Cell.offset, Cell.width, content, ← Nat.add_assoc] at hstatus hip
  unfold Process.loadRemote
  rw [h.element hp, Exec.ok_bind]
  simp only [Member.sizeof, ← Nat.add_assoc]
  rw [hstatus, Exec.ok_bind, hip, Exec.ok_bind, signed_unsigned (h.fits.server i hi).status_fits]

end Elements

end Heimdall.Pool
