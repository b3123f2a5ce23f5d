import Heimdall.Basic
import Heimdall.Lib.Loop
import Heimdall.Lib.Cyclic

/-!
# The circular buffer (`circular.c`) and `get_server`

The buffer is a value here: `buffer` holds the servers of the block that the C pointer designates,
`head` and `tail` are the offsets of the two entry pointers in it. Which block that is, and whether
it is still allocated, is the subject of `Heimdall.RoundRobin.Memory`.
-/

namespace Heimdall.RoundRobin

def serverStatusReady : Int := 1

def serverStatusBroken : Int := -1

structure Server where
  address : CharPtr
  ip : CharPtr
  weight : Int
  status : Int
  deriving DecidableEq, Repr

/-- The machine an entry stands for, whatever weight the entry has left. -/
def Server.machine (s : Server) : CharPtr × CharPtr × Int := (s.address, s.ip, s.status)

structure Circular where
  buffer : List Server
  bufferPosition : Nat
  bufferLen : Nat
  head : Nat
  tail : Nat
  deriving DecidableEq, Repr

/-- `mem` is what the `malloc`ed structure happens to contain: only two fields are preset. -/
def newCircular (mem : Circular) : Circular := { mem with buffer := [], bufferPosition := 0 }

/-- The position is the one field of the cursor that is kept. -/
def allocateBuffer (circular : Circular) (servers : Option (List Server)) (len : Nat) :
    Throwable × Circular :=
  match servers with
  | none => (.create statusError .errno "allocate_buffer", circular)
  | some servers =>
    if len = 0 then (.create statusError .errno "allocate_buffer", circular)
    else (.create statusOk .null "allocate_buffer",
      { circular with buffer := servers, bufferLen := len, head := 0, tail := len - 1 })

def progress (circular : Circular) : Exec Circular :=
  if circular.bufferLen = 0 then .error .divByZero
  else
    let position := (circular.bufferPosition + 1) % circular.bufferLen
    .ok { circular with tail := circular.head, bufferPosition := position, head := position }

/-- `*(circular->tail)`. -/
def readTail (circular : Circular) : Exec Server :=
  match circular.buffer[circular.tail]? with
  | some server => .ok server
  | none => .error .outOfBounds

/-! ## `get_server` -/

/-- The locals of `get_server`, with the buffer it works on. -/
structure Scan where
  circular : Circular
  serverReady : Server
  notAvailable : Nat
  deriving DecidableEq, Repr

/-- The entries looked at so far: one before the loop, one for each count of `not_available`. -/
def Scan.looks (x : Scan) : Nat := x.notAvailable + 1

/-- One pass of the loop of `get_server`. -/
def getServerPass (x : Scan) : Exec (Loop.Pass Scan Scan) :=
  if x.serverReady.status = serverStatusReady then .ok (.leave x)
  else do
    let circular ← progress x.circular
    let server ← readTail circular
    let notAvailable := x.notAvailable + 1
    -- the count is compared before the status of the entry just read is
    if notAvailable = circular.bufferLen then
      .ok (.leave ⟨circular, { server with status := serverStatusBroken }, notAvailable⟩)
    else .ok (.again ⟨circular, server, notAvailable⟩)

/-- `get_server`, between its `acquire` and its `release`. -/
def getServer (fuel : Nat) (circular : Circular) : Exec Scan := do
  let circular ← progress circular
  let server ← readTail circular
  Loop.run getServerPass .fuel fuel ⟨circular, server, 0⟩

/-! ## The cursor -/

/-- What holds of the buffer once it has been published: it is not empty and the next entry to be
served lies in it. The position need not, see `allocateBuffer`. -/
structure Circular.Published (c : Circular) : Prop where
  len_eq : c.bufferLen = c.buffer.length
  len_pos : 0 < c.bufferLen
  head_lt : c.head < c.bufferLen

/-- The head is the entry that the position designates. -/
def Circular.InStep (c : Circular) : Prop := c.head = c.bufferPosition % c.bufferLen

instance (c : Circular) : Decidable c.InStep := inferInstanceAs (Decidable (_ = _))

/-- The buffer after `k` steps: the first step follows `head`, the later ones the position. -/
def Circular.walk (c : Circular) : Nat → Circular
  | 0 => c
  | k + 1 =>
    { c.walk k with
      tail := (c.walk k).head
      bufferPosition := ((c.walk k).bufferPosition + 1) % c.bufferLen
      head := ((c.walk k).bufferPosition + 1) % c.bufferLen }

/-- The offset of the `k`-th entry that a walk from `c` looks at. -/
def Circular.look (c : Circular) (k : Nat) : Nat :=
  if k = 0 then c.head else (c.bufferPosition + k) % c.bufferLen

@[simp] theorem walk_buffer (c : Circular) (k : Nat) : (c.walk k).buffer = c.buffer := by
  induction k with
  | zero => rfl
  | succ k ih => exact ih

@[simp] theorem walk_bufferLen (c : Circular) (k : Nat) : (c.walk k).bufferLen = c.bufferLen := by
  induction k with
  | zero => rfl
  | succ k ih => exact ih

theorem walk_position (c : Circular) (k : Nat) :
    (c.walk (k + 1)).bufferPosition = (c.bufferPosition + (k + 1)) % c.bufferLen := by
  induction k with
  | zero => rfl
  | succ k ih =>
    change ((c.walk (k + 1)).bufferPosition + 1) % c.bufferLen = _
    rw [ih, Nat.mod_add_mod, Nat.add_assoc]

theorem walk_head_eq_position (c : Circular) (k : Nat) :
    (c.walk (k + 1)).head = (c.walk (k + 1)).bufferPosition := rfl

theorem walk_head (c : Circular) (k : Nat) : (c.walk k).head = c.look k := by
  cases k with
  | zero => rfl
  | succ k => rw [walk_head_eq_position, walk_position]; rfl

theorem walk_tail (c : Circular) (k : Nat) : (c.walk (k + 1)).tail = c.look k := walk_head c k

theorem look_lt {c : Circular} (h : c.Published) (k : Nat) : c.look k < c.bufferLen := by
  unfold Circular.look
  split
  · exact h.head_lt
  · exact Nat.mod_lt _ h.len_pos

/-- A walk keeps the buffer published, and is in step from its first step on. -/
theorem walk_published {c : Circular} (h : c.Published) (k : Nat) : (c.walk k).Published := by
  refine ⟨by rw [walk_bufferLen, walk_buffer, h.len_eq], by rw [walk_bufferLen]; exact h.len_pos,
    ?_⟩
  rw [walk_head, walk_bufferLen]
  exact look_lt h k

theorem progress_walk {c : Circular} (h : c.Published) (k : Nat) :
    progress (c.walk k) = .ok (c.walk (k + 1)) := by
  have hl : (c.walk k).bufferLen ≠ 0 := Nat.pos_iff_ne_zero.1 (walk_published h k).len_pos
  unfold progress
  rw [if_neg hl]
  simp only [Circular.walk, walk_bufferLen]

/-- The entry at offset `k` of the walk. -/
theorem exists_look {c : Circular} (h : c.Published) (k : Nat) :
    ∃ s, c.buffer[c.look k]? = some s := by
  have hl : c.look k < c.buffer.length := h.len_eq ▸ look_lt h k
  exact ⟨_, List.getElem?_eq_getElem hl⟩

theorem readTail_walk {c : Circular} {k : Nat} {s : Server} (hs : c.buffer[c.look k]? = some s) :
    readTail (c.walk (k + 1)) = .ok s := by
  unfold readTail
  rw [walk_tail, walk_buffer, hs]

/-- The offsets that `n` steps in a row look at. -/
theorem map_look (c : Circular) {n : Nat} (hn : 0 < n) (hl : c.bufferLen = n) :
    (List.range n).map c.look = Cyclic.skewed c.head c.bufferPosition n := by
  obtain ⟨m, rfl⟩ : ∃ m, n = m + 1 := ⟨n - 1, by omega⟩
  rw [List.range_succ_eq_map, List.map_cons, List.map_map]
  unfold Cyclic.skewed
  refine congrArg₂ _ rfl (List.map_congr_left fun k _ => ?_)
  simp only [Function.comp, Circular.look, Nat.succ_eq_add_one, Nat.add_eq_zero_iff, one_ne_zero,
    and_false, if_false, hl]
  congr 1
  omega

end Heimdall.RoundRobin
