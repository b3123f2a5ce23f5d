import Mathlib.Data.List.TakeWhile
import Heimdall.Http.Head
import Heimdall.Lib.Runs

/-!
# Receiving a request

`receive_http_header2` reads byte by byte until the last four bytes read are carriage returns or
line feeds, `receive_http_request` hands the text to `read_headers`. The buffer has room for 4096
bytes and a NUL. When it is full it is reallocated, and the pointer that `realloc` returns is thrown
away (`HeaderRead.grow`): the header stays where it was, which is right only as long as `realloc`
leaves the block in its place.

`strcpy` from the address of the byte that was read is taken as storing that byte.
-/

namespace Heimdall.Http

/-- What a call of `realloc` does with the block. -/
inductive Realloc
  | inPlace
  | moved
  | failed
  deriving DecidableEq

/-- What new memory contains, and what `realloc` does when it is asked for a size. -/
structure Heap where
  fill : Nat → Byte
  realloc : Nat → Realloc

/-- The locals of `receive_http_header2`, with the block that `header` leads to. -/
structure HeaderRead where
  block : Block
  size : Nat
  total : Nat
  number : Nat

/-- `malloc` and the NUL at the end. -/
def HeaderRead.start (h : Heap) : HeaderRead :=
  ⟨⟨true, (List.range 4096).map h.fill ++ [0]⟩, 4096, 0, 0⟩

/-- The byte is stored behind those that have been received. -/
def HeaderRead.put (s : HeaderRead) (b : Byte) : Exec HeaderRead :=
  if s.block.live then
    if s.total < s.block.mem.length then
      .ok { s with block := ⟨true, s.block.mem.set s.total b⟩ }
    else .error .outOfBounds
  else .error .useAfterFree

/-- `realloc(http_request->header, size + 4096)`, whose result is not stored; `none` when it is
NULL. -/
def HeaderRead.grow (h : Heap) (s : HeaderRead) : Option HeaderRead :=
  match h.realloc (s.size + 4096) with
  | .inPlace =>
    some { s with
      block := ⟨true,
        s.block.mem ++ ((List.range (s.size + 4096)).drop s.block.mem.length).map h.fill⟩
      size := s.size + 4096 }
  | .moved => some { s with block := ⟨false, s.block.mem⟩, size := s.size + 4096 }
  | .failed => none

/-- The number of bytes at the end of what has been read that are carriage returns or line feeds. -/
def nextNumber (number : Nat) (b : Byte) : Nat := if b = lf ∨ b = cr then number + 1 else 0

/-- The loop of `receive_http_header2`, which reads one byte in each pass. At the end of what the
client has sent `read` returns 0, or an error if the connection is `broken`. The loop is left with
an error or with none, and with the bytes that have not been read. -/
def receiveHeaderLoop (h : Heap) (broken : Bool) :
    List Byte → HeaderRead → Exec (Option Throwable × HeaderRead × List Byte)
  | [], s =>
    if s.number = 4 then do
      let s ← s.put 0
      .ok (none, s, [])
    else if broken then .ok (some (.create statusError .errno "receive_http_header2"), s, [])
    else .ok (none, s, [])
  | b :: socket, s =>
    if s.number = 4 then do
      let s ← s.put 0
      .ok (none, s, b :: socket)
    else do
      let s ← s.put b
      let s := { s with number := nextNumber s.number b, total := s.total + 1 }
      if s.total = s.size then
        match s.grow h with
        | none => .ok (some (.create statusError .errno "receive_http_header2"), s, socket)
        | some s => receiveHeaderLoop h broken socket s
      else receiveHeaderLoop h broken socket s

def receiveHttpHeader2 (h : Heap) (broken : Bool) (socket : List Byte) (self : HTTPRequest) :
    Exec (Throwable × HTTPRequest × List Byte) := do
  let (t, s, socket) ← receiveHeaderLoop h broken socket (.start h)
  let self := { self with header := some s.block }
  match t with
  | some t => .ok (t, self, socket)
  | none =>
    if s.total = 0 then
      .ok (.create statusError (.text "0 bytes -> close socket from client")
        "receive_http_header2", self, socket)
    else .ok (.create statusOk .null "receive_http_header2", self, socket)

/-- The string that `header` leads to. -/
def HTTPRequest.headerStr (self : HTTPRequest) : Exec (List Byte) :=
  match self.header with
  | none => .error .nullDeref
  | some b => b.str

def receiveHttpRequest (h : Heap) (broken : Bool) (socket : List Byte) (self : HTTPRequest) :
    Exec (Throwable × HTTPRequest × List Byte) := do
  let (t, self, socket) ← receiveHttpHeader2 h broken socket self
  if t.isAnError then .ok (t.thrown "receive_http_request", self, socket)
  else
    let (t, self) ← readHeaders self (← self.headerStr) .rqst
    if t.isAnError then .ok (t.thrown "receive_http_request", self, socket)
    else .ok (.create statusOk .null "receive_http_request", self, socket)

/-! ## Where the loop stops -/

/-- Counting from `n`, the last byte of the text is the first with which the number is 4. -/
def Ends : Nat → List Byte → Prop
  | n, [] => n = 4
  | n, b :: l => n ≠ 4 ∧ Ends (nextNumber n b) l

/-- The bytes that are counted. -/
def lineEnd (b : Byte) : Bool := b == lf || b == cr

theorem nextNumber_eq (n : Nat) (b : Byte) : nextNumber n b = Runs.next lineEnd n b := by
  unfold nextNumber Runs.next lineEnd
  simp only [Bool.or_eq_true, beq_iff_eq]

theorem ends_iff {l : List Byte} {n : Nat} :
    Ends n l ↔ Runs.Quiet lineEnd 4 n l ∧ Runs.count lineEnd n l = 4 := by
  induction l generalizing n with
  | nil => exact ⟨fun h => ⟨trivial, h⟩, fun h => h.2⟩
  | cons b l ih => rw [Ends, ih, nextNumber_eq, Runs.Quiet, Runs.count_cons, and_assoc]

theorem Ends.line {l post : List Byte} {n : Nat} (hn : n < 4) (hl : Plain l) (hne : l ≠ [])
    (h : Ends 0 post) : Ends n (l ++ post) := by
  induction l generalizing n with
  | nil => exact absurd rfl hne
  | cons b l ih =>
    have hb : nextNumber n b = 0 := by
      obtain ⟨-, hcr, hlf⟩ := hl b (by simp)
      simp [nextNumber, hcr, hlf]
    refine ⟨by omega, ?_⟩
    rw [hb]
    cases l with
    | nil => exact h
    | cons c l => exact ih (by omega) (fun d hd => hl d (List.mem_cons_of_mem _ hd)) (by simp)

theorem Ends.crlf {post : List Byte} (h : Ends 2 post) : Ends 0 (cr :: lf :: post) :=
  ⟨by decide, by decide, h⟩

/-- **A header block ends the loop** with its last byte and not before. -/
theorem Head.ends_text (q : Head) : Ends 0 q.text := by
  have hfields : ∀ fs : List Field, Ends 2 (fieldsText fs ++ [cr, lf]) := by
    intro fs
    induction fs with
    | nil => exact ⟨by decide, by decide, rfl⟩
    | cons f fs ih =>
      have h := Ends.line (n := 2) (by omega) f.line_plain (by simp [Field.line]) (Ends.crlf ih)
      simpa [fieldsText] using h
  have h := Ends.line (n := 0) (by omega) q.firstLine_plain (by simp [Head.firstLine])
    (Ends.crlf (hfields q.fields))
  simpa [Head.text] using h

theorem Head.text_nul (q : Head) : 0 ∉ q.text := by
  rw [Head.text, List.append_assoc, List.mem_append, not_or]
  refine ⟨?_, fieldsText_nul _⟩
  rw [List.mem_append, not_or]
  exact ⟨q.firstLine_plain.nul_not_mem, by decide⟩

/-! ## What the loop does -/

/-- The block contains the text `c`, which has been received, and there is room for the next byte.
-/
structure HeaderRead.Holds (s : HeaderRead) (c : List Byte) : Prop where
  live : s.block.live = true
  taken : s.block.mem.take c.length = c
  total : s.total = c.length
  size : s.size = 4096 * (c.length / 4096 + 1)
  room : s.size ≤ s.block.mem.length

/-- What `malloc` and `realloc` leave at a position of the block: new memory, and the NUL that is
stored behind the first 4096 bytes. -/
def Heap.unused (h : Heap) (k : Nat) : Byte := if k = 4096 then 0 else h.fill k

/-- Nothing has been stored behind what has been received. -/
structure HeaderRead.Untouched (h : Heap) (s : HeaderRead) : Prop where
  long : 4096 < s.block.mem.length
  unused : ∀ k, s.total ≤ k → k < s.block.mem.length → s.block.mem[k]? = some (h.unused k)

/-- When `n` bytes have been received and the buffer is full, `realloc` leaves it in its place. -/
def Heap.KeepsAt (h : Heap) (n : Nat) : Prop := n % 4096 = 0 → h.realloc (n + 4096) = .inPlace

section Loop

variable {h : Heap} {broken : Bool} {s : HeaderRead} {c : List Byte}

theorem HeaderRead.start_holds (h : Heap) : (HeaderRead.start h).Holds [] := by
  refine ⟨rfl, rfl, rfl, rfl, ?_⟩
  simp [HeaderRead.start]

theorem HeaderRead.start_untouched (h : Heap) : (HeaderRead.start h).Untouched h := by
  have hlen : ((List.range 4096).map h.fill).length = 4096 := by simp
  refine ⟨by simp [HeaderRead.start], ?_⟩
  intro k _ hk
  have hk' : k < 4097 := by simpa [HeaderRead.start] using hk
  unfold HeaderRead.start Heap.unused
  by_cases heq : k = 4096
  · rw [if_pos heq, heq, List.getElem?_append_right (by omega), hlen]
    rfl
  · rw [if_neg heq, List.getElem?_append_left (by omega), List.getElem?_map,
      List.getElem?_range (by omega)]
    rfl

theorem HeaderRead.Untouched.put (hu : s.Untouched h) (b : Byte) (number : Nat) :
    ({ s with
        block := ⟨true, s.block.mem.set s.total b⟩
        number := number
        total := s.total + 1 } : HeaderRead).Untouched h := by
  refine ⟨by simpa using hu.long, ?_⟩
  intro k hk hlt
  dsimp only at hk hlt ⊢
  rw [List.length_set] at hlt
  rw [List.getElem?_set_ne (by omega)]
  exact hu.unused k (by omega) hlt

theorem HeaderRead.Untouched.grow (hu : s.Untouched h) (n size : Nat) :
    ({ s with
        block := ⟨true, s.block.mem ++ ((List.range n).drop s.block.mem.length).map h.fill⟩
        size := size } : HeaderRead).Untouched h := by
  refine ⟨?_, ?_⟩
  · have hlong := hu.long
    dsimp only
    rw [List.length_append]
    omega
  · intro k hk hlt
    dsimp only at hk hlt ⊢
    rw [List.length_append, List.length_map, List.length_drop, List.length_range] at hlt
    by_cases hold : k < s.block.mem.length
    · rw [List.getElem?_append_left hold]
      exact hu.unused k hk hold
    · have hlong := hu.long
      have hindex : s.block.mem.length + (k - s.block.mem.length) = k := by omega
      rw [List.getElem?_append_right (by omega), List.getElem?_map, List.getElem?_drop, hindex,
        List.getElem?_range (by omega)]
      unfold Heap.unused
      rw [if_neg (by omega)]
      rfl

theorem HeaderRead.Holds.lt (hs : s.Holds c) : s.total < s.block.mem.length := by
  have hsize := hs.size
  have hroom := hs.room
  have htotal := hs.total
  omega

/-- The next byte is stored. -/
theorem HeaderRead.Holds.put (hs : s.Holds c) (b : Byte) :
    s.put b = .ok { s with block := ⟨true, s.block.mem.set c.length b⟩ } := by
  unfold HeaderRead.put
  rw [if_pos hs.live, if_pos hs.lt, hs.total]

theorem HeaderRead.put_dead (hs : s.block.live = false) (b : Byte) :
    s.put b = .error .useAfterFree := by
  unfold HeaderRead.put
  rw [hs]
  rfl

theorem take_set_length {l : List Byte} {c : List Byte} (hlt : c.length < l.length)
    (hc : l.take c.length = c) (b : Byte) :
    (l.set c.length b).take (c ++ [b]).length = c ++ [b] := by
  rw [List.length_append, List.length_singleton, List.take_add_one,
    List.take_set_of_le (Nat.le_refl _), hc, List.getElem?_set_self hlt]
  rfl

variable (h broken) in
/-- One pass: the byte is stored and the buffer stays, or it is full and does not. -/
theorem receiveHeaderLoop_cons (hs : s.Holds c) (hn : s.number ≠ 4) (b : Byte)
    (socket : List Byte) :
    (h.KeepsAt (c.length + 1) ∧ ∃ s' : HeaderRead, s'.Holds (c ++ [b]) ∧
        s'.number = nextNumber s.number b ∧ (s.Untouched h → s'.Untouched h) ∧
        receiveHeaderLoop h broken (b :: socket) s = receiveHeaderLoop h broken socket s') ∨
      ¬ h.KeepsAt (c.length + 1) ∧
        ((∃ s' : HeaderRead, s'.block.live = false ∧ s'.number = nextNumber s.number b ∧
          receiveHeaderLoop h broken (b :: socket) s = receiveHeaderLoop h broken socket s') ∨
        ∃ s' : HeaderRead, receiveHeaderLoop h broken (b :: socket) s =
          .ok (some (.create statusError .errno "receive_http_header2"), s', socket)) := by
  have hlt := hs.lt
  have htaken := take_set_length (hs.total ▸ hlt) hs.taken b
  have hsize := hs.size
  have htotal := hs.total
  have hroom := hs.room
  have hset : s.block.mem.set s.total b = s.block.mem.set c.length b := by rw [htotal]
  rw [receiveHeaderLoop, if_neg hn, hs.put b, Exec.ok_bind]
  dsimp only
  by_cases hfull : (c.length + 1) % 4096 = 0
  · have heq : s.total + 1 = s.size := by omega
    have hask : s.size + 4096 = c.length + 1 + 4096 := by omega
    rw [if_pos heq]
    unfold HeaderRead.grow
    cases hre : h.realloc (c.length + 1 + 4096) with
    | inPlace =>
      left
      refine ⟨fun _ => hre, ?_⟩
      simp only [hask, hre]
      refine ⟨_, ⟨rfl, ?_, ?_, ?_, ?_⟩, rfl, ?_, rfl⟩
      · dsimp only
        rw [List.take_append_of_le_length (by simp; omega)]
        exact htaken
      · simp [htotal]
      · simp
        omega
      · simp
        omega
      · intro hu
        rw [← hset]
        exact (hu.put b (nextNumber s.number b)).grow _ _
    | moved =>
      right
      refine ⟨fun h0 => ?_, ?_⟩
      · rw [h0 hfull] at hre
        cases hre
      · left
        simp only [hask, hre]
        exact ⟨_, rfl, rfl, rfl⟩
    | failed =>
      right
      refine ⟨fun h0 => ?_, ?_⟩
      · rw [h0 hfull] at hre
        cases hre
      · right
        simp only [hask, hre]
        exact ⟨_, rfl⟩
  · left
    rw [if_neg (by omega)]
    refine ⟨fun h0 => absurd h0 hfull, _, ⟨rfl, htaken, ?_, ?_, ?_⟩, rfl, ?_, rfl⟩
    · simp [htotal]
    · simp
      omega
    · simpa using hroom
    · intro hu
      rw [← hset]
      exact hu.put b (nextNumber s.number b)

variable (h broken) in
/-- Once the block has moved, nothing more can be received. -/
theorem receiveHeaderLoop_dead (hs : s.block.live = false) (socket : List Byte) :
    receiveHeaderLoop h broken socket s = .error .useAfterFree ∨
      socket = [] ∧ s.number ≠ 4 ∧ ∃ t, receiveHeaderLoop h broken socket s = .ok (t, s, []) := by
  by_cases hn : s.number = 4
  · left
    cases socket with
    | nil => rw [receiveHeaderLoop, if_pos hn, HeaderRead.put_dead hs]; rfl
    | cons b socket => rw [receiveHeaderLoop, if_pos hn, HeaderRead.put_dead hs]; rfl
  · cases socket with
    | nil =>
      right
      refine ⟨rfl, hn, ?_⟩
      rw [receiveHeaderLoop, if_neg hn]
      cases broken with
      | false => exact ⟨none, rfl⟩
      | true => exact ⟨_, rfl⟩
    | cons b socket =>
      left
      rw [receiveHeaderLoop, if_neg hn, HeaderRead.put_dead hs]
      rfl

/-- After four of the bytes that are counted the NUL is stored. -/
theorem receiveHeaderLoop_four (hs : s.Holds c) (hn : s.number = 4) (socket : List Byte) :
    receiveHeaderLoop h broken socket s =
      .ok (none, { s with block := ⟨true, s.block.mem.set c.length 0⟩ }, socket) := by
  cases socket with
  | nil => rw [receiveHeaderLoop, if_pos hn, hs.put]; rfl
  | cons b socket => rw [receiveHeaderLoop, if_pos hn, hs.put]; rfl

/-- The NUL is stored behind what has been received. -/
theorem HeaderRead.Holds.taken_nul (hs : s.Holds c) :
    (s.block.mem.set c.length 0).take (c ++ []).length = c ++ [] := by
  rw [List.append_nil, List.take_set_of_le (Nat.le_refl _)]
  exact hs.taken

/-- The string in a block that begins with a text. -/
theorem str_eq_iff {mem : List Byte} (hlt : c.length < mem.length)
    (htaken : mem.take c.length = c) :
    Block.str ⟨true, mem⟩ = .ok c ↔ 0 ∉ c ∧ mem[c.length]? = some 0 := by
  have hmem : mem = c ++ mem[c.length] :: mem.drop (c.length + 1) := by
    rw [← List.drop_eq_getElem_cons hlt]
    conv_lhs => rw [← List.take_append_drop c.length mem, htaken]
  rw [List.getElem?_eq_getElem hlt, Option.some.injEq]
  unfold Block.str
  rw [if_pos rfl]
  generalize mem[c.length] = x at hmem
  generalize mem.drop (c.length + 1) = post at hmem
  rw [hmem]
  constructor
  · intro hstr
    have hnul : 0 ∉ c := by
      intro hm
      unfold cstr at hstr
      split at hstr
      · have htake := Except.ok.inj hstr
        have h0 := List.mem_takeWhile_imp (htake.symm ▸ hm)
        simp at h0
      · cases hstr
    refine ⟨hnul, ?_⟩
    by_contra hx
    unfold cstr at hstr
    split at hstr
    · have htake := Except.ok.inj hstr
      rw [List.drop_zero, List.takeWhile_append_of_pos] at htake
      · simp [hx] at htake
      · intro d hd
        have hd0 : d ≠ 0 := fun h0 => hnul (h0 ▸ hd)
        simpa using hd0
    · cases hstr
  · intro h0
    rw [h0.2]
    exact cstr_append [] post rfl h0.1

theorem HeaderRead.Holds.str_iff (hs : s.Holds c) :
    s.block.str = .ok c ↔ 0 ∉ c ∧ s.block.mem[c.length]? = some 0 := by
  have hlive : s.block = ⟨true, s.block.mem⟩ := by
    rw [← hs.live]
  rw [hlive]
  exact str_eq_iff (hs.total ▸ hs.lt) hs.taken

/-- The string when the NUL has been stored. -/
theorem HeaderRead.Holds.str_nul_iff (hs : s.Holds c) :
    Block.str ⟨true, s.block.mem.set c.length 0⟩ = .ok c ↔ 0 ∉ c := by
  have hlt := hs.total ▸ hs.lt
  have htaken := hs.taken_nul
  rw [List.append_nil] at htaken
  rw [str_eq_iff (by simpa using hlt) htaken, List.getElem?_set_self hlt]
  exact and_iff_left rfl

theorem HeaderRead.Holds.str_nul (hs : s.Holds c) (hnul : 0 ∉ c) :
    Block.str ⟨true, s.block.mem.set c.length 0⟩ = .ok c := hs.str_nul_iff.2 hnul

variable (h broken) in
/-- **A text within which the loop does not stop** is received, if the buffer stays in its place
whenever it is full. If it does not, the loop goes on without a block, when nothing follows, or does
not end well. -/
theorem receiveHeaderLoop_quiet {l : List Byte} (hs : s.Holds c)
    (hl : Runs.Quiet lineEnd 4 s.number l) (post : List Byte) :
    (∀ n, c.length < n → n ≤ c.length + l.length → h.KeepsAt n) ∧
        (∃ s' : HeaderRead, s'.Holds (c ++ l) ∧ s'.number = Runs.count lineEnd s.number l ∧
          (s.Untouched h → s'.Untouched h) ∧
          receiveHeaderLoop h broken (l ++ post) s = receiveHeaderLoop h broken post s') ∨
      (∃ n, c.length < n ∧ n ≤ c.length + l.length ∧ ¬ h.KeepsAt n) ∧
        ((∃ s' : HeaderRead, s'.block.live = false ∧
          s'.number = Runs.count lineEnd s.number l ∧
          receiveHeaderLoop h broken (l ++ post) s = receiveHeaderLoop h broken post s') ∨
        receiveHeaderLoop h broken (l ++ post) s = .error .useAfterFree ∨
        ∃ s' socket, receiveHeaderLoop h broken (l ++ post) s =
          .ok (some (.create statusError .errno "receive_http_header2"), s', socket)) := by
  induction l generalizing s c with
  | nil =>
    left
    refine ⟨fun n h₁ h₂ => absurd h₂ (by simpa using h₁), s, ?_, rfl, id, rfl⟩
    rw [List.append_nil]
    exact hs
  | cons b l ih =>
    obtain ⟨hn, hl⟩ := hl
    have hlen : (b :: l).length = l.length + 1 := rfl
    have hc : (c ++ [b]).length = c.length + 1 := by simp
    rcases receiveHeaderLoop_cons h broken hs hn b (l ++ post) with
      ⟨hkeep, s', hs', hn', hu', heq⟩ | ⟨hkeep, ⟨s', hdead, hn', heq⟩ | ⟨s', heq⟩⟩
    · have happ : c ++ [b] ++ l = c ++ b :: l := by simp
      rw [nextNumber_eq] at hn'
      rw [List.cons_append, heq, Runs.count_cons, ← hn']
      rcases ih hs' (hn' ▸ hl) with ⟨hall, s'', hs'', hn'', hu'', heq'⟩ | ⟨⟨n, h₁, h₂, h₃⟩, hbad⟩
      · left
        rw [happ] at hs''
        refine ⟨fun n h₁ h₂ => ?_, s'', hs'', hn'', fun hu => hu'' (hu' hu), heq'⟩
        by_cases hfirst : n = c.length + 1
        · rw [hfirst]
          exact hkeep
        · exact hall n (by omega) (by omega)
      · right
        exact ⟨⟨n, by omega, by omega, h₃⟩, hbad⟩
    · right
      refine ⟨⟨c.length + 1, by omega, by omega, hkeep⟩, ?_⟩
      rw [nextNumber_eq] at hn'
      rw [List.cons_append, heq]
      cases l with
      | nil => exact Or.inl ⟨s', hdead, hn', rfl⟩
      | cons b' l =>
        right
        left
        rcases receiveHeaderLoop_dead h broken hdead (b' :: l ++ post) with herr | ⟨hnil, -⟩
        · exact herr
        · cases hnil
    · right
      refine ⟨⟨c.length + 1, by omega, by omega, hkeep⟩, .inr (.inr ⟨s', l ++ post, ?_⟩)⟩
      rw [List.cons_append, heq]

variable (h broken) in
/-- A text that ends the loop is received, and what follows is left, if the buffer stays in its
place whenever it is full. Otherwise the loop does not end well. -/
theorem receiveHeaderLoop_ends {l : List Byte} (hs : s.Holds c) (hl : Ends s.number l)
    (post : List Byte) :
    (∀ n, c.length < n → n ≤ c.length + l.length → h.KeepsAt n) ∧
        (∃ s' : HeaderRead, s'.Holds (c ++ l) ∧ receiveHeaderLoop h broken (l ++ post) s =
          .ok (none, { s' with block := ⟨true, s'.block.mem.set (c ++ l).length 0⟩ }, post)) ∨
      (∃ n, c.length < n ∧ n ≤ c.length + l.length ∧ ¬ h.KeepsAt n) ∧
        (receiveHeaderLoop h broken (l ++ post) s = .error .useAfterFree ∨
          ∃ s' socket, receiveHeaderLoop h broken (l ++ post) s =
            .ok (some (.create statusError .errno "receive_http_header2"), s', socket)) := by
  obtain ⟨hquiet, hcount⟩ := ends_iff.1 hl
  rcases receiveHeaderLoop_quiet h broken hs hquiet post with
    ⟨hall, s', hs', hn', -, heq⟩ | ⟨hbad, ⟨s', hdead, hn', heq⟩ | herr⟩
  · left
    refine ⟨hall, s', hs', ?_⟩
    rw [heq, receiveHeaderLoop_four hs' (hn'.trans hcount)]
  · right
    refine ⟨hbad, Or.inl ?_⟩
    rw [heq]
    rcases receiveHeaderLoop_dead h broken hdead post with herr | ⟨-, hne, -⟩
    · exact herr
    · exact absurd (hn'.trans hcount) hne
  · exact Or.inr ⟨hbad, herr⟩

/-- The loop is left with an error or with nothing. -/
theorem receiveHeaderLoop_error {s' : HeaderRead} {socket rest : List Byte} {t : Throwable}
    (heq : receiveHeaderLoop h broken socket s = .ok (some t, s', rest)) : t.isAnError = true := by
  induction socket generalizing s with
  | nil =>
    rw [receiveHeaderLoop] at heq
    split at heq
    · obtain ⟨u, -, heq⟩ := Exec.bind_ok heq
      cases heq
    split at heq
    · cases heq
      rfl
    · cases heq
  | cons b socket ih =>
    rw [receiveHeaderLoop] at heq
    split at heq
    · obtain ⟨u, -, heq⟩ := Exec.bind_ok heq
      cases heq
    · obtain ⟨u, -, heq⟩ := Exec.bind_ok heq
      dsimp only at heq
      split at heq
      · split at heq
        · cases heq
          rfl
        · exact ih heq
      · exact ih heq

/-- The block begins with what has been read. -/
theorem receiveHeaderLoop_taken {s' : HeaderRead} {socket rest : List Byte} (hs : s.Holds c)
    (heq : receiveHeaderLoop h broken socket s = .ok (none, s', rest))
    (hlive : s'.block.live = true) :
    ∃ l, socket = l ++ rest ∧ s'.block.mem.take (c ++ l).length = c ++ l := by
  induction socket generalizing s c with
  | nil =>
    by_cases hn : s.number = 4
    · rw [receiveHeaderLoop_four hs hn] at heq
      cases heq
      exact ⟨[], rfl, hs.taken_nul⟩
    · rw [receiveHeaderLoop, if_neg hn] at heq
      cases broken with
      | false =>
        cases heq
        exact ⟨[], rfl, by simpa using hs.taken⟩
      | true => cases heq
  | cons b socket ih =>
    by_cases hn : s.number = 4
    · rw [receiveHeaderLoop_four hs hn] at heq
      cases heq
      exact ⟨[], rfl, hs.taken_nul⟩
    · rcases receiveHeaderLoop_cons h broken hs hn b socket with
        ⟨-, u, hu, -, -, hstep⟩ | ⟨-, ⟨u, hdead, -, hstep⟩ | ⟨u, hstep⟩⟩
      · obtain ⟨l, hsocket, htaken⟩ := ih hu (hstep.symm.trans heq)
        refine ⟨b :: l, by rw [hsocket, List.cons_append], ?_⟩
        simpa using htaken
      · rw [hstep] at heq
        rcases receiveHeaderLoop_dead h broken hdead socket with
          herr | ⟨-, -, t, hok⟩
        · rw [herr] at heq
          cases heq
        · rw [hok] at heq
          cases heq
          rw [hdead] at hlive
          cases hlive
      · rw [hstep] at heq
        cases heq

end Loop

/-! ## The header field of a request -/

theorem Kind.keeps_header (kind : Kind) (header : Option Block) :
    kind.Keeps fun self => self.header = header where
  first v h := by cases kind <;> exact h
  second v h := by cases kind <;> exact h
  third v h := by cases kind <;> exact h
  field hself hstore := (HTTPRequest.storeHeader_ok hstore).1.header.trans hself

/-! ## One request -/

/-- A call of `receive_http_request` with a new request succeeds, makes it `r` and leaves `rest`. -/
def Received (h : Heap) (broken : Bool) (socket : List Byte) (r : HTTPRequest) (rest : List Byte) :
    Prop :=
  ∃ t, receiveHttpRequest h broken socket newHttpRequest = .ok (t, r, rest) ∧ t.isAnError = false

/-- `realloc` leaves a text of `n` bytes in its place. -/
def Heap.Keeps (h : Heap) (n : Nat) : Prop := ∀ k, 0 < k → k ≤ n → h.KeepsAt k

/-- The request has been made from the block: its header is the text, and the rest of it is what
`read_headers` makes of the text. -/
structure Parses (q : Head) (r : HTTPRequest) : Prop where
  header : r.headerStr = .ok q.text
  parsed : ∃ t, readHeaders { newHttpRequest with header := r.header } q.text .rqst = .ok (t, r)
  reqType : r.reqType = some q.first
  reqResource : r.reqResource = some q.second
  reqProtocol : r.reqProtocol = some q.third

section Request

variable {h : Heap} {broken : Bool} {q : Head} {r : HTTPRequest} {post rest : List Byte}

theorem Head.text_ne_nil (q : Head) : q.text ≠ [] := by simp [Head.text]

variable (broken) in
/-- The header block is received, and handed to `read_headers`. -/
theorem receiveHttpRequest_text (hkeep : h.Keeps q.text.length) (post : List Byte) :
    ∃ b : Block, b.str = .ok q.text ∧
      receiveHttpRequest h broken (q.text ++ post) newHttpRequest =
        (readHeaders { newHttpRequest with header := some b } q.text .rqst >>= fun p =>
          if p.1.isAnError then .ok (p.1.thrown "receive_http_request", p.2, post)
          else .ok (.create statusOk .null "receive_http_request", p.2, post)) := by
  have hstart := HeaderRead.start_holds h
  rcases receiveHeaderLoop_ends h broken hstart q.ends_text post with
    ⟨-, s, hs, heq⟩ | ⟨⟨n, h₁, h₂, h₃⟩, -⟩
  · rw [List.nil_append] at hs heq
    have hstr := hs.str_nul q.text_nul
    refine ⟨_, hstr, ?_⟩
    have htotal : s.total ≠ 0 := by
      rw [hs.total]
      intro h0
      exact q.text_ne_nil (List.length_eq_zero_iff.1 h0)
    have hheader2 : receiveHttpHeader2 h broken (q.text ++ post) newHttpRequest =
        .ok (.create statusOk .null "receive_http_header2",
          { newHttpRequest with header := some ⟨true, s.block.mem.set q.text.length 0⟩ },
          post) := by
      unfold receiveHttpHeader2
      rw [heq, Exec.ok_bind]
      simp only [if_neg htotal]
    unfold receiveHttpRequest
    rw [hheader2, Exec.ok_bind]
    simp only [Throwable.create_ok, HTTPRequest.headerStr, hstr, Exec.ok_bind]
    rfl
  · exact absurd (hkeep n (by simpa using h₁) (by simpa using h₂)) h₃

/-- A buffer that does not stay in its place spoils the call. -/
theorem Received.keeps (hr : Received h broken (q.text ++ post) r rest) :
    h.Keeps q.text.length := by
  intro k hpos hle
  by_contra hnot
  obtain ⟨t, hcall, hok⟩ := hr
  obtain ⟨⟨t₂, self, socket⟩, hheader2, hcall⟩ := Exec.bind_ok hcall
  obtain ⟨⟨t₃, s, socket'⟩, hloop, hheader2⟩ := Exec.bind_ok hheader2
  rcases receiveHeaderLoop_ends h broken (HeaderRead.start_holds h) q.ends_text
    post with ⟨hall, -⟩ | ⟨-, herr | ⟨s', u, herr⟩⟩
  · exact hnot (hall k (by simpa using hpos) (by simpa using hle))
  · rw [herr] at hloop
    cases hloop
  · rw [herr] at hloop
    cases hloop
    cases hheader2
    simp only [Throwable.create_error, if_true] at hcall
    cases hcall
    simp at hok

variable (broken) in
/-- **A header block is received** as it stands, if the buffer stays in its place and every
`Content-Length` is a number. -/
theorem received_text (hkeep : h.Keeps q.text.length) (hacc : Accepted q.fields)
    (post : List Byte) : ∃ r, Received h broken (q.text ++ post) r post ∧ Parses q r := by
  obtain ⟨b, hstr, hcall⟩ := receiveHttpRequest_text broken hkeep post
  obtain ⟨t, r, hread, hsame, hiff⟩ :=
    readHeaders_spec { newHttpRequest with header := some b } q .rqst
  have hok : t.isAnError = false := hiff.2 hacc
  rw [hread, Exec.ok_bind] at hcall
  simp only [hok] at hcall
  refine ⟨r, ⟨_, hcall, rfl⟩, ?_, ?_, hsame.reqType, hsame.reqResource, hsame.reqProtocol⟩
  · unfold HTTPRequest.headerStr
    rw [hsame.header]
    exact hstr
  · rw [hsame.header]
    exact ⟨t, hread⟩

theorem Received.unique {r' : HTTPRequest} {rest' socket : List Byte}
    (hr : Received h broken socket r rest) (hr' : Received h broken socket r' rest') :
    r = r' ∧ rest = rest' := by
  obtain ⟨t, hcall, -⟩ := hr
  obtain ⟨t', hcall', -⟩ := hr'
  rw [hcall] at hcall'
  cases hcall'
  exact ⟨rfl, rfl⟩

theorem Received.accepted (hr : Received h broken (q.text ++ post) r rest) :
    Accepted q.fields := by
  obtain ⟨b, -, hcall⟩ := receiveHttpRequest_text broken hr.keeps post
  obtain ⟨t, r', hread, -, hiff⟩ :=
    readHeaders_spec { newHttpRequest with header := some b } q .rqst
  obtain ⟨t', hcall', hok⟩ := hr
  rw [hread, Exec.ok_bind, hcall'] at hcall
  apply hiff.1
  by_contra herr
  simp only [Bool.not_eq_false] at herr
  simp only [herr, if_true] at hcall
  cases hcall
  rw [Throwable.isAnError_thrown, herr] at hok
  cases hok

theorem Received.rest_eq (hr : Received h broken (q.text ++ post) r rest) : rest = post := by
  obtain ⟨r', hr', -⟩ := received_text broken hr.keeps hr.accepted post
  exact (hr.unique hr').2

/-- The header of a call that succeeds is what the block of the loop contains. -/
theorem Received.loop {socket : List Byte} (hr : Received h broken socket r rest) :
    ∃ s : HeaderRead, receiveHeaderLoop h broken socket (.start h) = .ok (none, s, rest) ∧
      r.header = some s.block := by
  obtain ⟨t, hcall, hok⟩ := hr
  obtain ⟨⟨t₂, self, socket₂⟩, hheader2, hcall⟩ := Exec.bind_ok hcall
  obtain ⟨⟨o, s, socket₃⟩, hloop, hheader2⟩ := Exec.bind_ok hheader2
  dsimp only at hcall hheader2
  have hgood : t₂.isAnError = false := by
    by_contra herr
    simp only [Bool.not_eq_false] at herr
    rw [if_pos herr] at hcall
    cases hcall
    rw [Throwable.isAnError_thrown, herr] at hok
    cases hok
  have hblock : o = none ∧ socket₂ = socket₃ ∧ self.header = some s.block := by
    split at hheader2
    · cases hheader2
      rw [receiveHeaderLoop_error hloop] at hgood
      cases hgood
    · split at hheader2
      · cases hheader2
        cases hgood
      · cases hheader2
        exact ⟨rfl, rfl, rfl⟩
  obtain ⟨rfl, rfl, hheader⟩ := hblock
  rw [if_neg (by rw [hgood]; exact Bool.false_ne_true)] at hcall
  obtain ⟨str, -, hcall⟩ := Exec.bind_ok hcall
  obtain ⟨⟨t₄, self'⟩, hread, hcall⟩ := Exec.bind_ok hcall
  have hself : self' = r ∧ socket₂ = rest := by
    dsimp only at hcall
    split at hcall <;> (cases hcall; exact ⟨rfl, rfl⟩)
  obtain ⟨rfl, rfl⟩ := hself
  exact ⟨s, hloop, (Kind.rqst.keeps_header _).readHeaders hheader hread⟩

/-- No more is taken from the socket than the text that the request ends up with. -/
theorem Received.length_le {socket : List Byte} (hr : Received h broken socket r rest)
    (hstr : r.headerStr = .ok q.text) : socket.length ≤ q.text.length + rest.length := by
  obtain ⟨s, hloop, hheader⟩ := hr.loop
  unfold HTTPRequest.headerStr at hstr
  rw [hheader] at hstr
  dsimp only at hstr
  unfold Block.str at hstr
  split at hstr
  · next hlive =>
    obtain ⟨l, hsocket, htaken⟩ :=
      receiveHeaderLoop_taken (HeaderRead.start_holds h) hloop hlive
    rw [List.nil_append] at htaken
    by_contra hlong
    rw [hsocket, List.length_append] at hlong
    -- the text is then a proper part of what was read, at whose end the loop stops
    have hprefix : q.text <+: s.block.mem := by
      unfold cstr at hstr
      split at hstr
      · rw [← Except.ok.inj hstr]
        exact List.takeWhile_prefix _
      · cases hstr
    have htext : q.text <+: l :=
      List.prefix_of_prefix_length_le hprefix (htaken ▸ List.take_prefix _ _) (by omega)
    obtain ⟨more, rfl⟩ := htext
    rw [List.append_assoc] at hsocket
    rw [hsocket] at hr
    have hrest := congrArg List.length hr.rest_eq
    rw [List.length_append] at hrest hlong
    omega
  · cases hstr

end Request

end Heimdall.Http
