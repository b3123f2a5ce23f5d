import Heimdall.Http.Receive

/-!
# A message that is received as a whole

`receive_http` reads pieces of at most 4096 bytes until the peer has closed the connection. It takes
a shorter piece for the last one, and as the header functions it drops the pointer that `realloc`
returns. So what it returns depends on how the message has been cut (`receivesMessage_iff`).
-/

namespace Heimdall.Http

/-- What one `read` of at most 4096 bytes returns before the end. -/
structure Piece where
  bytes : List Byte
  ne : bytes ≠ []
  le : bytes.length ≤ 4096

/-- What the peer has sent. -/
def sent (pieces : List Piece) : List Byte := pieces.flatMap Piece.bytes

/-- The locals of `receive_http`, with the block that `message` leads to. -/
structure MessageRead where
  block : Block
  size : Nat
  total : Nat

def MessageRead.start (h : Heap) : MessageRead := ⟨⟨true, (List.range 4096).map h.fill⟩, 4096, 0⟩

/-- `read` stores the piece behind what has been received. -/
def MessageRead.store (s : MessageRead) (piece : List Byte) : Exec MessageRead :=
  if s.block.live then
    if s.total + piece.length ≤ s.block.mem.length then
      .ok { s with
        block := ⟨true,
          s.block.mem.take s.total ++ piece ++ s.block.mem.drop (s.total + piece.length)⟩
        total := s.total + piece.length }
    else .error .outOfBounds
  else .error .useAfterFree

/-- `realloc(*message, n)`, whose result is not stored; `none` when it is NULL. -/
def MessageRead.realloc (h : Heap) (s : MessageRead) (n : Nat) : Exec (Option MessageRead) :=
  if s.block.live then
    match h.realloc n with
    | .inPlace =>
      .ok (some { s with
        block := ⟨true, s.block.mem ++ ((List.range n).drop s.block.mem.length).map h.fill⟩ })
    | .moved => .ok (some { s with block := ⟨false, s.block.mem⟩ })
    | .failed => .ok none
  else .error .useAfterFree

/-- The NUL behind the message. -/
def MessageRead.close (s : MessageRead) : Exec MessageRead :=
  if s.block.live then
    if s.total < s.block.mem.length then
      .ok { s with block := ⟨true, s.block.mem.set s.total 0⟩ }
    else .error .outOfBounds
  else .error .useAfterFree

/-- The loop of `receive_http`, which reads one piece in each pass. When there are no more, `read`
returns 0, or an error if the connection is `broken`. The loop is left with an error or with none,
and with the pieces that have not been read. -/
def receiveHttpLoop (h : Heap) (broken : Bool) :
    List Piece → MessageRead → Exec (Option Throwable × MessageRead × List Piece)
  | [], s =>
    if broken then .ok (some (.create statusError .errno "receive_http"), s, [])
    else .ok (none, s, [])
  | piece :: pieces, s => do
    let s ← s.store piece.bytes
    if piece.bytes.length < 4096 then .ok (none, s, pieces)
    else if s.total = s.size then
      match ← s.realloc h (s.size + 4096) with
      | none => .ok (some (.create statusError .errno "receive_http"), s, pieces)
      | some s => receiveHttpLoop h broken pieces { s with size := s.size + 4096 }
    else receiveHttpLoop h broken pieces s

def receiveHttp (h : Heap) (broken : Bool) (pieces : List Piece) :
    Exec (Throwable × Block × List Piece) := do
  let (t, s, pieces) ← receiveHttpLoop h broken pieces (.start h)
  match t with
  | some t => .ok (t, s.block, pieces)
  | none =>
    if s.total < s.size then do
      let s ← s.close
      .ok (.create statusOk .null "receive_http", s.block, pieces)
    else
      match ← s.realloc h (s.total + 1) with
      | none => .ok (.create statusError .errno "receive_http", s.block, pieces)
      | some s => do
        let s ← s.close
        .ok (.create statusOk .null "receive_http", s.block, pieces)

/-- The message has been received: nothing is left to be read, and the block that the caller gets
begins with what was sent and a NUL. -/
def ReceivesMessage (pieces : List Piece) (r : Exec (Throwable × Block × List Piece)) : Prop :=
  ∃ t b, r = .ok (t, b, []) ∧ t.isAnError = false ∧ b.live = true ∧
    b.mem.take (sent pieces).length = sent pieces ∧ b.mem[(sent pieces).length]? = some 0

/-- Only the last piece is shorter than what was asked for. -/
def Full (pieces : List Piece) : Prop := ∀ p ∈ pieces.dropLast, p.bytes.length = 4096

/-! ## The loop -/

/-- The block contains the message `c`, which has been received, and has room for another piece. -/
structure MessageRead.Holds (s : MessageRead) (c : List Byte) : Prop where
  live : s.block.live = true
  taken : s.block.mem.take c.length = c
  total : s.total = c.length
  size : s.size = c.length + 4096
  room : s.block.mem.length = s.size

/-- The block contains the message `c`, and has room for the NUL. -/
structure MessageRead.Got (s : MessageRead) (c : List Byte) : Prop where
  live : s.block.live = true
  taken : s.block.mem.take c.length = c
  total : s.total = c.length
  lt : c.length < s.size
  room : s.size ≤ s.block.mem.length

section Loop

variable {h : Heap} {s : MessageRead} {c : List Byte} {p : Piece} {pieces : List Piece}

theorem sent_cons (p : Piece) (pieces : List Piece) :
    sent (p :: pieces) = p.bytes ++ sent pieces := List.flatMap_cons

theorem MessageRead.start_holds (h : Heap) : (MessageRead.start h).Holds [] :=
  ⟨rfl, rfl, rfl, rfl, by simp [MessageRead.start]⟩

theorem MessageRead.Holds.got (hs : s.Holds c) : s.Got c :=
  ⟨hs.live, hs.taken, hs.total, by rw [hs.size]; omega, hs.room.ge⟩

/-- A piece is stored. -/
theorem MessageRead.Holds.store (hs : s.Holds c) (p : Piece) :
    ∃ mem : List Byte, s.store p.bytes = .ok ⟨⟨true, mem⟩, s.size, (c ++ p.bytes).length⟩ ∧
      mem.take (c ++ p.bytes).length = c ++ p.bytes ∧ mem.length = s.size := by
  have hle := p.le
  have hsize := hs.size
  have hroom := hs.room
  unfold MessageRead.store
  rw [if_pos hs.live, hs.total, if_pos (by omega), hs.taken, List.length_append]
  refine ⟨_, rfl, ?_, ?_⟩
  · rw [← List.length_append, List.take_left]
  · rw [List.length_append, List.length_append, List.length_drop]
    omega

variable (h pieces) in
/-- A full piece fills the buffer: it stays in its place, moves, or cannot grow. -/
theorem receiveHttpLoop_full (hs : s.Holds c) (hp : p.bytes.length = 4096) :
    (h.realloc ((c ++ p.bytes).length + 4096) = .inPlace ∧ ∃ s' : MessageRead,
        s'.Holds (c ++ p.bytes) ∧
        receiveHttpLoop h false (p :: pieces) s = receiveHttpLoop h false pieces s') ∨
      h.realloc ((c ++ p.bytes).length + 4096) ≠ .inPlace ∧
        ((∃ s' : MessageRead, s'.block.live = false ∧
          receiveHttpLoop h false (p :: pieces) s = receiveHttpLoop h false pieces s') ∨
        ∃ t s', receiveHttpLoop h false (p :: pieces) s = .ok (some t, s', pieces)) := by
  obtain ⟨mem, hstore, htaken, hmem⟩ := hs.store p
  have hsize : s.size = (c ++ p.bytes).length := by
    rw [hs.size, List.length_append, hp]
  rw [receiveHttpLoop, hstore, Exec.ok_bind, if_neg (by omega)]
  dsimp only
  rw [if_pos hsize.symm]
  unfold MessageRead.realloc
  dsimp only
  rw [if_pos rfl, hsize]
  cases hre : h.realloc ((c ++ p.bytes).length + 4096) with
  | inPlace =>
    left
    refine ⟨rfl, _, ⟨rfl, ?_, rfl, rfl, ?_⟩, rfl⟩
    · dsimp only
      rw [List.take_append_of_le_length (by omega)]
      exact htaken
    · dsimp only
      rw [List.length_append, List.length_map, List.length_drop, List.length_range]
      omega
  | moved =>
    right
    exact ⟨Realloc.noConfusion, Or.inl ⟨_, rfl, rfl⟩⟩
  | failed =>
    right
    exact ⟨Realloc.noConfusion, Or.inr ⟨_, _, rfl⟩⟩

variable (h pieces) in
/-- A shorter piece ends the loop. -/
theorem receiveHttpLoop_short (hs : s.Holds c) (hp : p.bytes.length < 4096) :
    ∃ s' : MessageRead, s'.Got (c ++ p.bytes) ∧
      receiveHttpLoop h false (p :: pieces) s = .ok (none, s', pieces) := by
  obtain ⟨mem, hstore, htaken, hmem⟩ := hs.store p
  rw [receiveHttpLoop, hstore, Exec.ok_bind, if_pos hp]
  refine ⟨_, ⟨rfl, htaken, rfl, ?_, hmem.ge⟩, rfl⟩
  dsimp only
  rw [hs.size, List.length_append]
  omega

theorem full_cons_iff :
    Full (p :: pieces) ↔ (pieces = [] ∨ p.bytes.length = 4096) ∧ Full pieces := by
  cases pieces with
  | nil => simp [Full]
  | cons q pieces => simp [Full]

/-- The buffer stays in its place when the first piece has filled it, and later. -/
theorem keepsAt_full (hmod : c.length % 4096 = 0) (hp : p.bytes.length = 4096) :
    (∀ n, c.length < n → n ≤ (c ++ sent (p :: pieces)).length → h.KeepsAt n) ↔
      h.realloc ((c ++ p.bytes).length + 4096) = .inPlace ∧
        ∀ n, (c ++ p.bytes).length < n → n ≤ (c ++ p.bytes ++ sent pieces).length →
          h.KeepsAt n := by
  have hlen : (c ++ sent (p :: pieces)).length = (c ++ p.bytes ++ sent pieces).length := by
    rw [sent_cons, List.append_assoc]
  have hc : (c ++ p.bytes).length = c.length + 4096 := by rw [List.length_append, hp]
  have hle : (c ++ p.bytes).length ≤ (c ++ p.bytes ++ sent pieces).length := by
    exact (List.prefix_append _ _).length_le
  rw [hlen]
  constructor
  · intro hall
    refine ⟨hall (c ++ p.bytes).length (by omega) hle (by omega), ?_⟩
    intro n h₁ h₂
    exact hall n (by omega) h₂
  · intro hall n h₁ h₂ hn
    by_cases heq : n = (c ++ p.bytes).length
    · rw [heq]
      exact hall.1
    · exact hall.2 n (by omega) h₂ hn

/-- Pieces that are cut as the loop expects are received. -/
theorem receiveHttpLoop_got (hs : s.Holds c) (hmod : c.length % 4096 = 0) (hfull : Full pieces)
    (hkeep : ∀ n, c.length < n → n ≤ (c ++ sent pieces).length → h.KeepsAt n) :
    ∃ s' : MessageRead, s'.Got (c ++ sent pieces) ∧
      receiveHttpLoop h false pieces s = .ok (none, s', []) := by
  induction pieces generalizing s c with
  | nil =>
    refine ⟨s, ?_, rfl⟩
    rw [sent, List.flatMap_nil, List.append_nil]
    exact hs.got
  | cons p pieces ih =>
    obtain ⟨hp, hfull⟩ := full_cons_iff.1 hfull
    by_cases hshort : p.bytes.length < 4096
    · have hnil : pieces = [] := hp.resolve_right (by omega)
      subst hnil
      have hone : sent [p] = p.bytes := List.append_nil _
      rw [hone]
      exact receiveHttpLoop_short h [] hs hshort
    · have hp4096 : p.bytes.length = 4096 := Nat.le_antisymm p.le (Nat.not_lt.1 hshort)
      obtain ⟨hplace, hkeep⟩ := (keepsAt_full hmod hp4096).1 hkeep
      rcases receiveHttpLoop_full h pieces hs hp4096 with
        ⟨-, s', hs', heq⟩ | ⟨hnot, -⟩
      · rw [heq, sent_cons, ← List.append_assoc]
        exact ih hs' (by rw [List.length_append, hp4096]; omega) hfull hkeep
      · exact absurd hplace hnot

/-- The loop is left with an error or with nothing. -/
theorem receiveHttpLoop_error {s' : MessageRead} {rest : List Piece} {t : Throwable}
    (heq : receiveHttpLoop h false pieces s = .ok (some t, s', rest)) : t.isAnError = true := by
  induction pieces generalizing s with
  | nil => cases heq
  | cons p pieces ih =>
    obtain ⟨u, -, heq⟩ := Exec.bind_ok heq
    split at heq
    · cases heq
    · split at heq
      · obtain ⟨o, -, heq⟩ := Exec.bind_ok heq
        cases o with
        | none =>
          cases heq
          rfl
        | some u => exact ih heq
      · exact ih heq

/-- Without a block nothing more is received. -/
theorem receiveHttpLoop_dead {s' : MessageRead} {rest : List Piece}
    (hs : s.block.live = false)
    (heq : receiveHttpLoop h false pieces s = .ok (none, s', rest)) :
    s'.block.live = false := by
  cases pieces with
  | nil =>
    cases heq
    exact hs
  | cons p pieces =>
    obtain ⟨u, hstore, -⟩ := Exec.bind_ok heq
    unfold MessageRead.store at hstore
    rw [hs] at hstore
    cases hstore

/-- No other pieces are received to the end. -/
theorem receiveHttpLoop_only {s' : MessageRead} (hs : s.Holds c) (hmod : c.length % 4096 = 0)
    (heq : receiveHttpLoop h false pieces s = .ok (none, s', []))
    (hlive : s'.block.live = true) :
    Full pieces ∧ ∀ n, c.length < n → n ≤ (c ++ sent pieces).length → h.KeepsAt n := by
  induction pieces generalizing s c with
  | nil =>
    refine ⟨fun p hp => absurd hp List.not_mem_nil, ?_⟩
    intro n h₁ h₂
    rw [sent, List.flatMap_nil, List.append_nil] at h₂
    omega
  | cons p pieces ih =>
    rw [full_cons_iff]
    by_cases hshort : p.bytes.length < 4096
    · obtain ⟨u, -, hloop⟩ := receiveHttpLoop_short h pieces hs hshort
      have hrest : pieces = [] := congrArg (·.2.2) (Except.ok.inj (hloop.symm.trans heq))
      subst hrest
      refine ⟨⟨Or.inl rfl, fun q hq => absurd hq List.not_mem_nil⟩, ?_⟩
      intro n h₁ h₂ hn
      have hone : sent [p] = p.bytes := List.append_nil _
      rw [hone, List.length_append] at h₂
      omega
    · have hp : p.bytes.length = 4096 := Nat.le_antisymm p.le (Nat.not_lt.1 hshort)
      rcases receiveHttpLoop_full h pieces hs hp with
        ⟨hplace, u, hu, hloop⟩ | ⟨-, ⟨u, hdead, hloop⟩ | ⟨t, u, hloop⟩⟩
      · obtain ⟨hfull, hkeep⟩ := ih hu (by rw [List.length_append, hp]; omega) (hloop ▸ heq)
        exact ⟨⟨Or.inr hp, hfull⟩, (keepsAt_full hmod hp).2 ⟨hplace, hkeep⟩⟩
      · rw [hloop] at heq
        rw [receiveHttpLoop_dead hdead heq] at hlive
        cases hlive
      · rw [hloop] at heq
        cases heq

end Loop

/-! ## The message -/

section Message

variable {h : Heap} {pieces : List Piece}

theorem MessageRead.Got.close {s : MessageRead} {c : List Byte} (hs : s.Got c) :
    s.close = .ok { s with block := ⟨true, s.block.mem.set c.length 0⟩ } := by
  have hlt := hs.lt
  have hroom := hs.room
  unfold MessageRead.close
  rw [if_pos hs.live, hs.total, if_pos (by omega)]

theorem MessageRead.close_live {s s' : MessageRead} (heq : s.close = .ok s') :
    s.block.live = true := by
  unfold MessageRead.close at heq
  split at heq
  · assumption
  · cases heq

theorem MessageRead.realloc_live {s : MessageRead} {n : Nat} {o : Option MessageRead}
    (heq : s.realloc h n = .ok o) : s.block.live = true := by
  unfold MessageRead.realloc at heq
  split at heq
  · assumption
  · cases heq

theorem ReceivesMessage.fits (hr : ReceivesMessage pieces (receiveHttp h false pieces)) :
    Full pieces ∧ h.Keeps (sent pieces).length := by
  obtain ⟨t, b, hcall, hok, -⟩ := hr
  obtain ⟨⟨o, s, rest⟩, hloop, hcall⟩ := Exec.bind_ok hcall
  have hend : o = none ∧ rest = [] ∧ s.block.live = true := by
    cases o with
    | some t' =>
      have herr := receiveHttpLoop_error hloop
      have ht : t' = t := congrArg Prod.fst (Except.ok.inj hcall)
      rw [ht, hok] at herr
      cases herr
    | none =>
      dsimp only at hcall
      split at hcall
      · obtain ⟨u, hclose, hcall⟩ := Exec.bind_ok hcall
        exact ⟨rfl, congrArg (·.2.2) (Except.ok.inj hcall), MessageRead.close_live hclose⟩
      · obtain ⟨u, hrealloc, hcall⟩ := Exec.bind_ok hcall
        refine ⟨rfl, ?_, MessageRead.realloc_live hrealloc⟩
        cases u with
        | none => exact congrArg (·.2.2) (Except.ok.inj hcall)
        | some u =>
          obtain ⟨v, -, hcall⟩ := Exec.bind_ok hcall
          exact congrArg (·.2.2) (Except.ok.inj hcall)
  obtain ⟨rfl, rfl, hlive⟩ := hend
  obtain ⟨hfull, hkeep⟩ := receiveHttpLoop_only (MessageRead.start_holds h) rfl hloop hlive
  refine ⟨hfull, ?_⟩
  intro n hpos hle
  exact hkeep n hpos hle

theorem receivesMessage_of_full (hfull : Full pieces) (hkeep : h.Keeps (sent pieces).length) :
    ReceivesMessage pieces (receiveHttp h false pieces) := by
  obtain ⟨s, hs, hloop⟩ := receiveHttpLoop_got (MessageRead.start_holds h) rfl hfull hkeep
  rw [List.nil_append] at hs
  have hlt : s.total < s.size := by
    rw [hs.total]
    exact hs.lt
  have hmem : (sent pieces).length < s.block.mem.length := Nat.lt_of_lt_of_le hs.lt hs.room
  refine ⟨.create statusOk .null "receive_http", ⟨true, s.block.mem.set (sent pieces).length 0⟩,
    ?_, rfl, rfl, ?_, List.getElem?_set_self hmem⟩
  · unfold receiveHttp
    rw [hloop, Exec.ok_bind]
    dsimp only
    rw [if_pos hlt, hs.close]
    rfl
  · rw [List.take_set_of_le (Nat.le_refl _)]
    exact hs.taken

/-- **Exactly when a message is received as a whole**: when it has been cut into pieces of 4096
bytes, and the buffer stays in its place whenever it is full. -/
theorem messageReceived_iff (h : Heap) (pieces : List Piece) :
    ReceivesMessage pieces (receiveHttp h false pieces) ↔
      Full pieces ∧ h.Keeps (sent pieces).length :=
  ⟨ReceivesMessage.fits, fun hr => receivesMessage_of_full hr.1 hr.2⟩

/-- One message, received when it comes in one piece, and not when it comes in two. -/
theorem pieces_decide_message :
    ReceivesMessage [⟨bytes "BusyWorkers: 1\n", by decide, by decide⟩]
      (receiveHttp ⟨fun _ => 0, fun _ => .inPlace⟩ false
        [⟨bytes "BusyWorkers: 1\n", by decide, by decide⟩]) ∧
    ¬ ReceivesMessage
      [⟨bytes "BusyWork", by decide, by decide⟩, ⟨bytes "ers: 1\n", by decide, by decide⟩]
      (receiveHttp ⟨fun _ => 0, fun _ => .inPlace⟩ false
        [⟨bytes "BusyWork", by decide, by decide⟩, ⟨bytes "ers: 1\n", by decide, by decide⟩]) := by
  constructor
  · apply receivesMessage_of_full
    · intro p hp
      cases hp
    · intro n _ _ _
      rfl
  · intro hr
    have hfull := hr.fits.1 ⟨bytes "BusyWork", by decide, by decide⟩ List.mem_cons_self
    revert hfull
    decide

end Message

end Heimdall.Http
