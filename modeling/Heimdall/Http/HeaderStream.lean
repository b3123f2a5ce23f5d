import Heimdall.Http.Receive
import Heimdall.Http.Response

/-!
# The header that is taken from a stream

What `receive_http_header2` and `receive_http_header` should take from a stream is its head: the
bytes up to and including the first empty line, or all of them. Both stop when the last four bytes
are carriage returns or line feeds in any order; at the end of the stream only the second ends the
string; and when the buffer is full the first drops the result of `realloc`, while the second calls
it with the address of the caller's pointer.

`receivesHead2_iff` and `receivesHead_iff` say exactly which streams are received as they should.
-/

namespace Heimdall.Http

/-! ## `receive_http_header` -/

/-- The byte is stored behind those that have been received: `strcpy` copies it with the NUL that
follows it. -/
def HeaderRead.copy (s : HeaderRead) (b : Byte) : Exec HeaderRead := do
  let s ← s.put b
  let s := { s with number := nextNumber s.number b, total := s.total + 1 }
  if b = 0 then .ok s else s.put 0

/-- The loop of `receive_http_header`. A full buffer is passed to `realloc` by the address of the
caller's pointer, which is no block. -/
def receiveHttpHeaderLoop (broken : Bool) :
    List Byte → HeaderRead → Exec (Option Throwable × HeaderRead × List Byte)
  | [], s =>
    if s.number = 4 then do
      let s ← s.put 0
      .ok (none, s, [])
    else if broken then .ok (some (.create statusError .errno "receive_http_header"), s, [])
    else .ok (none, s, [])
  | b :: socket, s =>
    if s.number = 4 then do
      let s ← s.put 0
      .ok (none, s, b :: socket)
    else do
      let s ← s.copy b
      if s.total = s.size then .error .useAfterFree
      else receiveHttpHeaderLoop broken socket s

/-- What both functions do behind their loop; `wrap` is where the caller finds the header. -/
def afterLoop {α : Type} (wrap : HeaderRead → α) (empty full : Throwable)
    (r : Exec (Option Throwable × HeaderRead × List Byte)) : Exec (Throwable × α × List Byte) := do
  let (t, s, socket) ← r
  match t with
  | some t => .ok (t, wrap s, socket)
  | none => if s.total = 0 then .ok (empty, wrap s, socket) else .ok (full, wrap s, socket)

def receiveHttpHeader (h : Heap) (broken : Bool) (socket : List Byte) :
    Exec (Throwable × Block × List Byte) :=
  afterLoop HeaderRead.block
    (.create statusError (.text "0 Byte read") "receive_http_header")
    (.create statusOk .null "receive_http_header")
    (receiveHttpHeaderLoop broken socket (.start h))

theorem receiveHttpHeader2_eq (h : Heap) (broken : Bool) (socket : List Byte)
    (self : HTTPRequest) :
    receiveHttpHeader2 h broken socket self =
      afterLoop (fun s => { self with header := some s.block })
        (.create statusError (.text "0 bytes -> close socket from client") "receive_http_header2")
        (.create statusOk .null "receive_http_header2")
        (receiveHeaderLoop h broken socket (.start h)) := rfl

/-! ## The head of a stream -/

/-- How long the head is. -/
def headLength (stream : List Byte) : Nat :=
  match headEnd stream with
  | some i => i + 4
  | none => stream.length

def headOf (stream : List Byte) : List Byte := stream.take (headLength stream)

/-- The head has been received: it is the string that the caller gets, what follows it is left, and
there is no error, unless there was nothing to receive. -/
def ReceivesHead {α : Type} (str : α → Exec (List Byte)) (stream : List Byte)
    (r : Exec (Throwable × α × List Byte)) : Prop :=
  ∃ t a, r = .ok (t, a, stream.drop (headLength stream)) ∧ str a = .ok (headOf stream) ∧
    (stream ≠ [] → t.isAnError = false)

/-- The heads that `receive_http_header2` receives. -/
structure HeadFits2 (h : Heap) (stream : List Byte) : Prop where
  early : ∀ w, Runs.IsRun lineEnd 4 w → ¬ w <:+: (headOf stream).dropLast
  nul : 0 ∉ headOf stream
  ended : (∃ w, w <:+ headOf stream ∧ Runs.IsRun lineEnd 4 w) ∨
    h.unused (headOf stream).length = 0
  keeps : h.Keeps (headOf stream).length

/-- The heads that `receive_http_header` receives. -/
structure HeadFits (h : Heap) (stream : List Byte) : Prop where
  early : ∀ w, Runs.IsRun lineEnd 4 w → ¬ w <:+: (headOf stream).dropLast
  nul : 0 ∉ headOf stream
  short : (headOf stream).length < 4096
  empty : headOf stream = [] → h.fill 0 = 0

section Head

variable {stream l₁ l₂ : List Byte}

theorem headEnd_spec {i : Nat} (h : headEnd stream = some i) :
    i + 4 ≤ stream.length ∧ [cr, lf, cr, lf] <:+ stream.take (i + 4) := by
  induction stream generalizing i with
  | nil => cases h
  | cons b stream ih =>
    rw [headEnd] at h
    split at h
    · rename_i htake
      cases h
      have hlen := congrArg List.length htake
      rw [List.length_take] at hlen
      refine ⟨?_, ?_⟩
      · simp at hlen ⊢
        omega
      · rw [Nat.zero_add, htake]
    · obtain ⟨j, hj, rfl⟩ := Option.map_eq_some_iff.1 h
      obtain ⟨hlen, hsuffix⟩ := ih hj
      refine ⟨by rw [List.length_cons]; omega, ?_⟩
      rw [Nat.add_right_comm, List.take_succ_cons]
      exact hsuffix.trans (List.suffix_cons b _)

theorem headOf_append (stream : List Byte) :
    headOf stream ++ stream.drop (headLength stream) = stream :=
  List.take_append_drop _ _

/-- What is left decides what has been taken. -/
theorem headOf_eq (h : l₂ = (l₁ ++ l₂).drop (headLength (l₁ ++ l₂))) : headOf (l₁ ++ l₂) = l₁ := by
  have happ := headOf_append (l₁ ++ l₂)
  rw [← h] at happ
  exact List.append_cancel_right happ

/-- The head is all of the stream when nothing is left. -/
theorem headOf_eq_self (h : stream.drop (headLength stream) = []) : headOf stream = stream := by
  have happ := headOf_append stream
  rw [h, List.append_nil] at happ
  exact happ

/-- A text within which the loop does not stop, and at whose end it does not stop either. -/
theorem not_ended {l : List Byte} (hquiet : Runs.Quiet lineEnd 4 0 l)
    (hn : Runs.count lineEnd 0 l ≠ 4) : ¬ ∃ w, w <:+ l ∧ Runs.IsRun lineEnd 4 w := by
  rw [← Runs.le_count_iff]
  have hle := Runs.count_le (Nat.zero_le 4) hquiet
  omega

/-- A head that is not all of the stream ends with four bytes that are counted. -/
theorem headOf_ended (stream : List Byte) :
    (∃ w, w <:+ headOf stream ∧ Runs.IsRun lineEnd 4 w) ∨
      stream.drop (headLength stream) = [] := by
  unfold headOf headLength
  cases h : headEnd stream with
  | none => exact Or.inr (List.drop_length)
  | some i =>
    left
    exact ⟨[cr, lf, cr, lf], (headEnd_spec h).2, rfl, forall_mem_of_all rfl⟩

variable {α : Type} {wrap : HeaderRead → α} {str : α → Exec (List Byte)} {empty full : Throwable}
  {r : Exec (Option Throwable × HeaderRead × List Byte)}

/-- The head is received when the loop ends behind it, and the string ends there. -/
theorem receivesHead_of_loop {s : HeaderRead} (hwrap : str (wrap s) = s.block.str)
    (hfull : full.isAnError = false)
    (hloop : r = .ok (none, s, stream.drop (headLength stream)))
    (htotal : s.total = (headOf stream).length) (hstr : s.block.str = .ok (headOf stream)) :
    ReceivesHead str stream (afterLoop wrap empty full r) := by
  subst hloop
  unfold afterLoop
  rw [Exec.ok_bind]
  dsimp only
  by_cases h0 : s.total = 0
  · rw [if_pos h0]
    refine ⟨_, _, rfl, hwrap.trans hstr, ?_⟩
    intro hne
    have hnil : headOf stream = [] := List.length_eq_zero_iff.1 (htotal ▸ h0)
    rcases headOf_ended stream with ⟨w, hw, hrun⟩ | hrest
    · rw [hnil, List.suffix_nil] at hw
      rw [hw] at hrun
      cases hrun.1
    · exact absurd ((headOf_eq_self hrest).symm.trans hnil) hne
  · rw [if_neg h0]
    exact ⟨_, _, rfl, hwrap.trans hstr, fun _ => hfull⟩

/-- A head that has been received comes out of the loop. -/
theorem ReceivesHead.loop (hwrap : ∀ s, str (wrap s) = s.block.str)
    (herror : ∀ t s rest, r = .ok (some t, s, rest) → t.isAnError = true ∧ stream ≠ [])
    (hr : ReceivesHead str stream (afterLoop wrap empty full r)) :
    ∃ s, r = .ok (none, s, stream.drop (headLength stream)) ∧
      s.block.str = .ok (headOf stream) := by
  obtain ⟨t, a, hcall, hstr, hok⟩ := hr
  obtain ⟨⟨o, s, rest⟩, hloop, hcall⟩ := Exec.bind_ok hcall
  cases o with
  | none =>
    have hout : wrap s = a ∧ rest = stream.drop (headLength stream) := by
      dsimp only at hcall
      split at hcall
      · cases Except.ok.inj hcall
        exact ⟨rfl, rfl⟩
      · cases Except.ok.inj hcall
        exact ⟨rfl, rfl⟩
    obtain ⟨rfl, rfl⟩ := hout
    exact ⟨s, hloop, (hwrap s).symm.trans hstr⟩
  | some t' =>
    obtain ⟨herr, hne⟩ := herror t' s rest hloop
    have ht : t' = t := congrArg Prod.fst (Except.ok.inj hcall)
    rw [ht, hok hne] at herr
    cases herr

end Head

/-! ## `receive_http_header2` -/

section Header2

variable {h : Heap} {self : HTTPRequest} {stream l₁ l₂ : List Byte}

theorem HeadFits2.receives (hfits : HeadFits2 h stream) :
    ReceivesHead HTTPRequest.headerStr stream (receiveHttpHeader2 h false stream self) := by
  have hquiet := (Runs.quiet_iff (p := lineEnd) (l := headOf stream) (by omega)).2 hfits.early
  have happ := headOf_append stream
  rw [receiveHttpHeader2_eq]
  rcases receiveHeaderLoop_quiet h false (HeaderRead.start_holds h) hquiet
      (stream.drop (headLength stream)) with
    ⟨-, s, hs, hn, hu, heq⟩ | ⟨⟨n, h₁, h₂, h₃⟩, -⟩
  · rw [List.nil_append] at hs
    rw [happ] at heq
    have hunused := (hu (HeaderRead.start_untouched h)).unused s.total (Nat.le_refl _) hs.lt
    by_cases hfour : s.number = 4
    · rw [receiveHeaderLoop_four hs hfour] at heq
      exact receivesHead_of_loop rfl rfl heq hs.total (hs.str_nul hfits.nul)
    · have hend : ¬ ∃ w, w <:+ headOf stream ∧ Runs.IsRun lineEnd 4 w :=
        not_ended hquiet fun h0 => hfour (hn.trans h0)
      have hrest := (headOf_ended stream).resolve_left hend
      have hzero := hfits.ended.resolve_left hend
      rw [hrest, receiveHeaderLoop, if_neg hfour, if_neg Bool.false_ne_true] at heq
      refine receivesHead_of_loop rfl rfl (hrest ▸ heq) hs.total ?_
      rw [hs.total, hzero] at hunused
      exact hs.str_iff.2 ⟨hfits.nul, hunused⟩
  · have hlen : n ≤ (headOf stream).length := by simpa using h₂
    exact absurd (hfits.keeps n h₁ hlen) h₃

/-- The loop has come to the end of the stream. -/
theorem HeadFits2.of_open {s : HeaderRead} (hquiet : Runs.Quiet lineEnd 4 0 stream)
    (hcount : Runs.count lineEnd 0 stream ≠ 4)
    (hloop : receiveHeaderLoop h false stream (.start h) =
      .ok (none, s, stream.drop (headLength stream)))
    (hstr : s.block.str = .ok (headOf stream)) : HeadFits2 h stream := by
  have hend : ∀ {s' : HeaderRead}, s'.number = Runs.count lineEnd 0 stream →
      receiveHeaderLoop h false (stream ++ []) (.start h) = receiveHeaderLoop h false [] s' →
      s = s' ∧ headOf stream = stream := by
    intro s' hn heq
    rw [← hn] at hcount
    rw [List.append_nil, receiveHeaderLoop, if_neg hcount, if_neg Bool.false_ne_true,
      hloop] at heq
    have hout := Except.ok.inj heq
    exact ⟨congrArg (·.2.1) hout, headOf_eq_self (congrArg (·.2.2) hout)⟩
  rcases receiveHeaderLoop_quiet h false (HeaderRead.start_holds h) hquiet [] with
    ⟨hall, s', hs, hn, hu, heq⟩ | ⟨-, ⟨s', hdead, hn, heq⟩ | herr | ⟨s', socket, herr⟩⟩
  · obtain ⟨rfl, hhead⟩ := hend hn heq
    rw [List.nil_append] at hs
    rw [hhead] at hstr
    obtain ⟨hnul, hzero⟩ := hs.str_iff.1 hstr
    have hunused := (hu (HeaderRead.start_untouched h)).unused s.total (Nat.le_refl _) hs.lt
    rw [hs.total, hzero, Option.some.injEq] at hunused
    refine ⟨?_, ?_, ?_, ?_⟩ <;> rw [hhead]
    · exact (Runs.quiet_iff (by omega)).1 hquiet
    · exact hnul
    · exact Or.inr hunused.symm
    · intro k hpos hle
      exact hall k hpos (by simpa using hle)
  · obtain ⟨rfl, -⟩ := hend hn heq
    unfold Block.str at hstr
    rw [hdead] at hstr
    cases hstr
  · rw [List.append_nil, hloop] at herr
    cases herr
  · rw [List.append_nil, hloop] at herr
    cases herr

/-- It has stopped behind `l₁`. -/
theorem HeadFits2.of_stopped {s : HeaderRead} (hquiet : Runs.Quiet lineEnd 4 0 l₁)
    (hcount : Runs.count lineEnd 0 l₁ = 4)
    (hloop : receiveHeaderLoop h false (l₁ ++ l₂) (.start h) =
      .ok (none, s, (l₁ ++ l₂).drop (headLength (l₁ ++ l₂))))
    (hstr : s.block.str = .ok (headOf (l₁ ++ l₂))) : HeadFits2 h (l₁ ++ l₂) := by
  rcases receiveHeaderLoop_ends h false (HeaderRead.start_holds h)
      (ends_iff.2 ⟨hquiet, hcount⟩) l₂ with
    ⟨hall, s', hs, heq⟩ | ⟨-, herr | ⟨s', socket, herr⟩⟩
  · rw [List.nil_append] at hs heq
    have hout := Except.ok.inj (hloop.symm.trans heq)
    have hhead : headOf (l₁ ++ l₂) = l₁ := headOf_eq (congrArg (·.2.2) hout).symm
    have hs' : s = { s' with block := ⟨true, s'.block.mem.set l₁.length 0⟩ } :=
      congrArg (·.2.1) hout
    rw [hhead, hs', hs.str_nul_iff] at hstr
    refine ⟨?_, ?_, ?_, ?_⟩ <;> rw [hhead]
    · exact (Runs.quiet_iff (by omega)).1 hquiet
    · exact hstr
    · exact Or.inl (Runs.le_count_iff.1 hcount.ge)
    · intro k hpos hle
      exact hall k hpos (by simpa using hle)
  · rw [hloop] at herr
    cases herr
  · rw [hloop] at herr
    cases herr

theorem ReceivesHead.fits2
    (hr : ReceivesHead HTTPRequest.headerStr stream (receiveHttpHeader2 h false stream self)) :
    HeadFits2 h stream := by
  rw [receiveHttpHeader2_eq] at hr
  have hwrap : ∀ s : HeaderRead,
      HTTPRequest.headerStr { self with header := some s.block } = s.block.str := fun _ => rfl
  have herror : ∀ t s rest, receiveHeaderLoop h false stream (.start h) = .ok (some t, s, rest) →
      t.isAnError = true ∧ stream ≠ [] := by
    intro t s rest heq
    refine ⟨receiveHeaderLoop_error heq, ?_⟩
    intro h0
    rw [h0] at heq
    cases heq
  obtain ⟨s, hloop, hstr⟩ := hr.loop hwrap herror
  rcases Runs.stops_or lineEnd 4 0 stream with ⟨hquiet, hcount⟩ | ⟨l₁, l₂, rfl, hquiet, hcount⟩
  · exact .of_open hquiet hcount hloop hstr
  · exact .of_stopped hquiet hcount hloop hstr

/-- **Exactly when `receive_http_header2` receives the head of a stream.** -/
theorem receivesHead2_iff (h : Heap) (self : HTTPRequest) (stream : List Byte) :
    ReceivesHead HTTPRequest.headerStr stream (receiveHttpHeader2 h false stream self) ↔
      HeadFits2 h stream :=
  ⟨ReceivesHead.fits2, HeadFits2.receives⟩

end Header2

/-! ## `receive_http_header` -/

/-- The block contains the text `c`, which has been received, and a NUL behind it, if there is a
text. -/
structure HeaderRead.Closed (h : Heap) (s : HeaderRead) (c : List Byte) : Prop where
  holds : s.Holds c
  long : s.block.mem.length = 4097
  fresh : c = [] → s.block.mem[c.length]? = some (h.fill 0)
  closed : 0 ∉ c → c ≠ [] → s.block.mem[c.length]? = some 0

section Header

variable {h : Heap} {broken : Bool} {s : HeaderRead} {c stream l₁ l₂ : List Byte}

theorem HeaderRead.start_closed (h : Heap) : (HeaderRead.start h).Closed h [] := by
  have hlen : (HeaderRead.start h).block.mem.length = 4097 := by simp [HeaderRead.start]
  refine ⟨HeaderRead.start_holds h, hlen, ?_, ?_⟩
  · intro _
    exact (HeaderRead.start_untouched h).unused 0 (Nat.le_refl _) (by omega)
  · intro _ hne
    exact absurd rfl hne

theorem HeaderRead.Closed.lt (hs : s.Closed h c) : c.length < 4096 := by
  have hsize := hs.holds.size
  have hroom := hs.holds.room
  have hlong := hs.long
  omega

theorem HeaderRead.Closed.copy (hs : s.Closed h c) (b : Byte) :
    ∃ mem : List Byte, s.copy b = .ok ⟨⟨true, mem⟩, s.size, s.total + 1, nextNumber s.number b⟩ ∧
      mem.length = 4097 ∧ mem.take (c ++ [b]).length = c ++ [b] ∧
      (b ≠ 0 → mem[c.length + 1]? = some 0) := by
  have hlt := hs.lt
  have hlong := hs.long
  have htaken := take_set_length (hs.holds.total ▸ hs.holds.lt) hs.holds.taken b
  unfold HeaderRead.copy
  rw [hs.holds.put b, Exec.ok_bind]
  dsimp only
  by_cases hb : b = 0
  · rw [if_pos hb]
    exact ⟨_, rfl, by rw [List.length_set]; exact hlong, htaken, fun h0 => absurd hb h0⟩
  · rw [if_neg hb, hs.holds.total]
    refine ⟨(s.block.mem.set c.length b).set (c.length + 1) 0, ?_, ?_, ?_, ?_⟩
    · unfold HeaderRead.put
      dsimp only
      rw [if_pos rfl, if_pos (by rw [List.length_set]; omega)]
    · rw [List.length_set, List.length_set]
      exact hlong
    · rw [List.length_append, List.length_singleton] at htaken ⊢
      rw [List.take_set_of_le (Nat.le_refl _)]
      exact htaken
    · intro _
      rw [List.getElem?_set_self (by rw [List.length_set]; omega)]

variable (broken) in
/-- One pass: the byte is stored with a NUL behind it, unless it is the last that fits. -/
theorem receiveHttpHeaderLoop_cons (hs : s.Closed h c) (hn : s.number ≠ 4) (b : Byte)
    (socket : List Byte) :
    (c.length + 1 < 4096 ∧ ∃ s' : HeaderRead, s'.Closed h (c ++ [b]) ∧
        s'.number = nextNumber s.number b ∧
        receiveHttpHeaderLoop broken (b :: socket) s = receiveHttpHeaderLoop broken socket s') ∨
      c.length + 1 = 4096 ∧
        receiveHttpHeaderLoop broken (b :: socket) s = .error .useAfterFree := by
  have hlt := hs.lt
  have htotal := hs.holds.total
  have hsize : s.size = 4096 := by
    have hsize := hs.holds.size
    omega
  obtain ⟨mem, hcopy, hmem, htake, hclosed⟩ := hs.copy b
  rw [receiveHttpHeaderLoop, if_neg hn, hcopy, Exec.ok_bind]
  dsimp only
  by_cases hfull : c.length + 1 = 4096
  · right
    rw [if_pos (by omega)]
    exact ⟨hfull, rfl⟩
  · left
    rw [if_neg (by omega)]
    refine ⟨by omega, _, ⟨⟨rfl, htake, ?_, ?_, ?_⟩, hmem, ?_, ?_⟩, rfl, rfl⟩
    · rw [List.length_append, List.length_singleton, htotal]
    · rw [List.length_append, List.length_singleton]
      dsimp only
      omega
    · dsimp only
      omega
    · intro h0
      simp at h0
    · intro hnul _
      rw [List.length_append, List.length_singleton]
      exact hclosed fun h0 => hnul (by rw [h0]; simp)

theorem receiveHttpHeaderLoop_four (hs : s.Closed h c) (hn : s.number = 4) (socket : List Byte) :
    receiveHttpHeaderLoop broken socket s =
      .ok (none, { s with block := ⟨true, s.block.mem.set c.length 0⟩ }, socket) := by
  cases socket with
  | nil => rw [receiveHttpHeaderLoop, if_pos hn, hs.holds.put]; rfl
  | cons b socket => rw [receiveHttpHeaderLoop, if_pos hn, hs.holds.put]; rfl

variable (broken) in
/-- **A text within which the loop does not stop** is received if there is room for it. -/
theorem receiveHttpHeaderLoop_quiet {l : List Byte} (hs : s.Closed h c)
    (hl : Runs.Quiet lineEnd 4 s.number l) (post : List Byte) :
    ((c ++ l).length < 4096 ∧ ∃ s' : HeaderRead, s'.Closed h (c ++ l) ∧
        s'.number = Runs.count lineEnd s.number l ∧
        receiveHttpHeaderLoop broken (l ++ post) s = receiveHttpHeaderLoop broken post s') ∨
      4096 ≤ (c ++ l).length ∧
        receiveHttpHeaderLoop broken (l ++ post) s = .error .useAfterFree := by
  induction l generalizing s c with
  | nil =>
    left
    rw [List.append_nil]
    exact ⟨hs.lt, s, hs, rfl, rfl⟩
  | cons b l ih =>
    obtain ⟨hn, hl⟩ := hl
    rcases receiveHttpHeaderLoop_cons broken hs hn b (l ++ post) with
      ⟨-, s', hs', hn', heq⟩ | ⟨hfull, herr⟩
    · rw [nextNumber_eq] at hn'
      have happ : c ++ b :: l = c ++ [b] ++ l := by simp
      rw [List.cons_append, heq, Runs.count_cons, ← hn', happ]
      exact ih hs' (hn' ▸ hl)
    · right
      refine ⟨?_, herr⟩
      rw [List.length_append, List.length_cons]
      omega

theorem receiveHttpHeaderLoop_error {s' : HeaderRead} {socket rest : List Byte} {t : Throwable}
    (heq : receiveHttpHeaderLoop broken socket s = .ok (some t, s', rest)) :
    broken = true := by
  induction socket generalizing s with
  | nil =>
    rw [receiveHttpHeaderLoop] at heq
    split at heq
    · obtain ⟨u, -, heq⟩ := Exec.bind_ok heq
      cases heq
    split at heq
    · assumption
    · cases heq
  | cons b socket ih =>
    rw [receiveHttpHeaderLoop] at heq
    split at heq
    · obtain ⟨u, -, heq⟩ := Exec.bind_ok heq
      cases heq
    · obtain ⟨u, -, heq⟩ := Exec.bind_ok heq
      split at heq
      · cases heq
      · exact ih heq

theorem HeadFits.receives (hfits : HeadFits h stream) :
    ReceivesHead Block.str stream (receiveHttpHeader h false stream) := by
  have hquiet := (Runs.quiet_iff (p := lineEnd) (l := headOf stream) (by omega)).2 hfits.early
  have happ := headOf_append stream
  rcases receiveHttpHeaderLoop_quiet false (HeaderRead.start_closed h) hquiet
      (stream.drop (headLength stream)) with ⟨-, s, hs, hn, heq⟩ | ⟨hlong, -⟩
  · rw [List.nil_append] at hs
    rw [happ] at heq
    by_cases hfour : s.number = 4
    · rw [receiveHttpHeaderLoop_four hs hfour] at heq
      exact receivesHead_of_loop rfl rfl heq hs.holds.total (hs.holds.str_nul hfits.nul)
    · have hend : ¬ ∃ w, w <:+ headOf stream ∧ Runs.IsRun lineEnd 4 w :=
        not_ended hquiet fun h0 => hfour (hn.trans h0)
      have hrest := (headOf_ended stream).resolve_left hend
      rw [hrest, receiveHttpHeaderLoop, if_neg hfour, if_neg Bool.false_ne_true] at heq
      refine receivesHead_of_loop rfl rfl (hrest ▸ heq) hs.holds.total ?_
      rw [hs.holds.str_iff]
      refine ⟨hfits.nul, ?_⟩
      by_cases hnil : headOf stream = []
      · rw [hs.fresh hnil, hfits.empty hnil]
      · exact hs.closed hfits.nul hnil
  · exact absurd hfits.short (by simpa using hlong)

/-- The loop has come to the end of the stream. -/
theorem HeadFits.of_open {s : HeaderRead} (hquiet : Runs.Quiet lineEnd 4 0 stream)
    (hcount : Runs.count lineEnd 0 stream ≠ 4)
    (hloop : receiveHttpHeaderLoop false stream (.start h) =
      .ok (none, s, stream.drop (headLength stream)))
    (hstr : s.block.str = .ok (headOf stream)) : HeadFits h stream := by
  rcases receiveHttpHeaderLoop_quiet false (HeaderRead.start_closed h) hquiet [] with
    ⟨hshort, s', hs, hn, heq⟩ | ⟨-, herr⟩
  · have hfour : s'.number ≠ 4 := by
      rw [hn]
      exact hcount
    rw [List.append_nil, receiveHttpHeaderLoop, if_neg hfour, if_neg Bool.false_ne_true,
      hloop] at heq
    rw [List.nil_append] at hs hshort
    have hout := Except.ok.inj heq
    have hhead : headOf stream = stream := headOf_eq_self (congrArg (·.2.2) hout)
    have hs' : s = s' := congrArg (·.2.1) hout
    rw [hhead, hs', hs.holds.str_iff] at hstr
    refine ⟨?_, ?_, ?_, ?_⟩ <;> rw [hhead]
    · exact (Runs.quiet_iff (by omega)).1 hquiet
    · exact hstr.1
    · exact hshort
    · intro hnil
      have hfresh := hs.fresh hnil
      rw [hstr.2, Option.some.injEq] at hfresh
      exact hfresh.symm
  · rw [List.append_nil, hloop] at herr
    cases herr

/-- It has stopped behind `l₁`. -/
theorem HeadFits.of_stopped {s : HeaderRead} (hquiet : Runs.Quiet lineEnd 4 0 l₁)
    (hcount : Runs.count lineEnd 0 l₁ = 4)
    (hloop : receiveHttpHeaderLoop false (l₁ ++ l₂) (.start h) =
      .ok (none, s, (l₁ ++ l₂).drop (headLength (l₁ ++ l₂))))
    (hstr : s.block.str = .ok (headOf (l₁ ++ l₂))) : HeadFits h (l₁ ++ l₂) := by
  rcases receiveHttpHeaderLoop_quiet false (HeaderRead.start_closed h) hquiet l₂ with
    ⟨hshort, s', hs, hn, heq⟩ | ⟨-, herr⟩
  · rw [List.nil_append] at hs hshort
    rw [receiveHttpHeaderLoop_four hs (hn.trans hcount)] at heq
    have hout := Except.ok.inj (hloop.symm.trans heq)
    have hhead : headOf (l₁ ++ l₂) = l₁ := headOf_eq (congrArg (·.2.2) hout).symm
    have hs' : s = { s' with block := ⟨true, s'.block.mem.set l₁.length 0⟩ } :=
      congrArg (·.2.1) hout
    rw [hhead, hs', hs.holds.str_nul_iff] at hstr
    refine ⟨?_, ?_, ?_, ?_⟩ <;> rw [hhead]
    · exact (Runs.quiet_iff (by omega)).1 hquiet
    · exact hstr
    · exact hshort
    · intro hnil
      rw [hnil] at hcount
      cases hcount
  · rw [hloop] at herr
    cases herr

theorem ReceivesHead.fits
    (hr : ReceivesHead Block.str stream (receiveHttpHeader h false stream)) :
    HeadFits h stream := by
  have herror : ∀ t s rest,
      receiveHttpHeaderLoop false stream (.start h) = .ok (some t, s, rest) →
      t.isAnError = true ∧ stream ≠ [] := fun t s rest heq =>
    Bool.noConfusion (receiveHttpHeaderLoop_error heq)
  obtain ⟨s, hloop, hstr⟩ := hr.loop (fun _ => rfl) herror
  rcases Runs.stops_or lineEnd 4 0 stream with ⟨hquiet, hcount⟩ | ⟨l₁, l₂, rfl, hquiet, hcount⟩
  · exact .of_open hquiet hcount hloop hstr
  · exact .of_stopped hquiet hcount hloop hstr

/-- **Exactly when `receive_http_header` receives the head of a stream.** -/
theorem receivesHead_iff (h : Heap) (stream : List Byte) :
    ReceivesHead Block.str stream (receiveHttpHeader h false stream) ↔ HeadFits h stream :=
  ⟨ReceivesHead.fits, HeadFits.receives⟩

end Header

/-! ## Both functions -/

/-- **Exactly when the head of a stream is received**, by each of the two functions. -/
theorem headReceived_iff (h : Heap) (self : HTTPRequest) (stream : List Byte) :
    (ReceivesHead HTTPRequest.headerStr stream (receiveHttpHeader2 h false stream self) ↔
      HeadFits2 h stream) ∧
    (ReceivesHead Block.str stream (receiveHttpHeader h false stream) ↔ HeadFits h stream) :=
  ⟨receivesHead2_iff h self stream, receivesHead_iff h stream⟩

/-- Four line feeds end the header of both functions, although no empty line has been read: what
follows them is left for the next reader. -/
theorem lineFeeds_end_header :
    ¬ ReceivesHead HTTPRequest.headerStr (bytes "A\n\n\n\nB\r\n\r\n")
      (receiveHttpHeader2 ⟨fun _ => 0, fun _ => .inPlace⟩ false (bytes "A\n\n\n\nB\r\n\r\n")
        newHttpRequest) ∧
    ¬ ReceivesHead Block.str (bytes "A\n\n\n\nB\r\n\r\n")
      (receiveHttpHeader ⟨fun _ => 0, fun _ => .inPlace⟩ false (bytes "A\n\n\n\nB\r\n\r\n")) := by
  have hrun : Runs.IsRun lineEnd 4 [lf, lf, lf, lf] := ⟨rfl, forall_mem_of_all rfl⟩
  have hinfix : [lf, lf, lf, lf] <:+: (headOf (bytes "A\n\n\n\nB\r\n\r\n")).dropLast := by
    decide
  constructor
  · intro hr
    exact ((receivesHead2_iff _ _ _).1 hr).early _ hrun hinfix
  · intro hr
    exact ((receivesHead_iff _ _).1 hr).early _ hrun hinfix

end Heimdall.Http
