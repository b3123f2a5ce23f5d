import Heimdall.Pool.Segment

/-!
# The sections over the bytes

As long as the size of the segment fits into the `int` in which it is summed up, `do_prefork` and
the sections do over its bytes what they do over four arrays that have nothing in common
(`sections_refine`). With one slot more, `do_prefork` does not come to its end (`prefork_room_iff`).
-/

namespace Heimdall.Pool

open RoundRobin (Server)

/-! ## The sections refine those over arrays -/

section Loops

variable {α β : Type} {l : List α}

theorem foldlM_ok {f : β → α → Exec β} {g : β → α → β} (hf : ∀ a ∈ l, ∀ x, f x a = .ok (g x a))
    (x : β) : l.foldlM f x = .ok (l.foldl g x) := by
  induction l generalizing x with
  | nil => rfl
  | cons a l ih =>
    rw [List.foldlM_cons, hf a List.mem_cons_self, List.foldl_cons]
    exact ih (fun b hb => hf b (List.mem_cons_of_mem a hb)) (g x a)

theorem findM?_ok {f : α → Exec Bool} {b : α → Bool} (hf : ∀ a ∈ l, f a = .ok (b a)) :
    l.findM? f = .ok (l.find? b) := by
  induction l with
  | nil => rfl
  | cons a l ih =>
    rw [List.findM?, hf a List.mem_cons_self, List.find?_cons, Exec.ok_bind]
    cases b a with
    | true => rfl
    | false => exact ih fun c hc => hf c (List.mem_cons_of_mem a hc)

end Loops

/-- What a process does with the slots, in a section or with the server of its connection. -/
inductive Access
  | select (server : Server)
  | find (pid : Int)
  | release (pid : Int)
  | remote (i : Nat)

/-- What it gets. -/
inductive Got
  | worker (w : Option (Nat × Int))
  | slot (i : Option Nat)
  | marked
  | remote (status : Int) (ip : CharPtr)

namespace Access

/-- Over four arrays, with `k` slots. -/
def arrays (k : Nat) (m : THPSharedMem) : Access → Got × THPSharedMem
  | select server =>
    match selectWorker k server m with
    | some (i, pid, m) => (.worker (some (i, pid)), m)
    | none => (.worker none, m)
  | find pid => (.slot (findSlot k pid m), m)
  | release pid => (.marked, Pool.release k pid m)
  | remote i => (.remote (m.workerServer i).status (m.workerServer i).ip, m)

/-- Over the bytes. -/
def shared (k : Nat) (p : Process) (s : Segment) : Access → Exec (Got × Segment)
  | select server => do
    let (w, s) ← selectShared p k server s
    .ok (.worker w, s)
  | find pid => do
    let i ← findWorker p k pid s
    .ok (.slot i, s)
  | release pid => do
    let s ← releaseShared p k pid s
    .ok (.marked, s)
  | remote i => do
    let (status, ip) ← p.loadRemote s i
    .ok (.remote status ip, s)

/-- A server that can be stored, and a slot that is there. -/
def Fits (n : Nat) : Access → Prop
  | select server => Storable server
  | remote i => i < n
  | _ => True

end Access

section Sections

variable {n k start : Nat} {s : Segment} {m : THPSharedMem} {p : Process}

theorem visitShared_eq (h : Represents n start s m) (hp : p.Maps start s.size) {i : Nat}
    (hi : i < n) (x : Scan) : visitShared p s x i = .ok (x.visit m i) := by
  unfold visitShared Scan.visit
  rw [h.loadBusy hp hi, Exec.ok_bind]
  split
  · rw [h.loadCounter hp hi, Exec.ok_bind]
  · rfl

theorem scanShared_eq (h : Represents n start s m) (hp : p.Maps start s.size) (hk : k ≤ n) :
    (List.range k).foldlM (visitShared p s) ⟨-1, -1⟩ = .ok (scan k m) :=
  foldlM_ok (fun _ hi x => visitShared_eq h hp (Nat.lt_of_lt_of_le (List.mem_range.1 hi) hk) x) _

theorem findWorker_eq (h : Represents n start s m) (hp : p.Maps start s.size) (hk : k ≤ n)
    (pid : Int) : findWorker p k pid s = .ok (findSlot k pid m) := by
  refine findM?_ok fun i hi => ?_
  rw [h.loadArray hp (Nat.lt_of_lt_of_le (List.mem_range.1 hi) hk), Exec.ok_bind]

/-- A slot that has been found. -/
theorem findSlot_lt {i : Nat} {pid : Int} (h : findSlot k pid m = some i) : i < k :=
  List.mem_range.1 (List.mem_of_find?_eq_some h)

/-- No slot is idle for either of the two, or both find the same. -/
theorem selectShared_eq (h : Represents n start s m) (hp : p.Maps start s.size) (hk : k ≤ n)
    {server : Server} (hserver : Storable server)
    (hcounter : ∀ i, i < n → m.workerCounter i < intMax) :
    selectWorker k server m = none ∧ selectShared p k server s = .ok (none, s) ∨
      ∃ i pid m' s', selectWorker k server m = some (i, pid, m') ∧
        selectShared p k server s = .ok (some (i, pid), s') ∧ s'.size = s.size ∧
        Represents n start s' m' := by
  unfold selectShared selectWorker
  rw [scanShared_eq h hp hk, Exec.ok_bind]
  rcases scan_found k m with ⟨heq, -⟩ | ⟨i, hlt, heq, -⟩
  · rw [heq]
    exact .inl ⟨rfl, rfl⟩
  · have hne : ((i : Int) = -1) ↔ False := iff_false_intro (by omega)
    have hi := Nat.lt_of_lt_of_le hlt hk
    obtain ⟨s₁, h₁, hsize₁, hrep₁⟩ := h.storeBusy hp hi (v := 1) (by decide)
    have hp₁ : p.Maps start s₁.size := hsize₁ ▸ hp
    have hfits : FitsInt (m.workerCounter i + 1) := by
      obtain ⟨hmin, -⟩ := h.fits.counter i hi
      exact ⟨by omega, Int.add_one_le_of_lt (hcounter i hi)⟩
    obtain ⟨s₂, h₂, hsize₂, hrep₂⟩ := hrep₁.storeCounter hp₁ hi hfits
    have hp₂ : p.Maps start s₂.size := hsize₂ ▸ hp₁
    obtain ⟨s₃, h₃, hsize₃, hrep₃⟩ := hrep₂.storeServer hp₂ hi hserver
    refine .inr ⟨i, m.workerArray i, _, s₃, ?_, ?_, hsize₃.trans (hsize₂.trans hsize₁), hrep₃⟩
    · simp only [heq, hne, if_false, Int.toNat_natCast]
    · simp only [heq, hne, if_false, Int.toNat_natCast]
      rw [h₁, Exec.ok_bind, hrep₁.loadArray hp₁ hi, Exec.ok_bind, hrep₁.loadCounter hp₁ hi,
        Exec.ok_bind, checkInt_of_fits hfits, Exec.ok_bind, h₂, Exec.ok_bind, h₃]
      rfl

theorem releaseShared_eq (h : Represents n start s m) (hp : p.Maps start s.size) (hk : k ≤ n)
    (pid : Int) :
    ∃ s', releaseShared p k pid s = .ok s' ∧ s'.size = s.size ∧
      Represents n start s' (release k pid m) := by
  unfold releaseShared release
  rw [findWorker_eq h hp hk, Exec.ok_bind]
  cases hfind : findSlot k pid m with
  | none => exact ⟨s, rfl, rfl, h⟩
  | some i => exact h.storeBusy hp (Nat.lt_of_lt_of_le (findSlot_lt hfind) hk) (by decide)

/-- **One access.** -/
theorem access_refines (h : Represents n start s m) (hp : p.Maps start s.size) (hk : k ≤ n)
    {a : Access} (ha : a.Fits n) (hcounter : ∀ i, i < n → m.workerCounter i < intMax) :
    ∃ s', a.shared k p s = .ok ((a.arrays k m).1, s') ∧ s'.size = s.size ∧
      Represents n start s' (a.arrays k m).2 := by
  cases a with
  | select server =>
    unfold Access.shared Access.arrays
    rcases selectShared_eq h hp hk ha hcounter with ⟨hnone, hs⟩ | ⟨i, pid, m', s', hw, hs, hrest⟩
    · refine ⟨s, ?_, rfl, ?_⟩ <;> simp only [hnone, hs, Exec.ok_bind]
      exact h
    · refine ⟨s', ?_, hrest.1, ?_⟩ <;> simp only [hw, hs, Exec.ok_bind]
      exact hrest.2
  | find pid =>
    refine ⟨s, ?_, rfl, h⟩
    simp only [Access.shared, findWorker_eq h hp hk, Exec.ok_bind, Access.arrays]
  | release pid =>
    obtain ⟨s', hs', hsize, hrep⟩ := releaseShared_eq h hp hk pid
    refine ⟨s', ?_, hsize, hrep⟩
    simp only [Access.shared, hs', Exec.ok_bind, Access.arrays]
  | remote i =>
    refine ⟨s, ?_, rfl, h⟩
    simp only [Access.shared, h.loadRemote hp ha, Exec.ok_bind, Access.arrays]

end Sections

/-! ## Runs -/

def runArrays (k : Nat) (m : THPSharedMem) : List Access → List Got × THPSharedMem
  | [] => ([], m)
  | a :: as =>
    let r := a.arrays k m
    let rest := runArrays k r.2 as
    (r.1 :: rest.1, rest.2)

/-- Each access is made by a process. -/
def runShared (k : Nat) (s : Segment) : List (Process × Access) → Exec (List Got × Segment)
  | [] => .ok ([], s)
  | (p, a) :: as => do
    let (got, s) ← a.shared k p s
    let (gots, s) ← runShared k s as
    .ok (got :: gots, s)

/-- The workers have been used at most `c` times. -/
def UsedAtMost (n c : Nat) (m : THPSharedMem) : Prop := ∀ i, i < n → m.workerCounter i ≤ c

section Runs

variable {n k c start : Nat} {s : Segment} {m : THPSharedMem}

/-- What the parent selects is used once more. -/
theorem counter_of_selectWorker {server : Server} {i : Nat} {pid : Int} {m' : THPSharedMem}
    (h : selectWorker k server m = some (i, pid, m')) :
    m'.workerCounter = Function.update m.workerCounter i (m.workerCounter i + 1) := by
  unfold selectWorker at h
  split at h
  · cases h
  · cases h
    rfl

theorem usedAtMost_access (h : UsedAtMost n c m) (a : Access) :
    UsedAtMost n (c + 1) (a.arrays k m).2 := by
  have hmono : UsedAtMost n (c + 1) m := fun i hi => Int.le_trans (h i hi) (by omega)
  cases a with
  | select server =>
    unfold Access.arrays
    cases hw : selectWorker k server m with
    | none => simpa only [hw] using hmono
    | some w =>
      obtain ⟨j, pid, m'⟩ := w
      simp only [hw]
      intro i hi
      rw [counter_of_selectWorker hw]
      by_cases hij : i = j
      · subst hij
        have hle := h i hi
        rw [Function.update_self]
        omega
      · rw [Function.update_of_ne hij]
        exact hmono i hi
  | find pid | remote i => exact hmono
  | release pid =>
    simp only [Access.arrays, release]
    split <;> exact hmono

/-- **A run of accesses.** -/
theorem run_refines {start : Nat} (h : Represents n start s m) (hk : k ≤ n)
    {as : List (Process × Access)} (hmaps : ∀ q ∈ as, q.1.Maps start s.size)
    (hfits : ∀ q ∈ as, q.2.Fits n) (hused : UsedAtMost n c m)
    (hc : ((c + as.length : Nat) : Int) ≤ intMax) :
    ∃ s', runShared k s as = .ok ((runArrays k m (as.map Prod.snd)).1, s') ∧
      Represents n start s' (runArrays k m (as.map Prod.snd)).2 := by
  induction as generalizing s m c with
  | nil => exact ⟨s, rfl, h⟩
  | cons q as ih =>
    obtain ⟨p, a⟩ := q
    rw [List.length_cons] at hc
    have hcounter : ∀ i, i < n → m.workerCounter i < intMax := by
      intro i hi
      have hle := hused i hi
      omega
    obtain ⟨s₁, hs₁, hsize, hrep⟩ := access_refines h (hmaps _ List.mem_cons_self) hk
      (hfits _ List.mem_cons_self) hcounter
    obtain ⟨s₂, hs₂, hrep₂⟩ := ih hrep
      (fun q hq => hsize ▸ hmaps q (List.mem_cons_of_mem _ hq))
      (fun q hq => hfits q (List.mem_cons_of_mem _ hq)) (usedAtMost_access hused a)
      (by rwa [Nat.add_right_comm c 1])
    refine ⟨s₂, ?_, hrep₂⟩
    unfold runShared
    rw [hs₁, Exec.ok_bind]
    simp only [hs₂, Exec.ok_bind, List.map_cons, runArrays]

end Runs

/-! ## `do_prefork` over the bytes -/

/-- The size, as a sum. -/
theorem totalSize_eq (n : Nat) :
    totalSize n = ((sizeofSharedMem + 36 * n : Nat) : Int).bmod 4294967296 := by
  unfold totalSize addSize
  simp only [Int.bmod_add_bmod]
  congr 1
  push_cast
  omega

theorem totalSize_of_le {n : Nat} (h : n ≤ 59652322) :
    totalSize n = ((sizeofSharedMem + 36 * n : Nat) : Int) := by
  rw [totalSize_eq]
  unfold sizeofSharedMem
  apply Int.bmod_eq_of_le <;> omega

theorem initShm_of_le {n : Nat} (h : n ≤ 59652322) (bytes : Bytes.Memory) :
    initShm (totalSize n) bytes = some ⟨sizeofSharedMem + 36 * n, bytes⟩ := by
  unfold initShm
  rw [totalSize_of_le h, if_neg (by omega), Int.toNat_natCast]

theorem initShm_size {size : Int} {bytes : Bytes.Memory} {s : Segment}
    (h : initShm size bytes = some s) : (s.size : Int) = size := by
  unfold initShm at h
  split at h
  · cases h
  · cases h
    exact Int.toNat_of_nonneg (Int.not_lt.1 ‹_›)

/-- With more slots the segment, if there is one, ends before the last counter. -/
theorem initShm_short {n : Nat} {bytes : Bytes.Memory} {s : Segment} (h : 59652322 < n)
    (hs : initShm (totalSize n) bytes = some s) : s.size < sizeofSharedMem + 12 * n := by
  have hsize := initShm_size hs
  rw [totalSize_eq] at hsize
  unfold sizeofSharedMem at hsize ⊢
  have hsum := Int.bmod_add_bdiv ((32 + 36 * n : Nat) : Int) 4294967296
  have hlt := Int.bmod_lt (x := ((32 + 36 * n : Nat) : Int)) (m := 4294967296) (by decide)
  have hpos : 0 < ((32 + 36 * n : Nat) : Int).bdiv 4294967296 := by omega
  omega

section Prefork

variable {n start : Nat} {s : Segment} {m : THPSharedMem} {p : Process}

/-- A number of four bytes stands for an `int`. -/
theorem signed_fits (x : Nat) : FitsInt (Bytes.signed 4 x) := by
  have hle := Int.le_bmod (x := (x : Int)) (m := 256 ^ 4) (by decide)
  have hlt := Int.bmod_lt (x := (x : Int)) (m := 256 ^ 4) (by decide)
  unfold Bytes.signed FitsInt intMin intMax
  omega

theorem unsigned_signed {x : Nat} (h : x < 256 ^ 4) : Bytes.unsigned 4 (Bytes.signed 4 x) = x := by
  unfold Bytes.unsigned Bytes.signed
  rw [Int.bmod_emod, Int.emod_eq_of_lt (by omega) (by exact_mod_cast h), Int.toNat_natCast]

/-! ### The pointers -/

def memberLayout : Layout Member where
  offset := Member.offset
  width _ := 8
  apart a b h := by
    cases a <;> cases b <;> first | exact absurd rfl h | decide

theorem begin_lt (hn : 0 < n) (a : Member) : a.begin n < sizeofSharedMem + 36 * n := by
  cases a <;> simp only [Member.begin] <;> omega

theorem store_inv {a k v : Nat} {s' : Segment} (h : p.store s a k v = .ok s') :
    p.start ≤ a ∧ a + k ≤ p.start + s.size ∧
      s' = { s with bytes := Bytes.store s.bytes (a - p.start) k v } := by
  unfold Process.store at h
  split at h
  · cases h
    exact ⟨‹_ ∧ _›.1, ‹_ ∧ _›.2, rfl⟩
  · cases h

/-- The four pointers are stored when there is room for them, and only then. -/
theorem mapPool_eq (hn : 0 < n) (hstart : start + (sizeofSharedMem + 36 * n) ≤ 256 ^ 8)
    (hroom : sizeofSharedMem ≤ s.size) :
    ∃ s', mapPool ⟨start, start⟩ n s = .ok s' ∧ s'.size = s.size ∧ Pointers n start s' := by
  obtain ⟨size, bytes⟩ := s
  have hstore : ∀ (b : Bytes.Memory) (a : Member),
      Process.store ⟨start, start⟩ ⟨size, b⟩ (start + a.offset) 8 (start + a.begin n) =
        .ok ⟨size, Bytes.store b a.offset 8 (start + a.begin n)⟩ := by
    intro b a
    have hle : a.offset + 8 ≤ size := Nat.le_trans a.offset_le hroom
    unfold Process.store
    rw [if_pos ⟨Nat.le_add_right .., by dsimp only; omega⟩]
    dsimp only
    rw [Nat.add_sub_cancel_left]
  have hlt : ∀ a : Member, start + a.begin n < 256 ^ memberLayout.width a := by
    intro a
    have hbegin := begin_lt hn a
    change _ < 256 ^ 8
    omega
  have hmap : mapPool ⟨start, start⟩ n ⟨size, bytes⟩ = .ok ⟨size,
      [Member.workerArray, .workerBusy, .workerCounter, .workerServer].foldl
        (fun b a => Bytes.store b a.offset 8 (start + a.begin n)) bytes⟩ := by
    unfold mapPool
    simp only [List.foldlM_cons, List.foldlM_nil]
    rw [hstore, Exec.ok_bind, hstore, Exec.ok_bind, hstore, Exec.ok_bind, hstore]
    rfl
  refine ⟨_, hmap, rfl, hroom, fun a => ?_⟩
  have hview : ∀ m b, memberLayout.view (Bytes.store m b.offset 8 (start + b.begin n)) =
      Function.update (memberLayout.view m) b (start + b.begin n) :=
    fun m b => memberLayout.view_store m b (hlt b)
  change memberLayout.view _ a = _
  simp only [List.foldl_cons, List.foldl_nil, hview]
  cases a <;> simp

theorem mapPool_room {s' : Segment} (h : mapPool ⟨start, start⟩ n s = .ok s') :
    sizeofSharedMem ≤ s.size := by
  unfold mapPool at h
  simp only [List.foldlM_cons, List.foldlM_nil] at h
  obtain ⟨s₁, h₁, h⟩ := Exec.bind_ok h
  obtain ⟨s₂, h₂, h⟩ := Exec.bind_ok h
  obtain ⟨s₃, h₃, h⟩ := Exec.bind_ok h
  obtain ⟨s₄, h₄, -⟩ := Exec.bind_ok h
  obtain ⟨-, -, rfl⟩ := store_inv h₁
  obtain ⟨-, -, rfl⟩ := store_inv h₂
  obtain ⟨-, -, rfl⟩ := store_inv h₃
  have hle := (store_inv h₄).2.1
  simp only [Member.offset] at hle
  unfold sizeofSharedMem
  omega

/-! ### The arrays -/

/-- The arrays that the cells hold. -/
def decoded (f : Cell n → Nat) : THPSharedMem where
  workerArray i := if h : i < n then Bytes.signed 4 (f (.worker ⟨i, h⟩)) else 0
  workerBusy i := if h : i < n then Bytes.signed 4 (f (.busy ⟨i, h⟩)) else 0
  workerCounter i := if h : i < n then Bytes.signed 4 (f (.counter ⟨i, h⟩)) else 0
  workerServer i := if h : i < n then
      ⟨f (.address ⟨i, h⟩), f (.ip ⟨i, h⟩), Bytes.signed 4 (f (.weight ⟨i, h⟩)),
        Bytes.signed 4 (f (.status ⟨i, h⟩))⟩
    else ⟨0, 0, 0, 0⟩

/-- A segment with its pointers stands for some arrays. -/
theorem represents_decoded (h : Pointers n start s) (hroom : sizeofSharedMem + 36 * n ≤ s.size) :
    Represents n start s (decoded ((layout n).view s.bytes)) := by
  have hlt : ∀ c : Cell n, (layout n).view s.bytes c < 256 ^ c.width :=
    fun c => Bytes.load_lt s.bytes c.offset c.width
  refine ⟨⟨hroom, ?_⟩, ?_⟩
  · funext c
    cases c with
    | pointer a => exact h.load_eq a
    | worker i | busy i | counter i | weight i | status i =>
      simp only [content, decoded, i.isLt, dif_pos]
      exact (unsigned_signed (hlt _)).symm
    | address i | ip i => simp only [content, decoded, i.isLt, dif_pos]
  · refine ⟨?_, ?_, ?_, ?_⟩ <;> intro i hi <;> simp only [decoded, hi, dif_pos]
    · exact signed_fits _
    · exact signed_fits _
    · exact signed_fits _
    · refine ⟨hlt (.address ⟨i, hi⟩), hlt (.ip ⟨i, hi⟩), ?_, ?_⟩
      · dsimp only
        exact signed_fits _
      · dsimp only
        exact signed_fits _

theorem zeroPool_eq (h : Represents n start s m) (hp : p.Maps start s.size) :
    ∃ s', zeroPool p n s = .ok s' ∧ s'.size = s.size ∧
      Represents n start s' (initSharedMem n m) := by
  have hloop : ∀ k, k ≤ n → ∃ s', zeroPool p k s = .ok s' ∧ s'.size = s.size ∧
      Represents n start s' (initSharedMem k m) := by
    intro k hk
    induction k with
    | zero => exact ⟨s, rfl, rfl, h⟩
    | succ k ih =>
      obtain ⟨s₀, h₀, hsize₀, hrep₀⟩ := ih (Nat.le_of_succ_le hk)
      have hp₀ : p.Maps start s₀.size := hsize₀ ▸ hp
      obtain ⟨s₁, h₁, hsize₁, hrep₁⟩ := hrep₀.storeArray hp₀ hk (v := 0) (by decide)
      have hp₁ : p.Maps start s₁.size := hsize₁ ▸ hp₀
      obtain ⟨s₂, h₂, hsize₂, hrep₂⟩ := hrep₁.storeBusy hp₁ hk (v := 0) (by decide)
      have hp₂ : p.Maps start s₂.size := hsize₂ ▸ hp₁
      obtain ⟨s₃, h₃, hsize₃, hrep₃⟩ := hrep₂.storeCounter hp₂ hk (v := 0) (by decide)
      have hzero : ∀ f : Nat → Int, Function.update (fun i => if i < k then 0 else f i) k 0 =
          fun i => if i < k + 1 then 0 else f i := by
        intro f
        funext i
        rw [Function.update_apply]
        split
        · rw [if_pos (by omega)]
        · exact if_congr (by omega) rfl rfl
      refine ⟨s₃, ?_, hsize₃.trans (hsize₂.trans (hsize₁.trans hsize₀)), ?_⟩
      · unfold zeroPool at h₀ ⊢
        rw [List.range_succ, List.foldlM_append, h₀, Exec.ok_bind, List.foldlM_cons, h₁,
          Exec.ok_bind, h₂, Exec.ok_bind, h₃, Exec.ok_bind, List.foldlM_nil]
        rfl
      · simp only [initSharedMem, hzero] at hrep₃
        exact hrep₃
  exact hloop n (Nat.le_refl n)

/-! ### The children -/

section Register

variable {fork : Nat → Option Pid} (hfork : ∀ k pid, fork k = some pid → FitsInt pid)
include hfork

theorem childPid_fits (k : Nat) : FitsInt (childPid (fork k)) := by
  cases hf : fork k with
  | none => decide
  | some pid => exact hfork k pid hf

omit hfork in
theorem registerShared_eq (h : Represents n start s m) (hp : p.Maps start s.size) {pid : Int}
    (hpid : FitsInt pid) {m' : THPSharedMem} (hm : register n m pid = .ok m') :
    ∃ s', registerShared p n pid s = .ok (.ok s') ∧ s'.size = s.size ∧
      Represents n start s' m' := by
  have hfind := findWorker_eq h hp (Nat.le_refl n) 0
  unfold register at hm
  unfold findSlot at hfind
  unfold registerShared
  rw [hfind, Exec.ok_bind]
  generalize hfound : (List.range n).find? (fun i => m.workerArray i = 0) = found at hm ⊢
  cases found with
  | none => cases hm
  | some i =>
    cases hm
    obtain ⟨s', hs', hsize, hrep⟩ := h.storeArray hp (findSlot_lt hfound) hpid
    refine ⟨s', ?_, hsize, hrep⟩
    simp only [hs', Exec.ok_bind]

/-- What is registered in the arrays is registered in the segment. -/
theorem registerAll_eq (h : Represents n start s m) (hp : p.Maps start s.size) {k : Nat}
    {m' : THPSharedMem}
    (hm : (List.range k).foldlM (fun m k => register n m (childPid (fork k))) m = .ok m') :
    ∃ s', registerAll p n fork s k = .ok (.ok s') ∧ s'.size = s.size ∧
      Represents n start s' m' := by
  induction k generalizing m' with
  | zero =>
    cases hm
    exact ⟨s, rfl, rfl, h⟩
  | succ k ih =>
    rw [List.range_succ, List.foldlM_append] at hm
    cases hm₁ : (List.range k).foldlM (fun m k => register n m (childPid (fork k))) m with
    | error t =>
      rw [hm₁] at hm
      cases hm
    | ok m₁ =>
      obtain ⟨s₁, hs₁, hsize, hrep⟩ := ih hm₁
      rw [hm₁] at hm
      have hlast : register n m₁ (childPid (fork k)) = .ok m' := by
        cases hr : register n m₁ (childPid (fork k)) with
        | error t =>
          simp only [List.foldlM_cons, bind, Except.bind, hr, reduceCtorEq] at hm
        | ok m₂ =>
          simp only [List.foldlM_cons, List.foldlM_nil, bind, Except.bind, hr] at hm
          exact hm
      obtain ⟨s₂, hs₂, hsize₂, hrep₂⟩ :=
        registerShared_eq hrep (hsize ▸ hp) (childPid_fits hfork k) hlast
      refine ⟨s₂, ?_, hsize₂.trans hsize, hrep₂⟩
      unfold registerAll at hs₁ ⊢
      rw [List.range_succ, List.foldlM_append, hs₁, Exec.ok_bind, List.foldlM_cons]
      dsimp only
      rw [hs₂]
      rfl

end Register

/-! ### The room -/

theorem begin_le (n : Nat) (a : Member) : sizeofSharedMem ≤ a.begin n := by
  cases a <;> simp only [Member.begin] <;> omega

/-- A store through a pointer stays behind the pointers. -/
theorem storeInt_inv (h : Pointers n start s) (hp : p.Maps start s.size) {a : Member} {i : Nat}
    {v : Int} {s' : Segment} (hs : p.storeInt s a i v = .ok s') :
    s'.size = s.size ∧ Pointers n start s' ∧ a.begin n + a.sizeof * i + 4 ≤ s.size := by
  unfold Process.storeInt at hs
  rw [h.element hp, Exec.ok_bind] at hs
  obtain ⟨-, hle, rfl⟩ := store_inv hs
  have hbegin := begin_le n a
  rw [hp.start_eq] at hle ⊢
  refine ⟨rfl, ⟨h.room, fun b => ?_⟩, by omega⟩
  have hoffset := b.offset_le
  rw [Nat.add_sub_cancel_left]
  exact (Bytes.load_store_apart (.inr (by omega))).trans (h.load_eq b)

theorem zeroPool_room (h : Pointers n start s) (hp : p.Maps start s.size) {k : Nat} {s' : Segment}
    (hs : zeroPool p k s = .ok s') :
    s'.size = s.size ∧ Pointers n start s' ∧
      (0 < k → sizeofSharedMem + 8 * n + 4 * k ≤ s.size) := by
  induction k generalizing s' with
  | zero =>
    cases hs
    exact ⟨rfl, h, fun h0 => absurd h0 (Nat.lt_irrefl 0)⟩
  | succ k ih =>
    unfold zeroPool at hs ih
    rw [List.range_succ, List.foldlM_append] at hs
    obtain ⟨s₀, h₀, hs⟩ := Exec.bind_ok hs
    obtain ⟨hsize₀, hptr₀, -⟩ := ih h₀
    rw [List.foldlM_cons] at hs
    obtain ⟨s₃, hstep, hs⟩ := Exec.bind_ok hs
    cases hs
    obtain ⟨s₁, h₁, hstep⟩ := Exec.bind_ok hstep
    obtain ⟨s₂, h₂, h₃⟩ := Exec.bind_ok hstep
    obtain ⟨hsize₁, hptr₁, -⟩ := storeInt_inv hptr₀ (hsize₀ ▸ hp) h₁
    obtain ⟨hsize₂, hptr₂, -⟩ := storeInt_inv hptr₁ (hsize₁ ▸ hsize₀ ▸ hp) h₂
    obtain ⟨hsize₃, hptr₃, hle⟩ := storeInt_inv hptr₂ (hsize₂ ▸ hsize₁ ▸ hsize₀ ▸ hp) h₃
    refine ⟨hsize₃.trans (hsize₂.trans (hsize₁.trans hsize₀)), hptr₃, fun _ => ?_⟩
    rw [hsize₂, hsize₁, hsize₀] at hle
    simp only [Member.begin, Member.sizeof] at hle
    omega

end Prefork

section Refine

variable {nPrefork start : Nat} {fork : Nat → Option Pid}

theorem slots_pos (nPrefork : Nat) : 0 < slots nPrefork := by
  unfold slots
  split <;> omega

theorem maps_start {size : Nat} (h : start + size ≤ 256 ^ 8) :
    Process.Maps ⟨start, start⟩ start size := ⟨rfl, h, .inl rfl⟩

theorem preforkWith_ok {shm : Option Segment} {r : Except Throwable Segment}
    (h : preforkWith nPrefork start fork shm = .ok (some r)) :
    ∃ s, shm = some s ∧ preforkSegment nPrefork start fork s = .ok r := by
  cases shm with
  | none => cases h
  | some s =>
    cases hs : preforkSegment nPrefork start fork s with
    | error e => simp only [preforkWith, hs, Except.map, reduceCtorEq] at h
    | ok r' =>
      simp only [preforkWith, hs, Except.map] at h
      cases h
      exact ⟨s, rfl, hs⟩

/-- **`do_prefork` over the bytes** is `do_prefork` over arrays. -/
theorem preforkShared_eq (hn : slots nPrefork ≤ 59652322)
    (hstart : start + (sizeofSharedMem + 36 * slots nPrefork) ≤ 256 ^ 8)
    (hfork : ∀ k pid, fork k = some pid → FitsInt pid) (bytes : Bytes.Memory) :
    ∃ s m₀ m, preforkShared nPrefork start fork bytes = .ok (some (.ok s)) ∧
      s.size = sizeofSharedMem + 36 * slots nPrefork ∧ doPrefork nPrefork fork m₀ = .ok m ∧
      Represents (slots nPrefork) start s m ∧ UsedAtMost (slots nPrefork) 0 m := by
  obtain ⟨s₁, h₁, hsize₁, hptr⟩ := mapPool_eq (s := ⟨_, bytes⟩) (slots_pos nPrefork) hstart
    (Nat.le_add_right sizeofSharedMem (36 * slots nPrefork))
  have hrep₁ := represents_decoded hptr (Nat.le_of_eq hsize₁.symm)
  have hp₁ : Process.Maps ⟨start, start⟩ start s₁.size := maps_start (hsize₁ ▸ hstart)
  obtain ⟨s₂, h₂, hsize₂, hrep₂⟩ := zeroPool_eq hrep₁ hp₁
  obtain ⟨m, hm, hreg⟩ := doPrefork_registered nPrefork fork
    (decoded ((layout (slots nPrefork)).view s₁.bytes))
  obtain ⟨s₃, h₃, hsize₃, hrep₃⟩ := registerAll_eq hfork hrep₂ (hsize₂ ▸ hp₁) hm
  refine ⟨s₃, _, m, ?_, hsize₃.trans (hsize₂.trans hsize₁), hm, hrep₃, ?_⟩
  · unfold preforkShared
    rw [initShm_of_le hn]
    unfold preforkWith preforkSegment
    dsimp only
    rw [h₁, Exec.ok_bind, h₂, Exec.ok_bind, h₃]
    rfl
  · intro i hi
    exact Int.le_of_eq (hreg.unused i hi)

/-- **The segment and its sections.** Whatever the segment holds before: over its bytes `do_prefork`
and any sequence of accesses, each by a process that has mapped the segment once more where it
likes, get and leave what they do over four separate arrays. -/
theorem sections_refine (hn : slots nPrefork ≤ 59652322)
    (hstart : start + (sizeofSharedMem + 36 * slots nPrefork) ≤ 256 ^ 8)
    (hfork : ∀ k pid, fork k = some pid → FitsInt pid) (bytes : Bytes.Memory)
    {as : List (Process × Access)}
    (hmaps : ∀ q ∈ as, q.1.Maps start (sizeofSharedMem + 36 * slots nPrefork))
    (hfits : ∀ q ∈ as, q.2.Fits (slots nPrefork)) (hlen : (as.length : Int) ≤ intMax) :
    ∃ s m₀ m s', preforkShared nPrefork start fork bytes = .ok (some (.ok s)) ∧
      doPrefork nPrefork fork m₀ = .ok m ∧
      runShared nPrefork s as = .ok ((runArrays nPrefork m (as.map Prod.snd)).1, s') ∧
      Represents (slots nPrefork) start s' (runArrays nPrefork m (as.map Prod.snd)).2 := by
  obtain ⟨s, m₀, m, hs, hsize, hm, hrep, hused⟩ := preforkShared_eq hn hstart hfork bytes
  have hle : nPrefork ≤ slots nPrefork := by
    unfold slots
    split <;> omega
  obtain ⟨s', hs', hrep'⟩ := run_refines hrep hle (fun q hq => hsize ▸ hmaps q hq) hfits hused
    (by rwa [Nat.zero_add])
  exact ⟨s, m₀, m, s', hs, hm, hs', hrep'⟩

/-- **How many workers there is room for.** `do_prefork` comes to its end exactly as long as the
size of the segment fits into an `int`. -/
theorem prefork_room_iff
    (hstart : start + (sizeofSharedMem + 36 * slots nPrefork) ≤ 256 ^ 8)
    (hfork : ∀ k pid, fork k = some pid → FitsInt pid) (bytes : Bytes.Memory) :
    (∃ s, preforkShared nPrefork start fork bytes = .ok (some (.ok s))) ↔
      slots nPrefork ≤ 59652322 := by
  constructor
  · rintro ⟨s, hs⟩
    by_contra hlt
    obtain ⟨s₀, hinit, hs⟩ := preforkWith_ok hs
    have hshort := initShm_short (Nat.lt_of_not_le hlt) hinit
    have hstart₀ : start + s₀.size ≤ 256 ^ 8 := by omega
    obtain ⟨s₁, h₁, hs⟩ := Exec.bind_ok hs
    obtain ⟨s₂, h₂, -⟩ := Exec.bind_ok hs
    obtain ⟨s₁', h₁', hsize, hptr⟩ := mapPool_eq (slots_pos nPrefork) hstart (mapPool_room h₁)
    cases h₁.symm.trans h₁'
    obtain ⟨-, -, hroom⟩ := zeroPool_room hptr (hsize ▸ maps_start hstart₀) h₂
    have hle := hroom (slots_pos nPrefork)
    omega
  · intro hn
    obtain ⟨s, -, -, hs, -⟩ := preforkShared_eq hn hstart hfork bytes
    exact ⟨s, hs⟩

end Refine

/-! ## Two workers -/

/-- The pids 71 and 72. -/
def twoForks (k : Nat) : Option Pid :=
  if k = 0 then some ⟨71, by decide⟩ else some ⟨72, by decide⟩

theorem twoForks_fits (k : Nat) (pid : Pid) (h : twoForks k = some pid) : FitsInt pid := by
  unfold twoForks at h
  split at h <;> cases h <;> decide

/-- A connection of the worker 71, from its dispatch to its end. -/
def oneConnection : List (Process × Access) :=
  [(⟨4096, 8192⟩, .select ⟨4, 5, 1, 1⟩), (⟨4096, 12288⟩, .find 71), (⟨4096, 12288⟩, .remote 0),
    (⟨4096, 12288⟩, .release 71)]

theorem sections_refine_oneConnection : ∃ s m₀ m s',
    preforkShared 2 4096 twoForks (fun _ => 255) = .ok (some (.ok s)) ∧
      doPrefork 2 twoForks m₀ = .ok m ∧
      runShared 2 s oneConnection = .ok ((runArrays 2 m (oneConnection.map Prod.snd)).1, s') ∧
      Represents (slots 2) 4096 s' (runArrays 2 m (oneConnection.map Prod.snd)).2 := by
  refine sections_refine (by decide) (by decide) twoForks_fits _ ?_ ?_ (by decide)
  · intro q hq
    simp only [oneConnection, List.mem_cons, List.not_mem_nil, or_false] at hq
    rcases hq with rfl | rfl | rfl | rfl <;> exact ⟨rfl, by decide, .inr (.inr (by decide))⟩
  · intro q hq
    simp only [oneConnection, List.mem_cons, List.not_mem_nil, or_false] at hq
    rcases hq with rfl | rfl | rfl | rfl
    · exact ⟨by decide, by decide, by decide, by decide⟩
    · trivial
    · exact (by decide : 0 < slots 2)
    · trivial

theorem prefork_room_twoForks :
    (∃ s, preforkShared 2 4096 twoForks (fun _ => 255) = .ok (some (.ok s))) ↔
      slots 2 ≤ 59652322 :=
  prefork_room_iff (by decide) twoForks_fits _

end Heimdall.Pool
