import Heimdall.Basic
import Heimdall.Pool.SharedMem

/-!
# The workers that are created (`main.c`)

`do_prefork` makes room for as many workers as `pre_fork` says, for one where it says none, and
forks as often. Whatever `fork` returns to the parent is registered in the first free slot, a -1
as well.

`thread_pool_loop` takes the number of slots from the configuration again, as it is. The two agree
exactly when `pre_fork` is at least one and no `fork` fails, or when it is zero and the only `fork`
fails (`prefork_agrees_iff`).
-/

namespace Heimdall.Pool

abbrev Pid := { p : Int // 0 < p }

/-- What `fork` returns to the parent. -/
def childPid : Option Pid → Int
  | some pid => pid
  | none => -1

/-- The number of workers that are to be created. If prefork is 0, the system creates anyway one
child process. -/
def slots (nPrefork : Nat) : Nat := if nPrefork = 0 then 1 else nPrefork

/-- The arrays as `do_prefork` initialises them. -/
def initSharedMem (n : Nat) (m : THPSharedMem) : THPSharedMem :=
  { m with
    workerArray := fun i => if i < n then 0 else m.workerArray i
    workerBusy := fun i => if i < n then 0 else m.workerBusy i
    workerCounter := fun i => if i < n then 0 else m.workerCounter i }

/-- The pid of a child goes to the first position available. -/
def register (n : Nat) (m : THPSharedMem) (pid : Int) : Except Throwable THPSharedMem :=
  match (List.range n).find? fun i => m.workerArray i = 0 with
  | some i => .ok { m with workerArray := Function.update m.workerArray i pid }
  | none => .error (.create statusError (.text "Cannot add worker_pid to array") "do_prefork")

/-- `fork k` is the outcome of the `k`-th call, and `m` what the shared memory holds before. -/
def doPrefork (nPrefork : Nat) (fork : Nat → Option Pid) (m : THPSharedMem) :
    Except Throwable THPSharedMem :=
  (List.range (slots nPrefork)).foldlM
    (fun m k => register (slots nPrefork) m (childPid (fork k)))
    (initSharedMem (slots nPrefork) m)

section Register

variable {n k : Nat} {fork : Nat → Option Pid} {m m' : THPSharedMem}

/-- The first `k` outcomes have been registered in `n` slots. -/
structure Registered (n k : Nat) (fork : Nat → Option Pid) (m : THPSharedMem) : Prop where
  taken : ∀ i, i < k → m.workerArray i = childPid (fork i)
  free : ∀ i, k ≤ i → i < n → m.workerArray i = 0
  idle : ∀ i, i < n → m.workerBusy i = 0
  unused : ∀ i, i < n → m.workerCounter i = 0

theorem childPid_ne_zero (pid : Option Pid) : childPid pid ≠ 0 := by
  cases pid with
  | none => decide
  | some pid =>
    have hpos : 0 < (pid : Int) := pid.2
    change (pid : Int) ≠ 0
    omega

theorem registered_init (n : Nat) (m : THPSharedMem) :
    Registered n 0 fork (initSharedMem n m) := by
  refine ⟨?_, ?_, ?_, ?_⟩
  · intro i hi
    exact absurd hi (Nat.not_lt_zero i)
  · intro i _ hi
    exact if_pos hi
  · intro i hi
    exact if_pos hi
  · intro i hi
    exact if_pos hi

/-- The next outcome goes to the next slot. -/
theorem register_step (h : Registered n k fork m) (hk : k < n) :
    ∃ m', register n m (childPid (fork k)) = .ok m' ∧ Registered n (k + 1) fork m' := by
  have hfind : ((List.range n).find? fun i => m.workerArray i = 0) = some k := by
    rw [List.find?_range_eq_some]
    refine ⟨?_, List.mem_range.2 hk, ?_⟩
    · simpa using h.free k (Nat.le_refl k) hk
    · intro j hj
      simpa [h.taken j hj] using childPid_ne_zero (fork j)
  unfold register
  rw [hfind]
  refine ⟨_, rfl, ?_, ?_, h.idle, h.unused⟩
  · intro i hi
    change Function.update m.workerArray k _ i = _
    by_cases hik : i = k
    · rw [hik, Function.update_self]
    · rw [Function.update_of_ne hik]
      exact h.taken i (by omega)
  · intro i hle hi
    change Function.update m.workerArray k _ i = 0
    rw [Function.update_of_ne (by omega)]
    exact h.free i (by omega) hi

/-- **`do_prefork` registers every outcome**, in the order of the calls. -/
theorem doPrefork_registered (nPrefork : Nat) (fork : Nat → Option Pid) (m : THPSharedMem) :
    ∃ m', doPrefork nPrefork fork m = .ok m' ∧
      Registered (slots nPrefork) (slots nPrefork) fork m' := by
  have hloop : ∀ k, k ≤ slots nPrefork → ∃ m', (List.range k).foldlM
      (fun m k => register (slots nPrefork) m (childPid (fork k)))
      (initSharedMem (slots nPrefork) m) = .ok m' ∧ Registered (slots nPrefork) k fork m' := by
    intro k hk
    induction k with
    | zero => exact ⟨_, rfl, registered_init _ m⟩
    | succ k ih =>
      obtain ⟨m₁, hm₁, hreg⟩ := ih (by omega)
      obtain ⟨m₂, hm₂, hreg'⟩ := register_step hreg (by omega)
      refine ⟨m₂, ?_, hreg'⟩
      rw [List.range_succ, List.foldlM_append, hm₁]
      simp only [List.foldlM_cons, List.foldlM_nil, bind, Except.bind, hm₂]
      rfl
  exact hloop _ (Nat.le_refl _)

end Register

/-! ## The slots that are scanned -/

/-- `pid` is a worker that has been created. -/
def Created (nPrefork : Nat) (fork : Nat → Option Pid) (pid : Int) : Prop :=
  ∃ k, k < slots nPrefork ∧ ∃ p, fork k = some p ∧ pid = p

/-- `thread_pool_loop` and `do_prefork` agree on the slots: those that are scanned are those of the
workers that have been created; whatever the rest of the shared memory holds, the slot that is
selected has the pid of one of them, and one is selected when one of them is idle. -/
structure Agrees (nPrefork : Nat) (fork : Nat → Option Pid) (m : THPSharedMem) : Prop where
  scanned : ∀ i, i < nPrefork ↔
    i < slots nPrefork ∧ Created nPrefork fork (m.workerArray i)
  selected : ∀ m' server i pid m'', m'.workerArray = m.workerArray →
    selectWorker nPrefork server m' = some (i, pid, m'') → Created nPrefork fork pid
  dispatched : ∀ m' server i, m'.workerArray = m.workerArray → i < slots nPrefork →
    Created nPrefork fork (m.workerArray i) → m'.workerBusy i = 0 →
      (selectWorker nPrefork server m').isSome

section Agrees

variable {nPrefork : Nat} {fork : Nat → Option Pid} {m : THPSharedMem}

theorem created_iff (h : Registered (slots nPrefork) (slots nPrefork) fork m) {i : Nat}
    (hi : i < slots nPrefork) :
    Created nPrefork fork (m.workerArray i) ↔ (fork i).isSome := by
  rw [h.taken i hi]
  constructor
  · rintro ⟨k, -, p, -, heq⟩
    have hpos : 0 < (p : Int) := p.2
    cases hf : fork i with
    | none =>
      rw [hf] at heq
      change -1 = (p : Int) at heq
      omega
    | some q => rfl
  · intro hsome
    obtain ⟨p, hp⟩ := Option.isSome_iff_exists.1 hsome
    exact ⟨i, hi, p, hp, by rw [hp]; rfl⟩

/-- What is scanned is what has been registered for a worker: then the rest follows. -/
theorem Agrees.of_scanned (h : ∀ i, i < nPrefork ↔
    i < slots nPrefork ∧ Created nPrefork fork (m.workerArray i)) : Agrees nPrefork fork m := by
  refine ⟨h, ?_, ?_⟩
  · intro m' server i pid m'' harray hsel
    obtain ⟨hi, -, hpid, -⟩ := selectWorker_some hsel
    rw [hpid, harray]
    exact ((h i).1 hi).2
  · intro m' server i harray hi hcreated hidle
    refine Option.isSome_iff_ne_none.2 fun hnone => ?_
    exact selectWorker_none.1 hnone i ((h i).2 ⟨hi, hcreated⟩) hidle

theorem agrees_iff (hreg : Registered (slots nPrefork) (slots nPrefork) fork m) :
    Agrees nPrefork fork m ↔ (1 ≤ nPrefork ∧ ∀ k, k < nPrefork → (fork k).isSome) ∨
      (nPrefork = 0 ∧ fork 0 = none) := by
  rcases Nat.eq_zero_or_pos nPrefork with rfl | hpos
  · constructor
    · intro h
      right
      refine ⟨rfl, ?_⟩
      have h0 : ¬ (fork 0).isSome := fun hsome => Nat.not_lt_zero 0
        ((h.scanned 0).2 ⟨Nat.zero_lt_one, (created_iff hreg Nat.zero_lt_one).2 hsome⟩)
      simpa using h0
    · rintro (⟨hpos, -⟩ | ⟨-, hnone⟩)
      · omega
      · apply Agrees.of_scanned
        intro i
        refine ⟨fun hi => absurd hi (Nat.not_lt_zero i), ?_⟩
        rintro ⟨hi, hcreated⟩
        obtain rfl : i = 0 := Nat.lt_one_iff.1 hi
        rw [created_iff hreg hi, hnone] at hcreated
        cases hcreated
  · have hslots : slots nPrefork = nPrefork := if_neg (by omega)
    constructor
    · intro h
      left
      refine ⟨hpos, ?_⟩
      intro k hk
      obtain ⟨hlt, hcreated⟩ := (h.scanned k).1 hk
      exact (created_iff hreg hlt).1 hcreated
    · rintro (⟨-, hall⟩ | ⟨h0, -⟩)
      · apply Agrees.of_scanned
        intro i
        constructor
        · intro hi
          have hi' : i < slots nPrefork := by omega
          exact ⟨hi', (created_iff hreg hi').2 (hall i hi)⟩
        · rintro ⟨hi, -⟩
          omega
      · omega

end Agrees

/-- **The slots that are scanned are those of the workers**, and a worker is found when one is idle,
exactly when `pre_fork` is at least one and every `fork` succeeds, or `pre_fork` is zero and the
only `fork` fails. -/
theorem prefork_agrees_iff (nPrefork : Nat) (fork : Nat → Option Pid) (m : THPSharedMem) :
    ∃ m', doPrefork nPrefork fork m = .ok m' ∧ (Agrees nPrefork fork m' ↔
      (1 ≤ nPrefork ∧ ∀ k, k < nPrefork → (fork k).isSome) ∨
        (nPrefork = 0 ∧ fork 0 = none)) := by
  obtain ⟨m', hm', hreg⟩ := doPrefork_registered nPrefork fork m
  exact ⟨m', hm', agrees_iff hreg⟩

/-- The pids 71 and 72. -/
def twoPids (w : Fin 2) : Pid := ⟨(w.val : Int) + 71, by omega⟩

def blankMem : THPSharedMem :=
  ⟨fun _ => 0, fun _ => 0, fun _ => 0, fun _ => ⟨0, 0, 0, 0⟩⟩

/-- The only worker of a system without prefork is never scanned. -/
theorem worker_unscanned : ¬∀ nPrefork fork m m', doPrefork nPrefork fork m = .ok m' →
    Agrees nPrefork fork m' := by
  intro h
  obtain ⟨m', hm', hreg⟩ := doPrefork_registered 0 (fun _ => some ⟨7, by decide⟩) blankMem
  rcases (agrees_iff hreg).1 (h 0 _ _ m' hm') with ⟨hpos, -⟩ | ⟨-, hnone⟩
  · omega
  · cases hnone

end Heimdall.Pool
