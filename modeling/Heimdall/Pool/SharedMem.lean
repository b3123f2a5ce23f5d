import Mathlib.Data.List.Range
import Mathlib.Logic.Function.Basic
import Heimdall.RoundRobin.Circular

/-!
# The shared memory of the pool (`types.h`, `thread_pool.c`, `worker.c`)

The parent and the workers share four arrays, with a slot for each worker: its pid, whether it is
busy, how often it has been used, and the server of its connection. Three sections of the program
run with the semaphore held: the parent picks an idle slot (`selectWorker`), a worker looks up its
own slot (`findSlot`), and a worker marks its slot as idle again (`release`). Each walks over as
many slots as the configuration says.
-/

namespace Heimdall.Pool

open Heimdall.RoundRobin (Server)

structure THPSharedMem where
  workerArray : Nat → Int
  workerBusy : Nat → Int
  workerCounter : Nat → Int
  workerServer : Nat → Server

/-- The two variables of the scan in `thread_pool_loop`. -/
structure Scan where
  min : Int
  position : Int
  deriving DecidableEq, Repr

/-- One round of the scan, at slot `i`. -/
def Scan.visit (m : THPSharedMem) (s : Scan) (i : Nat) : Scan :=
  if m.workerBusy i = 0 then
    let s := if s.min = -1 then ⟨m.workerCounter i, i⟩ else s
    if m.workerCounter i ≤ s.min then ⟨m.workerCounter i, i⟩ else s
  else s

def scan (nPrefork : Nat) (m : THPSharedMem) : Scan :=
  (List.range nPrefork).foldl (Scan.visit m) ⟨-1, -1⟩

/-- What the parent does with the slot that it has found: the slot, the pid in it, and the memory
with the server that `get_server` has returned. -/
def selectWorker (nPrefork : Nat) (server : Server) (m : THPSharedMem) :
    Option (Nat × Int × THPSharedMem) :=
  if (scan nPrefork m).position = -1 then none
  else
    let position := (scan nPrefork m).position.toNat
    some (position, m.workerArray position, { m with
      workerBusy := Function.update m.workerBusy position 1
      workerCounter := Function.update m.workerCounter position (m.workerCounter position + 1)
      workerServer := Function.update m.workerServer position server })

/-- The scan of a worker for its own pid. -/
def findSlot (numberOfWorker : Nat) (pid : Int) (m : THPSharedMem) : Option Nat :=
  (List.range numberOfWorker).find? fun i => m.workerArray i = pid

/-- The end of a job in `start_worker`. -/
def release (numberOfWorker : Nat) (pid : Int) (m : THPSharedMem) : THPSharedMem :=
  match findSlot numberOfWorker pid m with
  | some i => { m with workerBusy := Function.update m.workerBusy i 0 }
  | none => m

section Scan

variable {n k : Nat} {m : THPSharedMem} {s : Scan} {server : Server}

/-- After `k` slots: none of them is idle, or the position is one that is. -/
def Scan.Found (m : THPSharedMem) (k : Nat) (s : Scan) : Prop :=
  s = ⟨-1, -1⟩ ∧ (∀ i, i < k → m.workerBusy i ≠ 0) ∨
    ∃ i : Nat, i < k ∧ s.position = i ∧ m.workerBusy i = 0

theorem Scan.found_visit (h : s.Found m k) : (s.visit m k).Found m (k + 1) := by
  unfold Scan.visit
  by_cases hk : m.workerBusy k = 0
  · rw [if_pos hk]
    right
    rcases h with ⟨rfl, -⟩ | ⟨i, hi, hpos, hidle⟩
    · exact ⟨k, Nat.lt_succ_self k, by simp, hk⟩
    · by_cases hmin : s.min = -1
      · exact ⟨k, Nat.lt_succ_self k, by simp [hmin], hk⟩
      · simp only [hmin, if_false]
        split
        · exact ⟨k, Nat.lt_succ_self k, rfl, hk⟩
        · exact ⟨i, Nat.lt_succ_of_lt hi, hpos, hidle⟩
  · rw [if_neg hk]
    rcases h with ⟨rfl, hbusy⟩ | ⟨i, hi, hpos, hidle⟩
    · refine .inl ⟨rfl, ?_⟩
      intro i hi
      rcases Nat.lt_succ_iff_lt_or_eq.1 hi with hlt | rfl
      · exact hbusy i hlt
      · exact hk
    · exact .inr ⟨i, Nat.lt_succ_of_lt hi, hpos, hidle⟩

theorem scan_found (n : Nat) (m : THPSharedMem) : (scan n m).Found m n := by
  induction n with
  | zero =>
    refine .inl ⟨rfl, ?_⟩
    intro i hi
    exact absurd hi (Nat.not_lt_zero i)
  | succ n ih =>
    unfold scan at ih ⊢
    rw [List.range_succ, List.foldl_append]
    exact Scan.found_visit ih

/-- The position is -1 when no slot is idle. -/
theorem scan_position : (scan n m).position = -1 ↔ ∀ i, i < n → m.workerBusy i ≠ 0 := by
  constructor
  · intro h
    rcases scan_found n m with ⟨-, hbusy⟩ | ⟨i, -, hpos, -⟩
    · exact hbusy
    · omega
  · intro h
    rcases scan_found n m with ⟨heq, -⟩ | ⟨i, hi, -, hidle⟩
    · rw [heq]
    · exact absurd hidle (h i hi)

/-- **What the parent selects** is an idle slot. -/
theorem selectWorker_some {i : Nat} {pid : Int} {m' : THPSharedMem}
    (h : selectWorker n server m = some (i, pid, m')) :
    i < n ∧ m.workerBusy i = 0 ∧ pid = m.workerArray i ∧ m'.workerArray = m.workerArray ∧
      m'.workerBusy = Function.update m.workerBusy i 1 ∧
      m'.workerServer = Function.update m.workerServer i server := by
  unfold selectWorker at h
  split at h
  · cases h
  · rename_i hpos
    cases h
    rcases scan_found n m with ⟨heq, -⟩ | ⟨i, hi, hpos, hidle⟩
    · rw [heq] at hpos
      exact absurd rfl hpos
    · rw [hpos, Int.toNat_natCast]
      exact ⟨hi, hidle, rfl, rfl, rfl, rfl⟩

theorem selectWorker_none :
    selectWorker n server m = none ↔ ∀ i, i < n → m.workerBusy i ≠ 0 := by
  rw [← scan_position]
  unfold selectWorker
  split <;> simp_all

end Scan

section FindSlot

variable {n i : Nat} {pid : Int} {m : THPSharedMem}

/-- A worker finds the slot with its pid, when it is the only one. -/
theorem findSlot_eq (hi : i < n) (hpid : m.workerArray i = pid)
    (hne : ∀ j, j < n → m.workerArray j = pid → j = i) : findSlot n pid m = some i := by
  cases hf : findSlot n pid m with
  | none =>
    have hall := List.find?_eq_none.1 hf i (List.mem_range.2 hi)
    simp [hpid] at hall
  | some j =>
    have hj := List.find?_some hf
    have hlt := List.mem_range.1 (List.mem_of_find?_eq_some hf)
    rw [hne j hlt (by simpa using hj)]

theorem release_eq (h : findSlot n pid m = some i) :
    release n pid m = { m with workerBusy := Function.update m.workerBusy i 0 } := by
  unfold release
  rw [h]

end FindSlot

end Heimdall.Pool
