import Heimdall.Pool.Dispatch
import Heimdall.Pool.Prefork
import Heimdall.Utils.Helper

/-!
# The names of the sockets (`unix_socket.c`, `message_controller.c`)

In `Heimdall.Pool.Dispatch` every worker has a socket path of its own. In the code the paths are
names in one file system: `sockets_path`, an underscore and the pid. Parent and worker build the
name and from it the address, which has room for 106 bytes; with a longer name `receive_fd` fails,
and the worker leaves. Binding a name that is free is taken to succeed: the directory of the sockets
is there, and can be written to.

Where all names are short, the file system does what the paths of the workers do
(`sockets_refine`). A worker with a longer name is never handed a connection, and the parent does
not get past the first one that it picks that worker for (`long_name`).
-/

namespace Heimdall.Pool.Sockets

open Heimdall.Pool (Path Pc Worker Dispatcher State Event)

/-- `"%s_%ld"` -/
def pathname (socketsPath : List Byte) (pid : Pid) : List Byte :=
  socketsPath ++ bytes "_" ++ decimal pid.1.toNat

/-- The size of `sun_path`. -/
def sizeofSunPath : Nat := 108

/-- `unix_build_address` on a path, of which it makes `sun_path`. -/
def unixBuildAddress (path : List Byte) : Except Throwable (List Byte) :=
  if sizeofSunPath - 1 ≤ path.length then
    .error (.create statusError .errno "unix_build_address")
  else if path.length < sizeofSunPath then
    .ok (path ++ List.replicate (sizeofSunPath - path.length) 0)
  else .error (.create statusError .errno "unix_build_address")

/-- The name of the file that an address leads to. -/
def fileName (address : List Byte) : List Byte := address.takeWhile (· != 0)

/-- What a name leads to: nothing, a file that an earlier process has left, or the socket that a
worker has made in one of its rounds. -/
inductive File (n : Nat)
  | absent
  | stale
  | socket (w : Fin n) (round : Nat)
  deriving DecidableEq

/-- A worker, but for its path. `listens r` says whether the socket of the round `r` listens, and
`gone` whether the process has left. -/
structure Process where
  pc : Pc
  round : Nat
  queue : Nat → List Nat
  listens : Nat → Bool
  sent : List Nat
  received : List Nat
  gone : Bool

structure Net (n : Nat) where
  process : Fin n → Process
  file : List Byte → File n
  busy : Fin n → Bool
  message : Nat → Option Nat
  nextConn : Nat
  dispatcher : Dispatcher n

/-- The next step of the worker `w`, whose name is `path`, unless it is blocked. `start_worker`
leaves when `receive_fd` fails. -/
def Process.step {n : Nat} (w : Fin n) (path : List Byte) (message : Nat → Option Nat)
    (x : Process) (file : List Byte → File n) : Option (Process × (List Byte → File n)) :=
  if x.gone then none
  else
    match x.pc with
    | .remove => some ({ x with pc := .bind }, Function.update file path .absent)
    | .bind =>
      match unixBuildAddress path with
      | .error _ => some ({ x with gone := true }, file)
      | .ok address =>
        if file (fileName address) = .absent then
          some ({ x with round := x.round + 1, pc := .listen },
            Function.update file (fileName address) (.socket w (x.round + 1)))
        else some ({ x with gone := true }, file)
    | .listen =>
      some ({ x with listens := Function.update x.listens x.round true, pc := .accept }, file)
    | .accept =>
      match x.queue x.round with
      | [] => none
      | conn :: rest =>
        some ({ x with queue := Function.update x.queue x.round rest, pc := .recvmsg conn }, file)
    | .recvmsg conn =>
      match message conn with
      | none => none
      | some fd => some ({ x with received := x.received ++ [fd], pc := .serve fd }, file)
    | .serve _ => some ({ x with pc := .unlink }, file)
    | .unlink => some ({ x with pc := .release }, Function.update file path .absent)
    | .release => some ({ x with pc := .remove }, file)

/-- `connect` on a path meets the socket of the round `r` of the worker `v`, and it listens. -/
def Net.Listens {n : Nat} (s : Net n) (path : List Byte) (v : Fin n) (r : Nat) : Prop :=
  ∃ address, unixBuildAddress path = .ok address ∧ s.file (fileName address) = .socket v r ∧
    (s.process v).listens r = true ∧ (s.process v).gone = false

section System

variable {n : Nat} (name : Fin n → List Byte)

/-- The steps of `Heimdall.Pool.Step`, with the names. -/
inductive Step : Net n → Event n → Net n → Prop
  | fetch {s : Net n} {fd : Nat} (hd : s.dispatcher = .fetch) :
      Step s (.fetch fd) { s with dispatcher := .pick fd }
  | pick {s : Net n} {fd : Nat} {w : Fin n} (hd : s.dispatcher = .pick fd)
      (hb : s.busy w = false) :
      Step s (.pick w) { s with
        busy := Function.update s.busy w true
        dispatcher := .connect fd w }
  | refused {s : Net n} {fd : Nat} {w : Fin n} (hd : s.dispatcher = .connect fd w)
      (hp : ∀ v r, ¬ s.Listens (name w) v r) : Step s .refused s
  | connect {s : Net n} {fd r : Nat} {w v : Fin n} (hd : s.dispatcher = .connect fd w)
      (hp : s.Listens (name w) v r) :
      Step s .connect { s with
        process := Function.update s.process v { s.process v with
          queue := Function.update (s.process v).queue r
            ((s.process v).queue r ++ [s.nextConn]) }
        nextConn := s.nextConn + 1
        dispatcher := .sendmsg fd w s.nextConn }
  | sendmsg {s : Net n} {fd conn : Nat} {w : Fin n} (hd : s.dispatcher = .sendmsg fd w conn) :
      Step s .sendmsg { s with
        process := Function.update s.process w
          { s.process w with sent := (s.process w).sent ++ [fd] }
        message := Function.update s.message conn (some fd)
        dispatcher := .close fd }
  | notSent {s : Net n} {fd conn : Nat} {w : Fin n} (hd : s.dispatcher = .sendmsg fd w conn) :
      Step s .notSent { s with dispatcher := .connect fd w }
  | close {s : Net n} {fd : Nat} (hd : s.dispatcher = .close fd) :
      Step s .close { s with dispatcher := .fetch }
  | worker {s : Net n} {w : Fin n} {x : Process} {file : List Byte → File n}
      (hx : (s.process w).step w (name w) s.message s.file = some (x, file)) :
      Step s (.worker w) { s with
        process := Function.update s.process w x
        file := file
        busy := if (s.process w).pc = .release then Function.update s.busy w false else s.busy }

/-- The initial states are those of `Heimdall.Pool.pool`. Under the names there is nothing, or what
an earlier process has left. -/
def sockets : System (Net n) (Event n) where
  init s := (∀ w, s.busy w = false ∧ (s.file (name w) = .absent ∨ s.file (name w) = .stale) ∧
      (s.process w).pc = .remove ∧ (∀ r, (s.process w).queue r = []) ∧
      (∀ r, (s.process w).listens r = false) ∧ (s.process w).sent = [] ∧
      (s.process w).received = [] ∧ (s.process w).gone = false) ∧
    (∀ c, s.message c = none) ∧ s.dispatcher = .fetch
  step := Step name

end System

/-! ## The paths of the workers -/

section View

variable {n : Nat} (name : Fin n → List Byte)

/-- What a name leads to, as the path of its worker. -/
def pathAt (x : Process) (f : File n) : Path :=
  match f with
  | .absent => .absent
  | .stale => .stale
  | .socket _ r => if x.listens r then .listening r else .bound r

def Process.worker (x : Process) (path : Path) : Worker :=
  ⟨x.pc, x.round, path, x.queue, x.sent, x.received⟩

/-- The worker `w` of the state, with the path in the place of the name. -/
def Net.worker (s : Net n) (w : Fin n) : Worker :=
  (s.process w).worker (pathAt (s.process w) (s.file (name w)))

def Net.view (s : Net n) : State n :=
  ⟨s.worker name, s.busy, s.message, s.nextConn, s.dispatcher⟩

end View

section Names

variable {path : List Byte}

theorem unixBuildAddress_short (h : path.length ≤ 106) (h0 : 0 ∉ path) :
    ∃ address, unixBuildAddress path = .ok address ∧ fileName address = path := by
  refine ⟨path ++ List.replicate (sizeofSunPath - path.length) 0, ?_, ?_⟩
  · unfold unixBuildAddress
    rw [if_neg (by simp only [sizeofSunPath]; omega), if_pos (by simp only [sizeofSunPath]; omega)]
  · have hsize : sizeofSunPath - path.length = (107 - path.length) + 1 := by
      simp only [sizeofSunPath]
      omega
    rw [fileName, hsize, List.replicate_succ]
    exact takeWhile_before h0 _

theorem unixBuildAddress_long (h : 106 < path.length) :
    unixBuildAddress path = .error (.create statusError .errno "unix_build_address") := by
  unfold unixBuildAddress
  exact if_pos (by simp only [sizeofSunPath]; omega)

theorem pathname_plain {socketsPath : List Byte} (h : 0 ∉ socketsPath) (pid : Pid) :
    0 ∉ pathname socketsPath pid := by
  unfold pathname
  intro hmem
  rcases List.mem_append.1 hmem with hmem | hmem
  · rcases List.mem_append.1 hmem with hmem | hmem
    · exact h hmem
    · revert hmem
      decide
  · have hrange := decimal_range hmem
    simp at hrange

theorem pathname_injective (socketsPath : List Byte) :
    Function.Injective (pathname socketsPath) := by
  intro p q h
  have hnat : p.1.toNat = q.1.toNat := decimal_injective (List.append_cancel_left h)
  have hp := p.2
  have hq := q.2
  apply Subtype.ext
  omega

/-- The names are different, and have room in an address. -/
structure Apart {n : Nat} (name : Fin n → List Byte) : Prop where
  injective : Function.Injective name
  short : ∀ w, (name w).length ≤ 106
  plain : ∀ w, 0 ∉ name w

end Names

/-! ## What a worker does to the names -/

section Workers

variable {n : Nat} {w : Fin n} {path : List Byte} {message : Nat → Option Nat} {x y : Process}
  {file file' : List Byte → File n}

/-- A worker whose name leads to its own sockets only, none of them from a round to come. -/
structure Sound (w : Fin n) (path : List Byte) (x : Process) (file : List Byte → File n) :
    Prop where
  stays : x.gone = false
  own : ∀ v r, file path = .socket v r → v = w
  silent : ∀ r, x.round < r → x.listens r = false

theorem pathAt_absent {f : File n} (h : pathAt x f = .absent) : f = .absent := by
  cases f with
  | absent => rfl
  | stale => cases h
  | socket v r =>
    unfold pathAt at h
    dsimp only at h
    split at h <;> cases h

theorem pathAt_bound {f : File n} {r : Nat} (h : pathAt x f = .bound r) : ∃ v, f = .socket v r := by
  cases f with
  | absent | stale => cases h
  | socket v r' =>
    unfold pathAt at h
    dsimp only at h
    split at h
    · cases h
    · cases h
      exact ⟨v, rfl⟩

theorem pathAt_listening {f : File n} {r : Nat} :
    pathAt x f = .listening r ↔ ∃ v, f = .socket v r ∧ x.listens r = true := by
  cases f with
  | absent | stale => simp [pathAt]
  | socket v r' =>
    unfold pathAt
    dsimp only
    split
    · next hl =>
      constructor
      · intro h
        cases h
        exact ⟨v, rfl, hl⟩
      · rintro ⟨_, h, -⟩
        cases h
        rfl
    · next hl =>
      constructor
      · intro h
        cases h
      · rintro ⟨_, h, hr⟩
        cases h
        exact absurd hr hl

theorem Process.step_bind {address : List Byte} (hpc : x.pc = .bind) (hgone : x.gone = false)
    (hok : unixBuildAddress path = .ok address) (hfile : file (fileName address) = .absent) :
    x.step w path message file =
      some ({ x with round := x.round + 1, pc := .listen },
        Function.update file (fileName address) (.socket w (x.round + 1))) := by
  simp [Process.step, hpc, hgone, hok, hfile]

/-- What is kept of its own by a worker that does not leave: a socket is bound only in a new
round. -/
theorem Process.step_sound (hshort : path.length ≤ 106) (hplain : 0 ∉ path)
    (hx : Sound w path x file) (hp : (x.worker (pathAt x (file path))).PathOk)
    (h : x.step w path message file = some (y, file')) :
    Sound w path y file' ∧ ∀ p, p ≠ path → file' p = file p := by
  obtain ⟨address, hok, haddress⟩ := unixBuildAddress_short hshort hplain
  unfold Process.step at h
  rw [hx.stays] at h
  simp only [Bool.false_eq_true, if_false] at h
  cases hpc : x.pc with
  | remove | unlink =>
    simp only [hpc, Option.some.injEq, Prod.mk.injEq] at h
    obtain ⟨rfl, rfl⟩ := h
    refine ⟨⟨rfl, fun v r hf => ?_, hx.silent⟩, fun p hp => Function.update_of_ne hp ..⟩
    rw [Function.update_self] at hf
    cases hf
  | bind =>
    have habsent : file path = .absent := by
      unfold Worker.PathOk Process.worker at hp
      simp only [hpc] at hp
      exact pathAt_absent hp
    simp only [hpc, hok, haddress, habsent, if_true, Option.some.injEq, Prod.mk.injEq] at h
    obtain ⟨rfl, rfl⟩ := h
    refine ⟨⟨rfl, fun v r hf => ?_, fun r hr => hx.silent r ?_⟩,
      fun p hp => Function.update_of_ne hp ..⟩
    · rw [Function.update_self] at hf
      cases hf
      rfl
    · dsimp only at hr
      omega
  | listen =>
    simp only [hpc, Option.some.injEq, Prod.mk.injEq] at h
    obtain ⟨rfl, rfl⟩ := h
    refine ⟨⟨rfl, hx.own, fun r hr => ?_⟩, fun _ _ => rfl⟩
    exact (Function.update_of_ne (Nat.ne_of_gt hr) ..).trans (hx.silent r hr)
  | accept =>
    simp only [hpc] at h
    cases hq : x.queue x.round with
    | nil =>
      simp only [hq] at h
      cases h
    | cons conn rest =>
      simp only [hq, Option.some.injEq, Prod.mk.injEq] at h
      obtain ⟨rfl, rfl⟩ := h
      exact ⟨⟨rfl, hx.own, hx.silent⟩, fun _ _ => rfl⟩
  | recvmsg conn =>
    simp only [hpc] at h
    cases hm : message conn with
    | none =>
      simp only [hm] at h
      cases h
    | some fd =>
      simp only [hm, Option.some.injEq, Prod.mk.injEq] at h
      obtain ⟨rfl, rfl⟩ := h
      exact ⟨⟨rfl, hx.own, hx.silent⟩, fun _ _ => rfl⟩
  | serve | release =>
    simp only [hpc, Option.some.injEq, Prod.mk.injEq] at h
    obtain ⟨rfl, rfl⟩ := h
    exact ⟨⟨rfl, hx.own, hx.silent⟩, fun _ _ => rfl⟩

/-- A step with the name is the step with the path. -/
theorem Process.step_worker (hshort : path.length ≤ 106) (hplain : 0 ∉ path)
    (hx : Sound w path x file) (hp : (x.worker (pathAt x (file path))).PathOk) :
    (x.step w path message file).map (fun y => y.1.worker (pathAt y.1 (y.2 path))) =
      (x.worker (pathAt x (file path))).step message := by
  obtain ⟨address, hok, haddress⟩ := unixBuildAddress_short hshort hplain
  unfold Process.step Worker.step
  rw [hx.stays]
  simp only [Bool.false_eq_true, if_false]
  unfold Worker.PathOk at hp
  cases hpc : x.pc with
  | remove | unlink =>
    simp only [Process.worker, hpc, Option.map_some, Function.update_self]
    rfl
  | bind =>
    simp only [Process.worker, hpc] at hp
    have habsent : file path = .absent := pathAt_absent hp
    have hnew : x.listens (x.round + 1) = false := hx.silent _ (Nat.lt_succ_self _)
    simp [Process.worker, hpc, hok, haddress, habsent, pathAt, hnew]
  | listen =>
    simp only [Process.worker, hpc] at hp
    obtain ⟨v, hv⟩ := pathAt_bound hp
    simp [Process.worker, hpc, pathAt, hv]
  | accept =>
    cases hq : x.queue x.round with
    | nil => simp [Process.worker, hpc, hq]
    | cons conn rest =>
      simp only [Process.worker, hpc, hq, Option.map_some]
      rfl
  | recvmsg conn =>
    cases hm : message conn with
    | none => simp [Process.worker, hpc, hm]
    | some fd =>
      simp only [Process.worker, hpc, hm, Option.map_some]
      rfl
  | serve | release =>
    simp only [Process.worker, hpc, Option.map_some]
    rfl

end Workers

/-! ## The file system does what the paths do -/

section Refinement

variable {n : Nat} {name : Fin n → List Byte} {s t : Net n} {e : Event n}

/-- Every worker with its name. -/
def Net.Sound (name : Fin n → List Byte) (s : Net n) : Prop :=
  ∀ w, Sockets.Sound w (name w) (s.process w) s.file

theorem view_init (h : (sockets name).init s) :
    s.Sound name ∧ (pool n).init (s.view name) := by
  obtain ⟨hw, hm, hd⟩ := h
  refine ⟨fun w => ?_, fun w => ?_, hm, hd⟩
  · obtain ⟨-, hf, -, -, hl, -, -, hg⟩ := hw w
    refine ⟨hg, fun v r hs => ?_, fun r _ => hl r⟩
    rw [hs] at hf
    rcases hf with hf | hf <;> cases hf
  · obtain ⟨hb, hf, hpc, hq, -, hs, hr, -⟩ := hw w
    refine ⟨hb, ?_, hpc, hq, hs, hr⟩
    rcases hf with hf | hf
    · left
      change pathAt (s.process w) (s.file (name w)) = .absent
      rw [hf]
      rfl
    · right
      change pathAt (s.process w) (s.file (name w)) = .stale
      rw [hf]
      rfl

/-- `connect` meets the socket that the path of the worker leads to. -/
theorem listens_iff (hA : Apart name) (hs : s.Sound name) {w v : Fin n} {r : Nat} :
    s.Listens (name w) v r ↔ v = w ∧ (s.worker name w).path = .listening r := by
  obtain ⟨address, hok, haddress⟩ := unixBuildAddress_short (hA.short w) (hA.plain w)
  change _ ↔ v = w ∧ pathAt (s.process w) (s.file (name w)) = .listening r
  rw [pathAt_listening]
  constructor
  · rintro ⟨address', hok', hf, hl, -⟩
    obtain rfl : address = address' := by simpa [hok] using hok'
    rw [haddress] at hf
    obtain rfl := (hs w).own v r hf
    exact ⟨rfl, v, hf, hl⟩
  · rintro ⟨rfl, v', hf, hl⟩
    obtain rfl := (hs v).own v' r hf
    exact ⟨address, hok, haddress ▸ hf, hl, (hs v').stays⟩

/-- Where only one worker changes, only its path can change. -/
theorem view_update {w : Fin n} {x : Process} {file : List Byte → File n}
    (hfile : ∀ v, v ≠ w → file (name v) = s.file (name v)) :
    (fun v => (Function.update s.process w x v).worker
        (pathAt (Function.update s.process w x v) (file (name v)))) =
      Function.update (s.worker name) w (x.worker (pathAt x (file (name w)))) := by
  funext v
  by_cases hv : v = w
  · subst hv
    rw [Function.update_self, Function.update_self]
  · rw [Function.update_of_ne hv, Function.update_of_ne hv, hfile v hv]
    rfl

theorem worker_step (hA : Apart name) (hs : s.Sound name) (hI : Invariant True (s.view name))
    {w : Fin n} :
    ((s.process w).step w (name w) s.message s.file).map
        (fun y => y.1.worker (pathAt y.1 (y.2 (name w)))) = (s.worker name w).step s.message :=
  Process.step_worker (hA.short w) (hA.plain w) (hs w) (hI.path w)

/-- What the step of a worker leaves of the other names. -/
theorem worker_sound (hA : Apart name) (hs : s.Sound name) (hI : Invariant True (s.view name))
    {w : Fin n} {x : Process} {file : List Byte → File n}
    (hx : (s.process w).step w (name w) s.message s.file = some (x, file)) :
    Sockets.Sound w (name w) x file ∧ ∀ v, v ≠ w → file (name v) = s.file (name v) := by
  obtain ⟨hsound, hother⟩ :=
    Process.step_sound (hA.short w) (hA.plain w) (hs w) (hI.path w) hx
  exact ⟨hsound, fun v hv => hother (name v) fun h => hv (hA.injective h)⟩

/-- Every step is one of the paths. -/
theorem view_step (hA : Apart name) (hs : s.Sound name) (hI : Invariant True (s.view name))
    (h : Step name s e t) : Pool.Step (s.view name) e (t.view name) := by
  cases h with
  | fetch hd => exact .fetch hd
  | pick hd hb => exact .pick hd hb
  | refused hd hp => exact .refused hd fun r hr => hp _ r ((listens_iff hA hs).2 ⟨rfl, hr⟩)
  | connect hd hp =>
    obtain ⟨rfl, hr⟩ := (listens_iff hA hs).1 hp
    have hview := Pool.Step.connect (s := s.view name) hd hr
    unfold Net.view Net.worker
    rw [view_update fun _ _ => rfl]
    exact hview
  | sendmsg hd =>
    have hview := Pool.Step.sendmsg (s := s.view name) hd
    unfold Net.view Net.worker
    rw [view_update fun _ _ => rfl]
    exact hview
  | notSent hd => exact .notSent hd
  | close hd => exact .close hd
  | @worker w x file hx =>
    have hstep : (s.worker name w).step s.message =
        some (x.worker (pathAt x (file (name w)))) := by
      rw [← worker_step hA hs hI, hx]
      rfl
    have hview := Pool.Step.worker (s := s.view name) hstep
    unfold Net.view Net.worker
    rw [view_update (worker_sound hA hs hI hx).2]
    exact hview

/-- Every step of the paths is one of the names. -/
theorem step_of_view (hA : Apart name) (hs : s.Sound name) (hI : Invariant True (s.view name))
    {u : State n} (h : Pool.Step (s.view name) e u) : ∃ t, Step name s e t ∧ t.view name = u := by
  cases h with
  | fetch hd => exact ⟨_, .fetch hd, rfl⟩
  | pick hd hb => exact ⟨_, .pick hd hb, rfl⟩
  | @refused fd w hd hp =>
    refine ⟨s, .refused hd fun v r hl => ?_, rfl⟩
    exact hp r ((listens_iff hA hs).1 hl).2
  | connect hd hp =>
    refine ⟨_, .connect hd ((listens_iff hA hs).2 ⟨rfl, hp⟩), ?_⟩
    unfold Net.view Net.worker
    rw [view_update fun _ _ => rfl]
    rfl
  | sendmsg hd =>
    refine ⟨_, .sendmsg hd, ?_⟩
    unfold Net.view Net.worker
    rw [view_update fun _ _ => rfl]
    rfl
  | notSent hd => exact ⟨_, .notSent hd, rfl⟩
  | close hd => exact ⟨_, .close hd, rfl⟩
  | @worker w y hy =>
    obtain ⟨⟨x, file⟩, hx, rfl⟩ :=
      Option.map_eq_some_iff.1 ((worker_step hA hs hI (w := w)).trans hy)
    refine ⟨_, .worker hx, ?_⟩
    unfold Net.view Net.worker
    rw [view_update (worker_sound hA hs hI hx).2]
    rfl

theorem step_sound (hA : Apart name) (hs : s.Sound name) (hI : Invariant True (s.view name))
    (h : Step name s e t) : t.Sound name := by
  cases h with
  | fetch hd | pick hd hb | refused hd hp | notSent hd | close hd => exact hs
  | @connect fd r w v hd hp =>
    intro u
    by_cases hu : u = v
    · subst hu
      refine ⟨?_, (hs u).own, ?_⟩
      · simpa using (hs u).stays
      · simpa using (hs u).silent
    · simpa [hu] using hs u
  | @sendmsg fd conn w hd =>
    intro u
    by_cases hu : u = w
    · subst hu
      refine ⟨?_, (hs u).own, ?_⟩
      · simpa using (hs u).stays
      · simpa using (hs u).silent
    · simpa [hu] using hs u
  | @worker w x file hx =>
    obtain ⟨hsound, hother⟩ := worker_sound hA hs hI hx
    intro u
    by_cases hu : u = w
    · subst hu
      simpa using hsound
    · refine ⟨?_, fun v r hf => ?_, ?_⟩
      · simpa [hu] using (hs u).stays
      · exact (hs u).own v r (hother u hu ▸ hf)
      · simpa [hu] using (hs u).silent

end Refinement

/-- The names of the workers with these pids. -/
def names {n : Nat} (socketsPath : List Byte) (pid : Fin n → Pid) (w : Fin n) : List Byte :=
  pathname socketsPath (pid w)

/-- **Sockets with names do what the workers with a path each do.** Where no two workers have the
same pid and no name has more than 106 bytes, whatever the number of workers: from the initial
states the two systems have the same runs. -/
theorem sockets_refine {n : Nat} {socketsPath : List Byte} {pid : Fin n → Pid}
    (hnul : 0 ∉ socketsPath) (hpid : Function.Injective pid)
    (hshort : ∀ w, (names socketsPath pid w).length ≤ 106) {s₀ : Net n}
    (h₀ : (sockets (names socketsPath pid)).init s₀) (es : List (Event n)) (t : State n) :
    (pool n).Run (s₀.view (names socketsPath pid)) es t ↔
      ∃ s, (sockets (names socketsPath pid)).Run s₀ es s ∧ s.view (names socketsPath pid) = t := by
  have hA : Apart (names socketsPath pid) :=
    ⟨(pathname_injective socketsPath).comp hpid, hshort, fun w => pathname_plain hnul (pid w)⟩
  obtain ⟨hsound, hview⟩ := view_init h₀
  apply System.Run.bisim (Net.view (names socketsPath pid))
    (fun s => s.Sound (names socketsPath pid) ∧ Invariant True (s.view (names socketsPath pid)))
  · rintro s e s' ⟨hs, hI⟩ h
    exact ⟨step_sound hA hs hI h, invariant_step hI (view_step hA hs hI h) fun _ => trivial⟩
  · rintro s e s' ⟨hs, hI⟩ h
    exact view_step hA hs hI h
  · rintro s e u ⟨hs, hI⟩ h
    exact step_of_view hA hs hI h
  · exact ⟨hsound, invariant_init hview⟩

/-- No worker has taken a step, and there are no files. -/
def fresh (n : Nat) : Net n where
  process _ :=
    { pc := .remove
      round := 0
      queue := fun _ => []
      listens := fun _ => false
      sent := []
      received := []
      gone := false }
  file _ := .absent
  busy _ := false
  message _ := none
  nextConn := 0
  dispatcher := .fetch

theorem fresh_init {n : Nat} (name : Fin n → List Byte) : (sockets name).init (fresh n) :=
  ⟨fun _ => ⟨rfl, .inl rfl, rfl, fun _ => rfl, fun _ => rfl, rfl, rfl, rfl⟩, fun _ => rfl, rfl⟩

/-- Two workers, one of which is tried before it listens. -/
theorem sockets_refine_two : ∃ s, (sockets (names (bytes "/tmp/heimdall") twoPids)).Run (fresh 2)
      [.fetch 7, .pick 1, .refused, .worker 1, .worker 1, .refused, .worker 1, .connect, .sendmsg,
        .worker 1, .worker 1] s ∧
    (s.process 1).received = [7] := by
  have hrun : (pool 2).Run ((fresh 2).view (names (bytes "/tmp/heimdall") twoPids))
      [.fetch 7, .pick 1, .refused, .worker 1, .worker 1, .refused, .worker 1, .connect, .sendmsg,
        .worker 1, .worker 1] _ :=
    .cons (.fetch rfl) <| .cons (.pick rfl rfl) <|
      .cons (.refused rfl fun _ h => Path.noConfusion h) <| .cons (.worker rfl) <|
      .cons (.worker rfl) <|
      .cons (.refused rfl fun _ h => Path.noConfusion h) <| .cons (.worker rfl) <|
      .cons (.connect rfl rfl) <| .cons (.sendmsg rfl) <| .cons (.worker rfl) <|
      .cons (.worker rfl) <| .nil _
  have hnul : (0 : Byte) ∉ bytes "/tmp/heimdall" := by decide
  have hpid : Function.Injective twoPids := by
    unfold Function.Injective
    decide
  have hshort : ∀ w, (names (bytes "/tmp/heimdall") twoPids w).length ≤ 106 := by decide
  obtain ⟨s, hs, hview⟩ := (sockets_refine hnul hpid hshort (fresh_init _) _ _).1 hrun
  exact ⟨s, hs, congrArg (fun u : State 2 => (u.worker 1).received) hview⟩

/-! ## Names that have no room -/

section Long

variable {n : Nat} {name : Fin n → List Byte} {w : Fin n} {s t : Net n} {e : Event n}

/-- A worker whose name has no room leaves before it listens. -/
theorem step_long (h : 106 < (name w).length) (ht : Step name s e t)
    (hpc : ((s.process w).pc = .remove ∨ (s.process w).pc = .bind) ∧ (s.process w).received = []) :
    ((t.process w).pc = .remove ∨ (t.process w).pc = .bind) ∧ (t.process w).received = [] := by
  cases ht with
  | fetch | pick | refused | notSent | close => exact hpc
  | @connect fd r w' v hd hp =>
    by_cases hv : w = v
    · subst hv
      simpa using hpc
    · simpa [hv] using hpc
  | @sendmsg fd conn v hd =>
    by_cases hv : w = v
    · subst hv
      simpa using hpc
    · simpa [hv] using hpc
  | @worker v x file hx =>
    by_cases hv : w = v
    · subst hv
      obtain ⟨hpc, hr⟩ := hpc
      simp only [Function.update_self]
      unfold Process.step at hx
      split at hx
      · cases hx
      · rcases hpc with hpc | hpc
        · simp only [hpc, Option.some.injEq, Prod.mk.injEq] at hx
          obtain ⟨rfl, -⟩ := hx
          exact ⟨.inr rfl, hr⟩
        · simp only [hpc, unixBuildAddress_long h, Option.some.injEq, Prod.mk.injEq] at hx
          obtain ⟨rfl, -⟩ := hx
          exact ⟨.inr rfl, hr⟩
    · simpa [hv] using hpc

theorem not_listens_long (h : 106 < (name w).length) (v : Fin n) (r : Nat) :
    ¬ s.Listens (name w) v r := by
  rintro ⟨address, hok, -⟩
  rw [unixBuildAddress_long h] at hok
  cases hok

/-- The dispatcher does not get past such a worker. -/
theorem step_stuck (h : 106 < (name w).length) (ht : Step name s e t) {fd : Nat}
    (hd : s.dispatcher = .connect fd w) : t.dispatcher = .connect fd w := by
  cases ht with
  | refused | worker => exact hd
  | fetch hd' | pick hd' | sendmsg hd' | notSent hd' | close hd' =>
    rw [hd] at hd'
    cases hd'
  | connect hd' hp =>
    rw [hd] at hd'
    cases hd'
    exact absurd hp (not_listens_long h _ _)

/-- A worker that can go on does so. -/
theorem reachable_worker (hs : (sockets name).Reachable s) {x : Process}
    {file : List Byte → File n}
    (hx : (s.process w).step w (name w) s.message s.file = some (x, file))
    (hpc : (s.process w).pc ≠ .release) :
    ∃ t, (sockets name).Reachable t ∧ t.process w = x ∧ t.file = file ∧ t.busy = s.busy ∧
      t.message = s.message ∧ t.dispatcher = s.dispatcher :=
  ⟨_, hs.step (.worker hx), Function.update_self .., rfl, if_neg hpc, rfl, rfl⟩

/-- A worker whose name has room comes to listen. -/
theorem listens_of_short (h : (name w).length ≤ 106) :
    ∃ s, (sockets name).Reachable s ∧ s.Listens (name w) w 1 ∧ (s.process w).pc = .accept ∧
      (s.process w).round = 1 ∧ (s.process w).queue 1 = [] ∧ (s.process w).received = [] ∧
      (s.process w).gone = false ∧ s.busy w = false ∧ s.dispatcher = .fetch := by
  obtain ⟨address, hok⟩ : ∃ address, unixBuildAddress (name w) = .ok address := by
    unfold unixBuildAddress
    rw [if_neg (by simp only [sizeofSunPath]; omega), if_pos (by simp only [sizeofSunPath]; omega)]
    exact ⟨_, rfl⟩
  obtain ⟨s₁, h₁, hp₁, hf₁, hb₁, -, hd₁⟩ :=
    reachable_worker (w := w) (.of_init (fresh_init name)) rfl Pc.noConfusion
  obtain ⟨s₂, h₂, hp₂, hf₂, hb₂, -, hd₂⟩ := reachable_worker (w := w) h₁
    (by rw [hp₁, hf₁]; exact Process.step_bind rfl rfl hok (by simp [fresh]))
    (by rw [hp₁]; exact Pc.noConfusion)
  obtain ⟨s₃, h₃, hp₃, hf₃, hb₃, -, hd₃⟩ := reachable_worker (w := w) h₂
    (by rw [hp₂]; rfl) (by rw [hp₂]; exact Pc.noConfusion)
  refine ⟨s₃, h₃, ⟨address, hok, ?_, ?_, ?_⟩, ?_⟩
  · rw [hf₃, hf₂]
    exact Function.update_self (fileName address) _ _
  · rw [hp₃]
    simp [fresh]
  · rw [hp₃]
    rfl
  · rw [hp₃, hb₃, hb₂, hb₁, hd₃, hd₂, hd₁]
    exact ⟨rfl, rfl, rfl, rfl, rfl, rfl, rfl⟩

/-- The descriptor 7 is sent to a worker that listens. -/
theorem reachable_sent (hs : (sockets name).Reachable s) {r : Nat} (hl : s.Listens (name w) w r)
    (hb : s.busy w = false) (hd : s.dispatcher = .fetch) :
    ∃ t, (sockets name).Reachable t ∧ t.message s.nextConn = some 7 ∧
      t.process w = { s.process w with
        queue := Function.update (s.process w).queue r ((s.process w).queue r ++ [s.nextConn])
        sent := (s.process w).sent ++ [7] } := by
  have hfetch : (sockets name).Reachable { s with dispatcher := .pick 7 } := hs.step (.fetch hd)
  have hpick := hfetch.step (.pick rfl hb)
  have hconnect := hpick.step (.connect rfl hl)
  have hsendmsg := hconnect.step (.sendmsg rfl)
  exact ⟨_, hsendmsg, Function.update_self .., by simp⟩

/-- A worker whose name has room is handed the first connection in some run. -/
theorem handed_of_short (h : (name w).length ≤ 106) :
    ∃ s, (sockets name).Reachable s ∧ (s.process w).received ≠ [] := by
  obtain ⟨s, hs, hl, hpc, hround, hq, hr, hg, hb, hd⟩ := listens_of_short h
  obtain ⟨t, ht, hm, hp⟩ := reachable_sent hs hl hb hd
  have haccept : (t.process w).step w (name w) t.message t.file =
      some ({ t.process w with
        queue := Function.update (t.process w).queue 1 []
        pc := .recvmsg s.nextConn }, t.file) := by
    simp [Process.step, hp, hpc, hround, hq, hg]
  obtain ⟨u, hu, hpu, -, -, hmu, -⟩ := reachable_worker ht haccept (by simp [hp, hpc])
  have hrecvmsg : (u.process w).step w (name w) u.message u.file =
      some ({ u.process w with
        received := (u.process w).received ++ [7]
        pc := .serve 7 }, u.file) := by
    simp [Process.step, hpu, hmu, hm, hp, hg]
  obtain ⟨v, hv, hpv, -⟩ := reachable_worker hu hrecvmsg (by simp [hpu])
  refine ⟨v, hv, ?_⟩
  rw [hpv]
  simp

end Long

/-- **Whether a worker is handed connections depends on the length of its name.** With more than
106 bytes it receives nothing in any run; and once the dispatcher has picked it, it tries to reach
it for ever, and hands over no other connection. With at most 106 it receives a descriptor in some
run. -/
theorem long_name {n : Nat} (name : Fin n → List Byte) (w : Fin n) :
    (106 < (name w).length → ∀ s, (sockets name).Reachable s →
      (s.process w).received = [] ∧ ∀ fd es t, s.dispatcher = .connect fd w →
        (sockets name).Run s es t → t.dispatcher = .connect fd w) ∧
      ((name w).length ≤ 106 → ∃ s, (sockets name).Reachable s ∧ (s.process w).received ≠ []) := by
  refine ⟨fun h s hs => ⟨?_, ?_⟩, handed_of_short⟩
  · refine (hs.invariant (fun s => ((s.process w).pc = .remove ∨ (s.process w).pc = .bind) ∧
      (s.process w).received = []) ?_ ?_).2
    · rintro s ⟨hw, -⟩
      obtain ⟨-, -, hpc, -, -, -, hr, -⟩ := hw w
      exact ⟨.inl hpc, hr⟩
    · intro s e t hI ht
      exact step_long h ht hI
  · intro fd es t hd hrun
    exact hrun.invariant (fun s => s.dispatcher = .connect fd w)
      (fun _ _ _ hI ht => step_stuck h ht hI) hd

end Heimdall.Pool.Sockets
