import Heimdall.Config.ConfigFile
import Heimdall.Config.ServerFile
import Heimdall.Scheduler.ServerPool
import Heimdall.Utils.Log

/-!
# From the files to the scheduler (`main.c`, `scheduler.c`)

What `main` does before it forks: it reads its configuration, opens the files of the log, and asks
for the scheduler, which reads the server file that the configuration names, lists the servers and
puts them into the buffer. Nothing asks whether a setting is there before it is used, and a server
file that cannot be opened is not noticed (`getServerConfig` is NULL).

On a file of short lines the start comes to a scheduler exactly if the settings that it uses are
there and are what it takes them for (`Startable`); and then the servers of the file are handed out
in turn (`started`). Memory suffices, and the server file has as many names as addresses
(`ServerFile`): with more names `parse_line` writes behind its array.

With the algorithm 1 the start ends with the thread of the updater. What that thread needs itself,
an `update_time` that is set and is a number among it, is not part of the start.
-/

namespace Heimdall.Scheduling.Start

open Keyed
open Heimdall.Configuration (Cell Config ConfigLine ServerFile ServerLine Field settings keys
  fileText linesText values countServer newServerConfig newConfig)
open Linked (Blocks getReadyServers)
open RoundRobin (Circular)

def awarenessLevelLow : Int := 0

def awarenessLevelHigh : Int := 1

def configFile : List Byte := bytes "../code/config/heimdall_config.conf"

def tagServerConfig : String := "CONFIG_SERVER_PARSER"

/-- What the start meets: the files that can be opened, by their paths; what the arrays on the
stack, the nodes and the structure of the buffer happen to contain; the blocks of `init_scheduler`;
and whether the thread that it may start can be started. -/
structure World where
  file : List Byte → Option (List Byte)
  configString : List Cell
  countString : List Cell
  lineString : List Cell
  node : Linked.Addr → Linked.ServerNode
  circular : Circular
  blocks : Blocks
  thread : Bool

/-! ## The strings of the server file -/

/-- Where `line_get` puts the name of the entry `i`. Every value has a block of its own. -/
def nameAt (i : Nat) : CharPtr := 2 * i + 1

def ipAt (i : Nat) : CharPtr := 2 * i + 2

/-- The string behind a pointer. Behind that of an entry which has not been assigned there is
none. -/
def text (config : Configuration.ServerConfig) (p : CharPtr) : Option (List Byte) :=
  if p % 2 = 1 then (config.serversNames[p / 2]?).join else (config.serversIp[p / 2 - 1]?).join

/-- The server configuration as `init_scheduler` reads it. -/
def pointers (config : Configuration.ServerConfig) : Exec Linked.ServerConfig :=
  if fits : FitsInt config.totalServer then .ok ⟨nameAt, ipAt, config.totalServer, fits⟩
  else .error .overflow

/-! ## The functions -/

/-- `new_log`: a file of the log that is not opened is tolerated. -/
def newLog (config : Config) : Exec Unit := do
  let _ ← Log.member config .logFileReq
  let _ ← Log.member config .logFileResp
  .ok ()

/-- `get_server_config`, when nothing has called it before. Its other messages are printed like the
first one. -/
def getServerConfig (w : World) (config : Config) (reports : Nat) :
    Exec (Option Configuration.ServerConfig) := do
  let path ← Log.member config .serverConfig
  let total ← countServer w.countString (w.file path)
  let _ ← Log.i config reports tagServerConfig (bytes ("Server total: " ++ toString total))
  newServerConfig w.countString w.lineString (w.file path)

/-- What the start leaves behind it. -/
structure Up where
  serverConfig : Configuration.ServerConfig
  scheduler : Linked.Scheduler
  updater : Bool

/-- `init_scheduler` with the thread. -/
def initAware (w : World) (config : Config) (reports fuel : Nat) (awarenessLevel : Int) :
    Exec (Option Up) := do
  match ← getServerConfig w config reports with
  | none => .error .nullDeref
  | some serverConfig => do
    let linked ← pointers serverConfig
    match ← Linked.initScheduler fuel w.blocks w.node w.circular linked with
    | none => .ok none
    | some scheduler =>
      if awarenessLevel = awarenessLevelHigh then
        if w.thread then .ok (some ⟨serverConfig, scheduler, true⟩) else .ok none
      else .ok (some ⟨serverConfig, scheduler, false⟩)

/-- `get_scheduler`, when nothing has called it before; `none` is `exit`. -/
def getScheduler (w : World) (config : Config) (reports fuel : Nat) : Exec (Option Up) := do
  let s ← Log.member config .algorithmSelection
  let (throwable, awareness) := strToInt s
  if throwable.isAnError then do
    let _ ← Log.t config reports throwable
    .ok none
  else if awareness = awarenessLevelLow ∨ awareness = awarenessLevelHigh then
    initAware w config reports fuel awareness
  else .ok none

/-- `main` up to `get_scheduler`; `none` is `exit`. -/
def start (w : World) (reports fuel : Nat) : Exec (Option Up) := do
  match ← newConfig w.configString (w.file configFile) with
  | none => .ok none
  | some config => do
    newLog config
    getScheduler w config reports fuel

/-! ## What is asked of the files -/

/-- What the last line with its key says. -/
def setting (ls : List ConfigLine) (f : Field) : Option (List Byte) := last f.key (settings ls)

/-- A setting that is a number. -/
def NumberSetting (ls : List ConfigLine) (f : Field) (p : Int → Prop) : Prop :=
  ∃ s, setting ls f = some s ∧ IsInt s ∧ p (strToInt s).2

/-- The server file, if the configuration names one and it can be opened. -/
def serverFile (w : World) (ls : List ConfigLine) : Option (List Byte) :=
  (setting ls .serverConfig).bind w.file

/-- What the start needs, beside memory: no unknown key, the two files of the log, the level and
the switch of the log as numbers, 0 or 1 for the algorithm and with 1 a thread, and a server file
with a server. -/
structure Startable (w : World) (ls : List ConfigLine) (f : ServerFile) : Prop where
  known : ∀ e ∈ settings ls, e.1 ∈ keys
  logFileReq : setting ls .logFileReq ≠ none
  logFileResp : setting ls .logFileResp ≠ none
  logLevel : NumberSetting ls .logLevel fun _ => True
  printEnable : NumberSetting ls .printEnable fun _ => True
  algorithmSelection : NumberSetting ls .algorithmSelection fun v =>
    v = awarenessLevelLow ∨ v = awarenessLevelHigh ∧ w.thread = true
  opened : serverFile w ls ≠ none
  servers : values .ip f.lines ≠ []

/-- In any sequence of calls of `get_ready_server` those that find memory return, in turn, the names
and the addresses in the order of the file. -/
def HandsOut (f : ServerFile) (up : Up) : Prop :=
  ∀ mallocs, ∃ returned c', getReadyServers mallocs up.scheduler.circular = .ok (returned, c') ∧
    returned.map Option.isSome = mallocs ∧
    returned.reduceOption.map (fun s => (text up.serverConfig s.address, text up.serverConfig s.ip))
      = (turns (values .ip f.lines).length (mallocs.count true)).map
          fun i => ((values .name f.lines)[i]?, (values .ip f.lines)[i]?)

/-! ## The configuration -/

section Settings

variable {ls : List ConfigLine} {config : Config} {f : Field} {s : List Byte}

/-- What `new_config` returns for a file of short lines. -/
theorem newConfig_short (hshort : ∀ l ∈ ls, l.Short) (string : List Cell) :
    newConfig string (some (fileText true ls)) =
      .ok (if ∀ e ∈ settings ls, e.1 ∈ keys then some (setting ls) else none) := by
  obtain ⟨config, hrun, hnone, hconfig⟩ :=
    Configuration.newConfig_readable string true ls (Configuration.readable_short hshort)
  rw [Configuration.entries_short hshort] at hconfig
  have hknown : config = none ↔ ¬ ∀ e ∈ settings ls, e.1 ∈ keys := by
    rw [hnone, ← Configuration.entries_short hshort, ← Configuration.stops_iff]
    push Not
    rfl
  rw [hrun]
  cases config with
  | none => rw [if_neg (hknown.1 rfl)]
  | some config =>
    have hall : ∀ e ∈ settings ls, e.1 ∈ keys := by
      by_contra hunknown
      exact Option.some_ne_none _ (hknown.2 hunknown)
    have heq : config = setting ls := funext (hconfig config rfl)
    rw [if_pos hall, heq]

theorem member_ok_iff : Log.member config f = .ok s ↔ config f = some s := by
  unfold Log.member
  cases config f with
  | none => exact iff_of_false nofun nofun
  | some v => rw [Except.ok.injEq, Option.some.injEq]

theorem newLog_ok {u : Unit} (h : newLog config = .ok u) :
    config .logFileReq ≠ none ∧ config .logFileResp ≠ none := by
  obtain ⟨req, hreq, h⟩ := Exec.bind_ok h
  obtain ⟨resp, hresp, -⟩ := Exec.bind_ok h
  rw [member_ok_iff] at hreq hresp
  rw [hreq, hresp]
  exact ⟨Option.some_ne_none _, Option.some_ne_none _⟩

theorem newLog_of_assigned (hreq : config .logFileReq ≠ none)
    (hresp : config .logFileResp ≠ none) : newLog config = .ok () := by
  obtain ⟨req, hreq⟩ := Option.ne_none_iff_exists'.1 hreq
  obtain ⟨resp, hresp⟩ := Option.ne_none_iff_exists'.1 hresp
  unfold newLog
  rw [member_ok_iff.2 hreq, Exec.ok_bind, member_ok_iff.2 hresp, Exec.ok_bind]

end Settings

/-! ## The servers -/

section Servers

variable {w : World} {config : Config} {f : ServerFile} {sc : Configuration.ServerConfig}
  {path : List Byte} {reports fuel : Nat} {level : Int} {up : Up}

/-- What `new_server_config` makes of the file. -/
def ofFile (f : ServerFile) : Configuration.ServerConfig where
  serversNames := (values .name f.lines).map some
  serversIp := (values .ip f.lines).map some
  totalServer := (values .ip f.lines).length

theorem text_nameAt (sc : Configuration.ServerConfig) (i : Nat) :
    text sc (nameAt i) = (sc.serversNames[i]?).join := by
  have hodd : (2 * i + 1) % 2 = 1 := by omega
  have hhalf : (2 * i + 1) / 2 = i := by omega
  unfold text nameAt
  rw [if_pos hodd, hhalf]

theorem text_ipAt (sc : Configuration.ServerConfig) (i : Nat) :
    text sc (ipAt i) = (sc.serversIp[i]?).join := by
  have heven : (2 * i + 2) % 2 ≠ 1 := by omega
  have hhalf : (2 * i + 2) / 2 - 1 = i := by omega
  unfold text ipAt
  rw [if_neg heven, hhalf]

/-- The strings behind the pointers of an entry. -/
theorem text_ofFile (f : ServerFile) (i : Nat) :
    (text (ofFile f) (nameAt i), text (ofFile f) (ipAt i)) =
      ((values .name f.lines)[i]?, (values .ip f.lines)[i]?) := by
  have hjoin (vs : List (List Byte)) : ((vs.map some)[i]?).join = vs[i]? := by
    rw [List.getElem?_map]
    cases vs[i]? <;> rfl
  rw [text_nameAt, text_ipAt]
  exact Prod.ext (hjoin _) (hjoin _)

theorem getServerConfig_inv (h : getServerConfig w config reports = .ok (some sc)) :
    ∃ path, config .serverConfig = some path ∧ Log.Numeric config .logLevel ∧
      Log.Numeric config .printEnable ∧
      newServerConfig w.countString w.lineString (w.file path) = .ok (some sc) := by
  obtain ⟨path, hpath, h⟩ := Exec.bind_ok h
  obtain ⟨total, -, h⟩ := Exec.bind_ok h
  obtain ⟨printed, hlog, h⟩ := Exec.bind_ok h
  obtain ⟨hlevel, hprint⟩ := Log.numeric_of_log hlog
  exact ⟨path, member_ok_iff.1 hpath, hlevel, hprint, h⟩

theorem getServerConfig_file (hpath : config .serverConfig = some path)
    (hlevel : Log.Numeric config .logLevel) (hprint : Log.Numeric config .printEnable)
    (hfile : w.file path = some (linesText f.lines)) (haligned : ∀ l ∈ f.lines, l.Aligned)
    (hmax : ((values .ip f.lines).length : Int) ≤ intMax) :
    getServerConfig w config (reports + 1) = .ok (some (ofFile f)) := by
  obtain ⟨hcount, -⟩ := Configuration.passes_of_aligned w.countString w.lineString f haligned hmax
  unfold getServerConfig Log.i
  rw [member_ok_iff.2 hpath, Exec.ok_bind, hfile, hcount, Exec.ok_bind,
    Log.log_numeric hlevel hprint, Exec.ok_bind]
  exact Configuration.newServerConfig_lines w.countString w.lineString f haligned hmax

theorem initAware_inv (h : initAware w config reports fuel level = .ok (some up)) :
    getServerConfig w config reports = .ok (some up.serverConfig) ∧
      (∃ linked, pointers up.serverConfig = .ok linked ∧
        Linked.initScheduler fuel w.blocks w.node w.circular linked = .ok (some up.scheduler)) ∧
      up.updater = decide (level = awarenessLevelHigh) ∧
      (level = awarenessLevelHigh → w.thread = true) := by
  obtain ⟨r, hserver, h⟩ := Exec.bind_ok h
  cases r with
  | none => cases h
  | some serverConfig =>
    obtain ⟨linked, hlinked, h⟩ := Exec.bind_ok h
    obtain ⟨r, hinit, h⟩ := Exec.bind_ok h
    cases r with
    | none => cases h
    | some scheduler =>
      dsimp only at h
      by_cases hhigh : level = awarenessLevelHigh
      · rw [if_pos hhigh] at h
        by_cases hthread : w.thread = true
        · rw [if_pos hthread] at h
          cases h
          exact ⟨hserver, ⟨linked, hlinked, hinit⟩, (decide_eq_true hhigh).symm, fun _ => hthread⟩
        · rw [if_neg hthread] at h
          cases h
      · rw [if_neg hhigh] at h
        cases h
        exact ⟨hserver, ⟨linked, hlinked, hinit⟩, (decide_eq_false hhigh).symm,
          fun h => absurd h hhigh⟩

/-- Without servers there is nothing to put into the buffer. -/
theorem initScheduler_empty {linked : Linked.ServerConfig} (h : linked.totalServer = 0)
    (fuel : Nat) (blocks : Blocks) (node : Linked.Addr → Linked.ServerNode) (mem : Circular)
    (s : Linked.Scheduler) :
    Linked.initScheduler fuel blocks node mem linked ≠ .ok (some s) := by
  unfold Linked.initScheduler
  rw [h]
  cases blocks.scheduler with
  | false => nofun
  | true =>
    change ((Linked.resetServers fuel blocks.toMallocs _ ⟨Linked.initServerPool, node⟩ 0 >>= _)
      ≠ _)
    unfold Linked.resetServers
    cases blocks.servers <;> nofun

/-- The buffer of a scheduler for the servers of a file. -/
theorem handsOut_of_init {linked : Linked.ServerConfig} (hserver : up.serverConfig = ofFile f)
    (hlinked : pointers up.serverConfig = .ok linked) (hne : values .ip f.lines ≠ [])
    (hinit : Linked.initScheduler fuel w.blocks w.node w.circular linked =
      .ok (some up.scheduler)) : HandsOut f up := by
  have hpos : 0 < (values .ip f.lines).length := List.length_pos_iff.2 hne
  rw [hserver] at hlinked
  unfold pointers at hlinked
  split at hlinked
  · cases hlinked
    have hn : 1 ≤ (ofFile f).totalServer := Int.ofNat_le.2 hpos
    intro mallocs
    have hturn := @Linked.inTurn_publish ⟨nameAt, ipAt, (ofFile f).totalServer, ‹_›⟩ hn w.circular
      mallocs
    rw [← Linked.circular_of_init hn hinit] at hturn
    obtain ⟨returned, c', hrun, hsome, hmap, -⟩ := hturn
    refine ⟨returned, c', hrun, hsome, ?_⟩
    have hcomp : (fun s : RoundRobin.Server =>
        (text up.serverConfig s.address, text up.serverConfig s.ip)) =
        (fun h => (text (ofFile f) h.1, text (ofFile f) h.2)) ∘ Linked.host := by
      rw [hserver]
      rfl
    rw [hcomp, ← List.map_map, hmap, List.map_map]
    exact List.map_congr_left fun i _ => text_ofFile f i
  · cases hlinked

end Servers

/-! ## The whole start -/

section Whole

variable {w : World} {ls : List ConfigLine} {f : ServerFile} {reports fuel : Nat} {up : Up}

/-- What a start that comes to a scheduler has met on its way. -/
theorem start_inv (hshort : ∀ l ∈ ls, l.Short)
    (hfile : w.file configFile = some (fileText true ls))
    (h : start w reports fuel = .ok (some up)) :
    (∀ e ∈ settings ls, e.1 ∈ keys) ∧ setting ls .logFileReq ≠ none ∧
      setting ls .logFileResp ≠ none ∧ ∃ s, setting ls .algorithmSelection = some s ∧ IsInt s ∧
        ((strToInt s).2 = awarenessLevelLow ∨ (strToInt s).2 = awarenessLevelHigh) ∧
        initAware w (setting ls) reports fuel (strToInt s).2 = .ok (some up) := by
  unfold start at h
  rw [hfile, newConfig_short hshort, Exec.ok_bind] at h
  by_cases hknown : ∀ e ∈ settings ls, e.1 ∈ keys
  · rw [if_pos hknown] at h
    obtain ⟨u, hlog, h⟩ := Exec.bind_ok h
    obtain ⟨hreq, hresp⟩ := newLog_ok hlog
    obtain ⟨s, hs, h⟩ := Exec.bind_ok h
    dsimp only at h
    split at h
    · obtain ⟨printed, -, h⟩ := Exec.bind_ok h
      cases h
    · next hint =>
      split at h
      · next hlevel =>
        exact ⟨hknown, hreq, hresp, s, member_ok_iff.1 hs, by simpa [IsInt] using hint, hlevel, h⟩
      · cases h
  · rw [if_neg hknown] at h
    cases h

theorem numberSetting_of_numeric {g : Field} (h : Log.Numeric (setting ls) g) :
    NumberSetting ls g fun _ => True := by
  obtain ⟨s, hs, hint⟩ := h
  exact ⟨s, hs, hint, trivial⟩

theorem numeric_of_numberSetting {g : Field} {p : Int → Prop} (h : NumberSetting ls g p) :
    Log.Numeric (setting ls) g := by
  obtain ⟨s, hs, hint, -⟩ := h
  exact ⟨s, hs, hint⟩

/-- **A start that comes to a scheduler** found what it needs, and the servers are handed out. -/
theorem startable_of_start (hshort : ∀ l ∈ ls, l.Short)
    (hfile : w.file configFile = some (fileText true ls))
    (hserver : ∀ t, serverFile w ls = some t → t = linesText f.lines)
    (haligned : ∀ l ∈ f.lines, l.Aligned) (hmax : ((values .ip f.lines).length : Int) ≤ intMax)
    (h : start w reports fuel = .ok (some up)) :
    Startable w ls f ∧ HandsOut f up ∧
      (up.updater = true ↔ ∃ s, setting ls .algorithmSelection = some s ∧
        (strToInt s).2 = awarenessLevelHigh) := by
  obtain ⟨hknown, hreq, hresp, s, hs, hint, hlevel, haware⟩ := start_inv hshort hfile h
  obtain ⟨hget, ⟨linked, hlinked, hinit⟩, hupdater, hthread⟩ := initAware_inv haware
  obtain ⟨path, hpath, hnumeric, hprint, hnew⟩ := getServerConfig_inv hget
  have hopened : serverFile w ls = w.file path := by
    unfold serverFile
    rw [hpath]
    rfl
  cases htext : w.file path with
  | none =>
    rw [htext] at hnew
    cases hnew
  | some t =>
    cases hserver t (hopened.trans htext)
    rw [htext, Configuration.newServerConfig_lines _ _ f haligned hmax] at hnew
    have hof : up.serverConfig = ofFile f := (Option.some.inj (Except.ok.inj hnew)).symm
    have hne : values .ip f.lines ≠ [] := by
      intro hnil
      rw [hof] at hlinked
      unfold pointers at hlinked
      split at hlinked
      · cases hlinked
        refine initScheduler_empty ?_ _ _ _ _ _ hinit
        exact congrArg (fun vs => (List.length vs : Int)) hnil
      · cases hlinked
    refine ⟨⟨hknown, hreq, hresp, numberSetting_of_numeric hnumeric,
      numberSetting_of_numeric hprint, ⟨s, hs, hint, ?_⟩, ?_, hne⟩,
      handsOut_of_init hof hlinked hne hinit, ?_⟩
    · exact hlevel.imp_right fun hhigh => ⟨hhigh, hthread hhigh⟩
    · rw [hopened, htext]
      exact Option.some_ne_none _
    · rw [hupdater, decide_eq_true_iff]
      constructor
      · exact fun hhigh => ⟨s, hs, hhigh⟩
      · rintro ⟨s', hs', hhigh⟩
        cases hs.symm.trans hs'
        exact hhigh

/-- With memory, what it needs is enough. -/
theorem start_of_startable (hmem : ∀ linked, w.blocks.Complete linked)
    (hshort : ∀ l ∈ ls, l.Short) (hfile : w.file configFile = some (fileText true ls))
    (hserver : ∀ t, serverFile w ls = some t → t = linesText f.lines)
    (haligned : ∀ l ∈ f.lines, l.Aligned) (hmax : ((values .ip f.lines).length : Int) ≤ intMax)
    (h : Startable w ls f) : ∃ reports fuel up, start w reports fuel = .ok (some up) := by
  obtain ⟨s, hs, hint, hlevel⟩ := h.algorithmSelection
  obtain ⟨t, ht⟩ := Option.ne_none_iff_exists'.1 h.opened
  obtain ⟨path, hpath, htext⟩ := Option.bind_eq_some_iff.1 ht
  cases hserver t ht
  have hpos : 0 < (values .ip f.lines).length := List.length_pos_iff.2 h.servers
  have hfits : FitsInt (ofFile f).totalServer :=
    ⟨Int.le_trans (by decide) (Int.natCast_nonneg _), hmax⟩
  let linked : Linked.ServerConfig := ⟨nameAt, ipAt, (ofFile f).totalServer, hfits⟩
  have hlinked : pointers (ofFile f) = .ok linked := dif_pos hfits
  have hn : 1 ≤ linked.totalServer := Int.ofNat_le.2 hpos
  obtain ⟨fuel, scheduler, hinit⟩ :=
    Linked.initScheduler_complete hn (hmem linked) w.node w.circular
  have hget : getServerConfig w (setting ls) 1 = .ok (some (ofFile f)) :=
    getServerConfig_file hpath (numeric_of_numberSetting h.logLevel)
      (numeric_of_numberSetting h.printEnable) htext haligned hmax
  have haware : ∃ up, initAware w (setting ls) 1 fuel (strToInt s).2 = .ok (some up) := by
    unfold initAware
    rw [hget, Exec.ok_bind]
    dsimp only
    rw [hlinked, Exec.ok_bind, hinit, Exec.ok_bind]
    dsimp only
    rcases hlevel with hlow | ⟨hhigh, hthread⟩
    · have hne : (strToInt s).2 ≠ awarenessLevelHigh := by
        rw [hlow]
        decide
      rw [if_neg hne]
      exact ⟨_, rfl⟩
    · rw [if_pos hhigh, if_pos hthread]
      exact ⟨_, rfl⟩
  obtain ⟨up, haware⟩ := haware
  refine ⟨1, fuel, up, ?_⟩
  have herror : ¬ (strToInt s).1.isAnError = true := by
    rw [show (strToInt s).1.isAnError = false from hint]
    decide
  unfold start
  rw [hfile, newConfig_short hshort, if_pos h.known, Exec.ok_bind]
  dsimp only
  rw [newLog_of_assigned h.logFileReq h.logFileResp, Exec.ok_bind]
  unfold getScheduler
  rw [member_ok_iff.2 hs, Exec.ok_bind]
  dsimp only
  rw [if_neg herror, if_pos (hlevel.imp_right And.left), haware]

/-- **From the files to the servers in turn.** On a file of short lines, with memory, and with a
server file of aligned lines if there is one, the start comes to a scheduler exactly if it finds
what it needs. Then there is an updater exactly if the algorithm is 1, and until the first reset the
names and addresses of the server file are handed out in turn. -/
theorem started (w : World) (ls : List ConfigLine) (f : ServerFile)
    (hmem : ∀ linked, w.blocks.Complete linked) (hshort : ∀ l ∈ ls, l.Short)
    (hfile : w.file configFile = some (fileText true ls))
    (hserver : ∀ t, serverFile w ls = some t → t = linesText f.lines)
    (haligned : ∀ l ∈ f.lines, l.Aligned) (hmax : ((values .ip f.lines).length : Int) ≤ intMax) :
    ((∃ reports fuel up, start w reports fuel = .ok (some up)) ↔ Startable w ls f) ∧
      ∀ reports fuel up, start w reports fuel = .ok (some up) → HandsOut f up ∧
        (up.updater = true ↔ ∃ s, setting ls .algorithmSelection = some s ∧
          (strToInt s).2 = awarenessLevelHigh) := by
  refine ⟨⟨?_, ?_⟩, ?_⟩
  · rintro ⟨reports, fuel, up, h⟩
    exact (startable_of_start hshort hfile hserver haligned hmax h).1
  · exact start_of_startable hmem hshort hfile hserver haligned hmax
  · intro reports fuel up h
    exact (startable_of_start hshort hfile hserver haligned hmax h).2

/-- Settings for the start, and one that it does not use. -/
def shortConfig : List ConfigLine :=
  [.comment (bytes " STATELESSRR 0 STATEFUL 1") (by decide),
    .setting ⟨bytes "algorithm_selection", bytes "0", by decide, by decide, by decide, by decide⟩,
    .setting ⟨bytes "print_enable", bytes "1", by decide, by decide, by decide, by decide⟩,
    .blank,
    .setting ⟨bytes "log_level", bytes "3", by decide, by decide, by decide, by decide⟩,
    .setting ⟨bytes "log_file_req", bytes "req.log", by decide, by decide, by decide, by decide⟩,
    .setting ⟨bytes "log_file_resp", bytes "resp.log", by decide, by decide, by decide, by decide⟩,
    .setting ⟨bytes "server_config", bytes "servers", by decide, by decide, by decide, by decide⟩,
    .setting ⟨bytes "backlog", bytes "10", by decide, by decide, by decide, by decide⟩]

def twoServers : ServerFile where
  lines :=
    [⟨.comment (bytes " Server 1"), by decide, by decide⟩,
      ⟨.entry .name (bytes "bifrost"), by decide, by decide⟩,
      ⟨.entry .ip (bytes "192.168.50.3"), by decide, by decide⟩,
      ⟨.entry .ip (bytes "192.168.50.4"), by decide, by decide⟩,
      ⟨.entry .name (bytes "loki"), by decide, by decide⟩]
  balanced := rfl

def shortWorld : World where
  file := fun path =>
    if path = configFile then some (fileText true shortConfig)
    else if path = bytes "servers" then some (linesText twoServers.lines) else none
  configString := []
  countString := []
  lineString := []
  node := fun _ => ⟨⟨0, 0, 0, 0⟩, none⟩
  circular := RoundRobin.blank
  blocks := Linked.plenty
  thread := false

theorem shortConfig_short : ∀ l ∈ shortConfig, l.Short := by
  unfold Configuration.ConfigLine.Short
  decide

theorem shortConfig_startable : Startable shortWorld shortConfig twoServers where
  known := by decide
  logFileReq := by decide
  logFileResp := by decide
  logLevel := ⟨bytes "3", by decide, by decide, trivial⟩
  printEnable := ⟨bytes "1", by decide, by decide, trivial⟩
  algorithmSelection := ⟨bytes "0", by decide, by decide, by decide⟩
  opened := by decide
  servers := by decide

theorem started_twoServers : ∃ reports fuel up,
    start shortWorld reports fuel = .ok (some up) ∧ HandsOut twoServers up := by
  have hfile : shortWorld.file configFile = some (fileText true shortConfig) := rfl
  have hserver : serverFile shortWorld shortConfig = some (linesText twoServers.lines) := by decide
  have haligned : ∀ l ∈ twoServers.lines, l.Aligned :=
    (Configuration.sum_pairs_iff twoServers.lines).1 (by decide)
  obtain ⟨hiff, hhands⟩ := started shortWorld shortConfig twoServers
    (fun _ => ⟨rfl, rfl, fun _ _ => Option.some_ne_none _⟩) shortConfig_short hfile
    (fun t ht => (Option.some.inj (hserver.symm.trans ht)).symm) haligned (by decide)
  obtain ⟨reports, fuel, up, h⟩ := hiff.2 shortConfig_startable
  exact ⟨reports, fuel, up, h, (hhands reports fuel up h).1⟩

end Whole

end Heimdall.Scheduling.Start
