import Uresourced.AppMonitor.Visit
import Uresourced.Lib.Runs

/-!
`r-game-monitor.c`: boosting the applications that GameMode reports as games.

The unit of a game is computed from its process at every signal, and its boost is
one bit. `Games` records besides which process was registered while it belonged
to which application, which is what the bit is meant to say.
-/

namespace Uresourced

open Runs SharedFlag

namespace RGameMonitor

def boostGameFromPid (appMonitor : RAppMonitor) (pid : Int32) (isRegistered : Bool)
    (cgroups : Cgroups) : RAppMonitor × Option CString :=
  match getUnitCgroupPathFromPid (cgroups.process pid) with
  -- a process that has exited has no cgroup any more
  | none => (appMonitor, none)
  | some appPath =>
      match appMonitor.getAppInfoFromPath appPath cgroups.files with
      | (appMonitor, none) => (appMonitor, none)
      | (appMonitor, some app) =>
          let boosted :=
            if isRegistered then app.boosted.set boostGame else app.boosted.clear boostGame
          (appMonitor.setApp appPath { app with boosted := boosted }, some appPath)

/-- `gamemode_on_signal_received`. The parameters are `none` if they are not of
the type `(io)`, and else the process of the pair. -/
def gamemodeOnSignalReceived (appMonitor : RAppMonitor) (signalName : CString)
    (params : Option Int32) (cgroups : Cgroups) : RAppMonitor × Option CString :=
  let boost (isRegistered : Bool) :=
    match params with
    | none => (appMonitor, none)
    | some pid =>
        if pid = 0 then (appMonitor, none)
        else boostGameFromPid appMonitor pid isRegistered cgroups
  if signalName = "GameRegistered".toList then boost true
  else if signalName = "GameUnregistered".toList then boost false
  else (appMonitor, none)

def signalName (isRegistered : Bool) : CString :=
  if isRegistered then "GameRegistered".toList else "GameUnregistered".toList

def signalOf (signalName : CString) (params : Option Int32) : Option (Int32 × Bool) :=
  match params with
  | none => none
  | some pid =>
      if pid = 0 then none
      else if signalName = "GameRegistered".toList then some (pid, true)
      else if signalName = "GameUnregistered".toList then some (pid, false)
      else none

def appOf (m : RAppMonitor) (pid : Int32) (cgroups : Cgroups) : Option CString :=
  (getUnitCgroupPathFromPid (cgroups.process pid)).filter
    fun path => decide (m.Found path cgroups.files)

def gameVisit (isRegistered : Bool) (cgroups : Cgroups) (path : CString) : Visit where
  path := path
  info := cgroups.files
  write := some (boostGame, isRegistered)
  notify := true

theorem boostGameFromPid_eq (m : RAppMonitor) (pid : Int32) (isRegistered : Bool)
    (cgroups : Cgroups) :
    boostGameFromPid m pid isRegistered cgroups =
      match getUnitCgroupPathFromPid (cgroups.process pid) with
      | none => (m, none)
      | some path => m.visit (gameVisit isRegistered cgroups path) := by
  unfold boostGameFromPid
  cases getUnitCgroupPathFromPid (cgroups.process pid) with
  | none => rfl
  | some path =>
      simp only [RAppMonitor.getAppInfoFromPath_eq, RAppMonitor.visit, RAppMonitor.visited,
        gameVisit]
      by_cases hfound : m.Found path cgroups.files
      · simp [hfound, RAppInfo.boost]
      · simp [hfound]

theorem gamemodeOnSignalReceived_eq (m : RAppMonitor) (signalName : CString)
    (params : Option Int32) (cgroups : Cgroups) :
    gamemodeOnSignalReceived m signalName params cgroups =
      match signalOf signalName params with
      | none => (m, none)
      | some (pid, isRegistered) => boostGameFromPid m pid isRegistered cgroups := by
  unfold gamemodeOnSignalReceived signalOf
  cases params with
  | none => simp only [ite_self]
  | some pid =>
      by_cases hpid : pid = 0
      · simp only [if_pos hpid, ite_self]
      · simp only [if_neg hpid]
        split
        · rfl
        · split <;> rfl

theorem signalOf_signalName (isRegistered : Bool) {pid : Int32} (hpid : pid ≠ 0) :
    signalOf (signalName isRegistered) (some pid) = some (pid, isRegistered) := by
  cases isRegistered <;> simp [signalOf, signalName, hpid]

variable {m : RAppMonitor} {pid : Int32} {cgroups : Cgroups}

theorem appOf_eq_some {path : CString} :
    appOf m pid cgroups = some path ↔
      getUnitCgroupPathFromPid (cgroups.process pid) = some path ∧ m.Found path cgroups.files := by
  simp [appOf, Option.filter_eq_some_iff]

/-- A process that belongs to no application has no effect. -/
theorem boostGameFromPid_of_appOf_none (isRegistered : Bool) (h : appOf m pid cgroups = none) :
    boostGameFromPid m pid isRegistered cgroups = (m, none) := by
  rw [boostGameFromPid_eq]
  cases hunit : getUnitCgroupPathFromPid (cgroups.process pid) with
  | none => rfl
  | some path =>
      apply if_neg
      intro hfound
      cases h.symm.trans (appOf_eq_some.mpr ⟨hunit, hfound⟩)

/-- The flag of the application is written, and no other. -/
theorem written_boostGameFromPid (m : RAppMonitor) (pid : Int32) (isRegistered : Bool)
    (cgroups : Cgroups) :
    Written (m.Boosted boostGame)
      ((boostGameFromPid m pid isRegistered cgroups).1.Boosted boostGame)
      (appOf m pid cgroups) isRegistered := by
  cases happ : appOf m pid cgroups with
  | none =>
      rw [boostGameFromPid_of_appOf_none isRegistered happ]
      intro k
      simp
  | some path =>
      obtain ⟨hunit, hfound⟩ := appOf_eq_some.mp happ
      rw [boostGameFromPid_eq, hunit]
      exact m.written_visit (v := gameVisit isRegistered cgroups path) (by decide) rfl hfound

theorem mem_appInfo_boostGameFromPid (isRegistered : Bool) {k : CString}
    (hk : appOf m pid cgroups = some k ∨ k ∈ m.appInfo) :
    k ∈ (boostGameFromPid m pid isRegistered cgroups).1.appInfo := by
  cases happ : appOf m pid cgroups with
  | none =>
      rw [boostGameFromPid_of_appOf_none isRegistered happ]
      exact hk.resolve_left fun hsome => nomatch happ.symm.trans hsome
  | some path =>
      obtain ⟨hunit, hfound⟩ := appOf_eq_some.mp happ
      rw [boostGameFromPid_eq, hunit]
      apply (m.mem_appInfo_visit _ k).mpr
      refine hk.imp (fun hsome => ?_) id
      exact ⟨Option.some.inj (hsome.symm.trans happ), hfound⟩

end RGameMonitor

/-! ### Signals -/

/-- A signal about a process, and what the system knows when it arrives. A
process that has exited has no cgroup. -/
structure GameSignal where
  isRegistered : Bool
  pid : Int32
  cgroups : Cgroups

/-- The application monitor, and the processes that are registered, each with
the application it belonged to then. -/
structure Games where
  monitor : RAppMonitor
  registered : List (Int32 × CString)

namespace Games

def init (monitor : RAppMonitor) : Games := ⟨monitor, []⟩

def step (s : Games) (e : GameSignal) : Option Games :=
  if e.pid = 0 then none
  else some {
    monitor := (RGameMonitor.gamemodeOnSignalReceived s.monitor
      (RGameMonitor.signalName e.isRegistered) (some e.pid) e.cgroups).1
    registered :=
      if e.isRegistered then
        (RGameMonitor.appOf s.monitor e.pid e.cgroups).toList.map (e.pid, ·) ++ s.registered
      else s.registered.filter (·.1 ≠ e.pid) }

/-- The process was registered while it belonged to the application, and it was
not unregistered since. -/
def Registered (s : Games) (pid : Int32) (path : CString) : Prop := (pid, path) ∈ s.registered

def GameFollows (s : Games) : Prop := s.monitor.FlagFollows boostGame s.Registered

/-- The signals that the flag survives. When a process is unregistered, no other
process is registered for the application it belongs to now, and every other
application it was registered for has another process. -/
def Keeps (s : Games) (e : GameSignal) : Prop :=
  e.isRegistered = false →
    (∀ path, s.Registered e.pid path → RGameMonitor.appOf s.monitor e.pid e.cgroups ≠ some path →
      Others s.Registered e.pid path) ∧
    ∀ path, RGameMonitor.appOf s.monitor e.pid e.cgroups = some path →
      ¬ Others s.Registered e.pid path

variable {s t : Games} {e : GameSignal}

def Known (s : Games) : Prop := ∀ pid path, s.Registered pid path → path ∈ s.monitor.appInfo

theorem step_cases (h : step s e = some t) :
    t.monitor = (RGameMonitor.boostGameFromPid s.monitor e.pid e.isRegistered e.cgroups).1 ∧
      ∀ pid path, t.Registered pid path ↔
        if e.isRegistered then
          (pid = e.pid ∧ RGameMonitor.appOf s.monitor e.pid e.cgroups = some path) ∨
            s.Registered pid path
        else pid ≠ e.pid ∧ s.Registered pid path := by
  simp only [step] at h
  split at h
  · cases h
  · next hpid =>
    obtain rfl := Option.some.inj h
    refine ⟨?_, ?_⟩
    · rw [RGameMonitor.gamemodeOnSignalReceived_eq, RGameMonitor.signalOf_signalName _ hpid]
    intro pid path
    cases e.isRegistered with
    | true =>
        simp only [Registered, if_true, List.mem_append, List.mem_map, Option.mem_toList,
          Prod.mk.injEq]
        apply or_congr_left
        constructor
        · rintro ⟨path', happ, rfl, rfl⟩
          exact ⟨rfl, happ⟩
        · rintro ⟨rfl, happ⟩
          exact ⟨path, happ, rfl, rfl⟩
    | false => simp [Registered, and_comm]

theorem Known.step (h : s.Known) (hs : Games.step s e = some t) : t.Known := by
  obtain ⟨hmonitor, hregistered⟩ := step_cases hs
  intro pid path hpath
  rw [hmonitor]
  apply RGameMonitor.mem_appInfo_boostGameFromPid
  rw [hregistered] at hpath
  split at hpath
  · exact hpath.imp (fun hnew => hnew.2) (h pid path)
  · exact .inr (h pid path hpath.2)

/-- The flags follow the registered games afterwards exactly if the signal is one that
they survive. -/
theorem gameFollows_step_iff (hknown : s.Known) (hfollows : s.GameFollows)
    (hs : step s e = some t) : t.GameFollows ↔ Keeps s e := by
  rw [GameFollows, RAppMonitor.flagFollows_iff _ hknown] at hfollows
  rw [GameFollows, RAppMonitor.flagFollows_iff _ (hknown.step hs)]
  obtain ⟨hmonitor, hregistered⟩ := step_cases hs
  have hwrite := RGameMonitor.written_boostGameFromPid s.monitor e.pid e.isRegistered e.cgroups
  rw [← hmonitor] at hwrite
  have hothers (pid : Int32) (hpid : pid ≠ e.pid) (path : CString) :
      t.Registered pid path ↔ s.Registered pid path := by
    rw [hregistered]
    split <;> simp [hpid]
  cases hkind : e.isRegistered with
  | true =>
      rw [hkind] at hwrite
      refine iff_of_true (hfollows.add hothers hwrite fun path => ?_) (by simp [Keeps, hkind])
      rw [hregistered, hkind, if_pos rfl, or_comm]
      simp
  | false =>
      rw [hkind] at hwrite
      refine (hfollows.replace_iff hothers hwrite fun path => ?_).trans ?_
      · rw [hregistered, hkind]
        simp
      · simp [Keeps, hkind]

/-- In all states of a run the game boost follows the registered games, exactly if the
run consists of signals that it survives. -/
theorem gameFollows_iff_keeps {monitor : RAppMonitor}
    (hsilent : ∀ path, ¬ monitor.Boosted boostGame path) (es : List GameSignal) :
    AllStates step GameFollows (init monitor) es ↔ AllSteps step Keeps (init monitor) es := by
  have hnobody (pid : Int32) (path : CString) : ¬ (init monitor).Registered pid path :=
    List.not_mem_nil
  refine allStates_iff_allSteps (I := Known) (fun s e t hknown hs => hknown.step hs)
    (fun s e t hknown hfollows hs => gameFollows_step_iff hknown hfollows hs) ?_ ?_ es
  · exact fun pid path h => absurd h (hnobody pid path)
  · exact monitor.flagFollows_of_nobody hsilent hnobody

/-! ### A game that exits before it is unregistered -/

def gamePath : CString :=
  CString.childPath (RAppMonitor.init 1000).appSlicePath "game.service".toList

def gameSignal (isRegistered alive : Bool) : GameSignal where
  isRegistered := isRegistered
  pid := 7
  cgroups :=
    { process := fun _ =>
        if alive then ⟨some (gamePath.drop 14), some "game.service".toList⟩ else ⟨none, none⟩
      files := ⟨true, none, none, none, 1⟩ }

def exitedGame : List GameSignal := [gameSignal true true, gameSignal false false]

/-- No process is registered any more, and the flag is set. -/
theorem not_allStates_exitedGame :
    ¬ AllStates step GameFollows (init (RAppMonitor.init 1000)) exitedGame := by
  intro h
  let s := (run step (init (RAppMonitor.init 1000)) exitedGame).get (by decide)
  have hfollows : GameFollows s := h.last (Option.some_get _).symm
  have happ := hfollows gamePath ((s.monitor.appInfo.lookup gamePath).get (by decide))
    (Option.some_get _).symm
  obtain ⟨pid, hpid⟩ := happ.mp (by decide)
  have hnone : s.registered = [] := by decide
  rw [Registered, hnone] at hpid
  cases hpid

theorem not_gameFollows_exitedGame :
    ¬ ∀ es, AllStates step GameFollows (init (RAppMonitor.init 1000)) es :=
  fun h => not_allStates_exitedGame (h exitedGame)

theorem gameFollows_iff_keeps_exitedGame :
    ¬ AllSteps step Keeps (init (RAppMonitor.init 1000)) exitedGame :=
  fun h => not_allStates_exitedGame
    ((gameFollows_iff_keeps (RAppMonitor.not_boosted_init 1000 boostGame) exitedGame).mpr h)

end Games

end Uresourced
