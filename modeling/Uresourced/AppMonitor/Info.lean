import Uresourced.Lib.GHashTable
import Uresourced.Utils

/-!
`r-app-monitor.c`: what is known about an application.

An `RAppInfo` is created or refreshed from the files of a cgroup. What the file
system answers is part of `PathInfo`, with one field for every question that
`r_app_monitor_get_app_info_from_path` asks.
-/

namespace Uresourced

open CString

/-! ### Boost flags -/

/-- `AppBoostFlags`, in C an `int`. Two bits suffice: the flags start as `BOOST_NONE`, and
only `BOOST_AUDIO` and `BOOST_GAME` are ever set and cleared. -/
abbrev AppBoostFlags := BitVec 2

def boostNone : AppBoostFlags := 0
def boostAudio : AppBoostFlags := 1
def boostGame : AppBoostFlags := 2

def AppBoostFlags.set (boosted flag : AppBoostFlags) : AppBoostFlags := boosted ||| flag

def AppBoostFlags.clear (boosted flag : AppBoostFlags) : AppBoostFlags := boosted &&& ~~~flag

def AppBoostFlags.has (boosted flag : AppBoostFlags) : Bool := boosted &&& flag ≠ 0

namespace AppBoostFlags

@[simp] theorem has_boostNone (flag : AppBoostFlags) : boostNone.has flag = false := by
  simp [has, boostNone]

theorem has_set {boosted flag : AppBoostFlags} (h : flag ≠ boostNone) :
    (boosted.set flag).has flag = true := by
  revert h
  revert boosted flag
  decide

theorem has_clear (boosted flag : AppBoostFlags) : (boosted.clear flag).has flag = false := by
  revert boosted flag
  decide

end AppBoostFlags

/-! ### Application infos -/

/-- `RAppInfo`; the name is NULL if the path names no unit. -/
structure RAppInfo where
  name : Option CString
  path : CString
  cpuWeight : UInt64
  ioWeight : UInt64
  timestamp : Int
  boosted : AppBoostFlags
  deriving DecidableEq, Repr

/-- What the system answers about the cgroup directory of an application: whether
it is a directory, the contents of `cpu.weight` and `io.weight`, the attribute
`xattr::xdg.inactive-since`, and the monotonic time. -/
structure PathInfo where
  isDir : Bool
  cpuWeight : Option CString
  ioWeight : Option CString
  inactiveSince : Option CString
  monotonicTime : Int
  deriving DecidableEq, Repr

/-- `get_weight`, with the contents of the file, or `none` if it cannot be read. -/
def getWeight : Option CString → UInt64
  | none => 0
  | some contents =>
      let contents := strip contents
      -- the form of `io.weight`
      let sanitized :=
        if hasPrefix contents "default ".toList then contents.drop 8 else contents
      strtoull 0 sanitized

def createAppInfoDefault (info : PathInfo) (appPath : CString) : RAppInfo where
  name := (getUnitNameFromPath appPath).map strip
  path := strip appPath
  cpuWeight := 100
  ioWeight := 100
  timestamp := info.monotonicTime
  boosted := boostNone

def weightOrDefault (weight : UInt64) : UInt64 := if weight = 0 then 100 else weight

/-- The second half of `r_app_monitor_get_app_info_from_path`, which is the same
for a new and for a known application. -/
def RAppInfo.refresh (app : RAppInfo) (info : PathInfo) : RAppInfo :=
  { app with
    cpuWeight := weightOrDefault (getWeight info.cpuWeight)
    ioWeight := weightOrDefault (getWeight info.ioWeight)
    timestamp :=
      match info.inactiveSince with
      | some contents => (strtoll 0 (strip contents)).1
      | none => app.timestamp }

structure RAppMonitor where
  appSlicePath : CString
  pathToWd : GHashTable CString ℕ
  wdToPath : GHashTable ℕ CString
  appInfo : GHashTable CString RAppInfo
  deriving DecidableEq

def RAppMonitor.init (uid : Uid) : RAppMonitor where
  appSlicePath := "/sys/fs/cgroup/user.slice/user-".toList ++ (formatInt uid.toInt32.toInt ++
    (".slice/user@".toList ++ (formatInt uid.toInt32.toInt ++ ".service/app.slice".toList)))
  pathToWd := ∅
  wdToPath := ∅
  appInfo := ∅

namespace RAppMonitor

/-- `r_app_monitor_get_app_info_from_path`: the table afterwards, and the
application, which is also the entry for the path. -/
def getAppInfoFromPath (self : RAppMonitor) (appPath : CString) (info : PathInfo) :
    RAppMonitor × Option RAppInfo :=
  if !info.isDir then (self, none)
  else if !hasPrefix appPath self.appSlicePath then (self, none)
  else
    let app :=
      match self.appInfo.lookup appPath with
      | some app => app
      | none => createAppInfoDefault info appPath
    let app := app.refresh info
    -- an application that was known is written through its pointer
    ({ self with appInfo := self.appInfo.insert appPath app }, some app)

def setApp (self : RAppMonitor) (appPath : CString) (app : RAppInfo) : RAppMonitor :=
  { self with appInfo := self.appInfo.insert appPath app }

def Found (self : RAppMonitor) (appPath : CString) (info : PathInfo) : Prop :=
  info.isDir = true ∧ hasPrefix appPath self.appSlicePath = true

instance (self : RAppMonitor) (appPath : CString) (info : PathInfo) :
    Decidable (self.Found appPath info) :=
  inferInstanceAs (Decidable (_ ∧ _))

def lookedUp (self : RAppMonitor) (appPath : CString) (info : PathInfo) : RAppInfo :=
  (((self.appInfo.lookup appPath).getD (createAppInfoDefault info appPath)).refresh info)

/-- What a lookup does: nothing, or it enters the application it returns. -/
theorem getAppInfoFromPath_eq (self : RAppMonitor) (appPath : CString) (info : PathInfo) :
    self.getAppInfoFromPath appPath info =
      if self.Found appPath info then
        (self.setApp appPath (self.lookedUp appPath info), some (self.lookedUp appPath info))
      else (self, none) := by
  unfold getAppInfoFromPath Found
  by_cases hdir : info.isDir = true
  · by_cases hprefix : hasPrefix appPath self.appSlicePath = true
    · cases h : self.appInfo.lookup appPath <;> simp [setApp, lookedUp, h, hdir, hprefix]
    · simp [hdir, hprefix]
  · simp [hdir]

@[simp] theorem getAppInfoFromPath_pathToWd (self : RAppMonitor) (appPath : CString)
    (info : PathInfo) :
    (self.getAppInfoFromPath appPath info).1.pathToWd = self.pathToWd := by
  rw [getAppInfoFromPath_eq]
  split <;> rfl

@[simp] theorem getAppInfoFromPath_wdToPath (self : RAppMonitor) (appPath : CString)
    (info : PathInfo) :
    (self.getAppInfoFromPath appPath info).1.wdToPath = self.wdToPath := by
  rw [getAppInfoFromPath_eq]
  split <;> rfl

@[simp] theorem getAppInfoFromPath_appSlicePath (self : RAppMonitor) (appPath : CString)
    (info : PathInfo) :
    (self.getAppInfoFromPath appPath info).1.appSlicePath = self.appSlicePath := by
  rw [getAppInfoFromPath_eq]
  split <;> rfl

theorem lookup_setApp (self : RAppMonitor) (appPath path : CString) (app : RAppInfo) :
    (self.setApp appPath app).appInfo.lookup path =
      if path = appPath then some app else self.appInfo.lookup path :=
  GHashTable.lookup_insert _ _ _ _

@[simp] theorem refresh_boosted (app : RAppInfo) (info : PathInfo) :
    (app.refresh info).boosted = app.boosted := rfl

@[simp] theorem refresh_name (app : RAppInfo) (info : PathInfo) :
    (app.refresh info).name = app.name := rfl

end RAppMonitor

end Uresourced
