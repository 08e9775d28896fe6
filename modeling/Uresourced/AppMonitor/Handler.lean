import Uresourced.AppMonitor.Info

/-!
`r-app-monitor.c`: watching the tree of cgroups.

The walk over a directory and the handler of an inotify event ask the kernel
one question after the other, and the tree may change between any two of them.
A `Task` is a point of the code that waits for an answer, with the variables that
are live there; a running function is the stack of its tasks. `perform` is the
code from the answer to the next questions. `δ` is the state of a directory
stream, which belongs to the kernel.
-/

namespace Uresourced

open CString

/-- Who calls `inotify_add_cgroup_dir`, and so what becomes of its result. -/
inductive Caller (δ : Type)
  /-- `r_app_monitor_start` -/
  | start
  /-- `handle_inotify_event` -/
  | handler
  /-- the loop of `inotify_add_recursive_watch_on_dir` -/
  | walk (dir name : CString) (stream : δ)
  deriving DecidableEq, Repr

/-- A question to the kernel, and what is to be done with the answer. -/
inductive Task (δ : Type)
  /-- `inotify_add_watch`, at the start of `inotify_add_cgroup_dir` -/
  | add (path : CString) (caller : Caller δ)
  /-- `inotify_rm_watch` -/
  | rmWatch (wd : ℕ)
  /-- `r_app_monitor_get_app_info_from_path`, followed by the signal or not -/
  | appInfo (path : CString) (notify : Bool)
  /-- `g_dir_open`, at the start of `inotify_add_recursive_watch_on_dir` -/
  | openDir (dir : CString)
  /-- `g_dir_read_name` -/
  | readName (dir : CString) (stream : δ)
  /-- `g_file_test`, in the loop over the names -/
  | testDir (dir name : CString) (stream : δ)
  deriving DecidableEq, Repr

inductive Answer (δ : Type)
  | addWatch (wd : Option ℕ)
  | removed
  | pathInfo (info : PathInfo)
  | opened (stream : Option δ)
  | read (entry : Option (CString × δ))
  | isDir (isDir : Bool)
  deriving DecidableEq, Repr

inductive Mask
  | attrib
  | create
  | delete
  | other
  deriving DecidableEq, Repr

structure InotifyEvent where
  wd : ℕ
  mask : Mask
  name : CString
  deriving DecidableEq, Repr

namespace RAppMonitor

variable {δ : Type}

/-- `inotify_add_cgroup_dir`, once `inotify_add_watch` has returned `wd`: the
watch recorded for the path before is taken out of both tables. -/
def inotifyAddCgroupDir (self : RAppMonitor) (path : CString) (wd : ℕ) : RAppMonitor :=
  let self :=
    match self.pathToWd.lookup path with
    | some oldWd =>
        { self with
          pathToWd := self.pathToWd.erase path
          wdToPath := self.wdToPath.erase oldWd }
    | none => self
  { self with
    pathToWd := self.pathToWd.insert path wd
    wdToPath := self.wdToPath.insert wd path }

@[simp] theorem appSlicePath_add (self : RAppMonitor) (path : CString)
    (wd : ℕ) :
    (self.inotifyAddCgroupDir path wd).appSlicePath = self.appSlicePath := by
  unfold inotifyAddCgroupDir
  split <;> rfl

@[simp] theorem appInfo_add (self : RAppMonitor) (path : CString)
    (wd : ℕ) :
    (self.inotifyAddCgroupDir path wd).appInfo = self.appInfo := by
  unfold inotifyAddCgroupDir
  split <;> rfl

def IsSlice (self : RAppMonitor) (path : CString) : Prop :=
  path = self.appSlicePath ∨ hasSuffix path ".slice".toList = true

instance (self : RAppMonitor) (path : CString) : Decidable (self.IsSlice path) :=
  inferInstanceAs (Decidable (_ ∨ _))

/-- The rest of `inotify_add_cgroup_dir`: the old watch is removed, and the
application is looked up. -/
def addedTasks (self : RAppMonitor) (path : CString) : List (Task δ) :=
  (self.pathToWd.lookup path).toList.map .rmWatch ++
    if self.IsSlice path then [] else [.appInfo path false]

/-- Back in the caller of `inotify_add_cgroup_dir`. The walk tries a name again
that could not be watched; at the start the failure is fatal. -/
def addReturns (path : CString) (added : Bool) : Caller δ → Option (List (Task δ))
  | .start => if added then some [] else none
  | .handler => some []
  | .walk dir name stream =>
      some (if added then [.openDir path, .readName dir stream] else [.testDir dir name stream])

/-- From the answer to the next questions: the monitor, the tasks that replace
the one that was answered, and the application that the signal `changed` is
emitted for, by its path. -/
def perform (self : RAppMonitor) :
    Task δ → Answer δ → Option (RAppMonitor × List (Task δ) × Option CString)
  -- `ENOENT` or `ENOSPC`: neither table is touched
  | .add path caller, .addWatch none =>
      (addReturns path false caller).map fun tasks => (self, tasks, none)
  | .add path caller, .addWatch (some wd) =>
      (addReturns path true caller).map fun tasks =>
        (self.inotifyAddCgroupDir path wd, self.addedTasks path ++ tasks, none)
  | .rmWatch _, .removed => some (self, [], none)
  | .appInfo path notify, .pathInfo info =>
      let (self, app) := self.getAppInfoFromPath path info
      some (self, [], if notify then app.map fun _ => path else none)
  | .openDir _, .opened none => some (self, [], none)
  | .openDir dir, .opened (some stream) => some (self, [.readName dir stream], none)
  | .readName _ _, .read none => some (self, [], none)
  | .readName dir _, .read (some (name, stream)) =>
      some (self, [.testDir dir name stream], none)
  -- the walk goes into every directory, slices or not
  | .testDir dir name stream, .isDir true =>
      some (self, [.add (childPath dir name) (.walk dir name stream)], none)
  | .testDir dir _ stream, .isDir false => some (self, [.readName dir stream], none)
  | _, _ => none

/-- What an answer can do to the monitor: a watch is added, an application is
looked up, or nothing changes. -/
theorem perform_eq_some {self m : RAppMonitor} {task : Task δ} {answer : Answer δ}
    {tasks : List (Task δ)} {changed : Option CString}
    (h : self.perform task answer = some (m, tasks, changed)) :
    (∃ path caller wd, task = .add path caller ∧ answer = .addWatch (some wd) ∧
      m = self.inotifyAddCgroupDir path wd ∧ changed = none) ∨
    (∃ path notify info, task = .appInfo path notify ∧ answer = .pathInfo info ∧
      m = (self.getAppInfoFromPath path info).1 ∧
      changed = if notify then (self.getAppInfoFromPath path info).2.map fun _ => path
        else none) ∨
    ((∀ wd, answer ≠ .addWatch (some wd)) ∧ (∀ info, answer ≠ .pathInfo info) ∧ m = self ∧
      changed = none) := by
  unfold perform at h
  split at h
  -- an answer to another question
  case h_11 => cases h
  · obtain ⟨_, _, h⟩ := Option.map_eq_some_iff.mp h
    cases h
    exact .inr (.inr ⟨nofun, nofun, rfl, rfl⟩)
  · obtain ⟨_, _, h⟩ := Option.map_eq_some_iff.mp h
    cases h
    exact .inl ⟨_, _, _, rfl, rfl, rfl, rfl⟩
  · cases h
    exact .inr (.inr ⟨nofun, nofun, rfl, rfl⟩)
  · cases h
    exact .inr (.inl ⟨_, _, _, rfl, rfl, rfl, rfl⟩)
  all_goals
    cases h
    exact .inr (.inr ⟨nofun, nofun, rfl, rfl⟩)

def start (self : RAppMonitor) : List (Task δ) :=
  [.add self.appSlicePath .start, .openDir self.appSlicePath]

/-- The path that an event is about. A watch that is not in the table yields the
text that `printf` makes of NULL. -/
def eventPath (self : RAppMonitor) (i : InotifyEvent) : CString :=
  childPath ((self.wdToPath.lookup i.wd).getD "(null)".toList) i.name

def handleInotifyEvent (self : RAppMonitor) (i : InotifyEvent) :
    RAppMonitor × List (Task δ) :=
  if i.name = [] then (self, [])
  else
    let appPath := self.eventPath i
    match i.mask with
    | .attrib => (self, [.appInfo appPath true])
    | .create => (self, [.add appPath .handler, .openDir appPath])
    | .delete =>
        -- an unknown path has the watch NULL, which is 0
        let wdTemp := (self.pathToWd.lookup appPath).getD 0
        ({ self with
            pathToWd := self.pathToWd.erase appPath
            wdToPath := self.wdToPath.erase wdTemp
            appInfo := self.appInfo.erase appPath }, [.rmWatch wdTemp])
    | .other => (self, [])

end RAppMonitor

end Uresourced
