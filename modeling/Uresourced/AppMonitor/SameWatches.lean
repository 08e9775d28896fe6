import Uresourced.AppMonitor.Tracking
import Uresourced.AppMonitor.Visit

/-!
What the monitor watches does not depend on what it knows of applications.

The tasks of a running function are the same for two monitors with the same
tables of watches, whatever is in their tables of applications. So audio, games
and the policy, which write there at any time, do not disturb the tracking of the
tree.
-/

namespace Uresourced

open CString Runs

/-- Two monitors that differ at most in their applications. -/
structure SameWatches (m m' : RAppMonitor) : Prop where
  path : m'.appSlicePath = m.appSlicePath
  pathToWd : m'.pathToWd = m.pathToWd
  wdToPath : m'.wdToPath = m.wdToPath

namespace SameWatches

variable {m m' m'' : RAppMonitor}

theorem refl (m : RAppMonitor) : SameWatches m m := ⟨rfl, rfl, rfl⟩

theorem symm (h : SameWatches m m') : SameWatches m' m :=
  ⟨h.path.symm, h.pathToWd.symm, h.wdToPath.symm⟩

theorem trans (h : SameWatches m m') (h' : SameWatches m' m'') : SameWatches m m'' :=
  ⟨h'.path.trans h.path, h'.pathToWd.trans h.pathToWd, h'.wdToPath.trans h.wdToPath⟩

theorem of_setApp (m : RAppMonitor) (path : CString) (app : RAppInfo) :
    SameWatches m (m.setApp path app) := ⟨rfl, rfl, rfl⟩

theorem of_getAppInfo (m : RAppMonitor) (path : CString) (info : PathInfo) :
    SameWatches m (m.getAppInfoFromPath path info).1 := by
  constructor <;> simp

theorem of_visit (m : RAppMonitor) (v : Visit) : SameWatches m (m.visit v).1 := by
  unfold RAppMonitor.visit
  split
  · exact of_setApp m _ _
  · exact refl m

theorem found_iff (h : SameWatches m m') (path : CString) (info : PathInfo) :
    m'.Found path info ↔ m.Found path info := by
  unfold RAppMonitor.Found
  rw [h.path]

theorem add (h : SameWatches m m') (path : CString) (wd : ℕ) :
    SameWatches (m.inotifyAddCgroupDir path wd) (m'.inotifyAddCgroupDir path wd) := by
  refine ⟨by simp [h.path], ?_, ?_⟩
  · unfold RAppMonitor.inotifyAddCgroupDir
    rw [h.pathToWd]
    cases m.pathToWd.lookup path <;> simp [h.pathToWd]
  · unfold RAppMonitor.inotifyAddCgroupDir
    rw [h.pathToWd]
    cases m.pathToWd.lookup path <;> simp [h.wdToPath]

theorem addedTasks {δ : Type} (h : SameWatches m m') (path : CString) :
    m'.addedTasks (δ := δ) path = m.addedTasks path := by
  have hslice : m'.IsSlice path ↔ m.IsSlice path := by
    unfold RAppMonitor.IsSlice
    rw [h.path]
  simp only [RAppMonitor.addedTasks, h.pathToWd, hslice]

/-- An answer has the same next questions for both. -/
theorem perform {δ : Type} (h : SameWatches m m') {task : Task δ} {answer : Answer δ}
    {n : RAppMonitor} {tasks : List (Task δ)} {changed : Option CString}
    (hperform : m.perform task answer = some (n, tasks, changed)) :
    ∃ n' changed', m'.perform task answer = some (n', tasks, changed') ∧ SameWatches n n' := by
  unfold RAppMonitor.perform at hperform ⊢
  split at hperform
  case h_1 =>
    obtain ⟨ret, hret, heq⟩ := Option.map_eq_some_iff.mp hperform
    cases heq
    exact ⟨m', none, by simp [hret], h⟩
  case h_2 path caller wd =>
    obtain ⟨ret, hret, heq⟩ := Option.map_eq_some_iff.mp hperform
    cases heq
    exact ⟨m'.inotifyAddCgroupDir path wd, none, by simp [hret, h.addedTasks], h.add path wd⟩
  case h_4 path notify info =>
    cases hperform
    exact ⟨_, _, rfl, (of_getAppInfo m path info).symm.trans
      (h.trans (of_getAppInfo m' path info))⟩
  case h_11 => cases hperform
  all_goals
    cases hperform
    exact ⟨m', none, rfl, h⟩

theorem handleInotifyEvent {δ : Type} (h : SameWatches m m') (i : InotifyEvent) :
    (m'.handleInotifyEvent (δ := δ) i).2 = (m.handleInotifyEvent i).2 ∧
      SameWatches (m.handleInotifyEvent (δ := δ) i).1 (m'.handleInotifyEvent (δ := δ) i).1 := by
  have hpath : m'.eventPath i = m.eventPath i := by
    unfold RAppMonitor.eventPath
    rw [h.wdToPath]
  unfold RAppMonitor.handleInotifyEvent
  by_cases hname : i.name = []
  · simp only [hname, if_true]
    exact ⟨trivial, h⟩
  · simp only [hname, if_false, hpath]
    cases i.mask with
    | delete =>
        rw [h.pathToWd, h.wdToPath, hpath]
        exact ⟨rfl, h.path, rfl, rfl⟩
    | attrib | create | other => exact ⟨rfl, h⟩

end SameWatches

/-! ### The monitor next to the kernel -/

namespace Watching

variable {s t : Watching} {m : RAppMonitor} {move : Move}

def withMonitor (s : Watching) (m : RAppMonitor) : Watching := { s with monitor := m }

theorem step_withMonitor (h : SameWatches s.monitor m) (hs : s.step move = some t) :
    ∃ n, (s.withMonitor m).step move = some (t.withMonitor n) ∧ SameWatches t.monitor n := by
  cases move with
  | mkdir dir name =>
      obtain ⟨k, hk, rfl⟩ := Option.map_eq_some_iff.mp hs
      exact ⟨m, by simp [step, withMonitor, hk], h⟩
  | rmdir dir name =>
      obtain ⟨k, hk, rfl⟩ := Option.map_eq_some_iff.mp hs
      exact ⟨m, by simp [step, withMonitor, hk], h⟩
  | start =>
      simp only [step, Option.ite_none_left_eq_some, Option.some.injEq] at hs
      obtain ⟨hstarted, rfl⟩ := hs
      exact ⟨m, by simp [step, withMonitor, hstarted, RAppMonitor.start, h.path], h⟩
  | dispatch =>
      simp only [step] at hs
      split at hs
      · next i queue hstarted hstack hqueue =>
        obtain rfl := Option.some.inj hs
        obtain ⟨htasks, hsame⟩ := h.handleInotifyEvent (δ := DirStream) i
        exact ⟨_, by simp [step, withMonitor, hstarted, hstack, hqueue, htasks], hsame⟩
      · cases hs
  | run o =>
      simp only [step] at hs
      split at hs
      · cases hs
      · next task rest hstack =>
        obtain ⟨⟨answer, kernel⟩, hanswer, hs⟩ := Option.bind_eq_some_iff.mp hs
        obtain ⟨⟨n, tasks, changed⟩, hperform, hs⟩ := Option.bind_eq_some_iff.mp hs
        cases hs
        obtain ⟨n', changed', hperform', hsame⟩ := h.perform hperform
        exact ⟨n', by simp [step, withMonitor, hstack, hanswer, hperform'], hsame⟩

/-- Whether a step is safe is a matter of the watches. -/
theorem safe_withMonitor (h : SameWatches s.monitor m) :
    (s.withMonitor m).Safe move ↔ s.Safe move := by
  cases move with
  | run o =>
      have htask (task : Task DirStream) :
          (s.withMonitor m).SafeTask task ↔ s.SafeTask task := by
        cases task with
        | add path caller =>
            simp only [SafeTask, SafeAdd, RAppMonitor.NothingBelow, withMonitor, h.pathToWd, h.path]
        | rmWatch _ | appInfo _ _ | openDir _ | readName _ _ | testDir _ _ _ => exact Iff.rfl
      exact forall₂_congr fun task _ => htask task
  | dispatch =>
      simp only [Safe, SafeDelete, RAppMonitor.NothingBelow, RAppMonitor.eventPath, withMonitor,
        h.pathToWd, h.wdToPath]
  | mkdir _ _ | rmdir _ _ | start => exact Iff.rfl

end Watching

end Uresourced
