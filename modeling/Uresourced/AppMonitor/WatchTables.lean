import Uresourced.AppMonitor.Handler
import Uresourced.Lib.Runs

/-!
The two tables of watches under any answers of the kernel.

They stay inverse to each other if a watch that `inotify_add_watch` returns is not
recorded for another path. The functions of the monitor may otherwise run in any
order, with any answers and any events, and `Frame` says what each of them leaves
alone.
-/

namespace Uresourced

open CString Runs GHashTable

namespace RAppMonitor

/-! ### Reading the tables after a change -/

section Lookups

variable (m : RAppMonitor)

theorem pathToWd_add (path path' : CString) (wd : ℕ) :
    (m.inotifyAddCgroupDir path wd).pathToWd.lookup path' =
      if path' = path then some wd else m.pathToWd.lookup path' := by
  unfold inotifyAddCgroupDir
  rw [GHashTable.lookup_insert]
  by_cases heq : path' = path
  · simp [heq]
  · cases h : m.pathToWd.lookup path with
    | none => simp [heq]
    | some oldWd => simp [heq]

theorem wdToPath_add (path : CString) (wd wd' : ℕ) :
    (m.inotifyAddCgroupDir path wd).wdToPath.lookup wd' =
      if wd' = wd then some path
      else if m.pathToWd.lookup path = some wd' then none else m.wdToPath.lookup wd' := by
  unfold inotifyAddCgroupDir
  rw [GHashTable.lookup_insert]
  by_cases heq : wd' = wd
  · simp [heq]
  · cases h : m.pathToWd.lookup path with
    | none => simp [heq]
    | some oldWd => simp [heq, GHashTable.lookup_erase, eq_comm]

theorem mem_pathToWd {path : CString} :
    path ∈ m.pathToWd ↔ ∃ wd, m.pathToWd.lookup path = some wd := by
  rw [← AList.lookup_isSome, Option.isSome_iff_exists]

theorem mem_pathToWd_add (path : CString) (wd : ℕ) (path' : CString) :
    path' ∈ (m.inotifyAddCgroupDir path wd).pathToWd ↔ path' = path ∨ path' ∈ m.pathToWd := by
  rw [mem_pathToWd, mem_pathToWd, pathToWd_add]
  by_cases heq : path' = path <;> simp [heq]

def forget (path : CString) : RAppMonitor :=
  { m with
    pathToWd := m.pathToWd.erase path
    wdToPath := m.wdToPath.erase ((m.pathToWd.lookup path).getD 0)
    appInfo := m.appInfo.erase path }

theorem pathToWd_forget (path path' : CString) :
    (m.forget path).pathToWd.lookup path' =
      if path' = path then none else m.pathToWd.lookup path' :=
  GHashTable.lookup_erase _ _ _

theorem wdToPath_forget (path : CString) (wd : ℕ) :
    (m.forget path).wdToPath.lookup wd =
      if wd = (m.pathToWd.lookup path).getD 0 then none else m.wdToPath.lookup wd :=
  GHashTable.lookup_erase _ _ _

end Lookups

/-! ### Steps -/

variable {δ : Type}

inductive WatchStep (δ : Type)
  | answer (task : Task δ) (answer : Answer δ)
  | event (i : InotifyEvent)

/-- The monitor afterwards. Any task may be answered, also one that nothing has
asked for. -/
def watchStep (m : RAppMonitor) : WatchStep δ → Option RAppMonitor
  | .answer task answer => (m.perform task answer).map Prod.fst
  | .event i => some (m.handleInotifyEvent (δ := δ) i).1

def Unrecorded (m : RAppMonitor) (wd : ℕ) : Prop :=
  ∀ path ∈ m.pathToWd.keys, m.pathToWd.lookup path ≠ some wd

instance (m : RAppMonitor) (wd : ℕ) : Decidable (m.Unrecorded wd) :=
  inferInstanceAs (Decidable (∀ path ∈ m.pathToWd.keys, _))

/-- `inotify_add_watch` fails, or returns the watch that is recorded for the same
path, or a positive one that is recorded for no path. -/
def Admissible (m : RAppMonitor) : WatchStep δ → Prop
  | .answer (.add path _) (.addWatch (some wd)) =>
      m.pathToWd.lookup path = some wd ∨ 0 < wd ∧ m.Unrecorded wd
  | _ => True

instance (m : RAppMonitor) : (e : WatchStep δ) → Decidable (m.Admissible e)
  | .answer (.add path _) (.addWatch (some wd)) =>
      inferInstanceAs (Decidable (m.pathToWd.lookup path = some wd ∨ 0 < wd ∧ m.Unrecorded wd))
  | .answer (.add _ _) (.addWatch none) | .answer (.add _ _) .removed
  | .answer (.add _ _) (.pathInfo _) | .answer (.add _ _) (.opened _)
  | .answer (.add _ _) (.read _) | .answer (.add _ _) (.isDir _)
  | .answer (.rmWatch _) _ | .answer (.appInfo _ _) _ | .answer (.openDir _) _
  | .answer (.readName _ _) _ | .answer (.testDir _ _ _) _ | .event _ => isTrue trivial

def written (m : RAppMonitor) : WatchStep δ → Option CString
  | .answer (.add path _) (.addWatch (some _)) => some path
  | .event i => if i.mask = .delete ∧ i.name ≠ [] then some (m.eventPath i) else none
  | _ => none

/-- What a step leaves alone that writes the tables for a path: the entries of all
other paths, and of all watches that are not recorded for the path before or
afterwards. A step that writes them for no path leaves everything alone. -/
structure Frame (m m' : RAppMonitor) (written : Option CString) : Prop where
  path : ∀ path, written ≠ some path → m'.pathToWd.lookup path = m.pathToWd.lookup path
  wd : ∀ wd, (∀ path ∈ written, m.pathToWd.lookup path ≠ some wd ∧
    m'.pathToWd.lookup path ≠ some wd) → m'.wdToPath.lookup wd = m.wdToPath.lookup wd

/-- The invariant of the tables. 0 is what the lookup of an unknown path yields, so
it must not be a watch. -/
structure WatchInv (m : RAppMonitor) : Prop where
  inverse : Inverse m.pathToWd m.wdToPath
  zero : m.wdToPath.lookup 0 = none

variable {m m' : RAppMonitor} {e : WatchStep δ}

theorem unrecorded_iff {wd : ℕ} :
    m.Unrecorded wd ↔ ∀ path, m.pathToWd.lookup path ≠ some wd :=
  ⟨fun h path hpath => h path (AList.mem_keys.mp (m.mem_pathToWd.mpr ⟨wd, hpath⟩)) hpath,
    fun h path _ => h path⟩

/-- What a step can do to the tables: a watch is added, a path is forgotten, or
neither is written. -/
theorem watchStep_cases (h : m.watchStep e = some m') :
    (∃ path caller wd, e = .answer (.add path caller) (.addWatch (some wd)) ∧
      m.written e = some path ∧ m' = m.inotifyAddCgroupDir path wd) ∨
    (∃ path, m.written e = some path ∧ m' = m.forget path) ∨
    (m.written e = none ∧ m'.pathToWd = m.pathToWd ∧ m'.wdToPath = m.wdToPath) := by
  cases e with
  | answer task answer =>
      obtain ⟨⟨_, tasks, changed⟩, hperform, rfl⟩ := Option.map_eq_some_iff.mp h
      rcases perform_eq_some hperform with ⟨path, caller, wd, rfl, rfl, rfl, -⟩ |
        ⟨path, notify, info, rfl, rfl, rfl, -⟩ | ⟨hanswer, -, rfl, -⟩
      · exact .inl ⟨path, caller, wd, rfl, rfl, rfl⟩
      · exact .inr (.inr ⟨rfl, by simp, by simp⟩)
      · refine .inr (.inr ⟨?_, rfl, rfl⟩)
        unfold written
        split
        · next heq =>
          cases heq
          exact absurd rfl (hanswer _)
        · next heq => cases heq
        · rfl
  | event i =>
      obtain rfl := Option.some.inj h
      by_cases hname : i.name = []
      · simp [written, handleInotifyEvent, hname]
      · cases hmask : i.mask with
        | delete =>
            refine .inr (.inl ⟨m.eventPath i, by simp [written, hmask, hname], ?_⟩)
            simp only [handleInotifyEvent, hname, if_false, hmask]
            rfl
        | attrib | create | other => simp [written, handleInotifyEvent, hname, hmask]

/-! ### What a step keeps -/

/-- The tables stay inverse to each other when a watch is added that is recorded
for the path already, or for no path. -/
theorem inverse_add (h : Inverse m.pathToWd m.wdToPath) {path : CString} {wd : ℕ}
    (hwd : m.pathToWd.lookup path = some wd ∨ m.wdToPath.lookup wd = none) :
    Inverse (m.inotifyAddCgroupDir path wd).pathToWd
      (m.inotifyAddCgroupDir path wd).wdToPath := by
  unfold inotifyAddCgroupDir
  cases hold : m.pathToWd.lookup path with
  | none =>
      have hnew : m.wdToPath.lookup wd = none := hwd.resolve_left (by simp [hold])
      exact h.insert hold hnew
  | some oldWd =>
      refine (h.erase hold).insert (AList.lookup_erase _ _) ?_
      rw [lookup_erase]
      split
      · rfl
      · next hne =>
        exact hwd.resolve_left fun hsame => hne (Option.some.inj (hsame.symm.trans hold))

/-- They stay so when a path is forgotten, if 0 is no recorded watch. -/
theorem inverse_forget (h : Inverse m.pathToWd m.wdToPath) (hzero : m.wdToPath.lookup 0 = none)
    (path : CString) : Inverse (m.forget path).pathToWd (m.forget path).wdToPath := by
  unfold forget
  cases hold : m.pathToWd.lookup path with
  | none => exact h.erase_of_none hold hzero
  | some oldWd => exact h.erase hold

theorem WatchInv.add (h : WatchInv m) {path : CString} {wd : ℕ}
    (hwd : m.pathToWd.lookup path = some wd ∨ 0 < wd ∧ m.Unrecorded wd) :
    WatchInv (m.inotifyAddCgroupDir path wd) where
  inverse := inverse_add h.inverse
    (hwd.imp id fun hnew => h.inverse.lookup_eq_none_iff.mpr (unrecorded_iff.mp hnew.2))
  zero := by
    have hne : 0 ≠ wd := by
      rintro rfl
      rcases hwd with hwd | ⟨hpos, _⟩
      · cases h.zero.symm.trans ((h.inverse path 0).mp hwd)
      · exact Nat.lt_irrefl 0 hpos
    rw [wdToPath_add, if_neg hne, h.zero, ite_self]

theorem WatchInv.forget (h : WatchInv m) (path : CString) : WatchInv (m.forget path) where
  inverse := inverse_forget h.inverse h.zero path
  zero := by rw [wdToPath_forget, h.zero, ite_self]

theorem watchInv_init (uid : Uid) : WatchInv (init uid) := ⟨inverse_empty, rfl⟩

theorem WatchInv.step (h : WatchInv m) (hadm : m.Admissible e) (hstep : m.watchStep e = some m') :
    WatchInv m' := by
  rcases watchStep_cases hstep with ⟨path, caller, wd, rfl, -, rfl⟩ | ⟨path, -, rfl⟩ |
    ⟨-, hpath, hwd⟩
  · exact h.add hadm
  · exact h.forget path
  · exact ⟨hpath ▸ hwd ▸ h.inverse, hwd ▸ h.zero⟩

theorem WatchInv.of_reachable {uid : Uid}
    (h : ReachableBy watchStep (Admissible (δ := δ)) (init uid) m) : WatchInv m :=
  h.invariant (watchInv_init uid) fun _ _ _ hinv hadm hstep => hinv.step hadm hstep

theorem frame_add (path : CString) (wd : ℕ) :
    Frame m (m.inotifyAddCgroupDir path wd) (some path) where
  path path' hne := by
    rw [pathToWd_add, if_neg fun heq => hne (congrArg some heq.symm)]
  wd wd' hwd' := by
    obtain ⟨hold, hnew⟩ := hwd' path rfl
    rw [pathToWd_add, if_pos rfl] at hnew
    rw [wdToPath_add, if_neg fun heq => hnew (congrArg some heq.symm), if_neg hold]

/-- The deletion of an unknown path removes the watch 0, which is not there. -/
theorem WatchInv.frame_forget (h : WatchInv m) (path : CString) :
    Frame m (m.forget path) (some path) where
  path path' hne := by
    rw [pathToWd_forget, if_neg fun heq => hne (congrArg some heq.symm)]
  wd wd' hwd' := by
    rw [wdToPath_forget]
    cases hold : m.pathToWd.lookup path with
    | none =>
        rw [Option.getD_none]
        split
        · next heq => rw [heq, h.zero]
        · rfl
    | some oldWd =>
        have hne : wd' ≠ oldWd := fun heq => (hwd' path rfl).1 (heq ▸ hold)
        rw [Option.getD_some, if_neg hne]

theorem WatchInv.frame (h : WatchInv m) (hstep : m.watchStep e = some m') :
    Frame m m' (m.written e) := by
  rcases watchStep_cases hstep with ⟨path, _, wd, -, hwritten, rfl⟩ | ⟨path, hwritten, rfl⟩ |
    ⟨-, hpath, hwd⟩
  · exact hwritten ▸ frame_add path wd
  · exact hwritten ▸ h.frame_forget path
  · exact ⟨fun _ _ => by rw [hpath], fun _ _ => by rw [hwd]⟩

theorem watchStep_failingAdd {path : CString} {caller : Caller δ}
    (h : m.watchStep (.answer (.add path caller) (.addWatch none)) = some m') : m' = m := by
  obtain ⟨_, hperform, rfl⟩ := Option.map_eq_some_iff.mp h
  obtain ⟨_, _, rfl⟩ := Option.map_eq_some_iff.mp hperform
  rfl

/-- In every state that admissible steps lead to, the tables are inverse to each other,
and so neither leads from two entries to the same place; every step leaves alone what
does not belong to its path, and a failing `inotify_add_cgroup_dir` everything. -/
theorem watchTables_inverse {uid : Uid}
    (h : ReachableBy watchStep (Admissible (δ := δ)) (init uid) m) :
    (∀ path wd, m.pathToWd.lookup path = some wd ↔ m.wdToPath.lookup wd = some path) ∧
      (∀ path path' wd, m.pathToWd.lookup path = some wd → m.pathToWd.lookup path' = some wd →
        path = path') ∧
      (∀ wd wd' path, m.wdToPath.lookup wd = some path → m.wdToPath.lookup wd' = some path →
        wd = wd') ∧
      (∀ (e : WatchStep δ) m', m.watchStep e = some m' → Frame m m' (m.written e)) ∧
      ∀ path (caller : Caller δ) m',
        m.watchStep (.answer (.add path caller) (.addWatch none)) = some m' → m' = m := by
  have hinv := WatchInv.of_reachable h
  exact ⟨hinv.inverse, fun _ _ _ => hinv.inverse.injective,
    fun _ _ _ => hinv.inverse.symm.injective, fun _ _ => hinv.frame,
    fun _ _ _ => watchStep_failingAdd⟩

def rewatched : List (WatchStep Unit) :=
  let add (path : String) (wd : Option ℕ) : WatchStep Unit :=
    .answer (.add path.toList .handler) (.addWatch wd)
  [add "/a" (some 1), add "/a" (some 1), add "/a" (some 2), add "/a" none, add "/a/b" (some 3),
    .event ⟨2, .delete, "b".toList⟩, .event ⟨9, .delete, "c".toList⟩]

theorem watchTables_inverse_rewatched :
    ((checkedRun watchStep Admissible (init 1000) rewatched).get (by decide)).wdToPath.lookup 2 =
      some "/a".toList :=
  ((watchTables_inverse (reachableBy_checkedRun (by decide))).1 _ 2).mp (by decide)

end RAppMonitor

end Uresourced
