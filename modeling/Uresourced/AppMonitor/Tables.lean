import Uresourced.AppMonitor.Inotify
import Uresourced.AppMonitor.WatchTables

/-!
The tables of watches and the kernel.

`Coherent` says how the tables go with the kernel in every state, also while a
directory that was removed still has its event in the queue. Two places of the
code break this, and `SafeAdd` and `SafeDelete` are the conditions under which
they do not: a watch that is taken out of the tables must not be the live watch
of the directory, and nothing below may still be recorded.
-/

namespace Uresourced

open CString

namespace RAppMonitor

variable (m : RAppMonitor)

def NothingBelow (path : CString) : Prop := ∀ path' ∈ m.pathToWd.keys, ¬ Below path path'

instance (path : CString) : Decidable (m.NothingBelow path) :=
  inferInstanceAs (Decidable (∀ path' ∈ m.pathToWd.keys, _))

end RAppMonitor

/-! ### The tables and the kernel -/

/-- A recorded directory whose removal is queued, from a watch that is in the
table. -/
def Doomed (k : Kernel) (m : RAppMonitor) (path : CString) : Prop :=
  path ∈ m.pathToWd ∧ ∃ dir name wd, path = childPath dir name ∧
    ⟨wd, .delete, name⟩ ∈ k.queue ∧ m.wdToPath.lookup wd = some dir

/-- How the tables go with the kernel. -/
structure Coherent (k : Kernel) (m : RAppMonitor) : Prop where
  wf : k.Wf m.appSlicePath
  slash : ∃ rest, m.appSlicePath = '/' :: rest
  inverse : ∀ path wd, m.pathToWd.lookup path = some wd ↔ m.wdToPath.lookup wd = some path
  used : ∀ path wd, m.pathToWd.lookup path = some wd → wd ∈ k.used
  owner : ∀ path path' wd, m.pathToWd.lookup path = some wd → k.watches path' = some wd →
    path = path'
  below : ∀ path ∈ m.pathToWd, path = m.appSlicePath ∨ Below m.appSlicePath path
  parent : ∀ path ∈ m.pathToWd, path = m.appSlicePath ∨
    ∃ dir name, path = childPath dir name ∧ ValidName name ∧ dir ∈ m.pathToWd
  alive : ∀ path wd, m.pathToWd.lookup path = some wd →
    k.watches path = some wd ∨ ∃ a, (a = path ∨ Below a path) ∧ Doomed k m a

/-- The condition on adding a watch for an existing directory: a watch that is
recorded for it is not alive and leaves nothing recorded below, and the parent is
recorded. -/
def SafeAdd (k : Kernel) (m : RAppMonitor) (path : CString) : Prop :=
  (∀ wd ∈ m.pathToWd.lookup path, k.watches path ≠ some wd ∧ m.NothingBelow path) ∧
    (path = m.appSlicePath ∨ dirname path ∈ m.pathToWd)

instance (k : Kernel) (m : RAppMonitor) (path : CString) : Decidable (SafeAdd k m path) :=
  inferInstanceAs (Decidable (_ ∧ _))

def SafeDelete (m : RAppMonitor) (path : CString) : Prop :=
  path ∈ m.pathToWd → m.NothingBelow path

instance (m : RAppMonitor) (path : CString) : Decidable (SafeDelete m path) :=
  inferInstanceAs (Decidable (_ → _))

namespace Coherent

variable {k k' : Kernel} {m m' : RAppMonitor}

/-- What is doomed stays doomed as long as its event is queued, the directory it
lies in keeps its watch, and it is recorded. -/
theorem doomed_mono {path : CString} (h : Doomed k m path)
    (hqueue : ∀ wd dir name, m.wdToPath.lookup wd = some dir → path = childPath dir name →
      ⟨wd, .delete, name⟩ ∈ k.queue → ⟨wd, .delete, name⟩ ∈ k'.queue)
    (hwd : ∀ wd dir, m.wdToPath.lookup wd = some dir → Below dir path →
      m'.wdToPath.lookup wd = some dir)
    (hmem : path ∈ m'.pathToWd) : Doomed k' m' path := by
  obtain ⟨_, dir, name, wd, rfl, hevent, hdir⟩ := h
  exact ⟨hmem, dir, name, wd, rfl, hqueue wd dir name hdir rfl hevent,
    hwd wd dir hdir (below_childPath dir name)⟩

theorem mem_of_lookup {path : CString} {wd : ℕ} (h : m.pathToWd.lookup path = some wd) :
    path ∈ m.pathToWd :=
  m.mem_pathToWd.mpr ⟨wd, h⟩

theorem mkdir (h : Coherent k m) {dir name : CString} (hk : k.mkdir dir name = some k') :
    Coherent k' m := by
  have hwf := h.wf.mkdir hk
  simp only [Kernel.mkdir, Option.ite_none_right_eq_some, Option.some.injEq] at hk
  obtain ⟨_, rfl⟩ := hk
  refine ⟨hwf, h.slash, h.inverse, h.used, h.owner, h.below, h.parent, fun path wd hwd => ?_⟩
  apply (h.alive path wd hwd).imp id
  rintro ⟨a, ha, hdoomed⟩
  exact ⟨a, ha, doomed_mono hdoomed
    (fun _ _ _ _ _ hi => Kernel.mem_notify_queue.mpr (.inl hi)) (fun _ _ hd _ => hd) hdoomed.1⟩

theorem rmdir (h : Coherent k m) {dir name : CString} (hk : k.rmdir dir name = some k') :
    Coherent k' m := by
  have hwf := h.wf.rmdir hk
  simp only [Kernel.rmdir, Option.ite_none_right_eq_some, Option.some.injEq] at hk
  obtain ⟨⟨_, hname, hdir, _⟩, rfl⟩ := hk
  have hne : dir ≠ childPath dir name := by
    intro heq
    have hbelow := below_childPath dir name
    rw [← heq] at hbelow
    exact not_below_self dir hbelow
  have hqueue (i : InotifyEvent) (hi : i ∈ k.queue) : i ∈ (({ k with
      dirs := k.dirs.erase (childPath dir name)
      watches := Function.update k.watches (childPath dir name) none } : Kernel).notify
        dir .delete name).queue := Kernel.mem_notify_queue.mpr (.inl hi)
  refine ⟨hwf, h.slash, h.inverse, h.used, ?_, h.below, h.parent, ?_⟩
  · intro path path' wd hwd hlive
    apply h.owner path path' wd hwd
    by_cases heq : path' = childPath dir name
    · simp [Kernel.notify, heq] at hlive
    · simpa [Kernel.notify, heq] using hlive
  · intro path wd hwd
    rcases h.alive path wd hwd with hlive | ⟨a, ha, hdoomed⟩
    · by_cases heq : path = childPath dir name
      · -- the removed directory: its parent reports it, or is doomed itself
        subst heq
        right
        rcases h.parent _ (mem_of_lookup hwd) with hroot | ⟨d, n, heq, hn, hd⟩
        · exact absurd hroot (h.wf.childPath_ne_root hdir)
        · obtain ⟨rfl, rfl⟩ := Kernel.childPath_inj hname hn heq
          obtain ⟨dirWd, hdirWd⟩ := m.mem_pathToWd.mp hd
          rcases h.alive dir dirWd hdirWd with hlive' | ⟨a, ha, hdoomed⟩
          · refine ⟨_, .inl rfl, mem_of_lookup hwd, dir, name, dirWd, rfl, ?_,
              (h.inverse _ _).mp hdirWd⟩
            exact Kernel.mem_notify_queue.mpr (.inr ⟨dirWd, by simpa [hne] using hlive', rfl⟩)
          · refine ⟨a, .inr ?_, doomed_mono hdoomed (fun _ _ _ _ _ => hqueue _)
              (fun _ _ hd _ => hd) hdoomed.1⟩
            exact ha.elim (fun heq => heq ▸ below_childPath _ _) fun hb => hb.childPath name
      · exact .inl (by simpa [Kernel.notify, heq] using hlive)
    · exact .inr ⟨a, ha, doomed_mono hdoomed (fun _ _ _ _ _ => hqueue _)
        (fun _ _ hd _ => hd) hdoomed.1⟩

theorem watches_addWatch {path : CString} {fresh wd : ℕ}
    (hk : k.addWatch path fresh = some (some wd, k')) (path' : CString) (wd' : ℕ) :
    k'.watches path' = some wd' ↔
      (path' = path ∧ wd' = wd) ∨ (path' ≠ path ∧ k.watches path' = some wd') := by
  obtain ⟨_, ⟨hlive, rfl⟩ | ⟨_, _, _, rfl⟩⟩ := Kernel.addWatch_cases hk
  · by_cases heq : path' = path
    · simp [heq, hlive, eq_comm]
    · simp [heq]
  · by_cases heq : path' = path
    · simp [heq, eq_comm]
    · simp [heq]

theorem wdToPath_addWatch (h : Coherent k m) {path : CString} {fresh wd : ℕ}
    (hk : k.addWatch path fresh = some (some wd, k')) (hsafe : SafeAdd k m path) :
    m.wdToPath.lookup wd = none := by
  by_contra hsome
  obtain ⟨path', hpath'⟩ := Option.ne_none_iff_exists'.mp hsome
  have hrecorded := (h.inverse path' wd).mpr hpath'
  obtain ⟨_, ⟨hlive, _⟩ | ⟨_, _, hfresh, _⟩⟩ := Kernel.addWatch_cases hk
  · obtain rfl := h.owner path' path wd hrecorded hlive
    exact (hsafe.1 wd hrecorded).1 hlive
  · exact hfresh (h.used path' wd hrecorded)

/-- A watch other than the ones of the added path stays in the table. -/
theorem wdToPath_add_of_ne (h : Coherent k m) {path dir : CString} {wd w : ℕ}
    (hnew : m.wdToPath.lookup wd = none) (hdir : m.wdToPath.lookup w = some dir)
    (hne : dir ≠ path) : (m.inotifyAddCgroupDir path wd).wdToPath.lookup w = some dir := by
  have hw : w ≠ wd := by
    rintro rfl
    cases hnew.symm.trans hdir
  have hold : m.pathToWd.lookup path ≠ some w :=
    GHashTable.Inverse.lookup_ne h.inverse hdir hne
  rw [RAppMonitor.wdToPath_add, if_neg hw, if_neg hold, hdir]

/-- What is doomed stays doomed: the old watch of the added path leaves nothing
recorded below. -/
theorem doomed_add (h : Coherent k m) {path a : CString} {fresh wd : ℕ}
    (hk : k.addWatch path fresh = some (some wd, k')) (hsafe : SafeAdd k m path)
    (ha : Doomed k m a) : Doomed k' (m.inotifyAddCgroupDir path wd) a := by
  have hnew := h.wdToPath_addWatch hk hsafe
  have hqueue : k'.queue = k.queue := by
    obtain ⟨_, ⟨_, rfl⟩ | ⟨_, _, _, rfl⟩⟩ := Kernel.addWatch_cases hk <;> rfl
  refine doomed_mono ha (fun _ _ _ _ _ hi => hqueue ▸ hi) (fun w dir hdir hbelow => ?_)
    ((m.mem_pathToWd_add path wd a).mpr (.inr ha.1))
  apply h.wdToPath_add_of_ne hnew hdir
  rintro rfl
  exact (hsafe.1 w ((h.inverse _ _).mpr hdir)).2 a (AList.mem_keys.mp ha.1) hbelow

theorem add (h : Coherent k m) {path : CString} {fresh wd : ℕ}
    (hk : k.addWatch path fresh = some (some wd, k')) (hsafe : SafeAdd k m path) :
    Coherent k' (m.inotifyAddCgroupDir path wd) := by
  have hwf := h.wf.addWatch hk
  have hnew := h.wdToPath_addWatch hk hsafe
  have hlive := watches_addWatch hk
  have hmem := m.mem_pathToWd_add path wd
  obtain ⟨hpath, hcases⟩ := Kernel.addWatch_cases hk
  refine ⟨by simpa using hwf, by simpa using h.slash, RAppMonitor.inverse_add h.inverse (.inr hnew),
    ?_, ?_, ?_, ?_, ?_⟩
  · intro path' wd' hwd'
    rw [RAppMonitor.pathToWd_add] at hwd'
    split at hwd'
    · cases hwd'
      exact (hwf.live path wd ((hlive _ _).mpr (.inl ⟨rfl, rfl⟩))).2
    · have hused := h.used path' wd' hwd'
      rcases hcases with ⟨_, rfl⟩ | ⟨_, _, _, rfl⟩
      · exact hused
      · exact List.mem_cons_of_mem _ hused
  · intro path' path'' wd' hwd' hlive'
    rw [RAppMonitor.pathToWd_add] at hwd'
    split at hwd'
    · next heq =>
      cases hwd'
      exact heq.trans (hwf.inj path path'' wd ((hlive _ _).mpr (.inl ⟨rfl, rfl⟩)) hlive')
    · rcases (hlive _ _).mp hlive' with ⟨_, rfl⟩ | ⟨_, hlive'⟩
      · cases hnew.symm.trans ((h.inverse path' wd').mp hwd')
      · exact h.owner path' path'' wd' hwd' hlive'
  · intro path' hpath'
    rw [RAppMonitor.appSlicePath_add]
    rcases (hmem _).mp hpath' with rfl | hpath'
    · exact h.wf.below path' hpath
    · exact h.below path' hpath'
  · intro path' hpath'
    rw [RAppMonitor.appSlicePath_add]
    rcases (hmem _).mp hpath' with rfl | hpath'
    · rcases h.wf.tree path' hpath with hroot | ⟨d, n, rfl, hn, _⟩
      · exact .inl hroot
      · refine hsafe.2.imp id fun hdir => ⟨d, n, rfl, hn, (hmem _).mpr (.inr ?_)⟩
        rwa [dirname_childPath hn.2.1] at hdir
    · apply (h.parent path' hpath').imp id
      rintro ⟨d, n, rfl, hn, hd⟩
      exact ⟨d, n, rfl, hn, (hmem _).mpr (.inr hd)⟩
  · intro path' wd' hwd'
    rw [RAppMonitor.pathToWd_add] at hwd'
    split at hwd'
    · next heq =>
      cases hwd'
      exact .inl ((hlive _ _).mpr (.inl ⟨heq, rfl⟩))
    · next hne =>
      rcases h.alive path' wd' hwd' with hlive' | ⟨a, ha, hdoomed⟩
      · exact .inl ((hlive _ _).mpr (.inr ⟨hne, hlive'⟩))
      · exact .inr ⟨a, ha, h.doomed_add hk hsafe hdoomed⟩

theorem rmWatch (h : Coherent k m) {wd : ℕ} (hwd : m.wdToPath.lookup wd = none) :
    Coherent (k.rmWatch wd) m where
  wf := h.wf.rmWatch wd
  slash := h.slash
  inverse := h.inverse
  used := h.used
  owner path path' w hw hlive := h.owner path path' w hw (Kernel.watches_rmWatch.mp hlive).1
  below := h.below
  parent := h.parent
  alive path w hw := by
    refine (h.alive path w hw).imp (fun hlive => Kernel.watches_rmWatch.mpr ⟨hlive, ?_⟩) id
    rintro rfl
    cases hwd.symm.trans ((h.inverse path w).mp hw)

/-- The applications do not matter. -/
theorem congr (h : Coherent k m) (hroot : m'.appSlicePath = m.appSlicePath)
    (hpath : m'.pathToWd = m.pathToWd) (hwd : m'.wdToPath = m.wdToPath) : Coherent k m' := by
  obtain ⟨root, pathToWd, wdToPath, appInfo⟩ := m'
  obtain ⟨root', pathToWd', wdToPath', appInfo'⟩ := m
  obtain rfl : root = root' := hroot
  obtain rfl : pathToWd = pathToWd' := hpath
  obtain rfl : wdToPath = wdToPath' := hwd
  exact ⟨h.wf, h.slash, h.inverse, h.used, h.owner, h.below, h.parent, h.alive⟩

theorem pop (h : Coherent k m) {i : InotifyEvent} {queue : List InotifyEvent}
    (hqueue : k.queue = i :: queue) (hmask : i.mask ≠ .delete) :
    Coherent { k with queue := queue } m where
  wf := h.wf.pop hqueue
  slash := h.slash
  inverse := h.inverse
  used := h.used
  owner := h.owner
  below := h.below
  parent := h.parent
  alive path wd hwd := by
    apply (h.alive path wd hwd).imp id
    rintro ⟨a, ha, hdoomed⟩
    refine ⟨a, ha, doomed_mono hdoomed (fun wd' _ name _ _ hi => ?_) (fun _ _ hd _ => hd)
      hdoomed.1⟩
    rw [hqueue] at hi
    rcases List.mem_cons.mp hi with rfl | hi
    · exact absurd rfl hmask
    · exact hi

theorem mem_pathToWd_forget {path path' : CString} :
    path' ∈ (m.forget path).pathToWd ↔ path' ≠ path ∧ path' ∈ m.pathToWd :=
  AList.mem_erase

/-- 0 is no watch of the kernel. -/
theorem watchInv (h : Coherent k m) : m.WatchInv where
  inverse := h.inverse
  zero := by
    cases hzero : m.wdToPath.lookup 0 with
    | none => rfl
    | some path => exact absurd (h.used path 0 ((h.inverse _ _).mpr hzero)) h.wf.positive

theorem wdToPath_forget_of_ne (h : Coherent k m) {path dir : CString} {wd : ℕ}
    (hwd : m.wdToPath.lookup wd = some dir) (hne : dir ≠ path) :
    (m.forget path).wdToPath.lookup wd = some dir := by
  have hold : m.pathToWd.lookup path ≠ some wd :=
    GHashTable.Inverse.lookup_ne h.inverse hwd hne
  have hnew : (m.forget path).pathToWd.lookup path ≠ some wd := by
    rw [RAppMonitor.pathToWd_forget, if_pos rfl]
    nofun
  have hframe := h.watchInv.frame_forget path
  rw [hframe.wd wd fun _ hpath => Option.some.inj hpath ▸ ⟨hold, hnew⟩, hwd]

/-- The event about a removal is read, and the directory is forgotten. -/
theorem delete (h : Coherent k m) {i : InotifyEvent} {queue : List InotifyEvent}
    (hqueue : k.queue = i :: queue) (hsafe : SafeDelete m (m.eventPath i)) :
    Coherent { k with queue := queue } (m.forget (m.eventPath i)) := by
  set path := m.eventPath i
  have hkeep {path' : CString} (hmem : path' ∈ (m.forget path).pathToWd) {a : CString}
      (ha : a = path' ∨ Below a path') (hrecorded : a ∈ m.pathToWd) : a ≠ path := by
    -- nothing that is still recorded lies at or below `path`
    rintro rfl
    obtain ⟨hne, hmem⟩ := mem_pathToWd_forget.mp hmem
    rcases ha with ha | ha
    · exact hne ha.symm
    · exact hsafe hrecorded path' (AList.mem_keys.mp hmem) ha
  have hlookup {path' : CString} {wd : ℕ} (hwd : (m.forget path).pathToWd.lookup path' = some wd) :
      path' ≠ path ∧ m.pathToWd.lookup path' = some wd := by
    rw [RAppMonitor.pathToWd_forget] at hwd
    split at hwd
    · cases hwd
    · next hne => exact ⟨hne, hwd⟩
  refine ⟨h.wf.pop hqueue, h.slash, (h.watchInv.forget path).inverse, ?_, ?_, ?_, ?_, ?_⟩
  · exact fun path' wd hwd => h.used path' wd (hlookup hwd).2
  · exact fun path' path'' wd hwd hlive => h.owner path' path'' wd (hlookup hwd).2 hlive
  · exact fun path' hmem => h.below path' (mem_pathToWd_forget.mp hmem).2
  · intro path' hmem
    apply (h.parent path' (mem_pathToWd_forget.mp hmem).2).imp id
    rintro ⟨d, n, rfl, hn, hd⟩
    have hne := hkeep hmem (.inr (below_childPath d n)) hd
    exact ⟨d, n, rfl, hn, mem_pathToWd_forget.mpr ⟨hne, hd⟩⟩
  · intro path' wd hwd
    have hmem := mem_of_lookup hwd
    apply (h.alive path' wd (hlookup hwd).2).imp id
    rintro ⟨a, ha, hdoomed⟩
    have hne := hkeep hmem ha hdoomed.1
    refine ⟨a, ha, doomed_mono hdoomed (fun wd' dir name hdir hpath hi => ?_)
      (fun wd' dir hdir hbelow => ?_) (mem_pathToWd_forget.mpr ⟨hne, hdoomed.1⟩)⟩
    · rw [hqueue] at hi
      rcases List.mem_cons.mp hi with rfl | hi
      · refine absurd (hpath.trans ?_) hne
        simp [path, RAppMonitor.eventPath, hdir]
      · exact hi
    · apply h.wdToPath_forget_of_ne hdir
      rintro rfl
      have hrecorded := mem_of_lookup ((h.inverse _ _).mpr hdir)
      exact hsafe hrecorded a (AList.mem_keys.mp hdoomed.1) hbelow

end Coherent

end Uresourced
