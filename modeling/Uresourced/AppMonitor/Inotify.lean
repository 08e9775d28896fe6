import Uresourced.AppMonitor.Handler
import Uresourced.Lib.Runs

/-!
The monitor next to the kernel.

`Kernel` is the tree of directories below `app.slice` and the inotify instance of
the monitor: the live watches, the watch descriptors ever used, and the queue, which
holds what directories that are made and removed are reported by.
`Watching.step` interleaves changes of the tree with the tasks of the monitor, in
any order.
-/

namespace Uresourced

open CString Runs

structure DirStream where
  openedAt : ℕ
  returned : List CString
  deriving DecidableEq, Repr

/-- The kernel's side. A directory is mapped to the time it was made at, a
directory with a live watch to its watch descriptor. -/
structure Kernel where
  dirs : GHashTable CString ℕ
  clock : ℕ
  watches : CString → Option ℕ
  used : List ℕ
  queue : List InotifyEvent

def ValidName (name : CString) : Prop :=
  name ≠ [] ∧ '/' ∉ name ∧ name ≠ ".".toList ∧ name ≠ "..".toList

instance (name : CString) : Decidable (ValidName name) := inferInstanceAs (Decidable (_ ∧ _))

namespace Kernel

def init (root : CString) : Kernel where
  dirs := (∅ : GHashTable CString ℕ).insert root 0
  clock := 1
  watches := fun _ => none
  used := []
  queue := []

def notify (k : Kernel) (dir : CString) (mask : Mask) (name : CString) : Kernel :=
  { k with queue := k.queue ++ (k.watches dir).toList.map fun wd => ⟨wd, mask, name⟩ }

def mkdir (k : Kernel) (dir name : CString) : Option Kernel :=
  if dir ∈ k.dirs ∧ ValidName name ∧ childPath dir name ∉ k.dirs then
    some (({ k with
      dirs := k.dirs.insert (childPath dir name) k.clock
      clock := k.clock + 1 } : Kernel).notify dir .create name)
  else none

/-- Only a directory without directories in it can be removed; its watch ends. -/
def rmdir (k : Kernel) (dir name : CString) : Option Kernel :=
  if childPath dir name ∈ k.dirs ∧ ValidName name ∧ dir ∈ k.dirs ∧
      ∀ path ∈ k.dirs.keys, ¬ Below (childPath dir name) path then
    some (({ k with
      dirs := k.dirs.erase (childPath dir name)
      watches := Function.update k.watches (childPath dir name) none } : Kernel).notify
        dir .delete name)
  else none

/-- `inotify_add_watch`: a directory that is watched keeps its watch descriptor,
another one gets one that was never used. Granted is that the kernel refuses no watch
for a directory that exists. -/
def addWatch (k : Kernel) (path : CString) (fresh : ℕ) : Option (Option ℕ × Kernel) :=
  if path ∈ k.dirs then
    match k.watches path with
    | some wd => some (some wd, k)
    | none =>
        if 0 < fresh ∧ fresh ∉ k.used then
          some (some fresh, { k with
            watches := Function.update k.watches path (some fresh)
            used := fresh :: k.used })
        else none
  else some (none, k)

def rmWatch (k : Kernel) (wd : ℕ) : Kernel :=
  { k with watches := fun path => if k.watches path = some wd then none else k.watches path }

/-- A stream may end when it has returned all directories that were there
when it was opened and still are. -/
def Exhausted (k : Kernel) (dir : CString) (stream : DirStream) : Prop :=
  ∀ entry ∈ k.dirs.entries, dirname entry.1 = dir → entry.2 < stream.openedAt →
    basename entry.1 ∈ stream.returned

instance (k : Kernel) (dir : CString) (stream : DirStream) : Decidable (k.Exhausted dir stream) :=
  inferInstanceAs (Decidable (∀ entry ∈ k.dirs.entries, _))

end Kernel

/-- What the kernel leaves open: the next watch descriptor, the next name of a
stream or its end, and the files of a cgroup. -/
structure Oracle where
  fresh : ℕ
  entry : Option CString
  info : PathInfo
  deriving DecidableEq, Repr

/-- The kernel answers a task. A stream may return any name, once removed ones
and ones that are no directory included. -/
def Kernel.answer (k : Kernel) (o : Oracle) : Task DirStream → Option (Answer DirStream × Kernel)
  | .add path _ => (k.addWatch path o.fresh).map fun (wd, k) => (.addWatch wd, k)
  | .rmWatch wd => some (.removed, k.rmWatch wd)
  | .appInfo _ _ => some (.pathInfo o.info, k)
  | .openDir dir => some (.opened (if dir ∈ k.dirs then some ⟨k.clock, []⟩ else none), k)
  | .readName dir stream =>
      match o.entry with
      | some name =>
          if ValidName name then
            some (.read (some (name, { stream with returned := name :: stream.returned })), k)
          else none
      | none => if k.Exhausted dir stream then some (.read none, k) else none
  | .testDir dir name _ => some (.isDir (decide (childPath dir name ∈ k.dirs)), k)

structure Watching where
  kernel : Kernel
  monitor : RAppMonitor
  stack : List (Task DirStream)
  started : Bool

inductive Move
  | mkdir (dir name : CString)
  | rmdir (dir name : CString)
  | start
  | dispatch
  | run (oracle : Oracle)

namespace Watching

def init (uid : Uid) : Watching :=
  ⟨Kernel.init (RAppMonitor.init uid).appSlicePath, RAppMonitor.init uid, [], false⟩

def step (s : Watching) : Move → Option Watching
  | .mkdir dir name => (s.kernel.mkdir dir name).map fun k => { s with kernel := k }
  | .rmdir dir name => (s.kernel.rmdir dir name).map fun k => { s with kernel := k }
  | .start =>
      if s.started then none else some { s with stack := s.monitor.start, started := true }
  | .dispatch =>
      match s.started, s.stack, s.kernel.queue with
      | true, [], i :: queue =>
          let (monitor, tasks) := s.monitor.handleInotifyEvent i
          some { s with
            kernel := { s.kernel with queue := queue }
            monitor := monitor
            stack := tasks }
      | _, _, _ => none
  | .run o =>
      match s.stack with
      | [] => none
      | task :: rest => do
          let (answer, kernel) ← s.kernel.answer o task
          let (monitor, tasks, _) ← s.monitor.perform task answer
          return { s with kernel := kernel, monitor := monitor, stack := tasks ++ rest }

structure Quiescent (s : Watching) : Prop where
  started : s.started = true
  stack : s.stack = []
  queue : s.kernel.queue = []

structure Tracks (s : Watching) : Prop where
  keys : ∀ path, path ∈ s.monitor.pathToWd ↔ path ∈ s.kernel.dirs
  live : ∀ path wd, s.monitor.pathToWd.lookup path = some wd → s.kernel.watches path = some wd
  inverse : ∀ path wd, s.monitor.pathToWd.lookup path = some wd ↔
    s.monitor.wdToPath.lookup wd = some path
  apps : ∀ path ∈ s.monitor.appInfo, path ∈ s.kernel.dirs

end Watching

/-! ### What the kernel guarantees -/

namespace Kernel

/-- The tree is a tree with the given root, watches belong to one directory each,
and an event about a removed child of a watched directory is followed by one
about its return, if it has returned. -/
structure Wf (k : Kernel) (root : CString) : Prop where
  rootMem : root ∈ k.dirs
  below : ∀ path ∈ k.dirs, path = root ∨ Below root path
  tree : ∀ path ∈ k.dirs, path = root ∨
    ∃ dir name, path = childPath dir name ∧ ValidName name ∧ dir ∈ k.dirs
  births : ∀ path birth, k.dirs.lookup path = some birth → birth < k.clock
  live : ∀ path wd, k.watches path = some wd → path ∈ k.dirs ∧ wd ∈ k.used
  inj : ∀ path path' wd, k.watches path = some wd → k.watches path' = some wd → path = path'
  events : ∀ i ∈ k.queue, i.wd ∈ k.used ∧ ValidName i.name ∧ (i.mask = .create ∨ i.mask = .delete)
  positive : 0 ∉ k.used
  returned : ∀ wd name dir post, ⟨wd, .delete, name⟩ :: post <:+ k.queue →
    k.watches dir = some wd → childPath dir name ∈ k.dirs → ⟨wd, .create, name⟩ ∈ post

variable {k k' : Kernel} {root : CString}

theorem childPath_inj {dir dir' name name' : CString} (h : ValidName name) (h' : ValidName name')
    (heq : childPath dir name = childPath dir' name') : dir = dir' ∧ name = name' := by
  have hdir := congrArg dirname heq
  have hbase := congrArg basename heq
  rw [dirname_childPath h.2.1, dirname_childPath h'.2.1] at hdir
  rw [basename_childPath h.2.1, basename_childPath h'.2.1] at hbase
  exact ⟨hdir, hbase⟩

theorem wf_init (root : CString) : Wf (init root) root := by
  constructor
  · exact (AList.mem_insert _).mpr (.inl rfl)
  · intro path hpath
    exact .inl (((AList.mem_insert _).mp hpath).resolve_right (AList.notMem_empty path))
  · intro path hpath
    exact .inl (((AList.mem_insert _).mp hpath).resolve_right (AList.notMem_empty path))
  · intro path birth hbirth
    obtain ⟨-, rfl⟩ | ⟨-, hnone⟩ := GHashTable.lookup_insert_eq_some.mp hbirth
    · exact Nat.one_pos
    · cases (AList.lookup_empty path).symm.trans hnone
  · simp [init]
  · simp [init]
  · simp [init]
  · simp [init]
  · simp [init]

theorem mem_notify_queue {i : InotifyEvent} {dir name : CString} {mask : Mask} :
    i ∈ (k.notify dir mask name).queue ↔
      i ∈ k.queue ∨ ∃ wd, k.watches dir = some wd ∧ i = ⟨wd, mask, name⟩ := by
  simp [notify, eq_comm]

theorem suffix_notify_queue {i : InotifyEvent} {post : List InotifyEvent} {dir name : CString}
    {mask : Mask} (h : i :: post <:+ (k.notify dir mask name).queue) :
    (∃ wd, k.watches dir = some wd ∧ i = ⟨wd, mask, name⟩) ∨
      ∃ post', i :: post' <:+ k.queue ∧ post' ⊆ post ∧
        ∀ wd, k.watches dir = some wd → ⟨wd, mask, name⟩ ∈ post := by
  cases hwatch : k.watches dir with
  | none =>
      rw [show (k.notify dir mask name).queue = k.queue by simp [notify, hwatch]] at h
      exact .inr ⟨post, h, fun _ => id, nofun⟩
  | some wd =>
      rw [show (k.notify dir mask name).queue = k.queue ++ [⟨wd, mask, name⟩] by
        simp [notify, hwatch]] at h
      rcases List.suffix_concat_iff.mp h with hnil | ⟨t, ht, hsuffix⟩
      · cases hnil
      · cases t with
        | nil => exact .inl ⟨wd, rfl, (List.cons.inj ht).1⟩
        | cons j t =>
            obtain ⟨rfl, rfl⟩ := List.cons.inj ht
            refine .inr ⟨t, hsuffix, List.subset_append_left _ _, fun wd' hwd' => ?_⟩
            cases hwd'
            simp

theorem Wf.mkdir {dir name : CString} (h : Wf k root) (hk : k.mkdir dir name = some k') :
    Wf k' root := by
  simp only [Kernel.mkdir, Option.ite_none_right_eq_some, Option.some.injEq] at hk
  obtain ⟨⟨hdir, hname, hnew⟩, rfl⟩ := hk
  have hmem (path : CString) : path ∈ k.dirs.insert (childPath dir name) k.clock ↔
      path = childPath dir name ∨ path ∈ k.dirs := AList.mem_insert _
  constructor
  · exact (hmem root).mpr (.inr h.rootMem)
  · intro path hpath
    rcases (hmem path).mp hpath with rfl | hpath
    · exact .inr ((h.below dir hdir).elim (fun heq => heq ▸ below_childPath _ _)
        fun hbelow => hbelow.childPath name)
    · exact h.below path hpath
  · intro path hpath
    rcases (hmem path).mp hpath with rfl | hpath
    · exact .inr ⟨dir, name, rfl, hname, (hmem dir).mpr (.inr hdir)⟩
    · apply (h.tree path hpath).imp id
      rintro ⟨d, n, rfl, hn, hd⟩
      exact ⟨d, n, rfl, hn, (hmem d).mpr (.inr hd)⟩
  · intro path birth hbirth
    obtain ⟨-, rfl⟩ | ⟨-, hold⟩ := GHashTable.lookup_insert_eq_some.mp hbirth
    · exact Nat.lt_succ_self _
    · exact Nat.lt_succ_of_lt (h.births path birth hold)
  · intro path wd hwd
    exact ⟨(hmem path).mpr (.inr (h.live path wd hwd).1), (h.live path wd hwd).2⟩
  · exact h.inj
  · intro i hi
    rcases mem_notify_queue.mp hi with hi | ⟨wd, hwd, rfl⟩
    · exact h.events i hi
    · exact ⟨(h.live dir wd hwd).2, hname, .inl rfl⟩
  · exact h.positive
  · intro wd n d post hsuffix hwd hchild
    rcases suffix_notify_queue hsuffix with ⟨wd', _, heq⟩ | ⟨post', hsuffix', hsub, hlast⟩
    · cases heq
    · rcases (hmem _).mp hchild with heq | hchild
      · obtain ⟨hi, hn⟩ := (h.events _ (hsuffix'.subset (List.mem_cons_self ..))).2
        obtain ⟨rfl, rfl⟩ := childPath_inj hi hname heq
        exact hlast wd hwd
      · exact hsub (h.returned wd n d post' hsuffix' hwd hchild)

/-- The root stays. -/
theorem Wf.childPath_ne_root {dir name : CString} (h : Wf k root) (hdir : dir ∈ k.dirs) :
    childPath dir name ≠ root := by
  intro heq
  have hbelow : Below root (childPath dir name) :=
    (h.below dir hdir).elim (fun hd => hd ▸ below_childPath _ _) fun hb => hb.childPath name
  exact not_below_self root (heq ▸ hbelow)

theorem Wf.rmdir {dir name : CString} (h : Wf k root) (hk : k.rmdir dir name = some k') :
    Wf k' root := by
  simp only [Kernel.rmdir, Option.ite_none_right_eq_some, Option.some.injEq] at hk
  obtain ⟨⟨hold, hname, hdir, hempty⟩, rfl⟩ := hk
  have hmem (path : CString) : path ∈ k.dirs.erase (childPath dir name) ↔
      path ≠ childPath dir name ∧ path ∈ k.dirs := AList.mem_erase
  have hwatch {path : CString} {wd : ℕ}
      (hwd : Function.update k.watches (childPath dir name) none path = some wd) :
      path ≠ childPath dir name ∧ k.watches path = some wd := by
    by_cases heq : path = childPath dir name
    · simp [heq] at hwd
    · exact ⟨heq, by simpa [heq] using hwd⟩
  have hdirwatch : Function.update k.watches (childPath dir name) none dir = k.watches dir := by
    apply Function.update_of_ne
    intro heq
    have hbelow := below_childPath dir name
    rw [← heq] at hbelow
    exact not_below_self dir hbelow
  constructor
  · exact (hmem root).mpr ⟨(h.childPath_ne_root hdir).symm, h.rootMem⟩
  · exact fun path hpath => h.below path ((hmem path).mp hpath).2
  · intro path hpath
    apply (h.tree path ((hmem path).mp hpath).2).imp id
    rintro ⟨d, n, rfl, hn, hd⟩
    refine ⟨d, n, rfl, hn, (hmem d).mpr ⟨?_, hd⟩⟩
    rintro rfl
    exact hempty _ (AList.mem_keys.mp ((hmem _).mp hpath).2) (below_childPath _ n)
  · intro path birth hbirth
    exact h.births path birth (GHashTable.lookup_erase_eq_some.mp hbirth).2
  · intro path wd hwd
    obtain ⟨hne, hwd⟩ := hwatch hwd
    exact ⟨(hmem path).mpr ⟨hne, (h.live path wd hwd).1⟩, (h.live path wd hwd).2⟩
  · exact fun path path' wd hwd hwd' => h.inj path path' wd (hwatch hwd).2 (hwatch hwd').2
  · intro i hi
    rcases mem_notify_queue.mp hi with hi | ⟨wd, hwd, rfl⟩
    · exact h.events i hi
    · exact ⟨(h.live dir wd (hdirwatch ▸ hwd)).2, hname, .inr rfl⟩
  · exact h.positive
  · intro wd n d post hsuffix hwd hchild
    obtain ⟨hne, hwd⟩ := hwatch hwd
    rcases suffix_notify_queue hsuffix with ⟨wd', hwd', heq⟩ | ⟨post', hsuffix', hsub, _⟩
    · -- the event about this very removal
      cases heq
      obtain rfl := h.inj d dir wd hwd (hdirwatch ▸ hwd')
      exact absurd rfl ((hmem _).mp hchild).1
    · exact hsub (h.returned wd n d post' hsuffix' hwd ((hmem _).mp hchild).2)

/-- The watch descriptor that `inotify_add_watch` returns: the one of the live
watch, or a fresh one. -/
theorem addWatch_cases {path : CString} {fresh wd : ℕ}
    (hk : k.addWatch path fresh = some (some wd, k')) :
    path ∈ k.dirs ∧ ((k.watches path = some wd ∧ k' = k) ∨
      (k.watches path = none ∧ 0 < wd ∧ wd ∉ k.used ∧
        k' = { k with
          watches := Function.update k.watches path (some wd)
          used := wd :: k.used })) := by
  unfold addWatch at hk
  split at hk
  · next hpath =>
    refine ⟨hpath, ?_⟩
    split at hk
    · next hwd =>
      cases hk
      exact .inl ⟨hwd, rfl⟩
    · next hwd =>
      split at hk
      · next hfresh =>
        cases hk
        exact .inr ⟨hwd, hfresh.1, hfresh.2, rfl⟩
      · cases hk
  · cases hk

theorem addWatch_none {path : CString} {fresh : ℕ}
    (hk : k.addWatch path fresh = some (none, k')) : path ∉ k.dirs ∧ k' = k := by
  unfold addWatch at hk
  split at hk
  · split at hk
    · cases hk
    · split at hk <;> cases hk
  · next hpath =>
    cases hk
    exact ⟨hpath, rfl⟩

theorem Wf.addWatch {path : CString} {fresh wd : ℕ} (h : Wf k root)
    (hk : k.addWatch path fresh = some (some wd, k')) : Wf k' root := by
  obtain ⟨hpath, ⟨_, rfl⟩ | ⟨hnone, hpos, hfresh, rfl⟩⟩ := addWatch_cases hk
  · exact h
  · have hwatch {p : CString} {w : ℕ}
        (hw : Function.update k.watches path (some wd) p = some w) :
        (p = path ∧ w = wd) ∨ (p ≠ path ∧ k.watches p = some w) := by
      by_cases heq : p = path
      · subst heq
        simp only [Function.update_self, Option.some.injEq] at hw
        exact .inl ⟨rfl, hw.symm⟩
      · exact .inr ⟨heq, by simpa [heq] using hw⟩
    refine ⟨h.rootMem, h.below, h.tree, h.births, ?_, ?_, ?_, ?_, ?_⟩
    · intro p w hw
      rcases hwatch hw with ⟨rfl, rfl⟩ | ⟨_, hw⟩
      · exact ⟨hpath, List.mem_cons_self⟩
      · exact ⟨(h.live p w hw).1, List.mem_cons_of_mem _ (h.live p w hw).2⟩
    · intro p q w hp hq
      rcases hwatch hp with ⟨rfl, rfl⟩ | ⟨_, hp'⟩
      · rcases hwatch hq with ⟨rfl, _⟩ | ⟨_, hq'⟩
        · rfl
        · exact absurd (h.live q w hq').2 hfresh
      · rcases hwatch hq with ⟨rfl, rfl⟩ | ⟨_, hq'⟩
        · exact absurd (h.live p w hp').2 hfresh
        · exact h.inj p q w hp' hq'
    · exact fun i hi => ⟨List.mem_cons_of_mem _ (h.events i hi).1, (h.events i hi).2⟩
    · simp only [List.mem_cons, not_or]
      exact ⟨hpos.ne, h.positive⟩
    · intro w n d post hsuffix hw hchild
      rcases hwatch hw with ⟨rfl, rfl⟩ | ⟨_, hw⟩
      · exact absurd (h.events _ (hsuffix.subset List.mem_cons_self)).1 hfresh
      · exact h.returned w n d post hsuffix hw hchild

theorem watches_rmWatch {path : CString} {wd wd' : ℕ} :
    (k.rmWatch wd).watches path = some wd' ↔ k.watches path = some wd' ∧ wd' ≠ wd := by
  simp only [rmWatch]
  split
  · next h =>
    rw [h]
    simp only [Option.some.injEq, reduceCtorEq, false_iff, not_and, not_not]
    exact Eq.symm
  · next h =>
    refine ⟨fun hw => ⟨hw, fun heq => h (heq ▸ hw)⟩, And.left⟩

theorem Wf.rmWatch (h : Wf k root) (wd : ℕ) : Wf (k.rmWatch wd) root where
  rootMem := h.rootMem
  below := h.below
  tree := h.tree
  births := h.births
  live path w hw := h.live path w (watches_rmWatch.mp hw).1
  inj path path' w hw hw' := h.inj path path' w (watches_rmWatch.mp hw).1 (watches_rmWatch.mp hw').1
  events := h.events
  positive := h.positive
  returned w n d post hsuffix hw := h.returned w n d post hsuffix (watches_rmWatch.mp hw).1

theorem Wf.pop {i : InotifyEvent} {queue : List InotifyEvent} (h : Wf k root)
    (hqueue : k.queue = i :: queue) : Wf { k with queue := queue } root where
  rootMem := h.rootMem
  below := h.below
  tree := h.tree
  births := h.births
  live := h.live
  inj := h.inj
  events j hj := h.events j (hqueue ▸ List.mem_cons_of_mem i hj)
  positive := h.positive
  returned w n d post hsuffix :=
    h.returned w n d post (hqueue ▸ hsuffix.trans (List.suffix_cons i queue))

end Kernel

end Uresourced
