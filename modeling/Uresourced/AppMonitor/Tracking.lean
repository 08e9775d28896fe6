import Uresourced.AppMonitor.Tables

/-!
When the tables of the monitor describe the tree.

A directory may be found by the walk and again by its own event, and it may be
removed and made again while events about it are still queued. `Found` says that
a directory that is not recorded yet is going to be, as long as its parent is
watched; together with `Coherent` it is what every safe step preserves.
-/

namespace Uresourced

open CString Runs

/-! ### What is still to be found -/

def Task.stream? : Task DirStream → Option (CString × DirStream)
  | .readName dir stream => some (dir, stream)
  | .testDir dir _ stream => some (dir, stream)
  | .add _ (.walk dir _ stream) => some (dir, stream)
  | _ => none

/-- A recorded directory whose recorded watch is alive. -/
def Watched (k : Kernel) (m : RAppMonitor) (path : CString) (wd : ℕ) : Prop :=
  m.pathToWd.lookup path = some wd ∧ k.watches path = some wd

/-- A directory in a watched directory that is going to be added: its event is
queued, or the walk is on its way to it. -/
inductive Pending (k : Kernel) (stack : List (Task DirStream)) (dir name : CString) (wd : ℕ) : Prop
  | created : ⟨wd, .create, name⟩ ∈ k.queue → Pending k stack dir name wd
  | opening : .openDir dir ∈ stack → Pending k stack dir name wd
  | testing {stream : DirStream} :
      .testDir dir name stream ∈ stack → Pending k stack dir name wd
  | adding {caller : Caller DirStream} :
      .add (childPath dir name) caller ∈ stack → Pending k stack dir name wd
  | reading {task : Task DirStream} {stream : DirStream} {birth : ℕ} :
      task ∈ stack → task.stream? = some (dir, stream) →
      k.dirs.lookup (childPath dir name) = some birth → birth < stream.openedAt →
      name ∉ stream.returned → Pending k stack dir name wd

def Found (k : Kernel) (m : RAppMonitor) (stack : List (Task DirStream)) : Prop :=
  ∀ dir name wd, ValidName name → childPath dir name ∈ k.dirs → Watched k m dir wd →
    (∃ wd', Watched k m (childPath dir name) wd') ∨ Pending k stack dir name wd

def Task.Waits : Task DirStream → Prop
  | .appInfo _ _ | .openDir _ | .readName _ _ => True
  | _ => False

/-- What the stack looks like: only the first task adds or removes a watch, the
walk into an added directory follows, a watch that is to be removed is in no
table, and applications are looked up for recorded directories. -/
structure Shape (m : RAppMonitor) (stack : List (Task DirStream)) : Prop where
  tail : ∀ task ∈ stack.tail, task.Waits
  first : ∀ path caller, stack.head? = some (.add path caller) →
    (Task.add path caller).stream? = none → .openDir path ∈ stack.tail
  removed : ∀ wd, .rmWatch wd ∈ stack → m.wdToPath.lookup wd = none
  apps : ∀ path notify, .appInfo path notify ∈ stack → path ∈ m.pathToWd

namespace Watching

structure Inv (s : Watching) : Prop where
  coherent : Coherent s.kernel s.monitor
  found : Found s.kernel s.monitor s.stack
  shape : Shape s.monitor s.stack
  rootFound : s.started = true → (∃ wd, Watched s.kernel s.monitor s.monitor.appSlicePath wd) ∨
    ∃ caller, .add s.monitor.appSlicePath caller ∈ s.stack
  apps : ∀ path ∈ s.monitor.appInfo, path ∈ s.monitor.pathToWd
  fresh : s.started = false → s.stack = [] ∧ s.kernel.queue = [] ∧
    (∀ path, path ∉ s.monitor.pathToWd) ∧ ∀ path, s.kernel.watches path = none

def SafeTask (s : Watching) : Task DirStream → Prop
  | .add path _ => path ∈ s.kernel.dirs → SafeAdd s.kernel s.monitor path
  | _ => True

/-- The steps under which the tables go on describing the tree. -/
def Safe (s : Watching) : Move → Prop
  | .run _ => ∀ task ∈ s.stack.head?, s.SafeTask task
  | .dispatch => ∀ i ∈ s.kernel.queue.head?, i.mask = .delete →
      SafeDelete s.monitor (s.monitor.eventPath i)
  | _ => True

instance (s : Watching) : (task : Task DirStream) → Decidable (s.SafeTask task)
  | .add _ _ => inferInstanceAs (Decidable (_ → _))
  | .rmWatch _ | .appInfo _ _ | .openDir _ | .readName _ _ | .testDir _ _ _ => isTrue trivial

instance (s : Watching) : (move : Move) → Decidable (s.Safe move)
  | .run _ => inferInstanceAs (Decidable (∀ task ∈ s.stack.head?, s.SafeTask task))
  | .dispatch => inferInstanceAs (Decidable (∀ i ∈ s.kernel.queue.head?, i.mask = .delete →
      SafeDelete s.monitor (s.monitor.eventPath i)))
  | .mkdir _ _ | .rmdir _ _ | .start => isTrue trivial

/-! ### Steps of the invariant -/

section Steps

variable {k k' : Kernel} {m m' : RAppMonitor} {stack stack' rest : List (Task DirStream)}

theorem pending_mono {dir name : CString} {wd : ℕ} (h : Pending k stack dir name wd)
    (hqueue : ⟨wd, .create, name⟩ ∈ k.queue → ⟨wd, .create, name⟩ ∈ k'.queue)
    (hdirs : ∀ birth, k.dirs.lookup (childPath dir name) = some birth →
      k'.dirs.lookup (childPath dir name) = some birth)
    (hstack : ∀ task ∈ stack, task ∈ stack') : Pending k' stack' dir name wd := by
  cases h with
  | created hevent => exact .created (hqueue hevent)
  | opening htask => exact .opening (hstack _ htask)
  | testing htask => exact .testing (hstack _ htask)
  | adding htask => exact .adding (hstack _ htask)
  | reading htask hstream hbirth hlt hnot =>
      exact .reading (hstack _ htask) hstream (hdirs _ hbirth) hlt hnot

theorem pending_cons {task : Task DirStream} {dir name : CString} {wd : ℕ}
    (h : Pending k (task :: rest) dir name wd) :
    Pending k rest dir name wd ∨ task = .openDir dir ∨ (∃ stream, task = .testDir dir name stream) ∨
      (∃ caller, task = .add (childPath dir name) caller) ∨
      ∃ stream birth, task.stream? = some (dir, stream) ∧
        k.dirs.lookup (childPath dir name) = some birth ∧ birth < stream.openedAt ∧
        name ∉ stream.returned := by
  cases h with
  | created hevent => exact .inl (.created hevent)
  | opening htask =>
      rcases List.mem_cons.mp htask with heq | htask
      · exact .inr (.inl heq.symm)
      · exact .inl (.opening htask)
  | testing htask =>
      rcases List.mem_cons.mp htask with heq | htask
      · exact .inr (.inr (.inl ⟨_, heq.symm⟩))
      · exact .inl (.testing htask)
  | adding htask =>
      rcases List.mem_cons.mp htask with heq | htask
      · exact .inr (.inr (.inr (.inl ⟨_, heq.symm⟩)))
      · exact .inl (.adding htask)
  | reading htask hstream hbirth hlt hnot =>
      rcases List.mem_cons.mp htask with heq | htask
      · exact .inr (.inr (.inr (.inr ⟨_, _, heq ▸ hstream, hbirth, hlt, hnot⟩)))
      · exact .inl (.reading htask hstream hbirth hlt hnot)

theorem pending_append {new : List (Task DirStream)} {dir name : CString} {wd : ℕ}
    (h : Pending k rest dir name wd) : Pending k (new ++ rest) dir name wd :=
  pending_mono h id (fun _ => id) fun _ => List.mem_append_right new

/-- Tasks that wait neither add nor remove a watch. -/
theorem shape_of_waits (hwaits : ∀ task ∈ stack, task.Waits)
    (happs : ∀ path notify, .appInfo path notify ∈ stack → path ∈ m.pathToWd) : Shape m stack where
  tail task htask := hwaits task (List.mem_of_mem_tail htask)
  first _ _ hhead _ := (hwaits _ (List.mem_of_head? hhead)).elim
  removed _ hmem := (hwaits _ hmem).elim
  apps := happs

theorem waits_of_shape {task : Task DirStream} (h : Shape m (task :: rest)) :
    ∀ t ∈ rest, t.Waits := h.tail

theorem apps_of_shape {task : Task DirStream} (h : Shape m (task :: rest)) (path : CString)
    (notify : Bool) (hmem : .appInfo path notify ∈ rest) : path ∈ m.pathToWd :=
  h.apps path notify (List.mem_cons_of_mem _ hmem)

end Steps

theorem Inv.mkdir {s : Watching} (h : Inv s) {dir name : CString} {k : Kernel}
    (hk : s.kernel.mkdir dir name = some k) : Inv { s with kernel := k } := by
  have hcoherent := h.coherent.mkdir hk
  simp only [Kernel.mkdir, Option.ite_none_right_eq_some, Option.some.injEq] at hk
  obtain ⟨⟨_, hname, hnew⟩, rfl⟩ := hk
  refine ⟨hcoherent, ?_, h.shape, h.rootFound, h.apps, ?_⟩
  · intro d n wd hn hchild hwatched
    rcases (AList.mem_insert _).mp hchild with heq | hchild
    · obtain ⟨rfl, rfl⟩ := Kernel.childPath_inj hn hname heq
      exact .inr (.created (Kernel.mem_notify_queue.mpr (.inr ⟨wd, hwatched.2, rfl⟩)))
    · refine (h.found d n wd hn hchild hwatched).imp id fun hpending => ?_
      refine pending_mono hpending (fun hi => Kernel.mem_notify_queue.mpr (.inl hi))
        (fun birth hbirth => ?_) fun _ => id
      have hne : childPath d n ≠ childPath dir name := fun heq => hnew (heq ▸ hchild)
      simpa [Kernel.notify, GHashTable.lookup_insert, hne] using hbirth
  · intro hstarted
    obtain ⟨hstack, hqueue, hpaths, hwatches⟩ := h.fresh hstarted
    exact ⟨hstack, by simp [Kernel.notify, hwatches, hqueue], hpaths, hwatches⟩

theorem Inv.rmdir {s : Watching} (h : Inv s) {dir name : CString} {k : Kernel}
    (hk : s.kernel.rmdir dir name = some k) : Inv { s with kernel := k } := by
  have hcoherent := h.coherent.rmdir hk
  simp only [Kernel.rmdir, Option.ite_none_right_eq_some, Option.some.injEq] at hk
  obtain ⟨⟨_, _, hdir, _⟩, rfl⟩ := hk
  have hlive {path : CString} {wd : ℕ} (hne : path ≠ childPath dir name) :
      Function.update s.kernel.watches (childPath dir name) none path = some wd ↔
        s.kernel.watches path = some wd := by
    rw [Function.update_of_ne hne]
  refine ⟨hcoherent, ?_, h.shape, ?_, h.apps, ?_⟩
  · intro d n wd hn hchild hwatched
    obtain ⟨hne, hchild⟩ := AList.mem_erase.mp hchild
    have hne' : d ≠ childPath dir name := by
      rintro rfl
      exact absurd hwatched.2 (by simp [Kernel.notify])
    refine (h.found d n wd hn hchild ⟨hwatched.1, (hlive hne').mp hwatched.2⟩).imp ?_ ?_
    · rintro ⟨wd', hrecorded, hwatches⟩
      exact ⟨wd', hrecorded, (hlive hne).mpr hwatches⟩
    · intro hpending
      refine pending_mono hpending (fun hi => Kernel.mem_notify_queue.mpr (.inl hi))
        (fun birth hbirth => ?_) fun _ => id
      simpa [Kernel.notify, GHashTable.lookup_erase, hne] using hbirth
  · intro hstarted
    refine (h.rootFound hstarted).imp ?_ id
    rintro ⟨wd, hrecorded, hwatches⟩
    exact ⟨wd, hrecorded, (hlive (h.coherent.wf.childPath_ne_root hdir).symm).mpr hwatches⟩
  · intro hstarted
    obtain ⟨hstack, hqueue, hpaths, hwatches⟩ := h.fresh hstarted
    have hupdate : Function.update s.kernel.watches (childPath dir name) none =
        s.kernel.watches := by
      ext path
      by_cases heq : path = childPath dir name <;> simp [heq, hwatches]
    refine ⟨hstack, ?_, hpaths, ?_⟩
    · simp [Kernel.notify, hupdate, hwatches, hqueue]
    · simp [Kernel.notify, hupdate, hwatches]

theorem Inv.start {s : Watching} (h : Inv s) (hstarted : s.started = false) :
    Inv { s with stack := s.monitor.start, started := true } := by
  obtain ⟨_, _, hpaths, _⟩ := h.fresh hstarted
  refine ⟨h.coherent, ?_, ?_, fun _ => .inr ⟨.start, List.mem_cons_self⟩, h.apps, nofun⟩
  · intro d n wd _ _ hwatched
    exact absurd (Coherent.mem_of_lookup hwatched.1) (hpaths d)
  · refine ⟨?_, ?_, ?_, ?_⟩
    · simp [RAppMonitor.start, Task.Waits]
    · intro path caller hhead _
      cases hhead
      exact List.mem_cons_self
    · simp [RAppMonitor.start]
    · simp [RAppMonitor.start]

/-! ### Steps of a running function -/

theorem mem_addedTasks {m : RAppMonitor} {path : CString} {task : Task DirStream}
    (h : task ∈ m.addedTasks path) :
    (∃ wd, m.pathToWd.lookup path = some wd ∧ task = .rmWatch wd) ∨ task = .appInfo path false := by
  rcases List.mem_append.mp h with h | h
  · obtain ⟨wd, hwd, rfl⟩ := List.mem_map.mp h
    exact .inl ⟨wd, Option.mem_toList.mp hwd, rfl⟩
  · split at h
    · cases h
    · exact .inr (List.mem_singleton.mp h)

theorem tail_addedTasks {m : RAppMonitor} {path : CString} {task : Task DirStream}
    (h : task ∈ (m.addedTasks path).tail) : task = .appInfo path false := by
  unfold RAppMonitor.addedTasks at h
  by_cases hslice : m.IsSlice path
  · cases hold : m.pathToWd.lookup path <;> simp [hslice, hold] at h
  · cases hold : m.pathToWd.lookup path <;> simp [hslice, hold] at h
    exact h

theorem mem_addReturns {path : CString} {caller : Caller DirStream}
    {tasks : List (Task DirStream)} (h : RAppMonitor.addReturns path true caller = some tasks) :
    (∀ task ∈ tasks, task.Waits ∧ ∀ p notify, task ≠ .appInfo p notify) ∧
      ((Task.add path caller).stream? ≠ none → .openDir path ∈ tasks) ∧
      ∀ dir stream, (Task.add path caller).stream? = some (dir, stream) →
        .readName dir stream ∈ tasks := by
  cases caller with
  | start =>
      obtain rfl := Option.some.inj h
      exact ⟨by simp, by simp [Task.stream?], by simp [Task.stream?]⟩
  | handler =>
      obtain rfl := Option.some.inj h
      exact ⟨by simp, by simp [Task.stream?], by simp [Task.stream?]⟩
  | walk dir name stream =>
      obtain rfl := Option.some.inj h
      exact ⟨by simp [Task.Waits], by simp, by simp +contextual [Task.stream?]⟩

/-- After the call the directory is watched by the new watch, and nothing else
has changed. -/
theorem watched_add {k k' : Kernel} {m : RAppMonitor} {path : CString} {fresh wd : ℕ}
    (hk : k.addWatch path fresh = some (some wd, k')) (path' : CString) (wd' : ℕ) :
    Watched k' (m.inotifyAddCgroupDir path wd) path' wd' ↔
      (path' = path ∧ wd' = wd) ∨ (path' ≠ path ∧ Watched k m path' wd') := by
  unfold Watched
  rw [RAppMonitor.pathToWd_add, Coherent.watches_addWatch hk]
  by_cases heq : path' = path
  · simp [heq, eq_comm]
  · simp [heq]

theorem watched_add_of_watched {k k' : Kernel} {m : RAppMonitor} {path path' : CString}
    {fresh wd : ℕ} (hk : k.addWatch path fresh = some (some wd, k'))
    (hw : ∃ wd', Watched k m path' wd') :
    ∃ wd', Watched k' (m.inotifyAddCgroupDir path wd) path' wd' := by
  by_cases heq : path' = path
  · exact ⟨wd, (watched_add hk _ _).mpr (.inl ⟨heq, rfl⟩)⟩
  · exact hw.imp fun wd' hwd' => (watched_add hk _ _).mpr (.inr ⟨heq, hwd'⟩)

/-- The stack after a successful call: the old watch is no longer in a table, and
everything else waits. -/
theorem shape_added {k : Kernel} {m : RAppMonitor} {path : CString} {caller : Caller DirStream}
    {rest tasks : List (Task DirStream)} {wd : ℕ} (h : Shape m (.add path caller :: rest))
    (hcoherent : Coherent k m) (hnew : m.wdToPath.lookup wd = none)
    (hret : RAppMonitor.addReturns path true caller = some tasks) :
    Shape (m.inotifyAddCgroupDir path wd) (m.addedTasks path ++ tasks ++ rest) := by
  have htasks := (mem_addReturns hret).1
  have hwaiting {task : Task DirStream} (htask : task ∈ tasks ++ rest) : task.Waits :=
    (List.mem_append.mp htask).elim (fun ht => (htasks task ht).1) (waits_of_shape h task)
  rw [List.append_assoc]
  constructor
  · intro task htask
    cases hadded : m.addedTasks (δ := DirStream) path with
    | nil => exact hwaiting (List.mem_of_mem_tail (by simpa [hadded] using htask))
    | cons first others =>
        simp only [hadded, List.cons_append, List.tail_cons] at htask
        rcases List.mem_append.mp htask with htask | htask
        · have htail : task ∈ (m.addedTasks path).tail := by
            rw [hadded]
            exact htask
          rw [tail_addedTasks htail]
          trivial
        · exact hwaiting htask
  · intro p c hhead _
    rcases List.mem_append.mp (List.mem_of_head? hhead) with htask | htask
    · rcases mem_addedTasks htask with ⟨_, _, heq⟩ | heq <;> cases heq
    · exact (hwaiting htask).elim
  · intro old htask
    rcases List.mem_append.mp htask with htask | htask
    · rcases mem_addedTasks htask with ⟨_, hold, heq⟩ | heq
      · cases heq
        have hne : old ≠ wd := by
          rintro rfl
          cases hnew.symm.trans ((hcoherent.inverse _ _).mp hold)
        rw [RAppMonitor.wdToPath_add, if_neg hne, if_pos hold]
      · cases heq
    · exact (hwaiting htask).elim
  · intro p notify htask
    rw [RAppMonitor.mem_pathToWd_add]
    rcases List.mem_append.mp htask with htask | htask
    · rcases mem_addedTasks htask with ⟨_, _, heq⟩ | heq
      · cases heq
      · cases heq
        exact .inl rfl
    · rcases List.mem_append.mp htask with htask | htask
      · exact absurd rfl ((htasks _ htask).2 p notify)
      · exact .inr (apps_of_shape h p notify htask)

theorem Inv.addSucceeds {s : Watching} (h : Inv s) {path : CString} {caller : Caller DirStream}
    {rest tasks : List (Task DirStream)} {fresh wd : ℕ} {k : Kernel}
    (hstack : s.stack = .add path caller :: rest)
    (hk : s.kernel.addWatch path fresh = some (some wd, k))
    (hret : RAppMonitor.addReturns path true caller = some tasks)
    (hsafe : SafeAdd s.kernel s.monitor path) :
    Inv { s with
      kernel := k
      monitor := s.monitor.inotifyAddCgroupDir path wd
      stack := s.monitor.addedTasks path ++ tasks ++ rest } := by
  have hshape := hstack ▸ h.shape
  have hnew := h.coherent.wdToPath_addWatch hk hsafe
  have hwatched := watched_add (m := s.monitor) hk
  obtain ⟨_, hopen, hstream⟩ := mem_addReturns hret
  have hkernel : k.queue = s.kernel.queue ∧ k.dirs = s.kernel.dirs := by
    obtain ⟨_, ⟨_, rfl⟩ | ⟨_, _, _, rfl⟩⟩ := Kernel.addWatch_cases hk <;> exact ⟨rfl, rfl⟩
  -- the walk into the new directory is on the stack
  have hopened : .openDir path ∈ s.monitor.addedTasks path ++ tasks ++ rest := by
    by_cases hcaller : (Task.add path caller).stream? = none
    · exact List.mem_append_right _ (hshape.first path caller rfl hcaller)
    · exact List.mem_append_left _ (List.mem_append_right _ (hopen hcaller))
  refine ⟨h.coherent.add hk hsafe, ?_, shape_added hshape h.coherent hnew hret, ?_, ?_, ?_⟩
  · intro d n wd' hn hchild hd
    rw [hkernel.2] at hchild
    rcases (hwatched d wd').mp hd with ⟨rfl, _⟩ | ⟨_, hd⟩
    · exact .inr (.opening hopened)
    · rcases h.found d n wd' hn hchild hd with hw | hpending
      · exact .inl (watched_add_of_watched hk hw)
      · rw [hstack] at hpending
        rcases pending_cons hpending with hp | heq | ⟨_, heq⟩ | ⟨_, heq⟩ |
          ⟨stream, birth, hst, hbirth, hlt, hnot⟩
        · exact .inr (pending_mono hp (fun hi => hkernel.1 ▸ hi) (fun _ hb => hkernel.2 ▸ hb)
            fun _ => List.mem_append_right _)
        · cases heq
        · cases heq
        · obtain ⟨rfl, _⟩ := Task.add.inj heq
          exact .inl ⟨wd, (hwatched _ _).mpr (.inl ⟨rfl, rfl⟩)⟩
        · have htask : .readName d stream ∈ s.monitor.addedTasks path ++ tasks ++ rest :=
            List.mem_append_left _ (List.mem_append_right _ (hstream d stream hst))
          exact .inr (.reading htask rfl (hkernel.2 ▸ hbirth) hlt hnot)
  · intro hstarted
    rw [RAppMonitor.appSlicePath_add]
    left
    rcases h.rootFound hstarted with hw | ⟨c, hc⟩
    · exact watched_add_of_watched hk hw
    · rw [hstack] at hc
      rcases List.mem_cons.mp hc with heq | hc
      · obtain ⟨heq, _⟩ := Task.add.inj heq
        exact ⟨wd, (hwatched _ _).mpr (.inl ⟨heq, rfl⟩)⟩
      · exact (waits_of_shape hshape _ hc).elim
  · intro p hp
    rw [RAppMonitor.appInfo_add] at hp
    exact (s.monitor.mem_pathToWd_add path wd p).mpr (.inr (h.apps p hp))
  · intro hstarted
    rw [(h.fresh hstarted).1] at hstack
    cases hstack

/-- A task that neither changes the tables of watches nor the tree is replaced by
its successors. -/
theorem Inv.replace {s : Watching} (h : Inv s) {task : Task DirStream}
    (new : List (Task DirStream)) {rest : List (Task DirStream)} (hstack : s.stack = task :: rest)
    (hroot : ∀ caller, task ≠ .add s.monitor.appSlicePath caller)
    (hfound : ∀ dir name wd, ValidName name → childPath dir name ∈ s.kernel.dirs →
      Watched s.kernel s.monitor dir wd → Pending s.kernel (task :: rest) dir name wd →
      Pending s.kernel (new ++ rest) dir name wd)
    (hshape : Shape s.monitor (new ++ rest)) : Inv { s with stack := new ++ rest } := by
  refine ⟨h.coherent, ?_, hshape, ?_, h.apps, ?_⟩
  · intro d n wd hn hchild hd
    refine (h.found d n wd hn hchild hd).imp id fun hpending => ?_
    exact hfound d n wd hn hchild hd (hstack ▸ hpending)
  · intro hstarted
    rcases h.rootFound hstarted with hw | ⟨c, hc⟩
    · exact .inl hw
    · rw [hstack] at hc
      rcases List.mem_cons.mp hc with heq | hc
      · exact absurd heq.symm (hroot c)
      · exact .inr ⟨c, List.mem_append_right new hc⟩
  · intro hstarted
    rw [(h.fresh hstarted).1] at hstack
    cases hstack

theorem shape_rest {m : RAppMonitor} {task : Task DirStream} {rest : List (Task DirStream)}
    (h : Shape m (task :: rest)) : Shape m rest :=
  shape_of_waits (waits_of_shape h) (apps_of_shape h)

theorem shape_next {m : RAppMonitor} {task next : Task DirStream} {rest : List (Task DirStream)}
    (h : Shape m (task :: rest)) (hadd : ∀ path caller, next = .add path caller →
      next.stream? ≠ none) (hrm : ∀ wd, next ≠ .rmWatch wd)
    (happ : ∀ path notify, next ≠ .appInfo path notify) : Shape m (next :: rest) where
  tail := h.tail
  first path caller hhead hstream := by
    obtain rfl := Option.some.inj hhead
    exact absurd hstream (hadd path caller rfl)
  removed wd hmem := by
    rcases List.mem_cons.mp hmem with heq | hmem
    · exact absurd heq.symm (hrm wd)
    · exact (waits_of_shape h _ hmem).elim
  apps path notify hmem := by
    rcases List.mem_cons.mp hmem with heq | hmem
    · exact absurd heq.symm (happ path notify)
    · exact apps_of_shape h path notify hmem

/-- The directory has disappeared: the walk looks at the name again, the handler
goes on. -/
theorem Inv.addFails {s : Watching} (h : Inv s) {path : CString} {caller : Caller DirStream}
    {rest tasks : List (Task DirStream)} (hstack : s.stack = .add path caller :: rest)
    (hpath : path ∉ s.kernel.dirs)
    (hret : RAppMonitor.addReturns path false caller = some tasks) :
    Inv { s with stack := tasks ++ rest } := by
  have hshape := hstack ▸ h.shape
  refine h.replace _ hstack ?_ ?_ ?_
  · rintro c heq
    obtain ⟨rfl, _⟩ := Task.add.inj heq
    exact hpath h.coherent.wf.rootMem
  · intro d n wd _ hchild _ hpending
    rcases pending_cons hpending with hp | heq | ⟨_, heq⟩ | ⟨_, heq⟩ |
      ⟨stream, birth, hst, hbirth, hlt, hnot⟩
    · exact pending_append hp
    · cases heq
    · cases heq
    · obtain ⟨rfl, _⟩ := Task.add.inj heq
      exact absurd hchild hpath
    · cases caller with
      | start => cases hst
      | handler => cases hst
      | walk dir name st =>
          cases hst
          obtain rfl := Option.some.inj hret
          exact .reading List.mem_cons_self rfl hbirth hlt hnot
  · cases caller with
    | start => cases hret
    | handler =>
        obtain rfl := Option.some.inj hret
        exact shape_rest hshape
    | walk dir name st =>
        obtain rfl := Option.some.inj hret
        exact shape_next hshape nofun nofun nofun

theorem Inv.rmWatch {s : Watching} (h : Inv s) {wd : ℕ} {rest : List (Task DirStream)}
    (hstack : s.stack = .rmWatch wd :: rest) :
    Inv { s with kernel := s.kernel.rmWatch wd, stack := rest } := by
  have hshape := hstack ▸ h.shape
  have hnone := hshape.removed wd List.mem_cons_self
  have hwatched {path : CString} {wd' : ℕ} (hw : Watched s.kernel s.monitor path wd') :
      Watched (s.kernel.rmWatch wd) s.monitor path wd' := by
    refine ⟨hw.1, Kernel.watches_rmWatch.mpr ⟨hw.2, ?_⟩⟩
    rintro rfl
    cases hnone.symm.trans ((h.coherent.inverse _ _).mp hw.1)
  refine ⟨h.coherent.rmWatch hnone, ?_, shape_rest hshape, ?_, h.apps, ?_⟩
  · intro d n wd' hn hchild hd
    have hd' : Watched s.kernel s.monitor d wd' := ⟨hd.1, (Kernel.watches_rmWatch.mp hd.2).1⟩
    rcases h.found d n wd' hn hchild hd' with ⟨w, hw⟩ | hpending
    · exact .inl ⟨w, hwatched hw⟩
    · rw [hstack] at hpending
      rcases pending_cons hpending with hp | heq | ⟨_, heq⟩ | ⟨_, heq⟩ | ⟨_, _, hst, _⟩
      · exact .inr (pending_mono hp id (fun _ => id) fun _ => id)
      · cases heq
      · cases heq
      · cases heq
      · cases hst
  · intro hstarted
    rcases h.rootFound hstarted with ⟨w, hw⟩ | ⟨c, hc⟩
    · exact .inl ⟨w, hwatched hw⟩
    · rw [hstack] at hc
      exact ((List.mem_cons.mp hc).elim nofun fun hc => (waits_of_shape hshape _ hc).elim)
  · intro hstarted
    rw [(h.fresh hstarted).1] at hstack
    cases hstack

theorem Inv.appInfo {s : Watching} (h : Inv s) {path : CString} {notify : Bool}
    {rest : List (Task DirStream)} (info : PathInfo)
    (hstack : s.stack = .appInfo path notify :: rest) :
    Inv { s with monitor := (s.monitor.getAppInfoFromPath path info).1, stack := rest } := by
  have hshape := hstack ▸ h.shape
  set m := (s.monitor.getAppInfoFromPath path info).1
  have hpath : m.pathToWd = s.monitor.pathToWd := RAppMonitor.getAppInfoFromPath_pathToWd _ _ _
  have hwd : m.wdToPath = s.monitor.wdToPath := RAppMonitor.getAppInfoFromPath_wdToPath _ _ _
  have hroot : m.appSlicePath = s.monitor.appSlicePath :=
    RAppMonitor.getAppInfoFromPath_appSlicePath _ _ _
  have hinv : Inv { s with stack := [] ++ rest } := by
    refine h.replace _ hstack nofun ?_ (shape_rest hshape)
    intro d n wd _ _ _ hpending
    rcases pending_cons hpending with hp | heq | ⟨_, heq⟩ | ⟨_, heq⟩ | ⟨_, _, hst, _⟩
    · exact hp
    · cases heq
    · cases heq
    · cases heq
    · cases hst
  refine ⟨hinv.coherent.congr hroot hpath hwd, ?_, ?_, ?_, ?_, ?_⟩
  · intro d n wd hn hchild hd
    unfold Watched at hd ⊢
    rw [hpath] at hd ⊢
    exact hinv.found d n wd hn hchild hd
  · exact ⟨hinv.shape.tail, hinv.shape.first, fun wd hmem => hwd ▸ hinv.shape.removed wd hmem,
      fun p b hmem => hpath ▸ hinv.shape.apps p b hmem⟩
  · intro hstarted
    unfold Watched
    rw [hroot, hpath]
    exact hinv.rootFound hstarted
  · intro p hp
    change p ∈ m.appInfo at hp
    change p ∈ m.pathToWd
    rw [hpath]
    simp only [m] at hp
    rw [RAppMonitor.getAppInfoFromPath_eq] at hp
    split at hp
    · rcases (AList.mem_insert _).mp hp with rfl | hp
      · exact hshape.apps p notify List.mem_cons_self
      · exact h.apps p hp
    · exact h.apps p hp
  · intro hstarted
    rw [(h.fresh hstarted).1] at hstack
    cases hstack

theorem Inv.openDir {s : Watching} (h : Inv s) {dir : CString} {rest : List (Task DirStream)}
    (hstack : s.stack = .openDir dir :: rest) :
    (dir ∈ s.kernel.dirs → Inv { s with stack := .readName dir ⟨s.kernel.clock, []⟩ :: rest }) ∧
      (dir ∉ s.kernel.dirs → Inv { s with stack := rest }) := by
  have hshape := hstack ▸ h.shape
  constructor
  · intro _
    refine h.replace [.readName dir ⟨s.kernel.clock, []⟩] hstack nofun ?_
      (shape_next hshape nofun nofun nofun)
    intro d n wd _ hchild _ hpending
    rcases pending_cons hpending with hp | heq | ⟨_, heq⟩ | ⟨_, heq⟩ | ⟨_, _, hst, _⟩
    · exact pending_append hp
    · -- every directory that exists is older than the stream
      cases heq
      obtain ⟨birth, hbirth⟩ := Option.isSome_iff_exists.mp (AList.lookup_isSome.mpr hchild)
      exact .reading List.mem_cons_self rfl hbirth (h.coherent.wf.births _ _ hbirth) (by simp)
    · cases heq
    · cases heq
    · cases hst
  · intro hgone
    refine h.replace [] hstack nofun ?_ (shape_rest hshape)
    intro d n wd _ _ hd hpending
    rcases pending_cons hpending with hp | heq | ⟨_, heq⟩ | ⟨_, heq⟩ | ⟨_, _, hst, _⟩
    · exact hp
    · cases heq
      exact absurd (h.coherent.wf.live _ _ hd.2).1 hgone
    · cases heq
    · cases heq
    · cases hst

theorem Inv.readName {s : Watching} (h : Inv s) {dir : CString} {stream : DirStream}
    {rest : List (Task DirStream)} (hstack : s.stack = .readName dir stream :: rest) :
    (∀ name, Inv { s with
      stack := .testDir dir name { stream with returned := name :: stream.returned } :: rest }) ∧
      (s.kernel.Exhausted dir stream → Inv { s with stack := rest }) := by
  have hshape := hstack ▸ h.shape
  constructor
  · intro name
    refine h.replace [.testDir dir name { stream with returned := name :: stream.returned }] hstack
      nofun ?_ (shape_next hshape nofun nofun nofun)
    intro d n wd _ _ _ hpending
    rcases pending_cons hpending with hp | heq | ⟨_, heq⟩ | ⟨_, heq⟩ |
      ⟨st, birth, hst, hbirth, hlt, hnot⟩
    · exact pending_append hp
    · cases heq
    · cases heq
    · cases heq
    · cases hst
      by_cases heq : n = name
      · subst heq
        exact .testing List.mem_cons_self
      · exact .reading List.mem_cons_self rfl hbirth hlt (by simp [heq, hnot])
  · intro hend
    refine h.replace [] hstack nofun ?_ (shape_rest hshape)
    intro d n wd hn _ _ hpending
    rcases pending_cons hpending with hp | heq | ⟨_, heq⟩ | ⟨_, heq⟩ |
      ⟨st, birth, hst, hbirth, hlt, hnot⟩
    · exact hp
    · cases heq
    · cases heq
    · cases heq
    · cases hst
      have hreturned := hend _ (AList.mem_lookup_iff.mp hbirth) (dirname_childPath hn.2.1) hlt
      rw [basename_childPath hn.2.1] at hreturned
      exact absurd hreturned hnot

theorem Inv.testDir {s : Watching} (h : Inv s) {dir name : CString} {stream : DirStream}
    {rest : List (Task DirStream)} (hstack : s.stack = .testDir dir name stream :: rest) :
    (childPath dir name ∈ s.kernel.dirs → Inv { s with
      stack := .add (childPath dir name) (.walk dir name stream) :: rest }) ∧
      (childPath dir name ∉ s.kernel.dirs → Inv { s with
        stack := .readName dir stream :: rest }) := by
  have hshape := hstack ▸ h.shape
  constructor
  · intro _
    refine h.replace [.add (childPath dir name) (.walk dir name stream)] hstack nofun ?_
      (shape_next hshape ?_ nofun nofun)
    · intro d n wd _ _ _ hpending
      rcases pending_cons hpending with hp | heq | ⟨_, heq⟩ | ⟨_, heq⟩ |
        ⟨st, birth, hst, hbirth, hlt, hnot⟩
      · exact pending_append hp
      · cases heq
      · cases heq
        exact .adding List.mem_cons_self
      · cases heq
      · cases hst
        exact .reading List.mem_cons_self rfl hbirth hlt hnot
    · intro path caller heq
      cases heq
      simp [Task.stream?]
  · intro hgone
    refine h.replace [.readName dir stream] hstack nofun ?_
      (shape_next hshape nofun nofun nofun)
    intro d n wd _ hchild _ hpending
    rcases pending_cons hpending with hp | heq | ⟨_, heq⟩ | ⟨_, heq⟩ |
      ⟨st, birth, hst, hbirth, hlt, hnot⟩
    · exact pending_append hp
    · cases heq
    · cases heq
      exact absurd hchild hgone
    · cases heq
    · cases hst
      exact .reading List.mem_cons_self rfl hbirth hlt hnot

theorem Inv.run {s t : Watching} (h : Inv s) {o : Oracle} (hsafe : Safe s (.run o))
    (hs : s.step (.run o) = some t) : Inv t := by
  cases hstack : s.stack with
  | nil => simp [step, hstack] at hs
  | cons task rest =>
      simp only [step, hstack, Option.bind_eq_bind, Option.bind_eq_some_iff, Prod.exists,
        Option.pure_def, Option.some.injEq] at hs
      obtain ⟨answer, k, hanswer, m, tasks, _, hperform, rfl⟩ := hs
      cases task with
      | add path caller =>
          simp only [Kernel.answer, Option.map_eq_some_iff, Prod.mk.injEq, Prod.exists] at hanswer
          obtain ⟨wd, _, hk, rfl, rfl⟩ := hanswer
          cases wd with
          | none =>
              simp only [RAppMonitor.perform, Option.map_eq_some_iff, Prod.mk.injEq] at hperform
              obtain ⟨_, hret, rfl, rfl, _⟩ := hperform
              obtain ⟨hpath, rfl⟩ := Kernel.addWatch_none hk
              exact h.addFails hstack hpath hret
          | some wd =>
              simp only [RAppMonitor.perform, Option.map_eq_some_iff, Prod.mk.injEq] at hperform
              obtain ⟨_, hret, rfl, rfl, _⟩ := hperform
              have hadd := hsafe (.add path caller) (by simp [hstack])
              exact h.addSucceeds hstack hk hret (hadd (Kernel.addWatch_cases hk).1)
      | rmWatch wd =>
          simp only [Kernel.answer, Option.some.injEq, Prod.mk.injEq] at hanswer
          obtain ⟨rfl, rfl⟩ := hanswer
          cases hperform
          exact h.rmWatch hstack
      | appInfo path notify =>
          simp only [Kernel.answer, Option.some.injEq, Prod.mk.injEq] at hanswer
          obtain ⟨rfl, rfl⟩ := hanswer
          cases hperform
          exact h.appInfo o.info hstack
      | openDir dir =>
          simp only [Kernel.answer, Option.some.injEq, Prod.mk.injEq] at hanswer
          obtain ⟨rfl, rfl⟩ := hanswer
          by_cases hdir : dir ∈ s.kernel.dirs
          · simp only [hdir, if_true, RAppMonitor.perform] at hperform
            cases hperform
            exact (h.openDir hstack).1 hdir
          · simp only [hdir, if_false, RAppMonitor.perform] at hperform
            cases hperform
            exact (h.openDir hstack).2 hdir
      | readName dir stream =>
          simp only [Kernel.answer] at hanswer
          split at hanswer
          · simp only [Option.ite_none_right_eq_some, Option.some.injEq, Prod.mk.injEq] at hanswer
            obtain ⟨_, rfl, rfl⟩ := hanswer
            cases hperform
            exact (h.readName hstack).1 _
          · simp only [Option.ite_none_right_eq_some, Option.some.injEq, Prod.mk.injEq] at hanswer
            obtain ⟨hend, rfl, rfl⟩ := hanswer
            cases hperform
            exact (h.readName hstack).2 hend
      | testDir dir name stream =>
          simp only [Kernel.answer, Option.some.injEq, Prod.mk.injEq] at hanswer
          obtain ⟨rfl, rfl⟩ := hanswer
          by_cases hdir : childPath dir name ∈ s.kernel.dirs
          · simp only [hdir, decide_true, RAppMonitor.perform] at hperform
            cases hperform
            exact (h.testDir hstack).1 hdir
          · simp only [hdir, decide_false, RAppMonitor.perform] at hperform
            cases hperform
            exact (h.testDir hstack).2 hdir

/-- An event is about a directory whose parent is recorded, or about nothing. -/
theorem eventPath_cases {m : RAppMonitor} (i : InotifyEvent) :
    (∃ dir, m.wdToPath.lookup i.wd = some dir ∧ m.eventPath i = childPath dir i.name) ∨
      (m.wdToPath.lookup i.wd = none ∧ m.eventPath i = childPath "(null)".toList i.name) := by
  cases hdir : m.wdToPath.lookup i.wd with
  | none => exact .inr ⟨rfl, by simp [RAppMonitor.eventPath, hdir]⟩
  | some dir => exact .inl ⟨dir, rfl, by simp [RAppMonitor.eventPath, hdir]⟩

theorem null_notMem {k : Kernel} {m : RAppMonitor} (h : Coherent k m) :
    "(null)".toList ∉ m.pathToWd := by
  intro hmem
  obtain ⟨rest, hslash⟩ := h.slash
  rcases h.below _ hmem with heq | hbelow
  · rw [hslash] at heq
    cases heq
  · rw [hslash] at hbelow
    cases hbelow

theorem eventPath_ne_root {k : Kernel} {m : RAppMonitor} (h : Coherent k m) (i : InotifyEvent) :
    m.eventPath i ≠ m.appSlicePath := by
  intro heq
  rcases eventPath_cases (m := m) i with ⟨dir, hdir, hchild⟩ | ⟨_, hchild⟩
  · have hbelow := h.below dir (Coherent.mem_of_lookup ((h.inverse _ _).mpr hdir))
    have hself : Below m.appSlicePath (childPath dir i.name) :=
      hbelow.elim (fun heq => heq ▸ below_childPath _ _) fun hb => hb.childPath i.name
    rw [← hchild, heq] at hself
    exact not_below_self _ hself
  · obtain ⟨rest, hslash⟩ := h.slash
    rw [hslash, hchild] at heq
    cases heq

theorem Inv.create {s : Watching} (h : Inv s) {i : InotifyEvent} {queue : List InotifyEvent}
    (hstack : s.stack = []) (hqueue : s.kernel.queue = i :: queue) (hmask : i.mask = .create)
    (hstarted : s.started = true) :
    Inv { s with
      kernel := { s.kernel with queue := queue }
      stack := [.add (s.monitor.eventPath i) .handler, .openDir (s.monitor.eventPath i)] } := by
  refine ⟨h.coherent.pop hqueue (by simp [hmask]), ?_, ?_, ?_, h.apps, ?_⟩
  -- the directory whose event is read is the one that the walk is sent to
  · intro d n wd hn hchild hd
    rcases h.found d n wd hn hchild hd with hw | hpending
    · exact .inl hw
    · right
      rw [hstack] at hpending
      cases hpending with
      | created hevent =>
          rw [hqueue] at hevent
          rcases List.mem_cons.mp hevent with heq | hevent
          · subst heq
            have hdir : s.monitor.eventPath ⟨wd, .create, n⟩ = childPath d n := by
              simp [RAppMonitor.eventPath, (h.coherent.inverse _ _).mp hd.1]
            rw [hdir]
            exact .adding List.mem_cons_self
          · exact .created hevent
      | opening htask => cases htask
      | testing htask => cases htask
      | adding htask => cases htask
      | reading htask => cases htask
  · refine ⟨?_, ?_, ?_, ?_⟩
    · simp [Task.Waits]
    · intro path caller hhead _
      cases hhead
      exact List.mem_cons_self
    · simp
    · simp
  · intro _
    rcases h.rootFound hstarted with hw | ⟨c, hc⟩
    · exact .inl hw
    · rw [hstack] at hc
      cases hc
  · intro hnot
    rw [hstarted] at hnot
    cases hnot

theorem Inv.delete {s : Watching} (h : Inv s) {i : InotifyEvent} {queue : List InotifyEvent}
    (hstack : s.stack = []) (hqueue : s.kernel.queue = i :: queue) (hmask : i.mask = .delete)
    (hstarted : s.started = true) (hsafe : SafeDelete s.monitor (s.monitor.eventPath i)) :
    Inv { s with
      kernel := { s.kernel with queue := queue }
      monitor := s.monitor.forget (s.monitor.eventPath i)
      stack := [.rmWatch ((s.monitor.pathToWd.lookup (s.monitor.eventPath i)).getD 0)] } := by
  set path := s.monitor.eventPath i with hpath
  have hevent := h.coherent.wf.events i (hqueue ▸ List.mem_cons_self)
  -- nothing but the removed directory is forgotten
  have hothers {path' : CString} {wd : ℕ} (hne : path' ≠ path) :
      Watched s.kernel s.monitor path' wd →
        Watched { s.kernel with queue := queue } (s.monitor.forget path) path' wd := by
    rintro ⟨hrecorded, hlive⟩
    exact ⟨by rw [RAppMonitor.pathToWd_forget, if_neg hne, hrecorded], hlive⟩
  refine ⟨h.coherent.delete hqueue hsafe, ?_, ?_, ?_, ?_, ?_⟩
  · intro d n wd hn hchild hd
    obtain ⟨hrecorded, hlive⟩ := hd
    rw [RAppMonitor.pathToWd_forget] at hrecorded
    split at hrecorded
    · cases hrecorded
    · rcases h.found d n wd hn hchild ⟨hrecorded, hlive⟩ with ⟨w, hw⟩ | hpending
      · by_cases heq : childPath d n = path
        · -- the directory has returned, and its event comes later
          right
          rcases eventPath_cases (m := s.monitor) i with ⟨dir, hdir, hchildPath⟩ | ⟨_, hchildPath⟩
          · obtain ⟨rfl, rfl⟩ := Kernel.childPath_inj hn hevent.2.1 (heq.trans hchildPath)
            have hwd : wd = i.wd := by
              have hback := (h.coherent.inverse _ _).mpr hdir
              exact Option.some.inj (hrecorded.symm.trans hback)
            subst hwd
            have hi : i = ⟨i.wd, .delete, i.name⟩ := by
              cases i
              simp_all
            refine .created (h.coherent.wf.returned i.wd i.name d queue ?_ hlive hchild)
            rw [hqueue, ← hi]
          · obtain ⟨rfl, _⟩ := Kernel.childPath_inj hn hevent.2.1 (heq.trans hchildPath)
            exact absurd (Coherent.mem_of_lookup hrecorded) (null_notMem h.coherent)
        · exact .inl ⟨w, hothers heq hw⟩
      · right
        rw [hstack] at hpending
        cases hpending with
        | created hcreated =>
            rw [hqueue] at hcreated
            rcases List.mem_cons.mp hcreated with heq | hcreated
            · simp [← heq] at hmask
            · exact .created hcreated
        | opening htask => cases htask
        | testing htask => cases htask
        | adding htask => cases htask
        | reading htask => cases htask
  · refine ⟨by simp, by simp, ?_, by simp⟩
    intro wd hmem
    obtain rfl := Task.rmWatch.inj (List.mem_singleton.mp hmem)
    rw [RAppMonitor.wdToPath_forget, if_pos rfl]
  · intro _
    left
    rcases h.rootFound hstarted with ⟨w, hw⟩ | ⟨c, hc⟩
    · exact ⟨w, hothers (eventPath_ne_root h.coherent i).symm hw⟩
    · rw [hstack] at hc
      cases hc
  · intro p hp
    obtain ⟨hne, hp⟩ := AList.mem_erase.mp hp
    exact Coherent.mem_pathToWd_forget.mpr ⟨hne, h.apps p hp⟩
  · intro hnot
    rw [hstarted] at hnot
    cases hnot

theorem Inv.step {s t : Watching} {move : Move} (h : Inv s) (hsafe : Safe s move)
    (hs : s.step move = some t) : Inv t := by
  cases move with
  | mkdir dir name =>
      obtain ⟨k, hk, rfl⟩ := Option.map_eq_some_iff.mp hs
      exact h.mkdir hk
  | rmdir dir name =>
      obtain ⟨k, hk, rfl⟩ := Option.map_eq_some_iff.mp hs
      exact h.rmdir hk
  | start =>
      simp only [Watching.step] at hs
      split at hs
      · cases hs
      · next hstarted =>
        cases hs
        exact h.start (Bool.not_eq_true _ ▸ hstarted)
  | dispatch =>
      simp only [Watching.step] at hs
      split at hs
      · next i queue hstarted hstack hqueue =>
        obtain rfl := Option.some.inj hs
        obtain ⟨_, hname, hmask⟩ := h.coherent.wf.events i (hqueue ▸ List.mem_cons_self)
        rcases hmask with hmask | hmask
        · simp only [RAppMonitor.handleInotifyEvent, hname.1, if_false, hmask]
          exact h.create hstack hqueue hmask hstarted
        · have hdelete := hsafe i (by simp [hqueue]) hmask
          simp only [RAppMonitor.handleInotifyEvent, hname.1, if_false, hmask]
          exact h.delete hstack hqueue hmask hstarted hdelete
      · cases hs
  | run o => exact h.run hsafe hs

theorem coherent_init (uid : Uid) : Coherent (init uid).kernel (init uid).monitor := by
  have hpath (path : CString) : (init uid).monitor.pathToWd.lookup path = none :=
    AList.lookup_empty path
  have hmem (path : CString) : path ∉ (init uid).monitor.pathToWd :=
    AList.lookup_eq_none.mp (hpath path)
  constructor
  · exact Kernel.wf_init _
  · exact ⟨_, rfl⟩
  · exact GHashTable.inverse_empty
  · intro path wd h
    cases (hpath path).symm.trans h
  · intro path path' wd h
    cases (hpath path).symm.trans h
  · exact fun path h => absurd h (hmem path)
  · exact fun path h => absurd h (hmem path)
  · intro path wd h
    cases (hpath path).symm.trans h

theorem inv_init (uid : Uid) : Inv (init uid) where
  coherent := coherent_init uid
  found _ _ _ _ _ hd := nomatch (AList.lookup_empty _).symm.trans hd.1
  shape := shape_of_waits nofun nofun
  rootFound := nofun
  apps path hpath := absurd hpath (AList.notMem_empty path)
  fresh _ := ⟨rfl, rfl, fun path => AList.notMem_empty path, fun _ => rfl⟩

/-- In a quiet state every directory is watched: from the root downwards, since
nothing is pending. -/
theorem Inv.watched {s : Watching} (h : Inv s) (hquiet : Quiescent s) :
    ∀ path ∈ s.kernel.dirs, ∃ wd, Watched s.kernel s.monitor path wd := by
  intro path
  induction hlength : path.length using Nat.strong_induction_on generalizing path with
  | _ n ih =>
      intro hpath
      rcases h.coherent.wf.tree path hpath with rfl | ⟨dir, name, rfl, hname, hdir⟩
      · rcases h.rootFound hquiet.started with hw | ⟨c, hc⟩
        · exact hw
        · rw [hquiet.stack] at hc
          cases hc
      · have hshort : dir.length < n := by
          rw [← hlength, childPath, List.length_append, List.length_cons]
          omega
        obtain ⟨wd, hw⟩ := ih dir.length hshort dir rfl hdir
        refine (h.found dir name wd hname hpath hw).resolve_right fun hpending => ?_
        rw [hquiet.stack] at hpending
        cases hpending with
        | created hevent =>
            rw [hquiet.queue] at hevent
            cases hevent
        | opening htask => cases htask
        | testing htask => cases htask
        | adding htask => cases htask
        | reading htask => cases htask

/-- In a run of safe steps, the tables describe the tree whenever the queue is empty and
no handler is running. -/
theorem tracks_of_safe {uid : Uid} {s : Watching} (h : ReachableBy step Safe (init uid) s)
    (hquiet : Quiescent s) : Tracks s := by
  have hinv : Inv s := h.invariant (inv_init uid) fun _ _ _ hi hc hs => hi.step hc hs
  have hlive (path : CString) (wd : ℕ) (hwd : s.monitor.pathToWd.lookup path = some wd) :
      s.kernel.watches path = some wd := by
    apply (hinv.coherent.alive path wd hwd).resolve_right
    rintro ⟨a, _, _, dir, name, wd', _, hevent, _⟩
    rw [hquiet.queue] at hevent
    cases hevent
  have hkeys (path : CString) : path ∈ s.monitor.pathToWd ↔ path ∈ s.kernel.dirs := by
    constructor
    · intro hmem
      obtain ⟨wd, hwd⟩ := s.monitor.mem_pathToWd.mp hmem
      exact (hinv.coherent.wf.live path wd (hlive path wd hwd)).1
    · intro hmem
      obtain ⟨wd, hw⟩ := hinv.watched hquiet path hmem
      exact Coherent.mem_of_lookup hw.1
  exact ⟨hkeys, hlive, hinv.coherent.inverse,
    fun path hpath => (hkeys path).mp (hinv.apps path hpath)⟩

/-! ### A directory that is found once, and one that is found twice -/

def ask (fresh : ℕ) (entry : Option CString) : Move :=
  .run ⟨fresh, entry, ⟨true, none, none, none, 0⟩⟩

def appSlice : CString := (RAppMonitor.init 1000).appSlicePath

def foundOnce : List Move :=
  [.start, ask 1 none, ask 0 none, ask 0 none, .mkdir appSlice "a.service".toList, .dispatch,
    ask 2 none, ask 0 none, ask 0 none, ask 0 none]

theorem tracks_of_safe_foundOnce :
    Tracks ((checkedRun step Safe (init 1000) foundOnce).get (by decide)) :=
  tracks_of_safe (reachableBy_checkedRun (by decide)) ⟨by decide, by decide, by decide⟩

/-- An application is started while the walk is about to open the slice. The walk
finds it, and so does its own event afterwards. -/
def foundTwice : List Move :=
  [.start, ask 1 none, .mkdir appSlice "a.service".toList, ask 0 none,
    ask 0 (some "a.service".toList), ask 0 none, ask 2 none, ask 0 none, ask 0 none, ask 0 none,
    ask 0 none, .dispatch, ask 0 none, ask 0 none, ask 0 none, ask 0 none, ask 0 none]

/-- The watch of the application is recorded and was removed. -/
theorem not_tracks_foundTwice :
    ¬ ∀ s, Reachable step (init 1000) s → Quiescent s → Tracks s := by
  intro h
  have hreachable : Reachable step (init 1000)
      ((checkedRun step (fun _ _ => True) (init 1000) foundTwice).get (by decide)) :=
    reachableBy_checkedRun (by decide)
  have htracks := h _ hreachable ⟨by decide, by decide, by decide⟩
  have hlive := htracks.live (childPath appSlice "a.service".toList) 2 (by decide)
  exact absurd hlive (by decide)

end Watching

end Uresourced
