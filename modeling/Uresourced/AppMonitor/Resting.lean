import Mathlib.Algebra.Order.BigOperators.Group.List
import Mathlib.Algebra.Order.Group.Nat
import Uresourced.AppMonitor.Queue
import Uresourced.AppMonitor.Tracking

/-!
The monitor catches up.

Once no directory is made or removed any more, the running function comes to its
end and the queue is worked off, in whatever state the races before have left the
monitor. What is still to be done is counted: a stream has to return every file
once, and every directory below those that it has not returned costs as much as a
walk over it.
-/

namespace Uresourced

open CString Runs

/-! ### What a stream has ahead -/

theorem countP_add_le {α : Type} {p q r : α → Bool} {xs : List α}
    (hp : ∀ x ∈ xs, p x = true → r x = true ∧ q x = false)
    (hq : ∀ x ∈ xs, q x = true → r x = true) : xs.countP p + xs.countP q ≤ xs.countP r := by
  induction xs with
  | nil => rfl
  | cons x xs ih =>
      have hrest : xs.countP p + xs.countP q ≤ xs.countP r :=
        ih (fun y hy => hp y (.tail _ hy)) fun y hy => hq y (.tail _ hy)
      have hpx := hp x List.mem_cons_self
      have hqx := hq x List.mem_cons_self
      rw [List.countP_cons, List.countP_cons, List.countP_cons]
      cases hpcase : p x <;> cases hqcase : q x <;> cases hrcase : r x <;> simp_all <;> omega

/-- The path lies in a subdirectory that was not returned yet. -/
def Ahead (dir : CString) (returned : List CString) (path : CString) : Prop :=
  Below dir path ∧ (path.drop (dir.length + 1)).takeWhile (· ≠ '/') ∉ returned

instance (dir : CString) (returned : List CString) (path : CString) :
    Decidable (Ahead dir returned path) := inferInstanceAs (Decidable (_ ∧ _))

variable {dirs : GHashTable CString ℕ} {dir name : CString} {returned : List CString}

def ahead (dirs : GHashTable CString ℕ) (dir : CString) (returned : List CString) : ℕ :=
  dirs.keys.countP fun path => decide (Ahead dir returned path)

theorem ahead_le (dirs : GHashTable CString ℕ) (dir : CString) (returned : List CString) :
    ahead dirs dir returned ≤ dirs.keys.length := List.countP_le_length

theorem ahead_cons_le (dirs : GHashTable CString ℕ) (dir name : CString)
    (returned : List CString) : ahead dirs dir (name :: returned) ≤ ahead dirs dir returned := by
  refine List.countP_mono_left fun path _ hahead => ?_
  have hcons : Ahead dir (name :: returned) path := of_decide_eq_true hahead
  exact decide_eq_true ⟨hcons.1, fun hmem => hcons.2 (.tail _ hmem)⟩

theorem ahead_child (hname : '/' ∉ name) (hnew : name ∉ returned)
    (hdir : childPath dir name ∈ dirs) :
    ahead dirs dir (name :: returned) + (ahead dirs (childPath dir name) [] + 1) ≤
      ahead dirs dir returned := by
  let inside (path : CString) : Bool :=
    decide (path = childPath dir name ∨ Below (childPath dir name) path)
  have hinside : ahead dirs (childPath dir name) [] + 1 ≤ dirs.keys.countP inside := by
    have hself : 1 ≤ dirs.keys.countP fun path => decide (path = childPath dir name) :=
      List.countP_pos_iff.mpr ⟨_, AList.mem_keys.mp hdir, by simp⟩
    have hsplit : (dirs.keys.countP fun path => decide (Ahead (childPath dir name) [] path)) +
        (dirs.keys.countP fun path => decide (path = childPath dir name)) ≤
          dirs.keys.countP inside := by
      refine countP_add_le (fun path _ hahead => ?_) fun path _ heq => ?_
      · have hbelow : Below (childPath dir name) path := (of_decide_eq_true hahead).1
        refine ⟨decide_eq_true (.inr hbelow), decide_eq_false ?_⟩
        rintro rfl
        exact not_below_self _ hbelow
      · exact decide_eq_true (.inl (of_decide_eq_true heq))
    unfold ahead
    omega
  have hsplit : ahead dirs dir (name :: returned) + dirs.keys.countP inside ≤
      ahead dirs dir returned := by
    refine countP_add_le (fun path _ hahead => ?_) fun path _ hin => ?_
    · have hcons : Ahead dir (name :: returned) path := of_decide_eq_true hahead
      refine ⟨decide_eq_true ⟨hcons.1, fun hmem => hcons.2 (.tail _ hmem)⟩, decide_eq_false ?_⟩
      intro hin
      exact hcons.2 (takeWhile_component hname hin ▸ List.mem_cons_self)
    · have hin' : path = childPath dir name ∨ Below (childPath dir name) path :=
        of_decide_eq_true hin
      refine decide_eq_true ⟨?_, ?_⟩
      · rcases hin' with rfl | hbelow
        · exact below_childPath dir name
        · obtain ⟨rest, rfl⟩ := below_iff.mp hbelow
          exact (below_childPath dir name).childPath rest
      · rw [takeWhile_component hname hin']
        exact hnew
  omega

def Unreturned (returned : List CString) (name : CString) : Prop := name ∉ returned

instance (returned : List CString) (name : CString) : Decidable (Unreturned returned name) :=
  inferInstanceAs (Decidable (name ∉ returned))

/-- What is left to be done for a stream: the files that a directory has may be
returned once, and every directory ahead has such files and is to be added. -/
def streamCost (files : List CString) (dirs : GHashTable CString ℕ) (dir : CString)
    (returned : List CString) : ℕ :=
  2 * files.countP (fun file => decide (Unreturned returned file)) +
    (2 * files.length + 7) * ahead dirs dir returned

/-- What is left to be done for a whole directory is bounded by the tree. -/
theorem streamCost_le (files : List CString) (dirs : GHashTable CString ℕ) (dir : CString)
    (returned : List CString) :
    streamCost files dirs dir returned ≤
      2 * files.length + (2 * files.length + 7) * dirs.keys.length := by
  have hfiles : files.countP (fun file => decide (Unreturned returned file)) ≤ files.length :=
    List.countP_le_length
  have hdirs : (2 * files.length + 7) * ahead dirs dir returned ≤
      (2 * files.length + 7) * dirs.keys.length :=
    Nat.mul_le_mul_left _ (ahead_le dirs dir returned)
  unfold streamCost
  omega

/-- A directory that is returned was paid for. -/
theorem streamCost_child (files : List CString) (hname : '/' ∉ name) (hnew : name ∉ returned)
    (hdir : childPath dir name ∈ dirs) :
    streamCost files dirs dir (name :: returned) +
        streamCost files dirs (childPath dir name) [] + 7 ≤
      streamCost files dirs dir returned := by
  have hahead := ahead_child hname hnew hdir
  have hdirs : (2 * files.length + 7) * (ahead dirs dir (name :: returned) +
      (ahead dirs (childPath dir name) [] + 1)) ≤
        (2 * files.length + 7) * ahead dirs dir returned := Nat.mul_le_mul_left _ hahead
  have hfiles : files.countP (fun file => decide (Unreturned (name :: returned) file)) ≤
      files.countP fun file => decide (Unreturned returned file) := by
    refine List.countP_mono_left fun file _ hfile => decide_eq_true fun hmem => ?_
    exact of_decide_eq_true hfile (.tail _ hmem)
  have hall : files.countP (fun file => decide (Unreturned [] file)) ≤ files.length :=
    List.countP_le_length
  rw [Nat.mul_add, Nat.mul_add, Nat.mul_one] at hdirs
  unfold streamCost
  omega

theorem streamCost_file (dirs : GHashTable CString ℕ) (dir : CString) {files : List CString}
    (hfile : name ∈ files) (hnew : name ∉ returned) :
    streamCost files dirs dir (name :: returned) + 2 ≤ streamCost files dirs dir returned := by
  have hfiles : files.countP (fun file => decide (Unreturned (name :: returned) file)) <
      files.countP fun file => decide (Unreturned returned file) := by
    refine GArray.countP_lt (x := name) (fun file _ hmem => ?_) hfile
      (by simp [Unreturned]) (decide_eq_true hnew)
    exact decide_eq_true fun hmem' => of_decide_eq_true hmem (.tail _ hmem')
  have hdirs : (2 * files.length + 7) * ahead dirs dir (name :: returned) ≤
      (2 * files.length + 7) * ahead dirs dir returned :=
    Nat.mul_le_mul_left _ (ahead_cons_le dirs dir name returned)
  unfold streamCost
  omega

/-! ### What the tasks cost -/

def testCost (files : List CString) (dirs : GHashTable CString ℕ) (path : CString) : ℕ :=
  if path ∈ dirs then streamCost files dirs path [] + 7 else 2

/-- What a task and everything that follows from it costs. -/
def Task.cost (files : List CString) (dirs : GHashTable CString ℕ) : Task DirStream → ℕ
  | .rmWatch _ | .appInfo _ _ => 1
  | .openDir dir => streamCost files dirs dir [] + 2
  | .readName dir stream => streamCost files dirs dir stream.returned + 1
  | .testDir dir name stream =>
      streamCost files dirs dir stream.returned + testCost files dirs (childPath dir name)
  | .add _ .start | .add _ .handler => 3
  | .add path (.walk dir name stream) =>
      if path ∈ dirs then
        streamCost files dirs dir stream.returned + streamCost files dirs path [] + 6
      else streamCost files dirs dir stream.returned + testCost files dirs (childPath dir name) + 1

def stackCost (files : List CString) (dirs : GHashTable CString ℕ) : List (Task DirStream) → ℕ
  | [] => 0
  | task :: stack => task.cost files dirs + stackCost files dirs stack

@[simp] theorem stackCost_nil (files : List CString) : stackCost files dirs [] = 0 := rfl

@[simp] theorem stackCost_cons (files : List CString) (task : Task DirStream)
    (stack : List (Task DirStream)) :
    stackCost files dirs (task :: stack) = task.cost files dirs + stackCost files dirs stack := rfl

@[simp] theorem stackCost_append (files : List CString) (stack stack' : List (Task DirStream)) :
    stackCost files dirs (stack ++ stack') =
      stackCost files dirs stack + stackCost files dirs stack' := by
  induction stack with
  | nil => simp
  | cons task stack ih => simp [ih, Nat.add_assoc]

theorem stackCost_addedTasks_le (files : List CString) (m : RAppMonitor) (path : CString) :
    stackCost files dirs (m.addedTasks path) ≤ 2 := by
  unfold RAppMonitor.addedTasks
  cases m.pathToWd.lookup path <;> split <;> simp [Task.cost]

/-- The tree is at rest: a stream returns a name once, and only names of directories
or of the files in them. -/
def ReturnsNew (files : List CString) (k : Kernel) (o : Oracle) : Task DirStream → Prop
  | .readName dir stream => ∀ name ∈ o.entry,
      name ∉ stream.returned ∧ (childPath dir name ∈ k.dirs ∨ name ∈ files)
  | _ => True

instance (files : List CString) (k : Kernel) (o : Oracle) :
    (task : Task DirStream) → Decidable (ReturnsNew files k o task)
  | .readName _ _ => inferInstanceAs (Decidable (∀ name ∈ o.entry, _))
  | .add _ _ | .rmWatch _ | .appInfo _ _ | .openDir _ | .testDir _ _ _ => isTrue trivial

/-- Every answer uses up some of the cost. -/
theorem stackCost_perform {files : List CString} {k k' : Kernel} {o : Oracle}
    {task : Task DirStream} {answer : Answer DirStream} {m m' : RAppMonitor}
    {tasks : List (Task DirStream)} {changed : Option CString} (hnames : ReturnsNew files k o task)
    (hanswer : k.answer o task = some (answer, k'))
    (hperform : m.perform task answer = some (m', tasks, changed)) :
    stackCost files k.dirs tasks < task.cost files k.dirs := by
  cases task with
  | add path caller =>
      obtain ⟨⟨wd, k''⟩, hadd, heq⟩ := Option.map_eq_some_iff.mp hanswer
      obtain ⟨rfl, rfl⟩ := Prod.mk.inj heq
      cases wd with
      | none =>
          -- the walk tests the name again, and finds it gone
          have hgone : path ∉ k.dirs := (Kernel.addWatch_none hadd).1
          obtain ⟨ret, hret, heq⟩ := Option.map_eq_some_iff.mp hperform
          obtain ⟨-, rfl, -⟩ := Prod.mk.inj heq |>.imp id Prod.mk.inj
          cases caller with
          | start => cases hret
          | handler =>
              obtain rfl := Option.some.inj hret
              exact Nat.succ_pos 2
          | walk dir name stream =>
              obtain rfl := Option.some.inj hret
              simp only [Bool.false_eq_true, if_false, stackCost_cons, stackCost_nil, Task.cost,
                if_neg hgone]
              omega
      | some wd =>
          have hdir : path ∈ k.dirs := (Kernel.addWatch_cases hadd).1
          have hadded : stackCost files k.dirs (m.addedTasks path) ≤ 2 :=
            stackCost_addedTasks_le files m path
          obtain ⟨ret, hret, heq⟩ := Option.map_eq_some_iff.mp hperform
          obtain ⟨-, rfl, -⟩ := Prod.mk.inj heq |>.imp id Prod.mk.inj
          rw [stackCost_append]
          cases caller with
          | start | handler =>
              obtain rfl := Option.some.inj hret
              exact Nat.lt_succ_of_le hadded
          | walk dir name stream =>
              obtain rfl := Option.some.inj hret
              simp only [if_true, stackCost_cons, stackCost_nil, Task.cost, if_pos hdir]
              omega
  | rmWatch wd =>
      cases hanswer
      cases hperform
      exact Nat.one_pos
  | appInfo path notify =>
      cases hanswer
      cases hperform
      exact Nat.one_pos
  | openDir dir =>
      cases hanswer
      by_cases hdir : dir ∈ k.dirs
      · rw [if_pos hdir] at hperform
        cases hperform
        exact Nat.lt_succ_self _
      · rw [if_neg hdir] at hperform
        cases hperform
        exact Nat.succ_pos _
  | readName dir stream =>
      cases hentry : o.entry with
      | none =>
          simp only [Kernel.answer, hentry, Option.ite_none_right_eq_some, Option.some.injEq]
            at hanswer
          obtain ⟨-, heq⟩ := hanswer
          cases heq
          cases hperform
          exact Nat.succ_pos _
      | some name =>
          simp only [Kernel.answer, hentry, Option.ite_none_right_eq_some, Option.some.injEq]
            at hanswer
          obtain ⟨hvalid, heq⟩ := hanswer
          cases heq
          cases hperform
          -- the name was paid for: by the directory it stands for, or as a file
          obtain ⟨hnew, hname⟩ := hnames name hentry
          simp only [stackCost_cons, stackCost_nil, Task.cost, testCost]
          by_cases hdir : childPath dir name ∈ k.dirs
          · have hpaid := streamCost_child files hvalid.2.1 hnew hdir
            rw [if_pos hdir]
            omega
          · have hpaid := streamCost_file k.dirs dir (hname.resolve_left hdir) hnew
            rw [if_neg hdir]
            omega
  | testDir dir name stream =>
      cases hanswer
      by_cases hdir : childPath dir name ∈ k.dirs
      · rw [decide_eq_true hdir] at hperform
        cases hperform
        simp only [stackCost_cons, stackCost_nil, Task.cost, testCost, if_pos hdir]
        omega
      · rw [decide_eq_false hdir] at hperform
        cases hperform
        simp only [stackCost_cons, stackCost_nil, Task.cost, testCost, if_neg hdir]
        omega

/-! ### What every run keeps -/

namespace Kernel

variable {k : Kernel}

/-- A stream that may not end has a directory left that it can return. -/
theorem exists_entry {root : CString} (hwf : Wf k root)
    (hroot : ∃ parent name, root = childPath parent name ∧ ValidName name) {dir : CString}
    {stream : DirStream} (h : ¬ k.Exhausted dir stream) :
    ∃ name, ValidName name ∧ name ∉ stream.returned ∧ childPath dir name ∈ k.dirs := by
  unfold Exhausted at h
  push Not at h
  obtain ⟨⟨path, birth⟩, hentry, rfl, _, hnew⟩ := h
  have hpath : path ∈ k.dirs := AList.mem_keys.mpr (List.mem_keys_of_mem hentry)
  obtain ⟨parent, name, rfl, hname⟩ : ∃ parent name, path = childPath parent name ∧
      ValidName name := by
    rcases hwf.tree path hpath with rfl | ⟨parent, name, heq, hname, _⟩
    · exact hroot
    · exact ⟨parent, name, heq, hname⟩
  rw [basename_childPath hname.2.1] at hnew
  rw [dirname_childPath hname.2.1]
  exact ⟨name, hname, hnew, hpath⟩

/-- There is always a watch descriptor that was never used. -/
theorem exists_addWatch {path : CString} (h : path ∈ k.dirs) :
    ∃ fresh wd k', k.addWatch path fresh = some (some wd, k') := by
  cases hwatch : k.watches path with
  | some wd => exact ⟨0, wd, k, by simp [addWatch, h, hwatch]⟩
  | none =>
      have hnew : k.used.sum + 1 ∉ k.used := fun hmem =>
        absurd (List.le_sum_of_mem hmem) (by omega)
      exact ⟨k.used.sum + 1, k.used.sum + 1, _, by simp [addWatch, h, hwatch, hnew]; rfl⟩

end Kernel

namespace RAppMonitor

variable {m m' : RAppMonitor}

theorem appSlicePath_perform {δ : Type} {task : Task δ} {answer : Answer δ}
    {tasks : List (Task δ)} {changed : Option CString}
    (h : m.perform task answer = some (m', tasks, changed)) :
    m'.appSlicePath = m.appSlicePath := by
  rcases perform_eq_some h with ⟨_, _, _, _, _, rfl, _⟩ | ⟨_, _, _, _, _, rfl, _⟩ | ⟨_, _, rfl, _⟩
  · simp
  · simp
  · rfl

theorem start_notMem_perform {δ : Type} {task : Task δ} {answer : Answer δ}
    {tasks : List (Task δ)} {changed : Option CString}
    (h : m.perform task answer = some (m', tasks, changed)) (path : CString) :
    .add path .start ∉ tasks := by
  have hret {path' : CString} {added : Bool} {caller : Caller δ} {ret : List (Task δ)}
      (hret : addReturns path' added caller = some ret) : .add path .start ∉ ret := by
    cases caller with
    | start | handler => cases added <;> simp_all [addReturns]
    | walk dir name stream =>
        obtain rfl := Option.some.inj hret
        split <;> simp
  unfold perform at h
  split at h
  case h_1 =>
    obtain ⟨ret, hr, heq⟩ := Option.map_eq_some_iff.mp h
    cases heq
    exact hret hr
  case h_2 =>
    obtain ⟨ret, hr, heq⟩ := Option.map_eq_some_iff.mp h
    cases heq
    simp only [List.mem_append, not_or]
    refine ⟨?_, hret hr⟩
    simp [addedTasks]
  all_goals first
    | cases h; simp
    | cases h

/-- The handler leaves the path alone and asks for at most one walk. -/
theorem appSlicePath_handleInotifyEvent {δ : Type} (m : RAppMonitor) (i : InotifyEvent) :
    (m.handleInotifyEvent (δ := δ) i).1.appSlicePath = m.appSlicePath := by
  unfold handleInotifyEvent
  split
  · rfl
  · split <;> rfl

theorem start_notMem_handleInotifyEvent {δ : Type} (m : RAppMonitor) (i : InotifyEvent)
    (path : CString) : .add path .start ∉ (m.handleInotifyEvent (δ := δ) i).2 := by
  unfold handleInotifyEvent
  split
  · simp
  · split <;> simp

end RAppMonitor

namespace Watching

variable {root : CString} {files : List CString} {s t : Watching} {move : Move}

/-- The tree hangs from the path of the monitor, in every state. -/
structure Rooted (root : CString) (s : Watching) : Prop where
  wf : s.kernel.Wf root
  path : s.monitor.appSlicePath = root
  start : ∀ path, .add path .start ∈ s.stack → path = root
  fresh : s.started = false → s.stack = []

theorem rooted_init (uid : Uid) : Rooted (init uid).monitor.appSlicePath (init uid) where
  wf := Kernel.wf_init _
  path := rfl
  start _ h := by cases h
  fresh _ := rfl

theorem Rooted.step (h : Rooted root s) (hs : s.step move = some t) : Rooted root t := by
  cases move with
  | mkdir dir name =>
      obtain ⟨k, hk, rfl⟩ := Option.map_eq_some_iff.mp hs
      exact ⟨h.wf.mkdir hk, h.path, h.start, h.fresh⟩
  | rmdir dir name =>
      obtain ⟨k, hk, rfl⟩ := Option.map_eq_some_iff.mp hs
      exact ⟨h.wf.rmdir hk, h.path, h.start, h.fresh⟩
  | start =>
      simp only [Watching.step, Option.ite_none_left_eq_some, Option.some.injEq] at hs
      obtain ⟨_, rfl⟩ := hs
      refine ⟨h.wf, h.path, fun path hpath => ?_, fun hnot => by cases hnot⟩
      have hcall : path = s.monitor.appSlicePath := by simpa [RAppMonitor.start] using hpath
      exact hcall.trans h.path
  | dispatch =>
      simp only [Watching.step] at hs
      split at hs
      · next i queue hstarted _ hqueue =>
        obtain rfl := Option.some.inj hs
        refine ⟨h.wf.pop hqueue, ?_, fun path hpath => ?_, fun hnot => ?_⟩
        · exact (RAppMonitor.appSlicePath_handleInotifyEvent s.monitor i).trans h.path
        · exact absurd hpath (RAppMonitor.start_notMem_handleInotifyEvent s.monitor i path)
        · cases hstarted.symm.trans hnot
      · cases hs
  | run o =>
      simp only [Watching.step] at hs
      split at hs
      · cases hs
      · next task rest hstack =>
        obtain ⟨⟨a, k⟩, hanswer, hs⟩ := Option.bind_eq_some_iff.mp hs
        obtain ⟨⟨m, tasks, changed⟩, hperform, hs⟩ := Option.bind_eq_some_iff.mp hs
        cases hs
        refine ⟨h.wf.answer hanswer, ?_, fun path hpath => ?_, fun hnot => ?_⟩
        · exact (RAppMonitor.appSlicePath_perform hperform).trans h.path
        · rcases List.mem_append.mp hpath with hpath | hpath
          · exact absurd hpath (RAppMonitor.start_notMem_perform hperform path)
          · exact h.start path (hstack ▸ List.mem_cons_of_mem _ hpath)
        · rw [h.fresh hnot] at hstack
          cases hstack

/-! ### Working off what is left -/

def Resting (files : List CString) (s : Watching) : Move → Prop
  | .mkdir _ _ | .rmdir _ _ => False
  | .start | .dispatch => True
  | .run o => ∀ task ∈ s.stack.head?, ReturnsNew files s.kernel o task

def eventCost (files : List CString) (dirs : GHashTable CString ℕ) : ℕ :=
  2 * files.length + (2 * files.length + 7) * dirs.keys.length + 6

def potential (files : List CString) (s : Watching) : ℕ :=
  stackCost files s.kernel.dirs s.stack + s.kernel.queue.length * eventCost files s.kernel.dirs +
    if s.started then 0 else eventCost files s.kernel.dirs

theorem stackCost_start (files : List CString) (dirs : GHashTable CString ℕ) (m : RAppMonitor) :
    stackCost files dirs m.start < eventCost files dirs := by
  have hstream := streamCost_le files dirs m.appSlicePath []
  simp only [RAppMonitor.start, stackCost_cons, stackCost_nil, Task.cost, eventCost]
  omega

theorem stackCost_handleInotifyEvent (files : List CString) (dirs : GHashTable CString ℕ)
    (m : RAppMonitor) (i : InotifyEvent) :
    stackCost files dirs (m.handleInotifyEvent i).2 < eventCost files dirs := by
  have hstream := streamCost_le files dirs (m.eventPath i) []
  unfold RAppMonitor.handleInotifyEvent
  split
  · exact Nat.succ_pos _
  · split <;> simp only [stackCost_cons, stackCost_nil, Task.cost, eventCost] <;> omega

/-- Every move of the monitor uses up potential, and the tree stays as it is. -/
theorem potential_lt (hrests : Resting files s move) (hs : s.step move = some t) :
    potential files t < potential files s ∧ t.kernel.dirs = s.kernel.dirs := by
  cases move with
  | mkdir dir name => exact hrests.elim
  | rmdir dir name => exact hrests.elim
  | start =>
      simp only [Watching.step, Option.ite_none_left_eq_some, Option.some.injEq] at hs
      obtain ⟨hstarted, rfl⟩ := hs
      have hcost := stackCost_start files s.kernel.dirs s.monitor
      refine ⟨?_, rfl⟩
      simp only [potential, hstarted, if_true, Bool.false_eq_true, if_false]
      omega
  | dispatch =>
      simp only [Watching.step] at hs
      split at hs
      · next i queue hstarted hstack hqueue =>
        obtain rfl := Option.some.inj hs
        have hcost := stackCost_handleInotifyEvent files s.kernel.dirs s.monitor i
        refine ⟨?_, rfl⟩
        simp only [potential, hstarted, hstack, hqueue, if_true, stackCost_nil, List.length_cons,
          Nat.succ_mul]
        omega
      · cases hs
  | run o =>
      simp only [Watching.step] at hs
      split at hs
      · cases hs
      · next task rest hstack =>
        obtain ⟨⟨a, k⟩, hanswer, hs⟩ := Option.bind_eq_some_iff.mp hs
        obtain ⟨⟨m, tasks, changed⟩, hperform, hs⟩ := Option.bind_eq_some_iff.mp hs
        cases hs
        obtain ⟨hdirs, hqueue⟩ := Kernel.answer_frame hanswer
        have hcost := stackCost_perform (hrests task (by rw [hstack]; rfl)) hanswer hperform
        refine ⟨?_, hdirs⟩
        simp only [potential, hstack, hdirs, hqueue, stackCost_append, stackCost_cons]
        omega

variable (files) in
theorem exists_answer (h : Rooted root s)
    (hroot : ∃ parent name, root = childPath parent name ∧ ValidName name)
    {task : Task DirStream} {rest : List (Task DirStream)} (hstack : s.stack = task :: rest) :
    ∃ o a k, ReturnsNew files s.kernel o task ∧ s.kernel.answer o task = some (a, k) ∧
      (s.monitor.perform task a).isSome = true := by
  let info : PathInfo := ⟨false, none, none, none, 0⟩
  cases task with
  | add path caller =>
      by_cases hdir : path ∈ s.kernel.dirs
      · obtain ⟨fresh, wd, k, hadd⟩ := Kernel.exists_addWatch hdir
        refine ⟨⟨fresh, none, info⟩, .addWatch (some wd), k, trivial, ?_, ?_⟩
        · simp [Kernel.answer, hadd]
        · cases caller <;> rfl
      · refine ⟨⟨0, none, info⟩, .addWatch none, s.kernel, trivial, ?_, ?_⟩
        · simp [Kernel.answer, Kernel.addWatch, hdir]
        · cases caller with
          | start =>
              have hpath : path = root := h.start path (hstack ▸ List.mem_cons_self)
              exact absurd (hpath ▸ h.wf.rootMem) hdir
          | handler | walk dir name stream => rfl
  | rmWatch wd => exact ⟨⟨0, none, info⟩, _, _, trivial, rfl, rfl⟩
  | appInfo path notify => exact ⟨⟨0, none, info⟩, _, _, trivial, rfl, rfl⟩
  | openDir dir =>
      refine ⟨⟨0, none, info⟩, _, _, trivial, rfl, ?_⟩
      split <;> rfl
  | readName dir stream =>
      by_cases hend : s.kernel.Exhausted dir stream
      · exact ⟨⟨0, none, info⟩, .read none, s.kernel, fun _ hname => (by cases hname),
          if_pos hend, rfl⟩
      · obtain ⟨name, hvalid, hnew, hdir⟩ := Kernel.exists_entry h.wf hroot hend
        refine ⟨⟨0, some name, info⟩, _, _, fun n hn => ?_, if_pos hvalid, rfl⟩
        obtain rfl := Option.some.inj hn
        exact ⟨hnew, .inl hdir⟩
  | testDir dir name stream =>
      refine ⟨⟨0, none, info⟩, _, _, trivial, rfl, ?_⟩
      cases decide (childPath dir name ∈ s.kernel.dirs) <;> rfl

/-- Something is left to be done until the queue is empty and no handler runs. -/
theorem exists_step (h : Rooted root s)
    (hroot : ∃ parent name, root = childPath parent name ∧ ValidName name)
    (hbusy : ¬ s.Quiescent) : ∃ move t, Resting files s move ∧ s.step move = some t := by
  cases hstarted : s.started with
  | false => exact ⟨.start, _, trivial, by simp [Watching.step, hstarted]; rfl⟩
  | true =>
      cases hstack : s.stack with
      | nil =>
          cases hqueue : s.kernel.queue with
          | nil => exact absurd ⟨hstarted, hstack, hqueue⟩ hbusy
          | cons i queue =>
              exact ⟨.dispatch, _, trivial, by simp [Watching.step, hstarted, hstack, hqueue]; rfl⟩
      | cons task rest =>
          obtain ⟨o, a, k, hnames, hanswer, hperform⟩ :=
            exists_answer files h hroot hstack
          obtain ⟨⟨m, tasks, changed⟩, hperform⟩ := Option.isSome_iff_exists.mp hperform
          refine ⟨.run o, { s with kernel := k, monitor := m, stack := tasks ++ rest },
            fun task' htask' => ?_, ?_⟩
          · rw [hstack] at htask'
            obtain rfl := Option.some.inj htask'
            exact hnames
          · simp [Watching.step, hstack, hanswer, hperform]

theorem appSlicePath_init (uid : Uid) : ∃ parent name,
    (init uid).monitor.appSlicePath = childPath parent name ∧ ValidName name := by
  have hlast (user slice service : CString) :
      user ++ (slice ++ (service ++ (slice ++ ".service/app.slice".toList))) =
        childPath (user ++ (slice ++ (service ++ (slice ++ ".service".toList))))
          "app.slice".toList := by
    have hsplit : ".service/app.slice".toList = ".service".toList ++ '/' :: "app.slice".toList :=
      rfl
    rw [hsplit]
    simp only [childPath, List.append_assoc]
  exact ⟨_, _, hlast _ _ _, by decide⟩

/-- From every reachable state, unsafe steps included, what the monitor does while the
tree is at rest ends, with an empty queue and no handler running: no order of the
answers lets it go on for ever or get stuck. If all steps were safe, every directory has
a live watch then. -/
theorem catches_up {uid : Uid} (files : List CString) (h : Reachable step (init uid) s) :
    Ends step (Resting files) (fun _ => True)
      (fun t => t.Quiescent ∧ t.kernel.dirs = s.kernel.dirs ∧
        (ReachableBy step Safe (init uid) t →
          ∀ path ∈ s.kernel.dirs, ∃ wd, Watched t.kernel t.monitor path wd)) s := by
  have hroot := appSlicePath_init uid
  have hrooted : Rooted (init uid).monitor.appSlicePath s :=
    h.invariant (rooted_init uid) fun _ _ _ hr _ hs => hr.step hs
  have hdone {t : Watching} (hdirs : t.kernel.dirs = s.kernel.dirs) (hquiet : t.Quiescent) :
      t.Quiescent ∧ t.kernel.dirs = s.kernel.dirs ∧ (ReachableBy step Safe (init uid) t →
        ∀ path ∈ s.kernel.dirs, ∃ wd, Watched t.kernel t.monitor path wd) := by
    refine ⟨hquiet, hdirs, fun hsafe => ?_⟩
    have hinv : Inv t := hsafe.invariant (inv_init uid) fun _ _ _ hi hc hs => hi.step hc hs
    exact hdirs ▸ hinv.watched hquiet
  by_cases hquiet : s.Quiescent
  · exact .done trivial (hdone rfl hquiet)
  · refine Ends.of_potential (potential files)
      (P := fun t => Rooted (init uid).monitor.appSlicePath t ∧ t.kernel.dirs = s.kernel.dirs ∧
        ¬ t.Quiescent) (fun _ _ => trivial) (fun t ht => ?_) (fun t move t' ht hrests hs => ?_)
      ⟨hrooted, rfl, hquiet⟩
    · exact exists_step ht.1 hroot ht.2.2
    · obtain ⟨hlt, hdirs⟩ := potential_lt hrests hs
      by_cases hquiet' : t'.Quiescent
      · exact .inr (.done trivial (hdone (hdirs.trans ht.2.1) hquiet'))
      · exact .inl ⟨⟨ht.1.step hs, hdirs.trans ht.2.1, hquiet'⟩, hlt⟩

def foundGone : List Move :=
  [.start, ask 1 none, .mkdir appSlice "a.service".toList, ask 0 none,
    ask 0 (some "a.service".toList), ask 0 none, .rmdir appSlice "a.service".toList]

theorem catches_up_foundGone :
    ∃ move t, Resting ["cgroup.procs".toList]
      ((checkedRun step (fun _ _ => True) (init 1000) foundGone).get (by decide)) move ∧
      ((checkedRun step (fun _ _ => True) (init 1000) foundGone).get (by decide)).step move =
        some t :=
  ((catches_up ["cgroup.procs".toList] (reachableBy_checkedRun (by decide))).next_of_not
    fun h => absurd h.1.stack (by decide)).1

end Watching

end Uresourced
