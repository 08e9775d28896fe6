import Uresourced.AppMonitor.Queue
import Uresourced.AppMonitor.SameWatches
import Uresourced.Lib.PropertyStore
import Uresourced.UserDaemon.Sources

/-!
The session of a user: the tree of cgroups, the user daemon, and systemd.

`UserDaemon` takes whatever answers it is given, and `Watching` knows nothing of
audio, games and the policy. Here they are one: the kernel answers, the attribute
that tells the focus belongs to the tree, and the calls reach systemd. What
`Watching` says of the watches holds here, too: `step_watching` finds its steps.
-/

namespace Uresourced

open CString Runs PropertyStore

/-! ### Forgetting the streams -/

def Caller.map {δ ε : Type} (f : δ → ε) : Caller δ → Caller ε
  | .start => .start
  | .handler => .handler
  | .walk dir name stream => .walk dir name (f stream)

def Task.map {δ ε : Type} (f : δ → ε) : Task δ → Task ε
  | .add path caller => .add path (caller.map f)
  | .rmWatch wd => .rmWatch wd
  | .appInfo path notify => .appInfo path notify
  | .openDir dir => .openDir dir
  | .readName dir stream => .readName dir (f stream)
  | .testDir dir name stream => .testDir dir name (f stream)

def Answer.map {δ ε : Type} (f : δ → ε) : Answer δ → Answer ε
  | .addWatch wd => .addWatch wd
  | .removed => .removed
  | .pathInfo info => .pathInfo info
  | .opened stream => .opened (stream.map f)
  | .read entry => .read (entry.map fun (name, stream) => (name, f stream))
  | .isDir answer => .isDir answer

namespace RAppMonitor

variable {δ ε : Type} (f : δ → ε) (self : RAppMonitor)

theorem addReturns_map (path : CString) (added : Bool) (caller : Caller δ) :
    addReturns path added (caller.map f) =
      (addReturns path added caller).map (·.map (Task.map f)) := by
  cases caller <;> cases added <;> rfl

theorem addedTasks_map (path : CString) :
    self.addedTasks path = (self.addedTasks path).map (Task.map f) := by
  unfold addedTasks
  rw [List.map_append, List.map_map]
  congr 1
  split <;> rfl

theorem start_map : self.start = self.start.map (Task.map f) := rfl

theorem perform_map (task : Task δ) (answer : Answer δ) :
    self.perform (task.map f) (answer.map f) =
      (self.perform task answer).map fun (m, tasks, changed) =>
        (m, tasks.map (Task.map f), changed) := by
  cases task with
  | add path caller =>
      cases answer with
      | addWatch wd =>
          cases wd with
          | none =>
              simp only [Task.map, Answer.map, perform, addReturns_map, Option.map_map]
              rfl
          | some wd =>
              simp only [Task.map, Answer.map, perform, addReturns_map, Option.map_map]
              congr 1
              funext tasks
              simp only [Function.comp_apply, List.map_append, ← addedTasks_map]
      | _ => rfl
  | rmWatch wd => cases answer <;> rfl
  | appInfo path notify => cases answer <;> rfl
  | openDir dir =>
      cases answer with
      | opened stream => cases stream <;> rfl
      | _ => rfl
  | readName dir stream =>
      cases answer with
      | read entry => cases entry <;> rfl
      | _ => rfl
  | testDir dir name stream =>
      cases answer with
      | isDir answer => cases answer <;> rfl
      | _ => rfl

theorem handleInotifyEvent_map (i : InotifyEvent) :
    self.handleInotifyEvent i = ((self.handleInotifyEvent (δ := δ) i).1,
      (self.handleInotifyEvent i).2.map (Task.map f)) := by
  unfold handleInotifyEvent
  split
  · rfl
  · cases i.mask <;> rfl

end RAppMonitor

/-! ### The session -/

def AppCall.properties (c : AppCall) : List (CString × UInt64) :=
  [("CPUWeight".toList, c.cpuWeight), ("IOWeight".toList, c.ioWeight)]

abbrev AppStore := Store (Option CString) CString UInt64

abbrev SetsAppProperties (apply : AppStore → AppCall → AppStore) : Prop :=
  Sets AppCall.name AppCall.properties apply

/-- The kernel, the attribute `xdg.inactive-since` of every directory, the tasks of
the running function with their streams, the daemon, and systemd. -/
structure UserSession where
  kernel : Kernel
  attributes : CString → Option CString
  tasks : List (Task DirStream)
  daemon : UserDaemon
  systemd : Owner (Option CString) CString UInt64

inductive SessionEvent
  | mkdir (dir name : CString)
  | rmdir (dir name : CString)
  | setAttribute (dir name : CString) (value : Option CString)
  | dispatch
  | run (oracle : Oracle)
  | callback (e : DaemonEvent)
  | handle

namespace UserSession

def init (uid : Uid) : UserSession where
  kernel := Kernel.init (RAppMonitor.init uid).appSlicePath
  attributes := fun _ => none
  tasks := []
  daemon := .init uid
  systemd := ⟨0, fun _ _ => none⟩

/-- A lookup finds what the tree has. The time does not run backwards from 0. -/
def Sees (s : UserSession) (v : Visit) : Prop :=
  v.info.isDir = decide (v.path ∈ s.kernel.dirs) ∧
    v.info.inactiveSince = s.attributes v.path ∧ 0 ≤ v.info.monotonicTime

instance (s : UserSession) (v : Visit) : Decidable (s.Sees v) := inferInstanceAs (Decidable (_ ∧ _))

def daemonStep (s : UserSession) (e : DaemonEvent) : Option UserDaemon :=
  if ∀ v ∈ s.daemon.visitOf e, s.Sees v then s.daemon.step e else none

/-- A change of an attribute is reported to the directory above, with the name, and
to the directory itself, without one. What systemd does with a call is a parameter. -/
def step (apply : AppStore → AppCall → AppStore) (s : UserSession) :
    SessionEvent → Option UserSession
  | .mkdir dir name => (s.kernel.mkdir dir name).map fun k => { s with kernel := k }
  | .rmdir dir name => (s.kernel.rmdir dir name).map fun k =>
      { s with
        kernel := k
        attributes := Function.update s.attributes (childPath dir name) none }
  | .setAttribute dir name value =>
      if childPath dir name ∈ s.kernel.dirs ∧ ValidName name then
        some { s with
          kernel := (s.kernel.notify dir .attrib name).notify (childPath dir name) .attrib []
          attributes := Function.update s.attributes (childPath dir name) value }
      else none
  | .dispatch =>
      match s.kernel.queue with
      | [] => none
      | i :: queue => (s.daemonStep (.inotify i)).map fun daemon =>
          { s with
            kernel := { s.kernel with queue := queue }
            tasks := (s.daemon.monitor.handleInotifyEvent i).2
            daemon := daemon }
  | .run o =>
      match s.tasks with
      | [] => none
      | task :: rest => do
          let (answer, kernel) ← s.kernel.answer o task
          let (_, tasks, _) ← s.daemon.monitor.perform task answer
          let daemon ← s.daemonStep (.answer (answer.map fun _ => ()))
          return { s with kernel := kernel, tasks := tasks ++ rest, daemon := daemon }
  | .callback e =>
      match e with
      | .answer _ | .inotify _ => none
      | .monitorStart => (s.daemonStep e).map fun daemon =>
          { s with tasks := s.daemon.monitor.start, daemon := daemon }
      | _ => (s.daemonStep e).map fun daemon => { s with daemon := daemon }
  | .handle =>
      (s.systemd.handle apply s.daemon.calls true).map fun systemd => { s with systemd := systemd }

end UserSession

/-! ### The watches of a session -/

def Task.OfAttribute {δ : Type} : Task δ → Prop
  | .appInfo _ notify => notify = true
  | _ => False

instance {δ : Type} : (task : Task δ) → Decidable task.OfAttribute
  | .appInfo _ notify => inferInstanceAs (Decidable (notify = true))
  | .add _ _ | .rmWatch _ | .openDir _ | .readName _ _ | .testDir _ _ _ => isFalse id

def treeTasks {δ : Type} (tasks : List (Task δ)) : List (Task δ) :=
  tasks.filter fun task => decide (¬ task.OfAttribute)

def treeEvents (queue : List InotifyEvent) : List InotifyEvent :=
  queue.filter fun i => decide (i.mask ≠ .attrib)

theorem arrives_treeEvents : Arrives treeEvents := by
  rintro queue i (hmask | hmask) <;> simp [treeEvents, hmask]

theorem requeue_notify (k : Kernel) (dir name : CString) :
    (k.notify dir .attrib name).requeue treeEvents = k.requeue treeEvents := by
  cases hwatch : k.watches dir <;> simp [treeEvents, Kernel.requeue, Kernel.notify, hwatch]

theorem treeTasks_append {δ : Type} (tasks tasks' : List (Task δ)) :
    treeTasks (tasks ++ tasks') = treeTasks tasks ++ treeTasks tasks' := List.filter_append ..

theorem RAppMonitor.treeTasks_perform {δ : Type} {m n : RAppMonitor} {task : Task δ}
    {answer : Answer δ} {tasks : List (Task δ)} {changed : Option CString}
    (h : m.perform task answer = some (n, tasks, changed)) : treeTasks tasks = tasks := by
  have hadded (path : CString) : treeTasks (m.addedTasks (δ := δ) path) = m.addedTasks path := by
    unfold addedTasks
    cases m.pathToWd.lookup path <;> split <;> simp [treeTasks, Task.OfAttribute]
  have hreturns {path : CString} {added : Bool} {caller : Caller δ} {ret : List (Task δ)}
      (hret : addReturns path added caller = some ret) : treeTasks ret = ret := by
    cases caller <;> cases added <;> cases hret <;> simp [treeTasks, Task.OfAttribute]
  unfold perform at h
  split at h
  case h_1 =>
    obtain ⟨ret, hret, heq⟩ := Option.map_eq_some_iff.mp h
    cases heq
    exact hreturns hret
  case h_2 path caller wd =>
    obtain ⟨ret, hret, heq⟩ := Option.map_eq_some_iff.mp h
    cases heq
    rw [treeTasks_append, hadded, hreturns hret]
  case h_11 => cases h
  all_goals
    cases h
    simp [treeTasks, Task.OfAttribute]

/-- An event about an attribute leads to one lookup, the others to none. -/
theorem RAppMonitor.treeTasks_handleInotifyEvent {δ : Type} (m : RAppMonitor) (i : InotifyEvent) :
    treeTasks (m.handleInotifyEvent (δ := δ) i).2 =
      if i.mask = .attrib then [] else (m.handleInotifyEvent i).2 := by
  unfold handleInotifyEvent
  split
  · split <;> rfl
  · cases i.mask <;> rfl

namespace UserSession

variable {apply : AppStore → AppCall → AppStore} {s s' : UserSession} {e : SessionEvent}

def watching (s : UserSession) : Watching where
  kernel := s.kernel.requeue treeEvents
  monitor := s.daemon.monitor
  stack := treeTasks s.tasks
  started := s.daemon.monitorStarted

def Safe (s : UserSession) : SessionEvent → Prop
  | .run _ => ∀ task ∈ s.tasks.head?, s.watching.SafeTask task
  | .dispatch => ∀ i ∈ s.kernel.queue.head?, i.mask = .delete →
      SafeDelete s.daemon.monitor (s.daemon.monitor.eventPath i)
  | _ => True

instance (s : UserSession) : (e : SessionEvent) → Decidable (s.Safe e)
  | .run _ => inferInstanceAs (Decidable (∀ task ∈ s.tasks.head?, s.watching.SafeTask task))
  | .dispatch => inferInstanceAs (Decidable (∀ i ∈ s.kernel.queue.head?, i.mask = .delete →
      SafeDelete s.daemon.monitor (s.daemon.monitor.eventPath i)))
  | .mkdir _ _ | .rmdir _ _ | .setAttribute _ _ _ | .callback _ | .handle => isTrue trivial

/-- The daemon runs the tasks of the session, the policy starts after the monitor, and
nothing runs before. -/
structure Linked (s : UserSession) : Prop where
  stack : s.daemon.stack = s.tasks.map (Task.map fun _ => ())
  started : s.daemon.policyStarted = true → s.daemon.monitorStarted = true
  fresh : s.daemon.monitorStarted = false → s.tasks = []

theorem linked_init (uid : Uid) : Linked (init uid) := ⟨rfl, nofun, fun _ => rfl⟩

/-- A visit changes no watch. No bit is compared here. -/
theorem sameFlag_visit (d : UserDaemon) (v : Visit) :
    UserDaemon.SameFlag boostNone d (d.visit v) := by
  have hother (flag : AppBoostFlags) : boostNone &&& flag = 0 := BitVec.zero_and
  cases hwrite : v.write with
  | none => exact .of_other (hother boostNone) (by simp [hwrite])
  | some w =>
      refine .of_other (hother w.1) fun w' hw' => ?_
      cases hwrite.symm.trans hw'
      rfl

/-- A callback that is not about inotify changes no watch and asks nothing. -/
theorem sameWatches_callback {d d' : UserDaemon} {event : DaemonEvent}
    (hs : d.step event = some d') (hanswer : ∀ answer, event ≠ .answer answer)
    (hinotify : ∀ i, event ≠ .inotify i) (hstart : event ≠ .monitorStart) :
    SameWatches d.monitor d'.monitor ∧ d'.stack = d.stack ∧
      d'.monitorStarted = d.monitorStarted ∧
      (d'.policyStarted = true → d.policyStarted = true ∨ d.monitorStarted = true) := by
  have hsource (flag : AppBoostFlags) (h : event.source = some flag) :
      UserDaemon.SameFlag boostNone d d' := by
    rw [UserDaemon.step_of_source d h, Option.ite_none_right_eq_some, Option.some.injEq] at hs
    obtain ⟨_, rfl⟩ := hs
    cases d.visitOf event with
    | none => exact .refl boostNone d
    | some v => exact sameFlag_visit d v
  cases event with
  | monitorStart => exact absurd rfl hstart
  | answer answer => exact absurd rfl (hanswer answer)
  | inotify i => exact absurd rfl (hinotify i)
  | policyStart userFile systemFile =>
      simp only [UserDaemon.step, Option.ite_none_right_eq_some, Option.some.injEq] at hs
      obtain ⟨hready, rfl⟩ := hs
      exact ⟨.refl _, rfl, rfl, fun _ => .inr hready.1⟩
  | proxyReady =>
      simp only [UserDaemon.step, Option.ite_none_right_eq_some, Option.some.injEq] at hs
      obtain ⟨_, rfl⟩ := hs
      exact ⟨.refl _, rfl, rfl, .inl⟩
  | nodeInfo info cgroups =>
      have hsame := hsource _ rfl
      exact ⟨hsame.watches, hsame.stack, hsame.monitorStarted,
        fun hstarted => .inl (hsame.policyStarted ▸ hstarted)⟩
  | gameSignal signalName params cgroups =>
      have hsame := hsource _ rfl
      exact ⟨hsame.watches, hsame.stack, hsame.monitorStarted,
        fun hstarted => .inl (hsame.policyStarted ▸ hstarted)⟩

/-- A step of the session is one of the watches, or they do not notice it. -/
inductive Moves (s s' : UserSession) (e : SessionEvent) : Prop
  | rests : SameWatches s.daemon.monitor s'.daemon.monitor →
      s'.watching = s.watching.withMonitor s'.daemon.monitor → Moves s s' e
  | moves (move : Move) (t : Watching) : (s.Safe e → s.watching.Safe move) →
      (move = .dispatch → e = .dispatch ∧ s.watching.kernel.queue.head? = s.kernel.queue.head?) →
      s.watching.step move = some t → SameWatches t.monitor s'.daemon.monitor →
      s'.watching = t.withMonitor s'.daemon.monitor → Moves s s' e

/-- The step of the daemon that goes with an answer. -/
theorem daemonStep_answer {task : Task DirStream} {rest tasks : List (Task DirStream)}
    {answer : Answer DirStream} {n : RAppMonitor} {changed : Option CString} {d : UserDaemon}
    (hlinked : Linked s) (htasks : s.tasks = task :: rest)
    (hperform : s.daemon.monitor.perform task answer = some (n, tasks, changed))
    (hd : s.daemonStep (.answer (answer.map fun _ => ())) = some d) :
    d = ({ s.daemon with
      monitor := n
      stack := (tasks ++ rest).map (Task.map fun _ => ()) } : UserDaemon).emitChanged changed := by
  simp only [daemonStep, Option.ite_none_right_eq_some] at hd
  obtain ⟨_, hd⟩ := hd
  have hstack : s.daemon.stack = task.map (fun _ => ()) :: rest.map (Task.map fun _ => ()) := by
    rw [hlinked.stack, htasks, List.map_cons]
  simp only [UserDaemon.step, hstack, RAppMonitor.perform_map, hperform, Option.map_some,
    Option.some.injEq] at hd
  rw [← hd, List.map_append]

theorem moves_run {o : Oracle} (hlinked : Linked s) (hs : s.step apply (.run o) = some s') :
    Moves s s' (.run o) ∧ Linked s' := by
  cases htasks : s.tasks with
  | nil => simp [step, htasks] at hs
  | cons task rest =>
      simp only [step, htasks, Option.bind_eq_bind, Option.bind_eq_some_iff, Prod.exists,
        Option.pure_def, Option.some.injEq] at hs
      obtain ⟨answer, k, hanswer, n, tasks, changed, hperform, d, hd, rfl⟩ := hs
      have heq := daemonStep_answer hlinked htasks hperform hd
      have hemitted : UserDaemon.SameFlag boostNone { s.daemon with
          monitor := n
          stack := (tasks ++ rest).map (Task.map fun _ => ()) } d :=
        heq ▸ .of_emitChanged boostNone _ changed
      have hrest : treeTasks (tasks ++ rest) = tasks ++ treeTasks rest := by
        rw [treeTasks_append, RAppMonitor.treeTasks_perform hperform]
      have hstarted : s.daemon.monitorStarted = true := by
        by_contra hnot
        cases htasks.symm.trans (hlinked.fresh (Bool.not_eq_true _ ▸ hnot))
      have hstarted' := hemitted.monitorStarted.trans hstarted
      refine ⟨?_, hemitted.stack, fun _ => hstarted', fun hnot => ?_⟩
      · by_cases hattribute : task.OfAttribute
        · cases task with
          | appInfo path notify =>
              cases hanswer
              cases hperform
              refine .rests ((SameWatches.of_getAppInfo _ path o.info).trans hemitted.watches) ?_
              have hstack : treeTasks s.tasks = treeTasks rest := by
                simp [htasks, treeTasks, hattribute]
              simp only [watching, Watching.withMonitor, hstack, List.nil_append]
              rw [hemitted.monitorStarted]
          | _ => exact hattribute.elim
        · have hstack : s.watching.stack = task :: treeTasks rest := by
            simp [watching, htasks, treeTasks, hattribute]
          refine .moves (.run o) ⟨k.requeue treeEvents, n, tasks ++ treeTasks rest,
            s.daemon.monitorStarted⟩ (fun hsafe task' htask' => ?_) (fun h => (by cases h)) ?_
            hemitted.watches ?_
          · refine hsafe task' ?_
            rw [hstack] at htask'
            rw [htasks]
            exact htask'
          · have hanswer' : s.watching.kernel.answer o task =
                some (answer, k.requeue treeEvents) := by
              simp only [watching, Kernel.answer_requeue, hanswer, Option.map_some]
            simp only [Watching.step, hstack, hanswer', Option.bind_eq_bind, Option.bind_some]
            rw [show s.watching.monitor = s.daemon.monitor from rfl, hperform]
            rfl
          · simp only [watching, Watching.withMonitor, hrest]
            rw [hemitted.monitorStarted]
      · cases hstarted'.symm.trans hnot

theorem moves_dispatch (hlinked : Linked s) (hs : s.step apply .dispatch = some s') :
    Moves s s' .dispatch ∧ Linked s' := by
  simp only [step] at hs
  split at hs
  · cases hs
  · next i queue hqueue =>
    obtain ⟨d, hd, rfl⟩ := Option.map_eq_some_iff.mp hs
    simp only [daemonStep, UserDaemon.step, Option.ite_none_right_eq_some,
      Option.some.injEq] at hd
    obtain ⟨_, hidle, rfl⟩ := hd
    have htasks : s.tasks = [] := by
      have hstack := hlinked.stack
      rw [hidle.2] at hstack
      exact List.map_eq_nil_iff.mp hstack.symm
    have hstarted : s.watching.started = true := hlinked.started hidle.1
    have hunit := s.daemon.monitor.handleInotifyEvent_map (fun _ : DirStream => ()) i
    refine ⟨?_, congrArg Prod.snd hunit, fun _ => hstarted, fun hnot => ?_⟩
    swap
    · cases hstarted.symm.trans hnot
    have hmonitor : (s.daemon.monitor.handleInotifyEvent (δ := Unit) i).1 =
        (s.daemon.monitor.handleInotifyEvent (δ := DirStream) i).1 := congrArg Prod.fst hunit
    have hstack : s.watching.stack = [] := by simp [watching, htasks, treeTasks]
    have htree := s.daemon.monitor.treeTasks_handleInotifyEvent (δ := DirStream) i
    by_cases hmask : i.mask = .attrib
    · have hqueue' : treeEvents s.kernel.queue = treeEvents queue := by
        simp [hqueue, treeEvents, hmask]
      have hsame : (s.daemon.monitor.handleInotifyEvent (δ := Unit) i).1 = s.daemon.monitor := by
        unfold RAppMonitor.handleInotifyEvent
        split <;> simp [hmask]
      rw [if_pos hmask] at htree
      refine .rests ?_ ?_
      · change SameWatches _ (s.daemon.monitor.handleInotifyEvent (δ := Unit) i).1
        rw [hsame]
        exact .refl _
      · simp only [watching, Watching.withMonitor, Kernel.requeue, hqueue', htree, htasks]
        rfl
    · have hqueue' : s.watching.kernel.queue = i :: treeEvents queue := by
        simp [watching, Kernel.requeue, hqueue, treeEvents, hmask]
      rw [if_neg hmask] at htree
      refine .moves .dispatch ⟨{ s.kernel with queue := treeEvents queue },
        (s.daemon.monitor.handleInotifyEvent (δ := DirStream) i).1,
        (s.daemon.monitor.handleInotifyEvent i).2, true⟩ (fun hsafe i' hi' => ?_)
        (fun _ => ⟨rfl, by rw [hqueue', hqueue]; rfl⟩) ?_ (hmonitor ▸ .refl _) ?_
      · rw [hqueue'] at hi'
        obtain rfl := Option.some.inj hi'
        exact hsafe i (by simp [hqueue])
      · simp only [Watching.step, hstarted, hstack, hqueue']
        rfl
      · simp only [watching, Watching.withMonitor, htree]
        rw [show s.daemon.monitorStarted = true from hstarted]
        rfl

theorem step_watching (hlinked : Linked s) (hs : s.step apply e = some s') :
    Moves s s' e ∧ Linked s' := by
  cases e with
  | mkdir dir name =>
      obtain ⟨k, hk, rfl⟩ := Option.map_eq_some_iff.mp hs
      refine ⟨.moves (.mkdir dir name) { s.watching with kernel := k.requeue treeEvents }
        (fun _ => trivial) (fun h => (by cases h)) ?_ (.refl _) rfl, hlinked.stack,
        hlinked.started, hlinked.fresh⟩
      simp [Watching.step, watching, Kernel.mkdir_requeue _ arrives_treeEvents, hk]
  | rmdir dir name =>
      obtain ⟨k, hk, rfl⟩ := Option.map_eq_some_iff.mp hs
      refine ⟨.moves (.rmdir dir name) { s.watching with kernel := k.requeue treeEvents }
        (fun _ => trivial) (fun h => (by cases h)) ?_ (.refl _) rfl, hlinked.stack,
        hlinked.started, hlinked.fresh⟩
      simp [Watching.step, watching, Kernel.rmdir_requeue _ arrives_treeEvents, hk]
  | setAttribute dir name value =>
      simp only [step, Option.ite_none_right_eq_some, Option.some.injEq] at hs
      obtain ⟨_, rfl⟩ := hs
      refine ⟨.rests (.refl _) ?_, hlinked.stack, hlinked.started, hlinked.fresh⟩
      simp only [watching, Watching.withMonitor, requeue_notify]
  | dispatch => exact moves_dispatch hlinked hs
  | run o => exact moves_run hlinked hs
  | callback event =>
      have hother {d : UserDaemon} (hd : s.daemonStep event = some d)
          (hanswer : ∀ answer, event ≠ .answer answer) (hinotify : ∀ i, event ≠ .inotify i)
          (hstart : event ≠ .monitorStart) :
          Moves s { s with daemon := d } (.callback event) ∧ Linked { s with daemon := d } := by
        simp only [daemonStep, Option.ite_none_right_eq_some] at hd
        obtain ⟨hsame, hstack, hmonitor, hpolicy⟩ :=
          sameWatches_callback hd.2 hanswer hinotify hstart
        refine ⟨.rests hsame ?_, hstack.trans hlinked.stack, fun hstarted => ?_, fun hnot => ?_⟩
        · simp only [watching, Watching.withMonitor, hmonitor]
        · exact hmonitor.trans ((hpolicy hstarted).elim hlinked.started id)
        · exact hlinked.fresh (hmonitor.symm.trans hnot)
      cases event with
      | answer answer => cases hs
      | inotify i => cases hs
      | monitorStart =>
          obtain ⟨d, hd, rfl⟩ := Option.map_eq_some_iff.mp hs
          simp only [daemonStep, UserDaemon.step, Option.ite_none_right_eq_some,
            Option.ite_none_left_eq_some, Option.some.injEq] at hd
          obtain ⟨_, hstarted, rfl⟩ := hd
          refine ⟨.moves .start ⟨s.kernel.requeue treeEvents, s.daemon.monitor,
            s.daemon.monitor.start, true⟩ (fun _ => trivial) (fun h => (by cases h)) ?_ (.refl _)
            ?_, ?_, fun _ => rfl, fun h => (by cases h)⟩
          · simp only [Watching.step, watching, hstarted]
            rfl
          · simp [watching, Watching.withMonitor, treeTasks, RAppMonitor.start, Task.OfAttribute]
          · exact s.daemon.monitor.start_map _
      | policyStart _ _ | proxyReady | nodeInfo _ _ | gameSignal _ _ _ =>
          obtain ⟨d, hd, rfl⟩ := Option.map_eq_some_iff.mp hs
          exact hother hd (fun _ h => (by cases h)) (fun _ h => (by cases h))
            fun h => (by cases h)
  | handle =>
      obtain ⟨o, _, rfl⟩ := Option.map_eq_some_iff.mp hs
      exact ⟨.rests (.refl _) rfl, hlinked.stack, hlinked.started, hlinked.fresh⟩

/-! ### Whole runs -/

/-- The watches of the session, next to a monitor that knows other applications. -/
structure Shows (s : UserSession) (w : Watching) : Prop where
  linked : Linked s
  same : SameWatches s.daemon.monitor w.monitor
  eq : w = s.watching.withMonitor w.monitor

theorem Shows.step {w : Watching} (h : Shows s w) (hsafe : s.Safe e)
    (hs : s.step apply e = some s') :
    Shows s' w ∨ ∃ move w', w.Safe move ∧ w.step move = some w' ∧ Shows s' w' := by
  obtain ⟨hmoves, hlinked⟩ := step_watching h.linked hs
  cases hmoves with
  | rests hsame heq =>
      refine .inl ⟨hlinked, hsame.symm.trans h.same, ?_⟩
      rw [heq]
      exact h.eq
  | moves move t hmove _ ht hsame heq =>
      obtain ⟨n, hn, hsame'⟩ := Watching.step_withMonitor (m := w.monitor) h.same ht
      refine .inr ⟨move, t.withMonitor n, ?_, ?_, hlinked, hsame.symm.trans hsame', ?_⟩
      · rw [h.eq]
        exact (Watching.safe_withMonitor h.same).mpr (hmove hsafe)
      · rw [h.eq]
        exact hn
      · rw [heq]
        rfl

theorem shows_of_reachable {uid : Uid} (h : ReachableBy (step apply) Safe (init uid) s) :
    ∃ w, ReachableBy Watching.step Watching.Safe (Watching.init uid) w ∧ Shows s w :=
  h.simulates ⟨linked_init uid, .refl _, rfl⟩ fun _ _ _ _ hshows hsafe hs => hshows.step hsafe hs

structure Quiet (s : UserSession) : Prop where
  started : s.daemon.monitorStarted = true
  tasks : s.tasks = []
  queue : s.kernel.queue = []

instance (s : UserSession) : Decidable s.Quiet :=
  decidable_of_iff (s.daemon.monitorStarted = true ∧ s.tasks = [] ∧ s.kernel.queue = [])
    ⟨fun h => ⟨h.1, h.2.1, h.2.2⟩, fun h => ⟨h.1, h.2, h.3⟩⟩

/-- The tables describe the tree: every directory has one live watch, which is the
one in both tables. -/
structure TracksTree (s : UserSession) : Prop where
  dirs : ∀ path, path ∈ s.kernel.dirs ↔ path ∈ s.daemon.monitor.pathToWd
  live : ∀ path wd, s.daemon.monitor.pathToWd.lookup path = some wd ↔
    s.kernel.watches path = some wd
  inverse : ∀ path wd, s.daemon.monitor.pathToWd.lookup path = some wd ↔
    s.daemon.monitor.wdToPath.lookup wd = some path

/-- Whatever audio, games, the policy and the attributes do in between, the tables
describe the tree in all quiet states of a run of safe steps. -/
theorem tracksTree_of_quiet {uid : Uid} (h : ReachableBy (step apply) Safe (init uid) s)
    (hquiet : s.Quiet) : s.TracksTree := by
  obtain ⟨w, hw, hlinked, hsame, heq⟩ := shows_of_reachable h
  have hinv : w.Inv := hw.invariant (Watching.inv_init uid) fun _ _ _ hi hc hs => hi.step hc hs
  have hkernel : w.kernel = s.kernel.requeue treeEvents := congrArg Watching.kernel heq
  have hquiescent : w.Quiescent := by
    rw [heq]
    refine ⟨hquiet.started, ?_, ?_⟩
    · simp [Watching.withMonitor, watching, hquiet.tasks, treeTasks]
    · simp [Watching.withMonitor, watching, Kernel.requeue, hquiet.queue, treeEvents]
  have hlive (path : CString) (wd : ℕ) (hwd : w.monitor.pathToWd.lookup path = some wd) :
      s.kernel.watches path = some wd := by
    have halive := (hinv.coherent.alive path wd hwd).resolve_right ?_
    · rwa [hkernel] at halive
    · rintro ⟨a, _, _, dir, name, wd', _, hevent, _⟩
      rw [hquiescent.queue] at hevent
      cases hevent
  have hdirs (path : CString) (hpath : path ∈ s.kernel.dirs) :
      ∃ wd, w.monitor.pathToWd.lookup path = some wd := by
    obtain ⟨wd, hwatched⟩ := hinv.watched hquiescent path (hkernel ▸ hpath)
    exact ⟨wd, hwatched.1⟩
  have hwf := hkernel ▸ hinv.coherent.wf
  constructor
  · intro path
    rw [← hsame.pathToWd, RAppMonitor.mem_pathToWd]
    refine ⟨hdirs path, fun hrecorded => ?_⟩
    obtain ⟨wd, hwd⟩ := hrecorded
    exact (hwf.live path wd (hlive path wd hwd)).1
  · intro path wd
    rw [← hsame.pathToWd]
    refine ⟨hlive path wd, fun hwatch => ?_⟩
    obtain ⟨wd', hwd'⟩ := hdirs path (hwf.live path wd hwatch).1
    rw [hwd', ← hlive path wd' hwd', hwatch]
  · intro path wd
    rw [← hsame.pathToWd, ← hsame.wdToPath]
    exact hinv.coherent.inverse path wd

/-- systemd as `SetUnitProperties` is documented. -/
def documented : AppStore → AppCall → AppStore := put AppCall.name AppCall.properties

def ask (fresh : ℕ) (entry since : Option CString) : SessionEvent :=
  .run ⟨fresh, entry, ⟨true, none, none, since, 7⟩⟩

def startedApp : List SessionEvent :=
  [.callback .monitorStart, ask 1 none none, ask 0 none none, ask 0 none none,
    .callback (.policyStart none (some UserDaemon.shippedConf)), .callback .proxyReady,
    .mkdir Watching.appSlice "a.service".toList, .dispatch, ask 2 none none, ask 0 none none,
    ask 0 none none, ask 0 none none]

/-- Its window gets the focus, and before the daemon hears about it, the application
creates an audio stream. -/
def focusedApp : List SessionEvent :=
  let focus : Option CString := some "-1".toList
  startedApp ++ [.setAttribute Watching.appSlice "a.service".toList focus,
    .callback (.nodeInfo
      { changeMask := 1
        state := .creating
        props := some [("client.api".toList, "pipewire-pulse".toList),
          ("application.process.id".toList, "7".toList)] }
      { process := fun _ =>
          ⟨some "/user.slice/user-1000.slice/user@1000.service/app.slice/a.service".toList,
            some "a.service".toList⟩
        files := ⟨true, none, none, focus, 30⟩ }),
    .dispatch, ask 0 none focus, .dispatch, .handle]

theorem tracksTree_of_quiet_focusedApp :
    TracksTree ((checkedRun (step documented) Safe (init 1000) focusedApp).get (by decide)) :=
  tracksTree_of_quiet (reachableBy_checkedRun (by decide)) (by decide)

end UserSession

end Uresourced
