import Uresourced.AppMonitor.Resting
import Uresourced.UserDaemon.Session

/-!
From the focus of a window to the weights in systemd.

A window that gets the focus changes an attribute of the cgroup of its application.
The event about it may wait behind others while audio, games and the walk look at
the same application and read the new value without the signal. `Noted` says that
the event is still to come, and `Follows` that every unit either has the weights
that it asks for or is noted; this is what every step keeps that is `Noticed`.
-/

namespace Uresourced

open CString Runs PropertyStore

/-! ### Watches that stay -/

namespace Watching

/-- A recorded live watch of a directory stays as long as the directory does and no
event makes the monitor forget it. -/
theorem watched_step {s t : Watching} {move : Move} {dir : CString} {wd : ℕ} (h : Inv s)
    (hsafe : Safe s move) (hs : s.step move = some t) (hwatched : Watched s.kernel s.monitor dir wd)
    (hdir : dir ∈ t.kernel.dirs)
    (hkept : move = .dispatch → ∀ i ∈ s.kernel.queue.head?, i.mask = .delete →
      s.monitor.eventPath i ≠ dir) : Watched t.kernel t.monitor dir wd := by
  cases move with
  | mkdir d name =>
      obtain ⟨k, hk, rfl⟩ := Option.map_eq_some_iff.mp hs
      simp only [Kernel.mkdir, Option.ite_none_right_eq_some, Option.some.injEq] at hk
      obtain ⟨_, rfl⟩ := hk
      exact hwatched
  | rmdir d name =>
      obtain ⟨k, hk, rfl⟩ := Option.map_eq_some_iff.mp hs
      simp only [Kernel.rmdir, Option.ite_none_right_eq_some, Option.some.injEq] at hk
      obtain ⟨_, rfl⟩ := hk
      have hne : dir ≠ childPath d name := (AList.mem_erase.mp hdir).1
      exact ⟨hwatched.1, by simpa [Kernel.notify, hne] using hwatched.2⟩
  | start =>
      simp only [step, Option.ite_none_left_eq_some, Option.some.injEq] at hs
      obtain ⟨_, rfl⟩ := hs
      exact hwatched
  | dispatch =>
      simp only [step] at hs
      split at hs
      · next i queue _ _ hqueue =>
        obtain rfl := Option.some.inj hs
        refine ⟨?_, hwatched.2⟩
        unfold RAppMonitor.handleInotifyEvent
        split
        · exact hwatched.1
        · split
          · exact hwatched.1
          · exact hwatched.1
          · next hmask =>
            have hne := hkept rfl i (by simp [hqueue]) hmask
            simp only [GHashTable.lookup_erase, if_neg hne.symm]
            exact hwatched.1
          · exact hwatched.1
      · cases hs
  | run o =>
      cases hstack : s.stack with
      | nil => simp [step, hstack] at hs
      | cons task rest =>
          simp only [step, hstack, Option.bind_eq_bind, Option.bind_eq_some_iff, Prod.exists,
            Option.pure_def, Option.some.injEq] at hs
          obtain ⟨answer, k, hanswer, m, tasks, changed, hperform, rfl⟩ := hs
          rcases RAppMonitor.perform_eq_some hperform with ⟨path, caller, fresh, rfl, rfl, rfl, _⟩ |
            ⟨path, notify, info, rfl, rfl, rfl, _⟩ | ⟨hadded, _, rfl, _⟩
          · simp only [Kernel.answer, Option.map_eq_some_iff, Prod.mk.injEq,
              Prod.exists] at hanswer
            obtain ⟨_, _, hk, heq, rfl⟩ := hanswer
            obtain rfl := Answer.addWatch.inj heq
            have hadd := hsafe (.add path caller) (by simp [hstack]) (Kernel.addWatch_cases hk).1
            -- the watch that is added is another one, since the old one is alive
            refine (watched_add hk dir wd).mpr (.inr ⟨?_, hwatched⟩)
            rintro rfl
            exact (hadd.1 wd hwatched.1).1 hwatched.2
          · cases hanswer
            exact ⟨by simpa using hwatched.1, hwatched.2⟩
          · refine ⟨hwatched.1, ?_⟩
            rcases Kernel.answer_cases hanswer with ⟨_, _, fresh, _, heq, _⟩ | ⟨old, rfl, rfl⟩ |
              ⟨_, rfl⟩
            · exact absurd heq (hadded fresh)
            · -- a watch that is removed is in no table
              refine Kernel.watches_rmWatch.mpr ⟨hwatched.2, ?_⟩
              rintro rfl
              have hnone := h.shape.removed wd (by simp [hstack])
              cases hnone.symm.trans ((h.coherent.inverse _ _).mp hwatched.1)
            · exact hwatched.2

end Watching

/-! ### What an application asks for -/

structure Alike (app app' : RAppInfo) : Prop where
  name : app'.name = app.name
  focused : app'.timestamp = -1 ↔ app.timestamp = -1
  boosted : app'.boosted = app.boosted

namespace Alike

variable {app app' app'' : RAppInfo}

theorem refl (app : RAppInfo) : Alike app app := ⟨rfl, Iff.rfl, rfl⟩

theorem trans (h : Alike app app') (h' : Alike app' app'') : Alike app app'' :=
  ⟨h'.name.trans h.name, h'.focused.trans h.focused, h'.boosted.trans h.boosted⟩

theorem due_iff (h : Alike app app') : UserDaemon.Due app' ↔ UserDaemon.Due app := by
  unfold UserDaemon.Due
  rw [h.focused, h.boosted]

theorem callOf_eq (h : Alike app app') (d : UserDaemon) : d.callOf app' = d.callOf app := by
  simp only [UserDaemon.callOf, RAppPolicy.callFor, h.name, h.focused, h.boosted]

theorem refresh (h : Alike app app') {info info' : PathInfo}
    (hattribute : info'.inactiveSince = info.inactiveSince) :
    Alike (app.refresh info) (app'.refresh info') := by
  refine ⟨h.name, ?_, h.boosted⟩
  unfold RAppInfo.refresh
  rw [hattribute]
  cases info.inactiveSince with
  | none => exact h.focused
  | some contents => exact Iff.rfl

theorem refresh_refresh (app : RAppInfo) {info info' : PathInfo}
    (hattribute : info'.inactiveSince = info.inactiveSince) :
    Alike (app.refresh info) ((app.refresh info).refresh info') := by
  refine ⟨rfl, ?_, rfl⟩
  unfold RAppInfo.refresh
  rw [hattribute]
  cases info.inactiveSince <;> exact Iff.rfl

theorem appInfoChanged (policy : RAppPolicy) (app : RAppInfo) :
    Alike app (policy.appInfoChanged app) := by
  obtain ⟨hname, htimestamp, hboosted⟩ := policy.appInfoChanged_state app
  exact ⟨hname, by rw [htimestamp], hboosted⟩

theorem lookedUp (m : RAppMonitor) (path : CString) {info info' : PathInfo}
    (hattribute : info'.inactiveSince = info.inactiveSince) (htime : 0 ≤ info.monotonicTime)
    (htime' : 0 ≤ info'.monotonicTime) :
    Alike (m.lookedUp path info) (m.lookedUp path info') := by
  unfold RAppMonitor.lookedUp
  cases m.appInfo.lookup path with
  | some app => exact (refl app).refresh hattribute
  | none =>
      have hnew : Alike (createAppInfoDefault info path) (createAppInfoDefault info' path) := by
        refine ⟨rfl, ?_, rfl⟩
        simp only [createAppInfoDefault]
        omega
      exact hnew.refresh hattribute

end Alike

namespace UserDaemon

variable {d : UserDaemon} {path : CString} {since : Option CString} {v : Visit}

def readInfo (since : Option CString) : PathInfo := ⟨true, none, none, since, 0⟩

def appAt (d : UserDaemon) (path : CString) (since : Option CString) : RAppInfo :=
  d.monitor.lookedUp path (readInfo since)

/-- The last call for the unit of an application carries what the application asks
for, unless it is neither focused nor boosted and was never sent anything. -/
def Settled (d : UserDaemon) (app : RAppInfo) : Prop :=
  Due app ∨ d.Issued app.name → lastAppCall app.name d.calls = some (d.callOf app)

instance (d : UserDaemon) (app : RAppInfo) : Decidable (d.Settled app) :=
  inferInstanceAs (Decidable (_ → _))

theorem settled_alike {app app' : RAppInfo} (h : Alike app app') :
    d.Settled app' ↔ d.Settled app :=
  Announced.settled_congr h.name (h.callOf_eq d) h.due_iff

def Reads (v : Visit) (since : Option CString) : Prop :=
  v.info.inactiveSince = since ∧ 0 ≤ v.info.monotonicTime

theorem alike_lookedUp (h : Reads v since) :
    Alike (d.appAt v.path since) (d.monitor.lookedUp v.path v.info) :=
  .lookedUp d.monitor v.path h.1 le_rfl h.2

theorem visited_eq_refresh (m : RAppMonitor) (v : Visit) :
    ∃ app : RAppInfo, m.visited v = app.refresh v.info := by
  unfold RAppMonitor.visited RAppMonitor.lookedUp
  cases v.write with
  | none => exact ⟨_, rfl⟩
  | some w => exact ⟨((m.appInfo.lookup v.path).getD (createAppInfoDefault v.info v.path)).boost
      w.1 w.2, rfl⟩

/-- A visit with the signal settles the application. -/
theorem settled_visit_self (hfound : d.monitor.Found v.path v.info) (hnotify : v.notify = true)
    (hstarted : d.policyStarted = true) (hproxy : d.policy.proxy = true) (h : Reads v since) :
    (d.visit v).Settled ((d.visit v).appAt v.path since) := by
  rw [visit_of_notify hfound hnotify hstarted, if_pos hproxy]
  obtain ⟨app, happ⟩ := visited_eq_refresh d.monitor v
  have hagain : Alike (d.monitor.visited v) ((d.monitor.visited v).refresh (readInfo since)) :=
    happ ▸ .refresh_refresh app h.1.symm
  have hread : Alike ((d.monitor.visited v).refresh (readInfo since))
      ((d.policy.appInfoChanged (d.monitor.visited v)).refresh (readInfo since)) :=
    (Alike.appInfoChanged d.policy _).refresh rfl
  have halike := hagain.trans hread
  refine Announced.settled_concat_self ?_ ?_
  · simp only [appAt, RAppMonitor.lookedUp, RAppMonitor.lookup_setApp, if_true, Option.getD_some]
    exact halike.name.symm
  · simp only [appAt, RAppMonitor.lookedUp, RAppMonitor.lookup_setApp, if_true, Option.getD_some]
    exact (halike.callOf_eq d).symm

/-- The other directories stay settled, if those of the same unit ask for the same. -/
theorem settled_visit_other (hfound : d.monitor.Found v.path v.info) (hnotify : v.notify = true)
    (hstarted : d.policyStarted = true) (hproxy : d.policy.proxy = true) (hne : path ≠ v.path)
    (halone : (d.appAt path since).name = d.monitor.unitName v.path →
      d.callOf (d.appAt path since) = d.callOf (d.monitor.visited v))
    (h : d.Settled (d.appAt path since)) :
    (d.visit v).Settled ((d.visit v).appAt path since) := by
  rw [visit_of_notify hfound hnotify hstarted, if_pos hproxy]
  have happ : (d.monitor.setApp v.path
      (d.policy.appInfoChanged (d.monitor.visited v))).lookedUp path (readInfo since) =
        d.appAt path since := by
    simp only [appAt, RAppMonitor.lookedUp, RAppMonitor.lookup_setApp, if_neg hne]
  have hkey : (d.callOf (d.monitor.visited v)).name = d.monitor.unitName v.path :=
    d.monitor.name_visited v
  rw [appAt, happ]
  by_cases hname : (d.appAt path since).name = d.monitor.unitName v.path
  · exact Announced.settled_concat_self (hkey.trans hname.symm) (halone hname).symm
  · refine (Announced.settled_concat_of_ne ?_).mpr h
    rw [hkey]
    exact Ne.symm hname

theorem settled_visit_silent (hfound : d.monitor.Found v.path v.info) (hnotify : v.notify = false)
    (hwrite : v.write = none) (h : path = v.path → Reads v since) :
    (d.visit v).Settled ((d.visit v).appAt path since) ↔ d.Settled (d.appAt path since) := by
  rw [visit_of_silent hfound hnotify]
  refine settled_alike (d := d) ?_
  by_cases hpath : path = v.path
  · subst hpath
    have hvisited : d.monitor.visited v = d.monitor.lookedUp v.path v.info := by
      simp [RAppMonitor.visited, hwrite]
    simp only [appAt, RAppMonitor.lookedUp, RAppMonitor.lookup_setApp, if_true, Option.getD_some]
    have hread := alike_lookedUp (d := d) (h rfl)
    rw [← hvisited] at hread
    obtain ⟨app, happ⟩ := visited_eq_refresh d.monitor v
    exact hread.trans (happ ▸ .refresh_refresh app (h rfl).1.symm)
  · simp only [appAt, RAppMonitor.lookedUp, RAppMonitor.lookup_setApp, if_neg hpath]
    exact .refl _

theorem calls_step {d d' : UserDaemon} {event : DaemonEvent} (hs : d.step event = some d') :
    ∃ more, d'.calls = d.calls ++ more := by
  have hemit (t : UserDaemon) (changed : Option CString) :
      ∃ more, (t.emitChanged changed).calls = t.calls ++ more := by
    unfold emitChanged
    cases changed with
    | none => exact ⟨[], (List.append_nil _).symm⟩
    | some path =>
        simp only
        split
        · split
          · exact ⟨[], (List.append_nil _).symm⟩
          · split
            · exact ⟨_, rfl⟩
            · exact ⟨[], (List.append_nil _).symm⟩
        · exact ⟨[], (List.append_nil _).symm⟩
  rcases step_cases hs with ⟨v, _, _, _, _, rfl⟩ | ⟨_, _, _, _, rfl⟩ | ⟨_, _, hrests, _⟩
  · exact hemit _ _
  · exact ⟨[], (List.append_nil _).symm⟩
  · exact ⟨[], hrests.calls.trans (List.append_nil _).symm⟩

end UserDaemon

/-! ### What is noticed -/

/-- The cgroup of a unit, which lies in slices only. -/
def UnitDir (path : CString) : Prop :=
  getUnitNameFromPath path ≠ none ∧ getUnitNameFromPath (dirname path) = none

instance (path : CString) : Decidable (UnitDir path) := inferInstanceAs (Decidable (_ ∧ _))

namespace UserSession

variable {apply : AppStore → AppCall → AppStore} {s s' : UserSession} {e : SessionEvent}
  {path : CString}

def app (s : UserSession) (path : CString) : RAppInfo :=
  s.daemon.appAt path (s.attributes path)

def Listens (s : UserSession) (dir : CString) : Prop :=
  ∃ wd, Watched s.kernel s.daemon.monitor dir wd

instance (s : UserSession) (dir : CString) : Decidable (s.Listens dir) :=
  decidable_of_iff ((s.kernel.watches dir).isSome ∧
      s.daemon.monitor.pathToWd.lookup dir = s.kernel.watches dir) <| by
    unfold Listens Watched
    cases s.kernel.watches dir <;> simp

/-- An event about the directory is still to come, or the lookup that it leads to. -/
def Noted (s : UserSession) (path : CString) : Prop :=
  .appInfo path true ∈ s.tasks ∨ ∃ dir name wd, path = childPath dir name ∧ ValidName name ∧
    Watched s.kernel s.daemon.monitor dir wd ∧ ⟨wd, .attrib, name⟩ ∈ s.kernel.queue

def Alone (s : UserSession) (v : Visit) : Prop :=
  v.notify = true → ∀ path ∈ s.kernel.dirs.keys, UnitDir path → path ≠ v.path →
    (s.app path).name = s.daemon.monitor.unitName v.path →
    s.daemon.callOf (s.app path) = s.daemon.callOf (s.daemon.monitor.visited v)

/-- The events after which every unit has the weights that it asks for, or is noted.
A new directory asks for what its unit has, an attribute is changed where the daemon
listens or to no effect, and a removed directory has not returned when the daemon
hears about it. When the proxy becomes ready, no application is focused or boosted. -/
def Noticed (s : UserSession) : SessionEvent → Prop
  | .mkdir dir name => s.daemon.policy.proxy = true → UnitDir (childPath dir name) →
      s.daemon.Settled (s.daemon.appAt (childPath dir name) none)
  | .setAttribute dir name value => s.daemon.policy.proxy = true → UnitDir (childPath dir name) →
      s.Listens dir ∨ s.daemon.Settled (s.daemon.appAt (childPath dir name) value)
  | .dispatch => ∀ i ∈ s.kernel.queue.head?, i.mask = .delete →
      s.daemon.monitor.eventPath i ∉ s.kernel.dirs
  | .run o => ∀ v ∈ s.daemon.visitOf (.answer (.pathInfo o.info)), s.Alone v
  | .callback e => (UserDaemon.IsProxyReady e → ∀ path ∈ s.kernel.dirs.keys, UnitDir path →
      ¬ UserDaemon.Due (s.app path)) ∧ ∀ v ∈ s.daemon.visitOf e, s.Alone v
  | .rmdir _ _ | .handle => True

instance (s : UserSession) (v : Visit) : Decidable (s.Alone v) :=
  inferInstanceAs (Decidable (v.notify = true → ∀ path ∈ s.kernel.dirs.keys, _))

instance (s : UserSession) : (e : SessionEvent) → Decidable (s.Noticed e)
  | .mkdir dir name => inferInstanceAs (Decidable (s.daemon.policy.proxy = true →
      UnitDir (childPath dir name) → _))
  | .setAttribute dir name _ => inferInstanceAs (Decidable (s.daemon.policy.proxy = true →
      UnitDir (childPath dir name) → s.Listens dir ∨ _))
  | .dispatch => inferInstanceAs (Decidable (∀ i ∈ s.kernel.queue.head?, i.mask = .delete →
      s.daemon.monitor.eventPath i ∉ s.kernel.dirs))
  | .run o => inferInstanceAs (Decidable
      (∀ v ∈ s.daemon.visitOf (.answer (.pathInfo o.info)), s.Alone v))
  | .callback e => inferInstanceAs (Decidable
      ((UserDaemon.IsProxyReady e → ∀ path ∈ s.kernel.dirs.keys, UnitDir path →
        ¬ UserDaemon.Due (s.app path)) ∧ ∀ v ∈ s.daemon.visitOf e, s.Alone v))
  | .rmdir _ _ | .handle => isTrue trivial

/-! ### One event -/

theorem Shows.watched_step {w : Watching} {dir : CString} {wd : ℕ} (h : Shows s w) (hinv : w.Inv)
    (hsafe : s.Safe e) (hs : s.step apply e = some s')
    (hwatched : Watched s.kernel s.daemon.monitor dir wd) (hdir : dir ∈ s'.kernel.dirs)
    (hkept : e = .dispatch → ∀ i ∈ s.kernel.queue.head?, i.mask = .delete →
      s.daemon.monitor.eventPath i ≠ dir) : Watched s'.kernel s'.daemon.monitor dir wd := by
  have hsame {k : Kernel} {m n : RAppMonitor} (hmn : SameWatches m n) :
      Watched k n dir wd ↔ Watched k m dir wd := by
    unfold Watched
    rw [hmn.pathToWd]
  cases (step_watching h.linked hs).1 with
  | rests hrests heq =>
      have hkernel : s'.kernel.watches = s.kernel.watches :=
        congrArg (fun t => t.kernel.watches) heq
      exact (hsame hrests).mpr ⟨hwatched.1, congrFun hkernel dir ▸ hwatched.2⟩
  | moves move t hmove hdispatch ht hmoved heq =>
      obtain ⟨n, hn, hsame'⟩ := Watching.step_withMonitor (m := w.monitor) h.same ht
      rw [← h.eq] at hn
      have hkernel : s'.watching.kernel = t.kernel := by
        rw [heq]
        rfl
      have hstay : Watched t.kernel n dir wd := by
        refine Watching.watched_step hinv ?_ hn ?_ ?_ fun hd i hi hmask => ?_
        · rw [h.eq]
          exact (Watching.safe_withMonitor h.same).mpr (hmove hsafe)
        · rw [h.eq]
          exact (hsame h.same).mpr hwatched
        · exact hkernel ▸ hdir
        · obtain ⟨rfl, hhead⟩ := hdispatch hd
          rw [h.eq] at hi
          have hpath : w.monitor.eventPath i = s.daemon.monitor.eventPath i := by
            rw [RAppMonitor.eventPath, h.same.wdToPath, RAppMonitor.eventPath]
          rw [hpath]
          exact hkept rfl i (hhead ▸ hi) hmask
      have hstay' := (hsame (hmoved.symm.trans hsame')).mp hstay
      rw [← hkernel] at hstay'
      exact hstay'

/-- What waits goes on waiting, up to the event that is taken. -/
theorem mem_queue_step {i : InotifyEvent} (hs : s.step apply e = some s')
    (hi : i ∈ s.kernel.queue) :
    i ∈ s'.kernel.queue ∨ (e = .dispatch ∧ s.kernel.queue.head? = some i) := by
  cases e with
  | mkdir dir name =>
      obtain ⟨k, hk, rfl⟩ := Option.map_eq_some_iff.mp hs
      simp only [Kernel.mkdir, Option.ite_none_right_eq_some, Option.some.injEq] at hk
      obtain ⟨_, rfl⟩ := hk
      exact .inl (Kernel.mem_notify_queue.mpr (.inl hi))
  | rmdir dir name =>
      obtain ⟨k, hk, rfl⟩ := Option.map_eq_some_iff.mp hs
      simp only [Kernel.rmdir, Option.ite_none_right_eq_some, Option.some.injEq] at hk
      obtain ⟨_, rfl⟩ := hk
      exact .inl (Kernel.mem_notify_queue.mpr (.inl hi))
  | setAttribute dir name value =>
      simp only [step, Option.ite_none_right_eq_some, Option.some.injEq] at hs
      obtain ⟨_, rfl⟩ := hs
      exact .inl (Kernel.mem_notify_queue.mpr (.inl (Kernel.mem_notify_queue.mpr (.inl hi))))
  | dispatch =>
      simp only [step] at hs
      split at hs
      · cases hs
      · next first queue hqueue =>
        obtain ⟨d, _, rfl⟩ := Option.map_eq_some_iff.mp hs
        rw [hqueue] at hi ⊢
        rcases List.mem_cons.mp hi with rfl | hi
        · exact .inr ⟨rfl, rfl⟩
        · exact .inl hi
  | run o =>
      simp only [step] at hs
      split at hs
      · cases hs
      · simp only [Option.bind_eq_bind, Option.bind_eq_some_iff, Prod.exists, Option.pure_def,
          Option.some.injEq] at hs
        obtain ⟨_, k, hanswer, _, _, _, _, _, _, rfl⟩ := hs
        exact .inl ((Kernel.answer_frame hanswer).2 ▸ hi)
  | callback event =>
      cases event with
      | answer _ | inotify _ => cases hs
      | monitorStart | policyStart _ _ | proxyReady | nodeInfo _ _ | gameSignal _ _ _ =>
          obtain ⟨d, _, rfl⟩ := Option.map_eq_some_iff.mp hs
          exact .inl hi
  | handle =>
      obtain ⟨_, _, rfl⟩ := Option.map_eq_some_iff.mp hs
      exact .inl hi

theorem mem_tasks_step {task : Task DirStream} (hlinked : Linked s) (hs : s.step apply e = some s')
    (htask : task ∈ s.tasks) :
    task ∈ s'.tasks ∨ ∃ o, e = .run o ∧ s.tasks.head? = some task := by
  cases e with
  | mkdir dir name | rmdir dir name | handle =>
      obtain ⟨_, _, rfl⟩ := Option.map_eq_some_iff.mp hs
      exact .inl htask
  | setAttribute dir name value =>
      simp only [step, Option.ite_none_right_eq_some, Option.some.injEq] at hs
      obtain ⟨_, rfl⟩ := hs
      exact .inl htask
  | dispatch =>
      simp only [step] at hs
      split at hs
      · cases hs
      · obtain ⟨d, hd, rfl⟩ := Option.map_eq_some_iff.mp hs
        simp only [daemonStep, UserDaemon.step, Option.ite_none_right_eq_some] at hd
        have hstack := hlinked.stack
        rw [hd.2.1.2] at hstack
        rw [List.map_eq_nil_iff.mp hstack.symm] at htask
        cases htask
  | run o =>
      simp only [step] at hs
      split at hs
      · cases hs
      · next first rest htasks =>
        simp only [Option.bind_eq_bind, Option.bind_eq_some_iff, Prod.exists, Option.pure_def,
          Option.some.injEq] at hs
        obtain ⟨_, _, _, _, tasks, _, _, _, _, rfl⟩ := hs
        rw [htasks] at htask ⊢
        rcases List.mem_cons.mp htask with rfl | htask
        · exact .inr ⟨o, rfl, rfl⟩
        · exact .inl (List.mem_append_right tasks htask)
  | callback event =>
      cases event with
      | answer _ | inotify _ => cases hs
      | monitorStart =>
          obtain ⟨d, hd, rfl⟩ := Option.map_eq_some_iff.mp hs
          simp only [daemonStep, UserDaemon.step, Option.ite_none_right_eq_some,
            Option.ite_none_left_eq_some] at hd
          rw [hlinked.fresh (Bool.not_eq_true _ ▸ hd.2.1)] at htask
          cases htask
      | policyStart _ _ | proxyReady | nodeInfo _ _ | gameSignal _ _ _ =>
          obtain ⟨d, _, rfl⟩ := Option.map_eq_some_iff.mp hs
          exact .inl htask

structure Backed (root : CString) (s : UserSession) (w : Watching) : Prop where
  inv : w.Inv
  rooted : w.Rooted root
  shows : Shows s w

theorem Backed.wf {root : CString} {w : Watching} (h : Backed root s w) :
    (s.kernel.requeue treeEvents).Wf root := by
  have hwf := h.rooted.wf
  rw [h.shows.eq] at hwf
  exact hwf

theorem Backed.step {root : CString} {w : Watching} (h : Backed root s w) (hsafe : s.Safe e)
    (hs : s.step apply e = some s') : ∃ w', Backed root s' w' := by
  rcases h.shows.step hsafe hs with hshows | ⟨move, w', hsafe', hw', hshows⟩
  · exact ⟨w, h.inv, h.rooted, hshows⟩
  · exact ⟨w', h.inv.step hsafe' hw', h.rooted.step hw', hshows⟩

/-- A noted directory stays noted, until it is looked up with the signal. -/
theorem noted_step {root : CString} {w w' : Watching} (h : Backed root s w)
    (h' : Backed root s' w') (hsafe : s.Safe e) (hnoticed : s.Noticed e)
    (hs : s.step apply e = some s') (hpath : path ∈ s'.kernel.dirs) (hnoted : s.Noted path) :
    s'.Noted path ∨ ∃ o, e = .run o ∧ s.tasks.head? = some (.appInfo path true) := by
  rcases hnoted with htask | ⟨dir, name, wd, rfl, hname, hwatched, hevent⟩
  · exact (mem_tasks_step h.shows.linked hs htask).imp .inl id
  · left
    have hold : dir ∈ s.kernel.dirs := (h.wf.live dir wd hwatched.2).1
    have hdir : dir ∈ s'.kernel.dirs := by
      rcases h'.wf.tree _ hpath with hroot | ⟨d, n, heq, hn, hd⟩
      · exact absurd hroot (h.wf.childPath_ne_root hold)
      · exact (Kernel.childPath_inj hname hn heq).1 ▸ hd
    have hkept : e = .dispatch → ∀ i ∈ s.kernel.queue.head?, i.mask = .delete →
        s.daemon.monitor.eventPath i ≠ dir := by
      rintro rfl i hi hmask rfl
      exact hnoticed i hi hmask hold
    rcases mem_queue_step hs hevent with hevent' | ⟨rfl, hhead⟩
    · exact .inr ⟨dir, name, wd, rfl, hname,
        h.shows.watched_step h.inv hsafe hs hwatched hdir hkept, hevent'⟩
    · -- the event is taken, and leads to the lookup
      left
      simp only [UserSession.step] at hs
      split at hs
      · cases hs
      · next i queue hqueue =>
        obtain ⟨d, _, rfl⟩ := Option.map_eq_some_iff.mp hs
        rw [hqueue] at hhead
        obtain rfl := Option.some.inj hhead
        have hwd : s.daemon.monitor.wdToPath.lookup wd = some dir := by
          rw [← h.shows.same.wdToPath]
          refine (h.inv.coherent.inverse dir wd).mp ?_
          rw [h.shows.same.pathToWd]
          exact hwatched.1
        simp [RAppMonitor.handleInotifyEvent, hname.1, RAppMonitor.eventPath, hwd]

/-- What an event of the daemon does to a settled directory. -/
theorem settled_daemonStep {event : DaemonEvent} {d : UserDaemon} (hinv : s.daemon.Inv)
    (hd : s.daemonStep event = some d) (hproxy : d.policy.proxy = true) (hdir : UnitDir path)
    (hpath : path ∈ s.kernel.dirs) (herased : s.daemon.erasedBy event ≠ some path)
    (hready : UserDaemon.IsProxyReady event → ¬ UserDaemon.Due (s.app path))
    (halone : ∀ v ∈ s.daemon.visitOf event, s.Alone v)
    (h : s.daemon.policy.proxy = true → s.daemon.Settled (s.app path)) :
    d.Settled (d.appAt path (s.attributes path)) := by
  simp only [daemonStep, Option.ite_none_right_eq_some] at hd
  obtain ⟨hsees, hstep⟩ := hd
  rcases UserDaemon.step_cases hstep with ⟨v, stack, hvisit, _, hwrite, rfl⟩ |
    ⟨_, hevent, _, hunready, rfl⟩ | ⟨_, _, hrests, hlookup⟩
  · have hready' : s.daemon.policy.proxy = true := (s.daemon.visit_policy v) ▸ hproxy
    have hreads (heq : path = v.path) : UserDaemon.Reads v (s.attributes path) :=
      heq ▸ (hsees v hvisit).2
    change (s.daemon.visit v).Settled ((s.daemon.visit v).appAt path (s.attributes path))
    by_cases hfound : s.daemon.monitor.Found v.path v.info
    · cases hnotify : v.notify with
      | false =>
          exact (UserDaemon.settled_visit_silent hfound hnotify (hwrite hnotify) hreads).mpr
            (h hready')
      | true =>
          have hstarted := hinv.started hready'
          by_cases heq : path = v.path
          · subst heq
            exact UserDaemon.settled_visit_self hfound hnotify hstarted hready' (hreads rfl)
          · exact UserDaemon.settled_visit_other hfound hnotify hstarted hready' heq
              (halone v hvisit hnotify path (AList.mem_keys.mp hpath) hdir heq) (h hready')
    · rw [UserDaemon.visit_of_not_found hfound]
      exact h hready'
  · rintro (hdue | ⟨c, hc, _⟩)
    · exact absurd hdue (hready hevent)
    · have hsilent : s.daemon.calls = [] := hinv.silent hunready
      rw [hsilent] at hc
      cases hc
  · have hready' : s.daemon.policy.proxy = true := hrests.proxy ▸ hproxy
    have hpolicy : d.policy = s.daemon.policy := hrests.policy.resolve_right (by
      rw [hinv.started hready']
      decide)
    have happ : d.appAt path (s.attributes path) = s.app path := by
      simp only [app, UserDaemon.appAt, RAppMonitor.lookedUp, hlookup, if_neg herased]
    rw [happ]
    have hsettled := h hready'
    unfold UserDaemon.Settled UserDaemon.Issued UserDaemon.callOf at hsettled ⊢
    rw [hrests.calls, hpolicy]
    exact hsettled

inductive Handles (s : UserSession) : SessionEvent → DaemonEvent → Prop
  | callback {event : DaemonEvent} : (∀ i, event ≠ .inotify i) → Handles s (.callback event) event
  | dispatch {i : InotifyEvent} : s.kernel.queue.head? = some i → Handles s .dispatch (.inotify i)
  | run {o : Oracle} {task : Task DirStream} {answer : Answer DirStream} {k : Kernel} :
      s.tasks.head? = some task → s.kernel.answer o task = some (answer, k) →
      Handles s (.run o) (.answer (answer.map fun _ => ()))

theorem step_cases (hs : s.step apply e = some s') :
    (∃ event, Handles s e event ∧ s.daemonStep event = some s'.daemon ∧
      s'.systemd = s.systemd ∧ s'.attributes = s.attributes ∧ s'.kernel.dirs = s.kernel.dirs) ∨
    (∃ o, s.systemd.handle apply s.daemon.calls true = some o ∧
      s' = { s with systemd := o }) ∨
    (s'.daemon = s.daemon ∧ s'.systemd = s.systemd ∧ ∃ dir name,
      (e = .mkdir dir name ∧ s'.attributes = s.attributes ∧ childPath dir name ∉ s.kernel.dirs ∧
        ∀ path, path ∈ s'.kernel.dirs ↔ path = childPath dir name ∨ path ∈ s.kernel.dirs) ∨
      (e = .rmdir dir name ∧
        s'.attributes = Function.update s.attributes (childPath dir name) none ∧
        ∀ path, path ∈ s'.kernel.dirs ↔ path ≠ childPath dir name ∧ path ∈ s.kernel.dirs) ∨
      ∃ value, e = .setAttribute dir name value ∧ ValidName name ∧
        s'.attributes = Function.update s.attributes (childPath dir name) value ∧
        childPath dir name ∈ s.kernel.dirs ∧ s'.kernel.dirs = s.kernel.dirs) := by
  cases e with
  | mkdir dir name =>
      obtain ⟨k, hk, rfl⟩ := Option.map_eq_some_iff.mp hs
      simp only [Kernel.mkdir, Option.ite_none_right_eq_some, Option.some.injEq] at hk
      obtain ⟨⟨_, _, hnew⟩, rfl⟩ := hk
      exact .inr (.inr ⟨rfl, rfl, dir, name, .inl ⟨rfl, rfl, hnew, fun path => AList.mem_insert _⟩⟩)
  | rmdir dir name =>
      obtain ⟨k, hk, rfl⟩ := Option.map_eq_some_iff.mp hs
      simp only [Kernel.rmdir, Option.ite_none_right_eq_some, Option.some.injEq] at hk
      obtain ⟨_, rfl⟩ := hk
      exact .inr (.inr ⟨rfl, rfl, dir, name, .inr (.inl ⟨rfl, rfl, fun path => AList.mem_erase⟩)⟩)
  | setAttribute dir name value =>
      simp only [step, Option.ite_none_right_eq_some, Option.some.injEq] at hs
      obtain ⟨⟨hdir, hname⟩, rfl⟩ := hs
      exact .inr (.inr ⟨rfl, rfl, dir, name, .inr (.inr ⟨value, rfl, hname, rfl, hdir, rfl⟩)⟩)
  | dispatch =>
      simp only [step] at hs
      split at hs
      · cases hs
      · next i queue hqueue =>
        obtain ⟨d, hd, rfl⟩ := Option.map_eq_some_iff.mp hs
        exact .inl ⟨_, .dispatch (by rw [hqueue]; rfl), hd, rfl, rfl, rfl⟩
  | run o =>
      simp only [step] at hs
      split at hs
      · cases hs
      · next task rest htasks =>
        simp only [Option.bind_eq_bind, Option.bind_eq_some_iff, Prod.exists, Option.pure_def,
          Option.some.injEq] at hs
        obtain ⟨answer, k, hanswer, _, _, _, _, d, hd, rfl⟩ := hs
        exact .inl ⟨_, .run (by rw [htasks]; rfl) hanswer, hd, rfl, rfl,
          (Kernel.answer_frame hanswer).1⟩
  | callback event =>
      cases event with
      | answer _ | inotify _ => cases hs
      | monitorStart | policyStart _ _ | proxyReady | nodeInfo _ _ | gameSignal _ _ _ =>
          obtain ⟨d, hd, rfl⟩ := Option.map_eq_some_iff.mp hs
          exact .inl ⟨_, .callback (fun _ h => (by cases h)), hd, rfl, rfl, rfl⟩
  | handle =>
      obtain ⟨o, ho, rfl⟩ := Option.map_eq_some_iff.mp hs
      exact .inr (.inl ⟨o, ho, rfl⟩)

/-- What every run of noticed steps keeps. -/
structure Inv (root : CString) (s : UserSession) : Prop where
  backed : ∃ w, Backed root s w
  daemon : s.daemon.Inv
  gone : ∀ path, path ∉ s.kernel.dirs → s.attributes path = none
  follows : s.daemon.policy.proxy = true → ∀ path ∈ s.kernel.dirs, UnitDir path →
    s.daemon.Settled (s.app path) ∨ s.Noted path

theorem inv_init (uid : Uid) : Inv (RAppMonitor.init uid).appSlicePath (init uid) where
  backed := ⟨Watching.init uid, Watching.inv_init uid, Watching.rooted_init uid, linked_init uid,
    .refl _, rfl⟩
  daemon := UserDaemon.inv_init uid
  gone _ _ := rfl
  follows := nofun

theorem Noticed.alone {event : DaemonEvent} (h : s.Noticed e) (hhandles : Handles s e event) :
    ∀ v ∈ s.daemon.visitOf event, s.Alone v := by
  cases hhandles with
  | callback => exact h.2
  | dispatch => exact fun _ hv => (by cases hv)
  | @run o task answer k htask hanswer =>
      cases task with
      | appInfo path notify =>
          cases hanswer
          exact h
      | add path caller =>
          obtain ⟨_, _, heq⟩ := Option.map_eq_some_iff.mp hanswer
          cases heq
          exact fun _ hv => (by cases hv)
      | rmWatch _ | openDir _ | testDir _ _ _ =>
          cases hanswer
          exact fun _ hv => (by cases hv)
      | readName dir stream =>
          simp only [Kernel.answer] at hanswer
          split at hanswer
          · obtain ⟨_, heq⟩ := Option.ite_none_right_eq_some.mp hanswer
            cases heq
            exact fun _ hv => (by cases hv)
          · obtain ⟨_, heq⟩ := Option.ite_none_right_eq_some.mp hanswer
            cases heq
            exact fun _ hv => (by cases hv)

theorem Noticed.erased {event : DaemonEvent} (h : s.Noticed e) (hhandles : Handles s e event)
    (hpath : path ∈ s.kernel.dirs) : s.daemon.erasedBy event ≠ some path := by
  cases hhandles with
  | callback hinotify =>
      cases event with
      | inotify i => exact absurd rfl (hinotify i)
      | _ => exact Option.some_ne_none _ ∘ Eq.symm
  | @dispatch i hi =>
      simp only [UserDaemon.erasedBy]
      split
      · next hdelete =>
        intro heq
        exact h i hi hdelete.2 (Option.some.inj heq ▸ hpath)
      · exact Option.some_ne_none _ ∘ Eq.symm
  | run => exact Option.some_ne_none _ ∘ Eq.symm

theorem Noticed.ready {event : DaemonEvent} (h : s.Noticed e) (hhandles : Handles s e event)
    (hpath : path ∈ s.kernel.dirs) (hdir : UnitDir path) :
    UserDaemon.IsProxyReady event → ¬ UserDaemon.Due (s.app path) := by
  cases hhandles with
  | callback => exact fun hready => h.1 hready path (AList.mem_keys.mp hpath) hdir
  | dispatch | run => exact False.elim

/-- The lookup that an event about the directory leads to settles it. -/
theorem settled_lookup {root : CString} {w : Watching} {o : Oracle} (h : Backed root s w)
    (hinv : s.daemon.Inv) (hs : s.step apply (.run o) = some s')
    (hhead : s.tasks.head? = some (.appInfo path true)) (hpath : path ∈ s'.kernel.dirs)
    (hproxy : s'.daemon.policy.proxy = true) : s'.daemon.Settled (s'.app path) := by
  simp only [UserSession.step] at hs
  split at hs
  · cases hs
  · next task rest htasks =>
    rw [htasks] at hhead
    obtain rfl := Option.some.inj hhead
    simp only [Option.bind_eq_bind, Option.bind_eq_some_iff, Prod.exists, Option.pure_def,
      Option.some.injEq] at hs
    obtain ⟨_, _, hanswer, _, _, _, _, d, hd, rfl⟩ := hs
    cases hanswer
    simp only [daemonStep, Option.ite_none_right_eq_some] at hd
    obtain ⟨hsees, hstep⟩ := hd
    let v : Visit := ⟨path, o.info, none, true⟩
    have hvisit : s.daemon.visitOf (.answer (.pathInfo o.info)) = some v := by
      simp [UserDaemon.visitOf, h.shows.linked.stack, htasks, Task.map, v]
    obtain ⟨hisDir, hreads⟩ := hsees v hvisit
    have hfound : s.daemon.monitor.Found v.path v.info := by
      refine ⟨hisDir.trans (decide_eq_true hpath), ?_⟩
      have hroot : s.daemon.monitor.appSlicePath = root :=
        h.shows.same.path.symm.trans h.rooted.path
      rw [hroot, hasPrefix, List.isPrefixOf_iff_prefix]
      rcases h.wf.below path hpath with rfl | hbelow
      · exact List.prefix_rfl
      · obtain ⟨name, rfl⟩ := below_iff.mp hbelow
        exact List.prefix_append _ _
    rcases UserDaemon.step_cases hstep with ⟨v', stack, hvisit', _, _, heq⟩ |
      ⟨hnone, _⟩ | ⟨hnone, _⟩
    · obtain rfl := Option.some.inj (hvisit.symm.trans hvisit')
      subst heq
      have hready : s.daemon.policy.proxy = true := (s.daemon.visit_policy v) ▸ hproxy
      exact UserDaemon.settled_visit_self hfound rfl (hinv.started hready) hready hreads
    · cases hvisit.symm.trans hnone
    · cases hvisit.symm.trans hnone

/-- A directory that the step leaves alone is settled as before, or noted, or was looked
up with the signal. -/
theorem follows_of_same {root : CString} {w w' : Watching} (h : Backed root s w)
    (h' : Backed root s' w') (hinv : s.daemon.Inv) (hsafe : s.Safe e) (hnoticed : s.Noticed e)
    (hs : s.step apply e = some s') (hpath : path ∈ s'.kernel.dirs)
    (hproxy : s'.daemon.policy.proxy = true)
    (hsettled : s.daemon.Settled (s.app path) → s'.daemon.Settled (s'.app path))
    (hold : s.daemon.Settled (s.app path) ∨ s.Noted path) :
    s'.daemon.Settled (s'.app path) ∨ s'.Noted path := by
  rcases hold with hold | hnoted
  · exact .inl (hsettled hold)
  · rcases noted_step h h' hsafe hnoticed hs hpath hnoted with hnoted' | ⟨o, rfl, hhead⟩
    · exact .inr hnoted'
    · exact .inl (settled_lookup h hinv hs hhead hpath hproxy)

theorem Inv.step {root : CString} (h : Inv root s) (hsafe : s.Safe e) (hnoticed : s.Noticed e)
    (hs : s.step apply e = some s') : Inv root s' := by
  obtain ⟨w, hbacked⟩ := h.backed
  obtain ⟨w', hbacked'⟩ := hbacked.step hsafe hs
  have hsame {path : CString} (hpath : path ∈ s'.kernel.dirs) :=
    follows_of_same hbacked hbacked' h.daemon hsafe hnoticed hs hpath
  rcases step_cases hs with ⟨event, hhandles, hd, _, hattributes, hdirs⟩ | ⟨o, _, rfl⟩ |
    ⟨hdaemon, _, dir, name, hcases⟩
  · have hstep : s.daemon.step event = some s'.daemon := by
      simp only [daemonStep, Option.ite_none_right_eq_some] at hd
      exact hd.2
    refine ⟨⟨w', hbacked'⟩, h.daemon.step hstep, fun path hpath => ?_, ?_⟩
    · rw [hattributes]
      exact h.gone path (hdirs ▸ hpath)
    · intro hproxy path hpath hdir
      have hpath' : path ∈ s.kernel.dirs := hdirs ▸ hpath
      have hsettled (hold : s.daemon.policy.proxy = true → s.daemon.Settled (s.app path)) :
          s'.daemon.Settled (s'.app path) := by
        rw [app, hattributes]
        exact settled_daemonStep h.daemon hd hproxy hdir hpath'
          (hnoticed.erased hhandles hpath') (hnoticed.ready hhandles hpath' hdir)
          (hnoticed.alone hhandles) hold
      -- if the event is that the proxy is ready, nobody is focused or boosted
      by_cases hready : s.daemon.policy.proxy = true
      · exact hsame hpath hproxy (fun hold => hsettled fun _ => hold)
          (h.follows hready path hpath' hdir)
      · exact .inl (hsettled fun hready' => absurd hready' hready)
  · refine ⟨⟨w', hbacked'⟩, h.daemon, h.gone, fun hproxy path hpath hdir => ?_⟩
    exact hsame hpath hproxy id (h.follows hproxy path hpath hdir)
  · have hkept {path : CString} (hattribute : s'.attributes path = s.attributes path)
        (hpath' : path ∈ s'.kernel.dirs) (hpath : path ∈ s.kernel.dirs) (hdir : UnitDir path)
        (hproxy : s'.daemon.policy.proxy = true) :
        s'.daemon.Settled (s'.app path) ∨ s'.Noted path := by
      refine hsame hpath' hproxy (fun hold => ?_) (h.follows (hdaemon ▸ hproxy) path hpath hdir)
      rw [app, hattribute, hdaemon]
      exact hold
    refine ⟨⟨w', hbacked'⟩, hdaemon ▸ h.daemon, ?_, ?_⟩
    · intro path hpath
      rcases hcases with ⟨rfl, hattributes, _, hmem⟩ | ⟨rfl, hattributes, hmem⟩ |
        ⟨value, rfl, _, hattributes, hold, hdirs⟩
      · rw [hattributes]
        exact h.gone path fun hold => hpath ((hmem path).mpr (.inr hold))
      · rw [hattributes, Function.update_apply]
        split
        · rfl
        · next hne => exact h.gone path fun hold => hpath ((hmem path).mpr ⟨hne, hold⟩)
      · have hne : path ≠ childPath dir name := fun heq => hpath (heq ▸ hdirs ▸ hold)
        rw [hattributes, Function.update_of_ne hne]
        exact h.gone path (hdirs ▸ hpath)
    · intro hproxy path hpath hdir
      rcases hcases with ⟨rfl, hattributes, hnew, hmem⟩ | ⟨rfl, hattributes, hmem⟩ |
        ⟨value, rfl, hname, hattributes, hold, hdirs⟩
      -- a directory is made: it has no attribute yet
      · rcases (hmem path).mp hpath with rfl | hold
        · left
          rw [app, hattributes, h.gone _ hnew, hdaemon]
          exact hnoticed (hdaemon ▸ hproxy) hdir
        · exact hkept (congrFun hattributes path) hpath hold hdir hproxy
      · obtain ⟨hne, hold⟩ := (hmem path).mp hpath
        refine hkept ?_ hpath hold hdir hproxy
        rw [hattributes, Function.update_of_ne hne]
      · by_cases heq : path = childPath dir name
        · subst heq
          -- the attribute changes: the daemon hears of it, or it makes no difference
          rcases hnoticed (hdaemon ▸ hproxy) hdir with ⟨wd, hwatched⟩ | hsettled
          · right
            simp only [UserSession.step, Option.ite_none_right_eq_some, Option.some.injEq] at hs
            obtain ⟨_, rfl⟩ := hs
            exact .inr ⟨dir, name, wd, rfl, hname, hwatched, Kernel.mem_notify_queue.mpr
              (.inl (Kernel.mem_notify_queue.mpr (.inr ⟨wd, hwatched.2, rfl⟩)))⟩
          · left
            rw [app, hattributes, Function.update_self, hdaemon]
            exact hsettled
        · refine hkept ?_ hpath (hdirs ▸ hpath) hdir hproxy
          rw [hattributes, Function.update_of_ne heq]

/-! ### What systemd holds -/

theorem follows_of_reachable {C : UserSession → SessionEvent → Prop} {uid : Uid}
    (happly : SetsAppProperties apply) (h : ReachableBy (step apply) C (init uid) s) :
    PropertyStore.Follows AppCall.name AppCall.properties (fun _ => False) (fun _ _ => none)
      s.daemon.calls s.systemd := by
  refine h.invariant (I := fun s => PropertyStore.Follows AppCall.name AppCall.properties
    (fun _ => False) (fun _ _ => none) s.daemon.calls s.systemd) (follows_init _ _ _) ?_
  intro s e s' hfollows _ hs
  rcases step_cases hs with ⟨event, _, hd, hsystemd, _⟩ | ⟨o, ho, rfl⟩ | ⟨hdaemon, hsystemd, _⟩
  · simp only [daemonStep, Option.ite_none_right_eq_some] at hd
    obtain ⟨more, hmore⟩ := UserDaemon.calls_step hd.2
    rw [hmore, hsystemd]
    exact hfollows.append more
  · exact hfollows.handle happly ho fun h => (by cases h)
  · rw [hdaemon, hsystemd]
    exact hfollows

theorem value_properties (c : AppCall) :
    value AppCall.properties c "CPUWeight".toList = some c.cpuWeight ∧
      value AppCall.properties c "IOWeight".toList = some c.ioWeight := ⟨rfl, rfl⟩

/-- The steps of a run in which no change of the focus is lost. -/
def Orderly (s : UserSession) (e : SessionEvent) : Prop := s.Safe e ∧ s.Noticed e

instance (s : UserSession) (e : SessionEvent) : Decidable (s.Orderly e) :=
  inferInstanceAs (Decidable (_ ∧ _))

end UserSession

end Uresourced
