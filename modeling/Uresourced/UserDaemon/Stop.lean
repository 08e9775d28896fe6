import Uresourced.UserDaemon

/-!
Stopping the policy.

`r_app_policy_stop` sends the default weights to the applications that are
focused or boosted, and takes it that all others have them already. An
application that loses its focus without the signal breaks this: a lookup reads
the attribute before the event of inotify is dispatched. `Retracting` are the
events after which the stop still takes every weight back.
-/

namespace Uresourced

open CString Runs

def RAppPolicy.defaultCall (self : RAppPolicy) (name : Option CString) : AppCall :=
  ⟨name, guint64OfGint self.defaultCpuWeight, guint64OfGint self.defaultIoWeight⟩

namespace UserDaemon

variable {s t : UserDaemon} {e : DaemonEvent}

def resetAppInfo (now : CString → ℕ) (s : UserDaemon) (path : CString) : UserDaemon :=
  match s.monitor.appInfo.lookup path with
  | none => s
  | some app =>
      if Due app then
        let app := { app with timestamp := now path, boosted := boostNone }
        ({ s with monitor := s.monitor.setApp path app } : UserDaemon).emitChanged (some path)
      else s

/-- `r_app_monitor_reset_all_apps`, in the order of the table's traversal. -/
def resetAllApps (s : UserDaemon) (order : List CString) (now : CString → ℕ) : UserDaemon :=
  order.foldl (resetAppInfo now) s

def policyStop (s : UserDaemon) (order : List CString) (now : CString → ℕ) : UserDaemon :=
  let s := s.resetAllApps order now
  { s with policy := { s.policy with proxy := false } }

def Restored (s : UserDaemon) : Prop :=
  ∀ path app, s.monitor.appInfo.lookup path = some app → s.Issued app.name →
    lastAppCall app.name s.calls = some (s.policy.defaultCall app.name)

/-- Whenever the policy is stopped in this state, it restores the default weights. -/
def StopRestores (s : UserDaemon) : Prop :=
  s.policy.proxy = true → ∀ order now, order.Perm s.monitor.appInfo.keys →
    (s.policyStop order now).Restored

/-! ### The events that nothing is left behind by -/

/-- The focus that a lookup reads: the attribute, or what was known without it. -/
def readTimestamp (s : UserDaemon) (v : Visit) : Int :=
  match v.info.inactiveSince with
  | some contents => (strtoll 0 (strip contents)).1
  | none => ((s.monitor.appInfo.lookup v.path).map RAppInfo.timestamp).getD v.info.monotonicTime

/-- The application is focused as it is read, or it is known to be boosted. -/
def ReadsDue (s : UserDaemon) (v : Visit) : Prop :=
  s.readTimestamp v = -1 ∨ ∃ app ∈ s.monitor.appInfo.lookup v.path, app.boosted ≠ boostNone

/-- Another application of the unit is focused or boosted, or the last call for
the unit carries the default weights. -/
def CoveredBeside (s : UserDaemon) (path : CString) (name : Option CString) : Prop :=
  (∃ entry ∈ s.monitor.appInfo.entries, entry.1 ≠ path ∧ entry.2.name = name ∧ Due entry.2) ∨
    lastAppCall name s.calls = some (s.policy.defaultCall name)

/-- A lookup without the signal takes the focus from no application whose unit
was sent other weights, and neither does a deletion that leaves another
application of the unit. -/
def Retracting (s : UserDaemon) (e : DaemonEvent) : Prop :=
  (∀ v ∈ s.visitOf e, s.monitor.Found v.path v.info → v.notify = false →
    s.Issued (s.monitor.unitName v.path) →
      s.ReadsDue v ∨ s.CoveredBeside v.path (s.monitor.unitName v.path)) ∧
  ∀ path ∈ s.erasedBy e, ∀ app ∈ s.monitor.appInfo.lookup path,
    ∀ entry ∈ s.monitor.appInfo.entries, entry.1 ≠ path → entry.2.name = app.name →
      s.Issued app.name → s.CoveredBeside path app.name

instance (s : UserDaemon) (v : Visit) : Decidable (s.ReadsDue v) :=
  inferInstanceAs (Decidable (_ ∨ ∃ app ∈ s.monitor.appInfo.lookup v.path, _))

instance (s : UserDaemon) (path : CString) (name : Option CString) :
    Decidable (s.CoveredBeside path name) :=
  inferInstanceAs (Decidable ((∃ entry ∈ s.monitor.appInfo.entries, _) ∨ _))

instance (s : UserDaemon) (e : DaemonEvent) : Decidable (s.Retracting e) :=
  inferInstanceAs (Decidable ((∀ v ∈ s.visitOf e, _) ∧ ∀ path ∈ s.erasedBy e,
    ∀ app ∈ s.monitor.appInfo.lookup path, ∀ entry ∈ s.monitor.appInfo.entries, _))

/-! ### The stop -/

theorem defaultCall_eq (p : RAppPolicy) {app : RAppInfo} (h : ¬ Due app) :
    p.callFor app.name app.timestamp app.boosted = p.defaultCall app.name := by
  obtain ⟨htimestamp, hboosted⟩ := not_or.mp h
  simp [RAppPolicy.callFor, RAppPolicy.weightFor, RAppPolicy.defaultCall, htimestamp,
    not_not.mp hboosted]

def dueName (s : UserDaemon) (path : CString) : Option (Option CString) :=
  (s.monitor.appInfo.lookup path).bind fun app => if Due app then some app.name else none

structure Resets (s t : UserDaemon) (path : CString) : Prop where
  calls : t.calls = s.calls ++ (s.dueName path).toList.map s.policy.defaultCall
  policy : t.policy = s.policy
  started : t.policyStarted = s.policyStarted
  names : ∀ q, (t.monitor.appInfo.lookup q).map RAppInfo.name =
    (s.monitor.appInfo.lookup q).map RAppInfo.name
  others : ∀ q, q ≠ path → t.monitor.appInfo.lookup q = s.monitor.appInfo.lookup q

theorem resets_resetAppInfo (hstarted : s.policyStarted = true) (hproxy : s.policy.proxy = true)
    (now : CString → ℕ) (path : CString) : Resets s (s.resetAppInfo now path) path := by
  unfold resetAppInfo
  cases happ : s.monitor.appInfo.lookup path with
  | none =>
      exact ⟨by simp [dueName, happ], rfl, rfl, fun _ => rfl, fun _ _ => rfl⟩
  | some app =>
      by_cases hdue : Due app
      · let app' : RAppInfo := { app with timestamp := now path, boosted := boostNone }
        have hidle : ¬ Due app' := by
          simp only [Due, app', ne_eq, not_true_eq_false, or_false]
          omega
        have hreset : (({ s with monitor := s.monitor.setApp path app' } : UserDaemon).emitChanged
            (some path)) =
              { s with
                monitor := s.monitor.setApp path (s.policy.appInfoChanged app')
                calls := s.calls ++ [s.policy.defaultCall app.name] } := by
          have hcall := s.policy.setApplicationResources_appInfoChanged app'
          rw [defaultCall_eq s.policy hidle] at hcall
          simp [emitChanged, hstarted, hproxy, RAppMonitor.lookup_setApp, hcall, app']
        simp only [hdue, if_true]
        rw [hreset]
        refine ⟨by simp [dueName, happ, hdue], rfl, rfl, fun q => ?_, fun q hq => ?_⟩
        · simp only [RAppMonitor.lookup_setApp]
          split
          · next heq =>
            rw [heq, happ, Option.map_some, (s.policy.appInfoChanged_state app').1, Option.map_some]
          · rfl
        · simp only [RAppMonitor.lookup_setApp, if_neg hq]
      · simp only [hdue, if_false]
        exact ⟨by simp [dueName, happ, hdue], rfl, rfl, fun _ => rfl, fun _ _ => rfl⟩

/-- The whole traversal visits no application twice. -/
theorem calls_resetAllApps (hstarted : s.policyStarted = true) (hproxy : s.policy.proxy = true)
    {order : List CString} (hnodup : order.Nodup) (now : CString → ℕ) :
    (s.resetAllApps order now).calls =
        s.calls ++ (order.filterMap s.dueName).map s.policy.defaultCall ∧
      (s.resetAllApps order now).policy = s.policy ∧
      ∀ q, ((s.resetAllApps order now).monitor.appInfo.lookup q).map RAppInfo.name =
        (s.monitor.appInfo.lookup q).map RAppInfo.name := by
  unfold resetAllApps
  induction order generalizing s with
  | nil => simp
  | cons path order ih =>
      have hreset := resets_resetAppInfo hstarted hproxy now path
      obtain ⟨hnotMem, hnodup⟩ := List.nodup_cons.mp hnodup
      obtain ⟨hcalls, hpolicy, hnames⟩ := ih (hreset.started.trans hstarted)
        ((congrArg RAppPolicy.proxy hreset.policy).trans hproxy) hnodup
      have hrest : order.filterMap (s.resetAppInfo now path).dueName =
          order.filterMap s.dueName := by
        refine List.filterMap_congr fun q hq => ?_
        have hne : q ≠ path := fun heq => hnotMem (heq ▸ hq)
        rw [dueName, hreset.others q hne, dueName]
      rw [List.foldl_cons]
      refine ⟨?_, hpolicy.trans hreset.policy, fun q => (hnames q).trans (hreset.names q)⟩
      rw [hcalls, hreset.calls, hreset.policy, hrest, List.append_assoc, ← List.map_append]
      congr 2
      cases h : s.dueName path <;> simp [h]

def Retractable (s : UserDaemon) : Prop :=
  Announced.Retractable AppCall.name RAppInfo.name Due s.policy.defaultCall
    (s.monitor.appInfo.lookup ·) s.calls

theorem mem_dueNames {order : List CString} (horder : order.Perm s.monitor.appInfo.keys)
    (name : Option CString) :
    name ∈ order.filterMap s.dueName ↔
      Announced.DueNamed RAppInfo.name Due (s.monitor.appInfo.lookup ·) name := by
  simp only [List.mem_filterMap, dueName, Option.bind_eq_some_iff, Option.ite_none_right_eq_some,
    Option.some.injEq, Announced.DueNamed]
  constructor
  · rintro ⟨path, -, app, happ, hdue, hname⟩
    exact ⟨path, app, happ, hname, hdue⟩
  · rintro ⟨path, app, happ, hname, hdue⟩
    have hmem : path ∈ s.monitor.appInfo := AList.lookup_isSome.mp (by rw [happ]; rfl)
    exact ⟨path, horder.mem_iff.mpr (AList.mem_keys.mp hmem), app, happ, hdue, hname⟩

/-- A stop restores the default weights exactly if the applications of every unit that
was sent other weights last include one that is focused or boosted. -/
theorem stopRestores_iff (hinv : Inv s) : s.StopRestores ↔ s.Retractable := by
  cases hproxy : s.policy.proxy with
  | false =>
      refine iff_of_true (fun hready => ?_) fun _ _ _ hissued => ?_
      · cases hproxy.symm.trans hready
      · obtain ⟨c, hc, -⟩ := hissued
        rw [hinv.silent hproxy] at hc
        cases hc
  | true =>
      have hstopped (order : List CString) (now : CString → ℕ)
          (horder : order.Perm s.monitor.appInfo.keys) :
          (s.policyStop order now).Restored ↔ s.Retractable := by
        obtain ⟨hcalls, hpolicy, hnames⟩ := calls_resetAllApps (hinv.started hproxy) hproxy
          (horder.nodup_iff.mpr s.monitor.appInfo.nodupKeys) now
        have hdefault (name : Option CString) :
            (s.policyStop order now).policy.defaultCall name = s.policy.defaultCall name := by
          change (s.resetAllApps order now).policy.defaultCall name = _
          rw [hpolicy]
        refine Iff.trans ?_ (Announced.retracted_iff (fun _ => rfl) (mem_dueNames horder))
        rw [← hcalls]
        constructor
        · intro hrestored path app happ hissued
          have hname : ((s.resetAllApps order now).monitor.appInfo.lookup path).map RAppInfo.name =
              some app.name := by rw [hnames, happ, Option.map_some]
          obtain ⟨app', happ', heq⟩ := Option.map_eq_some_iff.mp hname
          have hlast := hrestored path app' happ' (by rw [heq]; exact hissued)
          rw [heq, hdefault] at hlast
          exact hlast
        · intro hlast path app' happ' hissued
          have hname : (s.monitor.appInfo.lookup path).map RAppInfo.name = some app'.name := by
            rw [← hnames]
            exact congrArg (Option.map RAppInfo.name) happ'
          obtain ⟨app, happ, heq⟩ := Option.map_eq_some_iff.mp hname
          rw [hdefault, ← heq]
          exact hlast path app happ (by rw [Announced.Issued, heq]; exact hissued)
      constructor
      · exact fun h => (hstopped _ (fun _ => 0) (List.Perm.refl _)).mp
          (h hproxy _ (fun _ => 0) (List.Perm.refl _))
      · exact fun h _ order now horder => (hstopped order now horder).mpr h

/-! ### One event -/

theorem retractable_of_nil (h : s.calls = []) : s.Retractable := by
  rintro _ _ _ ⟨c, hc, -⟩
  rw [h] at hc
  cases hc

theorem retracting_of_nil (h : s.calls = []) : s.Retracting e := by
  have hissued (name : Option CString) : ¬ s.Issued name := by
    rintro ⟨c, hc, -⟩
    rw [h] at hc
    cases hc
  exact ⟨fun _ _ _ _ hi => absurd hi (hissued _), fun _ _ _ _ _ _ _ _ hi => absurd hi (hissued _)⟩

/-- Without the signal, the application is left as it is read. -/
theorem due_visited_iff {v : Visit} (hwrite : v.write = none) :
    Due (s.monitor.visited v) ↔ s.ReadsDue v := by
  unfold Due ReadsDue readTimestamp RAppMonitor.visited RAppMonitor.lookedUp RAppInfo.refresh
  rw [hwrite]
  cases s.monitor.appInfo.lookup v.path <;> cases v.info.inactiveSince <;>
    simp [createAppInfoDefault]

theorem coveredBeside_iff (path : CString) (name : Option CString) :
    s.CoveredBeside path name ↔
      Announced.CoveredBeside AppCall.name RAppInfo.name Due s.policy.defaultCall
        (s.monitor.appInfo.lookup ·) s.calls path name := by
  refine or_congr_left ⟨?_, ?_⟩
  · rintro ⟨⟨q, app⟩, hmem, hne, hname, hdue⟩
    exact ⟨q, app, hne, AList.mem_lookup_iff.mpr hmem, hname, hdue⟩
  · rintro ⟨q, app, hne, happ, hname, hdue⟩
    exact ⟨⟨q, app⟩, AList.mem_lookup_iff.mp happ, hne, hname, hdue⟩

/-- With the signal a visit sends what a stop takes back, and without it the application
must not lose its focus unnoticed. -/
theorem retractable_visit_iff {v : Visit} (hinv : Inv s) (h : s.Retractable)
    (hproxy : s.policy.proxy = true) (hwrite : v.notify = false → v.write = none) :
    (s.visit v).Retractable ↔ (s.monitor.Found v.path v.info → v.notify = false →
      s.Issued (s.monitor.unitName v.path) →
        s.ReadsDue v ∨ s.CoveredBeside v.path (s.monitor.unitName v.path)) := by
  by_cases hfound : s.monitor.Found v.path v.info
  · rw [forall_prop_of_true hfound]
    have hold (app : RAppInfo) (happ : s.monitor.appInfo.lookup v.path = some app) :
        app.name = (s.monitor.visited v).name := by
      rw [s.monitor.name_visited, s.monitor.unitName_of_lookup happ]
    cases hnotify : v.notify with
    | false =>
        rw [forall_prop_of_true rfl, visit_of_silent hfound hnotify, ← s.monitor.name_visited,
          coveredBeside_iff, ← due_visited_iff (hwrite hnotify)]
        exact Announced.Retractable.silent_iff h (replaces_setApp s.monitor v.path _) hold
    | true =>
        refine iff_of_true ?_ nofun
        rw [visit_of_notify hfound hnotify (hinv.started hproxy), if_pos hproxy,
          ← s.callOf_appInfoChanged (s.monitor.visited v)]
        refine Announced.Retractable.announce h (replaces_setApp s.monitor v.path _) ?_ rfl
          (defaultCall_eq s.policy)
        intro app happ
        exact (hold app happ).trans (s.policy.appInfoChanged_state _).1.symm
  · rw [visit_of_not_found hfound]
    exact iff_of_true h fun hf => absurd hf hfound

theorem lookup_step (hs : s.step e = some t) (hvisit : s.visitOf e = none) (path : CString) :
    t.monitor.appInfo.lookup path =
      if s.erasedBy e = some path then none else s.monitor.appInfo.lookup path := by
  rcases step_cases hs with ⟨v, stack, hsome, -⟩ | ⟨-, hproxy, -, -, rfl⟩ | ⟨-, -, -, hlookup⟩
  · cases hvisit.symm.trans hsome
  · cases e with
    | proxyReady => rfl
    | _ => cases hproxy
  · exact hlookup path

/-- What is forgotten must not be what covered another application of the unit. -/
theorem retractable_forget_iff (h : s.Retractable) (hcalls : t.calls = s.calls)
    (hpolicy : t.policy = s.policy) (hlookup : ∀ path, t.monitor.appInfo.lookup path =
      if s.erasedBy e = some path then none else s.monitor.appInfo.lookup path) :
    t.Retractable ↔ ∀ path ∈ s.erasedBy e, ∀ app ∈ s.monitor.appInfo.lookup path,
      ∀ entry ∈ s.monitor.appInfo.entries, entry.1 ≠ path → entry.2.name = app.name →
        s.Issued app.name → s.CoveredBeside path app.name := by
  unfold Retractable
  rw [hcalls, hpolicy]
  cases herased : s.erasedBy e with
  | none =>
      simp only [herased, reduceCtorEq, if_false] at hlookup
      simp only [hlookup]
      exact iff_of_true h nofun
  | some path =>
      simp only [herased, Option.some.injEq] at hlookup
      have hgone : t.monitor.appInfo.lookup path = none := by rw [hlookup, if_pos rfl]
      have hkept (q : CString) (hq : q ≠ path) :
          t.monitor.appInfo.lookup q = s.monitor.appInfo.lookup q := by
        rw [hlookup, if_neg (Ne.symm hq)]
      refine (Announced.Retractable.remove_iff h hgone hkept).trans ?_
      constructor
      · rintro hcovered _ ⟨⟩ app happ entry hentry hne hname hissued
        rw [coveredBeside_iff, ← hname]
        exact hcovered app happ entry.1 entry.2 hne (AList.mem_lookup_iff.mpr hentry) hname
          (by rw [Announced.Issued, hname]; exact hissued)
      · intro hcovered app happ q app' hne happ' hname hissued
        rw [← coveredBeside_iff, hname]
        rw [Announced.Issued, hname] at hissued
        exact hcovered path rfl app happ ⟨q, app'⟩ (AList.mem_lookup_iff.mp happ') hne hname hissued

theorem retractable_step_iff (hinv : Inv s) (h : s.Retractable) (hs : s.step e = some t) :
    t.Retractable ↔ s.Retracting e := by
  cases hproxy : s.policy.proxy with
  | false =>
      have hcalls := hinv.silent hproxy
      refine iff_of_true (retractable_of_nil ?_) (retracting_of_nil hcalls)
      rcases step_cases hs with ⟨v, stack, -, -, -, rfl⟩ | ⟨-, -, -, -, rfl⟩ | ⟨-, -, hrests, -⟩
      · exact (calls_visit_of_not_ready hproxy v).trans hcalls
      · exact hcalls
      · exact hrests.calls.trans hcalls
  | true =>
      rcases step_cases hs with ⟨v, stack, hvisit, -, hwrite, rfl⟩ | ⟨-, -, -, hunready, -⟩ |
        ⟨hvisit, -, hrests, -⟩
      · have herased : s.erasedBy e = none := by
          cases e with
          | inotify i => cases hvisit
          | _ => rfl
        refine (retractable_visit_iff hinv h hproxy hwrite).trans ?_
        unfold Retracting
        rw [hvisit, herased]
        constructor
        · exact fun hv => ⟨fun v' hv' => Option.some.inj hv' ▸ hv, nofun⟩
        · exact fun hall => hall.1 v rfl
      · cases hproxy.symm.trans hunready
      · have hpolicy : t.policy = s.policy := hrests.policy.resolve_right (by
          rw [hinv.started hproxy]
          exact nofun)
        refine (retractable_forget_iff h hrests.calls hpolicy (lookup_step hs hvisit)).trans ?_
        unfold Retracting
        rw [hvisit]
        exact ⟨fun hforget => ⟨nofun, hforget⟩, fun hall => hall.2⟩

/-! ### Whole runs -/

/-- The policy can be stopped in all states of a run, exactly if the run consists of
events that leave nothing behind. -/
theorem stopRestores_iff_retracting (uid : Uid) (es : List DaemonEvent) :
    AllStates step StopRestores (init uid) es ↔ AllSteps step Retracting (init uid) es := by
  refine allStates_iff_allSteps (I := Inv) (fun _ _ _ hinv hs => hinv.step hs) ?_ (inv_init uid)
    ((stopRestores_iff (inv_init uid)).mpr (retractable_of_nil rfl)) es
  intro s e t hinv hrestores hs
  rw [stopRestores_iff (hinv.step hs)]
  exact retractable_step_iff hinv ((stopRestores_iff hinv).mp hrestores) hs

/-! ### An application that loses its focus unnoticed -/

/-- The application is focused, and loses the focus. A stream of it is created
before the event of inotify arrives. -/
def focusLost : List DaemonEvent :=
  focusedLate ++ [.nodeInfo
    { changeMask := 3
      state := .creating
      props := some [("client.api".toList, "pipewire-pulse".toList),
        ("application.process.id".toList, "7".toList)] }
    { process := fun _ =>
        ⟨some "/user.slice/user-1000.slice/user@1000.service/app.slice/a.service".toList,
          some "a.service".toList⟩
      files := ⟨true, none, none, some "20".toList, 30⟩ }]

theorem not_stopRestores_focusLost :
    ¬ ∀ uid s, Reachable step (init uid) s → s.Idle → s.StopRestores := by
  intro h
  let s := (checkedRun step (fun _ _ => True) (init 1000) focusLost).get (by decide)
  have hrestores : s.StopRestores := h 1000 s (reachableBy_checkedRun (by decide)) (by decide)
  let path := childPath (RAppMonitor.init 1000).appSlicePath "a.service".toList
  let stopped := s.policyStop s.monitor.appInfo.keys fun _ => 40
  have hlast := hrestores (by decide) _ (fun _ => 40) (List.Perm.refl _) path
    ((stopped.monitor.appInfo.lookup path).get (by decide)) (Option.some_get _).symm (by decide)
  exact absurd hlast (by decide)

end UserDaemon

end Uresourced
