import Uresourced.AppPolicy
import Uresourced.GameMonitor
import Uresourced.Lib.Announced
import Uresourced.PwMonitor

/-!
`main.c`: the user daemon, from `r_app_monitor_start` until it stops.

The callbacks run one after the other; the questions that one of them asks the
system are answered in any way, as the tasks of `r-app-monitor.c` describe it.
The calls of `SetUnitProperties` are kept in the order they are issued in, so that
they can be compared with what the applications ask for.
-/

namespace Uresourced

open CString Runs

/-- The application monitor with the tasks of the running function, the policy,
whether `r_app_monitor_start` and `r_app_policy_start` were called, and the calls. -/
structure UserDaemon where
  monitor : RAppMonitor
  stack : List (Task Unit)
  policy : RAppPolicy
  monitorStarted : Bool
  policyStarted : Bool
  calls : List AppCall

/-- What happens to the daemon. The info of a node is the one that
`pw_node_info_update` returns. -/
inductive DaemonEvent
  | monitorStart
  | policyStart (userFile systemFile : Option KeyFile)
  | answer (answer : Answer Unit)
  | inotify (i : InotifyEvent)
  | proxyReady
  | nodeInfo (info : PwNodeInfo) (cgroups : Cgroups)
  | gameSignal (signalName : CString) (params : Option Int32) (cgroups : Cgroups)

namespace UserDaemon

def init (uid : Uid) : UserDaemon where
  monitor := .init uid
  stack := []
  policy := .init
  monitorStarted := false
  policyStarted := false
  calls := []

/-- The signal `changed`, which `app_info_changed` handles once it is connected. -/
def emitChanged (s : UserDaemon) : Option CString → UserDaemon
  | none => s
  | some path =>
      if s.policyStarted then
        match s.monitor.appInfo.lookup path with
        | none => s
        | some app =>
            let app := s.policy.appInfoChanged app
            { s with
              monitor := s.monitor.setApp path app
              calls :=
                if s.policy.proxy then s.calls ++ [RAppPolicy.setApplicationResources app]
                else s.calls }
      else s

def Idle (s : UserDaemon) : Prop := s.policyStarted = true ∧ s.stack = []

instance (s : UserDaemon) : Decidable s.Idle := inferInstanceAs (Decidable (_ ∧ _))

def step (s : UserDaemon) : DaemonEvent → Option UserDaemon
  | .monitorStart =>
      if s.monitorStarted then none
      else some { s with stack := s.monitor.start, monitorStarted := true }
  | .policyStart userFile systemFile =>
      if s.monitorStarted ∧ s.stack = [] ∧ s.policyStarted = false then
        some { s with policy := s.policy.readConfig userFile systemFile, policyStarted := true }
      else none
  | .answer answer =>
      match s.stack with
      | [] => none
      | task :: rest =>
          (s.monitor.perform task answer).map fun (monitor, tasks, changed) =>
            ({ s with monitor := monitor, stack := tasks ++ rest } : UserDaemon).emitChanged changed
  | .inotify i =>
      if s.Idle then
        let (monitor, tasks) := s.monitor.handleInotifyEvent i
        some { s with monitor := monitor, stack := tasks }
      else none
  | .proxyReady =>
      if s.Idle ∧ s.policy.proxy = false then
        some { s with policy := { s.policy with proxy := true } }
      else none
  | .nodeInfo info cgroups =>
      if s.Idle then
        let (monitor, changed) := RPwMonitor.nodeEventInfo s.monitor info cgroups
        some (({ s with monitor := monitor } : UserDaemon).emitChanged changed)
      else none
  | .gameSignal signalName params cgroups =>
      if s.Idle then
        let (monitor, changed) :=
          RGameMonitor.gamemodeOnSignalReceived s.monitor signalName params cgroups
        some (({ s with monitor := monitor } : UserDaemon).emitChanged changed)
      else none

def lastAppCall (name : Option CString) (calls : List AppCall) : Option AppCall :=
  LastWrite.last AppCall.name name calls

def Due (app : RAppInfo) : Prop := app.timestamp = -1 ∨ app.boosted ≠ boostNone

instance (app : RAppInfo) : Decidable (Due app) := inferInstanceAs (Decidable (_ ∨ _))

def Issued (s : UserDaemon) (name : Option CString) : Prop := ∃ c ∈ s.calls, c.name = name

instance (s : UserDaemon) (name : Option CString) : Decidable (s.Issued name) :=
  inferInstanceAs (Decidable (∃ c ∈ s.calls, _))

def callOf (s : UserDaemon) (app : RAppInfo) : AppCall :=
  s.policy.callFor app.name app.timestamp app.boosted

/-- Once the proxy is ready, the last call for the unit of an application that is
focused or boosted, or for which there was a call, carries the weights that the
application asks for. -/
def Applied (s : UserDaemon) : Prop :=
  s.policy.proxy = true → ∀ path app, s.monitor.appInfo.lookup path = some app →
    Due app ∨ s.Issued app.name → lastAppCall app.name s.calls = some (s.callOf app)

/-! ### The updates that are not lost -/

def visitOf (s : UserDaemon) : DaemonEvent → Option Visit
  | .answer (.pathInfo info) =>
      match s.stack with
      | .appInfo path notify :: _ => some ⟨path, info, none, notify⟩
      | _ => none
  | .nodeInfo info cgroups =>
      if info.IsPulse then (info.unitPath cgroups).map (info.audioVisit cgroups) else none
  | .gameSignal signalName params cgroups =>
      (RGameMonitor.signalOf signalName params).bind fun (pid, isRegistered) =>
        (getUnitCgroupPathFromPid (cgroups.process pid)).map
          (RGameMonitor.gameVisit isRegistered cgroups)
  | _ => none

/-- A lookup without the signal makes no difference: it reads the focus of a known
application as it was known, or as good as that, and a new application is neither
focused nor was there a call for a unit of its name, unless the last one fits. -/
def Unnoticed (s : UserDaemon) (v : Visit) : Prop :=
  (∀ app ∈ s.monitor.appInfo.lookup v.path,
    s.callOf (app.refresh v.info) = s.callOf app ∧
      (Due (app.refresh v.info) → Due app ∨ s.Issued app.name)) ∧
  (s.monitor.appInfo.lookup v.path = none →
    (¬ Due (s.monitor.lookedUp v.path v.info) ∧
      ¬ s.Issued (s.monitor.lookedUp v.path v.info).name) ∨
    lastAppCall (s.monitor.lookedUp v.path v.info).name s.calls =
      some (s.callOf (s.monitor.lookedUp v.path v.info)))

/-- The other applications with the same unit name ask for the same weights. -/
def Alone (s : UserDaemon) (v : Visit) : Prop :=
  ∀ entry ∈ s.monitor.appInfo.entries, entry.1 ≠ v.path →
    entry.2.name = (s.monitor.visited v).name → s.callOf entry.2 = s.callOf (s.monitor.visited v)

def IsProxyReady : DaemonEvent → Prop
  | .proxyReady => True
  | _ => False

def Settling (s : UserDaemon) (e : DaemonEvent) : Prop :=
  (∀ v ∈ s.visitOf e, s.policy.proxy = true → s.monitor.Found v.path v.info →
    if v.notify then s.Alone v else s.Unnoticed v) ∧
  (IsProxyReady e → ∀ entry ∈ s.monitor.appInfo.entries, ¬ Due entry.2)

instance (s : UserDaemon) (v : Visit) : Decidable (s.Unnoticed v) :=
  inferInstanceAs (Decidable (_ ∧ _))

instance (s : UserDaemon) (v : Visit) : Decidable (s.Alone v) :=
  inferInstanceAs (Decidable (∀ entry ∈ s.monitor.appInfo.entries, _))

instance (e : DaemonEvent) : Decidable (IsProxyReady e) :=
  match e with
  | .proxyReady => isTrue trivial
  | .monitorStart | .policyStart _ _ | .answer _ | .inotify _ | .nodeInfo _ _
  | .gameSignal _ _ _ => isFalse id

instance (s : UserDaemon) (e : DaemonEvent) : Decidable (s.Settling e) :=
  inferInstanceAs (Decidable (_ ∧ _))

/-! ### One visit -/

variable {s t : UserDaemon} {e : DaemonEvent}

/-- Emitting the signal leaves the policy and the running function alone. -/
theorem emitChanged_eq (s : UserDaemon) (changed : Option CString) :
    s.emitChanged changed = { s with
      monitor := (s.emitChanged changed).monitor
      calls := (s.emitChanged changed).calls } := by
  unfold emitChanged
  cases changed with
  | none => rfl
  | some path =>
      simp only
      split
      · split <;> rfl
      · rfl

def visit (s : UserDaemon) (v : Visit) : UserDaemon :=
  ({ s with monitor := (s.monitor.visit v).1 } : UserDaemon).emitChanged (s.monitor.visit v).2

theorem visit_policy (s : UserDaemon) (v : Visit) : (s.visit v).policy = s.policy := by
  rw [visit, emitChanged_eq]

theorem visit_of_not_found {v : Visit} (h : ¬ s.monitor.Found v.path v.info) : s.visit v = s := by
  simp [visit, RAppMonitor.visit, h, emitChanged]

theorem visit_of_silent {v : Visit} (h : s.monitor.Found v.path v.info)
    (hnotify : v.notify = false) :
    s.visit v = { s with monitor := s.monitor.setApp v.path (s.monitor.visited v) } := by
  simp [visit, RAppMonitor.visit, h, hnotify, emitChanged]

theorem visit_of_notify {v : Visit} (h : s.monitor.Found v.path v.info) (hnotify : v.notify = true)
    (hstarted : s.policyStarted = true) :
    s.visit v = { s with
      monitor := s.monitor.setApp v.path (s.policy.appInfoChanged (s.monitor.visited v))
      calls := if s.policy.proxy then s.calls ++ [s.callOf (s.monitor.visited v)]
        else s.calls } := by
  simp [visit, RAppMonitor.visit, h, hnotify, emitChanged, hstarted, RAppMonitor.lookup_setApp,
    RAppPolicy.setApplicationResources_appInfoChanged, callOf]

theorem callOf_appInfoChanged (app : RAppInfo) :
    s.callOf (s.policy.appInfoChanged app) = s.callOf app := by
  obtain ⟨hname, htimestamp, hboosted⟩ := s.policy.appInfoChanged_state app
  rw [callOf, hname, htimestamp, hboosted, callOf]

/-- Applications that are neither focused nor boosted ask for the same. -/
theorem callOf_of_not_due {app app' : RAppInfo} (hname : app'.name = app.name) (h : ¬ Due app)
    (h' : ¬ Due app') : s.callOf app' = s.callOf app := by
  obtain ⟨htimestamp, hboosted⟩ := not_or.mp h
  obtain ⟨htimestamp', hboosted'⟩ := not_or.mp h'
  simp [callOf, RAppPolicy.callFor, hname, htimestamp, htimestamp', not_not.mp hboosted,
    not_not.mp hboosted']

theorem applied_iff : s.Applied ↔ (s.policy.proxy = true →
    Announced.Applied AppCall.name RAppInfo.name s.callOf Due (s.monitor.appInfo.lookup ·)
      s.calls) := Iff.rfl

theorem replaces_setApp (m : RAppMonitor) (path : CString) (app : RAppInfo) :
    Announced.Replaces (m.appInfo.lookup ·) ((m.setApp path app).appInfo.lookup ·) path app := by
  constructor
  · simp [RAppMonitor.lookup_setApp]
  · intro q hq
    simp [RAppMonitor.lookup_setApp, hq]

/-- A lookup without the signal goes unnoticed exactly if the application is
settled as it is found. -/
theorem settled_lookedUp_iff {v : Visit}
    (h : Announced.Applied AppCall.name RAppInfo.name s.callOf Due (s.monitor.appInfo.lookup ·)
      s.calls) :
    Announced.Settled AppCall.name RAppInfo.name s.callOf Due s.calls
      (s.monitor.lookedUp v.path v.info) ↔ s.Unnoticed v := by
  unfold Unnoticed
  cases happ : s.monitor.appInfo.lookup v.path with
  | none =>
      have hissued (c : AppCall) :
          lastAppCall (s.monitor.lookedUp v.path v.info).name s.calls = some c →
            s.Issued (s.monitor.lookedUp v.path v.info).name :=
        fun hlast => ⟨c, LastWrite.mem_of_last _ hlast⟩
      simp only [Option.not_mem_none, false_implies, implies_true, true_and]
      constructor
      · intro hsettled _
        by_cases hasked : Due (s.monitor.lookedUp v.path v.info) ∨
            s.Issued (s.monitor.lookedUp v.path v.info).name
        · exact .inr (hsettled hasked)
        · exact .inl (not_or.mp hasked)
      · intro hnew hasked
        exact (hnew trivial).resolve_left fun hnot => hasked.elim hnot.1 hnot.2
  | some app =>
      have hfound : s.monitor.lookedUp v.path v.info = app.refresh v.info := by
        simp [RAppMonitor.lookedUp, happ]
      rw [hfound, Announced.Settled.silent_iff (h v.path app happ) (RAppMonitor.refresh_name ..)
        fun hdue hdue' => callOf_of_not_due (RAppMonitor.refresh_name ..) hdue hdue']
      constructor
      · intro hquiet
        refine ⟨fun app' happ' => ?_, fun hnone => absurd hnone (Option.some_ne_none app)⟩
        cases happ'
        exact hquiet
      · exact fun hquiet => hquiet.1 app rfl

theorem alone_iff (s : UserDaemon) (v : Visit) :
    s.Alone v ↔ ∀ path app, path ≠ v.path → s.monitor.appInfo.lookup path = some app →
      app.name = (s.policy.appInfoChanged (s.monitor.visited v)).name →
      s.callOf app = s.callOf (s.policy.appInfoChanged (s.monitor.visited v)) := by
  rw [callOf_appInfoChanged, (s.policy.appInfoChanged_state _).1]
  constructor
  · exact fun h path app hne happ => h ⟨path, app⟩ (AList.mem_lookup_iff.mp happ) hne
  · exact fun h entry hentry hne => h entry.1 entry.2 hne (AList.mem_lookup_iff.mpr hentry)

/-- A visit loses no update exactly if it is announced and no other application of the
unit asks for something else, or it goes unnoticed. -/
theorem applied_visit_iff {v : Visit} (h : s.Applied)
    (hstarted : s.policy.proxy = true → s.policyStarted = true)
    (hwrite : v.notify = false → v.write = none) :
    (s.visit v).Applied ↔ (s.policy.proxy = true → s.monitor.Found v.path v.info →
      if v.notify then s.Alone v else s.Unnoticed v) := by
  by_cases hfound : s.monitor.Found v.path v.info
  · cases hnotify : v.notify with
    | false =>
        have hvisited : s.monitor.visited v = s.monitor.lookedUp v.path v.info := by
          simp [RAppMonitor.visited, hwrite hnotify]
        rw [visit_of_silent hfound hnotify, hvisited]
        refine forall_congr' fun hproxy => ?_
        rw [forall_prop_of_true hfound, if_neg Bool.false_ne_true]
        have happlied := applied_iff.mp h hproxy
        exact (happlied.silent_iff (replaces_setApp s.monitor v.path _)).trans
          (settled_lookedUp_iff happlied)
    | true =>
        by_cases hproxy : s.policy.proxy = true
        · rw [visit_of_notify hfound hnotify (hstarted hproxy), if_pos hproxy,
            ← s.callOf_appInfoChanged (s.monitor.visited v)]
          rw [forall_prop_of_true hproxy, forall_prop_of_true hfound, if_pos rfl]
          apply (forall_prop_of_true hproxy).trans
          refine ((applied_iff.mp h hproxy).announce_iff rfl
            (replaces_setApp s.monitor v.path _)).trans ?_
          exact (alone_iff s v).symm
        · refine iff_of_true (fun hproxy' => absurd hproxy' ?_) fun hproxy' => absurd hproxy' hproxy
          rw [visit_policy]
          exact hproxy
  · rw [visit_of_not_found hfound]
    exact iff_of_true h fun _ hf => absurd hf hfound

/-! ### One event -/

def erasedBy (s : UserDaemon) : DaemonEvent → Option CString
  | .inotify i => if i.name ≠ [] ∧ i.mask = .delete then some (s.monitor.eventPath i) else none
  | _ => none

/-- Nothing is sent and no application enters or changes; the configuration is
read at most before the signal is connected. -/
structure Rests (s t : UserDaemon) : Prop where
  calls : t.calls = s.calls
  proxy : t.policy.proxy = s.policy.proxy
  policy : t.policy = s.policy ∨ s.policyStarted = false
  started : s.policyStarted = true → t.policyStarted = true
  apps : ∀ path app, t.monitor.appInfo.lookup path = some app →
    s.monitor.appInfo.lookup path = some app

theorem rests_of_eq {m : RAppMonitor} (happs : m.appInfo = s.monitor.appInfo)
    (stack : List (Task Unit)) (monitorStarted : Bool) :
    Rests s { s with monitor := m, stack := stack, monitorStarted := monitorStarted } where
  calls := rfl
  proxy := rfl
  policy := .inl rfl
  started := id
  apps _ _ h := happs ▸ h

theorem emitChanged_visit (v : Visit) (stack : List (Task Unit)) :
    ({ s with monitor := (s.monitor.visit v).1, stack := stack } : UserDaemon).emitChanged
      (s.monitor.visit v).2 = { s.visit v with stack := stack } := by
  unfold visit emitChanged
  cases (s.monitor.visit v).2 with
  | none => rfl
  | some path =>
      simp only
      split
      · split <;> rfl
      · rfl

/-- What an event can do: one visit, the proxy becomes ready, or at most one
application is forgotten. -/
theorem step_cases (hs : s.step e = some t) :
    (∃ v stack, s.visitOf e = some v ∧ ¬ IsProxyReady e ∧ (v.notify = false → v.write = none) ∧
      t = { s.visit v with stack := stack }) ∨
    (s.visitOf e = none ∧ IsProxyReady e ∧ s.policyStarted = true ∧ s.policy.proxy = false ∧
      t = { s with policy := { s.policy with proxy := true } }) ∨
    (s.visitOf e = none ∧ ¬ IsProxyReady e ∧ Rests s t ∧ ∀ path,
      t.monitor.appInfo.lookup path =
        if s.erasedBy e = some path then none else s.monitor.appInfo.lookup path) := by
  cases e with
  | monitorStart =>
      simp only [step] at hs
      split at hs
      · cases hs
      · cases hs
        exact .inr (.inr ⟨rfl, id, rests_of_eq rfl _ _, fun _ => rfl⟩)
  | policyStart userFile systemFile =>
      simp only [step] at hs
      split at hs
      · next hready =>
        cases hs
        refine .inr (.inr ⟨rfl, id, ⟨rfl, ?_, .inr hready.2.2, fun _ => rfl, fun _ _ => id⟩,
          fun _ => rfl⟩)
        cases h : userFile.or systemFile <;> simp [RAppPolicy.readConfig, h]
      · cases hs
  | answer answer =>
      simp only [step] at hs
      split at hs
      · cases hs
      · next task rest hstack =>
        obtain ⟨⟨m, tasks, changed⟩, hperform, rfl⟩ := Option.map_eq_some_iff.mp hs
        -- only the lookup of an application is a visit
        rcases s.monitor.perform_cases hperform with
          ⟨path, notify, info, rfl, rfl, hvisit⟩ | ⟨hanswer, happs, rfl⟩
        · refine .inl ⟨⟨path, info, none, notify⟩, tasks ++ rest, ?_, id, fun _ => rfl, ?_⟩
          · simp [visitOf, hstack]
          · obtain ⟨rfl, rfl⟩ := Prod.mk.inj hvisit
            exact emitChanged_visit _ _
        · have hlookup (path : CString) : m.appInfo.lookup path =
              s.monitor.appInfo.lookup path := by rw [happs]
          refine .inr (.inr ⟨?_, id, rests_of_eq happs _ _, hlookup⟩)
          cases answer with
          | pathInfo info => exact absurd rfl (hanswer info)
          | _ => rfl
  | inotify i =>
      simp only [step] at hs
      split at hs
      · cases hs
        refine .inr (.inr ⟨rfl, id, ⟨rfl, rfl, .inl rfl, id, fun _ _ =>
          s.monitor.lookup_handleInotifyEvent⟩, fun path => ?_⟩)
        obtain ⟨wd, mask, name⟩ := i
        simp only [erasedBy, RAppMonitor.handleInotifyEvent]
        by_cases hname : name = []
        · simp [hname]
        · cases mask <;> simp [hname, GHashTable.lookup_erase, eq_comm]
      · cases hs
  | proxyReady =>
      simp only [step] at hs
      split at hs
      · next hready =>
        cases hs
        exact .inr (.inl ⟨rfl, trivial, hready.1.1, hready.2, rfl⟩)
      · cases hs
  | nodeInfo info cgroups =>
      simp only [step] at hs
      split at hs
      · next hidle =>
        cases hs
        -- nodes of other clients, and those without a unit, are passed over
        by_cases hpulse : info.IsPulse
        · rw [RPwMonitor.nodeEventInfo_of_pulse _ _ hpulse]
          cases hunit : info.unitPath cgroups with
          | none =>
              refine .inr (.inr ⟨?_, id, rests_of_eq rfl _ _, fun _ => rfl⟩)
              simp [visitOf, hpulse, hunit]
          | some path =>
              refine .inl ⟨info.audioVisit cgroups path, s.stack, ?_, id, ?_, ?_⟩
              · simp [visitOf, hpulse, hunit]
              · simp [PwNodeInfo.audioVisit]
              · exact emitChanged_visit _ _
        · rw [RPwMonitor.nodeEventInfo_of_not_pulse _ _ hpulse]
          refine .inr (.inr ⟨?_, id, rests_of_eq rfl _ _, fun _ => rfl⟩)
          simp [visitOf, hpulse]
      · cases hs
  | gameSignal signalName params cgroups =>
      simp only [step] at hs
      split at hs
      · next hidle =>
        cases hs
        rw [RGameMonitor.gamemodeOnSignalReceived_eq]
        cases hsignal : RGameMonitor.signalOf signalName params with
        | none =>
            refine .inr (.inr ⟨?_, id, rests_of_eq rfl _ _, fun _ => rfl⟩)
            simp [visitOf, hsignal]
        | some signal =>
            obtain ⟨pid, isRegistered⟩ := signal
            simp only [RGameMonitor.boostGameFromPid_eq]
            cases hunit : getUnitCgroupPathFromPid (cgroups.process pid) with
            | none =>
                refine .inr (.inr ⟨?_, id, rests_of_eq rfl _ _, fun _ => rfl⟩)
                simp [visitOf, hsignal, hunit]
            | some path =>
                refine .inl ⟨RGameMonitor.gameVisit isRegistered cgroups path, s.stack, ?_, id,
                  fun hnotify => Bool.noConfusion hnotify, ?_⟩
                · simp [visitOf, hsignal, hunit]
                · exact emitChanged_visit _ _
      · cases hs

/-! ### Whole runs -/

structure Inv (s : UserDaemon) : Prop where
  started : s.policy.proxy = true → s.policyStarted = true
  silent : s.policy.proxy = false → s.calls = []

theorem visit_policyStarted (s : UserDaemon) (v : Visit) :
    (s.visit v).policyStarted = s.policyStarted := by
  rw [visit, emitChanged_eq]

theorem calls_visit_of_not_ready (h : s.policy.proxy = false) (v : Visit) :
    (s.visit v).calls = s.calls := by
  unfold visit emitChanged
  cases (s.monitor.visit v).2 with
  | none => rfl
  | some path =>
      simp only [h, Bool.false_eq_true, if_false]
      split
      · split <;> rfl
      · rfl

theorem inv_init (uid : Uid) : Inv (init uid) := ⟨nofun, fun _ => rfl⟩

theorem Inv.step (h : Inv s) (hs : s.step e = some t) : Inv t := by
  rcases step_cases hs with ⟨v, stack, _, _, _, rfl⟩ | ⟨_, _, hstarted, _, rfl⟩ | ⟨_, _, hrests, _⟩
  · constructor
    · intro hproxy
      rw [visit_policy] at hproxy
      exact (visit_policyStarted s v).trans (h.started hproxy)
    · intro hproxy
      rw [visit_policy] at hproxy
      exact (calls_visit_of_not_ready hproxy v).trans (h.silent hproxy)
  · exact ⟨fun _ => hstarted, nofun⟩
  · constructor
    · intro hproxy
      exact hrests.started (h.started (hrests.proxy ▸ hproxy))
    · intro hproxy
      rw [hrests.calls]
      exact h.silent (hrests.proxy ▸ hproxy)

theorem Rests.applied (hrests : Rests s t) (hinv : Inv s) (h : s.Applied) : t.Applied := by
  intro hproxy path app happ
  have hready : s.policy.proxy = true := hrests.proxy ▸ hproxy
  have hpolicy : t.policy = s.policy := by
    apply hrests.policy.resolve_right
    rw [hinv.started hready]
    exact nofun
  have happlied := h hready path app (hrests.apps path app happ)
  rw [Issued, hrests.calls, callOf, hpolicy]
  exact happlied

theorem applied_step_iff (hinv : Inv s) (h : s.Applied) (hs : s.step e = some t) :
    t.Applied ↔ s.Settling e := by
  rcases step_cases hs with ⟨v, stack, hvisit, hproxy, hwrite, rfl⟩ |
    ⟨hvisit, hproxy, _, hunready, rfl⟩ | ⟨hvisit, hproxy, hrests, _⟩
  · have hiff := applied_visit_iff h hinv.started hwrite
    unfold Settling
    rw [hvisit]
    apply hiff.trans
    constructor
    · intro hall
      refine ⟨fun v' hv' => ?_, fun heq => absurd heq hproxy⟩
      cases hv'
      exact hall
    · exact fun hall => hall.1 v rfl
  · have hcalls := hinv.silent hunready
    constructor
    · intro happlied
      refine ⟨fun v hv => ?_, fun _ entry hentry hdue => ?_⟩
      · rw [hvisit] at hv
        cases hv
      · have hsettled := applied_iff.mp happlied rfl entry.1 entry.2
          (AList.mem_lookup_iff.mpr hentry)
        simp only [hcalls, Announced.settled_nil_iff] at hsettled
        exact hsettled hdue
    · rintro ⟨_, hidle⟩ _ path app happ hasked
      rcases hasked with hdue | ⟨c, hc, _⟩
      · exact absurd hdue (hidle hproxy ⟨path, app⟩ (AList.mem_lookup_iff.mp happ))
      · rw [hcalls] at hc
        cases hc
  · refine iff_of_true (hrests.applied hinv h) ⟨fun v hv => ?_, fun heq => absurd heq hproxy⟩
    rw [hvisit] at hv
    cases hv

theorem applied_init (uid : Uid) : (init uid).Applied := nofun

/-- In all states of a run no update is lost, exactly if the run consists of
events that none is lost by. -/
theorem applied_iff_settling (uid : Uid) (es : List DaemonEvent) :
    AllStates step Applied (init uid) es ↔ AllSteps step Settling (init uid) es :=
  allStates_iff_allSteps (I := Inv) (fun _ _ _ hinv hs => hinv.step hs)
    (fun _ _ _ hinv happlied hs => applied_step_iff hinv happlied hs) (inv_init uid)
    (applied_init uid) es

/-- In a run of events that no update is lost by, the last call for every unit carries
the weights that its application asks for, in all states reached. -/
theorem applied_of_settling {uid : Uid} {s : UserDaemon}
    (h : ReachableBy step Settling (init uid) s) : s.Applied := by
  have hboth : Inv s ∧ s.Applied := by
    refine h.invariant (I := fun s => Inv s ∧ s.Applied) ⟨inv_init uid, applied_init uid⟩ ?_
    intro s e t ⟨hinv, happlied⟩ hsettling hs
    exact ⟨hinv.step hs, (applied_step_iff hinv happlied hs).mpr hsettling⟩
  exact hboth.2

/-! ### An application that is focused early, and one that is focused late -/

def shippedConf : KeyFile where
  string _ _ := .error .keyNotFound
  integer _ key :=
    if key ∈ ["ActiveCPUWeight".toList, "ActiveIOWeight".toList] then .ok 300
    else if key ∈ ["BoostCPUWeightInc".toList, "BoostIOWeightInc".toList] then .ok 200
    else .error .keyNotFound

/-- The daemon starts and finds one application, with the attribute that says
since when it is inactive. -/
def startUp (inactiveSince : Option CString) : List DaemonEvent :=
  [.monitorStart, .answer (.addWatch (some 1)), .answer (.opened (some ())),
    .answer (.read (some ("a.service".toList, ()))), .answer (.isDir true),
    .answer (.addWatch (some 2)), .answer (.pathInfo ⟨true, none, none, inactiveSince, 5⟩),
    .answer (.opened (some ())), .answer (.read none), .answer (.read none),
    .policyStart none (some shippedConf), .proxyReady]

def focusedLate : List DaemonEvent :=
  startUp none ++ [.inotify ⟨1, .attrib, "a.service".toList⟩,
    .answer (.pathInfo ⟨true, none, none, some "-1".toList, 9⟩)]

theorem applied_of_settling_focusedLate :
    Applied ((checkedRun step Settling (init 1000) focusedLate).get (by decide)) :=
  applied_of_settling (reachableBy_checkedRun (by decide))

/-- The window of the application is focused before the daemon starts. -/
def focusedEarly : List DaemonEvent := startUp (some "-1".toList)

/-- The application is focused, and nothing was ever sent for it. -/
theorem not_applied_focusedEarly :
    ¬ ∀ s, Reachable step (init 1000) s → s.Idle → s.Applied := by
  intro h
  let s := (checkedRun step (fun _ _ => True) (init 1000) focusedEarly).get (by decide)
  have happlied : s.Applied := h s (reachableBy_checkedRun (by decide)) (by decide)
  let path := childPath (RAppMonitor.init 1000).appSlicePath "a.service".toList
  have hlast := happlied (by decide) path ((s.monitor.appInfo.lookup path).get (by decide))
    (Option.some_get _).symm (.inl (.inl (by decide)))
  exact absurd hlast (by decide)

end UserDaemon

end Uresourced
