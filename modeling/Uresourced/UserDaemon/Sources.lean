import Uresourced.AppMonitor.SameWatches
import Uresourced.UserDaemon

/-!
Audio and games do not disturb each other.

Both sources write into the same `boosted` of an application, both look the
application up, which may enter it, and both emit the signal that the policy
handles. A run can be taken without the events of one of them, and the boosts of
the other one come out the same.
-/

namespace Uresourced

open CString Runs SharedFlag

/-! ### Writing another flag -/

theorem has_boost_other {flag flag' : AppBoostFlags} (h : flag &&& flag' = 0) (app : RAppInfo)
    (on : Bool) : (app.boost flag' on).boosted.has flag = app.boosted.has flag := by
  obtain ⟨_, _, _, _, _, boosted⟩ := app
  cases on <;>
  · simp only [RAppInfo.boost, Bool.false_eq_true, if_false, if_true]
    revert h
    revert boosted flag flag'
    decide

namespace RAppMonitor

variable {m m' : RAppMonitor} {flag : AppBoostFlags}

theorem written_visit_other {flag' : AppBoostFlags} (h : flag &&& flag' = 0) {v : Visit}
    {on : Bool} (hwrite : v.write = some (flag', on)) (value : Bool) :
    Written (m.Boosted flag) ((m.visit v).1.Boosted flag) none value := by
  intro k
  have hkeep : (m.visit v).1.Boosted flag k ↔ m.Boosted flag k := by
    unfold visit visited
    rw [hwrite]
    split
    · refine Iff.trans ?_ (m.boosted_setApp_lookedUp flag v.path k v.info)
      simp only [boosted_setApp, has_boost_other h]
    · exact Iff.rfl
  simpa using hkeep

/-- What a visit makes of a flag depends on the flag and on what is watched. -/
theorem boosted_visit_congr (hsame : SameWatches m m')
    (hflags : ∀ k, m'.Boosted flag k ↔ m.Boosted flag k) {v : Visit}
    (hwrite : ∀ w ∈ v.write, flag ≠ boostNone ∧ (w.1 = flag ∨ flag &&& w.1 = 0)) (k : CString) :
    (m'.visit v).1.Boosted flag k ↔ (m.visit v).1.Boosted flag k := by
  have htwice {target : Option CString} {value : Bool}
      (hw : Written (m.Boosted flag) ((m.visit v).1.Boosted flag) target value)
      (hw' : Written (m'.Boosted flag) ((m'.visit v).1.Boosted flag) target value) :
      (m'.visit v).1.Boosted flag k ↔ (m.visit v).1.Boosted flag k := by
    rw [hw k, hw' k, hflags k]
  cases hv : v.write with
  | none =>
      exact htwice (m.written_visit_silent flag hv true) (m'.written_visit_silent flag hv true)
  | some w =>
      obtain ⟨flag', on⟩ := w
      obtain ⟨hflag, rfl | hother⟩ := hwrite _ hv
      · by_cases hfound : m.Found v.path v.info
        · exact htwice (m.written_visit hflag hv hfound)
            (m'.written_visit hflag hv ((hsame.found_iff _ _).mpr hfound))
        · have hfound' : ¬ m'.Found v.path v.info := mt (hsame.found_iff _ _).mp hfound
          simp only [visit, hfound, hfound', if_false]
          exact hflags k
      · exact htwice (written_visit_other hother hv true) (written_visit_other hother hv true)

theorem boosted_perform {δ : Type} {task : Task δ} {answer : Answer δ} {tasks : List (Task δ)}
    {changed : Option CString} (h : m.perform task answer = some (m', tasks, changed))
    (flag : AppBoostFlags) (k : CString) : m'.Boosted flag k ↔ m.Boosted flag k := by
  rcases m.perform_cases h with ⟨path, notify, info, _, _, hvisit⟩ | ⟨_, happs, _⟩
  · have hmonitor : m' = (m.visit ⟨path, info, none, notify⟩).1 := congrArg Prod.fst hvisit
    have hwritten : Written (m.Boosted flag) (m'.Boosted flag) none true :=
      hmonitor ▸ m.written_visit_silent flag rfl true
    simpa using hwritten k
  · unfold Boosted
    rw [happs]

theorem boosted_handleInotifyEvent {δ : Type} (m : RAppMonitor) (i : InotifyEvent)
    (flag : AppBoostFlags) (k : CString) :
    (m.handleInotifyEvent (δ := δ) i).1.Boosted flag k ↔
      (i.name ≠ [] ∧ i.mask = .delete → k ≠ m.eventPath i) ∧ m.Boosted flag k := by
  unfold handleInotifyEvent
  by_cases hname : i.name = []
  · simp [hname]
  · cases hmask : i.mask with
    | delete =>
        simp only [hname, if_false, Boosted, GHashTable.lookup_erase, not_false_eq_true, ne_eq,
          and_self, true_implies]
        split
        · next heq => simp [heq]
        · next hne => simp [hne]
    | attrib | create | other => simp [hname]

end RAppMonitor

/-! ### The daemon -/

namespace UserDaemon

variable {s s' t u : UserDaemon} {flag : AppBoostFlags} {e : DaemonEvent}

/-- The daemons agree in everything that one of the flags depends on. -/
structure SameFlag (flag : AppBoostFlags) (s t : UserDaemon) : Prop where
  watches : SameWatches s.monitor t.monitor
  stack : t.stack = s.stack
  policy : t.policy = s.policy
  monitorStarted : t.monitorStarted = s.monitorStarted
  policyStarted : t.policyStarted = s.policyStarted
  flags : ∀ k, t.monitor.Boosted flag k ↔ s.monitor.Boosted flag k

namespace SameFlag

theorem refl (flag : AppBoostFlags) (s : UserDaemon) : SameFlag flag s s :=
  ⟨.refl _, rfl, rfl, rfl, rfl, fun _ => Iff.rfl⟩

theorem symm (h : SameFlag flag s t) : SameFlag flag t s :=
  ⟨h.watches.symm, h.stack.symm, h.policy.symm, h.monitorStarted.symm, h.policyStarted.symm,
    fun k => (h.flags k).symm⟩

theorem trans (h : SameFlag flag s t) (h' : SameFlag flag t u) : SameFlag flag s u :=
  ⟨h.watches.trans h'.watches, h'.stack.trans h.stack, h'.policy.trans h.policy,
    h'.monitorStarted.trans h.monitorStarted, h'.policyStarted.trans h.policyStarted,
    fun k => (h'.flags k).trans (h.flags k)⟩

/-- The policy answers the signal with weights, which are no flags. -/
theorem of_emitChanged (flag : AppBoostFlags) (s : UserDaemon) (changed : Option CString) :
    SameFlag flag s (s.emitChanged changed) := by
  unfold emitChanged
  cases changed with
  | none => exact refl flag s
  | some path =>
      simp only
      split
      · cases happ : s.monitor.appInfo.lookup path with
        | none => exact refl flag s
        | some app =>
            refine ⟨.of_setApp s.monitor path _, rfl, rfl, rfl, rfl, fun k => ?_⟩
            simp only [RAppMonitor.boosted_setApp, (s.policy.appInfoChanged_state app).2.2]
            by_cases hk : path = k
            · subst hk
              simp [RAppMonitor.Boosted, happ]
            · simp [hk]
      · exact refl flag s

theorem of_visit {v : Visit} (h : SameFlag flag s t)
    (hwrite : ∀ w ∈ v.write, flag ≠ boostNone ∧ (w.1 = flag ∨ flag &&& w.1 = 0)) :
    SameFlag flag (s.visit v) (t.visit v) := by
  have hvisited : SameFlag flag { s with monitor := (s.monitor.visit v).1 }
      { t with monitor := (t.monitor.visit v).1 } :=
    ⟨(SameWatches.of_visit _ v).symm.trans (h.watches.trans (.of_visit _ v)), h.stack, h.policy,
      h.monitorStarted, h.policyStarted,
      RAppMonitor.boosted_visit_congr h.watches h.flags hwrite⟩
  exact (of_emitChanged flag _ _).symm.trans (hvisited.trans (of_emitChanged flag _ _))

theorem of_other {v : Visit} {flag' : AppBoostFlags} (hother : flag &&& flag' = 0)
    (hwrite : ∀ w ∈ v.write, w.1 = flag') : SameFlag flag s (s.visit v) := by
  have hflags (k : CString) :
      (s.monitor.visit v).1.Boosted flag k ↔ s.monitor.Boosted flag k := by
    have hnone (hw : Written (s.monitor.Boosted flag) ((s.monitor.visit v).1.Boosted flag) none
        true) : (s.monitor.visit v).1.Boosted flag k ↔ s.monitor.Boosted flag k := by
      simpa using hw k
    cases hv : v.write with
    | none => exact hnone (s.monitor.written_visit_silent flag hv true)
    | some w =>
        obtain ⟨written, on⟩ := w
        obtain rfl : written = flag' := hwrite _ hv
        exact hnone (RAppMonitor.written_visit_other hother hv true)
  have hvisited : SameFlag flag s { s with monitor := (s.monitor.visit v).1 } :=
    ⟨.of_visit _ v, rfl, rfl, rfl, rfl, hflags⟩
  exact hvisited.trans (of_emitChanged flag _ _)

end SameFlag

/-! ### The events -/

end UserDaemon

def DaemonEvent.source : DaemonEvent → Option AppBoostFlags
  | .nodeInfo _ _ => some boostAudio
  | .gameSignal _ _ _ => some boostGame
  | _ => none

namespace UserDaemon

variable {s s' t : UserDaemon} {flag flag' : AppBoostFlags} {e : DaemonEvent}

/-- An event of a source is a visit, or nothing. -/
theorem step_of_source (s : UserDaemon) (h : e.source = some flag') :
    s.step e = if s.Idle then some ((s.visitOf e).elim s s.visit) else none := by
  cases e with
  | nodeInfo info cgroups =>
      simp only [step]
      congr 1
      by_cases hpulse : info.IsPulse
      · rw [RPwMonitor.nodeEventInfo_of_pulse _ _ hpulse]
        simp only [visitOf, if_pos hpulse]
        cases info.unitPath cgroups <;> rfl
      · rw [RPwMonitor.nodeEventInfo_of_not_pulse _ _ hpulse]
        simp only [visitOf, if_neg hpulse]
        rfl
  | gameSignal signalName params cgroups =>
      simp only [step]
      congr 1
      rw [RGameMonitor.gamemodeOnSignalReceived_eq]
      simp only [visitOf]
      cases RGameMonitor.signalOf signalName params with
      | none => rfl
      | some signal =>
          simp only [RGameMonitor.boostGameFromPid_eq, Option.bind_some]
          cases getUnitCgroupPathFromPid (cgroups.process signal.1) <;> rfl
  | _ => cases h

theorem write_of_source (h : e.source = some flag') {v : Visit} (hv : s.visitOf e = some v) :
    ∀ w ∈ v.write, w.1 = flag' := by
  cases e with
  | nodeInfo info cgroups =>
      cases h
      simp only [visitOf, Option.ite_none_right_eq_some, Option.map_eq_some_iff] at hv
      obtain ⟨_, path, _, rfl⟩ := hv
      intro w hw
      exact congrArg Prod.fst (PwNodeInfo.audioWrite_of_some hw)
  | gameSignal signalName params cgroups =>
      cases h
      simp only [visitOf, Option.bind_eq_some_iff, Option.map_eq_some_iff] at hv
      obtain ⟨_, _, path, _, rfl⟩ := hv
      intro w hw
      cases hw
      rfl
  | _ => cases h

/-- The visit is the same in whatever state the event arrives. -/
theorem visitOf_of_source (s t : UserDaemon) (h : e.source = some flag') :
    t.visitOf e = s.visitOf e := by
  cases e <;> first | rfl | cases h

namespace SameFlag

theorem idle_iff (h : SameFlag flag s t) : t.Idle ↔ s.Idle := by
  rw [Idle, Idle, h.policyStarted, h.stack]

/-- An event of another source is not noticed. -/
theorem hidden (h : SameFlag flag s t) (hsource : e.source = some flag')
    (hother : flag &&& flag' = 0) (hs : s.step e = some s') : SameFlag flag s' t := by
  rw [step_of_source s hsource, Option.ite_none_right_eq_some, Option.some.injEq] at hs
  obtain ⟨_, rfl⟩ := hs
  cases hv : s.visitOf e with
  | none => exact h
  | some v => exact (of_other hother (write_of_source hsource hv)).symm.trans h

theorem step (h : SameFlag flag s t) (hflag : flag ≠ boostNone)
    (hsource : ∀ f ∈ e.source, f = flag ∨ flag &&& f = 0) (hs : s.step e = some s') :
    ∃ t', t.step e = some t' ∧ SameFlag flag s' t' := by
  cases he : e.source with
  | some f =>
      rw [step_of_source s he, Option.ite_none_right_eq_some, Option.some.injEq] at hs
      obtain ⟨hidle, rfl⟩ := hs
      rw [step_of_source t he, if_pos (h.idle_iff.mpr hidle), visitOf_of_source s t he]
      refine ⟨_, rfl, ?_⟩
      cases hv : s.visitOf e with
      | none => exact h
      | some v =>
          refine h.of_visit fun w hw => ⟨hflag, ?_⟩
          rw [write_of_source he hv w hw]
          exact hsource f he
  | none =>
      cases e with
      | monitorStart =>
          simp only [UserDaemon.step, Option.ite_none_left_eq_some, Option.some.injEq] at hs ⊢
          obtain ⟨hstarted, rfl⟩ := hs
          have hstack : t.monitor.start = (s.monitor.start : List (Task Unit)) := by
            rw [RAppMonitor.start, h.watches.path, RAppMonitor.start]
          exact ⟨_, ⟨by rw [h.monitorStarted]; exact hstarted, rfl⟩, h.watches, hstack, h.policy,
            rfl, h.policyStarted, h.flags⟩
      | policyStart userFile systemFile =>
          simp only [UserDaemon.step, Option.ite_none_right_eq_some, Option.some.injEq] at hs ⊢
          obtain ⟨⟨hmonitor, hstack, hpolicy⟩, rfl⟩ := hs
          exact ⟨_, ⟨⟨by rw [h.monitorStarted, hmonitor], by rw [h.stack, hstack],
            by rw [h.policyStarted, hpolicy]⟩, rfl⟩, h.watches, h.stack, by rw [h.policy],
            h.monitorStarted, rfl, h.flags⟩
      | answer answer =>
          simp only [UserDaemon.step, h.stack] at hs ⊢
          split at hs
          · cases hs
          · next task rest hstack =>
            obtain ⟨⟨n, tasks, changed⟩, hperform, rfl⟩ := Option.map_eq_some_iff.mp hs
            obtain ⟨n', changed', hperform', hsame⟩ := h.watches.perform hperform
            refine ⟨_, Option.map_eq_some_iff.mpr ⟨_, hperform', rfl⟩, ?_⟩
            have hanswered : SameFlag flag { s with monitor := n, stack := tasks ++ rest }
                { t with monitor := n', stack := tasks ++ rest } := by
              refine ⟨hsame, rfl, h.policy, h.monitorStarted, h.policyStarted, fun k => ?_⟩
              rw [RAppMonitor.boosted_perform hperform' flag k, h.flags k,
                RAppMonitor.boosted_perform hperform flag k]
            exact (of_emitChanged flag _ _).symm.trans
              (hanswered.trans (of_emitChanged flag _ _))
      | inotify i =>
          simp only [UserDaemon.step, Option.ite_none_right_eq_some, Option.some.injEq] at hs ⊢
          obtain ⟨hidle, rfl⟩ := hs
          obtain ⟨htasks, hsame⟩ := h.watches.handleInotifyEvent (δ := Unit) i
          refine ⟨_, ⟨h.idle_iff.mpr hidle, rfl⟩, hsame, htasks, h.policy, h.monitorStarted,
            h.policyStarted, fun k => ?_⟩
          have hpath : t.monitor.eventPath i = s.monitor.eventPath i := by
            rw [RAppMonitor.eventPath, h.watches.wdToPath, RAppMonitor.eventPath]
          rw [RAppMonitor.boosted_handleInotifyEvent, RAppMonitor.boosted_handleInotifyEvent,
            hpath, h.flags k]
      | proxyReady =>
          simp only [UserDaemon.step, Option.ite_none_right_eq_some, Option.some.injEq] at hs ⊢
          obtain ⟨⟨hidle, hproxy⟩, rfl⟩ := hs
          exact ⟨_, ⟨⟨h.idle_iff.mpr hidle, by rw [h.policy, hproxy]⟩, rfl⟩, h.watches, h.stack,
            by rw [h.policy], h.monitorStarted, h.policyStarted, h.flags⟩
      | nodeInfo info cgroups => cases he
      | gameSignal signalName params cgroups => cases he

end SameFlag

/-! ### Whole runs -/

def without (flag : AppBoostFlags) (es : List DaemonEvent) : List DaemonEvent :=
  es.filter fun e => decide (e.source ≠ some flag)

theorem SameFlag.run_without (hflag : flag ≠ boostNone) (hother : flag &&& flag' = 0)
    (honly : ∀ e : DaemonEvent, ∀ f ∈ e.source, f = flag ∨ f = flag') {es : List DaemonEvent}
    (h : SameFlag flag s t) (hrun : run UserDaemon.step s es = some s') :
    ∃ t', run UserDaemon.step t (without flag' es) = some t' ∧ SameFlag flag s' t' := by
  refine run_filter (R := SameFlag flag) ?_ ?_ h hrun
  · intro s e s' t h hhidden hs
    exact h.hidden (by simpa using hhidden) hother hs
  · intro s e s' t h hkept hs
    refine h.step hflag (fun f hf => (honly e f hf).imp_right fun heq => ?_) hs
    subst heq
    exact absurd hf (by simpa using hkept)

theorem source_eq (e : DaemonEvent) : ∀ f ∈ e.source, f = boostGame ∨ f = boostAudio := by
  intro f hf
  cases e <;> cases hf
  · exact .inr rfl
  · exact .inl rfl

/-- Every run can be taken without the events of audio, with the same watches, questions
and boosts by games, and without the signals of games, with the same boosts by audio. -/
theorem boosts_independent (uid : Uid) (es : List DaemonEvent)
    (hrun : run step (init uid) es = some s) :
    (∃ t, run step (init uid) (without boostAudio es) = some t ∧ SameFlag boostGame s t) ∧
      ∃ t, run step (init uid) (without boostGame es) = some t ∧ SameFlag boostAudio s t :=
  ⟨(SameFlag.refl boostGame _).run_without (by decide) (by decide) source_eq hrun,
    (SameFlag.refl boostAudio _).run_without (by decide) (by decide)
      (fun e f hf => (source_eq e f hf).symm) hrun⟩

/-- A game registers itself and plays sound. -/
def soundingGame : List DaemonEvent :=
  let cgroups : Cgroups := (Games.gameSignal true true).cgroups
  startUp none ++ [.gameSignal "GameRegistered".toList (some 7) cgroups,
    .nodeInfo
      { changeMask := 1
        state := .running
        props := some [("client.api".toList, "pipewire-pulse".toList),
          ("application.process.id".toList, "7".toList)] } cgroups]

theorem boosts_independent_soundingGame :
    let s := (run step (init 1000) soundingGame).get (by decide)
    (∃ app, s.monitor.appInfo.lookup Games.gamePath = some app ∧
        app.boosted = boostGame ||| boostAudio) ∧
      (∃ t, run step (init 1000) (without boostAudio soundingGame) = some t ∧
        SameFlag boostGame s t) ∧
      ∃ t, run step (init 1000) (without boostGame soundingGame) = some t ∧
        SameFlag boostAudio s t :=
  ⟨⟨_, (Option.some_get (by decide)).symm, by decide⟩,
    boosts_independent 1000 soundingGame (Option.some_get _).symm⟩

end UserDaemon

end Uresourced
