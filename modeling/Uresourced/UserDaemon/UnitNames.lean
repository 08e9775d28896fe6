import Uresourced.Units
import Uresourced.UserDaemon

/-!
One application for each unit.

The table of applications is keyed by paths, and the calls go to units. A unit
has one application as long as every directory that is looked up for the first
time is a unit's, and no other directory of the same unit is known: `Separate`
says this of an event. The walk skips slices, but the handler of attributes does
not, and neither skips the cgroups below a unit's own one.
-/

namespace Uresourced

open CString Runs

/-- The path is the cgroup of a unit below the directory, or lies in that cgroup. -/
def InUnit (dir unit path : CString) : Prop :=
  ∃ g : UnitCgroup, g.unit = unit ∧ (∃ slices, g.parentDir = dir ++ components slices) ∧
    (path = "/sys/fs/cgroup".toList ++ g.path ∨ Below ("/sys/fs/cgroup".toList ++ g.path) path)

theorem InUnit.getUnitNameFromPath {dir unit path : CString} (h : InUnit dir unit path) :
    getUnitNameFromPath path = some unit := by
  obtain ⟨g, rfl, -, hpath⟩ := h
  exact g.getUnitNameFromPath_eq hpath

theorem InUnit.nonSlice {dir unit path : CString} (h : InUnit dir unit path) :
    NonSliceUnit unit := by
  obtain ⟨g, rfl, -⟩ := h
  exact g.nonSlice

namespace UserDaemon

variable {s t : UserDaemon} {e : DaemonEvent} {dir : CString}

/-- Every application is named after the unit that its path lies in, no two are
named alike, and no call is without a name. -/
structure OnePerUnit (dir : CString) (s : UserDaemon) : Prop where
  named : ∀ path app, s.monitor.appInfo.lookup path = some app →
    ∃ unit, app.name = some unit ∧ InUnit dir unit path
  unique : ∀ path path' app app', s.monitor.appInfo.lookup path = some app →
    s.monitor.appInfo.lookup path' = some app' → app.name = app'.name → path = path'
  calls : ∀ c ∈ s.calls, ∃ unit, c.name = some unit ∧ NonSliceUnit unit

def Owned (s : UserDaemon) (c : AppCall) : Prop :=
  ∃ path app, s.monitor.appInfo.lookup path = some app ∧ c = s.callOf app ∧
    ∀ path' app', s.monitor.appInfo.lookup path' = some app' → app'.name = c.name → path' = path

/-- A directory that is found for the first time lies in a unit, and no other one
that is known lies in the same unit. -/
def Separate (dir : CString) (s : UserDaemon) (e : DaemonEvent) : Prop :=
  ∀ v ∈ s.visitOf e, s.monitor.Found v.path v.info → v.path ∉ s.monitor.appInfo →
    ∃ unit, InUnit dir unit v.path ∧ ∀ path ∈ s.monitor.appInfo, ¬ InUnit dir unit path

/-! ### One visit -/

/-- A visit enters the application, with new weights or not, and issues at most
the call that it asks for. -/
theorem visit_of_found {v : Visit} (h : s.monitor.Found v.path v.info) :
    ∃ app, app.name = (s.monitor.visited v).name ∧
      (∀ path, (s.visit v).monitor.appInfo.lookup path =
        if path = v.path then some app else s.monitor.appInfo.lookup path) ∧
      ((s.visit v).calls = s.calls ∨ (s.visit v).calls = s.calls ++ [s.callOf app]) := by
  cases hnotify : v.notify with
  | false =>
      rw [visit_of_silent h hnotify]
      exact ⟨_, rfl, fun path => s.monitor.lookup_setApp .., .inl rfl⟩
  | true =>
      cases hstarted : s.policyStarted with
      | false =>
          refine ⟨s.monitor.visited v, rfl, fun path => ?_, .inl ?_⟩ <;>
            simp [visit, RAppMonitor.visit, h, hnotify, emitChanged, hstarted,
              RAppMonitor.lookup_setApp]
      | true =>
          rw [visit_of_notify h hnotify hstarted]
          refine ⟨s.policy.appInfoChanged (s.monitor.visited v),
            (s.policy.appInfoChanged_state _).1, fun path => s.monitor.lookup_setApp .., ?_⟩
          rw [callOf_appInfoChanged]
          simp only
          split
          · exact .inr rfl
          · exact .inl rfl

/-- The application that is visited is named after the unit of its path, and it
is the only one. -/
theorem OnePerUnit.visited {v : Visit} (h : s.OnePerUnit dir)
    (hnew : v.path ∉ s.monitor.appInfo →
      ∃ unit, InUnit dir unit v.path ∧ ∀ path ∈ s.monitor.appInfo, ¬ InUnit dir unit path) :
    ∃ unit, (s.monitor.visited v).name = some unit ∧ InUnit dir unit v.path ∧
      ∀ path app, s.monitor.appInfo.lookup path = some app → app.name = some unit →
        path = v.path := by
  rw [s.monitor.name_visited, RAppMonitor.unitName]
  cases hlookup : s.monitor.appInfo.lookup v.path with
  | some app =>
      obtain ⟨unit, hname, hunit⟩ := h.named v.path app hlookup
      exact ⟨unit, hname, hunit, fun path app' happ' hname' =>
        h.unique path v.path app' app happ' hlookup (hname'.trans hname.symm)⟩
  | none =>
      obtain ⟨unit, hunit, hother⟩ := hnew (AList.lookup_eq_none.mp hlookup)
      refine ⟨unit, ?_, hunit, fun path app happ hname => ?_⟩
      · simp only [hunit.getUnitNameFromPath, Option.map_some, hunit.nonSlice.trimmed.strip]
      · obtain ⟨unit', hname', hunit'⟩ := h.named path app happ
        obtain rfl := Option.some.inj (hname'.symm.trans hname)
        have hmem : path ∈ s.monitor.appInfo := AList.lookup_isSome.mp (by rw [happ]; rfl)
        exact absurd hunit' (hother path hmem)

theorem OnePerUnit.visit {v : Visit} (h : s.OnePerUnit dir)
    (hnew : s.monitor.Found v.path v.info → v.path ∉ s.monitor.appInfo →
      ∃ unit, InUnit dir unit v.path ∧ ∀ path ∈ s.monitor.appInfo, ¬ InUnit dir unit path) :
    (s.visit v).OnePerUnit dir ∧
      ∀ c, (s.visit v).calls = s.calls ++ [c] → (s.visit v).Owned c := by
  by_cases hfound : s.monitor.Found v.path v.info
  · obtain ⟨unit, hname, hunit, honly⟩ := h.visited (hnew hfound)
    obtain ⟨app, happ, hlookup, hcalls⟩ := visit_of_found hfound
    rw [hname] at happ
    have hself : (s.visit v).monitor.appInfo.lookup v.path = some app := by
      rw [hlookup, if_pos rfl]
    have hentry (path : CString) (app' : RAppInfo)
        (hlookup' : (s.visit v).monitor.appInfo.lookup path = some app') :
        (path = v.path ∧ app' = app) ∨
          (path ≠ v.path ∧ s.monitor.appInfo.lookup path = some app') := by
      rw [hlookup] at hlookup'
      split at hlookup'
      · next hpath => exact .inl ⟨hpath, (Option.some.inj hlookup').symm⟩
      · next hpath => exact .inr ⟨hpath, hlookup'⟩
    have hunique (path : CString) (app' : RAppInfo)
        (hlookup' : (s.visit v).monitor.appInfo.lookup path = some app')
        (hname' : app'.name = some unit) : path = v.path := by
      rcases hentry path app' hlookup' with ⟨hpath, -⟩ | ⟨-, hold⟩
      · exact hpath
      · exact honly path app' hold hname'
    refine ⟨⟨?_, ?_, ?_⟩, ?_⟩
    · intro path app' hlookup'
      rcases hentry path app' hlookup' with ⟨rfl, rfl⟩ | ⟨-, hold⟩
      · exact ⟨unit, happ, hunit⟩
      · exact h.named path app' hold
    · intro path path' app₁ app₂ h₁ h₂ heq
      rcases hentry path app₁ h₁ with ⟨rfl, rfl⟩ | ⟨-, hold₁⟩
      · exact (hunique path' app₂ h₂ (heq.symm.trans happ)).symm
      · rcases hentry path' app₂ h₂ with ⟨rfl, rfl⟩ | ⟨-, hold₂⟩
        · exact hunique path app₁ h₁ (heq.trans happ)
        · exact h.unique path path' app₁ app₂ hold₁ hold₂ heq
    · intro c hc
      rcases hcalls with hcalls | hcalls
      · exact h.calls c (hcalls ▸ hc)
      · rw [hcalls] at hc
        rcases List.mem_append.mp hc with hold | hnew'
        · exact h.calls c hold
        · obtain rfl := List.mem_singleton.mp hnew'
          exact ⟨unit, happ, hunit.nonSlice⟩
    · intro c hc
      have hc' : c = s.callOf app := by
        rcases hcalls with hcalls | hcalls
        · exact absurd (hcalls.symm.trans hc) (by simp)
        · simpa using hc.symm.trans hcalls
      refine ⟨v.path, app, hself, ?_, fun path app' hlookup' hname' => ?_⟩
      · rw [hc', callOf, callOf, visit_policy]
      · exact hunique path app' hlookup' (hname'.trans (hc' ▸ happ))
  · rw [visit_of_not_found hfound]
    exact ⟨h, fun c hc => absurd hc (by simp)⟩

/-! ### Whole runs -/

theorem OnePerUnit.rests (h : s.OnePerUnit dir) (hrests : Rests s t) : t.OnePerUnit dir where
  named path app happ := h.named path app (hrests.apps path app happ)
  unique path path' app app' happ happ' :=
    h.unique path path' app app' (hrests.apps path app happ) (hrests.apps path' app' happ')
  calls c hc := h.calls c (hrests.calls ▸ hc)

theorem OnePerUnit.step (h : s.OnePerUnit dir) (hseparate : Separate dir s e)
    (hs : s.step e = some t) :
    t.OnePerUnit dir ∧ ∀ c, t.calls = s.calls ++ [c] → t.Owned c := by
  rcases step_cases hs with ⟨v, stack, hvisit, -, -, rfl⟩ | ⟨-, -, -, -, rfl⟩ | ⟨-, -, hrests, -⟩
  · obtain ⟨hone, howned⟩ := h.visit (hseparate v hvisit)
    exact ⟨⟨hone.named, hone.unique, hone.calls⟩, howned⟩
  · exact ⟨⟨h.named, h.unique, h.calls⟩, fun c hc => absurd hc (by simp)⟩
  · refine ⟨h.rests hrests, fun c hc => ?_⟩
    rw [hrests.calls] at hc
    exact absurd hc (by simp)

theorem onePerUnit_init (uid : Uid) (dir : CString) : (init uid).OnePerUnit dir where
  named path _ happ := nomatch (AList.lookup_empty path).symm.trans happ
  unique path _ _ _ happ := nomatch (AList.lookup_empty path).symm.trans happ
  calls _ hc := nomatch hc

/-- In a run of events that keep the units apart, every application is a unit's, every
unit has at most one, and every call is about the only application of the unit it goes
to. -/
theorem onePerUnit_of_separate {uid : Uid} {s : UserDaemon}
    (h : ReachableBy step (Separate (RAppMonitor.init uid).appSlicePath) (init uid) s) :
    s.OnePerUnit (RAppMonitor.init uid).appSlicePath ∧
      ∀ e t, Separate (RAppMonitor.init uid).appSlicePath s e → s.step e = some t →
        ∀ c, t.calls = s.calls ++ [c] → t.Owned c := by
  have hone : s.OnePerUnit (RAppMonitor.init uid).appSlicePath :=
    h.invariant (onePerUnit_init uid _) fun _ _ _ hone hseparate hs =>
      (hone.step hseparate hs).1
  exact ⟨hone, fun e t hseparate hs => (hone.step hseparate hs).2⟩

/-! ### A service, and a slice -/

def serviceCgroup : UnitCgroup :=
  { UnitCgroup.numbered with
    unit := "a.service".toList
    component := "a.service".toList
    nonSlice := by decide
    names := by decide
    not_manager := by decide }

def LooksUpService (s : UserDaemon) (e : DaemonEvent) : Prop :=
  ∀ v ∈ s.visitOf e, v.path = "/sys/fs/cgroup".toList ++ serviceCgroup.path ∧
    ∀ entry ∈ s.monitor.appInfo.entries, entry.1 = v.path

instance (s : UserDaemon) (e : DaemonEvent) : Decidable (s.LooksUpService e) :=
  inferInstanceAs (Decidable (∀ v ∈ s.visitOf e, _))

theorem LooksUpService.separate (h : s.LooksUpService e) :
    Separate (RAppMonitor.init 1000).appSlicePath s e := by
  intro v hv _ hnew
  obtain ⟨hpath, honly⟩ := h v hv
  refine ⟨"a.service".toList, ⟨serviceCgroup, rfl, ⟨[], by decide⟩, .inl hpath⟩, ?_⟩
  intro path hmem _
  obtain ⟨entry, hentry, rfl⟩ := List.mem_map.mp hmem
  exact hnew (honly entry hentry ▸ hmem)

theorem onePerUnit_of_separate_focusedLate :
    ((checkedRun step LooksUpService (init 1000) focusedLate).get (by decide)).OnePerUnit
      (RAppMonitor.init 1000).appSlicePath :=
  (onePerUnit_of_separate ((reachableBy_checkedRun (by decide)).mono
    fun _ _ => LooksUpService.separate)).1

def sliceAttributes : List DaemonEvent :=
  startUp none ++ [.inotify ⟨1, .attrib, "b.slice".toList⟩,
    .answer (.pathInfo ⟨true, none, none, none, 9⟩)]

/-- The slice becomes an application, and there is a call without a name. -/
theorem not_onePerUnit_sliceAttributes :
    ¬ ∀ uid s, Reachable step (init uid) s → s.OnePerUnit (RAppMonitor.init uid).appSlicePath := by
  intro h
  let s := (checkedRun step (fun _ _ => True) (init 1000) sliceAttributes).get (by decide)
  have hone : s.OnePerUnit _ := h 1000 s (reachableBy_checkedRun (by decide))
  obtain ⟨unit, hunit, -⟩ := hone.calls ⟨none, 100, 100⟩ (by decide)
  cases hunit

end UserDaemon

end Uresourced
