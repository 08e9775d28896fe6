import Uresourced.AppMonitor.Handler
import Uresourced.Lib.SharedFlag

/-!
What a callback does to one application.

The callbacks of audio and games find an application from a process, those of
inotify find it from a path. All of them look it up, which refreshes it; some
write a boost flag; some emit the signal `changed` afterwards. `visit` is what
they have in common, and what is proved about it holds of each of them.
-/

namespace Uresourced

/-- What the system answers to a callback that starts from a process: the cgroup
of any process, and the files of the cgroup that is looked up. -/
structure Cgroups where
  process : Int32 → PidInfo
  files : PathInfo

def RAppInfo.boost (app : RAppInfo) (flag : AppBoostFlags) (on : Bool) : RAppInfo :=
  { app with boosted := if on then app.boosted.set flag else app.boosted.clear flag }

/-- A callback that looks up the application of a path. -/
structure Visit where
  path : CString
  info : PathInfo
  write : Option (AppBoostFlags × Bool)
  notify : Bool

namespace RAppMonitor

variable (self : RAppMonitor)

def visited (v : Visit) : RAppInfo :=
  match v.write with
  | none => self.lookedUp v.path v.info
  | some (flag, on) => (self.lookedUp v.path v.info).boost flag on

def visit (v : Visit) : RAppMonitor × Option CString :=
  if self.Found v.path v.info then
    (self.setApp v.path (self.visited v), if v.notify then some v.path else none)
  else (self, none)

def Boosted (flag : AppBoostFlags) (path : CString) : Prop :=
  ∃ app, self.appInfo.lookup path = some app ∧ app.boosted.has flag = true

/-- In every known application, the flag is set while somebody owns its path. -/
def FlagFollows {ι : Type} (flag : AppBoostFlags) (owns : ι → CString → Prop) : Prop :=
  ∀ path app, self.appInfo.lookup path = some app →
    (app.boosted.has flag = true ↔ ∃ i, owns i path)

/-- The unit of a path, as the application is named if it is known, and as it
would be named otherwise. -/
def unitName (path : CString) : Option CString :=
  match self.appInfo.lookup path with
  | some app => app.name
  | none => (getUnitNameFromPath path).map CString.strip

theorem unitName_of_lookup {path : CString} {app : RAppInfo}
    (h : self.appInfo.lookup path = some app) : self.unitName path = app.name := by
  rw [unitName, h]

theorem name_visited (v : Visit) : (self.visited v).name = self.unitName v.path := by
  have hname : (self.visited v).name = (self.lookedUp v.path v.info).name := by
    unfold visited
    split <;> rfl
  rw [hname, lookedUp, refresh_name, unitName]
  cases self.appInfo.lookup v.path <;> rfl

@[simp] theorem setApp_setApp (path : CString) (app app' : RAppInfo) :
    (self.setApp path app).setApp path app' = self.setApp path app' := by
  simp [setApp, AList.insert_insert]

/-! ### Flags -/

theorem has_boost {flag : AppBoostFlags} (h : flag ≠ boostNone) (app : RAppInfo) (on : Bool) :
    (app.boost flag on).boosted.has flag = on := by
  cases on with
  | true => exact AppBoostFlags.has_set h
  | false => exact AppBoostFlags.has_clear _ _

/-- A lookup keeps the flags, and a new application has none. -/
theorem boosted_setApp_lookedUp (flag : AppBoostFlags) (path k : CString) (info : PathInfo) :
    (self.setApp path (self.lookedUp path info)).Boosted flag k ↔ self.Boosted flag k := by
  simp only [Boosted, lookup_setApp]
  by_cases hk : k = path
  · rw [hk, if_pos rfl]
    cases hlookup : self.appInfo.lookup path with
    | none => simp [lookedUp, hlookup, createAppInfoDefault]
    | some app => simp [lookedUp, hlookup]
  · rw [if_neg hk]

theorem boosted_setApp (flag : AppBoostFlags) (path k : CString) (app : RAppInfo) :
    (self.setApp path app).Boosted flag k ↔
      (path = k ∧ app.boosted.has flag = true) ∨ (path ≠ k ∧ self.Boosted flag k) := by
  simp only [Boosted, lookup_setApp]
  by_cases hk : k = path
  · simp [hk]
  · simp [hk, Ne.symm hk]

theorem written_visit_silent (flag : AppBoostFlags) {v : Visit} (hwrite : v.write = none)
    (on : Bool) :
    SharedFlag.Written (self.Boosted flag) ((self.visit v).1.Boosted flag) none on := by
  intro k
  have hkeep : (self.visit v).1.Boosted flag k ↔ self.Boosted flag k := by
    unfold visit visited
    rw [hwrite]
    split
    · exact self.boosted_setApp_lookedUp flag v.path k v.info
    · exact Iff.rfl
  simpa using hkeep

theorem written_visit {flag : AppBoostFlags} (hflag : flag ≠ boostNone) {v : Visit} {on : Bool}
    (hwrite : v.write = some (flag, on)) (hfound : self.Found v.path v.info) :
    SharedFlag.Written (self.Boosted flag) ((self.visit v).1.Boosted flag) (some v.path) on := by
  intro k
  have hvisited : (self.visited v).boosted.has flag = on := by
    simp only [visited, hwrite]
    exact has_boost hflag _ _
  simp only [visit, hfound, if_true, boosted_setApp, hvisited, Option.some.injEq, ne_eq]

/-- No application is forgotten, and the one that is found is known afterwards. -/
theorem mem_appInfo_visit (v : Visit) (k : CString) :
    k ∈ (self.visit v).1.appInfo ↔
      (k = v.path ∧ self.Found v.path v.info) ∨ k ∈ self.appInfo := by
  unfold visit
  split
  · next hfound => simp [setApp, hfound]
  · next hfound => simp [hfound]

/-- Where only known applications are owned, the other ones make no difference. -/
theorem flagFollows_iff {ι : Type} {flag : AppBoostFlags} {owns : ι → CString → Prop}
    (hknown : ∀ i path, owns i path → path ∈ self.appInfo) :
    self.FlagFollows flag owns ↔ SharedFlag.Follows (self.Boosted flag) owns := by
  constructor
  · intro hfollows path
    constructor
    · rintro ⟨app, happ, hflag⟩
      exact (hfollows path app happ).mp hflag
    · rintro ⟨i, hi⟩
      obtain ⟨app, happ⟩ := Option.isSome_iff_exists.mp
        (AList.lookup_isSome.mpr (hknown i path hi))
      exact ⟨app, happ, (hfollows path app happ).mpr ⟨i, hi⟩⟩
  · intro hfollows path app happ
    rw [← hfollows path]
    constructor
    · exact fun hflag => ⟨app, happ, hflag⟩
    · rintro ⟨app', happ', hflag⟩
      cases happ.symm.trans happ'
      exact hflag

/-- Without flags and without owners, the flags follow the owners. -/
theorem flagFollows_of_nobody {ι : Type} {flag : AppBoostFlags} {owns : ι → CString → Prop}
    (hsilent : ∀ path, ¬ self.Boosted flag path) (hnobody : ∀ i path, ¬ owns i path) :
    self.FlagFollows flag owns := by
  intro path app happ
  constructor
  · exact fun hflag => absurd ⟨app, happ, hflag⟩ (hsilent path)
  · rintro ⟨i, hi⟩
    exact absurd hi (hnobody i path)

theorem not_boosted_init (uid : Uid) (flag : AppBoostFlags) (path : CString) :
    ¬ (init uid).Boosted flag path := by
  rintro ⟨app, happ, _⟩
  cases (AList.lookup_empty path).symm.trans happ

/-- Of the tasks of inotify, only the lookup touches an application. -/
theorem perform_cases {δ : Type} {task : Task δ} {answer : Answer δ} {m : RAppMonitor}
    {tasks : List (Task δ)} {changed : Option CString}
    (h : self.perform task answer = some (m, tasks, changed)) :
    (∃ path notify info, task = .appInfo path notify ∧ answer = .pathInfo info ∧
      (m, changed) = self.visit ⟨path, info, none, notify⟩) ∨
    ((∀ info, answer ≠ .pathInfo info) ∧ m.appInfo = self.appInfo ∧ changed = none) := by
  rcases perform_eq_some h with ⟨path, _, wd, rfl, rfl, rfl, rfl⟩ |
    ⟨path, notify, info, rfl, rfl, rfl, rfl⟩ | ⟨-, hanswer, rfl, rfl⟩
  · exact .inr ⟨nofun, self.appInfo_add path wd, rfl⟩
  · refine .inl ⟨path, notify, info, rfl, rfl, ?_⟩
    rw [getAppInfoFromPath_eq]
    by_cases hfound : self.Found path info
    · simp [visit, visited, hfound]
    · simp [visit, hfound]
  · exact .inr ⟨hanswer, rfl, rfl⟩

theorem lookup_handleInotifyEvent {δ : Type} {i : InotifyEvent} {path : CString} {app : RAppInfo}
    (h : (self.handleInotifyEvent (δ := δ) i).1.appInfo.lookup path = some app) :
    self.appInfo.lookup path = some app := by
  unfold handleInotifyEvent at h
  split at h
  · exact h
  · split at h
    · exact h
    · exact h
    · exact (GHashTable.lookup_erase_eq_some.mp h).2
    · exact h

end RAppMonitor

end Uresourced
