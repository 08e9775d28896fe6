import Mathlib.Data.List.Chain
import Uresourced.Manager.Protection

/-!
The daemon as one user sees it.

`Account` is a daemon for a single user. It is told what logind says about this
user and whether his daemon is running, and issues the calls for his two units.
The whole daemon is such a machine for every user, side by side: whatever run it
has taken, its calls for a user are those of his account, and the account learns
nothing but the news about the user. What is said here of one account therefore
holds of the calls for every user.
-/

namespace Uresourced

open CString Runs

/-! ### The account of one user -/

inductive UserUnit
  | slice
  | service
  deriving DecidableEq, Repr

def UserUnit.name (uid : Uid) : UserUnit → CString
  | .slice => userSlice uid
  | .service => userService uid

structure Standing where
  listed : Bool
  graphical : Bool
  deriving DecidableEq, Repr

def RSdLogin.standing (login : RSdLogin) (uid : Uid) : Standing :=
  ⟨decide (uid ∈ login.allUsers), decide (uid ∈ login.graphicalUsers)⟩

/-- What the login monitor says and what the manager has stored about the user,
how often `changed` is handled, and the calls so far: the unit, and whether it
is given the active allocation. -/
structure Account where
  login : Option Standing
  stored : Standing
  handlers : ℕ
  calls : List (UserUnit × Bool)

inductive News
  | start (standing : Standing)
  | nameAcquired (systemd : Bool)
  | changed (standing : Standing) (systemd : Bool)
  | methodCall (systemd : Bool)
  | stop
  deriving DecidableEq, Repr

namespace Account

def init : Account := ⟨none, ⟨false, false⟩, 0, []⟩

def revoke : List (UserUnit × Bool) := [(.slice, false), (.service, false)]

def grant (systemd : Bool) : List (UserUnit × Bool) := [(.slice, true), (.service, systemd)]

/-- The calls of an update. A user that loses his resources while he gets known
is revoked twice. -/
def updateCalls (stored login : Standing) (forceActive systemd : Bool) : List (UserUnit × Bool) :=
  (if stored.graphical && !login.graphical then revoke else []) ++
    (if login.listed && !login.graphical && !stored.listed then revoke else []) ++
    if login.graphical && (forceActive || !stored.graphical) then grant systemd else []

def update (forceActive systemd : Bool) (a : Account) : Account :=
  match a.login with
  | none => a
  | some login =>
      { a with
        stored := login
        calls := a.calls ++ updateCalls a.stored login forceActive systemd }

def step (a : Account) : News → Account
  | .start standing => { a with login := some standing }
  | .nameAcquired systemd => { a.update false systemd with handlers := a.handlers + 1 }
  | .changed standing systemd =>
      (update false systemd)^[a.handlers] { a with login := some standing }
  | .methodCall systemd => a.update true systemd
  | .stop =>
      { a with
        login := none
        stored := ⟨false, false⟩
        calls := a.calls ++ if a.stored.listed then revoke else [] }

variable {a : Account}

@[simp] theorem login_update (a : Account) (forceActive systemd : Bool) :
    (a.update forceActive systemd).login = a.login := by
  unfold update
  split <;> rfl

@[simp] theorem handlers_update (a : Account) (forceActive systemd : Bool) :
    (a.update forceActive systemd).handlers = a.handlers := by
  unfold update
  split <;> rfl

def Synced (a : Account) : Prop := ∀ standing ∈ a.login, a.stored = standing

theorem synced_update (a : Account) (forceActive systemd : Bool) :
    (a.update forceActive systemd).Synced := by
  intro standing hmem
  rw [login_update] at hmem
  rw [update, show a.login = some standing from hmem]

/-- An update that learns nothing does nothing. -/
theorem Synced.update (h : a.Synced) (systemd : Bool) : a.update false systemd = a := by
  unfold Account.update
  split
  · rfl
  · next login hlogin =>
    obtain rfl := h login hlogin
    -- nobody is revoked, unknown or granted if nothing has changed
    obtain ⟨_, ⟨listed, graphical⟩, _, _⟩ := a
    cases listed <;> cases graphical <;> simp_all [updateCalls]

/-- A snapshot that says about the user what is known already is not news. -/
theorem step_changed_of_synced (h : 0 < a.handlers → a.Synced) {standing : Standing}
    (hlogin : a.login = some standing) (systemd : Bool) :
    a.step (.changed standing systemd) = a := by
  have hself : { a with login := some standing } = a := by rw [← hlogin]
  rw [step, hself]
  rcases Nat.eq_zero_or_pos a.handlers with hzero | hpos
  · rw [hzero]
    rfl
  · exact Function.iterate_fixed ((h hpos).update systemd) a.handlers

theorem synced_iterate (systemd : Bool) {n : ℕ} (hn : 0 < n) (a : Account) :
    ((update false systemd)^[n] a).Synced := by
  obtain ⟨n, rfl⟩ := Nat.exists_eq_succ_of_ne_zero hn.ne'
  rw [Function.iterate_succ_apply']
  exact synced_update _ false systemd

@[simp] theorem handlers_iterate (systemd : Bool) (n : ℕ) (a : Account) :
    ((update false systemd)^[n] a).handlers = a.handlers := by
  induction n generalizing a with
  | zero => rfl
  | succ n ih => rw [Function.iterate_succ_apply, ih, handlers_update]

/-! ### Grants are not repeated -/

/-- What the calls give to the slice. -/
def slices (calls : List (UserUnit × Bool)) : List Bool :=
  (calls.filter fun entry => decide (entry.1 = .slice)).map Prod.snd

@[simp] theorem slices_append (calls more : List (UserUnit × Bool)) :
    slices (calls ++ more) = slices calls ++ slices more := by
  rw [slices, List.filter_append, List.map_append]
  rfl

/-- No grant follows a grant. -/
abbrev Sparing (given : List Bool) : Prop :=
  given.IsChain fun given next => given = true → next = false

theorem sparing_of_not_mem {given : List Bool} (h : true ∉ given) : Sparing given := by
  induction given with
  | nil => exact .nil
  | cons b given ih =>
      refine List.IsChain.cons (ih fun hmem => h (.tail _ hmem)) fun _ _ hb => ?_
      exact absurd (hb ▸ List.mem_cons_self) h

theorem Sparing.revoke {given more : List Bool} (h : Sparing given) (hmore : true ∉ more) :
    Sparing (given ++ more) :=
  h.append (sparing_of_not_mem hmore) fun _ _ _ hnext _ =>
    Bool.eq_false_iff.mpr fun htrue => hmore (htrue ▸ List.mem_of_mem_head? hnext)

/-- An update that is not forced revokes only, or it grants what is not granted yet. -/
theorem slices_updateCalls (stored login : Standing) (systemd : Bool) :
    (login.graphical = false ∧ true ∉ slices (updateCalls stored login false systemd) ∧
        (slices (updateCalls stored login false systemd) = [] → stored.graphical = false)) ∨
      (login.graphical = true ∧ stored.graphical = true ∧
        slices (updateCalls stored login false systemd) = []) ∨
      login.graphical = true ∧ stored.graphical = false ∧
        slices (updateCalls stored login false systemd) = [true] := by
  obtain ⟨listed, graphical⟩ := stored
  obtain ⟨listed', graphical'⟩ := login
  cases listed <;> cases graphical <;> cases listed' <;> cases graphical' <;>
    simp [updateCalls, revoke, grant, slices]

/-- While the daemon runs, who was granted last is stored as a graphical user. -/
structure Alternates (a : Account) : Prop where
  sparing : Sparing (slices a.calls)
  last : a.login ≠ none → true ∈ (slices a.calls).getLast? → a.stored.graphical = true

theorem alternates_init : init.Alternates := ⟨.nil, fun h => absurd rfl h⟩

theorem Alternates.update (h : a.Alternates) (systemd : Bool) :
    (a.update false systemd).Alternates := by
  unfold Account.update
  split
  · exact h
  · next login hlogin =>
    have hlast := h.last (hlogin ▸ Option.some_ne_none login)
    rcases slices_updateCalls a.stored login systemd with
      ⟨-, hrevoked, hnone⟩ | ⟨hgraphical, -, hnone⟩ | ⟨hgraphical, hstored, hgrant⟩
    · refine ⟨?_, fun _ hgiven => ?_⟩
      · rw [slices_append]
        exact h.sparing.revoke hrevoked
      · rw [slices_append, List.getLast?_append, Option.mem_def, Option.or_eq_some_iff] at hgiven
        rcases hgiven with hmem | ⟨hnil, hgiven⟩
        · exact absurd (List.mem_of_getLast? hmem) hrevoked
        · have hstored := hnone (List.getLast?_eq_none_iff.mp hnil)
          exact absurd (hstored.symm.trans (hlast hgiven)) Bool.false_ne_true
    · refine ⟨?_, fun _ _ => hgraphical⟩
      rw [slices_append, hnone, List.append_nil]
      exact h.sparing
    · refine ⟨?_, fun _ _ => hgraphical⟩
      rw [slices_append, hgrant]
      refine h.sparing.append (.singleton _) fun given hgiven _ _ hgranted => ?_
      exact absurd (hstored.symm.trans (hlast (hgranted ▸ hgiven))) Bool.false_ne_true

/-- News that the daemon gets in an order that is possible, without a method call. -/
def Unforced (a : Account) : News → Prop
  | .start _ => a.calls = []
  | .changed _ _ => a.login ≠ none
  | .methodCall _ => False
  | .nameAcquired _ | .stop => True

theorem Alternates.iterate (h : a.Alternates) (systemd : Bool) (n : ℕ) :
    ((Account.update false systemd)^[n] a).Alternates := by
  induction n generalizing a with
  | zero => exact h
  | succ n ih => exact ih (h.update systemd)

theorem Alternates.step (h : a.Alternates) {news : News} (hnews : a.Unforced news) :
    (a.step news).Alternates := by
  cases news with
  | start standing =>
      have hnone : a.calls = [] := hnews
      refine ⟨?_, fun _ hgiven => ?_⟩
      · exact h.sparing
      · simp only [Account.step, hnone] at hgiven
        cases hgiven
  | nameAcquired systemd => exact ⟨(h.update systemd).sparing, (h.update systemd).last⟩
  | changed standing systemd =>
      exact Alternates.iterate (a := { a with login := some standing })
        ⟨h.sparing, fun _ => h.last hnews⟩ systemd a.handlers
  | methodCall systemd => exact hnews.elim
  | stop =>
      refine ⟨?_, fun hlogin => absurd rfl hlogin⟩
      have hrevoked : true ∉ slices (if a.stored.listed then revoke else []) := by
        cases a.stored.listed <;> simp [slices, revoke]
      rw [Account.step, slices_append]
      exact h.sparing.revoke hrevoked

end Account

/-! ### The calls for a user -/

structure RSdLogin.Sorted (login : RSdLogin) : Prop where
  allUsers : SortedUids login.allUsers
  graphicalUsers : SortedUids login.graphicalUsers

instance (login : RSdLogin) : Decidable login.Sorted :=
  decidable_of_iff (SortedUids login.allUsers ∧ SortedUids login.graphicalUsers)
    ⟨fun h => ⟨h.1, h.2⟩, fun h => ⟨h.1, h.2⟩⟩

def ForUser (uid : Uid) (c : UnitCall) : Prop := c.unit = userSlice uid ∨ c.unit = userService uid

instance (uid : Uid) (c : UnitCall) : Decidable (ForUser uid c) :=
  inferInstanceAs (Decidable (_ ∨ _))

namespace RManager

def entryCall (self : RManager) (uid : Uid) (entry : UserUnit × Bool) : UnitCall :=
  self.unitCall (entry.1.name uid) (if entry.2 then .activeUser else .inactiveUser)

variable (self : RManager) (isDir : CString → Bool) {uid : Uid}

theorem entryCall_of_config {self other : RManager} (h : self.config = other.config) (uid : Uid) :
    self.entryCall uid = other.entryCall uid := by
  funext entry
  rw [entryCall, entryCall, unitCall_of_config h]

/-- `set_user_resources` makes the calls of the account. -/
theorem userCalls_eq (active : Bool) (uid : Uid) :
    self.userCalls isDir active uid =
      (if active then Account.grant (isDir (uresourcedCgroup uid)) else Account.revoke).map
        (self.entryCall uid) := by
  cases active <;> rfl

theorem forUser_userCalls {active : Bool} {c : UnitCall} {other : Uid}
    (hc : c ∈ self.userCalls isDir active other) : ForUser uid c ↔ other = uid := by
  simp only [userCalls, List.mem_cons, List.not_mem_nil, or_false] at hc
  rcases hc with rfl | rfl <;> simp [ForUser, unitCall]

theorem filter_userCalls (active : Bool) {uids : List Uid} (h : uids.Nodup) :
    (uids.flatMap (self.userCalls isDir active)).filter (fun c => decide (ForUser uid c)) =
      if uid ∈ uids then self.userCalls isDir active uid else [] :=
  LastWrite.filter_flatMap_of_nodup
    (fun _ hc => decide_eq_true ((self.forUser_userCalls isDir hc).mpr rfl))
    (fun _ hne _ hc => decide_eq_false fun hfor => hne ((self.forUser_userCalls isDir hc).mp hfor))
    h

theorem filter_sliceCalls (due : Bool) (n : ℕ) :
    (self.sliceCalls due n).filter (fun c => decide (ForUser uid c)) = [] := by
  refine List.filter_eq_nil_iff.mpr fun c hc hfor => ?_
  cases due with
  | false => simp [sliceCalls] at hc
  | true =>
      simp only [sliceCalls, if_true, List.mem_singleton] at hc
      subst hc
      rcases of_decide_eq_true hfor with hslice | hservice
      · exact userSlice_ne_root uid hslice.symm
      · exact userService_ne_root uid hservice.symm

variable {self} {allUsers graphicalUsers : List Uid}

/-- The calls of an update for one user are those of his account. -/
theorem filter_updateCalls (hgraphical : SortedUids self.graphicalUsers)
    (hall : SortedUids self.allUsers) (hgraphical' : SortedUids graphicalUsers)
    (hall' : SortedUids allUsers) (forceActive : Bool) (uid : Uid) :
    (self.updateCalls isDir allUsers graphicalUsers forceActive).filter
        (fun c => decide (ForUser uid c)) =
      (Account.updateCalls
          ⟨decide (uid ∈ self.allUsers), decide (uid ∈ self.graphicalUsers)⟩
          ⟨decide (uid ∈ allUsers), decide (uid ∈ graphicalUsers)⟩ forceActive
          (isDir (uresourcedCgroup uid))).map (self.entryCall uid) := by
  have hrevoked : (self.revoked graphicalUsers).Nodup := hgraphical.nodup.filter _
  have hunknown : (self.unknown allUsers graphicalUsers).Nodup := hall'.nodup.filter _
  have hgranted : (self.granted graphicalUsers forceActive).Nodup := hgraphical'.nodup.filter _
  simp only [updateCalls, revokeCalls, grantCalls, List.flatMap_append, List.filter_append,
    filter_sliceCalls, filter_userCalls self isDir _ hrevoked,
    filter_userCalls self isDir _ hunknown, filter_userCalls self isDir _ hgranted,
    mem_revoked hgraphical hgraphical', mem_unknown hall hall' hgraphical',
    mem_granted hgraphical hgraphical', userCalls_eq, Account.updateCalls, List.map_append]
  by_cases h₁ : uid ∈ self.graphicalUsers <;> by_cases h₂ : uid ∈ graphicalUsers <;>
    by_cases h₃ : uid ∈ self.allUsers <;> by_cases h₄ : uid ∈ allUsers <;>
      cases forceActive <;> simp [h₁, h₂, h₃, h₄]

end RManager

namespace Daemon

def callsFor (s : Daemon) (uid : Uid) : List UnitCall :=
  s.bus.calls.filter fun c => decide (ForUser uid c)

/-- The account tells what the daemon knows about the user and has issued for him. -/
structure Tells (uid : Uid) (s : Daemon) (a : Account) : Prop where
  login : s.manager.login.map (RSdLogin.standing · uid) = a.login
  stored : a.stored =
    ⟨decide (uid ∈ s.manager.allUsers), decide (uid ∈ s.manager.graphicalUsers)⟩
  calls : s.callsFor uid = a.calls.map (s.manager.entryCall uid)

variable {uid : Uid} {s : Daemon} {a : Account} (isDir : CString → Bool)

theorem Tells.calls_eq_nil (h : Tells uid s a) (hcalls : s.bus.calls = []) : a.calls = [] := by
  have hmap := h.calls
  rw [callsFor, hcalls, List.filter_nil] at hmap
  exact List.map_eq_nil_iff.mp hmap.symm

theorem Tells.sameUnits {t : Daemon} (h : Tells uid s a) (hsame : SameUnits s t)
    (hlogin : t.manager.login.map (RSdLogin.standing · uid) =
      s.manager.login.map (RSdLogin.standing · uid)) : Tells uid t a where
  login := hlogin.trans h.login
  stored := by simp only [hsame.allUsers, hsame.graphicalUsers, h.stored]
  calls := by
    rw [callsFor, hsame.calls, RManager.entryCall_of_config hsame.config]
    exact h.calls

structure Stored (s : Daemon) : Prop where
  allUsers : SortedUids s.manager.allUsers
  graphicalUsers : SortedUids s.manager.graphicalUsers

theorem Stored.updateFromLogin (h : Stored s) (hlogin : ∀ login ∈ s.manager.login, login.Sorted)
    (forceActive : Bool) : Stored (s.updateFromLogin isDir forceActive) := by
  cases hl : s.manager.login with
  | none =>
      rw [Daemon.updateFromLogin, hl]
      exact h
  | some login =>
      obtain ⟨hall, hgraphical⟩ := hlogin login hl
      rw [updateFromLogin_eq hl]
      exact ⟨allUsers_update s _ ▸ hall, graphicalUsers_update s _ ▸ hgraphical⟩

theorem Stored.updates (h : Stored s) (hlogin : ∀ login ∈ s.manager.login, login.Sorted)
    (forceActive : Bool) (n : ℕ) :
    Stored ((Daemon.updateFromLogin isDir · forceActive)^[n] s) := by
  induction n generalizing s with
  | zero => exact h
  | succ n ih =>
      have hframed := framed_updateFromLogin isDir s forceActive
      exact ih (h.updateFromLogin isDir hlogin forceActive) (hframed.login ▸ hlogin)

theorem Tells.updateFromLogin (h : Tells uid s a) (hs : Stored s)
    (hconn : s.manager.connection = true) (hlogin : ∀ login ∈ s.manager.login, login.Sorted)
    (forceActive : Bool) :
    Tells uid (s.updateFromLogin isDir forceActive)
      (a.update forceActive (isDir (uresourcedCgroup uid))) := by
  have hframed := framed_updateFromLogin isDir s forceActive
  cases hl : s.manager.login with
  | none =>
      have hnone : a.login = none := by rw [← h.login, hl, Option.map_none]
      rw [Daemon.updateFromLogin, hl, Account.update, hnone]
      exact h
  | some login =>
      have hsome : a.login = some (login.standing uid) := by
        rw [← h.login, hl, Option.map_some]
      obtain ⟨hall, hgraphical⟩ := hlogin login hl
      have hconfig := config_updateFromLogin isDir s forceActive
      refine ⟨?_, ?_, ?_⟩
      · rw [hframed.login, Account.login_update, h.login]
      · rw [updateFromLogin_eq hl, Account.update, hsome, graphicalUsers_update, allUsers_update]
        rfl
      · rw [RManager.entryCall_of_config hconfig, callsFor, updateFromLogin_eq hl,
          calls_update hconn, List.filter_append, Account.update, hsome, List.map_append, ← h.calls,
          RManager.filter_updateCalls isDir hs.graphicalUsers hs.allUsers hgraphical hall, h.stored]
        rfl

theorem Tells.iterate (h : Tells uid s a) (hs : Stored s) (hconn : s.manager.connection = true)
    (hlogin : ∀ login ∈ s.manager.login, login.Sorted) (n : ℕ) :
    Tells uid ((activeUsersChangedCb isDir)^[n] s)
      ((Account.update false (isDir (uresourcedCgroup uid)))^[n] a) := by
  induction n generalizing s a with
  | zero => exact h
  | succ n ih =>
      have hframed := framed_updateFromLogin isDir s false
      exact ih (h.updateFromLogin isDir hs hconn hlogin false)
        (hs.updateFromLogin isDir hlogin false) (hframed.connection.trans hconn)
        (hframed.login ▸ hlogin)

theorem Tells.stop (h : Tells uid s a) (hs : Stored s)
    (hconn : s.manager.connection = false → s.Fresh) :
    Tells uid (s.stop isDir) (a.step .stop) := by
  have hconfig : (s.stop isDir).manager.config = s.manager.config := by
    rw [stop_eq, issue_manager]
    rfl
  refine ⟨rfl, rfl, ?_⟩
  rw [RManager.entryCall_of_config hconfig, callsFor]
  cases hc : s.manager.connection with
  | true =>
      rw [calls_stop isDir hc, stopCalls, List.filter_append, List.filter_append,
        RManager.filter_userCalls _ isDir false hs.allUsers.nodup, RManager.filter_sliceCalls,
        List.append_nil, Account.step, List.map_append, ← h.calls, h.stored,
        RManager.userCalls_eq]
      by_cases hmem : uid ∈ s.manager.allUsers <;> simp [hmem, callsFor]
  | false =>
      obtain ⟨hcalls, _, hall⟩ := hconn hc
      rw [stop_eq, issue_bus, if_neg (by simp [hc]), hcalls, Account.step, h.calls_eq_nil hcalls,
        h.stored, hall]
      simp

end Daemon

/-! ### Runs of the whole daemon -/

def Event.isMethodCall : Event → Bool
  | .methodCall _ => true
  | _ => false

namespace Process

/-- The news about a user: logind has not changed its mind about him otherwise. -/
def news (uid : Uid) (p : Process) : Event → Option News
  | .start answers _ => some (.start ((RSdLogin.init answers).standing uid))
  | .nameAcquired isDir => some (.nameAcquired (isDir (uresourcedCgroup uid)))
  | .logindQuiet answers isDir =>
      let standing := (RSdLogin.logindQuiet answers).standing uid
      if p.daemon.manager.login.map (RSdLogin.standing · uid) = some standing then none
      else some (.changed standing (isDir (uresourcedCgroup uid)))
  | .methodCall isDir => some (.methodCall (isDir (uresourcedCgroup uid)))
  | .stop _ => some .stop
  | .busAcquired _ | .nameLost | .logindChanged | .reply | .nameDestroyed | .objectDestroyed =>
      none

/-- Updates act on arrays that can be searched. -/
def Searches (p : Process) (e : Event) : Prop := ∀ login ∈ p.snapshot e, login.Sorted

instance (p : Process) (e : Event) : Decidable (p.Searches e) :=
  inferInstanceAs (Decidable (∀ login ∈ p.snapshot e, login.Sorted))

/-- What such runs keep, whatever the users are. -/
structure Kept (p : Process) : Prop where
  wf : Wf p
  idle : p.owning = .idle → p.daemon.manager.connection = false ∧ p.stopped = false
  fresh : p.daemon.manager.connection = false → p.stopped = false → p.daemon.Fresh
  stored : p.daemon.Stored

theorem kept_init (availableRam : UInt64) : Kept (init availableRam) where
  wf := wf_init availableRam
  idle _ := ⟨rfl, rfl⟩
  fresh _ _ := ⟨rfl, rfl, rfl⟩
  stored := ⟨Daemon.sortedUids_nil, Daemon.sortedUids_nil⟩

theorem Kept.step {p q : Process} {e : Event} (h : Kept p) (ho : Searches p e)
    (hs : p.step e = some q) : Kept q := by
  have hwf := h.wf.step hs
  rcases step_cases h.wf hs with ⟨_, hquiet, _⟩ |
    ⟨_, hconn, _, hidle, isDir, forceActive, n, hdaemon⟩ | ⟨isDir, rfl, hidle, _, rfl⟩
  · refine ⟨hwf, fun hq => ?_, fun hc hr => ?_, ?_⟩
    · obtain ⟨hp, hsame⟩ := hquiet.idle hq
      exact hsame ▸ hquiet.stopped ▸ h.idle hp
    · obtain ⟨hcalls, hgraphical, hall⟩ := h.fresh (hquiet.connection hc) (hquiet.stopped ▸ hr)
      exact ⟨hquiet.calls.trans hcalls, hquiet.graphicalUsers.trans hgraphical,
        hquiet.allUsers.trans hall⟩
    · exact ⟨hquiet.allUsers ▸ h.stored.allUsers, hquiet.graphicalUsers ▸ h.stored.graphicalUsers⟩
  · set t : Daemon := { p.daemon with manager.login := p.snapshot e } with ht
    have hstored : t.Stored := ⟨h.stored.allUsers, h.stored.graphicalUsers⟩
    have hframed := Daemon.framed_updates isDir forceActive t n
    rw [← hdaemon] at hframed
    refine ⟨hwf, fun hq => ?_, fun hc => ?_, ?_⟩
    · simp [(h.idle (hidle hq)).1] at hconn
    · simp [hframed.connection, ht, hconn] at hc
    · rw [hdaemon]
      exact hstored.updates isDir ho forceActive n
  · exact ⟨hwf, fun hq => absurd hq hidle, by simp,
      ⟨Daemon.sortedUids_nil, Daemon.sortedUids_nil⟩⟩

structure Tells (uid : Uid) (p : Process) (a : Account) : Prop where
  kept : Kept p
  daemon : p.daemon.Tells uid a
  handlers : a.handlers = p.handlers
  synced : 0 < p.handlers → a.Synced

variable {uid : Uid} {p q : Process} {a : Account} {e : Event}

theorem tells_init (availableRam : UInt64) (uid : Uid) :
    Tells uid (init availableRam) Account.init where
  kept := kept_init availableRam
  daemon := ⟨rfl, by simp [init, RManager.init, Account.init], rfl⟩
  handlers := rfl
  synced h := absurd h (Nat.lt_irrefl 0)

theorem Tells.calls_of_idle (h : Tells uid p a) (hidle : p.owning = .idle) :
    p.daemon.bus.calls = [] ∧ a.calls = [] := by
  obtain ⟨hconn, hstopped⟩ := h.kept.idle hidle
  obtain ⟨hcalls, _, _⟩ := h.kept.fresh hconn hstopped
  exact ⟨hcalls, h.daemon.calls_eq_nil hcalls⟩

/-- The configuration is read while nothing has been issued yet. -/
theorem Tells.start (h : Tells uid p a) {answers : LogindAnswers} {file : Option KeyFile}
    (hs : p.step (.start answers file) = some q) :
    q.daemon.Tells uid (a.step (.start ((RSdLogin.init answers).standing uid))) := by
  simp only [Process.step, Option.ite_none_right_eq_some, Option.some.injEq] at hs
  obtain ⟨⟨hidle, _⟩, rfl⟩ := hs
  obtain ⟨hcalls, hnone⟩ := h.calls_of_idle hidle
  have hsame : (p.daemon.start answers file).manager.allUsers = p.daemon.manager.allUsers ∧
      (p.daemon.start answers file).manager.graphicalUsers = p.daemon.manager.graphicalUsers ∧
      (p.daemon.start answers file).manager.login = some (RSdLogin.init answers) := by
    simp only [Daemon.start]
    rw [RManager.readConfig_eq]
    exact ⟨rfl, rfl, rfl⟩
  obtain ⟨hall', hgraphical', hlogin'⟩ := hsame
  refine ⟨?_, ?_, ?_⟩
  · rw [hlogin']
    rfl
  · simp only [hall', hgraphical']
    exact h.daemon.stored
  · rw [Account.step, hnone, Daemon.callsFor, Daemon.start, hcalls]
    rfl

/-- A snapshot, whether it is news or not. -/
theorem Tells.logindQuiet (h : Tells uid p a) {answers : LogindAnswers} {isDir : CString → Bool}
    (ho : Searches p (.logindQuiet answers isDir))
    (hs : p.step (.logindQuiet answers isDir) = some q) :
    q.daemon.Tells uid (a.step (.changed ((RSdLogin.logindQuiet answers).standing uid)
      (isDir (uresourcedCgroup uid)))) ∧ q.handlers = p.handlers := by
  simp only [Process.step] at hs
  split at hs
  · next hlogin =>
    obtain rfl := Option.some.inj hs
    set t := (p.setLogin (RSdLogin.logindQuiet answers)).daemon with ht
    set b : Account :=
      { a with login := some ((RSdLogin.logindQuiet answers).standing uid) } with hb
    have hstored : t.Stored := ⟨h.kept.stored.allUsers, h.kept.stored.graphicalUsers⟩
    have htells : t.Tells uid b := ⟨rfl, h.daemon.stored, h.daemon.calls⟩
    refine ⟨?_, rfl⟩
    rw [Account.step, ← hb, h.handlers]
    change Daemon.Tells uid ((Daemon.activeUsersChangedCb isDir)^[p.handlers] t) _
    rcases Nat.eq_zero_or_pos p.handlers with hzero | hpos
    · rw [hzero]
      exact htells
    · have hconn : t.manager.connection = true :=
        h.kept.wf.connection_of_handlers hpos (hlogin ▸ Option.some_ne_none _)
      exact htells.iterate isDir hstored hconn ho p.handlers
  · cases hs

theorem Tells.step (h : Tells uid p a) (ho : Searches p e) (hs : p.step e = some q) :
    Tells uid q ((p.news uid e).elim a a.step) := by
  have hkept := h.kept.step ho hs
  cases e with
  | start answers file =>
      have hdaemon := h.start hs
      simp only [Process.step, Option.ite_none_right_eq_some, Option.some.injEq] at hs
      obtain ⟨⟨hidle, _⟩, rfl⟩ := hs
      refine ⟨hkept, hdaemon, h.handlers, fun hpos => ?_⟩
      simpa [hidle] using h.kept.wf.handlers hpos
  | busAcquired registered =>
      simp only [Process.step, Option.ite_none_right_eq_some, Option.some.injEq] at hs
      obtain ⟨_, rfl⟩ := hs
      refine ⟨hkept, h.daemon.sameUnits ?_ ?_, h.handlers, h.synced⟩ <;> cases registered
      all_goals first | rfl | exact ⟨rfl, rfl, rfl, rfl⟩
  | nameAcquired isDir =>
      simp only [Process.step, Option.ite_none_right_eq_some, Option.some.injEq] at hs
      obtain ⟨⟨hacquiring, hname⟩, rfl⟩ := hs
      have hconn := h.kept.wf.connection (.inl hacquiring)
        (h.kept.wf.not_stopped (.inl hname))
      have hdaemon := h.daemon.updateFromLogin isDir h.kept.stored hconn ho false
      refine ⟨hkept, ⟨hdaemon.login, hdaemon.stored, hdaemon.calls⟩, ?_, fun _ => ?_⟩
      · exact congrArg (· + 1) h.handlers
      · exact Account.synced_update a false _
  | nameLost =>
      simp only [Process.step, Option.ite_none_right_eq_some] at hs
      obtain ⟨_, hs⟩ := hs
      split at hs <;> cases hs <;> exact ⟨hkept, h.daemon, h.handlers, h.synced⟩
  | logindChanged =>
      obtain ⟨login, hlogin, rfl⟩ := Option.map_eq_some_iff.mp hs
      refine ⟨hkept, h.daemon.sameUnits ⟨rfl, rfl, rfl, rfl⟩ ?_, h.handlers, h.synced⟩
      rw [hlogin]
      rfl
  | logindQuiet answers isDir =>
      obtain ⟨hdaemon, hhandlers⟩ := h.logindQuiet ho hs
      simp only [news]
      -- a snapshot that is no news may still run an update, which then does nothing
      split
      · next hsame =>
        have hlogin := h.daemon.login.symm.trans hsame
        rw [Account.step_changed_of_synced (h.handlers ▸ h.synced) hlogin] at hdaemon
        exact ⟨hkept, hdaemon, h.handlers.trans hhandlers.symm, hhandlers ▸ h.synced⟩
      · refine ⟨hkept, hdaemon, ?_, fun hpos => ?_⟩
        · rw [hhandlers, ← h.handlers]
          exact Account.handlers_iterate _ _ _
        · exact Account.synced_iterate _ (by rw [h.handlers, ← hhandlers]; exact hpos) _
  | methodCall isDir =>
      simp only [Process.step, Option.ite_none_right_eq_some, Option.some.injEq] at hs
      obtain ⟨hobj, rfl⟩ := hs
      have hconn := h.kept.wf.connection (h.kept.wf.dbusObj hobj)
        (h.kept.wf.not_stopped (.inr hobj))
      refine ⟨hkept, h.daemon.updateFromLogin isDir h.kept.stored hconn ho true,
        ?_, fun _ => Account.synced_update a true _⟩
      exact (Account.handlers_update a true _).trans h.handlers
  | stop isDir =>
      simp only [Process.step, Option.ite_none_right_eq_some, Option.some.injEq] at hs
      obtain ⟨⟨_, hstopped⟩, rfl⟩ := hs
      have hfresh hconn := h.kept.fresh hconn hstopped
      refine ⟨hkept, h.daemon.stop isDir h.kept.stored hfresh, h.handlers, ?_⟩
      rintro - standing hmem
      cases hmem
  | reply | nameDestroyed | objectDestroyed =>
      simp only [Process.step, Option.ite_none_right_eq_some, Option.some.injEq] at hs
      obtain ⟨_, rfl⟩ := hs
      exact ⟨hkept, h.daemon.sameUnits ⟨rfl, rfl, rfl, rfl⟩ rfl, h.handlers, h.synced⟩

theorem tells_run {availableRam : UInt64} {es : List Event} (uid : Uid)
    (hsearches : AllSteps step Searches (init availableRam) es)
    (hrun : run step (init availableRam) es = some p) :
    Tells uid p ((observe step (news uid) (init availableRam) es).foldl Account.step
      Account.init) := by
  refine run_observe (C := Searches) (R := Tells uid) ?_ ?_ (tells_init availableRam uid)
    hsearches hrun
  · intro p e q a h ho hs hnone
    have hstep := h.step ho hs
    rwa [hnone] at hstep
  · intro p e q a o h ho hs hsome
    have hstep := h.step ho hs
    rwa [hsome] at hstep

/-- Users are isolated from each other: two runs that bring the same news about a user
make the same calls for him, whatever logind and the file system say about other users,
and however often logind is asked. -/
theorem calls_isolated {availableRam availableRam' : UInt64} {es es' : List Event}
    {p q : Process} (uid : Uid) (hp : run step (init availableRam) es = some p)
    (hq : run step (init availableRam') es' = some q)
    (hsearches : AllSteps step Searches (init availableRam) es)
    (hsearches' : AllSteps step Searches (init availableRam') es')
    (hconfig : p.daemon.manager.config = q.daemon.manager.config)
    (hnews : observe step (news uid) (init availableRam) es =
      observe step (news uid) (init availableRam') es') :
    p.daemon.callsFor uid = q.daemon.callsFor uid := by
  have htells := tells_run uid hsearches hp
  have htells' := tells_run uid hsearches' hq
  rw [htells.daemon.calls, htells'.daemon.calls, hnews, RManager.entryCall_of_config hconfig]

def onSeats (uids : List Uid) : LogindAnswers :=
  ⟨some (uids.map fun uid => ⟨some true, some [⟨some uid, some true⟩]⟩), some uids⟩

def onlyUser : List Event :=
  [.start (onSeats [1000]) none, .busAcquired true, .nameAcquired fun _ => true,
    .stop fun _ => true]

/-- Another one comes and goes before the daemon is stopped. -/
def neighbour : List Event :=
  [.start (onSeats [1000]) none, .busAcquired true, .nameAcquired fun _ => true,
    .logindChanged, .logindQuiet (onSeats [1000, 1001]) fun _ => true,
    .logindChanged, .logindQuiet (onSeats [1000]) fun _ => true, .stop fun _ => true]

theorem calls_isolated_neighbour :
    ((checkedRun step Searches (init 0) onlyUser).get (by decide)).daemon.callsFor 1000 =
      ((checkedRun step Searches (init 0) neighbour).get (by decide)).daemon.callsFor 1000 :=
  calls_isolated 1000 (checkedRun_get (by decide)).2 (checkedRun_get (by decide)).2
    (checkedRun_get (by decide)).1 (checkedRun_get (by decide)).1 (by decide) (by decide)

/-! ### Grants are not repeated -/

/-- No user daemon asks for its resources. -/
def Unasked (p : Process) (e : Event) : Prop := p.Searches e ∧ e.isMethodCall = false

instance (p : Process) (e : Event) : Decidable (p.Unasked e) :=
  inferInstanceAs (Decidable (_ ∧ _))

theorem Tells.unforced (h : Tells uid p a) (ho : Unasked p e) (hs : p.step e = some q) :
    ∀ news ∈ p.news uid e, a.Unforced news := by
  intro news hnews
  cases e with
  | start answers file =>
      cases hnews
      simp only [Process.step, Option.ite_none_right_eq_some] at hs
      exact (h.calls_of_idle hs.1.1).2
  | logindQuiet answers isDir =>
      have hlogin : a.login ≠ none := by
        intro hnone
        have hnobody := Option.map_eq_none_iff.mp (h.daemon.login.trans hnone)
        simp [Process.step, hnobody] at hs
      simp only [Process.news] at hnews
      split at hnews <;> cases hnews
      exact hlogin
  | methodCall isDir => exact Bool.noConfusion ho.2
  | nameAcquired isDir | stop isDir => cases hnews; trivial
  | _ => cases hnews

/-- The calls for the slice of a user are those of his account. -/
theorem filter_slice (h : Tells uid p a) :
    p.daemon.bus.calls.filter (fun c => decide (c.unit = userSlice uid)) =
      (a.calls.filter fun entry => decide (entry.1 = .slice)).map
        (p.daemon.manager.entryCall uid) := by
  have hunit (entry : UserUnit × Bool) :
      decide ((p.daemon.manager.entryCall uid entry).unit = userSlice uid) =
        decide (entry.1 = .slice) := by
    obtain ⟨unit, active⟩ := entry
    cases unit <;> simp [RManager.entryCall, RManager.unitCall, UserUnit.name]
  have hfor : p.daemon.bus.calls.filter (fun c => decide (c.unit = userSlice uid)) =
      (p.daemon.callsFor uid).filter fun c => decide (c.unit = userSlice uid) := by
    rw [Daemon.callsFor, List.filter_filter]
    refine List.filter_congr fun c _ => ?_
    exact (Bool.and_eq_left_iff_imp.mpr fun hslice => decide_eq_true
      (.inl (of_decide_eq_true hslice))).symm
  rw [hfor, h.daemon.calls, List.filter_map]
  congr 2
  funext entry
  exact hunit entry

theorem alternates_of_reachable {availableRam : UInt64} (uid : Uid)
    (h : ReachableBy step Unasked (init availableRam) p) :
    ∃ a, Tells uid p a ∧ a.Alternates := by
  refine h.invariant (I := fun p => ∃ a, Tells uid p a ∧ a.Alternates)
    ⟨_, tells_init availableRam uid, Account.alternates_init⟩ ?_
  rintro p e q ⟨a, htells, halternates⟩ ho hs
  refine ⟨_, htells.step ho.1 hs, ?_⟩
  cases hnews : p.news uid e with
  | none => exact halternates
  | some news => exact halternates.step (htells.unforced ho hs news hnews)

/-- In a run without method calls no user's slice is granted the active allocation twice
without a revocation in between. -/
theorem grants_alternate {availableRam : UInt64} (uid : Uid)
    (h : ReachableBy step Unasked (init availableRam) p) :
    (p.daemon.bus.calls.filter fun c => decide (c.unit = userSlice uid)).IsChain
      fun c next => c.allocation = .activeUser → next.allocation ≠ .activeUser := by
  obtain ⟨a, htells, halternates⟩ := alternates_of_reachable uid h
  rw [filter_slice htells, List.isChain_map]
  refine ((List.isChain_map _).mp halternates.sparing).imp fun c next hspares hc => ?_
  have hgiven : c.2 = true := by
    by_contra hnot
    simp [RManager.entryCall, RManager.unitCall, hnot] at hc
  simp [RManager.entryCall, RManager.unitCall, hspares hgiven]

theorem grants_alternate_neighbour :
    (((checkedRun step Unasked (init 0) neighbour).get (by decide)).daemon.bus.calls.filter
      fun c => decide (c.unit = userSlice 1001)).IsChain
        fun c next => c.allocation = .activeUser → next.allocation ≠ .activeUser :=
  grants_alternate 1001 (reachableBy_checkedRun (by decide))

end Process

end Uresourced
