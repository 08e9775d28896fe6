import Uresourced.Manager.Lifecycle

/-!
What the daemon leaves behind.

`r_manager_stop` sets the units of the stored users as if nobody was active,
whether or not this daemon ever owned its name. `Settled` says for any history
of updates, also on arrays that the binary search cannot handle, where a user
stands; from it follows which protections survive the shutdown. The second part
is about a daemon that never gets its name.
-/

namespace Uresourced

open CString Runs

/-! ### Where a user stands -/

namespace Daemon

variable {s : Daemon}

/-- Either nothing was issued for the user, or the user is revoked, or the
slice holds the active allocation and the user is a stored graphical user. -/
def Settled (s : Daemon) (uid : Uid) : Prop :=
  (lastCall (userSlice uid) s.bus.calls = none ∧ lastCall (userService uid) s.bus.calls = none) ∨
    (s.Carries (userSlice uid) .inactiveUser ∧ s.Carries (userService uid) .inactiveUser) ∨
    (uid ∈ s.manager.graphicalUsers ∧ s.Carries (userSlice uid) .activeUser ∧
      (s.Carries (userService uid) .activeUser ∨ s.Carries (userService uid) .inactiveUser))

/-- The step lemma. A hit of the binary search is a member in any array, so no
order is needed. -/
theorem Settled.update {uid : Uid} (h : Settled s uid) (hconn : s.manager.connection = true)
    (u : Update) : Settled (s.update u) uid := by
  have hslice := lastCall_userSlice_update hconn u uid
  have hservice := lastCall_userService_update hconn u uid
  simp only [Settled, Carries, unitCall_update, hslice, hservice]
  by_cases hgranted : uid ∈ s.manager.granted u.graphicalUsers u.forceActive
  · have hmem : uid ∈ u.graphicalUsers := (List.mem_filter.mp hgranted).1
    cases hdir : userHasSystemdGraphical u.isDir uid <;> simp [hgranted, hmem]
  · by_cases hrevoked : uid ∈ s.manager.revoked u.graphicalUsers ++
        s.manager.unknown u.allUsers u.graphicalUsers
    · simp [hgranted, hrevoked]
    · simp only [hgranted, hrevoked, if_false]
      rcases h with h | h | ⟨hstored, h⟩
      · exact .inl h
      · exact .inr (.inl h)
      · refine .inr (.inr ⟨?_, h⟩)
        have hkept : uid ∉ s.manager.revoked u.graphicalUsers := fun hmem =>
          hrevoked (List.mem_append_left _ hmem)
        have hfound : GArray.binarySearch uidCmp u.graphicalUsers uid = true := by
          simpa [RManager.revoked, hstored] using hkept
        exact graphicalUsers_update s u ▸ mem_of_binarySearch_uidCmp hfound

theorem settled_updates (availableRam : UInt64) (file : Option KeyFile) (us : List Update) :
    ((connected availableRam file).updates us).manager.connection = true ∧
      ∀ uid, Settled ((connected availableRam file).updates us) uid := by
  induction us using List.reverseRecOn with
  | nil => exact ⟨rfl, fun uid => .inl ⟨rfl, rfl⟩⟩
  | append_singleton us u ih =>
      obtain ⟨hconn, hsettled⟩ := ih
      rw [updates, List.foldl_append]
      exact ⟨(connection_update _ u).trans hconn, fun uid => (hsettled uid).update hconn u⟩

/-! ### Stopping -/

def WasProtected (s : Daemon) (uid : Uid) : Prop :=
  ∃ c ∈ s.bus.calls, (c.unit = userSlice uid ∨ c.unit = userService uid) ∧
    c.allocation = .activeUser

def Protected (s : Daemon) (uid : Uid) : Prop :=
  s.Carries (userSlice uid) .activeUser ∨ s.Carries (userService uid) .activeUser

def Released (s : Daemon) : Prop :=
  ∀ uid, s.WasProtected uid →
    s.Carries (userSlice uid) .inactiveUser ∧ s.Carries (userService uid) .inactiveUser

def RootReleased (s : Daemon) : Prop :=
  ∃ c, lastCall "user.slice".toList s.bus.calls = some c ∧
    c.properties = [("MemoryMin".toList, 0), ("MemoryLow".toList, 0)]

variable (isDir : CString → Bool)

theorem calls_stop (hconn : s.manager.connection = true) :
    (s.stop isDir).bus.calls = s.bus.calls ++ s.stopCalls isDir := by
  rw [stop_eq]
  simp [issue_bus, hconn]

theorem unitCall_stop (s : Daemon) {unit : CString} {ptr : AllocationPtr} :
    (s.stop isDir).manager.unitCall unit ptr = s.manager.unitCall unit ptr := by
  rw [stop_eq, issue_manager]
  cases ptr <;> rfl

theorem lastCall_userSlice_stop (hconn : s.manager.connection = true) (uid : Uid) :
    lastCall (userSlice uid) (s.stop isDir).bus.calls =
      if uid ∈ s.manager.allUsers then some (s.manager.unitCall (userSlice uid) .inactiveUser)
      else lastCall (userSlice uid) s.bus.calls := by
  rw [calls_stop isDir hconn, stopCalls, lastCall_append, lastCall_append,
    RManager.lastCall_sliceCalls _ (userSlice_ne_root uid), RManager.lastCall_userSlice]
  split <;> rfl

theorem lastCall_userService_stop (hconn : s.manager.connection = true) (uid : Uid) :
    lastCall (userService uid) (s.stop isDir).bus.calls =
      if uid ∈ s.manager.allUsers then some (s.manager.unitCall (userService uid) .inactiveUser)
      else lastCall (userService uid) s.bus.calls := by
  rw [calls_stop isDir hconn, stopCalls, lastCall_append, lastCall_append,
    RManager.lastCall_sliceCalls _ (userService_ne_root uid), RManager.lastCall_userService]
  split <;> rfl

theorem rootReleased_stop (hconn : s.manager.connection = true) :
    RootReleased (s.stop isDir) := by
  refine ⟨s.manager.unitCall "user.slice".toList (.alloc 0), ?_, ?_⟩
  · rw [calls_stop isDir hconn, stopCalls, lastCall_append, lastCall_append,
      RManager.sliceCalls, if_pos rfl]
    simp [lastCall, LastWrite.last, RManager.unitCall]
  · simp [RManager.unitCall, RManager.allocation, RAllocation.properties]

theorem wasProtected_stop (hconn : s.manager.connection = true) (uid : Uid) :
    (s.stop isDir).WasProtected uid ↔ s.WasProtected uid := by
  simp only [WasProtected, calls_stop isDir hconn, List.mem_append]
  refine ⟨?_, fun ⟨c, hc, h⟩ => ⟨c, .inl hc, h⟩⟩
  rintro ⟨c, hc | hc, hunit, hactive⟩
  · exact ⟨c, hc, hunit, hactive⟩
  · rw [stopCalls, List.mem_append] at hc
    rcases hc with hc | hc
    · obtain ⟨u, _, hc⟩ := List.mem_flatMap.mp hc
      simp only [RManager.userCalls, List.mem_cons, List.not_mem_nil, or_false] at hc
      rcases hc with rfl | rfl <;> simp [RManager.unitCall] at hactive
    · simp only [RManager.sliceCalls, if_true, List.mem_singleton] at hc
      simp [hc, RManager.unitCall] at hactive

theorem Protected.wasProtected {uid : Uid} (h : s.Protected uid) : s.WasProtected uid := by
  rcases h with h | h
  · exact ⟨_, (LastWrite.mem_of_last _ h).1, .inl rfl, rfl⟩
  · exact ⟨_, (LastWrite.mem_of_last _ h).1, .inr rfl, rfl⟩

theorem Carries.ptr_eq {unit : CString} {ptr ptr' : AllocationPtr} (h : s.Carries unit ptr)
    (h' : s.Carries unit ptr') : ptr = ptr' :=
  congrArg UnitCall.allocation (Option.some.inj (h.symm.trans h'))

/-- After a stop everybody is released exactly when all protected users are
stored in the array that `r_manager_stop` walks. -/
theorem released_stop_iff (hconn : s.manager.connection = true)
    (hsettled : ∀ uid, s.Settled uid) :
    Released (s.stop isDir) ↔ ∀ uid, s.Protected uid → uid ∈ s.manager.allUsers := by
  simp only [Released, wasProtected_stop isDir hconn, Carries,
    unitCall_stop, lastCall_userSlice_stop isDir hconn, lastCall_userService_stop isDir hconn]
  constructor
  · intro h uid hprotected
    by_contra hnot
    have hreleased := h uid hprotected.wasProtected
    simp only [hnot, if_false] at hreleased
    rcases hprotected with hactive | hactive
    · cases Carries.ptr_eq hactive hreleased.1
    · cases Carries.ptr_eq hactive hreleased.2
  · intro h uid hwas
    by_cases hmem : uid ∈ s.manager.allUsers
    · simp [hmem]
    · simp only [hmem, if_false]
      rcases hsettled uid with ⟨hslice, hservice⟩ | hrevoked | ⟨_, hactive, _⟩
      · obtain ⟨c, hc, hunit | hunit, _⟩ := hwas
        · exact absurd hunit ((LastWrite.last_eq_none _).mp hslice c hc)
        · exact absurd hunit ((LastWrite.last_eq_none _).mp hservice c hc)
      · exact hrevoked
      · exact absurd (h uid (.inl hactive)) hmem

theorem Settled.mem_of_protected {uid : Uid} (h : s.Settled uid) (hprotected : s.Protected uid) :
    uid ∈ s.manager.graphicalUsers := by
  rcases h with ⟨hslice, hservice⟩ | ⟨hslice, hservice⟩ | ⟨hmem, _⟩
  · rcases hprotected with hactive | hactive
    · cases hslice.symm.trans hactive
    · cases hservice.symm.trans hactive
  · rcases hprotected with hactive | hactive
    · cases hactive.ptr_eq hslice
    · cases hactive.ptr_eq hservice
  · exact hmem

/-- After any updates and `r_manager_stop`, all protections are gone exactly when every
user that is still protected is stored in `all_users`; on searchable arrays, these users
are the stored graphical users. -/
theorem stop_released_iff (availableRam : UInt64) (file : Option KeyFile) (us : List Update) :
    let s := (connected availableRam file).updates us
    (Released (s.stop isDir) ∧ RootReleased (s.stop isDir) ↔
      ∀ uid, s.Protected uid → uid ∈ s.manager.allUsers) ∧
    ((∀ u ∈ us, u.Searchable) →
      ∀ uid, s.Protected uid ↔ uid ∈ s.manager.graphicalUsers) := by
  intro s
  obtain ⟨hconn, hsettled⟩ := settled_updates availableRam file us
  refine ⟨?_, fun hus uid => ⟨(hsettled uid).mem_of_protected, fun huid => ?_⟩⟩
  · rw [and_iff_left (rootReleased_stop isDir hconn)]
    exact released_stop_iff isDir hconn hsettled
  · exact .inl ((converged_updates availableRam file hus).active uid huid)

/-- The sessions are queried before the users: a user that has just logged out
is graphical and not listed. -/
def loggedOutBetween : LogindAnswers :=
  ⟨some [⟨some true, some [⟨some 1000, some true⟩]⟩], some []⟩

def updateOf (answers : LogindAnswers) : Update :=
  ⟨fun _ => true, (RSdLogin.logindQuiet answers).allUsers,
    (RSdLogin.logindQuiet answers).graphicalUsers, false⟩

/-- The user that logged out between the queries stays protected. -/
theorem not_released_loggedOutBetween :
    ¬ ∀ answers : List LogindAnswers,
      let s := (connected 0 none).updates (answers.map updateOf)
      Released (s.stop fun _ => true) ∧ RootReleased (s.stop fun _ => true) := by
  intro h
  obtain ⟨hreleased, _⟩ := h [loggedOutBetween]
  have hwas : (((connected 0 none).updates ([loggedOutBetween].map updateOf)).stop
      fun _ => true).WasProtected 1000 := by
    refine ⟨(connected 0 none).manager.unitCall (userSlice 1000) .activeUser, by decide, ?_⟩
    exact ⟨.inl rfl, rfl⟩
  have hslice := (hreleased 1000 hwas).1
  revert hslice
  unfold Carries
  decide

end Daemon

/-! ### Without the name -/

namespace Process

/-- A daemon that never gets its name: `name_acquired_cb` is not called, and
callers do not reach it, since they address the owner of the name. -/
def stepUnnamed (p : Process) : Event → Option Process
  | .nameAcquired _ => none
  | .methodCall _ => none
  | e => p.step e

def StopsUnconnected (p : Process) (e : Event) : Prop :=
  ∀ isDir, e = .stop isDir → p.daemon.manager.connection = false

theorem calls_stepUnnamed {p q : Process} {e : Event} (h : p.handlers = 0)
    (hs : p.stepUnnamed e = some q) :
    q.handlers = 0 ∧
      ((∃ isDir, e = .stop isDir ∧ q.daemon = p.daemon.stop isDir) ∨
        (∀ isDir, e ≠ .stop isDir) ∧ q.daemon.bus.calls = p.daemon.bus.calls) := by
  cases e with
  | nameAcquired isDir => cases hs
  | methodCall isDir => cases hs
  | stop isDir =>
      simp only [stepUnnamed, step, Option.ite_none_right_eq_some, Option.some.injEq] at hs
      obtain ⟨_, rfl⟩ := hs
      exact ⟨h, .inl ⟨isDir, rfl, rfl⟩⟩
  | nameLost =>
      simp only [stepUnnamed, step, Option.ite_none_right_eq_some] at hs
      obtain ⟨_, hs⟩ := hs
      split at hs <;> cases hs <;> exact ⟨h, .inr ⟨by simp, rfl⟩⟩
  | logindChanged =>
      obtain ⟨login, _, rfl⟩ := Option.map_eq_some_iff.mp hs
      exact ⟨h, .inr ⟨by simp, rfl⟩⟩
  | logindQuiet answers isDir =>
      simp only [stepUnnamed, step] at hs
      split at hs
      · obtain rfl := Option.some.inj hs
        refine ⟨h, .inr ⟨by simp, ?_⟩⟩
        simp [setLogin, h]
      · cases hs
  | start answers file =>
      simp only [stepUnnamed, step, Option.ite_none_right_eq_some, Option.some.injEq] at hs
      obtain ⟨_, rfl⟩ := hs
      exact ⟨h, .inr ⟨by simp, rfl⟩⟩
  | busAcquired registered =>
      simp only [stepUnnamed, step, Option.ite_none_right_eq_some, Option.some.injEq] at hs
      obtain ⟨_, rfl⟩ := hs
      cases registered <;> exact ⟨h, .inr ⟨by simp, rfl⟩⟩
  | reply | nameDestroyed | objectDestroyed =>
      simp only [stepUnnamed, step, Option.ite_none_right_eq_some, Option.some.injEq] at hs
      obtain ⟨_, rfl⟩ := hs
      exact ⟨h, .inr ⟨by simp, rfl⟩⟩

/-- A daemon that never gets its name issues nothing exactly when `r_manager_stop` is
never called with a connection. -/
theorem silent_iff_stopsUnconnected (availableRam : UInt64) (es : List Event) :
    AllStates stepUnnamed (fun p => p.daemon.bus.calls = []) (init availableRam) es ↔
      AllSteps stepUnnamed StopsUnconnected (init availableRam) es := by
  refine allStates_iff_allSteps (I := fun p => p.handlers = 0)
    (P := fun p => p.daemon.bus.calls = []) (s := init availableRam)
    (fun p e q h hs => (calls_stepUnnamed h hs).1) ?_ rfl rfl es
  intro p e q h hp hs
  obtain ⟨_, ⟨isDir, rfl, hdaemon⟩ | ⟨hne, hcalls⟩⟩ := calls_stepUnnamed h hs
  · have hconn : StopsUnconnected p (.stop isDir) ↔ p.daemon.manager.connection = false :=
      ⟨fun hc => hc isDir rfl, fun hc _ _ => hc⟩
    rw [hconn, hdaemon]
    cases hc : p.daemon.manager.connection with
    | false => simp [Daemon.stop_eq, Daemon.issue_bus, hc, hp]
    | true =>
        rw [Daemon.calls_stop isDir hc, hp]
        simp [Daemon.stopCalls, RManager.sliceCalls]
  · exact iff_of_true (hcalls.trans hp) fun isDir he => absurd he (hne isDir)

/-- A second instance is started: it never owns the name, and takes the
protection of `user.slice` away when it quits. -/
theorem not_silent_secondInstance :
    ¬ ∀ es, AllStates stepUnnamed (fun p => p.daemon.bus.calls = []) (init 0) es := by
  intro h
  have hlast := (h [.start ⟨some [], some []⟩ none, .busAcquired true, .nameLost,
    .stop fun _ => false]).last rfl
  exact absurd hlast (by decide)

end Process

end Uresourced
