import Uresourced.Manager.Config

/-!
Sequences of updates, and what the last call for every unit is.

An update is differential: it compares the snapshot with the stored arrays and
sends what has changed. What ties the stored arrays to the calls of all earlier
updates is the invariant `Converged`: a stored graphical user was last given
the active allocation, and every other user that is stored, or was graphical
once, was last given the inactive one.
-/

namespace Uresourced

open CString

def lastCall (unit : CString) (calls : List UnitCall) : Option UnitCall :=
  LastWrite.last UnitCall.unit unit calls

theorem lastCall_append (unit : CString) (cs ds : List UnitCall) :
    lastCall unit (cs ++ ds) = (lastCall unit ds).or (lastCall unit cs) :=
  LastWrite.last_append _ unit cs ds

/-- One call of `updat_user_allocations`: the arrays of the login monitor, the
argument, and the directories that exist while it runs. -/
structure Update where
  isDir : CString → Bool
  allUsers : List Uid
  graphicalUsers : List Uid
  forceActive : Bool

structure Update.Searchable (u : Update) : Prop where
  allUsers : SortedUids u.allUsers
  graphicalUsers : SortedUids u.graphicalUsers

instance (u : Update) : Decidable u.Searchable :=
  decidable_of_iff (SortedUids u.allUsers ∧ SortedUids u.graphicalUsers)
    ⟨fun h => ⟨h.1, h.2⟩, fun h => ⟨h.1, h.2⟩⟩

namespace Daemon

def update (s : Daemon) (u : Update) : Daemon :=
  s.updatUserAllocations u.isDir u.allUsers u.graphicalUsers u.forceActive

def updates (s : Daemon) (us : List Update) : Daemon := us.foldl update s

def connected (availableRam : UInt64) (file : Option KeyFile) : Daemon where
  manager := { (RManager.init availableRam).readConfig file with connection := true }
  bus := GDBus.init

/-- The last call for the unit is the one that `set_unit_resources` issues for
this allocation. -/
def Carries (s : Daemon) (unit : CString) (allocation : AllocationPtr) : Prop :=
  lastCall unit s.bus.calls = some (s.manager.unitCall unit allocation)

end Daemon

/-! ### The last call within one update -/

namespace RManager

variable (self : RManager) (isDir : CString → Bool)

theorem lastCall_sliceCalls {unit : CString} (h : unit ≠ "user.slice".toList) (due : Bool)
    (n : ℕ) : lastCall unit (self.sliceCalls due n) = none := by
  refine (LastWrite.last_eq_none _).mpr fun c hc => ?_
  cases due with
  | false => simp [sliceCalls] at hc
  | true =>
      simp only [sliceCalls, if_true, List.mem_singleton] at hc
      exact hc ▸ h.symm

theorem lastCall_userSlice (uid : Uid) (active : Bool) (uids : List Uid) :
    lastCall (userSlice uid) (uids.flatMap (self.userCalls isDir active)) =
      if uid ∈ uids then
        some (self.unitCall (userSlice uid) (if active then .activeUser else .inactiveUser))
      else none := by
  refine LastWrite.last_flatMap (f := self.userCalls isDir active) (i := uid) _
    (fun u c hc hunit => ?_) List.mem_cons_self rfl uids
  simp only [userCalls, List.mem_cons, List.not_mem_nil, or_false] at hc
  rcases hc with rfl | rfl
  · obtain rfl := userSlice_inj.mp hunit
    exact ⟨rfl, rfl⟩
  · exact absurd hunit (userService_ne_userSlice u uid)

theorem lastCall_userService (uid : Uid) (active : Bool) (uids : List Uid) :
    lastCall (userService uid) (uids.flatMap (self.userCalls isDir active)) =
      if uid ∈ uids then
        some (self.unitCall (userService uid)
          (if active && Daemon.userHasSystemdGraphical isDir uid then .activeUser
            else .inactiveUser))
      else none := by
  refine LastWrite.last_flatMap (f := self.userCalls isDir active) (i := uid) _
    (fun u c hc hunit => ?_) (List.mem_cons_of_mem _ List.mem_cons_self) rfl uids
  simp only [userCalls, List.mem_cons, List.not_mem_nil, or_false] at hc
  rcases hc with rfl | rfl
  · exact absurd hunit (userSlice_ne_userService u uid)
  · obtain rfl := userService_inj.mp hunit
    exact ⟨rfl, rfl⟩

/-- The last call of an update for a unit of a user: a grant comes after the
revocations. -/
theorem lastCall_updateCalls {unit : CString} {uid : Uid} {ptr : Bool → AllocationPtr}
    (hroot : unit ≠ "user.slice".toList)
    (hunit : ∀ (active : Bool) (uids : List Uid),
      lastCall unit (uids.flatMap (self.userCalls isDir active)) =
        if uid ∈ uids then some (self.unitCall unit (ptr active)) else none)
    (allUsers graphicalUsers : List Uid) (forceActive : Bool) :
    lastCall unit (self.updateCalls isDir allUsers graphicalUsers forceActive) =
      if uid ∈ self.granted graphicalUsers forceActive then some (self.unitCall unit (ptr true))
      else if uid ∈ self.revoked graphicalUsers ++ self.unknown allUsers graphicalUsers then
        some (self.unitCall unit (ptr false))
      else none := by
  simp only [updateCalls, revokeCalls, grantCalls, lastCall_append, hunit,
    lastCall_sliceCalls self hroot]
  split <;> simp

variable {self}

theorem mem_granted {graphicalUsers : List Uid} {forceActive : Bool} {uid : Uid}
    (hstored : SortedUids self.graphicalUsers) (hnew : SortedUids graphicalUsers) :
    uid ∈ self.granted graphicalUsers forceActive ↔
      uid ∈ graphicalUsers ∧ (forceActive = true ∨ uid ∉ self.graphicalUsers) := by
  simp only [granted, List.mem_filter, Bool.or_eq_true, Bool.not_eq_true']
  refine and_congr_right fun huid => or_congr_right ?_
  rw [← Bool.not_eq_true, binarySearch_uidCmp hstored (hnew.small uid huid)]

theorem mem_revoked {graphicalUsers : List Uid} {uid : Uid}
    (hstored : SortedUids self.graphicalUsers) (hnew : SortedUids graphicalUsers) :
    uid ∈ self.revoked graphicalUsers ↔ uid ∈ self.graphicalUsers ∧ uid ∉ graphicalUsers := by
  simp only [revoked, List.mem_filter, Bool.not_eq_true']
  refine and_congr_right fun huid => ?_
  rw [← Bool.not_eq_true, binarySearch_uidCmp hnew (hstored.small uid huid)]

theorem mem_unknown {allUsers graphicalUsers : List Uid} {uid : Uid}
    (hstored : SortedUids self.allUsers) (hall : SortedUids allUsers)
    (hnew : SortedUids graphicalUsers) :
    uid ∈ self.unknown allUsers graphicalUsers ↔
      uid ∈ allUsers ∧ uid ∉ graphicalUsers ∧ uid ∉ self.allUsers := by
  simp only [unknown, List.mem_filter, Bool.and_eq_true, Bool.not_eq_true']
  refine and_congr_right fun huid => ?_
  rw [← Bool.not_eq_true, ← Bool.not_eq_true, binarySearch_uidCmp hnew (hall.small uid huid),
    binarySearch_uidCmp hstored (hall.small uid huid)]

end RManager

/-! ### The invariant -/

namespace Daemon

variable {s : Daemon}

theorem update_manager (s : Daemon) (u : Update) :
    ∃ pending, (s.update u).manager = { s.manager with
      pendingCalls := pending, graphicalUsers := u.graphicalUsers, allUsers := u.allUsers } := by
  refine ⟨(s.update u).manager.pendingCalls, ?_⟩
  simp [update, updatUserAllocations_eq, issue_manager]

@[simp] theorem connection_update (s : Daemon) (u : Update) :
    (s.update u).manager.connection = s.manager.connection := by
  obtain ⟨pending, h⟩ := update_manager s u
  rw [h]

@[simp] theorem graphicalUsers_update (s : Daemon) (u : Update) :
    (s.update u).manager.graphicalUsers = u.graphicalUsers := by
  obtain ⟨pending, h⟩ := update_manager s u
  rw [h]

@[simp] theorem allUsers_update (s : Daemon) (u : Update) :
    (s.update u).manager.allUsers = u.allUsers := by
  obtain ⟨pending, h⟩ := update_manager s u
  rw [h]

@[simp] theorem unitCall_update (s : Daemon) (u : Update) :
    (s.update u).manager.unitCall = s.manager.unitCall := by
  obtain ⟨pending, h⟩ := update_manager s u
  rw [h]
  funext unit allocation
  cases allocation <;> rfl

theorem calls_update (h : s.manager.connection = true) (u : Update) :
    (s.update u).bus.calls = s.bus.calls ++
      s.manager.updateCalls u.isDir u.allUsers u.graphicalUsers u.forceActive := by
  simp [update, updatUserAllocations_eq, issue_bus, h]

theorem lastCall_userSlice_update (hconn : s.manager.connection = true) (u : Update) (uid : Uid) :
    lastCall (userSlice uid) (s.update u).bus.calls =
      if uid ∈ s.manager.granted u.graphicalUsers u.forceActive then
        some (s.manager.unitCall (userSlice uid) .activeUser)
      else if uid ∈ s.manager.revoked u.graphicalUsers ++
          s.manager.unknown u.allUsers u.graphicalUsers then
        some (s.manager.unitCall (userSlice uid) .inactiveUser)
      else lastCall (userSlice uid) s.bus.calls := by
  rw [calls_update hconn, lastCall_append, RManager.lastCall_updateCalls _ _
    (userSlice_ne_root uid) (RManager.lastCall_userSlice _ _ uid)]
  split
  · rfl
  · split <;> rfl

theorem lastCall_userService_update (hconn : s.manager.connection = true) (u : Update)
    (uid : Uid) :
    lastCall (userService uid) (s.update u).bus.calls =
      if uid ∈ s.manager.granted u.graphicalUsers u.forceActive then
        some (s.manager.unitCall (userService uid)
          (if userHasSystemdGraphical u.isDir uid then .activeUser else .inactiveUser))
      else if uid ∈ s.manager.revoked u.graphicalUsers ++
          s.manager.unknown u.allUsers u.graphicalUsers then
        some (s.manager.unitCall (userService uid) .inactiveUser)
      else lastCall (userService uid) s.bus.calls := by
  rw [calls_update hconn, lastCall_append, RManager.lastCall_updateCalls _ _
    (userService_ne_root uid) (RManager.lastCall_userService _ _ uid)]
  split
  · rfl
  · split <;> rfl

/-- What the stored arrays say about the calls issued so far; `wasGraphical`
are the users that were graphical in some earlier snapshot. -/
structure Converged (s : Daemon) (wasGraphical : Uid → Prop) : Prop where
  connection : s.manager.connection = true
  graphicalUsers : SortedUids s.manager.graphicalUsers
  allUsers : SortedUids s.manager.allUsers
  active : ∀ uid ∈ s.manager.graphicalUsers, s.Carries (userSlice uid) .activeUser
  inactive : ∀ uid, uid ∉ s.manager.graphicalUsers →
    uid ∈ s.manager.allUsers ∨ wasGraphical uid →
    s.Carries (userSlice uid) .inactiveUser ∧ s.Carries (userService uid) .inactiveUser

theorem converged_connected (availableRam : UInt64) (file : Option KeyFile) :
    Converged (connected availableRam file) fun _ => False := by
  have hempty : SortedUids [] := ⟨List.Pairwise.nil, by simp [SmallUids]⟩
  have hgraphical : (connected availableRam file).manager.graphicalUsers = [] := by
    simp only [connected]
    rw [RManager.readConfig_eq]
    rfl
  have hall : (connected availableRam file).manager.allUsers = [] := by
    simp only [connected]
    rw [RManager.readConfig_eq]
    rfl
  refine ⟨rfl, hgraphical ▸ hempty, hall ▸ hempty, ?_, ?_⟩
  · simp [hgraphical]
  · simp [hall]

theorem Converged.update {wasGraphical : Uid → Prop} (h : Converged s wasGraphical) {u : Update}
    (hu : u.Searchable) :
    Converged (s.update u) fun uid => wasGraphical uid ∨ uid ∈ u.graphicalUsers := by
  have hgranted (uid : Uid) : uid ∈ s.manager.granted u.graphicalUsers u.forceActive ↔
      uid ∈ u.graphicalUsers ∧ (u.forceActive = true ∨ uid ∉ s.manager.graphicalUsers) :=
    RManager.mem_granted h.graphicalUsers hu.graphicalUsers
  have hrevoked (uid : Uid) : uid ∈ s.manager.revoked u.graphicalUsers ↔
      uid ∈ s.manager.graphicalUsers ∧ uid ∉ u.graphicalUsers :=
    RManager.mem_revoked h.graphicalUsers hu.graphicalUsers
  have hunknown (uid : Uid) : uid ∈ s.manager.unknown u.allUsers u.graphicalUsers ↔
      uid ∈ u.allUsers ∧ uid ∉ u.graphicalUsers ∧ uid ∉ s.manager.allUsers :=
    RManager.mem_unknown h.allUsers hu.allUsers hu.graphicalUsers
  have hslice := lastCall_userSlice_update h.connection u
  have hservice := lastCall_userService_update h.connection u
  constructor
  · rw [connection_update]
    exact h.connection
  · rw [graphicalUsers_update]
    exact hu.graphicalUsers
  · rw [allUsers_update]
    exact hu.allUsers
  · intro uid huid
    rw [graphicalUsers_update] at huid
    rw [Carries, unitCall_update, hslice]
    by_cases hold : u.forceActive = true ∨ uid ∉ s.manager.graphicalUsers
    · simp [hgranted, huid, hold]
    · -- neither granted nor revoked: the call of an earlier update still stands
      have hstored : uid ∈ s.manager.graphicalUsers := not_not.mp (not_or.mp hold).2
      simpa [Carries, hgranted, hrevoked, hunknown, huid, hold] using h.active uid hstored
  · intro uid huid hwas
    rw [graphicalUsers_update] at huid
    rw [allUsers_update] at hwas
    replace hwas : uid ∈ u.allUsers ∨ wasGraphical uid := by
      rcases hwas with hall | hwas | hnow
      · exact .inl hall
      · exact .inr hwas
      · exact absurd hnow huid
    -- a user who was known before was revoked before
    have hnew (hstored : uid ∉ s.manager.graphicalUsers)
        (hknown : ¬ (uid ∈ u.allUsers ∧ uid ∉ s.manager.allUsers)) :
        s.Carries (userSlice uid) .inactiveUser ∧ s.Carries (userService uid) .inactiveUser := by
      refine h.inactive uid hstored (hwas.imp (fun hall => ?_) id)
      exact not_not.mp fun hnot => hknown ⟨hall, hnot⟩
    simp only [Carries, unitCall_update, hslice, hservice]
    by_cases hold : uid ∈ s.manager.graphicalUsers
    · simp [hgranted, hrevoked, huid, hold]
    · by_cases hknown : uid ∈ u.allUsers ∧ uid ∉ s.manager.allUsers
      · simp [hgranted, hunknown, huid, hknown]
      · simpa [Carries, hgranted, hrevoked, hunknown, huid, hold, hknown] using hnew hold hknown

theorem converged_updates (availableRam : UInt64) (file : Option KeyFile) {us : List Update}
    (hus : ∀ u ∈ us, u.Searchable) :
    Converged ((connected availableRam file).updates us)
      fun uid => ∃ u ∈ us, uid ∈ u.graphicalUsers := by
  induction us using List.reverseRecOn with
  | nil => simpa [updates] using converged_connected availableRam file
  | append_singleton us u ih =>
      have hstep := (ih fun v hv => hus v (by simp [hv])).update (hus u (by simp))
      rw [updates, List.foldl_append]
      simpa [updates, or_and_right, exists_or] using hstep

/-- An update that is not forced and brings nothing new issues no call. -/
theorem updateCalls_stored (h : SortedUids s.manager.graphicalUsers)
    (hall : SortedUids s.manager.allUsers) (isDir : CString → Bool) :
    s.manager.updateCalls isDir s.manager.allUsers s.manager.graphicalUsers false = [] := by
  have hrevoked : s.manager.revoked s.manager.graphicalUsers = [] :=
    List.eq_nil_iff_forall_not_mem.mpr fun uid => by simp [RManager.mem_revoked h h]
  have hunknown : s.manager.unknown s.manager.allUsers s.manager.graphicalUsers = [] :=
    List.eq_nil_iff_forall_not_mem.mpr fun uid => by
      simp only [RManager.mem_unknown hall hall h]
      tauto
  have hgranted : s.manager.granted s.manager.graphicalUsers false = [] :=
    List.eq_nil_iff_forall_not_mem.mpr fun uid => by simp [RManager.mem_granted h h]
  simp [RManager.updateCalls, RManager.revokeCalls, RManager.grantCalls, RManager.sliceCalls,
    hrevoked, hunknown, hgranted]

/-- After every update of any sequence, graphical users were last given the active
allocation, everybody else who is known or was graphical once was last given the
inactive one on both units, and an unforced update with the stored snapshot issues
nothing. -/
theorem updates_converge (availableRam : UInt64) (file : Option KeyFile) (us : List Update)
    (u : Update) (hus : ∀ v ∈ us, v.Searchable) (hu : u.Searchable) :
    let s := (connected availableRam file).updates us
    (∀ uid ∈ u.graphicalUsers, (s.update u).Carries (userSlice uid) .activeUser) ∧
    (∀ uid, uid ∉ u.graphicalUsers →
      uid ∈ u.allUsers ∨ (∃ v ∈ us, uid ∈ v.graphicalUsers) →
      (s.update u).Carries (userSlice uid) .inactiveUser ∧
        (s.update u).Carries (userService uid) .inactiveUser) ∧
    (u.forceActive = false → u.allUsers = s.manager.allUsers →
      u.graphicalUsers = s.manager.graphicalUsers →
      (s.update u).bus.calls = s.bus.calls) := by
  intro s
  have hbefore := converged_updates availableRam file hus
  have hafter := hbefore.update hu
  refine ⟨fun uid huid => hafter.active uid (by simpa using huid), fun uid huid hwas => ?_, ?_⟩
  · exact hafter.inactive uid (by simpa using huid) (by simpa using hwas.imp id .inl)
  · intro hforce hall hgraphical
    rw [calls_update hbefore.connection, hforce, hall, hgraphical,
      updateCalls_stored hbefore.graphicalUsers hbefore.allUsers, List.append_nil]

/-- Two users, one log-in each: the first user is revoked when the second one
takes over the screen. -/
theorem updates_converge_switch :
    (((connected 0 none).updates [⟨fun _ => true, [1000], [1000], false⟩]).update
        ⟨fun _ => true, [1000, 1001], [1001], false⟩).Carries (userSlice 1000) .inactiveUser :=
  ((updates_converge 0 none [⟨fun _ => true, [1000], [1000], false⟩]
    ⟨fun _ => true, [1000, 1001], [1001], false⟩ (by decide) (by decide)).2.1 1000 (by decide)
    (.inl (by decide))).1

end Daemon

end Uresourced
