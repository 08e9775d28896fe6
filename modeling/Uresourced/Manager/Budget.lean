import Mathlib.Data.Finset.Card
import Uresourced.Manager.Convergence

/-!
The memory budget of `user.slice` at every point of the call stream.

The parent's protection is computed from a number of active users, and it has
to be granted before the users below it are granted theirs and taken back after
theirs. `Covered` is the property of one point of the stream; an update raises
the number first, revokes, grants, and lowers the number last, and each of these
phases keeps the holders within one list of users that the number pays for.
-/

namespace Uresourced

open CString

def HoldsActive (calls : List UnitCall) (uid : Uid) : Prop :=
  ∃ c, lastCall (userSlice uid) calls = some c ∧ c.allocation = .activeUser

/-- The number of active users behind the last call for `user.slice`, 0 if
there was none. -/
def budget (calls : List UnitCall) : ℕ :=
  match lastCall "user.slice".toList calls with
  | some ⟨_, .alloc activeUsers, _⟩ => activeUsers
  | _ => 0

/-- No set of users that hold the active allocation is larger than the budget. -/
def Covered (calls : List UnitCall) : Prop :=
  ∀ users : Finset Uid, (∀ uid ∈ users, HoldsActive calls uid) → users.card ≤ budget calls

theorem Covered.of_subset {calls : List UnitCall} {users : List Uid}
    (hsub : ∀ uid, HoldsActive calls uid → uid ∈ users) (hlen : users.length ≤ budget calls) :
    Covered calls := by
  intro holders hholders
  have hsubset : holders ⊆ users.toFinset := fun uid huid =>
    List.mem_toFinset.mpr (hsub uid (hholders uid huid))
  calc
    holders.card ≤ users.toFinset.card := Finset.card_le_card hsubset
    _ ≤ users.length := users.toFinset_card_le
    _ ≤ budget calls := hlen

theorem prefix_append_cases {α : Type} {p l₁ l₂ : List α} (h : p <+: l₁ ++ l₂) :
    p <+: l₁ ∨ ∃ q, p = l₁ ++ q ∧ q <+: l₂ := by
  rcases List.prefix_or_prefix_of_prefix h (List.prefix_append l₁ l₂) with hp | ⟨q, rfl⟩
  · exact .inl hp
  · exact .inr ⟨q, rfl, (List.prefix_append_right_inj l₁).mp h⟩

/-! ### The phases of an update -/

def GrantsWithin (users : List Uid) (calls : List UnitCall) : Prop :=
  ∀ c ∈ calls, c.unit ≠ "user.slice".toList ∧
    ∀ uid, c.unit = userSlice uid → c.allocation = .activeUser → uid ∈ users

theorem budget_append {calls block : List UnitCall} {users : List Uid}
    (h : GrantsWithin users block) : budget (calls ++ block) = budget calls := by
  have hnone : lastCall "user.slice".toList block = none :=
    (LastWrite.last_eq_none _).mpr fun c hc => (h c hc).1
  rw [budget, budget, lastCall_append, hnone, Option.none_or]

theorem HoldsActive.of_append {calls block : List UnitCall} {users : List Uid} {uid : Uid}
    (h : GrantsWithin users block) (hholds : HoldsActive (calls ++ block) uid) :
    uid ∈ users ∨ HoldsActive calls uid := by
  obtain ⟨c, hc, hactive⟩ := hholds
  rw [lastCall_append] at hc
  cases hlast : lastCall (userSlice uid) block with
  | none =>
      rw [hlast, Option.none_or] at hc
      exact .inr ⟨c, hc, hactive⟩
  | some d =>
      rw [hlast, Option.some_or, Option.some.injEq] at hc
      obtain ⟨hmem, hunit⟩ := LastWrite.mem_of_last _ (hc ▸ hlast)
      exact .inl ((h c hmem).2 uid hunit hactive)

/-- Within a phase all prefixes are covered, when the holders before it and the
users it grants to fit into one list that the budget pays for. -/
theorem Covered.prefix_of_grantsWithin {calls block p : List UnitCall} {users : List Uid}
    (h : GrantsWithin users block) (hsub : ∀ uid, HoldsActive calls uid → uid ∈ users)
    (hlen : users.length ≤ budget calls) (hp : p <+: block) : Covered (calls ++ p) := by
  have hwithin : GrantsWithin users p := fun c hc => h c (hp.subset hc)
  refine .of_subset (fun uid huid => ?_) ((budget_append hwithin).symm ▸ hlen)
  exact (huid.of_append hwithin).elim id (hsub uid)

namespace RManager

variable (self : RManager) (isDir : CString → Bool)

theorem grantsWithin_grantCalls (graphicalUsers : List Uid) (forceActive : Bool) :
    GrantsWithin graphicalUsers (self.grantCalls isDir graphicalUsers forceActive) := by
  intro c hc
  obtain ⟨u, hu, hc⟩ := List.mem_flatMap.mp hc
  simp only [userCalls, List.mem_cons, List.not_mem_nil, or_false] at hc
  rcases hc with rfl | rfl
  · refine ⟨userSlice_ne_root u, fun uid hunit _ => ?_⟩
    exact userSlice_inj.mp hunit ▸ (List.mem_filter.mp hu).1
  · exact ⟨userService_ne_root u, fun uid hunit => absurd hunit (userService_ne_userSlice u uid)⟩

theorem grantsWithin_revokeCalls (users allUsers graphicalUsers : List Uid) :
    GrantsWithin users (self.revokeCalls isDir allUsers graphicalUsers) := by
  intro c hc
  obtain ⟨u, _, hc⟩ := List.mem_flatMap.mp hc
  simp only [userCalls, List.mem_cons, List.not_mem_nil, or_false] at hc
  rcases hc with rfl | rfl
  · exact ⟨userSlice_ne_root u, fun uid _ hactive => by simp [unitCall] at hactive⟩
  · exact ⟨userService_ne_root u, fun uid _ hactive => by simp [unitCall] at hactive⟩

/-- The call for `user.slice` sets the budget and touches nobody's slice. -/
theorem budget_sliceCalls (calls : List UnitCall) (due : Bool) (n : ℕ) :
    budget (calls ++ self.sliceCalls due n) = if due then n else budget calls := by
  cases due with
  | false => simp [sliceCalls]
  | true => simp [sliceCalls, budget, lastCall, LastWrite.last, unitCall]

theorem holdsActive_sliceCalls (calls : List UnitCall) (due : Bool) (n : ℕ) (uid : Uid) :
    HoldsActive (calls ++ self.sliceCalls due n) uid ↔ HoldsActive calls uid := by
  rw [HoldsActive, HoldsActive, lastCall_append, lastCall_sliceCalls self (userSlice_ne_root uid),
    Option.none_or]

/-- The call for `user.slice` is a phase of its own: it is covered where the
budget pays for all holders before and after it. -/
theorem covered_sliceCalls {calls p : List UnitCall} {users : List Uid} {due : Bool} {n : ℕ}
    (hsub : ∀ uid, HoldsActive calls uid → uid ∈ users) (hlen : users.length ≤ budget calls)
    (hlen' : users.length ≤ budget (calls ++ self.sliceCalls due n))
    (hp : p <+: self.sliceCalls due n) : Covered (calls ++ p) := by
  have hcases : p = [] ∨ p = self.sliceCalls due n := by
    cases due with
    | false => exact .inl (List.prefix_nil.mp hp)
    | true => simpa [sliceCalls, List.prefix_cons_iff] using hp
  rcases hcases with rfl | rfl
  · rw [List.append_nil]
    exact .of_subset hsub hlen
  · exact .of_subset (fun uid huid => hsub uid
      ((self.holdsActive_sliceCalls calls due n uid).mp huid)) hlen'

/-- After the revocations, a stored graphical user that still holds the active
allocation stays graphical. -/
theorem mem_of_holdsActive_revokeCalls {calls : List UnitCall} {allUsers graphicalUsers : List Uid}
    {uid : Uid} (hstored : SortedUids self.graphicalUsers) (hnew : SortedUids graphicalUsers)
    (hholds : HoldsActive (calls ++ self.revokeCalls isDir allUsers graphicalUsers) uid)
    (huid : uid ∈ self.graphicalUsers) : uid ∈ graphicalUsers := by
  by_contra hnot
  have hrevoked : uid ∈ self.revoked graphicalUsers := (mem_revoked hstored hnew).mpr ⟨huid, hnot⟩
  obtain ⟨c, hc, hactive⟩ := hholds
  rw [revokeCalls, lastCall_append, lastCall_userSlice,
    if_pos (List.mem_append_left _ hrevoked), Option.some_or, Option.some.injEq] at hc
  rw [← hc] at hactive
  cases hactive

end RManager

/-! ### The invariant -/

namespace Daemon

/-- The call stream is covered at every point, and the stored graphical users
contain all holders and are what the budget was computed from. -/
structure Budgeted (s : Daemon) : Prop where
  prefixes : ∀ calls, calls <+: s.bus.calls → Covered calls
  holders : ∀ uid, HoldsActive s.bus.calls uid → uid ∈ s.manager.graphicalUsers
  budget_eq : budget s.bus.calls = s.manager.graphicalUsers.length

variable {s : Daemon}

theorem budgeted_connected (availableRam : UInt64) (file : Option KeyFile) :
    Budgeted (connected availableRam file) := by
  have hgraphical : (connected availableRam file).manager.graphicalUsers = [] := by
    simp only [connected]
    rw [RManager.readConfig_eq]
    rfl
  have hnobody (uid : Uid) : ¬ HoldsActive [] uid := by simp [HoldsActive, lastCall]
  refine ⟨fun calls hcalls => ?_, fun uid huid => absurd huid (hnobody uid), ?_⟩
  · rw [List.prefix_nil.mp hcalls]
    exact @Covered.of_subset [] [] (fun uid huid => absurd huid (hnobody uid)) (Nat.zero_le _)
  · rw [hgraphical]
    rfl

theorem Budgeted.update (h : Budgeted s) (hconn : s.manager.connection = true)
    (hstored : SortedUids s.manager.graphicalUsers) {u : Update} (hu : u.Searchable) :
    Budgeted (s.update u) := by
  have hgraphical := graphicalUsers_update s u
  set self := s.manager with hself
  set old := self.graphicalUsers.length with hold
  set new := u.graphicalUsers.length with hnew
  -- the call stream after each of the phases
  let raised := s.bus.calls ++ self.sliceCalls (new > old) new
  let revoked := raised ++ self.revokeCalls u.isDir u.allUsers u.graphicalUsers
  let granted := revoked ++ self.grantCalls u.isDir u.graphicalUsers u.forceActive
  let lowered := granted ++ self.sliceCalls (new < old) new
  have hcalls : (s.update u).bus.calls = lowered := by
    rw [calls_update hconn]
    simp only [RManager.updateCalls, lowered, granted, revoked, raised, List.append_assoc, hnew,
      hold, hself]
  -- what the budget is there
  have hrevoke := self.grantsWithin_revokeCalls u.isDir self.graphicalUsers u.allUsers
    u.graphicalUsers
  have hgrant := self.grantsWithin_grantCalls u.isDir u.graphicalUsers u.forceActive
  have hbraised : budget raised = max new old := by
    have hbudget : budget s.bus.calls = old := h.budget_eq
    rw [show budget raised = _ from self.budget_sliceCalls _ _ _, hbudget]
    rcases lt_or_ge old new with hlt | hle
    · simp [hlt, hlt.le]
    · simp [hle, not_lt.mpr hle]
  have hbrevoked : budget revoked = max new old := (budget_append hrevoke).trans hbraised
  have hbgranted : budget granted = max new old := (budget_append hgrant).trans hbrevoked
  have hblowered : budget lowered = new := by
    rw [show budget lowered = _ from self.budget_sliceCalls _ _ _, hbgranted]
    rcases lt_or_ge new old with hlt | hle
    · simp [hlt]
    · simp [hle, not_lt.mpr hle]
  -- and who may hold the active allocation
  have hraised (uid : Uid) (huid : HoldsActive raised uid) : uid ∈ self.graphicalUsers :=
    h.holders uid ((self.holdsActive_sliceCalls _ _ _ uid).mp huid)
  have hrevoked (uid : Uid) (huid : HoldsActive revoked uid) : uid ∈ u.graphicalUsers :=
    self.mem_of_holdsActive_revokeCalls u.isDir hstored hu.graphicalUsers huid
      ((huid.of_append hrevoke).elim id (hraised uid))
  have hgranted (uid : Uid) (huid : HoldsActive granted uid) : uid ∈ u.graphicalUsers :=
    (huid.of_append hgrant).elim id (hrevoked uid)
  refine ⟨fun calls hprefix => ?_, fun uid huid => ?_, ?_⟩
  · rw [hcalls] at hprefix
    rcases prefix_append_cases hprefix with hprefix | ⟨q, rfl, hq⟩
    · rcases prefix_append_cases hprefix with hprefix | ⟨q, rfl, hq⟩
      · rcases prefix_append_cases hprefix with hprefix | ⟨q, rfl, hq⟩
        · rcases prefix_append_cases hprefix with hprefix | ⟨q, rfl, hq⟩
          · exact h.prefixes calls hprefix
          · exact self.covered_sliceCalls h.holders h.budget_eq.ge
              (hbraised.symm ▸ le_max_right new old) hq
        · exact .prefix_of_grantsWithin hrevoke hraised (hbraised.symm ▸ le_max_right new old) hq
      · exact .prefix_of_grantsWithin hgrant hrevoked (hbrevoked.symm ▸ le_max_left new old) hq
    · exact self.covered_sliceCalls hgranted (hbgranted.symm ▸ le_max_left new old)
        hblowered.ge hq
  · rw [hcalls] at huid
    exact hgraphical ▸ hgranted uid ((self.holdsActive_sliceCalls _ _ _ uid).mp huid)
  · rw [hcalls, hgraphical, hblowered]

theorem budgeted_updates (availableRam : UInt64) (file : Option KeyFile) {us : List Update}
    (hus : ∀ u ∈ us, u.Searchable) : Budgeted ((connected availableRam file).updates us) := by
  induction us using List.reverseRecOn with
  | nil => exact budgeted_connected availableRam file
  | append_singleton us u ih =>
      have hus' (v : Update) (hv : v ∈ us) : v.Searchable := hus v (List.mem_append_left _ hv)
      have hbefore := converged_updates availableRam file hus'
      rw [updates, List.foldl_append]
      exact (ih hus').update hbefore.connection hbefore.graphicalUsers (hus u (by simp))

/-- At every point of the call stream, also within an update, the slices of users that
hold the active allocation are at most as many as the active users that the allocation
of `user.slice` was computed from, and after an update these are the current graphical
users. -/
theorem updates_covered (availableRam : UInt64) (file : Option KeyFile) (us : List Update)
    (hus : ∀ u ∈ us, u.Searchable) :
    let s := (connected availableRam file).updates us
    (∀ calls, calls <+: s.bus.calls → Covered calls) ∧
      budget s.bus.calls = s.manager.graphicalUsers.length ∧
      ∀ u ∈ us.getLast?, s.manager.graphicalUsers = u.graphicalUsers := by
  intro s
  have h := budgeted_updates availableRam file hus
  refine ⟨h.prefixes, h.budget_eq, fun u hlast => ?_⟩
  obtain ⟨vs, rfl⟩ := List.getLast?_eq_some_iff.mp hlast
  have hsnoc : s = ((connected availableRam file).updates vs).update u := by
    simp only [s, updates, List.foldl_append, List.foldl_cons, List.foldl_nil]
  rw [hsnoc, graphicalUsers_update]

theorem updates_covered_swap :
    budget ((connected 0 none).updates [⟨fun _ => true, [1000], [1000], false⟩,
      ⟨fun _ => true, [1000, 1001], [1001], false⟩]).bus.calls = 1 :=
  (updates_covered 0 none [⟨fun _ => true, [1000], [1000], false⟩,
    ⟨fun _ => true, [1000, 1001], [1001], false⟩] (by decide)).2.1

end Daemon

end Uresourced
