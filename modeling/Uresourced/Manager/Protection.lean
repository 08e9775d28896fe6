import Uresourced.Manager.Shutdown
import Uresourced.Manager.Budget
import Uresourced.Manager.SliceMemory
import Uresourced.Manager.LoginRace

/-!
What the calls of a process add up to, over whole runs.

`Guarded` collects what the results about sequences of updates say, without
their starting point, so that it can be carried through every callback of a
process: through the start, where the configuration changes, through updates
with whatever the login monitor holds, and through `r_manager_stop`. It is kept
as long as the steps are `Ordered`.
-/

namespace Uresourced

open CString Runs

/-! ### Calls as messages -/

def RManager.config (self : RManager) : RAllocation × RAllocation × UInt64 × UInt64 :=
  (self.activeUser, self.inactiveUser, self.maxUsersMemoryMin, self.maxUsersMemoryLow)

theorem RManager.unitCall_of_config {self other : RManager} (h : self.config = other.config) :
    self.unitCall = other.unitCall := by
  simp only [config, Prod.mk.injEq] at h
  obtain ⟨hactive, hinactive, hmin, hlow⟩ := h
  funext unit allocation
  cases allocation <;> simp [unitCall, RManager.allocation, hactive, hinactive, hmin, hlow]

theorem RManager.sliceUnwrapped_of_config {self other : RManager} {n : ℕ}
    (h : self.config = other.config) : self.SliceUnwrapped n ↔ other.SliceUnwrapped n := by
  simp only [config, Prod.mk.injEq] at h
  obtain ⟨hactive, _, hmin, hlow⟩ := h
  simp only [SliceUnwrapped, hactive, hmin, hlow]

theorem RManager.inactiveUser_of_config {self other : RManager} (h : self.config = other.config) :
    self.inactiveUser = other.inactiveUser := by
  simp only [config, Prod.mk.injEq] at h
  exact h.2.1

/-- A call that the manager makes: it carries what it names, and the calls for
`user.slice` are the ones that are computed from a number of users. -/
structure RManager.Makes (manager : RManager) (c : UnitCall) : Prop where
  eq : c = manager.unitCall c.unit c.allocation
  slice : c.unit = "user.slice".toList ↔ ∃ n, c.allocation = .alloc n
  unwrapped : ∀ n, c.allocation = .alloc n → manager.SliceUnwrapped n

theorem RManager.Makes.of_config {self other : RManager} {c : UnitCall}
    (hc : self.Makes c) (h : self.config = other.config) : other.Makes c where
  eq := unitCall_of_config h ▸ hc.eq
  slice := hc.slice
  unwrapped n hn := (sliceUnwrapped_of_config h).mp (hc.unwrapped n hn)

namespace RManager

variable (self : RManager) (isDir : CString → Bool)

theorem makes_userCalls {active : Bool} {uid : Uid} {c : UnitCall}
    (hc : c ∈ self.userCalls isDir active uid) : self.Makes c := by
  simp only [userCalls, List.mem_cons, List.not_mem_nil, or_false] at hc
  rcases hc with rfl | rfl
  · have halloc (n : ℕ) : (if active then .activeUser else .inactiveUser) ≠
        AllocationPtr.alloc n := by cases active <;> simp
    exact ⟨rfl, iff_of_false (userSlice_ne_root uid) (not_exists.mpr halloc),
      fun n hn => absurd hn (halloc n)⟩
  · have halloc (n : ℕ) : (if active && Daemon.userHasSystemdGraphical isDir uid then .activeUser
        else .inactiveUser) ≠ AllocationPtr.alloc n := by split <;> simp
    exact ⟨rfl, iff_of_false (userService_ne_root uid) (not_exists.mpr halloc),
      fun n hn => absurd hn (halloc n)⟩

theorem makes_sliceCalls {due : Bool} {n : ℕ} (hn : self.SliceUnwrapped n) {c : UnitCall}
    (hc : c ∈ self.sliceCalls due n) : self.Makes c := by
  cases due with
  | false => simp [sliceCalls] at hc
  | true =>
      simp only [sliceCalls, if_true, List.mem_singleton] at hc
      subst hc
      refine ⟨rfl, iff_of_true rfl ⟨n, rfl⟩, fun m hm => ?_⟩
      obtain rfl : n = m := AllocationPtr.alloc.inj hm
      exact hn

theorem makes_updateCalls {allUsers graphicalUsers : List Uid} {forceActive : Bool}
    (hn : self.SliceUnwrapped graphicalUsers.length) {c : UnitCall}
    (hc : c ∈ self.updateCalls isDir allUsers graphicalUsers forceActive) : self.Makes c := by
  have huser {active : Bool} {uids : List Uid}
      (h : c ∈ uids.flatMap (self.userCalls isDir active)) : self.Makes c := by
    obtain ⟨uid, _, hmem⟩ := List.mem_flatMap.mp h
    exact self.makes_userCalls isDir hmem
  simp only [updateCalls, revokeCalls, grantCalls, List.mem_append] at hc
  rcases hc with ((hc | hc) | hc) | hc
  · exact self.makes_sliceCalls hn hc
  · exact huser hc
  · exact huser hc
  · exact self.makes_sliceCalls hn hc

/-- No users are never too many. -/
theorem sliceUnwrapped_zero : self.SliceUnwrapped 0 := by
  have hzero (size : ℕ) : guint64Product 0 size = 0 * size := by
    rw [guint64Product_of_lt (by decide), Nat.zero_mul, Nat.zero_mod]
  exact ⟨.inl (hzero _), .inl (hzero _)⟩

theorem grantsWithin_userCalls (users uids : List Uid) :
    GrantsWithin users (uids.flatMap (self.userCalls isDir false)) := by
  intro c hc
  obtain ⟨uid, _, hmem⟩ := List.mem_flatMap.mp hc
  simp only [userCalls, List.mem_cons, List.not_mem_nil, or_false] at hmem
  rcases hmem with rfl | rfl
  · exact ⟨userSlice_ne_root uid, fun _ _ hactive => by simp [unitCall] at hactive⟩
  · exact ⟨userService_ne_root uid, fun _ _ hactive => by simp [unitCall] at hactive⟩

end RManager

/-! ### The invariant of the manager -/

namespace Daemon

/-- The stored arrays can be searched and tell who holds what, the call stream
is covered at every point, and it consists of messages of this manager. -/
structure Guarded (s : Daemon) : Prop where
  graphicalUsers : SortedUids s.manager.graphicalUsers
  allUsers : SortedUids s.manager.allUsers
  active : ∀ uid ∈ s.manager.graphicalUsers, s.Carries (userSlice uid) .activeUser
  inactive : ∀ uid ∈ s.manager.allUsers, uid ∉ s.manager.graphicalUsers →
    s.Carries (userSlice uid) .inactiveUser ∧ s.Carries (userService uid) .inactiveUser
  settled : ∀ uid, s.Settled uid
  budgeted : s.Budgeted
  makes : ∀ c ∈ s.bus.calls, s.manager.Makes c

variable {s t : Daemon}

theorem sortedUids_nil : SortedUids [] := ⟨.nil, by simp [SmallUids]⟩

structure Fresh (s : Daemon) : Prop where
  calls : s.bus.calls = []
  graphicalUsers : s.manager.graphicalUsers = []
  allUsers : s.manager.allUsers = []

theorem Fresh.guarded (h : Fresh s) : Guarded s := by
  obtain ⟨hcalls, hgraphical, hall⟩ := h
  have hnobody (uid : Uid) : ¬ HoldsActive [] uid := by simp [HoldsActive, lastCall]
  refine ⟨hgraphical ▸ sortedUids_nil, hall ▸ sortedUids_nil, ?_, ?_, fun uid => ?_, ?_, ?_⟩
  · simp [hgraphical]
  · simp [hall]
  · exact .inl ⟨by rw [hcalls]; rfl, by rw [hcalls]; rfl⟩
  · refine ⟨fun calls hprefix => ?_, fun uid huid => ?_, ?_⟩
    · rw [hcalls, List.prefix_nil] at hprefix
      subst hprefix
      exact @Covered.of_subset [] [] (fun uid huid => absurd huid (hnobody uid)) (Nat.zero_le _)
    · exact absurd (hcalls ▸ huid) (hnobody uid)
    · rw [hcalls, hgraphical]
      rfl
  · simp [hcalls]

structure SameUnits (s t : Daemon) : Prop where
  calls : t.bus.calls = s.bus.calls
  graphicalUsers : t.manager.graphicalUsers = s.manager.graphicalUsers
  allUsers : t.manager.allUsers = s.manager.allUsers
  config : t.manager.config = s.manager.config

theorem SameUnits.carries_iff (h : SameUnits s t) {unit : CString} {ptr : AllocationPtr} :
    t.Carries unit ptr ↔ s.Carries unit ptr := by
  rw [Carries, Carries, h.calls, RManager.unitCall_of_config h.config]

theorem Guarded.sameUnits (hs : Guarded s) (h : SameUnits s t) : Guarded t where
  graphicalUsers := h.graphicalUsers ▸ hs.graphicalUsers
  allUsers := h.allUsers ▸ hs.allUsers
  active uid huid := h.carries_iff.mpr (hs.active uid (h.graphicalUsers ▸ huid))
  inactive uid huid hnot := by
    rw [h.carries_iff, h.carries_iff]
    exact hs.inactive uid (h.allUsers ▸ huid) (h.graphicalUsers ▸ hnot)
  settled uid := by
    simp only [Settled, h.carries_iff, h.calls, h.graphicalUsers]
    exact hs.settled uid
  budgeted := ⟨h.calls ▸ hs.budgeted.prefixes, h.calls ▸ h.graphicalUsers ▸ hs.budgeted.holders,
    h.calls ▸ h.graphicalUsers ▸ hs.budgeted.budget_eq⟩
  makes c hc := (hs.makes c (h.calls ▸ hc)).of_config h.config.symm

/-! ### Updates -/

@[simp] theorem config_update (s : Daemon) (u : Update) :
    (s.update u).manager.config = s.manager.config := by
  obtain ⟨pending, h⟩ := update_manager s u
  rw [h]
  rfl

theorem Guarded.update (h : Guarded s) (hconn : s.manager.connection = true) {u : Update}
    (hu : u.Searchable) (hn : s.manager.SliceUnwrapped u.graphicalUsers.length) :
    Guarded (s.update u) := by
  have hbefore : Converged s fun _ => False :=
    ⟨hconn, h.graphicalUsers, h.allUsers, h.active,
      fun uid hnot hknown => h.inactive uid (hknown.resolve_right id) hnot⟩
  have hafter := hbefore.update hu
  refine ⟨hafter.graphicalUsers, hafter.allUsers, hafter.active,
    fun uid huid hnot => hafter.inactive uid hnot (.inl huid),
    fun uid => (h.settled uid).update hconn u, h.budgeted.update hconn h.graphicalUsers hu, ?_⟩
  intro c hc
  rw [calls_update hconn, List.mem_append] at hc
  rcases hc with hc | hc
  · exact (h.makes c hc).of_config (config_update s u).symm
  · exact (s.manager.makes_updateCalls u.isDir hn hc).of_config (config_update s u).symm

variable (isDir : CString → Bool)

/-- The arrays of the login monitor can be searched, and their number of users
is one that `user.slice` can be computed for. -/
structure Acceptable (s : Daemon) (login : RSdLogin) : Prop where
  allUsers : SortedUids login.allUsers
  graphicalUsers : SortedUids login.graphicalUsers
  unwrapped : s.manager.SliceUnwrapped login.graphicalUsers.length

instance (s : Daemon) (login : RSdLogin) : Decidable (s.Acceptable login) :=
  decidable_of_iff (SortedUids login.allUsers ∧ SortedUids login.graphicalUsers ∧
      s.manager.SliceUnwrapped login.graphicalUsers.length)
    ⟨fun h => ⟨h.1, h.2.1, h.2.2⟩, fun h => ⟨h.1, h.2, h.3⟩⟩

theorem Guarded.updateFromLogin (h : Guarded s) {forceActive : Bool}
    (hconn : s.manager.connection = true) (hlogin : ∀ login ∈ s.manager.login, s.Acceptable login) :
    Guarded (s.updateFromLogin isDir forceActive) := by
  cases hl : s.manager.login with
  | none =>
      rw [Daemon.updateFromLogin, hl]
      exact h
  | some login =>
      obtain ⟨hall, hgraphical, hn⟩ := hlogin login hl
      rw [updateFromLogin_eq hl forceActive]
      exact h.update hconn ⟨hall, hgraphical⟩ hn

@[simp] theorem config_updateFromLogin (s : Daemon) (forceActive : Bool) :
    (s.updateFromLogin isDir forceActive).manager.config = s.manager.config := by
  cases hl : s.manager.login with
  | none => rw [Daemon.updateFromLogin, hl]
  | some login => rw [updateFromLogin_eq hl forceActive, config_update]

theorem acceptable_updateFromLogin {forceActive : Bool} {login : RSdLogin} :
    (s.updateFromLogin isDir forceActive).Acceptable login ↔ s.Acceptable login := by
  have hn := @RManager.sliceUnwrapped_of_config _ _ login.graphicalUsers.length
    (config_updateFromLogin isDir s forceActive)
  exact ⟨fun h => ⟨h.allUsers, h.graphicalUsers, hn.mp h.unwrapped⟩,
    fun h => ⟨h.allUsers, h.graphicalUsers, hn.mpr h.unwrapped⟩⟩

theorem Guarded.iterate (h : Guarded s) (forceActive : Bool) (n : ℕ)
    (hconn : s.manager.connection = true)
    (hlogin : ∀ login ∈ s.manager.login, s.Acceptable login) :
    Guarded ((Daemon.updateFromLogin isDir · forceActive)^[n] s) := by
  induction n generalizing s with
  | zero => exact h
  | succ n ih =>
      have hframed := framed_updateFromLogin isDir s forceActive
      refine ih (h.updateFromLogin isDir hconn hlogin) (hframed.connection.trans hconn) ?_
      intro login hmem
      exact (acceptable_updateFromLogin isDir).mpr (hlogin login (hframed.login ▸ hmem))

theorem config_iterate (forceActive : Bool) (s : Daemon) (n : ℕ) :
    ((updateFromLogin isDir · forceActive)^[n] s).manager.config = s.manager.config := by
  induction n generalizing s with
  | zero => rfl
  | succ n ih => exact (ih _).trans (config_updateFromLogin isDir s forceActive)

theorem framed_updates (forceActive : Bool) (s : Daemon) (n : ℕ) :
    Framed s ((updateFromLogin isDir · forceActive)^[n] s) := by
  induction n generalizing s with
  | zero => exact .refl s
  | succ n ih => exact (framed_updateFromLogin isDir s forceActive).trans (ih _)

/-! ### Stopping -/

/-- The step lemma for `r_manager_stop`: where every stored graphical user is
listed, the users are revoked before the slice loses its protection. -/
theorem Guarded.stop (h : Guarded s) (hconn : s.manager.connection = true)
    (hlisted : ∀ uid ∈ s.manager.graphicalUsers, uid ∈ s.manager.allUsers) :
    Guarded (s.stop isDir) := by
  set self := s.manager with hself
  set revoked := s.bus.calls ++ self.allUsers.flatMap (self.userCalls isDir false) with hrevoked
  have hcalls : (s.stop isDir).bus.calls = revoked ++ self.sliceCalls true 0 := by
    rw [calls_stop isDir hconn, stopCalls, hrevoked, List.append_assoc]
  have hgraphical : (s.stop isDir).manager.graphicalUsers = [] := rfl
  have hall : (s.stop isDir).manager.allUsers = [] := rfl
  have hconfig : (s.stop isDir).manager.config = self.config := by
    rw [stop_eq, issue_manager]
    rfl
  have hwithin := self.grantsWithin_userCalls isDir self.graphicalUsers self.allUsers
  -- whoever is revoked holds nothing, and nobody else held anything
  have hnobody (uid : Uid) : ¬ HoldsActive revoked uid := by
    intro hholds
    have hmem := hlisted uid ((hholds.of_append hwithin).elim id (h.budgeted.holders uid))
    obtain ⟨c, hc, hactive⟩ := hholds
    rw [hrevoked, lastCall_append, RManager.lastCall_userSlice, if_pos hmem, Option.some_or,
      Option.some.injEq] at hc
    rw [← hc] at hactive
    cases hactive
  have hbudget : budget revoked = self.graphicalUsers.length :=
    (budget_append hwithin).trans h.budgeted.budget_eq
  have hlowered : budget (revoked ++ self.sliceCalls true 0) = 0 :=
    (self.budget_sliceCalls revoked true 0).trans (if_pos rfl)
  refine ⟨sortedUids_nil, sortedUids_nil, ?_, ?_, fun uid => ?_, ⟨fun calls hprefix => ?_, ?_, ?_⟩,
    ?_⟩
  · simp [hgraphical]
  · simp [hall]
  · simp only [Settled, Carries, unitCall_stop, lastCall_userSlice_stop isDir hconn,
      lastCall_userService_stop isDir hconn]
    by_cases hmem : uid ∈ s.manager.allUsers
    · simp [hmem]
    · simp only [hmem, if_false]
      rcases h.settled uid with hnone | hinactive | ⟨hactive, _⟩
      · exact .inl hnone
      · exact .inr (.inl hinactive)
      · exact absurd (hlisted uid hactive) hmem
  · rw [hcalls] at hprefix
    rcases prefix_append_cases hprefix with hprefix | ⟨q, rfl, hq⟩
    · rcases prefix_append_cases hprefix with hprefix | ⟨q, rfl, hq⟩
      · exact h.budgeted.prefixes calls hprefix
      · exact .prefix_of_grantsWithin hwithin h.budgeted.holders h.budgeted.budget_eq.ge hq
    · exact @RManager.covered_sliceCalls self revoked q [] true 0
        (fun uid huid => absurd huid (hnobody uid)) (Nat.zero_le _) (Nat.zero_le _) hq
  · intro uid huid
    rw [hcalls, RManager.holdsActive_sliceCalls] at huid
    exact absurd huid (hnobody uid)
  · rw [hcalls, hlowered, hgraphical]
    rfl
  · intro c hc
    refine RManager.Makes.of_config ?_ hconfig.symm
    rw [hcalls, hrevoked, List.append_assoc, List.mem_append, List.mem_append] at hc
    rcases hc with hc | hc | hc
    · exact h.makes c hc
    · obtain ⟨uid, _, hmem⟩ := List.mem_flatMap.mp hc
      exact self.makes_userCalls isDir hmem
    · exact self.makes_sliceCalls self.sliceUnwrapped_zero hc

end Daemon

/-! ### Callbacks of a process -/

namespace Daemon

variable {s t : Daemon}

def Issued (s t : Daemon) : Prop :=
  ∃ more, t.bus.calls = s.bus.calls ++ more ∧ t.bus.replies = s.bus.replies + more.length

theorem Issued.refl (s : Daemon) : Issued s s := ⟨[], by simp, by simp⟩

theorem Issued.trans {u : Daemon} (h : Issued s t) (h' : Issued t u) : Issued s u := by
  obtain ⟨more, hcalls, hreplies⟩ := h
  obtain ⟨more', hcalls', hreplies'⟩ := h'
  refine ⟨more ++ more', by rw [hcalls', hcalls, List.append_assoc], ?_⟩
  rw [hreplies', hreplies, List.length_append, Nat.add_assoc]

theorem issued_issue (s : Daemon) (cs : List UnitCall) : Issued s (s.issue cs) := by
  rw [Issued, issue_bus]
  split
  · exact ⟨cs, rfl, rfl⟩
  · exact Issued.refl s

variable (isDir : CString → Bool)

theorem issued_updateFromLogin (s : Daemon) (forceActive : Bool) :
    Issued s (s.updateFromLogin isDir forceActive) := by
  unfold updateFromLogin
  split
  · exact .refl s
  · rw [updatUserAllocations_eq]
    exact issued_issue s _

theorem issued_updates (forceActive : Bool) (s : Daemon) (n : ℕ) :
    Issued s ((updateFromLogin isDir · forceActive)^[n] s) := by
  induction n generalizing s with
  | zero => exact .refl s
  | succ n ih => exact (issued_updateFromLogin isDir s forceActive).trans (ih _)

theorem issued_stop (s : Daemon) : Issued s (s.stop isDir) := by
  rw [stop_eq]
  exact issued_issue s _

end Daemon

def Event.isStop : Event → Bool
  | .stop _ => true
  | _ => false

def Event.isReply : Event → Bool
  | .reply => true
  | _ => false

namespace Process

/-- The arrays that a callback makes the manager act on. -/
def snapshot (p : Process) : Event → Option RSdLogin
  | .nameAcquired _ | .methodCall _ => p.daemon.manager.login
  | .logindQuiet answers _ => some (RSdLogin.logindQuiet answers)
  | _ => none

/-- A callback that issues nothing. The configuration is only read by a process
that has not been started yet. -/
structure Quiet (p q : Process) : Prop where
  calls : q.daemon.bus.calls = p.daemon.bus.calls
  graphicalUsers : q.daemon.manager.graphicalUsers = p.daemon.manager.graphicalUsers
  allUsers : q.daemon.manager.allUsers = p.daemon.manager.allUsers
  inactiveUser : q.daemon.manager.inactiveUser = p.daemon.manager.inactiveUser
  config : p.owning ≠ .idle → q.daemon.manager.config = p.daemon.manager.config
  connection : q.daemon.manager.connection = false → p.daemon.manager.connection = false
  stopped : q.stopped = p.stopped
  idle : q.owning = .idle → p.owning = .idle ∧
    q.daemon.manager.connection = p.daemon.manager.connection

/-- What a callback does: it is quiet, it runs updates on a connection with the arrays
that it has found, or it stops the daemon. -/
theorem step_cases {p q : Process} {e : Event} (h : Wf p) (hs : p.step e = some q) :
    (e.isStop = false ∧ Quiet p q ∧
        q.daemon.bus.replies = p.daemon.bus.replies - e.isReply.toNat) ∨
      (e.isStop = false ∧ p.daemon.manager.connection = true ∧ q.stopped = p.stopped ∧
        (q.owning = .idle → p.owning = .idle) ∧ ∃ isDir forceActive n,
          q.daemon = (Daemon.updateFromLogin isDir · forceActive)^[n]
            { p.daemon with manager.login := p.snapshot e }) ∨
      ∃ isDir, e = .stop isDir ∧ p.owning ≠ .idle ∧ p.stopped = false ∧
        q = { p with daemon := p.daemon.stop isDir, stopped := true } := by
  cases e with
  | start answers file =>
      simp only [Process.step, Option.ite_none_right_eq_some, Option.some.injEq] at hs
      obtain ⟨⟨hidle, _⟩, rfl⟩ := hs
      refine .inl ⟨rfl, ⟨rfl, ?_, ?_, ?_, fun hne => absurd hidle hne, ?_, rfl,
        fun hq => by cases hq⟩, rfl⟩ <;>
        rw [Daemon.start, RManager.readConfig_eq]
      exact id
  | busAcquired registered =>
      simp only [Process.step, Option.ite_none_right_eq_some, Option.some.injEq] at hs
      obtain ⟨_, rfl⟩ := hs
      cases registered <;>
        exact .inl ⟨rfl, ⟨rfl, rfl, rfl, rfl, fun _ => rfl, Bool.noConfusion, rfl,
          fun hq => by cases hq⟩, rfl⟩
  | nameAcquired isDir =>
      simp only [Process.step, Option.ite_none_right_eq_some, Option.some.injEq] at hs
      obtain ⟨⟨hacquiring, hname⟩, rfl⟩ := hs
      exact .inr (.inl ⟨rfl, h.connection (.inl hacquiring) (h.not_stopped (.inl hname)), rfl,
        (fun hq => by cases hq), isDir, false, 1, rfl⟩)
  | nameLost =>
      simp only [Process.step, Option.ite_none_right_eq_some] at hs
      obtain ⟨_, hs⟩ := hs
      split at hs <;> cases hs <;>
        exact .inl ⟨rfl, ⟨rfl, rfl, rfl, rfl, fun _ => rfl, id, rfl, fun hq => by cases hq⟩, rfl⟩
  | logindChanged =>
      obtain ⟨login, _, rfl⟩ := Option.map_eq_some_iff.mp hs
      exact .inl ⟨rfl, ⟨rfl, rfl, rfl, rfl, fun _ => rfl, id, rfl, fun hq => ⟨hq, rfl⟩⟩, rfl⟩
  | logindQuiet answers isDir =>
      simp only [Process.step] at hs
      split at hs
      · next hlogin =>
        obtain rfl := Option.some.inj hs
        rcases Nat.eq_zero_or_pos p.handlers with hzero | hpos
        · simp only [setLogin, hzero, Function.iterate_zero, id]
          exact .inl ⟨rfl, ⟨rfl, rfl, rfl, rfl, fun _ => rfl, id, rfl, fun hq => ⟨hq, rfl⟩⟩, rfl⟩
        · exact .inr (.inl ⟨rfl, h.connection_of_handlers hpos (hlogin ▸ Option.some_ne_none _),
            rfl, id, isDir, false, p.handlers, rfl⟩)
      · cases hs
  | methodCall isDir =>
      simp only [Process.step, Option.ite_none_right_eq_some, Option.some.injEq] at hs
      obtain ⟨hobj, rfl⟩ := hs
      exact .inr (.inl ⟨rfl, h.connection (h.dbusObj hobj) (h.not_stopped (.inr hobj)), rfl, id,
        isDir, true, 1, rfl⟩)
  | stop isDir =>
      simp only [Process.step, Option.ite_none_right_eq_some, Option.some.injEq] at hs
      obtain ⟨⟨hidle, hstopped⟩, rfl⟩ := hs
      exact .inr (.inr ⟨isDir, rfl, hidle, hstopped, rfl⟩)
  | reply | nameDestroyed | objectDestroyed =>
      simp only [Process.step, Option.ite_none_right_eq_some, Option.some.injEq] at hs
      obtain ⟨_, rfl⟩ := hs
      exact .inl ⟨rfl, ⟨rfl, rfl, rfl, rfl, fun _ => rfl, id, rfl, fun hq => ⟨hq, rfl⟩⟩, rfl⟩

/-- Calls and replies stay in balance. -/
theorem issued_step {p q : Process} {e : Event} (h : Wf p) (hs : p.step e = some q)
    (hne : e.isReply = false) : Daemon.Issued p.daemon q.daemon := by
  rcases step_cases h hs with ⟨_, hquiet, hreplies⟩ |
    ⟨_, _, _, _, isDir, forceActive, n, hdaemon⟩ | ⟨isDir, rfl, _, _, rfl⟩
  · exact ⟨[], by simp [hquiet.calls], by simp [hreplies, hne]⟩
  · rw [hdaemon]
    exact Daemon.issued_updates isDir forceActive
      { p.daemon with manager.login := p.snapshot e } n
  · exact Daemon.issued_stop isDir p.daemon

/-- Once the daemon is stopped, no graphical user is stored. -/
theorem graphicalUsers_step_of_stopped {p q : Process} {e : Event} (h : Wf p)
    (hp : p.stopped = true → p.daemon.manager.graphicalUsers = []) (hs : p.step e = some q)
    (hq : q.stopped = true) : q.daemon.manager.graphicalUsers = [] := by
  rcases step_cases h hs with ⟨_, hquiet, _⟩ | ⟨_, _, hsame, _⟩ | ⟨isDir, rfl, _, _, rfl⟩
  · rw [hquiet.graphicalUsers]
    exact hp (hquiet.stopped ▸ hq)
  · have hstopped := hsame ▸ hq
    obtain ⟨hname, hobj, hlogin⟩ := h.stopped hstopped
    cases e <;> simp [step, hname, hobj, hlogin, hstopped] at hs <;> obtain ⟨_, rfl⟩ := hs <;>
      exact hp hstopped
  · rfl

/-! ### Runs of a process -/

/-- Updates act on arrays that can be searched, and when the daemon is stopped,
every graphical user is listed. -/
structure Ordered (p : Process) (e : Event) : Prop where
  acceptable : ∀ login ∈ p.snapshot e, p.daemon.Acceptable login
  listed : e.isStop = true →
    ∀ uid ∈ p.daemon.manager.graphicalUsers, uid ∈ p.daemon.manager.allUsers

instance (p : Process) (e : Event) : Decidable (p.Ordered e) :=
  haveI := List.decidableBAll (fun uid : Uid => uid ∈ p.daemon.manager.allUsers)
    p.daemon.manager.graphicalUsers
  decidable_of_iff ((∀ login ∈ p.snapshot e, p.daemon.Acceptable login) ∧ (e.isStop = true →
      ∀ uid ∈ p.daemon.manager.graphicalUsers, uid ∈ p.daemon.manager.allUsers))
    ⟨fun h => ⟨h.1, h.2⟩, fun h => ⟨h.1, h.2⟩⟩

structure Guarded (p : Process) : Prop where
  wf : Wf p
  idle : p.owning = .idle → p.daemon.manager.connection = false ∧ p.stopped = false
  fresh : p.daemon.manager.connection = false → p.stopped = false → p.daemon.Fresh
  inactiveUser : p.daemon.manager.inactiveUser = ⟨100, 100, 0, 0⟩
  guarded : p.daemon.Guarded

theorem guarded_init (availableRam : UInt64) : Guarded (init availableRam) where
  wf := wf_init availableRam
  idle _ := ⟨rfl, rfl⟩
  fresh _ _ := ⟨rfl, rfl, rfl⟩
  inactiveUser := rfl
  guarded := Daemon.Fresh.guarded ⟨rfl, rfl, rfl⟩

theorem Guarded.step {p q : Process} {e : Event} (h : Guarded p) (ho : Ordered p e)
    (hs : p.step e = some q) : Guarded q := by
  have hwf := h.wf.step hs
  rcases step_cases h.wf hs with ⟨_, hquiet, _⟩ |
    ⟨_, hconn, hstopped, hidle, isDir, forceActive, n, hdaemon⟩ | ⟨isDir, rfl, hidle, hstopped, rfl⟩
  · have hfresh (hp : p.daemon.Fresh) : q.daemon.Fresh :=
      ⟨hquiet.calls.trans hp.calls, hquiet.graphicalUsers.trans hp.graphicalUsers,
        hquiet.allUsers.trans hp.allUsers⟩
    refine ⟨hwf, fun hq => ?_, fun hc hr => ?_, hquiet.inactiveUser.trans h.inactiveUser, ?_⟩
    · obtain ⟨hp, hsame⟩ := hquiet.idle hq
      exact hsame ▸ hquiet.stopped ▸ h.idle hp
    · exact hfresh (h.fresh (hquiet.connection hc) (hquiet.stopped ▸ hr))
    · by_cases hp : p.owning = .idle
      · obtain ⟨hconn, hstopped⟩ := h.idle hp
        exact (hfresh (h.fresh hconn hstopped)).guarded
      · exact h.guarded.sameUnits
          ⟨hquiet.calls, hquiet.graphicalUsers, hquiet.allUsers, hquiet.config hp⟩
  · set t : Daemon := { p.daemon with manager.login := p.snapshot e } with ht
    have hguarded : t.Guarded := h.guarded.sameUnits ⟨rfl, rfl, rfl, rfl⟩
    -- the snapshot was acceptable, and no update changes what makes it so
    have hlogin (login : RSdLogin) (hmem : login ∈ t.manager.login) : t.Acceptable login :=
      ⟨(ho.acceptable login hmem).allUsers, (ho.acceptable login hmem).graphicalUsers,
        (ho.acceptable login hmem).unwrapped⟩
    have hframed := Daemon.framed_updates isDir forceActive t n
    rw [← hdaemon] at hframed
    refine ⟨hwf, fun hq => ?_, fun hc => ?_, ?_, ?_⟩
    · simp [(h.idle (hidle hq)).1] at hconn
    · simp [hframed.connection, ht, hconn] at hc
    · have hsame := Daemon.config_iterate isDir forceActive t n
      rw [← hdaemon] at hsame
      exact (RManager.inactiveUser_of_config hsame).trans h.inactiveUser
    · rw [hdaemon]
      exact hguarded.iterate isDir forceActive n hconn hlogin
  · refine ⟨hwf, fun hq => absurd hq hidle, by simp, ?_, ?_⟩
    · rw [Daemon.stop_eq, Daemon.issue_manager]
      exact h.inactiveUser
    · cases hconn : p.daemon.manager.connection with
      | true => exact h.guarded.stop isDir hconn (ho.listed rfl)
      -- without a connection nothing was ever issued
      | false =>
          obtain ⟨hcalls, _, _⟩ := h.fresh hconn hstopped
          refine Daemon.Fresh.guarded ⟨?_, rfl, rfl⟩
          rw [Daemon.stop_eq, Daemon.issue_bus, if_neg (by simp [hconn])]
          exact hcalls

end Process

end Uresourced
