import Uresourced.Manager.Lifecycle

/-!
The race between a log-in and the start of the user's own daemon.

The system daemon grants a user's service its resources only if the cgroup of
the user's daemon exists at that moment, and its view of logind lags behind. The
user's daemon therefore asks for an update once it is up. `System` puts one
system daemon next to logind and to any number of user daemons; `step` lets any
of them move. The result is that nothing is missed: once the system is quiet,
both units of every active user with a running daemon are protected.
-/

namespace Uresourced

open CString Runs

/-- The parties: the system daemon, what logind answers, whether a notification
waits on the monitor's file descriptor, whether the bus gave the name to the
daemon, the users whose daemon has a cgroup, those whose daemon has sent its
`Update` since, and the number of `Update` messages under way. -/
structure System where
  process : Process
  seats : List Seat
  uids : List Uid
  notified : Bool
  nameOwned : Bool
  cgroups : List Uid
  running : List Uid
  inFlight : ℕ
  deriving Repr

inductive LoginEvent
  | loginChange (seats : List Seat) (uids : List Uid)
  | start (file : Option KeyFile)
  | busAcquired (registered : Bool)
  | nameGranted
  | nameAcquired
  | logindChanged
  | logindQuiet
  | userDaemonStart (uid : Uid)
  | idleSystemDaemonUpdate (uid : Uid)
  | userDaemonExit (uid : Uid)
  | methodCall
  | reply

namespace System

def init (availableRam : UInt64) (seats : List Seat) (uids : List Uid) : System :=
  ⟨Process.init availableRam, seats, uids, false, false, [], [], 0⟩

def answers (s : System) : LogindAnswers := ⟨some s.seats, some s.uids⟩

def isDir (s : System) (path : CString) : Bool :=
  s.cgroups.any fun uid => uresourcedCgroup uid = path

/-- The step of one party. An `Update` that is sent while nobody owns the name
fails and is dropped. -/
def step (s : System) : LoginEvent → Option System
  | .loginChange seats uids => some { s with seats := seats, uids := uids, notified := true }
  | .start file =>
      -- the monitor is new, and the current state is read right away
      (s.process.step (.start s.answers file)).map fun p =>
        { s with process := p, notified := false }
  | .busAcquired registered =>
      (s.process.step (.busAcquired registered)).map fun p => { s with process := p }
  | .nameGranted =>
      if s.process.owning = .acquiring ∧ s.process.daemon.manager.busName then
        some { s with nameOwned := true }
      else none
  | .nameAcquired =>
      if s.nameOwned then
        (s.process.step (.nameAcquired s.isDir)).map fun p => { s with process := p }
      else none
  | .logindChanged =>
      if s.notified then
        (s.process.step .logindChanged).map fun p => { s with process := p, notified := false }
      else none
  | .logindQuiet =>
      (s.process.step (.logindQuiet s.answers s.isDir)).map fun p => { s with process := p }
  | .userDaemonStart uid =>
      if uid ∈ s.cgroups then none else some { s with cgroups := uid :: s.cgroups }
  | .idleSystemDaemonUpdate uid =>
      if uid ∈ s.cgroups ∧ uid ∉ s.running then
        some { s with
          running := uid :: s.running
          inFlight := if s.nameOwned then s.inFlight + 1 else s.inFlight }
      else none
  | .userDaemonExit uid =>
      some { s with
        cgroups := s.cgroups.filter (· ≠ uid)
        running := s.running.filter (· ≠ uid) }
  | .methodCall =>
      if 0 < s.inFlight then
        (s.process.step (.methodCall s.isDir)).map fun p =>
          { s with process := p, inFlight := s.inFlight - 1 }
      else none
  | .reply => (s.process.step .reply).map fun p => { s with process := p }

def timerArmed (s : System) : Bool := s.process.daemon.manager.login.any fun login => login.monDelay

/-- `name_acquired_cb` has run, and nothing is left to be dispatched. -/
structure Quiet (s : System) : Prop where
  owned : s.process.owning = .owned
  notified : s.notified = false
  timer : s.timerArmed = false
  inFlight : s.inFlight = 0

end System

/-! ### What an update does for the graphical users -/

namespace Daemon

variable {s : Daemon}

/-- The stored graphical users hold the active allocation, with their service
where `running` says so. -/
structure Holds (s : Daemon) (running : Uid → Prop) : Prop where
  sorted : SortedUids s.manager.graphicalUsers
  slice : ∀ uid ∈ s.manager.graphicalUsers, s.Carries (userSlice uid) .activeUser
  service : ∀ uid ∈ s.manager.graphicalUsers, running uid →
    s.Carries (userService uid) .activeUser

theorem holds_of_nil {running : Uid → Prop} (h : s.manager.graphicalUsers = []) :
    Holds s running := by
  refine ⟨h ▸ ⟨List.Pairwise.nil, by simp [SmallUids]⟩, ?_, ?_⟩ <;> simp [h]

theorem Holds.mono {running running' : Uid → Prop} (h : Holds s running)
    (hmono : ∀ uid, running' uid → running uid) : Holds s running' :=
  ⟨h.sorted, h.slice, fun uid huid hr => h.service uid huid (hmono uid hr)⟩

/-- A graphical user is granted resources or keeps them. -/
theorem notMem_revoked_unknown {u : Update} (hnew : SortedUids u.graphicalUsers) {uid : Uid}
    (huid : uid ∈ u.graphicalUsers) :
    uid ∉ s.manager.revoked u.graphicalUsers ++ s.manager.unknown u.allUsers u.graphicalUsers := by
  have hfound : GArray.binarySearch uidCmp u.graphicalUsers uid = true :=
    (binarySearch_uidCmp hnew (hnew.small uid huid)).mpr huid
  simp [RManager.revoked, RManager.unknown, hfound]

/-- The step lemma: a new user is granted resources at once, and its service
too where the daemon is seen; a forced update looks at all daemons again. -/
theorem Holds.update {running running' : Uid → Prop} (h : Holds s running)
    (hconn : s.manager.connection = true) {u : Update} (hnew : SortedUids u.graphicalUsers)
    (hdir : ∀ uid, running' uid → userHasSystemdGraphical u.isDir uid = true)
    (hknown : ∀ uid, running' uid → u.forceActive = true ∨ running uid) :
    Holds (s.update u) running' := by
  have hkept (uid : Uid) (huid : uid ∈ u.graphicalUsers)
      (hnot : uid ∉ s.manager.granted u.graphicalUsers u.forceActive) :
      u.forceActive ≠ true ∧ uid ∈ s.manager.graphicalUsers := by
    rw [RManager.mem_granted h.sorted hnew] at hnot
    exact ⟨fun hforce => hnot ⟨huid, .inl hforce⟩, not_not.mp fun hold => hnot ⟨huid, .inr hold⟩⟩
  refine ⟨(graphicalUsers_update s u).symm ▸ hnew, fun uid huid => ?_, fun uid huid hr => ?_⟩
  · rw [graphicalUsers_update] at huid
    rw [Carries, unitCall_update, lastCall_userSlice_update hconn,
      if_neg (notMem_revoked_unknown hnew huid)]
    split
    · rfl
    · next hnot => exact h.slice uid (hkept uid huid hnot).2
  · rw [graphicalUsers_update] at huid
    rw [Carries, unitCall_update, lastCall_userService_update hconn,
      if_neg (notMem_revoked_unknown hnew huid), hdir uid hr]
    split
    · rfl
    · next hnot =>
      obtain ⟨hforce, hstored⟩ := hkept uid huid hnot
      exact h.service uid hstored ((hknown uid hr).resolve_left hforce)

theorem updateFromLogin_eq {isDir : CString → Bool} {login : RSdLogin}
    (h : s.manager.login = some login) (forceActive : Bool) :
    s.updateFromLogin isDir forceActive =
      s.update ⟨isDir, login.allUsers, login.graphicalUsers, forceActive⟩ := by
  simp [updateFromLogin, h, update]

end Daemon

/-! ### The invariant -/

namespace System

structure View (s : System) (login : RSdLogin) : Prop where
  sorted : SortedUids login.graphicalUsers
  stored : s.process.owning = .owned →
    s.process.daemon.manager.graphicalUsers = login.graphicalUsers
  current : s.notified = false → login.monDelay = false →
    login.graphicalUsers = (RSdLogin.logindQuiet s.answers).graphicalUsers

/-- The users whose daemon runs and is not waiting for an answer. -/
def Served (s : System) (uid : Uid) : Prop := uid ∈ s.running ∧ s.inFlight = 0

structure Inv (s : System) : Prop where
  wf : s.process.Wf
  live : s.process.stopped = false
  small : RSdLogin.SmallSeats s.seats
  nameOwned : s.nameOwned = true → s.process.owning = .acquiring ∨ s.process.owning = .owned
  owned : s.process.owning = .owned → s.nameOwned = true
  handlers : s.process.handlers = if s.process.owning = .owned then 1 else 0
  started : s.process.owning ≠ .idle → s.process.daemon.manager.login ≠ none
  unowned : s.nameOwned = false → s.process.daemon.manager.graphicalUsers = []
  flight : 0 < s.inFlight → s.nameOwned = true
  running : ∀ uid ∈ s.running, uid ∈ s.cgroups
  view : ∀ login ∈ s.process.daemon.manager.login, s.View login
  holds : s.process.daemon.Holds s.Served

theorem Inv.sorted_quiet {s : System} (h : Inv s) :
    SortedUids (RSdLogin.logindQuiet s.answers).graphicalUsers :=
  (RSdLogin.graphicalUsers_logindQuiet h.small).1

theorem inv_init (availableRam : UInt64) {seats : List Seat} (uids : List Uid)
    (hsmall : RSdLogin.SmallSeats seats) : Inv (init availableRam seats uids) where
  wf := Process.wf_init availableRam
  live := rfl
  small := hsmall
  nameOwned := nofun
  owned := nofun
  handlers := rfl
  started h := absurd rfl h
  unowned _ := rfl
  flight := nofun
  running := nofun
  view := nofun
  holds := Daemon.holds_of_nil rfl

/-- A running daemon is seen by every update. -/
theorem Inv.userHasSystemdGraphical {s : System} (h : Inv s) {uid : Uid} (huid : uid ∈ s.running) :
    Daemon.userHasSystemdGraphical s.isDir uid = true :=
  List.any_eq_true.mpr ⟨uid, h.running uid huid, decide_eq_true rfl⟩

theorem Inv.nameOwned_eq_false {s : System} (h : Inv s)
    (hnot : s.process.owning ≠ .acquiring ∧ s.process.owning ≠ .owned) : s.nameOwned = false := by
  by_contra howned
  exact (h.nameOwned (Bool.not_eq_false _ ▸ howned)).elim hnot.1 hnot.2

theorem Inv.holds_update {s : System} (h : Inv s) {login : RSdLogin} {d : Daemon}
    (forceActive : Bool) (served : Uid → Prop) (hlogin : d.manager.login = some login)
    (hconn : d.manager.connection = true) (hsorted : SortedUids login.graphicalUsers)
    (hholds : d.Holds s.Served) (hrunning : ∀ uid, served uid → uid ∈ s.running)
    (hserved : ∀ uid, served uid → forceActive = true ∨ s.Served uid) :
    (d.updateFromLogin s.isDir forceActive).Holds served ∧
      (d.updateFromLogin s.isDir forceActive).manager.graphicalUsers = login.graphicalUsers := by
  rw [Daemon.updateFromLogin_eq hlogin]
  exact ⟨hholds.update hconn hsorted
    (fun uid huid => h.userHasSystemdGraphical (hrunning uid huid)) hserved,
    Daemon.graphicalUsers_update d _⟩

/-- Changes of logind keep the user ids small. -/
def SmallLogins (_ : System) : LoginEvent → Prop
  | .loginChange seats _ => RSdLogin.SmallSeats seats
  | _ => True

instance (s : System) : (e : LoginEvent) → Decidable (SmallLogins s e)
  | .loginChange seats _ => inferInstanceAs (Decidable (RSdLogin.SmallSeats seats))
  | .start _ | .busAcquired _ | .nameGranted | .nameAcquired | .logindChanged | .logindQuiet
  | .userDaemonStart _ | .idleSystemDaemonUpdate _ | .userDaemonExit _ | .methodCall | .reply =>
      isTrue trivial

theorem Inv.start {s t : System} {file : Option KeyFile} (h : Inv s)
    (hs : s.step (.start file) = some t) : Inv t := by
  obtain ⟨p, hp, rfl⟩ := Option.map_eq_some_iff.mp hs
  have hwf := h.wf.step hp
  simp only [Process.step, Option.ite_none_right_eq_some, Option.some.injEq] at hp
  obtain ⟨⟨hidle, _⟩, rfl⟩ := hp
  have hunowned := h.nameOwned_eq_false (by simp [hidle])
  have hlogin : (s.process.daemon.start s.answers file).manager.login =
      some (RSdLogin.logindQuiet s.answers) := by
    cases file <;> rfl
  have hstored : (s.process.daemon.start s.answers file).manager.graphicalUsers = [] := by
    rw [← h.unowned hunowned]
    cases file <;> rfl
  exact { h with
    wf := hwf
    nameOwned := by simp [hunowned]
    owned := by simp
    handlers := by simpa [hidle] using h.handlers
    started := fun _ => hlogin ▸ Option.some_ne_none _
    unowned := fun _ => hstored
    view := fun login hmem => by
      obtain rfl := Option.some.inj (hlogin.symm.trans hmem)
      exact ⟨h.sorted_quiet, by simp, fun _ _ => rfl⟩
    holds := Daemon.holds_of_nil hstored }

theorem Inv.busAcquired {s t : System} {registered : Bool} (h : Inv s)
    (hs : s.step (.busAcquired registered) = some t) : Inv t := by
  obtain ⟨p, hp, rfl⟩ := Option.map_eq_some_iff.mp hs
  have hwf := h.wf.step hp
  simp only [Process.step, Option.ite_none_right_eq_some, Option.some.injEq] at hp
  obtain ⟨⟨hconnecting, _⟩, rfl⟩ := hp
  have hunowned := h.nameOwned_eq_false (by simp [hconnecting])
  have hlogin : (s.process.daemon.busAcquiredCb registered).manager.login =
      s.process.daemon.manager.login := by
    cases registered <;> rfl
  have hstored : (s.process.daemon.busAcquiredCb registered).manager.graphicalUsers = [] := by
    rw [← h.unowned hunowned]
    cases registered <;> rfl
  exact { h with
    wf := hwf
    nameOwned := fun _ => .inl rfl
    owned := by simp
    handlers := by simpa [hconnecting] using h.handlers
    started := fun _ => hlogin ▸ h.started (by simp [hconnecting])
    unowned := fun _ => hstored
    view := fun login hmem => by
      have hview := h.view login (hlogin ▸ hmem)
      exact ⟨hview.sorted, by simp, hview.current⟩
    holds := Daemon.holds_of_nil hstored }

theorem Inv.nameAcquired {s t : System} (h : Inv s)
    (hs : s.step .nameAcquired = some t) : Inv t := by
  simp only [System.step, Option.ite_none_right_eq_some] at hs
  obtain ⟨howned, hs⟩ := hs
  obtain ⟨p, hp, rfl⟩ := Option.map_eq_some_iff.mp hs
  have hwf := h.wf.step hp
  simp only [Process.step, Option.ite_none_right_eq_some, Option.some.injEq] at hp
  obtain ⟨⟨hacquiring, _⟩, rfl⟩ := hp
  obtain ⟨login, hlogin⟩ := Option.ne_none_iff_exists'.mp (h.started (by simp [hacquiring]))
  have hview := h.view login hlogin
  obtain ⟨hholds, hstored⟩ := h.holds_update false s.Served hlogin
    (h.wf.connection (.inl hacquiring) h.live) hview.sorted h.holds (fun _ => And.left)
    fun _ => .inr
  have hkept := (Daemon.framed_updateFromLogin s.isDir s.process.daemon false).login
  exact { h with
    wf := hwf
    nameOwned := fun _ => .inr rfl
    owned := fun _ => howned
    handlers := by simpa [hacquiring] using h.handlers
    started := fun _ => (hkept.trans hlogin).trans_ne (Option.some_ne_none login)
    unowned := by simp [howned]
    view := fun login' hmem => by
      obtain rfl := Option.some.inj ((hkept.trans hlogin).symm.trans hmem)
      exact ⟨hview.sorted, fun _ => hstored, hview.current⟩
    holds := hholds }

theorem Inv.logindQuiet {s t : System} (h : Inv s) (hs : s.step .logindQuiet = some t) : Inv t := by
  obtain ⟨p, hp, rfl⟩ := Option.map_eq_some_iff.mp hs
  have hwf := h.wf.step hp
  simp only [Process.step] at hp
  split at hp
  · next hlogin =>
    obtain rfl := Option.some.inj hp
    set quiet := RSdLogin.logindQuiet s.answers
    have hset : (s.process.setLogin quiet).daemon.Holds s.Served :=
      ⟨h.holds.sorted, h.holds.slice, h.holds.service⟩
    have hhandlers : (s.process.setLogin quiet).handlers =
        if s.process.owning = .owned then 1 else 0 := h.handlers
    by_cases howned : s.process.owning = .owned
    · obtain ⟨hholds, hstored⟩ := h.holds_update false s.Served
        (d := (s.process.setLogin quiet).daemon) rfl (h.wf.connection (.inr howned) h.live)
        h.sorted_quiet hset (fun _ => And.left) fun _ => .inr
      have hkept := (Daemon.framed_updateFromLogin s.isDir (s.process.setLogin quiet).daemon
        false).login
      rw [if_pos howned] at hhandlers
      simp only [hhandlers, Function.iterate_one] at hwf ⊢
      exact { h with
        wf := hwf
        handlers := (if_pos howned).symm
        started := fun _ => hkept.trans_ne (Option.some_ne_none quiet)
        unowned := by simp [h.owned howned]
        view := fun login' hmem => by
          obtain rfl := Option.some.inj (hkept.symm.trans hmem)
          exact ⟨h.sorted_quiet, fun _ => hstored, fun _ _ => rfl⟩
        holds := hholds }
    · rw [if_neg howned] at hhandlers
      simp only [hhandlers, Function.iterate_zero, id_eq] at hwf ⊢
      exact { h with
        wf := hwf
        handlers := (if_neg howned).symm
        started := fun _ => Option.some_ne_none _
        view := fun login' hmem => by
          obtain rfl := Option.some.inj hmem
          exact ⟨h.sorted_quiet, fun hnow => absurd hnow howned, fun _ _ => rfl⟩
        holds := hset }
  · cases hp

/-- A daemon of a user is up: it asks for an update, which fails while nobody owns the name. -/
theorem Inv.idleSystemDaemonUpdate {s t : System} {uid : Uid} (h : Inv s)
    (hs : s.step (.idleSystemDaemonUpdate uid) = some t) : Inv t := by
  simp only [System.step, Option.ite_none_right_eq_some, Option.some.injEq] at hs
  obtain ⟨⟨hcgroup, _⟩, rfl⟩ := hs
  exact { h with
    flight := fun hflight => by
      by_contra hunowned
      simp only [hunowned] at hflight
      exact hunowned (h.flight hflight)
    running := fun u hu => (List.mem_cons.mp hu).elim (fun heq => heq ▸ hcgroup) (h.running u)
    view := fun login hlogin =>
      ⟨(h.view login hlogin).sorted, (h.view login hlogin).stored,
        (h.view login hlogin).current⟩
    holds := by
      cases howned : s.nameOwned with
      | false => exact Daemon.holds_of_nil (h.unowned howned)
      | true => exact h.holds.mono fun u hu => absurd hu.2 (by simp) }

theorem Inv.methodCall {s t : System} (h : Inv s) (hs : s.step .methodCall = some t) : Inv t := by
  simp only [System.step, Option.ite_none_right_eq_some] at hs
  obtain ⟨hflight, hs⟩ := hs
  obtain ⟨p, hp, rfl⟩ := Option.map_eq_some_iff.mp hs
  have hwf := h.wf.step hp
  simp only [Process.step, Option.ite_none_right_eq_some, Option.some.injEq] at hp
  obtain ⟨hobj, rfl⟩ := hp
  have hreached := h.wf.dbusObj hobj
  have howned := h.flight hflight
  obtain ⟨login, hlogin⟩ := Option.ne_none_iff_exists'.mp
    (h.started (by rcases hreached with hr | hr <;> simp [hr]))
  have hview := h.view login hlogin
  obtain ⟨hholds, hstored⟩ := h.holds_update true
    (fun uid => uid ∈ s.running ∧ s.inFlight - 1 = 0) hlogin
    (h.wf.connection hreached h.live) hview.sorted h.holds (fun _ => And.left)
    fun _ _ => .inl rfl
  have hkept := (Daemon.framed_updateFromLogin s.isDir s.process.daemon true).login
  exact { h with
    wf := hwf
    started := fun _ => (hkept.trans hlogin).trans_ne (Option.some_ne_none login)
    unowned := by simp [howned]
    flight := fun _ => howned
    view := fun login' hmem => by
      obtain rfl := Option.some.inj ((hkept.trans hlogin).symm.trans hmem)
      exact ⟨hview.sorted, fun _ => hstored, hview.current⟩
    holds := hholds }

theorem Inv.step {s t : System} {e : LoginEvent} (h : Inv s) (hsmall : SmallLogins s e)
    (hs : s.step e = some t) : Inv t := by
  cases e with
  | loginChange seats uids =>
      obtain rfl := Option.some.inj hs
      exact { h with
        small := hsmall
        view := fun login hlogin =>
          ⟨(h.view login hlogin).sorted, (h.view login hlogin).stored, by simp⟩ }
  | start file => exact h.start hs
  | busAcquired registered => exact h.busAcquired hs
  | nameGranted =>
      simp only [System.step, Option.ite_none_right_eq_some, Option.some.injEq] at hs
      obtain ⟨⟨hacquiring, _⟩, rfl⟩ := hs
      exact { h with
        nameOwned := fun _ => .inl hacquiring
        owned := fun _ => rfl
        unowned := by simp
        flight := fun _ => rfl
        view := fun login hlogin =>
          ⟨(h.view login hlogin).sorted, (h.view login hlogin).stored,
            (h.view login hlogin).current⟩ }
  | nameAcquired => exact h.nameAcquired hs
  | logindChanged =>
      simp only [System.step, Option.ite_none_right_eq_some] at hs
      obtain ⟨_, hs⟩ := hs
      obtain ⟨p, hp, rfl⟩ := Option.map_eq_some_iff.mp hs
      have hwf := h.wf.step hp
      obtain ⟨login, hlogin, rfl⟩ := Option.map_eq_some_iff.mp hp
      have hview := h.view login hlogin
      exact { h with
        wf := hwf
        started := fun _ => Option.some_ne_none _
        view := fun login' hmem => by
          obtain rfl := Option.some.inj hmem
          exact ⟨hview.sorted, hview.stored, fun _ hdelay => Bool.noConfusion hdelay⟩
        holds := ⟨h.holds.sorted, h.holds.slice, h.holds.service⟩ }
  | logindQuiet => exact h.logindQuiet hs
  | userDaemonStart uid =>
      simp only [System.step, Option.ite_none_left_eq_some, Option.some.injEq] at hs
      obtain ⟨_, rfl⟩ := hs
      exact { h with
        running := fun u hu => List.mem_cons_of_mem uid (h.running u hu)
        view := fun login hlogin =>
          ⟨(h.view login hlogin).sorted, (h.view login hlogin).stored,
            (h.view login hlogin).current⟩ }
  | idleSystemDaemonUpdate uid => exact h.idleSystemDaemonUpdate hs
  | userDaemonExit uid =>
      obtain rfl := Option.some.inj hs
      exact { h with
        running := fun u hu => by
          obtain ⟨hmem, hne⟩ := List.mem_filter.mp hu
          exact List.mem_filter.mpr ⟨h.running u hmem, hne⟩
        view := fun login hlogin =>
          ⟨(h.view login hlogin).sorted, (h.view login hlogin).stored,
            (h.view login hlogin).current⟩
        holds := h.holds.mono fun u hu => ⟨(List.mem_filter.mp hu.1).1, hu.2⟩ }
  | methodCall => exact h.methodCall hs
  | reply =>
      obtain ⟨p, hp, rfl⟩ := Option.map_eq_some_iff.mp hs
      have hwf := h.wf.step hp
      simp only [Process.step, Option.ite_none_right_eq_some, Option.some.injEq] at hp
      obtain ⟨_, rfl⟩ := hp
      exact { h with
        wf := hwf
        view := fun login hlogin =>
          ⟨(h.view login hlogin).sorted, (h.view login hlogin).stored,
            (h.view login hlogin).current⟩
        holds := ⟨h.holds.sorted, h.holds.slice, h.holds.service⟩ }

theorem inv_of_reachable {availableRam : UInt64} {seats : List Seat} {uids : List Uid}
    (hsmall : RSdLogin.SmallSeats seats) {s : System}
    (h : ReachableBy step SmallLogins (init availableRam seats uids) s) : Inv s :=
  h.invariant (inv_init availableRam uids hsmall) fun _ _ _ hinv hc hs => hinv.step hc hs

/-- Whatever the order of log-ins, timers, updates and starts was: when nothing is left
to be dispatched, both units of every user with an active session on a graphical seat
and a running daemon were last given the active allocation. -/
theorem race_closed {availableRam : UInt64} {seats : List Seat} {uids : List Uid}
    (hsmall : RSdLogin.SmallSeats seats) {s : System}
    (h : ReachableBy step SmallLogins (init availableRam seats uids) s) (hquiet : Quiet s)
    {uid : Uid} (hactive : ActiveOnGraphicalSeat s.seats uid) (hrunning : uid ∈ s.running) :
    s.process.daemon.Carries (userSlice uid) .activeUser ∧
      s.process.daemon.Carries (userService uid) .activeUser := by
  have hinv := inv_of_reachable hsmall h
  obtain ⟨login, hlogin⟩ := Option.ne_none_iff_exists'.mp (hinv.started (by simp [hquiet.owned]))
  have hview := hinv.view login hlogin
  have htimer : login.monDelay = false := by
    simpa [timerArmed, hlogin] using hquiet.timer
  have hstored : uid ∈ s.process.daemon.manager.graphicalUsers := by
    rw [hview.stored hquiet.owned, hview.current hquiet.notified htimer]
    exact ((RSdLogin.graphicalUsers_logindQuiet hinv.small).2 uid).mpr hactive
  exact ⟨hinv.holds.slice uid hstored, hinv.holds.service uid hstored ⟨hrunning, hquiet.inFlight⟩⟩

def occupiedSeat : Seat := ⟨some true, some [⟨some 1000, some true⟩]⟩

/-- A user logs in before the daemon has its name, and the user's daemon starts
after the user was found to be active. -/
def loginThenDaemon : List LoginEvent :=
  [.start none, .busAcquired true, .loginChange [occupiedSeat] [1000], .logindChanged,
    .nameGranted, .nameAcquired, .logindQuiet, .userDaemonStart 1000,
    .idleSystemDaemonUpdate 1000, .methodCall]

theorem race_closed_loginThenDaemon :
    ((checkedRun step SmallLogins (init 0 [] []) loginThenDaemon).get
      (by decide)).process.daemon.Carries (userService 1000) .activeUser :=
  (race_closed (by decide) (reachableBy_checkedRun (by decide))
    ⟨by decide, by decide, by decide, by decide⟩
    ⟨occupiedSeat, by decide, rfl, [⟨some 1000, some true⟩], rfl, ⟨some 1000, some true⟩,
      by decide, rfl, rfl⟩ (by decide)).2

end System

end Uresourced
