import Mathlib.Data.Prod.Lex
import Uresourced.Manager.LoginRace

/-!
The system daemon always settles.

The log-in race is closed once nothing is left to be dispatched. Here it is shown
that this moment comes: from every reachable state in which the daemon still
wants its name, whatever order the pending callbacks run in, they run out, as
long as no user logs in and no user daemon comes or goes in the meantime. What
is under way is counted by `backlog`; an update issues new calls, but no new
reason for an update.
-/

namespace Uresourced

open CString Runs

namespace System

/-- The steps that what has happened so far still causes: the bus is reached and
gives the name away, once, and callbacks that are due run. -/
def Internal (s : System) : LoginEvent → Prop
  | .busAcquired registered => registered = true
  | .nameGranted => s.nameOwned = false
  | .nameAcquired | .logindChanged | .logindQuiet | .methodCall | .reply => True
  | .loginChange _ _ | .start _ | .userDaemonStart _ | .idleSystemDaemonUpdate _
  | .userDaemonExit _ => False

/-- As long as the daemon wants its name, it has reached the bus or will, and its
object is there with the name. -/
structure Registered (s : System) : Prop where
  reached : s.process.owning ≠ .noBus
  started : s.process.daemon.manager.busName = true → s.process.owning ≠ .idle
  object : s.process.daemon.manager.busName = true →
    s.process.owning = .acquiring ∨ s.process.owning = .owned →
    s.process.daemon.manager.dbusObj = true

theorem registered_init (availableRam : UInt64) (seats : List Seat) (uids : List Uid) :
    Registered (init availableRam seats uids) where
  reached := nofun
  started := nofun
  object := nofun

theorem Registered.same {s t : System} (h : Registered s)
    (howning : t.process.owning = s.process.owning)
    (hname : t.process.daemon.manager.busName = s.process.daemon.manager.busName)
    (hobj : t.process.daemon.manager.dbusObj = s.process.daemon.manager.dbusObj) :
    Registered t where
  reached := howning ▸ h.reached
  started hn := howning ▸ h.started (hname ▸ hn)
  object hn hr := hobj ▸ h.object (hname ▸ hn) (howning ▸ hr)

theorem Registered.step {s t : System} {e : LoginEvent} (h : Registered s)
    (hs : s.step e = some t) : Registered t := by
  cases e with
  | start file =>
      obtain ⟨p, hp, rfl⟩ := Option.map_eq_some_iff.mp hs
      simp only [Process.step, Option.ite_none_right_eq_some, Option.some.injEq] at hp
      obtain ⟨_, rfl⟩ := hp
      exact ⟨Owning.noConfusion, fun _ => Owning.noConfusion, fun _ => by simp⟩
  | busAcquired registered =>
      obtain ⟨p, hp, rfl⟩ := Option.map_eq_some_iff.mp hs
      simp only [Process.step, Option.ite_none_right_eq_some, Option.some.injEq] at hp
      obtain ⟨_, rfl⟩ := hp
      cases registered with
      | true => exact ⟨Owning.noConfusion, fun _ => Owning.noConfusion, fun _ _ => rfl⟩
      | false => exact ⟨Owning.noConfusion, fun _ => Owning.noConfusion, Bool.noConfusion⟩
  | nameAcquired =>
      simp only [System.step, Option.ite_none_right_eq_some] at hs
      obtain ⟨p, hp, rfl⟩ := Option.map_eq_some_iff.mp hs.2
      simp only [Process.step, Option.ite_none_right_eq_some, Option.some.injEq] at hp
      obtain ⟨⟨hacquiring, hname⟩, rfl⟩ := hp
      have hframed := Daemon.framed_updateFromLogin s.isDir s.process.daemon false
      exact ⟨Owning.noConfusion, fun _ => Owning.noConfusion,
        fun _ _ => hframed.dbusObj.trans (h.object hname (.inl hacquiring))⟩
  | logindQuiet =>
      obtain ⟨p, hp, rfl⟩ := Option.map_eq_some_iff.mp hs
      simp only [Process.step] at hp
      split at hp
      · obtain rfl := Option.some.inj hp
        have hframed := Daemon.framed_iterate s.isDir
          (s.process.setLogin (RSdLogin.logindQuiet s.answers)).daemon s.process.handlers
        exact h.same rfl hframed.busName hframed.dbusObj
      · cases hp
  | methodCall =>
      simp only [System.step, Option.ite_none_right_eq_some] at hs
      obtain ⟨p, hp, rfl⟩ := Option.map_eq_some_iff.mp hs.2
      simp only [Process.step, Option.ite_none_right_eq_some, Option.some.injEq] at hp
      obtain ⟨_, rfl⟩ := hp
      have hframed := Daemon.framed_updateFromLogin s.isDir s.process.daemon true
      exact h.same rfl hframed.busName hframed.dbusObj
  | logindChanged =>
      simp only [System.step, Option.ite_none_right_eq_some] at hs
      obtain ⟨p, hp, rfl⟩ := Option.map_eq_some_iff.mp hs.2
      obtain ⟨login, _, rfl⟩ := Option.map_eq_some_iff.mp hp
      exact h.same rfl rfl rfl
  | reply =>
      obtain ⟨p, hp, rfl⟩ := Option.map_eq_some_iff.mp hs
      simp only [Process.step, Option.ite_none_right_eq_some, Option.some.injEq] at hp
      obtain ⟨_, rfl⟩ := hp
      exact h.same rfl rfl rfl
  | nameGranted | userDaemonStart uid | idleSystemDaemonUpdate uid =>
      simp only [System.step, Option.ite_none_right_eq_some, Option.ite_none_left_eq_some,
        Option.some.injEq] at hs
      obtain ⟨_, rfl⟩ := hs
      exact h.same rfl rfl rfl
  | loginChange seats uids | userDaemonExit uid =>
      obtain rfl := Option.some.inj hs
      exact h.same rfl rfl rfl

/-! ### The backlog -/

def stage : Owning → ℕ
  | .connecting => 2
  | .acquiring => 1
  | .idle | .noBus | .owned => 0

/-- What is left to be dispatched, replies aside. A notification leads to a timer. -/
def backlog (s : System) : ℕ :=
  stage s.process.owning + (!s.nameOwned).toNat + 2 * s.notified.toNat + s.timerArmed.toNat +
    s.inFlight

/-- Replies come last: any update adds some. -/
def potential (s : System) : ℕ ×ₗ ℕ := toLex (s.backlog, s.process.daemon.bus.replies)

theorem potential_lt_of_backlog {s t : System} (h : t.backlog < s.backlog) :
    t.potential < s.potential := Prod.Lex.lt_iff.mpr (.inl h)

theorem potential_lt_of_replies {s t : System} (h : t.backlog = s.backlog)
    (hreplies : t.process.daemon.bus.replies < s.process.daemon.bus.replies) :
    t.potential < s.potential := Prod.Lex.lt_iff.mpr (.inr ⟨h, hreplies⟩)

theorem timerArmed_of_login {s t : System}
    (h : t.process.daemon.manager.login = s.process.daemon.manager.login) :
    t.timerArmed = s.timerArmed := by
  rw [timerArmed, h, timerArmed]

theorem timerArmed_of_some {s : System} {login : RSdLogin}
    (h : s.process.daemon.manager.login = some login) : s.timerArmed = login.monDelay := by
  rw [timerArmed, h, Option.any_some]

/-- A new snapshot comes with no timer. -/
theorem monDelay_logindQuiet (answers : LogindAnswers) :
    (RSdLogin.logindQuiet answers).monDelay = false := by
  unfold RSdLogin.logindQuiet
  split
  · rfl
  · split <;> rfl

/-- Every internal step uses up backlog, or is a reply, and leaves logind and the user
daemons alone. -/
theorem potential_lt {s t : System} {e : LoginEvent} (hi : s.Internal e)
    (hs : s.step e = some t) :
    t.potential < s.potential ∧ t.seats = s.seats ∧ t.running = s.running ∧
      t.process.daemon.manager.busName = s.process.daemon.manager.busName := by
  cases e with
  | busAcquired registered =>
      obtain rfl : registered = true := hi
      obtain ⟨p, hp, rfl⟩ := Option.map_eq_some_iff.mp hs
      simp only [Process.step, Option.ite_none_right_eq_some, Option.some.injEq] at hp
      obtain ⟨⟨hconnecting, hname⟩, rfl⟩ := hp
      refine ⟨potential_lt_of_backlog ?_, rfl, rfl, rfl⟩
      simp [backlog, stage, hconnecting, timerArmed, Daemon.busAcquiredCb]
  | nameGranted =>
      simp only [System.step, Option.ite_none_right_eq_some, Option.some.injEq] at hs
      obtain ⟨_, rfl⟩ := hs
      have hunowned : s.nameOwned = false := hi
      refine ⟨potential_lt_of_backlog ?_, rfl, rfl, rfl⟩
      simp [backlog, hunowned, timerArmed]
  | nameAcquired =>
      simp only [System.step, Option.ite_none_right_eq_some] at hs
      obtain ⟨p, hp, rfl⟩ := Option.map_eq_some_iff.mp hs.2
      simp only [Process.step, Option.ite_none_right_eq_some, Option.some.injEq] at hp
      obtain ⟨⟨hacquiring, _⟩, rfl⟩ := hp
      have hframed := Daemon.framed_updateFromLogin s.isDir s.process.daemon false
      refine ⟨potential_lt_of_backlog ?_, rfl, rfl, hframed.busName⟩
      rw [backlog, timerArmed_of_login (s := s) hframed.login, backlog, hacquiring]
      simp [stage]
  | logindChanged =>
      simp only [System.step, Option.ite_none_right_eq_some] at hs
      obtain ⟨hnotified, hs⟩ := hs
      obtain ⟨p, hp, rfl⟩ := Option.map_eq_some_iff.mp hs
      obtain ⟨login, _, rfl⟩ := Option.map_eq_some_iff.mp hp
      refine ⟨potential_lt_of_backlog ?_, rfl, rfl, rfl⟩
      -- a notification counts more than the timer that it arms
      have htimer := Bool.toNat_le (timerArmed { s with
        process := s.process.setLogin login.logindChanged, notified := false })
      simp only [backlog, hnotified, Process.setLogin, Bool.toNat_true,
        Bool.toNat_false] at htimer ⊢
      omega
  | logindQuiet =>
      obtain ⟨p, hp, rfl⟩ := Option.map_eq_some_iff.mp hs
      simp only [Process.step] at hp
      split at hp
      · next hlogin =>
        obtain rfl := Option.some.inj hp
        have hframed := Daemon.framed_iterate s.isDir
          (s.process.setLogin (RSdLogin.logindQuiet s.answers)).daemon s.process.handlers
        -- the timer is off afterwards, and an update arms none
        have harmed : s.timerArmed = true := by simp [timerArmed, hlogin]
        refine ⟨potential_lt_of_backlog ?_, rfl, rfl, hframed.busName⟩
        rw [backlog, timerArmed_of_some hframed.login, backlog, harmed]
        have hdisarmed : (RSdLogin.logindQuiet s.answers).monDelay = false :=
          monDelay_logindQuiet s.answers
        simp only [hdisarmed, Process.setLogin, Bool.toNat_true, Bool.toNat_false]
        omega
      · cases hp
  | methodCall =>
      simp only [System.step, Option.ite_none_right_eq_some] at hs
      obtain ⟨hflight, hs⟩ := hs
      obtain ⟨p, hp, rfl⟩ := Option.map_eq_some_iff.mp hs
      simp only [Process.step, Option.ite_none_right_eq_some, Option.some.injEq] at hp
      obtain ⟨_, rfl⟩ := hp
      have hframed := Daemon.framed_updateFromLogin s.isDir s.process.daemon true
      refine ⟨potential_lt_of_backlog ?_, rfl, rfl, hframed.busName⟩
      rw [backlog, timerArmed_of_login (s := s) hframed.login, backlog]
      simp only
      omega
  | reply =>
      obtain ⟨p, hp, rfl⟩ := Option.map_eq_some_iff.mp hs
      simp only [Process.step, Option.ite_none_right_eq_some, Option.some.injEq] at hp
      obtain ⟨hpos, rfl⟩ := hp
      exact ⟨potential_lt_of_replies rfl (Nat.sub_lt hpos Nat.one_pos), rfl, rfl, rfl⟩
  | loginChange | start | userDaemonStart | idleSystemDaemonUpdate | userDaemonExit =>
      exact hi.elim

/-! ### Progress -/

structure Wanting (s : System) : Prop where
  inv : Inv s
  registered : Registered s
  busName : s.process.daemon.manager.busName = true

theorem Wanting.step {s t : System} {e : LoginEvent} (h : Wanting s) (hi : s.Internal e)
    (hs : s.step e = some t) : Wanting t := by
  have hsmall : SmallLogins s e := by cases e <;> trivial
  exact ⟨h.inv.step hsmall hs, h.registered.step hs,
    (potential_lt hi hs).2.2.2.trans h.busName⟩

/-- As long as the system is not quiet, there is an internal step to take. -/
theorem Wanting.exists_step {s : System} (h : Wanting s) (hnot : ¬ Quiet s) :
    ∃ e t, s.Internal e ∧ s.step e = some t := by
  obtain ⟨hinv, hregistered, hname⟩ := h
  cases howning : s.process.owning with
  | idle => exact absurd howning (hregistered.started hname)
  | noBus => exact absurd howning hregistered.reached
  | connecting =>
      have hstep : (s.process.step (.busAcquired true)).isSome := by
        simp [Process.step, howning, hname]
      obtain ⟨p, hp⟩ := Option.isSome_iff_exists.mp hstep
      exact ⟨.busAcquired true, { s with process := p }, rfl, by simp [System.step, hp]⟩
  | acquiring =>
      cases howned : s.nameOwned with
      | false =>
          exact ⟨.nameGranted, { s with nameOwned := true }, howned, by
            simp [System.step, howning, hname]⟩
      | true =>
          have hstep : (s.process.step (.nameAcquired s.isDir)).isSome := by
            simp [Process.step, howning, hname]
          obtain ⟨p, hp⟩ := Option.isSome_iff_exists.mp hstep
          exact ⟨.nameAcquired, { s with process := p }, trivial, by
            simp [System.step, howned, hp]⟩
  | owned =>
      obtain ⟨login, hlogin⟩ := Option.ne_none_iff_exists'.mp (hinv.started (by simp [howning]))
      by_cases hnotified : s.notified = true
      · exact ⟨.logindChanged, { s with
          process := s.process.setLogin login.logindChanged, notified := false }, trivial, by
            simp [System.step, Process.step, hnotified, hlogin]⟩
      · by_cases htimer : s.timerArmed = true
        · have hdelay : login.monDelay = true := by simpa [timerArmed, hlogin] using htimer
          have hstep : (s.process.step (.logindQuiet s.answers s.isDir)).isSome := by
            obtain ⟨delay, graphicalUsers, allUsers⟩ := login
            obtain rfl : delay = true := hdelay
            simp [Process.step, hlogin]
          obtain ⟨p, hp⟩ := Option.isSome_iff_exists.mp hstep
          exact ⟨.logindQuiet, { s with process := p }, trivial, by simp [System.step, hp]⟩
        -- without a notification and a timer, an `Update` is all that is left
        · have hflight : 0 < s.inFlight := by
            by_contra hzero
            exact hnot ⟨howning, Bool.eq_false_of_not_eq_true hnotified,
              Bool.eq_false_of_not_eq_true htimer, Nat.eq_zero_of_not_pos hzero⟩
          have hobj := hregistered.object hname (.inr howning)
          have hstep : (s.process.step (.methodCall s.isDir)).isSome := by
            simp [Process.step, hobj]
          obtain ⟨p, hp⟩ := Option.isSome_iff_exists.mp hstep
          exact ⟨.methodCall, { s with process := p, inFlight := s.inFlight - 1 }, trivial, by
            simp [System.step, hflight, hp]⟩

/-- What a quiet system has done for its users. -/
theorem Inv.carries_of_quiet {s : System} (h : Inv s) (hquiet : Quiet s) {uid : Uid}
    (hactive : ActiveOnGraphicalSeat s.seats uid) :
    s.process.daemon.Carries (userSlice uid) .activeUser ∧
      (uid ∈ s.running → s.process.daemon.Carries (userService uid) .activeUser) := by
  obtain ⟨login, hlogin⟩ := Option.ne_none_iff_exists'.mp (h.started (by simp [hquiet.owned]))
  have hview := h.view login hlogin
  have htimer : login.monDelay = false := by simpa [timerArmed, hlogin] using hquiet.timer
  have hstored : uid ∈ s.process.daemon.manager.graphicalUsers := by
    rw [hview.stored hquiet.owned, hview.current hquiet.notified htimer]
    exact ((RSdLogin.graphicalUsers_logindQuiet h.small).2 uid).mpr hactive
  exact ⟨h.holds.slice uid hstored, fun hrunning =>
    h.holds.service uid hstored ⟨hrunning, hquiet.inFlight⟩⟩

/-- From every reachable state in which it wants its name, any run of the steps that are
still due gets to a quiet system and cannot go on for ever or get stuck before; there
every user who was active on a graphical seat has been given the active allocation, with
the service if the user's daemon had asked. -/
theorem settles {availableRam : UInt64} {seats : List Seat} {uids : List Uid}
    (hsmall : RSdLogin.SmallSeats seats) {s : System}
    (h : ReachableBy step SmallLogins (init availableRam seats uids) s)
    (hname : s.process.daemon.manager.busName = true) :
    Ends step Internal (fun _ => True)
      (fun t => Quiet t ∧ ∀ uid, ActiveOnGraphicalSeat s.seats uid →
        t.process.daemon.Carries (userSlice uid) .activeUser ∧
          (uid ∈ s.running → t.process.daemon.Carries (userService uid) .activeUser)) s := by
  have hregistered : Registered s :=
    h.invariant (registered_init availableRam seats uids) fun _ _ _ hr _ hs => hr.step hs
  have hdone {t : System} (ht : Wanting t) (hseats : t.seats = s.seats)
      (hrunning : t.running = s.running) (hquiet : Quiet t) :
      Quiet t ∧ ∀ uid, ActiveOnGraphicalSeat s.seats uid →
        t.process.daemon.Carries (userSlice uid) .activeUser ∧
          (uid ∈ s.running → t.process.daemon.Carries (userService uid) .activeUser) :=
    ⟨hquiet, fun uid hactive => hrunning ▸ ht.inv.carries_of_quiet hquiet (hseats ▸ hactive)⟩
  have hwanting : Wanting s := ⟨inv_of_reachable hsmall h, hregistered, hname⟩
  by_cases hquiet : Quiet s
  · exact .done trivial (hdone hwanting rfl rfl hquiet)
  · refine Ends.of_wellFounded potential
      (P := fun t => Wanting t ∧ t.seats = s.seats ∧ t.running = s.running ∧ ¬ Quiet t)
      (fun _ _ => trivial) (fun t ht => ?_) (fun t e t' ht hi hs => ?_)
      ⟨hwanting, rfl, rfl, hquiet⟩
    · obtain ⟨e, t', hi, hs⟩ := ht.1.exists_step ht.2.2.2
      exact ⟨e, t', hi, hs⟩
    · obtain ⟨hwant, hseats, hrunning, _⟩ := ht
      obtain ⟨hlt, hseats', hrunning', _⟩ := potential_lt hi hs
      by_cases hquiet' : Quiet t'
      · exact .inr (.done trivial (hdone (hwant.step hi hs) (hseats'.trans hseats)
          (hrunning'.trans hrunning) hquiet'))
      · exact .inl ⟨⟨hwant.step hi hs, hseats'.trans hseats, hrunning'.trans hrunning, hquiet'⟩,
          hlt⟩

def loginAtStart : List LoginEvent :=
  [.start none, .loginChange [occupiedSeat] [1000], .userDaemonStart 1000,
    .idleSystemDaemonUpdate 1000]

theorem settles_loginAtStart :
    ∃ e t, ((checkedRun step SmallLogins (init 0 [] []) loginAtStart).get (by decide)).Internal e ∧
      ((checkedRun step SmallLogins (init 0 [] []) loginAtStart).get (by decide)).step e = some t :=
  ((settles (by decide) (reachableBy_checkedRun (by decide)) (by decide)).next_of_not
    fun h => absurd h.1.owned (by decide)).1

end System

end Uresourced
