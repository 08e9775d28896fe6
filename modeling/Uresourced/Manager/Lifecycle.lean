import Uresourced.Lib.Runs
import Uresourced.Manager.Convergence

/-!
`r-manager.c`: starting and stopping, the callbacks of the bus name, and the
count of pending calls.

`Process` is one system daemon from `r_manager_start` to the end of
`r_manager_flush`; `step` lets GLib run one callback, in any order that GLib
allows. `pending_calls` has to agree with what GDBus still owes, or the loop in
`r_manager_flush` waits for a callback that never comes.
-/

namespace Uresourced

open CString Runs

/-! ### Entry points and callbacks -/

namespace Daemon

def start (s : Daemon) (answers : LogindAnswers) (file : Option KeyFile) : Daemon :=
  let self := { s.manager with login := some (RSdLogin.init answers) }
  let self := self.readConfig file
  { manager := { self with pendingCalls := self.pendingCalls + 1, busName := true }
    bus := { s.bus with nameNotify := true } }

/-- `decrease_pending_calls`, and what `set_unit_resources_cb` does to the count. -/
def decreasePendingCalls (s : Daemon) : Daemon :=
  { s with manager := { s.manager with pendingCalls := s.manager.pendingCalls - 1 } }

/-- `bus_acquired_cb`; `registered` says whether
`g_dbus_connection_register_object` succeeds. -/
def busAcquiredCb (s : Daemon) (registered : Bool) : Daemon :=
  let self := { s.manager with
    connection := true
    pendingCalls := s.manager.pendingCalls + 1
    dbusObj := registered }
  let s : Daemon := ⟨self, { s.bus with objectNotify := registered }⟩
  if registered then s
  else
    let s := s.decreasePendingCalls
    { s with manager := { s.manager with busName := false } }

section Update

variable (isDir : CString → Bool)

/-- `updat_user_allocations`, with the arrays of the login monitor. -/
def updateFromLogin (s : Daemon) (forceActive : Bool) : Daemon :=
  match s.manager.login with
  | none => s
  | some login =>
      s.updatUserAllocations isDir login.allUsers login.graphicalUsers forceActive

def activeUsersChangedCb (s : Daemon) : Daemon := s.updateFromLogin isDir false

def handleDbusMethodCall (s : Daemon) : Daemon := s.updateFromLogin isDir true

def stop (s : Daemon) : Daemon :=
  -- set as if no user is active
  let s := s.manager.allUsers.foldl (fun s uid => s.setUserResources isDir uid false) s
  let s := s.setUserSliceResources 0
  { s with
    manager := { s.manager with
      graphicalUsers := []
      allUsers := []
      login := none
      dbusObj := false
      busName := false
      connection := false } }

end Update

def stopCalls (s : Daemon) (isDir : CString → Bool) : List UnitCall :=
  s.manager.allUsers.flatMap (s.manager.userCalls isDir false) ++ s.manager.sliceCalls true 0

theorem stopCalls_length_pos (s : Daemon) (isDir : CString → Bool) :
    0 < (s.stopCalls isDir).length := by
  rw [stopCalls, List.length_append, RManager.sliceCalls, if_pos rfl, List.length_singleton]
  omega

theorem stop_eq (s : Daemon) (isDir : CString → Bool) :
    s.stop isDir =
      { s.issue (s.stopCalls isDir) with
        manager := { (s.issue (s.stopCalls isDir)).manager with
          graphicalUsers := []
          allUsers := []
          login := none
          dbusObj := false
          busName := false
          connection := false } } := by
  have hfold := foldl_setUserResources isDir (fun _ => true) false s.manager.allUsers s
  simp only [if_true, List.filter_true] at hfold
  have hslice := setUserSliceResources_eq
    (s.issue (s.manager.allUsers.flatMap (s.manager.userCalls isDir false))) True 0
  simp only [if_true, decide_true, sliceCalls_issue] at hslice
  simp only [stop, stopCalls, hfold, hslice, issue_append]

end Daemon

/-! ### A run of the system daemon -/

inductive Owning
  | idle
  | connecting
  | noBus
  | acquiring
  | owned
  deriving DecidableEq, Repr

/-- A system daemon: the manager with its D-Bus side, the number of handlers
that are connected to `changed`, whether `quit` was emitted, and whether
`r_manager_stop` has run. -/
structure Process where
  daemon : Daemon
  owning : Owning
  handlers : ℕ
  quit : Bool
  stopped : Bool
  deriving DecidableEq, Repr

/-- What can happen to the daemon. The answers of logind and of the file system
are part of the event that asks for them. -/
inductive Event
  | start (answers : LogindAnswers) (file : Option KeyFile)
  | busAcquired (registered : Bool)
  | nameAcquired (isDir : CString → Bool)
  | nameLost
  | logindChanged
  | logindQuiet (answers : LogindAnswers) (isDir : CString → Bool)
  | methodCall (isDir : CString → Bool)
  | stop (isDir : CString → Bool)
  | reply
  | nameDestroyed
  | objectDestroyed

namespace Process

def init (availableRam : UInt64) : Process :=
  ⟨⟨RManager.init availableRam, GDBus.init⟩, .idle, 0, false, false⟩

def setLogin (p : Process) (login : RSdLogin) : Process :=
  { p with daemon.manager.login := some login }

/-- One callback. The callbacks of the name run until it is unowned; the
monitor and the exported object call back until they are gone; the destroy
notifications follow the unowning and the unregistering. -/
def step (p : Process) : Event → Option Process
  | .start answers file =>
      if p.owning = .idle ∧ p.stopped = false then
        some { p with daemon := p.daemon.start answers file, owning := .connecting }
      else none
  | .busAcquired registered =>
      if p.owning = .connecting ∧ p.daemon.manager.busName then
        some { p with
          daemon := p.daemon.busAcquiredCb registered
          owning := .acquiring
          quit := p.quit || !registered }
      else none
  | .nameAcquired isDir =>
      if p.owning = .acquiring ∧ p.daemon.manager.busName then
        some { p with
          daemon := p.daemon.activeUsersChangedCb isDir
          owning := .owned
          handlers := p.handlers + 1 }
      else none
  | .nameLost =>
      if p.daemon.manager.busName then
        match p.owning with
        -- the connection is NULL: the bus was never reached
        | .connecting => some { p with owning := .noBus, quit := true }
        | .acquiring | .owned => some { p with owning := .acquiring, quit := true }
        | .idle | .noBus => none
      else none
  | .logindChanged => p.daemon.manager.login.map fun login => p.setLogin login.logindChanged
  | .logindQuiet answers isDir =>
      match p.daemon.manager.login with
      | some ⟨true, _, _⟩ =>
          let p := p.setLogin (RSdLogin.logindQuiet answers)
          some { p with daemon := (Daemon.activeUsersChangedCb isDir)^[p.handlers] p.daemon }
      | _ => none
  | .methodCall isDir =>
      if p.daemon.manager.dbusObj then
        some { p with daemon := p.daemon.handleDbusMethodCall isDir }
      else none
  | .stop isDir =>
      if p.owning ≠ .idle ∧ p.stopped = false then
        some { p with daemon := p.daemon.stop isDir, stopped := true }
      else none
  | .reply =>
      if 0 < p.daemon.bus.replies then
        some { p with daemon :=
          { p.daemon.decreasePendingCalls with
            bus := { p.daemon.bus with replies := p.daemon.bus.replies - 1 } } }
      else none
  | .nameDestroyed =>
      if p.daemon.bus.nameNotify ∧ p.daemon.manager.busName = false then
        some { p with daemon :=
          { p.daemon.decreasePendingCalls with bus := { p.daemon.bus with nameNotify := false } } }
      else none
  | .objectDestroyed =>
      if p.daemon.bus.objectNotify ∧ p.daemon.manager.dbusObj = false then
        some { p with daemon :=
          { p.daemon.decreasePendingCalls with
            bus := { p.daemon.bus with objectNotify := false } } }
      else none

end Process

/-! ### What an update leaves alone -/

def GDBus.outstanding (bus : GDBus) : ℕ :=
  bus.replies + bus.nameNotify.toNat + bus.objectNotify.toNat

namespace Daemon

/-- By how much `pending_calls` is too large. -/
def imbalance (s : Daemon) : Int := s.manager.pendingCalls - s.bus.outstanding

theorem imbalance_issue (s : Daemon) (cs : List UnitCall) :
    (s.issue cs).imbalance =
      s.imbalance + if s.manager.connection then 0 else (cs.length : Int) := by
  cases h : s.manager.connection with
  | false => simp [imbalance, issue_manager, issue_bus, h, add_sub_right_comm]
  | true =>
      simp only [imbalance, GDBus.outstanding, issue_manager, issue_bus, h, if_true]
      push_cast
      omega

structure Framed (s t : Daemon) : Prop where
  connection : t.manager.connection = s.manager.connection
  busName : t.manager.busName = s.manager.busName
  dbusObj : t.manager.dbusObj = s.manager.dbusObj
  login : t.manager.login = s.manager.login
  nameNotify : t.bus.nameNotify = s.bus.nameNotify
  objectNotify : t.bus.objectNotify = s.bus.objectNotify
  imbalance : s.manager.connection = true → t.imbalance = s.imbalance

theorem Framed.refl (s : Daemon) : Framed s s := ⟨rfl, rfl, rfl, rfl, rfl, rfl, fun _ => rfl⟩

theorem Framed.trans {s t u : Daemon} (h : Framed s t) (h' : Framed t u) : Framed s u where
  connection := h'.connection.trans h.connection
  busName := h'.busName.trans h.busName
  dbusObj := h'.dbusObj.trans h.dbusObj
  login := h'.login.trans h.login
  nameNotify := h'.nameNotify.trans h.nameNotify
  objectNotify := h'.objectNotify.trans h.objectNotify
  imbalance hconn := (h'.imbalance (h.connection.trans hconn)).trans (h.imbalance hconn)

variable (isDir : CString → Bool)

theorem framed_updatUserAllocations (s : Daemon) (allUsers graphicalUsers : List Uid)
    (forceActive : Bool) :
    Framed s (s.updatUserAllocations isDir allUsers graphicalUsers forceActive) := by
  rw [updatUserAllocations_eq]
  set cs := s.manager.updateCalls isDir allUsers graphicalUsers forceActive
  have himbalance := s.imbalance_issue cs
  constructor
  · simp [issue_manager]
  · simp [issue_manager]
  · simp [issue_manager]
  · simp [issue_manager]
  · rw [issue_bus]
    split <;> rfl
  · rw [issue_bus]
    split <;> rfl
  · intro hconn
    simpa [imbalance, hconn] using himbalance

theorem framed_updateFromLogin (s : Daemon) (forceActive : Bool) :
    Framed s (s.updateFromLogin isDir forceActive) := by
  unfold updateFromLogin
  split
  · exact .refl s
  · exact framed_updatUserAllocations isDir s _ _ forceActive

theorem framed_iterate (s : Daemon) (n : ℕ) :
    Framed s ((activeUsersChangedCb isDir)^[n] s) := by
  induction n generalizing s with
  | zero => exact .refl s
  | succ n ih => exact (framed_updateFromLogin isDir s false).trans (ih _)

theorem imbalance_stop (s : Daemon) :
    (s.stop isDir).imbalance =
      s.imbalance + if s.manager.connection then 0 else ((s.stopCalls isDir).length : Int) := by
  rw [stop_eq, ← imbalance_issue]
  rfl

end Daemon

/-! ### The count of pending calls -/

namespace Process

/-- How the progress of the bus name goes with the state of the manager. -/
structure Wf (p : Process) : Prop where
  idle : p.owning = .idle → p.daemon.bus.nameNotify = false ∧ p.daemon.manager.login = none
  started : p.owning = .idle ∨ p.owning = .connecting → p.daemon.bus.objectNotify = false
  connection : p.owning = .acquiring ∨ p.owning = .owned → p.stopped = false →
    p.daemon.manager.connection = true
  handlers : 0 < p.handlers → p.owning = .acquiring ∨ p.owning = .owned
  dbusObj : p.daemon.manager.dbusObj = true → p.owning = .acquiring ∨ p.owning = .owned
  stopped : p.stopped = true → p.daemon.manager.busName = false ∧
    p.daemon.manager.dbusObj = false ∧ p.daemon.manager.login = none

theorem wf_init (availableRam : UInt64) : Wf (init availableRam) := by
  constructor <;> simp [init, GDBus.init, RManager.init]

theorem Wf.framed {p : Process} (h : Wf p) {t : Daemon} (ht : Daemon.Framed p.daemon t) :
    Wf { p with daemon := t } where
  idle hidle := ⟨ht.nameNotify.trans (h.idle hidle).1, ht.login.trans (h.idle hidle).2⟩
  started hstarted := ht.objectNotify.trans (h.started hstarted)
  connection hreached hstopped := ht.connection.trans (h.connection hreached hstopped)
  handlers := h.handlers
  dbusObj hobj := h.dbusObj (ht.dbusObj ▸ hobj)
  stopped hstopped := by
    obtain ⟨hname, hobj, hlogin⟩ := h.stopped hstopped
    exact ⟨ht.busName.trans hname, ht.dbusObj.trans hobj, ht.login.trans hlogin⟩

theorem Wf.setLogin {p : Process} (h : Wf p) {login : RSdLogin}
    (hlogin : p.daemon.manager.login ≠ none) : Wf (p.setLogin login) where
  idle hidle := absurd (h.idle hidle).2 hlogin
  started := h.started
  connection := h.connection
  handlers := h.handlers
  dbusObj := h.dbusObj
  stopped hstopped := absurd (h.stopped hstopped).2.2 hlogin

theorem Wf.not_stopped {p : Process} (h : Wf p)
    (hlive : p.daemon.manager.busName = true ∨ p.daemon.manager.dbusObj = true) :
    p.stopped = false := by
  by_contra hstopped
  obtain ⟨hname, hobj, _⟩ := h.stopped (Bool.not_eq_false _ ▸ hstopped)
  simp [hname, hobj] at hlive

/-- Before `r_manager_stop` a process that can issue calls has a connection. -/
theorem Wf.connection_of_handlers {p : Process} (h : Wf p) (hhandlers : 0 < p.handlers)
    (hlogin : p.daemon.manager.login ≠ none) : p.daemon.manager.connection = true := by
  apply h.connection (h.handlers hhandlers)
  by_contra hstopped
  exact hlogin (h.stopped (Bool.not_eq_false _ ▸ hstopped)).2.2

theorem Wf.step {p q : Process} {e : Event} (h : Wf p) (hs : p.step e = some q) : Wf q := by
  cases e with
  | start answers file =>
      simp only [Process.step, Option.ite_none_right_eq_some, Option.some.injEq] at hs
      obtain ⟨⟨hidle, hstopped⟩, rfl⟩ := hs
      refine ⟨nofun, fun _ => h.started (.inl hidle), nofun, fun hh => ?_, fun hobj => ?_, ?_⟩
      · simpa [hidle] using h.handlers hh
      · simp only [Daemon.start] at hobj
        rw [RManager.readConfig_eq] at hobj
        simpa [hidle] using h.dbusObj hobj
      · simp [hstopped]
  | busAcquired registered =>
      simp only [Process.step, Option.ite_none_right_eq_some, Option.some.injEq] at hs
      obtain ⟨⟨hconnecting, hname⟩, rfl⟩ := hs
      refine ⟨nofun, by simp, fun _ _ => ?_, fun _ => .inl rfl, fun _ => .inl rfl,
        fun hstopped => ?_⟩
      · cases registered <;> rfl
      · simp [(h.stopped hstopped).1] at hname
  | nameAcquired isDir =>
      simp only [Process.step, Option.ite_none_right_eq_some, Option.some.injEq] at hs
      obtain ⟨⟨hacquiring, hname⟩, rfl⟩ := hs
      have hframed := h.framed (Daemon.framed_updateFromLogin isDir p.daemon false)
      refine ⟨nofun, by simp, fun _ => hframed.connection (.inl hacquiring), fun _ => .inr rfl,
        fun _ => .inr rfl, hframed.stopped⟩
  | nameLost =>
      simp only [Process.step, Option.ite_none_right_eq_some] at hs
      obtain ⟨hname, hs⟩ := hs
      have hstopped := h.not_stopped (.inl hname)
      split at hs
      · next hconnecting =>
        obtain rfl := Option.some.inj hs
        refine ⟨nofun, by simp, by simp, fun hh => ?_, fun hobj => ?_, by simp [hstopped]⟩
        · simpa [hconnecting] using h.handlers hh
        · simpa [hconnecting] using h.dbusObj hobj
      · next hacquiring =>
        obtain rfl := Option.some.inj hs
        exact ⟨nofun, by simp, fun _ => h.connection (.inl hacquiring), fun _ => .inl rfl,
          fun _ => .inl rfl, h.stopped⟩
      · next howned =>
        obtain rfl := Option.some.inj hs
        exact ⟨nofun, by simp, fun _ => h.connection (.inr howned), fun _ => .inl rfl,
          fun _ => .inl rfl, h.stopped⟩
      · cases hs
      · cases hs
  | logindChanged =>
      obtain ⟨login, hlogin, rfl⟩ := Option.map_eq_some_iff.mp hs
      exact h.setLogin (hlogin ▸ Option.some_ne_none login)
  | logindQuiet answers isDir =>
      simp only [Process.step] at hs
      split at hs
      · next hlogin =>
        obtain rfl := Option.some.inj hs
        have hset : Wf (p.setLogin (RSdLogin.logindQuiet answers)) :=
          h.setLogin (hlogin ▸ Option.some_ne_none _)
        exact hset.framed (Daemon.framed_iterate isDir _ _)
      · cases hs
  | methodCall isDir =>
      simp only [Process.step, Option.ite_none_right_eq_some, Option.some.injEq] at hs
      obtain ⟨_, rfl⟩ := hs
      exact h.framed (Daemon.framed_updateFromLogin isDir p.daemon true)
  | stop isDir =>
      simp only [Process.step, Option.ite_none_right_eq_some, Option.some.injEq] at hs
      obtain ⟨⟨hidle, hstopped⟩, rfl⟩ := hs
      refine ⟨fun hidle' => absurd hidle' hidle, fun hstarted => ?_, by simp, h.handlers, ?_, ?_⟩
      · rw [Daemon.stop_eq, Daemon.issue_bus]
        split <;> exact h.started hstarted
      · simp [Daemon.stop]
      · simp [Daemon.stop]
  | reply =>
      simp only [Process.step, Option.ite_none_right_eq_some, Option.some.injEq] at hs
      obtain ⟨_, rfl⟩ := hs
      exact ⟨h.idle, h.started, h.connection, h.handlers, h.dbusObj, h.stopped⟩
  | nameDestroyed =>
      simp only [Process.step, Option.ite_none_right_eq_some, Option.some.injEq] at hs
      obtain ⟨_, rfl⟩ := hs
      exact ⟨fun hidle => ⟨rfl, (h.idle hidle).2⟩, h.started, h.connection, h.handlers, h.dbusObj,
        h.stopped⟩
  | objectDestroyed =>
      simp only [Process.step, Option.ite_none_right_eq_some, Option.some.injEq] at hs
      obtain ⟨_, rfl⟩ := hs
      exact ⟨h.idle, fun _ => rfl, h.connection, h.handlers, h.dbusObj, h.stopped⟩

theorem imbalance_step {p q : Process} {e : Event} (h : Wf p) (hs : p.step e = some q) :
    (∃ isDir, e = .stop isDir ∧ q.daemon.imbalance = p.daemon.imbalance +
        if p.daemon.manager.connection then 0 else ((p.daemon.stopCalls isDir).length : Int)) ∨
      (∀ isDir, e ≠ .stop isDir) ∧ q.daemon.imbalance = p.daemon.imbalance := by
  cases e with
  | start answers file =>
      simp only [Process.step, Option.ite_none_right_eq_some, Option.some.injEq] at hs
      obtain ⟨⟨hidle, _⟩, rfl⟩ := hs
      refine .inr ⟨nofun, ?_⟩
      simp only [Daemon.imbalance, Daemon.start, GDBus.outstanding, (h.idle hidle).1]
      rw [RManager.readConfig_eq]
      simp
      omega
  | busAcquired registered =>
      simp only [Process.step, Option.ite_none_right_eq_some, Option.some.injEq] at hs
      obtain ⟨⟨hconnecting, _⟩, rfl⟩ := hs
      refine .inr ⟨nofun, ?_⟩
      have hobject := h.started (.inr hconnecting)
      cases registered <;>
        simp [Daemon.imbalance, Daemon.busAcquiredCb, Daemon.decreasePendingCalls,
          GDBus.outstanding, hobject]
  | nameAcquired isDir =>
      simp only [Process.step, Option.ite_none_right_eq_some, Option.some.injEq] at hs
      obtain ⟨⟨hacquiring, hname⟩, rfl⟩ := hs
      have hstopped := h.not_stopped (.inl hname)
      exact .inr ⟨nofun, (Daemon.framed_updateFromLogin isDir p.daemon false).imbalance
        (h.connection (.inl hacquiring) hstopped)⟩
  | nameLost =>
      simp only [Process.step, Option.ite_none_right_eq_some] at hs
      obtain ⟨_, hs⟩ := hs
      refine .inr ⟨nofun, ?_⟩
      split at hs <;> cases hs <;> rfl
  | logindChanged =>
      obtain ⟨login, _, rfl⟩ := Option.map_eq_some_iff.mp hs
      exact .inr ⟨nofun, rfl⟩
  | logindQuiet answers isDir =>
      simp only [Process.step] at hs
      split at hs
      · next hlogin =>
        obtain rfl := Option.some.inj hs
        refine .inr ⟨nofun, ?_⟩
        rcases Nat.eq_zero_or_pos p.handlers with hzero | hpos
        · simp [setLogin, hzero, Daemon.imbalance]
        · exact (Daemon.framed_iterate isDir _ _).imbalance
            (h.connection_of_handlers hpos (hlogin ▸ Option.some_ne_none _))
      · cases hs
  | methodCall isDir =>
      simp only [Process.step, Option.ite_none_right_eq_some, Option.some.injEq] at hs
      obtain ⟨hobj, rfl⟩ := hs
      have hstopped := h.not_stopped (.inr hobj)
      exact .inr ⟨nofun, (Daemon.framed_updateFromLogin isDir p.daemon true).imbalance
        (h.connection (h.dbusObj hobj) hstopped)⟩
  | stop isDir =>
      simp only [Process.step, Option.ite_none_right_eq_some, Option.some.injEq] at hs
      obtain ⟨_, rfl⟩ := hs
      exact .inl ⟨isDir, rfl, Daemon.imbalance_stop isDir p.daemon⟩
  | reply =>
      simp only [Process.step, Option.ite_none_right_eq_some, Option.some.injEq] at hs
      obtain ⟨hreplies, rfl⟩ := hs
      refine .inr ⟨nofun, ?_⟩
      simp only [Daemon.imbalance, Daemon.decreasePendingCalls, GDBus.outstanding]
      omega
  | nameDestroyed =>
      simp only [Process.step, Option.ite_none_right_eq_some, Option.some.injEq] at hs
      obtain ⟨⟨hnotify, _⟩, rfl⟩ := hs
      refine .inr ⟨nofun, ?_⟩
      simp [Daemon.imbalance, Daemon.decreasePendingCalls, GDBus.outstanding, hnotify]
      omega
  | objectDestroyed =>
      simp only [Process.step, Option.ite_none_right_eq_some, Option.some.injEq] at hs
      obtain ⟨⟨hnotify, _⟩, rfl⟩ := hs
      refine .inr ⟨nofun, ?_⟩
      simp [Daemon.imbalance, Daemon.decreasePendingCalls, GDBus.outstanding, hnotify]
      omega

structure Accounted (p : Process) : Prop where
  nonneg : 0 ≤ p.daemon.manager.pendingCalls
  eq : p.daemon.manager.pendingCalls = p.daemon.bus.outstanding

theorem accounted_iff {p : Process} : Accounted p ↔ p.daemon.imbalance = 0 :=
  ⟨fun h => sub_eq_zero.mpr h.eq,
    fun h => ⟨sub_eq_zero.mp h ▸ Int.natCast_nonneg _, sub_eq_zero.mp h⟩⟩

/-- The loop in `r_manager_flush` ends: whatever callbacks have run, each has
lowered the count by one, and as long as the count is positive another one will
come. -/
def Flushes (p : Process) : Prop :=
  ∀ es q, run step p es = some q →
    q.daemon.manager.pendingCalls = p.daemon.manager.pendingCalls - es.length ∧
      0 ≤ q.daemon.manager.pendingCalls ∧
      (0 < q.daemon.manager.pendingCalls → ∃ e, (q.step e).isSome)

/-- After `r_manager_stop` only callbacks that were counted can run. -/
theorem pendingCalls_step_of_stopped {p q : Process} {e : Event} (h : Wf p)
    (hstopped : p.stopped = true) (hs : p.step e = some q) :
    q.stopped = true ∧
      q.daemon.manager.pendingCalls = p.daemon.manager.pendingCalls - 1 := by
  obtain ⟨hname, hobj, hlogin⟩ := h.stopped hstopped
  cases e <;> simp [step, hname, hobj, hlogin, hstopped] at hs <;> obtain ⟨_, rfl⟩ := hs <;>
    exact ⟨rfl, rfl⟩

/-- An accounted process that was stopped has a callback left to run. -/
theorem exists_step_of_pendingCalls {p : Process} (h : Wf p) (hstopped : p.stopped = true)
    (haccounted : Accounted p) (hpending : 0 < p.daemon.manager.pendingCalls) :
    ∃ e, (p.step e).isSome := by
  obtain ⟨hname, hobj, _⟩ := h.stopped hstopped
  rw [haccounted.eq] at hpending
  by_cases hreplies : 0 < p.daemon.bus.replies
  · exact ⟨.reply, by simp [step, hreplies]⟩
  · by_cases hnotify : p.daemon.bus.nameNotify = true
    · exact ⟨.nameDestroyed, by simp [step, hnotify, hname]⟩
    · by_cases hobject : p.daemon.bus.objectNotify = true
      · exact ⟨.objectDestroyed, by simp [step, hobject, hobj]⟩
      · simp only [GDBus.outstanding, hnotify, hobject, Bool.toNat_false] at hpending
        omega

theorem Accounted.flushes {p : Process} (h : Wf p) (haccounted : Accounted p)
    (hstopped : p.stopped = true) : Flushes p := by
  intro es
  induction es generalizing p with
  | nil =>
      intro q hrun
      obtain rfl := Option.some.inj hrun
      exact ⟨by simp, haccounted.nonneg, exists_step_of_pendingCalls h hstopped haccounted⟩
  | cons e es ih =>
      intro q hrun
      obtain ⟨p', hs, hrest⟩ := Option.bind_eq_some_iff.mp hrun
      obtain ⟨hstopped', hpending⟩ := pendingCalls_step_of_stopped h hstopped hs
      have haccounted' : Accounted p' := by
        rcases imbalance_step h hs with ⟨isDir, rfl, _⟩ | ⟨_, himbalance⟩
        · simp [step, hstopped] at hs
        · exact accounted_iff.mpr (himbalance.trans (accounted_iff.mp haccounted))
      obtain ⟨hcount, hrest⟩ := ih (h.step hs) haccounted' hstopped' q hrest
      refine ⟨?_, hrest⟩
      rw [hcount, hpending, List.length_cons]
      push_cast
      omega

def StopsConnected (p : Process) (e : Event) : Prop :=
  ∀ isDir, e = .stop isDir → p.daemon.manager.connection = true

/-- Along a run `pending_calls` is what GDBus owes, and a stopped daemon can be flushed,
exactly when `r_manager_stop` finds a connection. -/
theorem accounted_iff_stopsConnected (availableRam : UInt64) (es : List Event) :
    AllStates step (fun p => Accounted p ∧ (p.stopped = true → Flushes p)) (init availableRam) es ↔
      AllSteps step StopsConnected (init availableRam) es := by
  refine allStates_iff_allSteps (I := Wf) (fun p e q h hs => h.step hs) ?_
    (wf_init availableRam) ?_ es
  · intro p e q h hp hs
    have hq := h.step hs
    constructor
    · rintro ⟨haccounted, _⟩ isDir rfl
      rcases imbalance_step h hs with ⟨_, he, himbalance⟩ | ⟨hne, _⟩
      · obtain rfl := Event.stop.inj he
        rw [accounted_iff.mp haccounted, accounted_iff.mp hp.1] at himbalance
        by_contra hconn
        rw [if_neg hconn] at himbalance
        have hpos := p.daemon.stopCalls_length_pos isDir
        omega
      · exact absurd rfl (hne isDir)
    · intro hc
      have haccounted : Accounted q := by
        rw [accounted_iff]
        rcases imbalance_step h hs with ⟨isDir, rfl, himbalance⟩ | ⟨_, himbalance⟩
        · rw [himbalance, accounted_iff.mp hp.1, if_pos (hc isDir rfl), add_zero]
        · exact himbalance.trans (accounted_iff.mp hp.1)
      exact ⟨haccounted, haccounted.flushes hq⟩
  · have haccounted : Accounted (init availableRam) := ⟨le_rfl, rfl⟩
    exact ⟨haccounted, fun hstopped => Bool.noConfusion hstopped⟩

/-- The bus cannot be reached: the call for `user.slice` is counted and never
answered. -/
theorem not_accounted_noBus :
    ¬ ∀ es, AllStates step (fun p => Accounted p ∧ (p.stopped = true → Flushes p)) (init 0) es := by
  intro h
  have hlast := (h [.start ⟨some [], some []⟩ none, .nameLost, .stop fun _ => false]).last rfl
  exact absurd hlast.1.eq (by decide)

end Process

end Uresourced
