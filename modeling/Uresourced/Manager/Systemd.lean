import Mathlib.Algebra.Group.Action.Defs
import Mathlib.Algebra.Order.BigOperators.Group.Finset
import Uresourced.Lib.PropertyStore
import Uresourced.Manager.Protection

/-!
The system daemon together with systemd.

The calls of the manager reach systemd in the order in which they were issued,
and systemd handles them at its own pace, so that at any moment its units are as
a prefix of the calls has made them. A call may be refused as a whole; `Host` is
one run of both. What systemd does with a call is a parameter: it is only known to
set the properties that the call names, and to keep all others. What is proved here
is about the properties that systemd holds:
that the protection of `user.slice` pays for the slices below it at every
moment, that the protections are a function of the graphical users whenever
everything has been handled, and that nothing is left after a shutdown.
-/

namespace Uresourced

open CString Runs PropertyStore

/-! ### systemd's units -/

abbrev UnitStore := Store CString CString UInt64

def setUnitProperties (units : UnitStore) (calls : List UnitCall) : UnitStore :=
  putAll UnitCall.unit UnitCall.properties units calls

inductive Protection
  | min
  | low
  deriving DecidableEq, Repr

namespace Protection

def property : Protection → CString
  | min => "MemoryMin".toList
  | low => "MemoryLow".toList

def size (allocation : RAllocation) : Protection → UInt64
  | min => allocation.memoryMin
  | low => allocation.memoryLow

def maxUsers (self : RManager) : Protection → UInt64
  | min => self.maxUsersMemoryMin
  | low => self.maxUsersMemoryLow

theorem value_properties (allocation : RAllocation) (prot : Protection) :
    (LastWrite.last Prod.fst prot.property allocation.properties).map Prod.snd =
      some (prot.size allocation) := by
  cases prot <;>
    (simp only [RAllocation.properties, LastWrite.last]
     split <;> split <;> rfl)

theorem value_unitCall (self : RManager) (unit : CString) (ptr : AllocationPtr)
    (prot : Protection) :
    value UnitCall.properties (self.unitCall unit ptr) prot.property =
      some (prot.size (self.allocation ptr)) := prot.value_properties _

end Protection

def UnitStore.memory (units : UnitStore) (unit : CString) (prot : Protection) : ℕ :=
  (units unit prot.property).elim 0 UInt64.toNat

def UnitStore.Unprotected (units : UnitStore) : Prop :=
  ∀ prot, units.memory "user.slice".toList prot = 0 ∧
    ∀ uid, units.memory (userSlice uid) prot = 0 ∧ units.memory (userService uid) prot = 0

/-- `SetUnitProperties`, as it is documented. -/
abbrev SetsUnitProperties (apply : UnitStore → UnitCall → UnitStore) : Prop :=
  Sets UnitCall.unit UnitCall.properties apply

def UnitStore.init : UnitStore := fun _ _ => none

theorem UnitStore.unprotected_init : UnitStore.init.Unprotected :=
  fun _ => ⟨rfl, fun _ => ⟨rfl, rfl⟩⟩

/-! ### What calls make of the units -/

section Calls

variable {self : RManager} {units : UnitStore} {calls taken : List UnitCall} {unit : CString}
  {prot : Protection}

theorem memory_of_last {c : UnitCall} (hmakes : ∀ c ∈ calls, self.Makes c)
    (hlast : lastCall unit calls = some c) :
    (setUnitProperties units calls).memory unit prot =
      (prot.size (self.allocation c.allocation)).toNat := by
  have hc := (hmakes c (LastWrite.mem_of_last _ hlast).1).eq
  have hvalue : value UnitCall.properties c prot.property =
      some (prot.size (self.allocation c.allocation)) :=
    (congrArg (value UnitCall.properties · prot.property) hc).trans
      (prot.value_unitCall self c.unit c.allocation)
  have hput : putAll UnitCall.unit UnitCall.properties units calls unit prot.property =
      some (prot.size (self.allocation c.allocation)) := putAll_of_last hlast hvalue
  rw [UnitStore.memory, setUnitProperties, hput]
  rfl

theorem memory_of_last_none (hlast : lastCall unit calls = none) :
    (setUnitProperties units calls).memory unit prot = units.memory unit prot := by
  have hput : putAll UnitCall.unit UnitCall.properties units calls unit prot.property =
      units unit prot.property := putAll_of_last_none hlast
  rw [UnitStore.memory, setUnitProperties, hput]
  rfl

/-- The last call that carries a pointer decides. -/
theorem memory_of_lastCall {ptr : AllocationPtr} (hmakes : ∀ c ∈ calls, self.Makes c)
    (hlast : lastCall unit calls = some (self.unitCall unit ptr)) :
    (setUnitProperties units calls).memory unit prot = (prot.size (self.allocation ptr)).toNat :=
  memory_of_last hmakes hlast

theorem memory_of_not_holds {uid : Uid} (hunits : units.Unprotected)
    (hmakes : ∀ c ∈ calls, self.Makes c) (hinactive : self.inactiveUser = ⟨100, 100, 0, 0⟩)
    (hnot : ¬ HoldsActive calls uid) :
    (setUnitProperties units calls).memory (userSlice uid) prot = 0 := by
  cases hlast : lastCall (userSlice uid) calls with
  | none => exact (memory_of_last_none hlast).trans ((hunits prot).2 uid).1
  | some c =>
      obtain ⟨hmem, hunit⟩ := LastWrite.mem_of_last _ hlast
      rw [memory_of_last hmakes hlast]
      cases hptr : c.allocation with
      | activeUser => exact absurd ⟨c, hlast, hptr⟩ hnot
      | inactiveUser =>
          simp only [RManager.allocation, hinactive]
          cases prot <;> rfl
      | alloc n =>
          have hroot := (hmakes c hmem).slice.mpr ⟨n, hptr⟩
          exact absurd (hunit.symm.trans hroot) (userSlice_ne_root uid)

theorem memory_le_of_user {uid : Uid} (hunits : units.Unprotected)
    (hmakes : ∀ c ∈ calls, self.Makes c) (hinactive : self.inactiveUser = ⟨100, 100, 0, 0⟩) :
    (setUnitProperties units calls).memory (userSlice uid) prot ≤
      (prot.size self.activeUser).toNat := by
  by_cases hholds : HoldsActive calls uid
  · obtain ⟨c, hlast, hactive⟩ := hholds
    rw [memory_of_last hmakes hlast, hactive]
    rfl
  · rw [memory_of_not_holds hunits hmakes hinactive hholds]
    exact Nat.zero_le _

/-- The slices of users together have no more than the budget pays for. -/
theorem sum_memory_le (hunits : units.Unprotected) (hmakes : ∀ c ∈ calls, self.Makes c)
    (hinactive : self.inactiveUser = ⟨100, 100, 0, 0⟩) (hcovered : Covered calls)
    (users : Finset Uid) :
    ∑ uid ∈ users, (setUnitProperties units calls).memory (userSlice uid) prot ≤
      budget calls * (prot.size self.activeUser).toNat := by
  classical
  set holders := users.filter (HoldsActive calls)
  have hrest : ∑ uid ∈ users, (setUnitProperties units calls).memory (userSlice uid) prot =
      ∑ uid ∈ holders, (setUnitProperties units calls).memory (userSlice uid) prot := by
    refine (Finset.sum_filter_of_ne fun uid _ hne => ?_).symm
    by_contra hnot
    exact hne (memory_of_not_holds hunits hmakes hinactive hnot)
  have hcard : holders.card ≤ budget calls :=
    hcovered holders fun uid huid => (Finset.mem_filter.mp huid).2
  calc
    _ = ∑ uid ∈ holders, (setUnitProperties units calls).memory (userSlice uid) prot := hrest
    _ ≤ holders.card • (prot.size self.activeUser).toNat :=
      Finset.sum_le_card_nsmul _ _ _ fun uid _ => memory_le_of_user hunits hmakes hinactive
    _ ≤ budget calls * (prot.size self.activeUser).toNat := by
      rw [smul_eq_mul]
      gcongr

theorem memory_root {c : UnitCall} (hmakes : ∀ c ∈ calls, self.Makes c)
    (hlast : lastCall "user.slice".toList calls = some c) :
    (setUnitProperties units calls).memory "user.slice".toList prot =
      Min.min (budget calls * (prot.size self.activeUser).toNat) (prot.maxUsers self).toNat := by
  obtain ⟨hmem, hunit⟩ := LastWrite.mem_of_last _ hlast
  obtain ⟨n, hptr⟩ := (hmakes c hmem).slice.mp hunit
  have hbudget : budget calls = n := by
    obtain ⟨_, ptr, _⟩ := c
    obtain rfl : ptr = .alloc n := hptr
    rw [budget, hlast]
  have hunwrapped := (hmakes c hmem).unwrapped n hptr
  rw [memory_of_last hmakes hlast, hptr, hbudget]
  cases prot with
  | min => exact sliceMemory_exact_iff.mpr hunwrapped.1
  | low => exact sliceMemory_exact_iff.mpr hunwrapped.2

/-- The slice pays for its children. -/
theorem min_sum_memory_le (hunits : units.Unprotected) (hmakes : ∀ c ∈ calls, self.Makes c)
    (hinactive : self.inactiveUser = ⟨100, 100, 0, 0⟩) (hcovered : Covered calls)
    (users : Finset Uid) :
    Min.min (∑ uid ∈ users, (setUnitProperties units calls).memory (userSlice uid) prot)
        (prot.maxUsers self).toNat ≤
      (setUnitProperties units calls).memory "user.slice".toList prot := by
  have hsum : ∑ uid ∈ users, (setUnitProperties units calls).memory (userSlice uid) prot ≤
      budget calls * (prot.size self.activeUser).toNat :=
    sum_memory_le hunits hmakes hinactive hcovered users
  cases hlast : lastCall "user.slice".toList calls with
  | none =>
      have hbudget : budget calls = 0 := by rw [budget, hlast]
      rw [hbudget, Nat.zero_mul, Nat.le_zero] at hsum
      rw [hsum, Nat.zero_min]
      exact Nat.zero_le _
  | some c =>
      rw [memory_root hmakes hlast]
      gcongr

/-! ### Calls that systemd refuses -/

def Grants (c : UnitCall) : Prop := c.allocation = .activeUser

instance (c : UnitCall) : Decidable (Grants c) := inferInstanceAs (Decidable (_ = _))

/-- Refusing grants can only leave less to pay for. -/
theorem Covered.of_taken (hcovered : Covered calls) (htaken : Taken Grants calls taken) :
    Covered taken := by
  intro users hholders
  have hbudget : budget calls ≤ budget taken := by
    rcases htaken.last_eq_or UnitCall.unit "user.slice".toList with hlast | ⟨c, hlast, hgrants⟩
    · rw [budget, budget, lastCall, lastCall, hlast]
    · obtain ⟨_, ptr, _⟩ := c
      obtain rfl : ptr = .activeUser := hgrants
      have hzero : budget calls = 0 := by rw [budget, lastCall, hlast]
      exact hzero ▸ Nat.zero_le _
  refine (hcovered users fun uid huid => ?_).trans hbudget
  obtain ⟨c, hlast, hactive⟩ := hholders uid huid
  rcases htaken.last_eq_or UnitCall.unit (userSlice uid) with heq | ⟨d, hd, hgrants⟩
  · exact ⟨c, heq.symm.trans hlast, hactive⟩
  · exact ⟨d, hd, hgrants⟩

end Calls

/-! ### The daemon and systemd -/

structure Host where
  process : Process
  systemd : Owner CString CString UInt64

/-- A callback of the daemon runs, GDBus gives up waiting for a reply, or systemd
handles the next call. -/
inductive HostEvent
  | daemon (e : Event)
  | timeout
  | handle (accepted : Bool)

namespace Host

def init (availableRam : UInt64) (units : UnitStore) : Host :=
  ⟨Process.init availableRam, ⟨0, units⟩⟩

def calls (h : Host) : List UnitCall := h.process.daemon.bus.calls

def answered (h : Host) : ℕ := h.calls.length - h.process.daemon.bus.replies

def memory (h : Host) (unit : CString) (prot : Protection) : ℕ :=
  UnitStore.memory h.systemd.store unit prot

def Handled (h : Host) : Prop := h.systemd.handled = h.calls.length

instance (h : Host) : Decidable h.Handled := inferInstanceAs (Decidable (_ = _))

/-- One step. The reply to a call follows its handling, unless it is given up. -/
def step (apply : UnitStore → UnitCall → UnitStore) (h : Host) : HostEvent → Option Host
  | .daemon e =>
      if e.isReply = true → h.answered < h.systemd.handled then
        (h.process.step e).map fun p => { h with process := p }
      else none
  | .timeout => (h.process.step .reply).map fun p => { h with process := p }
  | .handle accepted =>
      (h.systemd.handle apply h.calls accepted).map fun o => { h with systemd := o }

/-- The steps of the daemon are ordered, and systemd refuses only calls that may be
refused. -/
def Ordered (refusable : UnitCall → Prop) (h : Host) : HostEvent → Prop
  | .daemon e => h.process.Ordered e
  | .timeout => True
  | .handle accepted => accepted = false → ∀ c ∈ h.calls[h.systemd.handled]?, refusable c

instance (refusable : UnitCall → Prop) [DecidablePred refusable] (h : Host) (e : HostEvent) :
    Decidable (h.Ordered refusable e) :=
  match e with
  | .daemon e => inferInstanceAs (Decidable (h.process.Ordered e))
  | .timeout => inferInstanceAs (Decidable True)
  | .handle accepted =>
      inferInstanceAs (Decidable
        (accepted = false → ∀ c ∈ h.calls[h.systemd.handled]?, refusable c))

/-- The daemon is stopped with a connection only, and no reply is given up. -/
def Prompt (h : Host) : HostEvent → Prop
  | .daemon e => e.isStop = true → h.process.daemon.manager.connection = true
  | .timeout => False
  | .handle _ => True

instance (h : Host) (e : HostEvent) : Decidable (h.Prompt e) :=
  match e with
  | .daemon e =>
      inferInstanceAs (Decidable (e.isStop = true → h.process.daemon.manager.connection = true))
  | .timeout => inferInstanceAs (Decidable False)
  | .handle _ => inferInstanceAs (Decidable True)

structure Inv (refusable : UnitCall → Prop) (units : UnitStore) (h : Host) : Prop where
  guarded : h.process.Guarded
  follows : Follows UnitCall.unit UnitCall.properties refusable units h.calls h.systemd

variable {apply : UnitStore → UnitCall → UnitStore} {refusable : UnitCall → Prop}
  {units : UnitStore} {h h' : Host}

theorem inv_init (availableRam : UInt64) (refusable : UnitCall → Prop) (units : UnitStore) :
    Inv refusable units (init availableRam units) :=
  ⟨Process.guarded_init availableRam, follows_init refusable units _⟩

theorem calls_process_step {p : Process} {e : Event} (hwf : h.process.Wf)
    (hs : h.process.step e = some p) : ∃ more, p.daemon.bus.calls = h.calls ++ more := by
  cases hreply : e.isReply with
  | false =>
      obtain ⟨more, hcalls, _⟩ := Process.issued_step hwf hs hreply
      exact ⟨more, hcalls⟩
  | true =>
      cases e <;> cases hreply
      simp only [Process.step, Option.ite_none_right_eq_some, Option.some.injEq] at hs
      obtain ⟨_, rfl⟩ := hs
      exact ⟨[], (List.append_nil _).symm⟩

theorem Inv.process (hinv : Inv refusable units h) {p : Process} {e : Event}
    (ho : h.process.Ordered e) (hs : h.process.step e = some p) :
    Inv refusable units { h with process := p } := by
  obtain ⟨more, hcalls⟩ := calls_process_step hinv.guarded.wf hs
  refine ⟨hinv.guarded.step ho hs, ?_⟩
  rw [calls, hcalls]
  exact hinv.follows.append more

theorem Inv.step {e : HostEvent} (happly : SetsUnitProperties apply)
    (hinv : Inv refusable units h) (ho : Ordered refusable h e)
    (hs : h.step apply e = some h') : Inv refusable units h' := by
  cases e with
  | daemon e =>
      simp only [Host.step, Option.ite_none_right_eq_some] at hs
      obtain ⟨p, hp, rfl⟩ := Option.map_eq_some_iff.mp hs.2
      exact hinv.process ho hp
  | timeout =>
      obtain ⟨p, hp, rfl⟩ := Option.map_eq_some_iff.mp hs
      have ho : h.process.Ordered .reply :=
        ⟨fun _ hmem => absurd hmem (Option.not_mem_none _), fun hstop => Bool.noConfusion hstop⟩
      exact hinv.process ho hp
  | handle accepted =>
      obtain ⟨o, hhandle, rfl⟩ := Option.map_eq_some_iff.mp hs
      exact ⟨hinv.guarded, hinv.follows.handle happly hhandle ho⟩

theorem inv_of_reachable {C : Host → HostEvent → Prop} {availableRam : UInt64}
    (happly : SetsUnitProperties apply) (hC : ∀ h e, C h e → Ordered refusable h e)
    (hreach : ReachableBy (step apply) C (init availableRam units) h) : Inv refusable units h :=
  hreach.invariant (inv_init availableRam refusable units)
    fun h e _ hinv ho hs => hinv.step happly (hC h e ho) hs

/-! ### At every moment -/

/-- In an ordered run over units without protection, also where systemd refuses grants,
the protection of `user.slice` covers at every moment what any users below it have
together, or it has reached the configured maximum. -/
theorem memory_hierarchy (availableRam : UInt64) (happly : SetsUnitProperties apply)
    (hunits : units.Unprotected)
    (hreach : ReachableBy (step apply) (Ordered Grants) (init availableRam units) h)
    (prot : Protection) (users : Finset Uid) :
    Min.min (∑ uid ∈ users, h.memory (userSlice uid) prot)
        (prot.maxUsers h.process.daemon.manager).toNat ≤
      h.memory "user.slice".toList prot := by
  obtain ⟨⟨_, _, _, hinactive, hguarded⟩, _, taken, htaken, hstore⟩ :=
    inv_of_reachable happly (fun _ _ => id) hreach
  have htake : h.calls.take h.systemd.handled <+: h.calls := List.take_prefix _ _
  have hmakes (c : UnitCall) (hc : c ∈ taken) : h.process.daemon.manager.Makes c :=
    hguarded.makes c (htake.subset (htaken.subset hc))
  have hcovered : Covered taken := (hguarded.budgeted.prefixes _ htake).of_taken htaken
  rw [memory, hstore]
  simp only [memory, hstore]
  exact min_sum_memory_le hunits hmakes hinactive hcovered users

/-- A configuration with sizes and with weights. -/
def kilobyteConf : KeyFile where
  string group key :=
    if key = "MaxMemoryMin".toList ∨ key = "MaxMemoryLow".toList then .ok "4K".toList
    else if group = "ActiveUser".toList then .ok "1K".toList
    else .error .keyNotFound
  integer group _ := if group = "ActiveUser".toList then .ok 500 else .error .keyNotFound

def twoSeats : LogindAnswers :=
  ⟨some [⟨some true, some [⟨some 1000, some true⟩]⟩, ⟨some true, some [⟨some 1001, some true⟩]⟩],
    some [1000, 1001]⟩

def comesUp : List HostEvent :=
  [.daemon (.start twoSeats (some kilobyteConf)), .daemon (.busAcquired true),
    .daemon (.nameAcquired fun _ => true)]

/-- systemd as `SetUnitProperties` is documented. -/
def documented : UnitStore → UnitCall → UnitStore := put UnitCall.unit UnitCall.properties

def refusedGrant : Host :=
  (checkedRun (step documented) (Ordered Grants) (init 0 .init)
    (comesUp ++ [.handle true, .handle false])).get (by decide)

theorem memory_hierarchy_refusedGrant :
    refusedGrant.memory "user.slice".toList .min = 2048 ∧
      Min.min (∑ uid ∈ {1000, 1001}, refusedGrant.memory (userSlice uid) .min)
        (Protection.min.maxUsers refusedGrant.process.daemon.manager).toNat ≤
      refusedGrant.memory "user.slice".toList .min :=
  ⟨by decide, memory_hierarchy 0 (sets_put _ _) UnitStore.unprotected_init
    (reachableBy_checkedRun (by decide)) .min {1000, 1001}⟩

/-! ### When everything has been handled -/

theorem Inv.store_eq (hinv : Inv (fun _ => False) units h) (hall : h.Handled) :
    h.systemd.store = setUnitProperties units h.calls := by
  obtain ⟨taken, htaken, hstore⟩ := hinv.follows.of_handled hall
  rw [hstore, htaken.eq_of_forall fun _ _ => id]
  rfl

theorem Inv.memory_active (hinv : Inv (fun _ => False) units h) (hall : h.Handled)
    {unit : CString} (hcarries : h.process.daemon.Carries unit .activeUser) (prot : Protection) :
    h.memory unit prot = (prot.size h.process.daemon.manager.activeUser).toNat := by
  rw [memory, hinv.store_eq hall]
  exact memory_of_lastCall hinv.guarded.guarded.makes hcarries

theorem Inv.store_inactive (hinv : Inv (fun _ => False) units h) (hall : h.Handled)
    {unit : CString} (hcarries : h.process.daemon.Carries unit .inactiveUser)
    {entry : CString × UInt64} (hentry : entry ∈ RAllocation.properties ⟨100, 100, 0, 0⟩) :
    h.systemd.store unit entry.1 = some entry.2 := by
  have hvalues : ∀ entry ∈ RAllocation.properties ⟨100, 100, 0, 0⟩,
      (LastWrite.last Prod.fst entry.1 (RAllocation.properties ⟨100, 100, 0, 0⟩)).map Prod.snd =
        some entry.2 := by decide
  rw [hinv.store_eq hall]
  refine putAll_of_last hcarries ?_
  have hproperties : (h.process.daemon.manager.unitCall unit .inactiveUser).properties =
      RAllocation.properties ⟨100, 100, 0, 0⟩ := by
    rw [← hinv.guarded.inactiveUser]
    rfl
  rw [value, hproperties]
  exact hvalues entry hentry

theorem Inv.memory_inactive (hinv : Inv (fun _ => False) units h) (hall : h.Handled)
    {unit : CString} (hcarries : h.process.daemon.Carries unit .inactiveUser) (prot : Protection) :
    h.memory unit prot = 0 := by
  have hsize : prot.size h.process.daemon.manager.inactiveUser = 0 := by
    rw [hinv.guarded.inactiveUser]
    cases prot <;> rfl
  rw [memory, hinv.store_eq hall]
  exact (memory_of_lastCall hinv.guarded.guarded.makes hcarries).trans
    (congrArg UInt64.toNat hsize)

theorem Inv.memory_untouched (hinv : Inv (fun _ => False) units h) (hall : h.Handled)
    {unit : CString} (hnone : lastCall unit h.calls = none) (prot : Protection) :
    h.memory unit prot = units.memory unit prot := by
  rw [memory, hinv.store_eq hall]
  exact memory_of_last_none hnone

theorem Inv.memory_root (hinv : Inv (fun _ => False) units h) (hall : h.Handled)
    (hsome : lastCall "user.slice".toList h.calls ≠ none) (prot : Protection) :
    h.memory "user.slice".toList prot =
      Min.min (h.process.daemon.manager.graphicalUsers.length *
        (prot.size h.process.daemon.manager.activeUser).toNat)
        (prot.maxUsers h.process.daemon.manager).toNat := by
  obtain ⟨c, hlast⟩ := Option.ne_none_iff_exists'.mp hsome
  rw [memory, hinv.store_eq hall, ← hinv.guarded.guarded.budgeted.budget_eq]
  exact Uresourced.memory_root hinv.guarded.guarded.makes hlast

theorem Inv.graphicalUsers_eq_nil (hinv : Inv refusable units h)
    (hnone : lastCall "user.slice".toList h.calls = none) :
    h.process.daemon.manager.graphicalUsers = [] := by
  have hbudget := hinv.guarded.guarded.budgeted.budget_eq
  rw [budget, show lastCall "user.slice".toList h.process.daemon.bus.calls = none from hnone]
    at hbudget
  exact List.eq_nil_of_length_eq_zero hbudget.symm

theorem Inv.memory_nobody (hinv : Inv (fun _ => False) units h) (hall : h.Handled)
    (hunits : units.Unprotected) {uid : Uid}
    (hnot : uid ∉ h.process.daemon.manager.graphicalUsers) (prot : Protection) :
    h.memory (userSlice uid) prot = 0 ∧ h.memory (userService uid) prot = 0 := by
  rcases hinv.guarded.guarded.settled uid with ⟨hslice, hservice⟩ | ⟨hslice, hservice⟩ | ⟨hmem, _⟩
  · rw [hinv.memory_untouched hall hslice, hinv.memory_untouched hall hservice]
    exact (hunits prot).2 uid
  · exact ⟨hinv.memory_inactive hall hslice prot, hinv.memory_inactive hall hservice prot⟩
  · exact absurd hmem hnot

theorem Inv.memory_slice (hinv : Inv (fun _ => False) units h) (hall : h.Handled)
    (hunits : units.Unprotected) (prot : Protection) :
    h.memory "user.slice".toList prot =
      Min.min (h.process.daemon.manager.graphicalUsers.length *
        (prot.size h.process.daemon.manager.activeUser).toNat)
        (prot.maxUsers h.process.daemon.manager).toNat := by
  cases hlast : lastCall "user.slice".toList h.calls with
  | none =>
      rw [hinv.memory_untouched hall hlast, (hunits prot).1, hinv.graphicalUsers_eq_nil hlast]
      simp
  | some c => exact hinv.memory_root hall (hlast ▸ Option.some_ne_none c) prot

/-- In an ordered run without refusals over units without protection, the protections
that systemd holds once it has handled all calls are those of the stored graphical users
and nobody else, and `user.slice` has the smaller one of the maximum and what these
users have together; this goes for the time after `r_manager_stop` too, when no
graphical user is stored. -/
theorem protections_eq (availableRam : UInt64) (happly : SetsUnitProperties apply)
    (hunits : units.Unprotected)
    (hreach : ReachableBy (step apply) (Ordered fun _ => False) (init availableRam units) h)
    (hall : h.Handled) (prot : Protection) :
    let self := h.process.daemon.manager
    (∀ uid, h.memory (userSlice uid) prot =
      if uid ∈ self.graphicalUsers then (prot.size self.activeUser).toNat else 0) ∧
    (∀ uid, uid ∉ self.graphicalUsers → h.memory (userService uid) prot = 0) ∧
    h.memory "user.slice".toList prot =
      Min.min (self.graphicalUsers.length * (prot.size self.activeUser).toNat)
        (prot.maxUsers self).toNat := by
  intro self
  have hinv := inv_of_reachable happly (fun _ _ => id) hreach
  refine ⟨fun uid => ?_, fun uid hnot => (hinv.memory_nobody hall hunits hnot prot).2,
    hinv.memory_slice hall hunits prot⟩
  split
  · next hmem => exact hinv.memory_active hall (hinv.guarded.guarded.active uid hmem) prot
  · next hnot => exact (hinv.memory_nobody hall hunits hnot prot).1

def upAndHandled : Host :=
  (checkedRun (step documented) (Ordered fun _ => False) (init 0 .init)
    (comesUp ++ List.replicate 5 (.handle true))).get (by decide)

theorem protections_eq_upAndHandled :
    upAndHandled.memory (userSlice 1001) .low = 1024 :=
  ((protections_eq 0 (sets_put _ _) UnitStore.unprotected_init
    (reachableBy_checkedRun (by decide)) (by decide) .low).1 1001).trans (by decide)

/-! ### After a crash -/

/-- Whatever units systemd was left with, once the calls of an ordered run without
refusals have been handled every graphical user has the active protections, and every
other listed user has all four properties of the inactive allocation on both units;
`user.slice` is right unless no call was made for it, which only happens while nobody is
graphical. -/
theorem recovers (availableRam : UInt64) (happly : SetsUnitProperties apply) (units : UnitStore)
    (hreach : ReachableBy (step apply) (Ordered fun _ => False) (init availableRam units) h)
    (hall : h.Handled) :
    let self := h.process.daemon.manager
    (∀ uid ∈ self.graphicalUsers, ∀ prot,
      h.memory (userSlice uid) prot = (prot.size self.activeUser).toNat) ∧
    (∀ uid ∈ self.allUsers, uid ∉ self.graphicalUsers →
      ∀ unit ∈ [userSlice uid, userService uid],
        ∀ entry ∈ RAllocation.properties ⟨100, 100, 0, 0⟩,
          h.systemd.store unit entry.1 = some entry.2) ∧
    ∀ prot, h.memory "user.slice".toList prot =
        Min.min (self.graphicalUsers.length * (prot.size self.activeUser).toNat)
          (prot.maxUsers self).toNat ∨
      self.graphicalUsers = [] ∧
        h.memory "user.slice".toList prot = units.memory "user.slice".toList prot := by
  intro self
  have hinv := inv_of_reachable happly (fun _ _ => id) hreach
  refine ⟨fun uid huid prot => ?_, fun uid huid hnot unit hunit entry hentry => ?_, fun prot => ?_⟩
  · exact hinv.memory_active hall (hinv.guarded.guarded.active uid huid) prot
  · obtain ⟨hslice, hservice⟩ := hinv.guarded.guarded.inactive uid huid hnot
    rcases List.mem_pair.mp hunit with rfl | rfl
    · exact hinv.store_inactive hall hslice hentry
    · exact hinv.store_inactive hall hservice hentry
  · cases hlast : lastCall "user.slice".toList h.calls with
    | none =>
        exact .inr ⟨hinv.graphicalUsers_eq_nil hlast, hinv.memory_untouched hall hlast prot⟩
    | some c => exact .inl (hinv.memory_root hall (hlast ▸ Option.some_ne_none c) prot)

/-- What a daemon that crashed left behind: everything had a protection. -/
def leftovers : UnitStore := fun _ _ => some 4096

def recovered : Host :=
  (checkedRun (step documented) (Ordered fun _ => False) (init 0 leftovers)
    [.daemon (.start ⟨some [], some [1000]⟩ none), .daemon (.busAcquired true),
      .daemon (.nameAcquired fun _ => true), .handle true, .handle true]).get (by decide)

theorem recovers_recovered :
    recovered.systemd.store (userSlice 1000) "CPUWeight".toList = some 100 :=
  (recovers 0 (sets_put _ _) leftovers (reachableBy_checkedRun (by decide)) (by decide)).2.1 1000
    (by decide) (by decide) (userSlice 1000) (by simp) ("CPUWeight".toList, 100) (by decide)

/-- No callback finds a graphical user, and the daemon is not stopped. -/
def NobodyGraphical (h : Host) : HostEvent → Prop
  | .daemon e => e.isStop = false ∧ ∀ login ∈ h.process.snapshot e, login.graphicalUsers = []
  | _ => True

instance (h : Host) (e : HostEvent) : Decidable (h.NobodyGraphical e) :=
  match e with
  | .daemon e => inferInstanceAs (Decidable (e.isStop = false ∧
      ∀ login ∈ h.process.snapshot e, login.graphicalUsers = []))
  | .timeout => inferInstanceAs (Decidable True)
  | .handle _ => inferInstanceAs (Decidable True)

structure Rootless (s : Daemon) : Prop where
  calls : ∀ c ∈ s.bus.calls, c.unit ≠ "user.slice".toList
  graphicalUsers : s.manager.graphicalUsers = []

theorem Rootless.update {s : Daemon} (h : Rootless s) (hconn : s.manager.connection = true)
    {u : Update} (hnew : u.graphicalUsers = []) : Rootless (s.update u) := by
  have huser {active : Bool} {uids : List Uid} {c : UnitCall}
      (hc : c ∈ uids.flatMap (s.manager.userCalls u.isDir active)) :
      c.unit ≠ "user.slice".toList := by
    obtain ⟨uid, _, hmem⟩ := List.mem_flatMap.mp hc
    simp only [RManager.userCalls, List.mem_cons, List.not_mem_nil, or_false] at hmem
    rcases hmem with rfl | rfl
    · exact userSlice_ne_root uid
    · exact userService_ne_root uid
  refine ⟨fun c hc => ?_, (Daemon.graphicalUsers_update s u).trans hnew⟩
  rw [Daemon.calls_update hconn, List.mem_append] at hc
  rcases hc with hc | hc
  · exact h.calls c hc
  · -- both lengths are 0, so neither call for the slice is due
    simp only [RManager.updateCalls, h.graphicalUsers, hnew, RManager.sliceCalls,
      lt_self_iff_false, decide_false, Bool.false_eq_true, if_false, List.nil_append,
      List.append_nil, List.mem_append] at hc
    rcases hc with hc | hc <;> exact huser hc

theorem Rootless.updates {s : Daemon} {isDir : CString → Bool} {forceActive : Bool} (n : ℕ)
    (h : Rootless s) (hconn : s.manager.connection = true)
    (hlogin : ∀ login ∈ s.manager.login, login.graphicalUsers = []) :
    Rootless ((Daemon.updateFromLogin isDir · forceActive)^[n] s) := by
  induction n generalizing s with
  | zero => exact h
  | succ n ih =>
      rw [Function.iterate_succ_apply]
      have hframed := Daemon.framed_updateFromLogin isDir s forceActive
      refine ih ?_ (hframed.connection.trans hconn) (hframed.login ▸ hlogin)
      cases hl : s.manager.login with
      | none =>
          rw [Daemon.updateFromLogin, hl]
          exact h
      | some login =>
          rw [Daemon.updateFromLogin_eq hl forceActive]
          exact h.update hconn (hlogin login hl)

theorem Rootless.process {p q : Process} {e : Event} (h : Rootless p.daemon) (hwf : p.Wf)
    (hstop : e.isStop = false) (hempty : ∀ login ∈ p.snapshot e, login.graphicalUsers = [])
    (hs : p.step e = some q) : Rootless q.daemon := by
  rcases Process.step_cases hwf hs with ⟨_, hquiet, _⟩ |
    ⟨_, hconn, _, _, isDir, forceActive, n, hdaemon⟩ | ⟨isDir, rfl, _⟩
  · exact ⟨hquiet.calls ▸ h.calls, hquiet.graphicalUsers ▸ h.graphicalUsers⟩
  · rw [hdaemon]
    exact Rootless.updates n ⟨h.calls, h.graphicalUsers⟩ hconn hempty
  · cases hstop

/-- What holds while nobody is graphical. Any call may be refused. -/
structure Left (units : UnitStore) (h : Host) : Prop where
  wf : h.process.Wf
  rootless : Rootless h.process.daemon
  follows : Follows UnitCall.unit UnitCall.properties (fun _ => True) units h.calls h.systemd

theorem Left.process (hleft : Left units h) {p : Process} {e : Event} (hstop : e.isStop = false)
    (hempty : ∀ login ∈ h.process.snapshot e, login.graphicalUsers = [])
    (hs : h.process.step e = some p) : Left units { h with process := p } := by
  obtain ⟨more, hcalls⟩ := calls_process_step hleft.wf hs
  refine ⟨hleft.wf.step hs, hleft.rootless.process hleft.wf hstop hempty hs, ?_⟩
  rw [calls, hcalls]
  exact hleft.follows.append more

theorem Left.step {e : HostEvent} (happly : SetsUnitProperties apply) (hleft : Left units h)
    (hnobody : h.NobodyGraphical e) (hs : h.step apply e = some h') : Left units h' := by
  cases e with
  | daemon e =>
      simp only [Host.step, Option.ite_none_right_eq_some] at hs
      obtain ⟨p, hp, rfl⟩ := Option.map_eq_some_iff.mp hs.2
      exact hleft.process hnobody.1 hnobody.2 hp
  | timeout =>
      obtain ⟨p, hp, rfl⟩ := Option.map_eq_some_iff.mp hs
      exact hleft.process rfl (fun _ hmem => absurd hmem (Option.not_mem_none _)) hp
  | handle accepted =>
      obtain ⟨o, ho, rfl⟩ := Option.map_eq_some_iff.mp hs
      exact ⟨hleft.wf, hleft.rootless, hleft.follows.handle happly ho fun _ _ _ => trivial⟩

/-- What a restart does not heal: `user.slice` is only set when the number of
graphical users changes. -/
theorem leftover_kept (availableRam : UInt64) (happly : SetsUnitProperties apply)
    (units : UnitStore)
    (hreach : ReachableBy (step apply) NobodyGraphical (init availableRam units) h)
    (prot : Protection) :
    h.memory "user.slice".toList prot = units.memory "user.slice".toList prot := by
  have hstart : Left units (init availableRam units) :=
    ⟨Process.wf_init availableRam, ⟨fun _ hc => (by cases hc), rfl⟩, follows_init _ _ _⟩
  have hleft : Left units h :=
    hreach.invariant hstart fun _ _ _ hl hnobody hs => hl.step happly hnobody hs
  obtain ⟨_, taken, htaken, hstore⟩ := hleft.follows
  have hnone : lastCall "user.slice".toList taken = none :=
    (LastWrite.last_eq_none _).mpr fun c hc =>
      hleft.rootless.calls c ((List.take_prefix _ _).subset (htaken.subset hc))
  rw [memory, hstore]
  exact memory_of_last_none hnone

theorem leftover_kept_recovered :
    ((checkedRun (step documented) NobodyGraphical (init 0 leftovers)
      [.daemon (.start ⟨some [], some [1000]⟩ none), .daemon (.busAcquired true),
        .daemon (.nameAcquired fun _ => true), .handle true, .handle false]).get
          (by decide)).memory "user.slice".toList .min = 4096 :=
  leftover_kept 0 (sets_put _ _) leftovers (reachableBy_checkedRun (by decide)) .min

/-! ### After a shutdown -/

structure Accounted (h : Host) : Prop where
  replies_le : h.process.daemon.bus.replies ≤ h.calls.length
  answered_le : h.answered ≤ h.systemd.handled
  imbalance : h.process.daemon.imbalance = 0

theorem Accounted.daemon {e : Event} {p : Process} (ha : Accounted h) (hwf : h.process.Wf)
    (hreply : e.isReply = true → h.answered < h.systemd.handled)
    (hprompt : e.isStop = true → h.process.daemon.manager.connection = true)
    (hs : h.process.step e = some p) : Accounted { h with process := p } := by
  obtain ⟨hle, hanswered, himbalance⟩ := ha
  have hbalance : p.daemon.imbalance = 0 := by
    rcases Process.imbalance_step hwf hs with ⟨isDir, rfl, heq⟩ | ⟨_, heq⟩
    · rw [heq, himbalance, if_pos (hprompt rfl), add_zero]
    · exact heq.trans himbalance
  simp only [answered, calls] at hle hanswered hreply
  cases hr : e.isReply with
  | false =>
      obtain ⟨more, hcalls, hreplies⟩ := Process.issued_step hwf hs hr
      refine ⟨?_, ?_, hbalance⟩ <;>
        simp only [answered, calls, hcalls, hreplies, List.length_append] <;> omega
  | true =>
      have hlt := hreply hr
      cases e <;> cases hr
      simp only [Process.step, Option.ite_none_right_eq_some, Option.some.injEq] at hs
      obtain ⟨hpos, rfl⟩ := hs
      refine ⟨?_, ?_, hbalance⟩ <;>
        simp only [answered, calls] <;> omega

theorem Accounted.step {e : HostEvent} (ha : Accounted h) (hwf : h.process.Wf)
    (hprompt : h.Prompt e) (hs : h.step apply e = some h') : Accounted h' := by
  cases e with
  | daemon e =>
      simp only [Host.step, Option.ite_none_right_eq_some] at hs
      obtain ⟨p, hp, rfl⟩ := Option.map_eq_some_iff.mp hs.2
      exact ha.daemon hwf hs.1 hprompt hp
  | timeout => exact hprompt.elim
  | handle accepted =>
      obtain ⟨o, ho, rfl⟩ := Option.map_eq_some_iff.mp hs
      obtain ⟨c, _, rfl⟩ := Option.map_eq_some_iff.mp ho
      exact ⟨ha.replies_le, ha.answered_le.trans (Nat.le_succ _), ha.imbalance⟩

theorem accounted_of_reachable {availableRam : UInt64}
    (hreach : ReachableBy (step apply) (fun h e => Ordered (fun _ => False) h e ∧ Prompt h e)
      (init availableRam units) h) :
    Accounted h ∧ (h.process.stopped = true → h.process.daemon.manager.graphicalUsers = []) := by
  have hstart : Accounted (init availableRam units) := ⟨le_rfl, Nat.zero_le _, rfl⟩
  suffices hboth : h.process.Guarded ∧ Accounted h ∧
      (h.process.stopped = true → h.process.daemon.manager.graphicalUsers = []) from hboth.2
  refine hreach.invariant (I := fun h => h.process.Guarded ∧ Accounted h ∧
      (h.process.stopped = true → h.process.daemon.manager.graphicalUsers = []))
    ⟨Process.guarded_init availableRam, hstart, fun _ => rfl⟩ ?_
  rintro h e h' ⟨hguarded, ha, hgraphical⟩ ⟨ho, hprompt⟩ hs
  have haccounted := ha.step hguarded.wf hprompt hs
  cases e with
  | daemon e =>
      simp only [Host.step, Option.ite_none_right_eq_some] at hs
      obtain ⟨p, hp, rfl⟩ := Option.map_eq_some_iff.mp hs.2
      exact ⟨hguarded.step ho hp, haccounted,
        Process.graphicalUsers_step_of_stopped hguarded.wf hgraphical hp⟩
  | timeout => exact hprompt.elim
  | handle accepted =>
      obtain ⟨o, _, rfl⟩ := Option.map_eq_some_iff.mp hs
      exact ⟨hguarded, haccounted, hgraphical⟩

/-- When the daemon was stopped with a connection, no reply was given up and no call
refused, and the loop in `r_manager_flush` has ended, then every call has been handled,
and systemd protects nothing of what the daemon protects. -/
theorem released_of_flushed (availableRam : UInt64) (happly : SetsUnitProperties apply)
    (hunits : units.Unprotected)
    (hreach : ReachableBy (step apply) (fun h e => Ordered (fun _ => False) h e ∧ Prompt h e)
      (init availableRam units) h) (hstopped : h.process.stopped = true)
    (hflushed : ¬ 0 < h.process.daemon.manager.pendingCalls) :
    h.Handled ∧ UnitStore.Unprotected h.systemd.store := by
  have hinv := inv_of_reachable happly (fun _ _ hc => hc.1) hreach
  obtain ⟨ha, hgraphical⟩ := accounted_of_reachable hreach
  have houtstanding : h.process.daemon.manager.pendingCalls =
      h.process.daemon.bus.outstanding := sub_eq_zero.mp ha.imbalance
  have hreplies : h.process.daemon.bus.replies = 0 := by
    simp only [GDBus.outstanding] at houtstanding
    omega
  have hall : h.Handled := by
    have hanswered := ha.answered_le
    rw [answered, hreplies, Nat.sub_zero] at hanswered
    exact hinv.follows.handled_le.antisymm hanswered
  refine ⟨hall, fun prot => ⟨?_, fun uid => ?_⟩⟩
  · have hslice := hinv.memory_slice hall hunits prot
    rw [hgraphical hstopped, List.length_nil, Nat.zero_mul, Nat.zero_min] at hslice
    exact hslice
  · have hnot : uid ∉ h.process.daemon.manager.graphicalUsers := by
      rw [hgraphical hstopped]
      exact List.not_mem_nil
    exact hinv.memory_nobody hall hunits hnot prot

def flushed : Host :=
  (checkedRun (step documented) (fun h e => Ordered (fun _ => False) h e ∧ Prompt h e)
    (init 0 .init) (comesUp ++ [.daemon (.stop fun _ => true)] ++
      List.replicate 10 (.handle true) ++ List.replicate 10 (.daemon .reply) ++
      [.daemon .nameDestroyed, .daemon .objectDestroyed])).get (by decide)

theorem released_of_flushed_flushed : flushed.memory (userSlice 1000) .min = 0 :=
  ((released_of_flushed 0 (sets_put _ _) UnitStore.unprotected_init
    (reachableBy_checkedRun (by decide)) (by decide)
    (by decide)).2 .min).2 1000 |>.1

end Host

end Uresourced
