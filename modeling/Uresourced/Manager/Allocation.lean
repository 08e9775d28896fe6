import Mathlib.Data.UInt
import Uresourced.SdLogin
import Uresourced.Lib.LastWrite

/-!
`r-manager.c`: the allocations and the update of all users.

The manager talks to systemd by `SetUnitProperties` calls on its D-Bus
connection. `Daemon` puts the manager next to what GDBus has seen of it: the
calls it was given, in order, and the callbacks it still owes. A call names the
allocation that the C function was given a pointer to, besides the properties
that were put into the message.
-/

namespace Uresourced

open CString

/-! ### Allocations -/

def weightIgnore : Int32 := Int32.minValue

structure RAllocation where
  cpuWeight : Int32
  ioWeight : Int32
  memoryMin : UInt64
  memoryLow : UInt64
  deriving DecidableEq, Repr

/-- The `a(sv)` part of a `SetUnitProperties` message. A weight is converted
from `gint` to `guint64`. -/
def RAllocation.properties (allocation : RAllocation) : List (CString × UInt64) :=
  [("MemoryMin".toList, allocation.memoryMin), ("MemoryLow".toList, allocation.memoryLow)] ++
    (if allocation.cpuWeight ≠ weightIgnore then
      [("CPUWeight".toList, allocation.cpuWeight.toInt64.toUInt64)] else []) ++
    if allocation.ioWeight ≠ weightIgnore then
      [("IOWeight".toList, allocation.ioWeight.toInt64.toUInt64)] else []

/-- What the last argument of `set_unit_resources` points to: one of the two
configured allocations, or the local variable of `set_user_slice_resources`,
which is computed from a number of active users. -/
inductive AllocationPtr
  | activeUser
  | inactiveUser
  | alloc (activeUsers : ℕ)
  deriving DecidableEq, Repr

structure UnitCall where
  unit : CString
  allocation : AllocationPtr
  properties : List (CString × UInt64)
  deriving DecidableEq, Repr

/-- What GDBus knows of the manager: the calls issued on the connection, oldest
first, the number of accepted calls whose callback has not run, and whether the
destroy notifications of the owned name and of the exported object are still
to come. -/
structure GDBus where
  calls : List UnitCall
  replies : ℕ
  nameNotify : Bool
  objectNotify : Bool
  deriving DecidableEq, Repr

/-- `struct _RManager`. The connection, the owned name and the exported object
count only as set or not set. -/
structure RManager where
  graphicalUsers : List Uid
  allUsers : List Uid
  pendingCalls : Int
  connection : Bool
  busName : Bool
  dbusObj : Bool
  login : Option RSdLogin
  availableRam : UInt64
  maxUsersMemoryMin : UInt64
  maxUsersMemoryLow : UInt64
  activeUser : RAllocation
  inactiveUser : RAllocation
  sessionSlice : RAllocation
  deriving DecidableEq, Repr

structure Daemon where
  manager : RManager
  bus : GDBus
  deriving DecidableEq, Repr

def RManager.init (availableRam : UInt64) : RManager where
  graphicalUsers := []
  allUsers := []
  pendingCalls := 0
  connection := false
  busName := false
  dbusObj := false
  login := none
  availableRam := availableRam
  maxUsersMemoryMin := 0
  maxUsersMemoryLow := 0
  activeUser := ⟨weightIgnore, weightIgnore, 0, 0⟩
  inactiveUser := ⟨100, 100, 0, 0⟩
  sessionSlice := ⟨weightIgnore, weightIgnore, 0, 0⟩

def GDBus.init : GDBus := ⟨[], 0, false, false⟩

/-! ### Unit names -/

/-- What `%i` prints for a `uid_t`, which is passed as an `int`. -/
def printUid (uid : Uid) : CString := formatInt uid.toInt32.toInt

def userSlice (uid : Uid) : CString :=
  "user-".toList ++ (printUid uid ++ ".slice".toList)

def userService (uid : Uid) : CString :=
  "user@".toList ++ (printUid uid ++ ".service".toList)

/-- The cgroup whose existence tells that the user's own daemon is running. -/
def uresourcedCgroup (uid : Uid) : CString :=
  "/sys/fs/cgroup/user.slice/user-".toList ++ (printUid uid ++ (".slice/user@".toList ++
    (printUid uid ++ ".service/uresourced.service".toList)))

theorem printUid_injective : Function.Injective printUid := by
  intro a b h
  have hint : a.toInt32 = b.toInt32 := Int32.toInt_inj.mp (formatInt_injective h)
  rw [← UInt32.toUInt32_toInt32 a, hint, UInt32.toUInt32_toInt32]

@[simp] theorem userSlice_inj {a b : Uid} : userSlice a = userSlice b ↔ a = b := by
  refine ⟨fun h => ?_, fun h => h ▸ rfl⟩
  exact printUid_injective (List.append_cancel_right (List.append_cancel_left h))

@[simp] theorem userService_inj {a b : Uid} : userService a = userService b ↔ a = b := by
  refine ⟨fun h => ?_, fun h => h ▸ rfl⟩
  exact printUid_injective (List.append_cancel_right (List.append_cancel_left h))

@[simp] theorem userSlice_ne_userService (a b : Uid) : userSlice a ≠ userService b := by
  intro h
  have hchar := congrArg (fun s : CString => s[4]?) h
  change some '-' = some '@' at hchar
  cases hchar

@[simp] theorem userService_ne_userSlice (a b : Uid) : userService a ≠ userSlice b :=
  (userSlice_ne_userService b a).symm

@[simp] theorem userSlice_ne_root (a : Uid) : userSlice a ≠ "user.slice".toList := by
  intro h
  have hchar := congrArg (fun s : CString => s[4]?) h
  change some '-' = some '.' at hchar
  cases hchar

@[simp] theorem userService_ne_root (a : Uid) : userService a ≠ "user.slice".toList := by
  intro h
  have hchar := congrArg (fun s : CString => s[4]?) h
  change some '@' = some '.' at hchar
  cases hchar

/-! ### Issuing calls -/

theorem toNat_min (x y : UInt64) : (min x y).toNat = min x.toNat y.toNat := by
  have hcases : min x y = if x ≤ y then x else y := rfl
  rw [hcases]
  split
  · next h => exact (min_eq_left (UInt64.le_iff_toNat_le.mp h)).symm
  · next h =>
    have hlt : ¬ x.toNat ≤ y.toNat := fun hle => h (UInt64.le_iff_toNat_le.mpr hle)
    exact (min_eq_right (by omega)).symm

/-- `MIN (active_users * size, max)`. The number of users is passed as a `gint`
and converted to `guint64`, in which the product is taken, before the minimum. -/
def sliceMemory (activeUsers : ℕ) (size max : UInt64) : UInt64 :=
  min ((Int32.ofNat activeUsers).toInt64.toUInt64 * size) max

@[simp] theorem sliceMemory_zero (size max : UInt64) : sliceMemory 0 size max = 0 := by
  have hproduct : (Int32.ofNat 0).toInt64.toUInt64 * size = 0 := UInt64.zero_mul
  rw [sliceMemory, hproduct]
  exact if_pos UInt64.zero_le

namespace RManager

def allocation (self : RManager) : AllocationPtr → RAllocation
  | .activeUser => self.activeUser
  | .inactiveUser => self.inactiveUser
  | .alloc activeUsers =>
      { cpuWeight := weightIgnore
        ioWeight := weightIgnore
        memoryMin :=
          sliceMemory activeUsers self.activeUser.memoryMin self.maxUsersMemoryMin
        memoryLow :=
          sliceMemory activeUsers self.activeUser.memoryLow self.maxUsersMemoryLow }

/-- The message that `set_unit_resources` builds. -/
def unitCall (self : RManager) (unit : CString) (allocation : AllocationPtr) : UnitCall :=
  ⟨unit, allocation, (self.allocation allocation).properties⟩

end RManager

namespace Daemon

/-- The end of `set_unit_resources`: `g_dbus_connection_call`, which does nothing
without a connection, and the count of pending calls. -/
def call (s : Daemon) (c : UnitCall) : Daemon where
  manager := { s.manager with pendingCalls := s.manager.pendingCalls + 1 }
  bus :=
    if s.manager.connection then
      { s.bus with calls := s.bus.calls ++ [c], replies := s.bus.replies + 1 }
    else s.bus

def setUnitResources (s : Daemon) (unit : CString) (allocation : AllocationPtr) : Daemon :=
  s.call (s.manager.unitCall unit allocation)

def setUserSliceResources (s : Daemon) (activeUsers : ℕ) : Daemon :=
  s.setUnitResources "user.slice".toList (.alloc activeUsers)

section Update

-- what `g_file_test (path, G_FILE_TEST_IS_DIR)` says while the update runs
variable (isDir : CString → Bool)

def userHasSystemdGraphical (uid : Uid) : Bool := isDir (uresourcedCgroup uid)

def setUserResources (s : Daemon) (uid : Uid) (active : Bool) : Daemon :=
  if active then
    let s := s.setUnitResources (userSlice uid) .activeUser
    if userHasSystemdGraphical isDir uid then
      s.setUnitResources (userService uid) .activeUser
    else s.setUnitResources (userService uid) .inactiveUser
  else
    let s := s.setUnitResources (userSlice uid) .inactiveUser
    s.setUnitResources (userService uid) .inactiveUser

/-- `updat_user_allocations`, with the arrays that `r_sd_login_get_users` hands
out. -/
def updatUserAllocations (s : Daemon) (allUsers graphicalUsers : List Uid)
    (forceActive : Bool) : Daemon :=
  let self := s.manager
  -- the user slice is raised before anything is granted
  let s := if graphicalUsers.length > self.graphicalUsers.length then
    s.setUserSliceResources graphicalUsers.length else s
  -- revoke from users that are not active anymore, and from users not known before
  let s := self.graphicalUsers.foldl (fun s uid =>
    if !GArray.binarySearch uidCmp graphicalUsers uid then s.setUserResources isDir uid false
    else s) s
  let s := allUsers.foldl (fun s uid =>
    if GArray.binarySearch uidCmp graphicalUsers uid then s
    else if !GArray.binarySearch uidCmp self.allUsers uid then s.setUserResources isDir uid false
    else s) s
  let s := graphicalUsers.foldl (fun s uid =>
    if forceActive || !GArray.binarySearch uidCmp self.graphicalUsers uid then
      s.setUserResources isDir uid true
    else s) s
  -- and lowered only after everything has been revoked
  let s := if graphicalUsers.length < self.graphicalUsers.length then
    s.setUserSliceResources graphicalUsers.length else s
  { s with manager := { s.manager with graphicalUsers := graphicalUsers, allUsers := allUsers } }

end Update

/-! ### An update as a list of calls

Nothing that an update reads is changed by the calls it issues, so an update is
a list of calls that is known beforehand, issued in order.
-/

def issue (s : Daemon) (calls : List UnitCall) : Daemon := calls.foldl call s

@[simp] theorem issue_nil (s : Daemon) : s.issue [] = s := rfl

theorem issue_append (s : Daemon) (cs ds : List UnitCall) :
    s.issue (cs ++ ds) = (s.issue cs).issue ds := List.foldl_append

theorem issue_manager (s : Daemon) (cs : List UnitCall) :
    (s.issue cs).manager =
      { s.manager with pendingCalls := s.manager.pendingCalls + cs.length } := by
  induction cs generalizing s with
  | nil => simp
  | cons c cs ih =>
      change ((s.call c).issue cs).manager = _
      rw [ih]
      simp only [call, List.length_cons]
      congr 1
      omega

theorem issue_bus (s : Daemon) (cs : List UnitCall) :
    (s.issue cs).bus = if s.manager.connection then
      { s.bus with calls := s.bus.calls ++ cs, replies := s.bus.replies + cs.length }
    else s.bus := by
  induction cs generalizing s with
  | nil => simp
  | cons c cs ih =>
      change ((s.call c).issue cs).bus = _
      rw [ih]
      by_cases h : s.manager.connection
      · simp [call, h, Nat.add_right_comm, Nat.add_assoc]
      · simp [call, h]

end Daemon

namespace RManager

def userCalls (self : RManager) (isDir : CString → Bool) (active : Bool) (uid : Uid) :
    List UnitCall :=
  [self.unitCall (userSlice uid) (if active then .activeUser else .inactiveUser),
    self.unitCall (userService uid)
      (if active && Daemon.userHasSystemdGraphical isDir uid then .activeUser
        else .inactiveUser)]

def sliceCalls (self : RManager) (due : Bool) (activeUsers : ℕ) : List UnitCall :=
  if due then [self.unitCall "user.slice".toList (.alloc activeUsers)] else []

def revoked (self : RManager) (graphicalUsers : List Uid) : List Uid :=
  self.graphicalUsers.filter fun uid => !GArray.binarySearch uidCmp graphicalUsers uid

/-- The users that are new and not graphical. -/
def unknown (self : RManager) (allUsers graphicalUsers : List Uid) : List Uid :=
  allUsers.filter fun uid => !GArray.binarySearch uidCmp graphicalUsers uid &&
    !GArray.binarySearch uidCmp self.allUsers uid

def granted (self : RManager) (graphicalUsers : List Uid) (forceActive : Bool) : List Uid :=
  graphicalUsers.filter fun uid =>
    forceActive || !GArray.binarySearch uidCmp self.graphicalUsers uid

def revokeCalls (self : RManager) (isDir : CString → Bool) (allUsers graphicalUsers : List Uid) :
    List UnitCall :=
  (self.revoked graphicalUsers ++ self.unknown allUsers graphicalUsers).flatMap
    (self.userCalls isDir false)

def grantCalls (self : RManager) (isDir : CString → Bool) (graphicalUsers : List Uid)
    (forceActive : Bool) : List UnitCall :=
  (self.granted graphicalUsers forceActive).flatMap (self.userCalls isDir true)

def updateCalls (self : RManager) (isDir : CString → Bool) (allUsers graphicalUsers : List Uid)
    (forceActive : Bool) : List UnitCall :=
  self.sliceCalls (graphicalUsers.length > self.graphicalUsers.length) graphicalUsers.length ++
    self.revokeCalls isDir allUsers graphicalUsers ++
    self.grantCalls isDir graphicalUsers forceActive ++
    self.sliceCalls (graphicalUsers.length < self.graphicalUsers.length) graphicalUsers.length

end RManager

namespace Daemon

variable (isDir : CString → Bool)

theorem setUserResources_eq (s : Daemon) (uid : Uid) (active : Bool) :
    s.setUserResources isDir uid active = s.issue (s.manager.userCalls isDir active uid) := by
  cases active with
  | false => rfl
  | true =>
      cases h : userHasSystemdGraphical isDir uid <;>
        simp only [setUserResources, RManager.userCalls, h] <;> rfl

/-- The calls for a user do not depend on how many calls are pending. -/
@[simp] theorem userCalls_issue (s : Daemon) (cs : List UnitCall) (active : Bool) (uid : Uid) :
    (s.issue cs).manager.userCalls isDir active uid = s.manager.userCalls isDir active uid := by
  rw [issue_manager]
  cases active <;> rfl

@[simp] theorem sliceCalls_issue (s : Daemon) (cs : List UnitCall) (due : Bool) (n : ℕ) :
    (s.issue cs).manager.sliceCalls due n = s.manager.sliceCalls due n := by
  rw [issue_manager]
  cases due <;> rfl

theorem foldl_setUserResources (p : Uid → Bool) (active : Bool) (uids : List Uid) (s : Daemon) :
    uids.foldl (fun s uid => if p uid then s.setUserResources isDir uid active else s) s =
      s.issue ((uids.filter p).flatMap (s.manager.userCalls isDir active)) := by
  induction uids generalizing s with
  | nil => rfl
  | cons uid uids ih =>
      rw [List.foldl_cons, ih]
      by_cases h : p uid
      · have hcalls : (s.issue (s.manager.userCalls isDir active uid)).manager.userCalls isDir
            active = s.manager.userCalls isDir active := by
          funext u
          exact userCalls_issue isDir s _ active u
        simp only [h, if_true, List.filter_cons, List.flatMap_cons, setUserResources_eq, hcalls,
          issue_append]
      · simp [h]

theorem setUserSliceResources_eq (s : Daemon) (due : Prop) [Decidable due] (n : ℕ) :
    (if due then s.setUserSliceResources n else s) = s.issue (s.manager.sliceCalls due n) := by
  by_cases h : due
  · simp only [RManager.sliceCalls, h, decide_true, if_true]
    rfl
  · simp [RManager.sliceCalls, h]

/-- An update issues `updateCalls` and stores the snapshot. -/
theorem updatUserAllocations_eq (s : Daemon) (allUsers graphicalUsers : List Uid)
    (forceActive : Bool) :
    s.updatUserAllocations isDir allUsers graphicalUsers forceActive =
      { s.issue (s.manager.updateCalls isDir allUsers graphicalUsers forceActive) with
        manager :=
          { (s.issue (s.manager.updateCalls isDir allUsers graphicalUsers forceActive)).manager with
            graphicalUsers := graphicalUsers, allUsers := allUsers } } := by
  have hunknown : (fun (s' : Daemon) (uid : Uid) =>
      if GArray.binarySearch uidCmp graphicalUsers uid then s'
      else if !GArray.binarySearch uidCmp s.manager.allUsers uid then
        s'.setUserResources isDir uid false
      else s') = fun s' uid =>
      if !GArray.binarySearch uidCmp graphicalUsers uid &&
        !GArray.binarySearch uidCmp s.manager.allUsers uid then
        s'.setUserResources isDir uid false
      else s' := by
    funext s' uid
    cases GArray.binarySearch uidCmp graphicalUsers uid <;> rfl
  have hcalls (cs : List UnitCall) (active : Bool) : (s.issue cs).manager.userCalls isDir active =
      s.manager.userCalls isDir active := by
    funext uid
    exact userCalls_issue isDir s cs active uid
  simp only [updatUserAllocations, hunknown, foldl_setUserResources, setUserSliceResources_eq,
    hcalls, sliceCalls_issue, ← issue_append]
  simp only [RManager.updateCalls, RManager.revokeCalls, RManager.grantCalls, RManager.revoked,
    RManager.unknown, RManager.granted, List.flatMap_append, List.append_assoc]

end Daemon

end Uresourced
