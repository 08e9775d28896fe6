import Mathlib.Data.Int.Basic
import Uresourced.Lib.GArray
import Uresourced.Lib.CString

/-!
`utils.c`: user ids, and the names and cgroups of units.

`uidCmp` is the comparison function that every array of user ids is sorted and
searched with. It subtracts unsigned numbers and returns the bits as a signed
`int`, which is an order on the ids below `2 ^ 31` only; `SmallUids` is that
range.
-/

namespace Uresourced

abbrev Uid := UInt32

/-! ### Comparing user ids -/

def uidCmp (a b : Uid) : Int := (a - b).toInt32.toInt

/-- The user ids on which `uid_cmp` is an order. -/
def SmallUids (uids : List Uid) : Prop := ∀ uid ∈ uids, uid.toNat < 0x80000000

/-- The arrays that `g_array_binary_search` can search: sorted, without
duplicates, and of small ids. -/
structure SortedUids (uids : List Uid) : Prop where
  sorted : uids.Pairwise fun a b => a.toNat < b.toNat
  small : SmallUids uids

-- user ids are a finite type, which is not to be enumerated
instance (uids : List Uid) : Decidable (SmallUids uids) := List.decidableBAll _ uids

instance (uids : List Uid) : Decidable (SortedUids uids) :=
  decidable_of_iff (uids.Pairwise (fun a b => a.toNat < b.toNat) ∧ SmallUids uids)
    ⟨fun h => ⟨h.1, h.2⟩, fun h => ⟨h.1, h.2⟩⟩

theorem SortedUids.nodup {uids : List Uid} (h : SortedUids uids) : uids.Nodup :=
  h.sorted.imp fun hlt heq => hlt.ne (congrArg UInt32.toNat heq)

/-- The difference of ids that are close to each other fits into an `int`. -/
theorem uidCmp_of_close {a b : Uid} (hab : a.toNat < b.toNat + 0x80000000)
    (hba : b.toNat < a.toNat + 0x80000000) : uidCmp a b = (a.toNat : Int) - b.toNat := by
  have hsub : (a - b).toNat = (0x100000000 - b.toNat + a.toNat) % 0x100000000 :=
    UInt32.toNat_sub a b
  have hbits : (a - b).toInt32.toInt = ((a - b).toNat : Int).bmod 0x100000000 := by
    rw [Int32.toInt, UInt32.toBitVec_toInt32, BitVec.toInt_eq_toNat_bmod]
    rfl
  have hb := b.toNat_lt
  rw [uidCmp, hbits, hsub, Int.bmod]
  split <;> omega

theorem uidCmp_of_small {a b : Uid} (ha : a.toNat < 0x80000000) (hb : b.toNat < 0x80000000) :
    uidCmp a b = (a.toNat : Int) - b.toNat :=
  uidCmp_of_close (by omega) (by omega)

theorem orders_uidCmp {a b : Uid} (ha : a.toNat < 0x80000000) (hb : b.toNat < 0x80000000) :
    GArray.Orders uidCmp UInt32.toNat a b := by
  unfold GArray.Orders
  rw [uidCmp_of_small ha hb]
  omega

theorem binarySearch_uidCmp {uids : List Uid} {uid : Uid} (h : SortedUids uids)
    (huid : uid.toNat < 0x80000000) : GArray.binarySearch uidCmp uids uid = true ↔ uid ∈ uids := by
  rw [GArray.binarySearch_iff (h.sorted.imp le_of_lt) fun a ha => orders_uidCmp (h.small a ha) huid]
  constructor
  · rintro ⟨a, ha, hkey⟩
    exact UInt32.toNat_inj.mp hkey ▸ ha
  · exact fun hmem => ⟨uid, hmem, rfl⟩

theorem uidCmp_eq_zero_iff {a b : Uid} : uidCmp a b = 0 ↔ a = b := by
  constructor
  · intro h
    have hsub : (a - b).toInt32 = 0 := Int32.toInt_inj.mp h
    have hzero : a - b = 0 := by
      rw [← UInt32.toUInt32_toInt32 (a - b), hsub]
      rfl
    rw [← UInt32.sub_add_cancel a b, hzero, UInt32.zero_add]
  · rintro rfl
    rw [uidCmp, UInt32.sub_self]
    rfl

/-- A hit is a member of any array, also where the order breaks down. -/
theorem mem_of_binarySearch_uidCmp {uids : List Uid} {uid : Uid}
    (h : GArray.binarySearch uidCmp uids uid = true) : uid ∈ uids := by
  obtain ⟨a, ha, hcmp⟩ := GArray.exists_of_binarySearch h
  exact uidCmp_eq_zero_iff.mp hcmp ▸ ha

theorem uidCmp_swap {a b : Uid} (h : 0 < uidCmp a b) : uidCmp b a < 0 := by
  have hneg : b - a = -(a - b) := by rw [UInt32.neg_sub]
  have hlt := (a - b).toInt32.toInt_lt
  rw [uidCmp] at h
  rw [uidCmp, hneg, UInt32.toInt32_neg, Int32.toInt_neg, Int.bmod_eq_of_le (by omega) (by omega)]
  omega

/-- User ids on which `uid_cmp` is transitive. -/
def OrderedUids (uids : List Uid) : Prop :=
  ∀ a ∈ uids, ∀ b ∈ uids, ∀ c ∈ uids, uidCmp a b < 0 → uidCmp b c < 0 → uidCmp a c < 0

instance (uids : List Uid) : Decidable (OrderedUids uids) :=
  let _ (a b : Uid) : Decidable (∀ c ∈ uids, uidCmp a b < 0 → uidCmp b c < 0 → uidCmp a c < 0) :=
    List.decidableBAll _ uids
  let _ (a : Uid) : Decidable (∀ b ∈ uids, ∀ c ∈ uids, uidCmp a b < 0 → uidCmp b c < 0 →
      uidCmp a c < 0) :=
    List.decidableBAll _ uids
  List.decidableBAll _ uids

theorem OrderedUids.isOrderOn {uids : List Uid} (h : OrderedUids uids) :
    GArray.IsOrderOn uidCmp uids where
  eq_iff _ _ _ _ := uidCmp_eq_zero_iff
  swap _ _ _ _ := uidCmp_swap
  trans := h

/-- In particular the ids may lie anywhere, if they lie close to each other. -/
theorem orderedUids_of_close {uids : List Uid}
    (h : ∀ a ∈ uids, ∀ b ∈ uids, a.toNat < b.toNat + 0x80000000) : OrderedUids uids := by
  intro a ha b hb c hc hab hbc
  rw [uidCmp_of_close (h a ha b hb) (h b hb a ha)] at hab
  rw [uidCmp_of_close (h b hb c hc) (h c hc b hb)] at hbc
  rw [uidCmp_of_close (h a ha c hc) (h c hc a ha)]
  omega

/-! ### Units and their cgroups -/

def pathTokens (path : CString) : List CString :=
  (path.splitOn '/').filter (· ≠ [])

open CString in
def unitNameOfTokens : Bool → List CString → Option CString
  | _, [] => none
  | afterUserService, token :: rest =>
      if hasPrefix token "user@".toList && hasSuffix token ".service".toList then
        unitNameOfTokens true rest
      else if afterUserService && !hasSuffix token ".slice".toList then
        match token with
        | '_' :: name => some name
        | name => some name
      else unitNameOfTokens afterUserService rest

def getUnitNameFromPath (path : CString) : Option CString :=
  unitNameOfTokens false (pathTokens path)

def strstr (pattern : CString) : CString → Option ℕ
  | [] => if pattern = [] then some 0 else none
  | c :: cs =>
      if pattern.isPrefixOf (c :: cs) then some 0 else (strstr pattern cs).map (· + 1)

/-- `get_available_ram`, with the contents of `/proc/meminfo` if it can be read. The
value is given in kB. -/
def getAvailableRam (contents : Option CString) : UInt64 :=
  match contents with
  | none => 0
  | some contents =>
      match strstr "MemTotal:".toList contents with
      | none => 0
      | some memTotal => CString.strtoull 10 (contents.drop (memTotal + 9)) * 1024

/-- What systemd knows about a process: its cgroup and its user unit. A query
fails for a process that has exited. -/
structure PidInfo where
  cgroup : Option CString
  userUnit : Option CString
  deriving DecidableEq, Repr

/-- `get_unit_cgroup_path_from_pid`. The unit name is part of the cgroup path it
was derived from, so that `strstr` finds it; where it does not, the C code has
no defined result. -/
def getUnitCgroupPathFromPid (pid : PidInfo) : Option CString := do
  let contents ← pid.cgroup
  let completePath := "/sys/fs/cgroup".toList ++ CString.strip contents
  let unitName ← CString.strip <$> pid.userUnit
  let offset ← strstr unitName completePath
  return completePath.take (offset + unitName.length)

example :
    getUnitNameFromPath
        "/sys/fs/cgroup/user.slice/user-1000.slice/user@1000.service/app.slice/_x.service/1".toList
      = some "x.service".toList := by decide

end Uresourced
