import Uresourced.Manager.Allocation

/-!
`r-manager.c`: reading the configuration of the system daemon.

The key file is GLib's: what its getters answer for a group and a key is a
parameter. A getter that reports an error also returns a value, 0 or no string,
and `read_config` stores that value unless it replaces it by hand.
-/

namespace Uresourced

open CString

inductive KeyFileError
  | groupNotFound
  | keyNotFound
  | invalidValue (message : CString)
  deriving DecidableEq, Repr

structure KeyFile where
  string : CString → CString → Except KeyFileError CString
  integer : CString → CString → Except KeyFileError Int32

/-- `g_key_file_get_integer`: 0 stands in for the value on an error. -/
def KeyFile.getInteger (file : KeyFile) (group key : CString) :
    Int32 × Option KeyFileError :=
  match file.integer group key with
  | .ok value => (value, none)
  | .error e => (0, some e)

/-- `config_get_memory`: the size and the error. Only the first character after
the number is looked at. -/
def configGetMemory (availableRam : UInt64) (file : KeyFile) (group key : CString) :
    UInt64 × Option KeyFileError :=
  match file.string group key with
  | .error e => (0, some e)
  | .ok valueString =>
      let (value, rest) := strtoll 10 valueString
      let res := UInt64.ofInt value
      -- `end` has not moved: there is no number
      if rest.length = valueString.length then
        (0, some (.invalidValue "Could not parse memory key".toList))
      else
        match rest with
        | [] => (res, none)
        | 'K' :: _ => (res * 1024, none)
        | 'M' :: _ => (res * 1024 * 1024, none)
        | 'G' :: _ => (res * 1024 * 1024 * 1024, none)
        | 'T' :: _ => (res * 1024 * 1024 * 1024 * 1024, none)
        -- the number is unsigned by now, so that a negative percentage counts as 100
        | '%' :: _ => (min 100 res * availableRam / 100, none)
        | c :: _ => (0, some (.invalidValue ("Unknown unit ".toList ++ [c])))

/-- The value of a key of the session slice: the fallback replaces it on an error. -/
def orFallback {α : Type} (fallback : α) : α × Option KeyFileError → α
  | (value, none) => value
  | (_, some _) => fallback

/-- `read_config`; `none` is a file that cannot be loaded. -/
def RManager.readConfig (self : RManager) : Option KeyFile → RManager
  | none => self
  | some file =>
      let memory := configGetMemory self.availableRam file
      -- the errors for active users are dropped, and what stands in for a value is stored
      let activeUser : RAllocation :=
        { memoryMin := (memory "ActiveUser".toList "MemoryMin".toList).1
          memoryLow := (memory "ActiveUser".toList "MemoryLow".toList).1
          cpuWeight := (file.getInteger "ActiveUser".toList "CPUWeight".toList).1
          ioWeight := (file.getInteger "ActiveUser".toList "IOWeight".toList).1 }
      { self with
        maxUsersMemoryMin := (memory "Global".toList "MaxMemoryMin".toList).1
        maxUsersMemoryLow := (memory "Global".toList "MaxMemoryLow".toList).1
        activeUser := activeUser
        sessionSlice :=
          { memoryMin := orFallback activeUser.memoryMin
              (memory "SessionSlice".toList "MemoryMin".toList)
            memoryLow := orFallback activeUser.memoryLow
              (memory "SessionSlice".toList "MemoryLow".toList)
            cpuWeight := orFallback activeUser.cpuWeight
              (file.getInteger "SessionSlice".toList "CPUWeight".toList)
            ioWeight := orFallback activeUser.ioWeight
              (file.getInteger "SessionSlice".toList "IOWeight".toList) } }

namespace RManager

/-- Reading the configuration sets allocations and bounds, nothing else: in
particular the allocation of inactive users stays what `r_manager_init` set. -/
theorem readConfig_eq (self : RManager) (file : Option KeyFile) :
    self.readConfig file =
      { self with
        maxUsersMemoryMin := (self.readConfig file).maxUsersMemoryMin
        maxUsersMemoryLow := (self.readConfig file).maxUsersMemoryLow
        activeUser := (self.readConfig file).activeUser
        sessionSlice := (self.readConfig file).sessionSlice } := by
  cases file <;> rfl

end RManager

/-! ### The weights that systemd takes -/

def ValidWeight (weight : UInt64) : Prop := 1 ≤ weight ∧ weight ≤ 10000

instance (weight : UInt64) : Decidable (ValidWeight weight) := inferInstanceAs (Decidable (_ ∧ _))

theorem toNat_ofInt (i : ℤ) : (UInt64.ofInt i).toNat = (i % 0x10000000000000000).toNat := by
  rw [UInt64.ofInt, UInt64.toNat_ofNat']
  omega

theorem toUInt64_toInt64 (w : Int32) : w.toInt64.toUInt64 = UInt64.ofInt w.toInt := by
  apply UInt64.toNat_inj.mp
  rw [toNat_ofInt, ← Int64.toNat_toBitVec, ← Int32.toInt_toInt64 w, Int64.toInt,
    BitVec.toInt_eq_toNat_cond]
  split <;> omega

theorem toNat_toUInt64_toInt64 {w : Int32} (h : 0 ≤ w.toInt) :
    (w.toInt64.toUInt64.toNat : Int) = w.toInt := by
  have hlt : w.toInt < 0x80000000 := w.toInt_lt
  rw [toUInt64_toInt64, toNat_ofInt]
  omega

/-- A negative one wraps around. -/
theorem toNat_toUInt64_toInt64_of_neg {w : Int32} (h : w.toInt < 0) :
    2 ^ 63 ≤ w.toInt64.toUInt64.toNat := by
  have hle : -0x80000000 ≤ w.toInt := w.le_toInt
  rw [toUInt64_toInt64, toNat_ofInt]
  omega

theorem validWeight_toUInt64_iff (w : Int32) :
    ValidWeight w.toInt64.toUInt64 ↔ 1 ≤ w.toInt ∧ w.toInt ≤ 10000 := by
  rw [ValidWeight, UInt64.le_iff_toNat_le, UInt64.le_iff_toNat_le]
  rcases lt_or_ge w.toInt 0 with hneg | hnonneg
  · have hlarge := toNat_toUInt64_toInt64_of_neg hneg
    simp
    omega
  · have hvalue := toNat_toUInt64_toInt64 hnonneg
    simp
    omega

end Uresourced
