import Uresourced.Manager.Lifecycle
import Uresourced.Manager.Memory

/-!
How much memory `user.slice` is granted.

The configuration file promises the smaller one of the maximum and the size for
an active user times the number of active users. `set_user_slice_resources`
takes the product in `guint64`, so it may wrap around before it is compared with
the maximum; `Unwrapped` are the numbers and sizes on which this does not show.
-/

namespace Uresourced

open CString

/-! ### Products that wrap around -/

theorem min_eq_min_iff {α : Type*} [LinearOrder α] {a b c : α} :
    min a c = min b c ↔ a = b ∨ c ≤ a ∧ c ≤ b := by
  rw [inf_eq_inf_iff_right, min_le_iff, min_le_iff]
  constructor
  · rintro ⟨hba | hca, hab | hcb⟩
    · exact .inl (hab.antisymm hba)
    · exact .inr ⟨hcb.trans hba, hcb⟩
    · exact .inr ⟨hca, hca.trans hab⟩
    · exact .inr ⟨hca, hcb⟩
  · rintro (rfl | ⟨hca, hcb⟩)
    · exact ⟨.inl le_rfl, .inl le_rfl⟩
    · exact ⟨.inr hca, .inr hcb⟩

def guint64Product (activeUsers size : ℕ) : ℕ :=
  ((activeUsers : ℤ).bmod 0x100000000 * size % 0x10000000000000000).toNat

theorem guint64Product_of_lt {activeUsers : ℕ} (h : activeUsers < 0x80000000) (size : ℕ) :
    guint64Product activeUsers size = activeUsers * size % 0x10000000000000000 := by
  have hcount : (activeUsers : ℤ).bmod 0x100000000 = activeUsers := by
    rw [Int.bmod_def]
    omega
  have hproduct : (activeUsers : ℤ) * size = (activeUsers * size : ℕ) := (Nat.cast_mul _ _).symm
  unfold guint64Product
  rw [hcount, hproduct]
  generalize activeUsers * size = product
  omega

theorem toNat_sliceMemory (activeUsers : ℕ) (size max : UInt64) :
    (sliceMemory activeUsers size max).toNat =
      min (guint64Product activeUsers size.toNat) max.toNat := by
  have hsize : UInt64.ofInt size.toNat = size := by
    apply UInt64.toNat_inj.mp
    have hlt := size.toNat_lt
    rw [toNat_ofInt]
    omega
  have hproduct : (Int32.ofNat activeUsers).toInt64.toUInt64 * size =
      UInt64.ofInt ((activeUsers : ℤ).bmod 0x100000000 * size.toNat) := by
    rw [toUInt64_toInt64, Int32.toInt_ofNat', UInt64.ofInt_mul, hsize]
  rw [sliceMemory, toNat_min, hproduct, toNat_ofInt]
  rfl

/-- The numbers and sizes on which the wrapping does not show: the product is
right, or it is cut at the maximum like the right one. -/
def Unwrapped (activeUsers size max : ℕ) : Prop :=
  guint64Product activeUsers size = activeUsers * size ∨
    max ≤ guint64Product activeUsers size ∧ max ≤ activeUsers * size

instance (activeUsers size max : ℕ) : Decidable (Unwrapped activeUsers size max) :=
  inferInstanceAs (Decidable (_ ∨ _))

/-- With as many users as a `gint` can count, the product has to fit, or what is
left of it has to reach the maximum. -/
theorem unwrapped_iff_of_lt {activeUsers : ℕ} (h : activeUsers < 0x80000000) (size max : ℕ) :
    Unwrapped activeUsers size max ↔ activeUsers * size < 0x10000000000000000 ∨
      max ≤ activeUsers * size % 0x10000000000000000 := by
  rw [Unwrapped, guint64Product_of_lt h]
  generalize activeUsers * size = product
  omega

variable {activeUsers activeUsers' : ℕ} {size max : UInt64}

theorem sliceMemory_exact_iff :
    (sliceMemory activeUsers size max).toNat = min (activeUsers * size.toNat) max.toNat ↔
      Unwrapped activeUsers size.toNat max.toNat := by
  rw [toNat_sliceMemory, min_eq_min_iff, Unwrapped]

theorem sliceMemory_le_max : sliceMemory activeUsers size max ≤ max := by
  rw [UInt64.le_iff_toNat_le, toNat_sliceMemory]
  exact min_le_right _ _

theorem sliceMemory_mono (hle : activeUsers ≤ activeUsers')
    (h : Unwrapped activeUsers size.toNat max.toNat)
    (h' : Unwrapped activeUsers' size.toNat max.toNat) :
    sliceMemory activeUsers size max ≤ sliceMemory activeUsers' size max := by
  rw [UInt64.le_iff_toNat_le, sliceMemory_exact_iff.mpr h, sliceMemory_exact_iff.mpr h']
  gcongr

theorem le_sliceMemory (hpos : 0 < activeUsers)
    (h : Unwrapped activeUsers size.toNat max.toNat) :
    min size max ≤ sliceMemory activeUsers size max := by
  rw [UInt64.le_iff_toNat_le, toNat_min, sliceMemory_exact_iff.mpr h]
  gcongr
  exact Nat.le_mul_of_pos_left _ hpos

/-! ### What is sent -/

def RManager.SliceUnwrapped (self : RManager) (activeUsers : ℕ) : Prop :=
  Unwrapped activeUsers self.activeUser.memoryMin.toNat self.maxUsersMemoryMin.toNat ∧
    Unwrapped activeUsers self.activeUser.memoryLow.toNat self.maxUsersMemoryLow.toNat

instance (self : RManager) (activeUsers : ℕ) : Decidable (self.SliceUnwrapped activeUsers) :=
  inferInstanceAs (Decidable (_ ∧ _))

theorem RManager.sliceUnwrapped_iff_of_lt {self : RManager} {activeUsers : ℕ}
    (h : activeUsers < 0x80000000) :
    self.SliceUnwrapped activeUsers ↔
      (activeUsers * self.activeUser.memoryMin.toNat < 0x10000000000000000 ∨
        self.maxUsersMemoryMin.toNat ≤
          activeUsers * self.activeUser.memoryMin.toNat % 0x10000000000000000) ∧
      (activeUsers * self.activeUser.memoryLow.toNat < 0x10000000000000000 ∨
        self.maxUsersMemoryLow.toNat ≤
          activeUsers * self.activeUser.memoryLow.toNat % 0x10000000000000000) :=
  and_congr (unwrapped_iff_of_lt h _ _) (unwrapped_iff_of_lt h _ _)

namespace Daemon

def SendsSlice (s : Daemon) (activeUsers : ℕ) (memoryMin memoryLow : UInt64) : Prop :=
  (s.setUserSliceResources activeUsers).bus.calls = s.bus.calls ++
    [⟨"user.slice".toList, .alloc activeUsers,
      [("MemoryMin".toList, memoryMin), ("MemoryLow".toList, memoryLow)]⟩]

/-- What is sent are the sizes that the configuration file promises. -/
def SendsExactly (s : Daemon) (activeUsers : ℕ) : Prop :=
  ∃ memoryMin memoryLow, s.SendsSlice activeUsers memoryMin memoryLow ∧
    memoryMin.toNat = min (activeUsers * s.manager.activeUser.memoryMin.toNat)
      s.manager.maxUsersMemoryMin.toNat ∧
    memoryLow.toNat = min (activeUsers * s.manager.activeUser.memoryLow.toNat)
      s.manager.maxUsersMemoryLow.toNat

variable {s : Daemon} {n n' : ℕ} {memoryMin memoryLow memoryMin' memoryLow' : UInt64}

theorem calls_setUserSliceResources (hconn : s.manager.connection = true) :
    (s.setUserSliceResources n).bus.calls =
      s.bus.calls ++ [s.manager.unitCall "user.slice".toList (.alloc n)] := by
  have hissue : s.setUserSliceResources n = s.issue (s.manager.sliceCalls true n) := rfl
  rw [hissue, issue_bus, if_pos hconn]
  rfl

theorem sendsSlice_iff :
    s.SendsSlice n memoryMin memoryLow ↔ s.manager.connection = true ∧
      memoryMin = sliceMemory n s.manager.activeUser.memoryMin s.manager.maxUsersMemoryMin ∧
      memoryLow = sliceMemory n s.manager.activeUser.memoryLow s.manager.maxUsersMemoryLow := by
  have hprops {a b : CString} {x y x' y' : UInt64} :
      [(a, x), (b, y)] = [(a, x'), (b, y')] → x' = x ∧ y' = y := by
    simp only [List.cons.injEq, Prod.mk.injEq, true_and, and_true]
    exact fun ⟨hx, hy⟩ => ⟨hx.symm, hy.symm⟩
  unfold SendsSlice
  constructor
  · intro h
    have hconn : s.manager.connection = true := by
      by_contra hconn
      have hnone : (s.setUserSliceResources n).bus = s.bus := if_neg hconn
      have hlength := congrArg List.length h
      simp [hnone] at hlength
    rw [calls_setUserSliceResources hconn] at h
    have hcall := List.singleton_inj.mp (List.append_cancel_left h)
    exact ⟨hconn, hprops (congrArg UnitCall.properties hcall)⟩
  · rintro ⟨hconn, rfl, rfl⟩
    exact calls_setUserSliceResources hconn

theorem sendsExactly_iff :
    s.SendsExactly n ↔ s.manager.connection = true ∧ s.manager.SliceUnwrapped n := by
  simp only [SendsExactly, sendsSlice_iff, RManager.SliceUnwrapped, ← sliceMemory_exact_iff]
  constructor
  · rintro ⟨_, _, ⟨hconn, rfl, rfl⟩, hmin, hlow⟩
    exact ⟨hconn, hmin, hlow⟩
  · rintro ⟨hconn, hmin, hlow⟩
    exact ⟨_, _, ⟨hconn, rfl, rfl⟩, hmin, hlow⟩

theorem SendsSlice.le_max (h : s.SendsSlice n memoryMin memoryLow) :
    memoryMin ≤ s.manager.maxUsersMemoryMin ∧ memoryLow ≤ s.manager.maxUsersMemoryLow := by
  obtain ⟨_, rfl, rfl⟩ := sendsSlice_iff.mp h
  exact ⟨sliceMemory_le_max, sliceMemory_le_max⟩

theorem SendsSlice.mono (hle : n ≤ n') (h : s.SendsSlice n memoryMin memoryLow)
    (h' : s.SendsSlice n' memoryMin' memoryLow') (hn : s.manager.SliceUnwrapped n)
    (hn' : s.manager.SliceUnwrapped n') : memoryMin ≤ memoryMin' ∧ memoryLow ≤ memoryLow' := by
  obtain ⟨_, rfl, rfl⟩ := sendsSlice_iff.mp h
  obtain ⟨_, rfl, rfl⟩ := sendsSlice_iff.mp h'
  exact ⟨sliceMemory_mono hle hn.1 hn'.1, sliceMemory_mono hle hn.2 hn'.2⟩

theorem SendsSlice.min_le (hpos : 0 < n) (h : s.SendsSlice n memoryMin memoryLow)
    (hn : s.manager.SliceUnwrapped n) :
    min s.manager.activeUser.memoryMin s.manager.maxUsersMemoryMin ≤ memoryMin ∧
      min s.manager.activeUser.memoryLow s.manager.maxUsersMemoryLow ≤ memoryLow := by
  obtain ⟨_, rfl, rfl⟩ := sendsSlice_iff.mp h
  exact ⟨le_sliceMemory hpos hn.1, le_sliceMemory hpos hn.2⟩

/-- With a connection, the allocation of `user.slice` is what the configuration file
promises exactly for the numbers of users on which no product wraps around visibly; up
to the largest `gint`, these are the numbers whose products fit, or reach the maximum
also without their high bits. The allocation never exceeds the maximum; among those
numbers it grows with the number, and covers at least one user. -/
theorem setUserSliceResources_exact_iff (s : Daemon) :
    (∀ n, s.SendsExactly n ↔ s.manager.connection = true ∧ s.manager.SliceUnwrapped n) ∧
      (∀ n < 0x80000000, s.manager.SliceUnwrapped n ↔
        (n * s.manager.activeUser.memoryMin.toNat < 0x10000000000000000 ∨
          s.manager.maxUsersMemoryMin.toNat ≤
            n * s.manager.activeUser.memoryMin.toNat % 0x10000000000000000) ∧
        (n * s.manager.activeUser.memoryLow.toNat < 0x10000000000000000 ∨
          s.manager.maxUsersMemoryLow.toNat ≤
            n * s.manager.activeUser.memoryLow.toNat % 0x10000000000000000)) ∧
      (∀ n memoryMin memoryLow, s.SendsSlice n memoryMin memoryLow →
        memoryMin ≤ s.manager.maxUsersMemoryMin ∧ memoryLow ≤ s.manager.maxUsersMemoryLow) ∧
      (∀ n n' memoryMin memoryLow memoryMin' memoryLow', n ≤ n' →
        s.SendsSlice n memoryMin memoryLow → s.SendsSlice n' memoryMin' memoryLow' →
        s.manager.SliceUnwrapped n → s.manager.SliceUnwrapped n' →
        memoryMin ≤ memoryMin' ∧ memoryLow ≤ memoryLow') ∧
      ∀ n memoryMin memoryLow, 0 < n → s.SendsSlice n memoryMin memoryLow →
        s.manager.SliceUnwrapped n →
        min s.manager.activeUser.memoryMin s.manager.maxUsersMemoryMin ≤ memoryMin ∧
          min s.manager.activeUser.memoryLow s.manager.maxUsersMemoryLow ≤ memoryLow :=
  ⟨fun _ => sendsExactly_iff, fun _ => RManager.sliceUnwrapped_iff_of_lt,
    fun _ _ _ => SendsSlice.le_max, fun _ _ _ _ _ _ => SendsSlice.mono,
    fun _ _ _ => SendsSlice.min_le⟩

/-- Two users with `2 ^ 63` bytes each get nothing. -/
theorem not_sendsExactly_twoUsers :
    ¬ ∀ (availableRam : UInt64) (answers : LogindAnswers) (file : KeyFile) (n : ℕ),
      (((⟨.init availableRam, .init⟩ : Daemon).start answers (some file)).busAcquiredCb
        true).SendsExactly n := by
  intro h
  have hexact := (sendsExactly_iff.mp
    (h 4000 ⟨none, none⟩ (constantConf "8388608T".toList) 2)).2
  exact absurd hexact (by decide)

end Daemon

end Uresourced
