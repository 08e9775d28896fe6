import Uresourced.Manager.Config

/-!
The weights of users and of their session slice.

`r_manager_init` sets them to `WEIGHT_IGNORE`, `read_config` overwrites them, and
there are two places that leave a weight out if it is still `WEIGHT_IGNORE`: the
call of `set_unit_resources` and the drop-in file for the session slice. The CPU
and the IO weight are treated alike, so that what is said about them is said once.
-/

namespace Uresourced

open CString

inductive WeightKey
  | cpu
  | io
  deriving DecidableEq, Repr

namespace WeightKey

def name : WeightKey → CString
  | cpu => "CPUWeight".toList
  | io => "IOWeight".toList

def of : WeightKey → RAllocation → Int32
  | cpu, allocation => allocation.cpuWeight
  | io, allocation => allocation.ioWeight

@[simp] theorem name_cpu : cpu.name = "CPUWeight".toList := rfl

@[simp] theorem name_io : io.name = "IOWeight".toList := rfl

@[simp] theorem of_cpu (allocation : RAllocation) : cpu.of allocation = allocation.cpuWeight := rfl

@[simp] theorem of_io (allocation : RAllocation) : io.of allocation = allocation.ioWeight := rfl

end WeightKey

namespace RManager

/-- A line with a weight: it is commented out if the weight is to be ignored. -/
def weightLine (key : WeightKey) (weight : Int32) : CString :=
  (if weight = weightIgnore then "#".toList else []) ++
    (key.name ++ ('=' :: formatInt weight.toInt))

def sessionSliceLines (self : RManager) : List CString :=
  ["[Slice]".toList,
    ("# Generated by uresourced to pass user memory allocations " ++
      "to the users session.slice").toList,
    "MemoryMin=".toList ++ Nat.toDigits 10 self.sessionSlice.memoryMin.toNat,
    "MemoryLow=".toList ++ Nat.toDigits 10 self.sessionSlice.memoryLow.toNat,
    weightLine .cpu self.sessionSlice.cpuWeight,
    weightLine .io self.sessionSlice.ioWeight]

/-- `write_session_user_drop_ins`: the lines of the file, unless its directory
cannot be made. -/
def writeSessionUserDropIns (self : RManager) (mkdir : Bool) : Option (List CString) :=
  if mkdir then some self.sessionSliceLines else none

end RManager

/-! ### What a weight becomes -/

variable {m : RManager}

theorem mem_weightProperty {key : WeightKey} {name : CString} {w : Int32} {weight : UInt64} :
    (key.name, weight) ∈ (if w ≠ weightIgnore then [(name, w.toInt64.toUInt64)] else []) ↔
      key.name = name ∧ w ≠ weightIgnore ∧ weight = w.toInt64.toUInt64 := by
  split
  · next h => simp [h]
  · next h => simp [h]

theorem mem_properties_iff {allocation : RAllocation} {key : WeightKey} {weight : UInt64} :
    (key.name, weight) ∈ allocation.properties ↔
      key.of allocation ≠ weightIgnore ∧ weight = (key.of allocation).toInt64.toUInt64 := by
  simp only [RAllocation.properties, List.mem_append, mem_weightProperty]
  cases key with
  | cpu => simp
  | io => simp

theorem weightLine_iff {key key' : WeightKey} {weight : Int} {w : Int32} :
    key.name ++ '=' :: formatInt weight = RManager.weightLine key' w ↔
      key = key' ∧ w ≠ weightIgnore ∧ weight = w.toInt := by
  have hinj : formatInt weight = formatInt w.toInt ↔ weight = w.toInt :=
    formatInt_injective.eq_iff
  unfold RManager.weightLine
  split
  · next h => cases key <;> cases key' <;> simp [h]
  · next h => cases key <;> cases key' <;> simp [h, hinj]

theorem mem_sessionSliceLines_iff {key : WeightKey} {weight : Int} :
    key.name ++ '=' :: formatInt weight ∈ m.sessionSliceLines ↔
      key.of m.sessionSlice ≠ weightIgnore ∧ weight = (key.of m.sessionSlice).toInt := by
  simp only [RManager.sessionSliceLines, List.mem_cons, weightLine_iff]
  cases key with
  | cpu => simp
  | io => simp

/-! ### What the configuration has to say -/

def configuredWeight (file : Option KeyFile) (group : CString) (key : WeightKey) : Option Int32 :=
  file.bind fun file => (file.integer group key.name).toOption

/-- Every weight that is sent or written is valid, and a weight without a number
in the configuration stays as `r_manager_init` has prepared it, so that it is
neither sent nor written. -/
structure ValidOrIgnored (file : Option KeyFile) (m : RManager) : Prop where
  sent : ∀ unit ptr key weight, (WeightKey.name key, weight) ∈ (m.unitCall unit ptr).properties →
    ValidWeight weight
  written : ∀ mkdir lines key weight, m.writeSessionUserDropIns mkdir = some lines →
    WeightKey.name key ++ '=' :: formatInt weight ∈ lines → 1 ≤ weight ∧ weight ≤ 10000
  activeUser : ∀ key, configuredWeight file "ActiveUser".toList key = none →
    key.of m.activeUser = weightIgnore ∧
      ∀ unit weight, (key.name, weight) ∉ (m.unitCall unit .activeUser).properties
  sessionSlice : ∀ key, configuredWeight file "SessionSlice".toList key = none →
    configuredWeight file "ActiveUser".toList key = none →
      key.of m.sessionSlice = weightIgnore ∧ ∀ mkdir lines weight,
        m.writeSessionUserDropIns mkdir = some lines →
          key.name ++ '=' :: formatInt weight ∉ lines

/-- A configured number that does no harm: a valid weight, or `WEIGHT_IGNORE`
itself. -/
def Harmless (weight : Int32) : Prop :=
  (1 ≤ weight.toInt ∧ weight.toInt ≤ 10000) ∨ weight = weightIgnore

def ProperlyConfigured (file : Option KeyFile) (key : WeightKey) : Prop :=
  (∃ weight ∈ configuredWeight file "ActiveUser".toList key, Harmless weight) ∧
    ∀ weight ∈ configuredWeight file "SessionSlice".toList key, Harmless weight

/-! ### What the manager reads -/

theorem getInteger_eq (file : KeyFile) (group : CString) (key : WeightKey) :
    (file.getInteger group key.name).1 = (configuredWeight (some file) group key).getD 0 ∧
      ((file.getInteger group key.name).2 = none ↔
        (configuredWeight (some file) group key).isSome = true) := by
  unfold KeyFile.getInteger configuredWeight
  rw [Option.bind_some]
  cases file.integer group key.name <;> simp [Except.toOption]

theorem activeUser_readConfig (m : RManager) (file : KeyFile) (key : WeightKey) :
    key.of (m.readConfig (some file)).activeUser =
      (configuredWeight (some file) "ActiveUser".toList key).getD 0 := by
  cases key with
  | cpu => exact (getInteger_eq file "ActiveUser".toList .cpu).1
  | io => exact (getInteger_eq file "ActiveUser".toList .io).1

/-- The weight of the session slice, which falls back to the one of active users. -/
theorem sessionSlice_readConfig (m : RManager) (file : KeyFile) (key : WeightKey) :
    key.of (m.readConfig (some file)).sessionSlice =
      (configuredWeight (some file) "SessionSlice".toList key).getD
        (key.of (m.readConfig (some file)).activeUser) := by
  have hfallback (fallback : Int32) :
      orFallback fallback (file.getInteger "SessionSlice".toList key.name) =
        (configuredWeight (some file) "SessionSlice".toList key).getD fallback := by
    unfold KeyFile.getInteger configuredWeight
    rw [Option.bind_some]
    cases file.integer "SessionSlice".toList key.name <;> rfl
  cases key with
  | cpu => exact hfallback _
  | io => exact hfallback _

theorem inactiveUser_readConfig (availableRam : UInt64) (file : Option KeyFile) (key : WeightKey) :
    key.of ((RManager.init availableRam).readConfig file).inactiveUser = 100 := by
  rw [RManager.readConfig_eq]
  cases key <;> rfl

/-! ### Valid or left alone -/

theorem harmless_iff {weight : Int32} :
    Harmless weight ↔ (weight ≠ weightIgnore → 1 ≤ weight.toInt ∧ weight.toInt ≤ 10000) := by
  unfold Harmless
  tauto

/-- The calls carry valid weights exactly if the three allocations do no harm. -/
theorem sent_iff (key : WeightKey) :
    (∀ unit ptr weight, (key.name, weight) ∈ (m.unitCall unit ptr).properties →
      ValidWeight weight) ↔
      Harmless (key.of m.activeUser) ∧ Harmless (key.of m.inactiveUser) := by
  have hptr (ptr : AllocationPtr) : (∀ unit weight,
      (key.name, weight) ∈ (m.unitCall unit ptr).properties → ValidWeight weight) ↔
        Harmless (key.of (m.allocation ptr)) := by
    simp only [RManager.unitCall, mem_properties_iff, harmless_iff]
    constructor
    · exact fun hall hne => (validWeight_toUInt64_iff _).mp (hall [] _ ⟨hne, rfl⟩)
    · rintro hall _ _ ⟨hne, rfl⟩
      exact (validWeight_toUInt64_iff _).mpr (hall hne)
  constructor
  · intro hall
    exact ⟨(hptr .activeUser).mp fun unit => hall unit .activeUser,
      (hptr .inactiveUser).mp fun unit => hall unit .inactiveUser⟩
  · rintro ⟨hactive, hinactive⟩ unit ptr
    cases ptr with
    | activeUser => exact (hptr .activeUser).mpr hactive unit
    | inactiveUser => exact (hptr .inactiveUser).mpr hinactive unit
    | alloc activeUsers =>
        -- the allocation of the user slice has no weights
        refine (hptr (.alloc activeUsers)).mpr (.inr ?_) unit
        cases key <;> rfl

theorem lines_of_write {mkdir : Bool} {lines : List CString}
    (h : m.writeSessionUserDropIns mkdir = some lines) : lines = m.sessionSliceLines := by
  obtain ⟨_, hlines⟩ := Option.ite_none_right_eq_some.mp h
  exact (Option.some.inj hlines).symm

theorem written_iff (key : WeightKey) :
    (∀ mkdir lines weight, m.writeSessionUserDropIns mkdir = some lines →
      key.name ++ '=' :: formatInt weight ∈ lines → 1 ≤ weight ∧ weight ≤ 10000) ↔
      Harmless (key.of m.sessionSlice) := by
  rw [harmless_iff]
  constructor
  · intro hall hne
    exact hall true _ _ rfl (mem_sessionSliceLines_iff.mpr ⟨hne, rfl⟩)
  · intro hall mkdir lines weight hlines hmem
    rw [lines_of_write hlines] at hmem
    obtain ⟨hne, rfl⟩ := mem_sessionSliceLines_iff.mp hmem
    exact hall hne

/-- A weight that is to be ignored is neither sent nor written. -/
theorem not_sent_of_ignored {key : WeightKey} (h : key.of m.activeUser = weightIgnore)
    (unit : CString) (weight : UInt64) :
    (key.name, weight) ∉ (m.unitCall unit .activeUser).properties := fun hmem =>
  (mem_properties_iff.mp hmem).1 h

theorem not_written_of_ignored {key : WeightKey} (h : key.of m.sessionSlice = weightIgnore)
    {mkdir : Bool} {lines : List CString} (hlines : m.writeSessionUserDropIns mkdir = some lines)
    (weight : Int) : key.name ++ '=' :: formatInt weight ∉ lines := by
  rw [lines_of_write hlines]
  exact fun hmem => (mem_sessionSliceLines_iff.mp hmem).1 h

/-- User weights are valid or left alone exactly if there is no file, or both weights of
active users are set and all weights that are set do no harm. -/
theorem validOrIgnored_iff (availableRam : UInt64) (file : Option KeyFile) :
    ValidOrIgnored file ((RManager.init availableRam).readConfig file) ↔
      file = none ∨ ∀ key, ProperlyConfigured file key := by
  have hinactive := inactiveUser_readConfig availableRam file
  set m := (RManager.init availableRam).readConfig file with hm
  have hharmless (key : WeightKey) : Harmless (key.of m.inactiveUser) := by
    rw [hinactive]
    exact .inl (by decide)
  cases file with
  | none =>
      refine iff_of_true ?_ (.inl rfl)
      have hactive (key : WeightKey) : key.of m.activeUser = weightIgnore := by cases key <;> rfl
      have hsession (key : WeightKey) : key.of m.sessionSlice = weightIgnore := by
        cases key <;> rfl
      exact
        { sent := fun unit ptr key =>
            (sent_iff key).mpr ⟨.inr (hactive key), hharmless key⟩ unit ptr
          written := fun mkdir lines key weight =>
            (written_iff key).mpr (.inr (hsession key)) mkdir lines weight
          activeUser := fun key _ => ⟨hactive key, not_sent_of_ignored (hactive key)⟩
          sessionSlice := fun key _ _ =>
            ⟨hsession key, fun _ _ weight hlines =>
              not_written_of_ignored (hsession key) hlines weight⟩ }
  | some file =>
      have hactive := activeUser_readConfig (RManager.init availableRam) file
      have hsession := sessionSlice_readConfig (RManager.init availableRam) file
      rw [← hm] at hactive hsession
      simp only [reduceCtorEq, false_or]
      constructor
      · intro h key
        have hsent := (sent_iff key).mp fun unit ptr => h.sent unit ptr key
        have hwritten := (written_iff key).mp fun mkdir lines => h.written mkdir lines key
        constructor
        · cases hconf : configuredWeight (some file) "ActiveUser".toList key with
          | none =>
              -- the weight 0 of a missing key is not `WEIGHT_IGNORE`
              have hzero := (h.activeUser key hconf).1
              rw [hactive, hconf] at hzero
              exact absurd hzero (by decide)
          | some weight =>
              rw [hactive, hconf] at hsent
              exact ⟨weight, rfl, hsent.1⟩
        · intro weight hweight
          rw [hsession, Option.mem_def.mp hweight] at hwritten
          exact hwritten
      · intro h
        have hof (key : WeightKey) : Harmless (key.of m.activeUser) ∧
            Harmless (key.of m.sessionSlice) ∧
            configuredWeight (some file) "ActiveUser".toList key ≠ none := by
          obtain ⟨⟨weight, hweight, hok⟩, hslice⟩ := h key
          have hweight' := Option.mem_def.mp hweight
          rw [hsession, hactive, hweight']
          refine ⟨hok, ?_, by simp⟩
          cases hconf : configuredWeight (some file) "SessionSlice".toList key with
          | none => exact hok
          | some w => exact hslice w hconf
        exact
          { sent := fun unit ptr key => (sent_iff key).mpr ⟨(hof key).1, hharmless key⟩ unit ptr
            written := fun mkdir lines key weight =>
              (written_iff key).mpr (hof key).2.1 mkdir lines weight
            activeUser := fun key hnone => absurd hnone (hof key).2.2
            sessionSlice := fun key _ hnone => absurd hnone (hof key).2.2 }

def emptyConf : KeyFile where
  string _ _ := .error .groupNotFound
  integer _ _ := .error .groupNotFound

/-- With an empty file, the weights of active users are sent as 0. -/
theorem not_validOrIgnored_emptyConf :
    ¬ ∀ availableRam file, ValidOrIgnored file ((RManager.init availableRam).readConfig file) := by
  intro h
  have hactive := ((h 0 (some emptyConf)).activeUser .cpu rfl).1
  exact absurd hactive (by decide)

end Uresourced
