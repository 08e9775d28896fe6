import Uresourced.AppMonitor.Visit
import Uresourced.Lib.LastWrite
import Uresourced.Manager.Config

/-!
`r-app-policy.c`: the weights of an application.

`app_info_changed` writes the weights into the application and, once the proxy of
systemd is there, sends them. `weightsFor` is what the comment in it says the
weights are: they depend on the focus, which is the timestamp -1, and on whether
there is a boost.
-/

namespace Uresourced

structure RAppPolicy where
  proxy : Bool
  defaultCpuWeight : Int32
  defaultIoWeight : Int32
  activeCpuWeight : Int32
  activeIoWeight : Int32
  boostCpuWeightInc : Int32
  boostIoWeightInc : Int32
  deriving DecidableEq, Repr

/-- The arguments of `SetUnitProperties`: the name of the unit, which may be NULL,
and the two weights. -/
structure AppCall where
  name : Option CString
  cpuWeight : UInt64
  ioWeight : UInt64
  deriving DecidableEq, Repr

def guint64OfGint (w : Int32) : UInt64 := w.toInt64.toUInt64

def clamp (x low high : Int32) : Int32 := if high < x then high else if x < low then low else x

/-- `set_integer_from_key_file`: the value is kept if the key cannot be read. -/
def setIntegerFromKeyFile (file : KeyFile) (group key : CString) (out : Int32) : Int32 :=
  match file.getInteger group key with
  | (value, none) => value
  | (_, some _) => out

namespace RAppPolicy

def init : RAppPolicy := ⟨false, 0, 0, 0, 0, 0, 0⟩

/-- `read_config`, with the file of the user and the one of the system, as far as
they can be loaded. -/
def readConfig (self : RAppPolicy) (userFile systemFile : Option KeyFile) : RAppPolicy :=
  let self := { self with
    defaultCpuWeight := 100
    defaultIoWeight := 100
    activeCpuWeight := 100
    activeIoWeight := 100
    boostCpuWeightInc := 0
    boostIoWeightInc := 0 }
  match userFile.or systemFile with
  | none => self
  | some file =>
      let get := setIntegerFromKeyFile file "AppBoost".toList
      let activeCpuWeight := clamp (get "ActiveCPUWeight".toList self.activeCpuWeight) 1 10000
      let activeIoWeight := clamp (get "ActiveIOWeight".toList self.activeIoWeight) 1 10000
      { self with
        defaultCpuWeight := clamp (get "DefaultCPUWeight".toList self.defaultCpuWeight) 1 10000
        defaultIoWeight := clamp (get "DefaultIOWeight".toList self.defaultIoWeight) 1 10000
        activeCpuWeight := activeCpuWeight
        activeIoWeight := activeIoWeight
        -- the increments are clamped against the active weights only
        boostCpuWeightInc :=
          clamp (get "BoostCPUWeightInc".toList self.boostCpuWeightInc) 0 (10000 - activeCpuWeight)
        boostIoWeightInc :=
          clamp (get "BoostIOWeightInc".toList self.boostIoWeightInc) 0 (10000 - activeIoWeight) }

def appInfoChanged (self : RAppPolicy) (app : RAppInfo) : RAppInfo :=
  let app := { app with
    cpuWeight :=
      guint64OfGint (if app.timestamp = -1 then self.activeCpuWeight else self.defaultCpuWeight)
    ioWeight :=
      guint64OfGint (if app.timestamp = -1 then self.activeIoWeight else self.defaultIoWeight) }
  if app.boosted ≠ boostNone then
    -- the sums are not clamped again
    { app with
      cpuWeight := app.cpuWeight + guint64OfGint self.boostCpuWeightInc
      ioWeight := app.ioWeight + guint64OfGint self.boostIoWeightInc }
  else app

def setApplicationResources (app : RAppInfo) : AppCall := ⟨app.name, app.cpuWeight, app.ioWeight⟩

/-! ### What the weights are -/

/-- One of the two weights: the active or the default one, and the increment for
a boosted application. -/
def weightFor (focused boosted : Bool) (active default inc : Int32) : UInt64 :=
  guint64OfGint (if focused then active else default) + if boosted then guint64OfGint inc else 0

def callFor (self : RAppPolicy) (name : Option CString) (timestamp : Int)
    (boosted : AppBoostFlags) : AppCall where
  name := name
  cpuWeight := weightFor (timestamp = -1) (boosted ≠ boostNone) self.activeCpuWeight
    self.defaultCpuWeight self.boostCpuWeightInc
  ioWeight := weightFor (timestamp = -1) (boosted ≠ boostNone) self.activeIoWeight
    self.defaultIoWeight self.boostIoWeightInc

theorem setApplicationResources_appInfoChanged (self : RAppPolicy) (app : RAppInfo) :
    setApplicationResources (self.appInfoChanged app) =
      self.callFor app.name app.timestamp app.boosted := by
  by_cases hboosted : app.boosted = boostNone
  · simp [appInfoChanged, setApplicationResources, callFor, weightFor, hboosted]
  · simp [appInfoChanged, setApplicationResources, callFor, weightFor, hboosted]

theorem appInfoChanged_state (self : RAppPolicy) (app : RAppInfo) :
    (self.appInfoChanged app).name = app.name ∧
      (self.appInfoChanged app).timestamp = app.timestamp ∧
      (self.appInfoChanged app).boosted = app.boosted := by
  by_cases hboosted : app.boosted = boostNone
  · simp [appInfoChanged, hboosted]
  · simp [appInfoChanged, hboosted]

/-! ### The range of the weights -/

theorem toInt_clamp (x low high : Int32) :
    (clamp x low high).toInt =
      if high.toInt < x.toInt then high.toInt else if x.toInt < low.toInt then low.toInt
        else x.toInt := by
  simp only [clamp, Int32.lt_iff_toInt_lt]
  split
  · rfl
  · split <;> rfl

theorem toInt_clamp_weight (x : Int32) :
    1 ≤ (clamp x 1 10000).toInt ∧ (clamp x 1 10000).toInt ≤ 10000 := by
  have hhigh : (10000 : Int32).toInt = 10000 := rfl
  have hlow : (1 : Int32).toInt = 1 := rfl
  rw [toInt_clamp, hhigh, hlow]
  split
  · omega
  · split <;> omega

/-- The increment is clamped with nothing but the active weight in mind. -/
theorem toInt_clamp_inc {active : Int32} (h : 1 ≤ active.toInt ∧ active.toInt ≤ 10000)
    (inc : Int32) :
    (clamp inc 0 (10000 - active)).toInt = max 0 (min inc.toInt (10000 - active.toInt)) := by
  have hsub : (10000 - active).toInt = 10000 - active.toInt := by
    rw [Int32.toInt_sub]
    exact Int.bmod_eq_of_le (by simp; omega) (by simp; omega)
  have hlow : (0 : Int32).toInt = 0 := rfl
  rw [toInt_clamp, hsub, hlow]
  split
  · omega
  · split <;> omega

/-- A key of the group `AppBoost`, or the default where there is no file or no
number for the key. -/
def configured (userFile systemFile : Option KeyFile) (key : CString) (default : Int32) : Int32 :=
  match userFile.or systemFile with
  | none => default
  | some file => setIntegerFromKeyFile file "AppBoost".toList key default

theorem readConfig_eq (self : RAppPolicy) (userFile systemFile : Option KeyFile) :
    self.readConfig userFile systemFile =
      let get := configured userFile systemFile
      let activeCpuWeight := clamp (get "ActiveCPUWeight".toList 100) 1 10000
      let activeIoWeight := clamp (get "ActiveIOWeight".toList 100) 1 10000
      { self with
        defaultCpuWeight := clamp (get "DefaultCPUWeight".toList 100) 1 10000
        defaultIoWeight := clamp (get "DefaultIOWeight".toList 100) 1 10000
        activeCpuWeight := activeCpuWeight
        activeIoWeight := activeIoWeight
        boostCpuWeightInc :=
          clamp (get "BoostCPUWeightInc".toList 0) 0 (10000 - activeCpuWeight)
        boostIoWeightInc :=
          clamp (get "BoostIOWeightInc".toList 0) 0 (10000 - activeIoWeight) } := by
  unfold readConfig configured
  cases userFile.or systemFile <;> rfl

/-- The weights of one kind that `app_info_changed` chooses from are in range
exactly if the increment fits on top of both base weights. -/
theorem validWeight_weightFor_iff {active default inc : Int32}
    (hactive : 1 ≤ active.toInt ∧ active.toInt ≤ 10000)
    (hdefault : 1 ≤ default.toInt ∧ default.toInt ≤ 10000) (hinc : 0 ≤ inc.toInt) :
    (∀ focused boosted, ValidWeight (weightFor focused boosted active default inc)) ↔
      active.toInt + inc.toInt ≤ 10000 ∧ default.toInt + inc.toInt ≤ 10000 := by
  have hactive' := toNat_toUInt64_toInt64 (w := active) (by omega)
  have hdefault' := toNat_toUInt64_toInt64 (w := default) (by omega)
  have hinc' := toNat_toUInt64_toInt64 hinc
  have hlt := inc.toInt_lt
  simp only [Bool.forall_bool, weightFor, guint64OfGint, ValidWeight, UInt64.le_iff_toNat_le,
    UInt64.toNat_add]
  simp
  omega

/-- The configured increment of a weight fits on top of the default weight: the
default weight does not exceed the active one, or the sum is in range. -/
def BoostFits (default active inc : Int32) : Prop :=
  clamp default 1 10000 ≤ clamp active 1 10000 ∨ (clamp default 1 10000).toInt + inc.toInt ≤ 10000

instance (default active inc : Int32) : Decidable (BoostFits default active inc) :=
  inferInstanceAs (Decidable (_ ∨ _))

theorem validWeight_clamp_iff (default active inc : Int32) :
    (∀ focused boosted, ValidWeight (weightFor focused boosted (clamp active 1 10000)
      (clamp default 1 10000) (clamp inc 0 (10000 - clamp active 1 10000)))) ↔
      BoostFits default active inc := by
  have hactive := toInt_clamp_weight active
  have hdefault := toInt_clamp_weight default
  have hinc := toInt_clamp_inc hactive inc
  rw [validWeight_weightFor_iff hactive hdefault (by omega), BoostFits, Int32.le_iff_toInt_le]
  omega

theorem validWeight_setApplicationResources_iff (self : RAppPolicy) :
    (∀ app, ValidWeight (setApplicationResources (self.appInfoChanged app)).cpuWeight ∧
        ValidWeight (setApplicationResources (self.appInfoChanged app)).ioWeight) ↔
      (∀ focused boosted, ValidWeight (weightFor focused boosted self.activeCpuWeight
        self.defaultCpuWeight self.boostCpuWeightInc)) ∧
      ∀ focused boosted, ValidWeight (weightFor focused boosted self.activeIoWeight
        self.defaultIoWeight self.boostIoWeightInc) := by
  simp only [setApplicationResources_appInfoChanged, callFor]
  constructor
  · intro hall
    have happ (focused boosted : Bool) : ∃ app : RAppInfo,
        decide (app.timestamp = -1) = focused ∧ decide (app.boosted ≠ boostNone) = boosted := by
      refine ⟨⟨none, [], 0, 0, if focused then -1 else 0,
        if boosted then boostAudio else boostNone⟩, ?_⟩
      cases focused <;> cases boosted <;> decide
    constructor
    · intro focused boosted
      obtain ⟨app, rfl, rfl⟩ := happ focused boosted
      exact (hall app).1
    · intro focused boosted
      obtain ⟨app, rfl, rfl⟩ := happ focused boosted
      exact (hall app).2
  · exact fun ⟨hcpu, hio⟩ app => ⟨hcpu _ _, hio _ _⟩

/-- Whatever the files say, the weights that are sent for applications are all in the
range of systemd exactly if both increments fit. -/
theorem weights_valid_iff (self : RAppPolicy) (userFile systemFile : Option KeyFile) :
    (∀ app,
      let call := setApplicationResources
        ((self.readConfig userFile systemFile).appInfoChanged app)
      ValidWeight call.cpuWeight ∧ ValidWeight call.ioWeight) ↔
      let get := configured userFile systemFile
      BoostFits (get "DefaultCPUWeight".toList 100) (get "ActiveCPUWeight".toList 100)
        (get "BoostCPUWeightInc".toList 0) ∧
      BoostFits (get "DefaultIOWeight".toList 100) (get "ActiveIOWeight".toList 100)
        (get "BoostIOWeightInc".toList 0) := by
  apply (validWeight_setApplicationResources_iff _).trans
  rw [readConfig_eq]
  exact and_congr (validWeight_clamp_iff _ _ _) (validWeight_clamp_iff _ _ _)

def highDefaultConf : KeyFile where
  string _ _ := .error .keyNotFound
  integer _ key :=
    if key = "DefaultCPUWeight".toList then .ok 10000
    else if key = "BoostCPUWeightInc".toList then .ok 200
    else .error .keyNotFound

theorem not_weights_valid_highDefault :
    ¬ ∀ (self : RAppPolicy) (userFile systemFile : Option KeyFile) (app : RAppInfo),
      let call := setApplicationResources
        ((self.readConfig userFile systemFile).appInfoChanged app)
      ValidWeight call.cpuWeight ∧ ValidWeight call.ioWeight := by
  intro h
  have hvalid := (h .init none (some highDefaultConf)
    ⟨some "a.service".toList, [], 100, 100, 0, boostAudio⟩).1
  exact absurd hvalid (by decide)

end RAppPolicy

end Uresourced
