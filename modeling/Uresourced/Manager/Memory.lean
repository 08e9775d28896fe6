import Uresourced.Manager.Config

/-!
What a memory size denotes, and when `config_get_memory` reads it.

`denoted` is the meaning of a size as the configuration file is written: a
decimal number and at most one unit. The parser takes a sign as well, does not
look behind the unit, and multiplies in `guint64`; `Readable` are the strings
on which none of this shows.
-/

namespace Uresourced

open CString

/-! ### Sizes -/

def unitFactor : Char → Option ℕ
  | 'K' => some 1024
  | 'M' => some (1024 * 1024)
  | 'G' => some (1024 * 1024 * 1024)
  | 'T' => some (1024 * 1024 * 1024 * 1024)
  | _ => none

def fitting (bytes : ℕ) : Option ℕ := if bytes < 0x10000000000000000 then some bytes else none

/-- The size that a number with a unit behind it denotes. -/
def denotedSize (availableRam number : ℕ) : CString → Option ℕ
  | [] => fitting number
  | ['%'] => some (min number 100 * availableRam / 100)
  | [unit] => (unitFactor unit).bind fun factor => fitting (number * factor)
  | _ => none

def leadingNumber (s : CString) : CString × CString :=
  (s.takeWhile Char.isDigit, s.dropWhile Char.isDigit)

def denoted (availableRam : ℕ) (s : CString) : Option ℕ :=
  let (digits, unit) := leadingNumber (s.dropWhile isSpace)
  if digits = [] then none
  else denotedSize availableRam (Nat.ofDigitChars 10 digits 0) unit

/-- The result says what the string denotes, or that it denotes nothing. -/
def Exact (availableRam : ℕ) (s : CString) (result : UInt64 × Option KeyFileError) : Prop :=
  match denoted availableRam s with
  | some bytes => result.1.toNat = bytes ∧ result.2 = none
  | none => result.1 = 0 ∧ result.2 ≠ none

def IsUnit (c : Char) : Prop := c = '%' ∨ (unitFactor c).isSome = true

/-- The strings that are read exactly: those without a number, those with
something else than a unit behind the number, and the sizes without a sign that
have nothing behind the unit and that fit, where a size without a unit is read as
a signed number. -/
def Readable (s : CString) : Prop :=
  let (_, unsigned) := parseSign (s.dropWhile isSpace)
  let (digits, unit) := leadingNumber unsigned
  digits = [] ∨ (∃ c, unit.head? = some c ∧ ¬ IsUnit c) ∨
    (unsigned = s.dropWhile isSpace ∧
      ((unit = [] ∧ Nat.ofDigitChars 10 digits 0 < 0x8000000000000000) ∨ unit = ['%'] ∨
        ∃ c factor, unit = [c] ∧ unitFactor c = some factor ∧
          Nat.ofDigitChars 10 digits 0 * factor < 0x10000000000000000))

/-! ### What `config_get_memory` does -/

/-- The switch over the character behind the number. -/
def scaled (availableRam res : UInt64) : CString → UInt64 × Option KeyFileError
  | [] => (res, none)
  | 'K' :: _ => (res * 1024, none)
  | 'M' :: _ => (res * 1024 * 1024, none)
  | 'G' :: _ => (res * 1024 * 1024 * 1024, none)
  | 'T' :: _ => (res * 1024 * 1024 * 1024 * 1024, none)
  | '%' :: _ => (min 100 res * availableRam / 100, none)
  | c :: _ => (0, some (.invalidValue ("Unknown unit ".toList ++ [c])))

def stored (negative : Bool) (number : ℕ) : UInt64 :=
  UInt64.ofInt (if negative then max (-(number : Int)) (-0x8000000000000000)
    else min (number : Int) 0x7fffffffffffffff)

theorem configGetMemory_eq {file : KeyFile} {group key s : CString} (availableRam : UInt64)
    (hs : file.string group key = .ok s) :
    configGetMemory availableRam file group key =
      let (negative, unsigned) := parseSign (s.dropWhile isSpace)
      let (digits, unit) := leadingNumber unsigned
      if digits = [] then (0, some (.invalidValue "Could not parse memory key".toList))
      else scaled availableRam (stored negative (Nat.ofDigitChars 10 digits 0)) unit := by
  have hskip : (s.dropWhile isSpace).length ≤ s.length := (List.dropWhile_sublist _).length_le
  have hsign := length_parseSign (s.dropWhile isSpace)
  simp only [configGetMemory, hs, strtoll, parseNumber_ten, leadingNumber]
  generalize parseSign (s.dropWhile isSpace) = t at hsign
  obtain ⟨negative, unsigned⟩ := t
  simp only at hsign ⊢
  by_cases hnil : unsigned.takeWhile Char.isDigit = []
  · simp [hnil]
  · have hpos := List.length_pos_iff.mpr hnil
    have hlength := congrArg List.length
      (List.takeWhile_append_dropWhile (p := Char.isDigit) (l := unsigned))
    rw [List.length_append] at hlength
    simp only [hnil, if_false]
    rw [if_neg (by omega)]
    rfl

/-- Without a sign, the number is saturated. -/
theorem toNat_stored (number : ℕ) :
    (stored false number).toNat = min number 0x7fffffffffffffff := by
  simp only [stored, Bool.false_eq_true, if_false, toNat_ofInt]
  omega

theorem scaled_unit {availableRam res : UInt64} {c : Char} {rest : CString} {factor : ℕ}
    (h : unitFactor c = some factor) :
    scaled availableRam res (c :: rest) = (UInt64.ofNat (res.toNat * factor), none) := by
  have hfactor (n : ℕ) : UInt64.ofNat (res.toNat * n) = res * UInt64.ofNat n := by
    rw [UInt64.ofNat_mul, UInt64.ofNat_toNat]
  unfold unitFactor at h
  split at h
  · obtain rfl := Option.some.inj h
    rw [hfactor]
    rfl
  · obtain rfl := Option.some.inj h
    rw [hfactor]
    simp only [scaled, UInt64.mul_assoc]
    rfl
  · obtain rfl := Option.some.inj h
    rw [hfactor]
    simp only [scaled, UInt64.mul_assoc]
    rfl
  · obtain rfl := Option.some.inj h
    rw [hfactor]
    simp only [scaled, UInt64.mul_assoc]
    rfl
  · cases h

theorem scaled_percent {availableRam : UInt64} (res : UInt64) (rest : CString)
    (hram : availableRam.toNat < 2 ^ 57) :
    (scaled availableRam res ('%' :: rest)).1.toNat =
      min res.toNat 100 * availableRam.toNat / 100 := by
  have hmin : (min 100 res).toNat = min res.toNat 100 := by
    rw [toNat_min, min_comm]
    rfl
  have hprod : min res.toNat 100 * availableRam.toNat < 2 ^ 64 := by
    calc min res.toNat 100 * availableRam.toNat ≤ 100 * availableRam.toNat :=
          Nat.mul_le_mul_right _ (min_le_right _ _)
      _ < 2 ^ 64 := by omega
  change (min 100 res * availableRam / 100).toNat = _
  rw [UInt64.toNat_div, UInt64.toNat_mul, hmin, Nat.mod_eq_of_lt hprod]
  rfl

theorem scaled_unknown (availableRam res : UInt64) (rest : CString) {c : Char} (h : ¬ IsUnit c) :
    (scaled availableRam res (c :: rest)).1 = 0 ∧
      (scaled availableRam res (c :: rest)).2 ≠ none := by
  unfold scaled
  split <;> simp_all [IsUnit, unitFactor]

theorem scaled_isUnit {availableRam res : UInt64} {c : Char} {rest : CString} (h : IsUnit c) :
    (scaled availableRam res (c :: rest)).2 = none := by
  rcases h with rfl | h
  · rfl
  · obtain ⟨factor, hfactor⟩ := Option.isSome_iff_exists.mp h
    rw [scaled_unit hfactor]

/-! ### Which strings are read exactly -/

theorem denotedSize_of_long (availableRam number : ℕ) (c d : Char) (rest : CString) :
    denotedSize availableRam number (c :: d :: rest) = none := by
  unfold denotedSize
  split
  · next heq => cases heq
  · next heq => cases heq
  · next heq => cases heq
  · rfl

theorem denotedSize_unit {availableRam number : ℕ} {c : Char} (h : c ≠ '%') :
    denotedSize availableRam number [c] =
      (unitFactor c).bind fun factor => fitting (number * factor) := by
  unfold denotedSize
  split
  · next heq => cases heq
  · next heq => exact absurd (List.cons.inj heq).1 h
  · next heq =>
    cases heq
    rfl
  · next hno => exact absurd rfl (hno c)

theorem factor_le {c : Char} {factor : ℕ} (h : unitFactor c = some factor) : 1024 ≤ factor := by
  unfold unitFactor at h
  split at h <;> cases h <;> decide

theorem exact_scaled_iff {availableRam : UInt64} (hram : availableRam.toNat < 2 ^ 57) {s : CString}
    {number : ℕ} {unit : CString}
    (hs : denoted availableRam.toNat s = denotedSize availableRam.toNat number unit) :
    Exact availableRam.toNat s (scaled availableRam (stored false number) unit) ↔
      (∃ c, unit.head? = some c ∧ ¬ IsUnit c) ∨
        (unit = [] ∧ number < 0x8000000000000000) ∨ unit = ['%'] ∨
          ∃ c factor, unit = [c] ∧ unitFactor c = some factor ∧
            number * factor < 0x10000000000000000 := by
  have hstored := toNat_stored number
  unfold Exact
  rw [hs]
  match unit with
  | [] =>
      simp only [denotedSize, scaled, fitting]
      by_cases hfit : number < 0x10000000000000000
      · simp [hfit]
        omega
      · simp [hfit]
        omega
  -- what follows the unit is not looked at, so that a known unit is read without an error
  | c :: d :: rest =>
      rw [denotedSize_of_long]
      by_cases hunit : IsUnit c
      · simp [scaled_isUnit hunit, hunit]
      · obtain ⟨hzero, herror⟩ := scaled_unknown availableRam (stored false number)
          (d :: rest) hunit
        simp [hzero, herror, hunit]
  | [c] =>
      by_cases hpercent : c = '%'
      · subst hpercent
        have hvalue := scaled_percent (stored false number) [] hram
        rw [hstored] at hvalue
        have hmin : min (min number 0x7fffffffffffffff) 100 = min number 100 := by omega
        rw [hmin] at hvalue
        refine iff_of_true ⟨hvalue, rfl⟩ (.inr (.inr (.inl rfl)))
      · rw [denotedSize_unit hpercent]
        cases hfactor : unitFactor c with
        | none =>
            have hunit : ¬ IsUnit c := by simp [IsUnit, hpercent, hfactor]
            obtain ⟨hzero, herror⟩ := scaled_unknown availableRam (stored false number)
              [] hunit
            simp [hzero, herror, hunit]
        | some factor =>
            have hunit : IsUnit c := .inr (by simp [hfactor])
            rw [scaled_unit hfactor, Option.bind_some]
            -- a number that `strtoll` saturates does not fit with any unit behind it
            by_cases hfit : number * factor < 0x10000000000000000
            · have hle := Nat.mul_le_mul_left number (factor_le hfactor)
              have hmin : min number 0x7fffffffffffffff = number := by omega
              refine iff_of_true ?_ (.inr (.inr (.inr ⟨c, factor, rfl, hfactor, hfit⟩)))
              simp only [fitting, hfit, if_true, hstored, hmin, and_true]
              rw [UInt64.toNat_ofNat', Nat.mod_eq_of_lt hfit]
            · simp [fitting, hfit, hunit, hpercent, hfactor]

theorem parseSign_cases (t : CString) :
    (∃ c unsigned, t = c :: unsigned ∧ c.isDigit = false ∧ (parseSign t).2 = unsigned) ∨
      parseSign t = (false, t) := by
  match t with
  | '-' :: cs => exact .inl ⟨'-', cs, rfl, rfl, rfl⟩
  | '+' :: cs => exact .inl ⟨'+', cs, rfl, rfl, rfl⟩
  | [] => exact .inr rfl
  | c :: cs =>
      unfold parseSign
      split
      · next heq => exact .inl ⟨'-', _, heq, rfl, rfl⟩
      · next heq => exact .inl ⟨'+', _, heq, rfl, rfl⟩
      · exact .inr rfl

theorem exact_configGetMemory_iff {availableRam : UInt64} {file : KeyFile} {group key s : CString}
    (hram : availableRam.toNat < 2 ^ 57) (hs : file.string group key = .ok s) :
    Exact availableRam.toNat s (configGetMemory availableRam file group key) ↔ Readable s := by
  rw [configGetMemory_eq availableRam hs]
  unfold Readable
  rcases parseSign_cases (s.dropWhile isSpace) with ⟨c, unsigned, hskip, hdigit, hsign⟩ | hsign
  · -- a sign, which no size has
    have hdenoted : denoted availableRam.toNat s = none := by
      simp [denoted, leadingNumber, hskip, hdigit]
    have hne : unsigned ≠ s.dropWhile isSpace := by
      intro heq
      have hlength := congrArg List.length (heq.trans hskip)
      simp at hlength
    unfold Exact
    rw [hdenoted]
    simp only [hsign]
    by_cases hnil : (leadingNumber unsigned).1 = []
    · simp [hnil]
    · cases hunit : (leadingNumber unsigned).2 with
      | nil => simp [hnil, hne, scaled]
      | cons c rest =>
          by_cases hknown : IsUnit c
          · simp [hnil, hne, hknown, scaled_isUnit hknown]
          · obtain ⟨hzero, herror⟩ := scaled_unknown availableRam
              (stored (parseSign (s.dropWhile isSpace)).1
                (Nat.ofDigitChars 10 (leadingNumber unsigned).1 0)) rest hknown
            simp [hnil, hknown, hzero, herror]
  · rw [hsign]
    simp only [true_and]
    by_cases hnil : (leadingNumber (s.dropWhile isSpace)).1 = []
    · simp [Exact, denoted, hnil]
    · simp only [hnil, if_false, false_or]
      exact exact_scaled_iff hram (by simp [denoted, hnil])

/-- With the same unit, a larger number denotes a larger size. -/
theorem denotedSize_mono {availableRam number number' bytes bytes' : ℕ} {unit : CString}
    (hle : number ≤ number') (h : denotedSize availableRam number unit = some bytes)
    (h' : denotedSize availableRam number' unit = some bytes') : bytes ≤ bytes' := by
  have hfitting {n n' : ℕ} (hn : n ≤ n') (hb : fitting n = some bytes)
      (hb' : fitting n' = some bytes') : bytes ≤ bytes' := by
    obtain ⟨_, hb⟩ := Option.ite_none_right_eq_some.mp hb
    obtain ⟨_, hb'⟩ := Option.ite_none_right_eq_some.mp hb'
    rwa [← Option.some.inj hb, ← Option.some.inj hb']
  match unit with
  | [] => exact hfitting hle h h'
  | c :: d :: rest =>
      rw [denotedSize_of_long] at h
      cases h
  | [c] =>
      by_cases hpercent : c = '%'
      · subst hpercent
        obtain rfl := Option.some.inj h
        obtain rfl := Option.some.inj h'
        gcongr
      · rw [denotedSize_unit hpercent] at h h'
        obtain ⟨factor, hfactor, hb⟩ := Option.bind_eq_some_iff.mp h
        rw [hfactor, Option.bind_some] at h'
        exact hfitting (Nat.mul_le_mul_right factor hle) hb h'

/-- A percentage is at most the available memory. -/
theorem denotedSize_percent_le {availableRam number bytes : ℕ}
    (h : denotedSize availableRam number ['%'] = some bytes) : bytes ≤ availableRam := by
  obtain rfl := Option.some.inj h
  calc min number 100 * availableRam / 100 ≤ 100 * availableRam / 100 := by gcongr; omega
    _ = availableRam := by omega

/-- A string is read as what it denotes exactly if it is one of the readable ones; and
what strings denote grows with the number, and a percentage does not exceed the
available memory. -/
theorem configGetMemory_exact_iff {availableRam : UInt64} {file : KeyFile} {group key s : CString}
    (hram : availableRam.toNat < 2 ^ 57) (hs : file.string group key = .ok s) :
    (Exact availableRam.toNat s (configGetMemory availableRam file group key) ↔ Readable s) ∧
      (∀ number number' unit bytes bytes', number ≤ number' →
        denotedSize availableRam.toNat number unit = some bytes →
        denotedSize availableRam.toNat number' unit = some bytes' → bytes ≤ bytes') ∧
      ∀ number bytes, denotedSize availableRam.toNat number ['%'] = some bytes →
        bytes ≤ availableRam.toNat :=
  ⟨exact_configGetMemory_iff hram hs, fun _ _ _ _ _ => denotedSize_mono,
    fun _ _ => denotedSize_percent_le⟩

def constantConf (s : CString) : KeyFile where
  string _ _ := .ok s
  integer _ _ := .error .keyNotFound

theorem configGetMemory_exact_iff_tenPercent :
    Exact 4000 "10%".toList
      (configGetMemory 4000 (constantConf "10%".toList) "Global".toList "MaxMemoryMin".toList) :=
  (@configGetMemory_exact_iff 4000 _ _ _ _ (by decide) rfl).1.mpr
    (.inr (.inr ⟨rfl, .inr (.inl rfl)⟩))

/-- A negative size is read as almost `2 ^ 64` bytes. -/
theorem not_exact_negative :
    ¬ ∀ (availableRam : UInt64) (file : KeyFile) (group key s : CString),
      availableRam.toNat < 2 ^ 57 → file.string group key = .ok s →
        Exact availableRam.toNat s (configGetMemory availableRam file group key) := by
  intro h
  have hexact := h 4000 (constantConf "-1".toList) [] [] "-1".toList (by decide) rfl
  exact absurd hexact.2 (by decide)

end Uresourced
