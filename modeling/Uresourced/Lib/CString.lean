import Mathlib.Data.List.Basic
import Mathlib.Data.List.Infix
import Mathlib.Data.List.TakeWhile
import Mathlib.Tactic.Common

/-!
C strings and the string functions of the C and GLib libraries.

A C string is the list of its characters, without the terminating zero.
-/

abbrev CString := List Char

namespace CString

/-! ### Printing integers -/

def formatInt : Int → CString
  | .ofNat n => Nat.toDigits 10 n
  | .negSucc n => '-' :: Nat.toDigits 10 (n + 1)

theorem toDigits_ten_injective : Function.Injective (Nat.toDigits 10) :=
  Function.LeftInverse.injective (g := fun ds => Nat.ofDigitChars 10 ds 0)
    fun _ => Nat.ofDigitChars_ten_toDigits

theorem minus_notMem_toDigits (n : ℕ) : '-' ∉ Nat.toDigits 10 n := by
  intro h
  have hdigit := Nat.isDigit_of_mem_toDigits (by decide) (by decide) h
  revert hdigit
  decide

theorem formatInt_injective : Function.Injective formatInt := by
  intro i j h
  cases i with
  | ofNat m =>
      cases j with
      | ofNat n => exact congrArg Int.ofNat (toDigits_ten_injective h)
      | negSucc n =>
          have hmem : '-' ∈ Nat.toDigits 10 m := by
            simp only [formatInt] at h
            simp [h]
          exact absurd hmem (minus_notMem_toDigits m)
  | negSucc m =>
      cases j with
      | ofNat n =>
          have hmem : '-' ∈ Nat.toDigits 10 n := by
            simp only [formatInt] at h
            simp [← h]
          exact absurd hmem (minus_notMem_toDigits n)
      | negSucc n =>
          have hdigits := toDigits_ten_injective (List.cons.inj h).2
          exact congrArg Int.negSucc (Nat.succ.inj hdigits)

/-! ### Prefixes, suffixes and white space -/

def hasPrefix (s p : CString) : Bool := p.isPrefixOf s

def hasSuffix (s p : CString) : Bool := p.isSuffixOf s

def isAsciiSpace (c : Char) : Bool :=
  c = ' ' || c = '\t' || c = '\n' || c = '\r' || c = '\x0c'

def strip (s : CString) : CString :=
  ((s.dropWhile isAsciiSpace).reverse.dropWhile isAsciiSpace).reverse

structure Trimmed (s : CString) : Prop where
  ne_nil : s ≠ []
  front : s.dropWhile isAsciiSpace = s
  back : s.reverse.dropWhile isAsciiSpace = s.reverse

theorem dropWhile_append_of_ne_nil {p : Char → Bool} {s t : CString} (h : s.dropWhile p ≠ []) :
    (s ++ t).dropWhile p = s.dropWhile p ++ t := by
  rw [List.dropWhile_append, if_neg fun hempty => h (List.isEmpty_iff.mp hempty)]

theorem trimmed_of_forall {s : CString} (hne : s ≠ []) (h : ∀ c ∈ s, isAsciiSpace c = false) :
    Trimmed s := by
  have hself (l : CString) (hl : ∀ c ∈ l, isAsciiSpace c = false) :
      l.dropWhile isAsciiSpace = l := by
    cases l with
    | nil => rfl
    | cons c l => exact List.dropWhile_cons_of_neg (by simp [hl c List.mem_cons_self])
  exact ⟨hne, hself s h, hself _ fun c hc => h c (List.mem_reverse.mp hc)⟩

theorem Trimmed.front_ne_nil {s : CString} (h : Trimmed s) : s.dropWhile isAsciiSpace ≠ [] := by
  rw [h.front]
  exact h.ne_nil

theorem Trimmed.back_ne_nil {s : CString} (h : Trimmed s) :
    s.reverse.dropWhile isAsciiSpace ≠ [] := by
  rw [h.back]
  exact fun hnil => h.ne_nil (List.reverse_eq_nil_iff.mp hnil)

theorem Trimmed.append {s t : CString} (hs : Trimmed s) (ht : Trimmed t) (mid : CString) :
    Trimmed (s ++ mid ++ t) where
  ne_nil := by simp [hs.ne_nil]
  front := by
    rw [List.append_assoc, dropWhile_append_of_ne_nil hs.front_ne_nil, hs.front]
  back := by
    rw [List.reverse_append, dropWhile_append_of_ne_nil ht.back_ne_nil, ht.back]

/-- Stripping takes characters off what follows only. -/
theorem Trimmed.strip_append {s : CString} (h : Trimmed s) (t : CString) :
    ∃ t', t' <+: t ∧ strip (s ++ t) = s ++ t' := by
  rw [strip, dropWhile_append_of_ne_nil h.front_ne_nil, h.front, List.reverse_append,
    List.dropWhile_append]
  split
  · exact ⟨[], List.nil_prefix, by rw [h.back, List.reverse_reverse, List.append_nil]⟩
  · refine ⟨(t.reverse.dropWhile isAsciiSpace).reverse, ?_, ?_⟩
    · exact List.reverse_suffix.mp (by
        rw [List.reverse_reverse]
        exact List.dropWhile_suffix _)
    · rw [List.reverse_append, List.reverse_reverse]

theorem Trimmed.strip {s : CString} (h : Trimmed s) : CString.strip s = s := by
  rw [CString.strip, h.front, h.back, List.reverse_reverse]

/-! ### Parsing integers -/

/-- White space that the number parsers skip: `isspace` of the C locale. -/
def isSpace (c : Char) : Bool := isAsciiSpace c || c = '\x0b'

def digitValue (c : Char) : Option ℕ :=
  if '0' ≤ c ∧ c ≤ '9' then some (c.toNat - '0'.toNat)
  else if 'a' ≤ c ∧ c ≤ 'z' then some (c.toNat - 'a'.toNat + 10)
  else if 'A' ≤ c ∧ c ≤ 'Z' then some (c.toNat - 'A'.toNat + 10)
  else none

/-- The digits at the front of a string, read on top of `acc`, and the rest. -/
def parseDigits (base : ℕ) : ℕ → CString → ℕ × CString
  | acc, [] => (acc, [])
  | acc, c :: cs =>
      match digitValue c with
      | some d => if d < base then parseDigits base (acc * base + d) cs else (acc, c :: cs)
      | none => (acc, c :: cs)

/-- What the number parsers find in a string: the sign, the unbounded value and
where the number ends, which is the start of the string if there is none. -/
structure Number where
  negative : Bool
  value : ℕ
  rest : CString
  deriving DecidableEq, Repr

def parseSign : CString → Bool × CString
  | '-' :: cs => (true, cs)
  | '+' :: cs => (false, cs)
  | cs => (false, cs)

/-- The base a number is read in, and the string after a base prefix. Base 0
stands for the base that the prefix names. -/
def parseBase (base : ℕ) : CString → ℕ × CString
  | '0' :: x :: cs =>
      if (base = 0 ∨ base = 16) ∧ (x = 'x' ∨ x = 'X') then (16, cs)
      else if base = 0 then (8, '0' :: x :: cs)
      else (base, '0' :: x :: cs)
  | ['0'] => (if base = 0 then 8 else base, ['0'])
  | cs => (if base = 0 then 10 else base, cs)

def parseNumber (base : ℕ) (s : CString) : Number :=
  let (negative, unsigned) := parseSign (s.dropWhile isSpace)
  let (base', digits) := parseBase base unsigned
  let (value, rest) := parseDigits base' 0 digits
  if rest.length < digits.length then ⟨negative, value, rest⟩
  else if digits.length + 2 ≤ unsigned.length then
    -- a prefix `0x` without digits is the number 0 followed by the letter `x`
    ⟨negative, 0, unsigned.tail⟩
  else ⟨negative, 0, s⟩

def strtoll (base : ℕ) (s : CString) : Int × CString :=
  let n := parseNumber base s
  (if n.negative then max (-(n.value : Int)) (-0x8000000000000000)
    else min (n.value : Int) 0x7fffffffffffffff,
    n.rest)

/-- `g_ascii_strtoull`: a value that does not fit is saturated, and a minus
sign wraps the value around. -/
def strtoull (base : ℕ) (s : CString) : UInt64 :=
  let n := parseNumber base s
  if 0x10000000000000000 ≤ n.value then 0xffffffffffffffff
  else if n.negative then -UInt64.ofNat n.value else UInt64.ofNat n.value

/-! ### Decimal numbers -/

theorem digitValue_of_isDigit {c : Char} (h : c.isDigit = true) :
    digitValue c = some (c.toNat - '0'.toNat) := by
  have hrange : '0' ≤ c ∧ c ≤ '9' := by
    simpa [Char.isDigit, Char.le_def, UInt32.le_iff_toNat_le] using h
  rw [digitValue, if_pos hrange]

theorem ten_le_of_digitValue {c : Char} {d : ℕ} (h : c.isDigit = false)
    (hd : digitValue c = some d) : 10 ≤ d := by
  have hrange : ¬ ('0' ≤ c ∧ c ≤ '9') := by
    intro hrange
    have hdigit : c.isDigit = true := by
      simpa [Char.isDigit, Char.le_def, UInt32.le_iff_toNat_le] using hrange
    rw [h] at hdigit
    cases hdigit
  rw [digitValue, if_neg hrange] at hd
  split at hd
  · obtain rfl := Option.some.inj hd
    omega
  · split at hd
    · obtain rfl := Option.some.inj hd
      omega
    · cases hd

theorem parseDigits_ten (acc : ℕ) (s : CString) :
    parseDigits 10 acc s =
      (Nat.ofDigitChars 10 (s.takeWhile Char.isDigit) acc, s.dropWhile Char.isDigit) := by
  induction s generalizing acc with
  | nil => simp [parseDigits]
  | cons c s ih =>
      cases h : c.isDigit with
      | true =>
          have hlt : c.toNat - '0'.toNat < 10 := by
            have hrange : 48 ≤ c.toNat ∧ c.toNat ≤ 57 := by
              simpa [Char.isDigit, UInt32.le_iff_toNat_le] using h
            have hzero : '0'.toNat = 48 := rfl
            omega
          simp only [parseDigits, digitValue_of_isDigit h, if_pos hlt, ih, List.takeWhile_cons, h,
            if_true, List.dropWhile_cons, Nat.ofDigitChars_cons, Nat.mul_comm acc 10]
      | false =>
          cases hd : digitValue c with
          | none => simp [parseDigits, hd, h]
          | some d => simp [parseDigits, hd, h, Nat.not_lt.mpr (ten_le_of_digitValue h hd)]

theorem parseBase_ten (s : CString) : parseBase 10 s = (10, s) := by
  unfold parseBase
  split <;> simp

/-- A decimal number: white space, a sign, and at least one digit. -/
theorem parseNumber_ten (s : CString) :
    parseNumber 10 s =
      let (negative, unsigned) := parseSign (s.dropWhile isSpace)
      if unsigned.takeWhile Char.isDigit = [] then ⟨negative, 0, s⟩
      else ⟨negative, Nat.ofDigitChars 10 (unsigned.takeWhile Char.isDigit) 0,
        unsigned.dropWhile Char.isDigit⟩ := by
  unfold parseNumber
  generalize parseSign (s.dropWhile isSpace) = t
  obtain ⟨negative, unsigned⟩ := t
  simp only [parseBase_ten, parseDigits_ten]
  have hlength : unsigned.length =
      (unsigned.takeWhile Char.isDigit).length + (unsigned.dropWhile Char.isDigit).length := by
    rw [← List.length_append, List.takeWhile_append_dropWhile]
  by_cases hnil : unsigned.takeWhile Char.isDigit = []
  · rw [if_pos hnil, if_neg (by simp [hlength, hnil]), if_neg (by omega)]
  · have hpos := List.length_pos_iff.mpr hnil
    rw [if_neg hnil, if_pos (by omega)]

theorem length_parseSign (s : CString) : (parseSign s).2.length ≤ s.length := by
  unfold parseSign
  split <;> simp

/-! ### Paths -/

def childPath (dir name : CString) : CString := dir ++ '/' :: name

def dirname (path : CString) : CString :=
  ((path.reverse.dropWhile (· ≠ '/')).drop 1).reverse

def basename (path : CString) : CString := (path.reverse.takeWhile (· ≠ '/')).reverse

theorem reverse_childPath (dir name : CString) :
    (childPath dir name).reverse = name.reverse ++ '/' :: dir.reverse := by
  simp [childPath]

theorem dirname_childPath {dir name : CString} (h : '/' ∉ name) :
    dirname (childPath dir name) = dir := by
  have hall : ∀ c ∈ name.reverse, decide (c ≠ '/') = true := fun c hc =>
    decide_eq_true fun heq => h (heq ▸ List.mem_reverse.mp hc)
  rw [dirname, reverse_childPath, List.dropWhile_append_of_pos hall]
  simp

theorem basename_childPath {dir name : CString} (h : '/' ∉ name) :
    basename (childPath dir name) = name := by
  have hall : ∀ c ∈ name.reverse, decide (c ≠ '/') = true := fun c hc =>
    decide_eq_true fun heq => h (heq ▸ List.mem_reverse.mp hc)
  rw [basename, reverse_childPath, List.takeWhile_append_of_pos hall]
  simp

def Below (dir path : CString) : Prop := hasPrefix path (dir ++ ['/']) = true

instance (dir path : CString) : Decidable (Below dir path) :=
  inferInstanceAs (Decidable (_ = true))

theorem below_iff {dir path : CString} : Below dir path ↔ ∃ rest, path = childPath dir rest := by
  rw [Below, hasPrefix, List.isPrefixOf_iff_prefix]
  constructor
  · rintro ⟨rest, rfl⟩
    exact ⟨rest, by simp [childPath]⟩
  · rintro ⟨rest, rfl⟩
    exact ⟨rest, by simp [childPath]⟩

theorem below_childPath (dir name : CString) : Below dir (childPath dir name) :=
  below_iff.mpr ⟨name, rfl⟩

theorem Below.childPath {dir path : CString} (h : Below dir path) (name : CString) :
    Below dir (childPath path name) := by
  obtain ⟨rest, rfl⟩ := below_iff.mp h
  exact below_iff.mpr ⟨CString.childPath rest name, by simp [CString.childPath]⟩

theorem not_below_self (path : CString) : ¬ Below path path := by
  intro h
  obtain ⟨rest, hrest⟩ := below_iff.mp h
  have hlength := congrArg List.length hrest
  simp [CString.childPath] at hlength

/-- The component behind a directory is read off every path through it. -/
theorem takeWhile_component {dir name path : CString} (hslash : '/' ∉ name)
    (h : path = childPath dir name ∨ Below (childPath dir name) path) :
    (path.drop (dir.length + 1)).takeWhile (· ≠ '/') = name := by
  have hall : ∀ c ∈ name, decide (c ≠ '/') = true := fun c hc =>
    decide_eq_true fun heq => hslash (heq ▸ hc)
  have hdrop (rest : CString) : (childPath dir rest).drop (dir.length + 1) = rest := by
    simp [childPath, List.drop_append]
  rcases h with rfl | hbelow
  · rw [hdrop, List.takeWhile_eq_self_iff.mpr hall]
  · obtain ⟨below, rfl⟩ := below_iff.mp hbelow
    have hassoc : childPath (childPath dir name) below = childPath dir (name ++ '/' :: below) := by
      simp [childPath]
    rw [hassoc, hdrop, List.takeWhile_append_of_pos hall]
    simp

theorem name_eq_of_below {dir name name' path : CString} (hslash : '/' ∉ name)
    (hslash' : '/' ∉ name') (h : path = childPath dir name ∨ Below (childPath dir name) path)
    (h' : path = childPath dir name' ∨ Below (childPath dir name') path) : name = name' := by
  rw [← takeWhile_component hslash h, takeWhile_component hslash' h']

example : strtoll 0 " -1\n".toList = (-1, "\n".toList) := by decide
example : strtoll 10 "250M".toList = (250, "M".toList) := by decide

end CString
