import Uresourced.Manager.Memory
import Uresourced.Units

/-!
`/proc/meminfo`, and the sizes in the configuration that are shares of the memory.
-/

namespace Uresourced

open CString

def fileText (lines : List CString) : CString := lines.flatMap (· ++ ['\n'])

@[simp] theorem fileText_nil : fileText [] = [] := rfl

@[simp] theorem fileText_cons (line : CString) (lines : List CString) :
    fileText (line :: lines) = line ++ '\n' :: fileText lines := by
  simp [fileText]

def memTotalLine (padding : CString) (kB : ℕ) : CString :=
  "MemTotal:".toList ++ padding ++ Nat.toDigits 10 kB ++ " kB".toList

/-- What is searched for is not in the lines before, nor across their ends. -/
theorem strstr_fileText {p : CString} {lines : List CString} (s : CString) (hp : '\n' ∉ p)
    (hlines : ∀ line ∈ lines, ¬ p <:+: line) :
    strstr p (fileText lines ++ s) = (strstr p s).map (· + (fileText lines).length) := by
  induction lines with
  | nil => simp
  | cons line lines ih =>
      have hline : ¬ p <:+: line := hlines line List.mem_cons_self
      have hrest : strstr p (fileText lines ++ s) =
          (strstr p s).map (· + (fileText lines).length) :=
        ih fun line' hmem => hlines line' (.tail _ hmem)
      rw [fileText_cons, List.append_assoc, List.cons_append, strstr_append_cons _ hp hline, hrest,
        Option.map_map]
      congr 1
      funext n
      simp only [Function.comp, List.length_append, List.length_cons]
      omega

theorem isSpace_of_isDigit {c : Char} (h : c.isDigit = true) : isSpace c = false := by
  refine Bool.eq_false_iff.mpr fun hspace => ?_
  simp only [isSpace, isAsciiSpace, Bool.or_eq_true, decide_eq_true_eq] at hspace
  rcases hspace with ((((rfl | rfl) | rfl) | rfl) | rfl) | rfl <;> exact absurd h (by decide)

theorem toDigits_front (n : ℕ) (s : CString) :
    (Nat.toDigits 10 n ++ s).dropWhile isSpace = Nat.toDigits 10 n ++ s ∧
      parseSign (Nat.toDigits 10 n ++ s) = (false, Nat.toDigits 10 n ++ s) := by
  obtain ⟨d, ds, hds⟩ := List.exists_cons_of_ne_nil (Nat.toDigits_ne_nil (n := n) (b := 10))
  have hd : d.isDigit = true :=
    Nat.isDigit_of_mem_toDigits (by decide) (by decide) (hds ▸ List.mem_cons_self)
  constructor
  · rw [hds, List.cons_append, List.dropWhile_cons_of_neg (by simp [isSpace_of_isDigit hd])]
  · rcases parseSign_cases (Nat.toDigits 10 n ++ s) with ⟨b, t, heq, hb, -⟩ | hnone
    · rw [hds, List.cons_append] at heq
      rw [← (List.cons.inj heq).1, hd] at hb
      cases hb
    · exact hnone

theorem strtoull_padded {padding : CString} (hpadding : ∀ b ∈ padding, isSpace b = true) {n : ℕ}
    {c : Char} {rest : CString} (hc : c.isDigit = false) :
    strtoull 10 (padding ++ Nat.toDigits 10 n ++ c :: rest) =
      if 0x10000000000000000 ≤ n then 0xffffffffffffffff else UInt64.ofNat n := by
  have hdigits : ∀ d ∈ Nat.toDigits 10 n, d.isDigit = true := fun d hd =>
    Nat.isDigit_of_mem_toDigits (by decide) (by decide) hd
  obtain ⟨hfront, hsign⟩ := toDigits_front n (c :: rest)
  have hskip : (padding ++ Nat.toDigits 10 n ++ c :: rest).dropWhile isSpace =
      Nat.toDigits 10 n ++ c :: rest := by
    rw [List.append_assoc, List.dropWhile_append_of_pos hpadding, hfront]
  have htake : (Nat.toDigits 10 n ++ c :: rest).takeWhile Char.isDigit = Nat.toDigits 10 n := by
    rw [List.takeWhile_append_of_pos hdigits, List.takeWhile_cons_of_neg (by simp [hc]),
      List.append_nil]
  rw [strtoull, parseNumber_ten, hskip, hsign]
  simp only [htake, Nat.toDigits_ne_nil, if_false, Nat.ofDigitChars_ten_toDigits]
  rfl

/-- What is in front of the line with the total does not matter. -/
theorem getAvailableRam_eq {lines : List CString} {padding : CString} (kB : ℕ) (rest : CString)
    (hlines : ∀ line ∈ lines, ¬ "MemTotal:".toList <:+: line)
    (hpadding : ∀ c ∈ padding, isSpace c = true) :
    getAvailableRam (some (fileText lines ++ (memTotalLine padding kB ++ '\n' :: rest))) =
      (if 0x10000000000000000 ≤ kB then 0xffffffffffffffff else UInt64.ofNat kB) * 1024 := by
  have hline : memTotalLine padding kB ++ '\n' :: rest = "MemTotal:".toList ++
      (padding ++ Nat.toDigits 10 kB ++ ' ' :: ("kB\n".toList ++ rest)) := by
    have hunit : " kB".toList ++ '\n' :: rest = ' ' :: ("kB\n".toList ++ rest) := rfl
    unfold memTotalLine
    generalize Nat.toDigits 10 kB = digits
    simp only [List.append_assoc, hunit]
  have hfound : strstr "MemTotal:".toList (fileText lines ++ (memTotalLine padding kB ++
      '\n' :: rest)) = some (fileText lines).length := by
    rw [strstr_fileText _ (by decide) hlines, hline, strstr_of_prefix (List.prefix_append _ _),
      Option.map_some, Nat.zero_add]
  have hdrop : (fileText lines ++ (memTotalLine padding kB ++ '\n' :: rest)).drop
      ((fileText lines).length + 9) =
      padding ++ Nat.toDigits 10 kB ++ ' ' :: ("kB\n".toList ++ rest) := by
    rw [← List.drop_drop, List.drop_left, hline]
    exact List.drop_left' rfl
  simp only [getAvailableRam, hfound, hdrop]
  rw [strtoull_padded hpadding (by decide)]

/-- The memory is the printed one, unless its bytes do not fit. -/
theorem toNat_getAvailableRam_iff {lines : List CString} {padding : CString} (kB : ℕ)
    (rest : CString) (hlines : ∀ line ∈ lines, ¬ "MemTotal:".toList <:+: line)
    (hpadding : ∀ c ∈ padding, isSpace c = true) :
    (getAvailableRam (some (fileText lines ++ (memTotalLine padding kB ++ '\n' :: rest)))).toNat =
      kB * 1024 ↔ kB < 0x40000000000000 := by
  rw [getAvailableRam_eq kB rest hlines hpadding]
  split
  · next hlarge =>
    refine iff_of_false (fun heq => ?_) (by omega)
    have hlt := UInt64.toNat_lt (0xffffffffffffffff * 1024)
    omega
  · rw [UInt64.toNat_mul, UInt64.toNat_ofNat']
    simp
    omega

/-- Lines without `MemTotal:` in front of the total, what stands behind it and the
padding make no difference: the total is read in bytes exactly up to `2 ^ 54` kB, and
up to `2 ^ 47` kB a percentage in the configuration is that share of it. -/
theorem percentage_of_memTotal {lines : List CString} {padding : CString} (kB : ℕ)
    (rest : CString) (hlines : ∀ line ∈ lines, ¬ "MemTotal:".toList <:+: line)
    (hpadding : ∀ c ∈ padding, isSpace c = true) :
    let ram := getAvailableRam (some (fileText lines ++ (memTotalLine padding kB ++ '\n' :: rest)))
    (ram.toNat = kB * 1024 ↔ kB < 0x40000000000000) ∧
      (kB < 0x800000000000 → ∀ (file : KeyFile) (group key : CString) (percent : ℕ),
        file.string group key = .ok (Nat.toDigits 10 percent ++ ['%']) →
          (configGetMemory (RManager.init ram).availableRam file group key).1.toNat =
              min percent 100 * (kB * 1024) / 100 ∧
            (configGetMemory (RManager.init ram).availableRam file group key).2 = none) := by
  intro ram
  have hram : ram.toNat = kB * 1024 ↔ kB < 0x40000000000000 :=
    toNat_getAvailableRam_iff kB rest hlines hpadding
  refine ⟨hram, fun hkB file group key percent hs => ?_⟩
  have hbytes : ram.toNat = kB * 1024 := hram.mpr (by omega)
  have hdigits : ∀ d ∈ Nat.toDigits 10 percent, d.isDigit = true := fun d hd =>
    Nat.isDigit_of_mem_toDigits (by decide) (by decide) hd
  obtain ⟨hskip, hsign⟩ := toDigits_front percent ['%']
  have hnumber : leadingNumber (Nat.toDigits 10 percent ++ ['%']) =
      (Nat.toDigits 10 percent, ['%']) := by
    rw [leadingNumber, List.takeWhile_append_of_pos hdigits, List.dropWhile_append_of_pos hdigits]
    simp
  have hvalue : (scaled ram (stored false percent) ['%']).1.toNat =
      min (stored false percent).toNat 100 * ram.toNat / 100 := scaled_percent _ [] (by omega)
  have hmin : min (min percent 0x7fffffffffffffff) 100 = min percent 100 := by omega
  rw [toNat_stored, hmin, hbytes] at hvalue
  rw [configGetMemory_eq _ hs, hskip, hsign]
  simp only [hnumber, Nat.toDigits_ne_nil, if_false, Nat.ofDigitChars_ten_toDigits]
  exact ⟨hvalue, rfl⟩

theorem percentage_of_memTotal_tenPercent :
    (configGetMemory (RManager.init (getAvailableRam (some (fileText ["MemFree: 12 kB".toList] ++
        (memTotalLine "\t  ".toList 4000 ++ '\n' :: []))))).availableRam (constantConf "10%".toList)
      "Global".toList "MaxMemoryMin".toList).1.toNat = 409600 :=
  (percentage_of_memTotal 4000 [] (by decide) (by simp [isSpace, isAsciiSpace])).2 (by decide)
    (constantConf "10%".toList) _ _ 10 rfl |>.1

end Uresourced
