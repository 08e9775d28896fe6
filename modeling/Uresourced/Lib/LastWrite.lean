import Mathlib.Data.List.Basic
import Mathlib.Data.List.Infix

/-!
Logs in which the last entry for a key is the one that counts.

A log is a list, oldest entry first, and every entry is about one key. `last`
is the newest entry about a key. Logs grow by whole blocks of entries, so the
lemmas say what a block does to the newest entry about a key.
-/

namespace LastWrite

variable {α κ ι : Type*} [DecidableEq κ] (key : α → κ)

/-- The newest entry about `k`. -/
def last (k : κ) (log : List α) : Option α :=
  (log.filter fun e => key e = k).getLast?

@[simp] theorem last_nil (k : κ) : last key k [] = none := rfl

theorem last_append (k : κ) (log block : List α) :
    last key k (log ++ block) = (last key k block).or (last key k log) := by
  simp [last, List.filter_append, List.getLast?_append]

theorem last_eq_none {k : κ} {log : List α} :
    last key k log = none ↔ ∀ e ∈ log, key e ≠ k := by
  simp [last]

theorem last_append_of_forall_ne {k : κ} {log block : List α}
    (h : ∀ e ∈ block, key e ≠ k) : last key k (log ++ block) = last key k log := by
  rw [last_append, (last_eq_none key).mpr h, Option.none_or]

theorem mem_of_last {k : κ} {log : List α} {e : α} (h : last key k log = some e) :
    e ∈ log ∧ key e = k := by
  have hmem := List.mem_of_getLast? h
  simpa using List.mem_filter.mp hmem

/-- Entries about `k` that all are the same entry `e`: if there is one, it is
the newest. -/
theorem last_eq_of_forall {k : κ} {log : List α} {e : α}
    (hall : ∀ a ∈ log, key a = k → a = e) (hmem : e ∈ log) (hkey : key e = k) :
    last key k log = some e := by
  cases hl : last key k log with
  | none => exact absurd hkey ((last_eq_none key).mp hl e hmem)
  | some a =>
      obtain ⟨ha, hk⟩ := mem_of_last key hl
      rw [hall a ha hk]

/-- Blocks written for one index after the other, where only the block of `i`
says something about `k`, and only `e`. -/
theorem last_flatMap [DecidableEq ι] {f : ι → List α} {k : κ} {i : ι} {e : α}
    (honly : ∀ j, ∀ a ∈ f j, key a = k → j = i ∧ a = e) (hmem : e ∈ f i) (hkey : key e = k)
    (is : List ι) : last key k (is.flatMap f) = if i ∈ is then some e else none := by
  split
  · next hi =>
    refine last_eq_of_forall key (fun a ha hk => ?_) (List.mem_flatMap.mpr ⟨i, hi, hmem⟩) hkey
    obtain ⟨j, _, ha⟩ := List.mem_flatMap.mp ha
    exact (honly j a ha hk).2
  · next hi =>
    refine (last_eq_none key).mpr fun a ha hk => hi ?_
    obtain ⟨j, hj, ha⟩ := List.mem_flatMap.mp ha
    exact (honly j a ha hk).1 ▸ hj

/-- Blocks written once for each index: what is about `i` is the block of `i`. -/
theorem filter_flatMap_of_nodup [DecidableEq ι] {f : ι → List α} {p : α → Bool} {i : ι}
    (hself : ∀ a ∈ f i, p a = true) (hother : ∀ j, j ≠ i → ∀ a ∈ f j, p a = false)
    {is : List ι} (h : is.Nodup) : (is.flatMap f).filter p = if i ∈ is then f i else [] := by
  induction is with
  | nil => rfl
  | cons j is ih =>
      obtain ⟨hj, his⟩ := List.nodup_cons.mp h
      rw [List.flatMap_cons, List.filter_append, ih his]
      by_cases hji : j = i
      · subst hji
        simp [List.filter_eq_self.mpr hself, hj]
      · have hnone : (f j).filter p = [] :=
          List.filter_eq_nil_iff.mpr fun a ha => by simp [hother j hji a ha]
        simp [hnone, Ne.symm hji]

@[simp] theorem last_concat_self (log : List α) (e : α) :
    last key (key e) (log ++ [e]) = some e := by
  simp [last]

theorem last_concat_of_ne {k : κ} {log : List α} {e : α} (h : key e ≠ k) :
    last key k (log ++ [e]) = last key k log :=
  last_append_of_forall_ne key (by simpa using h)

end LastWrite
