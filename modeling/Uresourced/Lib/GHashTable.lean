import Mathlib.Data.List.AList
import Mathlib.Data.PEquiv

/-!
Hash tables as association lists without duplicate keys.

The order of the list is the order in which a traversal visits the table; it
says nothing about lookups. The lemmas below read a table after one change. The
last section is about two tables that are kept as the inverse of each other.
-/

abbrev GHashTable (κ ν : Type) := AList fun _ : κ => ν

namespace GHashTable

variable {κ ν : Type} [DecidableEq κ]

theorem lookup_insert (t : GHashTable κ ν) (k k' : κ) (v : ν) :
    (t.insert k v).lookup k' = if k' = k then some v else t.lookup k' := by
  split
  · next h => exact h ▸ AList.lookup_insert t
  · next h => exact AList.lookup_insert_ne h

theorem lookup_erase (t : GHashTable κ ν) (k k' : κ) :
    (t.erase k).lookup k' = if k' = k then none else t.lookup k' := by
  split
  · next h => exact h ▸ AList.lookup_erase k t
  · next h => exact AList.lookup_erase_ne h

theorem lookup_insert_eq_some {t : GHashTable κ ν} {k k' : κ} {v w : ν} :
    (t.insert k v).lookup k' = some w ↔ k' = k ∧ w = v ∨ k' ≠ k ∧ t.lookup k' = some w := by
  rw [lookup_insert]
  split
  · next h => simp [h, eq_comm]
  · next h => simp [h]

theorem lookup_erase_eq_some {t : GHashTable κ ν} {k k' : κ} {w : ν} :
    (t.erase k).lookup k' = some w ↔ k' ≠ k ∧ t.lookup k' = some w := by
  rw [lookup_erase]
  split
  · next h => simp [h]
  · next h => simp [h]

theorem lookup_erase_of_none {t : GHashTable κ ν} {k : κ} (h : t.lookup k = none) (k' : κ) :
    (t.erase k).lookup k' = t.lookup k' := by
  rw [lookup_erase]
  split
  · next heq => rw [heq, h]
  · rfl

theorem length_keys_erase {t : GHashTable κ ν} {k : κ} (h : k ∈ t) :
    (t.erase k).keys.length + 1 = t.keys.length := by
  have hmem : k ∈ t.keys := AList.mem_keys.mp h
  have hpos : 0 < t.keys.length := List.length_pos_of_mem hmem
  rw [AList.keys_erase, List.length_erase_of_mem hmem]
  omega

/-! ### Tables that are inverse to each other -/

section Inverse

variable [DecidableEq ν] {t : GHashTable κ ν} {u : GHashTable ν κ}

/-- Each table leads back from where the other one leads. -/
def Inverse (t : GHashTable κ ν) (u : GHashTable ν κ) : Prop :=
  ∀ k v, t.lookup k = some v ↔ u.lookup v = some k

theorem inverse_empty : Inverse (∅ : GHashTable κ ν) ∅ := fun _ _ => by simp

namespace Inverse

theorem symm (h : Inverse t u) : Inverse u t := fun v k => (h k v).symm

def toPEquiv (h : Inverse t u) : κ ≃. ν where
  toFun := t.lookup
  invFun := u.lookup
  inv k v := (h k v).symm

theorem injective (h : Inverse t u) {k k' : κ} {v : ν} (hk : t.lookup k = some v)
    (hk' : t.lookup k' = some v) : k = k' :=
  h.toPEquiv.inj hk hk'

/-- No other key leads to a value than the one it leads back to. -/
theorem lookup_ne (h : Inverse t u) {k k' : κ} {v : ν} (hv : u.lookup v = some k) (hne : k ≠ k') :
    t.lookup k' ≠ some v :=
  fun hk' => hne (h.injective ((h k v).mpr hv) hk')

theorem lookup_eq_none_iff (h : Inverse t u) {v : ν} :
    u.lookup v = none ↔ ∀ k, t.lookup k ≠ some v := by
  rw [Option.eq_none_iff_forall_ne_some]
  exact forall_congr' fun k => not_congr (h k v).symm

/-- A pair is taken out of both tables. -/
theorem erase (h : Inverse t u) {k : κ} {v : ν} (hk : t.lookup k = some v) :
    Inverse (t.erase k) (u.erase v) := by
  intro k' v'
  rw [lookup_erase_eq_some, lookup_erase_eq_some, h k' v']
  refine and_congr_left fun hv' => not_congr ⟨?_, ?_⟩
  · rintro rfl
    exact Option.some.inj (((h k' v').mpr hv').symm.trans hk)
  · rintro rfl
    exact h.injective ((h k' v').mpr hv') hk

theorem erase_of_none (h : Inverse t u) {k : κ} {v : ν} (hk : t.lookup k = none)
    (hv : u.lookup v = none) : Inverse (t.erase k) (u.erase v) := by
  intro k' v'
  rw [lookup_erase_of_none hk, lookup_erase_of_none hv]
  exact h k' v'

/-- A new pair is entered into both tables. -/
theorem insert (h : Inverse t u) {k : κ} {v : ν} (hk : t.lookup k = none)
    (hv : u.lookup v = none) : Inverse (t.insert k v) (u.insert v k) := by
  intro k' v'
  rw [lookup_insert_eq_some, lookup_insert_eq_some, h k' v', and_comm]
  refine or_congr_right (and_congr_left fun hv' => ?_)
  have hk' : k' ≠ k := by
    rintro rfl
    cases hk.symm.trans ((h k' v').mpr hv')
  have hne : v' ≠ v := by
    rintro rfl
    cases hv.symm.trans hv'
  exact iff_of_true hk' hne

end Inverse

end Inverse

end GHashTable
