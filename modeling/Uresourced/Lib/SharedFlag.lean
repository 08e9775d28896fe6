import Mathlib.Logic.Basic
import Mathlib.Data.Option.Basic
import Mathlib.Tactic.Common

/-!
One flag for each key, shared by the owners of the key.

The flags follow the owners if a flag is set exactly while somebody owns its
key. Only the flags are stored. An owner that writes one flag for what it owns
itself is right as long as nobody else owns the keys in question, and the
lemmas below say exactly when that is.
-/

namespace SharedFlag

variable {ι κ : Type*}

/-- A flag is set while somebody owns its key. -/
def Follows (flag : κ → Prop) (owns : ι → κ → Prop) : Prop := ∀ k, flag k ↔ ∃ i, owns i k

def Others (owns : ι → κ → Prop) (i : ι) (k : κ) : Prop := ∃ j, j ≠ i ∧ owns j k

/-- After a write, the flag of the target has the written value, and the other
flags are what they were. -/
def Written (flag flag' : κ → Prop) (target : Option κ) (value : Bool) : Prop :=
  ∀ k, flag' k ↔ (target = some k ∧ value = true) ∨ (target ≠ some k ∧ flag k)

variable {flag flag' : κ → Prop} {owns owns' : ι → κ → Prop} {i : ι} {target : Option κ}
  {value : Bool}

theorem exists_owner_iff (owns : ι → κ → Prop) (i : ι) (k : κ) :
    (∃ j, owns j k) ↔ owns i k ∨ Others owns i k := by
  constructor
  · rintro ⟨j, hj⟩
    by_cases h : j = i
    · exact .inl (h ▸ hj)
    · exact .inr ⟨j, h, hj⟩
  · rintro (h | ⟨j, _, h⟩)
    · exact ⟨i, h⟩
    · exact ⟨j, h⟩

theorem others_congr (hothers : ∀ j, j ≠ i → ∀ k, owns' j k ↔ owns j k) (k : κ) :
    Others owns' i k ↔ Others owns i k := by
  constructor
  · rintro ⟨j, hne, hj⟩
    exact ⟨j, hne, (hothers j hne k).mp hj⟩
  · rintro ⟨j, hne, hj⟩
    exact ⟨j, hne, (hothers j hne k).mpr hj⟩

/-- An owner gives up all its keys and owns the target if it sets the flag there. The
flags follow exactly if every other key that it gives up has another owner, and the flag
it clears has none. -/
theorem Follows.replace_iff (h : Follows flag owns)
    (hothers : ∀ j, j ≠ i → ∀ k, owns' j k ↔ owns j k)
    (hwrite : Written flag flag' target value)
    (hself : ∀ k, owns' i k ↔ target = some k ∧ value = true) :
    Follows flag' owns' ↔
      (∀ k, owns i k → target ≠ some k → Others owns i k) ∧
        ∀ k, target = some k → value = false → ¬ Others owns i k := by
  have hkey (k : κ) : (flag' k ↔ ∃ j, owns' j k) ↔
      (owns i k → target ≠ some k → Others owns i k) ∧
        (target = some k → value = false → ¬ Others owns i k) := by
    rw [hwrite k, exists_owner_iff owns' i k, others_congr hothers, hself, h k,
      exists_owner_iff owns i k]
    cases value <;> by_cases htarget : target = some k <;> simp only [htarget] <;> tauto
  constructor
  · intro hall
    exact ⟨fun k => ((hkey k).mp (hall k)).1, fun k => ((hkey k).mp (hall k)).2⟩
  · rintro ⟨hgiven, hcleared⟩ k
    exact (hkey k).mpr ⟨hgiven k, hcleared k⟩

theorem Follows.add (h : Follows flag owns)
    (hothers : ∀ j, j ≠ i → ∀ k, owns' j k ↔ owns j k)
    (hwrite : Written flag flag' target true)
    (hself : ∀ k, owns' i k ↔ owns i k ∨ target = some k) : Follows flag' owns' := by
  intro k
  rw [hwrite k, exists_owner_iff owns' i k, others_congr hothers, hself, h k,
    exists_owner_iff owns i k]
  by_cases htarget : target = some k <;> simp only [htarget] <;> tauto

end SharedFlag
