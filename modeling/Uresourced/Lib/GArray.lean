import Mathlib.Data.List.Sort

/-!
Sorting and searching an array by a comparison function in the style of C.

A comparison function returns a number whose sign gives the order of its two
arguments. Nothing makes it an order, so `sort` and `binarySearch` are defined
for any function, and the theorems about them ask for an order only on the
elements at hand: `Orders cmp key x y` says that `cmp x y` has the sign that
the keys of `x` and `y` demand.
-/

namespace GArray

variable {α β : Type*} (cmp : α → α → Int)

/-! ### Binary search -/

/-- The search loop over the inclusive window `[left, right]`. The window
shrinks in every round, so the length of the array is enough fuel. -/
def searchLoop (xs : List α) (target : α) : ℕ → ℕ → ℕ → Bool
  | 0, _, _ => false
  | fuel + 1, left, right =>
      if left ≤ right then
        let middle := left + (right - left) / 2
        match xs[middle]? with
        | none => false
        | some x =>
            if cmp x target = 0 then true
            else if cmp x target < 0 then searchLoop xs target fuel (middle + 1) right
            else if 0 < middle then searchLoop xs target fuel left (middle - 1)
            else false
      else false

def binarySearch (xs : List α) (target : α) : Bool :=
  searchLoop cmp xs target xs.length 0 (xs.length - 1)

/-- `cmp` orders `x` and `y` as their keys are ordered. -/
def Orders [LinearOrder β] (key : α → β) (x y : α) : Prop :=
  (cmp x y < 0 ↔ key x < key y) ∧ (cmp x y = 0 ↔ key x = key y)

variable {cmp}

/-- A hit is a hit, whatever the order of the array and the comparison. -/
theorem exists_of_searchLoop {xs : List α} {target : α} {fuel left right : ℕ}
    (h : searchLoop cmp xs target fuel left right = true) :
    ∃ x ∈ xs, cmp x target = 0 := by
  induction fuel generalizing left right with
  | zero => simp [searchLoop] at h
  | succ fuel ih =>
      simp only [searchLoop] at h
      split at h
      · split at h
        · simp at h
        · next x hx =>
          split at h
          · next heq => exact ⟨x, List.mem_of_getElem? hx, heq⟩
          · split at h
            · exact ih h
            · split at h
              · exact ih h
              · simp at h
      · simp at h

theorem exists_of_binarySearch {xs : List α} {target : α}
    (h : binarySearch cmp xs target = true) : ∃ x ∈ xs, cmp x target = 0 :=
  exists_of_searchLoop h

section Sorted

variable [LinearOrder β] {key : α → β} {xs : List α} {target : α}

/-- On an array sorted by key the loop finds an element of its window. -/
theorem searchLoop_of_getElem? (hsorted : xs.Pairwise fun x y => key x ≤ key y)
    (horders : ∀ x ∈ xs, Orders cmp key x target) {i fuel left right : ℕ} {x : α}
    (hx : xs[i]? = some x) (hkey : key x = key target) (hleft : left ≤ i)
    (hright : i ≤ right) (hlen : right < xs.length) (hfuel : right < left + fuel) :
    searchLoop cmp xs target fuel left right = true := by
  induction fuel generalizing left right with
  | zero => omega
  | succ fuel ih =>
      have hmid : left + (right - left) / 2 < xs.length := by omega
      have hmem : xs[left + (right - left) / 2] ∈ xs := List.getElem_mem hmid
      obtain ⟨hi, rfl⟩ := List.getElem?_eq_some_iff.mp hx
      obtain ⟨hlt, heq⟩ := horders _ hmem
      have hmono {j k : ℕ} (hj : j < xs.length) (hk : k < xs.length) (hjk : j ≤ k) :
          key xs[j] ≤ key xs[k] := by
        rcases hjk.eq_or_lt with rfl | hjk
        · exact le_rfl
        · exact List.pairwise_iff_getElem.mp hsorted _ _ hj hk hjk
      simp only [searchLoop, if_pos (hleft.trans hright), List.getElem?_eq_getElem hmid]
      rcases lt_trichotomy (key xs[left + (right - left) / 2]) (key target) with hk | hk | hk
      · -- the middle element is below the target: the window moves up
        have hmi : left + (right - left) / 2 < i := by
          by_contra hle
          exact (hkey.symm.le.trans (hmono hi hmid (not_lt.mp hle))).not_gt hk
        rw [if_neg (fun h => hk.ne (heq.mp h)), if_pos (hlt.mpr hk)]
        exact ih (by omega) hright hlen (by omega)
      · rw [if_pos (heq.mpr hk)]
      · -- the middle element is above the target: the window moves down
        have hmi : i < left + (right - left) / 2 := by
          by_contra hle
          exact ((hmono hmid hi (not_lt.mp hle)).trans hkey.le).not_gt hk
        rw [if_neg (fun h => hk.ne' (heq.mp h)), if_neg (fun h => hk.asymm (hlt.mp h)),
          if_pos (by omega)]
        exact ih hleft (by omega) (by omega) (by omega)

/-- Binary search decides membership in an array that is sorted by key. -/
theorem binarySearch_iff (hsorted : xs.Pairwise fun x y => key x ≤ key y)
    (horders : ∀ x ∈ xs, Orders cmp key x target) :
    binarySearch cmp xs target = true ↔ ∃ x ∈ xs, key x = key target := by
  constructor
  · intro h
    obtain ⟨x, hx, heq⟩ := exists_of_binarySearch h
    exact ⟨x, hx, (horders x hx).2.mp heq⟩
  · rintro ⟨x, hx, hkey⟩
    obtain ⟨i, hi, rfl⟩ := List.mem_iff_getElem.mp hx
    exact searchLoop_of_getElem? hsorted horders (List.getElem?_eq_getElem hi) hkey
      (Nat.zero_le i) (by omega) (by omega) (by omega)

end Sorted

/-! ### Merge sort -/

variable (cmp)

def mergeFrom (x : α) (xs : List α) (rest : List α → List α) : List α → List α
  | [] => x :: xs
  | y :: ys => if cmp x y ≤ 0 then x :: rest (y :: ys) else y :: mergeFrom x xs rest ys

def merge : List α → List α → List α
  | [], ys => ys
  | x :: xs, ys => mergeFrom cmp x xs (merge xs) ys

def sortLoop : ℕ → List α → List α
  | 0, xs => xs
  | fuel + 1, xs =>
      if xs.length ≤ 1 then xs
      else merge cmp (sortLoop fuel (xs.take (xs.length / 2)))
        (sortLoop fuel (xs.drop (xs.length / 2)))

def sort (xs : List α) : List α := sortLoop cmp xs.length xs

theorem merge_eq (xs ys : List α) :
    merge cmp xs ys = xs.merge ys (fun x y => decide (cmp x y ≤ 0)) := by
  induction xs generalizing ys with
  | nil => simp [merge]
  | cons x xs ih =>
      simp only [merge]
      induction ys with
      | nil => simp [mergeFrom]
      | cons y ys ihy =>
          by_cases h : cmp x y ≤ 0
          · simp [mergeFrom, h, ih]
          · simp [mergeFrom, h, ihy]

theorem sortLoop_perm (fuel : ℕ) (xs : List α) : (sortLoop cmp fuel xs).Perm xs := by
  induction fuel generalizing xs with
  | zero => exact .refl _
  | succ fuel ih =>
      simp only [sortLoop]
      split
      · exact .refl _
      · rw [merge_eq]
        apply (List.merge_perm_append _).trans
        apply ((ih _).append (ih _)).trans
        rw [List.take_append_drop]

theorem sort_perm (xs : List α) : (sort cmp xs).Perm xs := sortLoop_perm cmp _ xs

@[simp] theorem mem_sort {x : α} {xs : List α} : x ∈ sort cmp xs ↔ x ∈ xs :=
  (sort_perm cmp xs).mem_iff

variable {cmp}

section Sorted

variable [LinearOrder β] {key : α → β}

theorem merge_pairwise {xs ys : List α}
    (hxs : xs.Pairwise fun x y => key x ≤ key y) (hys : ys.Pairwise fun x y => key x ≤ key y)
    (horders : ∀ x ∈ xs, ∀ y ∈ ys, Orders cmp key x y) :
    (merge cmp xs ys).Pairwise fun x y => key x ≤ key y := by
  induction xs generalizing ys with
  | nil => simpa [merge] using hys
  | cons x xs ih =>
      obtain ⟨hx, hxs⟩ := List.pairwise_cons.mp hxs
      simp only [merge]
      induction ys with
      | nil => simpa [mergeFrom] using ⟨hx, hxs⟩
      | cons y ys ihy =>
          obtain ⟨hlt, heq⟩ := horders x (by simp) y (by simp)
          obtain ⟨hy, hys'⟩ := List.pairwise_cons.mp hys
          have hmem (z : α) : z ∈ merge cmp xs (y :: ys) ↔ z ∈ xs ∨ z ∈ y :: ys := by
            rw [merge_eq, List.mem_merge]
          have hmem' (z : α) : z ∈ mergeFrom cmp x xs (merge cmp xs) ys ↔ z ∈ x :: xs ∨ z ∈ ys := by
            rw [show mergeFrom cmp x xs (merge cmp xs) ys = merge cmp (x :: xs) ys from rfl,
              merge_eq, List.mem_merge]
          by_cases h : cmp x y ≤ 0
          · -- `x` is taken: it is below the rest of its list and, through `y`, below the other
            have hxy : key x ≤ key y := by
              rcases lt_or_eq_of_le h with h | h
              · exact (hlt.mp h).le
              · exact (heq.mp h).le
            simp only [mergeFrom, if_pos h]
            refine List.pairwise_cons.mpr ⟨fun z hz => ?_, ih hxs hys fun a ha b hb =>
              horders a (by simp [ha]) b hb⟩
            rcases (hmem z).mp hz with hz | hz
            · exact hx z hz
            · rcases List.mem_cons.mp hz with rfl | hz
              · exact hxy
              · exact hxy.trans (hy z hz)
          · have hyx : key y ≤ key x := by
              by_contra hlt'
              exact h (hlt.mpr (not_le.mp hlt')).le
            simp only [mergeFrom, if_neg h]
            refine List.pairwise_cons.mpr ⟨fun z hz => ?_, ihy hys' fun a ha b hb =>
              horders a ha b (by simp [hb])⟩
            rcases (hmem' z).mp hz with hz | hz
            · rcases List.mem_cons.mp hz with rfl | hz
              · exact hyx
              · exact hyx.trans (hx z hz)
            · exact hy z hz

theorem sortLoop_pairwise {fuel : ℕ} {xs : List α} (hfuel : xs.length ≤ fuel)
    (horders : ∀ x ∈ xs, ∀ y ∈ xs, Orders cmp key x y) :
    (sortLoop cmp fuel xs).Pairwise fun x y => key x ≤ key y := by
  induction fuel generalizing xs with
  | zero =>
      have : xs = [] := List.length_eq_zero_iff.mp (by omega)
      simp [this, sortLoop]
  | succ fuel ih =>
      simp only [sortLoop]
      split
      · next hshort =>
        match xs, hshort with
        | [], _ => simp
        | [x], _ => simp
      · next hlong =>
        have htake : ∀ x ∈ xs.take (xs.length / 2), x ∈ xs := fun x => List.mem_of_mem_take
        have hdrop : ∀ x ∈ xs.drop (xs.length / 2), x ∈ xs := fun x => List.mem_of_mem_drop
        refine merge_pairwise
          (ih (by simp; omega) fun x hx y hy => horders x (htake x hx) y (htake y hy))
          (ih (by simp; omega) fun x hx y hy => horders x (hdrop x hx) y (hdrop y hy))
          fun x hx y hy => horders x (htake x ?_) y (hdrop y ?_)
        · exact (sortLoop_perm cmp fuel _).mem_iff.mp hx
        · exact (sortLoop_perm cmp fuel _).mem_iff.mp hy

/-- Sorting sorts, where the comparison is an order on the elements. -/
theorem sort_pairwise {xs : List α} (horders : ∀ x ∈ xs, ∀ y ∈ xs, Orders cmp key x y) :
    (sort cmp xs).Pairwise fun x y => key x ≤ key y :=
  sortLoop_pairwise le_rfl horders

end Sorted

/-! ### Comparison functions that are an order on some elements -/

/-- The comparison is a strict total order on the elements of a list. -/
structure IsOrderOn (cmp : α → α → Int) (xs : List α) : Prop where
  eq_iff : ∀ x ∈ xs, ∀ y ∈ xs, cmp x y = 0 ↔ x = y
  swap : ∀ x ∈ xs, ∀ y ∈ xs, 0 < cmp x y → cmp y x < 0
  trans : ∀ x ∈ xs, ∀ y ∈ xs, ∀ z ∈ xs, cmp x y < 0 → cmp y z < 0 → cmp x z < 0

def rank (cmp : α → α → Int) (xs : List α) (x : α) : ℕ := xs.countP fun y => cmp y x < 0

theorem countP_lt {p q : α → Bool} {xs : List α} {x : α} (hsub : ∀ y ∈ xs, p y = true → q y = true)
    (hx : x ∈ xs) (hp : p x = false) (hq : q x = true) : xs.countP p < xs.countP q := by
  induction xs with
  | nil => cases hx
  | cons y ys ih =>
      have hle : ys.countP p ≤ ys.countP q :=
        List.countP_mono_left fun z hz => hsub z (List.mem_cons_of_mem _ hz)
      rw [List.countP_cons, List.countP_cons]
      rcases List.mem_cons.mp hx with rfl | hx
      · simp [hp, hq]
        omega
      · have hlt := ih (fun z hz => hsub z (List.mem_cons_of_mem _ hz)) hx
        have hhead := hsub y List.mem_cons_self
        cases h : p y with
        | false =>
            simp
            omega
        | true =>
            simp [hhead h]
            omega

namespace IsOrderOn

variable {xs : List α}

theorem rank_lt (h : IsOrderOn cmp xs) {x y : α} (hx : x ∈ xs) (hy : y ∈ xs) (hlt : cmp x y < 0) :
    rank cmp xs x < rank cmp xs y := by
  have hself : cmp x x = 0 := (h.eq_iff x hx x hx).mpr rfl
  refine countP_lt (x := x) (fun z hz hzx => ?_) hx (by simp [hself]) (by simpa using hlt)
  simp only [decide_eq_true_eq] at hzx ⊢
  exact h.trans z hz x hx y hy hzx hlt

/-- An order is an order by rank, so that arrays of its elements can be sorted and
searched. -/
theorem orders (h : IsOrderOn cmp xs) {x y : α} (hx : x ∈ xs) (hy : y ∈ xs) :
    Orders cmp (rank cmp xs) x y := by
  have heq := h.eq_iff x hx y hy
  rcases lt_trichotomy (cmp x y) 0 with hlt | hzero | hgt
  · have hrank := h.rank_lt hx hy hlt
    exact ⟨iff_of_true hlt hrank, iff_of_false hlt.ne hrank.ne⟩
  · obtain rfl := heq.mp hzero
    exact ⟨iff_of_false (by omega) (lt_irrefl _), iff_of_true hzero rfl⟩
  · have hrank := h.rank_lt hy hx (h.swap x hx y hy hgt)
    exact ⟨iff_of_false (by omega) hrank.asymm, iff_of_false hgt.ne' hrank.ne'⟩

end IsOrderOn

end GArray
