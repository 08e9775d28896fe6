import Mathlib.Algebra.Group.Nat.Defs
import Mathlib.Data.List.Basic

/-!
Streams of records of different lengths.

A `Format` says how a record is written and how the record at the head of the
input is read back, whatever follows it. Records that are written one after the
other are then read back one after the other. A reader with a buffer is only
given whole records; `takeWhole` is what fits into it.
-/

namespace Records

/-! ### Little-endian numbers -/

def leBytes : ℕ → ℕ → List UInt8
  | 0, _ => []
  | n + 1, v => UInt8.ofNat v :: leBytes n (v / 256)

def leValue : List UInt8 → ℕ
  | [] => 0
  | b :: bs => b.toNat + 256 * leValue bs

@[simp] theorem length_leBytes (n v : ℕ) : (leBytes n v).length = n := by
  induction n generalizing v with
  | zero => rfl
  | succ n ih => simp [leBytes, ih]

theorem leValue_leBytes {n v : ℕ} (h : v < 256 ^ n) : leValue (leBytes n v) = v := by
  induction n generalizing v with
  | zero =>
      have hzero : v = 0 := Nat.lt_one_iff.mp h
      exact hzero.symm
  | succ n ih =>
      have hlt : v / 256 < 256 ^ n := by
        rw [Nat.pow_succ] at h
        exact Nat.div_lt_of_lt_mul (by omega)
      have hbyte : (UInt8.ofNat v).toNat = v % 256 := UInt8.toNat_ofNat'
      rw [leBytes, leValue, ih hlt, hbyte]
      omega

/-! ### Formats -/

/-- How records are written and read. A record may be read back whatever comes
after it, and takes up room. -/
structure Format (α β : Type*) where
  encode : α → List β
  parse : List β → Option (α × List β)
  Valid : α → Prop
  encode_ne_nil : ∀ a, encode a ≠ []
  parse_encode : ∀ a, Valid a → ∀ rest, parse (encode a ++ rest) = some (a, rest)

namespace Format

variable {α β : Type*} (F : Format α β)

def encodeAll (as : List α) : List β := as.flatMap F.encode

def parseAll : ℕ → List β → Option (List α)
  | _, [] => some []
  | 0, _ :: _ => none
  | n + 1, b :: bs => (F.parse (b :: bs)).bind fun (a, rest) => (parseAll n rest).map (a :: ·)

@[simp] theorem encodeAll_nil : F.encodeAll [] = [] := rfl

@[simp] theorem encodeAll_cons (a : α) (as : List α) :
    F.encodeAll (a :: as) = F.encode a ++ F.encodeAll as := List.flatMap_cons

variable {F} {as : List α} {a : α}

theorem encodeAll_eq_nil : F.encodeAll as = [] ↔ as = [] := by
  cases as with
  | nil => simp
  | cons a as => simp [F.encode_ne_nil a]

theorem parse_encodeAll_cons (h : F.Valid a) :
    F.parse (F.encodeAll (a :: as)) = some (a, F.encodeAll as) :=
  F.parse_encode a h (F.encodeAll as)

/-- The round trip: what was written is read back, in order and without a rest. -/
theorem parseAll_encodeAll {n : ℕ} (hvalid : ∀ a ∈ as, F.Valid a) (hn : as.length ≤ n) :
    F.parseAll n (F.encodeAll as) = some as := by
  induction as generalizing n with
  | nil => cases n <;> rfl
  | cons a as ih =>
      obtain ⟨m, rfl⟩ : ∃ m, n = m + 1 := ⟨n - 1, by simp at hn; omega⟩
      have hparse : F.parse (F.encodeAll (a :: as)) = some (a, F.encodeAll as) :=
        parse_encodeAll_cons (hvalid a List.mem_cons_self)
      obtain ⟨b, bs, hbytes⟩ := List.exists_cons_of_ne_nil
        (mt encodeAll_eq_nil.mp (List.cons_ne_nil a as))
      rw [hbytes] at hparse ⊢
      have hrest : F.parseAll m (F.encodeAll as) = some as :=
        ih (fun b hb => hvalid b (List.mem_cons_of_mem a hb)) (by simpa using hn)
      rw [parseAll, hparse, Option.bind_some]
      exact congrArg (Option.map (a :: ·)) hrest

theorem length_le_length_encodeAll (as : List α) : as.length ≤ (F.encodeAll as).length := by
  induction as with
  | nil => simp
  | cons a as ih =>
      have hpos := List.length_pos_iff.mpr (F.encode_ne_nil a)
      simp only [encodeAll_cons, List.length_append, List.length_cons]
      omega

/-! ### Reading into a buffer -/

variable (F) in
/-- The records that fit into `count` bytes, and those that are left. -/
def takeWhole : ℕ → List α → List α × List α
  | _, [] => ([], [])
  | count, a :: as =>
      if (F.encode a).length ≤ count then
        (a :: (takeWhole (count - (F.encode a).length) as).1,
          (takeWhole (count - (F.encode a).length) as).2)
      else ([], a :: as)

theorem takeWhole_append (count : ℕ) (as : List α) :
    (F.takeWhole count as).1 ++ (F.takeWhole count as).2 = as := by
  induction as generalizing count with
  | nil => rfl
  | cons a as ih =>
      rw [takeWhole]
      split
      · rw [List.cons_append, ih]
      · rfl

theorem length_takeWhole_le (count : ℕ) (as : List α) :
    (F.encodeAll (F.takeWhole count as).1).length ≤ count := by
  induction as generalizing count with
  | nil => exact Nat.zero_le _
  | cons a as ih =>
      rw [takeWhole]
      split
      · have hrest := ih (count - (F.encode a).length)
        simp only [encodeAll_cons, List.length_append]
        omega
      · exact Nat.zero_le _

/-- Of records of at most `size` bytes, `k` are read if there is room for `k`, or all. -/
theorem le_length_takeWhole {size k count : ℕ} (hsize : ∀ a ∈ as, (F.encode a).length ≤ size)
    (hroom : k * size ≤ count) :
    k ≤ (F.takeWhole count as).1.length ∨ (F.takeWhole count as).2 = [] := by
  induction as generalizing k count with
  | nil => exact .inr rfl
  | cons a as ih =>
      have ha := hsize a List.mem_cons_self
      cases k with
      | zero => exact .inl (Nat.zero_le _)
      | succ k =>
          rw [Nat.succ_mul] at hroom
          have hrest : k ≤ (F.takeWhole (count - (F.encode a).length) as).1.length ∨
              (F.takeWhole (count - (F.encode a).length) as).2 = [] :=
            ih (fun b hb => hsize b (List.mem_cons_of_mem a hb)) (by omega)
          rw [takeWhole, if_pos (by omega)]
          exact hrest.imp Nat.succ_le_succ id

end Format

end Records
