import Uresourced.Lib.LastWrite

/-!
A store of properties that follows a log of messages.

A message is about one unit and sets some properties of it. The log grows at its
end; the owner of the store takes one message after the other, at its own pace,
and may refuse one as a whole. How the owner applies a message is a parameter, of
which only `Sets` is known. `Follows` is what holds between the log and the store
at any moment: the store is the effect of the messages handled so far, without
refused ones.
-/

namespace PropertyStore

variable {υ π ν μ : Type*} [DecidableEq υ] [DecidableEq π]

abbrev Store (υ π ν : Type*) := υ → π → Option ν

section Messages

variable (unit : μ → υ) (properties : μ → List (π × ν))

def value (m : μ) (p : π) : Option ν := (LastWrite.last Prod.fst p (properties m)).map Prod.snd

def put (store : Store υ π ν) (m : μ) : Store υ π ν := fun u p =>
  if unit m = u then (value properties m p).or (store u p) else store u p

/-- An owner that does what messages say: it sets the properties in a message and
keeps everything else. -/
structure Sets (apply : Store υ π ν → μ → Store υ π ν) : Prop where
  set : ∀ store m p v, value properties m p = some v → apply store m (unit m) p = some v
  keep : ∀ store m u p, unit m ≠ u ∨ value properties m p = none → apply store m u p = store u p

theorem sets_put : Sets unit properties (put (ν := ν) unit properties) where
  set store m p v hvalue := by rw [put, if_pos rfl, hvalue, Option.some_or]
  keep store m u p hkeep := by
    rw [put]
    split
    · next hunit =>
      rw [hkeep.resolve_left (not_not.mpr hunit), Option.none_or]
    · rfl

variable {unit properties} in
theorem Sets.eq_put {apply : Store υ π ν → μ → Store υ π ν} (h : Sets unit properties apply) :
    apply = put unit properties := by
  funext store m u p
  rw [put]
  split
  · next hunit =>
    subst hunit
    cases hvalue : value properties m p with
    | none => exact h.keep store m _ p (.inr hvalue)
    | some v => exact h.set store m p v hvalue
  · next hunit => exact h.keep store m u p (.inl hunit)

def putAll (store : Store υ π ν) (ms : List μ) : Store υ π ν := ms.foldl (put unit properties) store

variable {unit properties} {store : Store υ π ν} {ms : List μ} {m : μ} {u : υ} {p : π}

theorem putAll_concat (ms : List μ) (m : μ) :
    putAll unit properties store (ms ++ [m]) =
      put unit properties (putAll unit properties store ms) m := List.foldl_append

/-- The last message about a unit decides, if it sets the property. -/
theorem putAll_of_last {v : ν} (hlast : LastWrite.last unit u ms = some m)
    (hvalue : value properties m p = some v) : putAll unit properties store ms u p = some v := by
  induction ms using List.reverseRecOn with
  | nil => cases hlast
  | append_singleton ms n ih =>
      rw [putAll_concat, put]
      by_cases hunit : unit n = u
      · have hlog := LastWrite.last_concat_self unit ms n
        obtain rfl : n = m := by
          rw [← hunit, hlog] at hlast
          exact Option.some.inj hlast
        rw [if_pos hunit, hvalue, Option.some_or]
      · rw [LastWrite.last_concat_of_ne unit hunit] at hlast
        rw [if_neg hunit, ih hlast]

/-- A property of a unit that no message is about stays what it was. -/
theorem putAll_of_last_none (hlast : LastWrite.last unit u ms = none) :
    putAll unit properties store ms u p = store u p := by
  induction ms using List.reverseRecOn with
  | nil => rfl
  | append_singleton ms n ih =>
      have hnot := (LastWrite.last_eq_none unit).mp hlast
      rw [putAll_concat, put, if_neg (hnot n (by simp))]
      exact ih ((LastWrite.last_eq_none unit).mpr fun m hm => hnot m (by simp [hm]))

end Messages

/-! ### Messages that are refused -/

/-- The messages of a log without some of those that may be refused. -/
inductive Taken (refusable : μ → Prop) : List μ → List μ → Prop
  | nil : Taken refusable [] []
  | take {log taken : List μ} (m : μ) :
      Taken refusable log taken → Taken refusable (log ++ [m]) (taken ++ [m])
  | refuse {log taken : List μ} (m : μ) :
      refusable m → Taken refusable log taken → Taken refusable (log ++ [m]) taken

namespace Taken

variable {refusable : μ → Prop} {log taken : List μ}

theorem subset (h : Taken refusable log taken) : taken ⊆ log := by
  induction h with
  | nil => exact List.Subset.refl _
  | take m _ ih => exact List.append_subset.mpr ⟨List.subset_append_of_subset_left _ ih,
      List.subset_append_right _ _⟩
  | refuse m _ _ ih => exact List.subset_append_of_subset_left _ ih

theorem eq_of_forall (h : Taken refusable log taken) (hnone : ∀ m ∈ log, ¬ refusable m) :
    taken = log := by
  induction h with
  | nil => rfl
  | take m _ ih => rw [ih fun n hn => hnone n (List.mem_append_left _ hn)]
  | refuse m hm _ _ => exact absurd hm (hnone m (by simp))

/-- The last message about a unit is the same one, or one that may be refused. -/
theorem last_eq_or (unit : μ → υ) (h : Taken refusable log taken) (u : υ) :
    LastWrite.last unit u taken = LastWrite.last unit u log ∨
      ∃ m, LastWrite.last unit u log = some m ∧ refusable m := by
  induction h with
  | nil => exact .inl rfl
  | take m _ ih =>
      by_cases hunit : unit m = u
      · subst hunit
        simp
      · simpa only [LastWrite.last_concat_of_ne unit hunit] using ih
  | refuse m hm _ ih =>
      by_cases hunit : unit m = u
      · subst hunit
        exact .inr ⟨m, LastWrite.last_concat_self unit _ m, hm⟩
      · simpa only [LastWrite.last_concat_of_ne unit hunit] using ih

end Taken

/-! ### Handling one message after the other -/

structure Owner (υ π ν : Type*) where
  handled : ℕ
  store : Store υ π ν

section Owner

variable (unit : μ → υ) (properties : μ → List (π × ν))

def Owner.handle (apply : Store υ π ν → μ → Store υ π ν) (o : Owner υ π ν) (log : List μ)
    (accepted : Bool) : Option (Owner υ π ν) :=
  log[o.handled]?.map fun m => ⟨o.handled + 1, if accepted then apply o.store m else o.store⟩

/-- The store is the effect of the messages handled so far, without refused ones. -/
structure Follows (refusable : μ → Prop) (store : Store υ π ν) (log : List μ)
    (o : Owner υ π ν) : Prop where
  handled_le : o.handled ≤ log.length
  store_eq : ∃ taken, Taken refusable (log.take o.handled) taken ∧
    o.store = putAll unit properties store taken

variable {unit properties} {refusable : μ → Prop} {store : Store υ π ν} {log : List μ}
  {o o' : Owner υ π ν}

theorem follows_init (refusable : μ → Prop) (store : Store υ π ν) (log : List μ) :
    Follows unit properties refusable store log ⟨0, store⟩ :=
  ⟨Nat.zero_le _, [], .nil, rfl⟩

theorem Follows.append (h : Follows unit properties refusable store log o) (more : List μ) :
    Follows unit properties refusable store (log ++ more) o := by
  obtain ⟨hle, taken, htaken, hstore⟩ := h
  refine ⟨hle.trans (by simp), taken, ?_, hstore⟩
  rwa [List.take_append_of_le_length hle]

theorem Follows.handle {apply : Store υ π ν → μ → Store υ π ν} {accepted : Bool}
    (happly : Sets unit properties apply) (h : Follows unit properties refusable store log o)
    (hs : o.handle apply log accepted = some o')
    (hrefuse : accepted = false → ∀ m ∈ log[o.handled]?, refusable m) :
    Follows unit properties refusable store log o' := by
  obtain rfl := happly.eq_put
  obtain ⟨m, hm, rfl⟩ := Option.map_eq_some_iff.mp hs
  obtain ⟨_, taken, htaken, hstore⟩ := h
  obtain ⟨hlt, hget⟩ := List.getElem?_eq_some_iff.mp hm
  have htake : log.take (o.handled + 1) = log.take o.handled ++ [m] := by
    rw [List.take_succ_eq_append_getElem hlt, hget]
  refine ⟨hlt, ?_⟩
  cases accepted with
  | false => exact ⟨taken, htake ▸ htaken.refuse m (hrefuse rfl m hm), hstore⟩
  | true => exact ⟨taken ++ [m], htake ▸ htaken.take m, by rw [putAll_concat, ← hstore]; rfl⟩

/-- Once everything has been handled, what was taken is the whole log, without
refused messages. -/
theorem Follows.of_handled (h : Follows unit properties refusable store log o)
    (hall : o.handled = log.length) :
    ∃ taken, Taken refusable log taken ∧ o.store = putAll unit properties store taken := by
  obtain ⟨_, taken, htaken, hstore⟩ := h
  rw [hall, List.take_length] at htaken
  exact ⟨taken, htaken, hstore⟩

end Owner

end PropertyStore
