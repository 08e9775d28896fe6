import Uresourced.Lib.LastWrite

/-!
A table whose entries are announced in a log.

Every entry has a name and asks for a message of that name. An entry is settled
if the last message of its name is the one it asks for; an entry that is not due
does not count as long as no message of its name was sent. Entries change with
or without a message, and the lemmas below say exactly which changes leave all
entries settled.
-/

namespace Announced

variable {π ρ β ν : Type*} [DecidableEq ν] (key : β → ν) (name : ρ → ν) (message : ρ → β)
  (due : ρ → Prop)

def Issued (log : List β) (r : ρ) : Prop := ∃ e ∈ log, key e = name r

def Settled (log : List β) (r : ρ) : Prop :=
  due r ∨ Issued key name log r → LastWrite.last key (name r) log = some (message r)

def Applied (table : π → Option ρ) (log : List β) : Prop :=
  ∀ p r, table p = some r → Settled key name message due log r

/-- The table after a change of one entry. -/
def Replaces (table table' : π → Option ρ) (p : π) (r : ρ) : Prop :=
  table' p = some r ∧ ∀ q, q ≠ p → table' q = table q

variable {key name message due} {table table' : π → Option ρ} {log : List β} {p : π} {r r' : ρ}

theorem issued_of_last {e : β} (h : LastWrite.last key (name r) log = some e) :
    Issued key name log r := ⟨e, LastWrite.mem_of_last key h⟩

theorem settled_nil_iff : Settled key name message due [] r ↔ ¬ due r := by
  simp [Settled, Issued]

theorem settled_concat_of_ne {e : β} (hname : key e ≠ name r) :
    Settled key name message due (log ++ [e]) r ↔ Settled key name message due log r := by
  unfold Settled Issued
  rw [LastWrite.last_concat_of_ne key hname]
  simp [hname]

theorem settled_concat_self {e : β} (hname : key e = name r) (hmessage : e = message r) :
    Settled key name message due (log ++ [e]) r := by
  intro _
  rw [← hname, ← hmessage]
  exact LastWrite.last_concat_self key log e

theorem settled_congr (hname : name r' = name r) (hmessage : message r' = message r)
    (hdue : due r' ↔ due r) :
    Settled key name message due log r' ↔ Settled key name message due log r := by
  unfold Settled Issued
  rw [hname, hmessage, hdue]

theorem Applied.silent_iff (h : Applied key name message due table log)
    (htable : Replaces table table' p r) :
    Applied key name message due table' log ↔ Settled key name message due log r := by
  constructor
  · exact fun happlied => happlied p r htable.1
  · intro hsettled q s hq
    by_cases hqp : q = p
    · rw [hqp, htable.1] at hq
      exact Option.some.inj hq ▸ hsettled
    · exact h q s ((htable.2 q hqp).symm.trans hq)

/-- An entry changes without a message and keeps its name. Where an entry that is
not due is the same as another one, it stays settled exactly if its message
stays the same and it does not become due. -/
theorem Settled.silent_iff (h : Settled key name message due log r) (hname : name r' = name r)
    (hidle : ¬ due r → ¬ due r' → message r' = message r) :
    Settled key name message due log r' ↔
      message r' = message r ∧ (due r' → due r ∨ Issued key name log r) := by
  have hissued : Issued key name log r' ↔ Issued key name log r := by
    unfold Issued
    rw [hname]
  unfold Settled at h ⊢
  rw [hissued, hname]
  by_cases hasked : due r ∨ Issued key name log r
  · have hlast := h hasked
    have hlog : Issued key name log r := issued_of_last hlast
    rw [hlast]
    constructor
    · exact fun hsettled => ⟨(Option.some.inj (hsettled (.inr hlog))).symm, fun _ => hasked⟩
    · exact fun ⟨hmessage, _⟩ _ => congrArg some hmessage.symm
  · obtain ⟨hdue, hlog⟩ := not_or.mp hasked
    constructor
    · intro hsettled
      have hdue' : ¬ due r' := fun hdue' =>
        hlog (issued_of_last (e := message r') (hsettled (.inl hdue')))
      exact ⟨hidle hdue hdue', fun hdue'' => absurd hdue'' hdue'⟩
    · rintro ⟨_, hbecomes⟩ (hdue' | hlog')
      · exact absurd (hbecomes hdue') hasked
      · exact absurd hlog' hlog

/-- A change with its message: the other entries of the same name must ask for
the same. -/
theorem Applied.announce_iff (h : Applied key name message due table log)
    (hkey : key (message r) = name r) (htable : Replaces table table' p r) :
    Applied key name message due table' (log ++ [message r]) ↔
      ∀ q s, q ≠ p → table q = some s → name s = name r → message s = message r := by
  have hlast : LastWrite.last key (name r) (log ++ [message r]) = some (message r) :=
    hkey ▸ LastWrite.last_concat_self key log (message r)
  have hother {s : ρ} (hname : name s ≠ name r) :
      Settled key name message due (log ++ [message r]) s ↔
        Settled key name message due log s := by
    have hne : key (message r) ≠ name s := fun heq => hname (heq.symm.trans hkey)
    unfold Settled Issued
    rw [LastWrite.last_concat_of_ne key hne]
    simp [hne]
  constructor
  · intro happlied q s hqp hq hname
    have hsettled := happlied q s ((htable.2 q hqp).trans hq)
      (.inr ⟨message r, by simp, hkey.trans hname.symm⟩)
    rw [hname, hlast] at hsettled
    exact (Option.some.inj hsettled).symm
  · intro hsame q s hq
    by_cases hqp : q = p
    · rw [hqp, htable.1] at hq
      obtain rfl := Option.some.inj hq
      exact fun _ => hlast
    · rw [htable.2 q hqp] at hq
      by_cases hname : name s = name r
      · intro _
        rw [hname, hlast, hsame q s hqp hq hname]
      · exact (hother hname).mpr (h q s hq)

/-! ### Taking messages back

At the end every name with a due entry is sent its base message. This takes
everything back where the entries that were sent something else are due. -/

variable (key name due) (base : ν → β)

def DueNamed (table : π → Option ρ) (n : ν) : Prop := ∃ p r, table p = some r ∧ name r = n ∧ due r

/-- The last message of the name is the base one, or will be. -/
def Covered (table : π → Option ρ) (log : List β) (n : ν) : Prop :=
  DueNamed name due table n ∨ LastWrite.last key n log = some (base n)

def CoveredBeside (table : π → Option ρ) (log : List β) (p : π) (n : ν) : Prop :=
  (∃ q r, q ≠ p ∧ table q = some r ∧ name r = n ∧ due r) ∨ LastWrite.last key n log = some (base n)

def Retractable (table : π → Option ρ) (log : List β) : Prop :=
  ∀ p r, table p = some r → Issued key name log r → Covered key name due base table log (name r)

variable {key name due base}

/-- The base messages make the last ones the base ones exactly if the log was
retractable. -/
theorem retracted_iff {names : List ν} (hkey : ∀ n, key (base n) = n)
    (hnames : ∀ n, n ∈ names ↔ DueNamed name due table n) :
    (∀ p r, table p = some r → Issued key name (log ++ names.map base) r →
      LastWrite.last key (name r) (log ++ names.map base) = some (base (name r))) ↔
      Retractable key name due base table log := by
  have hdue {n : ν} (hn : n ∈ names) :
      LastWrite.last key n (log ++ names.map base) = some (base n) := by
    rw [LastWrite.last_append, LastWrite.last_eq_of_forall key (e := base n) ?_
      (List.mem_map.mpr ⟨n, hn, rfl⟩) (hkey n), Option.some_or]
    rintro e he rfl
    obtain ⟨m, -, rfl⟩ := List.mem_map.mp he
    rw [hkey]
  have hidle {n : ν} (hn : n ∉ names) :
      LastWrite.last key n (log ++ names.map base) = LastWrite.last key n log := by
    refine LastWrite.last_append_of_forall_ne key fun e he heq => hn ?_
    obtain ⟨m, hm, rfl⟩ := List.mem_map.mp he
    exact (hkey m).symm.trans heq ▸ hm
  constructor
  · rintro h p r hp ⟨e, he, hname⟩
    by_cases hn : name r ∈ names
    · exact .inl ((hnames _).mp hn)
    · exact .inr ((hidle hn).symm.trans (h p r hp ⟨e, List.mem_append_left _ he, hname⟩))
  · rintro h p r hp ⟨e, he, hname⟩
    by_cases hn : name r ∈ names
    · exact hdue hn
    · have hold : e ∈ log := by
        refine (List.mem_append.mp he).resolve_right fun hnew => hn ?_
        obtain ⟨m, hm, rfl⟩ := List.mem_map.mp hnew
        exact (hkey m).symm.trans hname ▸ hm
      rw [hidle hn]
      exact (h p r hp ⟨e, hold, hname⟩).resolve_left fun hdueNamed => hn ((hnames _).mpr hdueNamed)

omit [DecidableEq ν] in
theorem Replaces.dueNamed_iff (htable : Replaces table table' p r)
    (hold : ∀ old, table p = some old → name old = name r) {n : ν} (hn : n ≠ name r) :
    DueNamed name due table' n ↔ DueNamed name due table n := by
  constructor
  · rintro ⟨q, s, hq, rfl, hdue⟩
    have hqp : q ≠ p := by
      rintro rfl
      exact hn (congrArg name (Option.some.inj (hq.symm.trans htable.1)))
    exact ⟨q, s, (htable.2 q hqp).symm.trans hq, rfl, hdue⟩
  · rintro ⟨q, s, hq, rfl, hdue⟩
    have hqp : q ≠ p := by
      rintro rfl
      exact hn (hold s hq)
    exact ⟨q, s, (htable.2 q hqp).trans hq, rfl, hdue⟩

/-- A change without a message, of an entry that keeps its name. -/
theorem Retractable.silent_iff (h : Retractable key name due base table log)
    (htable : Replaces table table' p r) (hold : ∀ old, table p = some old → name old = name r) :
    Retractable key name due base table' log ↔
      (Issued key name log r → due r ∨ CoveredBeside key name due base table log p (name r)) := by
  constructor
  · intro hretractable hissued
    rcases hretractable p r htable.1 hissued with ⟨q, s, hq, hname, hdue⟩ | hlast
    · by_cases hqp : q = p
      · rw [hqp, htable.1] at hq
        exact .inl (Option.some.inj hq ▸ hdue)
      · exact .inr (.inl ⟨q, s, hqp, (htable.2 q hqp).symm.trans hq, hname, hdue⟩)
    · exact .inr (.inr hlast)
  · intro hcovered q s hq hissued
    by_cases hname : name s = name r
    · unfold Issued at hissued hcovered
      rw [hname] at hissued ⊢
      rcases hcovered hissued with hdue | ⟨q', s', hq'p, hq', hname', hdue⟩ | hlast
      · exact .inl ⟨p, r, htable.1, rfl, hdue⟩
      · exact .inl ⟨q', s', (htable.2 q' hq'p).trans hq', hname', hdue⟩
      · exact .inr hlast
    · have hqp : q ≠ p := by
        rintro rfl
        exact hname (congrArg name (Option.some.inj (hq.symm.trans htable.1)))
      rcases h q s ((htable.2 q hqp).symm.trans hq) hissued with hdue | hlast
      · exact .inl ((htable.dueNamed_iff hold hname).mpr hdue)
      · exact .inr hlast

theorem Retractable.announce (h : Retractable key name due base table log)
    (htable : Replaces table table' p r) (hold : ∀ old, table p = some old → name old = name r)
    (hkey : key (message r) = name r) (hbase : ¬ due r → message r = base (name r)) :
    Retractable key name due base table' (log ++ [message r]) := by
  intro q s hq hissued
  by_cases hname : name s = name r
  · rw [hname]
    by_cases hdue : due r
    · exact .inl ⟨p, r, htable.1, rfl, hdue⟩
    · refine .inr ?_
      rw [← hbase hdue]
      exact hkey ▸ LastWrite.last_concat_self key log (message r)
  · have hne : key (message r) ≠ name s := fun heq => hname (heq.symm.trans hkey)
    have hqp : q ≠ p := by
      rintro rfl
      exact hname (congrArg name (Option.some.inj (hq.symm.trans htable.1)))
    have hissued' : Issued key name log s := by
      obtain ⟨e, he, hkeys⟩ := hissued
      refine ⟨e, (List.mem_append.mp he).resolve_right fun hnew => hne ?_, hkeys⟩
      exact List.mem_singleton.mp hnew ▸ hkeys
    rcases h q s ((htable.2 q hqp).symm.trans hq) hissued' with hdue | hlast
    · exact .inl ((htable.dueNamed_iff hold hname).mpr hdue)
    · exact .inr ((LastWrite.last_concat_of_ne key hne).trans hlast)

/-- An entry is removed: the ones of its name that stay must be covered. -/
theorem Retractable.remove_iff (h : Retractable key name due base table log)
    (hgone : table' p = none) (hkept : ∀ q, q ≠ p → table' q = table q) :
    Retractable key name due base table' log ↔
      ∀ r, table p = some r → ∀ q s, q ≠ p → table q = some s → name s = name r →
        Issued key name log s → CoveredBeside key name due base table log p (name s) := by
  constructor
  · intro hretractable r _ q s hqp hq _ hissued
    rcases hretractable q s ((hkept q hqp).trans hq) hissued with ⟨q', s', hq', hname, hdue⟩ | hlast
    · have hq'p : q' ≠ p := by
        rintro rfl
        cases hgone.symm.trans hq'
      exact .inl ⟨q', s', hq'p, (hkept q' hq'p).symm.trans hq', hname, hdue⟩
    · exact .inr hlast
  · intro hcovered q s hq hissued
    have hqp : q ≠ p := by
      rintro rfl
      cases hgone.symm.trans hq
    have hold := (hkept q hqp).symm.trans hq
    rcases h q s hold hissued with ⟨q', s', hq', hname, hdue⟩ | hlast
    · by_cases hq'p : q' = p
      · rcases hcovered s' (hq'p ▸ hq') q s hqp hold hname.symm hissued with
          ⟨q'', s'', hq''p, hq'', hname'', hdue''⟩ | hlast
        · exact .inl ⟨q'', s'', (hkept q'' hq''p).trans hq'', hname'', hdue''⟩
        · exact .inr hlast
      · exact .inl ⟨q', s', (hkept q' hq'p).trans hq', hname, hdue⟩
    · exact .inr hlast

end Announced
