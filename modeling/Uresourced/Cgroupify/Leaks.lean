import Uresourced.Cgroupify.Program

/-!
No subgroup is left behind.

Between the creation of a subgroup and its first source, and between an event and
the attempt to remove the subgroup, the program is responsible for the subgroup;
in every other moment a source is, and an event is pending for it if the subgroup
is empty. This holds for every order in which processes fork and exit.
-/

namespace Uresourced.Cgroupify

open Runs

/-! ### Who looks after a subgroup -/

/-- The subgroup that has no source yet. -/
def Point.making : Point → Option CString
  | .addInotify f | .unlinkat f none _ => some f.pid
  | _ => none

/-- The source whose subgroup the program itself is about to remove. -/
def Point.handling : Point → Option ℕ
  | .openSub _ source | .write _ source _ | .unlinkat _ (some source) _ | .rmdir source =>
      some source
  | _ => none

def Point.call : Point → Option Frame
  | .mkdirat f | .addInotify f | .openSub f _ | .write f _ _ | .unlinkat f _ _ => some f
  | _ => none

/-- The subgroup was just created: it is empty, and nobody watches it. -/
def Kernel.Fresh (k : Kernel) (name : CString) : Prop :=
  ∃ inode, k.subgroups.lookup name = some ⟨inode, true⟩ ∧ ¬ Populated k.processes inode ∧
    ∀ id src, k.sources.lookup id = some src → src.inode ≠ inode

def Point.Knows (k : Kernel) : Point → Prop
  | .addInotify f | .unlinkat f none _ => k.Fresh f.pid
  | .write f source inode => k.sources.lookup source = some ⟨f.pid, inode⟩
  | .openSub f source | .unlinkat f (some source) _ =>
      ∃ inode, k.sources.lookup source = some ⟨f.pid, inode⟩
  | .rmdir source => source ∈ k.sources
  | _ => True

structure Point.Free (p : Point) : Prop where
  making : p.making = none
  handling : p.handling = none
  knows : ∀ k, p.Knows k

structure Inv (s : State) : Prop where
  wf : s.kernel.Wf
  knows : s.point.Knows s.kernel
  watched : ∀ name g, s.kernel.subgroups.lookup name = some g → g.created = true →
    s.point.making = some name ∨ ∃ id, s.kernel.sources.lookup id = some ⟨name, g.inode⟩
  pending : ∀ id src, s.kernel.sources.lookup id = some src →
    s.point.handling = some id ∨ Populated s.kernel.processes src.inode ∨ id ∈ s.kernel.queue

variable {s t : State} {k : Kernel} {p p' : Point} {name : CString}

theorem inv_start (start : Start) : Inv start.state where
  wf := start.wf
  knows := trivial
  watched name g hg hcreated := by
    cases (start.foreign name g hg).symm.trans hcreated
  pending id src hsrc := by
    have hnone : start.kernel.sources.lookup id = none := by
      rw [start.unwatched]
      exact AList.lookup_empty id
    cases hnone.symm.trans hsrc

/-! ### Where the program goes -/

theorem free_returned (caller : Caller) (r : Option Errno) : (returned caller r).Free := by
  cases caller with
  | main => cases r <;> exact ⟨rfl, rfl, fun _ => trivial⟩
  | pass names => cases names <;> exact ⟨rfl, rfl, fun _ => trivial⟩

theorem free_nextPid (caller : Caller) (subgroup : Option CString) (lines : List CString)
    (found : ℕ) : (nextPid caller subgroup lines found).Free := by
  have hround : (if found = 0 then returned caller none else .openProcs caller subgroup).Free := by
    split
    · exact free_returned caller none
    · exact ⟨rfl, rfl, fun _ => trivial⟩
  induction lines with
  | nil => exact hround
  | cons pid rest ih =>
      rw [nextPid]
      split
      · exact hround
      · split
        · exact ih
        · exact ⟨rfl, rfl, fun _ => trivial⟩

theorem Inv.goto (h : Inv ⟨k, p⟩) (hmaking : p'.making = p.making)
    (hhandling : p'.handling = p.handling) (hknows : p'.Knows k) : Inv ⟨k, p'⟩ where
  wf := h.wf
  knows := hknows
  watched name g hg hcreated := (h.watched name g hg hcreated).imp_left hmaking.trans
  pending id src hsrc := (h.pending id src hsrc).imp_left hhandling.trans

theorem Inv.goto_free (h : Inv ⟨k, p⟩) (hp : p.Free) (hp' : p'.Free) : Inv ⟨k, p'⟩ :=
  h.goto (hp'.making.trans hp.making.symm) (hp'.handling.trans hp.handling.symm) (hp'.knows k)

/-! ### Changes of the processes -/

/-- A change that populates no subgroup the program has just created. -/
theorem Inv.setProcesses (h : Inv ⟨k, p⟩) {processes : Processes}
    (hplace : ∀ pid q inode, processes.lookup pid = some q → q.place = .subgroup inode →
      inode < k.nextInode)
    {n : ℕ} (hserial : ∀ pid q, processes.lookup pid = some q → q.serial < n)
    (hempty : p.making ≠ none → ∀ inode, Populated processes inode → Populated k.processes inode) :
    Inv ⟨{ k.setProcesses processes with nextSerial := n }, p⟩ where
  wf :=
    { h.wf with
      place_lt := hplace
      serial_lt := hserial }
  knows := by
    have hfresh (f : Frame) (hmaking : p.making = some f.pid) (hk : k.Fresh f.pid) :
        Kernel.Fresh { k.setProcesses processes with nextSerial := n } f.pid := by
      obtain ⟨inode, hg, hpopulated, hnone⟩ := hk
      have hne : p.making ≠ none := by
        rw [hmaking]
        exact Option.some_ne_none _
      exact ⟨inode, hg, fun hnow => hpopulated (hempty hne _ hnow), hnone⟩
    cases p with
    | addInotify f => exact hfresh f rfl h.knows
    | unlinkat f source r =>
        cases source with
        | none => exact hfresh f rfl h.knows
        | some source => exact h.knows
    | _ => exact h.knows
  watched := h.watched
  pending id src hsrc := by
    rcases h.pending id src hsrc with hp | hrest
    · exact .inl hp
    · refine .inr ?_
      by_cases hpopulated : Populated processes src.inode
      · exact .inl hpopulated
      · refine .inr (Kernel.mem_queue_setProcesses.mpr ?_)
        rcases hrest with hold | hqueue
        · exact .inr ⟨src, hsrc, fun hiff => hpopulated (hiff.mp hold)⟩
        · exact .inl hqueue

theorem Inv.fork (h : Inv ⟨k, p⟩) {parent child : CString} {q : Process}
    (hparent : k.processes.lookup parent = some q) (hlive : q.zombie = false) :
    Inv ⟨{ k.setProcesses (k.processes.insert child ⟨k.nextSerial, q.place, false⟩) with
      nextSerial := k.nextSerial + 1 }, p⟩ := by
  refine h.setProcesses (fun pid q' inode hq' hplace => ?_) (fun pid q' hq' => ?_) fun _ inode => ?_
  · obtain ⟨-, rfl⟩ | ⟨-, hq'⟩ := GHashTable.lookup_insert_eq_some.mp hq'
    · exact h.wf.place_lt parent q inode hparent hplace
    · exact h.wf.place_lt pid q' inode hq' hplace
  · obtain ⟨-, rfl⟩ | ⟨-, hq'⟩ := GHashTable.lookup_insert_eq_some.mp hq'
    · exact Nat.lt_succ_self _
    · exact Nat.lt_succ_of_lt (h.wf.serial_lt pid q' hq')
  · simp only [populated_iff]
    rintro ⟨pid, q', hq', hplace, hlive'⟩
    obtain ⟨-, rfl⟩ | ⟨-, hq'⟩ := GHashTable.lookup_insert_eq_some.mp hq'
    · exact ⟨parent, q, hparent, hplace, hlive⟩
    · exact ⟨pid, q', hq', hplace, hlive'⟩

theorem Inv.gone (h : Inv ⟨k, p⟩) (pid : CString) {processes : Processes}
    (hother : ∀ pid' q, processes.lookup pid' = some q → k.processes.lookup pid' = some q ∨
      (q.zombie = true ∧ ∃ q', k.processes.lookup pid = some q' ∧ q.place = q'.place ∧
        q.serial = q'.serial)) :
    Inv ⟨k.setProcesses processes, p⟩ := by
  refine h.setProcesses (n := k.nextSerial) (fun pid' q inode hq hplace => ?_)
    (fun pid' q hq => ?_) fun _ inode => ?_
  · rcases hother pid' q hq with hold | ⟨-, q', hq', hsame, -⟩
    · exact h.wf.place_lt pid' q inode hold hplace
    · exact h.wf.place_lt pid q' inode hq' (hsame.symm.trans hplace)
  · rcases hother pid' q hq with hold | ⟨-, q', hq', -, hsame⟩
    · exact h.wf.serial_lt pid' q hold
    · exact hsame ▸ h.wf.serial_lt pid q' hq'
  · simp only [populated_iff]
    rintro ⟨pid', q, hq, hplace, hlive⟩
    rcases hother pid' q hq with hold | ⟨hzombie, -⟩
    · exact ⟨pid', q, hold, hplace, hlive⟩
    · cases hlive.symm.trans hzombie

/-- The queue may lose events, if the program looks after their sources. -/
theorem Inv.requeue (h : Inv ⟨k, p⟩) {queue : List ℕ} (hmaking : p'.making = p.making)
    (hhandling : ∀ id, p.handling = some id → p'.handling = some id)
    (hqueue : ∀ id ∈ k.queue, id ∈ k.sources → p'.handling = some id ∨ id ∈ queue)
    (hknows : p'.Knows { k with queue := queue }) : Inv ⟨{ k with queue := queue }, p'⟩ where
  wf := { h.wf with }
  knows := hknows
  watched name g hg hcreated := (h.watched name g hg hcreated).imp_left hmaking.trans
  pending id src hsrc := by
    have hmem : id ∈ k.sources := AList.lookup_isSome.mp (by rw [hsrc]; rfl)
    rcases h.pending id src hsrc with hp | hpopulated | hold
    · exact .inl (hhandling id hp)
    · exact .inr (.inl hpopulated)
    · exact (hqueue id hold hmem).imp_right .inr

theorem Inv.environment {e : Event} {k' : Kernel} (h : Inv ⟨k, p⟩)
    (he : environment k e = some k') : Inv ⟨k', p⟩ := by
  cases e with
  | fork parent child =>
      obtain ⟨q, hq, hbody⟩ := Option.bind_eq_some_iff.mp he
      split at hbody
      · next hfork =>
        obtain rfl := Option.some.inj hbody
        exact h.fork hq hfork.1
      · cases hbody
  | exit pid =>
      obtain ⟨q, hq, hbody⟩ := Option.bind_eq_some_iff.mp he
      split at hbody
      · cases hbody
      · obtain rfl := Option.some.inj hbody
        refine h.gone pid fun pid' q' hq' => ?_
        obtain ⟨-, rfl⟩ | ⟨-, hq'⟩ := GHashTable.lookup_insert_eq_some.mp hq'
        · exact .inr ⟨rfl, q, hq, rfl, rfl⟩
        · exact .inl hq'
  | reap pid =>
      obtain ⟨q, hq, hbody⟩ := Option.bind_eq_some_iff.mp he
      split at hbody
      · obtain rfl := Option.some.inj hbody
        exact h.gone pid fun pid' q' hq' =>
          .inl (GHashTable.lookup_erase_eq_some.mp hq').2
      · cases hbody
  | merge source =>
      simp only [Cgroupify.environment] at he
      split at he
      · next hequal =>
        obtain rfl := Option.some.inj he
        refine h.requeue rfl (fun _ => id) (fun id hid _ => .inr ?_) ?_
        · by_cases heq : id = source
          · exact heq ▸ hequal
          · exact (List.mem_erase_of_ne heq).mpr hid
        · have hknows := h.knows
          cases p with
          | unlinkat f source r => cases source <;> exact hknows
          | _ => exact hknows
      · cases he
  | answer _ => cases he
  | timer => cases he
  | dispatch _ => cases he

/-! ### What the program does to a subgroup -/

theorem Inv.mkdir {f : Frame} (h : Inv ⟨k, .mkdirat f⟩) (hnew : f.pid ∉ k.subgroups) :
    Inv ⟨k.mkdir f.pid, .addInotify f⟩ := by
  have hnone : k.subgroups.lookup f.pid = none := AList.lookup_eq_none.mpr hnew
  have hlookup (name : CString) : (k.mkdir f.pid).subgroups.lookup name =
      if name = f.pid then some ⟨k.nextInode, true⟩ else k.subgroups.lookup name :=
    GHashTable.lookup_insert _ _ _ _
  have hold (name : CString) (g : Subgroup) (hg : k.subgroups.lookup name = some g) :
      name ≠ f.pid := by
    rintro rfl
    cases hnone.symm.trans hg
  have hentry (name : CString) (g : Subgroup)
      (hg : (k.mkdir f.pid).subgroups.lookup name = some g) :
      (name = f.pid ∧ g = ⟨k.nextInode, true⟩) ∨
        (name ≠ f.pid ∧ k.subgroups.lookup name = some g) :=
    GHashTable.lookup_insert_eq_some.mp hg
  have hsource (id : ℕ) (src : Source) (hsrc : k.sources.lookup id = some src) :
      src.inode < k.nextInode := h.wf.inode_lt src.name _ (h.wf.watches id src hsrc)
  refine ⟨⟨?_, h.wf.serial_lt, ?_, ?_, h.wf.source_lt, ?_, h.wf.alone⟩, ?_, ?_, h.pending⟩
  · exact fun pid q inode hq hplace => Nat.lt_succ_of_lt (h.wf.place_lt pid q inode hq hplace)
  · intro name g hg
    rcases hentry name g hg with ⟨-, rfl⟩ | ⟨-, hg⟩
    · exact Nat.lt_succ_self _
    · exact Nat.lt_succ_of_lt (h.wf.inode_lt name g hg)
  · intro name name' g g' hg hg' heq
    rcases hentry name g hg with ⟨rfl, rfl⟩ | ⟨-, hg⟩
    · rcases hentry name' g' hg' with ⟨rfl, -⟩ | ⟨-, hg'⟩
      · rfl
      · exact absurd (h.wf.inode_lt name' g' hg') (heq ▸ Nat.lt_irrefl _)
    · rcases hentry name' g' hg' with ⟨rfl, rfl⟩ | ⟨-, hg'⟩
      · exact absurd (h.wf.inode_lt name g hg) (heq ▸ Nat.lt_irrefl _)
      · exact h.wf.inode_inj name name' g g' hg hg' heq
  · intro id src hsrc
    have hg := h.wf.watches id src hsrc
    rw [hlookup, if_neg (hold _ _ hg), hg]
  · refine ⟨k.nextInode, by rw [hlookup, if_pos rfl], ?_, ?_⟩
    · rintro hpopulated
      obtain ⟨pid, q, hq, hplace, -⟩ := populated_iff.mp hpopulated
      exact Nat.lt_irrefl _ (h.wf.place_lt pid q _ hq hplace)
    · exact fun id src hsrc heq => Nat.lt_irrefl _ (heq ▸ hsource id src hsrc)
  · intro name g hg hcreated
    rcases hentry name g hg with ⟨rfl, -⟩ | ⟨-, hg⟩
    · exact .inl rfl
    · rcases h.watched name g hg hcreated with hp | hsrc
      · cases hp
      · exact .inr hsrc

theorem Inv.addInotify {f : Frame} {g : Subgroup} (h : Inv ⟨k, .addInotify f⟩)
    (hg : k.subgroups.lookup f.pid = some g) :
    Inv ⟨k.addInotify ⟨f.pid, g.inode⟩, .openSub f k.nextSource⟩ := by
  obtain ⟨inode, hg', -, hunwatched⟩ := h.knows
  obtain rfl := Option.some.inj (hg.symm.trans hg')
  have hlookup (id : ℕ) : (k.addInotify ⟨f.pid, inode⟩).sources.lookup id =
      if id = k.nextSource then some ⟨f.pid, inode⟩ else k.sources.lookup id :=
    GHashTable.lookup_insert _ _ _ _
  have hentry (id : ℕ) (src : Source)
      (hsrc : (k.addInotify ⟨f.pid, inode⟩).sources.lookup id = some src) :
      (id = k.nextSource ∧ src = ⟨f.pid, inode⟩) ∨ k.sources.lookup id = some src :=
    (GHashTable.lookup_insert_eq_some.mp hsrc).imp_right And.right
  have hself : (k.addInotify ⟨f.pid, inode⟩).sources.lookup k.nextSource =
      some ⟨f.pid, inode⟩ := by rw [hlookup, if_pos rfl]
  refine ⟨⟨h.wf.place_lt, h.wf.serial_lt, h.wf.inode_lt, h.wf.inode_inj, ?_, ?_, ?_⟩,
    ⟨inode, hself⟩, ?_, ?_⟩
  · intro id src hsrc
    rcases hentry id src hsrc with ⟨rfl, -⟩ | hsrc
    · exact Nat.lt_succ_self _
    · exact Nat.lt_succ_of_lt (h.wf.source_lt id src hsrc)
  · intro id src hsrc
    rcases hentry id src hsrc with ⟨-, rfl⟩ | hsrc
    · exact hg
    · exact h.wf.watches id src hsrc
  · intro id id' src src' hsrc hsrc' heq
    rcases hentry id src hsrc with ⟨rfl, rfl⟩ | hsrc
    · rcases hentry id' src' hsrc' with ⟨rfl, -⟩ | hsrc'
      · rfl
      · exact absurd heq.symm (hunwatched id' src' hsrc')
    · rcases hentry id' src' hsrc' with ⟨rfl, rfl⟩ | hsrc'
      · exact absurd heq (hunwatched id src hsrc)
      · exact h.wf.alone id id' src src' hsrc hsrc' heq
  · intro name g' hg' hcreated'
    rcases h.watched name g' hg' hcreated' with hp | ⟨id, hsrc⟩
    · obtain rfl := Option.some.inj hp
      obtain rfl := Option.some.inj (hg.symm.trans hg')
      exact .inr ⟨k.nextSource, hself⟩
    · refine .inr ⟨id, ?_⟩
      rw [hlookup, if_neg (Nat.ne_of_lt (h.wf.source_lt id _ hsrc)), hsrc]
  · intro id src hsrc
    rcases hentry id src hsrc with ⟨rfl, -⟩ | hsrc
    · exact .inl rfl
    · rcases h.pending id src hsrc with hp | hrest
      · cases hp
      · exact .inr hrest

theorem Kernel.Wf.remove (h : k.Wf) {sources : GHashTable ℕ Source}
    (hsources : ∀ id src, sources.lookup id = some src →
      k.sources.lookup id = some src ∧ src.name ≠ name) :
    Kernel.Wf { k with subgroups := k.subgroups.erase name, sources := sources } := by
  have hother (name' : CString) (g : Subgroup)
      (hg : (k.subgroups.erase name).lookup name' = some g) : k.subgroups.lookup name' = some g :=
    (GHashTable.lookup_erase_eq_some.mp hg).2
  refine ⟨h.place_lt, h.serial_lt, fun name' g hg => h.inode_lt name' g (hother name' g hg), ?_,
    fun id src hsrc => h.source_lt id src (hsources id src hsrc).1, ?_, ?_⟩
  · exact fun name₁ name₂ g₁ g₂ h₁ h₂ =>
      h.inode_inj name₁ name₂ g₁ g₂ (hother name₁ g₁ h₁) (hother name₂ g₂ h₂)
  · intro id src hsrc
    obtain ⟨hold, hne⟩ := hsources id src hsrc
    exact GHashTable.lookup_erase_eq_some.mpr ⟨hne, h.watches id src hold⟩
  · exact fun id₁ id₂ src₁ src₂ h₁ h₂ =>
      h.alone id₁ id₂ src₁ src₂ (hsources id₁ src₁ h₁).1 (hsources id₂ src₂ h₂).1

theorem Inv.remove_fresh {f : Frame} {r : Option Errno} (h : Inv ⟨k, .unlinkat f none r⟩)
    (r' : Option Errno) :
    k.rmdir f.pid = ({ k with subgroups := k.subgroups.erase f.pid }, none) ∧
      Inv ⟨{ k with subgroups := k.subgroups.erase f.pid }, .moved f r'⟩ := by
  obtain ⟨inode, hg, hpopulated, hunwatched⟩ := h.knows
  have hsources (id : ℕ) (src : Source) (hsrc : k.sources.lookup id = some src) :
      k.sources.lookup id = some src ∧ src.name ≠ f.pid := by
    refine ⟨hsrc, fun heq => ?_⟩
    have hdir := h.wf.watches id src hsrc
    rw [heq, hg] at hdir
    exact hunwatched id src hsrc (congrArg Subgroup.inode (Option.some.inj hdir)).symm
  refine ⟨by rw [Kernel.rmdir, hg]; exact if_neg hpopulated, h.wf.remove hsources, trivial, ?_, ?_⟩
  · intro name g hg' hcreated
    obtain ⟨hne, hg'⟩ := GHashTable.lookup_erase_eq_some.mp hg'
    rcases h.watched name g hg' hcreated with hp | hsrc
    · exact absurd (Option.some.inj hp).symm hne
    · exact .inr hsrc
  · intro id src hsrc
    rcases h.pending id src hsrc with hp | hrest
    · cases hp
    · exact .inr hrest

/-- A subgroup that is watched is removed with its source, or it is populated. -/
theorem Inv.remove_held {id inode : ℕ} (h : Inv ⟨k, p⟩) (hmaking : p.making = none)
    (hhandling : p.handling = some id) (hid : k.sources.lookup id = some ⟨name, inode⟩)
    (hp' : p'.Free) :
    (k.rmdir name = (k, some .ebusy) ∧ Inv ⟨k, p'⟩) ∨
      ∃ k', k.rmdir name = (k', none) ∧ Inv ⟨k'.disable (some id), p'⟩ := by
  have hg : k.subgroups.lookup name = some ⟨inode, true⟩ := h.wf.watches id _ hid
  by_cases hpopulated : Populated k.processes inode
  · refine .inl ⟨by rw [Kernel.rmdir, hg]; exact if_pos hpopulated, h.wf, hp'.knows k, ?_, ?_⟩
    · intro name' g hg' hcreated
      rcases h.watched name' g hg' hcreated with hp | hsrc
      · cases hmaking.symm.trans hp
      · exact .inr hsrc
    · intro id' src hsrc
      rcases h.pending id' src hsrc with hp | hrest
      · obtain rfl := Option.some.inj (hhandling.symm.trans hp)
        obtain rfl := Option.some.inj (hid.symm.trans hsrc)
        exact .inr (.inl hpopulated)
      · exact .inr hrest
  · refine .inr ⟨{ k with subgroups := k.subgroups.erase name },
      by rw [Kernel.rmdir, hg]; exact if_neg hpopulated, ?_⟩
    have hothers (id' : ℕ) (src : Source) (hsrc : (k.sources.erase id).lookup id' = some src) :
        id' ≠ id ∧ k.sources.lookup id' = some src :=
      GHashTable.lookup_erase_eq_some.mp hsrc
    have hsources (id' : ℕ) (src : Source) (hsrc : (k.sources.erase id).lookup id' = some src) :
        k.sources.lookup id' = some src ∧ src.name ≠ name := by
      obtain ⟨hne, hold⟩ := hothers id' src hsrc
      refine ⟨hold, fun heq => ?_⟩
      have hdir := h.wf.watches id' src hold
      rw [heq, hg] at hdir
      exact hne (h.wf.alone id' id src _ hold hid
        (congrArg Subgroup.inode (Option.some.inj hdir)).symm)
    refine ⟨h.wf.remove hsources, hp'.knows _, ?_, ?_⟩
    · intro name' g hg' hcreated
      obtain ⟨hne, hg'⟩ := GHashTable.lookup_erase_eq_some.mp hg'
      rcases h.watched name' g hg' hcreated with hp | ⟨id', hsrc⟩
      · cases hmaking.symm.trans hp
      · refine .inr ⟨id', GHashTable.lookup_erase_eq_some.mpr ⟨?_, hsrc⟩⟩
        rintro rfl
        exact hne (congrArg Source.name (Option.some.inj (hid.symm.trans hsrc))).symm
    · intro id' src hsrc
      obtain ⟨hne, hold⟩ := hothers id' src hsrc
      rcases h.pending id' src hold with hp | hrest
      · exact absurd (Option.some.inj (hhandling.symm.trans hp)).symm hne
      · exact .inr hrest

/-! ### Steps and runs -/

theorem Inv.write {f : Frame} {source inode : ℕ} {q : Process}
    (h : Inv ⟨k, .write f source inode⟩) (hq : k.processes.lookup f.pid = some q) :
    Inv ⟨k.setProcesses (k.processes.insert f.pid { q with place := .subgroup inode }),
      .write f source inode⟩ := by
  have hdir : k.subgroups.lookup f.pid = some ⟨inode, true⟩ := h.wf.watches source _ h.knows
  refine h.setProcesses (n := k.nextSerial) (fun pid q' inode' hq' hplace => ?_)
    (fun pid q' hq' => ?_) fun hmaking => absurd rfl hmaking
  · obtain ⟨-, rfl⟩ | ⟨-, hq'⟩ := GHashTable.lookup_insert_eq_some.mp hq'
    · obtain rfl := Place.subgroup.inj hplace
      exact h.wf.inode_lt f.pid _ hdir
    · exact h.wf.place_lt pid q' inode' hq' hplace
  · obtain ⟨-, rfl⟩ | ⟨-, hq'⟩ := GHashTable.lookup_insert_eq_some.mp hq'
    · exact h.wf.serial_lt f.pid q hq
    · exact h.wf.serial_lt pid q' hq'

/-- `unlinkat`, and what follows from its result. -/
theorem Inv.unlinkat {f : Frame} {source : Option ℕ} {r : Option Errno} {k' : Kernel}
    (h : Inv ⟨k, .unlinkat f source r⟩)
    (hstep : Cgroupify.progress k (.unlinkat f source r) .done = some (k', p')) : Inv ⟨k', p'⟩ := by
  have hfree : (Point.moved f r).Free := ⟨rfl, rfl, fun _ => trivial⟩
  simp only [Cgroupify.progress] at hstep
  cases source with
  | none =>
      obtain ⟨hrmdir, hinv⟩ := h.remove_fresh r
      rw [hrmdir] at hstep
      obtain ⟨rfl, rfl⟩ := Prod.mk.inj (Option.some.inj hstep)
      exact hinv
  | some source =>
      obtain ⟨inode, hid⟩ := h.knows
      obtain ⟨hrmdir, hinv⟩ | ⟨k'', hrmdir, hinv⟩ := h.remove_held rfl rfl hid hfree
      all_goals
        rw [hrmdir] at hstep
        obtain ⟨rfl, rfl⟩ := Prod.mk.inj (Option.some.inj hstep)
        exact hinv

theorem Inv.rmdir {source : ℕ} {k' : Kernel} (h : Inv ⟨k, .rmdir source⟩)
    (hstep : Cgroupify.progress k (.rmdir source) .done = some (k', p')) : Inv ⟨k', p'⟩ := by
  have hfree : Point.idle.Free := ⟨rfl, rfl, fun _ => trivial⟩
  obtain ⟨src, hsrc, hbody⟩ := Option.map_eq_some_iff.mp hstep
  obtain ⟨hrmdir, hinv⟩ | ⟨k'', hrmdir, hinv⟩ := h.remove_held rfl rfl hsrc hfree
  all_goals
    rw [hrmdir] at hbody
    obtain ⟨rfl, rfl⟩ := Prod.mk.inj hbody
    exact hinv

/-- Outside `move_to_subgroup` and the callback of a source, no call changes a
subgroup or a process. -/
theorem progress_elsewhere {a : Answer} {k' : Kernel} (hcall : p.call = none)
    (hne : ∀ source, p ≠ .rmdir source) (hstep : progress k p a = some (k', p')) :
    k' = k ∧ p.Free ∧ p'.Free := by
  have hfree (hp : p.Free) {q : Kernel × Point} (hq : q = (k', p')) (hk : q.1 = k)
      (hp' : q.2.Free) : k' = k ∧ p.Free ∧ p'.Free := by
    obtain rfl := hq
    exact ⟨hk, hp, hp'⟩
  cases p with
  | openProcs caller subgroup =>
      cases a with
      | ok =>
          obtain ⟨place, -, hbody⟩ := Option.map_eq_some_iff.mp hstep
          exact hfree ⟨rfl, rfl, fun _ => trivial⟩ hbody rfl ⟨rfl, rfl, fun _ => trivial⟩
      | fails e =>
          exact hfree ⟨rfl, rfl, fun _ => trivial⟩ (Option.some.inj hstep) rfl
            (free_returned caller _)
      | _ => cases hstep
  | readProcs caller subgroup place =>
      cases a with
      | procs pids =>
          simp only [progress] at hstep
          split at hstep
          · exact hfree ⟨rfl, rfl, fun _ => trivial⟩ (Option.some.inj hstep) rfl
              (free_nextPid _ _ _ _)
          · cases hstep
      | fails e =>
          exact hfree ⟨rfl, rfl, fun _ => trivial⟩ (Option.some.inj hstep) rfl
            ⟨rfl, rfl, fun _ => trivial⟩
      | _ => cases hstep
  | moved f r =>
      cases a with
      | done =>
          cases r with
          | none =>
              exact hfree ⟨rfl, rfl, fun _ => trivial⟩ (Option.some.inj hstep) rfl
                (free_nextPid _ _ _ _)
          | some e =>
              exact hfree ⟨rfl, rfl, fun _ => trivial⟩ (Option.some.inj hstep) rfl
                (free_returned _ _)
      | _ => cases r <;> cases hstep
  | setup =>
      cases a with
      | ok =>
          exact hfree ⟨rfl, rfl, fun _ => trivial⟩ (Option.some.inj hstep) rfl
            ⟨rfl, rfl, fun _ => trivial⟩
      | fails e =>
          exact hfree ⟨rfl, rfl, fun _ => trivial⟩ (Option.some.inj hstep) rfl
            ⟨rfl, rfl, fun _ => trivial⟩
      | _ => cases hstep
  | scandirat =>
      cases a with
      | names entries =>
          simp only [progress] at hstep
          split at hstep
          · exact hfree ⟨rfl, rfl, fun _ => trivial⟩ (Option.some.inj hstep) rfl
              ⟨rfl, rfl, fun _ => trivial⟩
          · exact hfree ⟨rfl, rfl, fun _ => trivial⟩ (Option.some.inj hstep) rfl
              (free_returned _ _)
      | fails e =>
          exact hfree ⟨rfl, rfl, fun _ => trivial⟩ (Option.some.inj hstep) rfl
            ⟨rfl, rfl, fun _ => trivial⟩
      | _ => cases hstep
  | rmdir source => exact absurd rfl (hne source)
  | idle => cases hstep
  | exited => cases hstep
  | _ => cases hcall

/-- What one answer does inside of `move_to_subgroup`. -/
inductive CallStep (k : Kernel) (f : Frame) : Point → Kernel → Point → Prop
  | refused (e : Errno) : CallStep k f (.mkdirat f) k (.moved f (some e))
  | created (hnew : f.pid ∉ k.subgroups) :
      CallStep k f (.mkdirat f) (k.mkdir f.pid) (.addInotify f)
  | unwatched (e : Errno) : CallStep k f (.addInotify f) k (.unlinkat f none (some e))
  | watched {g : Subgroup} (hg : k.subgroups.lookup f.pid = some g) :
      CallStep k f (.addInotify f) (k.addInotify ⟨f.pid, g.inode⟩) (.openSub f k.nextSource)
  | unopened (source : ℕ) (e : Errno) :
      CallStep k f (.openSub f source) k (.unlinkat f (some source) (some e))
  | opened (source : ℕ) {g : Subgroup} (hg : k.subgroups.lookup f.pid = some g) :
      CallStep k f (.openSub f source) k (.write f source g.inode)
  | unwritten (source inode : ℕ) (r : Option Errno) :
      CallStep k f (.write f source inode) k (.unlinkat f (some source) r)
  | written (source inode : ℕ) {q : Process} (hq : k.processes.lookup f.pid = some q) :
      CallStep k f (.write f source inode)
        (k.setProcesses (k.processes.insert f.pid { q with place := .subgroup inode }))
        (.unlinkat f (some source) none)
  | unlinked (source : Option ℕ) (r : Option Errno) {k' : Kernel} {p' : Point}
      (h : progress k (.unlinkat f source r) .done = some (k', p')) :
      CallStep k f (.unlinkat f source r) k' p'

theorem callStep_of_progress {f : Frame} {a : Answer} {k' : Kernel} (hcall : p.call = some f)
    (hstep : progress k p a = some (k', p')) : CallStep k f p k' p' := by
  have hinto {q : Kernel × Point} (hq : q = (k', p')) (h : CallStep k f p q.1 q.2) :
      CallStep k f p k' p' := by
    obtain rfl := hq
    exact h
  cases p with
  | mkdirat f =>
      obtain rfl := Option.some.inj hcall
      cases a with
      | ok =>
          obtain ⟨hnew, hbody⟩ := Option.ite_none_left_eq_some.mp hstep
          exact hinto (Option.some.inj hbody) (.created hnew)
      | fails e => exact hinto (Option.some.inj hstep) (.refused e)
      | _ => cases hstep
  | addInotify f =>
      obtain rfl := Option.some.inj hcall
      cases a with
      | ok =>
          obtain ⟨g, hg, hbody⟩ := Option.map_eq_some_iff.mp hstep
          exact hinto hbody (.watched hg)
      | fails e => exact hinto (Option.some.inj hstep) (.unwatched e)
      | _ => cases hstep
  | openSub f source =>
      obtain rfl := Option.some.inj hcall
      cases a with
      | ok =>
          obtain ⟨g, hg, hbody⟩ := Option.map_eq_some_iff.mp hstep
          exact hinto hbody (.opened source hg)
      | fails e => exact hinto (Option.some.inj hstep) (.unopened source e)
      | _ => cases hstep
  | write f source inode =>
      obtain rfl := Option.some.inj hcall
      cases a with
      | ok =>
          obtain ⟨q, hq, hbody⟩ := Option.map_eq_some_iff.mp hstep
          refine hinto hbody ?_
          split
          · exact .unwritten source inode none
          · exact .written source inode hq
      | fails e => exact hinto (Option.some.inj hstep) (.unwritten source inode _)
      | _ => cases hstep
  | unlinkat f source r =>
      obtain rfl := Option.some.inj hcall
      cases a with
      | done => exact .unlinked source r hstep
      | _ => cases hstep
  | _ => cases hcall

theorem Inv.callStep {f : Frame} {k' : Kernel} (h : Inv ⟨k, p⟩) (hstep : CallStep k f p k' p') :
    Inv ⟨k', p'⟩ := by
  cases hstep with
  | refused e => exact h.goto rfl rfl trivial
  | created hnew => exact h.mkdir hnew
  | unwatched e => exact h.goto rfl rfl h.knows
  | watched hg => exact h.addInotify hg
  | unopened source e => exact h.goto rfl rfl h.knows
  | opened source hg =>
      obtain ⟨inode, hid⟩ := h.knows
      obtain rfl := Option.some.inj (hg.symm.trans (h.wf.watches source _ hid))
      exact h.goto rfl rfl hid
  | unwritten source inode r => exact h.goto rfl rfl ⟨inode, h.knows⟩
  | written source inode hq => exact (h.write hq).goto rfl rfl ⟨inode, h.knows⟩
  | unlinked source r hdone => exact h.unlinkat hdone

/-- One answer of the kernel. -/
theorem Inv.progress {a : Answer} {k' : Kernel} (h : Inv ⟨k, p⟩)
    (hstep : progress k p a = some (k', p')) : Inv ⟨k', p'⟩ := by
  cases hcall : p.call with
  | some f => exact h.callStep (callStep_of_progress hcall hstep)
  | none =>
      by_cases hrmdir : ∃ source, p = .rmdir source
      · obtain ⟨source, rfl⟩ := hrmdir
        cases a with
        | done => exact h.rmdir hstep
        | _ => cases hstep
      · obtain ⟨rfl, hp, hp'⟩ :=
          progress_elsewhere hcall (fun source heq => hrmdir ⟨source, heq⟩) hstep
        exact h.goto_free hp hp'

theorem Inv.step {s t : State} {e : Event} (h : Inv s) (hstep : Cgroupify.step s e = some t) :
    Inv t := by
  obtain ⟨k, p⟩ := s
  have henvironment (henv : (Cgroupify.environment k e).map (fun k' => State.mk k' p) = some t) :
      Inv t := by
    obtain ⟨k', hk', rfl⟩ := Option.map_eq_some_iff.mp henv
    exact h.environment hk'
  cases e with
  | answer a =>
      obtain ⟨⟨k', p'⟩, hprogress, rfl⟩ := Option.map_eq_some_iff.mp hstep
      exact h.progress hprogress
  | timer =>
      simp only [Cgroupify.step] at hstep
      split at hstep
      · next hidle =>
        obtain rfl := Option.some.inj hstep
        obtain rfl : p = .idle := hidle
        exact h.goto rfl rfl trivial
      · cases hstep
  | dispatch source =>
      simp only [Cgroupify.step] at hstep
      split at hstep
      · next hidle =>
        obtain rfl := Option.some.inj hstep
        obtain rfl : p = .idle := hidle.1
        -- the event that is taken off the queue is now the program's own business
        have hqueue (id : ℕ) (hid : id ∈ k.queue) (hne : id ≠ source) :
            id ∈ k.queue.erase source := (List.mem_erase_of_ne hne).mpr hid
        split
        · next hsource =>
          refine h.requeue rfl (fun _ hnone => by cases hnone) (fun id hid _ => ?_) hsource
          rcases eq_or_ne id source with rfl | hne
          · exact .inl rfl
          · exact .inr (hqueue id hid hne)
        · next hgone =>
          refine h.requeue rfl (fun _ hnone => hnone) (fun id hid hmem => .inr ?_) trivial
          exact hqueue id hid fun heq => hgone (heq ▸ hmem)
      · cases hstep
  | _ => exact henvironment hstep

theorem Inv.reachable {start : Start} (h : Reachable Cgroupify.step start.state s) : Inv s :=
  h.invariant (inv_start start) fun _ _ _ hinv _ hstep => hinv.step hstep

/-! ### A call that fails -/

def Point.Unmoved : Point → Prop
  | .unlinkat _ _ none | .moved _ none => False
  | _ => True

/-- What a call keeps of the subgroups and processes it finds. -/
structure Kept (k₀ : Kernel) (f : Frame) (s : State) : Prop where
  serial_le : k₀.nextSerial ≤ s.kernel.nextSerial
  subgroups : ∀ name g, k₀.subgroups.lookup name = some g →
    s.kernel.subgroups.lookup name = some g
  created : s.point.making ≠ none ∨ s.point.handling ≠ none → f.pid ∉ k₀.subgroups
  places : s.point.Unmoved → ∀ pid q q', k₀.processes.lookup pid = some q →
    s.kernel.processes.lookup pid = some q' → q.serial = q'.serial → q.place = q'.place

variable {k₀ : Kernel} {f : Frame}

theorem Kept.setProcesses (h : Kept k₀ f ⟨k, p⟩) {processes : Processes} {n : ℕ}
    (hn : k.nextSerial ≤ n)
    (hplace : ∀ pid q, processes.lookup pid = some q → k.nextSerial ≤ q.serial ∨
      ∃ q', k.processes.lookup pid = some q' ∧ q'.serial = q.serial ∧ q'.place = q.place)
    (hserial : ∀ pid q, k₀.processes.lookup pid = some q → q.serial < k₀.nextSerial) :
    Kept k₀ f ⟨{ k.setProcesses processes with nextSerial := n }, p⟩ where
  serial_le := h.serial_le.trans hn
  subgroups := h.subgroups
  created := h.created
  places hp pid q q' hq hq' heq := by
    rcases hplace pid q' hq' with hfresh | ⟨q'', hq'', hserial', hplace'⟩
    · have hold : q.serial < k₀.nextSerial := hserial pid q hq
      have hle : k₀.nextSerial ≤ k.nextSerial := h.serial_le
      omega
    · exact (h.places hp pid q q'' hq hq'' (heq.trans hserial'.symm)).trans hplace'

theorem Kept.environment {e : Event} {k' : Kernel} (h : Kept k₀ f ⟨k, p⟩)
    (hserial : ∀ pid q, k₀.processes.lookup pid = some q → q.serial < k₀.nextSerial)
    (he : environment k e = some k') : Kept k₀ f ⟨k', p⟩ := by
  cases e with
  | fork parent child =>
      obtain ⟨q, -, hbody⟩ := Option.bind_eq_some_iff.mp he
      split at hbody
      · obtain rfl := Option.some.inj hbody
        refine h.setProcesses (Nat.le_succ _) (fun pid q' hq' => ?_) hserial
        obtain ⟨-, rfl⟩ | ⟨-, hq'⟩ := GHashTable.lookup_insert_eq_some.mp hq'
        · exact .inl le_rfl
        · exact .inr ⟨q', hq', rfl, rfl⟩
      · cases hbody
  | exit pid =>
      obtain ⟨q, hq, hbody⟩ := Option.bind_eq_some_iff.mp he
      split at hbody
      · cases hbody
      · obtain rfl := Option.some.inj hbody
        refine h.setProcesses (n := k.nextSerial) le_rfl (fun pid' q' hq' => .inr ?_) hserial
        obtain ⟨rfl, rfl⟩ | ⟨-, hq'⟩ := GHashTable.lookup_insert_eq_some.mp hq'
        · exact ⟨q, hq, rfl, rfl⟩
        · exact ⟨q', hq', rfl, rfl⟩
  | reap pid =>
      obtain ⟨q, hq, hbody⟩ := Option.bind_eq_some_iff.mp he
      split at hbody
      · obtain rfl := Option.some.inj hbody
        exact h.setProcesses (n := k.nextSerial) le_rfl (fun pid' q' hq' => .inr
          ⟨q', (GHashTable.lookup_erase_eq_some.mp hq').2, rfl, rfl⟩) hserial
      · cases hbody
  | merge source =>
      simp only [Cgroupify.environment] at he
      split at he
      · obtain rfl := Option.some.inj he
        exact ⟨h.serial_le, h.subgroups, h.created, h.places⟩
      · cases he
  | answer _ => cases he
  | timer => cases he
  | dispatch _ => cases he

theorem Kept.goto (h : Kept k₀ f ⟨k, p⟩)
    (hcreated : p'.making ≠ none ∨ p'.handling ≠ none → p.making ≠ none ∨ p.handling ≠ none)
    (hunmoved : p'.Unmoved → p.Unmoved) : Kept k₀ f ⟨k, p'⟩ where
  serial_le := h.serial_le
  subgroups := h.subgroups
  created hp := h.created (hcreated hp)
  places hp := h.places (hunmoved hp)

theorem Kept.unlinkat {source : Option ℕ} {r : Option Errno} {k' : Kernel}
    (h : Kept k₀ f ⟨k, .unlinkat f source r⟩)
    (hstep : Cgroupify.progress k (.unlinkat f source r) .done = some (k', p')) :
    Kept k₀ f ⟨k', p'⟩ := by
  have hnew : f.pid ∉ k₀.subgroups := by
    refine h.created ?_
    cases source with
    | none => exact .inl (Option.some_ne_none _)
    | some source => exact .inr (Option.some_ne_none _)
  have hunmoved : (Point.moved f r).Unmoved → (Point.unlinkat f source r).Unmoved := by
    cases r <;> exact id
  have hmoved {k' : Kernel} (hk' : k'.nextSerial = k.nextSerial ∧ k'.processes = k.processes)
      (hsub : ∀ name g, k₀.subgroups.lookup name = some g → k'.subgroups.lookup name = some g) :
      Kept k₀ f ⟨k', .moved f r⟩ :=
    ⟨hk'.1 ▸ h.serial_le, hsub, fun hp => by rcases hp with hp | hp <;> exact absurd rfl hp,
      fun hp => hk'.2 ▸ h.places (hunmoved hp)⟩
  have hdisable (k : Kernel) : (k.disable source).nextSerial = k.nextSerial ∧
      (k.disable source).processes = k.processes ∧
      (k.disable source).subgroups = k.subgroups := by
    cases source <;> exact ⟨rfl, rfl, rfl⟩
  simp only [Cgroupify.progress, Kernel.rmdir] at hstep
  cases hg : k.subgroups.lookup f.pid with
  | none =>
      rw [hg] at hstep
      obtain ⟨rfl, rfl⟩ := Prod.mk.inj (Option.some.inj hstep)
      obtain ⟨hserial, hprocesses, hsubgroups⟩ := hdisable k
      exact hmoved ⟨hserial, hprocesses⟩ fun name g hg => hsubgroups ▸ h.subgroups name g hg
  | some g =>
      rw [hg] at hstep
      by_cases hpopulated : Populated k.processes g.inode
      · simp only [hpopulated, if_true] at hstep
        obtain ⟨rfl, rfl⟩ := Prod.mk.inj (Option.some.inj hstep)
        exact hmoved ⟨rfl, rfl⟩ h.subgroups
      · simp only [hpopulated, if_false] at hstep
        obtain ⟨rfl, rfl⟩ := Prod.mk.inj (Option.some.inj hstep)
        obtain ⟨hserial, hprocesses, hsubgroups⟩ :=
          hdisable { k with subgroups := k.subgroups.erase f.pid }
        refine hmoved ⟨hserial, hprocesses⟩ fun name g' hg' => ?_
        rw [hsubgroups, GHashTable.lookup_erase, if_neg]
        · exact h.subgroups name g' hg'
        · rintro rfl
          exact hnew (AList.lookup_isSome.mp (by rw [hg']; rfl))

theorem Kept.callStep {k' : Kernel} (h : Kept k₀ f ⟨k, p⟩) (hstep : CallStep k f p k' p') :
    Kept k₀ f ⟨k', p'⟩ := by
  cases hstep with
  | refused e => exact h.goto (fun hp => hp) fun _ => trivial
  | created hnew =>
      have hnone : k.subgroups.lookup f.pid = none := AList.lookup_eq_none.mpr hnew
      refine ⟨h.serial_le, fun name g hg => ?_, fun _ hmem => ?_, fun _ => h.places trivial⟩
      · refine (GHashTable.lookup_insert _ _ _ _).trans ((if_neg ?_).trans (h.subgroups name g hg))
        rintro rfl
        cases hnone.symm.trans (h.subgroups _ g hg)
      · obtain ⟨g, hg⟩ := Option.isSome_iff_exists.mp (AList.lookup_isSome.mpr hmem)
        cases hnone.symm.trans (h.subgroups _ g hg)
  | unwatched e => exact h.goto (fun hp => hp) fun _ => trivial
  | watched hg =>
      have hnew : f.pid ∉ k₀.subgroups := h.created (.inl (Option.some_ne_none _))
      exact ⟨h.serial_le, h.subgroups, fun _ => hnew, fun _ => h.places trivial⟩
  | unopened source e => exact h.goto (fun hp => hp) fun _ => trivial
  | opened source hg => exact h.goto (fun hp => hp) fun _ => trivial
  | unwritten source inode r => exact h.goto (fun hp => hp) fun _ => trivial
  | written source inode hq =>
      -- this is where the process moves, and no error follows
      have hnew : f.pid ∉ k₀.subgroups := h.created (.inr (Option.some_ne_none _))
      exact ⟨h.serial_le, h.subgroups, fun _ => hnew, False.elim⟩
  | unlinked source r hdone => exact h.unlinkat hdone

theorem Kept.step {s t : State} {e : Event} (h : Kept k₀ f s)
    (hserial : ∀ pid q, k₀.processes.lookup pid = some q → q.serial < k₀.nextSerial)
    (hcall : s.point.call = some f) (hstep : Cgroupify.step s e = some t) : Kept k₀ f t := by
  obtain ⟨k, p⟩ := s
  have hbusy : p ≠ .idle := by
    rintro rfl
    cases hcall
  have henvironment (henv : (Cgroupify.environment k e).map (fun k' => State.mk k' p) = some t) :
      Kept k₀ f t := by
    obtain ⟨k', hk', rfl⟩ := Option.map_eq_some_iff.mp henv
    exact h.environment hserial hk'
  cases e with
  | answer a =>
      obtain ⟨⟨k', p'⟩, hprogress, rfl⟩ := Option.map_eq_some_iff.mp hstep
      exact h.callStep (callStep_of_progress hcall hprogress)
  | timer => cases (if_neg hbusy).symm.trans hstep
  | dispatch source => cases (if_neg fun hidle => hbusy hidle.1).symm.trans hstep
  | _ => exact henvironment hstep

/-! ### The main result -/

/-- Every subgroup that was created and still exists has one source, with an event
pending if no process is left. -/
structure Kernel.Tended (k : Kernel) : Prop where
  watched : ∀ name g, k.subgroups.lookup name = some g → g.created = true →
    ∃! id, ∃ src, k.sources.lookup id = some src ∧ src.inode = g.inode
  pending : ∀ name g, k.subgroups.lookup name = some g → g.created = true →
    k.members (.subgroup g.inode) = [] →
      ∀ id src, k.sources.lookup id = some src → src.inode = g.inode → id ∈ k.queue

/-- From one state to a later one, no subgroup is removed and no process moves. -/
structure Kernel.Unharmed (k k' : Kernel) : Prop where
  subgroups : ∀ name g, k.subgroups.lookup name = some g → k'.subgroups.lookup name = some g
  places : ∀ pid q q', k.processes.lookup pid = some q → k'.processes.lookup pid = some q' →
    q.serial = q'.serial → q.place = q'.place

/-- No callback is running: the start-up move is over, or the event loop waits. -/
def Point.Between (p : Point) : Prop := p = .setup ∨ p = .idle

instance (p : Point) : Decidable p.Between := inferInstanceAs (Decidable (_ ∨ _))

theorem Inv.tended (h : Inv s) (hp : s.point.Between) : s.kernel.Tended := by
  have hfree : s.point.making = none ∧ s.point.handling = none := by
    rcases hp with hp | hp <;> rw [hp] <;> exact ⟨rfl, rfl⟩
  refine ⟨fun name g hg hcreated => ?_, fun name g hg hcreated hempty id src hsrc heq => ?_⟩
  · rcases h.watched name g hg hcreated with hmaking | ⟨id, hsrc⟩
    · cases hfree.1.symm.trans hmaking
    · refine ⟨id, ⟨_, hsrc, rfl⟩, fun id' ⟨src', hsrc', heq⟩ => ?_⟩
      exact h.wf.alone id' id src' _ hsrc' hsrc heq
  · rcases h.pending id src hsrc with hhandling | hpopulated | hqueue
    · cases hfree.2.symm.trans hhandling
    · obtain ⟨pid, q, hq, hplace, hlive⟩ := populated_iff.mp hpopulated
      have hmem : pid ∈ s.kernel.members (.subgroup g.inode) :=
        Kernel.mem_members.mpr ⟨q, hq, heq ▸ hplace, hlive⟩
      cases hempty ▸ hmem
    · exact hqueue

theorem unharmed_of_failed {e : Errno} (hs : s.kernel.Wf) (hf : s.point = .mkdirat f)
    (hcall : ReachableBy step (fun u _ => u.point.call = some f) s t)
    (ht : t.point = .moved f (some e)) : s.kernel.Unharmed t.kernel := by
  have hstart : Kept s.kernel f s := by
    refine ⟨le_rfl, fun _ _ hg => hg, fun hp => ?_, fun _ pid q q' hq hq' _ => ?_⟩
    · rw [hf] at hp
      rcases hp with hp | hp <;> exact absurd rfl hp
    · rw [Option.some.inj (hq.symm.trans hq')]
  have hkept : Kept s.kernel f t := hcall.invariant hstart fun _ _ _ hu hcond hstep =>
    hu.step hs.serial_lt hcond hstep
  exact ⟨hkept.subgroups, hkept.places (by rw [ht]; trivial)⟩

/-- In every run, between callbacks each subgroup that the program created is watched by
one source, and an event is pending if it is empty. A call of `move_to_subgroup` that
fails removes no subgroup that was there before it and moves no process. -/
theorem no_leaks (start : Start) :
    (∀ s, Reachable step start.state s → s.point.Between → s.kernel.Tended) ∧
      ∀ s t f e, Reachable step start.state s → s.point = .mkdirat f →
        ReachableBy step (fun u _ => u.point.call = some f) s t → t.point = .moved f (some e) →
          s.kernel.Unharmed t.kernel :=
  ⟨fun _ hs hp => (Inv.reachable hs).tended hp,
    fun _ _ _ _ hs hf hcall ht => unharmed_of_failed (Inv.reachable hs).wf hf hcall ht⟩

def lone : Start where
  kernel := ⟨∅, (∅ : Processes).insert "7".toList ⟨0, .root, false⟩, ∅, [], 0, 1, 0⟩
  wf :=
    { place_lt := fun pid q inode hq hplace => by
        obtain ⟨-, rfl⟩ | ⟨-, hq⟩ := GHashTable.lookup_insert_eq_some.mp hq
        · cases hplace
        · cases (AList.lookup_empty pid).symm.trans hq
      serial_lt := fun pid q hq => by
        obtain ⟨-, rfl⟩ | ⟨-, hq⟩ := GHashTable.lookup_insert_eq_some.mp hq
        · exact Nat.lt_succ_self 0
        · cases (AList.lookup_empty pid).symm.trans hq
      inode_lt := fun name g hg => by cases (AList.lookup_empty name).symm.trans hg
      inode_inj := fun name _ g _ hg => by cases (AList.lookup_empty name).symm.trans hg
      source_lt := fun id src hsrc => by cases (AList.lookup_empty id).symm.trans hsrc
      watches := fun id src hsrc => by cases (AList.lookup_empty id).symm.trans hsrc
      alone := fun id _ src _ hsrc => by cases (AList.lookup_empty id).symm.trans hsrc }
  foreign := fun name g hg => by cases (AList.lookup_empty name).symm.trans hg
  unwatched := rfl
  quiet := rfl

def lone.listed : List Event := [.answer .ok, .answer (.procs ["7".toList])]

def lone.frame : Frame := ⟨.main, none, "7".toList, [], 1⟩

def lone.denied : List Event :=
  [.answer .ok, .answer .ok, .answer .ok, .answer (.fails (.other 13)), .answer .done]

def lone.separated : List Event :=
  [.answer .ok, .answer .ok, .answer .ok, .answer .ok, .answer .done, .answer .done, .answer .ok,
    .answer (.procs []), .answer .ok, .exit "7".toList]

theorem no_leaks_lone :
    ((checkedRun step (fun _ _ => True) lone.state (lone.listed ++ lone.separated)).get
      (by decide)).kernel.Tended ∧
    ((checkedRun step (fun _ _ => True) lone.state lone.listed).get (by decide)).kernel.Unharmed
      ((checkedRun step (fun u _ => u.point.call = some lone.frame)
        ((checkedRun step (fun _ _ => True) lone.state lone.listed).get (by decide))
        lone.denied).get (by decide)).kernel :=
  ⟨(no_leaks lone).1 _ (reachableBy_checkedRun (by decide)) (by decide),
    (no_leaks lone).2 _ _ lone.frame (.other 13) (reachableBy_checkedRun (by decide)) (by decide)
      (reachableBy_checkedRun (by decide)) (by decide)⟩

end Uresourced.Cgroupify
