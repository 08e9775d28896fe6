import Uresourced.Cgroupify.Program
import Mathlib.Logic.Function.Basic
import Mathlib.Data.Set.Insert

/-!
What `cgroupify.c` is for: every process of a unit in a subgroup of its own.

A `Layout` says where the live processes are and which subgroups there are, and
leaves out zombies, sources and events. One move puts a process into a new subgroup
with its number as the name. `Moved` is what any number of moves does, in whatever
order they come.
-/

namespace Uresourced.Cgroupify

/-- The live processes with their serial numbers and places, and the subgroups. -/
structure Layout where
  live : CString → Option (ℕ × Place)
  inode : CString → Option ℕ
  next : ℕ

namespace Layout

def At (l : Layout) (place : Place) (pid : CString) : Prop :=
  ∃ serial, l.live pid = some (serial, place)

def place (l : Layout) : Option CString → Option Place
  | none => some .root
  | some name => (l.inode name).map .subgroup

def mkdir (l : Layout) (name : CString) : Layout :=
  { l with
    inode := Function.update l.inode name (some l.next)
    next := l.next + 1 }

def put (l : Layout) (pid : CString) (inode : ℕ) : Layout :=
  { l with
    live := Function.update l.live pid ((l.live pid).map fun p => (p.1, .subgroup inode)) }

def move (l : Layout) (pid : CString) : Layout := (l.mkdir pid).put pid l.next

structure Ready (l : Layout) : Prop where
  isPid : ∀ place pid, l.At place pid → IsPid pid
  place_lt : ∀ inode pid, l.At (.subgroup inode) pid → inode < l.next
  inode_lt : ∀ name inode, l.inode name = some inode → inode < l.next
  inode_inj : ∀ name name' inode, l.inode name = some inode → l.inode name' = some inode →
    name = name'

def Within (l : Layout) (cgroups : Set (Option CString)) (pid : CString) : Prop :=
  ∃ subgroup ∈ cgroups, ∃ place, l.place subgroup = some place ∧ l.At place pid

/-- A subgroup that is named after a process of the cgroups contains it. -/
def Clear (l : Layout) (cgroups : Set (Option CString)) : Prop :=
  ∀ pid inode, l.Within cgroups pid → l.inode pid = some inode → l.At (.subgroup inode) pid

/-- The processes of `done` were moved, each into a new subgroup of its own. -/
structure Moved (l : Layout) (done : Set CString) (l' : Layout) : Prop where
  next_le : l.next ≤ l'.next
  inode_lt : ∀ name inode, l'.inode name = some inode → inode < l'.next
  inode_inj : ∀ name name' inode, l'.inode name = some inode → l'.inode name' = some inode →
    name = name'
  new : ∀ pid ∈ done, l.inode pid = none
  own : ∀ pid ∈ done, ∃ serial place inode, l.live pid = some (serial, place) ∧
    l'.live pid = some (serial, .subgroup inode) ∧ l'.inode pid = some inode ∧ l.next ≤ inode
  live : ∀ pid ∉ done, l'.live pid = l.live pid
  inode : ∀ name ∉ done, l'.inode name = l.inode name

variable {l l' : Layout} {done : Set CString} {pid name : CString} {place : Place}

theorem Ready.moved (h : l.Ready) : Moved l ∅ l where
  next_le := le_rfl
  inode_lt := h.inode_lt
  inode_inj := h.inode_inj
  new _ hpid := hpid.elim
  own _ hpid := hpid.elim
  live _ _ := rfl
  inode _ _ := rfl

theorem Moved.move (h : Moved l done l') (hpid : l.At place pid) (hnew : pid ∉ done)
    (hdir : l.inode pid = none) : Moved l (insert pid done) (l'.move pid) := by
  obtain ⟨serial, hserial⟩ := hpid
  have hlive : l'.live pid = some (serial, place) := (h.live pid hnew).trans hserial
  have hinode (name : CString) : (l'.move pid).inode name =
      if name = pid then some l'.next else l'.inode name := Function.update_apply _ _ _ _
  have hplace (pid' : CString) : (l'.move pid).live pid' =
      if pid' = pid then some (serial, .subgroup l'.next) else l'.live pid' := by
    refine (Function.update_apply _ _ _ _).trans ?_
    split
    · exact congrArg (Option.map _) hlive
    · rfl
  refine ⟨Nat.le_succ_of_le h.next_le, fun name inode hname => ?_,
    fun name name' inode hname hname' => ?_, fun pid' hpid' => ?_, fun pid' hpid' => ?_,
    fun pid' hpid' => ?_, fun name hname => ?_⟩
  · rw [hinode] at hname
    split at hname
    · exact Option.some.inj hname ▸ Nat.lt_succ_self _
    · exact Nat.lt_succ_of_lt (h.inode_lt name inode hname)
  · rw [hinode] at hname hname'
    split at hname
    · next heq =>
      obtain rfl := Option.some.inj hname
      split at hname'
      · next heq' => exact heq.trans heq'.symm
      · exact absurd (h.inode_lt name' _ hname') (Nat.lt_irrefl _)
    · split at hname'
      · obtain rfl := Option.some.inj hname'
        exact absurd (h.inode_lt name _ hname) (Nat.lt_irrefl _)
      · exact h.inode_inj name name' inode hname hname'
  · rcases hpid' with rfl | hold
    · exact hdir
    · exact h.new pid' hold
  · rcases eq_or_ne pid' pid with rfl | hne
    · refine ⟨serial, place, l'.next, hserial, ?_, ?_, h.next_le⟩
      · rw [hplace, if_pos rfl]
      · rw [hinode, if_pos rfl]
    · rw [hplace, hinode, if_neg hne, if_neg hne]
      exact h.own pid' (hpid'.resolve_left hne)
  · obtain ⟨hne, hold⟩ := not_or.mp hpid'
    rw [hplace, if_neg hne, h.live pid' hold]
  · obtain ⟨hne, hold⟩ := not_or.mp hname
    rw [hinode, if_neg hne, h.inode name hold]

theorem Ready.lt_of_place (h : l.Ready) {subgroup : Option CString} {inode : ℕ}
    (hplace : l.place subgroup = some (.subgroup inode)) : inode < l.next := by
  cases subgroup with
  | none => cases hplace
  | some name =>
      obtain ⟨inode', hinode, heq⟩ := Option.map_eq_some_iff.mp hplace
      obtain rfl := Place.subgroup.inj heq
      exact h.inode_lt name inode' hinode

theorem Ready.inode_eq_none (h : l.Ready) {cgroups : Set (Option CString)}
    (hclear : l.Clear cgroups) {subgroup : Option CString} (hsubgroup : subgroup ∈ cgroups)
    (hplace : l.place subgroup = some place) (hat : l.At place pid)
    (hne : subgroup ≠ some pid) : l.inode pid = none := by
  cases hdir : l.inode pid with
  | none => rfl
  | some inode =>
      obtain ⟨serial, hserial⟩ := hat
      obtain ⟨serial', hserial'⟩ :=
        hclear pid inode ⟨subgroup, hsubgroup, place, hplace, serial, hserial⟩ hdir
      obtain rfl : place = .subgroup inode :=
        congrArg Prod.snd (Option.some.inj (hserial.symm.trans hserial'))
      cases subgroup with
      | none => cases hplace
      | some name =>
          obtain ⟨inode', hname, heq⟩ := Option.map_eq_some_iff.mp hplace
          obtain rfl := Place.subgroup.inj heq
          exact absurd (congrArg some (h.inode_inj name pid inode' hname hdir)) hne

theorem Moved.place_eq (h : Moved l done l') {subgroup : Option CString}
    (hplace : l.place subgroup = some place) : l'.place subgroup = some place := by
  cases subgroup with
  | none => exact hplace
  | some name =>
      have hold : name ∉ done := by
        intro hname
        obtain ⟨inode, hinode, -⟩ := Option.map_eq_some_iff.mp hplace
        cases (h.new name hname).symm.trans hinode
      rw [Layout.place, h.inode name hold]
      exact hplace

/-- An old place keeps the processes that are not moved, and no new ones come. -/
theorem Moved.at_iff (h : Moved l done l') (hready : l.Ready) {subgroup : Option CString}
    (hplace : l.place subgroup = some place) :
    l'.At place pid ↔ l.At place pid ∧ pid ∉ done := by
  constructor
  · rintro ⟨serial, hserial⟩
    have hnew : pid ∉ done := by
      intro hpid
      obtain ⟨serial', place', inode, -, hlive, -, hle⟩ := h.own pid hpid
      have heq : place = .subgroup inode :=
        congrArg Prod.snd (Option.some.inj (hserial.symm.trans hlive))
      have hlt : inode < l.next := hready.lt_of_place (heq ▸ hplace)
      omega
    exact ⟨⟨serial, (h.live pid hnew).symm.trans hserial⟩, hnew⟩
  · rintro ⟨⟨serial, hserial⟩, hnew⟩
    exact ⟨serial, (h.live pid hnew).trans hserial⟩

/-! ### All processes of some cgroups -/

/-- The processes of the cgroups, but for those in the subgroup of their own name. -/
def toMove (l : Layout) (cgroups : Set (Option CString)) : Set CString :=
  { pid | ∃ subgroup ∈ cgroups, subgroup ≠ some pid ∧
    ∃ place, l.place subgroup = some place ∧ l.At place pid }

/-- Once all that have to move have moved, each process of the cgroups is the only one
in the subgroup of its own name. -/
theorem Moved.alone (h : l.Ready) {cgroups : Set (Option CString)}
    (hmoved : Moved l (l.toMove cgroups) l') (hpid : l.Within cgroups pid) :
    ∃ inode, l'.inode pid = some inode ∧ ∀ pid', l'.At (.subgroup inode) pid' ↔ pid' = pid := by
  by_cases hdone : pid ∈ l.toMove cgroups
  · obtain ⟨serial, place, inode, -, hlive, hinode, hle⟩ := hmoved.own pid hdone
    refine ⟨inode, hinode, fun pid' => ⟨fun ⟨serial', hlive'⟩ => ?_, fun heq => ?_⟩⟩
    · by_cases hdone' : pid' ∈ l.toMove cgroups
      · obtain ⟨_, _, inode', -, hown, hinode', -⟩ := hmoved.own pid' hdone'
        obtain rfl : inode' = inode := Place.subgroup.inj
          (congrArg Prod.snd (Option.some.inj (hown.symm.trans hlive')))
        exact hmoved.inode_inj pid' pid inode' hinode' hinode
      · have hat : l.At (.subgroup inode) pid' := ⟨serial', (hmoved.live pid' hdone') ▸ hlive'⟩
        have hlt : inode < l.next := h.place_lt inode pid' hat
        omega
    · exact heq ▸ ⟨serial, hlive⟩
  · -- it was in its own subgroup all the time, and everybody else there has moved
    obtain ⟨subgroup, hsubgroup, place, hplace, hat⟩ := hpid
    obtain rfl : subgroup = some pid := by
      by_contra hne
      exact hdone ⟨subgroup, hsubgroup, hne, place, hplace, hat⟩
    obtain ⟨inode, hinode, rfl⟩ := Option.map_eq_some_iff.mp hplace
    refine ⟨inode, (hmoved.inode pid hdone).trans hinode, fun pid' => ?_⟩
    rw [hmoved.at_iff h hplace]
    constructor
    · rintro ⟨hat', hstay⟩
      by_contra hne
      exact hstay ⟨some pid, hsubgroup, fun heq => hne (Option.some.inj heq).symm,
        .subgroup inode, hplace, hat'⟩
    · rintro rfl
      exact ⟨hat, hdone⟩

end Layout

end Uresourced.Cgroupify
