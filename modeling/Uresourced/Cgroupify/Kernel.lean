import Uresourced.Lib.CString
import Uresourced.Lib.GHashTable

/-!
The cgroup of a unit, as `cgroupify.c` finds it: its direct subgroups, the
processes in it, and the inotify sources of the event loop.

A change of the table of processes queues an event at every source whose
subgroup becomes populated or empty, and a subgroup can be removed exactly while
it is empty. Subgroups have no cgroups below them.
-/

namespace Uresourced.Cgroupify

inductive Place
  | root
  | subgroup (inode : ℕ)
  | outside
  deriving DecidableEq, Repr

/-- A process. Its number is free for another one once it is reaped, and the
serial number tells the two apart. -/
structure Process where
  serial : ℕ
  place : Place
  zombie : Bool
  deriving DecidableEq, Repr

/-- A direct subgroup, and whether `move_to_subgroup` has created it. -/
structure Subgroup where
  inode : ℕ
  created : Bool
  deriving DecidableEq, Repr

/-- An enabled source: the directory of `full_path` and the subgroup whose
`cgroup.events` is watched. -/
structure Source where
  name : CString
  inode : ℕ
  deriving DecidableEq, Repr

inductive Errno
  | enoent
  | esrch
  | ebusy
  | other (errno : ℕ)
  deriving DecidableEq, Repr

abbrev Processes := GHashTable CString Process

def Populated (processes : Processes) (inode : ℕ) : Prop :=
  ∃ entry ∈ processes.entries, entry.2.place = .subgroup inode ∧ entry.2.zombie = false

instance (processes : Processes) (inode : ℕ) : Decidable (Populated processes inode) :=
  inferInstanceAs (Decidable (∃ entry ∈ processes.entries, _))

theorem populated_iff {processes : Processes} {inode : ℕ} :
    Populated processes inode ↔
      ∃ pid p, processes.lookup pid = some p ∧ p.place = .subgroup inode ∧ p.zombie = false := by
  constructor
  · rintro ⟨⟨pid, p⟩, hmem, hplace, hlive⟩
    exact ⟨pid, p, AList.mem_lookup_iff.mpr hmem, hplace, hlive⟩
  · rintro ⟨pid, p, hp, hplace, hlive⟩
    exact ⟨⟨pid, p⟩, AList.mem_lookup_iff.mp hp, hplace, hlive⟩

/-- The unit's cgroup and the event loop. The queue holds the sources that an
event was queued at. -/
structure Kernel where
  subgroups : GHashTable CString Subgroup
  processes : Processes
  sources : GHashTable ℕ Source
  queue : List ℕ
  nextInode : ℕ
  nextSerial : ℕ
  nextSource : ℕ

namespace Kernel

def place (k : Kernel) : Option CString → Option Place
  | none => some .root
  | some name => (k.subgroups.lookup name).map fun g => .subgroup g.inode

def members (k : Kernel) (place : Place) : List CString :=
  (k.processes.entries.filter fun entry =>
    entry.2.place = place ∧ entry.2.zombie = false).map (·.1)

/-- The processes change. Where this populates or empties a subgroup, an event is
queued at its sources. -/
def setProcesses (k : Kernel) (processes : Processes) : Kernel :=
  { k with
    processes := processes
    queue := k.queue ++ (k.sources.entries.filter fun entry =>
      decide (Populated k.processes entry.2.inode) !=
        decide (Populated processes entry.2.inode)).map (·.1) }

def mkdir (k : Kernel) (name : CString) : Kernel :=
  { k with
    subgroups := k.subgroups.insert name ⟨k.nextInode, true⟩
    nextInode := k.nextInode + 1 }

def rmdir (k : Kernel) (name : CString) : Kernel × Option Errno :=
  match k.subgroups.lookup name with
  | none => (k, some .enoent)
  | some g =>
      if Populated k.processes g.inode then (k, some .ebusy)
      else ({ k with subgroups := k.subgroups.erase name }, none)

def addInotify (k : Kernel) (source : Source) : Kernel :=
  { k with
    sources := k.sources.insert k.nextSource source
    nextSource := k.nextSource + 1 }

/-- `sd_event_source_disable_unref`; the source may be NULL. -/
def disable (k : Kernel) : Option ℕ → Kernel
  | none => k
  | some id => { k with sources := k.sources.erase id }

/-- What the tables keep to: the numbers in use are those given out, no two
subgroups have one inode, and no two sources watch one subgroup. -/
structure Wf (k : Kernel) : Prop where
  place_lt : ∀ pid p inode, k.processes.lookup pid = some p → p.place = .subgroup inode →
    inode < k.nextInode
  serial_lt : ∀ pid p, k.processes.lookup pid = some p → p.serial < k.nextSerial
  inode_lt : ∀ name g, k.subgroups.lookup name = some g → g.inode < k.nextInode
  inode_inj : ∀ name name' g g', k.subgroups.lookup name = some g →
    k.subgroups.lookup name' = some g' → g.inode = g'.inode → name = name'
  source_lt : ∀ id src, k.sources.lookup id = some src → id < k.nextSource
  watches : ∀ id src, k.sources.lookup id = some src →
    k.subgroups.lookup src.name = some ⟨src.inode, true⟩
  alone : ∀ id id' src src', k.sources.lookup id = some src → k.sources.lookup id' = some src' →
    src.inode = src'.inode → id = id'

variable {k : Kernel} {pid name : CString} {place : Place}

theorem mem_members : pid ∈ k.members place ↔
    ∃ p, k.processes.lookup pid = some p ∧ p.place = place ∧ p.zombie = false := by
  simp only [members, List.mem_map, List.mem_filter, decide_eq_true_eq]
  constructor
  · rintro ⟨⟨pid, p⟩, ⟨hmem, hplace, hlive⟩, rfl⟩
    exact ⟨p, AList.mem_lookup_iff.mpr hmem, hplace, hlive⟩
  · rintro ⟨p, hp, hplace, hlive⟩
    exact ⟨⟨pid, p⟩, ⟨AList.mem_lookup_iff.mp hp, hplace, hlive⟩, rfl⟩

theorem nodup_members (k : Kernel) (place : Place) : (k.members place).Nodup :=
  List.Nodup.sublist (List.Sublist.map _ List.filter_sublist) k.processes.nodupKeys

/-! ### Small steps -/

@[simp] theorem subgroups_setProcesses (k : Kernel) (processes : Processes) :
    (k.setProcesses processes).subgroups = k.subgroups := rfl

@[simp] theorem processes_setProcesses (k : Kernel) (processes : Processes) :
    (k.setProcesses processes).processes = processes := rfl

@[simp] theorem sources_setProcesses (k : Kernel) (processes : Processes) :
    (k.setProcesses processes).sources = k.sources := rfl

@[simp] theorem nextInode_setProcesses (k : Kernel) (processes : Processes) :
    (k.setProcesses processes).nextInode = k.nextInode := rfl

@[simp] theorem nextSource_setProcesses (k : Kernel) (processes : Processes) :
    (k.setProcesses processes).nextSource = k.nextSource := rfl

@[simp] theorem nextSerial_setProcesses (k : Kernel) (processes : Processes) :
    (k.setProcesses processes).nextSerial = k.nextSerial := rfl

/-- A source of a subgroup that becomes populated or empty has an event. -/
theorem mem_queue_setProcesses {processes : Processes} {id : ℕ} :
    id ∈ (k.setProcesses processes).queue ↔ id ∈ k.queue ∨
      ∃ src, k.sources.lookup id = some src ∧
        ¬ (Populated k.processes src.inode ↔ Populated processes src.inode) := by
  simp only [setProcesses, List.mem_append, List.mem_map, List.mem_filter, bne_iff_ne, ne_eq,
    decide_eq_decide]
  refine or_congr_right ⟨?_, ?_⟩
  · rintro ⟨⟨id, src⟩, ⟨hmem, hchange⟩, rfl⟩
    exact ⟨src, AList.mem_lookup_iff.mpr hmem, hchange⟩
  · rintro ⟨src, hsrc, hchange⟩
    exact ⟨⟨id, src⟩, ⟨AList.mem_lookup_iff.mp hsrc, hchange⟩, rfl⟩

end Kernel

end Uresourced.Cgroupify
