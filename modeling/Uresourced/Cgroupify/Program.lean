import Uresourced.Cgroupify.Kernel
import Uresourced.Lib.Runs

/-!
`cgroupify.c`: moving every process of a unit into a subgroup of its own.

The program asks the kernel one question after the other, and processes fork and
exit between any two of them. A `Point` is a place in the program where it waits,
with the variables that are live there; `step` is one answer of the kernel, one
change of the processes, or one callback of the event loop.
-/

namespace Uresourced.Cgroupify

/-! ### Reading `cgroup.procs` -/

def IsPid (pid : CString) : Prop := pid ≠ [] ∧ pid.all Char.isDigit = true ∧ pid.length ≤ 10

instance (pid : CString) : Decidable (IsPid pid) := inferInstanceAs (Decidable (_ ∧ _))

def procsText (pids : List CString) : CString := pids.flatMap (· ++ ['\n'])

/-- What one `read` puts into the buffer. -/
def readBuffer (pids : List CString) : CString := (procsText pids).take 1023

/-- The strings that the loop over the separators sees: each ends before a newline,
and what is behind the last newline is left alone. -/
def procLines (buffer : CString) : List CString := (buffer.splitOn '\n').dropLast

/-! ### The program -/

/-- Who calls `move_pids_to_subgroups`: `main`, or `move_pids_from_subgroups` with
the names that are still to come. -/
inductive Caller
  | main
  | pass (names : List CString)
  deriving DecidableEq, Repr

/-- A call of `move_to_subgroup` by the loop of `move_pids_to_subgroups`: the
subgroup that is read, the process, the lines behind it, and `found`. -/
structure Frame where
  caller : Caller
  subgroup : Option CString
  pid : CString
  rest : List CString
  found : ℕ
  deriving DecidableEq, Repr

/-- Where the program is. The sources are those of `inotify_source`, and `r` is
the error that is returned, if any. -/
inductive Point
  /-- `open_procs` in the loop of `move_pids_to_subgroups` -/
  | openProcs (caller : Caller) (subgroup : Option CString)
  /-- `read` -/
  | readProcs (caller : Caller) (subgroup : Option CString) (place : Place)
  /-- the start of `move_to_subgroup` -/
  | mkdirat (f : Frame)
  | addInotify (f : Frame)
  /-- `open_procs` in `move_to_subgroup` -/
  | openSub (f : Frame) (source : ℕ)
  | write (f : Frame) (source inode : ℕ)
  | unlinkat (f : Frame) (source : Option ℕ) (r : Option Errno)
  /-- `move_to_subgroup` returns -/
  | moved (f : Frame) (r : Option Errno)
  /-- the rest of `main` before the event loop -/
  | setup
  /-- the event loop -/
  | idle
  /-- `scandirat`, at the start of `move_pids_from_subgroups` -/
  | scandirat
  /-- `rmdir` in `subgroup_inotify_cb` -/
  | rmdir (source : ℕ)
  | exited
  deriving DecidableEq, Repr

/-- What a call returns. The kernel decides alone on the removal of a directory,
which `done` stands for. -/
inductive Answer
  | ok
  | fails (e : Errno)
  | procs (pids : List CString)
  /-- names, and whether they are directories -/
  | names (entries : List (CString × Bool))
  | done
  deriving DecidableEq, Repr

def returned : Caller → Option Errno → Point
  | .main, none => .setup
  | .main, some _ => .exited
  | .pass [], _ => .idle
  | .pass (name :: names), _ => .openProcs (.pass names) (some name)

/-- The loop over the lines of the buffer, up to the next call of
`move_to_subgroup` or the next round. -/
def nextPid (caller : Caller) (subgroup : Option CString) : List CString → ℕ → Point
  | [], found => if found = 0 then returned caller none else .openProcs caller subgroup
  | pid :: rest, found =>
      if pid = [] then if found = 0 then returned caller none else .openProcs caller subgroup
      else if subgroup = some pid then nextPid caller subgroup rest found
      else .mkdirat ⟨caller, subgroup, pid, rest, found + 1⟩

def subgroupNames (entries : List (CString × Bool)) : List CString :=
  (entries.filter fun entry => entry.2 && !(entry.1.head? == some '.')).map (·.1)

def progress (k : Kernel) : Point → Answer → Option (Kernel × Point)
  | .openProcs caller _, .fails e => some (k, returned caller (some e))
  | .openProcs caller subgroup, .ok =>
      (k.place subgroup).map fun place => (k, .readProcs caller subgroup place)
  -- an error of `read` ends the program
  | .readProcs _ _ _, .fails _ => some (k, .exited)
  | .readProcs caller subgroup _, .procs pids =>
      if ∀ pid ∈ pids, IsPid pid then
        some (k, nextPid caller subgroup (procLines (readBuffer pids)) 0)
      else none
  | .mkdirat f, .fails e => some (k, .moved f (some e))
  | .mkdirat f, .ok =>
      if f.pid ∈ k.subgroups then none else some (k.mkdir f.pid, .addInotify f)
  | .addInotify f, .fails e => some (k, .unlinkat f none (some e))
  | .addInotify f, .ok =>
      (k.subgroups.lookup f.pid).map fun g =>
        (k.addInotify ⟨f.pid, g.inode⟩, .openSub f k.nextSource)
  | .openSub f source, .fails e => some (k, .unlinkat f (some source) (some e))
  | .openSub f source, .ok =>
      (k.subgroups.lookup f.pid).map fun g => (k, .write f source g.inode)
  -- a process that has exited in the meantime is no error
  | .write f source _, .fails e =>
      some (k, .unlinkat f (some source) (if e = .esrch then none else some e))
  | .write f source inode, .ok =>
      (k.processes.lookup f.pid).map fun p =>
        -- a zombie stays where it is
        (if p.zombie then k
          else k.setProcesses (k.processes.insert f.pid { p with place := .subgroup inode }),
          .unlinkat f (some source) none)
  | .unlinkat f source r, .done =>
      match k.rmdir f.pid with
      | (k, none) | (k, some .enoent) => some (k.disable source, .moved f r)
      | (k, some _) => some (k, .moved f r)
  | .moved f (some e), .done => some (k, returned f.caller (some e))
  | .moved f none, .done => some (k, nextPid f.caller f.subgroup f.rest f.found)
  | .setup, .ok => some (k, .idle)
  | .setup, .fails _ => some (k, .exited)
  | .scandirat, .fails _ => some (k, .exited)
  | .scandirat, .names entries =>
      if entries = [] then some (k, .exited)
      else some (k, returned (.pass (subgroupNames entries)) none)
  | .rmdir source, .done =>
      (k.sources.lookup source).map fun src =>
        match k.rmdir src.name with
        -- somebody is in the subgroup again, and it stays watched
        | (k, some .ebusy) => (k, .idle)
        | (k, _) => (k.disable (some source), .idle)
  | _, _ => none

/-! ### Runs -/

structure State where
  kernel : Kernel
  point : Point

/-- What can happen: an answer to the program, a process forks, exits or is reaped,
two equal events of inotify become one, or the event loop calls back. -/
inductive Event
  | answer (a : Answer)
  | fork (parent child : CString)
  | exit (pid : CString)
  | reap (pid : CString)
  | merge (source : ℕ)
  | timer
  | dispatch (source : ℕ)
  deriving DecidableEq, Repr

def environment (k : Kernel) : Event → Option Kernel
  | .fork parent child =>
      (k.processes.lookup parent).bind fun p =>
        if p.zombie = false ∧ child ∉ k.processes ∧ IsPid child then
          some { k.setProcesses (k.processes.insert child ⟨k.nextSerial, p.place, false⟩) with
            nextSerial := k.nextSerial + 1 }
        else none
  | .exit pid =>
      (k.processes.lookup pid).bind fun p =>
        if p.zombie then none
        else some (k.setProcesses (k.processes.insert pid { p with zombie := true }))
  | .reap pid =>
      (k.processes.lookup pid).bind fun p =>
        if p.zombie then some (k.setProcesses (k.processes.erase pid)) else none
  | .merge source =>
      if source ∈ k.queue.erase source then some { k with queue := k.queue.erase source } else none
  | _ => none

def step (s : State) : Event → Option State
  | .answer a => (progress s.kernel s.point a).map fun (kernel, point) => ⟨kernel, point⟩
  | .timer => if s.point = .idle then some { s with point := .scandirat } else none
  | .dispatch source =>
      if s.point = .idle ∧ source ∈ s.kernel.queue then
        -- the events of a source that is disabled are dropped
        some ⟨{ s.kernel with queue := s.kernel.queue.erase source },
          if source ∈ s.kernel.sources then .rmdir source else .idle⟩
      else none
  | e => (environment s.kernel e).map fun kernel => { s with kernel := kernel }

structure Start where
  kernel : Kernel
  wf : kernel.Wf
  foreign : ∀ name g, kernel.subgroups.lookup name = some g → g.created = false
  unwatched : kernel.sources = ∅
  quiet : kernel.queue = []

def Start.state (start : Start) : State := ⟨start.kernel, .openProcs .main none⟩

end Uresourced.Cgroupify
