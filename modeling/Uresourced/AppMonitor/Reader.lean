import Uresourced.AppMonitor.Queue
import Uresourced.AppMonitor.Tracking
import Uresourced.Lib.Records

/-!
`r-app-monitor.c`: reading inotify events from the file descriptor.

The kernel hands out events as records of different lengths, as many whole ones
as fit into the buffer, and `received_inotify_data` walks over them. So several
events have left the kernel's queue while the first of them is still being
handled. `Reading` is the monitor with that buffer; it is shown to do nothing
that the monitor does not do when it takes the events from the queue one by one,
so everything about `Watching` holds for it.
-/

namespace Uresourced

open CString Runs Records

/-! ### `struct inotify_event` -/

def inotifyEventSize : ℕ := 16

def nameMax : ℕ := 255

def inotifyEventBufLen : ℕ := 10 * (inotifyEventSize + nameMax + 1)

def inAttrib : ℕ := 0x4
def inCreate : ℕ := 0x100
def inDelete : ℕ := 0x200
def inIsdir : ℕ := 0x40000000

/-- `IN_IGNORED`, for a mask that the handler does not look at. -/
def inIgnored : ℕ := 0x8000

def Mask.bits : Mask → ℕ
  | .attrib => inAttrib ||| inIsdir
  | .create => inCreate ||| inIsdir
  | .delete => inDelete ||| inIsdir
  | .other => inIgnored

def Mask.ofBits (bits : ℕ) : Mask :=
  if bits = inAttrib ||| inIsdir then .attrib
  else if bits = inCreate ||| inIsdir then .create
  else if bits = inDelete ||| inIsdir then .delete
  else .other

theorem Mask.ofBits_bits (mask : Mask) : ofBits mask.bits = mask := by
  cases mask <;> decide

def byteOf (c : Char) : UInt8 := UInt8.ofNat c.toNat

def charOf (b : UInt8) : Char := Char.ofNat b.toNat

structure NameFits (name : CString) : Prop where
  length : name.length ≤ nameMax
  bytes : ∀ c ∈ name, 0 < c.toNat ∧ c.toNat < 256

instance (name : CString) : Decidable (NameFits name) :=
  haveI := List.decidableBAll (fun c : Char => 0 < c.toNat ∧ c.toNat < 256) name
  decidable_of_iff (name.length ≤ nameMax ∧ ∀ c ∈ name, 0 < c.toNat ∧ c.toNat < 256)
    ⟨fun h => ⟨h.1, h.2⟩, fun h => ⟨h.1, h.2⟩⟩

/-- The `len` of a record: the name with its NUL, rounded up to the size of the
header, or nothing. -/
def paddedLength (length : ℕ) : ℕ :=
  if length = 0 then 0 else (length + inotifyEventSize) / inotifyEventSize * inotifyEventSize

/-- The record that the kernel writes; the cookie is only used for renames. -/
def encodeEvent (i : InotifyEvent) : List UInt8 :=
  leBytes 4 i.wd ++ leBytes 4 i.mask.bits ++ leBytes 4 0 ++
    leBytes 4 (paddedLength i.name.length) ++
    (i.name.map byteOf ++ List.replicate (paddedLength i.name.length - i.name.length) 0)

/-- The event at `p`, and `p` after it. Without the whole record, the code would
read beyond what was read. The name ends with the first NUL. -/
def parseEvent (p : List UInt8) : Option (InotifyEvent × List UInt8) :=
  let len := leValue ((p.drop 12).take 4)
  if p.length < inotifyEventSize + len then none
  else
    some (⟨leValue (p.take 4), Mask.ofBits (leValue ((p.drop 4).take 4)),
      (((p.drop inotifyEventSize).take len).takeWhile (· ≠ 0)).map charOf⟩,
      p.drop (inotifyEventSize + len))

structure InotifyEvent.Fits (i : InotifyEvent) : Prop where
  wd : i.wd < 0x80000000
  name : NameFits i.name

theorem charOf_byteOf {c : Char} (h : c.toNat < 256) : charOf (byteOf c) = c := by
  have hbyte : (UInt8.ofNat c.toNat).toNat = c.toNat := by
    rw [UInt8.toNat_ofNat']
    omega
  rw [charOf, byteOf, hbyte, Char.ofNat_toNat]

theorem byteOf_ne_zero {c : Char} (hpos : 0 < c.toNat) (h : c.toNat < 256) : byteOf c ≠ 0 := by
  intro hzero
  have hbyte : (byteOf c).toNat = c.toNat := by
    rw [byteOf, UInt8.toNat_ofNat']
    omega
  rw [hzero] at hbyte
  exact absurd hbyte.symm hpos.ne'

theorem takeWhile_paddedName {name : CString} (h : NameFits name) (k : ℕ) :
    ((name.map byteOf ++ List.replicate k 0).takeWhile (· ≠ 0)).map charOf = name := by
  have hname : ∀ b ∈ name.map byteOf, decide (b ≠ 0) = true := by
    intro b hb
    obtain ⟨c, hc, rfl⟩ := List.mem_map.mp hb
    exact decide_eq_true (byteOf_ne_zero (h.bytes c hc).1 (h.bytes c hc).2)
  have hzeros : (List.replicate k (0 : UInt8)).takeWhile (· ≠ 0) = [] := by
    cases k <;> simp [List.replicate_succ]
  rw [List.takeWhile_append_of_pos hname, hzeros, List.append_nil, List.map_map]
  exact (List.map_congr_left fun c hc => charOf_byteOf (h.bytes c hc).2).trans (List.map_id name)

theorem le_paddedLength (length : ℕ) : length ≤ paddedLength length := by
  unfold paddedLength inotifyEventSize
  split <;> omega

theorem paddedLength_le {length : ℕ} (h : length ≤ nameMax) :
    paddedLength length ≤ nameMax + 1 := by
  unfold nameMax at h
  unfold paddedLength inotifyEventSize nameMax
  split <;> omega

theorem length_encodeEvent (i : InotifyEvent) :
    (encodeEvent i).length = inotifyEventSize + paddedLength i.name.length := by
  have hle := le_paddedLength i.name.length
  simp only [encodeEvent, List.length_append, length_leBytes, List.length_map,
    List.length_replicate, inotifyEventSize]
  omega

/-- A record is at most a tenth of the buffer. -/
theorem length_encodeEvent_le {i : InotifyEvent} (h : i.Fits) :
    (encodeEvent i).length ≤ inotifyEventSize + nameMax + 1 := by
  rw [length_encodeEvent]
  have hle := paddedLength_le h.name.length
  omega

/-- The walk finds the event that the kernel wrote, and the end of its record. -/
theorem parseEvent_encodeEvent {i : InotifyEvent} (h : i.Fits) (rest : List UInt8) :
    parseEvent (encodeEvent i ++ rest) = some (i, rest) := by
  have hlen : paddedLength i.name.length < 256 ^ 4 :=
    (paddedLength_le h.name.length).trans_lt (by decide)
  have hwd : i.wd < 256 ^ 4 := h.wd.trans (by decide)
  have hbits : i.mask.bits < 256 ^ 4 := by cases i.mask <;> decide
  set padded := paddedLength i.name.length with hpadded
  set name := i.name.map byteOf ++ List.replicate (padded - i.name.length) 0 with hname
  have hnamelen : name.length = padded := by
    have hle := le_paddedLength i.name.length
    simp only [hname, List.length_append, List.length_map, List.length_replicate]
    omega
  have hrecord : encodeEvent i ++ rest = leBytes 4 i.wd ++ (leBytes 4 i.mask.bits ++
      (leBytes 4 0 ++ (leBytes 4 padded ++ (name ++ rest)))) := by
    simp only [encodeEvent, ← hpadded, ← hname, List.append_assoc]
  have hdrop12 : (encodeEvent i ++ rest).drop 12 = leBytes 4 padded ++ (name ++ rest) := by
    rw [hrecord]
    rfl
  have hdrop16 : (encodeEvent i ++ rest).drop inotifyEventSize = name ++ rest := by
    rw [hrecord]
    rfl
  have hfield : leValue (((encodeEvent i ++ rest).drop 12).take 4) = padded := by
    rw [hdrop12]
    exact leValue_leBytes hlen
  have htotal : ¬ (encodeEvent i ++ rest).length < inotifyEventSize + padded := by
    rw [List.length_append, length_encodeEvent]
    omega
  have htake : (name ++ rest).take padded = name := by
    rw [← hnamelen, List.take_left]
  have hrest : (encodeEvent i ++ rest).drop (inotifyEventSize + padded) = rest := by
    rw [← List.drop_drop, hdrop16, ← hnamelen, List.drop_left]
  have hdecoded : (name.takeWhile (· ≠ 0)).map charOf = i.name := takeWhile_paddedName h.name _
  have hfirst : leValue ((leBytes 4 i.wd ++ (leBytes 4 i.mask.bits ++ (leBytes 4 0 ++
      (leBytes 4 padded ++ (name ++ rest))))).take 4) = i.wd := leValue_leBytes hwd
  have hsecond : leValue (((leBytes 4 i.wd ++ (leBytes 4 i.mask.bits ++ (leBytes 4 0 ++
      (leBytes 4 padded ++ (name ++ rest))))).drop 4).take 4) = i.mask.bits :=
    leValue_leBytes hbits
  simp only [parseEvent, hfield, if_neg htotal, hdrop16, htake, hrest, hdecoded]
  rw [hrecord, hfirst, hsecond, Mask.ofBits_bits]

def eventFormat : Format InotifyEvent UInt8 where
  encode := encodeEvent
  parse := parseEvent
  Valid := InotifyEvent.Fits
  encode_ne_nil i := by
    rw [← List.length_pos_iff, length_encodeEvent]
    exact Nat.add_pos_left (by decide) _
  parse_encode _ := parseEvent_encodeEvent

/-! ### Events that come before the queue -/

def Kernel.behind (k : Kernel) (events : List InotifyEvent) : Kernel :=
  { k with queue := events ++ k.queue }

namespace Kernel

variable {k : Kernel}

structure Fits (k : Kernel) : Prop where
  queue : ∀ i ∈ k.queue, i.Fits
  watches : ∀ path wd, k.watches path = some wd → wd < 0x80000000

theorem fits_init (root : CString) : Fits (init root) := ⟨by simp [init], by simp [init]⟩

theorem Fits.notify (h : Fits k) {dir name : CString} (hname : NameFits name) (mask : Mask) :
    Fits (k.notify dir mask name) := by
  refine ⟨fun i hi => ?_, h.watches⟩
  rcases mem_notify_queue.mp hi with hi | ⟨wd, hwd, rfl⟩
  · exact h.queue i hi
  · exact ⟨h.watches dir wd hwd, hname⟩

theorem Fits.mkdir (h : Fits k) {k' : Kernel} {dir name : CString} (hname : NameFits name)
    (hk : k.mkdir dir name = some k') : Fits k' := by
  simp only [Kernel.mkdir, Option.ite_none_right_eq_some, Option.some.injEq] at hk
  obtain ⟨_, rfl⟩ := hk
  have hmade : Fits { k with
      dirs := k.dirs.insert (childPath dir name) k.clock
      clock := k.clock + 1 } := ⟨h.queue, h.watches⟩
  exact hmade.notify hname _

theorem Fits.rmdir (h : Fits k) {k' : Kernel} {dir name : CString} (hname : NameFits name)
    (hk : k.rmdir dir name = some k') : Fits k' := by
  simp only [Kernel.rmdir, Option.ite_none_right_eq_some, Option.some.injEq] at hk
  obtain ⟨_, rfl⟩ := hk
  have hremoved : Fits { k with
      dirs := k.dirs.erase (childPath dir name)
      watches := Function.update k.watches (childPath dir name) none } := by
    refine ⟨h.queue, fun path wd hwatch => ?_⟩
    dsimp only at hwatch
    rw [Function.update_apply] at hwatch
    split at hwatch
    · cases hwatch
    · exact h.watches path wd hwatch
  exact hremoved.notify hname _

theorem Fits.answer (h : Fits k) {k' : Kernel} {o : Oracle} {task : Task DirStream}
    {answer : Answer DirStream} (hfresh : o.fresh < 0x80000000)
    (hk : k.answer o task = some (answer, k')) : Fits k' := by
  refine ⟨(answer_frame hk).2 ▸ h.queue, fun path wd hwatch => ?_⟩
  rcases answer_cases hk with ⟨_, _, _, _, _, hadd⟩ | ⟨_, _, rfl⟩ | ⟨_, rfl⟩
  · simp only [addWatch] at hadd
    split at hadd
    · split at hadd
      · cases hadd
        exact h.watches path wd hwatch
      · split at hadd
        · cases hadd
          dsimp only at hwatch
          rw [Function.update_apply] at hwatch
          split at hwatch
          · cases hwatch
            exact hfresh
          · exact h.watches path wd hwatch
        · cases hadd
    · cases hadd
  · exact h.watches path wd (watches_rmWatch.mp hwatch).1
  · exact h.watches path wd hwatch

end Kernel

def Watching.behind (s : Watching) (events : List InotifyEvent) : Watching :=
  { s with kernel := s.kernel.behind events }

theorem arrives_behind (events : List InotifyEvent) : Arrives (events ++ ·) :=
  fun queue i _ => (List.append_assoc events queue [i]).symm

/-- Only taking an event from the queue depends on them. -/
theorem Watching.step_behind (s : Watching) (events : List InotifyEvent) {move : Move}
    (hmove : move ≠ .dispatch) :
    (s.behind events).step move = (s.step move).map (behind · events) :=
  step_requeue (arrives_behind events) s hmove

/-- What the moves that are not dispatches change. -/
theorem Watching.step_cases {s t : Watching} {move : Move} (hmove : move ≠ .dispatch)
    (hs : s.step move = some t) :
    (∃ dir name k, move = .mkdir dir name ∧ s.kernel.mkdir dir name = some k ∧
      t = { s with kernel := k }) ∨
    (∃ dir name k, move = .rmdir dir name ∧ s.kernel.rmdir dir name = some k ∧
      t = { s with kernel := k }) ∨
    (move = .start ∧ t = { s with stack := s.monitor.start, started := true }) ∨
    (∃ o task answer, move = .run o ∧ s.kernel.answer o task = some (answer, t.kernel) ∧
      t.started = s.started) := by
  cases move with
  | mkdir dir name =>
      obtain ⟨k, hk, rfl⟩ := Option.map_eq_some_iff.mp hs
      exact .inl ⟨dir, name, k, rfl, hk, rfl⟩
  | rmdir dir name =>
      obtain ⟨k, hk, rfl⟩ := Option.map_eq_some_iff.mp hs
      exact .inr (.inl ⟨dir, name, k, rfl, hk, rfl⟩)
  | start =>
      simp only [step, Option.ite_none_left_eq_some, Option.some.injEq] at hs
      exact .inr (.inr (.inl ⟨rfl, hs.2.symm⟩))
  | dispatch => exact absurd rfl hmove
  | run o =>
      simp only [step] at hs
      split at hs
      · cases hs
      · next task rest _ =>
        obtain ⟨⟨answer, kernel⟩, hanswer, hs⟩ := Option.bind_eq_some_iff.mp hs
        obtain ⟨_, _, hs⟩ := Option.bind_eq_some_iff.mp hs
        cases hs
        exact .inr (.inr (.inr ⟨o, task, answer, rfl, hanswer, rfl⟩))

/-! ### The monitor with its buffer -/

/-- The monitor between two reads: what `buffer` still holds from `p` on, and whether
`received_inotify_data` is still a source of the main loop. -/
structure Reading where
  watching : Watching
  buffer : List UInt8
  channelWatch : Bool

/-- `read` takes from the queue, `handle` is one pass of the loop over the buffer. -/
inductive ReadMove
  | world (move : Move)
  | read
  | handle

def ReadMove.plain : ReadMove → Option Move
  | .world move => some move
  | .read => none
  | .handle => some .dispatch

namespace Reading

def init (uid : Uid) : Reading := ⟨Watching.init uid, [], true⟩

/-- `g_io_channel_read_chars` and what is made of its status. The kernel refuses to
read nothing with `EINVAL`, whereupon the source is removed. -/
def receive (s : Reading) : Reading :=
  match eventFormat.takeWhole (inotifyEventBufLen - 1) s.watching.kernel.queue with
  | ([], _) => { s with channelWatch := false }
  | (events, queue) =>
      { s with
        watching := { s.watching with kernel := { s.watching.kernel with queue := queue } }
        buffer := eventFormat.encodeAll events }

def step (s : Reading) : ReadMove → Option Reading
  | .world .dispatch => none
  | .world move => (s.watching.step move).map fun watching => { s with watching := watching }
  | .read =>
      if s.watching.started ∧ s.channelWatch ∧ s.watching.stack = [] ∧ s.buffer = [] ∧
          s.watching.kernel.queue ≠ [] then some s.receive
      else none
  | .handle =>
      if s.watching.stack = [] then
        (parseEvent s.buffer).map fun (i, buffer) =>
          let (monitor, tasks) := s.watching.monitor.handleInotifyEvent i
          { s with
            watching := { s.watching with monitor := monitor, stack := tasks }
            buffer := buffer }
      else none

/-- Names of directories and watch descriptors are such as the kernel makes them. -/
def Fits (_ : Reading) : ReadMove → Prop
  | .world (.mkdir _ name) | .world (.rmdir _ name) => NameFits name
  | .world (.run o) => o.fresh < 0x80000000
  | _ => True

instance (s : Reading) : (move : ReadMove) → Decidable (Fits s move)
  | .world (.mkdir _ name) | .world (.rmdir _ name) => inferInstanceAs (Decidable (NameFits name))
  | .world (.run o) => inferInstanceAs (Decidable (o.fresh < 0x80000000))
  | .world .start | .world .dispatch | .read | .handle => isTrue trivial

/-- The buffer holds whole events, and the source is in place. -/
structure Holds (s : Reading) (events : List InotifyEvent) : Prop where
  buffer : s.buffer = eventFormat.encodeAll events
  fits : ∀ i ∈ events, i.Fits
  kernel : s.watching.kernel.Fits
  started : s.watching.started = false → events = []
  channelWatch : s.channelWatch = true

def pending (s : Reading) : List InotifyEvent :=
  (eventFormat.parseAll s.buffer.length s.buffer).getD []

def unread (s : Reading) : Watching := s.watching.behind s.pending

variable {s s' : Reading} {events : List InotifyEvent}

theorem holds_init (uid : Uid) : Holds (init uid) [] where
  buffer := rfl
  fits := by simp
  kernel := Kernel.fits_init _
  started := fun _ => rfl
  channelWatch := rfl

theorem Holds.parse (h : Holds s events) :
    parseEvent s.buffer = events.head?.map fun i => (i, eventFormat.encodeAll events.tail) := by
  rw [h.buffer]
  cases events with
  | nil => rfl
  | cons i rest =>
      exact Format.parse_encodeAll_cons (F := eventFormat) (h.fits i List.mem_cons_self)

theorem Holds.world (h : Holds s events) {move : Move} (hfits : Fits s (.world move))
    {watching : Watching} (hs : s.watching.step move = some watching) (hmove : move ≠ .dispatch) :
    Holds { s with watching := watching } events := by
  have hkernel : watching.kernel.Fits ∧
      (watching.started = false → s.watching.started = false) := by
    rcases Watching.step_cases hmove hs with ⟨dir, name, k, rfl, hk, rfl⟩ |
      ⟨dir, name, k, rfl, hk, rfl⟩ | ⟨rfl, rfl⟩ | ⟨o, task, answer, rfl, hanswer, hstarted⟩
    · exact ⟨h.kernel.mkdir hfits hk, id⟩
    · exact ⟨h.kernel.rmdir hfits hk, id⟩
    · exact ⟨h.kernel, Bool.noConfusion⟩
    · exact ⟨h.kernel.answer hfits hanswer, fun hfalse => hstarted ▸ hfalse⟩
  exact ⟨h.buffer, h.fits, hkernel.1, fun hstarted => h.started (hkernel.2 hstarted),
    h.channelWatch⟩

/-- What a read leaves: the events of the queue, now on both sides of the descriptor. -/
theorem receive_eq (h : s.watching.kernel.Fits) (hqueue : s.watching.kernel.queue ≠ []) :
    ∃ events queue, events ++ queue = s.watching.kernel.queue ∧
      (9 ≤ events.length ∨ queue = []) ∧
      (eventFormat.encodeAll events).length < inotifyEventBufLen ∧
      s.receive = { s with
        watching := { s.watching with kernel := { s.watching.kernel with queue := queue } }
        buffer := eventFormat.encodeAll events } := by
  cases htaken : eventFormat.takeWhole (inotifyEventBufLen - 1) s.watching.kernel.queue with
  | mk events queue =>
      have happend : events ++ queue = s.watching.kernel.queue := by
        have hwhole := eventFormat.takeWhole_append (inotifyEventBufLen - 1)
          s.watching.kernel.queue
        rwa [htaken] at hwhole
      have hnine : 9 ≤ events.length ∨ queue = [] := by
        have hroom : 9 * (inotifyEventSize + nameMax + 1) ≤ inotifyEventBufLen - 1 := by decide
        have hle := Format.le_length_takeWhole (F := eventFormat)
          (fun i hi => length_encodeEvent_le (h.queue i hi)) hroom
        rwa [htaken] at hle
      have hroom : (eventFormat.encodeAll events).length < inotifyEventBufLen := by
        have hle := eventFormat.length_takeWhole_le (inotifyEventBufLen - 1)
          s.watching.kernel.queue
        rw [htaken] at hle
        exact Nat.lt_of_le_pred (by decide) hle
      refine ⟨events, queue, happend, hnine, hroom, ?_⟩
      cases events with
      | nil =>
          have hnil : queue = [] := hnine.resolve_left (by decide)
          rw [hnil] at happend
          exact absurd happend.symm hqueue
      | cons i rest => simp only [receive, htaken]

theorem Holds.pending (h : Holds s events) : s.pending = events := by
  have hall : eventFormat.parseAll s.buffer.length s.buffer = some events := by
    rw [h.buffer]
    exact Format.parseAll_encodeAll h.fits (Format.length_le_length_encodeAll events)
  rw [Reading.pending, hall, Option.getD_some]

theorem Holds.read (h : Holds s events) (hs : s.step .read = some s') :
    ∃ taken, Holds s' taken ∧ s'.watching.behind taken = s.watching.behind events ∧
      taken ++ s'.watching.kernel.queue = s.watching.kernel.queue ∧
      s.watching.kernel.queue ≠ [] ∧
      (9 ≤ taken.length ∨ s'.watching.kernel.queue = []) ∧
      s'.buffer.length < inotifyEventBufLen := by
  simp only [Reading.step, Option.ite_none_right_eq_some, Option.some.injEq] at hs
  obtain ⟨⟨hstarted, -, -, hbuffer, hqueue⟩, rfl⟩ := hs
  have hnil : events = [] := Format.encodeAll_eq_nil.mp (h.buffer.symm.trans hbuffer)
  obtain ⟨taken, queue, happend, hnine, hroom, hreceive⟩ := receive_eq h.kernel hqueue
  have hfit (i : InotifyEvent) (hi : i ∈ taken ++ queue) : i.Fits :=
    h.kernel.queue i (happend ▸ hi)
  rw [hreceive]
  refine ⟨taken, ⟨rfl, fun i hi => hfit i (List.mem_append_left _ hi), ?_, ?_,
    h.channelWatch⟩, ?_, happend, hqueue, hnine, hroom⟩
  · exact ⟨fun i hi => hfit i (List.mem_append_right _ hi), h.kernel.watches⟩
  · intro hfalse
    cases hstarted.symm.trans hfalse
  · simp only [Watching.behind, Kernel.behind, happend, hnil, List.nil_append]

/-- A step is one of the monitor that takes events one by one, or none. -/
theorem Holds.step (h : Holds s events) {move : ReadMove} (hfits : Fits s move)
    (hs : s.step move = some s') :
    ∃ events', Holds s' events' ∧
      match move.plain with
      | none => s'.watching.behind events' = s.watching.behind events
      | some plain =>
          (s.watching.behind events).step plain = some (s'.watching.behind events') := by
  cases move with
  | world move =>
      have hmove : move ≠ .dispatch := by
        rintro rfl
        cases hs
      have hmap : (s.watching.step move).map (fun w => { s with watching := w }) = some s' := by
        cases move <;> first | exact hs | cases hs
      obtain ⟨watching, hwatching, rfl⟩ := Option.map_eq_some_iff.mp hmap
      refine ⟨events, h.world hfits hwatching hmove, ?_⟩
      simp only [ReadMove.plain]
      rw [Watching.step_behind _ _ hmove, hwatching, Option.map_some]
  | read =>
      obtain ⟨taken, hholds, htaken, -⟩ := h.read hs
      exact ⟨taken, hholds, htaken⟩
  | handle =>
      simp only [Reading.step, Option.ite_none_right_eq_some] at hs
      obtain ⟨hstack, hs⟩ := hs
      obtain ⟨⟨i, buffer⟩, hparse, rfl⟩ := Option.map_eq_some_iff.mp hs
      rw [h.parse] at hparse
      obtain ⟨rest, rfl⟩ : ∃ rest, events = i :: rest := by
        cases events with
        | nil => cases hparse
        | cons j rest =>
            cases hparse
            exact ⟨rest, rfl⟩
      cases hparse
      have hstarted : s.watching.started = true := by
        cases hcase : s.watching.started with
        | true => rfl
        | false => cases h.started hcase
      refine ⟨rest, ⟨rfl, fun j hj => h.fits j (List.mem_cons_of_mem i hj), h.kernel, ?_,
        h.channelWatch⟩, ?_⟩
      · intro hfalse
        cases hstarted.symm.trans hfalse
      · simp only [ReadMove.plain, Watching.step, Watching.behind, Kernel.behind, hstarted, hstack,
          List.cons_append]

/-- A step whose counterpart has to meet `C`. -/
def Meets (C : Watching → Move → Prop) (s : Reading) (move : ReadMove) : Prop :=
  Fits s move ∧ ∀ plain ∈ move.plain, C s.unread plain

instance {C : Watching → Move → Prop} [∀ s move, Decidable (C s move)] (s : Reading)
    (move : ReadMove) : Decidable (Meets C s move) := inferInstanceAs (Decidable (_ ∧ _))

theorem holds_of_reachable {C : Watching → Move → Prop} {uid : Uid}
    (h : ReachableBy step (Meets C) (init uid) s) :
    ∃ events, Holds s events ∧
      ReachableBy Watching.step C (Watching.init uid) (s.watching.behind events) := by
  have hmatched : ∃ t, ReachableBy Watching.step C (Watching.init uid) t ∧
      ∃ events, Holds s events ∧ t = s.watching.behind events := by
    apply h.simulates
    · exact ⟨[], holds_init uid, rfl⟩
    rintro s move s' _ ⟨events, hholds, rfl⟩ hmeets hs
    obtain ⟨events', hholds', hstep⟩ := hholds.step hmeets.1 hs
    cases hplain : move.plain with
    | none =>
        rw [hplain] at hstep
        exact .inl ⟨events', hholds', hstep.symm⟩
    | some plain =>
        rw [hplain] at hstep
        have hC : C (s.watching.behind events) plain := by
          rw [← hholds.pending]
          exact hmeets.2 plain hplain
        exact .inr ⟨plain, _, hC, hstep, events', hholds', rfl⟩
  obtain ⟨_, hreach, events, hholds, rfl⟩ := hmatched
  exact ⟨events, hholds, hreach⟩

/-- Reading is transparent. Whatever a run of the monitor without the buffer is asked to
meet: the run with the buffer stays on the main loop, the walk over the buffer finds a
whole record wherever it stops, and with the events of the buffer put back at the head
of the queue the state is reached without the buffer. -/
theorem unread_of_reachable {C : Watching → Move → Prop} {uid : Uid}
    (h : ReachableBy step (Meets C) (init uid) s) :
    s.channelWatch = true ∧
      (s.buffer ≠ [] → (parseEvent s.buffer).isSome = true) ∧
      s.buffer = eventFormat.encodeAll s.pending ∧
      ReachableBy Watching.step C (Watching.init uid) s.unread := by
  obtain ⟨events, hholds, hreach⟩ := holds_of_reachable h
  have hpending : s.pending = events := hholds.pending
  refine ⟨hholds.channelWatch, ?_, hpending.symm ▸ hholds.buffer, ?_⟩
  · intro hbuffer
    rw [hholds.parse]
    cases events with
    | nil => exact absurd hholds.buffer hbuffer
    | cons i rest => rfl
  · rw [unread, hpending]
    exact hreach

def twoStarted : List ReadMove :=
  [.world .start, .world (Watching.ask 1 none), .world (Watching.ask 0 none),
    .world (Watching.ask 0 none), .world (.mkdir Watching.appSlice "a.service".toList),
    .world (.mkdir Watching.appSlice "b.service".toList), .read, .handle]

theorem unread_of_reachable_twoStarted :
    let s := (checkedRun step (Meets Watching.Safe) (init 1000) twoStarted).get (by decide)
    s.buffer ≠ [] ∧ s.channelWatch = true ∧
      (s.buffer ≠ [] → (parseEvent s.buffer).isSome = true) ∧
      s.buffer = eventFormat.encodeAll s.pending ∧
      ReachableBy Watching.step Watching.Safe (Watching.init 1000) s.unread :=
  ⟨by decide, unread_of_reachable (reachableBy_checkedRun (by decide))⟩

/-- No event is lost by a read, at least nine are taken if there are that many, and the
buffer is large enough. -/
theorem read_takes {uid : Uid} (h : ReachableBy step Fits (init uid) s)
    (hread : s.step .read = some s') :
    s'.pending ++ s'.watching.kernel.queue = s.watching.kernel.queue ∧
      (9 ≤ s'.pending.length ∨ s'.watching.kernel.queue = []) ∧
      s'.pending ≠ [] ∧ s'.buffer.length < inotifyEventBufLen := by
  have hmeets : ReachableBy step (Meets fun _ _ => True) (init uid) s :=
    h.mono fun _ _ hfits => ⟨hfits, fun _ _ => trivial⟩
  obtain ⟨events, hholds, -⟩ := holds_of_reachable hmeets
  obtain ⟨taken, htaken, -, happend, hqueue, hnine, hroom⟩ := hholds.read hread
  rw [htaken.pending]
  refine ⟨happend, hnine, ?_, hroom⟩
  rintro rfl
  have hempty := hnine.resolve_left (by decide)
  rw [hempty] at happend
  exact hqueue happend.symm

theorem read_takes_twoStarted :
    let s := (checkedRun step Fits (init 1000) (twoStarted.take 6)).get (by decide)
    let s' := (s.step .read).get (by decide)
    s'.pending ++ s'.watching.kernel.queue = s.watching.kernel.queue ∧
      (9 ≤ s'.pending.length ∨ s'.watching.kernel.queue = []) ∧
      s'.pending ≠ [] ∧ s'.buffer.length < inotifyEventBufLen :=
  read_takes (reachableBy_checkedRun (by decide)) (Option.some_get _).symm

end Reading

end Uresourced
