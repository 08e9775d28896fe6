import Uresourced.AppMonitor.Visit
import Uresourced.Lib.Runs

/-!
`r-pw-monitor.c`: boosting the applications that play audio.

Every node of PipeWire has a proxy, which remembers the last info of the node.
`Playback` is the table of proxies next to the application monitor. The unit
that a node belonged to at its last info event is recorded there for the
statements; the code recomputes it at every event and keeps nothing.
-/

namespace Uresourced

open CString Runs SharedFlag

inductive PwNodeState
  | error
  | creating
  | suspended
  | idle
  | running
  deriving DecidableEq, Repr

/-- `struct pw_node_info`: the state and the properties, and which of the two an
event carries. -/
structure PwNodeInfo where
  changeMask : BitVec 64
  state : PwNodeState
  props : Option (List (CString × CString))
  deriving DecidableEq, Repr

namespace PwNodeInfo

def lookup (info : PwNodeInfo) (key : CString) : Option CString := (info.props.getD []).lookup key

def IsPulse (info : PwNodeInfo) : Prop :=
  info.lookup "client.api".toList = some "pipewire-pulse".toList

instance (info : PwNodeInfo) : Decidable info.IsPulse := inferInstanceAs (Decidable (_ = _))

/-- The process of the node. Without a number `g_ascii_strtoll` gets NULL, which is
undefined; reading 0 there only adds runs that the program does not have. -/
def appPid (info : PwNodeInfo) : Int32 :=
  Int32.ofInt (strtoll 10 ((info.lookup "application.process.id".toList).getD [])).1

def unitPath (info : PwNodeInfo) (cgroups : Cgroups) : Option CString :=
  getUnitCgroupPathFromPid (cgroups.process info.appPid)

end PwNodeInfo

/-- `node_event_info`, once `pw_node_info_update` has returned `info`. -/
def RPwMonitor.nodeEventInfo (appMonitor : RAppMonitor) (info : PwNodeInfo) (cgroups : Cgroups) :
    RAppMonitor × Option CString :=
  if info.props = none ∨ info.props = some [] then (appMonitor, none)
  else if ¬ info.IsPulse then (appMonitor, none)
  else
    match getUnitCgroupPathFromPid (cgroups.process info.appPid) with
    | none => (appMonitor, none)
    | some appPath =>
        match appMonitor.getAppInfoFromPath appPath cgroups.files with
        | (appMonitor, none) => (appMonitor, none)
        | (appMonitor, some app) =>
            match info.state with
            | .running =>
                (appMonitor.setApp appPath
                  { app with boosted := app.boosted.set boostAudio }, some appPath)
            -- whatever other nodes of the application do
            | .idle | .suspended =>
                (appMonitor.setApp appPath
                  { app with boosted := app.boosted.clear boostAudio }, some appPath)
            | _ => (appMonitor, none)

/-! ### What an info event writes -/

namespace PwNodeInfo

def audioWrite (info : PwNodeInfo) : Option (AppBoostFlags × Bool) :=
  match info.state with
  | .running => some (boostAudio, true)
  | .idle | .suspended => some (boostAudio, false)
  | _ => none

def audioPath (info : PwNodeInfo) (cgroups : Cgroups) : Option CString :=
  if info.IsPulse ∧ info.audioWrite ≠ none then info.unitPath cgroups else none

def audioVisit (info : PwNodeInfo) (cgroups : Cgroups) (path : CString) : Visit where
  path := path
  info := cgroups.files
  write := info.audioWrite
  notify := info.audioWrite.isSome

theorem audioWrite_of_some {info : PwNodeInfo} {w : AppBoostFlags × Bool}
    (h : info.audioWrite = some w) : w = (boostAudio, decide (info.state = .running)) := by
  unfold audioWrite at h
  cases hstate : info.state <;> simp_all

end PwNodeInfo

namespace RPwMonitor

theorem nodeEventInfo_of_not_pulse (m : RAppMonitor) {info : PwNodeInfo} (cgroups : Cgroups)
    (h : ¬ info.IsPulse) : nodeEventInfo m info cgroups = (m, none) := by
  simp [nodeEventInfo, h]

theorem nodeEventInfo_of_pulse (m : RAppMonitor) {info : PwNodeInfo} (cgroups : Cgroups)
    (h : info.IsPulse) :
    nodeEventInfo m info cgroups =
      match info.unitPath cgroups with
      | none => (m, none)
      | some path => m.visit (info.audioVisit cgroups path) := by
  have hprops : ¬ (info.props = none ∨ info.props = some []) := by
    rintro (hprops | hprops) <;> simp [PwNodeInfo.IsPulse, PwNodeInfo.lookup, hprops] at h
  unfold nodeEventInfo PwNodeInfo.unitPath
  rw [if_neg hprops, if_neg (not_not_intro h)]
  cases getUnitCgroupPathFromPid (cgroups.process info.appPid) with
  | none => rfl
  | some path =>
      simp only [RAppMonitor.getAppInfoFromPath_eq, RAppMonitor.visit, RAppMonitor.visited,
        PwNodeInfo.audioVisit]
      by_cases hfound : m.Found path cgroups.files
      · obtain ⟨state, hstate⟩ : ∃ state, info.state = state := ⟨_, rfl⟩
        cases state <;> simp [hfound, hstate, PwNodeInfo.audioWrite, RAppInfo.boost]
      · simp [hfound]

end RPwMonitor

/-! ### Nodes that come and go -/

/-- The `ProxyData` of a node. The unit is the one of its last info event. -/
structure PwNode where
  info : Option PwNodeInfo
  unit : Option CString
  deriving DecidableEq, Repr

/-- The node belongs to `pipewire-pulse` and to the application of the path, and
it was last reported as running. -/
def PwNode.RunsFor (node : PwNode) (path : CString) : Prop :=
  ∃ info, node.info = some info ∧ info.IsPulse ∧ info.state = .running ∧ node.unit = some path

structure Playback where
  monitor : RAppMonitor
  nodes : GHashTable ℕ PwNode

inductive PwEvent
  /-- `registry_event_global`, where `pw_registry_bind` may fail -/
  | global (id : ℕ) (type : CString) (bound : Bool)
  /-- `node_event_info` -/
  | info (id : ℕ) (event : PwNodeInfo) (cgroups : Cgroups)
  /-- `removed_proxy`, which leads to `destroy_proxy` -/
  | removed (id : ℕ)

namespace Playback

def init (monitor : RAppMonitor) : Playback := ⟨monitor, ∅⟩

def Resolves (m : RAppMonitor) (info : PwNodeInfo) (cgroups : Cgroups) : Prop :=
  ∃ path, info.unitPath cgroups = some path ∧ m.Found path cgroups.files

instance (m : RAppMonitor) (info : PwNodeInfo) (cgroups : Cgroups) :
    Decidable (Resolves m info cgroups) :=
  match h : info.unitPath cgroups with
  | none => isFalse fun ⟨_, hunit, _⟩ => nomatch h.symm.trans hunit
  | some path =>
      if hfound : m.Found path cgroups.files then isTrue ⟨path, h, hfound⟩
      else isFalse fun ⟨_, hunit, hfound'⟩ =>
        hfound (Option.some.inj (h.symm.trans hunit) ▸ hfound')

/-- `update` is `pw_node_info_update`. A node whose process does not resolve is
left out. -/
def step (update : Option PwNodeInfo → PwNodeInfo → PwNodeInfo) (s : Playback) :
    PwEvent → Option Playback
  | .global id type bound =>
      if id ∈ s.nodes then none
      else if type = "PipeWire:Interface:Node".toList ∧ bound then
        some { s with nodes := s.nodes.insert id ⟨none, none⟩ }
      else some s
  | .info id event cgroups =>
      (s.nodes.lookup id).bind fun node =>
        let info := update node.info event
        if Resolves s.monitor info cgroups then
          some {
            monitor := (RPwMonitor.nodeEventInfo s.monitor info cgroups).1
            nodes := s.nodes.insert id ⟨some info, info.unitPath cgroups⟩ }
        else none
  | .removed id =>
      if id ∈ s.nodes then some { s with nodes := s.nodes.erase id } else none

def Playing (s : Playback) (id : ℕ) (path : CString) : Prop :=
  ∃ node, s.nodes.lookup id = some node ∧ node.RunsFor path

def AudioFollows (s : Playback) : Prop := s.monitor.FlagFollows boostAudio s.Playing

/-- The events that the flag survives: a node that was playing stops to play for
its application, other than by a write of the flag there, only while another node
plays for it; and a node pauses only while no other node plays for its
application. -/
def Keeps (update : Option PwNodeInfo → PwNodeInfo → PwNodeInfo) (s : Playback) :
    PwEvent → Prop
  | .global _ _ _ => True
  | .info id event cgroups =>
      ∀ node, s.nodes.lookup id = some node →
        let info := update node.info event
        (∀ path, s.Playing id path → info.audioPath cgroups ≠ some path →
          Others s.Playing id path) ∧
        ∀ path, info.audioPath cgroups = some path → info.state ≠ .running →
          ¬ Others s.Playing id path
  | .removed id => ∀ path, s.Playing id path → Others s.Playing id path

variable {update : Option PwNodeInfo → PwNodeInfo → PwNodeInfo} {s t : Playback}

def Known (s : Playback) : Prop := ∀ id path, s.Playing id path → path ∈ s.monitor.appInfo

/-! ### One event -/

theorem playing_insert (m : RAppMonitor) (id j : ℕ) (node : PwNode) (path : CString) :
    Playing ⟨m, s.nodes.insert id node⟩ j path ↔
      if j = id then node.RunsFor path else s.Playing j path := by
  simp only [Playing, GHashTable.lookup_insert]
  split <;> simp

theorem playing_erase (m : RAppMonitor) (id j : ℕ) (path : CString) :
    Playing ⟨m, s.nodes.erase id⟩ j path ↔ j ≠ id ∧ s.Playing j path := by
  simp only [Playing, GHashTable.lookup_erase]
  split
  · next h => simp [h]
  · next h => simp [h]

theorem playing_global {m : RAppMonitor} {id : ℕ} (hnew : id ∉ s.nodes) (j : ℕ) (path : CString) :
    Playing ⟨m, s.nodes.insert id ⟨none, none⟩⟩ j path ↔ s.Playing j path := by
  rw [playing_insert]
  split
  · next hj =>
    subst hj
    constructor
    · rintro ⟨info, hinfo, _⟩
      cases hinfo
    · rintro ⟨node, hnode, _⟩
      cases (AList.lookup_eq_none.mpr hnew).symm.trans hnode
  · exact Iff.rfl

variable {info : PwNodeInfo} {cgroups : Cgroups}

/-- After its event a node plays exactly where the event has set the flag. -/
theorem runsFor_iff (path : CString) :
    PwNode.RunsFor ⟨some info, info.unitPath cgroups⟩ path ↔
      info.audioPath cgroups = some path ∧ decide (info.state = .running) = true := by
  rw [decide_eq_true_iff]
  constructor
  · rintro ⟨info', hinfo, hpulse, hrunning, hunit⟩
    cases hinfo
    refine ⟨?_, hrunning⟩
    rw [PwNodeInfo.audioPath, if_pos ⟨hpulse, by simp [PwNodeInfo.audioWrite, hrunning]⟩]
    exact hunit
  · rintro ⟨hpath, hrunning⟩
    rw [PwNodeInfo.audioPath] at hpath
    split at hpath
    · next h => exact ⟨info, rfl, h.1, hrunning, hpath⟩
    · cases hpath

theorem written_nodeEventInfo {m : RAppMonitor} (h : Resolves m info cgroups) :
    Written (m.Boosted boostAudio)
      ((RPwMonitor.nodeEventInfo m info cgroups).1.Boosted boostAudio)
      (info.audioPath cgroups) (decide (info.state = .running)) := by
  obtain ⟨path, hunit, hfound⟩ := h
  by_cases hpulse : info.IsPulse
  · rw [RPwMonitor.nodeEventInfo_of_pulse m cgroups hpulse, hunit]
    cases hwrite : info.audioWrite with
    | none =>
        rw [PwNodeInfo.audioPath, if_neg fun hneg => hneg.2 hwrite]
        exact m.written_visit_silent boostAudio hwrite _
    | some w =>
        obtain rfl := PwNodeInfo.audioWrite_of_some hwrite
        rw [PwNodeInfo.audioPath, if_pos ⟨hpulse, by simp [hwrite]⟩, hunit]
        exact m.written_visit (v := info.audioVisit cgroups path) (by decide) hwrite hfound
  · rw [RPwMonitor.nodeEventInfo_of_not_pulse m cgroups hpulse, PwNodeInfo.audioPath,
      if_neg fun hneg => hpulse hneg.1]
    intro k
    simp

theorem mem_appInfo_nodeEventInfo {m : RAppMonitor} {k : CString}
    (hk : k ∈ m.appInfo ∨ (Resolves m info cgroups ∧ info.audioPath cgroups = some k)) :
    k ∈ (RPwMonitor.nodeEventInfo m info cgroups).1.appInfo := by
  by_cases hpulse : info.IsPulse
  · rw [RPwMonitor.nodeEventInfo_of_pulse m cgroups hpulse]
    cases hunit : info.unitPath cgroups with
    | none =>
        rcases hk with hk | ⟨⟨path, hpath, _⟩, _⟩
        · exact hk
        · cases hunit.symm.trans hpath
    | some path =>
        apply (m.mem_appInfo_visit _ k).mpr
        rcases hk with hk | ⟨⟨path', hpath', hfound⟩, haudio⟩
        · exact .inr hk
        · cases hunit.symm.trans hpath'
          rw [PwNodeInfo.audioPath] at haudio
          split at haudio
          · exact .inl ⟨Option.some.inj (haudio.symm.trans hunit), hfound⟩
          · cases haudio
  · rw [RPwMonitor.nodeEventInfo_of_not_pulse m cgroups hpulse]
    apply hk.resolve_right
    rintro ⟨_, haudio⟩
    rw [PwNodeInfo.audioPath, if_neg fun hneg => hpulse hneg.1] at haudio
    cases haudio

/-- What an event can do. -/
theorem step_cases {e : PwEvent} (h : step update s e = some t) :
    (∃ id type bound, e = .global id type bound ∧ t.monitor = s.monitor ∧
      ∀ j path, t.Playing j path ↔ s.Playing j path) ∨
    (∃ id event cgroups node, e = .info id event cgroups ∧ s.nodes.lookup id = some node ∧
      Resolves s.monitor (update node.info event) cgroups ∧
      t = ⟨(RPwMonitor.nodeEventInfo s.monitor (update node.info event) cgroups).1,
        s.nodes.insert id ⟨some (update node.info event),
          (update node.info event).unitPath cgroups⟩⟩) ∨
    (∃ id, e = .removed id ∧ t = ⟨s.monitor, s.nodes.erase id⟩) := by
  cases e with
  | global id type bound =>
      refine .inl ⟨id, type, bound, rfl, ?_⟩
      simp only [step] at h
      split at h
      · cases h
      · next hnew =>
        split at h
        · cases h
          exact ⟨rfl, fun j path => playing_global hnew j path⟩
        · cases h
          exact ⟨rfl, fun j path => Iff.rfl⟩
  | info id event cgroups =>
      obtain ⟨node, hnode, h⟩ := Option.bind_eq_some_iff.mp h
      simp only at h
      split at h
      · next hresolves =>
        cases h
        exact .inr (.inl ⟨id, event, cgroups, node, rfl, hnode, hresolves, rfl⟩)
      · cases h
  | removed id =>
      simp only [step] at h
      split at h
      · cases h
        exact .inr (.inr ⟨id, rfl, rfl⟩)
      · cases h

theorem Known.step {e : PwEvent} (h : s.Known) (hs : Playback.step update s e = some t) :
    t.Known := by
  intro j path hplaying
  rcases step_cases hs with ⟨_, _, _, _, hmonitor, hsame⟩ |
    ⟨id, event, cgroups, node, _, _, hresolves, rfl⟩ | ⟨id, _, rfl⟩
  · rw [hmonitor]
    exact h j path ((hsame j path).mp hplaying)
  · apply mem_appInfo_nodeEventInfo
    rw [playing_insert] at hplaying
    split at hplaying
    · exact .inr ⟨hresolves, ((runsFor_iff path).mp hplaying).1⟩
    · exact .inl (h j path hplaying)
  · exact h j path ((playing_erase _ id j path).mp hplaying).2

/-- The flags follow the playing streams afterwards exactly if the event is one that
they survive. -/
theorem audioFollows_step_iff {e : PwEvent} (hknown : s.Known) (hfollows : s.AudioFollows)
    (hs : step update s e = some t) : t.AudioFollows ↔ Keeps update s e := by
  rw [AudioFollows, RAppMonitor.flagFollows_iff _ hknown] at hfollows
  rw [AudioFollows, RAppMonitor.flagFollows_iff _ (hknown.step hs)]
  rcases step_cases hs with ⟨id, type, bound, rfl, hmonitor, hsame⟩ |
    ⟨id, event, cgroups, node, rfl, hnode, hresolves, rfl⟩ | ⟨id, rfl, rfl⟩
  · refine iff_of_true ?_ trivial
    intro path
    rw [hmonitor, hfollows path]
    exact exists_congr fun j => (hsame j path).symm
  · refine (hfollows.replace_iff (i := id) (fun j hj path => ?_)
      (written_nodeEventInfo hresolves) fun path => ?_).trans ?_
    · rw [playing_insert, if_neg hj]
    · rw [playing_insert, if_pos rfl, runsFor_iff]
    · constructor
      · rintro h node' hnode'
        cases hnode.symm.trans hnode'
        exact ⟨h.1, fun path hpath hstate => h.2 path hpath (decide_eq_false hstate)⟩
      · intro h
        obtain ⟨hgiven, hcleared⟩ := h node hnode
        exact ⟨hgiven, fun path hpath hstate => hcleared path hpath (of_decide_eq_false hstate)⟩
  · have hkept : Written (s.monitor.Boosted boostAudio) (s.monitor.Boosted boostAudio) none
        false := fun path => by simp
    refine (hfollows.replace_iff (i := id) (fun j hj path => ?_) hkept fun path => ?_).trans ?_
    · rw [playing_erase]
      exact and_iff_right hj
    · simp [playing_erase]
    · simp [Keeps]

/-- In all states of a run the audio boost follows the set of playing streams, exactly
if the run consists of events that it survives. -/
theorem audioFollows_iff_keeps (update : Option PwNodeInfo → PwNodeInfo → PwNodeInfo)
    {monitor : RAppMonitor} (hsilent : ∀ path, ¬ monitor.Boosted boostAudio path)
    (es : List PwEvent) :
    AllStates (step update) AudioFollows (init monitor) es ↔
      AllSteps (step update) (Keeps update) (init monitor) es := by
  have hnobody (id : ℕ) (path : CString) : ¬ (init monitor).Playing id path := by
    rintro ⟨node, hnode, _⟩
    cases (AList.lookup_empty id).symm.trans hnode
  refine allStates_iff_allSteps (I := Known) (fun s e t hknown hs => hknown.step hs)
    (fun s e t hknown hfollows hs => audioFollows_step_iff hknown hfollows hs) ?_ ?_ es
  · exact fun id path h => absurd h (hnobody id path)
  · exact monitor.flagFollows_of_nobody hsilent hnobody

/-! ### Two streams of one application -/

/-- `pw_node_info_update` as PipeWire documents it: an event replaces what its
mask names, which is bit 2 for the state and bit 3 for the properties. -/
def documentedUpdate (info : Option PwNodeInfo) (event : PwNodeInfo) : PwNodeInfo :=
  let old := info.getD ⟨0, .creating, none⟩
  { changeMask := old.changeMask ||| event.changeMask
    state := if event.changeMask.getLsbD 2 then event.state else old.state
    props := if event.changeMask.getLsbD 3 then event.props else old.props }

def playerPath : CString :=
  childPath (RAppMonitor.init 1000).appSlicePath "player.service".toList

def playerEvent (id : ℕ) (state : PwNodeState) : PwEvent :=
  .info id
    ⟨12, state, some [("client.api".toList, "pipewire-pulse".toList),
      ("application.process.id".toList, "42".toList)]⟩
    ⟨fun _ => ⟨some (playerPath.drop 14), some "player.service".toList⟩,
      ⟨true, none, none, none, 1⟩⟩

/-- Two streams play, and the first one pauses. -/
def pausedStream : List PwEvent :=
  [.global 1 "PipeWire:Interface:Node".toList true, playerEvent 1 .running,
    .global 2 "PipeWire:Interface:Node".toList true, playerEvent 2 .running,
    playerEvent 1 .idle]

/-- The second stream plays on, and the flag is cleared. -/
theorem not_allStates_pausedStream :
    ¬ AllStates (step documentedUpdate) AudioFollows (init (RAppMonitor.init 1000))
      pausedStream := by
  intro h
  let s := (run (step documentedUpdate) (init (RAppMonitor.init 1000)) pausedStream).get
    (by decide)
  have hfollows : AudioFollows s := h.last (Option.some_get _).symm
  have happ := hfollows playerPath ((s.monitor.appInfo.lookup playerPath).get (by decide))
    (Option.some_get _).symm
  have hflag := happ.mpr ⟨2, (s.nodes.lookup 2).get (by decide), (Option.some_get _).symm,
    ((s.nodes.lookup 2).bind PwNode.info).get (by decide), by decide, by decide, by decide,
    by decide⟩
  exact absurd hflag (by decide)

theorem not_audioFollows_pausedStream :
    ¬ ∀ es, AllStates (step documentedUpdate) AudioFollows (init (RAppMonitor.init 1000)) es :=
  fun h => not_allStates_pausedStream (h pausedStream)

theorem audioFollows_iff_keeps_pausedStream :
    ¬ AllSteps (step documentedUpdate) (Keeps documentedUpdate) (init (RAppMonitor.init 1000))
      pausedStream :=
  fun h => not_allStates_pausedStream
    ((audioFollows_iff_keeps documentedUpdate (RAppMonitor.not_boosted_init 1000 boostAudio)
      pausedStream).mpr h)

end Playback

end Uresourced
