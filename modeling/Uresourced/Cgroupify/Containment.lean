import Uresourced.Cgroupify.Leaks
import Uresourced.Cgroupify.Separation

/-!
What the moves do while processes come and go.

`Separation` is about moves that nothing disturbs. Here processes fork, exit and are
reaped between any two system calls, and any call may fail. The loop of `main` is
only left when the root of the unit is empty, and it stays empty; a process is only
ever moved into an empty subgroup of its own; and a process of another unit can only
be moved by mistake for one that was listed under its number.
-/

namespace Uresourced.Cgroupify

open Runs

/-! ### Where a process comes from -/

inductive Origin (s : State) (e : Event) (pid : CString) (q' : Process) : Prop
  /-- It was there, and is where it was. -/
  | stayed (q : Process) (hq : s.kernel.processes.lookup pid = some q)
      (hserial : q.serial = q'.serial) (hplace : q.place = q'.place)
      (hzombie : q.zombie = true → q'.zombie = true)
  /-- It was forked by a live process, and is where that one is. -/
  | born (parent : CString) (q : Process) (he : e = .fork parent pid)
      (hq : s.kernel.processes.lookup parent = some q) (hlive : q.zombie = false)
      (hserial : q'.serial = s.kernel.nextSerial) (hplace : q'.place = q.place)
  /-- It was written to the `cgroup.procs` of a subgroup. -/
  | moved (a : Answer) (f : Frame) (source inode : ℕ) (q : Process) (he : e = .answer a)
      (hpoint : s.point = .write f source inode)
      (hpid : pid = f.pid) (hq : s.kernel.processes.lookup pid = some q)
      (hq' : q' = { q with place := .subgroup inode })

variable {s t : State} {k : Kernel} {p p' : Point} {pid : CString} {q' : Process} {e : Event}

theorem Origin.same (hq' : s.kernel.processes.lookup pid = some q') : Origin s e pid q' :=
  .stayed q' hq' rfl rfl id

theorem origin_of_environment {k' : Kernel} (he : environment s.kernel e = some k')
    (hq' : k'.processes.lookup pid = some q') : Origin s e pid q' := by
  cases e with
  | fork parent child =>
      obtain ⟨q, hq, hbody⟩ := Option.bind_eq_some_iff.mp he
      split at hbody
      · next hlive =>
        obtain rfl := Option.some.inj hbody
        obtain ⟨rfl, rfl⟩ | ⟨-, hold⟩ := GHashTable.lookup_insert_eq_some.mp hq'
        · exact .born parent q rfl hq hlive.1 rfl rfl
        · exact .same hold
      · cases hbody
  | exit pid' =>
      obtain ⟨q, hq, hbody⟩ := Option.bind_eq_some_iff.mp he
      split at hbody
      · cases hbody
      · obtain rfl := Option.some.inj hbody
        obtain ⟨rfl, rfl⟩ | ⟨-, hold⟩ := GHashTable.lookup_insert_eq_some.mp hq'
        · exact .stayed q hq rfl rfl fun _ => rfl
        · exact .same hold
  | reap pid' =>
      obtain ⟨q, hq, hbody⟩ := Option.bind_eq_some_iff.mp he
      split at hbody
      · obtain rfl := Option.some.inj hbody
        exact .same (GHashTable.lookup_erase_eq_some.mp hq').2
      · cases hbody
  | merge source =>
      simp only [environment] at he
      split at he
      · obtain rfl := Option.some.inj he
        exact .same hq'
      · cases he
  | answer _ => cases he
  | timer => cases he
  | dispatch _ => cases he

theorem sources_of_environment {k' : Kernel} (he : environment k e = some k') :
    k'.sources = k.sources := by
  cases e with
  | fork _ _ | exit _ | reap _ =>
      obtain ⟨q, -, hbody⟩ := Option.bind_eq_some_iff.mp he
      split at hbody <;> cases hbody
      rfl
  | merge source =>
      simp only [environment] at he
      split at he <;> cases he
      rfl
  | answer _ => cases he
  | timer => cases he
  | dispatch _ => cases he

theorem processes_disable (k : Kernel) (source : Option ℕ) :
    (k.disable source).processes = k.processes := by
  cases source <;> rfl

theorem processes_rmdir (k : Kernel) (name : CString) :
    (k.rmdir name).1.processes = k.processes := by
  unfold Kernel.rmdir
  split
  · rfl
  · split <;> rfl

/-- An answer that removes a directory leaves the processes alone. -/
theorem processes_of_unlinkat {f : Frame} {source : Option ℕ} {r : Option Errno} {k' : Kernel}
    (h : progress k (.unlinkat f source r) .done = some (k', p')) :
    k'.processes = k.processes ∧ p' = .moved f r := by
  have hremoved := processes_rmdir k f.pid
  simp only [progress] at h
  split at h <;> next heq =>
    rw [heq] at hremoved
    obtain ⟨rfl, rfl⟩ := Prod.mk.inj (Option.some.inj h)
    first
    | exact ⟨hremoved, rfl⟩
    | exact ⟨(processes_disable _ _).trans hremoved, rfl⟩

theorem processes_of_rmdir {source : ℕ} {a : Answer} {k' : Kernel}
    (h : progress k (.rmdir source) a = some (k', p')) :
    k'.processes = k.processes ∧ p' = .idle := by
  cases a with
  | done =>
      obtain ⟨src, -, hbody⟩ := Option.map_eq_some_iff.mp h
      have hremoved := processes_rmdir k src.name
      split at hbody <;> next heq =>
        rw [heq] at hremoved
        obtain ⟨rfl, rfl⟩ := Prod.mk.inj hbody
        exact ⟨hremoved, rfl⟩
  | _ => cases h

theorem origin_of_step (hs : step s e = some t) (hq' : t.kernel.processes.lookup pid = some q') :
    Origin s e pid q' := by
  obtain ⟨k, p⟩ := s
  have henvironment (henv : (environment k e).map (fun k' => State.mk k' p) = some t) :
      Origin ⟨k, p⟩ e pid q' := by
    obtain ⟨k', hk', rfl⟩ := Option.map_eq_some_iff.mp henv
    exact origin_of_environment hk' hq'
  cases e with
  | answer a =>
      obtain ⟨⟨k', p'⟩, hprogress, rfl⟩ := Option.map_eq_some_iff.mp hs
      cases hcall : p.call with
      | some f =>
          cases callStep_of_progress hcall hprogress with
          | written source inode hq =>
              obtain ⟨rfl, rfl⟩ | ⟨-, hold⟩ := GHashTable.lookup_insert_eq_some.mp hq'
              · exact .moved a f source inode _ rfl rfl rfl hq rfl
              · exact .same hold
          | unlinked source r hdone =>
              exact .same ((processes_of_unlinkat hdone).1 ▸ hq')
          | _ => exact .same hq'
      | none =>
          by_cases hrmdir : ∃ source, p = .rmdir source
          · obtain ⟨source, rfl⟩ := hrmdir
            exact .same ((processes_of_rmdir hprogress).1 ▸ hq')
          · obtain ⟨rfl, -, -⟩ :=
              progress_elsewhere hcall (fun source heq => hrmdir ⟨source, heq⟩) hprogress
            exact .same hq'
  | timer =>
      obtain ⟨-, rfl⟩ := Option.ite_none_right_eq_some.mp hs |>.imp_right Option.some.inj
      exact .same hq'
  | dispatch source =>
      obtain ⟨-, rfl⟩ := Option.ite_none_right_eq_some.mp hs |>.imp_right Option.some.inj
      exact .same hq'
  | _ => exact henvironment hs

/-- A place stays without live processes unless one is moved there. -/
theorem members_eq_nil_of_step {place : Place} (hs : step s e = some t)
    (hempty : s.kernel.members place = [])
    (hmoved : ∀ a f source inode, e = .answer a → s.point = .write f source inode →
      place ≠ .subgroup inode) :
    t.kernel.members place = [] := by
  refine List.eq_nil_iff_forall_not_mem.mpr fun pid hpid => ?_
  obtain ⟨q', hq', rfl, hlive⟩ := Kernel.mem_members.mp hpid
  have hnobody (pid : CString) (q : Process) (hq : s.kernel.processes.lookup pid = some q)
      (hplace : q.place = q'.place) (hlive : q.zombie = false) : False :=
    List.eq_nil_iff_forall_not_mem.mp hempty pid (Kernel.mem_members.mpr ⟨q, hq, hplace, hlive⟩)
  rcases origin_of_step hs hq' with ⟨q, hq, -, hplace, hzombie⟩ |
    ⟨parent, q, -, hq, hqlive, -, hplace⟩ | ⟨a, f, source, inode, q, he, hpoint, -, -, rfl⟩
  · refine hnobody pid q hq hplace (Bool.eq_false_iff.mpr fun hdead => ?_)
    exact Bool.eq_false_iff.mp hlive (hzombie hdead)
  · exact hnobody parent q hq hplace.symm hqlive
  · exact hmoved a f source inode he hpoint rfl

/-! ### Where the program goes -/

def Point.frame : Point → Option Frame
  | .mkdirat f | .addInotify f | .openSub f _ | .write f _ _ | .unlinkat f _ _
  | .moved f _ => some f
  | _ => none

def Point.caller : Point → Option Caller
  | .openProcs caller _ | .readProcs caller _ _ => some caller
  | p => p.frame.map Frame.caller

/-- The processes that were listed and are still to be moved. -/
def Point.inLine : Point → List CString
  | .mkdirat f | .addInotify f | .openSub f _ | .write f _ _ => f.pid :: f.rest
  | .unlinkat f _ _ | .moved f _ => f.rest
  | _ => []

structure Frame.Sound (f : Frame) : Prop where
  found : 0 < f.found
  main : f.caller = .main → f.subgroup = none
  rest : ∀ pid ∈ f.rest, pid ≠ []

/-- What every point that is reached keeps to: the processes that are read belong to
the unit, and `main` reads those of the root. -/
def Point.Sound : Point → Prop
  | .openProcs caller subgroup => caller = .main → subgroup = none
  | .readProcs caller subgroup place =>
      place ≠ .outside ∧ (caller = .main → subgroup = none ∧ place = .root)
  | .mkdirat f | .addInotify f | .openSub f _ | .write f _ _ | .unlinkat f _ _ | .moved f _ =>
      f.Sound
  | _ => True

theorem sound_of_frame {f : Frame} (hf : p.frame = some f) : p.Sound ↔ f.Sound := by
  cases p <;> cases hf <;> rfl

theorem sound_of_caller (hp : p.caller = none) : p.Sound := by
  cases p <;> trivial

def Point.Vacated (p : Point) : Prop := p ≠ .exited ∧ p.caller ≠ some .main

instance (p : Point) : Decidable p.Vacated := inferInstanceAs (Decidable (_ ∧ _))

theorem returned_cases (caller : Caller) (r : Option Errno) :
    (returned caller r).Sound ∧ (returned caller r).inLine = [] ∧
      ((returned caller r).Vacated → caller = .main → r = none) := by
  cases caller with
  | main =>
      cases r with
      | none => exact ⟨trivial, rfl, fun _ _ => rfl⟩
      | some e => exact ⟨trivial, rfl, fun h => absurd rfl h.1⟩
  | pass names =>
      cases names with
      | nil => exact ⟨trivial, rfl, fun _ => Caller.noConfusion⟩
      | cons name names => exact ⟨Caller.noConfusion, rfl, fun _ => Caller.noConfusion⟩

/-- The loop over the lines ends with a call for one of them, with another round, or
with none of them left to move. -/
theorem nextPid_cases (caller : Caller) (subgroup : Option CString) {lines : List CString}
    (found : ℕ) (hlines : ∀ pid ∈ lines, pid ≠ []) :
    (∃ pid rest found', nextPid caller subgroup lines found =
        .mkdirat ⟨caller, subgroup, pid, rest, found' + 1⟩ ∧ pid :: rest ⊆ lines) ∨
      found ≠ 0 ∧ nextPid caller subgroup lines found = .openProcs caller subgroup ∨
      found = 0 ∧ nextPid caller subgroup lines found = returned caller none ∧
        ∀ pid ∈ lines, subgroup = some pid := by
  induction lines with
  | nil =>
      rw [nextPid]
      split
      · next hzero => exact .inr (.inr ⟨hzero, rfl, by simp⟩)
      · next hpos => exact .inr (.inl ⟨hpos, rfl⟩)
  | cons pid rest ih =>
      rw [nextPid, if_neg (hlines pid List.mem_cons_self)]
      split
      · next hown =>
        rcases ih fun pid' hpid' => hlines pid' (.tail _ hpid') with
          ⟨pid', rest', found', hnext, hsub⟩ | hround | ⟨hzero, hreturn, hall⟩
        · exact .inl ⟨pid', rest', found', hnext, List.subset_cons_of_subset _ hsub⟩
        · exact .inr (.inl hround)
        · exact .inr (.inr ⟨hzero, hreturn, List.forall_mem_cons.mpr ⟨hown, hall⟩⟩)
      · exact .inl ⟨pid, rest, found, rfl, List.Subset.refl _⟩

/-- How the program goes on. -/
inductive Goes (s : State) (e : Event) : Point → Prop
  | waits : Goes s e s.point
  | opened {caller : Caller} {subgroup : Option CString} {place : Place}
      (hpoint : s.point = .openProcs caller subgroup)
      (hplace : s.kernel.place subgroup = some place) : Goes s e (.readProcs caller subgroup place)
  | read {caller : Caller} {subgroup : Option CString} {place : Place} {pids : List CString}
      (hpoint : s.point = .readProcs caller subgroup place) (he : e = .answer (.procs pids))
      (hpids : ∀ pid ∈ pids, IsPid pid) :
      Goes s e (nextPid caller subgroup (procLines (readBuffer pids)) 0)
  /-- from one call of `move_to_subgroup` to the next -/
  | within {f : Frame} {p' : Point} (hframe : s.point.frame = some f) (hframe' : p'.frame = some f)
      (hline : p'.inLine ⊆ s.point.inLine) : Goes s e p'
  | next {f : Frame} (hpoint : s.point = .moved f none) :
      Goes s e (nextPid f.caller f.subgroup f.rest f.found)
  | fails {caller : Caller} (hcaller : s.point.caller = some caller) (errno : Errno) :
      Goes s e (returned caller (some errno))
  | scanned (hpoint : s.point = .scandirat) (names : List CString) :
      Goes s e (returned (.pass names) none)
  /-- in the event loop -/
  | loops {p' : Point} (hcaller : s.point.caller = none) (hrunning : s.point ≠ .exited)
      (hcaller' : p'.caller = none) : Goes s e p'
  | exits : Goes s e .exited

theorem goes_of_callStep {f : Frame} {k' : Kernel} {a : Answer}
    (h : CallStep k f p k' p') : Goes ⟨k, p⟩ (.answer a) p' := by
  cases h with
  | unlinked source r hdone =>
      obtain ⟨-, rfl⟩ := processes_of_unlinkat hdone
      exact .within rfl rfl (List.Subset.refl _)
  | refused e | unwritten source inode r | written source inode hq | unwatched e
  | unopened source e =>
      exact .within rfl rfl (List.subset_cons_self _ _)
  | created hnew | watched hg | opened source hg =>
      exact .within rfl rfl (List.Subset.refl _)

theorem goes_of_step (hs : step s e = some t) : Goes s e t.point := by
  obtain ⟨k, p⟩ := s
  cases e with
  | answer a =>
      obtain ⟨⟨k', p'⟩, hprogress, rfl⟩ := Option.map_eq_some_iff.mp hs
      cases p with
      | mkdirat f | addInotify f | openSub f source | write f source inode | unlinkat f source r =>
          exact goes_of_callStep (callStep_of_progress rfl hprogress)
      | openProcs caller subgroup =>
          cases a with
          | ok =>
              obtain ⟨place, hplace, hbody⟩ := Option.map_eq_some_iff.mp hprogress
              obtain ⟨rfl, rfl⟩ := Prod.mk.inj hbody
              exact .opened rfl hplace
          | fails e =>
              obtain ⟨rfl, rfl⟩ := Prod.mk.inj (Option.some.inj hprogress)
              exact .fails rfl e
          | _ => cases hprogress
      | readProcs caller subgroup place =>
          cases a with
          | procs pids =>
              obtain ⟨hpids, hbody⟩ := Option.ite_none_right_eq_some.mp hprogress
              obtain ⟨rfl, rfl⟩ := Prod.mk.inj (Option.some.inj hbody)
              exact .read rfl rfl hpids
          | fails e =>
              obtain ⟨rfl, rfl⟩ := Prod.mk.inj (Option.some.inj hprogress)
              exact .exits
          | _ => cases hprogress
      | moved f r =>
          cases a with
          | done =>
              cases r with
              | none =>
                  obtain ⟨rfl, rfl⟩ := Prod.mk.inj (Option.some.inj hprogress)
                  exact .next rfl
              | some e =>
                  obtain ⟨rfl, rfl⟩ := Prod.mk.inj (Option.some.inj hprogress)
                  exact .fails rfl e
          | _ => cases r <;> cases hprogress
      | setup =>
          cases a with
          | ok | fails e =>
              obtain ⟨rfl, rfl⟩ := Prod.mk.inj (Option.some.inj hprogress)
              exact .loops rfl Point.noConfusion rfl
          | _ => cases hprogress
      | scandirat =>
          cases a with
          | names entries =>
              simp only [progress] at hprogress
              split at hprogress
              · obtain ⟨rfl, rfl⟩ := Prod.mk.inj (Option.some.inj hprogress)
                exact .exits
              · obtain ⟨rfl, rfl⟩ := Prod.mk.inj (Option.some.inj hprogress)
                exact .scanned rfl _
          | fails e =>
              obtain ⟨rfl, rfl⟩ := Prod.mk.inj (Option.some.inj hprogress)
              exact .exits
          | _ => cases hprogress
      | rmdir source =>
          obtain ⟨-, rfl⟩ := processes_of_rmdir hprogress
          exact .loops rfl Point.noConfusion rfl
      | idle => cases hprogress
      | exited => cases hprogress
  | timer =>
      obtain ⟨hidle, hbody⟩ := Option.ite_none_right_eq_some.mp hs
      obtain rfl := Option.some.inj hbody
      obtain rfl : p = .idle := hidle
      exact .loops rfl Point.noConfusion rfl
  | dispatch source =>
      obtain ⟨hidle, hbody⟩ := Option.ite_none_right_eq_some.mp hs
      obtain rfl := Option.some.inj hbody
      obtain rfl : p = .idle := hidle.1
      refine .loops rfl Point.noConfusion ?_
      dsimp only
      split <;> rfl
  | fork _ _ | exit _ | reap _ | merge _ =>
      obtain ⟨k', -, rfl⟩ := Option.map_eq_some_iff.mp hs
      exact .waits

theorem IsPid.ne_nil (h : IsPid pid) : pid ≠ [] := h.1

/-- The lines that are read are those of listed processes. -/
theorem mem_of_procLines {pids : List CString} (h : ∀ pid ∈ pids, IsPid pid) :
    procLines (readBuffer pids) ⊆ pids := by
  have hread : procLines (readBuffer pids) <+: pids := procLines_readBuffer_prefix h
  exact hread.subset

theorem ne_nil_of_procLines {pids : List CString} (h : ∀ pid ∈ pids, IsPid pid) :
    ∀ pid ∈ procLines (readBuffer pids), pid ≠ [] := fun pid hpid =>
  (h pid (mem_of_procLines h hpid)).ne_nil

theorem nextPid_sound {caller : Caller} {subgroup : Option CString} {lines : List CString}
    (found : ℕ) (hlines : ∀ pid ∈ lines, pid ≠ []) (hmain : caller = .main → subgroup = none) :
    (nextPid caller subgroup lines found).Sound ∧
      (nextPid caller subgroup lines found).inLine ⊆ lines := by
  rcases nextPid_cases caller subgroup found hlines with
    ⟨pid, rest, found', hnext, hsub⟩ | ⟨-, hnext⟩ | ⟨-, hnext, -⟩ <;> rw [hnext]
  · exact ⟨⟨Nat.succ_pos _, hmain, fun pid' hpid' => hlines pid' (hsub (.tail _ hpid'))⟩, hsub⟩
  · exact ⟨hmain, List.nil_subset _⟩
  · obtain ⟨hsound, hline, -⟩ := returned_cases caller none
    exact ⟨hsound, hline ▸ List.nil_subset _⟩

theorem Goes.sound (h : Goes s e p') (hsound : s.point.Sound) : p'.Sound := by
  cases h with
  | waits => exact hsound
  | opened hpoint hplace =>
      rw [hpoint] at hsound
      refine ⟨?_, fun hmain => ?_⟩
      · rintro rfl
        revert hplace
        cases ‹Option CString› <;> simp [Kernel.place]
      · obtain rfl := hsound hmain
        exact ⟨rfl, (Option.some.inj hplace).symm⟩
  | read hpoint he hpids =>
      rw [hpoint] at hsound
      exact (nextPid_sound 0 (ne_nil_of_procLines hpids) fun hmain => (hsound.2 hmain).1).1
  | within hframe hframe' hline =>
      exact (sound_of_frame hframe').mpr ((sound_of_frame hframe).mp hsound)
  | @next f hpoint =>
      have hf : f.Sound := (sound_of_frame (hpoint ▸ rfl)).mp hsound
      exact (nextPid_sound _ hf.rest hf.main).1
  | fails hcaller errno => exact (returned_cases _ _).1
  | scanned hpoint names => exact (returned_cases _ _).1
  | loops hcaller hrunning hcaller' => exact sound_of_caller hcaller'
  | exits => trivial

/-! ### The root of the unit -/

def Point.reading : Point → Option Place
  | .readProcs _ _ place => some place
  | _ => none

/-- The kernel lists the live processes, in some order. -/
def Lists (s : State) : Event → Prop
  | .answer (.procs pids) => ∀ place ∈ s.point.reading, pids.Perm (s.kernel.members place)
  | _ => True

instance (s : State) : (e : Event) → Decidable (Lists s e)
  | .answer (.procs pids) =>
      inferInstanceAs (Decidable (∀ place ∈ s.point.reading, pids.Perm (s.kernel.members place)))
  | .answer .ok | .answer (.fails _) | .answer (.names _) | .answer .done => isTrue trivial
  | .fork _ _ | .exit _ | .reap _ | .merge _ | .timer | .dispatch _ => isTrue trivial

theorem vacated_of_caller {caller : Caller} (hp : p.caller = some caller) (hne : caller ≠ .main) :
    p.Vacated := by
  refine ⟨?_, fun hmain => hne (Option.some.inj (hp.symm.trans hmain))⟩
  rintro rfl
  cases hp

theorem not_vacated_of_main (hp : p.caller = some .main) : ¬ p.Vacated := fun h => h.2 hp

theorem caller_of_frame {f : Frame} (hf : p.frame = some f) : p.caller = some f.caller := by
  cases p <;> cases hf <;> rfl

/-- `main` leaves its loop only after a read that finds nobody. -/
theorem Goes.vacated (h : Goes s e p') (hsound : s.point.Sound) (hlists : Lists s e)
    (hp' : p'.Vacated) : s.point.Vacated ∨ s.kernel.members .root = [] := by
  cases h with
  | waits => exact .inl hp'
  | @opened caller subgroup place hpoint hplace =>
      have hcaller : s.point.caller = some caller := hpoint ▸ rfl
      refine .inl (vacated_of_caller hcaller ?_)
      rintro rfl
      exact not_vacated_of_main rfl hp'
  | @read caller subgroup place pids hpoint he hpids =>
      by_cases hmain : caller = .main
      · obtain rfl := hmain
        rw [hpoint] at hsound
        obtain ⟨rfl, rfl⟩ := hsound.2 rfl
        have hperm : pids.Perm (s.kernel.members .root) := by
          rw [he] at hlists
          exact hlists .root (hpoint ▸ rfl)
        rcases nextPid_cases .main none 0 (ne_nil_of_procLines hpids) with
          ⟨pid, rest, found', hnext, -⟩ | ⟨hpos, -⟩ | ⟨-, -, hall⟩
        · rw [hnext] at hp'
          exact absurd hp' (not_vacated_of_main rfl)
        · exact absurd rfl hpos
        · -- a piece without lines is the whole file
          have hnodup : pids.Nodup := hperm.nodup_iff.mpr (s.kernel.nodup_members _)
          have hnone := eq_of_procLines hnodup hpids hall
          have hnil : pids = [] := List.eq_nil_iff_forall_not_mem.mpr fun pid hpid => by
            cases hnone pid hpid
          exact .inr (hnil ▸ hperm).nil_eq.symm
      · have hcaller : s.point.caller = some caller := hpoint ▸ rfl
        exact .inl (vacated_of_caller hcaller hmain)
  | @within f p' hframe hframe' hline =>
      refine .inl (vacated_of_caller (caller_of_frame hframe) fun hmain => ?_)
      exact not_vacated_of_main (hmain ▸ caller_of_frame hframe') hp'
  | @next f hpoint =>
      have hframe : s.point.frame = some f := hpoint ▸ rfl
      have hf : f.Sound := (sound_of_frame hframe).mp hsound
      refine .inl (vacated_of_caller (caller_of_frame hframe) fun hmain => ?_)
      rcases nextPid_cases f.caller f.subgroup f.found hf.rest with
        ⟨pid, rest, found', hnext, -⟩ | ⟨-, hnext⟩ | ⟨hzero, -, -⟩
      · rw [hnext, hmain] at hp'
        exact not_vacated_of_main rfl hp'
      · rw [hnext, hmain] at hp'
        exact not_vacated_of_main rfl hp'
      · exact hf.found.ne' hzero
  | fails hcaller errno =>
      refine .inl (vacated_of_caller hcaller fun hmain => ?_)
      cases (returned_cases _ _).2.2 hp' hmain
  | scanned hpoint names =>
      exact .inl (hpoint ▸ ⟨Point.noConfusion, by simp [Point.caller, Point.frame]⟩)
  | loops hcaller hrunning hcaller' => exact .inl ⟨hrunning, by simp [hcaller]⟩
  | exits => exact absurd rfl hp'.1

theorem start_sound (start : Start) : start.state.point.Sound := fun _ => rfl

theorem members_root_of_reachable (h : Reachable step s t) (hempty : s.kernel.members .root = []) :
    t.kernel.members .root = [] :=
  h.invariant (I := fun t => t.kernel.members .root = []) hempty fun _ _ _ hroot _ hstep =>
    members_eq_nil_of_step hstep hroot fun _ _ _ _ _ _ => Place.noConfusion

/-- Whatever forks and exits and whatever fails in the meantime: when the move of `main`
is over, no process is in the root of the unit, and none ever is again. -/
theorem root_vacated (start : Start) (h : ReachableBy step Lists start.state s)
    (hp : s.point.Vacated) :
    s.kernel.members .root = [] ∧ ∀ t, Reachable step s t → t.kernel.members .root = [] := by
  have hinv : s.point.Sound ∧ (s.point.Vacated → s.kernel.members .root = []) := by
    refine h.invariant (I := fun s => s.point.Sound ∧ (s.point.Vacated →
      s.kernel.members .root = [])) ⟨start_sound start, fun hvacated => absurd rfl hvacated.2⟩ ?_
    rintro s e t ⟨hsound, hroot⟩ hlists hstep
    have hgoes := goes_of_step hstep
    refine ⟨hgoes.sound hsound, fun ht => ?_⟩
    have hempty : s.kernel.members .root = [] := (hgoes.vacated hsound hlists ht).elim hroot id
    exact members_root_of_reachable (.step .start trivial hstep) hempty
  have hempty := hinv.2 hp
  exact ⟨hempty, fun _ ht => members_root_of_reachable ht hempty⟩

def lone.forking : List Event :=
  lone.listed ++ [.answer .ok, .answer .ok, .fork "7".toList "8".toList, .answer .ok, .answer .ok,
    .answer .done, .answer .done, .answer .ok, .answer (.procs ["8".toList]), .answer .ok,
    .answer .ok, .answer .ok, .answer .ok, .answer .done, .answer .done, .answer .ok,
    .answer (.procs [])]

theorem root_vacated_lone :
    let s := (checkedRun step Lists lone.state lone.forking).get (by decide)
    s.kernel.processes.keys.length = 2 ∧ s.kernel.members .root = [] ∧
      ∀ t, Reachable step s t → t.kernel.members .root = [] :=
  ⟨by decide, root_vacated lone (reachableBy_checkedRun (by decide)) (by decide)⟩

/-! ### Into a subgroup of its own -/

/-- The source of the subgroup that a process is about to be moved to. -/
def Point.target : Point → Option ℕ
  | .openSub _ source | .write _ source _ => some source
  | _ => none

/-- Nobody is in the subgroup that was made for a process. -/
structure Reserved (s : State) : Prop where
  inv : Inv s
  empty : ∀ source ∈ s.point.target, ∀ src, s.kernel.sources.lookup source = some src →
    s.kernel.members (.subgroup src.inode) = []

theorem members_eq_nil_iff {inode : ℕ} :
    k.members (.subgroup inode) = [] ↔ ¬ Populated k.processes inode := by
  simp only [List.eq_nil_iff_forall_not_mem, Kernel.mem_members, populated_iff, not_exists]

theorem reserved_start (start : Start) : Reserved start.state := ⟨inv_start start, nofun⟩

theorem Reserved.callStep {f : Frame} {k' : Kernel} (h : Reserved ⟨k, p⟩)
    (hstep : CallStep k f p k' p') : Reserved ⟨k', p'⟩ := by
  refine ⟨h.inv.callStep hstep, ?_⟩
  cases hstep with
  | watched hg =>
      -- the subgroup is the one that was just created
      obtain ⟨inode, hcreated, hempty, -⟩ := h.inv.knows
      obtain rfl := Option.some.inj (hg.symm.trans hcreated)
      rintro source hsource src hsrc
      obtain rfl := Option.some.inj hsource
      obtain ⟨-, rfl⟩ | ⟨hne, -⟩ := GHashTable.lookup_insert_eq_some.mp hsrc
      · exact members_eq_nil_iff.mpr hempty
      · exact absurd rfl hne
  | opened source hg => exact h.empty
  | unlinked source r hdone =>
      obtain ⟨-, rfl⟩ := processes_of_unlinkat hdone
      exact nofun
  | _ => exact nofun

theorem target_eq_none (hp : p.handling = none) : p.target = none := by
  cases p <;> first | rfl | cases hp

theorem Reserved.step (h : Reserved s) (hs : Cgroupify.step s e = some t) : Reserved t := by
  have hinv : Inv t := h.inv.step hs
  have hfree (ht : t.point.handling = none) : Reserved t :=
    ⟨hinv, fun source hsource => by cases (target_eq_none ht).symm.trans hsource⟩
  cases e with
  | answer a =>
      obtain ⟨k, p⟩ := s
      obtain ⟨⟨k', p'⟩, hprogress, rfl⟩ := Option.map_eq_some_iff.mp hs
      cases hcall : p.call with
      | some f => exact h.callStep (callStep_of_progress hcall hprogress)
      | none =>
          refine hfree ?_
          by_cases hrmdir : ∃ source, p = .rmdir source
          · obtain ⟨source, rfl⟩ := hrmdir
            exact (processes_of_rmdir hprogress).2 ▸ rfl
          · exact (progress_elsewhere hcall (fun source heq => hrmdir ⟨source, heq⟩)
              hprogress).2.2.handling
  | timer =>
      obtain ⟨-, rfl⟩ := Option.ite_none_right_eq_some.mp hs |>.imp_right Option.some.inj
      exact hfree rfl
  | dispatch source =>
      obtain ⟨-, rfl⟩ := Option.ite_none_right_eq_some.mp hs |>.imp_right Option.some.inj
      refine ⟨hinv, fun source' hsource' => ?_⟩
      dsimp only at hsource'
      split at hsource' <;> cases hsource'
  | fork _ _ | exit _ | reap _ | merge _ =>
      obtain ⟨k', hk', ht⟩ := Option.map_eq_some_iff.mp hs
      refine ⟨hinv, fun source hsource src hsrc => ?_⟩
      have hpoint : t.point = s.point := by rw [← ht]
      have hsources : t.kernel.sources = s.kernel.sources := by
        rw [← ht]
        exact sources_of_environment hk'
      rw [hpoint] at hsource
      rw [hsources] at hsrc
      exact members_eq_nil_of_step hs (h.empty source hsource src hsrc) fun a f source' inode he =>
        by cases he

theorem Reserved.reachable {start : Start} (h : Reachable Cgroupify.step start.state s) :
    Reserved s :=
  h.invariant (reserved_start start) fun _ _ _ hreserved _ hstep => hreserved.step hstep

/-- In every run, where a step changes the place of a process, the process is then alone
in the subgroup with its number, which the program has created. -/
theorem moved_alone (start : Start) (h : Reachable step start.state s) (hs : step s e = some t)
    {q : Process} (hq : s.kernel.processes.lookup pid = some q)
    (hq' : t.kernel.processes.lookup pid = some q') (hserial : q.serial = q'.serial)
    (hmoved : q.place ≠ q'.place) :
    ∃ inode, t.kernel.subgroups.lookup pid = some ⟨inode, true⟩ ∧ q'.place = .subgroup inode ∧
      t.kernel.members (.subgroup inode) = [pid] := by
  have hreserved := Reserved.reachable h
  rcases origin_of_step hs hq' with ⟨q₀, hq₀, -, hplace, -⟩ |
    ⟨parent, q₀, -, -, -, hfresh, -⟩ | ⟨a, f, source, inode, q₀, rfl, hpoint, rfl, hq₀, rfl⟩
  · rw [Option.some.inj (hq.symm.trans hq₀)] at hmoved
    exact absurd hplace hmoved
  · have hlt := hreserved.inv.wf.serial_lt pid q hq
    omega
  · obtain ⟨k, p⟩ := s
    -- only the write to `cgroup.procs` moves a process
    obtain rfl : p = .write f source inode := hpoint
    have hsource : k.sources.lookup source = some ⟨f.pid, inode⟩ := hreserved.inv.knows
    have hempty : k.members (.subgroup inode) = [] :=
      hreserved.empty source rfl _ hsource
    obtain ⟨⟨k', p'⟩, hprogress, rfl⟩ := Option.map_eq_some_iff.mp hs
    cases a with
    | ok =>
        obtain ⟨q₁, hq₁, hbody⟩ := Option.map_eq_some_iff.mp hprogress
        obtain rfl := Option.some.inj (hq₀.symm.trans hq₁)
        split at hbody
        · -- a zombie is left alone
          obtain ⟨rfl, rfl⟩ := Prod.mk.inj hbody
          cases hq.symm.trans hq'
          exact absurd rfl hmoved
        · next hlive =>
          obtain ⟨rfl, rfl⟩ := Prod.mk.inj hbody
          refine ⟨inode, hreserved.inv.wf.watches source _ hsource, rfl, ?_⟩
          refine List.perm_singleton.mp ((List.perm_ext_iff_of_nodup
            (Kernel.nodup_members _ _) (List.nodup_singleton _)).mpr fun pid' => ?_)
          rw [Kernel.mem_members, List.mem_singleton, Kernel.processes_setProcesses]
          constructor
          · rintro ⟨q₂, hq₂, hplace, hlive₂⟩
            obtain ⟨rfl, -⟩ | ⟨-, hold⟩ := GHashTable.lookup_insert_eq_some.mp hq₂
            · rfl
            · exact absurd (Kernel.mem_members.mpr ⟨q₂, hold, hplace, hlive₂⟩)
                (List.eq_nil_iff_forall_not_mem.mp hempty pid')
          · rintro rfl
            exact ⟨_, hq', rfl, Bool.eq_false_iff.mpr hlive⟩
    | fails errno =>
        obtain ⟨rfl, rfl⟩ := Prod.mk.inj (Option.some.inj hprogress)
        cases hq.symm.trans hq'
        exact absurd rfl hmoved
    | _ => cases hprogress

theorem moved_alone_lone :
    let s := (checkedRun step (fun _ _ => True) lone.state (lone.forking.take 6)).get (by decide)
    let t := (step s (.answer .ok)).get (by decide)
    ∃ inode, t.kernel.subgroups.lookup "7".toList = some ⟨inode, true⟩ ∧
      Place.subgroup 0 = .subgroup inode ∧ t.kernel.members (.subgroup inode) = ["7".toList] :=
  moved_alone lone (reachableBy_checkedRun (by decide)) (Option.some_get _).symm
    (by decide : _ = some ⟨0, .root, false⟩) (by decide : _ = some ⟨0, .subgroup 0, false⟩) rfl
    (by decide)

/-! ### Processes of other units -/

/-- No process of another unit is born with a number that was listed and is still to
be moved. -/
def KeepsLine (s : State) : Event → Prop
  | .fork parent child => ∀ q ∈ s.kernel.processes.lookup parent, q.place = .outside →
      child ∉ s.point.inLine
  | _ => True

instance (s : State) : (e : Event) → Decidable (KeepsLine s e)
  | .fork parent child => inferInstanceAs (Decidable
      (∀ q ∈ s.kernel.processes.lookup parent, q.place = .outside → child ∉ s.point.inLine))
  | .answer _ | .exit _ | .reap _ | .merge _ | .timer | .dispatch _ => isTrue trivial

def Listed (s : State) : Prop :=
  ∀ pid ∈ s.point.inLine, ∀ q, s.kernel.processes.lookup pid = some q → q.place ≠ .outside

theorem Goes.inLine (h : Goes s e p') (hsound : s.point.Sound) (hlists : Lists s e) :
    p'.inLine ⊆ s.point.inLine ∨
      ∃ place, place ≠ .outside ∧ p'.inLine ⊆ s.kernel.members place := by
  cases h with
  | waits => exact .inl (List.Subset.refl _)
  | opened hpoint hplace => exact .inl (List.nil_subset _)
  | @read caller subgroup place pids hpoint he hpids =>
      rw [hpoint] at hsound
      have hperm : pids.Perm (s.kernel.members place) := by
        rw [he] at hlists
        exact hlists place (hpoint ▸ rfl)
      have hsub := (nextPid_sound 0 (ne_nil_of_procLines hpids) fun hmain =>
        (hsound.2 hmain).1).2
      exact .inr ⟨place, hsound.1, fun pid hpid =>
        hperm.subset (mem_of_procLines hpids (hsub hpid))⟩
  | within hframe hframe' hline => exact .inl hline
  | @next f hpoint =>
      have hf : f.Sound := (sound_of_frame (hpoint ▸ rfl)).mp hsound
      rw [hpoint]
      exact .inl (nextPid_sound _ hf.rest hf.main).2
  | fails hcaller errno => exact .inl ((returned_cases _ _).2.1 ▸ List.nil_subset _)
  | scanned hpoint names => exact .inl ((returned_cases _ _).2.1 ▸ List.nil_subset _)
  | @loops p' hcaller hrunning hcaller' =>
      have hnil : p'.inLine = [] := by cases p' <;> first | rfl | cases hcaller'
      exact .inl (hnil ▸ List.nil_subset _)
  | exits => exact .inl (List.nil_subset _)

theorem Listed.step (h : Listed s) (hsound : s.point.Sound) (hlists : Lists s e)
    (hkeeps : KeepsLine s e) (hs : Cgroupify.step s e = some t) : Listed t := by
  intro pid hpid q' hq' houtside
  have hline : pid ∈ s.point.inLine ∨ ∃ place, place ≠ .outside ∧ pid ∈ s.kernel.members place :=
    ((goes_of_step hs).inLine hsound hlists).imp (fun hsub => hsub hpid)
      fun ⟨place, hne, hsub⟩ => ⟨place, hne, hsub hpid⟩
  rcases origin_of_step hs hq' with ⟨q, hq, -, hplace, -⟩ |
    ⟨parent, q, rfl, hq, -, -, hplace⟩ | ⟨a, f, source, inode, q, -, -, -, -, rfl⟩
  · rcases hline with hold | ⟨place, hne, hmem⟩
    · exact h pid hold q hq (hplace.trans houtside)
    · obtain ⟨q₀, hq₀, rfl, -⟩ := Kernel.mem_members.mp hmem
      rw [Option.some.inj (hq₀.symm.trans hq)] at hne
      exact hne (hplace.trans houtside)
  · have hpoint : t.point = s.point := by
      obtain ⟨k', -, rfl⟩ := Option.map_eq_some_iff.mp hs
      rfl
    exact hkeeps q hq (hplace.symm.trans houtside) (hpoint ▸ hpid)
  · cases houtside

/-- Other units are left alone. As long as no process of another unit is born with a
number that the program has read and not yet moved, no step moves one. -/
theorem outsiders_stay (start : Start)
    (h : ReachableBy step (fun s e => Lists s e ∧ KeepsLine s e) start.state s)
    (hs : step s e = some t) {q : Process} (hq : s.kernel.processes.lookup pid = some q)
    (hq' : t.kernel.processes.lookup pid = some q') (hserial : q.serial = q'.serial)
    (houtside : q.place = .outside) : q'.place = .outside := by
  have hlisted : s.point.Sound ∧ Listed s :=
    h.invariant (I := fun s => s.point.Sound ∧ Listed s) ⟨start_sound start, nofun⟩
      fun _ _ _ ⟨hsound, hlisted⟩ ⟨hlists, hkeeps⟩ hstep =>
        ⟨(goes_of_step hstep).sound hsound, hlisted.step hsound hlists hkeeps hstep⟩
  have hinv : Inv s := Inv.reachable (h.mono fun _ _ _ => trivial)
  rcases origin_of_step hs hq' with ⟨q₀, hq₀, -, hplace, -⟩ |
    ⟨parent, q₀, -, -, -, hfresh, -⟩ | ⟨a, f, source, inode, q₀, rfl, hpoint, rfl, hq₀, rfl⟩
  · rw [Option.some.inj (hq.symm.trans hq₀)] at houtside
    exact hplace.symm.trans houtside
  · have hlt := hinv.wf.serial_lt pid q hq
    omega
  · have hmem : f.pid ∈ s.point.inLine := by
      rw [hpoint]
      exact List.mem_cons_self
    exact absurd houtside (hlisted.2 f.pid hmem q hq)

def neighbour : Start where
  kernel := ⟨∅, ((∅ : Processes).insert "7".toList ⟨0, .root, false⟩).insert "9".toList
    ⟨1, .outside, false⟩, ∅, [], 0, 2, 0⟩
  wf :=
    { place_lt := fun pid q inode hq hplace => by
        obtain ⟨-, rfl⟩ | ⟨-, hq⟩ := GHashTable.lookup_insert_eq_some.mp hq
        · cases hplace
        · obtain ⟨-, rfl⟩ | ⟨-, hq⟩ := GHashTable.lookup_insert_eq_some.mp hq
          · cases hplace
          · cases (AList.lookup_empty pid).symm.trans hq
      serial_lt := fun pid q hq => by
        obtain ⟨-, rfl⟩ | ⟨-, hq⟩ := GHashTable.lookup_insert_eq_some.mp hq
        · exact Nat.lt_succ_self 1
        · obtain ⟨-, rfl⟩ | ⟨-, hq⟩ := GHashTable.lookup_insert_eq_some.mp hq
          · exact Nat.two_pos
          · cases (AList.lookup_empty pid).symm.trans hq
      inode_lt := lone.wf.inode_lt
      inode_inj := lone.wf.inode_inj
      source_lt := lone.wf.source_lt
      watches := lone.wf.watches
      alone := lone.wf.alone }
  foreign := lone.foreign
  unwatched := rfl
  quiet := rfl

def neighbour.exited : List Event :=
  lone.listed ++ [.answer .ok, .answer .ok, .answer .ok, .exit "7".toList, .reap "7".toList]

def neighbour.waiting : State :=
  (checkedRun step (fun s e => Lists s e ∧ KeepsLine s e) neighbour.state neighbour.exited).get
    (by decide)

theorem outsiders_stay_neighbour :
    ∃ q, ((step neighbour.waiting (.answer (.fails .esrch))).get
      (by decide)).kernel.processes.lookup "9".toList = some q ∧ q.place = .outside := by
  have hq : neighbour.waiting.kernel.processes.lookup "9".toList = some ⟨1, .outside, false⟩ := by
    decide
  have hq' : ((step neighbour.waiting (.answer (.fails .esrch))).get
      (by decide)).kernel.processes.lookup "9".toList = some ⟨1, .outside, false⟩ := by decide
  exact ⟨_, hq', outsiders_stay neighbour (reachableBy_checkedRun (by decide))
    (Option.some_get _).symm hq hq' rfl rfl⟩

/-- Without the condition, a process of the other unit with the same number is moved
in its place. -/
example : ((checkedRun step Lists neighbour.state (neighbour.exited ++
    [.fork "9".toList "7".toList, .answer .ok])).get (by decide)).kernel.processes.lookup
      "7".toList = some ⟨2, .subgroup 0, false⟩ := by decide

end Uresourced.Cgroupify
