import Uresourced.Cgroupify.Layout

/-!
Every process gets a subgroup of its own.

`cgroup.procs` is read in pieces of 1023 bytes while the moves make it shorter. A
piece gives complete lines only, and a piece without a process to move is the whole
file; so each round moves a process or is the last one.
-/

namespace Uresourced.Cgroupify

open Runs

/-! ### One piece of `cgroup.procs` -/

theorem IsPid.newline_not_mem {pid : CString} (h : IsPid pid) : '\n' ∉ pid := by
  intro hmem
  have hdigit : '\n'.isDigit = true := List.all_eq_true.mp h.2.1 '\n' hmem
  exact absurd hdigit (by decide)

theorem procLines_take {pid : CString} (h : IsPid pid) (pids : List CString) (n : ℕ) :
    procLines ((procsText (pid :: pids)).take n) =
      if pid.length < n then pid :: procLines ((procsText pids).take (n - (pid.length + 1)))
      else [] := by
  have htext : procsText (pid :: pids) = pid ++ '\n' :: procsText pids := by
    simp [procsText]
  rw [htext, List.take_append]
  split
  · next hfits =>
    obtain ⟨m, rfl⟩ := Nat.exists_eq_add_of_lt hfits
    have hrest : pid.length + m + 1 - pid.length = m + 1 := by omega
    have hbehind : pid.length + m + 1 - (pid.length + 1) = m := by omega
    rw [List.take_of_length_le (by omega), hrest, hbehind, List.take_succ_cons, procLines,
      List.splitOn_append_cons_self_of_not_mem h.newline_not_mem,
      List.dropLast_cons_of_ne_nil (List.splitOn_ne_nil _ _), procLines]
  · next hcut =>
    have hzero : n - pid.length = 0 := by omega
    rw [hzero, List.take_zero, List.append_nil, procLines, List.splitOn_eq_singleton
      fun hmem => h.newline_not_mem (List.mem_of_mem_take hmem)]
    rfl

/-- The piece ends in the middle of the file, but only complete lines are read. -/
theorem procLines_take_prefix {pids : List CString} (h : ∀ pid ∈ pids, IsPid pid) (n : ℕ) :
    procLines ((procsText pids).take n) <+: pids := by
  induction pids generalizing n with
  | nil =>
      have hnil : procLines ((procsText []).take n) = [] := by
        rw [procsText, List.flatMap_nil, List.take_nil]
        rfl
      rw [hnil]
  | cons pid pids ih =>
      rw [procLines_take (h pid List.mem_cons_self)]
      split
      · exact (List.prefix_cons_inj pid).mpr (ih (fun pid' hpid' => h pid' (.tail _ hpid')) _)
      · exact List.nil_prefix

theorem procLines_readBuffer_prefix {pids : List CString} (h : ∀ pid ∈ pids, IsPid pid) :
    procLines (readBuffer pids) <+: pids := procLines_take_prefix h 1023

/-- A piece with nothing but the process of that name is the whole file. -/
theorem eq_of_procLines {pids : List CString} {name : Option CString} (hnodup : pids.Nodup)
    (h : ∀ pid ∈ pids, IsPid pid) (hlines : ∀ pid ∈ procLines (readBuffer pids), name = some pid) :
    ∀ pid ∈ pids, name = some pid := by
  cases pids with
  | nil => exact fun pid hpid => (List.not_mem_nil hpid).elim
  | cons pid pids =>
      have hpid : IsPid pid := h pid List.mem_cons_self
      have hlt : pid.length < 1023 := by
        have hle := hpid.2.2
        omega
      have hfirst : procLines (readBuffer (pid :: pids)) =
          pid :: procLines ((procsText pids).take (1023 - (pid.length + 1))) := by
        rw [readBuffer, procLines_take hpid, if_pos hlt]
      have hname : name = some pid := hlines pid (hfirst ▸ List.mem_cons_self)
      cases pids with
      | nil =>
          intro pid' hpid'
          rw [List.mem_singleton.mp hpid', hname]
      | cons pid' pids =>
          -- a second line always fits, and it is a second process
          have hpid' : IsPid pid' := h pid' (.tail _ List.mem_cons_self)
          have hlt' : pid'.length < 1023 - (pid.length + 1) := by
            have hle := hpid.2.2
            have hle' := hpid'.2.2
            omega
          have hsecond : name = some pid' := by
            refine hlines pid' ?_
            rw [hfirst, procLines_take hpid', if_pos hlt']
            exact .tail _ List.mem_cons_self
          have heq : pid = pid' := Option.some.inj (hname.symm.trans hsecond)
          exact absurd heq (List.ne_of_not_mem_cons (List.nodup_cons.mp hnodup).1)

/-! ### The layout of a unit -/

/-- The layout of the tables, without zombies, sources and events. -/
def Kernel.layout (k : Kernel) : Layout where
  live pid := (k.processes.lookup pid).bind fun p =>
    if p.zombie then none else some (p.serial, p.place)
  inode name := (k.subgroups.lookup name).map Subgroup.inode
  next := k.nextInode

variable {k k' : Kernel} {l : Layout} {pid name : CString} {place : Place} {inode : ℕ}

theorem Kernel.live_eq_some {serial : ℕ} : k.layout.live pid = some (serial, place) ↔
    ∃ p, k.processes.lookup pid = some p ∧ p.zombie = false ∧ p.serial = serial ∧
      p.place = place := by
  refine Option.bind_eq_some_iff.trans (exists_congr fun p => and_congr_right fun _ => ?_)
  cases p.zombie <;> simp

theorem Kernel.mem_members_iff_at : pid ∈ k.members place ↔ k.layout.At place pid := by
  rw [mem_members]
  constructor
  · rintro ⟨p, hp, hplace, hlive⟩
    exact ⟨p.serial, live_eq_some.mpr ⟨p, hp, hlive, rfl, hplace⟩⟩
  · rintro ⟨serial, hserial⟩
    obtain ⟨p, hp, hlive, -, hplace⟩ := live_eq_some.mp hserial
    exact ⟨p, hp, hplace, hlive⟩

theorem Kernel.populated_iff_at :
    Populated k.processes inode ↔ ∃ pid, k.layout.At (.subgroup inode) pid := by
  simp only [populated_iff, ← mem_members_iff_at, mem_members]

theorem Kernel.place_eq (k : Kernel) (subgroup : Option CString) :
    k.place subgroup = k.layout.place subgroup := by
  cases subgroup with
  | none => rfl
  | some name => exact (Option.map_map _ _ _).symm

theorem Kernel.layout_mkdir (k : Kernel) (name : CString) :
    (k.mkdir name).layout = k.layout.mkdir name := by
  have hinode : (k.mkdir name).layout.inode = (k.layout.mkdir name).inode := by
    funext name'
    simp only [layout, mkdir, Layout.mkdir, GHashTable.lookup_insert, Function.update_apply]
    split <;> rfl
  exact congrArg (Layout.mk _ · _) hinode

theorem Kernel.layout_put {p : Process} (hp : k.processes.lookup pid = some p)
    (hlive : p.zombie = false) (inode : ℕ) :
    (k.setProcesses (k.processes.insert pid { p with place := .subgroup inode })).layout =
      k.layout.put pid inode := by
  have hput : (k.setProcesses (k.processes.insert pid
      { p with place := .subgroup inode })).layout.live = (k.layout.put pid inode).live := by
    funext pid'
    simp only [layout, processes_setProcesses, Layout.put, GHashTable.lookup_insert,
      Function.update_apply]
    split
    · simp [hp, hlive]
    · rfl
  exact congrArg (Layout.mk · _ _) hput

theorem Kernel.layout_reap {p : Process} (hp : k.processes.lookup pid = some p)
    (hzombie : p.zombie = true) :
    (k.setProcesses (k.processes.erase pid)).layout = k.layout ∧
      (k.setProcesses (k.processes.erase pid)).queue = k.queue := by
  have hlive : (k.setProcesses (k.processes.erase pid)).layout.live = k.layout.live := by
    funext pid'
    simp only [layout, processes_setProcesses, GHashTable.lookup_erase]
    split
    · next heq => rw [heq, hp, Option.bind_some, if_pos hzombie, Option.bind_none]
    · rfl
  have hlayout : (k.setProcesses (k.processes.erase pid)).layout = k.layout :=
    congrArg (Layout.mk · _ _) hlive
  have hpopulated (inode : ℕ) :
      Populated (k.processes.erase pid) inode ↔ Populated k.processes inode := by
    have hnow : Populated (k.processes.erase pid) inode ↔
        ∃ pid', (k.setProcesses (k.processes.erase pid)).layout.At (.subgroup inode) pid' :=
      populated_iff_at (k := k.setProcesses (k.processes.erase pid))
    rw [hlayout] at hnow
    exact hnow.trans populated_iff_at.symm
  refine ⟨hlayout, ?_⟩
  simp [setProcesses, hpopulated]

/-! ### Without disturbance -/

/-- Nothing forks or exits, no call fails, and the program sees what there is: every
process of the cgroup once, in some order, and every subgroup. -/
def Undisturbed (s : State) : Event → Prop
  | .answer (.procs pids) => ∀ caller subgroup place,
      s.point = .readProcs caller subgroup place → pids.Perm (s.kernel.members place)
  | .answer (.names entries) => ∀ name, (name, true) ∈ entries ↔
      name = ".".toList ∨ name = "..".toList ∨ name ∈ s.kernel.subgroups
  | .answer (.fails _) | .fork _ _ | .exit _ | .timer | .dispatch _ => False
  | _ => True

/-- What is passed to `move_to_subgroup` is the number of a process that
`cgroup.procs` lists. -/
def WholeLine (s : State) : Prop :=
  match s.point with
  | .mkdirat f => ∃ place, s.kernel.place f.subgroup = some place ∧ f.pid ∈ s.kernel.members place
  | _ => True

abbrev Completes (Q : State → Prop) (k : Kernel) (p : Point) : Prop :=
  Ends step Undisturbed WholeLine Q ⟨k, p⟩

/-- One question: zombies may be reaped and events merged before its answer, and
that comes to an end. -/
theorem completes_of_answer {Q : State → Prop} {p : Point} (hidle : p ≠ .idle)
    (hline : ∀ k, k.layout = l → WholeLine ⟨k, p⟩)
    (hask : ∀ k, k.layout = l → ∃ a k' p', Undisturbed ⟨k, p⟩ (.answer a) ∧
      progress k p a = some (k', p'))
    (hanswer : ∀ k a k' p', k.layout = l → Undisturbed ⟨k, p⟩ (.answer a) →
      progress k p a = some (k', p') → Completes Q k' p')
    (hk : k.layout = l) : Completes Q k p := by
  refine Ends.of_potential (P := fun s => s.point = p ∧ s.kernel.layout = l)
    (fun s => s.kernel.processes.keys.length + s.kernel.queue.length) ?_ ?_ ?_ ⟨rfl, hk⟩
  · rintro ⟨k, _⟩ ⟨rfl, hk⟩
    exact hline k hk
  · rintro ⟨k, _⟩ ⟨rfl, hk⟩
    obtain ⟨a, k', p', ha, hprogress⟩ := hask k hk
    exact ⟨.answer a, ⟨k', p'⟩, ha, Option.map_eq_some_iff.mpr ⟨_, hprogress, rfl⟩⟩
  · rintro ⟨k, _⟩ e s' ⟨rfl, hk⟩ he hstep
    cases e with
    | answer a =>
        obtain ⟨⟨k', p'⟩, hprogress, rfl⟩ := Option.map_eq_some_iff.mp hstep
        exact .inr (hanswer k a k' p' hk he hprogress)
    | reap pid =>
        obtain ⟨k', henv, rfl⟩ := Option.map_eq_some_iff.mp hstep
        obtain ⟨p, hp, hbody⟩ := Option.bind_eq_some_iff.mp henv
        split at hbody
        · next hzombie =>
          obtain rfl := Option.some.inj hbody
          obtain ⟨hlayout, hqueue⟩ := Kernel.layout_reap hp hzombie
          refine .inl ⟨⟨rfl, hlayout.trans hk⟩, ?_⟩
          have hmem : pid ∈ k.processes := AList.lookup_isSome.mp (by rw [hp]; rfl)
          have herase := GHashTable.length_keys_erase hmem
          simp only [hqueue, Kernel.processes_setProcesses]
          omega
        · cases hbody
    | merge source =>
        obtain ⟨k', henv, rfl⟩ := Option.map_eq_some_iff.mp hstep
        simp only [environment] at henv
        split at henv
        · next hequal =>
          obtain rfl := Option.some.inj henv
          refine .inl ⟨⟨rfl, hk⟩, ?_⟩
          have hmem : source ∈ k.queue := List.mem_of_mem_erase hequal
          have hpos : 0 < k.queue.length := List.length_pos_of_mem hmem
          simp only [List.length_erase_of_mem hmem]
          omega
        · cases henv
    | _ => exact he.elim

/-- The answer to a question that has no other one. -/
def Point.expects : Point → Option Answer
  | .openProcs _ _ | .mkdirat _ | .addInotify _ | .openSub _ _ | .write _ _ _ | .setup => some .ok
  | .unlinkat _ _ _ | .moved _ _ | .rmdir _ => some .done
  | _ => none

theorem Point.eq_of_expects {p : Point} {a a' : Answer} {r : Kernel × Point}
    (hp : p.expects = some a) (ha : Undisturbed ⟨k, p⟩ (.answer a'))
    (hr : progress k p a' = some r) : a' = a := by
  have hfails (e : Errno) : a' ≠ .fails e := by
    rintro rfl
    exact ha
  cases p with
  | moved f r =>
      obtain rfl := Option.some.inj hp
      cases a' with
      | done => rfl
      | _ => cases r <;> cases hr
  | unlinkat _ _ _ | rmdir _ =>
      obtain rfl := Option.some.inj hp
      cases a' with
      | done => rfl
      | _ => cases hr
  | readProcs _ _ _ | scandirat | idle | exited => cases hp
  | _ =>
      obtain rfl := Option.some.inj hp
      cases a' with
      | ok => rfl
      | fails e => exact absurd rfl (hfails e)
      | _ => cases hr

theorem completes_of_expects {Q : State → Prop} {p : Point} {a : Answer}
    (hp : p.expects = some a) (hline : ∀ k, k.layout = l → WholeLine ⟨k, p⟩)
    (hnext : ∀ k, k.layout = l → ∃ k' p', progress k p a = some (k', p') ∧ Completes Q k' p')
    (hk : k.layout = l) : Completes Q k p := by
  have hidle : p ≠ .idle := by
    rintro rfl
    cases hp
  have hquiet (k : Kernel) : Undisturbed ⟨k, p⟩ (.answer a) := by
    cases p <;> cases hp <;> trivial
  refine completes_of_answer hidle hline (fun k hk => ?_) (fun k a' k' p' hk ha hprogress => ?_) hk
  · obtain ⟨k', p', hprogress, -⟩ := hnext k hk
    exact ⟨a, k', p', hquiet k, hprogress⟩
  · obtain rfl := Point.eq_of_expects hp ha hprogress
    obtain ⟨k'', p'', hprogress', hcompletes⟩ := hnext k hk
    obtain ⟨rfl, rfl⟩ := Prod.mk.inj (Option.some.inj (hprogress'.symm.trans hprogress))
    exact hcompletes

/-! ### `move_to_subgroup` -/

theorem completes_move {Q : State → Prop} {f : Frame} (hplace : l.place f.subgroup = some place)
    (hat : l.At place f.pid) (hnew : l.inode f.pid = none)
    (hnext : ∀ k, k.layout = l.move f.pid →
      Completes Q k (nextPid f.caller f.subgroup f.rest f.found))
    (hk : k.layout = l) : Completes Q k (.mkdirat f) := by
  obtain ⟨serial, hserial⟩ := hat
  have hmoved (k : Kernel) (hk : k.layout = l.move f.pid) : Completes Q k (.moved f none) :=
    completes_of_expects rfl (fun _ _ => trivial) (fun k hk => ⟨k, _, rfl, hnext k hk⟩) hk
  -- the process is in its subgroup, which therefore stays
  have hunlinkat (source : ℕ) (k : Kernel) (hk : k.layout = l.move f.pid) :
      Completes Q k (.unlinkat f (some source) none) := by
    refine completes_of_expects rfl (fun _ _ => trivial) (fun k hk => ?_) hk
    have hinode : (k.subgroups.lookup f.pid).map Subgroup.inode = some l.next :=
      (congrArg (Layout.inode · f.pid) hk).trans (Function.update_self _ _ _)
    have hlive : k.layout.live f.pid = some (serial, .subgroup l.next) := by
      rw [hk, Layout.move, Layout.put, Layout.mkdir]
      exact (Function.update_self _ _ _).trans (congrArg (Option.map _) hserial)
    obtain ⟨g, hg, heq⟩ := Option.map_eq_some_iff.mp hinode
    have hpopulated : Populated k.processes g.inode :=
      Kernel.populated_iff_at.mpr ⟨f.pid, serial, heq ▸ hlive⟩
    refine ⟨k, .moved f none, ?_, hmoved k hk⟩
    simp only [progress, Kernel.rmdir, hg, hpopulated, if_true]
  have hwrite (source : ℕ) (k : Kernel) (hk : k.layout = l.mkdir f.pid) :
      Completes Q k (.write f source l.next) := by
    refine completes_of_expects rfl (fun _ _ => trivial) (fun k hk => ?_) hk
    have hlive : k.layout.live f.pid = some (serial, place) := by
      rw [hk]
      exact hserial
    obtain ⟨p, hp, halive, -, -⟩ := Kernel.live_eq_some.mp hlive
    refine ⟨k.setProcesses (k.processes.insert f.pid { p with place := .subgroup l.next }),
      .unlinkat f (some source) none, ?_, hunlinkat source _ ?_⟩
    · simp only [progress, hp, Option.map_some, halive, Bool.false_eq_true, if_false]
    · rw [Kernel.layout_put hp halive, hk, Layout.move]
  have hdir (k : Kernel) (hk : k.layout = l.mkdir f.pid) :
      ∃ g, k.subgroups.lookup f.pid = some g ∧ g.inode = l.next :=
    Option.map_eq_some_iff.mp
      ((congrArg (Layout.inode · f.pid) hk).trans (Function.update_self _ _ _))
  have hopenSub (source : ℕ) (k : Kernel) (hk : k.layout = l.mkdir f.pid) :
      Completes Q k (.openSub f source) := by
    refine completes_of_expects rfl (fun _ _ => trivial) (fun k hk => ?_) hk
    obtain ⟨g, hg, hinode⟩ := hdir k hk
    refine ⟨k, .write f source l.next, ?_, hwrite source k hk⟩
    simp only [progress, hg, hinode, Option.map_some]
  have haddInotify (k : Kernel) (hk : k.layout = l.mkdir f.pid) :
      Completes Q k (.addInotify f) := by
    refine completes_of_expects rfl (fun _ _ => trivial) (fun k hk => ?_) hk
    obtain ⟨g, hg, -⟩ := hdir k hk
    refine ⟨k.addInotify ⟨f.pid, g.inode⟩, .openSub f k.nextSource, ?_, hopenSub _ _ hk⟩
    simp only [progress, hg, Option.map_some]
  refine completes_of_expects rfl (fun k hk => ?_) (fun k hk => ?_) hk
  · exact ⟨place, (k.place_eq _).trans (hk ▸ hplace),
      Kernel.mem_members_iff_at.mpr (hk ▸ ⟨serial, hserial⟩)⟩
  · have hnone : (k.subgroups.lookup f.pid).map Subgroup.inode = none :=
      (congrArg (Layout.inode · f.pid) hk).trans hnew
    have hmem : f.pid ∉ k.subgroups := AList.lookup_eq_none.mp (Option.map_eq_none_iff.mp hnone)
    exact ⟨k.mkdir f.pid, .addInotify f, if_neg hmem,
      haddInotify _ ((k.layout_mkdir f.pid).trans (congrArg (Layout.mkdir · f.pid) hk))⟩

/-! ### `move_pids_to_subgroups` -/

/-- The loop over the lines of one piece. -/
theorem completes_lines {Q : State → Prop} (h : l.Ready) {caller : Caller}
    {subgroup : Option CString} (hplace : l.place subgroup = some place)
    (hfree : ∀ pid, l.At place pid → subgroup ≠ some pid → l.inode pid = none)
    {lines : List CString} {found : ℕ} {done : Set CString} (hat : ∀ pid ∈ lines, l.At place pid)
    (hnodup : lines.Nodup) (hnew : ∀ pid ∈ lines, pid ∉ done)
    (hend : ∀ k found' done', Layout.Moved l done' k.layout →
      (∀ pid, pid ∈ done' ↔ pid ∈ done ∨ pid ∈ lines ∧ subgroup ≠ some pid) →
      (found' = 0 ↔ found = 0 ∧ ∀ pid ∈ lines, subgroup = some pid) →
      Completes Q k (if found' = 0 then returned caller none else .openProcs caller subgroup))
    (hk : Layout.Moved l done k.layout) : Completes Q k (nextPid caller subgroup lines found) := by
  induction lines generalizing found done k with
  | nil => exact hend k found done hk (fun pid => by simp) (by simp)
  | cons pid lines ih =>
      have hpid : pid ≠ [] := (h.isPid place pid (hat pid List.mem_cons_self)).1
      obtain ⟨hother, hlines⟩ := List.nodup_cons.mp hnodup
      have hat' (pid' : CString) (hpid' : pid' ∈ lines) : l.At place pid' :=
        hat pid' (.tail _ hpid')
      rw [nextPid, if_neg hpid]
      split
      -- the process is in the subgroup of its own name and stays there
      · next hown =>
        refine ih hat' hlines (fun pid' hpid' => hnew pid' (.tail _ hpid')) ?_ hk
        refine fun k found' done' hmoved hdone hfound => hend k found' done' hmoved ?_ ?_
        · intro pid'
          rw [hdone]
          refine or_congr_right ⟨fun hmem => ⟨.tail _ hmem.1, hmem.2⟩, fun ⟨hmem, hne⟩ => ⟨?_, hne⟩⟩
          refine (List.mem_cons.mp hmem).resolve_left fun heq => hne (heq ▸ hown)
        · rw [hfound, List.forall_mem_cons, and_iff_right hown]
      · next hne =>
        have hold : pid ∉ done := hnew pid List.mem_cons_self
        have hatpid : l.At place pid := hat pid List.mem_cons_self
        have hdir : l.inode pid = none := hfree pid hatpid hne
        refine completes_move (hk.place_eq hplace) ((hk.at_iff h hplace).mpr ⟨hatpid, hold⟩)
          ((hk.inode pid hold).trans hdir) (fun k' hk' => ?_) rfl
        have hmoved : Layout.Moved l (insert pid done) k'.layout :=
          hk' ▸ hk.move hatpid hold hdir
        refine ih hat' hlines (fun pid' hpid' => ?_) ?_ hmoved
        · rintro (rfl | hmem)
          · exact hother hpid'
          · exact hnew pid' (.tail _ hpid') hmem
        · refine fun k found' done' hmoved hdone hfound => hend k found' done' hmoved ?_ ?_
          · intro pid'
            rw [hdone, Set.mem_insert_iff, List.mem_cons]
            constructor
            · rintro ((rfl | hmem) | ⟨hmem, hne'⟩)
              · exact .inr ⟨.inl rfl, hne⟩
              · exact .inl hmem
              · exact .inr ⟨.inr hmem, hne'⟩
            · rintro (hmem | ⟨rfl | hmem, hne'⟩)
              · exact .inl (.inr hmem)
              · exact .inl (.inl rfl)
              · exact .inr ⟨hmem, hne'⟩
          · rw [hfound, List.forall_mem_cons]
            exact iff_of_false (fun hzero => Nat.succ_ne_zero _ hzero.1) fun hall => hne hall.2.1

/-- One round over a cgroup. It is the last one if no process has to move; otherwise
at least one has moved. -/
theorem completes_round {Q : State → Prop} (h : l.Ready) {caller : Caller}
    {subgroup : Option CString} (hplace : l.place subgroup = some place)
    (hfree : ∀ pid, l.At place pid → subgroup ≠ some pid → l.inode pid = none)
    {done : Set CString}
    (hlast : ∀ k, Layout.Moved l done k.layout →
      (∀ pid, l.At place pid → subgroup ≠ some pid → pid ∈ done) →
      Completes Q k (returned caller none))
    (hmore : ∀ k done', Layout.Moved l done' k.layout → (∀ pid ∈ done, pid ∈ done') →
      (∀ pid ∈ done', pid ∈ done ∨ l.At place pid ∧ subgroup ≠ some pid) →
      (∃ pid ∈ done', pid ∉ done) → Completes Q k (.openProcs caller subgroup))
    (hk : Layout.Moved l done k.layout) : Completes Q k (.openProcs caller subgroup) := by
  have hmembers {k : Kernel} (hk : Layout.Moved l done k.layout) (pid : CString) :
      pid ∈ k.members place ↔ l.At place pid ∧ pid ∉ done :=
    Kernel.mem_members_iff_at.trans (hk.at_iff h hplace)
  refine completes_of_expects rfl (fun _ _ => trivial) (fun k₁ hk₁ => ?_) rfl
  have hmoved₁ : Layout.Moved l done k₁.layout := hk₁ ▸ hk
  have hopen : k₁.place subgroup = some place :=
    (k₁.place_eq subgroup).trans (hmoved₁.place_eq hplace)
  refine ⟨k₁, .readProcs caller subgroup place, by simp only [progress, hopen, Option.map_some], ?_⟩
  refine completes_of_answer Point.noConfusion (fun _ _ => trivial) (fun k₂ hk₂ => ?_)
    (fun k₂ a k₃ p hk₂ ha hprogress => ?_) rfl
  · have hmoved₂ : Layout.Moved l done k₂.layout := hk₂ ▸ hmoved₁
    refine ⟨.procs (k₂.members place), k₂, _, ?_, if_pos fun pid hpid => ?_⟩
    · rintro caller' subgroup' place' hpoint
      obtain ⟨-, -, rfl⟩ := Point.readProcs.inj hpoint
      exact List.Perm.refl _
    · exact h.isPid place pid ((hmembers hmoved₂ pid).mp hpid).1
  · have hmoved₂ : Layout.Moved l done k₂.layout := hk₂ ▸ hmoved₁
    cases a with
    | procs pids =>
        have hperm : pids.Perm (k₂.members place) := ha caller subgroup place rfl
        have hpids (pid : CString) : pid ∈ pids ↔ l.At place pid ∧ pid ∉ done :=
          hperm.mem_iff.trans (hmembers hmoved₂ pid)
        have hnodup : pids.Nodup := hperm.nodup_iff.mpr (k₂.nodup_members place)
        have hisPid (pid : CString) (hpid : pid ∈ pids) : IsPid pid :=
          h.isPid place pid ((hpids pid).mp hpid).1
        obtain ⟨rfl, rfl⟩ := Prod.mk.inj (Option.some.inj ((if_pos hisPid).symm.trans hprogress))
        have hpiece : procLines (readBuffer pids) <+: pids := procLines_readBuffer_prefix hisPid
        have hline (pid : CString) (hmem : pid ∈ procLines (readBuffer pids)) :
            l.At place pid ∧ pid ∉ done := (hpids pid).mp (hpiece.subset hmem)
        refine completes_lines h hplace hfree (fun pid hmem => (hline pid hmem).1)
          (hnodup.sublist hpiece.sublist) (fun pid hmem => (hline pid hmem).2)
          (fun k found done' hmoved hdone hfound => ?_) hmoved₂
        split
        · next hzero =>
          have hown := (hfound.mp hzero).2
          have hsame : done' = done := by
            ext pid
            rw [hdone]
            exact or_iff_left fun hmem => hmem.2 (hown pid hmem.1)
          refine hlast k (hsame ▸ hmoved) fun pid hat hne => ?_
          -- the piece without a process to move is the whole file
          by_contra hnew
          exact hne (eq_of_procLines hnodup hisPid hown pid ((hpids pid).mpr ⟨hat, hnew⟩))
        · next hpos =>
          -- `found` is positive, so some line was a process that had to move
          have hmove : ∃ pid ∈ procLines (readBuffer pids), subgroup ≠ some pid := by
            by_contra hnone
            push Not at hnone
            exact hpos (hfound.mpr ⟨rfl, hnone⟩)
          obtain ⟨pid, hmem, hne⟩ := hmove
          refine hmore k done' hmoved (fun pid' hold => (hdone pid').mpr (.inl hold))
            (fun pid' hnow => ?_) ⟨pid, (hdone pid).mpr (.inr ⟨hmem, hne⟩), (hline pid hmem).2⟩
          exact ((hdone pid').mp hnow).imp_right fun hline' => ⟨(hline pid' hline'.1).1, hline'.2⟩
    | fails e => exact ha.elim
    | _ => cases hprogress

/-- The rounds over one cgroup come to an end: there are ever fewer processes in it
that have to move. -/
theorem completes_group {Q : State → Prop} (h : l.Ready) {cgroups : Set (Option CString)}
    (hclear : l.Clear cgroups) {caller : Caller} {subgroup : Option CString}
    (hsubgroup : subgroup ∈ cgroups) (hplace : l.place subgroup = some place)
    {done : Set CString}
    (hend : ∀ k done', Layout.Moved l done' k.layout →
      (∀ pid, pid ∈ done' ↔ pid ∈ done ∨ l.At place pid ∧ subgroup ≠ some pid) →
      Completes Q k (returned caller none))
    (hk : Layout.Moved l done k.layout) : Completes Q k (.openProcs caller subgroup) := by
  have hmembers {k : Kernel} {done : Set CString} (hk : Layout.Moved l done k.layout)
      (pid : CString) : pid ∈ k.members place ↔ l.At place pid ∧ pid ∉ done :=
    Kernel.mem_members_iff_at.trans (hk.at_iff h hplace)
  induction hn : (k.members place).length using Nat.strongRecOn generalizing done k with
  | ind n ih =>
      refine completes_round h hplace (fun pid => h.inode_eq_none hclear hsubgroup hplace)
        (fun k' hmoved hall => hend k' done hmoved fun pid => ?_)
        (fun k' done' hmoved hmore hdone hnew => ?_) hk
      · exact (or_iff_left_of_imp fun hmove => hall pid hmove.1 hmove.2).symm
      · refine ih _ ?_ (fun k'' done'' hmoved'' hdone'' => hend k'' done'' hmoved'' fun pid => ?_)
          hmoved rfl
        · -- what is left is a part of what was there, without a process that has moved
          obtain ⟨pid, hnow, hnew⟩ := hnew
          have hat : l.At place pid := ((hdone pid hnow).resolve_left hnew).1
          have hsub : k'.members place ⊆ (k.members place).erase pid := by
            intro pid' hpid'
            obtain ⟨hat', hstay⟩ := (hmembers hmoved pid').mp hpid'
            have hne : pid' ≠ pid := fun heq => hstay (heq ▸ hnow)
            exact (List.mem_erase_of_ne hne).mpr
              ((hmembers hk pid').mpr ⟨hat', fun hold => hstay (hmore pid' hold)⟩)
          have hle := (List.subperm_of_subset (k'.nodup_members place) hsub).length_le
          have hmem : pid ∈ k.members place := (hmembers hk pid).mpr ⟨hat, hnew⟩
          have hpos : 0 < (k.members place).length := List.length_pos_of_mem hmem
          rw [List.length_erase_of_mem hmem] at hle
          omega
        · rw [hdone'']
          constructor
          · rintro (hnow | hmove)
            · exact hdone pid hnow
            · exact .inr hmove
          · rintro (hold | hmove)
            · exact .inl (hmore pid hold)
            · exact .inr hmove

/-! ### `move_pids_from_subgroups` -/

theorem completes_names {Q : State → Prop} (h : l.Ready) {cgroups : Set (Option CString)}
    (hclear : l.Clear cgroups) {names : List CString}
    (hnames : ∀ name ∈ names, l.inode name ≠ none ∧ some name ∈ cgroups) {done : Set CString}
    (hend : ∀ k done', Layout.Moved l done' k.layout →
      (∀ pid, pid ∈ done' ↔ pid ∈ done ∨ ∃ name ∈ names, some name ≠ some pid ∧
        ∃ place, l.place (some name) = some place ∧ l.At place pid) → Completes Q k .idle)
    (hk : Layout.Moved l done k.layout) : Completes Q k (returned (.pass names) none) := by
  induction names generalizing done k with
  | nil => exact hend k done hk fun pid => by simp
  | cons name names ih =>
      obtain ⟨hexists, hname⟩ := hnames name List.mem_cons_self
      obtain ⟨inode, hinode⟩ := Option.ne_none_iff_exists'.mp hexists
      have hplace : l.place (some name) = some (.subgroup inode) :=
        congrArg (Option.map Place.subgroup) hinode
      refine completes_group h hclear hname hplace (fun k' done' hmoved hdone => ?_) hk
      refine ih (fun name' hname' => hnames name' (.tail _ hname')) ?_ hmoved
      refine fun k'' done'' hmoved' hdone' => hend k'' done'' hmoved' fun pid => ?_
      rw [hdone', hdone, or_assoc]
      refine or_congr_right ?_
      constructor
      · rintro (⟨hat, hne⟩ | ⟨name', hname', hmove⟩)
        · exact ⟨name, List.mem_cons_self, hne, _, hplace, hat⟩
        · exact ⟨name', .tail _ hname', hmove⟩
      · rintro ⟨name', hname', hne, place', hplace', hat⟩
        rcases List.mem_cons.mp hname' with rfl | hname'
        · obtain rfl := Option.some.inj (hplace.symm.trans hplace')
          exact .inl ⟨hat, hne⟩
        · exact .inr ⟨name', hname', hne, place', hplace', hat⟩

/-! ### The main result -/

/-- Each process of the cgroups is alone in the subgroup of its name, every process is
still there, and the processes of the other cgroups are where they were. -/
structure Kernel.Separated (k : Kernel) (cgroups : Set (Option CString)) (k' : Kernel) : Prop where
  alone : ∀ pid, k.layout.Within cgroups pid →
    ∃ g, k'.subgroups.lookup pid = some g ∧ k'.members (.subgroup g.inode) = [pid]
  kept : ∀ pid p, k.processes.lookup pid = some p → p.zombie = false →
    ∃ p', k'.processes.lookup pid = some p' ∧ p'.zombie = false ∧ p'.serial = p.serial ∧
      (¬ k.layout.Within cgroups pid → p'.place = p.place)

def Separates (k : Kernel) (p p' : Point) (cgroups : Set (Option CString)) : Prop :=
  Completes (fun s => s.point = p' ∧ k.Separated cgroups s.kernel) k p

def Kernel.visited (k : Kernel) : Set (Option CString) :=
  { subgroup | ∃ name ∈ k.subgroups, name.head? ≠ some '.' ∧ subgroup = some name }

theorem separated_of_moved {cgroups : Set (Option CString)} (h : k.layout.Ready)
    (hmoved : Layout.Moved k.layout (k.layout.toMove cgroups) k'.layout) :
    k.Separated cgroups k' where
  alone pid hpid := by
    obtain ⟨inode, hinode, halone⟩ := hmoved.alone h hpid
    obtain ⟨g, hg, rfl⟩ := Option.map_eq_some_iff.mp hinode
    refine ⟨g, hg, List.perm_singleton.mp ((List.perm_ext_iff_of_nodup
      (k'.nodup_members _) (List.nodup_singleton _)).mpr fun pid' => ?_)⟩
    rw [Kernel.mem_members_iff_at, halone, List.mem_singleton]
  kept pid p hp hlive := by
    have hbefore : k.layout.live pid = some (p.serial, p.place) :=
      Kernel.live_eq_some.mpr ⟨p, hp, hlive, rfl, rfl⟩
    by_cases hdone : pid ∈ k.layout.toMove cgroups
    · obtain ⟨serial, place, inode, hold, hnow, -⟩ := hmoved.own pid hdone
      obtain ⟨hserial, -⟩ := Prod.mk.inj (Option.some.inj (hbefore.symm.trans hold))
      obtain ⟨p', hp', hlive', hserial', -⟩ := Kernel.live_eq_some.mp hnow
      refine ⟨p', hp', hlive', hserial'.trans hserial.symm, fun hout => absurd ?_ hout⟩
      obtain ⟨subgroup, hsubgroup, -, hwithin⟩ := hdone
      exact ⟨subgroup, hsubgroup, hwithin⟩
    · obtain ⟨p', hp', hlive', hserial', hplace'⟩ :=
        Kernel.live_eq_some.mp ((hmoved.live pid hdone).trans hbefore)
      exact ⟨p', hp', hlive', hserial', fun _ => hplace'⟩

/-- The move of `main` away from the root of the unit's cgroup. -/
theorem separates_root (h : k.layout.Ready) (hclear : k.layout.Clear {none}) :
    Separates k (.openProcs .main none) .setup {none} := by
  refine completes_group h hclear rfl rfl
    (fun k' done hmoved hdone => .done trivial ⟨rfl, ?_⟩) h.moved
  have heq : done = k.layout.toMove {none} := by
    ext pid
    rw [hdone]
    constructor
    · rintro (hmem | ⟨hat, hne⟩)
      · exact hmem.elim
      · exact ⟨none, rfl, hne, .root, rfl, hat⟩
    · rintro ⟨subgroup, rfl, hne, place, hplace, hat⟩
      obtain rfl := Option.some.inj hplace
      exact .inr ⟨hat, hne⟩
  exact separated_of_moved h (heq ▸ hmoved)

theorem mem_subgroupNames {entries : List (CString × Bool)} :
    name ∈ subgroupNames entries ↔ (name, true) ∈ entries ∧ name.head? ≠ some '.' := by
  simp [subgroupNames]

theorem separates_pass (h : k.layout.Ready) (hclear : k.layout.Clear k.visited) :
    Separates k .scandirat .idle k.visited := by
  refine completes_of_answer Point.noConfusion (fun _ _ => trivial) (fun k₁ hk₁ => ?_)
    (fun k₁ a k₂ p hk₁ ha hprogress => ?_) rfl
  · let entries : List (CString × Bool) :=
      (".".toList, true) :: ("..".toList, true) :: k₁.subgroups.keys.map (·, true)
    refine ⟨.names entries, k₁, _, fun name => ?_, rfl⟩
    simp [entries, AList.mem_keys]
  · cases a with
    | names entries =>
        have hentries : entries ≠ [] := by
          rintro rfl
          exact absurd ((ha ".".toList).mpr (.inl rfl)) List.not_mem_nil
        obtain ⟨rfl, rfl⟩ := Prod.mk.inj (Option.some.inj ((if_neg hentries).symm.trans hprogress))
        have hdir (name : CString) : name ∈ k₁.subgroups ↔ name ∈ k.subgroups := by
          have hinode : (k₁.subgroups.lookup name).map Subgroup.inode =
              (k.subgroups.lookup name).map Subgroup.inode := congrArg (Layout.inode · name) hk₁
          rw [← AList.lookup_isSome, ← AList.lookup_isSome, ← Option.isSome_map, hinode,
            Option.isSome_map]
        have hnames (name : CString) :
            name ∈ subgroupNames entries ↔ name ∈ k.subgroups ∧ name.head? ≠ some '.' := by
          rw [mem_subgroupNames, ha name, hdir]
          constructor
          · rintro ⟨rfl | rfl | hname, hdot⟩
            · exact absurd rfl hdot
            · exact absurd rfl hdot
            · exact ⟨hname, hdot⟩
          · rintro ⟨hname, hdot⟩
            exact ⟨.inr (.inr hname), hdot⟩
        have hmoved₁ : Layout.Moved k.layout ∅ k₁.layout := by
          rw [hk₁]
          exact h.moved
        refine completes_names h hclear (fun name hname => ?_)
          (fun k' done hmoved hdone => .done trivial ⟨rfl, ?_⟩) hmoved₁
        · obtain ⟨hsubgroup, hdot⟩ := (hnames name).mp hname
          refine ⟨Option.isSome_iff_ne_none.mp (Option.isSome_map.trans ?_),
            name, hsubgroup, hdot, rfl⟩
          exact AList.lookup_isSome.mpr hsubgroup
        · have heq : done = k.layout.toMove k.visited := by
            ext pid
            rw [hdone]
            constructor
            · rintro (hmem | ⟨name, hname, hne, hmove⟩)
              · exact hmem.elim
              · obtain ⟨hsubgroup, hdot⟩ := (hnames name).mp hname
                exact ⟨some name, ⟨name, hsubgroup, hdot, rfl⟩, hne, hmove⟩
            · rintro ⟨_, ⟨name, hsubgroup, hdot, rfl⟩, hne, hmove⟩
              exact .inr ⟨name, (hnames name).mpr ⟨hsubgroup, hdot⟩, hne, hmove⟩
          exact separated_of_moved h (heq ▸ hmoved)
    | fails e => exact ha.elim
    | _ => cases hprogress

/-- The program reads complete lines only. The move away from the root and a pass over
the subgroups whose names do not start with a dot come to an end, and then each of these
processes is alone in the subgroup of its own name. -/
theorem separates_processes :
    (∀ pids, (∀ pid ∈ pids, IsPid pid) → procLines (readBuffer pids) <+: pids) ∧
      ∀ k : Kernel, k.layout.Ready →
        (k.layout.Clear {none} → Separates k (.openProcs .main none) .setup {none}) ∧
          (k.layout.Clear k.visited → Separates k .scandirat .idle k.visited) :=
  ⟨fun _ => procLines_readBuffer_prefix, fun _ h => ⟨separates_root h, separates_pass h⟩⟩

theorem Kernel.ready_of_entries
    (hprocesses : ∀ entry ∈ k.processes.entries, IsPid entry.1 ∧ entry.1 ∉ k.subgroups ∧
      (entry.2.place = .root ∨ entry.2.place = .outside ∨
        ∃ inode < k.nextInode, entry.2.place = .subgroup inode))
    (hsubgroups : ∀ g ∈ k.subgroups.entries, g.2.inode < k.nextInode ∧
      ∀ g' ∈ k.subgroups.entries, g.2.inode = g'.2.inode → g.1 = g'.1) :
    k.layout.Ready ∧ ∀ cgroups, k.layout.Clear cgroups := by
  have hentry {pid : CString} {place : Place} (hat : k.layout.At place pid) :
      ∃ p, ⟨pid, p⟩ ∈ k.processes.entries ∧ p.place = place := by
    obtain ⟨serial, hserial⟩ := hat
    obtain ⟨p, hp, -, -, hplace⟩ := live_eq_some.mp hserial
    exact ⟨p, AList.mem_lookup_iff.mp hp, hplace⟩
  have hdir {name : CString} {inode : ℕ} (hname : k.layout.inode name = some inode) :
      ∃ g, ⟨name, g⟩ ∈ k.subgroups.entries ∧ g.inode = inode := by
    obtain ⟨g, hg, hinode⟩ := Option.map_eq_some_iff.mp hname
    exact ⟨g, AList.mem_lookup_iff.mp hg, hinode⟩
  refine ⟨⟨?_, ?_, ?_, ?_⟩, ?_⟩
  · intro place pid hat
    obtain ⟨p, hp, -⟩ := hentry hat
    exact (hprocesses _ hp).1
  · intro inode pid hat
    obtain ⟨p, hp, hplace⟩ := hentry hat
    rcases (hprocesses _ hp).2.2 with hroot | hout | ⟨inode', hlt, heq⟩
    · cases hroot.symm.trans hplace
    · cases hout.symm.trans hplace
    · exact Place.subgroup.inj (heq.symm.trans hplace) ▸ hlt
  · intro name inode hname
    obtain ⟨g, hg, rfl⟩ := hdir hname
    exact (hsubgroups _ hg).1
  · intro name name' inode hname hname'
    obtain ⟨g, hg, rfl⟩ := hdir hname
    obtain ⟨g', hg', heq⟩ := hdir hname'
    exact (hsubgroups _ hg).2 _ hg' heq.symm
  · rintro cgroups pid inode ⟨subgroup, -, place, -, hat⟩ hname
    obtain ⟨p, hp, -⟩ := hentry hat
    obtain ⟨g, hg, -⟩ := Option.map_eq_some_iff.mp hname
    exact absurd (AList.lookup_isSome.mp (by rw [hg]; rfl)) (hprocesses _ hp).2.1

def crowded : Kernel where
  subgroups := ((∅ : GHashTable CString Subgroup).insert "app".toList ⟨0, false⟩).insert
    ".x".toList ⟨1, false⟩
  processes := (((((∅ : Processes).insert "12".toList ⟨0, .root, false⟩).insert
    "1".toList ⟨1, .subgroup 0, false⟩).insert "2".toList ⟨2, .subgroup 0, false⟩).insert
    "3".toList ⟨3, .subgroup 1, false⟩).insert "4".toList ⟨4, .subgroup 1, false⟩
  sources := ∅
  queue := []
  nextInode := 2
  nextSerial := 5
  nextSource := 0

theorem separates_processes_crowded :
    procLines (readBuffer ["12".toList]) <+: ["12".toList] ∧
      Separates crowded (.openProcs .main none) .setup {none} ∧
        Separates crowded .scandirat .idle crowded.visited :=
  have hready := Kernel.ready_of_entries (k := crowded) (by decide) (by decide)
  ⟨separates_processes.1 _ (by decide),
    (separates_processes.2 crowded hready.1).1 (hready.2 _),
    (separates_processes.2 crowded hready.1).2 (hready.2 _)⟩

def Kernel.direct (k : Kernel) : Set (Option CString) :=
  { subgroup | ∃ name ∈ k.subgroups, subgroup = some name }

def hidden : Kernel where
  subgroups := (∅ : GHashTable CString Subgroup).insert ".x".toList ⟨0, false⟩
  processes := ((∅ : Processes).insert "3".toList ⟨0, .subgroup 0, false⟩).insert
    "4".toList ⟨1, .subgroup 0, false⟩
  sources := ∅
  queue := []
  nextInode := 1
  nextSerial := 2
  nextSource := 0

/-- The pass leaves the two processes together. -/
theorem not_separates_hidden :
    ¬ ((∀ pids, (∀ pid ∈ pids, IsPid pid) → procLines (readBuffer pids) <+: pids) ∧
      ∀ k : Kernel, k.layout.Ready →
        (k.layout.Clear {none} → Separates k (.openProcs .main none) .setup {none}) ∧
          (k.layout.Clear k.direct → Separates k .scandirat .idle k.direct)) := by
  rintro ⟨-, h⟩
  have hready := Kernel.ready_of_entries (k := hidden) (by decide) (by decide)
  have hpass : Separates hidden .scandirat .idle hidden.direct :=
    (h hidden hready.1).2 (hready.2 _)
  let names : Answer :=
    .names [(".".toList, true), ("..".toList, true), (".x".toList, true)]
  have hnames : Undisturbed ⟨hidden, .scandirat⟩ (.answer names) := by
    intro name
    have hx : name ∈ hidden.subgroups ↔ name = ".x".toList :=
      (AList.mem_insert _).trans (or_iff_left (AList.notMem_empty name))
    rw [hx]
    simp
  obtain ⟨-, hall⟩ := hpass.next_of_not fun hQ => Point.noConfusion hQ.1
  have hends := hall (.answer names) ⟨hidden, .idle⟩ hnames rfl
  have hwithin : hidden.layout.Within hidden.direct "3".toList :=
    ⟨some ".x".toList, ⟨".x".toList, by decide, rfl⟩, .subgroup 0, rfl, 0, rfl⟩
  have hnone : hidden.subgroups.lookup "3".toList = none := by decide
  -- the pass is over: nothing is left to happen
  obtain ⟨⟨e, s', he, hs'⟩, -⟩ := hends.next_of_not fun hQ => by
    obtain ⟨g, hg, -⟩ := hQ.2.alone _ hwithin
    cases hnone.symm.trans hg
  have hlive (pid : CString) (p : Process) (hp : hidden.processes.lookup pid = some p) :
      p.zombie = false := by
    obtain ⟨-, rfl⟩ | ⟨-, hp⟩ := GHashTable.lookup_insert_eq_some.mp hp
    · rfl
    · obtain ⟨-, rfl⟩ | ⟨-, hp⟩ := GHashTable.lookup_insert_eq_some.mp hp
      · rfl
      · cases (AList.lookup_empty pid).symm.trans hp
  cases e with
  | answer a => cases hs'
  | reap pid =>
      obtain ⟨k', henv, -⟩ := Option.map_eq_some_iff.mp hs'
      obtain ⟨p, hp, hbody⟩ := Option.bind_eq_some_iff.mp henv
      rw [hlive pid p hp] at hbody
      cases hbody
  | merge source => cases hs'
  | _ => exact he

end Uresourced.Cgroupify
