import Mathlib.Logic.Relation
import Uresourced.AppMonitor.Handler

/-!
The walk over a tree that does not change.

Here every question of `inotify_add_recursive_watch_on_dir` has one answer, which
a finite tree of directories gives. The walk passes over a directory whose
subdirectories can all be watched, and over everything below it, exactly once.
A subdirectory that cannot be watched is tried again and again: the loop goes on
with the same name.
-/

namespace Uresourced

open CString Relation

/-- A finite tree of directories, with the watch descriptor of each or none, and
the files of each. The height says that there is no infinite descent. -/
structure CgroupTree where
  names : CString → Option (List CString)
  height : CString → ℕ
  watch : CString → Option ℕ
  info : CString → PathInfo
  nodup : ∀ dir ns, names dir = some ns → ns.Nodup
  slash : ∀ dir ns, names dir = some ns → ∀ name ∈ ns, '/' ∉ name
  height_lt : ∀ dir ns, names dir = some ns → ∀ name ∈ ns, height (childPath dir name) < height dir

/-- The running walk, with the directories it has tried to watch and those it has
been called for. -/
structure Walk where
  monitor : RAppMonitor
  stack : List (Task (List CString))
  tried : List CString
  descended : List CString

namespace CgroupTree

variable (k : CgroupTree)

def answer : Task (List CString) → Answer (List CString)
  | .add path _ => .addWatch (k.watch path)
  | .rmWatch _ => .removed
  | .appInfo path _ => .pathInfo (k.info path)
  | .openDir dir => .opened (k.names dir)
  | .readName _ [] => .read none
  | .readName _ (name :: stream) => .read (some (name, stream))
  | .testDir dir name _ => .isDir (k.names (childPath dir name)).isSome

def step (w : Walk) : Option Walk :=
  match w.stack with
  | [] => none
  | task :: rest =>
      (w.monitor.perform task (k.answer task)).map fun (monitor, tasks, _) =>
        { monitor := monitor
          stack := tasks ++ rest
          tried :=
            match task with
            | .add path _ => w.tried ++ [path]
            | _ => w.tried
          descended :=
            match task with
            | .openDir dir => w.descended ++ [dir]
            | _ => w.descended }

abbrev Runs : Walk → Walk → Prop := ReflTransGen fun w w' => k.step w = some w'

def Sub (dir path : CString) : Prop :=
  ∃ ns name, k.names dir = some ns ∧ name ∈ ns ∧ path = childPath dir name ∧
    (k.names path).isSome = true

/-- The directories the walk is to be called for: the first one, and the
subdirectories that can be watched. -/
def Descends (dir path : CString) : Prop :=
  ReflTransGen (fun a b => k.Sub a b ∧ (k.watch b).isSome = true) dir path

/-- `inotify_add_recursive_watch_on_dir` ends, has tried every subdirectory of a
directory it was called for exactly once, and was called for exactly those that
could be watched. -/
def WalkEnds (monitor : RAppMonitor) (dir : CString) : Prop :=
  ∃ w, k.Runs ⟨monitor, [.openDir dir], [], []⟩ w ∧ w.stack = [] ∧
    w.tried.Nodup ∧ (∀ path, path ∈ w.tried ↔ ∃ parent, k.Descends dir parent ∧ k.Sub parent path) ∧
    w.descended.Nodup ∧ ∀ path, path ∈ w.descended ↔ k.Descends dir path

variable {k} {m : RAppMonitor} {dir name path : CString} {rest : List (Task (List CString))}
  {tried descended ns : List CString}

/-! ### The paths below a directory -/

theorem Sub.below (h : k.Sub dir path) : Below dir path := by
  obtain ⟨_, name, -, -, rfl, -⟩ := h
  exact below_childPath dir name

/-- The directories below a path have it in front. -/
theorem below_of_transGen (h : TransGen k.Sub dir path) : Below dir path := by
  induction h with
  | single h => exact h.below
  | tail _ h ih =>
      obtain ⟨_, name, -, -, rfl, -⟩ := h
      exact ih.childPath name

/-- What lies in one subdirectory does not lie in another one. -/
theorem name_eq_of_reflTransGen {name' : CString} (hslash : '/' ∉ name) (hslash' : '/' ∉ name')
    (h : ReflTransGen k.Sub (childPath dir name) path)
    (h' : ReflTransGen k.Sub (childPath dir name') path) : name = name' :=
  name_eq_of_below hslash hslash'
    ((reflTransGen_iff_eq_or_transGen.mp h).imp_right below_of_transGen)
    ((reflTransGen_iff_eq_or_transGen.mp h').imp_right below_of_transGen)

/-! ### A walk that can watch everything -/

theorem runs_single {w w' : Walk} (h : k.step w = some w') : k.Runs w w' := ReflTransGen.single h

theorem runs_addedTasks (m' : RAppMonitor) :
    ∃ m'', k.Runs ⟨m, m'.addedTasks path ++ rest, tried, descended⟩
      ⟨m'', rest, tried, descended⟩ := by
  have hinfo (m : RAppMonitor) : ∃ m'', k.Runs
      ⟨m, (if m'.IsSlice path then [] else [.appInfo path false]) ++ rest, tried, descended⟩
      ⟨m'', rest, tried, descended⟩ := by
    split
    · exact ⟨m, .refl⟩
    · exact ⟨_, runs_single rfl⟩
  unfold RAppMonitor.addedTasks
  cases m'.pathToWd.lookup path with
  | none => exact hinfo m
  | some wd =>
      obtain ⟨m'', hruns⟩ := hinfo m
      exact ⟨m'', .head rfl hruns⟩

theorem runs_skip (h : k.names (childPath dir name) = none) :
    k.Runs ⟨m, .readName dir (name :: ns) :: rest, tried, descended⟩
      ⟨m, .readName dir ns :: rest, tried, descended⟩ := by
  have htest : k.step ⟨m, .testDir dir name ns :: rest, tried, descended⟩ =
      some ⟨m, .readName dir ns :: rest, tried, descended⟩ := by
    simp [step, answer, h, RAppMonitor.perform]
  exact .head rfl (runs_single htest)

theorem step_testDir (h : (k.names (childPath dir name)).isSome = true) :
    k.step ⟨m, .testDir dir name ns :: rest, tried, descended⟩ =
      some ⟨m, .add (childPath dir name) (.walk dir name ns) :: rest, tried, descended⟩ := by
  simp [step, answer, h, RAppMonitor.perform]

theorem runs_enter (m : RAppMonitor) (rest : List (Task (List CString)))
    (tried descended ns : List CString) (h : (k.names (childPath dir name)).isSome = true)
    (hwatch : (k.watch (childPath dir name)).isSome = true) :
    ∃ m', k.Runs ⟨m, .readName dir (name :: ns) :: rest, tried, descended⟩
      ⟨m', .openDir (childPath dir name) :: .readName dir ns :: rest,
        tried ++ [childPath dir name], descended⟩ := by
  obtain ⟨wd, hwd⟩ := Option.isSome_iff_exists.mp hwatch
  have hadd : k.step ⟨m, .add (childPath dir name) (.walk dir name ns) :: rest, tried, descended⟩ =
      some ⟨m.inotifyAddCgroupDir (childPath dir name) wd,
        m.addedTasks (childPath dir name) ++
          (.openDir (childPath dir name) :: .readName dir ns :: rest),
        tried ++ [childPath dir name], descended⟩ := by
    simp [step, answer, hwd, RAppMonitor.perform, RAppMonitor.addReturns]
  obtain ⟨m', hruns⟩ := runs_addedTasks m
  exact ⟨m', .head rfl (.head (step_testDir h) (.head hadd hruns))⟩

theorem runs_openDir (h : k.names dir = some ns) :
    k.Runs ⟨m, .openDir dir :: rest, tried, descended⟩
      ⟨m, .readName dir ns :: rest, tried, descended ++ [dir]⟩ := by
  have hopen : k.step ⟨m, .openDir dir :: rest, tried, descended⟩ =
      some ⟨m, .readName dir ns :: rest, tried, descended ++ [dir]⟩ := by
    simp [step, answer, h, RAppMonitor.perform]
  exact runs_single hopen

def Returns (k : CgroupTree) (dir : CString) : Prop :=
  ∀ m rest tried descended, ∃ m' paths,
    k.Runs ⟨m, .openDir dir :: rest, tried, descended⟩
      ⟨m', rest, tried ++ paths, descended ++ dir :: paths⟩ ∧
    paths.Nodup ∧ ∀ path, path ∈ paths ↔ TransGen k.Sub dir path

theorem runs_readName (m : RAppMonitor) (rest : List (Task (List CString)))
    (tried descended : List CString) {all : List CString} (hdir : k.names dir = some all)
    (hsub : ns ⊆ all) (hnodup : ns.Nodup)
    (hreturns : ∀ name ∈ ns, (k.names (childPath dir name)).isSome = true →
      (k.watch (childPath dir name)).isSome = true ∧ k.Returns (childPath dir name)) :
    ∃ m' paths, k.Runs ⟨m, .readName dir ns :: rest, tried, descended⟩
        ⟨m', rest, tried ++ paths, descended ++ paths⟩ ∧
      paths.Nodup ∧ ∀ path, path ∈ paths ↔ ∃ name ∈ ns,
        (k.names (childPath dir name)).isSome = true ∧
          ReflTransGen k.Sub (childPath dir name) path := by
  induction ns generalizing m tried descended with
  | nil => exact ⟨m, [], runs_single (by simp [step, answer, RAppMonitor.perform]), .nil, by simp⟩
  | cons name ns ih =>
      obtain ⟨hnotMem, hnodup⟩ := List.nodup_cons.mp hnodup
      have hslash {n : CString} (hn : n ∈ name :: ns) : '/' ∉ n := k.slash dir all hdir n (hsub hn)
      have hrest (m : RAppMonitor) (tried descended : List CString) :=
        ih m tried descended (List.subset_of_cons_subset hsub) hnodup fun n hn =>
          hreturns n (List.mem_cons_of_mem _ hn)
      cases hname : k.names (childPath dir name) with
      | none =>
          obtain ⟨m', paths, hruns, hpaths, hmem⟩ := hrest m tried descended
          refine ⟨m', paths, (runs_skip hname).trans hruns, hpaths, fun path => ?_⟩
          simp [hmem, hname]
      | some _ =>
          have hisDir : (k.names (childPath dir name)).isSome = true := by rw [hname]; rfl
          obtain ⟨hwatch, hchild⟩ := hreturns name List.mem_cons_self hisDir
          obtain ⟨m₁, henter⟩ := runs_enter m rest tried descended ns hisDir hwatch
          obtain ⟨m₂, inner, hinner, hinnerNodup, hinnerMem⟩ := hchild m₁ (.readName dir ns :: rest)
            (tried ++ [childPath dir name]) descended
          obtain ⟨m₃, later, hlater, hlaterNodup, hlaterMem⟩ := hrest m₂
            (tried ++ [childPath dir name] ++ inner) (descended ++ childPath dir name :: inner)
          have hfirst (path : CString) : path ∈ childPath dir name :: inner ↔
              ReflTransGen k.Sub (childPath dir name) path := by
            rw [List.mem_cons, hinnerMem, reflTransGen_iff_eq_or_transGen]
          refine ⟨m₃, childPath dir name :: inner ++ later, ?_, ?_, fun path => ?_⟩
          · have hruns := henter.trans (hinner.trans hlater)
            simpa only [List.append_assoc, List.cons_append, List.nil_append] using hruns
          · refine List.nodup_append.mpr ⟨List.nodup_cons.mpr ⟨?_, hinnerNodup⟩, hlaterNodup, ?_⟩
            · exact fun hmem => not_below_self _ (below_of_transGen ((hinnerMem _).mp hmem))
            · rintro path hpath _ hpath' rfl
              obtain ⟨name', hname', -, hpath'⟩ := (hlaterMem path).mp hpath'
              have heq := name_eq_of_reflTransGen (hslash List.mem_cons_self)
                (hslash (List.mem_cons_of_mem _ hname')) ((hfirst path).mp hpath) hpath'
              exact hnotMem (heq ▸ hname')
          · rw [List.mem_append, hfirst, hlaterMem]
            simp [hname]

/-- A walk that can watch everything returns. -/
theorem returns_of_watch (h : ∀ path, TransGen k.Sub dir path → (k.watch path).isSome = true) :
    k.Returns dir := by
  intro m rest tried descended
  induction hheight : k.height dir using Nat.strong_induction_on generalizing dir m rest tried
    descended with
  | _ n ih =>
      cases hdir : k.names dir with
      | none =>
          refine ⟨m, [], runs_single (by simp [step, answer, hdir, RAppMonitor.perform]), .nil,
            fun path => iff_of_false List.not_mem_nil fun hpath => ?_⟩
          obtain ⟨sub, ⟨_, _, hnames, -⟩, -⟩ := TransGen.head'_iff.mp hpath
          cases hdir.symm.trans hnames
      | some ns =>
          have hreturns (name : CString) (hname : name ∈ ns)
              (hisDir : (k.names (childPath dir name)).isSome = true) :
              (k.watch (childPath dir name)).isSome = true ∧ k.Returns (childPath dir name) := by
            have hsub : k.Sub dir (childPath dir name) := ⟨ns, name, hdir, hname, rfl, hisDir⟩
            refine ⟨h _ (.single hsub), fun m rest tried descended => ?_⟩
            exact ih _ (hheight ▸ k.height_lt dir ns hdir name hname)
              (fun path hpath => h path (.head hsub hpath)) m rest tried descended rfl
          obtain ⟨m', paths, hruns, hnodup, hmem⟩ := runs_readName m rest tried
            (descended ++ [dir]) hdir (List.Subset.refl ns) (k.nodup dir ns hdir) hreturns
          refine ⟨m', paths, ?_, hnodup, fun path => ?_⟩
          · simpa only [List.append_assoc, List.singleton_append] using
              (runs_openDir hdir).trans hruns
          · rw [hmem, TransGen.head'_iff]
            constructor
            · rintro ⟨name, hname, hisDir, hpath⟩
              exact ⟨childPath dir name, ⟨ns, name, hdir, hname, rfl, hisDir⟩, hpath⟩
            · rintro ⟨_, ⟨ns', name, hnames, hname, rfl, hisDir⟩, hpath⟩
              obtain rfl := Option.some.inj (hdir.symm.trans hnames)
              exact ⟨name, hname, hisDir, hpath⟩

/-! ### A walk that cannot -/

def Stuck (k : CgroupTree) (w : Walk) : Prop :=
  ∃ dir name ns rest, k.names (childPath dir name) ≠ none ∧ k.watch (childPath dir name) = none ∧
    (w.stack = .testDir dir name ns :: rest ∨
      w.stack = .add (childPath dir name) (.walk dir name ns) :: rest)

theorem Stuck.step {w w' : Walk} (h : k.Stuck w) (hs : k.step w = some w') : k.Stuck w' := by
  obtain ⟨m, stack, tried, descended⟩ := w
  obtain ⟨dir, name, ns, rest, hisDir, hwatch, rfl | rfl⟩ := h
  · rw [step_testDir (Option.isSome_iff_ne_none.mpr hisDir)] at hs
    obtain rfl := Option.some.inj hs
    exact ⟨dir, name, ns, rest, hisDir, hwatch, .inr rfl⟩
  · have hadd : k.step
        ⟨m, .add (childPath dir name) (.walk dir name ns) :: rest, tried, descended⟩ =
          some ⟨m, .testDir dir name ns :: rest, tried ++ [childPath dir name], descended⟩ := by
      simp [CgroupTree.step, answer, hwatch, RAppMonitor.perform, RAppMonitor.addReturns]
    rw [hadd] at hs
    obtain rfl := Option.some.inj hs
    exact ⟨dir, name, ns, rest, hisDir, hwatch, .inl rfl⟩

/-- A walk that gets stuck does not end. -/
theorem not_ends_of_stuck {w w' : Walk} (h : k.Runs w w') (hstuck : k.Stuck w') :
    ¬ ∃ last, k.Runs w last ∧ last.stack = [] := by
  rintro ⟨last, hlast, hempty⟩
  have hbusy {u : Walk} (hu : k.Stuck u) : u.stack ≠ [] := by
    obtain ⟨_, _, _, _, -, -, h | h⟩ := hu <;> simp [h]
  have hunique : Relator.RightUnique fun w w' => k.step w = some w' :=
    fun _ _ _ h₁ h₂ => Option.some.inj (h₁.symm.trans h₂)
  have hstays {u : Walk} (hu : k.Runs w' u) : k.Stuck u := by
    induction hu with
    | refl => exact hstuck
    | tail _ hs ih => exact ih.step hs
  rcases ReflTransGen.total_of_right_unique hunique h hlast with hruns | hruns
  · exact hbusy (hstays hruns) hempty
  · rcases hruns.cases_head with rfl | ⟨_, hs, -⟩
    · exact hbusy hstuck hempty
    · rw [step, hempty] at hs
      cases hs

def Fails (k : CgroupTree) (dir : CString) : Prop :=
  ∃ path, TransGen k.Sub dir path ∧ k.watch path = none

def GetsStuck (k : CgroupTree) (dir : CString) : Prop :=
  ∀ m rest tried descended, ∃ w, k.Runs ⟨m, .openDir dir :: rest, tried, descended⟩ w ∧ k.Stuck w

theorem returns_of_not_fails (h : ¬ k.Fails dir) : k.Returns dir :=
  returns_of_watch fun path hpath => Option.isSome_iff_ne_none.mpr fun hwatch =>
    h ⟨path, hpath, hwatch⟩

/-- The loop over the names gets to the first directory that cannot be watched. -/
theorem readName_stuck (m : RAppMonitor) (rest : List (Task (List CString)))
    (tried descended : List CString) (hchild : ∀ name ∈ ns, k.Fails (childPath dir name) →
      k.GetsStuck (childPath dir name))
    (hfails : ∃ name ∈ ns, (k.names (childPath dir name)).isSome = true ∧
      (k.watch (childPath dir name) = none ∨ k.Fails (childPath dir name))) :
    ∃ w, k.Runs ⟨m, .readName dir ns :: rest, tried, descended⟩ w ∧ k.Stuck w := by
  induction ns generalizing m tried descended with
  | nil =>
      obtain ⟨_, hmem, -⟩ := hfails
      cases hmem
  | cons name ns ih =>
      -- the failure lies behind the first name, unless it is the first name's
      have hlater (hfirst : ¬ ((k.names (childPath dir name)).isSome = true ∧
            (k.watch (childPath dir name) = none ∨ k.Fails (childPath dir name))))
          (m : RAppMonitor) (tried descended : List CString) :
          ∃ w, k.Runs ⟨m, .readName dir ns :: rest, tried, descended⟩ w ∧ k.Stuck w := by
        obtain ⟨name', hmem, hfails⟩ := hfails
        refine ih m tried descended (fun n hn => hchild n (List.mem_cons_of_mem _ hn))
          ⟨name', ?_, hfails⟩
        refine (List.mem_cons.mp hmem).resolve_left ?_
        rintro rfl
        exact hfirst hfails
      by_cases hisDir : (k.names (childPath dir name)).isSome = true
      · cases hwatch : k.watch (childPath dir name) with
        | none =>
            exact ⟨_, runs_single rfl, dir, name, ns, rest, Option.isSome_iff_ne_none.mp hisDir,
              hwatch, .inl rfl⟩
        | some wd =>
            obtain ⟨m₁, henter⟩ := runs_enter m rest tried descended ns hisDir (hwatch ▸ rfl)
            by_cases hbelow : k.Fails (childPath dir name)
            · obtain ⟨w, hruns, hstuck⟩ := hchild name List.mem_cons_self hbelow m₁
                (.readName dir ns :: rest) (tried ++ [childPath dir name]) descended
              exact ⟨w, henter.trans hruns, hstuck⟩
            · obtain ⟨m₂, inner, hinner, -⟩ := returns_of_not_fails hbelow m₁
                (.readName dir ns :: rest) (tried ++ [childPath dir name]) descended
              obtain ⟨w, hruns, hstuck⟩ := hlater (by simp [hwatch, hbelow]) m₂ _ _
              exact ⟨w, henter.trans (hinner.trans hruns), hstuck⟩
      · obtain ⟨w, hruns, hstuck⟩ := hlater (fun h => hisDir h.1) m tried descended
        exact ⟨w, (runs_skip (Option.not_isSome_iff_eq_none.mp hisDir)).trans hruns, hstuck⟩

/-- A walk that cannot watch everything never returns. -/
theorem getsStuck_of_fails (h : k.Fails dir) : k.GetsStuck dir := by
  intro m rest tried descended
  induction hheight : k.height dir using Nat.strong_induction_on generalizing dir m rest tried
    descended with
  | _ n ih =>
      obtain ⟨path, hpath, hwatch⟩ := h
      obtain ⟨sub, ⟨ns, name, hdir, hname, rfl, hisDir⟩, hbelow⟩ := TransGen.head'_iff.mp hpath
      have hfails : k.watch (childPath dir name) = none ∨ k.Fails (childPath dir name) := by
        rcases reflTransGen_iff_eq_or_transGen.mp hbelow with rfl | hbelow
        · exact .inl hwatch
        · exact .inr ⟨path, hbelow, hwatch⟩
      obtain ⟨w, hruns, hstuck⟩ := readName_stuck m rest tried (descended ++ [dir])
        (fun name hname hfails m rest tried descended =>
          ih _ (hheight ▸ k.height_lt dir ns hdir name hname) hfails m rest tried descended rfl)
        ⟨name, hname, hisDir, hfails⟩
      exact ⟨w, (runs_openDir hdir).trans hruns, hstuck⟩

/-! ### When the walk ends -/

theorem not_walkEnds_of_fails (m : RAppMonitor) (h : k.Fails dir) : ¬ k.WalkEnds m dir := by
  rintro ⟨last, hlast, hempty, -⟩
  obtain ⟨w, hruns, hstuck⟩ := getsStuck_of_fails h m [] [] []
  exact not_ends_of_stuck hruns hstuck ⟨last, hlast, hempty⟩

theorem descends_iff (h : ∀ path, TransGen k.Sub dir path → (k.watch path).isSome = true) :
    k.Descends dir path ↔ ReflTransGen k.Sub dir path := by
  constructor
  · intro hpath
    induction hpath with
    | refl => exact .refl
    | tail _ hsub ih => exact .tail ih hsub.1
  · intro hpath
    induction hpath with
    | refl => exact .refl
    | tail hpath hsub ih => exact .tail ih ⟨hsub, h _ (.tail' hpath hsub)⟩

/-- The walk ends and does its work exactly if there is no directory below that cannot
be watched. -/
theorem walkEnds_iff (k : CgroupTree) (m : RAppMonitor) (dir : CString) :
    k.WalkEnds m dir ↔ ∀ path, TransGen k.Sub dir path → (k.watch path).isSome = true := by
  constructor
  · intro hends path hpath
    refine Option.isSome_iff_ne_none.mpr fun hwatch => ?_
    exact not_walkEnds_of_fails m ⟨path, hpath, hwatch⟩ hends
  · intro hwatch
    obtain ⟨m', paths, hruns, hnodup, hmem⟩ := returns_of_watch hwatch m [] [] []
    refine ⟨_, hruns, rfl, hnodup, fun path => ?_, ?_, fun path => ?_⟩
    · simp only [descends_iff hwatch]
      exact (hmem path).trans TransGen.tail'_iff
    · refine List.nodup_cons.mpr ⟨fun hdir => ?_, hnodup⟩
      exact not_below_self dir (below_of_transGen ((hmem dir).mp hdir))
    · rw [descends_iff hwatch, reflTransGen_iff_eq_or_transGen, ← hmem]
      exact List.mem_cons

def noWatchLeft : CgroupTree where
  names dir :=
    if dir = "/a".toList then some ["b".toList] else if dir = "/a/b".toList then some [] else none
  height dir := if dir = "/a".toList then 1 else 0
  watch _ := none
  info _ := ⟨true, none, none, none, 0⟩
  nodup dir ns h := by
    split at h
    · cases h
      decide
    · split at h <;> cases h
      decide
  slash dir ns h := by
    split at h
    · cases h
      decide
    · split at h <;> cases h
      decide
  height_lt dir ns h := by
    split at h
    · next heq =>
      cases h
      rw [heq]
      decide
    · split at h <;> cases h
      exact nofun

theorem not_walkEnds_noWatchLeft :
    ¬ ∀ (k : CgroupTree) (m : RAppMonitor) (dir : CString), k.WalkEnds m dir := by
  intro h
  refine not_walkEnds_of_fails (k := noWatchLeft) (RAppMonitor.init 1000) ?_
    (h noWatchLeft _ "/a".toList)
  exact ⟨"/a/b".toList, .single ⟨["b".toList], "b".toList, by decide, by decide, by decide,
    by decide⟩, rfl⟩

end CgroupTree

end Uresourced
