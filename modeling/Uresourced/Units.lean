import Uresourced.Utils

/-!
The cgroups of a user's units.

A user unit runs in `/user.slice/user-U.slice/user@U.service`, below any number
of slices, in a directory that is named after it. `get_unit_cgroup_path_from_pid`
cuts the cgroup of a process behind the name of its unit, which it searches for
as a mere substring, and `get_unit_name_from_path` finds the name in the path
again. The two agree unless the name already occurs further up.
-/

namespace Uresourced

open CString

/-! ### Searching -/

theorem prefix_of_prefix_append_cons {α : Type*} {p a b : List α} {c : α} (hc : c ∉ p)
    (h : p <+: a ++ c :: b) : p <+: a := by
  induction a generalizing p with
  | nil =>
      rcases List.prefix_cons_iff.mp h with rfl | ⟨t, rfl, -⟩
      · exact List.nil_prefix
      · exact absurd List.mem_cons_self hc
  | cons x a ih =>
      rcases List.prefix_cons_iff.mp h with rfl | ⟨t, rfl, ht⟩
      · exact List.nil_prefix
      · exact List.cons_prefix_cons.mpr ⟨rfl, ih (fun hmem => hc (List.mem_cons_of_mem _ hmem)) ht⟩

theorem strstr_of_prefix {p s : CString} (h : p <+: s) : strstr p s = some 0 := by
  cases s with
  | nil => rw [strstr, if_pos (List.prefix_nil.mp h)]
  | cons c s => rw [strstr, if_pos (List.isPrefixOf_iff_prefix.mpr h)]

theorem strstr_cons_of_not_prefix {p s : CString} {c : Char} (h : ¬ p <+: c :: s) :
    strstr p (c :: s) = (strstr p s).map (· + 1) := by
  rw [strstr, if_neg fun hp => h (List.isPrefixOf_iff_prefix.mp hp)]

/-- What occurs in a string is found there, whatever follows. -/
theorem strstr_of_infix {p s : CString} (t : CString) (h : p <:+: s) :
    ∃ n, strstr p (s ++ t) = some n ∧ n + p.length ≤ s.length := by
  induction s with
  | nil =>
      obtain rfl := List.infix_nil.mp h
      exact ⟨0, strstr_of_prefix List.nil_prefix, le_rfl⟩
  | cons c s ih =>
      by_cases hp : p <+: c :: (s ++ t)
      · refine ⟨0, strstr_of_prefix hp, ?_⟩
        have := h.length_le
        omega
      · have hs : p <:+: s := by
          rcases List.infix_cons_iff.mp h with hpre | hs
          · exact absurd (hpre.trans (List.prefix_append (c :: s) t)) hp
          · exact hs
        obtain ⟨n, hn, hle⟩ := ih hs
        refine ⟨n + 1, ?_, by simp only [List.length_cons]; omega⟩
        rw [List.cons_append, strstr_cons_of_not_prefix hp, hn]
        rfl

/-- What does not contain a separator is searched for part by part. -/
theorem strstr_append_cons {p part : CString} {sep : Char} (rest : CString) (hsep : sep ∉ p)
    (h : ¬ p <:+: part) :
    strstr p (part ++ sep :: rest) = (strstr p rest).map (· + (part.length + 1)) := by
  have hfirst (a : CString) (ha : ¬ p <+: a) : ¬ p <+: a ++ sep :: rest := fun hp =>
    ha (prefix_of_prefix_append_cons hsep hp)
  induction part with
  | nil => exact strstr_cons_of_not_prefix (hfirst [] fun hp => h hp.isInfix)
  | cons c part ih =>
      have hc : ¬ p <+: c :: (part ++ sep :: rest) :=
        hfirst (c :: part) fun hp => h hp.isInfix
      rw [List.cons_append, strstr_cons_of_not_prefix hc, ih fun hi => h (List.infix_cons hi),
        Option.map_map]
      rfl

/-- A name without a slash is searched for component by component. -/
theorem strstr_childPath {p dir : CString} (rest : CString) (hslash : '/' ∉ p)
    (h : ¬ p <:+: dir) :
    strstr p (childPath dir rest) = (strstr p rest).map (· + (dir.length + 1)) :=
  strstr_append_cons rest hslash h

/-! ### Paths -/

def components (names : List CString) : CString := names.flatMap fun name => '/' :: name

@[simp] theorem components_nil : components [] = [] := rfl

@[simp] theorem components_cons (name : CString) (names : List CString) :
    components (name :: names) = '/' :: name ++ components names := rfl

theorem components_append (names names' : List CString) :
    components (names ++ names') = components names ++ components names' :=
  List.flatMap_append

theorem pathTokens_childPath (dir path : CString) :
    pathTokens (childPath dir path) = pathTokens dir ++ pathTokens path := by
  rw [pathTokens, childPath, List.splitOn_append_cons_self, List.filter_append]
  rfl

theorem pathTokens_name {name : CString} (hslash : '/' ∉ name) (hne : name ≠ []) :
    pathTokens name = [name] := by
  rw [pathTokens, List.splitOn_eq_singleton hslash]
  simp [hne]

theorem pathTokens_components {names : List CString} (h : ∀ name ∈ names, '/' ∉ name ∧ name ≠ [])
    (dir : CString) : pathTokens (dir ++ components names) = pathTokens dir ++ names := by
  induction names using List.reverseRecOn with
  | nil => simp
  | append_singleton names name ih =>
      have hname := h name (by simp)
      have hpath : dir ++ components (names ++ [name]) =
          childPath (dir ++ components names) name := by
        simp [components_append, childPath]
      rw [hpath, pathTokens_childPath, ih fun n hn => h n (by simp [hn]),
        pathTokens_name hname.1 hname.2, List.append_assoc]

/-! ### Units -/

def unitTypes : List CString :=
  [".service".toList, ".socket".toList, ".device".toList, ".mount".toList, ".automount".toList,
    ".swap".toList, ".target".toList, ".path".toList, ".timer".toList, ".scope".toList]

def isUnitChar (c : Char) : Bool :=
  c.isAlphanum || c = ':' || c = '-' || c = '_' || c = '.' || c = '\\' || c = '@'

/-- A name of a unit that is no slice. -/
structure NonSliceUnit (unit : CString) : Prop where
  chars : unit.all isUnitChar = true
  type : ∃ stem, ∃ type ∈ unitTypes, stem ≠ [] ∧ unit = stem ++ type
  length : unit.length ≤ 255

instance (unit : CString) :
    Decidable (∃ stem, ∃ type ∈ unitTypes, stem ≠ [] ∧ unit = stem ++ type) :=
  decidable_of_iff (∃ type ∈ unitTypes, type.length < unit.length ∧ type <:+ unit) <| by
    constructor
    · rintro ⟨type, htype, hlt, stem, rfl⟩
      exact ⟨stem, type, htype, by rintro rfl; simp at hlt, rfl⟩
    · rintro ⟨stem, type, htype, hstem, rfl⟩
      have := List.length_pos_iff.mpr hstem
      exact ⟨type, htype, by simp only [List.length_append]; omega, List.suffix_append stem type⟩

instance (unit : CString) : Decidable (NonSliceUnit unit) :=
  decidable_of_iff (unit.all isUnitChar = true ∧
      (∃ stem, ∃ type ∈ unitTypes, stem ≠ [] ∧ unit = stem ++ type) ∧ unit.length ≤ 255)
    ⟨fun h => ⟨h.1, h.2.1, h.2.2⟩, fun h => ⟨h.1, h.2, h.3⟩⟩

theorem isUnitChar_of_mem {unit : CString} (h : NonSliceUnit unit) {c : Char} (hc : c ∈ unit) :
    isUnitChar c = true :=
  List.all_eq_true.mp h.chars c hc

namespace NonSliceUnit

variable {unit : CString}

theorem slash (h : NonSliceUnit unit) : '/' ∉ unit := fun hmem =>
  absurd (isUnitChar_of_mem h hmem) (by decide)

theorem dot (h : NonSliceUnit unit) : '.' ∈ unit := by
  obtain ⟨stem, type, htype, -, rfl⟩ := h.type
  have hdot : ∀ type ∈ unitTypes, '.' ∈ type := by decide
  exact List.mem_append_right stem (hdot type htype)

theorem ne_nil (h : NonSliceUnit unit) : unit ≠ [] := List.ne_nil_of_mem h.dot

theorem trimmed (h : NonSliceUnit unit) : Trimmed unit := by
  refine trimmed_of_forall h.ne_nil fun c hc => ?_
  have hchar := isUnitChar_of_mem h hc
  refine Bool.eq_false_iff.mpr fun hspace => ?_
  simp only [isAsciiSpace, Bool.or_eq_true, decide_eq_true_eq] at hspace
  rcases hspace with (((rfl | rfl) | rfl) | rfl) | rfl <;> revert hchar <;> decide

theorem not_slice (h : NonSliceUnit unit) (s : CString) :
    hasSuffix (s ++ unit) ".slice".toList = false := by
  obtain ⟨stem, type, htype, -, rfl⟩ := h.type
  have hnone : ∀ type ∈ unitTypes, ¬ ".slice".toList <:+ type ∧ ¬ type <:+ ".slice".toList := by
    decide
  refine Bool.eq_false_iff.mpr fun hsuffix => ?_
  have hslice : ".slice".toList <:+ s ++ (stem ++ type) := List.isSuffixOf_iff_suffix.mp hsuffix
  have htail : type <:+ s ++ (stem ++ type) :=
    (List.suffix_append stem type).trans (List.suffix_append s _)
  rcases List.suffix_or_suffix_of_suffix hslice htail with hle | hle
  · exact (hnone type htype).1 hle
  · exact (hnone type htype).2 hle

/-- The search does not stop at the escape character. -/
theorem not_prefix_escaped (h : NonSliceUnit unit) (s : CString) : ¬ unit <+: '_' :: unit ++ s := by
  have hall (u : CString) (hu : u <+: '_' :: u ++ s) : ∀ c ∈ u, c = '_' := by
    induction u with
    | nil => simp
    | cons c u ih =>
        obtain ⟨rfl, htail⟩ := List.cons_prefix_cons.mp hu
        simpa using ih htail
  intro hprefix
  exact absurd (hall unit hprefix '.' h.dot) (by decide)

end NonSliceUnit

/-! ### Finding the name in a path -/

/-- A component that is taken for the user's service manager. -/
def isManager (token : CString) : Bool :=
  hasPrefix token "user@".toList && hasSuffix token ".service".toList

theorem isManager_of_slice {token : CString} (h : hasSuffix token ".slice".toList = true) :
    isManager token = false := by
  refine Bool.eq_false_iff.mpr fun hmanager => ?_
  have hslice : ".slice".toList <:+ token := List.isSuffixOf_iff_suffix.mp h
  have hservice : ".service".toList <:+ token :=
    List.isSuffixOf_iff_suffix.mp (Bool.and_eq_true_iff.mp hmanager).2
  rcases List.suffix_or_suffix_of_suffix hslice hservice with hle | hle <;> revert hle <;> decide

/-- The name of the unit that a component belongs to. -/
def unescape : CString → CString
  | '_' :: name => name
  | name => name

theorem unitNameOfTokens_cons (after : Bool) (token : CString) (rest : List CString) :
    unitNameOfTokens after (token :: rest) =
      if isManager token then unitNameOfTokens true rest
      else if after && !hasSuffix token ".slice".toList then some (unescape token)
      else unitNameOfTokens after rest := by
  have hmatch : some (unescape token) =
      match token with
      | '_' :: name => some name
      | name => some name := by
    unfold unescape
    split <;> rfl
  rw [hmatch]
  rfl

theorem unitNameOfTokens_skip {after : Bool} {tokens : List CString}
    (h : ∀ token ∈ tokens,
      isManager token = false ∧ (after && !hasSuffix token ".slice".toList) = false)
    (rest : List CString) :
    unitNameOfTokens after (tokens ++ rest) = unitNameOfTokens after rest := by
  induction tokens with
  | nil => rfl
  | cons token tokens ih =>
      have hskip := h token List.mem_cons_self
      rw [List.cons_append, unitNameOfTokens_cons, hskip.1, hskip.2]
      exact ih fun t ht => h t (List.mem_cons_of_mem _ ht)

theorem isManager_manager (user : CString) :
    isManager ("user@".toList ++ user ++ ".service".toList) = true := by
  have hpre : "user@".toList <+: "user@".toList ++ user ++ ".service".toList :=
    ⟨user ++ ".service".toList, (List.append_assoc _ _ _).symm⟩
  rw [isManager, hasPrefix, hasSuffix, List.isPrefixOf_iff_prefix.mpr hpre,
    List.isSuffixOf_iff_suffix.mpr (List.suffix_append _ _)]
  rfl

theorem unitNameOfTokens_manager {token : CString} (h : isManager token = true) (after : Bool)
    (rest : List CString) :
    unitNameOfTokens after (token :: rest) = unitNameOfTokens true rest := by
  rw [unitNameOfTokens_cons, if_pos h]

/-- The component that a unit's cgroup is named by: the name of the unit,
escaped with an underscore where it would look like a file of the cgroup file
system. -/
def Names (component unit : CString) : Prop :=
  (component = unit ∧ unit.head? ≠ some '_') ∨ component = '_' :: unit

instance (component unit : CString) : Decidable (Names component unit) :=
  inferInstanceAs (Decidable (_ ∨ _))

theorem Names.exists_eq_append {component unit : CString} (h : Names component unit) :
    ∃ escape, component = escape ++ unit := by
  rcases h with ⟨rfl, -⟩ | rfl
  · exact ⟨[], rfl⟩
  · exact ⟨['_'], rfl⟩

theorem unescape_of_names {component unit : CString} (h : Names component unit) :
    unescape component = unit := by
  rcases h with ⟨rfl, hhead⟩ | rfl
  · unfold unescape
    split
    · simp at hhead
    · rfl
  · rfl

theorem unitNameOfTokens_unit {component unit : CString} (hunit : NonSliceUnit unit)
    (hnames : Names component unit) (hmanager : isManager component = false)
    (rest : List CString) : unitNameOfTokens true (component :: rest) = some unit := by
  have hslice : hasSuffix component ".slice".toList = false := by
    obtain ⟨escape, rfl⟩ := hnames.exists_eq_append
    exact hunit.not_slice escape
  rw [unitNameOfTokens_cons, hmanager, hslice, unescape_of_names hnames]
  rfl

theorem Names.slash {component unit : CString} (h : Names component unit)
    (hunit : NonSliceUnit unit) : '/' ∉ component := by
  rcases h with ⟨rfl, -⟩ | rfl
  · exact hunit.slash
  · simp [hunit.slash]

theorem Names.ne_nil {component unit : CString} (h : Names component unit)
    (hunit : NonSliceUnit unit) : component ≠ [] := by
  rcases h with ⟨rfl, -⟩ | rfl
  · exact hunit.ne_nil
  · exact List.cons_ne_nil _ _

theorem strstr_component {component unit : CString} (hunit : NonSliceUnit unit)
    (hnames : Names component unit) (s : CString) :
    ∃ n, strstr unit (component ++ s) = some n ∧ n + unit.length = component.length := by
  rcases hnames with ⟨rfl, -⟩ | rfl
  · exact ⟨0, strstr_of_prefix (List.prefix_append component s), Nat.zero_add _⟩
  · refine ⟨1, ?_, Nat.add_comm 1 _⟩
    have hskip : ¬ unit <+: '_' :: (unit ++ s) := hunit.not_prefix_escaped s
    rw [List.cons_append, strstr_cons_of_not_prefix hskip,
      strstr_of_prefix (List.prefix_append unit s)]
    rfl

/-! ### The cgroups of units -/

/-- Where a user unit that is no slice runs: below the service manager of the
user and any number of slices. -/
structure UnitCgroup where
  user : CString
  slices : List CString
  unit : CString
  component : CString
  user_slash : '/' ∉ user
  slices_slash : ∀ slice ∈ slices, '/' ∉ slice
  slices_suffix : ∀ slice ∈ slices, hasSuffix slice ".slice".toList = true
  nonSlice : NonSliceUnit unit
  names : Names component unit
  not_manager : isManager component = false

def mountTokens : List CString := ["sys".toList, "fs".toList, "cgroup".toList]

namespace UnitCgroup

variable (g : UnitCgroup)

def parents : List CString :=
  ["user.slice".toList, "user-".toList ++ g.user ++ ".slice".toList,
    "user@".toList ++ g.user ++ ".service".toList] ++ g.slices

def parent : CString := components g.parents

def path : CString := childPath g.parent g.component

def parentDir : CString := "/sys/fs/cgroup".toList ++ g.parent

/-- The unit is found both ways: from a process in its cgroup or in any cgroup
below, and from every path that this gives. -/
def Agrees (rest : List CString) : Prop :=
  let result := "/sys/fs/cgroup".toList ++ g.path
  getUnitCgroupPathFromPid ⟨some (g.path ++ components rest), some g.unit⟩ = some result ∧
    ∀ path, path = result ∨ Below result path → getUnitNameFromPath path = some g.unit

theorem mem_parents {name : CString} (h : name ∈ g.parents) : '/' ∉ name ∧ name ≠ [] := by
  rcases List.mem_append.mp h with hfixed | hslice
  · rcases hfixed with _ | ⟨_, _ | ⟨_, _ | ⟨_, ⟨⟩⟩⟩⟩
    · decide
    · simp [g.user_slash]
    · simp [g.user_slash]
  · refine ⟨g.slices_slash name hslice, ?_⟩
    rintro rfl
    exact absurd (g.slices_suffix [] hslice) (by decide)

theorem mountPoint_path :
    "/sys/fs/cgroup".toList ++ g.path = childPath g.parentDir g.component := by
  unfold path parentDir childPath
  exact (List.append_assoc "/sys/fs/cgroup".toList g.parent ('/' :: g.component)).symm

theorem trimmed_path : Trimmed g.path := by
  obtain ⟨escape, hcomponent⟩ := g.names.exists_eq_append
  have hslash : Trimmed "/".toList := ⟨by decide, by decide, by decide⟩
  have hpath : g.path = "/".toList ++ ((components g.parents).tail ++ '/' :: escape) ++ g.unit := by
    rw [path, childPath, hcomponent, parent, parents]
    simp
  rw [hpath]
  exact hslash.append g.nonSlice.trimmed _

theorem getUnitCgroupPathFromPid_eq (rest : List CString) :
    ∃ s, getUnitCgroupPathFromPid ⟨some (g.path ++ components rest), some g.unit⟩ =
      (strstr g.unit (childPath g.parentDir (g.component ++ s))).map fun offset =>
        (childPath g.parentDir (g.component ++ s)).take (offset + g.unit.length) := by
  obtain ⟨s, -, hs⟩ := g.trimmed_path.strip_append (components rest)
  refine ⟨s, ?_⟩
  have hcomplete : "/sys/fs/cgroup".toList ++ strip (g.path ++ components rest) =
      childPath g.parentDir (g.component ++ s) := by
    rw [hs, ← List.append_assoc, mountPoint_path, childPath, childPath, List.append_assoc,
      List.cons_append]
  rw [← hcomplete]
  simp only [getUnitCgroupPathFromPid, Option.map_eq_map, Option.map_some, g.nonSlice.trimmed.strip,
    Option.bind_eq_bind, Option.bind_some]
  cases strstr g.unit ("/sys/fs/cgroup".toList ++ strip (g.path ++ components rest)) <;> rfl

/-- Where the name does not occur further up, the path is cut behind the unit. -/
theorem getUnitCgroupPathFromPid_of_not_infix (h : ¬ g.unit <:+: g.parentDir)
    (rest : List CString) :
    getUnitCgroupPathFromPid ⟨some (g.path ++ components rest), some g.unit⟩ =
      some ("/sys/fs/cgroup".toList ++ g.path) := by
  obtain ⟨s, hs⟩ := g.getUnitCgroupPathFromPid_eq rest
  obtain ⟨n, hn, hlength⟩ := strstr_component g.nonSlice g.names s
  have hwhole : childPath g.parentDir (g.component ++ s) =
      childPath g.parentDir g.component ++ s := by simp [childPath]
  have hcut : n + (g.parentDir.length + 1) + g.unit.length =
      (childPath g.parentDir g.component).length := by
    simp only [childPath, List.length_append, List.length_cons]
    omega
  rw [hs, strstr_childPath _ g.nonSlice.slash h, hn, Option.map_some, Option.map_some, hcut, hwhole,
    List.take_left, mountPoint_path]

/-- Where it does, the path ends in a directory above. -/
theorem getUnitCgroupPathFromPid_of_infix (h : g.unit <:+: g.parentDir) (rest : List CString) :
    getUnitCgroupPathFromPid ⟨some (g.path ++ components rest), some g.unit⟩ ≠
      some ("/sys/fs/cgroup".toList ++ g.path) := by
  obtain ⟨s, hs⟩ := g.getUnitCgroupPathFromPid_eq rest
  obtain ⟨n, hn, hlength⟩ := strstr_of_infix ('/' :: (g.component ++ s)) h
  rw [hs, childPath, hn, Option.map_some, mountPoint_path]
  intro heq
  have hlength' := congrArg List.length (Option.some.inj heq)
  simp only [List.length_take, childPath, List.length_append, List.length_cons] at hlength'
  omega

theorem pathTokens_eq :
    pathTokens ("/sys/fs/cgroup".toList ++ g.path) = mountTokens ++ g.parents ++ [g.component] := by
  have hmount : pathTokens "/sys/fs/cgroup".toList = mountTokens := by decide
  have hdir : pathTokens g.parentDir = mountTokens ++ g.parents :=
    (pathTokens_components (fun _ => g.mem_parents) _).trans (congrArg (· ++ g.parents) hmount)
  have hcomponent : pathTokens g.component = [g.component] :=
    pathTokens_name (g.names.slash g.nonSlice) (g.names.ne_nil g.nonSlice)
  rw [mountPoint_path, pathTokens_childPath, hdir, hcomponent]

/-- The name is found in the path of the unit's cgroup and in those below. -/
theorem getUnitNameFromPath_eq {path : CString}
    (h : path = "/sys/fs/cgroup".toList ++ g.path ∨
      Below ("/sys/fs/cgroup".toList ++ g.path) path) :
    getUnitNameFromPath path = some g.unit := by
  have htokens : ∃ rest, pathTokens path =
      mountTokens ++ g.parents ++ g.component :: rest := by
    rcases h with rfl | hbelow
    · exact ⟨[], g.pathTokens_eq⟩
    · obtain ⟨below, rfl⟩ := below_iff.mp hbelow
      exact ⟨pathTokens below, by rw [pathTokens_childPath, pathTokens_eq]; simp⟩
  obtain ⟨rest, hrest⟩ := htokens
  have hmount : ∀ token ∈ mountTokens, isManager token = false := by decide
  have hfirst : ∀ token ∈ mountTokens ++ g.parents.take 2,
      isManager token = false ∧ (false && !hasSuffix token ".slice".toList) = false := by
    intro token htoken
    refine ⟨?_, rfl⟩
    rcases List.mem_append.mp htoken with hmem | _ | ⟨_, _ | ⟨_, ⟨⟩⟩⟩
    · exact hmount token hmem
    · decide
    · exact isManager_of_slice (List.isSuffixOf_iff_suffix.mpr (List.suffix_append _ _))
  have hslices : ∀ token ∈ g.slices,
      isManager token = false ∧ (true && !hasSuffix token ".slice".toList) = false :=
    fun token htoken => ⟨isManager_of_slice (g.slices_suffix token htoken),
      by rw [g.slices_suffix token htoken]; rfl⟩
  have hsplit : mountTokens ++ g.parents ++ g.component :: rest =
      (mountTokens ++ g.parents.take 2) ++
        ("user@".toList ++ g.user ++ ".service".toList) :: (g.slices ++ g.component :: rest) := by
    simp [parents]
  rw [getUnitNameFromPath, hrest, hsplit, unitNameOfTokens_skip hfirst,
    unitNameOfTokens_manager (isManager_manager g.user), unitNameOfTokens_skip hslices,
    unitNameOfTokens_unit g.nonSlice g.names g.not_manager]

/-- The unit is found both ways exactly if its name does not occur in the path
above its own component. -/
theorem agrees_iff (rest : List CString) : g.Agrees rest ↔ ¬ g.unit <:+: g.parentDir := by
  constructor
  · exact fun h hinfix => g.getUnitCgroupPathFromPid_of_infix hinfix rest h.1
  · exact fun h => ⟨g.getUnitCgroupPathFromPid_of_not_infix h rest,
      fun _ => g.getUnitNameFromPath_eq⟩

def numbered : UnitCgroup where
  user := "1000".toList
  slices := ["app.slice".toList]
  unit := "1000.service".toList
  component := "1000.service".toList
  user_slash := by decide
  slices_slash := by decide
  slices_suffix := by decide
  nonSlice := by decide
  names := by decide
  not_manager := by decide

/-- The name already ends the name of the service manager, which the path is
cut behind. -/
theorem not_agrees_numbered : ¬ ∀ (g : UnitCgroup) (rest : List CString), g.Agrees rest := by
  intro h
  exact absurd (h numbered []).1 (by decide)

end UnitCgroup

end Uresourced
