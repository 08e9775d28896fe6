import Uresourced.AppMonitor.Inotify

/-!
What the kernel answers, and the kernel with another queue.

An answer adds a watch, removes one, or changes nothing. It does not depend on the
events that are waiting, so a run can be compared with one whose queue holds more
events at its head, or fewer of those that are not about the tree.
-/

namespace Uresourced

open CString Runs

/-! ### Answers -/

namespace Kernel

variable {k k' : Kernel} {o : Oracle} {task : Task DirStream} {reply : Answer DirStream}

/-- What an answer can do to the kernel. -/
theorem answer_cases (h : k.answer o task = some (reply, k')) :
    (∃ path caller wd, task = .add path caller ∧ reply = .addWatch (some wd) ∧
      k.addWatch path o.fresh = some (some wd, k')) ∨
    (∃ wd, task = .rmWatch wd ∧ k' = k.rmWatch wd) ∨
    ((∀ wd, reply ≠ .addWatch (some wd)) ∧ k' = k) := by
  cases task with
  | add path caller =>
      obtain ⟨⟨wd, _⟩, hadd, heq⟩ := Option.map_eq_some_iff.mp h
      cases heq
      cases wd with
      | none => exact .inr (.inr ⟨fun _ h => (by cases h), (addWatch_none hadd).2⟩)
      | some wd => exact .inl ⟨path, caller, wd, rfl, rfl, hadd⟩
  | rmWatch wd =>
      cases h
      exact .inr (.inl ⟨wd, rfl, rfl⟩)
  | readName dir stream =>
      simp only [Kernel.answer] at h
      split at h
      · obtain ⟨_, heq⟩ := Option.ite_none_right_eq_some.mp h
        cases heq
        exact .inr (.inr ⟨fun _ h => (by cases h), rfl⟩)
      · obtain ⟨_, heq⟩ := Option.ite_none_right_eq_some.mp h
        cases heq
        exact .inr (.inr ⟨fun _ h => (by cases h), rfl⟩)
  | appInfo _ _ | openDir _ | testDir _ _ _ =>
      cases h
      exact .inr (.inr ⟨fun _ h => (by cases h), rfl⟩)

theorem answer_frame (h : k.answer o task = some (reply, k')) :
    k'.dirs = k.dirs ∧ k'.queue = k.queue := by
  rcases answer_cases h with ⟨_, _, _, _, _, hk⟩ | ⟨_, _, rfl⟩ | ⟨_, rfl⟩
  · obtain ⟨_, ⟨_, rfl⟩ | ⟨_, _, _, rfl⟩⟩ := addWatch_cases hk <;> exact ⟨rfl, rfl⟩
  · exact ⟨rfl, rfl⟩
  · exact ⟨rfl, rfl⟩

theorem Wf.answer {root : CString} (hwf : Wf k root) (h : k.answer o task = some (reply, k')) :
    Wf k' root := by
  rcases answer_cases h with ⟨_, _, _, _, _, hk⟩ | ⟨wd, _, rfl⟩ | ⟨_, rfl⟩
  · exact hwf.addWatch hk
  · exact hwf.rmWatch wd
  · exact hwf

end Kernel

/-! ### Another queue -/

def Kernel.requeue (k : Kernel) (f : List InotifyEvent → List InotifyEvent) : Kernel :=
  { k with queue := f k.queue }

def Watching.requeue (s : Watching) (f : List InotifyEvent → List InotifyEvent) : Watching :=
  { s with kernel := s.kernel.requeue f }

/-- Events about the tree arrive at the end of the other queue, too. -/
def Arrives (f : List InotifyEvent → List InotifyEvent) : Prop :=
  ∀ queue i, i.mask = .create ∨ i.mask = .delete → f (queue ++ [i]) = f queue ++ [i]

namespace Kernel

variable (k : Kernel) {f : List InotifyEvent → List InotifyEvent}

theorem notify_requeue (hf : Arrives f) {mask : Mask} (hmask : mask = .create ∨ mask = .delete)
    (dir name : CString) :
    (k.requeue f).notify dir mask name = (k.notify dir mask name).requeue f := by
  cases hwatch : k.watches dir with
  | none => simp [notify, requeue, hwatch]
  | some wd => simp [notify, requeue, hwatch, hf k.queue ⟨wd, mask, name⟩ hmask]

theorem mkdir_requeue (hf : Arrives f) (dir name : CString) :
    (k.requeue f).mkdir dir name = (k.mkdir dir name).map (requeue · f) := by
  unfold mkdir
  split
  · next h =>
    rw [if_pos, Option.map_some, ← notify_requeue _ hf (.inl rfl)]
    · rfl
    · exact h
  · next h =>
    rw [if_neg, Option.map_none]
    exact h

theorem rmdir_requeue (hf : Arrives f) (dir name : CString) :
    (k.requeue f).rmdir dir name = (k.rmdir dir name).map (requeue · f) := by
  unfold rmdir
  split
  · next h =>
    rw [if_pos, Option.map_some, ← notify_requeue _ hf (.inr rfl)]
    · rfl
    · exact h
  · next h =>
    rw [if_neg, Option.map_none]
    exact h

variable (f)

theorem addWatch_requeue (path : CString) (fresh : ℕ) :
    (k.requeue f).addWatch path fresh =
      (k.addWatch path fresh).map fun (wd, k) => (wd, k.requeue f) := by
  by_cases hdir : path ∈ k.dirs
  · cases hwatch : k.watches path with
    | some wd => simp only [addWatch, requeue, hdir, hwatch, if_true, Option.map_some]
    | none =>
        by_cases hfresh : 0 < fresh ∧ fresh ∉ k.used
        · simp only [addWatch, requeue, hdir, hwatch, hfresh, if_true, Option.map_some,
            not_false_eq_true, and_self]
        · have hnew : ¬ (0 < fresh ∧ fresh ∉ (k.requeue f).used) := hfresh
          have hnone : (k.requeue f).watches path = none := hwatch
          have hmem : path ∈ (k.requeue f).dirs := hdir
          rw [addWatch, addWatch, if_pos hmem, if_pos hdir, hnone, hwatch]
          simp only [if_neg hnew, if_neg hfresh, Option.map_none]
  · simp only [addWatch, requeue, hdir, if_false, Option.map_some]

/-- No answer depends on what is queued. -/
theorem answer_requeue (o : Oracle) (task : Task DirStream) :
    (k.requeue f).answer o task =
      (k.answer o task).map fun (answer, k) => (answer, k.requeue f) := by
  cases task with
  | add path caller =>
      simp only [answer, addWatch_requeue, Option.map_map]
      rfl
  | rmWatch wd => rfl
  | appInfo path notify => rfl
  | openDir dir => rfl
  | readName dir stream =>
      simp only [answer]
      split
      · split <;> rfl
      · by_cases h : k.Exhausted dir stream
        · rw [if_pos h, if_pos]
          · rfl
          · exact h
        · rw [if_neg h, if_neg]
          · rfl
          · exact h
  | testDir dir name stream => rfl

end Kernel

/-- Only taking an event from the queue depends on what is queued. -/
theorem Watching.step_requeue {f : List InotifyEvent → List InotifyEvent} (hf : Arrives f)
    (s : Watching) {move : Move} (hmove : move ≠ .dispatch) :
    (s.requeue f).step move = (s.step move).map (requeue · f) := by
  cases move with
  | mkdir dir name =>
      simp only [step, requeue, Kernel.mkdir_requeue _ hf, Option.map_map]
      rfl
  | rmdir dir name =>
      simp only [step, requeue, Kernel.rmdir_requeue _ hf, Option.map_map]
      rfl
  | start => cases hstarted : s.started <;> simp [step, requeue, hstarted]
  | dispatch => exact absurd rfl hmove
  | run o =>
      simp only [step, requeue]
      cases s.stack with
      | nil => rfl
      | cons task rest =>
          simp only [Kernel.answer_requeue]
          cases s.kernel.answer o task with
          | none => rfl
          | some answered =>
              simp only [Option.map_some, Option.bind_eq_bind, Option.bind_some]
              cases s.monitor.perform task answered.1 <;> rfl

end Uresourced
