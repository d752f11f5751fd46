import SysPerf.CreateTasksCleanup

namespace SysPerf.CreateTasks

variable {c : Cleanup} {samples iter : ℕ} {created : ℕ → ℕ → Bool} {s t : State}
  {out : List Event}

/-- Where the parent is between two moves, and which tasks are not collected there. -/
inductive Place (samples : ℕ) (s : State) : Cleanup → Prop
  | forking {i} : s.pc = .loop i → Place samples s .waitAll
  | waiting : s.pc = .wait → s.sample < samples → Place samples s .waitAll
  | joined {i} : s.pc = .loop i → (∀ task ∈ s.tasks, task.status = .collected) →
      Place samples s .joinEach
  | joining {i k status} : s.pc = .join i → s.sample < samples → s.tid = some k →
      s.tasks[k]? = some ⟨s.sample, status⟩ → status ≠ .collected →
      (∀ j task, j ≠ k → s.tasks[j]? = some task → task.status = .collected) →
      Place samples s .joinEach
  | leaving {i} : s.pc = .loop i → s.tasks = [] → Place samples s .leave

structure Tidy (c : Cleanup) (samples iter : ℕ) (s : State) : Prop where
  booked : Booked samples iter s
  past : ∀ task ∈ s.tasks, task.sample < s.sample → task.status = .collected
  place : Place samples s c

theorem Tidy.start (c : Cleanup) : Tidy c samples iter ⟨0, .loop iter, none, []⟩ := by
  refine ⟨Booked.start, by simp, ?_⟩
  cases c with
  | waitAll => exact Place.forking rfl
  | joinEach => exact Place.joined rfl (by simp)
  | leave => exact Place.leaving rfl rfl

/-- A task that is not collected belongs to the call that the parent is in. -/
theorem Tidy.now (h : Tidy c samples iter s) {k n : ℕ} {status : Status}
    (hat : s.tasks[k]? = some ⟨n, status⟩) (hstatus : status ≠ .collected) : n = s.sample := by
  have hmem := List.mem_of_getElem? hat
  have hle := h.booked.made _ hmem
  by_contra hne
  exact hstatus (h.past _ hmem (Nat.lt_of_le_of_ne hle hne))

theorem Tidy.past_set (h : Tidy c samples iter s) {k n : ℕ} {status new : Status}
    (hat : s.tasks[k]? = some ⟨n, status⟩) (hstatus : status ≠ .collected) :
    ∀ task ∈ s.tasks.set k ⟨n, new⟩, task.sample < s.sample → task.status = .collected := by
  intro task htask hlt
  rcases List.mem_or_eq_of_mem_set htask with hold | rfl
  · exact h.past task hold hlt
  · have hnow := h.now hat hstatus
    exact absurd hnow (Nat.ne_of_lt hlt)

theorem Place.create {i : ℕ} (h : Place samples s c) (hlt : s.sample < samples)
    (hpc : s.pc = .loop (i + 1)) (hleave : c ≠ .leave) :
    Place samples ⟨s.sample, c.next i, some s.tasks.length, s.tasks ++ [⟨s.sample, .running⟩]⟩
      c := by
  cases h with
  | forking => exact Place.forking rfl
  | waiting hwait => rw [hpc] at hwait; cases hwait
  | joined _ hall =>
    have hnew : (s.tasks ++ [⟨s.sample, .running⟩])[s.tasks.length]? =
        some ⟨s.sample, .running⟩ := by simp
    refine Place.joining rfl hlt rfl hnew (by decide) ?_
    intro j task hj hat
    rcases concat_get_cases hat with hold | ⟨heq, -⟩
    · exact hall task (List.mem_of_getElem? hold)
    · exact absurd heq hj
  | joining hjoin => rw [hpc] at hjoin; cases hjoin
  | leaving => exact absurd rfl hleave

theorem Place.fail {i : ℕ} (h : Place samples s c) (hpc : s.pc = .loop (i + 1))
    (hjoin : c ≠ .joinEach) : Place samples ⟨s.sample, c.next i, none, s.tasks⟩ c := by
  cases h with
  | forking => exact Place.forking rfl
  | waiting hwait => rw [hpc] at hwait; cases hwait
  | joined => exact absurd rfl hjoin
  | joining => exact absurd rfl hjoin
  | leaving _ hnone => exact Place.leaving rfl hnone

/-- Behind its loop a function that does not wait has collected all its tasks. -/
theorem Place.all_collected {i : ℕ} (h : Place samples s c) (hpc : s.pc = .loop i)
    (hc : c ≠ .waitAll) : ∀ task ∈ s.tasks, task.status = .collected := by
  cases h with
  | forking => exact absurd rfl hc
  | waiting => exact absurd rfl hc
  | joined _ hall => exact hall
  | joining hjoin => rw [hpc] at hjoin; cases hjoin
  | leaving _ hnone => simp [hnone]

theorem Place.again (hall : ∀ task ∈ s.tasks, task.status = .collected) (h : Place samples s c) :
    Place samples (s.return iter) c := by
  cases h with
  | forking => exact Place.forking rfl
  | waiting => exact Place.forking rfl
  | joined => exact Place.joined rfl hall
  | joining _ _ _ hat hstatus => exact absurd (hall _ (List.mem_of_getElem? hat)) hstatus
  | leaving _ hnone => exact Place.leaving rfl hnone

theorem Place.end' {k n : ℕ} (h : Place samples s c) (hat : s.tasks[k]? = some ⟨n, .running⟩) :
    Place samples (s.setStatus k n .ended) c := by
  have hlt := (List.getElem?_eq_some_iff.mp hat).1
  cases h with
  | forking hpc => exact Place.forking hpc
  | waiting hpc hsample => exact Place.waiting hpc hsample
  | joined hpc hall => cases hall _ (List.mem_of_getElem? hat)
  | @joining i k' status hpc hsample htid hat' hstatus hothers =>
    by_cases hk : k = k'
    · subst hk
      obtain ⟨rfl, rfl⟩ : n = s.sample ∧ Status.running = status := by
        simpa [hat] using hat'
      refine Place.joining hpc hsample htid (List.getElem?_set_self hlt) (by decide) ?_
      intro j task hj hget
      rcases set_get_cases hget with ⟨rfl, -⟩ | ⟨-, hold⟩
      · exact absurd rfl hj
      · exact hothers j task hj hold
    · cases hothers k _ hk hat
  | leaving hpc hnone => simp [hnone] at hat

/-- The parent at `pthread_join` has made the thread that it waits for in this turn, and has joined
all before it. -/
theorem Place.of_join {i : ℕ} (h : Place samples s c) (hpc : s.pc = .join i) :
    c = .joinEach ∧ ∃ k status, s.tid = some k ∧ s.tasks[k]? = some ⟨s.sample, status⟩ ∧
      status ≠ .collected ∧
      ∀ j task, j ≠ k → s.tasks[j]? = some task → task.status = .collected := by
  cases h with
  | forking hloop => rw [hpc] at hloop; cases hloop
  | waiting hwait => rw [hpc] at hwait; cases hwait
  | joined hloop => rw [hpc] at hloop; cases hloop
  | joining _ _ htid hat hstatus hothers => exact ⟨rfl, _, _, htid, hat, hstatus, hothers⟩
  | leaving hloop => rw [hpc] at hloop; cases hloop

theorem Place.join {i k n : ℕ} (h : Place samples s c) (hpc : s.pc = .join i)
    (htid : s.tid = some k) :
    Place samples ⟨s.sample, .loop i, s.tid, s.tasks.set k ⟨n, .collected⟩⟩ c := by
  obtain ⟨rfl, k', status, htid', -, -, hothers⟩ := h.of_join hpc
  obtain rfl := Option.some.inj (htid.symm.trans htid')
  refine Place.joined rfl ?_
  intro task htask
  obtain ⟨l, hl⟩ := List.mem_iff_getElem?.mp htask
  rcases set_get_cases hl with ⟨-, rfl⟩ | ⟨hne, hold⟩
  · rfl
  · exact hothers l task hne hold

theorem Place.wait (h : Place samples s c) (hpc : s.pc = .wait) : c = .waitAll := by
  cases h with
  | forking => rfl
  | waiting => rfl
  | joined hloop => rw [hpc] at hloop; cases hloop
  | joining hjoin => rw [hpc] at hjoin; cases hjoin
  | leaving hloop => rw [hpc] at hloop; cases hloop

end SysPerf.CreateTasks
