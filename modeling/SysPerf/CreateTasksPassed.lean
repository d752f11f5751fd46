import SysPerf.CreateTasksCleanup

namespace SysPerf.CreateTasks

variable {c : Cleanup} {samples iter : ℕ} {created : ℕ → ℕ → Bool} {s t : State}
  {out : List Event}

/-- The parent is through with the creation at `i` of the call `n`. -/
def Passed (s : State) (n i : ℕ) : Prop :=
  n < s.sample ∨ n = s.sample ∧ s.pc.turn < i

theorem Passed.of_return {n i : ℕ} (h : Passed (s.return iter) n i) (hpc : s.pc.turn = 0)
    (hpos : 0 < i) (hle : i ≤ iter) : Passed s n i := by
  rcases h with hlt | ⟨-, hturn⟩
  · rcases Nat.lt_succ_iff_lt_or_eq.mp hlt with hlt | rfl
    · exact Or.inl hlt
    · exact Or.inr ⟨rfl, by omega⟩
  · have hiter : iter < i := hturn
    omega

theorem Passed.before {n i : ℕ} (h : Passed t n i) (hsample : t.sample = s.sample)
    (hturn : s.pc.turn = t.pc.turn) : Passed s n i := by
  unfold Passed at h ⊢
  omega

/-- What a turn adds to what is passed is its own creation. -/
theorem Passed.turn {n i : ℕ} (h : Passed t n i) (hsample : t.sample = s.sample)
    (hturn : s.pc.turn = t.pc.turn + 1) : Passed s n i ∨ n = s.sample ∧ i = s.pc.turn := by
  unfold Passed at h ⊢
  omega

/-- A task that comes to its end is still not collected. -/
theorem uncollected_set {tasks : List Task} {k n : ℕ} (hat : tasks[k]? = some ⟨n, .running⟩)
    {task : Task} (hmem : task ∈ tasks) (hstatus : task.status ≠ .collected) :
    ∃ left ∈ tasks.set k ⟨n, .ended⟩, left.sample = task.sample ∧ left.status ≠ .collected := by
  obtain ⟨l, hl⟩ := List.mem_iff_getElem?.mp hmem
  by_cases hk : l = k
  · subst hk
    obtain rfl := Option.some.inj (hat.symm.trans hl)
    have hlt := (List.getElem?_eq_some_iff.mp hat).1
    exact ⟨_, List.mem_of_getElem? (List.getElem?_set_self hlt), rfl, by simp⟩
  · have hkeep : (tasks.set k ⟨n, .ended⟩)[l]? = some task := by
      rw [List.getElem?_set_ne (Ne.symm hk), hl]
    exact ⟨task, List.mem_of_getElem? hkeep, rfl, hstatus⟩

/-- The parent in the functions that only create, and the tasks it has left. -/
structure Left (iter : ℕ) (created : ℕ → ℕ → Bool) (s : State) : Prop where
  pc : ∃ i, s.pc = .loop i
  left : ∀ n i, 0 < i → i ≤ iter → Passed s n i → created n i = true →
    ∃ task ∈ s.tasks, task.sample = n ∧ task.status ≠ .collected

theorem Left.step (h : Left iter created s) (hmove : Moves .leave samples iter created s t out) :
    Left iter created t := by
  obtain ⟨i, hpc⟩ := h.pc
  cases hmove with
  | @creates i' hlt hpc' hcreated =>
    refine ⟨⟨i', rfl⟩, ?_⟩
    intro n j hpos hle hpassed hmade
    rcases hpassed.turn (s := s) rfl (by rw [hpc']; rfl) with hbefore | ⟨rfl, -⟩
    · obtain ⟨task, hmem, htask⟩ := h.left n j hpos hle hbefore hmade
      exact ⟨task, List.mem_append_left _ hmem, htask⟩
    · exact ⟨_, List.mem_append_right _ (List.mem_singleton_self _), rfl, by simp⟩
  | @fails i' hlt hpc' hcreated =>
    refine ⟨⟨i', rfl⟩, ?_⟩
    intro n j hpos hle hpassed hmade
    rcases hpassed.turn (s := s) rfl (by rw [hpc']; rfl) with hbefore | ⟨rfl, hj⟩
    · exact h.left n j hpos hle hbefore hmade
    · rw [hj, hpc'] at hmade
      cases hcreated.symm.trans hmade
  | waits _ _ hc => cases hc
  | returns hlt hpc' hc =>
    refine ⟨⟨iter, rfl⟩, ?_⟩
    intro n j hpos hle hpassed hmade
    have hbefore := hpassed.of_return (by rw [hpc']; rfl) hpos hle
    exact h.left n j hpos hle hbefore hmade
  | joins hlt hjoin => rw [hpc] at hjoin; cases hjoin
  | strays hlt hjoin => rw [hpc] at hjoin; cases hjoin
  | drains hlt hwait => rw [hpc] at hwait; cases hwait
  | exits hat =>
    refine ⟨⟨i, hpc⟩, ?_⟩
    intro n j hpos hle hpassed hmade
    obtain ⟨task, hmem, rfl, hstatus⟩ := h.left n j hpos hle hpassed hmade
    exact uncollected_set hat hmem hstatus
  | reaps hwait => rw [hpc] at hwait; cases hwait

theorem reach_left {tr : List Event} (h : Reach (runFunc .leave samples iter created) tr s) :
    Left iter created s := by
  apply h.invariant (P := Left iter created)
  · refine ⟨⟨iter, rfl⟩, ?_⟩
    rintro n i hpos hle (hlt | ⟨-, hturn⟩)
    · exact absurd hlt (Nat.not_lt_zero n)
    · exact absurd hle (Nat.not_le_of_lt hturn)
  · intro s a t out hs hstep
    exact hs.step (step_moves hstep)

/-- The parent in the functions that join, as long as no `pthread_join` has gone astray. -/
structure Joined (iter : ℕ) (created : ℕ → ℕ → Bool) (s : State) : Prop where
  pc : s.pc ≠ .wait
  tid : ∀ i k, s.pc = .join i → s.tid = some k → created s.sample (i + 1) = true
  all : s.pc ≠ .undefined → ∀ n i, 0 < i → i ≤ iter → Passed s n i → created n i = true

theorem Joined.step (h : Joined iter created s)
    (hmove : Moves .joinEach samples iter created s t out) : Joined iter created t := by
  cases hmove with
  | @creates i hlt hpc hcreated =>
    refine ⟨by simp [Cleanup.next], ?_, ?_⟩
    · intro j k hjoin htid
      obtain rfl := Pc.join.inj hjoin
      exact hcreated
    · intro _ n j hpos hle hpassed
      have hbefore := hpassed.before (s := s) rfl (by rw [hpc]; rfl)
      exact h.all (by simp [hpc]) n j hpos hle hbefore
  | @fails i hlt hpc hcreated =>
    refine ⟨by simp [Cleanup.next], by simp, ?_⟩
    intro _ n j hpos hle hpassed
    have hbefore := hpassed.before (s := s) rfl (by rw [hpc]; rfl)
    exact h.all (by simp [hpc]) n j hpos hle hbefore
  | waits _ _ hc => cases hc
  | returns hlt hpc hc =>
    refine ⟨by simp [State.return], by simp [State.return], ?_⟩
    intro _ n j hpos hle hpassed
    have hbefore := hpassed.of_return (by rw [hpc]; rfl) hpos hle
    exact h.all (by simp [hpc]) n j hpos hle hbefore
  | @joins i k n' hlt hpc htid hat =>
    refine ⟨by simp, by simp, ?_⟩
    intro _ n j hpos hle hpassed
    rcases hpassed.turn (s := s) rfl (by rw [hpc]; rfl) with hbefore | ⟨rfl, hj⟩
    · exact h.all (by simp [hpc]) n j hpos hle hbefore
    · rw [hj, hpc]
      exact h.tid i k hpc htid
  | strays => exact ⟨by simp, by simp, by simp⟩
  | drains _ hwait => exact absurd hwait h.pc
  | exits hat => exact ⟨h.pc, h.tid, h.all⟩
  | reaps hwait => exact absurd hwait h.pc

theorem reach_joined {tr : List Event} (h : Reach (runFunc .joinEach samples iter created) tr s) :
    Joined iter created s := by
  apply h.invariant (P := Joined iter created)
  · refine ⟨by simp [runFunc], by simp [runFunc], ?_⟩
    rintro - n i hpos hle (hlt | ⟨-, hturn⟩)
    · exact absurd hlt (Nat.not_lt_zero n)
    · exact absurd hle (Nat.not_le_of_lt hturn)
  · intro s a t out hs hstep
    exact hs.step (step_moves hstep)

end SysPerf.CreateTasks
