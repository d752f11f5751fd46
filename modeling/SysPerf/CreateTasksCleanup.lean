import SysPerf.CreateTasksRank

namespace SysPerf.CreateTasks

/-- When a task of a call is over, it is collected; no call waits for a task of another one; each
call returns. -/
structure CleansUp (f : Function) (samples iter : ℕ) (created : ℕ → ℕ → Bool) : Prop where
  collected : ∀ {tr s}, Reach (runFunc f.cleanup samples iter created) tr s →
    ∀ task ∈ s.tasks, task.sample < s.sample → task.status = .collected
  prompt : ∀ {tr s}, Reach (runFunc f.cleanup samples iter created) tr s →
    ∀ made now, .collected made now ∈ tr → made = now
  defined : ∀ {tr s}, Reach (runFunc f.cleanup samples iter created) tr s → s.pc ≠ .undefined
  returns : ∀ {tr s}, Reach (runFunc f.cleanup samples iter created) tr s →
    Stuck (runFunc f.cleanup samples iter created) s → s.sample = samples
  bounded : ∃ bound, ∀ es t tr,
    (runFunc f.cleanup samples iter created).exec (runFunc f.cleanup samples iter created).init es =
      some (t, tr) → es.length ≤ bound

/-- The creations of one call that leave nothing behind. -/
def Cleanup.Clean (iter : ℕ) (created : ℕ → Bool) : Cleanup → Prop
  | .waitAll => True
  | .joinEach => ∀ i, 0 < i → i ≤ iter → created i = true
  | .leave => ∀ i, 0 < i → i ≤ iter → created i = false

/-- The loop variable of the turn that the parent is in. -/
def Pc.turn : Pc → ℕ
  | .loop i => i
  | .join i => i + 1
  | _ => 0

variable {c : Cleanup} {samples iter : ℕ} {created : ℕ → ℕ → Bool} {s t : State}
  {out : List Event}

theorem Cleanup.next_turn_le (c : Cleanup) (i : ℕ) : (c.next i).turn ≤ i + 1 := by
  cases c with
  | waitAll => exact Nat.le_succ _
  | joinEach => exact Nat.le_refl _
  | leave => exact Nat.le_succ _

structure Booked (samples iter : ℕ) (s : State) : Prop where
  samples : s.sample ≤ samples
  turn : s.pc.turn ≤ iter
  made : ∀ task ∈ s.tasks, task.sample ≤ s.sample

theorem Booked.start : Booked samples iter ⟨0, .loop iter, none, []⟩ :=
  ⟨Nat.zero_le _, Nat.le_refl _, by simp⟩

theorem Booked.returned (h : Booked samples iter s) (hlt : s.sample < samples) :
    Booked samples iter (s.return iter) :=
  ⟨hlt, Nat.le_refl _, fun task htask => (h.made task htask).trans (Nat.le_succ _)⟩

theorem Booked.made_set (h : Booked samples iter s) {k n : ℕ} {status new : Status}
    (hat : s.tasks[k]? = some ⟨n, status⟩) :
    ∀ task ∈ s.tasks.set k ⟨n, new⟩, task.sample ≤ s.sample := by
  intro task htask
  rcases List.mem_or_eq_of_mem_set htask with hold | rfl
  · exact h.made task hold
  · have hmade := h.made _ (List.mem_of_getElem? hat)
    exact hmade

theorem Booked.step (h : Booked samples iter s) (hmove : Moves c samples iter created s t out) :
    Booked samples iter t := by
  have hturn := h.turn
  cases hmove with
  | @creates i hlt hpc hcreated =>
    rw [hpc] at hturn
    refine ⟨h.samples, (c.next_turn_le i).trans hturn, ?_⟩
    intro task htask
    rcases List.mem_append.mp htask with hold | hnew
    · exact h.made task hold
    · obtain rfl := List.mem_singleton.mp hnew
      exact Nat.le_refl _
  | @fails i hlt hpc hcreated =>
    rw [hpc] at hturn
    exact ⟨h.samples, (c.next_turn_le i).trans hturn, h.made⟩
  | waits hlt hpc hc => exact ⟨h.samples, Nat.zero_le _, h.made⟩
  | returns hlt hpc hc => exact h.returned hlt
  | @joins i k n hlt hpc htid hat =>
    rw [hpc] at hturn
    exact ⟨h.samples, (Nat.le_succ i).trans hturn, h.made_set hat⟩
  | strays hlt hpc hstray => exact ⟨h.samples, Nat.zero_le _, h.made⟩
  | drains hlt hpc hall => exact h.returned hlt
  | exits hat => exact ⟨h.samples, hturn, h.made_set hat⟩
  | reaps hpc hat => exact ⟨h.samples, hturn, h.made_set hat⟩

/-- Every run can be prolonged to one in which nobody can move. -/
theorem exists_end (c : Cleanup) (samples iter : ℕ) (created : ℕ → ℕ → Bool) :
    ∃ tr t, Reach (runFunc c samples iter created) tr t ∧
      Stuck (runFunc c samples iter created) t := by
  obtain ⟨tr, t, ht, -, hstuck⟩ := (Reach.init (m := runFunc c samples iter created)).exists_stuck
    (rank samples iter) (fun _ => True) (fun _ _ _ _ _ hstep => ⟨trivial, rank_step hstep⟩) trivial
  exact ⟨_, t, ht, hstuck⟩

end SysPerf.CreateTasks
