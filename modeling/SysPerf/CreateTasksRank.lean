import SysPerf.CreateTasks

namespace SysPerf.CreateTasks

variable {c : Cleanup} {samples iter : ℕ} {created : ℕ → ℕ → Bool}

/-- The moves that a task has left, until it is collected. -/
def Status.weight : Status → ℕ
  | .running => 2
  | .ended => 1
  | .collected => 0

def Task.weight (task : Task) : ℕ :=
  task.status.weight

/-- The moves that the parent has left in a call, with those of the tasks it may still make. -/
def Pc.weight : Pc → ℕ
  | .loop i => 4 * i + 2
  | .join i => 4 * i + 3
  | .wait => 1
  | .undefined => 0

def rank (samples iter : ℕ) (s : State) : ℕ :=
  (samples - s.sample) * (4 * iter + 3) + s.pc.weight + total Task.weight s.tasks

theorem Pc.weight_loop (i : ℕ) : (Pc.loop i).weight = 4 * i + 2 :=
  rfl

theorem Cleanup.next_weight (c : Cleanup) (i : ℕ) : (c.next i).weight ≤ 4 * i + 3 := by
  cases c with
  | waitAll => exact Nat.le_succ _
  | joinEach => exact Nat.le_refl _
  | leave => exact Nat.le_succ _

theorem rank_return {s : State} (h : s.sample < samples) :
    rank samples iter (s.return iter) < rank samples iter s := by
  obtain ⟨left, hleft⟩ : ∃ left, samples - s.sample = left + 1 :=
    ⟨samples - s.sample - 1, by omega⟩
  have hnext : samples - (s.sample + 1) = left := by omega
  unfold rank State.return
  simp only [hnext, hleft, Pc.weight, Nat.succ_mul]
  omega

theorem rank_step {s t : State} {a : Act} {out : List Event}
    (h : step c samples iter created s a = some (t, out)) :
    rank samples iter t < rank samples iter s := by
  cases step_moves h with
  | @creates i hlt hpc hcreated =>
    have hnext := c.next_weight i
    have htask : total Task.weight [⟨s.sample, .running⟩] = 2 := rfl
    unfold rank
    rw [total_append, hpc, Pc.weight_loop, htask]
    dsimp only
    omega
  | @fails i hlt hpc hcreated =>
    have hnext := c.next_weight i
    unfold rank
    rw [hpc, Pc.weight_loop]
    dsimp only
    omega
  | waits hlt hpc hc =>
    unfold rank
    rw [hpc]
    simp only [Pc.weight]
    omega
  | returns hlt hpc hc => exact rank_return hlt
  | @joins i k n hlt hpc htid hat =>
    have hset := total_set Task.weight (b := ⟨n, .collected⟩) hat
    unfold rank
    rw [hpc]
    simp only [Pc.weight, Task.weight, Status.weight] at hset ⊢
    omega
  | strays hlt hpc hstray =>
    unfold rank
    rw [hpc]
    simp only [Pc.weight]
    omega
  | drains hlt hpc hall => exact rank_return hlt
  | @exits k n hat =>
    have hset := total_set Task.weight (b := ⟨n, .ended⟩) hat
    unfold rank State.setStatus
    simp only [Task.weight, Status.weight] at hset ⊢
    omega
  | @reaps k n hpc hat =>
    have hset := total_set Task.weight (b := ⟨n, .collected⟩) hat
    unfold rank State.setStatus
    simp only [Task.weight, Status.weight] at hset ⊢
    omega

theorem schedule_bounded {s t : State} {es : List Act} {out : List Event}
    (h : (runFunc c samples iter created).exec s es = some (t, out)) :
    es.length ≤ rank samples iter s :=
  exec_length_le (rank samples iter) (fun _ => True)
    (fun _ _ _ _ _ hstep => ⟨trivial, rank_step hstep⟩) trivial h

theorem loop_moves {s : State} {i : ℕ} (hlt : s.sample < samples) (hpc : s.pc = .loop i) :
    parentStep c samples iter created s ≠ none := by
  unfold parentStep
  rw [if_pos hlt, hpc]
  cases i with
  | zero =>
    dsimp only
    split <;> simp
  | succ i =>
    dsimp only
    split <;> simp

theorem wait_moves {s : State} (hlt : s.sample < samples) (hpc : s.pc = .wait)
    (hall : ∀ task ∈ s.tasks, task.status = .collected) :
    parentStep c samples iter created s ≠ none := by
  unfold parentStep
  rw [if_pos hlt, hpc]
  dsimp only
  rw [if_pos hall]
  simp

theorem join_moves {s : State} {i k n : ℕ} (hlt : s.sample < samples) (hpc : s.pc = .join i)
    (htid : s.tid = some k) (hat : s.tasks[k]? = some ⟨n, .ended⟩) :
    parentStep c samples iter created s ≠ none := by
  unfold parentStep
  rw [if_pos hlt, hpc]
  simp [htid, hat]

theorem running_moves {s : State} {k n : ℕ} (hat : s.tasks[k]? = some ⟨n, .running⟩) :
    (runFunc c samples iter created).step s (.exits k) ≠ none := by
  simp [runFunc, step, hat]

theorem ended_moves {s : State} {k n : ℕ} (hpc : s.pc = .wait)
    (hat : s.tasks[k]? = some ⟨n, .ended⟩) :
    (runFunc c samples iter created).step s (.reaps k) ≠ none := by
  simp [runFunc, step, hpc, hat]

end SysPerf.CreateTasks
