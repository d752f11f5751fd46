import SysPerf.KernelRingPasses

namespace SysPerf.KernelRing

open TokenRing

variable {c : Bench} {mask : CpuSet}

/-- Moves a worker can still make, its creation and its join included. -/
def Worker.rank (c : Bench) : Worker → ℕ
  | .unborn => c.iters * (c.footprintArrLen + 2) + 4
  | .starting _ => c.iters * (c.footprintArrLen + 2) + 3
  | .looping _ left => left * (c.footprintArrLen + 2) + 2
  | .touching _ left offset =>
    (left - 1) * (c.footprintArrLen + 2) + 3 + (c.footprintArrLen - offset)
  | .returned => 1
  | .joined => 0

def Main.rank (pipes : ℕ) : Main → ℕ
  | .creating i => pipes - i + 3
  | .signalling => 2
  | .joining _ => 1
  | .returned => 0

def State.rank (s : State c) : ℕ :=
  s.main.rank c.pipes + ∑ i, (s.worker i).rank c

/-- No call of `kern_thread_ring` makes more moves. -/
def turns (c : Bench) : ℕ :=
  c.pipes + 3 + c.pipes * (c.iters * (c.footprintArrLen + 2) + 4)

theorem rank_worker {s t : State c} {i : Fin c.pipes} {w : Worker}
    (hworker : t.worker = Function.update s.worker i w)
    (hmain : t.main.rank c.pipes ≤ s.main.rank c.pipes) (h : w.rank c < (s.worker i).rank c) :
    t.rank < s.rank := by
  have hsum : ∑ j, (t.worker j).rank c < ∑ j, (s.worker j).rank c := by
    rw [hworker]
    exact sum_update_lt (Worker.rank c) s.worker h
  exact Nat.add_lt_add_of_le_of_lt hmain hsum

theorem workerStep_rank {s t : State c} {i : Fin c.pipes} {out : List (PipeOp c)}
    (h : WorkerMove s i t out) : t.rank < s.rank := by
  cases h with
  | starts hw => exact rank_worker rfl le_rfl (by simp [hw, Worker.rank])
  | @reads p left src dst hw hleft hheap hbyte =>
    refine rank_worker rfl le_rfl ?_
    obtain ⟨rest, rfl⟩ := Nat.exists_eq_add_of_lt hleft
    simp only [hw, Worker.rank, Nat.zero_add, Nat.add_sub_cancel, Nat.add_mul]
    omega
  | returns hw => exact rank_worker rfl le_rfl (by simp [hw, Worker.rank])
  | touches hw hlt =>
    refine rank_worker rfl le_rfl ?_
    simp only [hw, Worker.rank]
    omega
  | writes hw hlt hheap =>
    refine rank_worker rfl le_rfl ?_
    simp only [hw, Worker.rank]
    omega

theorem mainStep_rank {s t : State c} {out : List (PipeOp c)} (hs : s.Sound)
    (h : MainMove s t out) : t.rank < s.rank := by
  cases h with
  | @creates i ptr hi hm hfree =>
    have hborn : s.worker ⟨i, hi⟩ = .unborn := (hs.unborn _).mpr (by simp [hm, Main.created])
    refine rank_worker rfl ?_ (by simp [hborn, Worker.rank])
    simp only [hm, Main.rank]
    omega
  | created hm => simp [State.rank, hm, Main.rank]
  | launches hm => simp [State.rank, State.setPipe, hm, Main.rank]
  | joins hi hm hret => exact rank_worker rfl (by simp [hm, Main.rank]) (by simp [hret, Worker.rank])
  | returns hm => simp [State.rank, hm, Main.rank]

theorem kern_thread_ring_rank {s t : State c} {e : Move} {out : List (PipeOp c)} (hs : s.Sound)
    (h : step s e = some (t, out)) : t.Sound ∧ t.rank < s.rank := by
  rcases step_move h with hm | ⟨i, hm⟩
  · exact ⟨mainStep_sound hs hm, mainStep_rank hs hm⟩
  · exact ⟨workerStep_sound hs hm, workerStep_rank hm⟩

/-- The address of the worker's block until it has deleted it. -/
def Worker.address : Worker → Option ℕ
  | .unborn => none
  | .starting ptr => some ptr
  | .looping p _ => some p
  | .touching p _ _ => some p
  | .returned => none
  | .joined => none

/-- Each live block is the one of a worker, and only the workers that the main thread has come to
are joined. -/
structure State.Kept (s : State c) : Prop where
  owned : ∀ ptr pair, s.heap ptr = some pair → ∃ i, (s.worker i).address = some ptr
  joined : ∀ i : Fin c.pipes, s.worker i = .joined → (i : ℕ) < s.main.joined c.pipes

theorem kept_worker {s t : State c} (hs : s.Kept) {i : Fin c.pipes} {w : Worker}
    (hworker : t.worker = Function.update s.worker i w) (hmain : t.main = s.main)
    (hheap : t.heap = s.heap) (hnew : w ≠ .joined)
    (haddress : w.address = (s.worker i).address) : t.Kept where
  owned ptr pair hptr := by
    obtain ⟨j, hj⟩ := hs.owned ptr pair (hheap ▸ hptr)
    refine ⟨j, ?_⟩
    rw [hworker]
    by_cases hji : j = i
    · subst j
      simpa [haddress] using hj
    · simpa [hji] using hj
  joined j hj := by
    rw [hworker] at hj
    rw [hmain]
    by_cases hji : j = i
    · subst j
      exact absurd (by simpa using hj) hnew
    · exact hs.joined j (by simpa [hji] using hj)

theorem workerStep_kept {s t : State c} {i : Fin c.pipes} {out : List (PipeOp c)}
    (hs : s.Kept) (h : WorkerMove s i t out) : t.Kept := by
  cases h with
  | starts hw => exact kept_worker hs rfl rfl rfl (by simp) (by simp [hw, Worker.address])
  | reads hw => exact kept_worker hs rfl rfl rfl (by simp) (by simp [hw, Worker.address])
  | @returns p hw =>
    refine ⟨fun ptr pair hptr => ?_, fun j hj => ?_⟩
    · have hne : ptr ≠ p := by
        rintro rfl
        simp at hptr
      obtain ⟨j, hj⟩ := hs.owned ptr pair (by simpa [hne] using hptr)
      have hji : j ≠ i := by
        rintro rfl
        simp only [hw, Worker.address, Option.some.injEq] at hj
        exact hne hj.symm
      exact ⟨j, by simpa [State.setWorker, hji] using hj⟩
    · by_cases hji : j = i
      · subst j
        simp [State.setWorker] at hj
      · exact hs.joined j (by simpa [State.setWorker, hji] using hj)
  | touches hw => exact kept_worker hs rfl rfl rfl (by simp) (by simp [hw, Worker.address])
  | writes hw => exact kept_worker hs rfl rfl rfl (by simp) (by simp [hw, Worker.address])

theorem mainStep_kept {s t : State c} {out : List (PipeOp c)} (hs : s.Kept) (hsound : s.Sound)
    (h : MainMove s t out) : t.Kept := by
  have hjoined := hs.joined
  cases h with
  | @creates i ptr hi hm hfree =>
    have hborn : s.worker ⟨i, hi⟩ = .unborn :=
      (hsound.unborn _).mpr (by simp [hm, Main.created])
    rw [hm] at hjoined
    refine ⟨fun q pair hq => ?_, fun j hj => ?_⟩
    · by_cases hqp : q = ptr
      · subst q
        exact ⟨⟨i, hi⟩, by simp [State.setWorker, Worker.address]⟩
      · obtain ⟨j, hj⟩ := hs.owned q pair (by simpa [hqp] using hq)
        have hji : j ≠ ⟨i, hi⟩ := by
          rintro rfl
          simp [hborn, Worker.address] at hj
        exact ⟨j, by simpa [State.setWorker, hji] using hj⟩
    · by_cases hji : j = ⟨i, hi⟩
      · subst j
        simp [State.setWorker] at hj
      · exact hjoined j (by simpa [State.setWorker, hji] using hj)
  | created hm =>
    rw [hm] at hjoined
    exact ⟨hs.owned, hjoined⟩
  | launches hm =>
    rw [hm] at hjoined
    exact ⟨hs.owned, hjoined⟩
  | @joins i hi hm hret =>
    rw [hm] at hjoined
    refine ⟨fun ptr pair hptr => ?_, fun j hj => ?_⟩
    · obtain ⟨j, hj⟩ := hs.owned ptr pair hptr
      have hji : j ≠ ⟨i, hi⟩ := by
        rintro rfl
        simp [hret, Worker.address] at hj
      exact ⟨j, by simpa [State.setWorker, hji] using hj⟩
    · by_cases hji : j = ⟨i, hi⟩
      · subst j
        exact Nat.lt_succ_self i
      · exact (hjoined j (by simpa [State.setWorker, hji] using hj)).trans (Nat.lt_succ_self i)
  | returns hm hi =>
    rw [hm] at hjoined
    exact ⟨hs.owned, fun j _ => j.isLt⟩

theorem kept_start (mask : CpuSet) : (start c mask).Kept where
  owned ptr pair hptr := by simp [start] at hptr
  joined i hi := by simp [start] at hi

theorem reach_kept {tr : List (PipeOp c)} {s : State c}
    (h : Reach (kernThreadRing c mask) tr s) : s.Kept := by
  have hall : s.Sound ∧ s.Kept := by
    refine h.invariant (P := fun s => s.Sound ∧ s.Kept) ⟨sound_start mask, kept_start mask⟩ ?_
    intro s e t out ⟨hsound, hs⟩ hstep
    rcases step_move hstep with hm | ⟨i, hm⟩
    · exact ⟨mainStep_sound hsound hm, mainStep_kept hs hsound hm⟩
    · exact ⟨workerStep_sound hsound hm, workerStep_kept hs hm⟩
  exact hall.2

/-- The main thread waits in a join only for a worker that has passes left to make. -/
theorem returned_of_stuck {tr : List (PipeOp c)} {s : State c}
    (h : Reach (kernThreadRing c mask) tr s) (stuck : Stuck (kernThreadRing c mask) s) :
    s.main = .returned := by
  obtain ⟨hs, -⟩ := kern_thread_ring_token h
  cases hm : s.main with
  | creating i => exact absurd stuck (main_moves hs (by simp [hm, Main.launched]))
  | signalling => exact absurd stuck (main_moves hs (by simp [hm, Main.launched]))
  | joining i =>
    have hmain : mainStep s = none := stuck .main
    by_cases hi : i < c.pipes
    · have hstep : workerStep s ⟨i, hi⟩ = none := by
        have hmove : step s (.worker i) = none := stuck (.worker i)
        simpa only [step, hi, dif_pos] using hmove
      have hfits := hs.fits ⟨i, hi⟩
      have hpasses : c.iters ≤ s.passes ⟨i, hi⟩ :=
        Nat.le_of_not_lt fun hlt => kern_thread_ring_not_stuck h hlt stuck
      cases hw : s.worker ⟨i, hi⟩ with
      | unborn =>
        have hle := (hs.unborn ⟨i, hi⟩).mp hw
        simp only [hm, Main.created] at hle
        omega
      | starting ptr => simp [workerStep, hw] at hstep
      | looping p left =>
        rw [hw] at hfits
        obtain ⟨hle, -⟩ := hfits
        simp only [State.passes, hw, Worker.passes] at hpasses
        obtain rfl : left = 0 := by omega
        simp [workerStep, hw] at hstep
      | touching p left offset =>
        rw [hw] at hfits
        simp only [workerStep, hw, hfits.2.2] at hstep
        split at hstep <;> simp at hstep
      | returned => simp [mainStep, hm, hi, hw] at hmain
      | joined =>
        have hlt := (reach_kept h).joined ⟨i, hi⟩ hw
        simp [hm, Main.joined] at hlt
    · simp [mainStep, hm, hi] at hmain
  | returned => rfl

/-- The block at a worker's address is the one made for that worker. -/
theorem Worker.Fits.block {heap : ℕ → Option (Fin c.pipes × Fin c.pipes)} {i : Fin c.pipes}
    {w : Worker} {ptr : ℕ} (h : w.Fits heap i) (hw : w.address = some ptr) :
    heap ptr = some (i, i + 1) := by
  cases w with
  | starting p => exact Option.some.inj hw ▸ h
  | looping p left => exact Option.some.inj hw ▸ h.2
  | touching p left offset => exact Option.some.inj hw ▸ h.2.2
  | _ => simp [Worker.address] at hw

theorem heap_iff {tr : List (PipeOp c)} {s : State c} (h : Reach (kernThreadRing c mask) tr s)
    (ptr : ℕ) (pair : Fin c.pipes × Fin c.pipes) : s.heap ptr = some pair ↔
      ∃ i, (s.worker i).address = some ptr ∧ pair = (i, i + 1) := by
  obtain ⟨hsound, -⟩ := kern_thread_ring_token h
  constructor
  · intro hptr
    obtain ⟨i, hi⟩ := (reach_kept h).owned ptr pair hptr
    have hblock := (hsound.fits i).block hi
    exact ⟨i, hi, Option.some.inj (hptr.symm.trans hblock)⟩
  · rintro ⟨i, hi, rfl⟩
    exact (hsound.fits i).block hi

theorem stuck_of_returned {s : State c} (hs : s.Sound) (hr : s.main = .returned) :
    Stuck (kernThreadRing c mask) s := by
  intro e
  change step s e = none
  cases e with
  | create ptr => simp [step, createStep, hr]
  | main => simp [step, mainStep, hr]
  | worker i =>
    simp only [step]
    split
    next hi =>
      have hjoined := hs.joined ⟨i, hi⟩ (by simpa [hr, Main.joined] using hi)
      simp [workerStep, hjoined]
    next => rfl

/-- Whatever addresses `new` returns and whichever thread runs when, the call comes to its end. A
block is live exactly while the worker it was made for has not deleted it, so that no worker reads
a dead one and none is left at the end. -/
theorem kern_thread_ring_ends (c : Bench) (mask : CpuSet) :
    (∀ es s tr, (kernThreadRing c mask).exec (start c mask) es = some (s, tr) →
      es.length ≤ turns c) ∧
    ∀ tr s, Reach (kernThreadRing c mask) tr s →
      (Stuck (kernThreadRing c mask) s ↔ s.main = .returned) ∧
      (∀ ptr pair, s.heap ptr = some pair ↔
        ∃ i, (s.worker i).address = some ptr ∧ pair = (i, i + 1)) ∧
      (s.main = .returned → ∀ ptr, s.heap ptr = none) := by
  refine ⟨fun es s tr h => ?_, fun tr s h => ?_⟩
  · have hbound := exec_length_le State.rank State.Sound
      (fun _ _ _ _ hs hstep => kern_thread_ring_rank hs hstep) (sound_start mask) h
    simpa [State.rank, start, Main.rank, Worker.rank, turns] using hbound
  · obtain ⟨hsound, -⟩ := kern_thread_ring_token h
    refine ⟨⟨returned_of_stuck h, stuck_of_returned hsound⟩, heap_iff h, fun hr ptr => ?_⟩
    cases hptr : s.heap ptr with
    | none => rfl
    | some pair =>
      obtain ⟨i, hi, -⟩ := (heap_iff h ptr pair).mp hptr
      have hjoined := hsound.joined i (by simp [hr, Main.joined])
      simp [hjoined, Worker.address] at hi

theorem kern_thread_ring_ends_two : ∃ tr s, Reach (kernThreadRing twoPipes {0}) tr s ∧
    s.heap 7 = none ∧ s.heap 3 = none := by
  have hrun : Reach (kernThreadRing twoPipes {0}) _ _ := reach_of_exec
    [.create 7, .create 3, .worker 1, .main, .main, .worker 0, .worker 0, .worker 0,
      .worker 0, .worker 1, .worker 1, .worker 1, .worker 0, .worker 1, .main, .main, .main] rfl
  have hend := ((kern_thread_ring_ends twoPipes {0}).2 _ _ hrun).2.2 rfl
  exact ⟨_, _, hrun, hend 7, hend 3⟩

end SysPerf.KernelRing
