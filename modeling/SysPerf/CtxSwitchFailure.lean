import SysPerf.CtxSwitchRing
import Mathlib.Tactic.FinCases

namespace SysPerf.CtxSwitch

open TokenRing

variable {c : Bench} {flt : Faults c}

/-- Moves a child can still make, reading, touching and writing included. -/
def Child.rank (c : Bench) : Child → ℕ
  | .unborn => c.iters * (c.footprintArrLen + 2) + 4
  | .starting => c.iters * (c.footprintArrLen + 2) + 3
  | .looping j => (c.iters - j) * (c.footprintArrLen + 2) + 2
  | .touching j offset =>
    (c.iters - (j + 1)) * (c.footprintArrLen + 2) + 3 + (c.footprintArrLen - offset)
  | .exited _ => 1
  | .reaped _ => 0

def Parent.rank (pipes : ℕ) : Parent → ℕ
  | .forking i => pipes - i + 3
  | .signalling => 2
  | .waiting => 1
  | .returned => 0
  | .failed _ => 0

def State.rank (s : State c) : ℕ :=
  s.parent.rank c.pipes + ∑ i, (s.child i).rank c

theorem rank_setChild {s : State c} {i : Fin c.pipes} {ch : Child}
    (h : ch.rank c < (s.child i).rank c) : (s.setChild i ch).rank < s.rank :=
  Nat.add_lt_add_left (sum_update_lt (Child.rank c) s.child h) _

theorem childStep_rank {s t : State c} {i : Fin c.pipes} {out : List (PipeOp c)}
    (h : ChildMove flt s i t out) : t.rank < s.rank := by
  cases h with
  | throws hch => exact rank_setChild (by simp [hch, Child.rank])
  | starts hch => exact rank_setChild (by simp [hch, Child.rank])
  | @reads j hch hj hbyte =>
    have hround : c.iters - j = c.iters - (j + 1) + 1 := by omega
    refine rank_setChild (s := s.setPipe _ _) ?_
    simp only [State.setPipe, hch, Child.rank, hround, Nat.add_mul]
    omega
  | exits hch => exact rank_setChild (by simp [hch, Child.rank])
  | touches hch hlt =>
    refine rank_setChild ?_
    simp only [hch, Child.rank]
    omega
  | writes hch hlt =>
    refine rank_setChild (s := s.setPipe _ _) ?_
    simp only [State.setPipe, hch, Child.rank]
    omega

theorem parentStep_rank {s t : State c} {out : List (PipeOp c)} (hs : s.Sound flt)
    (h : ParentMove flt s t out) : t.rank < s.rank := by
  cases h with
  | forkFails hi hp => simp [State.rank, hp, Parent.rank]
  | @forks i hi hp =>
    have hborn : s.child ⟨i, hi⟩ = .unborn := (hs.unborn _).mpr (by simp [hp, Parent.forked])
    have hlt : (s.setChild ⟨i, hi⟩ .starting).rank < s.rank :=
      rank_setChild (by simp [hborn, Child.rank])
    simp only [State.rank, State.setChild, hp, Parent.rank] at hlt ⊢
    omega
  | forked hp => simp [State.rank, hp, Parent.rank]
  | launches hp => simp [State.rank, State.setPipe, hp, Parent.rank]
  | returns hp => simp [State.rank, hp, Parent.rank]

/-- Every schedule comes to an end, with or without the processes it leaves behind. -/
theorem total_pass_rank {s t : State c} {e : Move c} {out : List (PipeOp c)} (hs : s.Sound flt)
    (h : (totalPass c flt).step s e = some (t, out)) : t.Sound flt ∧ t.rank < s.rank := by
  cases e with
  | parent =>
    have hm := parentStep_move h
    exact ⟨parentStep_sound hs hm, parentStep_rank hs hm⟩
  | child i =>
    have hm := childStep_move h
    exact ⟨childStep_sound hs hm, childStep_rank hm⟩
  | wait i =>
    obtain ⟨j, _, hch, ht, _⟩ := waitStep_move h
    refine ⟨waitStep_sound hs h, ?_⟩
    rw [ht]
    exact rank_setChild (by simp [hch, Child.rank])

/-- Child `i` stands at its `read` and the pipe is empty. -/
def State.BlockedOnPipe (s : State c) (i : Fin c.pipes) : Prop :=
  ∃ j, s.child i = .looping j ∧ j < c.iters ∧ s.pipe (slot c.pipes (i + c.pipes - 1)) = 0

/-- Where no party can move, a child has either ended or is blocked on a pipe. -/
theorem child_of_stuck {s : State c} (stuck : Stuck (totalPass c flt) s) (i : Fin c.pipes) :
    s.child i = .unborn ∨ s.BlockedOnPipe i ∨ (∃ j, s.child i = .exited j) ∨
      ∃ j, s.child i = .reaped j := by
  have hstep : childStep flt s i = none := stuck (.child i)
  cases hch : s.child i with
  | unborn => exact Or.inl rfl
  | starting =>
    simp only [childStep, hch] at hstep
    split at hstep <;> simp at hstep
  | looping j =>
    simp only [childStep, hch] at hstep
    split at hstep
    next hj =>
      split at hstep
      next => simp at hstep
      next hpipe => exact Or.inr (Or.inl ⟨j, hch, hj, Nat.eq_zero_of_not_pos hpipe⟩)
    next => simp at hstep
  | touching j offset =>
    simp only [childStep, hch] at hstep
    split at hstep <;> simp at hstep
  | exited j => exact Or.inr (Or.inr (Or.inl ⟨j, rfl⟩))
  | reaped j => exact Or.inr (Or.inr (Or.inr ⟨j, rfl⟩))

/-- A parent can be blocked in `wait` only by a child that is blocked on a pipe. -/
theorem blocked_of_wait {s : State c} (hp : s.parent = .waiting)
    (stuck : Stuck (totalPass c flt) s) : ∃ i, s.BlockedOnPipe i := by
  by_contra hnone
  have hgone : ∀ i, (s.child i).gone = true := by
    intro i
    rcases child_of_stuck stuck i with hch | hblocked | ⟨j, hch⟩ | ⟨j, hch⟩
    · simp [hch, Child.gone]
    · exact absurd ⟨i, hblocked⟩ hnone
    · have hwait : waitStep s i = none := stuck (.wait i)
      simp [waitStep, hp, hch] at hwait
    · simp [hch, Child.gone]
  have hstep : parentStep flt s = none := stuck .parent
  simp [parentStep, hp, hgone] at hstep

/-- What is asked of `total_pass` when forks fail or children die. -/
structure FailureHandled (c : Bench) (flt : Faults c) : Prop where
  complete : ∀ {tr s}, Reach (totalPass c flt) tr s → s.parent = .returned →
    ∀ i, (s.child i).passes = c.iters
  wait : ∀ {tr s}, Reach (totalPass c flt) tr s → s.parent = .waiting →
    ¬Stuck (totalPass c flt) s
  exit : ∀ {tr s m}, Reach (totalPass c flt) tr s → s.parent = .failed m →
    Stuck (totalPass c flt) s → ∀ i, ¬s.BlockedOnPipe i

theorem passes_le_iters {tr : List (PipeOp c)} {s : State c} (h : Reach (totalPass c flt) tr s)
    (i : Fin c.pipes) : (s.child i).passes ≤ c.iters := by
  obtain ⟨_, a, ha, hv, _⟩ := total_pass_token h
  rw [← Child.station_passes, ← ring_station, ha]
  exact Token.ring_passes_le hv _

theorem passes_before_launch {tr : List (PipeOp c)} {s : State c}
    (h : Reach (totalPass c flt) tr s) (hl : s.parent.launched = false) (i : Fin c.pipes) :
    (s.child i).passes = 0 := by
  obtain ⟨_, a, ha, _⟩ := total_pass_token h
  have habsent : a = .absent := by
    have hring := congrArg Ring.launched ha
    cases a with
    | absent => rfl
    | inChannel t => simp [State.ring, Token.ring, hl] at hring
    | held t w => simp [State.ring, Token.ring, hl] at hring
  rw [← Child.station_passes, ← ring_station, ha, habsent]
  rfl

theorem handled_of_no_pass (hk : c.iters = 0) : FailureHandled c flt where
  complete h _ i := by
    have := passes_le_iters h i
    omega
  wait _ hp stuck := by
    obtain ⟨i, j, _, hj, _⟩ := blocked_of_wait hp stuck
    omega
  exit _ _ _ i := by
    rintro ⟨j, _, hj, _⟩
    omega

theorem handled_of_all_thrown {m : Fin c.pipes} (hm : flt.fork m = true)
    (hbefore : ∀ i < m, flt.cores i = true) : FailureHandled c flt := by
  have hnever : ∀ {tr s}, Reach (totalPass c flt) tr s → s.parent.forked c.pipes ≤ m := by
    intro tr s h
    obtain ⟨hs, _⟩ := total_pass_token h
    by_contra hlt
    have := hs.forks m (by omega)
    simp [hm] at this
  refine ⟨fun h hp => ?_, fun h hp => ?_, fun {tr s k} h hp stuck i => ?_⟩
  · have := hnever h
    rw [hp, Parent.forked] at this
    omega
  · have := hnever h
    rw [hp, Parent.forked] at this
    omega
  · rintro ⟨j, hch, _⟩
    obtain ⟨hs, _⟩ := total_pass_token h
    have hborn : ¬s.parent.forked c.pipes ≤ i := (hs.unborn i).not.mp (by simp [hch])
    have hle := hnever h
    have hfits := hs.fits i
    have hlt : i < m := Fin.lt_def.mpr (by omega)
    rw [hch, Child.Fits, hbefore i hlt] at hfits
    exact Bool.noConfusion hfits

theorem handled_of_no_fault : FailureHandled c (.none c) where
  complete h hp := ((total_pass_ring h).2.2.2 hp).1
  wait h hp stuck := by
    obtain ⟨i, j, hch, hj, _⟩ := blocked_of_wait hp stuck
    exact total_pass_not_stuck h (i := i) (by rw [hch]; exact hj) stuck
  exit h hp _ i _ := by
    obtain ⟨hs, _⟩ := total_pass_token h
    exact no_fault_not_failed hs _ hp

/-- Where `total_pass` returns and every child has made its passes, nothing has failed. -/
theorem none_of_returned (hall : FailureHandled c flt) (hk : c.iters ≠ 0) {tr : List (PipeOp c)}
    {s : State c} (h : Reach (totalPass c flt) tr s) (hp : s.parent = .returned) :
    flt = .none c := by
  obtain ⟨hs, _⟩ := total_pass_token h
  have hfork : flt.fork = fun _ => false := by
    funext i
    exact hs.forks i (by simp [hp, Parent.forked])
  have hcores : flt.cores = fun _ => false := by
    funext i
    by_contra hthrow
    have hthrow : flt.cores i = true := by simpa using hthrow
    have hpasses := hall.complete h hp i
    have hfits := hs.fits i
    cases hch : s.child i with
    | unborn => exact absurd ((hs.unborn i).mp hch) (by simp [hp, Parent.forked])
    | starting => simp [hch, Child.passes] at hpasses; omega
    | looping j => simp [hch, Child.Fits, hthrow] at hfits
    | touching j offset => simp [hch, Child.Fits, hthrow] at hfits
    | exited j => simp [hch, Child.Fits, hthrow, Child.passes] at hfits hpasses; omega
    | reaped j => simp [hch, Child.Fits, hthrow, Child.passes] at hfits hpasses; omega
  cases flt
  simp only at hfork hcores
  simp [Faults.none, hfork, hcores]

/-- Where the parent has left after a failed `fork` and no child is blocked on a pipe, each
child that it had forked has thrown. -/
theorem thrown_of_failed (hall : FailureHandled c flt) (hk : c.iters ≠ 0) {tr : List (PipeOp c)}
    {s : State c} {m : ℕ} (h : Reach (totalPass c flt) tr s) (hp : s.parent = .failed m)
    (stuck : Stuck (totalPass c flt) s) :
    ∃ k, flt.fork k = true ∧ ∀ i < k, flt.cores i = true := by
  obtain ⟨hs, _⟩ := total_pass_token h
  obtain ⟨hm, hfork⟩ := hs.failed m hp
  refine ⟨⟨m, hm⟩, hfork, fun i hi => ?_⟩
  by_contra hthrow
  have hthrow : flt.cores i = false := by simpa using hthrow
  have hpasses := passes_before_launch h (by simp [hp, Parent.launched]) i
  have hfits := hs.fits i
  have hlt : (i : ℕ) < m := hi
  have hborn : s.child i ≠ .unborn :=
    (hs.unborn i).not.mpr (by simpa [hp, Parent.forked] using hlt)
  rcases child_of_stuck stuck i with hch | hblocked | ⟨j, hch⟩ | ⟨j, hch⟩
  · exact hborn hch
  · exact hall.exit h hp stuck i hblocked
  · simp [hch, Child.Fits, hthrow, Child.passes] at hfits hpasses
    omega
  · simp [hch, Child.Fits, hthrow, Child.passes] at hfits hpasses
    omega

/-- From the end of any one schedule it can be read off which faults there were. -/
theorem faults_of_handled (hall : FailureHandled c flt) (hk : c.iters ≠ 0) :
    (∃ m, flt.fork m = true ∧ ∀ i < m, flt.cores i = true) ∨ flt = .none c := by
  obtain ⟨tr, s, h, hs, stuck⟩ :=
    (Reach.init (m := totalPass c flt)).exists_stuck State.rank (State.Sound flt)
      (fun _ _ _ _ hs hstep => total_pass_rank hs hstep) sound_init
  cases hp : s.parent with
  | forking i => exact absurd stuck (parent_moves (by simp [hp]) (by simp [hp]) (by simp [hp]))
  | signalling => exact absurd stuck (parent_moves (by simp [hp]) (by simp [hp]) (by simp [hp]))
  | waiting => exact absurd stuck (hall.wait h hp)
  | returned => exact Or.inr (none_of_returned hall hk h hp)
  | failed m => exact Or.inl (thrown_of_failed hall hk h hp stuck)

theorem failureHandled_iff : FailureHandled c flt ↔ c.iters = 0 ∨
    (∃ m, flt.fork m = true ∧ ∀ i < m, flt.cores i = true) ∨ flt = .none c := by
  constructor
  · intro hall
    by_cases hk : c.iters = 0
    · exact Or.inl hk
    · exact Or.inr (faults_of_handled hall hk)
  · rintro (hk | ⟨m, hm, hbefore⟩ | rfl)
    · exact handled_of_no_pass hk
    · exact handled_of_all_thrown hm hbefore
    · exact handled_of_no_fault

/-- The benchmark's own smallest ring, in which `use_cores` throws in child 0 only. -/
def smallestBench : Bench := ⟨2, Nat.two_pos, 0, 100⟩

def childZeroThrows : Faults smallestBench := ⟨fun _ => false, fun i => i = 0⟩

theorem child_zero_throws_blocks_wait : ¬FailureHandled smallestBench childZeroThrows := by
  intro hall
  have hrun : Reach (totalPass smallestBench childZeroThrows) _ _ := reach_of_exec
    [.parent, .parent, .parent, .child 0, .child 1, .parent, .child 1, .child 1, .wait 0] rfl
  refine hall.wait hrun rfl ?_
  intro e
  cases e with
  | parent => rfl
  | child i => fin_cases i <;> rfl
  | wait i => fin_cases i <;> rfl

end SysPerf.CtxSwitch
