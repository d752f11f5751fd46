import SysPerf.CtxSwitchRing
import Mathlib.Data.List.FinRange

namespace SysPerf.CtxSwitch

open TokenRing

variable {c : Bench}

theorem flatMap_range_mul {n : ℕ} [NeZero n] {α : Type} (k : ℕ) (g : Fin n → List α) :
    (List.range (k * n)).flatMap (fun t => g (slot n t)) =
      (List.range k).flatMap fun _ => (List.finRange n).flatMap g := by
  have hround : ∀ a, (List.range n).flatMap (fun q => g (slot n (a * n + q))) =
      (List.finRange n).flatMap g := by
    intro a
    have hslot : ∀ q : Fin n, slot n (a * n + q) = q := fun q =>
      Fin.ext (by simp [Nat.mul_add_mod_self_right, Nat.mod_eq_of_lt q.isLt])
    rw [← List.map_coe_finRange_eq_range, List.flatMap_map]
    simp only [hslot]
  induction k with
  | zero => simp
  | succ k ih =>
    rw [Nat.add_mul, Nat.one_mul, List.range_add, List.flatMap_append, ih, List.flatMap_map,
      hround k, List.range_succ, List.flatMap_append, List.flatMap_singleton]

/-- What `overhead` does with the pipe it visits in its turn `t`. -/
def overheadOps (c : Bench) (t : ℕ) : List (PipeOp c) :=
  .write (slot c.pipes t) :: (List.range c.footprintArrLen).map .touch ++
    [.pass, .read (slot c.pipes t)]

/-- `overhead` at inner index `q`, with `i` outer rounds to go, has done these turns. -/
def BaselineState.Sound (s : BaselineState c) (tr : List (PipeOp c)) : Prop :=
  match s.pc with
  | .looping i q => i ≤ c.iters ∧ q ≤ c.pipes ∧ (i = 0 → q = 0) ∧ (∀ p, s.pipe p = 0) ∧
      tr = (List.range ((c.iters - i) * c.pipes + q)).flatMap (overheadOps c)
  | .touching i q offset => 0 < i ∧ i ≤ c.iters ∧ offset ≤ c.footprintArrLen ∧
      (∀ p, s.pipe p = if p = q then 1 else 0) ∧
      tr = (List.range ((c.iters - i) * c.pipes + q)).flatMap (overheadOps c) ++
        .write q :: (List.range offset).map .touch
  | .returned => tr = (List.range (c.iters * c.pipes)).flatMap (overheadOps c)

theorem overheadStep_sound {s t : BaselineState c} {tr out : List (PipeOp c)} (hs : s.Sound tr)
    (h : overheadStep s = some (t, out)) : t.Sound (tr ++ out) := by
  unfold BaselineState.Sound at hs
  cases hpc : s.pc with
  | looping i q =>
    rw [hpc] at hs
    obtain ⟨hi, hq, hzero, hpipe, rfl⟩ := hs
    simp only [overheadStep, hpc] at h
    by_cases hpos : 0 < i
    · by_cases hlt : q < c.pipes
      · simp only [hpos, hlt, if_true, dif_pos, Option.some.injEq, Prod.mk.injEq] at h
        obtain ⟨rfl, rfl⟩ := h
        refine ⟨hpos, hi, Nat.zero_le _, fun p => ?_, by simp⟩
        simp [Function.update_apply, hpipe]
      · simp only [hpos, hlt, if_true, dif_neg, not_false_eq_true, Option.some.injEq,
          Prod.mk.injEq] at h
        obtain ⟨rfl, rfl⟩ := h
        have hround : (c.iters - i) * c.pipes + q = (c.iters - (i - 1)) * c.pipes := by
          rw [show c.iters - (i - 1) = c.iters - i + 1 by omega, Nat.add_mul]
          omega
        exact ⟨by omega, Nat.zero_le _, fun _ => rfl, hpipe, by simp [hround]⟩
    · simp only [hpos, if_false, Option.some.injEq, Prod.mk.injEq] at h
      obtain ⟨rfl, rfl⟩ := h
      obtain rfl : i = 0 := by omega
      simp [BaselineState.Sound, hzero]
  | touching i q offset =>
    rw [hpc] at hs
    obtain ⟨hpos, hi, hoff, hpipe, rfl⟩ := hs
    simp only [overheadStep, hpc] at h
    by_cases hlt : offset < c.footprintArrLen
    · simp only [hlt, if_true, Option.some.injEq, Prod.mk.injEq] at h
      obtain ⟨rfl, rfl⟩ := h
      exact ⟨hpos, hi, hlt, hpipe, by simp [List.range_succ]⟩
    · have hbyte : 0 < s.pipe q := by simp [hpipe]
      simp only [hlt, hbyte, if_true, if_false, Option.some.injEq, Prod.mk.injEq] at h
      obtain ⟨rfl, rfl⟩ := h
      obtain rfl : offset = c.footprintArrLen := by omega
      have hslot : slot c.pipes ((c.iters - i) * c.pipes + q) = q :=
        Fin.ext (by simp [Nat.mul_add_mod_self_right, Nat.mod_eq_of_lt q.isLt])
      refine ⟨hi, q.isLt, by omega, fun p => ?_, ?_⟩
      · by_cases hp : p = q
        · subst p; simp [hpipe]
        · simp [hp, hpipe]
      · simp [← Nat.add_assoc, List.range_succ, overheadOps, hslot]
  | returned => simp [overheadStep, hpc] at h

theorem overhead_sound {tr : List (PipeOp c)} {s : BaselineState c}
    (h : Reach (overhead c) tr s) : s.Sound tr := by
  refine h.history (P := fun tr s => s.Sound tr) ?_ (fun _ _ _ _ _ => overheadStep_sound)
  exact ⟨le_rfl, Nat.zero_le _, fun _ => rfl, fun _ => rfl, by simp⟩

theorem overhead_complete {tr : List (PipeOp c)} {s : BaselineState c}
    (h : Reach (overhead c) tr s) (hr : s.pc = .returned) :
    tr = (List.range (c.iters * c.pipes)).flatMap (overheadOps c) := by
  have hsound := overhead_sound h
  rwa [BaselineState.Sound, hr] at hsound

/-- `overhead` alone never waits for a byte: each `read` follows its own `write`. -/
theorem overhead_not_stuck {tr : List (PipeOp c)} {s : BaselineState c}
    (h : Reach (overhead c) tr s) (hs : s.pc ≠ .returned) : ¬Stuck (overhead c) s := by
  intro stuck
  have hsound := overhead_sound h
  have hstep : overheadStep s = none := stuck ()
  unfold BaselineState.Sound at hsound
  cases hpc : s.pc with
  | looping i q =>
    simp only [overheadStep, hpc] at hstep
    split at hstep
    · split at hstep <;> simp at hstep
    · simp at hstep
  | touching i q offset =>
    rw [hpc] at hsound
    obtain ⟨_, _, _, hpipe, _⟩ := hsound
    have hbyte : 0 < s.pipe q := by simp [hpipe]
    simp only [overheadStep, hpc, hbyte, if_true] at hstep
    split at hstep <;> simp at hstep
  | returned => exact hs hpc

@[simp] theorem filter_touch (n m : ℕ) :
    ((List.range m).map (Op.touch : ℕ → Op n)).filter isPipe = [] := by
  simp [List.filter_eq_nil_iff, isPipe]

@[simp] theorem count_touch (n m : ℕ) :
    ((List.range m).map (Op.touch : ℕ → Op n)).count .pass = 0 := by
  simp [List.count_eq_zero]

theorem passOps_pipe (n f t : ℕ) [NeZero n] :
    (passOps n f t).filter isPipe = [.read (slot n t), .write (slot n (t + 1))] := by
  simp only [passOps, List.cons_append, List.filter_cons, List.filter_append, filter_touch]
  rfl

theorem overheadOps_pipe (t : ℕ) :
    (overheadOps c t).filter isPipe = [.write (slot c.pipes t), .read (slot c.pipes t)] := by
  simp only [overheadOps, List.cons_append, List.filter_cons, List.filter_append, filter_touch]
  rfl

/-- Read-then-write shifted by one turn is write-then-read with one more write at the end. -/
theorem rotate_rounds {n : ℕ} [NeZero n] (m : ℕ) :
    Op.write (slot n 0) :: (List.range m).flatMap
        (fun t => [.read (slot n t), .write (slot n (t + 1))]) =
      (List.range m).flatMap (fun t => [.write (slot n t), .read (slot n t)]) ++
        [.write (slot n m)] := by
  induction m with
  | zero => rfl
  | succ m ih =>
    rw [List.range_succ, List.flatMap_append, ← List.cons_append, ih, List.flatMap_append]
    simp

theorem count_rounds {n : ℕ} (m : ℕ) {ops : ℕ → List (Op n)} (h : ∀ t, (ops t).count .pass = 1) :
    ((List.range m).flatMap ops).count .pass = m := by
  induction m with
  | zero => rfl
  | succ m ih => rw [List.range_succ, List.flatMap_append, List.count_append, ih]; simp [h]

theorem total_pass_matches_overhead {tr base : List (PipeOp c)} {s : State c}
    {b : BaselineState c} (h : Reach (totalPass c (.none c)) tr s) (hr : s.parent = .returned)
    (hb : Reach (overhead c) base b) (hbr : b.pc = .returned) :
    tr.filter isPipe = base.filter isPipe ++ [.write 0] ∧
      base.filter isPipe = (List.range c.iters).flatMap (fun _ =>
        (List.finRange c.pipes).flatMap fun i => [.write i, .read i]) ∧
      tr = .write 0 :: (List.range (c.iters * c.pipes)).flatMap
        (passOps c.pipes c.footprintArrLen) ∧
      base = (List.range (c.iters * c.pipes)).flatMap (overheadOps c) ∧
      tr.count .pass = c.iters * c.pipes ∧ base.count .pass = c.iters * c.pipes := by
  obtain ⟨_, htr⟩ := total_pass_complete h hr
  have hbase := overhead_complete hb hbr
  have hzero : slot c.pipes 0 = 0 := Fin.ext (Nat.zero_mod _)
  have hlast : slot c.pipes (c.iters * c.pipes) = 0 := Fin.ext (by simp)
  have hbasePipe : base.filter isPipe = (List.range (c.iters * c.pipes)).flatMap
      (fun t => [.write (slot c.pipes t), .read (slot c.pipes t)]) := by
    simp only [hbase, List.filter_flatMap, overheadOps_pipe]
  refine ⟨?_, ?_, htr, hbase, ?_, ?_⟩
  · rw [hbasePipe, htr, Token.history]
    have hrot := rotate_rounds (n := c.pipes) (c.iters * c.pipes)
    rw [hzero, hlast] at hrot
    simpa only [List.filter_cons, isPipe, if_true, List.filter_flatMap, passOps_pipe] using hrot
  · rw [hbasePipe]
    exact flatMap_range_mul c.iters fun i => [Op.write i, Op.read i]
  · have hpass : ∀ t, (passOps c.pipes c.footprintArrLen t).count .pass = 1 := by
      intro t
      simp [passOps]
    rw [htr, Token.history, List.count_cons_of_ne (by simp), count_rounds _ hpass]
  · have hpass : ∀ t, (overheadOps c t).count .pass = 1 := by
      intro t
      simp [overheadOps]
    rw [hbase, count_rounds _ hpass]

theorem total_pass_matches_overhead_two : ∃ tr base : List (PipeOp twoPipes),
    (∃ s, Reach (totalPass twoPipes (.none twoPipes)) tr s ∧ s.parent = .returned) ∧
      tr.filter isPipe = base.filter isPipe ++ [.write 0] ∧ base.count .pass = 2 := by
  have hrun : Reach (totalPass twoPipes (.none twoPipes)) _ _ := reach_of_exec
    [.parent, .child 0, .parent, .parent, .parent, .child 1, .child 1, .child 1, .child 0,
      .child 0, .child 0, .child 1, .wait 1, .wait 0, .parent] rfl
  have hbase : Reach (overhead twoPipes) _ _ :=
    reach_of_exec [(), (), (), (), (), ()] rfl
  have hall := total_pass_matches_overhead hrun rfl hbase rfl
  exact ⟨_, _, ⟨_, hrun, rfl⟩, hall.1, hall.2.2.2.2.2⟩

end SysPerf.CtxSwitch
