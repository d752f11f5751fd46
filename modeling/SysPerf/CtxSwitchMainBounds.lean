import SysPerf.CtxSwitchMainPass

namespace SysPerf.CtxSwitch

open TokenRing

variable {c : Bench} {flt : Faults c}

/-- Moves that `overhead` can still make. -/
def Baseline.rank (c : Bench) : Baseline c → ℕ
  | .looping 0 _ => 1
  | .looping (i + 1) q =>
    i * (c.pipes * (c.footprintArrLen + 2) + 1) + (c.pipes - q) * (c.footprintArrLen + 2) + 2
  | .touching i q offset =>
    (i - 1) * (c.pipes * (c.footprintArrLen + 2) + 1) +
      (c.pipes - (q + 1)) * (c.footprintArrLen + 2) + (c.footprintArrLen - offset) + 3
  | .returned => 0

theorem overheadStep_rank {s t : BaselineState c} {out : List (PipeOp c)}
    (h : overheadStep s = some (t, out)) : t.pc.rank c < s.pc.rank c := by
  cases hpc : s.pc with
  | looping i q =>
    simp only [overheadStep, hpc] at h
    cases i with
    | zero =>
      simp only [lt_irrefl, if_false, Option.some.injEq, Prod.mk.injEq] at h
      obtain ⟨rfl, -⟩ := h
      simp [Baseline.rank]
    | succ i =>
      simp only [Nat.succ_pos, if_true] at h
      split at h
      next hq =>
        obtain ⟨rfl, -⟩ := Prod.mk.inj (Option.some.inj h)
        have hturn : c.pipes - q = c.pipes - (q + 1) + 1 := by omega
        simp only [Baseline.rank, hturn, Nat.add_mul, Nat.add_sub_cancel]
        omega
      next hq =>
        obtain ⟨rfl, -⟩ := Prod.mk.inj (Option.some.inj h)
        cases i with
        | zero => simp [Baseline.rank]
        | succ i =>
          simp only [Baseline.rank, Nat.add_sub_cancel, Nat.sub_zero, Nat.succ_mul]
          omega
  | touching i q offset =>
    simp only [overheadStep, hpc] at h
    split at h
    next hlt =>
      obtain ⟨rfl, -⟩ := Prod.mk.inj (Option.some.inj h)
      simp only [Baseline.rank]
      omega
    next hlt =>
      obtain ⟨-, heq⟩ := Option.ite_none_right_eq_some.mp h
      obtain ⟨rfl, -⟩ := Prod.mk.inj (Option.some.inj heq)
      cases i with
      | zero => simp [Baseline.rank]
      | succ i =>
        simp only [Baseline.rank, Nat.add_sub_cancel]
        omega
  | returned => simp [overheadStep, hpc] at h

/-- `overhead` keeps its mask, and all its accesses are made with it. -/
theorem overhead_machine {own : CpuSet} {tr : List Access} {s : CpuSet × BaselineState c}
    (h : Reach (Call.machine own (.overhead c)) tr s) : s.1 = own ∧
      ∃ ops, Reach (overhead c) ops s.2 ∧ tr = ops.filterMap (access .parent own) := by
  refine h.history (P := fun tr (s : CpuSet × BaselineState c) => s.1 = own ∧
    ∃ ops, Reach (overhead c) ops s.2 ∧ tr = ops.filterMap (access .parent own))
    ⟨rfl, [], Reach.init, rfl⟩ ?_
  rintro tr ⟨_, s⟩ e t out ⟨rfl, ops, hops, rfl⟩ hstep
  cases e with
  | overhead =>
    obtain ⟨⟨u, seen⟩, hu, heq⟩ := Option.map_eq_some_iff.mp hstep
    obtain ⟨rfl, rfl⟩ := Prod.mk.inj heq
    exact ⟨rfl, _, hops.step (e := ()) hu, by simp⟩
  | _ => simp [Call.machine] at hstep

def Call.rank : (f : Call) → f.State → ℕ
  | .overhead c, s => s.2.pc.rank c
  | .totalPass _ _, s => s.state.rank

/-- No call makes more moves than this, whatever goes wrong in it. -/
def Call.cost : Call → ℕ
  | .overhead c => c.iters * (c.pipes * (c.footprintArrLen + 2) + 1) + 1
  | .totalPass c _ => c.pipes + 3 + c.pipes * (c.iters * (c.footprintArrLen + 2) + 4)

theorem call_ranked : callJobs.Ranked Call.rank Call.cost where
  init own f := by
    cases f with
    | overhead c =>
      change (Baseline.looping c.iters 0).rank c ≤ _
      cases hk : c.iters with
      | zero => simp [Baseline.rank, Call.cost]
      | succ i =>
        simp only [Baseline.rank, Call.cost, hk, Nat.sub_zero, Nat.succ_mul]
        omega
    | totalPass c flt =>
      change (totalPass c flt).init.rank ≤ _
      simp [State.rank, totalPass, Parent.rank, Child.rank, Call.cost]
  step {own f tr s e t out} h hstep := by
    cases f with
    | overhead c =>
      cases e with
      | overhead =>
        obtain ⟨⟨u, seen⟩, hu, heq⟩ := Option.map_eq_some_iff.mp hstep
        obtain ⟨rfl, -⟩ := Prod.mk.inj heq
        exact overheadStep_rank hu
      | _ => simp [callJobs, Call.machine] at hstep
    | totalPass c flt =>
      obtain ⟨-, -, ops, hops, -⟩ := pass_sound h
      obtain ⟨m, -, hstep⟩ := Option.bind_eq_some_iff.mp hstep
      obtain ⟨⟨u, seen⟩, hu, heq⟩ := Option.map_eq_some_iff.mp hstep
      obtain ⟨rfl, -⟩ := Prod.mk.inj heq
      exact (total_pass_rank (total_pass_token hops).1 hu).2

end SysPerf.CtxSwitch
