import SysPerf.CtxSwitchKernel
import SysPerf.CtxSwitchTrace
import SysPerf.KernelOverheadEnds
import SysPerf.KernelRingEnds
import SysPerf.Undefined

namespace SysPerf

open TokenRing

/-- All stores of a call are inside `arr`: the footprint is no longer than it, or there are no
passes. -/
def Bench.Fits (c : Bench) : Prop :=
  c.footprintArrLen ≤ maxFootprint ∨ c.iters = 0

theorem touch_mem_passOps {n f t w : ℕ} [NeZero n] : .touch w ∈ passOps n f t ↔ w < f := by
  simp [passOps]

theorem touch_mem_history {n k f w : ℕ} [NeZero n] {a : Token} (hv : a.Valid n k f)
    (h : .touch w ∈ a.history n f) : w < f ∧ 0 < k := by
  have hpos : ∀ t, t < k * n → 0 < k := fun t ht =>
    Nat.pos_of_ne_zero fun hk => by simp [hk] at ht
  cases a with
  | absent => simp [Token.history] at h
  | inChannel t =>
    obtain ⟨u, hu, hw⟩ : ∃ u < t, .touch w ∈ passOps n f u := by simpa [Token.history] using h
    exact ⟨touch_mem_passOps.mp hw, hpos u (hu.trans_le hv)⟩
  | held t done =>
    obtain ⟨ht, hdone⟩ := hv
    have hcases : (∃ u < t, .touch w ∈ passOps n f u) ∨ w < done := by
      simpa [Token.history] using h
    rcases hcases with ⟨u, -, hw⟩ | hw
    · exact ⟨touch_mem_passOps.mp hw, hpos t ht⟩
    · exact ⟨hw.trans_le hdone, hpos t ht⟩

theorem inArr_of_touch {n : ℕ} {x : Op n} (h : ∀ w, x = .touch w → w < maxFootprint) :
    inArr x = true := by
  cases x with
  | touch w => exact decide_eq_true (h w rfl)
  | _ => rfl

theorem history_inArr {c : Bench} (hc : c.Fits) {a : Token}
    (hv : a.Valid c.pipes c.iters c.footprintArrLen) :
    ∀ x ∈ (a.history c.pipes c.footprintArrLen : List (PipeOp c)), inArr x = true := by
  intro x hx
  refine inArr_of_touch fun w hw => ?_
  obtain ⟨hlt, hpos⟩ := touch_mem_history hv (hw ▸ hx)
  rcases hc with hfits | hzero
  · exact hlt.trans_le hfits
  · exact absurd hzero hpos.ne'

/-- The passes of a footprint that does not fit make a store right behind the array. -/
theorem complete_outside {c : Bench} (hc : ¬c.Fits) :
    Op.touch maxFootprint ∈ (Token.inChannel (c.iters * c.pipes)).history c.pipes
      c.footprintArrLen := by
  obtain ⟨hlong, hiters⟩ := not_or.mp hc
  have hturn : 0 < c.iters * c.pipes := Nat.mul_pos (Nat.pos_of_ne_zero hiters) c.pipesPos
  have hmem : Op.touch maxFootprint ∈ passOps c.pipes c.footprintArrLen 0 :=
    touch_mem_passOps.mpr (Nat.lt_of_not_le hlong)
  exact List.mem_cons_of_mem _ (List.mem_flatMap.mpr ⟨0, List.mem_range.mpr hturn, hmem⟩)

theorem outside_not_inArr {n : ℕ} : inArr (Op.touch maxFootprint : Op n) = false := by
  simp [inArr]

section

variable {σ ε : Type} {c : Bench} {m : Machine σ ε (PipeOp c)}

/-- A machine that moves one byte around the ring stays in the array if the footprint fits. -/
theorem defined_of_fits (hc : c.Fits) (hhistory : ∀ tr s, Reach m tr s → ∃ a : Token,
    a.Valid c.pipes c.iters c.footprintArrLen ∧ tr = a.history c.pipes c.footprintArrLen) :
    Defined m inArr := by
  intro tr s hs
  obtain ⟨a, hv, rfl⟩ := hhistory tr s hs
  exact history_inArr hc hv

theorem fits_of_defined {tr : List (PipeOp c)} {s : σ} (hdefined : Defined m inArr)
    (hs : Reach m tr s)
    (hall : tr = (Token.inChannel (c.iters * c.pipes)).history c.pipes c.footprintArrLen) :
    c.Fits := by
  by_contra hc
  have hin := hdefined tr s hs _ (hall ▸ complete_outside hc)
  simp [outside_not_inArr] at hin

end

namespace KernelRing

variable {c : Bench} {mask : CpuSet}

theorem exists_complete (c : Bench) (mask : CpuSet) :
    ∃ tr s, Reach (kernThreadRing c mask) tr s ∧ s.main = .returned := by
  obtain ⟨tr, s, hs, -, stuck⟩ := (Reach.init (m := kernThreadRing c mask)).exists_stuck State.rank
    State.Sound (fun _ _ _ _ hs hstep => kern_thread_ring_rank hs hstep) (sound_start mask)
  exact ⟨_, s, hs, returned_of_stuck hs stuck⟩

theorem kern_thread_ring_defined_iff : Defined (kernThreadRing c mask) inArr ↔ c.Fits := by
  constructor
  · intro hdefined
    obtain ⟨tr, s, hs, hr⟩ := exists_complete c mask
    exact fits_of_defined hdefined hs (kern_thread_ring_complete hs hr).2
  · intro hc
    refine defined_of_fits hc fun tr s hs => ?_
    obtain ⟨-, a, -, hv, htr⟩ := kern_thread_ring_token hs
    exact ⟨a, hv, htr⟩

end KernelRing

namespace KernelOverhead

variable {c : Bench} {mask : CpuSet}

theorem exists_complete (c : Bench) (mask : CpuSet) :
    ∃ tr s, Reach (overhead c mask) tr s ∧ s.main = .returned := by
  have hkeep : ∀ s e t out, (∃ a, State.At s a) → (overhead c mask).step s e = some (t, out) →
      (∃ a, t.At a) ∧ t.rank < s.rank := by
    rintro s e t out ⟨a, ha⟩ hstep
    refine ⟨?_, overhead_rank ha hstep⟩
    rcases overhead_simulates_odometer.step ha hstep with ⟨-, ht⟩ | ⟨k, b, -, ht⟩
    · exact ⟨a, ht⟩
    · exact ⟨b, ht⟩
  obtain ⟨tr, s, hs, -, stuck⟩ := (Reach.init (m := overhead c mask)).exists_stuck State.rank
    (fun s => ∃ a, s.At a) hkeep ⟨_, overhead_simulates_odometer.init⟩
  exact ⟨_, s, hs, returned_of_stuck hs stuck⟩

theorem overhead_defined_iff : Defined (overhead c mask) inArr ↔ c.Fits := by
  constructor
  · intro hdefined
    obtain ⟨tr, s, hs, hr⟩ := exists_complete c mask
    exact fits_of_defined hdefined hs (overhead_complete hs hr)
  · intro hc
    refine defined_of_fits hc fun tr s hs => ?_
    obtain ⟨a, ha, -⟩ := overhead_simulates_odometer.reach hs
    exact ⟨a, odometer_history ha⟩

end KernelOverhead

namespace CtxSwitch

variable {c : Bench}

theorem total_pass_defined (hc : c.Fits) (flt : Faults c) : Defined (totalPass c flt) inArr := by
  refine defined_of_fits hc fun tr s hs => ?_
  obtain ⟨-, a, -, hv, htr⟩ := total_pass_token hs
  exact ⟨a, hv, htr⟩

theorem touch_mem_overheadOps {count w : ℕ}
    (h : .touch w ∈ (List.range count).flatMap (overheadOps c)) : w < c.footprintArrLen := by
  obtain ⟨t, -, ht⟩ := List.mem_flatMap.mp h
  simpa [overheadOps] using ht

theorem overhead_defined (hc : c.footprintArrLen ≤ maxFootprint) :
    Defined (overhead c) inArr := by
  intro tr s hs x hx
  refine inArr_of_touch fun w hw => Nat.lt_of_lt_of_le ?_ hc
  subst hw
  have hsound := overhead_sound hs
  unfold BaselineState.Sound at hsound
  cases hpc : s.pc with
  | looping i q =>
    rw [hpc] at hsound
    obtain ⟨-, -, -, -, rfl⟩ := hsound
    exact touch_mem_overheadOps hx
  | touching i q offset =>
    rw [hpc] at hsound
    obtain ⟨-, -, hoffset, -, rfl⟩ := hsound
    rcases List.mem_append.mp hx with hx | hx
    · exact touch_mem_overheadOps hx
    · have hlt : w < offset := by simpa using hx
      exact hlt.trans_le hoffset
  | returned =>
    rw [hpc] at hsound
    subst hsound
    exact touch_mem_overheadOps hx

end CtxSwitch

namespace CtxSwitchKernel

theorem Plan.footprint_mem {p : Plan} {call : Call} (h : call ∈ p.calls) :
    call.bench.footprintArrLen ∈ p.footprintSize := by
  obtain ⟨tp, -, h⟩ := List.mem_flatMap.mp h
  obtain ⟨tf, htf, h⟩ := List.mem_flatMap.mp h
  rcases List.mem_append.mp h with h | h
  · obtain ⟨-, rfl⟩ := List.mem_replicate.mp h
    exact htf
  · obtain ⟨-, rfl⟩ := List.mem_replicate.mp h
    exact htf

/-- A plan whose footprints fit makes no store behind an array, in either program. -/
theorem plan_defined {p : Plan} (hp : ∀ f ∈ p.footprintSize, f ≤ maxFootprint) {call : Call}
    (h : call ∈ p.calls) (mask : CpuSet) (flt : CtxSwitch.Faults call.bench) :
    Defined (KernelRing.kernThreadRing call.bench mask) inArr ∧
      Defined (KernelOverhead.overhead call.bench mask) inArr ∧
      Defined (CtxSwitch.totalPass call.bench flt) inArr ∧
      Defined (CtxSwitch.overhead call.bench) inArr := by
  have hfits := hp _ (Plan.footprint_mem h)
  exact ⟨KernelRing.kern_thread_ring_defined_iff.mpr (Or.inl hfits),
    KernelOverhead.overhead_defined_iff.mpr (Or.inl hfits),
    CtxSwitch.total_pass_defined (Or.inl hfits) flt, CtxSwitch.overhead_defined hfits⟩

/-- The last footprint of the programs fills the array. -/
example : ∀ f ∈ Plan.source.footprintSize, f ≤ maxFootprint := by
  decide

end CtxSwitchKernel

end SysPerf
