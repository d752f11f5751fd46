import SysPerf.FootprintArray

namespace SysPerf.KernelOverhead

open TokenRing

variable {c : Bench} {ringMask mask : CpuSet}

/-- Whatever a complete call of `kern_thread_ring` and one of `overhead` can have done, it is the
same: both write `p[0]` once and then make the same passes in the same order. -/
def SameWork (c : Bench) (ringMask mask : CpuSet) : Prop :=
  ∀ tr s base b, MayReach (KernelRing.kernThreadRing c ringMask) inArr tr s →
    s.main = .returned → MayReach (overhead c mask) inArr base b → b.main = .returned →
    tr = base ∧ base = .write 0 :: (List.range (c.iters * c.pipes)).flatMap
      (passOps c.pipes c.footprintArrLen)

theorem same_work_of_fits (hc : c.Fits) : SameWork c ringMask mask := by
  intro tr s base b h hr hb hbr
  have hring := (mayReach_iff (KernelRing.kern_thread_ring_defined_iff.mpr hc)).mp h
  have hbase := (mayReach_iff (overhead_defined_iff.mpr hc)).mp hb
  exact ring_trace_eq hring hr hbase hbr

/-- With a store behind the array the ring may end with one trace or with a longer one, which
cannot both be the one of the baseline. -/
theorem not_same_work_of_not_fits (hc : ¬c.Fits) : ¬SameWork c ringMask mask := by
  intro hsame
  obtain ⟨base, b, hb, hbr⟩ := exists_complete c mask
  obtain ⟨tr, s, -, hr⟩ := KernelRing.exists_complete c ringMask
  have hring : ¬Defined (KernelRing.kernThreadRing c ringMask) inArr :=
    fun hdefined => hc (KernelRing.kern_thread_ring_defined_iff.mp hdefined)
  obtain ⟨before, hany⟩ := mayReach_anything hring
  have hshort := (hsame _ s base b (hany [] s) hr (.run hb) hbr).1
  have hlong := (hsame _ s base b (hany [.pass] s) hr (.run hb) hbr).1
  have hlength := congrArg List.length (hshort.trans hlong.symm)
  simp at hlength

/-- For every number of pipes and passes the two measurements compare equal work if and only if the
footprint is no longer than the array `arr`, or no passes are made. -/
theorem same_work_iff (c : Bench) (ringMask mask : CpuSet) :
    SameWork c ringMask mask ↔ c.footprintArrLen ≤ maxFootprint ∨ c.iters = 0 := by
  constructor
  · intro hsame
    by_contra hc
    exact not_same_work_of_not_fits hc hsame
  · exact same_work_of_fits

/-- One int more than the array has. -/
def longFootprint : Bench := ⟨2, Nat.two_pos, 147457, 1000⟩

theorem not_same_work : ¬SameWork longFootprint {0} {0} :=
  not_same_work_of_not_fits (by unfold Bench.Fits; decide)

end SysPerf.KernelOverhead
