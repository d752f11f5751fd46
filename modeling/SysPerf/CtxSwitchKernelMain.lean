import SysPerf.CtxSwitchKernel
import SysPerf.CtxSwitchMain
import SysPerf.KernelOverheadEnds
import SysPerf.KernelRingEnds

namespace SysPerf.CtxSwitchKernel

open TokenRing
open CtxSwitch (Transfer)

def transfer {n : ℕ} : Op n → Option Transfer
  | .read q => some (.read q)
  | .write q => some (.write q)
  | .touch _ => none
  | .pass => none

inductive CallMove
  | overhead (e : KernelOverhead.Move)
  | ring (e : KernelRing.Move)

def Call.State : Call → Type
  | .overhead c => KernelOverhead.State c
  | .kernThreadRing c => KernelRing.State c

/-- A call by a main thread that has the given mask. -/
def Call.machine (mask : CpuSet) : (f : Call) → Machine f.State CallMove Transfer
  | .overhead c => {
      init := KernelOverhead.start c mask
      step := fun s e =>
        match e with
        | .overhead e => (KernelOverhead.step s e).map fun p => (p.1, p.2.filterMap transfer)
        | .ring _ => none }
  | .kernThreadRing c => {
      init := KernelRing.start c mask
      step := fun s e =>
        match e with
        | .overhead _ => none
        | .ring e => (KernelRing.step s e).map fun p => (p.1, p.2.filterMap transfer) }

/-- The mask of the main thread once the call has returned. -/
def Call.result : (f : Call) → f.State → Option CpuSet
  | .overhead c => fun s : KernelOverhead.State c =>
    if s.main = .returned then some (s.mask .main) else none
  | .kernThreadRing c => fun s : KernelRing.State c =>
    if s.main = .returned then some (s.mask .main) else none

def callJobs : Jobs Call CpuSet CallMove Transfer :=
  ⟨Call.State, Call.machine, Call.result⟩

/-- The calls of `main` with the bytes that go through their pipes. -/
def mainTransfers (p : Plan) (mask : CpuSet) :=
  callJobs.sequence (useCores (fun _ : Tid Unit => mask) .main [0] .main) p.calls

def Call.rank : (f : Call) → f.State → ℕ
  | .overhead c => fun s : KernelOverhead.State c => s.rank
  | .kernThreadRing c => fun s : KernelRing.State c => s.rank

/-- No call makes more moves. -/
def Call.cost : Call → ℕ
  | .overhead c => c.iters * (c.pipes * (c.footprintArrLen + 2) + 1) + 7
  | .kernThreadRing c => KernelRing.turns c

/-- All transfers of a call, of either kind. -/
def Call.transfers (f : Call) : List Transfer :=
  .write 0 :: (List.range (f.bench.iters * f.bench.pipes)).flatMap fun t =>
    [.read (t % f.bench.pipes), .write ((t + 1) % f.bench.pipes)]

theorem overhead_machine {c : Bench} {mask : CpuSet} {tr : List Transfer}
    {s : KernelOverhead.State c} (h : Reach (Call.machine mask (.overhead c)) tr s) :
    ∃ ops, Reach (KernelOverhead.overhead c mask) ops s ∧ tr = ops.filterMap transfer := by
  refine h.history (P := fun tr (s : KernelOverhead.State c) =>
    ∃ ops, Reach (KernelOverhead.overhead c mask) ops s ∧ tr = ops.filterMap transfer)
    ⟨[], Reach.init, rfl⟩ ?_
  rintro tr s e t out ⟨ops, hops, rfl⟩ hstep
  cases e with
  | overhead e =>
    obtain ⟨⟨u, seen⟩, hu, heq⟩ := Option.map_eq_some_iff.mp hstep
    obtain ⟨rfl, rfl⟩ := Prod.mk.inj heq
    exact ⟨_, hops.step (e := e) hu, by simp⟩
  | ring e => simp [Call.machine] at hstep

theorem ring_machine {c : Bench} {mask : CpuSet} {tr : List Transfer} {s : KernelRing.State c}
    (h : Reach (Call.machine mask (.kernThreadRing c)) tr s) :
    ∃ ops, Reach (KernelRing.kernThreadRing c mask) ops s ∧ tr = ops.filterMap transfer := by
  refine h.history (P := fun tr (s : KernelRing.State c) =>
    ∃ ops, Reach (KernelRing.kernThreadRing c mask) ops s ∧ tr = ops.filterMap transfer)
    ⟨[], Reach.init, rfl⟩ ?_
  rintro tr s e t out ⟨ops, hops, rfl⟩ hstep
  cases e with
  | overhead e => simp [Call.machine] at hstep
  | ring e =>
    obtain ⟨⟨u, seen⟩, hu, heq⟩ := Option.map_eq_some_iff.mp hstep
    obtain ⟨rfl, rfl⟩ := Prod.mk.inj heq
    exact ⟨_, hops.step (e := e) hu, by simp⟩

theorem call_ranked : callJobs.Ranked Call.rank Call.cost where
  init mask f := by
    cases f with
    | overhead c =>
      change (KernelOverhead.start c mask).rank ≤ _
      simp only [KernelOverhead.State.rank, KernelOverhead.start, KernelOverhead.Main.rank,
        KernelOverhead.Worker.rank, Call.cost]
      omega
    | kernThreadRing c =>
      change (KernelRing.start c mask).rank ≤ _
      simp [KernelRing.State.rank, KernelRing.start, KernelRing.Main.rank, KernelRing.Worker.rank,
        Call.cost, KernelRing.turns]
  step {mask f tr s e t out} h hstep := by
    cases f with
    | overhead c =>
      obtain ⟨ops, hops, -⟩ := overhead_machine h
      obtain ⟨a, -, hat⟩ := KernelOverhead.overhead_simulates_odometer.reach hops
      cases e with
      | overhead e =>
        obtain ⟨⟨u, seen⟩, hu, heq⟩ := Option.map_eq_some_iff.mp hstep
        obtain ⟨rfl, -⟩ := Prod.mk.inj heq
        exact KernelOverhead.overhead_rank hat hu
      | ring e => simp [callJobs, Call.machine] at hstep
    | kernThreadRing c =>
      obtain ⟨ops, hops, -⟩ := ring_machine h
      obtain ⟨hsound, -⟩ := KernelRing.kern_thread_ring_token hops
      cases e with
      | overhead e => simp [callJobs, Call.machine] at hstep
      | ring e =>
        obtain ⟨⟨u, seen⟩, hu, heq⟩ := Option.map_eq_some_iff.mp hstep
        obtain ⟨rfl, -⟩ := Prod.mk.inj heq
        exact (KernelRing.kern_thread_ring_rank hsound hu).2

theorem history_transfers (c : Bench) :
    ((Token.inChannel (c.iters * c.pipes)).history c.pipes c.footprintArrLen).filterMap transfer =
      .write 0 :: (List.range (c.iters * c.pipes)).flatMap fun t =>
        [.read (t % c.pipes), .write ((t + 1) % c.pipes)] := by
  have hturn : ∀ t, (passOps c.pipes c.footprintArrLen t).filterMap transfer =
      [.read (t % c.pipes), .write ((t + 1) % c.pipes)] := by
    intro t
    simp [passOps, transfer, List.filterMap_cons, List.filterMap_map, Function.comp_def]
  rw [Token.history, List.filterMap_cons, List.filterMap_flatMap]
  simp only [hturn]
  rfl

theorem call_job (f : Call) : callJobs.Job (fun _ => True) Call.transfers f where
  returns {mask d tr s} _ h hd := by
    refine ⟨?_, trivial⟩
    cases f with
    | overhead c =>
      obtain ⟨ops, hops, rfl⟩ := overhead_machine h
      obtain ⟨hret, -⟩ := Option.ite_none_right_eq_some.mp hd
      rw [KernelOverhead.overhead_complete hops hret, history_transfers]
      rfl
    | kernThreadRing c =>
      obtain ⟨ops, hops, rfl⟩ := ring_machine h
      obtain ⟨hret, -⟩ := Option.ite_none_right_eq_some.mp hd
      rw [(KernelRing.kern_thread_ring_complete hops hret).2, history_transfers]
      rfl
  progress {mask tr s} _ h stuck := by
    cases f with
    | overhead c =>
      obtain ⟨ops, hops, -⟩ := overhead_machine h
      have hret := KernelOverhead.returned_of_stuck hops fun e =>
        Option.map_eq_none_iff.mp (stuck (.overhead e))
      exact ⟨_, if_pos hret⟩
    | kernThreadRing c =>
      obtain ⟨ops, hops, -⟩ := ring_machine h
      have hret := KernelRing.returned_of_stuck hops fun e =>
        Option.map_eq_none_iff.mp (stuck (.ring e))
      exact ⟨_, if_pos hret⟩

/-- Every schedule of the threads of the whole program comes to the end of `main`, and it is the
same bytes in the same order whichever thread runs when, whatever `new` returns, and whatever
masks the threads are left with. -/
theorem kernel_main_deterministic (p : Plan) (mask : CpuSet) :
    (∀ tr s, Reach (mainTransfers p mask) tr s → tr <+: p.calls.flatMap Call.transfers ∧
      (Stuck (mainTransfers p mask) s →
        (∃ last, s = .between last []) ∧ tr = p.calls.flatMap Call.transfers)) ∧
    ∀ es s tr, (mainTransfers p mask).exec (mainTransfers p mask).init es = some (s, tr) →
      es.length ≤ Jobs.budget Call.cost p.calls := by
  have hjob : ∀ f ∈ p.calls, callJobs.Job (fun _ => True) Call.transfers f := fun f _ => call_job f
  refine ⟨fun tr s h => ⟨?_, fun stuck => ?_⟩, fun es s tr h => call_ranked.schedule_length h⟩
  · obtain ⟨more, b, -, hall⟩ := call_ranked.run_ends hjob trivial h
    rw [← hall]
    exact List.prefix_append _ _
  · obtain ⟨b, rfl⟩ := Jobs.stuck_ended hjob trivial h stuck
    exact ⟨⟨b, rfl⟩, (Jobs.reach_ended hjob trivial h).1⟩

end SysPerf.CtxSwitchKernel
