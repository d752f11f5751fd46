import SysPerf.CtxSwitchMainBounds

namespace SysPerf.CtxSwitch

open TokenRing

variable {c : Bench} {flt : Faults c}

theorem access_core {n : ℕ} {process : Process} {own : CpuSet} {op : Op n} {x : Access}
    (h : access process own op = some x) : x.process = process ∧ x.own = own := by
  cases op <;> simp [access] at h
  all_goals subst h; exact ⟨rfl, rfl⟩

theorem labelled_core {ops : List (PipeOp c)} {x : Access} (h : x ∈ labelled {0} ops) :
    x.own = x.process.core := by
  cases ops with
  | nil => simp [labelled] at h
  | cons op ops =>
    rcases List.mem_append.mp h with hx | hx
    · obtain ⟨hprocess, hown⟩ := access_core (Option.mem_toList.mp hx)
      rw [hprocess, hown]
      rfl
    · obtain ⟨later, -, hlater⟩ := List.mem_filterMap.mp hx
      cases later <;> simp [childAccess] at hlater
      all_goals subst hlater; rfl

/-- Each call, entered on core 0, leaves its caller there. -/
theorem call_pinned {own : CpuSet} {f : Call} {tr : List Access} {s : f.State} (hown : own = {0})
    (h : Reach (Call.machine own f) tr s) : (∀ x ∈ tr, x.own = x.process.core) ∧
      ∀ d, f.result s = some d → d = {0} := by
  subst hown
  cases f with
  | overhead c =>
    obtain ⟨hown, ops, -, rfl⟩ := overhead_machine h
    refine ⟨fun x hx => ?_, fun d hd => ?_⟩
    · obtain ⟨op, -, hop⟩ := List.mem_filterMap.mp hx
      obtain ⟨hprocess, hmask⟩ := access_core hop
      rw [hprocess, hmask]
      rfl
    · obtain ⟨own, s⟩ := s
      exact (Call.overhead_result.mp hd).2.symm.trans hown
  | totalPass c flt =>
    obtain ⟨hparent, -, ops, -, rfl⟩ := pass_sound h
    refine ⟨fun x hx => labelled_core hx, fun d hd => ?_⟩
    obtain ⟨-, heq⟩ := Option.ite_none_right_eq_some.mp hd
    exact (Option.some.inj heq).symm.trans hparent

/-- Whatever forks fail and whichever children cannot be pinned, every byte that the parent moves
it moves on core 0, and every byte that a child moves it moves on core 1. -/
theorem accesses_pinned {own : CpuSet} {calls : List Call} {tr : List Access}
    {s : callJobs.Place} (h : Reach (main own calls) tr s) :
    ∀ x ∈ tr, x.own = x.process.core :=
  Jobs.reach_all (P := fun mask => mask = {0}) (fun _ _ _ _ _ hown hs => call_pinned hown hs)
    (useCoresAlone_eq own [0]) h

/-- Nothing goes wrong in the call. -/
def Call.Faultless : Call → Prop
  | .overhead _ => True
  | .totalPass c flt => flt = .none c

theorem overhead_accesses (c : Bench) :
    ((List.range (c.iters * c.pipes)).flatMap (overheadOps c)).filterMap (access .parent {0}) =
      overheadAccesses c := by
  have hturn : ∀ t, (overheadOps c t).filterMap (access .parent {0}) =
      [⟨.parent, .write (t % c.pipes), {0}⟩, ⟨.parent, .read (t % c.pipes), {0}⟩] := by
    intro t
    simp [overheadOps, access, List.filterMap_cons, List.filterMap_map, Function.comp_def]
  rw [List.filterMap_flatMap]
  simp only [hturn]
  rfl

theorem pass_accesses (c : Bench) :
    labelled {0} ((Token.inChannel (c.iters * c.pipes)).history c.pipes c.footprintArrLen) =
      passAccesses c := by
  have hturn : ∀ t, (passOps c.pipes c.footprintArrLen t).filterMap childAccess =
      [⟨.child ((t + 1) % c.pipes), .read (t % c.pipes), {1}⟩,
        ⟨.child ((t + 1) % c.pipes), .write ((t + 1) % c.pipes), {1}⟩] := by
    intro t
    simp [passOps, childAccess, List.filterMap_cons, List.filterMap_map, Function.comp_def,
      slot_add_one]
  rw [Token.history, labelled, List.filterMap_flatMap]
  simp only [hturn]
  rfl

theorem pass_stuck {own : CpuSet} {s : PassState c}
    (stuck : Stuck (Call.machine own (.totalPass c flt)) s) : Stuck (totalPass c flt) s.state := by
  intro m
  have hmove : ∀ e : CallMove, e.pass c = some m → (totalPass c flt).step s.state m = none := by
    intro e he
    have hnone : (e.pass c).bind (PassState.step flt s) = none := stuck e
    rw [he] at hnone
    exact Option.map_eq_none_iff.mp hnone
  cases m with
  | parent => exact hmove .parent rfl
  | child i => exact hmove (.child i) (by simp [CallMove.pass])
  | wait i => exact hmove (.wait i) (by simp [CallMove.pass])

theorem pass_returned {ops : List (PipeOp c)} {t : State c}
    (hops : Reach (totalPass c (.none c)) ops t) (stuck : Stuck (totalPass c (.none c)) t) :
    t.parent = .returned := by
  obtain ⟨hsound, -⟩ := total_pass_token hops
  by_contra hret
  by_cases hwait : t.parent = .waiting
  · exact handled_of_no_fault.wait hops hwait stuck
  · exact parent_moves hwait hret (no_fault_not_failed hsound) stuck

/-- A faultless call comes to its end and has made all its accesses by then. -/
theorem call_job {f : Call} (hf : f.Faultless) :
    callJobs.Job (fun mask => mask = {0}) Call.accesses f where
  returns {own d tr s} hown h hd := by
    refine ⟨?_, (call_pinned hown h).2 d hd⟩
    subst hown
    cases f with
    | overhead c =>
      obtain ⟨-, ops, hops, rfl⟩ := overhead_machine h
      obtain ⟨own, s⟩ := s
      rw [overhead_complete hops (Call.overhead_result.mp hd).1, overhead_accesses]
      rfl
    | totalPass c flt =>
      obtain rfl := hf
      obtain ⟨-, -, ops, hops, rfl⟩ := pass_sound h
      obtain ⟨hret, -⟩ := Option.ite_none_right_eq_some.mp hd
      rw [(total_pass_complete hops hret).2, pass_accesses]
      rfl
  progress {own tr s} hown h stuck := by
    cases f with
    | overhead c =>
      obtain ⟨-, ops, hops, -⟩ := overhead_machine h
      obtain ⟨own', s⟩ := s
      have hpc : s.pc = .returned := by
        by_contra hpc
        refine overhead_not_stuck hops hpc fun e => ?_
        have hmove := stuck .overhead
        exact Option.map_eq_none_iff.mp hmove
      exact ⟨own', Call.overhead_result.mpr ⟨hpc, rfl⟩⟩
    | totalPass c flt =>
      obtain rfl := hf
      obtain ⟨-, -, ops, hops, -⟩ := pass_sound h
      have hret := pass_returned hops (pass_stuck stuck)
      exact ⟨s.own, by simp [callJobs, Call.result, hret]⟩

/-- The accesses of the calls of a plan. -/
def planAccesses (p : CtxSwitchKernel.Plan) : List Access :=
  (BenchReport.calls .totalPass p).flatMap fun
    | .overhead c => overheadAccesses c
    | .totalPass c => passAccesses c
    | _ => []

theorem accesses_func (calls : List Call) : calls.flatMap Call.accesses =
    (calls.map Call.func).flatMap fun
      | .overhead c => overheadAccesses c
      | .totalPass c => passAccesses c
      | _ => [] := by
  rw [List.flatMap_map]
  congr 1
  funext f
  cases f <;> rfl

/-- With no failing call of the system every schedule of the processes of the whole program comes
to an end, and it is the end of `main`: whoever runs when, the same bytes are read and written
in the same order. -/
theorem main_deterministic {p : CtxSwitchKernel.Plan} {calls : List Call}
    (hcalls : calls.map Call.func = BenchReport.calls .totalPass p)
    (hfaultless : ∀ f ∈ calls, f.Faultless) (own : CpuSet) :
    (∀ tr s, Reach (main own calls) tr s → tr <+: planAccesses p ∧
      (Stuck (main own calls) s → s = .between {0} [] ∧ tr = planAccesses p)) ∧
    ∀ es s tr, (main own calls).exec (main own calls).init es = some (s, tr) →
      es.length ≤ Jobs.budget Call.cost calls := by
  have hjob : ∀ f ∈ calls, callJobs.Job (fun mask => mask = {0}) Call.accesses f :=
    fun f hf => call_job (hfaultless f hf)
  have hown : useCoresAlone own [0] = {0} := useCoresAlone_eq own [0]
  have hplan : calls.flatMap Call.accesses = planAccesses p := by
    rw [accesses_func, hcalls]
    rfl
  refine ⟨fun tr s h => ⟨?_, fun stuck => ?_⟩, fun es s tr h => call_ranked.schedule_length h⟩
  · obtain ⟨more, b, -, hall⟩ := call_ranked.run_ends hjob hown h
    rw [← hplan, ← hall]
    exact List.prefix_append _ _
  · obtain ⟨b, rfl⟩ := Jobs.stuck_ended hjob hown h stuck
    obtain ⟨htr, rfl⟩ := Jobs.reach_ended hjob hown h
    exact ⟨rfl, htr.trans hplan⟩

/-- Two pipes, measured once with one pass for each child. -/
def smallPlan : CtxSwitchKernel.Plan :=
  ⟨CtxSwitchKernel.Plan.source.pipeSize.take 1, [0], 1, 1⟩

def secondForkFails : Faults twoPipes := ⟨fun i => i = 1, fun _ => false⟩

/-- The parent has left after its second `fork`, and the child it had is at its `read`. -/
theorem accesses_pinned_two : ∃ tr s,
    Reach (main {0, 1, 2, 3} [.overhead twoPipes, .totalPass twoPipes secondForkFails]) tr s ∧
      tr = overheadAccesses twoPipes ∧ ∀ x ∈ tr, x.own = x.process.core := by
  have hrun : Reach (main {0, 1, 2, 3} [.overhead twoPipes, .totalPass twoPipes secondForkFails])
      _ _ := reach_of_exec (.next :: List.replicate 6 (.inside .overhead) ++
        [.next, .next, .inside .parent, .inside (.child 0), .inside .parent]) rfl
  exact ⟨_, _, hrun, rfl, accesses_pinned hrun⟩

def smallTrace : List Access :=
  [⟨.parent, .write 0, {0}⟩, ⟨.parent, .read 0, {0}⟩, ⟨.parent, .write 1, {0}⟩,
    ⟨.parent, .read 1, {0}⟩, ⟨.parent, .write 0, {0}⟩, ⟨.child 1, .read 0, {1}⟩,
    ⟨.child 1, .write 1, {1}⟩, ⟨.child 0, .read 1, {1}⟩, ⟨.child 0, .write 0, {1}⟩]

def smallPass : List CallMove :=
  [.parent, .child 0, .parent, .parent, .parent, .child 1, .child 1, .child 1, .child 0,
    .child 0, .child 0, .child 1, .wait 1, .wait 0, .parent]

def smallMoves : List (Jobs.Move CallMove) :=
  .next :: (List.replicate 6 (.inside .overhead)).append
    (.next :: .next :: (smallPass.map .inside).append [.next])

theorem smallRun : ∃ s, Reach
    (main {0, 1, 2, 3} [.overhead twoPipes, .totalPass twoPipes (.none twoPipes)]) smallTrace s := by
  have hrun : (((main {0, 1, 2, 3} [.overhead twoPipes, .totalPass twoPipes (.none twoPipes)]).exec
      (.between {0} [.overhead twoPipes, .totalPass twoPipes (.none twoPipes)]) smallMoves).map
        Prod.snd) = some smallTrace := by
    decide +kernel
  obtain ⟨⟨s, tr⟩, hexec, rfl⟩ := Option.map_eq_some_iff.mp hrun
  exact ⟨s, reach_of_exec _ hexec⟩

theorem main_deterministic_small : ∃ s,
    Reach (main {0, 1, 2, 3} [.overhead twoPipes, .totalPass twoPipes (.none twoPipes)])
      smallTrace s ∧ smallTrace <+: planAccesses smallPlan := by
  have hcalls : [Call.overhead twoPipes, .totalPass twoPipes (.none twoPipes)].map Call.func =
      BenchReport.calls .totalPass smallPlan := rfl
  obtain ⟨s, hrun⟩ := smallRun
  have hend := (main_deterministic hcalls (by simp [Call.Faultless]) {0, 1, 2, 3}).1 _ _ hrun
  exact ⟨s, hrun, hend.1⟩

end SysPerf.CtxSwitch
