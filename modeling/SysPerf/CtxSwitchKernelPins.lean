import SysPerf.CtxSwitchKernel

namespace SysPerf.CtxSwitchKernel

open TokenRing

/-- The calls are all ones that make passes or none is. -/
def State.Inv (p : Plan) : State → Prop
  | .starting _ => True
  | .looping mask calls => (mask = {0} ∨ mask = {1}) ∧ calls ⊆ p.calls
  | .inOverhead c s calls => s.Pins ∧ .overhead c ∈ p.calls ∧ calls ⊆ p.calls
  | .inRing c s calls => s.Pins ∧ .kernThreadRing c ∈ p.calls ∧ calls ⊆ p.calls

theorem Plan.mem_calls {p : Plan} {call : Call} (h : call ∈ p.calls) :
    p.pipeSize ≠ [] ∧ p.footprintSize ≠ [] ∧ p.runs ≠ 0 ∧ call.bench.iters = p.iters := by
  obtain ⟨tp, htp, h⟩ := List.mem_flatMap.mp h
  obtain ⟨tf, htf, h⟩ := List.mem_flatMap.mp h
  refine ⟨List.ne_nil_of_mem htp, List.ne_nil_of_mem htf, ?_⟩
  rcases List.mem_append.mp h with h | h
  · obtain ⟨hruns, rfl⟩ := List.mem_replicate.mp h
    exact ⟨hruns, rfl⟩
  · obtain ⟨hruns, rfl⟩ := List.mem_replicate.mp h
    exact ⟨hruns, rfl⟩

theorem mainStep_inv {p : Plan} {s t : State} (hs : s.Inv p) (h : mainStep p s = some t) :
    t.Inv p := by
  cases s with
  | starting mask =>
    simp only [mainStep, Option.some.injEq] at h
    subst h
    exact ⟨by simp, List.Subset.refl _⟩
  | looping mask calls =>
    obtain ⟨hmask, hcalls⟩ := hs
    cases calls with
    | nil => simp [mainStep] at h
    | cons call calls =>
      obtain ⟨hcall, hrest⟩ := List.cons_subset.mp hcalls
      cases call with
      | overhead c =>
        simp only [mainStep, Option.some.injEq] at h
        subst h
        exact ⟨KernelOverhead.pins_start hmask, hcall, hrest⟩
      | kernThreadRing c =>
        simp only [mainStep, Option.some.injEq] at h
        subst h
        exact ⟨KernelRing.pins_start hmask, hcall, hrest⟩
  | inOverhead c s calls =>
    obtain ⟨_, heq⟩ := Option.ite_none_right_eq_some.mp h
    obtain rfl := Option.some.inj heq
    exact ⟨hs.1.mask .main, hs.2.2⟩
  | inRing c s calls =>
    obtain ⟨_, heq⟩ := Option.ite_none_right_eq_some.mp h
    obtain rfl := Option.some.inj heq
    exact ⟨hs.1.mask .main, hs.2.2⟩

/-- What is known of each sample: the call makes passes and core 1 has the main thread. -/
def Repinned (p : Plan) (x : Sample) : Prop :=
  p.pipeSize ≠ [] ∧ p.footprintSize ≠ [] ∧ p.runs ≠ 0 ∧ p.iters ≠ 0 ∧ x.main = {1} ∧
    (x.own = {0} ∨ x.own = {1})

theorem step_inv {p : Plan} {s t : State} {e : Move} {out : List Sample} (hs : s.Inv p)
    (h : step p s e = some (t, out)) : t.Inv p ∧ ∀ x ∈ out, Repinned p x := by
  cases e with
  | main =>
    obtain ⟨u, hu, heq⟩ := Option.map_eq_some_iff.mp h
    obtain ⟨rfl, rfl⟩ := Prod.mk.inj heq
    exact ⟨mainStep_inv hs hu, by simp⟩
  | overhead e =>
    cases s with
    | inOverhead c s calls =>
      obtain ⟨hpins, hcall, hcalls⟩ := hs
      obtain ⟨hpipe, hfoot, hruns, hiters⟩ := Plan.mem_calls hcall
      obtain ⟨⟨u, ops⟩, hu, heq⟩ := Option.map_eq_some_iff.mp h
      obtain ⟨rfl, rfl⟩ := Prod.mk.inj heq
      cases e with
      | main =>
        obtain ⟨hpins', hnone⟩ := KernelOverhead.mainStep_pins hpins hu
        exact ⟨⟨hpins', hcall, hcalls⟩, by simp [KernelOverhead.Move.tid, hnone]⟩
      | worker =>
        obtain ⟨hpins', hall⟩ := KernelOverhead.workerStep_pins hpins hu
        refine ⟨⟨hpins', hcall, hcalls⟩, fun x hx => ?_⟩
        obtain ⟨hpos, hmain, hown⟩ := hall x hx
        have hiters : c.iters = p.iters := hiters
        exact ⟨hpipe, hfoot, hruns, by omega, hmain, hown ▸ hpins.mask _⟩
    | _ => simp [step] at h
  | ring e =>
    cases s with
    | inRing c s calls =>
      obtain ⟨hpins, hcall, hcalls⟩ := hs
      obtain ⟨hpipe, hfoot, hruns, hiters⟩ := Plan.mem_calls hcall
      obtain ⟨⟨u, ops⟩, hu, heq⟩ := Option.map_eq_some_iff.mp h
      obtain ⟨rfl, rfl⟩ := Prod.mk.inj heq
      cases e with
      | create ptr =>
        obtain ⟨hpins', hnone⟩ := KernelRing.mainStep_pins hpins (KernelRing.createStep_move hu)
        exact ⟨⟨hpins', hcall, hcalls⟩, by simp [KernelRing.Move.tid, hnone]⟩
      | main =>
        obtain ⟨hpins', hnone⟩ := KernelRing.mainStep_pins hpins (KernelRing.mainStep_move hu)
        exact ⟨⟨hpins', hcall, hcalls⟩, by simp [KernelRing.Move.tid, hnone]⟩
      | worker i =>
        simp only [KernelRing.step] at hu
        split at hu
        next hi =>
          obtain ⟨hpins', hall⟩ := KernelRing.workerStep_pins hpins (KernelRing.workerStep_move hu)
          have hself : slot c.pipes i = ⟨i, hi⟩ := slot_self (⟨i, hi⟩ : Fin c.pipes)
          refine ⟨⟨hpins', hcall, hcalls⟩, fun x hx => ?_⟩
          rw [KernelRing.Move.tid, hself] at hx
          obtain ⟨hpos, hmain, hown⟩ := hall x hx
          have hiters : c.iters = p.iters := hiters
          exact ⟨hpipe, hfoot, hruns, by omega, hmain, hown ▸ hpins.mask _⟩
        next => simp at hu
    | _ => simp [step] at h

/-- Whenever a worker reads, the main thread has lost the mask that `main` set. -/
theorem worker_reads_repinned {p : Plan} {mask : CpuSet} {tr : List Sample} {s : State}
    (h : Reach (main p mask) tr s) : ∀ x ∈ tr, Repinned p x := by
  have hall : s.Inv p ∧ ∀ x ∈ tr, Repinned p x := by
    refine h.history (P := fun tr s => s.Inv p ∧ ∀ x ∈ tr, Repinned p x) ⟨trivial, by simp⟩ ?_
    intro tr s e t out ⟨hs, htr⟩ hstep
    obtain ⟨ht, hout⟩ := step_inv hs hstep
    refine ⟨ht, fun x hx => ?_⟩
    rcases List.mem_append.mp hx with hx | hx
    · exact htr x hx
    · exact hout x hx
  exact hall.2

theorem Plan.calls_head {p : Plan} (hpipe : p.pipeSize ≠ []) (hfoot : p.footprintSize ≠ [])
    (hruns : p.runs ≠ 0) : ∃ c rest, p.calls = .overhead c :: rest ∧ c.iters = p.iters := by
  obtain ⟨tp, pipes, hp⟩ := List.exists_cons_of_ne_nil hpipe
  obtain ⟨tf, feet, hf⟩ := List.exists_cons_of_ne_nil hfoot
  obtain ⟨runs, hr⟩ := Nat.exists_eq_succ_of_ne_zero hruns
  simp only [Plan.calls, hp, hf, hr, runFunc, List.flatMap_cons, List.replicate_succ,
    List.cons_append]
  exact ⟨_, _, rfl, rfl⟩

/-- The thread of the first call reads on core 0, which its call of `use_cores` took from the
main thread. -/
theorem first_read {p : Plan} {mask : CpuSet} {c : Bench} {rest : List Call}
    (hcalls : p.calls = .overhead c :: rest) (hiters : 0 < c.iters) :
    ∃ s, Reach (main p mask) [⟨{0}, {1}⟩] s := by
  have hlooping : Reach (main p mask) [] (.looping {0} (.overhead c :: rest)) := by
    rw [← hcalls]
    exact Reach.init.step (e := .main) rfl
  have hstarting : Reach (main p mask) [] (.inOverhead c (KernelOverhead.start c {0}) rest) :=
    hlooping.step (e := .main) rfl
  let pinned : KernelOverhead.State c :=
    { (KernelOverhead.start c {0}).setPipe 0 1 with
      main := .joining
      worker := .looping c.iters 0
      mask := useCores (pthreadCreate (fun _ => {0}) .main (.worker ())) (.worker ()) [1] }
  have hpinned : Reach (main p mask) [] (.inOverhead c pinned rest) :=
    ((hstarting.step (e := .overhead .main) rfl).step (e := .overhead .main) rfl).step
      (e := .overhead .worker) rfl
  have hzero : (⟨0, c.pipesPos⟩ : Fin c.pipes) = 0 := rfl
  have hread : ∃ t, (main p mask).step (.inOverhead c pinned rest) (.overhead .worker) =
      some (t, [⟨{0}, {1}⟩]) := by
    simp [main, step, KernelOverhead.step, KernelOverhead.workerStep, KernelOverhead.State.setPipe,
      KernelOverhead.Move.tid, pinned, hiters, hzero, c.pipesPos, sample, pthreadCreate]
  obtain ⟨t, ht⟩ := hread
  exact ⟨t, hpinned.step ht⟩

theorem workers_pinned_iff (p : Plan) (mask : CpuSet) :
    (∀ tr s, Reach (main p mask) tr s → ∀ x ∈ tr, x.own = {1} ∧ x.main = {0}) ↔
      p.pipeSize = [] ∨ p.footprintSize = [] ∨ p.runs = 0 ∨ p.iters = 0 := by
  constructor
  · intro hpinned
    by_contra hnone
    simp only [not_or] at hnone
    obtain ⟨hpipe, hfoot, hruns, hiters⟩ := hnone
    obtain ⟨c, rest, hcalls, heq⟩ := Plan.calls_head hpipe hfoot hruns
    obtain ⟨s, hs⟩ : ∃ s, Reach (main p mask) [⟨{0}, {1}⟩] s := first_read hcalls (by omega)
    have hmain := (hpinned _ s hs _ (List.mem_singleton_self _)).2
    exact absurd hmain (by decide)
  · intro hempty tr s h x hx
    obtain ⟨hpipe, hfoot, hruns, hiters, _⟩ := worker_reads_repinned h x hx
    rcases hempty with h | h | h | h
    · exact absurd h hpipe
    · exact absurd h hfoot
    · exact absurd h hruns
    · exact absurd h hiters

theorem workers_not_pinned : ¬∀ tr s, Reach (main Plan.source {0, 1, 2, 3}) tr s →
    ∀ x ∈ tr, x.own = {1} ∧ x.main = {0} := by
  intro hpinned
  obtain ⟨s, hs⟩ : ∃ s, Reach (main Plan.source {0, 1, 2, 3}) [⟨{0}, {1}⟩] s :=
    first_read rfl (by decide)
  have hmain := (hpinned _ s hs _ (List.mem_singleton_self _)).2
  exact absurd hmain (by decide)

end SysPerf.CtxSwitchKernel
