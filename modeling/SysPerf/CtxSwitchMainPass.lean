import SysPerf.CtxSwitchMain

namespace SysPerf.CtxSwitch

open TokenRing

variable {c : Bench} {flt : Faults c}

theorem absent_of_history {a : Token} {n f : ℕ} [NeZero n] (h : a.history n f = []) :
    a = .absent := by
  cases a with
  | absent => rfl
  | inChannel t => simp [Token.history] at h
  | held t w => simp [Token.history] at h

/-- Before the parent's byte nothing has been seen, no pipe has a byte and no child holds one. -/
theorem pass_started {ops : List (PipeOp c)} {s : State c} (h : Reach (totalPass c flt) ops s)
    (hrun : s.parent.launched = true ∨ (∃ q, 0 < s.pipe q) ∨ ∃ i, (s.child i).holds = true) :
    ops ≠ [] := by
  rintro rfl
  obtain ⟨-, a, hring, -, hhistory⟩ := total_pass_token h
  obtain rfl := absent_of_history hhistory.symm
  rcases hrun with hl | ⟨q, hq⟩ | ⟨i, hi⟩
  · have hlaunched := congrArg Ring.launched hring
    simp [State.ring, Token.ring, hl] at hlaunched
  · have hchan := congrArg (fun r => r.chan q) hring
    simp [State.ring, Token.ring] at hchan
    omega
  · have hstation := congrArg (fun r => r.station (i - 1)) hring
    simp only [ring_station] at hstation
    rw [← Child.station_isBusy, hstation] at hi
    simp [Token.ring] at hi

theorem pass_quiet {ops : List (PipeOp c)} {s : State c} (h : Reach (totalPass c flt) ops s)
    (hl : s.parent.launched = false) : ops = [] := by
  obtain ⟨-, a, hring, -, hhistory⟩ := total_pass_token h
  have habsent : a = .absent := by
    by_contra hne
    have hlaunched := congrArg Ring.launched hring
    cases a <;> simp [State.ring, Token.ring, hl] at hlaunched hne
  rw [hhistory, habsent]
  rfl

/-- What a child does in the operations of `total_pass`. -/
def childAccess : PipeOp c → Option Access
  | .read q => some ⟨.child (q + 1 : Fin c.pipes), .read q, {1}⟩
  | .write q => some ⟨.child q, .write q, {1}⟩
  | .touch _ => none
  | .pass => none

/-- The first byte is the parent's and all others are the children's. -/
def labelled (own : CpuSet) : List (PipeOp c) → List Access
  | [] => []
  | op :: ops => (access .parent own op).toList ++ ops.filterMap childAccess

theorem labelled_append (own : CpuSet) {ops : List (PipeOp c)} (h : ops ≠ [])
    (out : List (PipeOp c)) :
    labelled own (ops ++ out) = labelled own ops ++ out.filterMap childAccess := by
  cases ops with
  | nil => exact absurd rfl h
  | cons op ops => simp [labelled]

def Child.runs : Child → Bool
  | .looping _ => true
  | .touching _ _ => true
  | _ => false

structure PassState.Sound (flt : Faults c) (own : CpuSet) (tr : List Access) (s : PassState c) :
    Prop where
  parent : s.own = own
  child : ∀ i, (s.state.child i).runs = true → s.cores i = {1}
  ops : ∃ ops, Reach (CtxSwitch.totalPass c flt) ops s.state ∧ tr = labelled own ops

theorem cores_setChild {cores : Fin c.pipes → CpuSet} {s : State c}
    (h : ∀ i, (s.child i).runs = true → cores i = {1}) {i : Fin c.pipes} {ch : Child}
    (hch : ch.runs = true → (s.child i).runs = true) :
    ∀ j, ((s.setChild i ch).child j).runs = true → cores j = {1} := by
  intro j hj
  by_cases hji : j = i
  · subst j
    exact h i (hch (by simpa [State.setChild] using hj))
  · exact h j (by simpa [State.setChild, hji] using hj)

theorem childStep_cores {s : PassState c} {t : State c} {i : Fin c.pipes} {out : List (PipeOp c)}
    (h : ∀ i, (s.state.child i).runs = true → s.cores i = {1})
    (hm : ChildMove flt s.state i t out) :
    ∀ j, (t.child j).runs = true → s.coresAfter flt (.child i) j = {1} := by
  cases hm with
  | throws hch hthrow =>
    simpa [PassState.coresAfter, hch, hthrow] using cores_setChild h (by simp [Child.runs])
  | starts hch hthrow =>
    intro j hj
    simp only [PassState.coresAfter, hch, hthrow, Bool.false_eq_true, if_false]
    by_cases hji : j = i
    · subst j
      simp [useCoresAlone_eq]
    · simpa [hji] using h j (by simpa [State.setChild, hji] using hj)
  | reads hch =>
    simpa [PassState.coresAfter, hch] using
      cores_setChild (s := s.state.setPipe _ _) h (by simp [State.setPipe, hch, Child.runs])
  | exits hch =>
    simpa [PassState.coresAfter, hch] using cores_setChild h (by simp [Child.runs])
  | touches hch =>
    simpa [PassState.coresAfter, hch] using cores_setChild h (by simp [hch, Child.runs])
  | writes hch =>
    simpa [PassState.coresAfter, hch] using
      cores_setChild (s := s.state.setPipe _ _) h (by simp [State.setPipe, hch, Child.runs])

theorem parentStep_cores {s : PassState c} {t : State c} {out : List (PipeOp c)}
    (h : ∀ i, (s.state.child i).runs = true → s.cores i = {1})
    (hm : ParentMove flt s.state t out) :
    ∀ j, (t.child j).runs = true → s.coresAfter flt .parent j = {1} := by
  cases hm with
  | forkFails hi hp hfork => simpa [PassState.coresAfter, hp, hi, hfork] using h
  | @forks i hi hp hfork =>
    intro j hj
    simp only [PassState.coresAfter, hp, hi, hfork, dif_pos, Bool.false_eq_true, if_false]
    by_cases hji : j = ⟨i, hi⟩
    · subst j
      simp [State.setChild, Child.runs] at hj
    · simpa [hji] using h j (by simpa [State.setChild, hji] using hj)
  | forked hp hi => simpa [PassState.coresAfter, hp, hi] using h
  | launches hp => simpa [PassState.coresAfter, hp, State.setPipe] using h
  | returns hp => simpa [PassState.coresAfter, hp] using h

/-- A child accesses a pipe only after the parent has, and is on core 1 by then. -/
theorem childStep_labelled {s : PassState c} {t : State c} {i : Fin c.pipes}
    {ops out : List (PipeOp c)} (hops : Reach (totalPass c flt) ops s.state)
    (h : ∀ i, (s.state.child i).runs = true → s.cores i = {1})
    (hm : ChildMove flt s.state i t out) (own : CpuSet) :
    labelled own (ops ++ out) = labelled own ops ++ s.accesses out (.child i) := by
  cases hm with
  | throws => simp [PassState.accesses]
  | starts => simp [PassState.accesses]
  | exits => simp [PassState.accesses]
  | reads hch hj hbyte =>
    rw [labelled_append own (pass_started hops (Or.inr (Or.inl ⟨_, hbyte⟩)))]
    simp [PassState.accesses, access, childAccess, h i (by simp [hch, Child.runs])]
  | touches hch =>
    have hholds : (s.state.child i).holds = true := by simp [hch, Child.holds]
    rw [labelled_append own (pass_started hops (Or.inr (Or.inr ⟨i, hholds⟩)))]
    simp [PassState.accesses, access, childAccess, List.filterMap_cons]
  | writes hch =>
    have hholds : (s.state.child i).holds = true := by simp [hch, Child.holds]
    rw [labelled_append own (pass_started hops (Or.inr (Or.inr ⟨i, hholds⟩)))]
    simp [PassState.accesses, access, childAccess, List.filterMap_cons,
      h i (by simp [hch, Child.runs])]

theorem parentStep_labelled {s : PassState c} {t : State c} {ops out : List (PipeOp c)}
    (hops : Reach (totalPass c flt) ops s.state) (hm : ParentMove flt s.state t out) :
    labelled s.own (ops ++ out) = labelled s.own ops ++ s.accesses out .parent := by
  cases hm with
  | launches hp =>
    obtain rfl := pass_quiet hops (by simp [hp, Parent.launched])
    simp [labelled, PassState.accesses, access]
  | _ => simp [PassState.accesses]

theorem pass_sound {own : CpuSet} {tr : List Access} {s : PassState c}
    (h : Reach (Call.machine own (.totalPass c flt)) tr s) : s.Sound flt own tr := by
  refine h.history (P := fun tr s => PassState.Sound flt own tr s)
    ⟨rfl, by simp [Call.machine, totalPass, Child.runs], [], Reach.init, rfl⟩ ?_
  intro tr s e t out hs hstep
  obtain ⟨hown, hcores, ops, hops, htr⟩ := hs
  obtain ⟨m, -, hstep⟩ := Option.bind_eq_some_iff.mp hstep
  obtain ⟨⟨u, seen⟩, hu, heq⟩ := Option.map_eq_some_iff.mp hstep
  obtain ⟨rfl, rfl⟩ := Prod.mk.inj heq
  subst hown
  cases m with
  | parent =>
    have hm := parentStep_move hu
    exact ⟨rfl, parentStep_cores hcores hm, _, hops.step hu,
      by rw [parentStep_labelled hops hm, htr]⟩
  | child i =>
    have hm := childStep_move hu
    exact ⟨rfl, childStep_cores hcores hm, _, hops.step hu,
      by rw [childStep_labelled hops hcores hm, htr]⟩
  | wait i =>
    obtain ⟨j, -, hch, ht, hout⟩ := waitStep_move hu
    refine ⟨rfl, ?_, _, hops.step hu, by simp [hout, PassState.accesses, htr]⟩
    simp only [ht]
    exact cores_setChild hcores (by simp [Child.runs])

end SysPerf.CtxSwitch
