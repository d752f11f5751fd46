import SysPerf.CtxSwitch

namespace SysPerf.CtxSwitch

open TokenRing

variable {c : Bench} {flt : Faults c}

/-- What child `i` can do next. -/
inductive ChildMove (flt : Faults c) (s : State c) (i : Fin c.pipes) :
    State c → List (PipeOp c) → Prop
  | throws : s.child i = .starting → flt.cores i = true →
      ChildMove flt s i (s.setChild i (.exited 0)) []
  | starts : s.child i = .starting → flt.cores i = false →
      ChildMove flt s i (s.setChild i (.looping 0)) []
  | reads {j} : s.child i = .looping j → j < c.iters → 0 < s.pipe (i - 1) →
      ChildMove flt s i ((s.setPipe (i - 1) (s.pipe (i - 1) - 1)).setChild i (.touching j 0))
        [.read (i - 1)]
  | exits {j} : s.child i = .looping j → ¬j < c.iters →
      ChildMove flt s i (s.setChild i (.exited j)) []
  | touches {j offset} : s.child i = .touching j offset → offset < c.footprintArrLen →
      ChildMove flt s i (s.setChild i (.touching j (offset + 1))) [.touch offset]
  | writes {j offset} : s.child i = .touching j offset → ¬offset < c.footprintArrLen →
      ChildMove flt s i ((s.setPipe i (s.pipe i + 1)).setChild i (.looping (j + 1)))
        [.pass, .write i]

theorem childStep_move {s t : State c} {i : Fin c.pipes} {out : List (PipeOp c)}
    (h : childStep flt s i = some (t, out)) : ChildMove flt s i t out := by
  cases hch : s.child i with
  | unborn => simp [childStep, hch] at h
  | starting =>
    simp only [childStep, hch] at h
    cases hthrow : flt.cores i with
    | true =>
      simp only [hthrow, if_true, Option.some.injEq, Prod.mk.injEq] at h
      obtain ⟨rfl, rfl⟩ := h
      exact .throws hch hthrow
    | false =>
      simp only [hthrow, Bool.false_eq_true, if_false, Option.some.injEq, Prod.mk.injEq] at h
      obtain ⟨rfl, rfl⟩ := h
      exact .starts hch hthrow
  | looping j =>
    simp only [childStep, hch, slot_pred] at h
    split at h
    next hj =>
      obtain ⟨hbyte, heq⟩ := Option.ite_none_right_eq_some.mp h
      obtain ⟨rfl, rfl⟩ := Prod.mk.inj (Option.some.inj heq)
      exact .reads hch hj hbyte
    next hj =>
      obtain ⟨rfl, rfl⟩ := Prod.mk.inj (Option.some.inj h)
      exact .exits hch hj
  | touching j offset =>
    simp only [childStep, hch, slot_self] at h
    split at h
    next hlt =>
      obtain ⟨rfl, rfl⟩ := Prod.mk.inj (Option.some.inj h)
      exact .touches hch hlt
    next hlt =>
      obtain ⟨rfl, rfl⟩ := Prod.mk.inj (Option.some.inj h)
      exact .writes hch hlt
  | exited j => simp [childStep, hch] at h
  | reaped j => simp [childStep, hch] at h

/-- What the parent can do next, apart from reaping a child. -/
inductive ParentMove (flt : Faults c) (s : State c) : State c → List (PipeOp c) → Prop
  | forkFails {i} (h : i < c.pipes) : s.parent = .forking i → flt.fork ⟨i, h⟩ = true →
      ParentMove flt s { s with parent := .failed i } []
  | forks {i} (h : i < c.pipes) : s.parent = .forking i → flt.fork ⟨i, h⟩ = false →
      ParentMove flt s { s.setChild ⟨i, h⟩ .starting with parent := .forking (i + 1) } []
  | forked {i} : s.parent = .forking i → ¬i < c.pipes →
      ParentMove flt s { s with parent := .signalling } []
  | launches : s.parent = .signalling →
      ParentMove flt s { s.setPipe 0 (s.pipe 0 + 1) with parent := .waiting } [.write 0]
  | returns : s.parent = .waiting → (∀ i, (s.child i).gone = true) →
      ParentMove flt s { s with parent := .returned } []

theorem parentStep_move {s t : State c} {out : List (PipeOp c)}
    (h : parentStep flt s = some (t, out)) : ParentMove flt s t out := by
  cases hp : s.parent with
  | forking i =>
    simp only [parentStep, hp] at h
    split at h
    next hi =>
      cases hfork : flt.fork ⟨i, hi⟩ with
      | true =>
        simp only [hfork, if_true, Option.some.injEq, Prod.mk.injEq] at h
        obtain ⟨rfl, rfl⟩ := h
        exact .forkFails hi hp hfork
      | false =>
        simp only [hfork, Bool.false_eq_true, if_false, Option.some.injEq, Prod.mk.injEq] at h
        obtain ⟨rfl, rfl⟩ := h
        exact .forks hi hp hfork
    next hi =>
      obtain ⟨rfl, rfl⟩ := Prod.mk.inj (Option.some.inj h)
      exact .forked hp hi
  | signalling =>
    simp only [parentStep, hp, Option.some.injEq, Prod.mk.injEq] at h
    obtain ⟨rfl, rfl⟩ := h
    exact .launches hp
  | waiting =>
    simp only [parentStep, hp] at h
    obtain ⟨hgone, heq⟩ := Option.ite_none_right_eq_some.mp h
    obtain ⟨rfl, rfl⟩ := Prod.mk.inj (Option.some.inj heq)
    exact .returns hp hgone
  | returned => simp [parentStep, hp] at h
  | failed i => simp [parentStep, hp] at h

theorem waitStep_move {s t : State c} {i : Fin c.pipes} {out : List (PipeOp c)}
    (h : waitStep s i = some (t, out)) :
    ∃ j, s.parent = .waiting ∧ s.child i = .exited j ∧ t = s.setChild i (.reaped j) ∧ out = [] := by
  unfold waitStep at h
  split at h
  next j hp hch =>
    obtain ⟨rfl, rfl⟩ := Prod.mk.inj (Option.some.inj h)
    exact ⟨j, hp, hch, rfl, rfl⟩
  next => simp at h

/-- A child as a station of the ring. -/
def Child.station : Child → Station
  | .unborn => .idle 0
  | .starting => .idle 0
  | .looping j => .idle j
  | .touching j offset => .busy j offset
  | .exited j => .idle j
  | .reaped j => .idle j

@[simp] theorem Child.station_passes (ch : Child) : ch.station.passes = ch.passes := by
  cases ch <;> rfl

@[simp] theorem Child.station_isBusy (ch : Child) : ch.station.isBusy = ch.holds := by
  cases ch <;> rfl

/-- The ring in the benchmark: child `q + 1` reads pipe `q`, so it is station `q`. -/
def State.ring (s : State c) : Ring c.pipes :=
  ⟨s.parent.launched, s.pipe, fun q => (s.child (q + 1)).station⟩

theorem ring_station (s : State c) (i : Fin c.pipes) :
    s.ring.station (i - 1) = (s.child i).station := by
  simp [State.ring]

theorem ring_setChild (s : State c) (i : Fin c.pipes) (ch : Child) :
    (s.setChild i ch).ring =
      { s.ring with station := Function.update s.ring.station (i - 1) ch.station } := by
  have hstation : (fun q => (Function.update s.child i ch (q + 1)).station) =
      Function.update (fun q => (s.child (q + 1)).station) (i - 1) ch.station := by
    funext q
    by_cases hq : q = i - 1
    · subst q; simp
    · have hne : q + 1 ≠ i := fun h => hq (eq_sub_of_add_eq h)
      simp [hq, hne]
  simp only [State.ring, State.setChild, hstation]

theorem ring_setPipe (s : State c) (q : Fin c.pipes) (bytes : ℕ) :
    (s.setPipe q bytes).ring = { s.ring with chan := Function.update s.ring.chan q bytes } := rfl

theorem ring_setChild_same (s : State c) {i : Fin c.pipes} {ch : Child}
    (h : ch.station = (s.child i).station) : (s.setChild i ch).ring = s.ring := by
  rw [ring_setChild, h, ← ring_station, Function.update_eq_self]

/-- A child either does something the ring does not see or makes the move of its station. -/
theorem childStep_ring {s t : State c} {i : Fin c.pipes} {out : List (PipeOp c)}
    (h : ChildMove flt s i t out) : (out = [] ∧ t.ring = s.ring) ∨
      stationStep c.iters c.footprintArrLen s.ring (i - 1) = some (t.ring, out) := by
  have hst := ring_station s i
  cases h with
  | throws hch => exact Or.inl ⟨rfl, ring_setChild_same s (by rw [hch]; rfl)⟩
  | starts hch => exact Or.inl ⟨rfl, ring_setChild_same s (by rw [hch]; rfl)⟩
  | exits hch => exact Or.inl ⟨rfl, ring_setChild_same s (by rw [hch]; rfl)⟩
  | reads hch hj hbyte =>
    rw [hch, Child.station] at hst
    have hchan : 0 < s.ring.chan (i - 1) := hbyte
    refine Or.inr ?_
    rw [ring_setChild, ring_setPipe, stationStep, hst]
    simp only [hj, hchan, and_self, if_true]
    rfl
  | touches hch hlt =>
    rw [hch, Child.station] at hst
    refine Or.inr ?_
    rw [ring_setChild, stationStep, hst]
    simp only [hlt, if_true]
    rfl
  | writes hch hlt =>
    rw [hch, Child.station] at hst
    refine Or.inr ?_
    rw [ring_setChild, ring_setPipe, stationStep, hst]
    simp only [hlt, if_false, sub_add_cancel]
    rfl

end SysPerf.CtxSwitch
