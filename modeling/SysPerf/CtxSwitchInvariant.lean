import SysPerf.CtxSwitchRefinement

namespace SysPerf.CtxSwitch

open TokenRing

variable {c : Bench} {flt : Faults c}

/-- What a child can have come to, given whether its `use_cores` throws. -/
def Child.Fits (flt : Faults c) (i : Fin c.pipes) : Child → Prop
  | .unborn => True
  | .starting => True
  | .looping _ => flt.cores i = false
  | .touching _ _ => flt.cores i = false
  | .exited j => if flt.cores i then j = 0 else c.iters ≤ j
  | .reaped j => if flt.cores i then j = 0 else c.iters ≤ j

structure State.Sound (flt : Faults c) (s : State c) : Prop where
  unborn : ∀ i : Fin c.pipes, s.child i = .unborn ↔ s.parent.forked c.pipes ≤ i
  fits : ∀ i, (s.child i).Fits flt i
  forks : ∀ i : Fin c.pipes, (i : ℕ) < s.parent.forked c.pipes → flt.fork i = false
  failed : ∀ i, s.parent = .failed i → ∃ h : i < c.pipes, flt.fork ⟨i, h⟩ = true
  returned : s.parent = .returned → ∀ i, (s.child i).gone = true

theorem sound_init : (totalPass c flt).init.Sound flt where
  unborn i := by simp [totalPass, Parent.forked]
  fits i := trivial
  forks i h := absurd h (Nat.not_lt_zero _)
  failed i h := by simp [totalPass] at h
  returned h := by simp [totalPass] at h

/-- Advancing a forked child that is not gone keeps the state sound. -/
theorem sound_setChild {s : State c} (hs : s.Sound flt) {i : Fin c.pipes} {ch : Child}
    (hold : s.child i ≠ .unborn) (hrun : (s.child i).gone = false) (hnew : ch ≠ .unborn)
    (hfits : ch.Fits flt i) : (s.setChild i ch).Sound flt where
  unborn j := by
    by_cases hj : j = i
    · subst j
      have := (hs.unborn i).not.mp hold
      simpa [State.setChild, hnew] using this
    · simpa [State.setChild, hj] using hs.unborn j
  fits j := by
    by_cases hj : j = i
    · subst j; simpa [State.setChild] using hfits
    · simpa [State.setChild, hj] using hs.fits j
  forks := hs.forks
  failed := hs.failed
  returned hp := by
    have := hs.returned hp i
    simp [hrun] at this

theorem sound_setPipe {s : State c} (hs : s.Sound flt) (q : Fin c.pipes) (bytes : ℕ) :
    (s.setPipe q bytes).Sound flt :=
  ⟨hs.unborn, hs.fits, hs.forks, hs.failed, hs.returned⟩

theorem childStep_sound {s t : State c} {i : Fin c.pipes} {out : List (PipeOp c)}
    (hs : s.Sound flt) (h : ChildMove flt s i t out) : t.Sound flt := by
  have hfits := hs.fits i
  cases h with
  | throws hch hthrow =>
    exact sound_setChild hs (by simp [hch]) (by simp [hch, Child.gone]) (by simp)
      (by simp [Child.Fits, hthrow])
  | starts hch hthrow =>
    exact sound_setChild hs (by simp [hch]) (by simp [hch, Child.gone]) (by simp) hthrow
  | reads hch hj hbyte =>
    rw [hch] at hfits
    exact sound_setChild (sound_setPipe hs _ _) (by simp [State.setPipe, hch])
      (by simp [State.setPipe, hch, Child.gone]) (by simp) hfits
  | exits hch hj =>
    rw [hch, Child.Fits] at hfits
    exact sound_setChild hs (by simp [hch]) (by simp [hch, Child.gone]) (by simp)
      (by simpa [Child.Fits, hfits] using hj)
  | touches hch hlt =>
    rw [hch] at hfits
    exact sound_setChild hs (by simp [hch]) (by simp [hch, Child.gone]) (by simp) hfits
  | writes hch hlt =>
    rw [hch] at hfits
    exact sound_setChild (sound_setPipe hs _ _) (by simp [State.setPipe, hch])
      (by simp [State.setPipe, hch, Child.gone]) (by simp) hfits

theorem waitStep_sound {s t : State c} {i : Fin c.pipes} {out : List (PipeOp c)}
    (hs : s.Sound flt) (h : waitStep s i = some (t, out)) : t.Sound flt := by
  obtain ⟨j, _, hch, rfl, _⟩ := waitStep_move h
  have hfits := hs.fits i
  rw [hch] at hfits
  exact sound_setChild hs (by simp [hch]) (by simp [hch, Child.gone]) (by simp) hfits

theorem parentStep_sound {s t : State c} {out : List (PipeOp c)}
    (hs : s.Sound flt) (h : ParentMove flt s t out) : t.Sound flt := by
  have hunborn := hs.unborn
  have hforks := hs.forks
  cases h with
  | @forkFails i hi hp hfork =>
    simp only [hp, Parent.forked] at hunborn hforks
    exact ⟨hunborn, hs.fits, hforks, fun j hj => by cases hj; exact ⟨hi, hfork⟩, by simp⟩
  | @forks i hi hp hfork =>
    simp only [hp, Parent.forked] at hunborn hforks
    refine ⟨fun j => ?_, fun j => ?_, fun j hj => ?_, by simp, by simp⟩
    · by_cases hj : j = ⟨i, hi⟩
      · subst j
        simp [State.setChild, Parent.forked]
      · have hne : (j : ℕ) ≠ i := fun h => hj (Fin.ext h)
        have hiff := hunborn j
        simp only [State.setChild, Function.update_of_ne hj, Parent.forked, hiff]
        omega
    · by_cases hj : j = ⟨i, hi⟩
      · subst j
        simp [State.setChild, Child.Fits]
      · simpa [State.setChild, hj] using hs.fits j
    · rcases Nat.lt_succ_iff_lt_or_eq.mp hj with hlt | heq
      · exact hforks j hlt
      · obtain rfl : j = ⟨i, hi⟩ := Fin.ext heq
        exact hfork
  | @forked i hp hi =>
    simp only [hp, Parent.forked] at hunborn hforks
    refine ⟨fun j => ?_, hs.fits, fun j _ => hforks j (by omega), by simp, by simp⟩
    rw [hunborn j, Parent.forked]
    omega
  | launches hp =>
    simp only [hp, Parent.forked] at hunborn hforks
    exact ⟨hunborn, hs.fits, hforks, by simp, by simp⟩
  | returns hp hgone =>
    simp only [hp, Parent.forked] at hunborn hforks
    exact ⟨hunborn, hs.fits, hforks, by simp, fun _ => hgone⟩

theorem parentStep_ring {s t : State c} {out : List (PipeOp c)} (hs : s.Sound flt)
    (h : ParentMove flt s t out) :
    (out = [] ∧ t.ring = s.ring) ∨ launchStep s.ring = some (t.ring, out) := by
  cases h with
  | forkFails hi hp => exact Or.inl ⟨rfl, by simp [State.ring, hp, Parent.launched]⟩
  | @forks i hi hp =>
    have hborn : s.child ⟨i, hi⟩ = .unborn := (hs.unborn _).mpr (by simp [hp, Parent.forked])
    have hring : (s.setChild ⟨i, hi⟩ .starting).ring = s.ring :=
      ring_setChild_same s (by rw [hborn]; rfl)
    refine Or.inl ⟨rfl, ?_⟩
    rw [← hring]
    simp [State.ring, State.setChild, hp, Parent.launched]
  | forked hp => exact Or.inl ⟨rfl, by simp [State.ring, hp, Parent.launched]⟩
  | launches hp =>
    refine Or.inr ?_
    simp [launchStep, State.ring, State.setPipe, hp, Parent.launched]
  | returns hp => exact Or.inl ⟨rfl, by simp [State.ring, hp, Parent.launched]⟩

/-- `total_pass` is a token ring, whichever forks fail and whichever children throw. -/
theorem total_pass_simulates_ring : Simulates (totalPass c flt)
    (TokenRing.ring c.pipes c.iters c.footprintArrLen)
    (fun s r => s.ring = r ∧ s.Sound flt) where
  init := ⟨rfl, sound_init⟩
  step := by
    rintro s r e t out ⟨rfl, hs⟩ h
    cases e with
    | parent =>
      have hm := parentStep_move h
      rcases parentStep_ring hs hm with ⟨hout, hring⟩ | hring
      · exact Or.inl ⟨hout, hring, parentStep_sound hs hm⟩
      · exact Or.inr ⟨.launch, _, hring, rfl, parentStep_sound hs hm⟩
    | child i =>
      have hm := childStep_move h
      rcases childStep_ring hm with ⟨hout, hring⟩ | hring
      · exact Or.inl ⟨hout, hring, childStep_sound hs hm⟩
      · exact Or.inr ⟨.station (i - 1), _, hring, rfl, childStep_sound hs hm⟩
    | wait i =>
      obtain ⟨j, _, hch, rfl, rfl⟩ := waitStep_move h
      exact Or.inl ⟨rfl, ring_setChild_same s (by rw [hch]; rfl), waitStep_sound hs h⟩

/-- Each reachable state is the one the position of the single token determines. -/
theorem total_pass_token {tr : List (PipeOp c)} {s : State c}
    (h : Reach (totalPass c flt) tr s) : s.Sound flt ∧ ∃ a : Token, s.ring = a.ring ∧
      a.Valid c.pipes c.iters c.footprintArrLen ∧ tr = a.history c.pipes c.footprintArrLen := by
  obtain ⟨r, hr, rfl, hs⟩ := total_pass_simulates_ring.reach h
  obtain ⟨a, ha, hring, _⟩ := ring_simulates_odometer.reach hr
  obtain ⟨hv, htr⟩ := odometer_history ha
  exact ⟨hs, a, hring, hv, htr⟩

end SysPerf.CtxSwitch
