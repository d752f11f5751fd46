import SysPerf.CtxSwitchInvariant

namespace SysPerf.CtxSwitch

open TokenRing

variable {c : Bench} {flt : Faults c}

/-- Bytes in all pipes together. -/
def State.bytes (s : State c) : ℕ :=
  ∑ q, s.pipe q

/-- Children that are between their `read` and their `write`. -/
def State.holding (s : State c) : ℕ :=
  (Finset.univ.filter fun i => (s.child i).holds).card

/-- The children in the order `1, 2, ..., pipes - 1, 0` in which the byte visits them. -/
def ringOrder (c : Bench) (q : ℕ) : Fin c.pipes :=
  slot c.pipes (q + 1)

/-- Along the ring order the finished passes only go down, and by at most one. -/
def State.RingOrdered (s : State c) : Prop :=
  ∀ p q, p ≤ q → q < c.pipes →
    (s.child (ringOrder c q)).passes ≤ (s.child (ringOrder c p)).passes ∧
      (s.child (ringOrder c p)).passes ≤ (s.child (ringOrder c q)).passes + 1

theorem holders_ring (s : State c) : holders s.ring.station = s.holding := by
  apply Finset.card_equiv (Equiv.addRight 1)
  intro q
  simp [State.ring]

theorem ring_station_order (s : State c) (q : Fin c.pipes) :
    s.ring.station q = (s.child (ringOrder c q)).station := by
  rw [ringOrder, ← slot_add_one, slot_self]
  rfl

theorem total_pass_one_byte {tr : List (PipeOp c)} {s : State c}
    (h : Reach (totalPass c flt) tr s) (hl : s.parent.launched = true) :
    s.bytes + s.holding = 1 := by
  obtain ⟨_, a, ha, _⟩ := total_pass_token h
  have hne : a ≠ .absent := Token.ring_launched ha hl
  have hone := Token.ring_one_token (n := c.pipes) hne
  rw [← ha, holders_ring] at hone
  exact hone

theorem total_pass_ordered {tr : List (PipeOp c)} {s : State c}
    (h : Reach (totalPass c flt) tr s) : s.RingOrdered := by
  obtain ⟨_, a, ha, _⟩ := total_pass_token h
  intro p q hpq hq
  have hord := a.ring_ordered (p := ⟨p, by omega⟩) (q := ⟨q, hq⟩) hpq
  simpa only [← ha, ring_station_order, Child.station_passes] using hord

/-- Until the parent waits it can always go on. -/
theorem parent_moves {s : State c} (hp : s.parent ≠ .waiting) (hr : s.parent ≠ .returned)
    (hf : ∀ i, s.parent ≠ .failed i) : ¬Stuck (totalPass c flt) s := by
  intro stuck
  have hstep : parentStep flt s = none := stuck .parent
  unfold parentStep at hstep
  split at hstep
  · split at hstep
    · split at hstep <;> simp at hstep
    · simp at hstep
  · simp at hstep
  next hw => exact hp hw
  next hw => exact hr hw
  next i hw => exact hf i hw

/-- With no fault a child can make every move that its station of the ring can make. -/
theorem child_moves {s : State c} (hs : s.Sound (.none c)) (hl : s.parent.launched = true)
    {i : Fin c.pipes} {r : Ring c.pipes} {out : List (PipeOp c)}
    (h : stationStep c.iters c.footprintArrLen s.ring (i - 1) = some (r, out)) :
    ¬Stuck (totalPass c (.none c)) s := by
  intro stuck
  have hstep : childStep (.none c) s i = none := stuck (.child i)
  have hfits := hs.fits i
  have hcase := stationStep_cases h
  rw [ring_station] at hcase
  cases hch : s.child i with
  | unborn =>
    have hle := (hs.unborn i).mp hch
    cases hp : s.parent <;> simp [hp, Parent.launched, Parent.forked] at hl hle
    all_goals omega
  | starting => simp [childStep, hch, Faults.none] at hstep
  | looping j =>
    rw [hch] at hcase
    rcases hcase with ⟨p, hp, hlt, hbyte⟩ | ⟨p, w, hp⟩
    · obtain rfl : j = p := by simpa [Child.station] using hp
      have hpipe : 0 < s.pipe (i - 1) := hbyte
      simp [childStep, hch, hlt, slot_pred, hpipe] at hstep
    · simp [Child.station] at hp
  | touching j offset =>
    simp only [childStep, hch] at hstep
    split at hstep <;> simp at hstep
  | exited j =>
    have hst : s.ring.station (i - 1) = .idle j := by rw [ring_station, hch]; rfl
    have hle : c.iters ≤ j := by simpa [hch, Child.Fits, Faults.none] using hfits
    simp [stationStep_done hst hle] at h
  | reaped j =>
    have hst : s.ring.station (i - 1) = .idle j := by rw [ring_station, hch]; rfl
    have hle : c.iters ≤ j := by simpa [hch, Child.Fits, Faults.none] using hfits
    simp [stationStep_done hst hle] at h

theorem no_fault_not_failed {s : State c} (hs : s.Sound (.none c)) (i : ℕ) :
    s.parent ≠ .failed i := by
  intro hf
  obtain ⟨hi, hfork⟩ := hs.failed i hf
  simp [Faults.none] at hfork

theorem total_pass_not_stuck {tr : List (PipeOp c)} {s : State c}
    (h : Reach (totalPass c (.none c)) tr s) {i : Fin c.pipes}
    (hi : (s.child i).passes < c.iters) : ¬Stuck (totalPass c (.none c)) s := by
  obtain ⟨hs, a, ha, hv, _⟩ := total_pass_token h
  by_cases hl : s.parent.launched = true
  · have hne : a ≠ .absent := Token.ring_launched ha hl
    have hpasses : (a.ring.station (i - 1)).passes < c.iters := by
      rwa [← ha, ring_station, Child.station_passes]
    obtain ⟨q, r, out, hq⟩ := Token.ring_enabled hv hne hpasses
    rw [← ha, ← add_sub_cancel_right q 1] at hq
    exact child_moves hs hl hq
  · exact parent_moves (fun hw => hl (by simp [hw, Parent.launched]))
      (fun hw => hl (by simp [hw, Parent.launched])) (no_fault_not_failed hs)

theorem child_done {s : State c} (hs : s.Sound (.none c)) (hr : s.parent = .returned)
    (i : Fin c.pipes) : ∃ j, s.child i = .reaped j ∧ c.iters ≤ j := by
  have hgone := hs.returned hr i
  have hfits := hs.fits i
  have hborn := (hs.unborn i).not.mpr (by simp [hr, Parent.forked])
  cases hch : s.child i with
  | reaped j =>
    rw [hch] at hfits
    exact ⟨j, rfl, by simpa [Child.Fits, Faults.none] using hfits⟩
  | unborn => exact absurd hch hborn
  | starting => simp [hch, Child.gone] at hgone
  | looping j => simp [hch, Child.gone] at hgone
  | touching j offset => simp [hch, Child.gone] at hgone
  | exited j => simp [hch, Child.gone] at hgone

/-- When the wait loop has ended the token is through with all its passes. -/
theorem total_pass_complete {tr : List (PipeOp c)} {s : State c}
    (h : Reach (totalPass c (.none c)) tr s) (hr : s.parent = .returned) :
    s.ring = (Token.inChannel (c.iters * c.pipes)).ring ∧
      tr = (Token.inChannel (c.iters * c.pipes)).history c.pipes c.footprintArrLen := by
  obtain ⟨hs, a, ha, hv, htr⟩ := total_pass_token h
  have hne : a ≠ .absent :=
    Token.ring_launched ha (by simp [State.ring, hr, Parent.launched])
  have hidle : ∀ q : Fin c.pipes, a.ring.station q = .idle c.iters := by
    intro q
    obtain ⟨j, hj, hle⟩ := child_done hs hr (q + 1)
    have hstation : a.ring.station q = .idle j := by
      rw [← ha]
      change (s.child (q + 1)).station = _
      rw [hj]
      rfl
    have hge := Token.ring_passes_le hv q
    rw [hstation, Station.passes_idle] at hge
    rw [hstation, le_antisymm hge hle]
  obtain rfl := Token.complete hv hne hidle
  exact ⟨ha, htr⟩

theorem total_pass_ring {tr : List (PipeOp c)} {s : State c}
    (h : Reach (totalPass c (.none c)) tr s) :
    (s.parent.launched = true → s.bytes ≤ 1 ∧ s.bytes + s.holding = 1) ∧
      s.RingOrdered ∧
      ((∃ i, (s.child i).passes < c.iters) → ¬Stuck (totalPass c (.none c)) s) ∧
      (s.parent = .returned → (∀ i, (s.child i).passes = c.iters) ∧
        ∀ q, s.pipe q = if q = 0 then 1 else 0) := by
  refine ⟨fun hl => ?_, total_pass_ordered h, fun ⟨i, hi⟩ => total_pass_not_stuck h hi,
    fun hr => ?_⟩
  · have hone := total_pass_one_byte h hl
    exact ⟨by omega, hone⟩
  · obtain ⟨hring, _⟩ := total_pass_complete h hr
    refine ⟨fun i => ?_, fun q => ?_⟩
    · rw [← Child.station_passes, ← ring_station, hring, Token.ring_passes]
      exact passesAt_complete c.iters (i - 1)
    · have hchan := congrArg (fun r => r.chan q) hring
      exact hchan.trans (Token.complete_chan c.iters q)

/-- Two pipes, one pass for each child, no footprint. -/
def twoPipes : Bench := ⟨2, Nat.two_pos, 0, 1⟩

theorem total_pass_ring_two : ∃ tr s, Reach (totalPass twoPipes (.none twoPipes)) tr s ∧
    s.parent = .returned ∧ (∀ i, (s.child i).passes = 1) ∧ s.pipe 0 = 1 := by
  have hrun : Reach (totalPass twoPipes (.none twoPipes)) _ _ := reach_of_exec
    [.parent, .child 0, .parent, .parent, .parent, .child 1, .child 1, .child 1, .child 0,
      .child 0, .child 0, .child 1, .wait 1, .wait 0, .parent] rfl
  have hend := (total_pass_ring hrun).2.2.2 rfl
  exact ⟨_, _, hrun, rfl, hend.1, hend.2 0⟩

end SysPerf.CtxSwitch
