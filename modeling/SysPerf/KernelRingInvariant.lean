import SysPerf.KernelRingRefinement

namespace SysPerf.KernelRing

open TokenRing

variable {c : Bench}

theorem sound_start (mask : CpuSet) : (start c mask).Sound where
  unborn i := by simp [start, Main.created]
  fits i := trivial
  joined i h := absurd h (Nat.not_lt_zero _)
  fresh := ⟨0, fun _ _ => rfl⟩

theorem Worker.Fits.mono {heap later : ℕ → Option (Fin c.pipes × Fin c.pipes)}
    {i : Fin c.pipes} {w : Worker} (h : w.Fits heap i)
    (keep : ∀ p, heap p = some (i, i + 1) → later p = some (i, i + 1)) : w.Fits later i := by
  cases w with
  | unborn => trivial
  | starting ptr => exact keep _ h
  | looping p left => exact ⟨h.1, keep _ h.2⟩
  | touching p left offset => exact ⟨h.1, h.2.1, keep _ h.2.2⟩
  | returned => trivial
  | joined => trivial

/-- A worker that moves on and leaves the other workers' blocks alone keeps the state sound. -/
theorem sound_worker {s t : State c} (hs : s.Sound) {i : Fin c.pipes} {w : Worker}
    (hworker : t.worker = Function.update s.worker i w) (hmain : t.main = s.main)
    (hold : s.worker i ≠ .unborn) (hrun : s.worker i ≠ .joined) (hnew : w ≠ .unborn)
    (hfits : w.Fits t.heap i)
    (keep : ∀ j p, j ≠ i → s.heap p = some (j, j + 1) → t.heap p = some (j, j + 1))
    (hfresh : ∃ bound, ∀ ptr, bound ≤ ptr → t.heap ptr = none) : t.Sound where
  unborn j := by
    rw [hworker, hmain]
    by_cases hj : j = i
    · subst j
      simpa [hnew] using (hs.unborn i).not.mp hold
    · simpa [hj] using hs.unborn j
  fits j := by
    rw [hworker]
    by_cases hj : j = i
    · subst j; simpa using hfits
    · simpa [hj] using (hs.fits j).mono fun p => keep j p hj
  joined j h := by
    rw [hmain] at h
    have hjoined := hs.joined j h
    have hj : j ≠ i := fun hj => hrun (hj ▸ hjoined)
    rw [hworker]
    simpa [hj] using hjoined
  fresh := hfresh

theorem workerStep_sound {s t : State c} {i : Fin c.pipes} {out : List (PipeOp c)}
    (hs : s.Sound) (h : WorkerMove s i t out) : t.Sound := by
  have hfits := hs.fits i
  cases h with
  | starts hw =>
    rw [hw] at hfits
    exact sound_worker hs rfl rfl (by simp [hw]) (by simp [hw]) (by simp) ⟨le_rfl, hfits⟩
      (fun _ _ _ hp => hp) hs.fresh
  | reads hw hleft hheap hbyte =>
    rw [hw] at hfits
    exact sound_worker hs rfl rfl (by simp [hw]) (by simp [hw]) (by simp) ⟨hleft, hfits⟩
      (fun _ _ _ hp => hp) hs.fresh
  | @returns p hw =>
    rw [hw] at hfits
    refine sound_worker hs rfl rfl (by simp [hw]) (by simp [hw]) (by simp) trivial ?_ ?_
    · intro j q hj hq
      have hne : q ≠ p := by
        rintro rfl
        rw [hfits.2] at hq
        exact hj (Prod.mk.inj (Option.some.inj hq)).1.symm
      simpa [hne] using hq
    · obtain ⟨bound, hbound⟩ := hs.fresh
      refine ⟨bound, fun ptr hptr => ?_⟩
      by_cases hp : ptr = p
      · simp [hp]
      · simpa [hp] using hbound ptr hptr
  | touches hw hlt =>
    rw [hw] at hfits
    exact sound_worker hs rfl rfl (by simp [hw]) (by simp [hw]) (by simp) hfits
      (fun _ _ _ hp => hp) hs.fresh
  | writes hw hlt hheap =>
    rw [hw] at hfits
    obtain ⟨hpos, hle, hown⟩ := hfits
    exact sound_worker hs rfl rfl (by simp [hw]) (by simp [hw]) (by simp) ⟨by omega, hown⟩
      (fun _ _ _ hp => hp) hs.fresh

theorem mainStep_sound {s t : State c} {out : List (PipeOp c)} (hs : s.Sound)
    (h : MainMove s t out) : t.Sound := by
  have hunborn := hs.unborn
  have hjoined := hs.joined
  cases h with
  | @creates i ptr hi hm hfree =>
    simp only [hm, Main.created] at hunborn
    have hself : slot c.pipes (i + 1) = (⟨i, hi⟩ : Fin c.pipes) + 1 := by
      rw [← slot_add_one, ← slot_self (⟨i, hi⟩ : Fin c.pipes)]
    refine ⟨fun j => ?_, fun j => ?_, fun j h => absurd h (Nat.not_lt_zero _), ?_⟩
    · by_cases hj : j = ⟨i, hi⟩
      · subst j
        simp [State.setWorker, Main.created]
      · have hne : (j : ℕ) ≠ i := fun h => hj (Fin.ext h)
        have hiff := hunborn j
        simp only [State.setWorker, Function.update_of_ne hj, Main.created, hiff]
        omega
    · by_cases hj : j = ⟨i, hi⟩
      · subst j
        simp [State.setWorker, Worker.Fits, hself]
      · have hfits : (s.worker j).Fits
            (Function.update s.heap ptr (some (⟨i, hi⟩, slot c.pipes (i + 1)))) j := by
          refine (hs.fits j).mono fun p hp => ?_
          have hne : p ≠ ptr := by rintro rfl; simp [hfree] at hp
          simpa [hne] using hp
        simpa [State.setWorker, hj] using hfits
    · obtain ⟨bound, hbound⟩ := hs.fresh
      refine ⟨max bound (ptr + 1), fun p hp => ?_⟩
      have hne : p ≠ ptr := by omega
      simpa [hne] using hbound p (by omega)
  | @created i hm hi =>
    simp only [hm, Main.created] at hunborn
    refine ⟨fun j => ?_, hs.fits, fun j h => absurd h (Nat.not_lt_zero _), hs.fresh⟩
    rw [hunborn j, Main.created]
    omega
  | launches hm =>
    simp only [hm, Main.created] at hunborn
    exact ⟨hunborn, hs.fits, fun j h => absurd h (Nat.not_lt_zero _), hs.fresh⟩
  | @joins i hi hm hret =>
    simp only [hm, Main.created, Main.joined] at hunborn hjoined
    refine ⟨fun j => ?_, fun j => ?_, fun j hj => ?_, hs.fresh⟩
    · by_cases hj : j = ⟨i, hi⟩
      · subst j
        simpa [State.setWorker, Main.created, hret] using hunborn ⟨i, hi⟩
      · simpa [State.setWorker, Main.created, hj] using hunborn j
    · by_cases hj : j = ⟨i, hi⟩
      · subst j
        simp [State.setWorker, Worker.Fits]
      · simpa [State.setWorker, hj] using hs.fits j
    · rcases Nat.lt_succ_iff_lt_or_eq.mp hj with hlt | heq
      · have hne : j ≠ ⟨i, hi⟩ := fun h => Nat.ne_of_lt hlt (congrArg Fin.val h)
        simpa [State.setWorker, hne] using hjoined j hlt
      · obtain rfl : j = ⟨i, hi⟩ := Fin.ext heq
        simp [State.setWorker]
  | @returns i hm hi =>
    simp only [hm, Main.created, Main.joined] at hunborn hjoined
    exact ⟨hunborn, hs.fits, fun j _ => hjoined j (by omega), hs.fresh⟩

theorem mainStep_ring {s t : State c} {out : List (PipeOp c)} (hs : s.Sound)
    (h : MainMove s t out) : (out = [] ∧ t.ring = s.ring) ∨
      launchStep s.ring = some (t.ring, out) := by
  cases h with
  | @creates i ptr hi hm =>
    have hborn : s.worker ⟨i, hi⟩ = .unborn := (hs.unborn _).mpr (by simp [hm, Main.created])
    have hring := ring_setWorker_same s (i := ⟨i, hi⟩) (w := .starting ptr) (by rw [hborn]; rfl)
    refine Or.inl ⟨rfl, ?_⟩
    rw [← hring]
    simp [State.ring, State.setWorker, hm, Main.launched]
  | created hm => exact Or.inl ⟨rfl, by simp [State.ring, hm, Main.launched]⟩
  | launches hm =>
    refine Or.inr ?_
    simp [launchStep, State.ring, State.setPipe, hm, Main.launched]
  | @joins i hi hm hret =>
    have hring := ring_setWorker_same s (i := ⟨i, hi⟩) (w := .joined) (by rw [hret]; rfl)
    refine Or.inl ⟨rfl, ?_⟩
    rw [← hring]
    simp [State.ring, State.setWorker, hm, Main.launched]
  | returns hm => exact Or.inl ⟨rfl, by simp [State.ring, hm, Main.launched]⟩

/-- `kern_thread_ring` is a token ring, wherever its blocks are allocated. -/
theorem kern_thread_ring_simulates_ring (mask : CpuSet) : Simulates (kernThreadRing c mask)
    (TokenRing.ring c.pipes c.iters c.footprintArrLen) (fun s r => s.ring = r ∧ s.Sound) where
  init := ⟨rfl, sound_start mask⟩
  step := by
    rintro s r e t out ⟨rfl, hs⟩ h
    rcases step_move h with hm | ⟨i, hm⟩
    · rcases mainStep_ring hs hm with ⟨hout, hring⟩ | hring
      · exact Or.inl ⟨hout, hring, mainStep_sound hs hm⟩
      · exact Or.inr ⟨.launch, _, hring, rfl, mainStep_sound hs hm⟩
    · rcases workerStep_ring hs hm with ⟨hout, hring⟩ | hring
      · exact Or.inl ⟨hout, hring, workerStep_sound hs hm⟩
      · exact Or.inr ⟨.station i, _, hring, rfl, workerStep_sound hs hm⟩

/-- Each reachable state is the one the position of the single token determines. -/
theorem kern_thread_ring_token {mask : CpuSet} {tr : List (PipeOp c)} {s : State c}
    (h : Reach (kernThreadRing c mask) tr s) : s.Sound ∧ ∃ a : Token, s.ring = a.ring ∧
      a.Valid c.pipes c.iters c.footprintArrLen ∧ tr = a.history c.pipes c.footprintArrLen := by
  obtain ⟨r, hr, rfl, hs⟩ := (kern_thread_ring_simulates_ring mask).reach h
  obtain ⟨a, ha, hring, _⟩ := ring_simulates_odometer.reach hr
  obtain ⟨hv, htr⟩ := odometer_history ha
  exact ⟨hs, a, hring, hv, htr⟩

end SysPerf.KernelRing
