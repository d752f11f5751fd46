import SysPerf.KernelRingInvariant

namespace SysPerf.KernelRing

open TokenRing

variable {c : Bench} {mask : CpuSet}

/-- Bytes in all pipes together. -/
def State.bytes (s : State c) : ℕ :=
  ∑ q, s.pipe q

/-- Workers that are between their `read` and their `write`. -/
def State.holding (s : State c) : ℕ :=
  (Finset.univ.filter fun i => (s.worker i).holds).card

def State.passes (s : State c) (i : Fin c.pipes) : ℕ :=
  (s.worker i).passes c.iters

theorem holders_ring (s : State c) : holders s.ring.station = s.holding := by
  simp only [holders, State.holding, State.ring, Worker.station_isBusy]

theorem ring_passes_eq (s : State c) (i : Fin c.pipes) :
    (s.ring.station i).passes = s.passes i :=
  Worker.station_passes c.iters (s.worker i)

/-- Whichever thread starts first, worker `i` reads `p[i]` and writes `p[(i+1) % pipes]`. -/
theorem worker_own_pair {s t : State c} {i : ℕ} {out : List (PipeOp c)} (hs : s.Sound)
    (h : step s (.worker i) = some (t, out)) (q : Fin c.pipes) :
    (.read q ∈ out → q = slot c.pipes i) ∧ (.write q ∈ out → q = slot c.pipes (i + 1)) := by
  simp only [step] at h
  split at h
  next hi =>
    have hself : slot c.pipes i = ⟨i, hi⟩ := slot_self (⟨i, hi⟩ : Fin c.pipes)
    have hfits := hs.fits ⟨i, hi⟩
    rw [← slot_add_one, hself]
    have hm := workerStep_move h
    cases hm with
    | starts hw => simp
    | reads hw hleft hheap hbyte =>
      rw [hw] at hfits
      obtain ⟨rfl, _⟩ := Prod.mk.inj (Option.some.inj (hheap.symm.trans hfits.2))
      simp
    | returns hw => simp
    | touches hw hlt => simp
    | writes hw hlt hheap =>
      rw [hw] at hfits
      obtain ⟨rfl, rfl⟩ := Prod.mk.inj (Option.some.inj (hheap.symm.trans hfits.2.2))
      simp
  next => simp at h

theorem kern_thread_ring_one_byte {tr : List (PipeOp c)} {s : State c}
    (h : Reach (kernThreadRing c mask) tr s) (hl : s.main.launched = true) :
    s.bytes + s.holding = 1 := by
  obtain ⟨_, a, ha, _⟩ := kern_thread_ring_token h
  have hne : a ≠ .absent := Token.ring_launched ha hl
  have hone := Token.ring_one_token (n := c.pipes) hne
  rw [← ha, holders_ring] at hone
  exact hone

theorem kern_thread_ring_ordered {tr : List (PipeOp c)} {s : State c}
    (h : Reach (kernThreadRing c mask) tr s) {i j : Fin c.pipes} (hij : i ≤ j) :
    s.passes j ≤ s.passes i ∧ s.passes i ≤ s.passes j + 1 := by
  obtain ⟨_, a, ha, _⟩ := kern_thread_ring_token h
  have hord := a.ring_ordered hij
  simpa only [← ha, ring_passes_eq] using hord

/-- Until the main thread joins it can always go on. -/
theorem main_moves {s : State c} (hs : s.Sound) (hl : s.main.launched = false) :
    ¬Stuck (kernThreadRing c mask) s := by
  intro stuck
  cases hm : s.main with
  | creating i =>
    by_cases hi : i < c.pipes
    · obtain ⟨bound, hbound⟩ := hs.fresh
      have hstep : createStep s bound = none := stuck (.create bound)
      simp [createStep, hm, hi, hbound] at hstep
    · have hstep : mainStep s = none := stuck .main
      simp [mainStep, hm, hi] at hstep
  | signalling =>
    have hstep : mainStep s = none := stuck .main
    simp [mainStep, hm] at hstep
  | joining i => simp [hm, Main.launched] at hl
  | returned => simp [hm, Main.launched] at hl

/-- A worker can make every move that its station of the ring can make. -/
theorem worker_moves {s : State c} (hs : s.Sound) (hl : s.main.launched = true)
    {i : Fin c.pipes} {r : Ring c.pipes} {out : List (PipeOp c)}
    (h : stationStep c.iters c.footprintArrLen s.ring i = some (r, out)) :
    ¬Stuck (kernThreadRing c mask) s := by
  intro stuck
  have hstep : workerStep s i = none := by
    have hmove : step s (.worker i) = none := stuck (.worker i)
    simpa only [step, i.isLt, dif_pos] using hmove
  have hfits := hs.fits i
  have hst : s.ring.station i = (s.worker i).station c.iters := rfl
  have hcase := stationStep_cases h
  rw [hst] at hcase
  cases hw : s.worker i with
  | unborn =>
    have hle := (hs.unborn i).mp hw
    cases hm : s.main <;> simp [hm, Main.launched, Main.created] at hl hle
    all_goals omega
  | starting ptr => simp [workerStep, hw] at hstep
  | looping p left =>
    rw [hw] at hcase hfits
    obtain ⟨hle, hheap⟩ := hfits
    rcases hcase with ⟨q, hq, hlt, hbyte⟩ | ⟨q, w, hq⟩
    · have hleft : c.iters - left = q := by simpa [Worker.station] using hq
      have hpos : 0 < left := by omega
      have hpipe : 0 < s.pipe i := hbyte
      simp [workerStep, hw, hpos, hheap, hpipe] at hstep
    · simp [Worker.station] at hq
  | touching p left offset =>
    rw [hw] at hfits
    simp only [workerStep, hw, hfits.2.2] at hstep
    split at hstep <;> simp at hstep
  | returned =>
    have hidle : s.ring.station i = .idle c.iters := by rw [hst, hw]; rfl
    simp [stationStep_done hidle le_rfl] at h
  | joined =>
    have hidle : s.ring.station i = .idle c.iters := by rw [hst, hw]; rfl
    simp [stationStep_done hidle le_rfl] at h

theorem kern_thread_ring_not_stuck {tr : List (PipeOp c)} {s : State c}
    (h : Reach (kernThreadRing c mask) tr s) {i : Fin c.pipes} (hi : s.passes i < c.iters) :
    ¬Stuck (kernThreadRing c mask) s := by
  obtain ⟨hs, a, ha, hv, _⟩ := kern_thread_ring_token h
  cases hl : s.main.launched with
  | false => exact main_moves hs hl
  | true =>
    have hne : a ≠ .absent := Token.ring_launched ha hl
    have hpasses : (a.ring.station i).passes < c.iters := by rwa [← ha, ring_passes_eq]
    obtain ⟨q, r, out, hq⟩ := Token.ring_enabled hv hne hpasses
    rw [← ha] at hq
    exact worker_moves hs hl hq

/-- When all joins have returned the token is through with all its passes. -/
theorem kern_thread_ring_complete {tr : List (PipeOp c)} {s : State c}
    (h : Reach (kernThreadRing c mask) tr s) (hr : s.main = .returned) :
    s.ring = (Token.inChannel (c.iters * c.pipes)).ring ∧
      tr = (Token.inChannel (c.iters * c.pipes)).history c.pipes c.footprintArrLen := by
  obtain ⟨hs, a, ha, hv, htr⟩ := kern_thread_ring_token h
  have hne : a ≠ .absent :=
    Token.ring_launched ha (by simp [State.ring, hr, Main.launched])
  have hidle : ∀ i : Fin c.pipes, a.ring.station i = .idle c.iters := by
    intro i
    have hjoined := hs.joined i (by simp [hr, Main.joined])
    rw [← ha]
    simp [State.ring, hjoined, Worker.station]
  obtain rfl := Token.complete hv hne hidle
  exact ⟨ha, htr⟩

theorem kern_thread_ring_passes {tr : List (PipeOp c)} {s : State c}
    (h : Reach (kernThreadRing c mask) tr s) :
    (∀ i t out, step s (.worker i) = some (t, out) → ∀ q,
        (.read q ∈ out → q = slot c.pipes i) ∧ (.write q ∈ out → q = slot c.pipes (i + 1))) ∧
      (s.main.launched = true → s.bytes + s.holding = 1) ∧
      (∀ i j, i ≤ j → s.passes j ≤ s.passes i ∧ s.passes i ≤ s.passes j + 1) ∧
      ((∃ i, s.passes i < c.iters) → ¬Stuck (kernThreadRing c mask) s) ∧
      (s.main = .returned → (∀ i, s.passes i = c.iters) ∧
        ∀ q, s.pipe q = if q = 0 then 1 else 0) := by
  obtain ⟨hs, _⟩ := kern_thread_ring_token h
  refine ⟨fun _ _ _ hstep q => worker_own_pair hs hstep q, kern_thread_ring_one_byte h,
    fun _ _ => kern_thread_ring_ordered h, fun ⟨i, hi⟩ => kern_thread_ring_not_stuck h hi,
    fun hr => ?_⟩
  obtain ⟨hring, _⟩ := kern_thread_ring_complete h hr
  refine ⟨fun i => ?_, fun q => ?_⟩
  · rw [← ring_passes_eq, hring, Token.ring_passes]
    exact passesAt_complete c.iters i
  · have hchan := congrArg (fun r => r.chan q) hring
    exact hchan.trans (Token.complete_chan c.iters q)

/-- Two pipes, one pass for each worker, a footprint of one store. -/
def twoPipes : Bench := ⟨2, Nat.two_pos, 1, 1⟩

theorem kern_thread_ring_passes_two : ∃ tr s, Reach (kernThreadRing twoPipes {0}) tr s ∧
    s.main = .returned ∧ (∀ i, s.passes i = 1) ∧ s.pipe 0 = 1 := by
  have hrun : Reach (kernThreadRing twoPipes {0}) _ _ := reach_of_exec
    [.create 7, .create 3, .worker 1, .main, .main, .worker 0, .worker 0, .worker 0,
      .worker 0, .worker 1, .worker 1, .worker 1, .worker 0, .worker 1, .main, .main, .main] rfl
  have hend := (kern_thread_ring_passes hrun).2.2.2.2 rfl
  exact ⟨_, _, hrun, rfl, hend.1, hend.2 0⟩

end SysPerf.KernelRing
