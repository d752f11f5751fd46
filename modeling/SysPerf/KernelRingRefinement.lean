import SysPerf.KernelRing

namespace SysPerf.KernelRing

open TokenRing

variable {c : Bench}

/-- What worker `i` can do next. -/
inductive WorkerMove (s : State c) (i : Fin c.pipes) : State c → List (PipeOp c) → Prop
  | starts {ptr} : s.worker i = .starting ptr →
      WorkerMove s i { s.setWorker i (.looping ptr c.iters) with
        mask := useCores s.mask (.worker i) [1] } []
  | reads {p left src dst} : s.worker i = .looping p left → 0 < left →
      s.heap p = some (src, dst) → 0 < s.pipe src →
      WorkerMove s i ((s.setPipe src (s.pipe src - 1)).setWorker i (.touching p left 0))
        [.read src]
  | returns {p} : s.worker i = .looping p 0 →
      WorkerMove s i { s.setWorker i .returned with heap := Function.update s.heap p none } []
  | touches {p left offset} : s.worker i = .touching p left offset →
      offset < c.footprintArrLen →
      WorkerMove s i (s.setWorker i (.touching p left (offset + 1))) [.touch offset]
  | writes {p left offset src dst} : s.worker i = .touching p left offset →
      ¬offset < c.footprintArrLen → s.heap p = some (src, dst) →
      WorkerMove s i ((s.setPipe dst (s.pipe dst + 1)).setWorker i (.looping p (left - 1)))
        [.pass, .write dst]

theorem workerStep_move {s t : State c} {i : Fin c.pipes} {out : List (PipeOp c)}
    (h : workerStep s i = some (t, out)) : WorkerMove s i t out := by
  cases hw : s.worker i with
  | unborn => simp [workerStep, hw] at h
  | starting ptr =>
    simp only [workerStep, hw, Option.some.injEq, Prod.mk.injEq] at h
    obtain ⟨rfl, rfl⟩ := h
    exact .starts hw
  | looping p left =>
    simp only [workerStep, hw] at h
    split at h
    next hleft =>
      split at h
      next src dst hheap =>
        obtain ⟨hbyte, heq⟩ := Option.ite_none_right_eq_some.mp h
        obtain ⟨rfl, rfl⟩ := Prod.mk.inj (Option.some.inj heq)
        exact .reads hw hleft hheap hbyte
      next => simp at h
    next hleft =>
      obtain rfl : left = 0 := by omega
      obtain ⟨rfl, rfl⟩ := Prod.mk.inj (Option.some.inj h)
      exact .returns hw
  | touching p left offset =>
    simp only [workerStep, hw] at h
    split at h
    next hlt =>
      obtain ⟨rfl, rfl⟩ := Prod.mk.inj (Option.some.inj h)
      exact .touches hw hlt
    next hlt =>
      split at h
      next src dst hheap =>
        obtain ⟨rfl, rfl⟩ := Prod.mk.inj (Option.some.inj h)
        exact .writes hw hlt hheap
      next => simp at h
  | returned => simp [workerStep, hw] at h
  | joined => simp [workerStep, hw] at h

/-- What the main thread can do next. -/
inductive MainMove (s : State c) : State c → List (PipeOp c) → Prop
  | creates {i ptr} (h : i < c.pipes) : s.main = .creating i → s.heap ptr = none →
      MainMove s { s.setWorker ⟨i, h⟩ (.starting ptr) with
        main := .creating (i + 1)
        heap := Function.update s.heap ptr (some (⟨i, h⟩, slot c.pipes (i + 1)))
        mask := pthreadCreate s.mask .main (.worker ⟨i, h⟩) } []
  | created {i} : s.main = .creating i → ¬i < c.pipes →
      MainMove s { s with main := .signalling } []
  | launches : s.main = .signalling →
      MainMove s { s.setPipe 0 (s.pipe 0 + 1) with main := .joining 0 } [.write 0]
  | joins {i} (h : i < c.pipes) : s.main = .joining i → s.worker ⟨i, h⟩ = .returned →
      MainMove s { s.setWorker ⟨i, h⟩ .joined with main := .joining (i + 1) } []
  | returns {i} : s.main = .joining i → ¬i < c.pipes → MainMove s { s with main := .returned } []

theorem createStep_move {s t : State c} {ptr : ℕ} {out : List (PipeOp c)}
    (h : createStep s ptr = some (t, out)) : MainMove s t out := by
  unfold createStep at h
  split at h
  next i hm =>
    split at h
    next hi =>
      obtain ⟨hfree, heq⟩ := Option.ite_none_right_eq_some.mp h
      obtain ⟨rfl, rfl⟩ := Prod.mk.inj (Option.some.inj heq)
      exact .creates hi hm hfree
    next => simp at h
  next => simp at h

theorem mainStep_move {s t : State c} {out : List (PipeOp c)}
    (h : mainStep s = some (t, out)) : MainMove s t out := by
  cases hm : s.main with
  | creating i =>
    simp only [mainStep, hm] at h
    obtain ⟨hi, heq⟩ := Option.ite_none_left_eq_some.mp h
    obtain ⟨rfl, rfl⟩ := Prod.mk.inj (Option.some.inj heq)
    exact .created hm hi
  | signalling =>
    simp only [mainStep, hm, Option.some.injEq, Prod.mk.injEq] at h
    obtain ⟨rfl, rfl⟩ := h
    exact .launches hm
  | joining i =>
    simp only [mainStep, hm] at h
    split at h
    next hi =>
      obtain ⟨hret, heq⟩ := Option.ite_none_right_eq_some.mp h
      obtain ⟨rfl, rfl⟩ := Prod.mk.inj (Option.some.inj heq)
      exact .joins hi hm hret
    next hi =>
      obtain ⟨rfl, rfl⟩ := Prod.mk.inj (Option.some.inj h)
      exact .returns hm hi
  | returned => simp [mainStep, hm] at h

theorem step_move {s t : State c} {e : Move} {out : List (PipeOp c)}
    (h : step s e = some (t, out)) : MainMove s t out ∨ ∃ i, WorkerMove s i t out := by
  cases e with
  | create ptr => exact Or.inl (createStep_move h)
  | main => exact Or.inl (mainStep_move h)
  | worker i =>
    simp only [step] at h
    split at h
    next hi => exact Or.inr ⟨⟨i, hi⟩, workerStep_move h⟩
    next => simp at h

/-- A worker as a station of the ring. -/
def Worker.station (iters : ℕ) : Worker → Station
  | .unborn => .idle 0
  | .starting _ => .idle 0
  | .looping _ left => .idle (iters - left)
  | .touching _ left offset => .busy (iters - left) offset
  | .returned => .idle iters
  | .joined => .idle iters

@[simp] theorem Worker.station_passes (iters : ℕ) (w : Worker) :
    (w.station iters).passes = w.passes iters := by
  cases w <;> rfl

@[simp] theorem Worker.station_isBusy (iters : ℕ) (w : Worker) :
    (w.station iters).isBusy = w.holds := by
  cases w <;> rfl

/-- The ring in the benchmark: worker `i` is station `i`. -/
def State.ring (s : State c) : Ring c.pipes :=
  ⟨s.main.launched, s.pipe, fun i => (s.worker i).station c.iters⟩

theorem ring_setWorker (s : State c) (i : Fin c.pipes) (w : Worker) :
    (s.setWorker i w).ring =
      { s.ring with station := Function.update s.ring.station i (w.station c.iters) } := by
  have hstation : (fun j => (Function.update s.worker i w j).station c.iters) =
      Function.update (fun j => (s.worker j).station c.iters) i (w.station c.iters) := by
    funext j
    by_cases hj : j = i
    · subst j; simp
    · simp [hj]
  simp only [State.ring, State.setWorker, hstation]

theorem ring_setPipe (s : State c) (q : Fin c.pipes) (bytes : ℕ) :
    (s.setPipe q bytes).ring = { s.ring with chan := Function.update s.ring.chan q bytes } := rfl

theorem ring_setWorker_same (s : State c) {i : Fin c.pipes} {w : Worker}
    (h : w.station c.iters = (s.worker i).station c.iters) : (s.setWorker i w).ring = s.ring := by
  have hst : (s.worker i).station c.iters = s.ring.station i := rfl
  rw [ring_setWorker, h, hst, Function.update_eq_self]

/-- What a worker can have come to: it counts down from `iters` and its block is its own. -/
def Worker.Fits (heap : ℕ → Option (Fin c.pipes × Fin c.pipes)) (i : Fin c.pipes) :
    Worker → Prop
  | .unborn => True
  | .starting ptr => heap ptr = some (i, i + 1)
  | .looping p left => left ≤ c.iters ∧ heap p = some (i, i + 1)
  | .touching p left _ => 0 < left ∧ left ≤ c.iters ∧ heap p = some (i, i + 1)
  | .returned => True
  | .joined => True

structure State.Sound (s : State c) : Prop where
  unborn : ∀ i : Fin c.pipes, s.worker i = .unborn ↔ s.main.created c.pipes ≤ i
  fits : ∀ i, (s.worker i).Fits s.heap i
  joined : ∀ i : Fin c.pipes, (i : ℕ) < s.main.joined c.pipes → s.worker i = .joined
  fresh : ∃ bound, ∀ ptr, bound ≤ ptr → s.heap ptr = none

/-- A worker either does something the ring does not see or makes the move of its station. -/
theorem workerStep_ring {s t : State c} {i : Fin c.pipes} {out : List (PipeOp c)}
    (hs : s.Sound) (h : WorkerMove s i t out) : (out = [] ∧ t.ring = s.ring) ∨
      stationStep c.iters c.footprintArrLen s.ring i = some (t.ring, out) := by
  have hst : s.ring.station i = (s.worker i).station c.iters := rfl
  have hfits := hs.fits i
  cases h with
  | @starts ptr hw =>
    have hsame := ring_setWorker_same s (i := i) (w := .looping ptr c.iters)
      (by rw [hw]; simp [Worker.station])
    exact Or.inl ⟨rfl, hsame⟩
  | @reads p left src dst hw hleft hheap hbyte =>
    rw [hw] at hst hfits
    obtain ⟨hle, hown⟩ := hfits
    obtain ⟨rfl, rfl⟩ := Prod.mk.inj (Option.some.inj (hheap.symm.trans hown))
    have hlt : c.iters - left < c.iters := by omega
    have hchan : 0 < s.ring.chan src := hbyte
    refine Or.inr ?_
    rw [ring_setWorker, ring_setPipe, stationStep, hst, Worker.station]
    simp only [hlt, hchan, and_self, if_true]
    rfl
  | returns hw =>
    have hsame := ring_setWorker_same s (i := i) (w := .returned)
      (by rw [hw]; simp [Worker.station])
    exact Or.inl ⟨rfl, hsame⟩
  | touches hw hlt =>
    rw [hw] at hst
    refine Or.inr ?_
    rw [ring_setWorker, stationStep, hst, Worker.station]
    simp only [hlt, if_true]
    rfl
  | @writes p left offset src dst hw hlt hheap =>
    rw [hw] at hst hfits
    obtain ⟨hpos, hle, hown⟩ := hfits
    obtain ⟨rfl, rfl⟩ := Prod.mk.inj (Option.some.inj (hheap.symm.trans hown))
    have hnext : c.iters - (left - 1) = c.iters - left + 1 := by omega
    refine Or.inr ?_
    rw [ring_setWorker, ring_setPipe, stationStep, hst, Worker.station, Worker.station, hnext]
    simp only [hlt, if_false]
    rfl

end SysPerf.KernelRing
