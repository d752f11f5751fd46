import SysPerf.KernelOverheadTrace

namespace SysPerf

open TokenRing

section

variable {ι : Type} [DecidableEq ι] {n : ℕ}

@[simp] theorem useCores_main (mask : Tid ι → CpuSet) (caller : Tid ι) (cores : List ℕ) :
    useCores mask caller cores .main = cores.toFinset := by
  simp [useCores, schedSetaffinity, getpid]

/-- A call of `use_cores` never reaches the mask of a worker, its caller included. -/
@[simp] theorem useCores_worker (mask : Tid ι → CpuSet) (caller : Tid ι) (cores : List ℕ) (i : ι) :
    useCores mask caller cores (.worker i) = mask (.worker i) := by
  simp [useCores, schedSetaffinity, getpid]

@[simp] theorem pthreadCreate_main (mask : Tid ι → CpuSet) (i : ι) :
    pthreadCreate mask .main (.worker i) .main = mask .main := by
  simp [pthreadCreate]

/-- The masks of the reading thread and of the main thread when a `read` returns. -/
structure Sample where
  own : CpuSet
  main : CpuSet
  deriving DecidableEq

def sample (mask : Tid ι → CpuSet) (who : Tid ι) : Op n → Option Sample
  | .read _ => some ⟨mask who, mask .main⟩
  | .write _ => none
  | .touch _ => none
  | .pass => none

/-- Every thread has the mask `{0}` or the mask `{1}`. -/
def Pinned (mask : Tid ι → CpuSet) : Prop :=
  ∀ who, mask who = {0} ∨ mask who = {1}

theorem Pinned.useCores {mask : Tid ι → CpuSet} (h : Pinned mask) (caller : Tid ι) :
    Pinned (useCores mask caller [1]) := by
  intro who
  cases who with
  | main => simp
  | worker i => simpa using h (.worker i)

theorem Pinned.pthreadCreate {mask : Tid ι → CpuSet} (h : Pinned mask) (creator new : Tid ι) :
    Pinned (pthreadCreate mask creator new) := by
  intro who
  by_cases hw : who = new
  · simpa [SysPerf.pthreadCreate, hw] using h creator
  · simpa [SysPerf.pthreadCreate, hw] using h who

end

namespace KernelOverhead

variable {c : Bench}

def Move.tid : Move → Tid Unit
  | .main => .main
  | .worker => .worker ()

/-- A thread that is past its call of `use_cores` has pinned the main thread to core 1. -/
def Worker.Pins (main : CpuSet) : Worker c → Prop
  | .unborn => True
  | .starting => True
  | .looping left _ => left ≤ c.iters ∧ main = {1}
  | .touching left _ _ => left ≤ c.iters ∧ main = {1}
  | .returned => main = {1}
  | .joined => main = {1}

structure State.Pins (s : State c) : Prop where
  worker : s.worker.Pins (s.mask .main)
  mask : Pinned s.mask

theorem pins_start {main : CpuSet} (h : main = {0} ∨ main = {1}) : (start c main).Pins :=
  ⟨trivial, fun _ => h⟩

theorem mainStep_pins {s t : State c} {out : List (PipeOp c)} (hs : s.Pins)
    (h : mainStep s = some (t, out)) : t.Pins ∧ out.filterMap (sample s.mask .main) = [] := by
  cases hm : s.main with
  | creating =>
    simp only [mainStep, hm, Option.some.injEq, Prod.mk.injEq] at h
    obtain ⟨rfl, rfl⟩ := h
    exact ⟨⟨trivial, hs.mask.pthreadCreate .main (.worker ())⟩, rfl⟩
  | signalling =>
    simp only [mainStep, hm, Option.some.injEq, Prod.mk.injEq] at h
    obtain ⟨rfl, rfl⟩ := h
    exact ⟨⟨hs.worker, hs.mask⟩, rfl⟩
  | joining =>
    simp only [mainStep, hm] at h
    split at h
    next hw =>
      obtain ⟨rfl, rfl⟩ := Prod.mk.inj (Option.some.inj h)
      have hpins := hs.worker
      rw [hw] at hpins
      exact ⟨⟨hpins, hs.mask⟩, rfl⟩
    next => simp at h
  | returned => simp [mainStep, hm] at h

theorem workerStep_pins {s t : State c} {out : List (PipeOp c)} (hs : s.Pins)
    (h : workerStep s = some (t, out)) : t.Pins ∧
      ∀ x ∈ out.filterMap (sample s.mask (.worker ())), 0 < c.iters ∧ x.main = {1} ∧
        x.own = s.mask (.worker ()) := by
  have hpins := hs.worker
  cases hw : s.worker with
  | unborn => simp [workerStep, hw] at h
  | starting =>
    simp only [workerStep, hw, Option.some.injEq, Prod.mk.injEq] at h
    obtain ⟨rfl, rfl⟩ := h
    exact ⟨⟨⟨le_rfl, by simp⟩, hs.mask.useCores _⟩, by simp⟩
  | looping left i =>
    rw [hw] at hpins
    obtain ⟨hle, hmain⟩ := hpins
    simp only [workerStep, hw] at h
    split at h
    next hleft =>
      split at h
      next hi =>
        obtain ⟨_, heq⟩ := Option.ite_none_right_eq_some.mp h
        obtain ⟨rfl, rfl⟩ := Prod.mk.inj (Option.some.inj heq)
        refine ⟨⟨⟨hle, hmain⟩, hs.mask⟩, ?_⟩
        simp [sample, hmain, Nat.lt_of_lt_of_le hleft hle]
      next =>
        obtain ⟨rfl, rfl⟩ := Prod.mk.inj (Option.some.inj h)
        exact ⟨⟨⟨by omega, hmain⟩, hs.mask⟩, by simp⟩
    next =>
      obtain ⟨rfl, rfl⟩ := Prod.mk.inj (Option.some.inj h)
      exact ⟨⟨hmain, hs.mask⟩, by simp⟩
  | touching left i offset =>
    rw [hw] at hpins
    simp only [workerStep, hw] at h
    split at h
    next =>
      obtain ⟨rfl, rfl⟩ := Prod.mk.inj (Option.some.inj h)
      exact ⟨⟨hpins, hs.mask⟩, by simp [sample]⟩
    next =>
      obtain ⟨rfl, rfl⟩ := Prod.mk.inj (Option.some.inj h)
      exact ⟨⟨hpins, hs.mask⟩, by simp [sample]⟩
  | returned => simp [workerStep, hw] at h
  | joined => simp [workerStep, hw] at h

end KernelOverhead

namespace KernelRing

variable {c : Bench}

def Move.tid (c : Bench) : Move → Tid (Fin c.pipes)
  | .create _ => .main
  | .main => .main
  | .worker i => .worker (slot c.pipes i)

/-- A worker that is past its call of `use_cores` has pinned the main thread to core 1. -/
def Worker.Pins (iters : ℕ) (main : CpuSet) : Worker → Prop
  | .unborn => True
  | .starting _ => True
  | .looping _ left => left ≤ iters ∧ main = {1}
  | .touching _ left _ => left ≤ iters ∧ main = {1}
  | .returned => main = {1}
  | .joined => main = {1}

structure State.Pins (s : State c) : Prop where
  worker : ∀ i, (s.worker i).Pins c.iters (s.mask .main)
  mask : Pinned s.mask

theorem pins_start {main : CpuSet} (h : main = {0} ∨ main = {1}) : (start c main).Pins :=
  ⟨fun _ => trivial, fun _ => h⟩

theorem pins_update {g : Fin c.pipes → Worker} {main : CpuSet}
    (h : ∀ j, (g j).Pins c.iters main) {i : Fin c.pipes} {w : Worker}
    (hw : w.Pins c.iters main) (j : Fin c.pipes) :
    (Function.update g i w j).Pins c.iters main := by
  by_cases hj : j = i
  · subst j; simpa using hw
  · simpa [hj] using h j

/-- Pinning the main thread once more leaves every worker's condition in force. -/
theorem Worker.Pins.repin {iters : ℕ} {main : CpuSet} {w : Worker} (h : w.Pins iters main) :
    w.Pins iters {1} := by
  cases w with
  | unborn => trivial
  | starting ptr => trivial
  | looping p left => exact ⟨h.1, rfl⟩
  | touching p left offset => exact ⟨h.1, rfl⟩
  | returned => rfl
  | joined => rfl

theorem mainStep_pins {s t : State c} {out : List (PipeOp c)} (hs : s.Pins)
    (h : MainMove s t out) : t.Pins ∧ out.filterMap (sample s.mask .main) = [] := by
  cases h with
  | creates hi hm hfree =>
    refine ⟨⟨?_, hs.mask.pthreadCreate .main _⟩, rfl⟩
    simpa [State.setWorker] using pins_update hs.worker (w := .starting _) trivial
  | created hm hi => exact ⟨⟨hs.worker, hs.mask⟩, rfl⟩
  | launches hm => exact ⟨⟨hs.worker, hs.mask⟩, rfl⟩
  | @joins i hi hm hret =>
    have hpins := hs.worker ⟨i, hi⟩
    rw [hret] at hpins
    exact ⟨⟨pins_update hs.worker (w := .joined) hpins, hs.mask⟩, rfl⟩
  | returns hm hi => exact ⟨⟨hs.worker, hs.mask⟩, rfl⟩

theorem workerStep_pins {s t : State c} {i : Fin c.pipes} {out : List (PipeOp c)} (hs : s.Pins)
    (h : WorkerMove s i t out) : t.Pins ∧
      ∀ x ∈ out.filterMap (sample s.mask (.worker i)), 0 < c.iters ∧ x.main = {1} ∧
        x.own = s.mask (.worker i) := by
  have hpins := hs.worker i
  cases h with
  | starts hw =>
    refine ⟨⟨?_, hs.mask.useCores _⟩, by simp⟩
    have hall : ∀ j, (s.worker j).Pins c.iters {1} := fun j => (hs.worker j).repin
    simpa [State.setWorker] using pins_update hall (w := .looping _ c.iters) ⟨le_rfl, rfl⟩
  | reads hw hleft hheap hbyte =>
    rw [hw] at hpins
    refine ⟨⟨pins_update hs.worker (w := .touching _ _ 0) hpins, hs.mask⟩, ?_⟩
    simp [sample, hpins.2, Nat.lt_of_lt_of_le hleft hpins.1]
  | returns hw =>
    rw [hw] at hpins
    exact ⟨⟨pins_update hs.worker (w := .returned) hpins.2, hs.mask⟩, by simp⟩
  | touches hw hlt =>
    rw [hw] at hpins
    exact ⟨⟨pins_update hs.worker (w := .touching _ _ _) hpins, hs.mask⟩, by simp [sample]⟩
  | writes hw hlt hheap =>
    rw [hw] at hpins
    refine ⟨⟨pins_update hs.worker (w := .looping _ _) ⟨?_, hpins.2⟩, hs.mask⟩, by simp [sample]⟩
    exact (Nat.sub_le _ _).trans hpins.1

end KernelRing

end SysPerf
