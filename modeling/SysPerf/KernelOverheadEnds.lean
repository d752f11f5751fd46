import SysPerf.KernelOverheadTrace

namespace SysPerf.KernelOverhead

open TokenRing

variable {c : Bench} {mask : CpuSet}

/-- Moves the thread can still make, its creation and its join included. -/
def Worker.rank (c : Bench) : Worker c → ℕ
  | .unborn => c.iters * (c.pipes * (c.footprintArrLen + 2) + 1) + 4
  | .starting => c.iters * (c.pipes * (c.footprintArrLen + 2) + 1) + 3
  | .looping 0 _ => 2
  | .looping (left + 1) i =>
    left * (c.pipes * (c.footprintArrLen + 2) + 1) + (c.pipes - i) * (c.footprintArrLen + 2) + 3
  | .touching left i offset =>
    (left - 1) * (c.pipes * (c.footprintArrLen + 2) + 1) +
      (c.pipes - (i + 1)) * (c.footprintArrLen + 2) + (c.footprintArrLen - offset) + 4
  | .returned => 1
  | .joined => 0

def Main.rank : Main → ℕ
  | .creating => 3
  | .signalling => 2
  | .joining => 1
  | .returned => 0

def State.rank (s : State c) : ℕ :=
  s.main.rank + s.worker.rank c

theorem mainStep_rank {s t : State c} {a : Token} {out : List (PipeOp c)} (hs : s.At a)
    (h : mainStep s = some (t, out)) : t.rank < s.rank := by
  cases hm : s.main with
  | creating =>
    have hborn := hs.born.mpr hm
    simp only [mainStep, hm, Option.some.injEq, Prod.mk.injEq] at h
    obtain ⟨rfl, -⟩ := h
    simp only [State.rank, hm, hborn, Main.rank, Worker.rank]
    omega
  | signalling =>
    simp only [mainStep, hm, Option.some.injEq, Prod.mk.injEq] at h
    obtain ⟨rfl, -⟩ := h
    simp [State.rank, State.setPipe, hm, Main.rank]
  | joining =>
    simp only [mainStep, hm] at h
    split at h
    next hw =>
      obtain ⟨rfl, -⟩ := Prod.mk.inj (Option.some.inj h)
      simp [State.rank, hm, hw, Main.rank, Worker.rank]
    next => simp at h
  | returned => simp [mainStep, hm] at h

theorem loop_rank (c : Bench) (left : ℕ) : (Worker.looping left 0 : Worker c).rank c <
    left * (c.pipes * (c.footprintArrLen + 2) + 1) + 3 := by
  cases left with
  | zero => simp [Worker.rank]
  | succ left =>
    simp only [Worker.rank, Nat.sub_zero, Nat.succ_mul]
    omega

theorem workerStep_rank {s t : State c} {out : List (PipeOp c)}
    (h : workerStep s = some (t, out)) : t.rank < s.rank := by
  cases hw : s.worker with
  | unborn => simp [workerStep, hw] at h
  | starting =>
    simp only [workerStep, hw, Option.some.injEq, Prod.mk.injEq] at h
    obtain ⟨rfl, -⟩ := h
    have hloop := loop_rank c c.iters
    simp only [State.rank, hw] at hloop ⊢
    exact Nat.add_lt_add_left hloop _
  | looping left i =>
    simp only [workerStep, hw] at h
    cases left with
    | zero =>
      simp only [lt_irrefl, if_false, Option.some.injEq, Prod.mk.injEq] at h
      obtain ⟨rfl, -⟩ := h
      simp [State.rank, hw, Worker.rank]
    | succ left =>
      simp only [Nat.succ_pos, if_true] at h
      split at h
      next hi =>
        obtain ⟨-, heq⟩ := Option.ite_none_right_eq_some.mp h
        obtain ⟨rfl, -⟩ := Prod.mk.inj (Option.some.inj heq)
        have hturn : c.pipes - i = c.pipes - (i + 1) + 1 := by omega
        simp only [State.rank, State.setPipe, hw, Worker.rank, hturn, Nat.add_mul,
          Nat.add_sub_cancel]
        omega
      next hi =>
        obtain ⟨rfl, -⟩ := Prod.mk.inj (Option.some.inj h)
        have hloop := loop_rank c left
        simp only [State.rank, hw, Worker.rank, Nat.add_sub_cancel] at hloop ⊢
        omega
  | touching left i offset =>
    simp only [workerStep, hw] at h
    split at h
    next hlt =>
      obtain ⟨rfl, -⟩ := Prod.mk.inj (Option.some.inj h)
      simp only [State.rank, hw, Worker.rank]
      omega
    next hlt =>
      obtain ⟨rfl, -⟩ := Prod.mk.inj (Option.some.inj h)
      cases left with
      | zero => simp [State.rank, State.setPipe, hw, Worker.rank]
      | succ left =>
        simp only [State.rank, State.setPipe, hw, Worker.rank, Nat.add_sub_cancel]
        omega
  | returned => simp [workerStep, hw] at h
  | joined => simp [workerStep, hw] at h

theorem overhead_rank {s t : State c} {a : Token} {e : Move} {out : List (PipeOp c)}
    (hs : s.At a) (h : step s e = some (t, out)) : t.rank < s.rank := by
  cases e with
  | main => exact mainStep_rank hs h
  | worker => exact workerStep_rank h

theorem workerStep_ne_joined {s t : State c} {out : List (PipeOp c)}
    (h : workerStep s = some (t, out)) : t.worker ≠ .joined := by
  unfold workerStep at h
  split at h
  · obtain ⟨rfl, -⟩ := Prod.mk.inj (Option.some.inj h)
    simp
  · split at h
    · split at h
      · obtain ⟨-, heq⟩ := Option.ite_none_right_eq_some.mp h
        obtain ⟨rfl, -⟩ := Prod.mk.inj (Option.some.inj heq)
        simp
      · obtain ⟨rfl, -⟩ := Prod.mk.inj (Option.some.inj h)
        simp
    · obtain ⟨rfl, -⟩ := Prod.mk.inj (Option.some.inj h)
      simp
  · split at h
    · obtain ⟨rfl, -⟩ := Prod.mk.inj (Option.some.inj h)
      simp
    · obtain ⟨rfl, -⟩ := Prod.mk.inj (Option.some.inj h)
      simp
  · simp at h
  · simp at h
  · simp at h

theorem main_of_joined {tr : List (PipeOp c)} {s : State c} (h : Reach (overhead c mask) tr s) :
    s.worker = .joined → s.main = .returned := by
  refine h.invariant (P := fun s => s.worker = .joined → s.main = .returned)
    (by simp [overhead, start]) ?_
  intro s e t out hs hstep
  cases e with
  | main =>
    change mainStep s = some (t, out) at hstep
    cases hm : s.main with
    | creating =>
      simp only [mainStep, hm, Option.some.injEq, Prod.mk.injEq] at hstep
      obtain ⟨rfl, -⟩ := hstep
      simp
    | signalling =>
      simp only [mainStep, hm, Option.some.injEq, Prod.mk.injEq] at hstep
      obtain ⟨rfl, -⟩ := hstep
      intro hw
      exact absurd (hs hw) (by simp [hm])
    | joining =>
      simp only [mainStep, hm] at hstep
      split at hstep
      next => obtain ⟨rfl, -⟩ := Prod.mk.inj (Option.some.inj hstep); simp
      next => simp at hstep
    | returned => simp [mainStep, hm] at hstep
  | worker =>
    exact fun hw => absurd hw (workerStep_ne_joined hstep)

/-- The thread waits for a byte only while it is on its way through another pipe. -/
theorem returned_of_stuck {tr : List (PipeOp c)} {s : State c} (h : Reach (overhead c mask) tr s)
    (stuck : Stuck (overhead c mask) s) : s.main = .returned := by
  obtain ⟨a, -, hs⟩ := overhead_simulates_odometer.reach h
  have hmain : mainStep s = none := stuck .main
  have hworker : workerStep s = none := stuck .worker
  cases hm : s.main with
  | creating => simp [mainStep, hm] at hmain
  | signalling => simp [mainStep, hm] at hmain
  | joining =>
    have hat := hs.worker
    have hne : a ≠ .absent := hs.launched.mp (by simp [hm, Main.launched])
    cases hw : s.worker with
    | unborn => exact absurd (hs.born.mp hw) (by simp [hm])
    | starting => simp [workerStep, hw] at hworker
    | looping left i =>
      rw [hw] at hat
      obtain ⟨hle, hi, hzero, rfl | ⟨habsent, -⟩⟩ := hat
      · simp only [workerStep, hw] at hworker
        split at hworker
        next hpos =>
          split at hworker
          next hlt =>
            have hslot : slot c.pipes (turn c left i) = ⟨i, hlt⟩ := slot_turn left ⟨i, hlt⟩
            have hbyte : 0 < s.pipe ⟨i, hlt⟩ := by simp [hs.pipe, Token.ring, hslot]
            simp [hbyte] at hworker
          next => simp at hworker
        next => simp at hworker
      · exact absurd habsent hne
    | touching left i offset =>
      simp only [workerStep, hw] at hworker
      split at hworker <;> simp at hworker
    | returned => simp [mainStep, hm, hw] at hmain
    | joined => exact absurd (main_of_joined h hw) (by simp [hm])
  | returned => rfl

end SysPerf.KernelOverhead
