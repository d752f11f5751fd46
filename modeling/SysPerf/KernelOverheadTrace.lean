import SysPerf.KernelOverhead

namespace SysPerf.KernelOverhead

open TokenRing

variable {c : Bench} {mask : CpuSet}

theorem turn_start (c : Bench) : turn c c.iters 0 = 0 := by
  simp [turn]

theorem turn_end (c : Bench) : turn c 0 0 = c.iters * c.pipes := by
  simp [turn]

theorem turn_wrap {left : ℕ} (hpos : 0 < left) (hle : left ≤ c.iters) :
    turn c left c.pipes = turn c (left - 1) 0 := by
  rw [turn, turn, show c.iters - (left - 1) = c.iters - left + 1 by omega, Nat.add_mul]
  omega

theorem turn_lt {left : ℕ} (hpos : 0 < left) (hle : left ≤ c.iters) (i : Fin c.pipes) :
    turn c left i < c.iters * c.pipes := by
  calc turn c left i < (c.iters - left) * c.pipes + c.pipes := Nat.add_lt_add_left i.isLt _
    _ = (c.iters - left + 1) * c.pipes := by rw [Nat.add_mul, Nat.one_mul]
    _ ≤ c.iters * c.pipes := Nat.mul_le_mul_right _ (by omega)

/-- The matching moves of the thread and of the token. -/
def Matched (c : Bench) (a : Token) (t : State c) (out : List (PipeOp c)) : Prop :=
  (out = [] ∧ t.At a) ∨
    ∃ b, (odometer c.pipes c.iters c.footprintArrLen).step a () = some (b, out) ∧ t.At b

/-- A move of the thread that brings the token from `a` to `b`. -/
theorem at_worker {s t : State c} {a b : Token} (hs : s.At a) (hmain : t.main = s.main)
    (hborn : s.worker ≠ .unborn) (hlive : s.worker ≠ .joined) (hnew : t.worker ≠ .unborn)
    (hab : b = .absent ↔ a = .absent) (hpipe : t.pipe = (b.ring : Ring c.pipes).chan)
    (hworker : t.worker.At b) (hv : b.Valid c.pipes c.iters c.footprintArrLen) : t.At b where
  launched := by rw [hmain, hs.launched, ne_eq, ne_eq, hab]
  born := by
    rw [hmain]
    exact ⟨fun h => absurd h hnew, fun h => absurd (hs.born.mpr h) hborn⟩
  done h := absurd (hs.done (hmain ▸ h)) hlive
  pipe := hpipe
  worker := hworker
  valid := hv

theorem looping_matched {s t : State c} {a : Token} {left i : ℕ} {out : List (PipeOp c)}
    (hs : s.At a) (hw : s.worker = .looping left i) (h : workerStep s = some (t, out)) :
    Matched c a t out := by
  have hborn : s.worker ≠ .unborn := by simp [hw]
  have hlive : s.worker ≠ .joined := by simp [hw]
  have hat := hs.worker
  rw [hw] at hat
  obtain ⟨hle, hi, hzero, hwhere⟩ := hat
  simp only [workerStep, hw] at h
  split at h
  next hpos =>
    split at h
    next hlt =>
      obtain ⟨hbyte, heq⟩ := Option.ite_none_right_eq_some.mp h
      obtain ⟨rfl, rfl⟩ := Prod.mk.inj (Option.some.inj heq)
      have hslot : slot c.pipes (turn c left i) = ⟨i, hlt⟩ := slot_turn left ⟨i, hlt⟩
      have hturn : turn c left i < c.iters * c.pipes := turn_lt hpos hle ⟨i, hlt⟩
      rcases hwhere with rfl | ⟨rfl, _, _⟩
      · refine Or.inr ⟨.held (turn c left i) 0, by simp only [odometer, hturn, if_true, hslot], ?_⟩
        refine at_worker hs rfl hborn hlive (by simp) (by simp) ?_ ⟨hpos, hle, rfl⟩
          ⟨hturn, Nat.zero_le _⟩
        simp [State.setPipe, hs.pipe, Token.ring, hslot]
      · simp [hs.pipe, Token.ring] at hbyte
    next hlt =>
      obtain ⟨rfl, rfl⟩ := Prod.mk.inj (Option.some.inj h)
      obtain rfl : i = c.pipes := by omega
      refine Or.inl ⟨rfl, at_worker hs rfl hborn hlive (by simp) Iff.rfl hs.pipe
        ⟨by omega, Nat.zero_le _, fun _ => rfl, ?_⟩ hs.valid⟩
      rcases hwhere with rfl | ⟨_, _, hpipes⟩
      · exact Or.inl (by rw [turn_wrap hpos hle])
      · exact absurd hpipes c.pipesPos.ne'
  next hpos =>
    obtain ⟨rfl, rfl⟩ := Prod.mk.inj (Option.some.inj h)
    obtain rfl : left = 0 := by omega
    obtain rfl := hzero rfl
    refine Or.inl ⟨rfl, at_worker hs rfl hborn hlive (by simp) Iff.rfl hs.pipe ?_ hs.valid⟩
    rcases hwhere with rfl | ⟨rfl, hk, _⟩
    · exact Or.inl (by rw [turn_end])
    · exact Or.inr ⟨rfl, hk.symm⟩

theorem touching_matched {s t : State c} {a : Token} {left offset : ℕ} {i : Fin c.pipes}
    {out : List (PipeOp c)} (hs : s.At a) (hw : s.worker = .touching left i offset)
    (h : workerStep s = some (t, out)) : Matched c a t out := by
  have hborn : s.worker ≠ .unborn := by simp [hw]
  have hlive : s.worker ≠ .joined := by simp [hw]
  have hat := hs.worker
  rw [hw] at hat
  obtain ⟨hpos, hle, rfl⟩ := hat
  obtain ⟨hturn, hoff⟩ := hs.valid
  simp only [workerStep, hw] at h
  split at h
  next hlt =>
    obtain ⟨rfl, rfl⟩ := Prod.mk.inj (Option.some.inj h)
    refine Or.inr ⟨.held (turn c left i) (offset + 1), by simp [odometer, hlt], ?_⟩
    exact at_worker hs rfl hborn hlive (by simp) (by simp) hs.pipe ⟨hpos, hle, rfl⟩ ⟨hturn, hlt⟩
  next hlt =>
    obtain ⟨rfl, rfl⟩ := Prod.mk.inj (Option.some.inj h)
    have hslot : slot c.pipes (turn c left i + 1) = slot c.pipes (i + 1) := by
      rw [← slot_add_one, slot_turn, ← slot_add_one, slot_self]
    refine Or.inr ⟨.inChannel (turn c left i + 1), by simp [odometer, hlt, hslot], ?_⟩
    refine at_worker hs rfl hborn hlive (by simp) (by simp) ?_
      ⟨hle, i.isLt, by omega, Or.inl rfl⟩ hturn
    simp [State.setPipe, hs.pipe, Token.ring, hslot]

theorem workerStep_matched {s t : State c} {a : Token} {out : List (PipeOp c)} (hs : s.At a)
    (h : workerStep s = some (t, out)) : Matched c a t out := by
  cases hw : s.worker with
  | unborn => simp [workerStep, hw] at h
  | starting =>
    have hat := hs.worker
    rw [hw] at hat
    simp only [workerStep, hw, Option.some.injEq, Prod.mk.injEq] at h
    obtain ⟨rfl, rfl⟩ := h
    refine Or.inl ⟨rfl, at_worker hs rfl (by simp [hw]) (by simp [hw]) (by simp) Iff.rfl hs.pipe
      ⟨le_rfl, Nat.zero_le _, fun _ => rfl, ?_⟩ hs.valid⟩
    rcases hat with rfl | rfl
    · exact Or.inr ⟨rfl, rfl, rfl⟩
    · exact Or.inl (by rw [turn_start])
  | looping left i => exact looping_matched hs hw h
  | touching left i offset => exact touching_matched hs hw h
  | returned => simp [workerStep, hw] at h
  | joined => simp [workerStep, hw] at h

/-- Writing the first byte leaves the thread where it is. -/
theorem Worker.At.launch {w : Worker c} (h : w.At .absent) (hw : w ≠ .unborn) :
    w.At (.inChannel 0) := by
  cases w with
  | unborn => exact absurd rfl hw
  | starting => exact Or.inr rfl
  | looping left i =>
    obtain ⟨hle, hi, hzero, hwhere⟩ := h
    refine ⟨hle, hi, hzero, Or.inl ?_⟩
    rcases hwhere with heq | ⟨_, rfl, rfl⟩
    · exact Token.noConfusion heq
    · rw [turn_start]
  | touching left i offset => exact Token.noConfusion h.2.2
  | returned =>
    rcases h with heq | ⟨_, hk⟩
    · exact Token.noConfusion heq
    · exact Or.inl (by rw [hk, Nat.zero_mul])
  | joined => exact Token.noConfusion h

/-- Before the first byte there is no token. -/
theorem absent_of_launched {s : State c} {a : Token} (hs : s.At a)
    (h : s.main.launched = false) : a = .absent := by
  by_contra hne
  have hlaunched := hs.launched.mpr hne
  simp [h] at hlaunched

theorem mainStep_matched {s t : State c} {a : Token} {out : List (PipeOp c)} (hs : s.At a)
    (h : mainStep s = some (t, out)) : Matched c a t out := by
  cases hm : s.main with
  | creating =>
    simp only [mainStep, hm, Option.some.injEq, Prod.mk.injEq] at h
    obtain ⟨rfl, rfl⟩ := h
    obtain rfl := absent_of_launched hs (by simp [hm, Main.launched])
    exact Or.inl ⟨rfl, by simp [Main.launched], by simp, by simp, hs.pipe, Or.inl rfl, trivial⟩
  | signalling =>
    simp only [mainStep, hm, Option.some.injEq, Prod.mk.injEq] at h
    obtain ⟨rfl, rfl⟩ := h
    obtain rfl := absent_of_launched hs (by simp [hm, Main.launched])
    have hborn : s.worker ≠ .unborn := hs.born.not.mpr (by simp [hm])
    have hzero : slot c.pipes 0 = 0 := Fin.ext (Nat.zero_mod _)
    refine Or.inr ⟨.inChannel 0, rfl, by simp [Main.launched], by simpa [State.setPipe] using hborn,
      by simp, ?_,
      hs.worker.launch hborn, Nat.zero_le _⟩
    simp [State.setPipe, hs.pipe, Token.ring, hzero]
  | joining =>
    simp only [mainStep, hm] at h
    split at h
    next hw =>
      obtain ⟨rfl, rfl⟩ := Prod.mk.inj (Option.some.inj h)
      have hat := hs.worker
      rw [hw] at hat
      have hne : a ≠ .absent := hs.launched.mp (by simp [hm, Main.launched])
      rcases hat with rfl | ⟨habsent, _⟩
      · exact Or.inl ⟨rfl, by simp [Main.launched], by simp, by simp, hs.pipe, rfl, hs.valid⟩
      · exact absurd habsent hne
    next => simp at h
  | returned => simp [mainStep, hm] at h

theorem overhead_simulates_odometer : Simulates (overhead c mask)
    (odometer c.pipes c.iters c.footprintArrLen) State.At where
  init := ⟨by simp [overhead, start, odometer, Main.launched], by simp [overhead, start],
    by simp [overhead, start], rfl, rfl, trivial⟩
  step := by
    intro s a e t out hs h
    have hmatched : Matched c a t out := by
      cases e with
      | main => exact mainStep_matched hs h
      | worker => exact workerStep_matched hs h
    rcases hmatched with hsilent | ⟨b, hb, ht⟩
    · exact Or.inl hsilent
    · exact Or.inr ⟨(), b, hb, ht⟩

theorem overhead_complete {tr : List (PipeOp c)} {s : State c}
    (h : Reach (overhead c mask) tr s) (hr : s.main = .returned) :
    tr = (Token.inChannel (c.iters * c.pipes)).history c.pipes c.footprintArrLen := by
  obtain ⟨a, ha, hat⟩ := overhead_simulates_odometer.reach h
  obtain ⟨_, htr⟩ := odometer_history ha
  have hworker := hat.worker
  rw [hat.done hr] at hworker
  obtain rfl : a = .inChannel (c.iters * c.pipes) := hworker
  exact htr

theorem ring_trace_eq {ringMask : CpuSet} {tr base : List (PipeOp c)} {s : KernelRing.State c}
    {b : State c} (h : Reach (KernelRing.kernThreadRing c ringMask) tr s)
    (hr : s.main = .returned) (hb : Reach (overhead c mask) base b) (hbr : b.main = .returned) :
    tr = base ∧ base = .write 0 :: (List.range (c.iters * c.pipes)).flatMap
      (passOps c.pipes c.footprintArrLen) := by
  obtain ⟨_, htr⟩ := KernelRing.kern_thread_ring_complete h hr
  have hbase := overhead_complete hb hbr
  exact ⟨htr.trans hbase.symm, hbase⟩

end SysPerf.KernelOverhead
