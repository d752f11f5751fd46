import SysPerf.TokenRing

namespace SysPerf.TokenRing

variable {n k f : ℕ} [NeZero n]

def Token.Valid (n k f : ℕ) : Token → Prop
  | .absent => True
  | .inChannel t => t ≤ k * n
  | .held t w => t < k * n ∧ w ≤ f

/-- The whole ring as the position of the token determines it. -/
def Token.ring : Token → Ring n
  | .absent => ⟨false, fun _ => 0, fun _ => .idle 0⟩
  | .inChannel t =>
    ⟨true, Function.update (fun _ => 0) (slot n t) 1, fun q => .idle (passesAt t q)⟩
  | .held t w =>
    ⟨true, fun _ => 0,
      Function.update (fun q => .idle (passesAt t q)) (slot n t) (.busy (t / n) w)⟩

theorem launch_ring : launchStep (Token.absent.ring : Ring n) =
    some ((Token.inChannel 0).ring, [.write 0]) := by
  have hzero : slot n 0 = 0 := Fin.ext (Nat.zero_mod n)
  simp [launchStep, Token.ring, passesAt_zero, hzero]

theorem read_ring {t : ℕ} (h : t < k * n) :
    stationStep k f (Token.inChannel t).ring (slot n t) =
      some ((Token.held t 0).ring, [.read (slot n t)]) := by
  have hturn : t / n < k := turn_lt_iff.mpr h
  simp [stationStep, Token.ring, passesAt_turn, hturn]

theorem touch_ring {t w : ℕ} (h : w < f) :
    stationStep k f (Token.held t w).ring (slot n t) =
      some ((Token.held t (w + 1)).ring, [.touch w]) := by
  simp [stationStep, Token.ring, h]

theorem write_ring {t w : ℕ} (h : ¬w < f) :
    stationStep k f (Token.held t w).ring (slot n t) =
      some ((Token.inChannel (t + 1)).ring, [.pass, .write (slot n (t + 1))]) := by
  have hstation : Function.update (fun q : Fin n => Station.idle (passesAt t q)) (slot n t)
      (.idle (t / n + 1)) = fun q => .idle (passesAt (t + 1) q) := by
    funext q
    rw [passesAt_succ, Function.update_apply]
    split <;> rfl
  simp [stationStep, Token.ring, h, slot_add_one, hstation]

theorem station_of_enabled_inChannel {t : ℕ} {q : Fin n} {r : Ring n} {out : List (Op n)}
    (h : stationStep k f (Token.inChannel t).ring q = some (r, out)) :
    q = slot n t ∧ t < k * n := by
  rcases stationStep_cases h with ⟨p, hstation, hpasses, hchan⟩ | ⟨p, w, hstation⟩
  · have hq : q = slot n t := by
      by_contra hq
      simp [Token.ring, hq] at hchan
    subst q
    have hp : t / n = p := by simpa [Token.ring, passesAt_turn] using hstation
    exact ⟨rfl, turn_lt_iff.mp (hp ▸ hpasses)⟩
  · simp [Token.ring] at hstation

theorem station_of_enabled_held {t w : ℕ} {q : Fin n} {r : Ring n} {out : List (Op n)}
    (h : stationStep k f (Token.held t w).ring q = some (r, out)) : q = slot n t := by
  rcases stationStep_cases h with ⟨p, _, _, hchan⟩ | ⟨p, w', hstation⟩
  · simp [Token.ring] at hchan
  · by_contra hq
    simp [Token.ring, hq] at hstation

/-- Every move the ring can make is the one move of the token. -/
theorem Token.ring_step {a : Token} {e : Move n} {r : Ring n} {out : List (Op n)}
    (hv : a.Valid n k f) (h : (TokenRing.ring n k f).step a.ring e = some (r, out)) :
    ∃ b, (odometer n k f).step a () = some (b, out) ∧ r = b.ring ∧ b.Valid n k f := by
  cases a with
  | absent =>
    cases e with
    | launch =>
      obtain ⟨rfl, rfl⟩ := Prod.mk.inj (Option.some.inj (launch_ring.symm.trans h))
      exact ⟨.inChannel 0, rfl, rfl, Nat.zero_le _⟩
    | station q => simp [TokenRing.ring, stationStep, Token.ring] at h
  | inChannel t =>
    cases e with
    | launch => simp [TokenRing.ring, launchStep, Token.ring] at h
    | station q =>
      obtain ⟨rfl, hlt⟩ := station_of_enabled_inChannel (f := f) h
      obtain ⟨rfl, rfl⟩ := Prod.mk.inj (Option.some.inj ((read_ring (f := f) hlt).symm.trans h))
      exact ⟨.held t 0, by simp [odometer, hlt], rfl, hlt, Nat.zero_le _⟩
  | held t w =>
    cases e with
    | launch => simp [TokenRing.ring, launchStep, Token.ring] at h
    | station q =>
      obtain rfl := station_of_enabled_held h
      obtain ⟨hlt, hw⟩ := hv
      by_cases hf : w < f
      · obtain ⟨rfl, rfl⟩ := Prod.mk.inj (Option.some.inj ((touch_ring hf).symm.trans h))
        exact ⟨.held t (w + 1), by simp [odometer, hf], rfl, hlt, hf⟩
      · obtain ⟨rfl, rfl⟩ := Prod.mk.inj (Option.some.inj ((write_ring hf).symm.trans h))
        exact ⟨.inChannel (t + 1), by simp [odometer, hf], rfl, hlt⟩

/-- The concurrent ring refines the token that goes round by itself. -/
theorem ring_simulates_odometer :
    Simulates (TokenRing.ring n k f) (odometer n k f) (fun r a => r = a.ring ∧ a.Valid n k f) where
  init := ⟨rfl, trivial⟩
  step := by
    rintro r a e t out ⟨rfl, hv⟩ h
    obtain ⟨b, hb, hr, hvb⟩ := Token.ring_step hv h
    exact Or.inr ⟨(), b, hb, hr, hvb⟩

/-- One pass: take the token, do `f` units of work, hand the token on. -/
def passOps (n f : ℕ) [NeZero n] (t : ℕ) : List (Op n) :=
  .read (slot n t) :: (List.range f).map .touch ++ [.pass, .write (slot n (t + 1))]

/-- Everything observed until the token got where it is. -/
def Token.history (n f : ℕ) [NeZero n] : Token → List (Op n)
  | .absent => []
  | .inChannel t => .write 0 :: (List.range t).flatMap (passOps n f)
  | .held t w => .write 0 :: (List.range t).flatMap (passOps n f) ++
      .read (slot n t) :: (List.range w).map .touch

theorem odometer_history {tr : List (Op n)} {a : Token} (h : Reach (odometer n k f) tr a) :
    a.Valid n k f ∧ tr = a.history n f := by
  induction h with
  | init => exact ⟨trivial, rfl⟩
  | @step tr a e b out _ hs ih =>
    obtain ⟨hv, rfl⟩ := ih
    cases a with
    | absent =>
      obtain ⟨rfl, rfl⟩ := Prod.mk.inj (Option.some.inj hs)
      exact ⟨Nat.zero_le _, rfl⟩
    | inChannel t =>
      simp only [odometer] at hs
      split at hs
      next hlt =>
        obtain ⟨rfl, rfl⟩ := Prod.mk.inj (Option.some.inj hs)
        exact ⟨⟨hlt, Nat.zero_le _⟩, by simp [Token.history]⟩
      next => simp at hs
    | held t w =>
      obtain ⟨hlt, hw⟩ := hv
      simp only [odometer] at hs
      split at hs
      next hf =>
        obtain ⟨rfl, rfl⟩ := Prod.mk.inj (Option.some.inj hs)
        exact ⟨⟨hlt, hf⟩, by simp [Token.history, List.range_succ]⟩
      next hf =>
        obtain ⟨rfl, rfl⟩ := Prod.mk.inj (Option.some.inj hs)
        obtain rfl : w = f := by omega
        exact ⟨hlt, by simp [Token.history, List.range_succ, passOps]⟩

end SysPerf.TokenRing
