import SysPerf.TokenRingRefinement
import Mathlib.Algebra.BigOperators.Pi

namespace SysPerf.TokenRing

variable {n k f : ℕ} [NeZero n]

/-- How many stations hold a token. -/
def holders (station : Fin n → Station) : ℕ :=
  (Finset.univ.filter fun q => (station q).isBusy).card

/-- Passes finished by all stations together. -/
def Token.turns : Token → ℕ
  | .absent => 0
  | .inChannel t => t
  | .held t _ => t

theorem Token.ring_passes (a : Token) (q : Fin n) :
    (a.ring.station q).passes = passesAt a.turns q := by
  cases a with
  | absent => exact (passesAt_zero q).symm
  | inChannel t => rfl
  | held t w =>
    by_cases hq : q = slot n t
    · subst q
      simp [Token.ring, Token.turns, passesAt_turn]
    · simp [Token.ring, Token.turns, hq]

theorem Token.ring_passes_le {a : Token} (hv : a.Valid n k f) (q : Fin n) :
    (a.ring.station q).passes ≤ k := by
  have hturns : a.turns ≤ k * n := by
    cases a with
    | absent => exact Nat.zero_le _
    | inChannel t => exact hv
    | held t w => exact hv.1.le
  calc (a.ring.station q).passes = passesAt a.turns q := a.ring_passes q
    _ ≤ passesAt (k * n) q := Nat.div_le_div_right (Nat.add_le_add_right hturns _)
    _ = k := passesAt_complete k q

theorem Token.ring_launched {r : Ring n} {a : Token} (ha : r = a.ring)
    (h : r.launched = true) : a ≠ .absent := by
  rintro rfl
  simp [ha, Token.ring] at h

/-- Channels and stations together have exactly one token once it was put in. -/
theorem Token.ring_one_token {a : Token} (ha : a ≠ .absent) :
    ∑ q : Fin n, (a.ring : Ring n).chan q + holders (a.ring : Ring n).station = 1 := by
  cases a with
  | absent => exact absurd rfl ha
  | inChannel t =>
    have hchan : ∑ q : Fin n, (Token.inChannel t).ring.chan q = 1 := by
      simp [Token.ring, Function.update_apply]
    have hhold : holders (Token.inChannel t : Token).ring.station (n := n) = 0 := by
      simp [holders, Token.ring]
    rw [hchan, hhold]
  | held t w =>
    have hchan : ∑ q : Fin n, (Token.held t w).ring.chan q = 0 := by simp [Token.ring]
    have hhold : (Finset.univ.filter fun q : Fin n => ((Token.held t w).ring.station q).isBusy) =
        {slot n t} := by
      ext q
      rw [Finset.mem_filter_univ, Finset.mem_singleton]
      by_cases hq : q = slot n t
      · simp [Token.ring, hq]
      · simp [Token.ring, hq]
    rw [hchan, holders, hhold, Finset.card_singleton]

/-- While some station wants a pass, the station the token is at can move. -/
theorem Token.ring_enabled {a : Token} (hv : a.Valid n k f) (ha : a ≠ .absent) {q : Fin n}
    (hq : (a.ring.station q).passes < k) :
    ∃ p t out, stationStep k f (a.ring : Ring n) p = some (t, out) := by
  rw [a.ring_passes] at hq
  cases a with
  | absent => exact absurd rfl ha
  | inChannel t =>
    have hlt : t < k * n := by
      refine lt_of_le_of_ne hv ?_
      rintro rfl
      rw [Token.turns, passesAt_complete] at hq
      exact lt_irrefl k hq
    exact ⟨slot n t, _, _, read_ring hlt⟩
  | held t w =>
    by_cases hf : w < f
    · exact ⟨slot n t, _, _, touch_ring hf⟩
    · exact ⟨slot n t, _, _, write_ring hf⟩

/-- Once no station wants a pass the token is back where it started, all work behind it. -/
theorem Token.complete {a : Token} (hv : a.Valid n k f) (ha : a ≠ .absent)
    (h : ∀ q : Fin n, a.ring.station q = .idle k) : a = .inChannel (k * n) := by
  cases a with
  | absent => exact absurd rfl ha
  | inChannel t =>
    have hturn : t / n = k := by simpa [Token.ring, passesAt_turn] using h (slot n t)
    have hle : k * n ≤ t := by rw [← hturn]; exact Nat.div_mul_le_self t n
    exact congrArg Token.inChannel (le_antisymm hv hle)
  | held t w => simpa [Token.ring] using h (slot n t)

theorem Token.complete_chan (k : ℕ) (q : Fin n) :
    (Token.inChannel (k * n)).ring.chan q = if q = 0 then 1 else 0 := by
  have hzero : slot n (k * n) = 0 := Fin.ext (by simp)
  simp [Token.ring, hzero, Function.update_apply]

/-- Along the ring the finished passes only go down, and by at most one. -/
theorem Token.ring_ordered (a : Token) {p q : Fin n} (h : p ≤ q) :
    (a.ring.station q).passes ≤ (a.ring.station p).passes ∧
      (a.ring.station p).passes ≤ (a.ring.station q).passes + 1 := by
  rw [a.ring_passes, a.ring_passes]
  exact ⟨passesAt_anti h _, passesAt_close p q _⟩

end SysPerf.TokenRing
