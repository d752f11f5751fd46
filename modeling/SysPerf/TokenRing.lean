import SysPerf.Machine
import Mathlib.Data.ZMod.Defs

namespace SysPerf.TokenRing

/-- A station has finished `passes` passes; while busy it holds the token and has done
`work` units of the work of the pass it is in. -/
inductive Station
  | idle (passes : ℕ)
  | busy (passes work : ℕ)
  deriving DecidableEq

def Station.passes : Station → ℕ
  | .idle p => p
  | .busy p _ => p

def Station.isBusy : Station → Bool
  | .idle _ => false
  | .busy _ _ => true

@[simp] theorem Station.passes_idle (p : ℕ) : (Station.idle p).passes = p := rfl
@[simp] theorem Station.passes_busy (p w : ℕ) : (Station.busy p w).passes = p := rfl
@[simp] theorem Station.isBusy_idle (p : ℕ) : (Station.idle p).isBusy = false := rfl
@[simp] theorem Station.isBusy_busy (p w : ℕ) : (Station.busy p w).isBusy = true := rfl

/-- What is seen from outside: tokens taken from and put into channels, single units of
work, and the end of the work of one pass. -/
inductive Op (n : ℕ)
  | read (q : Fin n)
  | touch (w : ℕ)
  | pass
  | write (q : Fin n)
  deriving DecidableEq

structure Ring (n : ℕ) where
  launched : Bool
  chan : Fin n → ℕ
  station : Fin n → Station

inductive Move (n : ℕ)
  | launch
  | station (q : Fin n)

variable {n : ℕ} [NeZero n]

/-- The index `i % n`. -/
def slot (n : ℕ) [NeZero n] (i : ℕ) : Fin n :=
  ⟨i % n, Nat.mod_lt i (Nat.pos_of_neZero n)⟩

@[simp] theorem slot_val (i : ℕ) : (slot n i : ℕ) = i % n := rfl

theorem slot_add_one (i : ℕ) : slot n i + 1 = slot n (i + 1) := by
  apply Fin.ext
  simp [Fin.val_add, Nat.add_mod]

/-- Station `q` takes from channel `q` and gives to channel `q + 1`. -/
def stationStep (k f : ℕ) (r : Ring n) (q : Fin n) : Option (Ring n × List (Op n)) :=
  match r.station q with
  | .idle p =>
    if p < k ∧ 0 < r.chan q then
      some ({ r with chan := Function.update r.chan q (r.chan q - 1),
                     station := Function.update r.station q (.busy p 0) }, [.read q])
    else none
  | .busy p w =>
    if w < f then
      some ({ r with station := Function.update r.station q (.busy p (w + 1)) }, [.touch w])
    else
      some ({ r with chan := Function.update r.chan (q + 1) (r.chan (q + 1) + 1),
                     station := Function.update r.station q (.idle (p + 1)) },
        [.pass, .write (q + 1)])

/-- Everything a move of station `q` can be. -/
theorem stationStep_cases {k f : ℕ} {r t : Ring n} {q : Fin n} {out : List (Op n)}
    (h : stationStep k f r q = some (t, out)) :
    (∃ p, r.station q = .idle p ∧ p < k ∧ 0 < r.chan q) ∨ (∃ p w, r.station q = .busy p w) := by
  unfold stationStep at h
  cases hq : r.station q with
  | idle p =>
    simp only [hq, Option.ite_none_right_eq_some] at h
    exact Or.inl ⟨p, rfl, h.1⟩
  | busy p w => exact Or.inr ⟨p, w, rfl⟩

/-- A station that has all its passes never moves again. -/
theorem stationStep_done {k f p : ℕ} {r : Ring n} {q : Fin n} (hq : r.station q = .idle p)
    (hp : k ≤ p) : stationStep k f r q = none := by
  simp [stationStep, hq, hp.not_gt]

def launchStep (r : Ring n) : Option (Ring n × List (Op n)) :=
  if r.launched then none
  else some ({ r with launched := true, chan := Function.update r.chan 0 (r.chan 0 + 1) },
    [.write 0])

/-- `n` stations that each want `k` passes of `f` units of work. -/
def ring (n k f : ℕ) [NeZero n] : Machine (Ring n) (Move n) (Op n) where
  init := ⟨false, fun _ => 0, fun _ => .idle 0⟩
  step r
    | .launch => launchStep r
    | .station q => stationStep k f r q

/-- Where the one token is after `t` passes of all stations together. -/
inductive Token
  | absent
  | inChannel (t : ℕ)
  | held (t w : ℕ)
  deriving DecidableEq

/-- The token alone: it goes round `k` times and never looks at a station. -/
def odometer (n k f : ℕ) [NeZero n] : Machine Token Unit (Op n) where
  init := .absent
  step
    | .absent, _ => some (.inChannel 0, [.write 0])
    | .inChannel t, _ =>
      if t < k * n then some (.held t 0, [.read (slot n t)]) else none
    | .held t w, _ =>
      if w < f then some (.held t (w + 1), [.touch w])
      else some (.inChannel (t + 1), [.pass, .write (slot n (t + 1))])

/-- Passes that station `q` has finished when `t` passes are finished in all. -/
def passesAt (t : ℕ) (q : Fin n) : ℕ :=
  (t + (n - 1 - q)) / n

omit [NeZero n] in
theorem passesAt_zero (q : Fin n) : passesAt 0 q = 0 :=
  Nat.div_eq_of_lt (by omega)

theorem passesAt_turn (t : ℕ) : passesAt t (slot n t) = t / n := by
  have hn := Nat.pos_of_neZero n
  have hlt := Nat.mod_lt t hn
  have hdecomp := Nat.mod_add_div t n
  have hsum : t + (n - 1 - t % n) = n - 1 + n * (t / n) := by omega
  rw [passesAt, slot_val, hsum, Nat.add_mul_div_left _ _ hn, Nat.div_eq_of_lt (by omega),
    Nat.zero_add]

theorem passesAt_succ (t : ℕ) (q : Fin n) :
    passesAt (t + 1) q = if q = slot n t then t / n + 1 else passesAt t q := by
  have hn := Nat.pos_of_neZero n
  have hlt := Nat.mod_lt t hn
  have hdecomp := Nat.mod_add_div t n
  have hshift : t + 1 + (n - 1 - q) = t + (n - 1 - q) + 1 := by omega
  rw [passesAt, hshift, Nat.succ_div]
  by_cases turn : q = slot n t
  · have hq : (q : ℕ) = t % n := by rw [turn, slot_val]
    have hdvd : n ∣ t + (n - 1 - q) + 1 := ⟨t / n + 1, by rw [Nat.mul_succ]; omega⟩
    have hval := passesAt_turn (n := n) t
    rw [if_pos hdvd, if_pos turn, ← hval, ← turn, passesAt]
  · have hdvd : ¬n ∣ t + (n - 1 - q) + 1 := by
      rintro ⟨d, hd⟩
      apply turn
      apply Fin.ext
      have hmod : (t + n) % n = (q + n * d) % n := by congr 1; omega
      rw [Nat.add_mod_right, Nat.add_mul_mod_self_left, Nat.mod_eq_of_lt q.isLt] at hmod
      rw [slot_val, hmod]
    rw [if_neg hdvd, if_neg turn, passesAt, Nat.add_zero]

omit [NeZero n] in
theorem passesAt_anti {p q : Fin n} (h : p ≤ q) (t : ℕ) : passesAt t q ≤ passesAt t p :=
  Nat.div_le_div_right (by have : (p : ℕ) ≤ q := h; omega)

theorem passesAt_close (p q : Fin n) (t : ℕ) : passesAt t p ≤ passesAt t q + 1 := by
  have hn := Nat.pos_of_neZero n
  calc passesAt t p ≤ (t + (n - 1 - q) + n) / n := Nat.div_le_div_right (by omega)
    _ = passesAt t q + 1 := by rw [passesAt, Nat.add_div_right _ hn]

theorem passesAt_complete (k : ℕ) (q : Fin n) : passesAt (k * n) q = k := by
  have hn := Nat.pos_of_neZero n
  rw [passesAt, Nat.add_comm, Nat.add_mul_div_right _ _ hn, Nat.div_eq_of_lt (by omega),
    Nat.zero_add]

theorem turn_lt_iff {k t : ℕ} : t / n < k ↔ t < k * n :=
  Nat.div_lt_iff_lt_mul (Nat.pos_of_neZero n)

end SysPerf.TokenRing
