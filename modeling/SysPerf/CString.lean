import Mathlib.Data.List.Basic
import Mathlib.Data.List.TakeWhile
import Mathlib.Order.Basic

namespace SysPerf.CString

/-- An array of `n` bytes. -/
structure Buffer (n : ℕ) where
  bytes : List UInt8
  length_eq : bytes.length = n

variable {n : ℕ}

/-- `none` is an access outside the array. -/
def Buffer.set (b : Buffer n) (i : ℕ) (c : UInt8) : Option (Buffer n) :=
  if i < n then some ⟨b.bytes.set i c, by rw [List.length_set, b.length_eq]⟩ else none

def Buffer.store (b : Buffer n) (i : ℕ) : List UInt8 → Option (Buffer n)
  | [] => some b
  | c :: cs => (b.set i c).bind fun b => b.store (i + 1) cs

/-- `none` where no byte is 0 and the search leaves the array. -/
def strlen : List UInt8 → Option ℕ
  | [] => none
  | c :: cs => if c = 0 then some 0 else (strlen cs).map (· + 1)

theorem Buffer.set_spec (b : Buffer n) {i : ℕ} (h : i < n) (c : UInt8) :
    ∃ b', b.set i c = some b' ∧ b'.bytes = b.bytes.take i ++ c :: b.bytes.drop (i + 1) := by
  have hi : i < b.bytes.length := by
    rw [b.length_eq]
    exact h
  refine ⟨_, if_pos h, ?_⟩
  show b.bytes.set i c = _
  rw [List.set_eq_take_append_cons_drop, if_pos hi]

/-- A store writes its bytes side by side and leaves those before and after as they are. -/
theorem Buffer.store_spec (b : Buffer n) (i : ℕ) (cs : List UInt8) (h : i + cs.length ≤ n) :
    ∃ b', b.store i cs = some b' ∧
      b'.bytes = b.bytes.take i ++ (cs ++ b.bytes.drop (i + cs.length)) := by
  induction cs generalizing b i with
  | nil =>
    refine ⟨b, rfl, ?_⟩
    simp
  | cons c cs ih =>
    rw [List.length_cons] at h
    obtain ⟨b₁, hset, hbytes⟩ := b.set_spec (by omega : i < n) c
    obtain ⟨b₂, hstore, hbytes'⟩ := ih b₁ (i + 1) (by omega)
    have hi : (b.bytes.take i).length = i := by
      rw [List.length_take, b.length_eq]
      omega
    have htake : b₁.bytes.take (i + 1) = b.bytes.take i ++ [c] := by
      rw [hbytes, List.take_append, hi, List.take_of_length_le (by omega)]
      simp
    have hdrop : b₁.bytes.drop (i + 1 + cs.length) = b.bytes.drop (i + (cs.length + 1)) := by
      rw [hbytes, List.drop_append, hi, List.drop_eq_nil_of_le (by omega)]
      have hstep : i + 1 + cs.length - i = cs.length + 1 := by omega
      rw [hstep, List.drop_succ_cons, List.drop_drop, List.nil_append]
      congr 1
      omega
    refine ⟨b₂, ?_, ?_⟩
    · show (b.set i c).bind _ = _
      rw [hset]
      exact hstore
    · rw [hbytes', htake, hdrop]
      simp

theorem Buffer.store_append (b : Buffer n) (i : ℕ) (xs ys : List UInt8) :
    b.store i (xs ++ ys) = (b.store i xs).bind fun b => b.store (i + xs.length) ys := by
  induction xs generalizing b i with
  | nil => rfl
  | cons x xs ih =>
    show (b.set i x).bind _ = ((b.set i x).bind _).bind _
    cases b.set i x with
    | none => rfl
    | some b' =>
      have hrest := ih b' (i + 1)
      rw [show i + 1 + xs.length = i + (x :: xs).length by rw [List.length_cons]; omega] at hrest
      exact hrest

/-- A byte 0 behind `cs` ends the search at the first byte 0 of both. -/
theorem strlen_zero (cs rest : List UInt8) :
    strlen (cs ++ 0 :: rest) = some (cs.takeWhile (· ≠ 0)).length := by
  induction cs with
  | nil => simp [strlen]
  | cons c cs ih =>
    by_cases hc : c = 0
    · simp [strlen, hc]
    · simp [strlen, hc, ih]

theorem takeWhile_eq_self_iff_zero_notMem {cs : List UInt8} :
    cs.takeWhile (· ≠ 0) = cs ↔ 0 ∉ cs := by
  rw [List.takeWhile_eq_self_iff]
  constructor
  · intro h hmem
    simpa using h 0 hmem
  · intro h c hc
    have hne : c ≠ 0 := by
      rintro rfl
      exact h hc
    simpa using hne

end SysPerf.CString
