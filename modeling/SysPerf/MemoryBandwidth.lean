import SysPerf.MachineInt
import SysPerf.Timer
import Mathlib.Algebra.Field.Rat
import Mathlib.Data.List.Range
import Mathlib.Data.Nat.ModEq

namespace SysPerf.MemoryBandwidth

open MachineInt

/-- `UNROLL`, and the 16 of write_BW. -/
def unroll : ℕ := 16

def sizeofInt : ℕ := 4

/-- `ptr[k]`, `none` outside the array. -/
def load (ptr : List (BitVec 32)) (k : ℤ) : Option (BitVec 32) :=
  if 0 ≤ k then ptr[k.toNat]? else none

/-- `ptr[k] = k`, `none` outside the array. -/
def store (ptr : List (BitVec 32)) (k : ℤ) : Option (List (BitVec 32)) :=
  if 0 ≤ k ∧ k < ptr.length then some (ptr.set k.toNat (BitVec.ofInt 32 k)) else none

/-- `result`, and the indices that have been read. -/
structure Reads where
  result : BitVec 32
  indices : List ℤ

/-- The inner loop of `read_BW` from `j` on; `none` where `i + j` overflows or is outside the
array. -/
def readInner (ptr : List (BitVec 32)) (i : ℤ) (j : ℕ) (s : Reads) : Option Reads :=
  if j < unroll then
    if FitsInt (i + j) then
      (load ptr (i + j)).bind fun val =>
        readInner ptr i (j + 1) ⟨s.result + val, s.indices ++ [i + j]⟩
    else none
  else some s
termination_by unroll - j

/-- The nested loop of `read_BW` from `i` on, for an array of `n` elements; `none` also where
`i += UNROLL` overflows. -/
def readOuter (ptr : List (BitVec 32)) (n : ℕ) (i : ℤ) (s : Reads) : Option Reads :=
  if i < n then
    (readInner ptr i 0 s).bind fun s =>
      if FitsInt (i + unroll) then readOuter ptr n (i + unroll) s else none
  else some s
termination_by (n - i).toNat
decreasing_by
  unfold unroll
  omega

/-- The array, and the indices that have been written. -/
structure Writes where
  ptr : List (BitVec 32)
  indices : List ℤ

/-- The inner loop of `write_BW` from `j` on. -/
def writeInner (i : ℤ) (j : ℕ) (s : Writes) : Option Writes :=
  if j < unroll then
    if FitsInt (i + j) then
      (store s.ptr (i + j)).bind fun ptr => writeInner i (j + 1) ⟨ptr, s.indices ++ [i + j]⟩
    else none
  else some s
termination_by unroll - j

/-- The nested loop of `write_BW` from `i` on. -/
def writeOuter (n : ℕ) (i : ℤ) (s : Writes) : Option Writes :=
  if i < n then
    (writeInner i 0 s).bind fun s =>
      if FitsInt (i + unroll) then writeOuter n (i + unroll) s else none
  else some s
termination_by (n - i).toNat
decreasing_by
  unfold unroll
  omega

/-- The loop that fills the array of `read_BW`, from `i` on. -/
def fill (n : ℕ) (i : ℤ) (ptr : List (BitVec 32)) : Option (List (BitVec 32)) :=
  if i < n then
    (store ptr i).bind fun ptr => if FitsInt (i + 1) then fill n (i + 1) ptr else none
  else some ptr
termination_by (n - i).toNat
decreasing_by omega

/-- The loop that is left in `read_BW` without unrolling. -/
def plainSum (ptr : List (BitVec 32)) : BitVec 32 :=
  ptr.foldl (fun result val => result + val) 0

section

variable {K : Type} [Field K] (freq : K) (t : Timer) (stamps : BitVec 64 × BitVec 64)

/-- The bytes in the formula of both functions. -/
def formulaBytes (n : ℕ) : ℕ :=
  n * sizeofInt

/-- Gigabytes in a second. -/
def bandwidth (n : ℕ) : K :=
  formulaBytes n / (((t.begin stamps.1).end' stamps.2).timeDiffMicro freq * (1000 : ℕ))

/-- `read_BW` for an `ARR_SIZE` of `n`, with what its timed loop does. The memory is what is
`fresh` until it is filled. -/
def readBW (n : ℕ) (fresh : ℕ → BitVec 32) : Option (Reads × K) :=
  (fill n 0 ((List.range n).map fresh)).bind fun ptr =>
    (readOuter ptr n 0 ⟨0, []⟩).map fun reads => (reads, bandwidth freq t stamps n)

/-- `write_BW` for an `ARR_SIZE` of `n`. -/
def writeBW (n : ℕ) (fresh : ℕ → BitVec 32) : Option (Writes × K) :=
  (writeOuter n 0 ⟨(List.range n).map fresh, []⟩).map fun writes =>
    (writes, bandwidth freq t stamps n)

end

/-- The indices from `i` on, as ints. -/
def indicesFrom (i count : ℕ) : List ℤ :=
  (List.range' i count).map fun k : ℕ => (k : ℤ)

/-- The bytes of the elements at some indices, counted from the start of the array. -/
def bytesAt (indices : List ℤ) : List ℤ :=
  indices.flatMap fun k => (List.range sizeofInt).map fun b : ℕ => k * sizeofInt + b

/-- Whatever an array of `n` elements holds, the nested loops touch each of them once and in order,
one ends with the sum of the plain loop and the other with `ptr[k] = k` for all `k`. -/
def LoopsPlain (n : ℕ) : Prop :=
  ∀ ptr : List (BitVec 32), ptr.length = n →
    readOuter ptr n 0 ⟨0, []⟩ = some ⟨plainSum ptr, indicesFrom 0 n⟩ ∧
    ∃ written, writeOuter n 0 ⟨ptr, []⟩ = some ⟨written, indicesFrom 0 n⟩ ∧
      written.map BitVec.toInt = indicesFrom 0 n

theorem fits_natCast {k : ℕ} (h : k < 2 ^ 31) : FitsInt (k : ℤ) := by
  unfold FitsInt
  omega

theorem load_natCast (ptr : List (BitVec 32)) (k : ℕ) : load ptr k = ptr[k]? := by
  unfold load
  rw [if_pos (Int.natCast_nonneg k), Int.toNat_natCast]

theorem store_natCast {ptr : List (BitVec 32)} {k : ℕ} (h : k < ptr.length) :
    store ptr k = some (ptr.set k (BitVec.ofInt 32 k)) := by
  unfold store
  rw [if_pos ⟨Int.natCast_nonneg k, by omega⟩, Int.toNat_natCast]

theorem indicesFrom_succ (i count : ℕ) :
    indicesFrom i (count + 1) = (i : ℤ) :: indicesFrom (i + 1) count := by
  simp [indicesFrom, List.range'_succ]

/-- A block and what comes after it. -/
theorem indicesFrom_tile {n i : ℕ} (h : i + unroll ≤ n) :
    indicesFrom i unroll ++ indicesFrom (i + unroll) (n - (i + unroll)) =
      indicesFrom i (n - i) := by
  unfold indicesFrom
  rw [← List.map_append, List.range'_append_1]
  congr 2
  omega

theorem readInner_eq {ptr : List (BitVec 32)} {i j : ℕ} (s : Reads) (hj : j ≤ unroll)
    (hi : i + unroll ≤ ptr.length) (hfits : i + unroll ≤ 2 ^ 31) :
    readInner ptr i j s = some ⟨((ptr.drop (i + j)).take (unroll - j)).foldl (· + ·) s.result,
      s.indices ++ indicesFrom (i + j) (unroll - j)⟩ := by
  induction hleft : unroll - j generalizing j s with
  | zero =>
    rw [readInner, if_neg (by omega)]
    simp [indicesFrom]
  | succ left ih =>
    have hlt : i + j < ptr.length := by omega
    have hk : (i : ℤ) + j = (i + j : ℕ) := (Nat.cast_add i j).symm
    rw [readInner, if_pos (by omega), hk, if_pos (fits_natCast (by omega)), load_natCast,
      List.getElem?_eq_getElem hlt, Option.bind_some, ih _ (by omega) (by omega),
      List.drop_eq_getElem_cons hlt, List.take_succ_cons, List.foldl_cons, indicesFrom_succ,
      List.append_assoc, List.singleton_append]
    rfl

/-- A block of `read_BW`, whose turn ends in an overflow only at the last int. -/
theorem readOuter_block {ptr : List (BitVec 32)} {i : ℕ} (s : Reads)
    (hi : i + unroll ≤ ptr.length) (hfits : i + unroll ≤ 2 ^ 31) :
    readOuter ptr ptr.length i s = if i + unroll < 2 ^ 31 then
      readOuter ptr ptr.length (i + unroll : ℕ)
        ⟨((ptr.drop i).take unroll).foldl (· + ·) s.result, s.indices ++ indicesFrom i unroll⟩
    else none := by
  have hpos : 0 < unroll := by decide
  have hnext : (i : ℤ) + unroll = (i + unroll : ℕ) := (Nat.cast_add i unroll).symm
  rw [readOuter, if_pos (by omega), readInner_eq s (Nat.zero_le _) hi hfits, Option.bind_some,
    hnext, Nat.add_zero, Nat.sub_zero]
  by_cases hlt : i + unroll < 2 ^ 31
  · rw [if_pos (fits_natCast hlt), if_pos hlt]
  · have hover : ¬FitsInt ((i + unroll : ℕ) : ℤ) := by
      unfold FitsInt
      omega
    rw [if_neg hover, if_neg hlt]

/-- Each turn of the outer loop reads the next `unroll` elements. -/
theorem readOuter_eq {ptr : List (BitVec 32)} {i : ℕ} (s : Reads) (hi : i ≤ ptr.length)
    (hfits : ptr.length < 2 ^ 31) (hdvd : unroll ∣ ptr.length - i) :
    readOuter ptr ptr.length i s = some ⟨(ptr.drop i).foldl (· + ·) s.result,
      s.indices ++ indicesFrom i (ptr.length - i)⟩ := by
  obtain ⟨turns, hturns⟩ := hdvd
  induction turns generalizing i s with
  | zero =>
    have hend : i = ptr.length := by omega
    rw [readOuter, if_neg (by omega), hend]
    simp [indicesFrom]
  | succ turns ih =>
    have hroom : i + unroll ≤ ptr.length := by
      rw [Nat.mul_succ] at hturns
      omega
    have hfold : (ptr.drop (i + unroll)).foldl (· + ·)
        (((ptr.drop i).take unroll).foldl (· + ·) s.result) =
          (ptr.drop i).foldl (· + ·) s.result := by
      rw [← List.foldl_append, ← List.drop_drop, List.take_append_drop]
    rw [readOuter_block s hroom (by omega), if_pos (by omega),
      ih _ hroom (by rw [Nat.mul_succ] at hturns; omega), hfold, List.append_assoc,
      indicesFrom_tile hroom]

/-- In an array that no int can index to its end the loop runs into the overflow. -/
theorem readOuter_overflow {ptr : List (BitVec 32)} {i : ℕ} (s : Reads)
    (hlong : 2 ^ 31 ≤ ptr.length) (hi : i < 2 ^ 31) (hdvd : unroll ∣ 2 ^ 31 - i) :
    readOuter ptr ptr.length i s = none := by
  obtain ⟨turns, hturns⟩ := hdvd
  induction turns generalizing i s with
  | zero => omega
  | succ turns ih =>
    have hroom : i + unroll ≤ 2 ^ 31 := by
      rw [Nat.mul_succ] at hturns
      omega
    rw [readOuter_block s (by omega) hroom]
    split
    next hlt => exact ih _ hlt (by rw [Nat.mul_succ] at hturns; omega)
    next => rfl

end SysPerf.MemoryBandwidth
