import SysPerf.MemoryBandwidth

namespace SysPerf.MemoryBandwidth

open MachineInt

/-- The elements from `lo` to `hi` hold their indices and the others what they held. -/
structure Stored (lo hi : ℕ) (old new : List (BitVec 32)) : Prop where
  length : new.length = old.length
  get : ∀ k : ℕ, new[k]? = if lo ≤ k ∧ k < hi then some (BitVec.ofInt 32 k) else old[k]?

theorem stored_nothing (i : ℕ) (ptr : List (BitVec 32)) : Stored i i ptr ptr :=
  ⟨rfl, fun k => by rw [if_neg (by omega)]⟩

theorem stored_one {ptr : List (BitVec 32)} {k : ℕ} (h : k < ptr.length) :
    Stored k (k + 1) ptr (ptr.set k (BitVec.ofInt 32 k)) := by
  refine ⟨List.length_set, fun m => ?_⟩
  by_cases hm : m = k
  · rw [if_pos (by omega), hm, List.getElem?_set_self h]
  · rw [if_neg (by omega), List.getElem?_set_ne (Ne.symm hm)]

theorem Stored.trans {lo mid hi : ℕ} {a b c : List (BitVec 32)} (hlo : lo ≤ mid) (hhi : mid ≤ hi)
    (h : Stored lo mid a b) (h' : Stored mid hi b c) : Stored lo hi a c := by
  refine ⟨h'.length.trans h.length, fun k => ?_⟩
  rw [h'.get, h.get]
  by_cases hin : lo ≤ k ∧ k < hi
  · rw [if_pos hin]
    by_cases hlater : mid ≤ k
    · rw [if_pos ⟨hlater, hin.2⟩]
    · rw [if_neg (by omega), if_pos (by omega)]
  · rw [if_neg (by omega), if_neg (by omega), if_neg hin]

/-- As ints the elements of an array that is written all over are its indices. -/
theorem Stored.toInt {n : ℕ} {old new : List (BitVec 32)} (h : Stored 0 n old new)
    (hn : old.length = n) (hfits : n ≤ 2 ^ 31) : new.map BitVec.toInt = indicesFrom 0 n := by
  apply List.ext_getElem?
  intro k
  rw [List.getElem?_map, h.get]
  by_cases hk : k < n
  · have hval : (BitVec.ofInt 32 k).toInt = k :=
      BitVec.toInt_ofInt_eq_self (by omega) (by omega) (by omega)
    rw [if_pos ⟨Nat.zero_le k, hk⟩, Option.map_some, hval]
    simp [indicesFrom, hk]
  · have hlen : old.length ≤ k := by omega
    rw [if_neg (by omega), List.getElem?_eq_none hlen]
    simp [indicesFrom, Nat.le_of_not_lt hk]

/-- The inner loop of `write_BW` writes the elements from `i + j` to the end of its block. -/
theorem writeInner_eq {i j : ℕ} (s : Writes) (hj : j ≤ unroll) (hi : i + unroll ≤ s.ptr.length)
    (hfits : i + unroll ≤ 2 ^ 31) :
    ∃ ptr, writeInner i j s = some ⟨ptr, s.indices ++ indicesFrom (i + j) (unroll - j)⟩ ∧
      Stored (i + j) (i + unroll) s.ptr ptr := by
  induction hleft : unroll - j generalizing j s with
  | zero =>
    obtain rfl : j = unroll := by omega
    refine ⟨s.ptr, ?_, stored_nothing _ _⟩
    rw [writeInner, if_neg (Nat.lt_irrefl _)]
    simp [indicesFrom]
  | succ left ih =>
    have hlt : i + j < s.ptr.length := by omega
    have hk : (i : ℤ) + j = (i + j : ℕ) := (Nat.cast_add i j).symm
    have hone := stored_one hlt
    obtain ⟨ptr, hptr, hstored⟩ :=
      ih ⟨s.ptr.set (i + j) (BitVec.ofInt 32 (i + j : ℕ)), s.indices ++ [((i + j : ℕ) : ℤ)]⟩
        (j := j + 1) (by omega) (by rw [hone.length]; exact hi) (by omega)
    refine ⟨ptr, ?_, hone.trans (Nat.le_succ _) (by omega) hstored⟩
    rw [writeInner, if_pos (by omega), hk, if_pos (fits_natCast (by omega)), store_natCast hlt,
      Option.bind_some, hptr, indicesFrom_succ, List.append_assoc, List.singleton_append]
    rfl

/-- Each turn of the outer loop writes the next `unroll` elements. -/
theorem writeOuter_eq {n i : ℕ} (s : Writes) (hn : s.ptr.length = n) (hi : i ≤ n)
    (hfits : n < 2 ^ 31) (hdvd : unroll ∣ n - i) :
    ∃ ptr, writeOuter n i s = some ⟨ptr, s.indices ++ indicesFrom i (n - i)⟩ ∧
      Stored i n s.ptr ptr := by
  obtain ⟨turns, hturns⟩ := hdvd
  induction turns generalizing i s with
  | zero =>
    obtain rfl : i = n := by omega
    refine ⟨s.ptr, ?_, stored_nothing _ _⟩
    rw [writeOuter, if_neg (lt_irrefl _)]
    simp [indicesFrom]
  | succ turns ih =>
    have hroom : i + unroll ≤ n := by
      rw [Nat.mul_succ] at hturns
      omega
    have hpos : 0 < unroll := by decide
    have hnext : (i : ℤ) + unroll = (i + unroll : ℕ) := (Nat.cast_add i unroll).symm
    obtain ⟨mid, hmid, hblock⟩ :=
      writeInner_eq s (Nat.zero_le _) (hroom.trans hn.ge) (by omega)
    obtain ⟨ptr, hptr, hrest⟩ := ih ⟨mid, s.indices ++ indicesFrom i unroll⟩
      (hblock.length.trans hn) hroom (by rw [Nat.mul_succ] at hturns; omega)
    refine ⟨ptr, ?_, hblock.trans (Nat.le_add_right _ _) hroom hrest⟩
    rw [writeOuter, if_pos (by omega), hmid, Option.bind_some, hnext,
      if_pos (fits_natCast (by omega)), Nat.add_zero, Nat.sub_zero, hptr, List.append_assoc,
      indicesFrom_tile hroom]

/-- The array that `read_BW` reads holds its indices. -/
theorem fill_eq {n i : ℕ} {ptr : List (BitVec 32)} (hn : ptr.length = n) (hi : i ≤ n)
    (hfits : n < 2 ^ 31) : ∃ filled, fill n i ptr = some filled ∧ Stored i n ptr filled := by
  induction hleft : n - i generalizing i ptr with
  | zero =>
    obtain rfl : i = n := by omega
    refine ⟨ptr, ?_, stored_nothing _ _⟩
    rw [fill, if_neg (lt_irrefl _)]
  | succ left ih =>
    have hlt : i < ptr.length := by omega
    have hone := stored_one hlt
    have hnext : (i : ℤ) + 1 = (i + 1 : ℕ) := (Nat.cast_succ i).symm
    obtain ⟨filled, hfilled, hrest⟩ := ih (hone.length.trans hn) (i := i + 1) (by omega) (by omega)
    refine ⟨filled, ?_, hone.trans (Nat.le_succ _) (by omega) hrest⟩
    rw [fill, if_pos (by omega), store_natCast hlt, Option.bind_some, hnext,
      if_pos (fits_natCast (by omega)), hfilled]

theorem bytesAt_indices (n : ℕ) :
    bytesAt (indicesFrom 0 n) = (List.range (formulaBytes n)).map fun b : ℕ => (b : ℤ) := by
  unfold bytesAt indicesFrom formulaBytes
  rw [← List.range_eq_range']
  induction n with
  | zero => rw [Nat.zero_mul]; rfl
  | succ n ih =>
    rw [List.range_succ, List.map_append, List.flatMap_append, ih, Nat.succ_mul, List.range_add,
      List.map_append, List.map_map]
    simp [Function.comp_def]

theorem loops_plain {n : ℕ} (h : unroll ∣ n) (hfits : n < 2 ^ 31) : LoopsPlain n := by
  rintro ptr rfl
  have hread : readOuter ptr ptr.length (0 : ℕ) ⟨0, []⟩ =
      some ⟨plainSum ptr, indicesFrom 0 ptr.length⟩ :=
    readOuter_eq ⟨0, []⟩ (Nat.zero_le _) hfits h
  obtain ⟨written, hwritten, hstored⟩ := writeOuter_eq ⟨ptr, []⟩ rfl (Nat.zero_le _) hfits h
  exact ⟨hread, written, hwritten, hstored.toInt rfl hfits.le⟩

theorem not_loops_plain {n : ℕ} (h : 2 ^ 31 ≤ n) : ¬LoopsPlain n := by
  intro hplain
  obtain ⟨ptr, rfl⟩ : ∃ ptr : List (BitVec 32), ptr.length = n :=
    ⟨List.replicate n 0, List.length_replicate⟩
  have hread := (hplain ptr rfl).1
  have hstart : unroll ∣ 2 ^ 31 - 0 := by decide
  have hover : readOuter ptr ptr.length (0 : ℕ) ⟨0, []⟩ = none :=
    readOuter_overflow ⟨0, []⟩ h (Nat.two_pow_pos 31) hstart
  have hnone : none = some _ := hover.symm.trans hread
  simp at hnone

/-- As long as the length is an int the nested loops touch each element once and in order, and do
what the plain loops do; the bandwidths are over the bytes that are touched. -/
theorem unrolled_eq_plain {K : Type} [Field K] {n : ℕ} (h : unroll ∣ n) (hfits : n < 2 ^ 31) :
    LoopsPlain n ∧ ∀ (freq : K) t stamps fresh,
      (∃ reads, readBW freq t stamps n fresh = some (reads, bandwidth freq t stamps n) ∧
        bytesAt reads.indices = (List.range (formulaBytes n)).map fun b : ℕ => (b : ℤ)) ∧
      ∃ writes, writeBW freq t stamps n fresh = some (writes, bandwidth freq t stamps n) ∧
        bytesAt writes.indices = (List.range (formulaBytes n)).map fun b : ℕ => (b : ℤ) := by
  have hplain := loops_plain h hfits
  refine ⟨hplain, fun freq t stamps fresh => ?_⟩
  have hlength : ((List.range n).map fresh).length = n := by simp
  obtain ⟨filled, hfilled, hstored⟩ := fill_eq hlength (Nat.zero_le n) hfits
  constructor
  · have hread := (hplain filled (hstored.length.trans hlength)).1
    refine ⟨⟨plainSum filled, indicesFrom 0 n⟩, ?_, bytesAt_indices n⟩
    have hfill : fill n 0 ((List.range n).map fresh) = some filled := hfilled
    unfold readBW
    rw [hfill, Option.bind_some, hread]
    rfl
  · obtain ⟨written, hwritten, -⟩ := (hplain _ hlength).2
    refine ⟨⟨written, indicesFrom 0 n⟩, ?_, bytesAt_indices n⟩
    unfold writeBW
    rw [hwritten]
    rfl

theorem unrolled_eq_plain_ones :
    readOuter (List.replicate 32 1) 32 0 ⟨0, []⟩ = some ⟨32, indicesFrom 0 32⟩ := by
  obtain ⟨hloops, -⟩ := unrolled_eq_plain (K := ℚ) (n := 32) (by decide) (by decide)
  obtain ⟨hread, -⟩ := hloops (List.replicate 32 1) rfl
  have hsum : plainSum (List.replicate 32 1) = 32 := by decide
  rw [hread, hsum]

/-- The length `2 ^ 31` is a multiple of `UNROLL`. -/
theorem not_unrolled_eq_plain : ¬∀ n, unroll ∣ n → LoopsPlain n := fun hall =>
  not_loops_plain le_rfl (hall (2 ^ 31) (by decide))

end SysPerf.MemoryBandwidth
