import SysPerf.RamAccessAgreement
import SysPerf.RamAccessSeries
import Mathlib.Analysis.SpecialFunctions.Log.Base

namespace SysPerf.RamAccess

open Grouping OptionLoop

variable {K Y X : Type} {d : DoubleText K Y} {log2 : ℤ → X}

/-- `sizeof(int)`. -/
def sizeofInt : ℤ := 4

/-- The number of bytes of an array of `n` ints. -/
def bytes (n : ℤ) : ℤ :=
  n * sizeofInt

/-- A series for each stride and no other; it has a point for each array, by increasing sizes,
with the logarithm of `unit n` for an array of `n` elements and the time of its runs. -/
structure Plotted (d : DoubleText K Y) (unit : ℤ → ℤ) (measured : ℤ → ℤ → K → Prop)
    (arraySizes strides : List ℤ) (drawn : Groups Text (ℝ × Y)) : Prop where
  once : (drawn.map Prod.fst).Nodup
  keys : ∀ key ∈ drawn.map Prod.fst, ∃ s ∈ strides, key = printInt s
  series : ∀ s ∈ strides, ∃ sizes : List ℤ, sizes.Perm arraySizes ∧ sizes.Pairwise (· < ·) ∧
    List.Forall₂ (fun n p => p.1 = Real.logb 2 (unit n) ∧ ∃ time, measured n s time ∧
      p.2 = d.printed time) sizes (itemsOf (printInt s) drawn)

theorem mem_itemsFor {s : ℤ} {items : List ((ℤ ×ₗ ℤ) × K)} {item : (ℤ ×ₗ ℤ) × K} :
    item ∈ itemsFor (printInt s) items ↔ item ∈ items ∧ (ofLex item.1).2 = s := by
  unfold itemsFor
  rw [List.mem_filter, decide_eq_true_eq]
  apply and_congr_right
  intro _
  exact ⟨fun h => (printInt_injective h).symm, fun h => by rw [h]⟩

/-- The array sizes in the items of one stride. -/
def sizesFor (s : ℤ) (times : Std.TreeMap (ℤ ×ₗ ℤ) K) : List ℤ :=
  (itemsFor (printInt s) times.toList).map fun item => (ofLex item.1).1

theorem sizesFor_sorted (s : ℤ) (times : Std.TreeMap (ℤ ×ₗ ℤ) K) :
    (sizesFor s times).Pairwise (· < ·) := by
  apply List.pairwise_map.mpr
  have hsorted := times.ordered_keys_toList.filter fun item =>
    decide (printInt s = printInt (ofLex item.1).2)
  apply hsorted.imp_of_mem
  intro a b ha hb hlt
  have hsa := (mem_itemsFor.mp ha).2
  have hsb := (mem_itemsFor.mp hb).2
  rcases Prod.Lex.lt_iff.mp (compare_lt_iff_lt.mp hlt) with hlt | ⟨-, hlt⟩
  · exact hlt
  · omega

theorem mem_sizesFor {s n : ℤ} {times : Std.TreeMap (ℤ ×ₗ ℤ) K} :
    n ∈ sizesFor s times ↔ ∃ time, times[toLex (n, s)]? = some time := by
  unfold sizesFor
  rw [List.mem_map]
  constructor
  · rintro ⟨⟨key, time⟩, hitem, rfl⟩
    obtain ⟨hmem, rfl⟩ := mem_itemsFor.mp hitem
    exact ⟨time, Std.TreeMap.mem_toList_iff_getElem?_eq_some.mp hmem⟩
  · rintro ⟨time, hget⟩
    refine ⟨(toLex (n, s), time), mem_itemsFor.mpr ⟨?_, rfl⟩, rfl⟩
    exact Std.TreeMap.mem_toList_iff_getElem?_eq_some.mpr hget

section

variable [Field K] {freq : K} {env : ℕ → Env} {arraySizes strides : List ℤ}
  {times : Std.TreeMap (ℤ ×ₗ ℤ) K}

/-- The chase needs an element to load. -/
theorem pos_of_measured {n s : ℤ} {time : K}
    (h : Measured freq env arraySizes strides n s time) : 0 < n := by
  obtain ⟨i, j, -, -, calls, hruns, -⟩ := h
  obtain ⟨call, hcall⟩ := mapM_mem hruns (List.mem_range.mpr (by decide : 0 < nRuns))
  obtain ⟨mem, hfilled, hcall⟩ := Option.bind_eq_some_iff.mp hcall
  obtain ⟨⟨visited, last⟩, hchase, -⟩ := Option.map_eq_some_iff.mp hcall
  obtain ⟨val, hload⟩ := load_of_chase (by unfold nLoads; omega) hchase
  obtain ⟨k, -, hget⟩ := load_eq_some hload
  have hlt := (List.getElem?_eq_some_iff.mp hget).1
  have hlen := filledArray_length hfilled
  omega

theorem sizesFor_perm (hsizes : arraySizes.Nodup) (hstrides : strides.Nodup)
    (hrun : memoryAccessTime freq env arraySizes strides = some times) {s : ℤ} (hs : s ∈ strides) :
    (sizesFor s times).Perm arraySizes := by
  obtain ⟨hall, honly⟩ := memoryAccessTime_get hsizes hstrides hrun
  have hnodup : (sizesFor s times).Nodup := (sizesFor_sorted s times).imp fun h => ne_of_lt h
  apply (List.perm_ext_iff_of_nodup hnodup hsizes).mpr
  intro n
  rw [mem_sizesFor]
  constructor
  · rintro ⟨time, hget⟩
    exact (honly n s time hget).1
  · intro hn
    obtain ⟨time, -, hget⟩ := hall n hn s hs
    exact ⟨time, hget⟩

/-- What is drawn is what was measured, over the logarithm of the number of elements. -/
theorem plotted_elements (hsizes : arraySizes.Nodup) (hstrides : strides.Nodup)
    (hrun : memoryAccessTime freq env arraySizes strides = some times) (compile execute : Line) :
    ∃ drawn, plot d.float (fun n => Real.logb 2 n)
      (outTxt compile execute (mainOutput d times)) = some drawn ∧
        Plotted d id (Measured freq env arraySizes strides) arraySizes strides drawn := by
  obtain ⟨hall, honly⟩ := memoryAccessTime_get hsizes hstrides hrun
  have hitem : ∀ item ∈ times.toList,
      Measured freq env arraySizes strides (ofLex item.1).1 (ofLex item.1).2 item.2 := by
    intro item hitem
    have hget := Std.TreeMap.mem_toList_iff_getElem?_eq_some.mp hitem
    obtain ⟨hn, hs⟩ := honly (ofLex item.1).1 (ofLex item.1).2 item.2 hget
    obtain ⟨time, hmeasured, hget'⟩ := hall _ hn _ hs
    obtain rfl : item.2 = time := Option.some.inj (hget.symm.trans hget')
    exact hmeasured
  obtain ⟨drawn, hdrawn, honce, hkeys, hseries⟩ := plot_output (d := d)
    (fun n => Real.logb 2 n) compile execute fun item h => pos_of_measured (hitem item h)
  refine ⟨drawn, hdrawn, honce, ?_, ?_⟩
  · intro key hkey
    obtain ⟨item, hmem, rfl⟩ := hkeys key hkey
    exact ⟨_, (honly _ _ item.2 (Std.TreeMap.mem_toList_iff_getElem?_eq_some.mp hmem)).2, rfl⟩
  · intro s hs
    refine ⟨sizesFor s times, sizesFor_perm hsizes hstrides hrun hs, sizesFor_sorted s times, ?_⟩
    rw [hseries]
    unfold sizesFor
    rw [List.forall₂_map_left_iff, List.forall₂_map_right_iff, List.forall₂_same]
    intro item hmem
    obtain ⟨hmem, hstride⟩ := mem_itemsFor.mp hmem
    have hmeasured := hitem item hmem
    rw [hstride] at hmeasured
    exact ⟨rfl, item.2, hmeasured, rfl⟩

/-- The series are over the numbers of bytes only if there is nothing to draw. -/
theorem empty_of_plotted_bytes {drawn : Groups Text (ℝ × Y)}
    (helements : Plotted d id (Measured freq env arraySizes strides) arraySizes strides drawn)
    (hbytes : Plotted d bytes (Measured freq env arraySizes strides) arraySizes strides drawn) :
    arraySizes = [] ∨ strides = [] := by
  cases strides with
  | nil => exact Or.inr rfl
  | cons s others =>
    left
    obtain ⟨sizes, hperm, hsorted, helements⟩ := helements.series s (List.mem_cons_self ..)
    obtain ⟨sizes', hperm', hsorted', hbytes⟩ := hbytes.series s (List.mem_cons_self ..)
    obtain rfl : sizes = sizes' := (hperm.trans hperm'.symm).eq_of_pairwise' hsorted hsorted'
    generalize itemsOf (printInt s) drawn = series at helements hbytes
    cases helements with
    | nil => exact hperm.nil_eq.symm
    | @cons n _ _ _ hfirst _ =>
      obtain ⟨hx, time, hmeasured, -⟩ := hfirst
      have hpos : (0 : ℝ) < n := Int.cast_pos.mpr (pos_of_measured hmeasured)
      cases hbytes with
      | cons hfirst _ =>
        have hlog : Real.logb 2 n = Real.logb 2 (bytes n : ℤ) := hx.symm.trans hfirst.1
        have hbytes : ((bytes n : ℤ) : ℝ) = n * 4 := by
          unfold bytes sizeofInt
          push_cast
          rfl
        rw [hbytes] at hlog
        have heq := Real.logb_injOn_pos (by norm_num) hpos (by simpa using hpos) hlog
        linarith

/-- The series are complete, in order and unmixed, but their x values are logarithms of numbers of
elements and not of bytes, unless there is nothing to draw. -/
theorem plotted_bytes_iff (hsizes : arraySizes.Nodup) (hstrides : strides.Nodup)
    (hrun : memoryAccessTime freq env arraySizes strides = some times) (compile execute : Line) :
    ∃ drawn, plot d.float (fun n => Real.logb 2 n)
      (outTxt compile execute (mainOutput d times)) = some drawn ∧
        (Plotted d bytes (Measured freq env arraySizes strides) arraySizes strides drawn ↔
          arraySizes = [] ∨ strides = []) := by
  obtain ⟨drawn, hdrawn, helements⟩ := plotted_elements (d := d) hsizes hstrides hrun compile execute
  refine ⟨drawn, hdrawn, empty_of_plotted_bytes helements, fun hempty => ?_⟩
  refine ⟨helements.once, helements.keys, fun s hs => ?_⟩
  rcases hempty with rfl | rfl
  · obtain ⟨sizes, hperm, hsorted, hseries⟩ := helements.series s hs
    obtain rfl := hperm.eq_nil
    generalize itemsOf (printInt s) drawn = series at hseries ⊢
    cases hseries
    exact ⟨[], hperm, hsorted, List.Forall₂.nil⟩
  · cases hs

theorem exists_fixedStride (hrange : InRange arraySizes strides) {s : ℤ} (hs : s ∈ strides)
    (freq : K) (env : Env) :
    ∃ r, memoryAccessTimeFixedStride freq env arraySizes s = some r := by
  cases arraySizes with
  | nil => exact ⟨([], ∅), rfl⟩
  | cons n others =>
    obtain ⟨-, hnonneg, -⟩ := hrange n (List.mem_cons_self ..) s hs
    obtain ⟨k, rfl⟩ := Int.eq_ofNat_of_zero_le hnonneg
    obtain ⟨calls, hcalls, -, -⟩ := fixedStride_visits freq
      (fun n hn => ⟨(hrange n hn k hs).1, (hrange n hn k hs).2.2⟩) env
    obtain ⟨r, hr, -⟩ := Option.map_eq_some_iff.mp hcalls
    exact ⟨r, hr⟩

/-- Sizes and strides in range have a table. -/
theorem exists_times (hrange : InRange arraySizes strides) (freq : K) (env : ℕ → Env) :
    ∃ times, memoryAccessTime freq env arraySizes strides = some times := by
  have hloop : ∀ rest : List ℤ, (∀ s ∈ rest, s ∈ strides) →
      ∀ i (times : Std.TreeMap (ℤ ×ₗ ℤ) K),
      ∃ times', memoryAccessTimeLoop freq env arraySizes i rest times = some times' := by
    intro rest
    induction rest with
    | nil => exact fun _ i times => ⟨times, rfl⟩
    | cons s rest ih =>
      intro hmem i times
      obtain ⟨⟨calls, fixed⟩, hfixed⟩ :=
        exists_fixedStride hrange (hmem s (List.mem_cons_self ..)) freq (env i)
      obtain ⟨times', htimes'⟩ := ih (fun s' hs' => hmem s' (List.mem_cons_of_mem s hs')) (i + 1)
        (fixed.toList.foldl (fun times item => times.insert (toLex (item.1, s)) item.2) times)
      refine ⟨times', ?_⟩
      unfold memoryAccessTimeLoop
      rw [hfixed, Option.bind_some]
      exact htimes'
  exact hloop strides (fun s hs => hs) 0 ∅

end

/-- Whole numbers are printed in decimal. -/
def wholeText : DoubleText ℚ ℤ where
  print x := printInt ⌊x⌋
  float := int
  printed x := ⌊x⌋
  print_ne_nil x := printInt_ne_nil ⌊x⌋
  print_word _ _ h := printInt_word h
  float_print x := int_printInt ⌊x⌋

/-- A machine with loads of two nanoseconds. -/
def sampleEnv : Env :=
  ⟨fun _ _ _ => 0, fun _ _ => ⟨0, 0, 0, 0⟩, fun _ _ => (0, 5400000)⟩

theorem main_inRange : InRange mainArraySizes mainStrides := by
  unfold InRange
  decide

theorem main_nodup : mainArraySizes.Nodup ∧ mainStrides.Nodup := by
  decide

/-- One array and one stride: the series is drawn, and not over bytes. -/
theorem plotted_bytes_iff_single : ∃ times drawn,
    memoryAccessTime (2700 : ℚ) (fun _ => sampleEnv) [512] [64] = some times ∧
      plot wholeText.float (fun n => Real.logb 2 n)
        (outTxt compileCommand executeCommand (mainOutput wholeText times)) = some drawn ∧
      ¬Plotted wholeText bytes (Measured (2700 : ℚ) (fun _ => sampleEnv) [512] [64]) [512] [64]
        drawn := by
  obtain ⟨times, hrun⟩ := exists_times inRange_first (2700 : ℚ) fun _ => sampleEnv
  obtain ⟨drawn, hdrawn, hiff⟩ := plotted_bytes_iff (d := wholeText) (List.nodup_singleton 512)
    (List.nodup_singleton 64) hrun compileCommand executeCommand
  exact ⟨times, drawn, hrun, hdrawn, fun h => by simpa using hiff.mp h⟩

/-- The program's own sizes and strides. -/
theorem plotted_bytes_main : ¬∀ arraySizes strides : List ℤ, arraySizes.Nodup → strides.Nodup →
    ∀ times, memoryAccessTime (2700 : ℚ) (fun _ => sampleEnv) arraySizes strides = some times →
      ∃ drawn, plot wholeText.float (fun n => Real.logb 2 n)
        (outTxt compileCommand executeCommand (mainOutput wholeText times)) = some drawn ∧
        Plotted wholeText bytes (Measured (2700 : ℚ) (fun _ => sampleEnv) arraySizes strides)
          arraySizes strides drawn := by
  intro h
  obtain ⟨times, hrun⟩ := exists_times main_inRange (2700 : ℚ) fun _ => sampleEnv
  obtain ⟨drawn, hdrawn, hbytes⟩ := h _ _ main_nodup.1 main_nodup.2 times hrun
  obtain ⟨drawn', hdrawn', helements⟩ := plotted_elements (d := wholeText) main_nodup.1
    main_nodup.2 hrun compileCommand executeCommand
  obtain rfl : drawn = drawn' := Option.some.inj (hdrawn.symm.trans hdrawn')
  rcases empty_of_plotted_bytes helements hbytes with hnil | hnil
  · exact absurd hnil (by decide)
  · exact absurd hnil (by decide)

end SysPerf.RamAccess
