import SysPerf.OptionLoop
import SysPerf.RamAccessOutput
import SysPerf.RamAccessTimes

namespace SysPerf.RamAccess

open Grouping OptionLoop

variable {K Y X : Type} {d : DoubleText K Y} {log2 : ℤ → X}

/-- The point that is drawn for an item. -/
def point (d : DoubleText K Y) (log2 : ℤ → X) (item : (ℤ ×ₗ ℤ) × K) : X × Y :=
  (log2 (ofLex item.1).1, d.printed item.2)

theorem points_items {items : List ((ℤ ×ₗ ℤ) × K)} (h : ∀ item ∈ items, 0 < (ofLex item.1).1) :
    points d.float log2 (items.map fun item => (words d item).2) =
      some (items.map (point d log2)) := by
  unfold points
  rw [List.mapM_map, mapM_eq_map]
  intro item hitem
  unfold words mathLog2
  simp only [Function.comp_apply]
  rw [int_printInt, Option.bind_some, if_pos (h item hitem), Option.bind_some, d.float_print]
  rfl

/-- The items of the stride that is printed as `key`. -/
def itemsFor (key : Text) (items : List ((ℤ ×ₗ ℤ) × K)) : List ((ℤ ×ₗ ℤ) × K) :=
  items.filter fun item => key = printInt (ofLex item.1).2

/-- The lines' words by stride. -/
def wordGroups (d : DoubleText K Y) (items : List ((ℤ ×ₗ ℤ) × K)) : Groups Text (Text × Text) :=
  addAll (items.map (words d)) []

theorem itemsOf_wordGroups (key : Text) (items : List ((ℤ ×ₗ ℤ) × K)) :
    itemsOf key (wordGroups d items) = (itemsFor key items).map fun item => (words d item).2 := by
  unfold wordGroups
  rw [itemsOf_addAll, List.filter_map, List.map_map]
  rfl

theorem wordGroups_keys (items : List ((ℤ ×ₗ ℤ) × K)) :
    ((wordGroups d items).map Prod.fst).Nodup ∧
      ∀ key ∈ (wordGroups d items).map Prod.fst,
        ∃ item ∈ items, key = printInt (ofLex item.1).2 := by
  have hstart : (([] : Groups Text (Text × Text)).map Prod.fst).Nodup := List.nodup_nil
  obtain ⟨hnodup, hkeys⟩ := keys_addAll hstart
  refine ⟨hnodup, fun key hkey => ?_⟩
  rcases hkeys key hkey with hkey | hkey
  · cases hkey
  · rw [List.map_map] at hkey
    obtain ⟨item, hitem, rfl⟩ := List.mem_map.mp hkey
    exact ⟨item, hitem, rfl⟩

/-- Each series has the points of its stride's items, in their order. -/
theorem plot_output (log2 : ℤ → X) (compile execute : Line) {times : Std.TreeMap (ℤ ×ₗ ℤ) K}
    (h : ∀ item ∈ times.toList, 0 < (ofLex item.1).1) :
    ∃ drawn, plot d.float log2 (outTxt compile execute (mainOutput d times)) = some drawn ∧
      (drawn.map Prod.fst).Nodup ∧
      (∀ key ∈ drawn.map Prod.fst, ∃ item ∈ times.toList, key = printInt (ofLex item.1).2) ∧
      ∀ key, itemsOf key drawn = (itemsFor key times.toList).map (point d log2) := by
  obtain ⟨hnodup, hkeys⟩ := wordGroups_keys (d := d) times.toList
  have hpoints : ∀ group ∈ wordGroups d times.toList,
      (points d.float log2 group.2).map (fun drawn => (group.1, drawn)) =
        some (group.1, (itemsFor group.1 times.toList).map (point d log2)) := by
    intro group hgroup
    rw [← itemsOf_of_mem hnodup hgroup, itemsOf_wordGroups, points_items]
    · rfl
    · intro item hitem
      exact h item (List.mem_filter.mp hitem).1
  refine ⟨(wordGroups d times.toList).map fun group =>
    (group.1, (itemsFor group.1 times.toList).map (point d log2)), ?_, ?_, ?_, ?_⟩
  · unfold plot
    rw [readlines_outTxt, addLines_items, Option.bind_some]
    exact mapM_eq_map hpoints
  · rw [List.map_map]
    exact hnodup
  · intro key hkey
    rw [List.map_map] at hkey
    exact hkeys key hkey
  · intro key
    apply itemsOf_map (f := fun key => (itemsFor key times.toList).map (point d log2))
    intro hnot
    have hnil := itemsOf_wordGroups (d := d) key times.toList
    rw [itemsOf_of_notMem hnot] at hnil
    rw [List.map_eq_nil_iff.mp hnil.symm, List.map_nil]

end SysPerf.RamAccess
