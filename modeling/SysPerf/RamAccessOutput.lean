import SysPerf.RamAccessPlot

namespace SysPerf.RamAccess

open Grouping

theorem digit_not_whitespace {c : Char} (h : c.isDigit) : c.isWhitespace = false := by
  unfold Char.isDigit at h
  simp only [ge_iff_le, Bool.and_eq_true, decide_eq_true_eq] at h
  unfold Char.isWhitespace
  simp only [Bool.or_eq_false_iff, decide_eq_false_iff_not]
  refine ⟨⟨⟨?_, ?_⟩, ?_⟩, ?_⟩ <;> rintro rfl <;> revert h <;> decide

theorem printInt_ne_nil (z : ℤ) : printInt z ≠ [] := by
  unfold printInt
  split
  next => exact Nat.toDigits_ne_nil
  next => exact List.cons_ne_nil _ _

theorem toDigits_word {n : ℕ} {c : Char} (h : c ∈ Nat.toDigits 10 n) : c.isWhitespace = false :=
  digit_not_whitespace (Nat.isDigit_of_mem_toDigits (by omega) (by omega) h)

theorem printInt_word {z : ℤ} {c : Char} (h : c ∈ printInt z) : c.isWhitespace = false := by
  unfold printInt at h
  split at h
  next => exact toDigits_word h
  next =>
    rcases List.mem_cons.mp h with rfl | h
    · decide
    · exact toDigits_word h

theorem readNat_toDigits (n : ℕ) : readNat (Nat.toDigits 10 n) = some n := by
  have hall : (Nat.toDigits 10 n).all Char.isDigit = true := by
    rw [List.all_eq_true]
    intro c hc
    exact Nat.isDigit_of_mem_toDigits (by omega) (by omega) hc
  unfold readNat
  rw [if_pos ⟨Nat.toDigits_ne_nil, hall⟩, Nat.ofDigitChars_ten_toDigits]

/-- What is printed is read back as it was. -/
theorem int_printInt (z : ℤ) : int (printInt z) = some z := by
  cases z with
  | ofNat n =>
    have hminus : '-' ∉ Nat.toDigits 10 n := by
      intro hmem
      have hdigit := Nat.isDigit_of_mem_toDigits (by omega) (by omega) hmem
      revert hdigit
      decide
    show int (Nat.toDigits 10 n) = some (n : ℤ)
    unfold int
    split
    next digits heq =>
      rw [heq] at hminus
      exact absurd (List.mem_cons_self ..) hminus
    next => rw [readNat_toDigits, Option.map_some]
  | negSucc n =>
    show (readNat (Nat.toDigits 10 (n + 1))).map (fun n : ℕ => -(n : ℤ)) = _
    rw [readNat_toDigits]
    rfl

theorem printInt_injective {a b : ℤ} (h : printInt a = printInt b) : a = b := by
  have hread := int_printInt a
  rw [h, int_printInt] at hread
  exact (Option.some.inj hread).symm

theorem split_words {a b c : Text} (ha : a ≠ []) (hb : b ≠ []) (hc : c ≠ [])
    (hwa : ∀ x ∈ a, x.isWhitespace = false) (hwb : ∀ x ∈ b, x.isWhitespace = false)
    (hwc : ∀ x ∈ c, x.isWhitespace = false) :
    split (a ++ ' ' :: b ++ ' ' :: c ++ ['\n']) = [a, b, c] := by
  unfold split
  rw [List.append_assoc, List.append_assoc, List.cons_append,
    List.splitOnP_append_cons_of_forall_mem hwa ' ' (by decide), List.cons_append,
    List.splitOnP_append_cons_of_forall_mem hwb ' ' (by decide),
    List.splitOnP_append_cons_of_forall_mem hwc '\n' (by decide)]
  simp [ha, hb, hc]

section

variable {K Y : Type} {d : DoubleText K Y}

/-- The words of an item's line: the stride, and with it what is kept for its series. -/
def words (d : DoubleText K Y) (item : (ℤ ×ₗ ℤ) × K) : Text × (Text × Text) :=
  (printInt (ofLex item.1).2, printInt (ofLex item.1).1, d.print item.2)

theorem addLine_item (groups : Groups Text (Text × Text)) (item : (ℤ ×ₗ ℤ) × K) :
    addLine groups (printItem d item ++ ['\n']) =
      some (add (words d item).1 (words d item).2 groups) := by
  unfold addLine printItem
  rw [split_words (printInt_ne_nil _) (printInt_ne_nil _) (d.print_ne_nil _)
    (fun x => printInt_word) (fun x => printInt_word) (d.print_word _)]
  rfl

theorem addLines_items (groups : Groups Text (Text × Text)) (items : List ((ℤ ×ₗ ℤ) × K)) :
    (items.map fun item => printItem d item ++ ['\n']).foldlM addLine groups =
      some (addAll (items.map (words d)) groups) := by
  induction items generalizing groups with
  | nil => rfl
  | cons item items ih =>
    rw [List.map_cons, List.foldlM_cons, addLine_item]
    exact ih _

theorem readlines_line {line text : Text} (h : '\n' ∉ text) (rest : Text) :
    readlines line (text ++ '\n' :: rest) = (line ++ text ++ ['\n']) :: readlines [] rest := by
  induction text generalizing line with
  | nil =>
    rw [List.nil_append, List.append_nil, readlines, if_pos rfl]
  | cons c text ih =>
    obtain ⟨hne, hrest⟩ := not_or.mp (List.mem_cons.not.mp h)
    rw [List.cons_append, readlines, if_neg (Ne.symm hne), ih hrest, List.append_assoc line,
      List.singleton_append]

theorem printItem_noNewline (item : (ℤ ×ₗ ℤ) × K) : '\n' ∉ printItem d item := by
  have hnewline : ∀ text : Text, (∀ c ∈ text, c.isWhitespace = false) → '\n' ∉ text := by
    intro text hword hmem
    have := hword _ hmem
    revert this
    decide
  unfold printItem
  simp only [List.mem_append, List.mem_cons, not_or]
  exact ⟨⟨hnewline _ fun c => printInt_word, by decide, hnewline _ fun c => printInt_word⟩,
    by decide, hnewline _ (d.print_word _)⟩

theorem readlines_items (items : List ((ℤ ×ₗ ℤ) × K)) :
    readlines [] (items.flatMap fun item => printItem d item ++ ['\n']) =
      items.map fun item => printItem d item ++ ['\n'] := by
  induction items with
  | nil => rfl
  | cons item items ih =>
    rw [List.flatMap_cons, List.append_assoc, List.singleton_append,
      readlines_line (printItem_noNewline item), ih]
    rfl

/-- The two command lines are the two that are left out. -/
theorem readlines_outTxt (compile execute : Line) (times : Std.TreeMap (ℤ ×ₗ ℤ) K) :
    (readlines [] (outTxt compile execute (mainOutput d times))).drop 2 =
      times.toList.map fun item => printItem d item ++ ['\n'] := by
  unfold outTxt mainOutput
  rw [List.append_assoc, List.cons_append, readlines_line compile.noNewline,
    readlines_line execute.noNewline, readlines_items]
  rfl

end

end SysPerf.RamAccess
