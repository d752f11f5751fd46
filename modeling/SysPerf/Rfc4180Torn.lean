import SysPerf.Rfc4180RoundTrip

namespace SysPerf.Rfc4180

variable {α : Type}

theorem prefix_append_cases {xs ys zs : List α} (h : xs <+: ys ++ zs) :
    xs <+: ys ∨ ∃ more, xs = ys ++ more ∧ more <+: zs := by
  obtain ⟨tail, h⟩ := h
  rcases List.append_eq_append_iff.mp h with ⟨more, rfl, -⟩ | ⟨more, rfl, rfl⟩
  · exact Or.inl (List.prefix_append ..)
  · exact Or.inr ⟨more, rfl, List.prefix_append ..⟩

/-- What is left of a row whose end is missing: the last of its cells may have lost its end. -/
inductive Cut : List (List α) → List (List α) → Prop
  | nothing (texts : List (List α)) : Cut [] texts
  | within {cut text : List α} (after : List (List α)) (h : cut <+: text) :
    Cut [cut] (text :: after)
  | cons {cells texts : List (List α)} (text : List α) (h : Cut cells texts) :
    Cut (text :: cells) (text :: texts)

variable [DecidableEq α]

/-- A doubled text that is cut between two quotes has lost the second of them. -/
theorem prefix_doubled {quote : α} {text torn : List α} (h : torn <+: doubled quote text ++ [quote]) :
    ∃ cut, cut <+: text ∧ (torn = doubled quote cut ∨ torn = doubled quote cut ++ [quote]) := by
  induction text generalizing torn with
  | nil =>
    have h : torn <+: [quote] := h
    rcases List.prefix_cons_iff.mp h with rfl | ⟨rest, rfl, hrest⟩
    · exact ⟨[], List.prefix_refl _, Or.inl rfl⟩
    · obtain rfl := List.prefix_nil.mp hrest
      exact ⟨[], List.prefix_refl _, Or.inr rfl⟩
  | cons c text ih =>
    have hcons : ∀ cut, doubled quote (c :: cut) = doubled quote [c] ++ doubled quote cut :=
      doubled_append quote [c]
    rw [hcons, List.append_assoc] at h
    rcases prefix_append_cases h with h | ⟨more, rfl, hmore⟩
    · by_cases hc : c = quote
      · subst hc
        have h : torn <+: [c, c] := by simpa [doubled] using h
        rcases List.prefix_cons_iff.mp h with rfl | ⟨rest, rfl, hrest⟩
        · exact ⟨[], List.nil_prefix, Or.inl rfl⟩
        · rcases List.prefix_cons_iff.mp hrest with rfl | ⟨last, rfl, hlast⟩
          · exact ⟨[], List.nil_prefix, Or.inr rfl⟩
          · obtain rfl := List.prefix_nil.mp hlast
            exact ⟨[c], by simp, Or.inl (by simp [doubled])⟩
      · have h : torn <+: [c] := by simpa [doubled, hc] using h
        rcases List.prefix_cons_iff.mp h with rfl | ⟨rest, rfl, hrest⟩
        · exact ⟨[], List.nil_prefix, Or.inl rfl⟩
        · obtain rfl := List.prefix_nil.mp hrest
          exact ⟨[c], by simp, Or.inl (by simp [doubled, hc])⟩
    · obtain ⟨cut, hcut, htorn⟩ := ih hmore
      refine ⟨c :: cut, (List.prefix_cons_inj c).mpr hcut, ?_⟩
      rw [hcons cut]
      rcases htorn with rfl | rfl
      · exact Or.inl rfl
      · exact Or.inr (List.append_assoc _ _ _).symm

variable (d : Dialect α)

/-- Some cells are cut between the quotes of one of them: with one quote more they would be the
cells before it and the beginning of it. -/
def CutInQuotes (print : List (Cell α) → List α) (cells : List (Cell α)) (torn : List α) : Prop :=
  ∃ before text after cut, cells = before ++ .quoted text :: after ∧ cut <+: text ∧
    torn ++ [d.quote] = print (before ++ [.quoted cut])

/-- A cell that is cut has its text cut, or the file ends between its quotes. -/
theorem read_torn_cell {r : Reader α} (hr : Fresh r.mode) {cell : Cell α} (hcell : cell.Ok d)
    {torn : List α} (hne : torn ≠ []) (h : torn <+: cell.print d) :
    (read d r torn = none ∧ ∃ text cut, cell = .quoted text ∧ cut <+: text ∧
        torn ++ [d.quote] = (Cell.quoted cut).print d) ∨
      ∃ cut, cut <+: cell.text ∧ read d r torn = some ⟨r.rows, r.row ++ [cut]⟩ := by
  obtain ⟨mode, row, rows⟩ := r
  cases cell with
  | quoted text =>
    rcases List.prefix_cons_iff.mp h with rfl | ⟨inner, rfl, hinner⟩
    · exact absurd rfl hne
    have hopen : read d ⟨mode, row, rows⟩ (d.quote :: inner) =
        read d ⟨.quoted [], row, rows⟩ inner := by
      cases hr <;> simp [read, Reader.step]
    obtain ⟨cut, hcut, rfl | rfl⟩ := prefix_doubled hinner
    · have hbody := read_doubled d ⟨.quoted [], row, rows⟩ [] cut []
      rw [List.append_nil] at hbody
      exact Or.inl ⟨by rw [hopen, hbody]; rfl, text, cut, rfl, hcut, rfl⟩
    · have hbody := read_doubled d ⟨.quoted [], row, rows⟩ [] cut [d.quote]
      refine Or.inr ⟨cut, hcut, ?_⟩
      rw [hopen, hbody]
      simp [read, Reader.step, Reader.finish]
  | bare text =>
    obtain ⟨tail, htail⟩ := h
    have hok : (Cell.bare torn).Ok d :=
      ⟨hne, fun c hc => hcell.2 c (by
        have htext : torn ++ tail = text := htail
        exact htext ▸ List.mem_append_left tail hc)⟩
    obtain ⟨mode', hmode, hread⟩ := read_cell d hr hok []
    rw [List.append_nil] at hread
    refine Or.inr ⟨torn, ⟨tail, htail⟩, ?_⟩
    rw [show torn = (Cell.bare torn).print d from rfl, hread]
    cases hmode <;> rfl

theorem read_nil_ended {r : Reader α} {text : List α} (hr : Ended text r.mode) :
    read d r [] = some ⟨r.rows, r.row ++ [text]⟩ := by
  obtain ⟨mode, row, rows⟩ := r
  cases hr <;> rfl

theorem read_torn_cells {sep : α} (hsep : d.separator = [sep]) {r : Reader α} {text : List α}
    (hr : Ended text r.mode) {cells : List (Cell α)} (hcells : ∀ cell ∈ cells, cell.Ok d)
    {torn : List α} (h : torn <+: cells.flatMap fun next => d.separator ++ next.print d) :
    (read d r torn = none ∧
        CutInQuotes d (List.flatMap fun next => d.separator ++ next.print d) cells torn) ∨
      ∃ kept, Cut kept (cells.map Cell.text) ∧
        read d r torn = some ⟨r.rows, r.row ++ text :: kept⟩ := by
  induction cells generalizing r text torn with
  | nil =>
    obtain rfl := List.prefix_nil.mp h
    exact Or.inr ⟨[], .nothing _, read_nil_ended d hr⟩
  | cons cell cells ih =>
    rw [List.flatMap_cons, hsep, List.append_assoc, List.singleton_append] at h
    rcases List.prefix_cons_iff.mp h with rfl | ⟨more, rfl, hmore⟩
    · exact Or.inr ⟨[], .nothing _, read_nil_ended d hr⟩
    have hstart := read_separator d hr more
    rw [hsep, List.singleton_append] at hstart
    rw [hstart]
    have hcell := hcells cell (List.mem_cons_self ..)
    rcases prefix_append_cases hmore with hmore | ⟨rest, rfl, hrest⟩
    · by_cases hne : more = []
      · subst hne
        exact Or.inr ⟨[[]], .within _ List.nil_prefix, by simp [read, Reader.finish]⟩
      · rcases read_torn_cell d (r := ⟨.gap 0, r.row ++ [text], r.rows⟩) .gap hcell hne hmore with
          ⟨hread, inner, cut, rfl, hcut, htorn⟩ | ⟨cut, hcut, hread⟩
        · refine Or.inl ⟨hread, [], inner, cells, cut, rfl, hcut, ?_⟩
          simp [hsep, ← htorn]
        · exact Or.inr ⟨[cut], .within _ hcut, by rw [hread]; simp⟩
    · obtain ⟨mode, hmode, hread⟩ := read_cell d (r := ⟨.gap 0, r.row ++ [text], r.rows⟩) .gap
        hcell rest
      rw [hread]
      rw [← hsep] at hrest
      rcases ih (r := ⟨mode, r.row ++ [text], r.rows⟩) hmode
          (fun next hnext => hcells next (List.mem_cons_of_mem cell hnext)) hrest with
        ⟨hnone, before, inner, after, cut, rfl, hcut, htorn⟩ | ⟨kept, hkept, hsome⟩
      · refine Or.inl ⟨hnone, cell :: before, inner, after, cut, rfl, hcut, ?_⟩
        have hcons : (cell :: before) ++ [Cell.quoted cut] = cell :: (before ++ [.quoted cut]) := rfl
        rw [hcons, List.flatMap_cons, ← htorn, hsep]
        simp
      · exact Or.inr ⟨cell.text :: kept, hkept.cons _, by rw [hsome]; simp⟩

/-- A row that is cut anywhere is read as its cells up to there, unless that is between the quotes
of one of them. -/
theorem read_torn_row {sep : α} (hsep : d.separator = [sep]) {row : List (Cell α)}
    (hrow : ∀ cell ∈ row, cell.Ok d) (rows : List (List (List α))) {torn : List α}
    (h : torn <+: printRow d row) :
    (read d ⟨.rowStart, [], rows⟩ torn = none ∧ CutInQuotes d (printRow d) row torn) ∨
      ∃ kept, Cut kept (row.map Cell.text) ∧
        read d ⟨.rowStart, [], rows⟩ torn = some ⟨rows, kept⟩ := by
  by_cases hne : torn = []
  · subst hne
    exact Or.inr ⟨[], .nothing _, rfl⟩
  cases row with
  | nil => exact absurd (List.prefix_nil.mp h) hne
  | cons cell cells =>
    have hcell := hrow cell (List.mem_cons_self ..)
    rcases prefix_append_cases h with h | ⟨rest, rfl, hrest⟩
    · rcases read_torn_cell d (r := ⟨.rowStart, [], rows⟩) .rowStart hcell hne h with
        ⟨hread, inner, cut, rfl, hcut, htorn⟩ | ⟨cut, hcut, hread⟩
      · exact Or.inl ⟨hread, [], inner, cells, cut, rfl, hcut, by simpa [printRow] using htorn⟩
      · exact Or.inr ⟨[cut], .within _ hcut, hread⟩
    · obtain ⟨mode, hmode, hread⟩ := read_cell d (r := ⟨.rowStart, [], rows⟩) .rowStart hcell rest
      rw [hread]
      rcases read_torn_cells d hsep (r := ⟨mode, [], rows⟩) hmode
          (fun next hnext => hrow next (List.mem_cons_of_mem cell hnext)) hrest with
        ⟨hnone, before, inner, after, cut, rfl, hcut, htorn⟩ | ⟨kept, hkept, hsome⟩
      · refine Or.inl ⟨hnone, cell :: before, inner, after, cut, rfl, hcut, ?_⟩
        rw [List.cons_append, printRow, List.append_assoc, htorn]
      · exact Or.inr ⟨cell.text :: kept, hkept.cons _, hsome⟩

/-- A file that ends in the middle of a row still gives the rows that are closed before it. -/
theorem decode_torn {sep : α} (hsep : d.separator = [sep]) {t : Table (Cell α)} (ht : t.Ok d)
    {torn : List α} (h : torn <+: printRow d t.last) :
    (decode d (print d ⟨t.rows, []⟩ ++ torn) = none ∧ CutInQuotes d (printRow d) t.last torn) ∨
      ∃ kept, Cut kept t.texts.last ∧
        decode d (print d ⟨t.rows, []⟩ ++ torn) = some ⟨t.texts.rows, kept⟩ := by
  have hread := read_rows d ht.1 [] torn
  rw [List.nil_append] at hread
  have hclosed : decode d (print d ⟨t.rows, []⟩ ++ torn) =
      read d ⟨.rowStart, [], t.texts.rows⟩ torn := by
    refine Eq.trans ?_ hread
    simp [decode, print, printRow]
  rw [hclosed]
  exact read_torn_row d hsep ht.2 _ h

end SysPerf.Rfc4180
