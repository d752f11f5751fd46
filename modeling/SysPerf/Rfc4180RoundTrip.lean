import SysPerf.Rfc4180

namespace SysPerf.Rfc4180

variable {α : Type} (d : Dialect α)

theorem separator_eq_cons : ∃ c cs, d.separator = c :: cs ∧ c ≠ d.quote ∧ c ≠ d.newline := by
  obtain ⟨c, cs, hsep⟩ := List.exists_cons_of_ne_nil d.separator_ne_nil
  have hmem : c ∈ d.separator := by simp [hsep]
  exact ⟨c, cs, hsep, fun h => d.quote_not_mem (h ▸ hmem), fun h => d.newline_not_mem (h ▸ hmem)⟩

variable [DecidableEq α]

@[simp] theorem look_quote (rest : List α) : look d d.quote rest = .quote := by
  simp [look]

@[simp] theorem look_newline (rest : List α) : look d d.newline rest = .newline := by
  simp [look, d.quote_ne_newline.symm]

theorem look_other {c : α} (rest : List α) (hquote : c ≠ d.quote) (hnewline : c ≠ d.newline)
    (hsep : c ∉ d.separator) : look d c rest = .other := by
  obtain ⟨b, bs, heq, _⟩ := separator_eq_cons d
  have hne : b ≠ c := fun h => hsep (by simp [heq, h])
  simp [look, hquote, hnewline, heq, hne]

/-- The characters of a quoted cell are taken over as they are, doubled quotes as one. -/
theorem read_doubled (r : Reader α) (text more rest : List α) :
    read d { r with mode := .quoted text } (doubled d.quote more ++ rest) =
      read d { r with mode := .quoted (text ++ more) } rest := by
  induction more generalizing text with
  | nil => simp [doubled]
  | cons c more ih =>
    have hnext := ih (text ++ [c])
    rw [List.append_assoc, List.singleton_append] at hnext
    rw [← hnext]
    by_cases hquote : c = d.quote
    · subst hquote
      simp [doubled, read, Reader.step]
    · have hlook : ∀ rest, look d c rest ≠ .quote := by
        intro rest
        simp only [look, hquote, if_false]
        split
        · simp
        · split <;> simp
      simp only [doubled, List.flatMap_cons, hquote, if_false,
        List.cons_append, read]
      cases hl : look d c (List.flatMap (fun c => if c = d.quote then [c, c] else [c]) more ++ rest)
      · exact absurd hl (hlook _)
      all_goals simp [Reader.step, hl]

theorem read_bare (r : Reader α) (text more rest : List α)
    (hmore : ∀ c ∈ more, c ≠ d.quote ∧ c ≠ d.newline ∧ c ∉ d.separator) :
    read d { r with mode := .bare text } (more ++ rest) =
      read d { r with mode := .bare (text ++ more) } rest := by
  induction more generalizing text with
  | nil => simp
  | cons c more ih =>
    obtain ⟨hquote, hnewline, hsep⟩ := hmore c (List.mem_cons_self ..)
    have hnext := ih (text ++ [c]) fun b hb => hmore b (List.mem_cons_of_mem c hb)
    rw [List.append_assoc, List.singleton_append] at hnext
    rw [← hnext]
    simp [read, Reader.step, look_other d _ hquote hnewline hsep]

/-- The reader is at the end of a cell. -/
inductive Ended (text : List α) : Mode α → Prop
  | bare : Ended text (.bare text)
  | closed : Ended text (.closed text)

/-- The reader may start a cell. -/
inductive Fresh : Mode α → Prop
  | rowStart : Fresh .rowStart
  | gap : Fresh (.gap 0)

theorem read_cell {r : Reader α} (hr : Fresh r.mode) {cell : Cell α} (h : cell.Ok d)
    (rest : List α) : ∃ mode, Ended cell.text mode ∧
      read d r (cell.print d ++ rest) = read d { r with mode := mode } rest := by
  obtain ⟨mode, row, rows⟩ := r
  cases cell with
  | quoted text =>
    refine ⟨.closed text, .closed, ?_⟩
    have hopen : read d ⟨mode, row, rows⟩ (d.quote :: (doubled d.quote text ++ d.quote :: rest)) =
        read d ⟨.quoted [], row, rows⟩ (doubled d.quote text ++ d.quote :: rest) := by
      cases hr <;> simp [read, Reader.step]
    have hbody := read_doubled d ⟨.quoted [], row, rows⟩ [] text (d.quote :: rest)
    simp only [Cell.print, List.cons_append, List.append_assoc, List.nil_append]
    rw [hopen, hbody]
    simp [read, Reader.step]
  | bare text =>
    obtain ⟨hne, hall⟩ := h
    refine ⟨.bare text, .bare, ?_⟩
    obtain ⟨c, text, rfl⟩ := List.exists_cons_of_ne_nil hne
    obtain ⟨hquote, hnewline, hsep⟩ := hall c (List.mem_cons_self ..)
    have hbody := read_bare d ⟨.bare [c], row, rows⟩ [c] text rest fun b hb =>
      hall b (List.mem_cons_of_mem c hb)
    have hopen : read d ⟨mode, row, rows⟩ (c :: (text ++ rest)) =
        read d ⟨.bare [c], row, rows⟩ (text ++ rest) := by
      cases hr <;> simp [read, Reader.step, look_other d _ hquote hnewline hsep]
    simp only [Cell.print, List.cons_append]
    rw [hopen, hbody, List.singleton_append]

theorem read_gap (r : Reader α) (skipped rest : List α) :
    read d { r with mode := .gap skipped.length } (skipped ++ rest) =
      read d { r with mode := .gap 0 } rest := by
  induction skipped with
  | nil => rfl
  | cons c skipped ih => simpa [read, Reader.step] using ih

/-- A separator ends the cell before it. -/
theorem read_separator {r : Reader α} {text : List α} (hr : Ended text r.mode) (rest : List α) :
    read d r (d.separator ++ rest) = read d ⟨.gap 0, r.row ++ [text], r.rows⟩ rest := by
  obtain ⟨mode, row, rows⟩ := r
  obtain ⟨c, cs, hsep, hquote, hnewline⟩ := separator_eq_cons d
  have hlook : look d c (cs ++ rest) = .separator := by
    simp [look, hquote, hnewline, hsep]
  have hgap := read_gap d ⟨.gap cs.length, row ++ [text], rows⟩ cs rest
  have hlength : d.separator.length - 1 = cs.length := by simp [hsep]
  rw [← hgap, hsep]
  cases hr <;> simp [read, Reader.step, hlook, Reader.endCell, hlength]

theorem read_newline {r : Reader α} {text : List α} (hr : Ended text r.mode) (rest : List α) :
    read d r (d.newline :: rest) =
      read d ⟨.rowStart, [], r.rows ++ [r.row ++ [text]]⟩ rest := by
  obtain ⟨mode, row, rows⟩ := r
  cases hr <;> simp [read, Reader.step, Reader.endRow]

theorem read_cells {r : Reader α} {text : List α} (hr : Ended text r.mode)
    {cells : List (Cell α)} (h : ∀ cell ∈ cells, cell.Ok d) (rest : List α) :
    ∃ mode row last, Ended last mode ∧ r.row ++ text :: cells.map Cell.text = row ++ [last] ∧
      read d r ((cells.flatMap fun next => d.separator ++ next.print d) ++ rest) =
        read d ⟨mode, row, r.rows⟩ rest := by
  induction cells generalizing r text with
  | nil => exact ⟨r.mode, r.row, text, hr, rfl, rfl⟩
  | cons cell cells ih =>
    have hsep := read_separator d hr
      (cell.print d ++ ((cells.flatMap fun next => d.separator ++ next.print d) ++ rest))
    obtain ⟨mode, hmode, hcell⟩ := read_cell d (r := ⟨.gap 0, r.row ++ [text], r.rows⟩) .gap
      (h cell (List.mem_cons_self ..))
      ((cells.flatMap fun next => d.separator ++ next.print d) ++ rest)
    obtain ⟨mode', row, last, hended, htexts, hread⟩ := ih
      (r := ⟨mode, r.row ++ [text], r.rows⟩) hmode
      fun next hnext => h next (List.mem_cons_of_mem cell hnext)
    refine ⟨mode', row, last, hended, by simpa using htexts, ?_⟩
    rw [List.flatMap_cons, List.append_assoc, List.append_assoc, hsep, hcell, hread]

/-- A row that is closed by a newline is read as the texts of its cells. -/
theorem read_row {row : List (Cell α)} (h : ∀ cell ∈ row, cell.Ok d)
    (rows : List (List (List α))) (rest : List α) :
    read d ⟨.rowStart, [], rows⟩ (printRow d row ++ d.newline :: rest) =
      read d ⟨.rowStart, [], rows ++ [row.map Cell.text]⟩ rest := by
  cases row with
  | nil => simp [printRow, read, Reader.step, Reader.endRow]
  | cons cell cells =>
    obtain ⟨mode, hmode, hcell⟩ := read_cell d (r := ⟨.rowStart, [], rows⟩) .rowStart
      (h cell (List.mem_cons_self ..))
      ((cells.flatMap fun next => d.separator ++ next.print d) ++ d.newline :: rest)
    obtain ⟨mode', before, last, hended, htexts, hread⟩ := read_cells d
      (r := ⟨mode, [], rows⟩) hmode
      (fun next hnext => h next (List.mem_cons_of_mem cell hnext)) (d.newline :: rest)
    rw [printRow, List.append_assoc, hcell, hread, read_newline d hended, List.map_cons]
    rw [List.nil_append] at htexts
    rw [htexts]

/-- A row that is not closed is read as the unfinished one. -/
theorem read_last {row : List (Cell α)} (h : ∀ cell ∈ row, cell.Ok d)
    (rows : List (List (List α))) :
    read d ⟨.rowStart, [], rows⟩ (printRow d row) = some ⟨rows, row.map Cell.text⟩ := by
  cases row with
  | nil => rfl
  | cons cell cells =>
    obtain ⟨mode, hmode, hcell⟩ := read_cell d (r := ⟨.rowStart, [], rows⟩) .rowStart
      (h cell (List.mem_cons_self ..)) (cells.flatMap fun next => d.separator ++ next.print d)
    obtain ⟨mode', before, last, hended, htexts, hread⟩ := read_cells d
      (r := ⟨mode, [], rows⟩) hmode
      (fun next hnext => h next (List.mem_cons_of_mem cell hnext)) []
    rw [List.append_nil] at hread
    rw [printRow, hcell, hread, List.map_cons]
    rw [List.nil_append] at htexts
    rw [htexts]
    cases hended <;> rfl

theorem read_rows {rows : List (List (Cell α))} (h : ∀ row ∈ rows, ∀ cell ∈ row, cell.Ok d)
    (before : List (List (List α))) (rest : List α) :
    read d ⟨.rowStart, [], before⟩
        ((rows.flatMap fun row => printRow d row ++ [d.newline]) ++ rest) =
      read d ⟨.rowStart, [], before ++ rows.map fun row => row.map Cell.text⟩ rest := by
  induction rows generalizing before with
  | nil => simp
  | cons row rows ih =>
    rw [List.flatMap_cons, List.append_assoc, List.append_assoc, List.singleton_append,
      read_row d (h row (List.mem_cons_self ..)),
      ih fun next hnext => h next (List.mem_cons_of_mem row hnext)]
    simp

theorem printRow_snoc (row : List (Cell α)) (cell : Cell α) :
    printRow d (row ++ [cell]) =
      printRow d row ++ (if row = [] then [] else d.separator) ++ cell.print d := by
  cases row with
  | nil => simp [printRow]
  | cons first row => simp [printRow]

theorem print_snoc_cell (t : Table (Cell α)) (cell : Cell α) :
    print d { t with last := t.last ++ [cell] } =
      print d t ++ (if t.last = [] then [] else d.separator) ++ cell.print d := by
  simp [print, printRow_snoc]

theorem print_snoc_row (t : Table (Cell α)) :
    print d ⟨t.rows ++ [t.last], []⟩ = print d t ++ [d.newline] := by
  simp [print, printRow]

theorem doubled_append (quote : α) (xs ys : List α) :
    doubled quote (xs ++ ys) = doubled quote xs ++ doubled quote ys := by
  simp [doubled]

theorem doubled_eq_self {quote : α} {text : List α} (h : quote ∉ text) :
    doubled quote text = text := by
  induction text with
  | nil => rfl
  | cons c text ih =>
    obtain ⟨hc, htext⟩ := not_or.mp (List.mem_cons.not.mp h)
    have hrest := ih htext
    simp only [doubled] at hrest
    simp [doubled, Ne.symm hc, hrest]

/-- What is printed can be read back. -/
theorem decode_print {t : Table (Cell α)} (h : t.Ok d) : decode d (print d t) = some t.texts := by
  rw [decode, print, read_rows d h.1, read_last d h.2]
  rfl

theorem print_injective {t u : Table (Cell α)} (ht : t.Ok d) (hu : u.Ok d)
    (h : print d t = print d u) : t.texts = u.texts := by
  have hread := decode_print d ht
  rw [h, decode_print d hu] at hread
  exact (Option.some.inj hread).symm

end SysPerf.Rfc4180
