import SysPerf.CsvFileRoundTrip
import SysPerf.Machine
import SysPerf.Rfc4180Torn

namespace SysPerf.CsvFile

open Rfc4180

/-- The stream writes out the first `count` characters that it buffers. -/
def State.spill (s : State) (count : ℕ) : State :=
  { s with buffer := s.buffer.drop count, disk := s.disk ++ s.buffer.take count }

inductive Move
  | op (o : Op)
  | spill (count : ℕ)

/-- A `csvfile` under any operations, whose stream may write out what it buffers at any moment.
The observations are the operations. -/
def object (sep : Separator) : Machine State Move Op where
  init := start
  step s
    | .op o => (step sep s o).map fun t => (t, [o])
    | .spill count => some (s.spill count, [])

variable {sep : Separator}

/-- The rows that `endrow` has closed are on disk. -/
structure State.Durable (sep : Separator) (s : State) (t : Table (Cell Char)) : Prop
    extends s.Matches sep t where
  rows : print sep.dialect ⟨t.rows, []⟩ <+: s.disk

theorem start_durable : start.Durable sep ⟨[], []⟩ :=
  ⟨⟨by simp [start], rfl⟩, List.prefix_refl _⟩

theorem spill_durable {s : State} {t : Table (Cell Char)} (hs : s.Durable sep t) (count : ℕ) :
    (s.spill count).Durable sep t := by
  refine ⟨⟨hs.isFirst, ?_⟩, hs.rows.trans (List.prefix_append ..)⟩
  rw [← hs.bytes]
  simp [State.spill]

/-- Whatever is on disk stays there, and an operation that flushes adds all that was inserted. -/
theorem step_disk {s s' : State} {op : Op} (h : step sep s op = some s') :
    s.disk <+: s'.disk ∧ (op = .endrow ∨ op = .flush → s'.buffer = []) := by
  cases op with
  | text val =>
    obtain ⟨_, _, rfl⟩ := Option.map_eq_some_iff.mp h
    exact ⟨by unfold State.write; split <;> exact List.prefix_refl _, by simp⟩
  | raw printed =>
    obtain rfl := Option.some.inj h
    exact ⟨by unfold State.write; split <;> exact List.prefix_refl _, by simp⟩
  | endrow =>
    obtain rfl := Option.some.inj h
    exact ⟨List.prefix_append .., fun _ => rfl⟩
  | flush =>
    obtain rfl := Option.some.inj h
    exact ⟨List.prefix_append .., fun _ => rfl⟩

theorem step_durable {s : State} {t : Table (Cell Char)} (hs : s.Durable sep t) (op : Op) :
    ∃ s', step sep s op = some s' ∧ s'.Durable sep (addOp t op) := by
  obtain ⟨s', h, hmatches⟩ := step_matches hs.toMatches op
  obtain ⟨hdisk, hflushes⟩ := step_disk h
  refine ⟨s', h, hmatches, ?_⟩
  cases op with
  | text val => exact hs.rows.trans hdisk
  | raw printed => exact hs.rows.trans hdisk
  | endrow =>
    have hbytes := hmatches.bytes
    rw [hflushes (Or.inl rfl), List.append_nil] at hbytes
    exact hbytes ▸ List.prefix_refl _
  | flush => exact hs.rows.trans hdisk

theorem written_snoc (ops : List Op) (op : Op) : written (ops ++ [op]) = addOp (written ops) op := by
  simp [written]

theorem reach_durable {ops : List Op} {s : State} (h : Reach (object sep) ops s) :
    s.Durable sep (written ops) := by
  refine h.history (P := fun ops s => s.Durable sep (written ops)) start_durable ?_
  intro ops s e t out hs hstep
  cases e with
  | op o =>
    obtain ⟨t', hstep', heq⟩ := Option.map_eq_some_iff.mp hstep
    obtain ⟨rfl, rfl⟩ := Prod.mk.inj heq
    obtain ⟨t', hnext, hdurable⟩ := step_durable hs o
    obtain rfl := Option.some.inj (hnext.symm.trans hstep')
    rw [written_snoc]
    exact hdurable
  | spill count =>
    obtain ⟨rfl, rfl⟩ := Prod.mk.inj (Option.some.inj hstep)
    rw [List.append_nil]
    exact spill_durable hs count

/-- What was inserted before a flush is on disk, and no later move takes it away. -/
theorem reach_flushed {ops : List Op} {s : State} (h : Reach (object sep) ops s) :
    ∀ before after, ops = before ++ .flush :: after →
      print sep.dialect (written before) <+: s.disk := by
  refine (h.history (P := fun ops s => s.Durable sep (written ops) ∧ ∀ before after,
    ops = before ++ .flush :: after → print sep.dialect (written before) <+: s.disk)
    ⟨start_durable, by simp⟩ ?_).2
  intro ops s e t out ⟨hs, hflushed⟩ hstep
  cases e with
  | op o =>
    obtain ⟨t', hstep', heq⟩ := Option.map_eq_some_iff.mp hstep
    obtain ⟨rfl, rfl⟩ := Prod.mk.inj heq
    obtain ⟨t', hnext, hdurable⟩ := step_durable hs o
    obtain rfl := Option.some.inj (hnext.symm.trans hstep')
    obtain ⟨hdisk, hflushes⟩ := step_disk hnext
    refine ⟨by rw [written_snoc]; exact hdurable, fun before after hops => ?_⟩
    rcases List.eq_nil_or_concat after with rfl | ⟨after, last, rfl⟩
    · obtain ⟨rfl, hlast⟩ := List.append_inj' hops rfl
      obtain rfl : o = .flush := List.singleton_inj.mp hlast
      have hbytes := hdurable.bytes
      rw [hflushes (Or.inr rfl), List.append_nil] at hbytes
      exact hbytes ▸ List.prefix_refl _
    · have hops : ops ++ [o] = (before ++ .flush :: after) ++ [last] := by simpa using hops
      obtain ⟨hops, -⟩ := List.append_inj' hops rfl
      exact (hflushed before after hops).trans hdisk
  | spill count =>
    obtain ⟨rfl, rfl⟩ := Prod.mk.inj (Option.some.inj hstep)
    rw [List.append_nil]
    exact ⟨spill_durable hs count, fun before after hops =>
      (hflushed before after hops).trans (List.prefix_append ..)⟩

theorem State.Durable.torn {s : State} {t : Table (Cell Char)} (hs : s.Durable sep t) :
    ∃ torn, s.disk = print sep.dialect ⟨t.rows, []⟩ ++ torn ∧
      torn <+: printRow sep.dialect t.last := by
  obtain ⟨torn, htorn⟩ := hs.rows
  have hbytes := hs.bytes
  have hsplit : print sep.dialect t =
      print sep.dialect ⟨t.rows, []⟩ ++ printRow sep.dialect t.last := by
    simp [print, printRow]
  rw [← htorn, hsplit, List.append_assoc] at hbytes
  exact ⟨torn, htorn.symm, s.buffer, List.append_cancel_left hbytes⟩

/-- Between two rows nothing is left in the stream. -/
theorem State.Durable.closed {s : State} {t : Table (Cell Char)} (hs : s.Durable sep t)
    (hlast : t.last = []) : s.buffer = [] ∧ s.disk = print sep.dialect t := by
  obtain ⟨torn, hdisk, htorn⟩ := hs.torn
  rw [hlast] at htorn
  obtain rfl := List.prefix_nil.mp htorn
  obtain ⟨rows, last⟩ := t
  obtain rfl : last = [] := hlast
  have hbytes := hs.bytes
  rw [List.append_nil] at hdisk
  rw [hdisk] at hbytes
  exact ⟨List.append_right_eq_self.mp hbytes, hdisk⟩

/-- The file ends between the quotes of a cell of the unfinished row: one quote more would end it
with the cells before that one and the beginning of it. -/
def EndsInQuotes (sep : Separator) (t : Table (Cell Char)) (disk : List Char) : Prop :=
  ∃ before text after cut, t.last = before ++ .quoted text :: after ∧ cut <+: text ∧
    disk ++ [dquote] = print sep.dialect ⟨t.rows, before ++ [.quoted cut]⟩

theorem ends_in_quotes {t : Table (Cell Char)} {disk torn : List Char}
    (hdisk : disk = print sep.dialect ⟨t.rows, []⟩ ++ torn)
    (h : CutInQuotes sep.dialect (printRow sep.dialect) t.last torn) : EndsInQuotes sep t disk := by
  obtain ⟨before, text, after, cut, hlast, hcut, htorn⟩ := h
  refine ⟨before, text, after, cut, hlast, hcut, ?_⟩
  have htorn : torn ++ [dquote] = printRow sep.dialect (before ++ [.quoted cut]) := htorn
  rw [hdisk, List.append_assoc, htorn]
  simp [print, printRow]

/-- For a separator of one character, and raw cells that are not empty and without quotes, newlines
and separators: wherever a run is broken off, the file is the beginning of what was written, it has
all the rows that are closed and all that was inserted before a flush, and it is read as these rows
and at most the cells of the row that was being written, of which the last may have lost its end.
Only a file that ends between the quotes of a cell cannot be read. -/
theorem crash_keeps_rows {c : Char} (hsep : sep.chars = [c]) {ops : List Op} {s : State}
    (h : Reach (object sep) ops s) (hops : ∀ op ∈ ops, op.Ok sep) :
    s.disk <+: print sep.dialect (written ops) ∧
      print sep.dialect ⟨(written ops).rows, []⟩ <+: s.disk ∧
      (∀ before after, ops = before ++ .flush :: after →
        print sep.dialect (written before) <+: s.disk) ∧
      ((decode sep.dialect s.disk = none ∧ EndsInQuotes sep (written ops) s.disk) ∨
        ∃ kept, Cut kept (written ops).texts.last ∧
          decode sep.dialect s.disk = some ⟨(written ops).texts.rows, kept⟩) := by
  have hdurable := reach_durable h
  obtain ⟨torn, hdisk, htorn⟩ := hdurable.torn
  refine ⟨⟨s.buffer, hdurable.bytes⟩, hdurable.rows, reach_flushed h, ?_⟩
  rcases decode_torn sep.dialect hsep (written_ok hops) htorn with ⟨hnone, hcut⟩ | hsome
  · exact Or.inl ⟨hdisk ▸ hnone, ends_in_quotes hdisk hcut⟩
  · exact Or.inr (hdisk ▸ hsome)

/-- The second row has its first cell on disk and the first quote of its second one. -/
def tornFile : State :=
  ⟨false, ['a', dquote], ['7', '\n', '1', '2', ',', dquote]⟩

theorem reach_tornFile :
    Reach (object .comma) [.raw ['7'], .endrow, .raw ['1', '2'], .text ['a']] tornFile :=
  reach_of_exec [.op (.raw ['7']), .op .endrow, .op (.raw ['1', '2']), .op (.text ['a']), .spill 4]
    (by rfl)

theorem crash_keeps_rows_sample : ['7', '\n'] <+: tornFile.disk ∧
    EndsInQuotes .comma ⟨[[.bare ['7']]], [.bare ['1', '2'], .quoted ['a']]⟩ tornFile.disk := by
  obtain ⟨-, hrows, -, ⟨-, hquotes⟩ | ⟨kept, -, hread⟩⟩ :=
    crash_keeps_rows rfl reach_tornFile (by simp [Op.Ok, Separator.comma, dquote])
  · exact ⟨hrows, hquotes⟩
  · have hnone : decode Separator.comma.dialect tornFile.disk = none := by decide
    simp [hnone] at hread

end SysPerf.CsvFile
