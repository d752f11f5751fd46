import SysPerf.CsvFile

namespace SysPerf.CsvFile

open Rfc4180

variable {sep : Separator}

theorem findFirstOf_none {val : List Char} {start : ℕ}
    (h : findFirstOf val specialChars start = none) : dquote ∉ val.drop start := by
  intro hmem
  have hnone := List.findIdx?_eq_none_iff.mp (Option.map_eq_none_iff.mp h) dquote hmem
  simp [specialChars] at hnone

/-- The search stops at the first quote from `start` on. -/
theorem findFirstOf_some {val : List Char} {start stop : ℕ}
    (h : findFirstOf val specialChars start = some stop) :
    start ≤ stop ∧ val[stop]? = some dquote ∧ ∃ piece, dquote ∉ piece ∧
      piece = (val.drop start).take (stop - start) ∧
      val.drop start = piece ++ dquote :: val.drop (stop + 1) := by
  obtain ⟨k, hk, rfl⟩ := Option.map_eq_some_iff.mp h
  obtain ⟨hlt, hat, hbefore⟩ := List.findIdx?_eq_some_iff_getElem.mp hk
  have hquote : (val.drop start)[k] = dquote := by simpa [specialChars] using hat
  have hget : val[start + k]? = some dquote := by
    rw [← List.getElem?_drop, List.getElem?_eq_getElem hlt, hquote]
  have hsub : start + k - start = k := by omega
  refine ⟨Nat.le_add_right .., hget, (val.drop start).take k, ?_, by rw [hsub], ?_⟩
  · intro hmem
    obtain ⟨j, hj, hjk⟩ := List.mem_iff_getElem.mp hmem
    rw [List.getElem_take] at hjk
    have hjlt : j < k := by simp only [List.length_take] at hj; omega
    exact hbefore j hjlt (by simp [specialChars, hjk])
  · rw [← hquote, show start + k + 1 = start + (k + 1) by omega, ← List.drop_drop,
      List.getElem_cons_drop, List.take_append_drop]

/-- The loop stops within its string and has copied what is before that with its quotes
doubled; there is no quote in the rest. -/
theorem escapeLoop_spec {val : List Char} {fuel start : ℕ} (result : List Char)
    (hstart : start ≤ val.length) (hfuel : val.length - start < fuel) :
    ∃ stop copied, escapeLoop val fuel start result = some (stop, copied) ∧
      stop ≤ val.length ∧ copied ++ val.drop stop = result ++ doubled dquote (val.drop start) := by
  induction fuel generalizing start result with
  | zero => exact absurd hfuel (Nat.not_lt_zero _)
  | succ fuel ih =>
    rw [escapeLoop]
    split
    next hlt =>
      split
      next stop hfind =>
        obtain ⟨hle, hget, piece, hpiece, htake, hdrop⟩ := findFirstOf_some hfind
        have hstop : stop < val.length := (List.getElem?_eq_some_iff.mp hget).1
        obtain ⟨last, copied, hloop, hlast, hcopied⟩ := ih
          (result ++ piece ++ escapeSeq ++ [dquote]) (Nat.succ_le_of_lt hstop) (by omega)
        have hsubstr : substr val start (some (stop - start)) = some piece := by
          simp [substr, hstart, htake]
        refine ⟨last, copied, ?_, hlast, ?_⟩
        · rw [hsubstr, hget]
          exact hloop
        · rw [hcopied, hdrop, doubled_append, doubled_eq_self hpiece]
          simp [doubled, escapeSeq]
      next hfind =>
        exact ⟨start, result, rfl, hstart, by rw [doubled_eq_self (findFirstOf_none hfind)]⟩
    next hlt =>
      have hend : val.drop start = [] := List.drop_eq_nil_of_le (by omega)
      exact ⟨start, result, rfl, hstart, by rw [hend]; rfl⟩

/-- No call has a position behind the end. -/
theorem substrPositions_le {val : List Char} {fuel start : ℕ} (hstart : start ≤ val.length) :
    ∀ pos ∈ substrPositions val fuel start, pos ≤ val.length := by
  induction fuel generalizing start with
  | zero => exact fun pos hpos => nomatch hpos
  | succ fuel ih =>
    intro pos hpos
    rw [substrPositions] at hpos
    split at hpos
    next =>
      split at hpos
      next stop hfind =>
        obtain ⟨-, hget, -⟩ := findFirstOf_some hfind
        have hstop : stop < val.length := (List.getElem?_eq_some_iff.mp hget).1
        rcases List.mem_cons.mp hpos with rfl | hpos
        · exact hstart
        · exact ih (Nat.succ_le_of_lt hstop) pos hpos
      next =>
        obtain rfl := List.mem_singleton.mp hpos
        exact hstart
    next =>
      obtain rfl := List.mem_singleton.mp hpos
      exact hstart

theorem escape_eq (sep : Separator) (val : List Char) :
    escape val = some ((Cell.quoted val).print sep.dialect) := by
  obtain ⟨stop, copied, hloop, hstop, hcopied⟩ :=
    escapeLoop_spec [dquote] (Nat.zero_le _) (Nat.lt_succ_self val.length)
  rw [escape, hloop]
  simp only [Option.bind_some, substr, hstop, if_true, Option.map_some, hcopied, List.drop_zero]
  rfl

/-- More fuel than the loop needs changes nothing. -/
theorem escapeLoop_mono {val : List Char} {fuel more start : ℕ} {result : List Char}
    {r : ℕ × List Char} (h : escapeLoop val fuel start result = some r) (hle : fuel ≤ more) :
    escapeLoop val more start result = some r := by
  induction fuel generalizing more start result with
  | zero => cases h
  | succ fuel ih =>
    obtain ⟨more, rfl⟩ := Nat.exists_eq_succ_of_ne_zero (by omega : more ≠ 0)
    rw [escapeLoop] at h ⊢
    split at h
    next hlt =>
      rw [if_pos hlt]
      split at h
      next stop hfind =>
        obtain ⟨piece, hpiece, h⟩ := Option.bind_eq_some_iff.mp h
        obtain ⟨c, hc, h⟩ := Option.bind_eq_some_iff.mp h
        rw [hpiece, Option.bind_some, hc, Option.bind_some]
        exact ih h (by omega)
      next hfind => exact h
    next hlt =>
      rw [if_neg hlt]
      exact h

/-- The loop ends after at most one turn for each character and one more, no call of `substr` in it
or behind it throws, and the string comes out in quotes with its own quotes doubled. -/
theorem escape_total (val : List Char) :
    (∃ stop copied, stop ≤ val.length ∧ ∀ fuel, val.length < fuel →
      escapeLoop val fuel 0 [dquote] = some (stop, copied)) ∧
    (∀ fuel, ∀ pos ∈ substrPositions val fuel 0, pos ≤ val.length) ∧
    escape val = some (dquote :: doubled dquote val ++ [dquote]) := by
  refine ⟨?_, fun fuel => substrPositions_le (Nat.zero_le _), escape_eq Separator.comma val⟩
  obtain ⟨stop, copied, hloop, hstop, -⟩ :=
    escapeLoop_spec [dquote] (Nat.zero_le _) (Nat.lt_succ_self val.length)
  exact ⟨stop, copied, hstop, fun fuel hfuel => escapeLoop_mono hloop hfuel⟩

/-- The object has written the table and knows whether the row it is in is empty. -/
structure State.Matches (sep : Separator) (s : State) (t : Table (Cell Char)) : Prop where
  isFirst : s.isFirst = true ↔ t.last = []
  bytes : s.disk ++ s.buffer = print sep.dialect t

theorem write_matches {s : State} {t : Table (Cell Char)} (hs : s.Matches sep t)
    (cell : Cell Char) : (s.write sep (cell.print sep.dialect)).Matches sep
      { t with last := t.last ++ [cell] } := by
  have hbytes := hs.bytes
  cases hfirst : s.isFirst with
  | true =>
    have hlast := hs.isFirst.mp hfirst
    refine ⟨by simp [State.write, hfirst, State.insert], ?_⟩
    rw [print_snoc_cell, ← hbytes]
    simp [State.write, hfirst, State.insert, hlast]
  | false =>
    have hlast : t.last ≠ [] := fun h => by simp [hs.isFirst.mpr h] at hfirst
    refine ⟨by simp [State.write, hfirst, State.insert], ?_⟩
    rw [print_snoc_cell, ← hbytes]
    simp [State.write, hfirst, State.insert, hlast, Separator.dialect]

theorem step_matches {s : State} {t : Table (Cell Char)} (hs : s.Matches sep t) (op : Op) :
    ∃ s', step sep s op = some s' ∧ s'.Matches sep (addOp t op) := by
  cases op with
  | text val => exact ⟨_, by rw [step, escape_eq sep]; rfl, write_matches hs (.quoted val)⟩
  | raw printed => exact ⟨_, rfl, write_matches hs (.bare printed)⟩
  | endrow =>
    refine ⟨_, rfl, by simp [State.endrow, addOp], ?_⟩
    rw [addOp, print_snoc_row, ← hs.bytes]
    simp [State.endrow, State.insert, State.flush, Separator.dialect]
  | flush => exact ⟨_, rfl, hs.isFirst, by simpa [State.flush, addOp] using hs.bytes⟩

theorem run_matches {s : State} {t : Table (Cell Char)} (hs : s.Matches sep t) (ops : List Op) :
    ∃ s', ops.foldlM (step sep) s = some s' ∧ s'.Matches sep (ops.foldl addOp t) := by
  induction ops generalizing s t with
  | nil => exact ⟨s, rfl, hs⟩
  | cons op ops ih =>
    obtain ⟨mid, hmid, hmatches⟩ := step_matches hs op
    obtain ⟨s', hs', hend⟩ := ih hmatches
    exact ⟨s', by simp [hmid, hs'], hend⟩

/-- The file is the printed form of the table. -/
theorem output_eq (sep : Separator) (ops : List Op) :
    output sep ops = some (print sep.dialect (written ops)) := by
  have hstart : start.Matches sep ⟨[], []⟩ := ⟨by simp [start], rfl⟩
  obtain ⟨s, hs, hmatches⟩ := run_matches hstart ops
  have hfile : s.file = print sep.dialect (written ops) := hmatches.bytes
  rw [output, run, hs, Option.map_some, hfile]

theorem addOp_ok {t : Table (Cell Char)} (ht : t.Ok sep.dialect) {op : Op} (hop : op.Ok sep) :
    (addOp t op).Ok sep.dialect := by
  obtain ⟨hrows, hlast⟩ := ht
  cases op with
  | text val =>
    refine ⟨hrows, fun cell hcell => ?_⟩
    rcases List.mem_append.mp hcell with hcell | hcell
    · exact hlast cell hcell
    · obtain rfl := List.mem_singleton.mp hcell
      trivial
  | raw printed =>
    refine ⟨hrows, fun cell hcell => ?_⟩
    rcases List.mem_append.mp hcell with hcell | hcell
    · exact hlast cell hcell
    · obtain rfl := List.mem_singleton.mp hcell
      exact hop
  | endrow =>
    refine ⟨fun row hrow => ?_, by simp [addOp]⟩
    rcases List.mem_append.mp hrow with hrow | hrow
    · exact hrows row hrow
    · obtain rfl := List.mem_singleton.mp hrow
      exact hlast
  | flush => exact ⟨hrows, hlast⟩

theorem written_ok {ops : List Op} (hops : ∀ op ∈ ops, op.Ok sep) :
    (written ops).Ok sep.dialect := by
  have hall : ∀ t : Table (Cell Char), t.Ok sep.dialect → (ops.foldl addOp t).Ok sep.dialect := by
    induction ops with
    | nil => exact fun t ht => ht
    | cons op ops ih =>
      intro t ht
      exact ih (fun next hnext => hops next (List.mem_cons_of_mem op hnext)) _
        (addOp_ok ht (hops op (List.mem_cons_self ..)))
  exact hall _ ⟨by simp, by simp⟩

theorem csv_round_trip {ops : List Op} (hops : ∀ op ∈ ops, op.Ok sep) :
    (∃ bytes, output sep ops = some bytes ∧
      decode sep.dialect bytes = some (written ops).texts) ∧
      ∀ others : List Op, (∀ op ∈ others, op.Ok sep) →
        (written ops).texts ≠ (written others).texts → output sep ops ≠ output sep others := by
  refine ⟨⟨_, output_eq sep ops, decode_print _ (written_ok hops)⟩, fun others hothers hne => ?_⟩
  rw [output_eq, output_eq]
  intro heq
  exact hne (print_injective _ (written_ok hops) (written_ok hothers) (Option.some.inj heq))

/-- A row with a quote in its text and an unfinished one. -/
def sampleOps : List Op :=
  [.raw ['7'], .text ['a', dquote, ','], .endrow, .flush, .text []]

theorem csv_round_trip_sample : ∃ bytes, output .comma sampleOps = some bytes ∧
    decode Separator.comma.dialect bytes = some ⟨[[['7'], ['a', dquote, ',']]], [[]]⟩ := by
  have hok : ∀ op ∈ sampleOps, op.Ok .comma := by
    simp [sampleOps, Op.Ok, Separator.comma, dquote]
  exact (csv_round_trip hok).1

end SysPerf.CsvFile
