import SysPerf.BenchReportCalls
import SysPerf.CsvFileCrash

namespace SysPerf.BenchReport

open CsvFile CtxSwitchKernel Dispersion MachineInt Program RamAccess

section

variable {K : Type} [Field K] (sqrt : K → K) (d : DoubleCell K) (ring : Bench → Call)

/-- The rows of the file. -/
def table (ms : List (Measured K)) : Rfc4180.Table (Rfc4180.Cell Char) :=
  ⟨headerTexts.map .quoted :: ms.map fun m => (m.texts sqrt d).map .bare, []⟩

theorem foldl_rowOps (texts : List Text) (t : Rfc4180.Table (Rfc4180.Cell Char)) :
    (rowOps texts).foldl addOp t = ⟨t.rows ++ [t.last ++ texts.map .bare], []⟩ := by
  unfold rowOps
  induction texts generalizing t with
  | nil => simp [addOp]
  | cons text texts ih => simpa [addOp] using ih { t with last := t.last ++ [.bare text] }

theorem written_reportOps (ms : List (Measured K)) :
    written (reportOps sqrt d ms) = table sqrt d ms := by
  have hrows : ∀ rows, (ms.flatMap fun m => rowOps (m.texts sqrt d)).foldl addOp ⟨rows, []⟩ =
      ⟨rows ++ ms.map fun m => (m.texts sqrt d).map .bare, []⟩ := by
    induction ms with
    | nil => intro rows; simp
    | cons m ms ih =>
      intro rows
      rw [List.flatMap_cons, List.foldl_append, foldl_rowOps, List.nil_append, ih]
      simp
  unfold written reportOps
  rw [List.foldl_append]
  exact hrows [headerTexts.map .quoted]

theorem printInt_plain {z : ℤ} {c : Char} (h : c ∈ printInt z) :
    c ≠ dquote ∧ c ≠ '\n' ∧ c ≠ ',' := by
  have hdigit : ∀ n : ℕ, c ∈ Nat.toDigits 10 n → c.isDigit := fun n hc =>
    Nat.isDigit_of_mem_toDigits (by omega) (by omega) hc
  have hplain : c.isDigit → c ≠ dquote ∧ c ≠ '\n' ∧ c ≠ ',' := by
    intro hc
    refine ⟨?_, ?_, ?_⟩ <;> rintro rfl <;> revert hc <;> decide
  unfold printInt at h
  split at h
  next n => exact hplain (hdigit n h)
  next n =>
    rcases List.mem_cons.mp h with rfl | h
    · decide
    · exact hplain (hdigit _ h)

theorem raw_ok {printed : Text} (hne : printed ≠ [])
    (hplain : ∀ c ∈ printed, c ≠ dquote ∧ c ≠ '\n' ∧ c ≠ ',') :
    (CsvFile.Op.raw printed).Ok .comma :=
  ⟨hne, fun c hc => ⟨(hplain c hc).1, (hplain c hc).2.1,
    by simpa [Separator.comma] using (hplain c hc).2.2⟩⟩

theorem texts_ok (m : Measured K) : ∀ op ∈ rowOps (m.texts sqrt d), op.Ok .comma := by
  have hint : ∀ z, (CsvFile.Op.raw (printInt z)).Ok .comma := fun z =>
    raw_ok (printInt_ne_nil z) fun _ => printInt_plain
  have hdouble : ∀ x, (CsvFile.Op.raw (d.print x)).Ok .comma := fun x =>
    raw_ok (d.print_ne_nil x) (d.print_plain x)
  have htexts : ∀ text ∈ m.texts sqrt d, (CsvFile.Op.raw text).Ok .comma := by
    simp [Measured.texts, hint, hdouble]
  intro op hop
  rcases List.mem_append.mp hop with hop | hop
  · obtain ⟨text, htext, rfl⟩ := List.mem_map.mp hop
    exact htexts text htext
  · obtain rfl := List.mem_singleton.mp hop
    trivial

theorem reportOps_ok (ms : List (Measured K)) : ∀ op ∈ reportOps sqrt d ms, op.Ok .comma := by
  intro op hop
  rcases List.mem_append.mp hop with hop | hop
  · obtain ⟨text, -, rfl⟩ := List.mem_map.mp hop
    trivial
  · rcases List.mem_cons.mp hop with rfl | hop
    · trivial
    · obtain ⟨m, -, hop⟩ := List.mem_flatMap.mp hop
      exact texts_ok sqrt d m op hop

/-- Between two rows the file has all that was written. -/
theorem decode_reportOps {ms : List (Measured K)} {s : CsvFile.State}
    (h : Reach (object .comma) (reportOps sqrt d ms) s) :
    s.buffer = [] ∧ Rfc4180.decode Separator.comma.dialect s.disk =
      some ⟨headerTexts :: ms.map fun m => m.texts sqrt d, []⟩ := by
  have hdurable := reach_durable h
  have hok := written_ok (reportOps_ok sqrt d ms)
  rw [written_reportOps] at hdurable hok
  obtain ⟨hbuffer, hdisk⟩ := hdurable.closed rfl
  refine ⟨hbuffer, ?_⟩
  rw [hdisk, Rfc4180.decode_print _ hok]
  simp [table, Rfc4180.Table.texts, Rfc4180.Cell.text, Function.comp_def]

/-- `main` of a context switch benchmark under all answers of its calls, with a stream that writes
out what it buffers whenever it likes. -/
def report (p : Plan) :=
  attach (benchMain sqrt d ring p) (object .comma)

/-- In every run the calls are those of the plan, in its order. Whenever one of them is running,
nothing is left in the stream and the file has the header and one row for each configuration
measured so far, of exactly the times it was measured with; at the end it has a row for each
configuration of the plan. -/
theorem report_rows {p : Plan} (hruns : 0 < p.runs) (hfits : Fits p)
    {tr : List (Event Call K Op)} {q : Main K} {s : CsvFile.State}
    (h : Reach (report sqrt d ring p) tr (q, s)) :
    asked tr <+: calls ring p ∧ q ≠ .undefined ∧
      (∀ func next, q = .ask func next → (calls ring p)[(asked tr).length]? = some func ∧
        s.buffer = [] ∧ Rfc4180.decode Separator.comma.dialect s.disk = some ⟨headerTexts ::
          (finished p.runs (configs p) (answers tr)).map fun m => m.texts sqrt d, []⟩) ∧
      (q = .halt → asked tr = calls ring p ∧
        (finished p.runs (configs p) (answers tr)).map Measured.bench = configs p ∧
        s.buffer = [] ∧ Rfc4180.decode Separator.comma.dialect s.disk = some ⟨headerTexts ::
          (finished p.runs (configs p) (answers tr)).map fun m => m.texts sqrt d, []⟩) := by
  obtain ⟨hemits, hasked, hrest⟩ := play_benchMain sqrt d ring hruns hfits (answers tr)
  have hfile : q.Waits → s.buffer = [] ∧ Rfc4180.decode Separator.comma.dialect s.disk =
      some ⟨headerTexts ::
        (finished p.runs (configs p) (answers tr)).map fun m => m.texts sqrt d, []⟩ := by
    intro hq
    have hdevice := reach_device h
    rw [reach_waits h hq] at hemits
    rw [hemits] at hdevice
    exact decode_reportOps sqrt d hdevice
  refine ⟨?_, ?_, ?_, ?_⟩
  · have hplay := reach_play h []
    rw [List.append_nil] at hplay
    rw [hplay, asked_append] at hasked
    exact (List.prefix_append _ _).trans (hasked ▸ List.take_prefix _ _)
  · rintro rfl
    rw [reach_waits h trivial] at hrest
    rcases hrest with ⟨hhalt, -⟩ | ⟨func, next, hask, -⟩
    · cases hhalt
    · cases hask
  · rintro func next rfl
    rw [reach_waits h trivial] at hrest
    rcases hrest with ⟨hhalt, -⟩ | ⟨func', next', hask, hnext⟩
    · cases hhalt
    · cases hask
      exact ⟨by rw [length_asked, hnext], hfile trivial⟩
  · rintro rfl
    rw [reach_waits h trivial] at hrest hasked
    rcases hrest with ⟨-, hbenches, hlength⟩ | ⟨func, next, hask, -⟩
    · exact ⟨by rw [hasked, List.take_of_length_le hlength], hbenches, hfile trivial⟩
    · cases hask

end

/-- One configuration, measured once. -/
def smallPlan : Plan :=
  ⟨Plan.source.pipeSize.take 1, [512], 1, 100⟩

def smallDouble : DoubleCell ℚ where
  print x := printInt x.num
  print_ne_nil x := printInt_ne_nil x.num
  print_plain _ _ := printInt_plain

def smallRoot (x : ℚ) : ℚ :=
  x.num.toNat.sqrt

def smallMoves : List (Program.Move ℚ CsvFile.Move) :=
  headerTexts.map (fun text => .device (.op (.text text))) ++
    [.device (.op .endrow), .act, .answer 3, .device (.spill 4), .answer 5,
      .device (.op (.raw ['2'])), .device (.op (.raw ['2'])), .device (.op (.raw ['3'])),
      .device (.spill 1), .device (.op (.raw ['5'])), .device (.op (.raw ['2'])),
      .device (.op (.raw ['0'])), .device (.op .endrow)]

theorem smallRun :
    ∃ tr s, Reach (report smallRoot smallDouble .totalPass smallPlan) tr (.halt, s) := by
  have hrun : (((report smallRoot smallDouble .totalPass smallPlan).exec
      (report smallRoot smallDouble .totalPass smallPlan).init smallMoves).any fun r =>
        match r.1.1 with
        | .halt => true
        | _ => false) = true := by
    decide +kernel
  obtain ⟨⟨⟨q, s⟩, tr⟩, hexec, hhalt⟩ := (Option.any_eq_true _ _).mp hrun
  cases q with
  | halt => exact ⟨tr, s, reach_of_exec _ hexec⟩
  | _ => simp at hhalt

theorem report_rows_small : ∃ tr s,
    Reach (report smallRoot smallDouble .totalPass smallPlan) tr (.halt, s) ∧
      asked tr = [.overhead ⟨2, by decide, 512, 100⟩, .totalPass ⟨2, by decide, 512, 100⟩] ∧
      s.buffer = [] := by
  obtain ⟨tr, s, h⟩ := smallRun
  have hfits : Fits smallPlan := ⟨by decide, by decide⟩
  obtain ⟨-, -, -, hend⟩ := report_rows smallRoot smallDouble .totalPass (by decide) hfits h
  obtain ⟨hcalls, -, hbuffer, -⟩ := hend rfl
  exact ⟨tr, s, h, hcalls, hbuffer⟩

end SysPerf.BenchReport
