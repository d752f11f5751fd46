import SysPerf.BenchReport

namespace SysPerf.BenchReport

open CsvFile CtxSwitchKernel Dispersion MachineInt Program RamAccess

section

variable {K : Type}

/-- With answers for all its turns the loop comes to its end. -/
theorem play_runLoop (func : Call) {left : ℕ} (s : Stats K) (next : Stats K → Main K)
    {times : List K} (h : left ≤ times.length) :
    (runLoop func left s next).play times =
      let r := (next { s with vals := s.vals ++ times.take left }).play (times.drop left)
      ((times.take left).map (.answered func) ++ r.1, r.2) := by
  induction left generalizing s times with
  | zero => simp [runLoop]
  | succ left ih =>
    cases times with
    | nil => simp at h
    | cons v times =>
      have hrest := ih (s.push v) (Nat.le_of_succ_le_succ h)
      rw [runLoop, play, hrest]
      simp [Stats.push]

theorem play_runLoop_short (func : Call) {left : ℕ} (s : Stats K) (next : Stats K → Main K)
    {times : List K} (h : times.length < left) :
    ∃ k, (runLoop func left s next).play times = (times.map (.answered func), .ask func k) := by
  induction left generalizing s times with
  | zero => simp at h
  | succ left ih =>
    cases times with
    | nil => exact ⟨_, rfl⟩
    | cons v times =>
      obtain ⟨k, hk⟩ := ih (s.push v) (Nat.lt_of_succ_lt_succ h)
      exact ⟨k, by simp [runLoop, play, hk]⟩

theorem play_runFunc (func : Call) {runs : ℕ} (next : Stats K → Main K) {times : List K}
    (h : runs ≤ times.length) :
    (runFunc (.new runs) func next).play times =
      ((times.take runs).map (.answered func) ++
          ((next ⟨times.take runs, runs⟩).play (times.drop runs)).1,
        ((next ⟨times.take runs, runs⟩).play (times.drop runs)).2) :=
  play_runLoop func (.new runs) next h

theorem play_runFunc_short (func : Call) {runs : ℕ} (next : Stats K → Main K) {times : List K}
    (h : times.length < runs) :
    ∃ k, (runFunc (.new runs) func next).play times =
      (times.map (.answered func), .ask func k) :=
  play_runLoop_short func (.new runs) next h

end

section

variable {K : Type} [Field K] (sqrt : K → K) (d : DoubleCell K)

theorem play_putRow {c : Bench} (hc : FitsBench c) {s t : Stats K} (hs : s.vals ≠ [])
    (ht : t.vals ≠ []) (next : Main K) (times : List K) :
    (putRow sqrt d c s t next).play times =
      ((rowOps (Measured.texts sqrt d ⟨c, s.vals, t.vals⟩)).map .emitted ++ (next.play times).1,
        (next.play times).2) := by
  obtain ⟨hpipes, hbytes⟩ := hc
  have hkb : FitsInt (c.footprintArrLen * 4 / 1024) := by
    unfold FitsInt at hbytes ⊢
    omega
  simp only [putRow, putInt, if_pos hpipes, putKb, if_pos hbytes, if_pos hkb, Stats.mean_exact hs,
    Stats.mean_exact ht, Stats.stdDev_exact ht, Option.bind_some, Option.map_some, putDouble, play]
  rfl

variable (ring : Bench → Call)

/-- Without all the times of its configuration the body of the loops is in one of its calls. -/
theorem play_measure_short {runs : ℕ} (c : Bench) (next : Main K) {times : List K}
    (h : times.length < 2 * runs) :
    ∃ tr func k, (measure sqrt d ring runs c next).play times = (tr, .ask func k) ∧
      emits tr = [] ∧ asked tr = (callsOf ring runs c).take times.length ∧
      (callsOf ring runs c)[times.length]? = some func := by
  unfold measure callsOf
  rcases Nat.lt_or_ge times.length runs with hshort | hfirst
  · obtain ⟨k, hk⟩ := play_runFunc_short (.overhead c) (fun s =>
      runFunc (.new runs) (ring c) fun t => putRow sqrt d c s t next) hshort
    refine ⟨_, _, k, hk, emits_map_answered _ _, ?_, ?_⟩
    · rw [asked_map_answered, List.take_append_of_le_length (by simpa using hshort.le),
        List.take_replicate, min_eq_left hshort.le]
    · rw [List.getElem?_append_left (by simpa using hshort), List.getElem?_replicate, if_pos hshort]
  · have hlength : (times.drop runs).length = times.length - runs := List.length_drop
    obtain ⟨k, hk⟩ := play_runFunc_short (ring c)
      (fun t => putRow sqrt d c ⟨times.take runs, runs⟩ t next)
      (show (times.drop runs).length < runs by omega)
    refine ⟨(times.take runs).map (.answered (.overhead c)) ++
      (times.drop runs).map (.answered (ring c)), ring c, k, ?_, ?_, ?_, ?_⟩
    · rw [play_runFunc _ _ hfirst, hk]
    · rw [emits_append, emits_map_answered, emits_map_answered, List.append_nil]
    · rw [asked_append, asked_map_answered, asked_map_answered, List.length_take_of_le hfirst,
        hlength, List.take_append, List.length_replicate, List.take_replicate, List.take_replicate,
        min_eq_right hfirst, min_eq_left (by omega)]
    · rw [List.getElem?_append_right (by simpa using hfirst), List.length_replicate,
        List.getElem?_replicate, if_pos (by omega)]

/-- With all the times the body writes its row. -/
theorem play_measure {runs : ℕ} (hruns : 0 < runs) {c : Bench} (hc : FitsBench c) (next : Main K)
    {times : List K} (h : 2 * runs ≤ times.length) :
    ∃ tr, (measure sqrt d ring runs c next).play times =
        (tr ++ (next.play (times.drop (2 * runs))).1, (next.play (times.drop (2 * runs))).2) ∧
      emits tr = rowOps (Measured.texts sqrt d
        ⟨c, times.take runs, (times.drop runs).take runs⟩) ∧
      asked tr = callsOf ring runs c := by
  have hfirst : runs ≤ times.length := by omega
  have hrest : runs ≤ (times.drop runs).length := by
    rw [List.length_drop]
    omega
  have hne : ∀ vals : List K, runs ≤ vals.length → vals.take runs ≠ [] := by
    intro vals hvals hnil
    have hlength := List.length_take_of_le hvals
    rw [hnil, List.length_nil] at hlength
    omega
  have hdrop : (times.drop runs).drop runs = times.drop (2 * runs) := by
    rw [List.drop_drop, Nat.two_mul]
  refine ⟨(times.take runs).map (.answered (.overhead c)) ++
    (((times.drop runs).take runs).map (.answered (ring c)) ++ (rowOps (Measured.texts sqrt d
      ⟨c, times.take runs, (times.drop runs).take runs⟩)).map .emitted), ?_, ?_, ?_⟩
  · unfold measure
    rw [play_runFunc _ _ hfirst, play_runFunc _ _ hrest,
      play_putRow sqrt d hc (hne _ hfirst) (hne _ hrest), hdrop]
    simp only [List.append_assoc]
  · rw [emits_append, emits_append, emits_map_answered, emits_map_answered, emits_map_emitted,
      List.nil_append, List.nil_append]
  · rw [asked_append, asked_append, asked_map_answered, asked_map_answered, asked_map_emitted,
      List.length_take_of_le hfirst, List.length_take_of_le hrest, List.append_nil]
    rfl

/-- The loops over the given configurations, with the answers they have, have written the rows of
those of which they have all the times and are in the next call of the plan, or at their end. -/
structure Reports (runs : ℕ) (cs : List Bench) (times : List K)
    (r : List (Event Call K Op) × Main K) : Prop where
  emits : emits r.1 = (finished runs cs times).flatMap fun m => rowOps (m.texts sqrt d)
  asked : asked r.1 = (cs.flatMap (callsOf ring runs)).take times.length
  rest : (r.2 = .halt ∧ (finished runs cs times).map Measured.bench = cs ∧
      (cs.flatMap (callsOf ring runs)).length ≤ times.length) ∨
    ∃ func next, r.2 = .ask func next ∧
      (cs.flatMap (callsOf ring runs))[times.length]? = some func

theorem play_measures {runs : ℕ} (hruns : 0 < runs) {cs : List Bench}
    (hcs : ∀ c ∈ cs, FitsBench c) (times : List K) : Reports sqrt d ring runs cs times
      ((cs.foldr (measure sqrt d ring runs) .halt).play times) := by
  induction cs generalizing times with
  | nil => exact ⟨rfl, by simp [play], Or.inl ⟨rfl, rfl, Nat.zero_le _⟩⟩
  | cons c cs ih =>
    have hcalls : (callsOf ring runs c).length = 2 * runs := by
      simp [callsOf, Nat.two_mul]
    rw [List.foldr_cons]
    rcases Nat.lt_or_ge times.length (2 * runs) with hshort | hall
    · obtain ⟨tr, func, k, hplay, hemits, hasked, hnext⟩ :=
        play_measure_short sqrt d ring c (cs.foldr (measure sqrt d ring runs) .halt) hshort
      rw [hplay]
      refine ⟨?_, ?_, Or.inr ⟨func, k, rfl, ?_⟩⟩
      · rw [hemits, finished, if_neg (by omega)]
        rfl
      · rw [hasked, List.flatMap_cons, List.take_append_of_le_length (by omega)]
      · rw [List.flatMap_cons, List.getElem?_append_left (by omega), hnext]
    · obtain ⟨tr, hplay, hemits, hasked⟩ := play_measure sqrt d ring hruns
        (hcs c (List.mem_cons_self ..)) (cs.foldr (measure sqrt d ring runs) .halt) hall
      have hrest := ih (fun next hnext => hcs next (List.mem_cons_of_mem c hnext))
        (times.drop (2 * runs))
      have hfull : (callsOf ring runs c).take times.length = callsOf ring runs c :=
        List.take_of_length_le (by omega)
      have hdrop : (times.drop (2 * runs)).length =
          times.length - (callsOf ring runs c).length := by
        rw [List.length_drop, hcalls]
      rw [hplay]
      refine ⟨?_, ?_, ?_⟩
      · rw [emits_append, hemits, hrest.emits, finished, if_pos hall, List.flatMap_cons]
      · rw [asked_append, hasked, hrest.asked, List.flatMap_cons, List.take_append, hfull, hdrop]
      · rcases hrest.rest with ⟨hhalt, hbenches, hlength⟩ | ⟨func, k, hask, hnext⟩
        · refine Or.inl ⟨hhalt, ?_, ?_⟩
          · rw [finished, if_pos hall, List.map_cons, hbenches]
          · rw [List.flatMap_cons, List.length_append]
            omega
        · refine Or.inr ⟨func, k, hask, ?_⟩
          rw [List.flatMap_cons, List.getElem?_append_right (by omega), ← hdrop, hnext]

theorem play_benchMain {p : Plan} (hruns : 0 < p.runs) (hfits : Fits p) (times : List K) :
    let r := (benchMain sqrt d ring p).play times
    emits r.1 = reportOps sqrt d (finished p.runs (configs p) times) ∧
      asked r.1 = (calls ring p).take times.length ∧
      ((r.2 = .halt ∧ (finished p.runs (configs p) times).map Measured.bench = configs p ∧
          (calls ring p).length ≤ times.length) ∨
        ∃ func next, r.2 = .ask func next ∧ (calls ring p)[times.length]? = some func) := by
  have hloops := play_measures sqrt d ring hruns (fits_configs hfits) times
  have hplay : (benchMain sqrt d ring p).play times =
      let r := ((configs p).foldr (measure sqrt d ring p.runs) .halt).play times
      ((headerTexts.map Op.text).map .emitted ++ .emitted .endrow :: .acted (.useCores [0]) :: r.1,
        r.2) := by
    rw [benchMain_eq]
    rfl
  rw [hplay]
  refine ⟨?_, ?_, hloops.rest⟩
  · rw [emits_append, emits_map_emitted, emits_emitted, emits_acted, hloops.emits]
    rfl
  · rw [asked_append, asked_map_emitted, asked_emitted, asked_acted, hloops.asked]
    rfl

end

end SysPerf.BenchReport
