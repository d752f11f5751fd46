import SysPerf.FileContentionSpec

namespace SysPerf.FileContention

variable {n runs : ℕ}

theorem Pc.heirs_pos {pc : Pc} (h : pc.Ok n runs) : 1 ≤ pc.heirs n runs := by
  cases pc with
  | looping i => exact Nat.pos_of_ne_zero (by simp [Pc.heirs])
  | creating i j =>
    have hleft : 0 < n + 1 - j := by have := h.2; omega
    exact Nat.mul_pos hleft (Nat.pos_of_ne_zero (by simp))
  | reading i k => exact Nat.pos_of_ne_zero (by simp [Pc.heirs])
  | waiting => exact le_rfl
  | exited => exact le_rfl

/-- There are never more processes than the runs can create. -/
theorem inside_le {tr : List Event} {s : State} (h : Reach (main n runs) tr s)
    (hab : ∀ p i, .aborted p i ∈ tr → runs ≤ i + 1) : s.inside ≤ (n + 1) ^ runs := by
  have hpos : ∀ q ∈ s, 1 ≤ q.pc.heirs n runs := by
    intro q hq
    obtain ⟨pid, hpid⟩ := List.mem_iff_getElem?.mp hq
    exact Pc.heirs_pos (reach_ok h pid q hpid)
  calc s.inside ≤ s.length := List.countP_le_length
    _ ≤ total (fun q => q.pc.heirs n runs) s := length_le_total hpos
    _ = (n + 1) ^ runs := total_heirs h hab

theorem contention_of_le_one (hruns : runs ≤ 1) : ContentionSpec n runs where
  inside := by
    intro tr s h
    calc s.inside ≤ (n + 1) ^ runs := inside_le h fun _ i _ => by omega
      _ ≤ (n + 1) ^ 1 := Nat.pow_le_pow_right (Nat.succ_pos n) hruns
      _ = n + 1 := Nat.pow_one _
  executors := by
    intro tr s h hs run hrun
    obtain rfl : run = 0 := by omega
    have hfirst := first_run h hrun
    refine ⟨by simpa using executors_card h hs hrun fun _ _ _ => Nat.zero_le _, fun pid => ?_⟩
    constructor
    · exact hfirst.children pid
    · rintro (rfl | ⟨parent, hforked⟩)
      · rcases hfirst.root with ⟨par, hroot⟩ | hroot
        · have hexited := hs _ (List.mem_of_getElem? hroot)
          simp at hexited
        · exact hroot
      · exact hfirst.forked parent pid hforked
  created := by
    intro tr s h hs
    have hcount := created_length h hs fun _ i _ => by omega
    rcases Nat.le_one_iff_eq_zero_or_eq_one.mp hruns with rfl | rfl
    · simpa using hcount
    · simpa using hcount

/-- The root and its first `m` children of run 0, none of which has opened its file. -/
def rootForked (m : ℕ) : State :=
  ⟨none, .creating 0 m⟩ :: (List.range m).map fun j : ℕ => ⟨some 0, .reading 0 j⟩

theorem reach_rootForked (hruns : 0 < runs) {m : ℕ} (hm : m ≤ n) :
    ∃ tr, Reach (main n runs) tr (rootForked m) := by
  induction m with
  | zero =>
    refine ⟨[] ++ [.executes 0 0], Reach.init.step (e := .run 0) ?_⟩
    simp [main, step, runStep, hruns, State.setPc, rootForked]
  | succ m ih =>
    obtain ⟨tr, htr⟩ := ih (by omega)
    have hlt : m < n := hm
    refine ⟨tr ++ [.forked 0 (rootForked m).length 0, .executes (rootForked m).length 0],
      htr.step (e := .run 0) ?_⟩
    simp [main, step, runStep, hlt, State.setPc, rootForked, List.range_succ]

/-- With a second run the root's first child goes on to it and forks. -/
theorem overcrowded (hn : 1 ≤ n) (hruns : 2 ≤ runs) :
    ∃ tr s, Reach (main n runs) tr s ∧ n + 2 ≤ s.inside := by
  obtain ⟨tr, htr⟩ : ∃ tr, Reach (main n runs) tr (rootForked n) :=
    reach_rootForked (by omega) le_rfl
  obtain ⟨m, rfl⟩ := Nat.exists_eq_add_of_le' hn
  let others : State := (List.range m).map fun j : ℕ => ⟨some 0, .reading 0 (j + 1)⟩
  have hsplit : rootForked (m + 1) =
      ⟨none, .creating 0 (m + 1)⟩ :: ⟨some 0, .reading 0 0⟩ :: others := by
    simp [rootForked, List.range_succ_eq_map, others, Function.comp_def]
  rw [hsplit] at htr
  have hnext : 1 < runs := hruns
  have hchild : Reach (main (m + 1) runs) (tr ++ [])
      (⟨none, .creating 0 (m + 1)⟩ :: ⟨some 0, .looping 1⟩ :: others) :=
    htr.step (e := .fopen 1 true) rfl
  have hentered : Reach (main (m + 1) runs) (tr ++ [] ++ [.executes 1 1])
      (⟨none, .creating 0 (m + 1)⟩ :: ⟨some 0, .creating 1 0⟩ :: others) :=
    hchild.step (e := .run 1) (by simp [main, step, runStep, hnext, State.setPc])
  have hforked : Reach (main (m + 1) runs) (tr ++ [] ++ [.executes 1 1] ++
      [.forked 1 (others.length + 2) 1, .executes (others.length + 2) 1])
      ((⟨none, .creating 0 (m + 1)⟩ :: ⟨some 0, .creating 1 1⟩ :: others) ++
        [⟨some 1, .reading 1 0⟩]) :=
    hentered.step (e := .run 1) (by simp [main, step, runStep, State.setPc])
  have hothers : others.countP (fun q => q.pc.inside) = m := by
    rw [List.countP_eq_length.mpr]
    · simp [others]
    · simp [others, Pc.inside]
  refine ⟨_, _, hforked, ?_⟩
  simp only [State.inside, List.countP_append, List.countP_cons, hothers]
  simp [Pc.inside]

/-- The contract is kept for one run only. Of more, run `r` is executed by `(n + 1) ^ (r + 1)`
processes unless one has aborted before it. -/
theorem contention_iff (hn : 1 ≤ n) : (ContentionSpec n runs ↔ runs ≤ 1) ∧
    ∀ tr s, Reach (main n runs) tr s → s.complete →
      (∀ run < runs, (∀ p i, .aborted p i ∈ tr → run ≤ i) →
        (executors tr run).toFinset.card = (n + 1) ^ (run + 1)) ∧
      ((∀ p i, .aborted p i ∈ tr → runs ≤ i + 1) → (created tr).length + 1 = (n + 1) ^ runs) := by
  refine ⟨⟨fun hspec => ?_, contention_of_le_one⟩, fun tr s h hs => ⟨?_, ?_⟩⟩
  · by_contra hruns
    obtain ⟨tr, s, hs, hmany⟩ := overcrowded hn (Nat.lt_of_not_le hruns)
    have hfew := hspec.inside hs
    omega
  · intro run hrun hab
    exact executors_card h hs hrun hab
  · intro hab
    exact created_length h hs hab

theorem contention_iff_eight : ContentionSpec 8 1 ∧ ¬ContentionSpec 8 5 := by
  have hone : ContentionSpec 8 1 ↔ 1 ≤ 1 := (contention_iff (by decide)).1
  have hfive : ContentionSpec 8 5 ↔ 5 ≤ 1 := (contention_iff (by decide)).1
  exact ⟨hone.mpr le_rfl, fun h => absurd (hfive.mp h) (by decide)⟩

/-- One child, the five runs of the program: three processes are inside at once. -/
theorem not_contention_one : ¬ContentionSpec 1 5 := by
  intro hspec
  have hrun : Reach (main 1 5) _ _ := reach_of_exec
    [.run 0, .run 0, .fopen 1 true, .run 1, .run 1] rfl
  exact absurd (hspec.inside hrun) (by decide)

end SysPerf.FileContention
