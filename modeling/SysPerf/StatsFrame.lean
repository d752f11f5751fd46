import SysPerf.StatsRuns

namespace SysPerf.Stats

open MachineInt OrderStats

variable {T D : Type} [LinearOrder T]

/-- Every `median` since the last reset was asked while the samples collected since that reset
were in ascending order. -/
def Undisturbed (tr : List (Event T D)) : Prop :=
  ∀ pre value post, tr = pre ++ .answered .median value :: post → (∀ e ∈ post, e ≠ .reset) →
    (collected pre).Pairwise (· ≤ ·)

theorem undisturbed_concat (tr : List (Event T D)) (e : Event T D) :
    Undisturbed (tr ++ [e]) ↔ (e ≠ .reset → Undisturbed tr) ∧
      ∀ value, e = .answered .median value → (collected tr).Pairwise (· ≤ ·) := by
  constructor
  · intro h
    constructor
    · intro hne pre value post htr hpost
      apply h pre value (post ++ [e])
      · simp [htr]
      · intro e' he'
        rcases List.mem_append.mp he' with he' | he'
        · exact hpost e' he'
        · rwa [List.mem_singleton.mp he']
    · rintro value rfl
      exact h tr value [] rfl (by simp)
  · rintro ⟨hold, hnew⟩ pre value post heq hpost
    rcases List.eq_nil_or_concat post with rfl | ⟨post, e', rfl⟩
    · obtain ⟨rfl, he⟩ := List.append_inj' heq rfl
      exact hnew value (List.singleton_inj.mp he)
    · have heq : tr ++ [e] = (pre ++ .answered .median value :: post) ++ [e'] := by
        simpa using heq
      obtain ⟨htr, he⟩ := List.append_inj' heq rfl
      obtain rfl := List.singleton_inj.mp he
      apply hold (hpost e (by simp)) pre value post htr
      intro e' he'
      exact hpost e' (by simp [he'])

theorem undisturbed_nil : Undisturbed ([] : List (Event T D)) := by
  intro pre value post h
  simp at h

theorem undisturbed_returned (tr : List (Event T D)) (vs : List T) :
    Undisturbed (tr ++ vs.map .returned) ↔ Undisturbed tr := by
  induction vs using List.reverseRecOn with
  | nil => simp
  | append_singleton vs v ih =>
    rw [List.map_append, ← List.append_assoc, List.map_singleton, undisturbed_concat]
    simpa using ih

theorem undisturbed_median (tr : List (Event T D)) (value : Option D) :
    Undisturbed (tr ++ [.answered .median value]) ↔
      Undisturbed tr ∧ (collected tr).Pairwise (· ≤ ·) := by
  rw [undisturbed_concat]
  simp

theorem undisturbed_quiet (tr : List (Event T D)) {e : Event T D} (hreset : e ≠ .reset)
    (hmedian : ∀ value, e ≠ .answered .median value) :
    Undisturbed (tr ++ [e]) ↔ Undisturbed tr := by
  rw [undisturbed_concat]
  simp [hreset, hmedian]

/-- The vector holds the samples as they came until a `median` meets them out of order; from then
on they stay out of order. -/
def Kept (tr : List (Event T D)) (s : Stats T) : Prop :=
  (Undisturbed tr → s.vals = collected tr) ∧
    (¬Undisturbed tr → s.vals ≠ collected tr ∧ ¬(collected tr).Pairwise (· ≤ ·))

theorem Kept.move {tr out : List (Event T D)} {s t : Stats T} (h : Kept tr s)
    (hmove : Moves s t out) : Kept (tr ++ out) t := by
  obtain ⟨hsame, hdiff⟩ := h
  cases hmove with
  | sampled vs =>
    unfold Kept
    rw [undisturbed_returned, collected_returned]
    constructor
    · intro hu
      rw [hsame hu]
    · intro hu
      obtain ⟨hne, hdown⟩ := hdiff hu
      constructor
      · intro heq
        exact hne (List.append_cancel_right heq)
      · intro hsorted
        exact hdown (List.pairwise_append.mp hsorted).1
  | sorted value =>
    unfold Kept
    rw [undisturbed_median, collected_answered]
    constructor
    · rintro ⟨hu, hsorted⟩
      rw [hsame hu]
      exact sort_eq_self hsorted
    · intro hu
      have hdown : ¬(collected tr).Pairwise (· ≤ ·) := by
        intro hsorted
        by_cases hold : Undisturbed tr
        · exact hu ⟨hold, hsorted⟩
        · exact (hdiff hold).2 hsorted
      refine ⟨?_, hdown⟩
      intro heq
      apply hdown
      rw [← heq]
      exact sort_sorted s.vals
  | asked value hq =>
    unfold Kept
    rw [undisturbed_quiet tr (by simp) (by simp [hq]), collected_answered]
    exact ⟨hsame, hdiff⟩
  | read =>
    unfold Kept
    rw [undisturbed_quiet tr (by simp) (by simp), collected_vals]
    exact ⟨hsame, hdiff⟩
  | reset =>
    have hu : Undisturbed (tr ++ [.reset]) := (undisturbed_concat tr _).mpr (by simp)
    refine ⟨?_, fun h => absurd hu h⟩
    intro _
    rw [collected_reset]

variable [Field D] {A : Arith T D} {n : ℤ}

theorem vals_kept {tr : List (Event T D)} {s : Stats T} (h : Reach (object A n) tr s) :
    Kept tr s := by
  apply h.history (P := Kept)
  · constructor
    · intro _
      rfl
    · intro h
      exact absurd undisturbed_nil h
  · intro tr s op t out hkept hstep
    exact hkept.move (object_step hstep)

theorem vals_eq_collected_iff {tr : List (Event T D)} {s : Stats T}
    (h : Reach (object A n) tr s) : s.vals = collected tr ↔ Undisturbed tr := by
  obtain ⟨hsame, hdiff⟩ := vals_kept h
  constructor
  · intro heq
    by_contra hu
    exact (hdiff hu).1 heq
  · exact hsame

/-- The calls that only ask. -/
def Op.IsQuery : Op T → Prop
  | .query _ => True
  | .getVals => True
  | _ => False

/-- Of the calls that only ask, `median` alone leaves a mark on the vector. -/
theorem exec_queries {s t : Stats T} {qs : List (Op T)} {out : List (Event T D)}
    (hq : ∀ op ∈ qs, op.IsQuery) (h : (object A n).exec s qs = some (t, out)) :
    (.query .median ∈ qs ∧ t.vals = sort s.vals) ∨ (.query .median ∉ qs ∧ t.vals = s.vals) := by
  induction qs generalizing s out with
  | nil =>
    obtain ⟨rfl, -⟩ := Prod.mk.inj (Option.some.inj h)
    exact Or.inr ⟨by simp, rfl⟩
  | cons op qs ih =>
    obtain ⟨⟨u, first⟩, hu, h⟩ := Option.bind_eq_some_iff.mp h
    obtain ⟨⟨t', rest⟩, hrest, heq⟩ := Option.map_eq_some_iff.mp h
    obtain ⟨rfl, -⟩ := Prod.mk.inj heq
    have hleft := ih (fun op hop => hq op (List.mem_cons_of_mem _ hop)) hrest
    have hop := hq op (List.mem_cons_self ..)
    have hasked : ∀ q, q ≠ Query.median → op = .query q → s = u := by
      rintro q hne rfl
      obtain ⟨rfl, -⟩ := Prod.mk.inj (Option.some.inj hu)
      cases q with
      | median => exact absurd rfl hne
      | mean => rfl
      | variance => rfl
      | stdDev => rfl
    cases op with
    | query q =>
      by_cases hmedian : q = .median
      · subst hmedian
        obtain ⟨rfl, -⟩ := Prod.mk.inj (Option.some.inj hu)
        have hsort : (s.median A).1.vals = sort s.vals := by rw [median_fst]
        refine Or.inl ⟨List.mem_cons_self .., ?_⟩
        rcases hleft with ⟨-, ht⟩ | ⟨-, ht⟩
        · rw [ht]
          show sort (s.median A).1.vals = sort s.vals
          rw [hsort, sort_eq_self (sort_sorted s.vals)]
        · rw [ht]
          exact hsort
      · obtain rfl := hasked q hmedian rfl
        simpa [Ne.symm hmedian] using hleft
    | getVals =>
      obtain ⟨rfl, -⟩ := Prod.mk.inj (Option.some.inj hu)
      simpa using hleft
    | runFunc func => exact hop.elim
    | runFuncUnit func isUnitCycle => exact hop.elim
    | runFuncMem func mem arraySize stride => exact hop.elim
    | resetVals => exact hop.elim

/-- Calls that only ask leave the vector as it was collected exactly if no `median` ever meets
samples out of order. -/
theorem getVals_kept_iff {tr out : List (Event T D)} {s t : Stats T} {qs : List (Op T)}
    (h : Reach (object A n) tr s) (hq : ∀ op ∈ qs, op.IsQuery)
    (he : (object A n).exec s qs = some (t, out)) :
    (t.getVals = s.getVals ∧ t.getVals = collected tr) ↔
      Undisturbed tr ∧ (.query .median ∈ qs → (collected tr).Pairwise (· ≤ ·)) := by
  have hvals := vals_eq_collected_iff h
  have hexec := exec_queries hq he
  unfold getVals
  constructor
  · rintro ⟨hsame, hcollected⟩
    have hs : s.vals = collected tr := hsame.symm.trans hcollected
    refine ⟨hvals.mp hs, ?_⟩
    intro hmem
    rcases hexec with ⟨-, ht⟩ | ⟨hnot, -⟩
    · rw [← hcollected, ht]
      exact sort_sorted s.vals
    · exact absurd hmem hnot
  · rintro ⟨hu, hsorted⟩
    have hs : s.vals = collected tr := hvals.mpr hu
    have ht : t.vals = s.vals := by
      rcases hexec with ⟨hmem, ht⟩ | ⟨-, ht⟩
      · rw [ht, hs]
        exact sort_eq_self (hsorted hmem)
      · exact ht
    exact ⟨ht, ht.trans hs⟩

/-- One pair of samples in ascending order, and one that is not. -/
theorem getVals_kept_iff_pair :
    (∃ t out, (object (Arith.exact Real.sqrt) 2).exec ⟨[1, 2], 2⟩ [.query .median, .getVals] =
      some (t, out) ∧ t.getVals = [1, 2]) ∧
    ∃ t out, (object (Arith.exact Real.sqrt) 2).exec ⟨[2, 1], 2⟩ [.query .median, .getVals] =
      some (t, out) ∧ t.getVals ≠ [2, 1] := by
  have hq : ∀ op ∈ [Op.query .median, .getVals (T := ℝ)], op.IsQuery := by
    intro op hop
    rcases List.mem_pair.mp hop with rfl | rfl <;> trivial
  have hu : ∀ x y : ℝ, Undisturbed (D := ℝ) [.returned x, .returned y] := fun x y =>
    (undisturbed_returned [] [x, y]).mpr undisturbed_nil
  constructor
  · refine ⟨_, _, rfl, ?_⟩
    have hiff := getVals_kept_iff (A := Arith.exact Real.sqrt) (reach_pair 1 2) hq rfl
    exact (hiff.mpr ⟨hu 1 2, fun _ => by simp [collected, Event.collect]⟩).2
  · refine ⟨_, _, rfl, ?_⟩
    intro heq
    have hiff := getVals_kept_iff (A := Arith.exact Real.sqrt) (reach_pair 2 1) hq rfl
    have hsorted := (hiff.mp ⟨heq, heq⟩).2 (List.mem_cons_self ..)
    norm_num [collected, Event.collect] at hsorted

theorem getVals_disturbed :
    ¬∀ (n : ℤ) (tr out : List (Event ℝ ℝ)) (s t : Stats ℝ) (qs : List (Op ℝ)),
      Reach (object (Arith.exact Real.sqrt) n) tr s → (∀ op ∈ qs, op.IsQuery) →
      (object (Arith.exact Real.sqrt) n).exec s qs = some (t, out) →
      t.getVals = s.getVals ∧ t.getVals = collected tr := by
  intro h
  have hq : ∀ op ∈ [Op.query (T := ℝ) .median], op.IsQuery := by
    intro op hop
    rw [List.mem_singleton.mp hop]
    trivial
  obtain ⟨hsame, -⟩ := h 2 _ _ _ _ _ (reach_pair 2 1) hq rfl
  have hsorted := sort_sorted [(2 : ℝ), 1]
  have hsort : sort [(2 : ℝ), 1] = [2, 1] := hsame
  rw [hsort] at hsorted
  norm_num at hsorted

end SysPerf.Stats
