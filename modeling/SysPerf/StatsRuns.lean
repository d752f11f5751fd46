import SysPerf.Stats
import Mathlib.Data.Multiset.Basic
import Mathlib.Data.List.Perm.Basic
import Mathlib.Analysis.Real.Sqrt

namespace SysPerf.Stats

open MachineInt OrderStats

variable {T D : Type}

/-- The loop of `run_func` appends what the callback returns, turn by turn. -/
theorem runLoop_eq (func : ℕ → T) {i left : ℕ} {s : Stats T} :
    runLoop func i left s = ({ s with vals := s.vals ++ (List.range' i left).map func },
      (List.range' i left).map func) := by
  induction left generalizing i s with
  | zero => simp [runLoop]
  | succ left ih =>
    simp [runLoop, ih, push, List.range'_succ]

section

variable [LinearOrder T] [Field D] {A : Arith T D}

theorem step_callback {op : Op T} {func : ℕ → T} (h : op.callback? = some func) (s : Stats T) :
    step A s op = ({ s with vals := s.vals ++ (List.range s.runs.toNat).map func },
      ((List.range s.runs.toNat).map func).map .returned) := by
  cases op with
  | runFunc g =>
    obtain rfl : g = func := Option.some.inj h
    simp [step, runFunc, runLoop_eq, List.range_eq_range']
  | runFuncUnit g isUnitCycle =>
    obtain rfl : g isUnitCycle = func := Option.some.inj h
    simp [step, runFuncUnit, runLoop_eq, List.range_eq_range']
  | runFuncMem g mem arraySize stride =>
    obtain rfl : g mem arraySize stride = func := Option.some.inj h
    simp [step, runFuncMem, runLoop_eq, List.range_eq_range']
  | query q => cases h
  | getVals => cases h
  | resetVals => cases h

/-- What one operation can do to the samples. -/
inductive Moves (s : Stats T) : Stats T → List (Event T D) → Prop
  | sampled (vs : List T) : Moves s { s with vals := s.vals ++ vs } (vs.map .returned)
  | sorted (value : Option D) : Moves s { s with vals := sort s.vals } [.answered .median value]
  | asked {q : Query} (value : Option D) (hq : q ≠ .median) : Moves s s [.answered q value]
  | read : Moves s s [.vals s.vals]
  | reset : Moves s { s with vals := [] } [.reset]

theorem median_fst (s : Stats T) : (s.median A).1 = { s with vals := sort s.vals } := by
  unfold median
  split
  next h =>
    have hnil : s.vals = [] := List.eq_nil_of_length_eq_zero h
    have hsort : sort s.vals = s.vals := by
      rw [hnil]
      exact sort_eq_self List.Pairwise.nil
    show s = { s with vals := sort s.vals }
    rw [hsort]
  next => rfl

theorem step_moves {s t : Stats T} {op : Op T} {out : List (Event T D)}
    (h : step A s op = (t, out)) : Moves s t out := by
  have hsampled : ∀ func, op.callback? = some func → Moves s t out := by
    intro func hfunc
    rw [step_callback hfunc] at h
    obtain ⟨rfl, rfl⟩ := Prod.mk.inj h
    exact Moves.sampled _
  cases op with
  | runFunc func => exact hsampled _ rfl
  | runFuncUnit func isUnitCycle => exact hsampled _ rfl
  | runFuncMem func mem arraySize stride => exact hsampled _ rfl
  | query q =>
    cases q with
    | median =>
      obtain ⟨rfl, rfl⟩ := Prod.mk.inj h
      show Moves s (s.median A).1 _
      rw [median_fst]
      exact Moves.sorted _
    | mean =>
      obtain ⟨rfl, rfl⟩ := Prod.mk.inj h
      exact Moves.asked _ (by simp)
    | variance =>
      obtain ⟨rfl, rfl⟩ := Prod.mk.inj h
      exact Moves.asked _ (by simp)
    | stdDev =>
      obtain ⟨rfl, rfl⟩ := Prod.mk.inj h
      exact Moves.asked _ (by simp)
  | getVals =>
    obtain ⟨rfl, rfl⟩ := Prod.mk.inj h
    exact Moves.read
  | resetVals =>
    obtain ⟨rfl, rfl⟩ := Prod.mk.inj h
    exact Moves.reset

theorem object_step {n : ℤ} {s t : Stats T} {op : Op T} {out : List (Event T D)}
    (h : (object A n).step s op = some (t, out)) : Moves s t out :=
  step_moves (Option.some.inj h)

end

theorem collected_append (tr out : List (Event T D)) :
    collected (tr ++ out) = out.foldl Event.collect (collected tr) :=
  List.foldl_append ..

@[simp] theorem collected_returned (tr : List (Event T D)) (vs : List T) :
    collected (tr ++ vs.map .returned) = collected tr ++ vs := by
  rw [collected_append]
  induction vs using List.reverseRecOn with
  | nil => simp
  | append_singleton vs v ih => simp [ih, Event.collect]

@[simp] theorem collected_answered (tr : List (Event T D)) (q : Query) (value : Option D) :
    collected (tr ++ [.answered q value]) = collected tr := by
  rw [collected_append]
  rfl

@[simp] theorem collected_vals (tr : List (Event T D)) (vs : List T) :
    collected (tr ++ [.vals vs]) = collected tr := by
  rw [collected_append]
  rfl

@[simp] theorem collected_reset (tr : List (Event T D)) :
    collected (tr ++ [.reset]) = [] := by
  rw [collected_append]
  rfl

section

variable [LinearOrder T] [Field D] {A : Arith T D} {n : ℤ}

/-- No sample is lost or counted twice. -/
theorem vals_perm {tr : List (Event T D)} {s : Stats T} (h : Reach (object A n) tr s) :
    s.vals.Perm (collected tr) ∧ s.runs = n := by
  apply h.history (P := fun tr s => s.vals.Perm (collected tr) ∧ s.runs = n)
  · exact ⟨List.Perm.nil, rfl⟩
  · rintro tr s op t out ⟨hperm, hruns⟩ hstep
    cases object_step hstep with
    | sampled vs =>
      rw [collected_returned]
      exact ⟨hperm.append_right vs, hruns⟩
    | sorted value =>
      rw [collected_answered]
      exact ⟨(sort_perm s.vals).trans hperm, hruns⟩
    | asked value hq =>
      rw [collected_answered]
      exact ⟨hperm, hruns⟩
    | read =>
      rw [collected_vals]
      exact ⟨hperm, hruns⟩
    | reset =>
      rw [collected_reset]
      exact ⟨List.Perm.nil, hruns⟩

end

/-- Every sum of samples is defined and exact. -/
def Exact [AddCommMonoid T] (A : Arith T D) : Prop :=
  ∀ x y, A.add x y = some (x + y)

theorem foldlM_exact [AddCommMonoid T] {A : Arith T D} (exact : Exact A) (vals : List T)
    (sum : T) : vals.foldlM A.add sum = some (vals.foldl (· + ·) sum) := by
  induction vals generalizing sum with
  | nil => rfl
  | cons v vals ih =>
    rw [List.foldlM_cons, exact]
    exact ih (sum + v)

section

variable [AddCommMonoid T] [Field D] {A : Arith T D}

theorem mean_perm (exact : Exact A) {s t : Stats T} (h : s.vals.Perm t.vals) :
    s.mean A = t.mean A := by
  have hsum : s.vals.foldl (· + ·) A.zero = t.vals.foldl (· + ·) A.zero := by
    apply h.foldl_eq'
    intro x _ y _ z
    exact add_right_comm z x y
  unfold mean
  rw [h.length_eq, foldlM_exact exact, foldlM_exact exact, hsum]

theorem variance_perm (exact : Exact A) {s t : Stats T} (h : s.vals.Perm t.vals) :
    s.variance A = t.variance A := by
  have hsum : ∀ m : D, s.vals.foldl (fun sum v => sum + (A.toDouble v - m) ^ 2) 0 =
      t.vals.foldl (fun sum v => sum + (A.toDouble v - m) ^ 2) 0 := by
    intro m
    apply h.foldl_eq'
    intro x _ y _ z
    exact add_right_comm z _ _
  unfold variance
  simp only [h.length_eq, mean_perm exact h, hsum]

end

section

variable [LinearOrder T] [Field D] {A : Arith T D}

theorem median_perm {s t : Stats T} (h : s.vals.Perm t.vals) :
    (s.median A).2 = (t.median A).2 := by
  unfold median
  rw [h.length_eq, sort_eq_of_perm h]
  split <;> rfl

/-- One call of `run_func` with two turns. -/
theorem reach_pair (x y : T) :
    Reach (object A 2) [.returned x, .returned y] (⟨[x, y], 2⟩ : Stats T) :=
  Reach.init.step (e := .runFunc fun i => if i = 0 then x else y) rfl

variable [AddCommMonoid T]

/-- The order of the samples makes no difference to what a query answers. -/
theorem answer_perm (exact : Exact A) {s t : Stats T} (h : s.vals.Perm t.vals) (q : Query) :
    (s.answer A q).2 = (t.answer A q).2 := by
  cases q with
  | mean => exact mean_perm exact h
  | median => exact median_perm h
  | variance => exact variance_perm exact h
  | stdDev =>
    show (s.variance A).map A.sqrt = (t.variance A).map A.sqrt
    rw [variance_perm exact h]

/-- What the queries answer about a bag of samples. -/
noncomputable def reading (A : Arith T D) (q : Query) (bag : Multiset T) : Option D :=
  (answer A ⟨bag.toList, 0⟩ q).2

/-- The vector is the bag of what the callbacks have returned, and no query reads more of it than
that. -/
theorem samples_and_answers (exact : Exact A) :
    ∃ f : Query → Multiset T → Option D, ∀ (n : ℤ) (tr : List (Event T D)) (s : Stats T),
      Reach (object A n) tr s →
        s.vals.Perm (collected tr) ∧
        (∀ op func, op.callback? = some func →
          step A s op = ({ s with vals := s.vals ++ (List.range (max n 0).toNat).map func },
            ((List.range (max n 0).toNat).map func).map .returned)) ∧
        ∀ q, (s.answer A q).2 = f q (collected tr) := by
  refine ⟨reading A, ?_⟩
  intro n tr s h
  obtain ⟨hperm, hruns⟩ := vals_perm h
  refine ⟨hperm, ?_, ?_⟩
  · intro op func hfunc
    have hcount : (max n 0).toNat = s.runs.toNat := by
      rw [hruns]
      omega
    rw [hcount]
    exact step_callback hfunc s
  · intro q
    apply answer_perm exact
    have hbag : (collected tr : Multiset T).toList.Perm (collected tr) :=
      Multiset.coe_eq_coe.mp (Multiset.coe_toList _)
    exact hperm.trans hbag.symm

end

theorem swap_bag (x y : ℝ) : (([x, y] : List ℝ) : Multiset ℝ) = ([y, x] : List ℝ) :=
  Multiset.coe_eq_coe.mpr (List.Perm.swap ..)

/-- Both orders of two samples are the same bag for the median, although it sorts one of them. -/
theorem samples_and_answers_swapped :
    (answer (Arith.exact Real.sqrt) ⟨[0, 1], 2⟩ .median).2 =
      (answer (Arith.exact Real.sqrt) ⟨[1, 0], 2⟩ .median).2 := by
  obtain ⟨f, hf⟩ := samples_and_answers (A := Arith.exact Real.sqrt) fun _ _ => rfl
  have hfirst := (hf 2 _ _ (reach_pair 0 1)).2.2 .median
  have hsecond := (hf 2 _ _ (reach_pair 1 0)).2.2 .median
  exact (hfirst.trans (congrArg (f .median) (swap_bag 0 1))).trans hsecond.symm

theorem getVals_not_function_of_bag :
    ¬∃ f : Multiset ℝ → List ℝ, ∀ (n : ℤ) (tr : List (Event ℝ ℝ)) (s : Stats ℝ),
      Reach (object (Arith.exact Real.sqrt) n) tr s → s.getVals = f (collected tr) := by
  rintro ⟨f, hf⟩
  have hfirst := hf 2 _ _ (reach_pair 0 1)
  have hsecond := hf 2 _ _ (reach_pair 1 0)
  have heq : ([0, 1] : List ℝ) = [1, 0] :=
    hfirst.trans ((congrArg f (swap_bag 0 1)).trans hsecond.symm)
  simp at heq

end SysPerf.Stats
