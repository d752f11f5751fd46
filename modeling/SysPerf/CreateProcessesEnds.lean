import SysPerf.CreateProcesses

namespace SysPerf.CreateProcesses

variable {n : ℕ} {forks : ℕ → ℕ → Bool}

theorem looping_moves {s : State} {pid i : ℕ} (hat : s[pid]? = some (.looping i)) :
    step n forks s pid ≠ none := by
  unfold step
  rw [hat]
  dsimp only
  split
  next =>
    split
    next => simp
    next => simp
  next => simp

theorem child_moves {s : State} {pid i : ℕ} (hat : s[pid]? = some (.child i)) :
    step n forks s pid ≠ none := by
  unfold step
  rw [hat]
  simp

def Proc.returned? : Proc → Option ℕ
  | .returned v => some v
  | _ => none

/-- Children that cannot move have returned the values they hold. -/
theorem eq_map_returned {children : List Proc} {values : List ℕ}
    (hreturned : ∀ p ∈ children, ∀ v, p.value? = some v → p = .returned v)
    (h : children.map Proc.value? = values.map some) : children = values.map .returned := by
  induction children generalizing values with
  | nil =>
    cases values with
    | nil => rfl
    | cons v values => simp at h
  | cons p children ih =>
    cases values with
    | nil => simp at h
    | cons v values =>
      obtain ⟨hp, hrest⟩ := List.cons.inj h
      rw [List.map_cons, hreturned p (List.mem_cons_self ..) v hp,
        ih (fun q hq => hreturned q (List.mem_cons_of_mem p hq)) hrest]

/-- Where nobody can move, the children have returned and the caller has come out of the function
without a value. -/
theorem Tree.stuck {s : State} {i : ℕ} {caller : Proc} {children : List Proc}
    (h : Tree n forks s i caller children) (hstuck : Stuck (createProcesses n forks) s) :
    s = .fellOff :: ((List.range n).filter (forks 0)).map .returned := by
  have hcaller : caller = .fellOff ∧ i = n := by
    rcases h.caller with rfl | hend
    · have hat : s[0]? = some (.looping i) := by rw [h.state]; rfl
      exact absurd (hstuck 0) (looping_moves hat)
    · exact hend
  obtain ⟨rfl, rfl⟩ := hcaller
  have hreturned : ∀ p ∈ children, ∀ v, p.value? = some v → p = .returned v := by
    intro p hp v hv
    cases p with
    | returned w =>
      obtain rfl := Option.some.inj hv
      rfl
    | child w =>
      obtain ⟨k, hk⟩ := List.mem_iff_getElem?.mp hp
      have hat : s[k + 1]? = some (.child w) := by rw [h.state]; simpa using hk
      exact absurd (hstuck (k + 1)) (child_moves hat)
    | looping w => cases hv
    | fellOff => cases hv
  rw [h.state, eq_map_returned hreturned h.values]

theorem filterMap_returned_sublist (ps : List Proc) :
    (ps.filterMap Proc.returned?).Sublist (ps.filterMap Proc.value?) := by
  induction ps with
  | nil => exact List.Sublist.refl _
  | cons p ps ih =>
    cases p with
    | looping i => exact ih
    | child i => exact ih.cons i
    | returned v => exact ih.cons_cons v
    | fellOff => exact ih

theorem Tree.returned_sublist {s : State} {i : ℕ} {caller : Proc} {children : List Proc}
    (h : Tree n forks s i caller children) :
    (s.filterMap Proc.returned?).Sublist (List.range n) := by
  have hvalues : children.filterMap Proc.value? = (List.range i).filter (forks 0) := by
    have hsome := congrArg (List.filterMap id) h.values
    simpa [List.filterMap_map] using hsome
  have hcaller : s.filterMap Proc.returned? = children.filterMap Proc.returned? := by
    rw [h.state]
    rcases h.caller with rfl | ⟨rfl, -⟩ <;> rfl
  have hrange : (List.range i).Sublist (List.range n) := List.range_sublist.mpr h.turn
  rw [hcaller]
  have hchildren := filterMap_returned_sublist children
  rw [hvalues] at hchildren
  exact (hchildren.trans List.filter_sublist).trans hrange

/-- No two processes return the same value, and none returns one that is not below `n`. -/
theorem returned_distinct {tr : List Event} {s : State}
    (h : Reach (createProcesses n forks) tr s) :
    (s.filterMap Proc.returned?).Nodup ∧ ∀ v, .returned v ∈ s → v < n := by
  obtain ⟨i, caller, children, htree⟩ := reach_tree h
  have hsub := htree.returned_sublist
  refine ⟨hsub.nodup List.nodup_range, ?_⟩
  intro v hv
  have hmem : v ∈ s.filterMap Proc.returned? := List.mem_filterMap.mpr ⟨_, hv, rfl⟩
  exact List.mem_range.mp (hsub.subset hmem)

/-- The turns that a process has left, with those of the children it may get. -/
def Proc.weight (n : ℕ) : Proc → ℕ
  | .looping i => 2 * (n - i) + 1
  | .child _ => 1
  | _ => 0

theorem weight_step {s t : State} {pid : ℕ} {out : List Event}
    (h : step n forks s pid = some (t, out)) :
    total (Proc.weight n) t < total (Proc.weight n) s := by
  cases step_moves h with
  | @forks i hat hlt hfork =>
    have hset := total_set (Proc.weight n) (b := .looping (i + 1)) hat
    rw [total_append]
    simp only [total, Proc.weight, List.map_cons, List.map_nil, List.sum_cons, List.sum_nil]
      at hset ⊢
    omega
  | @fails i hat hlt hfork =>
    have hset := total_set (Proc.weight n) (b := .looping (i + 1)) hat
    simp only [Proc.weight] at hset
    omega
  | falls hat hge =>
    have hset := total_set (Proc.weight n) (b := .fellOff) hat
    simp only [Proc.weight] at hset
    omega
  | @returns i hat =>
    have hset := total_set (Proc.weight n) (b := .returned i) hat
    simp only [Proc.weight] at hset
    omega

/-- Every run comes to an end, and all runs to the same: a value from 0 to `n - 1` in each child,
no two of them the same, and none in the caller. -/
theorem exists_end {tr : List Event} {s : State} (h : Reach (createProcesses n forks) tr s) :
    ∃ more t, Reach (createProcesses n forks) (tr ++ more) t ∧
      Stuck (createProcesses n forks) t ∧
      t = .fellOff :: ((List.range n).filter (forks 0)).map .returned := by
  obtain ⟨more, t, ht, -, hstuck⟩ := h.exists_stuck (total (Proc.weight n)) (fun _ => True)
    (fun _ _ _ _ _ hstep => ⟨trivial, weight_step hstep⟩) trivial
  obtain ⟨i, caller, children, htree⟩ := reach_tree ht
  exact ⟨more, t, ht, hstuck, htree.stuck hstuck⟩

/-- The call returns a value of its own, up to `n`, in the caller and in every child, and no child
forks in it. -/
structure CreateSpec (n : ℕ) (forks : ℕ → ℕ → Bool) : Prop where
  defined : ∀ {tr s}, Reach (createProcesses n forks) tr s → Stuck (createProcesses n forks) s →
    ∀ p ∈ s, ∃ v, p = .returned v
  distinct : ∀ {tr s}, Reach (createProcesses n forks) tr s → (s.filterMap Proc.returned?).Nodup
  range : ∀ {tr s}, Reach (createProcesses n forks) tr s → ∀ v, .returned v ∈ s → v ≤ n
  childless : ∀ {tr s}, Reach (createProcesses n forks) tr s →
    ∀ parent child, .forked parent child ∈ tr → parent = 0

theorem end_not_defined (n : ℕ) (forks : ℕ → ℕ → Bool) :
    ∃ tr s, Reach (createProcesses n forks) tr s ∧ Stuck (createProcesses n forks) s ∧ .fellOff ∈ s := by
  obtain ⟨more, t, ht, hstuck, heq⟩ := exists_end (Reach.init (m := createProcesses n forks))
  refine ⟨_, t, ht, hstuck, ?_⟩
  rw [heq]
  exact List.mem_cons_self ..

theorem not_createSpec (n : ℕ) (forks : ℕ → ℕ → Bool) : ¬CreateSpec n forks := by
  intro h
  obtain ⟨tr, s, hreach, hstuck, hmem⟩ := end_not_defined n forks
  obtain ⟨v, hv⟩ := h.defined hreach hstuck _ hmem
  cases hv

theorem caller_without_value : ¬∀ (n : ℕ) (forks : ℕ → ℕ → Bool), CreateSpec n forks := by
  intro h
  obtain ⟨tr, s, hreach, hstuck, hmem⟩ := end_not_defined 3 fun _ _ => true
  obtain ⟨v, hv⟩ := (h 3 fun _ _ => true).defined hreach hstuck _ hmem
  cases hv

end SysPerf.CreateProcesses
