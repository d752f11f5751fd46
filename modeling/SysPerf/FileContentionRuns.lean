import SysPerf.FileContentionTree

namespace SysPerf.FileContention

variable {n runs run : ℕ}

@[simp] theorem executors_append (xs ys : List Event) :
    executors (xs ++ ys) run = executors xs run ++ executors ys run := by
  simp [executors]

theorem mem_executors {tr : List Event} {pid : ℕ} :
    pid ∈ executors tr run ↔ .executes pid run ∈ tr := by
  simp only [executors, List.mem_filterMap]
  constructor
  · rintro ⟨e, he, h⟩
    cases e with
    | executes p i =>
      obtain ⟨rfl, heq⟩ := Option.ite_none_right_eq_some.mp h
      obtain rfl := Option.some.inj heq
      exact he
    | forked parent child i => simp at h
    | aborted p i => simp at h
  · intro h
    exact ⟨_, h, by simp⟩

theorem total_turn {s : State} {pid : ℕ} {parent : Option ℕ} {old : Pc} (w : Pc → ℕ)
    (hat : s[pid]? = some ⟨parent, old⟩) (new : Pc) (born : List Pc) :
    total (fun q => w q.pc) (s.turn pid parent new born) + w old =
      total (fun q => w q.pc) s + (w new + total w born) := by
  have hset : total (fun q : Proc => w q.pc) (s.set pid ⟨parent, new⟩) + w old =
      total (fun q => w q.pc) s + w new :=
    total_set (fun q : Proc => w q.pc) hat
  have hborn : total (fun q : Proc => w q.pc) (born.map (⟨some pid, ·⟩)) = total w born := by
    simp [total, Function.comp_def]
  rw [State.turn, total_append, hborn]
  omega

theorem turn_getElem {s : State} {pid : ℕ} {parent : Option ℕ} {old : Pc}
    (hat : s[pid]? = some ⟨parent, old⟩) (new : Pc) (born : List Pc) :
    (s.turn pid parent new born)[pid]? = some ⟨parent, new⟩ := by
  have hlt : pid < s.length := (List.getElem?_eq_some_iff.mp hat).1
  rw [State.turn, List.getElem?_append_left (by simpa using hlt)]
  simp [hlt]

theorem turn_getElem_ne {s : State} {pid other : ℕ} {parent : Option ℕ} {new : Pc}
    {born : List Pc} {q : Proc} (hne : other ≠ pid) (hq : s[other]? = some q) :
    (s.turn pid parent new born)[other]? = some q := by
  have hlt : other < s.length := (List.getElem?_eq_some_iff.mp hq).1
  rw [State.turn, List.getElem?_append_left (by simpa using hlt), List.getElem?_set_ne hne.symm]
  exact hq

/-- A process after a turn is the one that moved, another one or a child just created. -/
theorem turn_getElem_cases {s : State} {pid other : ℕ} {parent : Option ℕ} {new : Pc}
    {born : List Pc} {q : Proc} (hq : (s.turn pid parent new born)[other]? = some q) :
    (other = pid ∧ q = ⟨parent, new⟩) ∨ (other ≠ pid ∧ s[other]? = some q) ∨
      (s.length ≤ other ∧ ∃ b ∈ born, q = ⟨some pid, b⟩) := by
  rcases append_get_cases hq with hq | ⟨hge, hq⟩
  · rcases set_get_cases hq with hmoved | hother
    · exact Or.inl hmoved
    · exact Or.inr (Or.inl hother)
  · obtain ⟨b, hb, rfl⟩ := List.mem_map.mp (List.mem_of_getElem? hq)
    exact Or.inr (Or.inr ⟨by simpa using hge, b, hb, rfl⟩)

def State.Ok (n runs : ℕ) (s : State) : Prop :=
  ∀ (pid : ℕ) (q : Proc), s[pid]? = some q → q.pc.Ok n runs

theorem reach_ok {tr : List Event} {s : State} (h : Reach (main n runs) tr s) :
    s.Ok n runs := by
  refine h.invariant ?_ ?_
  · intro pid q hq
    obtain rfl := List.mem_singleton.mp (List.mem_of_getElem? hq)
    exact Nat.zero_le runs
  · intro s e t out hs hstep
    obtain ⟨hat, hturn⟩ := step_turned hstep
    obtain ⟨hnew, hborn⟩ := hturn.ok (hs _ _ hat)
    intro other q hq
    rcases turn_getElem_cases hq with ⟨_, rfl⟩ | ⟨_, hq⟩ | ⟨_, b, hb, rfl⟩
    · exact hnew
    · exact hs _ _ hq
    · exact hborn b hb

/-- Unless a process aborts too early, there will be `(n + 1) ^ runs` processes in the end. -/
theorem total_heirs {tr : List Event} {s : State} (h : Reach (main n runs) tr s)
    (hab : ∀ p i, .aborted p i ∈ tr → runs ≤ i + 1) :
    total (fun q => q.pc.heirs n runs) s = (n + 1) ^ runs := by
  induction h with
  | init => simp [main, total, Pc.heirs]
  | @step tr s e t out hreach hstep ih =>
    obtain @⟨pid, parent, old, new, born, out, hat, hturn⟩ := step_turned hstep
    have hprev := ih fun p i hp => hab p i (List.mem_append_left _ hp)
    have hheirs := hturn.heirs (reach_ok hreach _ _ hat)
      fun p i hp => hab p i (List.mem_append_right _ hp)
    have htotal := total_turn (Pc.heirs n runs) hat new born
    rw [hheirs, hprev] at htotal
    exact Nat.add_right_cancel htotal

/-- Unless a process aborts before it, the run is entered `(n + 1) ^ (run + 1)` times. -/
theorem executors_add_owed {tr : List Event} {s : State} (h : Reach (main n runs) tr s)
    (hrun : run < runs) (hab : ∀ p i, .aborted p i ∈ tr → run ≤ i) :
    (executors tr run).length + total (fun q => q.pc.owed n run) s = (n + 1) ^ (run + 1) := by
  induction h with
  | init => simp [main, total, Pc.owed, executors]
  | @step tr s e t out hreach hstep ih =>
    obtain @⟨pid, parent, old, new, born, out, hat, hturn⟩ := step_turned hstep
    have hprev := ih fun p i hp => hab p i (List.mem_append_left _ hp)
    have howed := hturn.owed (reach_ok hreach _ _ hat) hrun
      fun p i hp => hab p i (List.mem_append_right _ hp)
    have htotal := total_turn (Pc.owed n run) hat new born
    rw [howed] at htotal
    rw [executors_append, List.length_append, ← hprev]
    omega

theorem length_eq_created {tr : List Event} {s : State} (h : Reach (main n runs) tr s) :
    s.length = (created tr).length + 1 := by
  induction h with
  | init => rfl
  | @step tr s e t out hreach hstep ih =>
    obtain ⟨hat, hturn⟩ := step_turned hstep
    cases hturn <;>
      simp [State.turn, created, List.filterMap_append] at ih ⊢ <;> omega

/-- The process has entered the given run. -/
def Pc.Entered (run : ℕ) : Pc → Prop
  | .looping i => run < i
  | .creating i _ => run ≤ i
  | .reading i _ => run ≤ i
  | .waiting => True
  | .exited => True

theorem Turn.entered {s : State} {pid : ℕ} {old new : Pc} {born : List Pc} {out : List Event}
    (h : Turn n runs s pid old new born out) (hold : old.Entered run) : new.Entered run := by
  cases h with
  | enters hi => exact hold.le
  | leaves hi => trivial
  | forks hj => exact hold
  | fallsOff hj => exact hold
  | reads => exact Nat.lt_succ_of_le hold
  | aborts => trivial
  | exits hw => trivial

end SysPerf.FileContention
