import SysPerf.FileContentionRuns

namespace SysPerf.FileContention

variable {n runs run : ℕ}

/-- Whoever enters a run in a turn is the process that moves or its new child. -/
theorem Turn.executors (run : ℕ) {s : State} {pid : ℕ} {old new : Pc} {born : List Pc} {out : List Event}
    (h : Turn n runs s pid old new born out) :
    executors out run = [] ∨
      (∃ i, old = .looping i ∧ executors out run = [pid] ∧ i = run ∧ new.Entered run) ∨
      (∃ b, born = [b] ∧ executors out run = [s.length] ∧ b.Entered run) := by
  cases h with
  | @enters i hi =>
    by_cases hrun : i = run
    · subst hrun
      exact Or.inr (Or.inl ⟨i, rfl, by simp [FileContention.executors], rfl, le_rfl⟩)
    · exact Or.inl (by simp [FileContention.executors, hrun])
  | @forks i j hj =>
    by_cases hrun : i = run
    · subst hrun
      exact Or.inr (Or.inr ⟨_, rfl, by simp [FileContention.executors], le_rfl⟩)
    · exact Or.inl (by simp [FileContention.executors, hrun])
  | leaves hi => exact Or.inl rfl
  | fallsOff hj => exact Or.inl rfl
  | reads => exact Or.inl rfl
  | aborts => exact Or.inl rfl
  | exits hw => exact Or.inl rfl

/-- Everyone in the list has entered the run. -/
def State.AllEntered (s : State) (run : ℕ) (pids : List ℕ) : Prop :=
  ∀ pid ∈ pids, ∃ q : Proc, s[pid]? = some q ∧ q.pc.Entered run

theorem allEntered_turn {s : State} {pid : ℕ} {parent : Option ℕ} {old new : Pc}
    {born : List Pc} {out : List Event} {pids : List ℕ} (h : s.AllEntered run pids)
    (hat : s[pid]? = some ⟨parent, old⟩) (hturn : Turn n runs s pid old new born out) :
    (s.turn pid parent new born).AllEntered run pids := by
  intro other hother
  obtain ⟨q, hq, hin⟩ := h other hother
  by_cases hpid : other = pid
  · subst hpid
    obtain rfl : q = ⟨parent, old⟩ := Option.some.inj (hq.symm.trans hat)
    exact ⟨_, turn_getElem hat new born, hturn.entered hin⟩
  · exact ⟨q, turn_getElem_ne hpid hq, hin⟩

/-- No process enters a run twice. -/
theorem executors_nodup {tr : List Event} {s : State} (h : Reach (main n runs) tr s) :
    (executors tr run).Nodup ∧ s.AllEntered run (executors tr run) := by
  induction h with
  | init => exact ⟨List.nodup_nil, fun _ hp => absurd hp List.not_mem_nil⟩
  | @step tr s e t out hreach hstep ih =>
    obtain @⟨pid, parent, old, new, born, out, hat, hturn⟩ := step_turned hstep
    obtain ⟨hnodup, hall⟩ := ih
    have hkeep := allEntered_turn hall hat hturn
    rw [executors_append]
    rcases hturn.executors run with hnone | ⟨i, rfl, hpid, rfl, hnew⟩ |
      ⟨b, rfl, hchild, hb⟩
    · rw [hnone, List.append_nil]
      exact ⟨hnodup, hkeep⟩
    · rw [hpid]
      have hfresh : pid ∉ executors tr i := by
        intro hmem
        obtain ⟨q, hq, hin⟩ := hall pid hmem
        obtain rfl : q = ⟨parent, .looping i⟩ := Option.some.inj (hq.symm.trans hat)
        exact absurd hin (Nat.lt_irrefl i)
      refine ⟨by simpa using hnodup.concat hfresh, fun other hother => ?_⟩
      rcases List.mem_append.mp hother with hother | hother
      · exact hkeep other hother
      · obtain rfl := List.mem_singleton.mp hother
        exact ⟨_, turn_getElem hat new born, hnew⟩
    · rw [hchild]
      have hfresh : s.length ∉ executors tr run := by
        intro hmem
        obtain ⟨q, hq, _⟩ := hall _ hmem
        exact absurd (List.getElem?_eq_some_iff.mp hq).1 (Nat.lt_irrefl _)
      refine ⟨by simpa using hnodup.concat hfresh, fun other hother => ?_⟩
      rcases List.mem_append.mp hother with hother | hother
      · exact hkeep other hother
      · obtain rfl := List.mem_singleton.mp hother
        exact ⟨⟨some pid, b⟩, by simp [State.turn], hb⟩

theorem total_of_complete {s : State} (w : Pc → ℕ) (h : s.complete) :
    total (fun q => w q.pc) s = s.length * w .exited := by
  have hall : s.map (fun q => w q.pc) = s.map fun _ => w .exited :=
    List.map_congr_left fun q hq => by rw [h q hq]
  simp [total, hall]

/-- Without an abort before it the run is executed by `(n + 1) ^ (run + 1)` processes. -/
theorem executors_card {tr : List Event} {s : State} (h : Reach (main n runs) tr s)
    (hs : s.complete) (hrun : run < runs) (hab : ∀ p i, .aborted p i ∈ tr → run ≤ i) :
    (executors tr run).toFinset.card = (n + 1) ^ (run + 1) := by
  have hcount := executors_add_owed h hrun hab
  rw [total_of_complete (Pc.owed n run) hs] at hcount
  rw [List.toFinset_card_of_nodup (executors_nodup h).1]
  simpa [Pc.owed] using hcount

theorem created_length {tr : List Event} {s : State} (h : Reach (main n runs) tr s)
    (hs : s.complete) (hab : ∀ p i, .aborted p i ∈ tr → runs ≤ i + 1) :
    (created tr).length + 1 = (n + 1) ^ runs := by
  have hcount := total_heirs h hab
  rw [total_of_complete (Pc.heirs n runs) hs] at hcount
  simpa [← length_eq_created h, Pc.heirs] using hcount

/-- The process is past the start of run 0. -/
def Pc.Later : Pc → Prop
  | .looping i => 0 < i
  | .creating i _ => 0 < i
  | .reading _ _ => True
  | .waiting => True
  | .exited => True

theorem Turn.later {s : State} {pid : ℕ} {old new : Pc} {born : List Pc} {out : List Event}
    (h : Turn n runs s pid old new born out) :
    (old.Later → new.Later) ∧ ∀ b ∈ born, b.Later := by
  cases h with
  | enters hi => exact ⟨id, by simp⟩
  | leaves hi => exact ⟨fun _ => trivial, by simp⟩
  | forks hj => exact ⟨id, by simp [Pc.Later]⟩
  | fallsOff hj => exact ⟨fun _ => trivial, by simp⟩
  | reads => exact ⟨fun _ => Nat.succ_pos _, by simp⟩
  | aborts => exact ⟨fun _ => trivial, by simp⟩
  | exits hw => exact ⟨fun _ => trivial, by simp⟩

/-- Run 0 is the root's and that of the children it forks there. -/
structure FirstRun (tr : List Event) (s : State) : Prop where
  later : ∀ (pid : ℕ) (q : Proc), pid ≠ 0 → s[pid]? = some q → q.pc.Later
  root : (∃ parent, s[0]? = some ⟨parent, .looping 0⟩) ∨ 0 ∈ executors tr 0
  children : ∀ pid, pid ∈ executors tr 0 → pid = 0 ∨ ∃ parent, .forked parent pid 0 ∈ tr
  forked : ∀ parent pid, .forked parent pid 0 ∈ tr → pid ∈ executors tr 0

/-- The first turn of the root enters run 0. -/
theorem FirstRun.root_turn {tr out : List Event} {s : State} {pid : ℕ} {parent : Option ℕ}
    {old new : Pc} {born : List Pc} (hs : FirstRun tr s) (hruns : 0 < runs)
    (hat : s[pid]? = some ⟨parent, old⟩) (hturn : Turn n runs s pid old new born out) :
    (∃ par, (s.turn pid parent new born)[0]? = some ⟨par, .looping 0⟩) ∨
      0 ∈ executors (tr ++ out) 0 := by
  rcases hs.root with ⟨par, hroot⟩ | hroot
  · by_cases hpid : 0 = pid
    · subst hpid
      obtain ⟨rfl, rfl⟩ : par = parent ∧ Pc.looping 0 = old := by
        simpa using hroot.symm.trans hat
      cases hturn with
      | enters hi => exact Or.inr (by simp [executors])
      | leaves hi => exact absurd hruns hi
    · exact Or.inl ⟨par, turn_getElem_ne hpid hroot⟩
  · exact Or.inr (by simp [hroot])

/-- Apart from the root only a new child can enter run 0. -/
theorem FirstRun.children_turn {tr out : List Event} {s : State} {pid : ℕ} {parent : Option ℕ}
    {old new : Pc} {born : List Pc} (hs : FirstRun tr s)
    (hat : s[pid]? = some ⟨parent, old⟩) (hturn : Turn n runs s pid old new born out) {other : ℕ}
    (hother : other ∈ executors (tr ++ out) 0) :
    other = 0 ∨ ∃ par, .forked par other 0 ∈ tr ++ out := by
  rw [executors_append] at hother
  rcases List.mem_append.mp hother with hother | hother
  · rcases hs.children other hother with rfl | ⟨par, hpar⟩
    · exact Or.inl rfl
    · exact Or.inr ⟨par, List.mem_append_left _ hpar⟩
  · cases hturn with
    | @enters i hi =>
      obtain ⟨rfl, rfl⟩ : i = 0 ∧ other = pid := by
        simpa [mem_executors, eq_comm, and_comm] using hother
      by_contra hne
      exact absurd (hs.later other _ (fun h => hne (Or.inl h)) hat) (Nat.lt_irrefl 0)
    | @forks i j hj =>
      obtain ⟨rfl, rfl⟩ : i = 0 ∧ other = s.length := by
        simpa [mem_executors, eq_comm, and_comm] using hother
      exact Or.inr ⟨pid, by simp⟩
    | _ => simp [executors] at hother

theorem FirstRun.forked_turn {tr out : List Event} {s : State} {pid : ℕ} {old new : Pc}
    {born : List Pc} (hs : FirstRun tr s) (hturn : Turn n runs s pid old new born out)
    {par child : ℕ} (hforked : .forked par child 0 ∈ tr ++ out) :
    child ∈ executors (tr ++ out) 0 := by
  rw [executors_append]
  rcases List.mem_append.mp hforked with hforked | hforked
  · exact List.mem_append_left _ (hs.forked par child hforked)
  · cases hturn with
    | forks hj =>
      obtain ⟨rfl, rfl, rfl⟩ : par = pid ∧ child = s.length ∧ 0 = _ := by
        simpa using hforked
      exact List.mem_append_right _ (by simp [executors])
    | _ => simp at hforked

theorem first_run {tr : List Event} {s : State} (h : Reach (main n runs) tr s)
    (hruns : 0 < runs) : FirstRun tr s := by
  refine h.history (P := FirstRun) ⟨?_, Or.inl ⟨none, rfl⟩, by simp [executors], by simp⟩ ?_
  · intro pid q hpid hq
    cases pid with
    | zero => exact absurd rfl hpid
    | succ pid => simp [main] at hq
  · intro tr s e t out hs hstep
    obtain @⟨pid, parent, old, new, born, out, hat, hturn⟩ := step_turned hstep
    obtain ⟨hlater, hborn⟩ := hturn.later
    refine ⟨fun other q hne hq => ?_, hs.root_turn hruns hat hturn,
      fun other hother => hs.children_turn hat hturn hother,
      fun par child hforked => hs.forked_turn hturn hforked⟩
    rcases turn_getElem_cases hq with ⟨rfl, rfl⟩ | ⟨_, hq⟩ | ⟨_, b, hb, rfl⟩
    · exact hlater (hs.later _ _ hne hat)
    · exact hs.later _ _ hne hq
    · exact hborn b hb

end SysPerf.FileContention
