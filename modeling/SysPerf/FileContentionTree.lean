import SysPerf.FileContention

namespace SysPerf.FileContention

variable {n runs run : ℕ}

/-- What one process can do next, with the children it creates on the way. -/
inductive Turn (n runs : ℕ) (s : State) (pid : ℕ) : Pc → Pc → List Pc → List Event → Prop
  | enters {i} : i < runs → Turn n runs s pid (.looping i) (.creating i 0) [] [.executes pid i]
  | leaves {i} : ¬i < runs → Turn n runs s pid (.looping i) .waiting [] []
  | forks {i j} : j < n → Turn n runs s pid (.creating i j) (.creating i (j + 1)) [.reading i j]
      [.forked pid s.length i, .executes s.length i]
  | fallsOff {i j eax} : ¬j < n → Turn n runs s pid (.creating i j) (.reading i eax) [] []
  | reads {i k} : Turn n runs s pid (.reading i k) (.looping (i + 1)) [] []
  | aborts {i k} : Turn n runs s pid (.reading i k) .exited [] [.aborted pid i]
  | exits : s.childless pid = true → Turn n runs s pid .waiting .exited [] []

/-- The process goes on as `new` and its children go to the end of the list. -/
def State.turn (s : State) (pid : ℕ) (parent : Option ℕ) (new : Pc) (born : List Pc) : State :=
  s.set pid ⟨parent, new⟩ ++ born.map (⟨some pid, ·⟩)

inductive Turned (n runs : ℕ) (s : State) : State → List Event → Prop
  | intro {pid parent old new born out} : s[pid]? = some ⟨parent, old⟩ →
      Turn n runs s pid old new born out → Turned n runs s (s.turn pid parent new born) out

theorem Turned.alone {s : State} {pid : ℕ} {parent : Option ℕ} {old new : Pc}
    {out : List Event} (hat : s[pid]? = some ⟨parent, old⟩)
    (h : Turn n runs s pid old new [] out) :
    Turned n runs s (s.setPc pid ⟨parent, old⟩ new) out := by
  have hturned := Turned.intro hat h
  rwa [State.turn, List.map_nil, List.append_nil] at hturned

theorem runStep_turned {s t : State} {pid : ℕ} {out : List Event}
    (h : runStep n runs s pid = some (t, out)) : Turned n runs s t out := by
  unfold runStep at h
  split at h
  next q hq =>
    obtain ⟨parent, pc⟩ := q
    cases pc with
    | looping i =>
      simp only at h
      split at h
      next hi =>
        obtain ⟨rfl, rfl⟩ := Prod.mk.inj (Option.some.inj h)
        exact .alone hq (.enters hi)
      next hi =>
        obtain ⟨rfl, rfl⟩ := Prod.mk.inj (Option.some.inj h)
        exact .alone hq (.leaves hi)
    | creating i j =>
      obtain ⟨hj, heq⟩ := Option.ite_none_right_eq_some.mp h
      obtain ⟨rfl, rfl⟩ := Prod.mk.inj (Option.some.inj heq)
      exact .intro hq (.forks hj)
    | reading i k => simp at h
    | waiting =>
      obtain ⟨hw, heq⟩ := Option.ite_none_right_eq_some.mp h
      obtain ⟨rfl, rfl⟩ := Prod.mk.inj (Option.some.inj heq)
      exact .alone hq (.exits hw)
    | exited => simp at h
  next => simp at h

theorem fallOffStep_turned {s t : State} {pid : ℕ} {eax : ℤ} {out : List Event}
    (h : fallOffStep n s pid eax = some (t, out)) : Turned n runs s t out := by
  unfold fallOffStep at h
  split at h
  next q hq =>
    obtain ⟨parent, pc⟩ := q
    cases pc with
    | creating i j =>
      obtain ⟨hj, heq⟩ := Option.ite_none_left_eq_some.mp h
      obtain ⟨rfl, rfl⟩ := Prod.mk.inj (Option.some.inj heq)
      exact .alone hq (.fallsOff hj)
    | _ => simp at h
  next => simp at h

theorem fopenStep_turned {s t : State} {pid : ℕ} {found : Bool} {out : List Event}
    (h : fopenStep s pid found = some (t, out)) : Turned n runs s t out := by
  unfold fopenStep at h
  split at h
  next q hq =>
    obtain ⟨parent, pc⟩ := q
    cases pc with
    | reading i k =>
      cases found with
      | true =>
        obtain ⟨rfl, rfl⟩ := Prod.mk.inj (Option.some.inj h)
        exact .alone hq .reads
      | false =>
        obtain ⟨rfl, rfl⟩ := Prod.mk.inj (Option.some.inj h)
        exact .alone hq .aborts
    | _ => simp at h
  next => simp at h

theorem step_turned {s t : State} {e : Move} {out : List Event}
    (h : step n runs s e = some (t, out)) : Turned n runs s t out := by
  cases e with
  | run pid => exact runStep_turned h
  | fallOff pid eax => exact fallOffStep_turned h
  | fopen pid found => exact fopenStep_turned h

def Pc.Ok (n runs : ℕ) : Pc → Prop
  | .looping i => i ≤ runs
  | .creating i j => i < runs ∧ j ≤ n
  | .reading i _ => i < runs
  | .waiting => True
  | .exited => True

theorem Turn.ok {s : State} {pid : ℕ} {old new : Pc} {born : List Pc} {out : List Event}
    (h : Turn n runs s pid old new born out) (hold : old.Ok n runs) :
    new.Ok n runs ∧ ∀ b ∈ born, b.Ok n runs := by
  cases h with
  | enters hi => exact ⟨⟨hi, Nat.zero_le n⟩, by simp⟩
  | leaves hi => exact ⟨trivial, by simp⟩
  | forks hj => exact ⟨⟨hold.1, hj⟩, by simpa [Pc.Ok] using hold.1⟩
  | fallsOff hj => exact ⟨hold.1, by simp⟩
  | reads => exact ⟨hold, by simp⟩
  | aborts => exact ⟨trivial, by simp⟩
  | exits hw => exact ⟨trivial, by simp⟩

/-- How many processes the process stands for in the end: itself and all it will create,
directly or through its children. -/
def Pc.heirs (n runs : ℕ) : Pc → ℕ
  | .looping i => (n + 1) ^ (runs - i)
  | .creating i j => (n + 1 - j) * (n + 1) ^ (runs - (i + 1))
  | .reading i _ => (n + 1) ^ (runs - (i + 1))
  | .waiting => 1
  | .exited => 1

/-- How often the process and those it will create have still to enter the given run. -/
def Pc.owed (n run : ℕ) : Pc → ℕ
  | .looping i => if i ≤ run then (n + 1) ^ (run + 1 - i) else 0
  | .creating i j =>
    if i < run then (n + 1 - j) * (n + 1) ^ (run - i) else if i = run then n - j else 0
  | .reading i _ => if i < run then (n + 1) ^ (run - i) else 0
  | .waiting => 0
  | .exited => 0

/-- A turn hands the heirs of a process on, unless it aborts before the last run. -/
theorem Turn.heirs {s : State} {pid : ℕ} {old new : Pc} {born : List Pc} {out : List Event}
    (h : Turn n runs s pid old new born out) (hold : old.Ok n runs)
    (hab : ∀ p i, .aborted p i ∈ out → runs ≤ i + 1) :
    old.heirs n runs = new.heirs n runs + total (Pc.heirs n runs) born := by
  cases h with
  | @enters i hi =>
    have hsub : runs - i = runs - (i + 1) + 1 := by omega
    simp only [Pc.heirs, total, hsub, pow_succ]
    simp [Nat.mul_comm]
  | @leaves i hi =>
    have hsub : runs - i = 0 := by omega
    simp [Pc.heirs, total, hsub]
  | @forks i j hj =>
    have hsub : n + 1 - j = n + 1 - (j + 1) + 1 := by omega
    simp only [Pc.heirs, total, hsub, Nat.add_mul]
    simp [Pc.heirs]
  | @fallsOff i j eax hj =>
    have hsub : n + 1 - j = 1 := by have := hold.2; omega
    simp [Pc.heirs, total, hsub]
  | reads => simp [Pc.heirs, total]
  | @aborts i k =>
    have hlast := hab pid i (by simp)
    have hsub : runs - (i + 1) = 0 := by omega
    simp [Pc.heirs, total, hsub]
  | exits hw => simp [Pc.heirs, total]

/-- A turn enters the run or hands on what it owes, unless it aborts before that run. -/
theorem Turn.owed {s : State} {pid : ℕ} {old new : Pc} {born : List Pc} {out : List Event}
    (h : Turn n runs s pid old new born out) (hold : old.Ok n runs) (hrun : run < runs)
    (hab : ∀ p i, .aborted p i ∈ out → run ≤ i) :
    old.owed n run =
      new.owed n run + total (Pc.owed n run) born + (executors out run).length := by
  cases h with
  | @enters i hi =>
    rcases Nat.lt_trichotomy i run with hlt | rfl | hgt
    · have hsub : run + 1 - i = run - i + 1 := by omega
      simp [Pc.owed, total, executors, hlt, hlt.le, hlt.ne, hsub, pow_succ, Nat.mul_comm]
    · simp [Pc.owed, total, executors]
    · simp [Pc.owed, total, executors, hgt.ne', hgt.not_gt, hgt.not_ge]
  | @leaves i hi =>
    have hnot : ¬i ≤ run := by omega
    simp [Pc.owed, total, executors, hnot]
  | @forks i j hj =>
    rcases Nat.lt_trichotomy i run with hlt | rfl | hgt
    · have hsub : n + 1 - j = n + 1 - (j + 1) + 1 := by omega
      simp only [Pc.owed, hlt, if_true, hsub, Nat.add_mul]
      simp [Pc.owed, total, executors, hlt, hlt.ne]
    · simp [Pc.owed, total, executors]
      omega
    · simp [Pc.owed, total, executors, hgt.ne', hgt.not_gt]
  | @fallsOff i j eax hj =>
    have hsub : n + 1 - j = 1 := by have := hold.2; omega
    have hzero : n - j = 0 := by omega
    simp [Pc.owed, total, executors, hsub, hzero]
  | @reads i k =>
    by_cases hlt : i < run
    · have hsub : run + 1 - (i + 1) = run - i := by omega
      simp [Pc.owed, total, executors, hlt, Nat.succ_le_of_lt hlt, hsub]
    · have hover : ¬i + 1 ≤ run := by omega
      simp [Pc.owed, total, executors, hlt, hover]
  | @aborts i k =>
    have hlate := hab pid i (by simp)
    simp [Pc.owed, total, executors, hlate.not_gt]
  | exits hw => simp [Pc.owed, total, executors]

end SysPerf.FileContention
