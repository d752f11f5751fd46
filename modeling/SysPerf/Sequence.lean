import SysPerf.Machine

namespace SysPerf

/-- Machines to be run one after another. Each is entered with what the one before it left, and
`result` is what it leaves, once it is through. -/
structure Jobs (ι α ε δ : Type) where
  State : ι → Type
  machine : α → (j : ι) → Machine (State j) ε δ
  result : (j : ι) → State j → Option α

variable {ι α ε δ : Type}

namespace Jobs

inductive Place (jobs : Jobs ι α ε δ)
  | between (a : α) (left : List ι)
  | inside (a : α) (j : ι) (s : jobs.State j) (left : List ι)

inductive Move (ε : Type)
  | next
  | inside (e : ε)

def step (jobs : Jobs ι α ε δ) : jobs.Place → Move ε → Option (jobs.Place × List δ)
  | .between _ [], .next => none
  | .between a (j :: left), .next => some (.inside a j (jobs.machine a j).init left, [])
  | .between _ _, .inside _ => none
  | .inside _ j s left, .next => (jobs.result j s).map fun b => (.between b left, [])
  | .inside a j s left, .inside e =>
    ((jobs.machine a j).step s e).map fun p => (.inside a j p.1 left, p.2)

/-- The jobs of the list, in order. -/
def sequence (jobs : Jobs ι α ε δ) (a : α) (js : List ι) : Machine jobs.Place (Move ε) δ where
  init := .between a js
  step := jobs.step

variable {jobs : Jobs ι α ε δ}

/-- What a move of the sequence can be. -/
inductive Moves (jobs : Jobs ι α ε δ) : jobs.Place → jobs.Place → List δ → Prop
  | enters {a j left} :
    Moves jobs (.between a (j :: left)) (.inside a j (jobs.machine a j).init left) []
  | leaves {a j s left b} : jobs.result j s = some b →
    Moves jobs (.inside a j s left) (.between b left) []
  | moves {a j s left e t out} : (jobs.machine a j).step s e = some (t, out) →
    Moves jobs (.inside a j s left) (.inside a j t left) out

theorem step_moves {p q : jobs.Place} {e : Move ε} {out : List δ}
    (h : jobs.step p e = some (q, out)) : Moves jobs p q out := by
  unfold step at h
  split at h
  · simp at h
  · obtain ⟨rfl, rfl⟩ := Prod.mk.inj (Option.some.inj h)
    exact .enters
  · simp at h
  · obtain ⟨b, hb, heq⟩ := Option.map_eq_some_iff.mp h
    obtain ⟨rfl, rfl⟩ := Prod.mk.inj heq
    exact .leaves hb
  · obtain ⟨⟨t, seen⟩, ht, heq⟩ := Option.map_eq_some_iff.mp h
    obtain ⟨rfl, rfl⟩ := Prod.mk.inj heq
    exact .moves ht

/-- Jobs run to their results, from the first value to the last, with all that was observed. -/
inductive Ran (jobs : Jobs ι α ε δ) (a : α) : List ι → List δ → α → Prop
  | nil : Ran jobs a [] [] a
  | snoc {js past b j tr s d} : Ran jobs a js past b → Reach (jobs.machine b j) tr s →
    jobs.result j s = some d → Ran jobs a (js ++ [j]) (past ++ tr) d

/-- The jobs before the place have run, and the one it is inside of has come to its state. -/
def Place.Traced (a : α) (js : List ι) (tr : List δ) : jobs.Place → Prop
  | .between b left => ∃ ran, js = ran ++ left ∧ Ran jobs a ran tr b
  | .inside b j s left => ∃ ran past now, js = ran ++ j :: left ∧ tr = past ++ now ∧
      Ran jobs a ran past b ∧ Reach (jobs.machine b j) now s

theorem reach_traced {a : α} {js : List ι} {tr : List δ} {p : jobs.Place}
    (h : Reach (jobs.sequence a js) tr p) : p.Traced a js tr := by
  refine h.history (P := fun tr p => p.Traced a js tr) ⟨[], rfl, .nil⟩ ?_
  intro tr p e q out hp hstep
  cases step_moves hstep with
  | enters =>
    obtain ⟨ran, hjs, hran⟩ := hp
    exact ⟨ran, tr, [], hjs, rfl, hran, Reach.init⟩
  | @leaves b j s left d hd =>
    obtain ⟨ran, past, now, hjs, rfl, hran, hnow⟩ := hp
    exact ⟨ran ++ [j], by simpa using hjs, by simpa using hran.snoc hnow hd⟩
  | moves ht =>
    obtain ⟨ran, past, now, hjs, rfl, hran, hnow⟩ := hp
    exact ⟨ran, past, _, hjs, List.append_assoc .., hran, hnow.step ht⟩

section Safety

variable {js : List ι} {P : α → Prop} {Q : δ → Prop}

theorem Ran.all (hjob : ∀ b j tr s, j ∈ js → P b → Reach (jobs.machine b j) tr s →
      (∀ x ∈ tr, Q x) ∧ ∀ d, jobs.result j s = some d → P d)
    {a d : α} (ha : P a) {ran : List ι} (hsub : ran ⊆ js) {tr : List δ}
    (h : Ran jobs a ran tr d) : (∀ x ∈ tr, Q x) ∧ P d := by
  induction h with
  | nil => exact ⟨by simp, ha⟩
  | @snoc ran past b j now s d _ hnow hd ih =>
    obtain ⟨hpast, hb⟩ := ih fun k hk => hsub (List.mem_append_left _ hk)
    have hj : j ∈ js := hsub (by simp)
    obtain ⟨hall, hresult⟩ := hjob b j now s hj hb hnow
    exact ⟨List.forall_mem_append.mpr ⟨hpast, hall⟩, hresult d hd⟩

/-- What each job keeps to, started as the one before leaves it, the whole sequence keeps to. -/
theorem reach_all (hjob : ∀ b j tr s, j ∈ js → P b → Reach (jobs.machine b j) tr s →
      (∀ x ∈ tr, Q x) ∧ ∀ d, jobs.result j s = some d → P d)
    {a : α} (ha : P a) {tr : List δ} {p : jobs.Place}
    (h : Reach (jobs.sequence a js) tr p) : ∀ x ∈ tr, Q x := by
  have htraced := reach_traced h
  cases p with
  | between b left =>
    obtain ⟨ran, rfl, hran⟩ := htraced
    exact (hran.all hjob ha (List.subset_append_left _ _)).1
  | inside b j s left =>
    obtain ⟨ran, past, now, rfl, rfl, hran, hnow⟩ := htraced
    obtain ⟨hpast, hb⟩ := hran.all hjob ha (List.subset_append_left _ _)
    exact List.forall_mem_append.mpr ⟨hpast, (hjob b j now s (by simp) hb hnow).1⟩

end Safety

section Ends

/-- Each move of a job lowers its rank, which is no more than its cost at the start. -/
structure Ranked (jobs : Jobs ι α ε δ) (rank : (j : ι) → jobs.State j → ℕ) (cost : ι → ℕ) :
    Prop where
  init : ∀ a j, rank j (jobs.machine a j).init ≤ cost j
  step : ∀ {a j tr s e t out}, Reach (jobs.machine a j) tr s →
    (jobs.machine a j).step s e = some (t, out) → rank j t < rank j s

/-- A job entered with `P` is stuck only where it has its result, and then what was observed of
it is `full` and `P` holds again. -/
structure Job (jobs : Jobs ι α ε δ) (P : α → Prop) (full : ι → List δ) (j : ι) : Prop where
  returns : ∀ {a b tr s}, P a → Reach (jobs.machine a j) tr s → jobs.result j s = some b →
    tr = full j ∧ P b
  progress : ∀ {a tr s}, P a → Reach (jobs.machine a j) tr s → Stuck (jobs.machine a j) s →
    ∃ b, jobs.result j s = some b

def budget (cost : ι → ℕ) (left : List ι) : ℕ :=
  total (fun j => cost j + 2) left

def Place.rank (rank : (j : ι) → jobs.State j → ℕ) (cost : ι → ℕ) : jobs.Place → ℕ
  | .between _ left => budget cost left
  | .inside _ j s left => rank j s + 1 + budget cost left

/-- The machine of the job that is being run has come to its state. -/
def Place.Entered : jobs.Place → Prop
  | .between _ _ => True
  | .inside a j s _ => ∃ tr, Reach (jobs.machine a j) tr s

variable {rank : (j : ι) → jobs.State j → ℕ} {cost : ι → ℕ}

theorem Ranked.sequence_step (hr : Ranked jobs rank cost) {p q : jobs.Place} {e : Move ε}
    {out : List δ} (hp : p.Entered) (h : jobs.step p e = some (q, out)) :
    q.Entered ∧ q.rank rank cost < p.rank rank cost := by
  cases step_moves h with
  | @enters a j left =>
    refine ⟨⟨[], Reach.init⟩, ?_⟩
    have hinit := hr.init a j
    simp only [Place.rank, budget, total, List.map_cons, List.sum_cons]
    omega
  | leaves hb =>
    refine ⟨trivial, ?_⟩
    simp only [Place.rank]
    omega
  | moves ht =>
    obtain ⟨tr, htr⟩ := hp
    have hlt := hr.step htr ht
    refine ⟨⟨_, htr.step ht⟩, ?_⟩
    simp only [Place.rank]
    omega

/-- No schedule of the sequence is longer than the jobs' costs allow. -/
theorem Ranked.schedule_length (hr : Ranked jobs rank cost) {a : α} {js : List ι}
    {es : List (Move ε)} {out : List δ} {p : jobs.Place}
    (h : (jobs.sequence a js).exec (jobs.sequence a js).init es = some (p, out)) :
    es.length ≤ budget cost js :=
  exec_length_le (s := .between a js) (Place.rank rank cost) Place.Entered
    (fun _ _ _ _ hp hstep => hr.sequence_step hp hstep) trivial h

variable {js : List ι} {P : α → Prop} {full : ι → List δ}

theorem Ran.traces (hjob : ∀ j ∈ js, Job jobs P full j) {a d : α} (ha : P a) {ran : List ι}
    (hsub : ran ⊆ js) {tr : List δ} (h : Ran jobs a ran tr d) : tr = ran.flatMap full ∧ P d := by
  induction h with
  | nil => exact ⟨rfl, ha⟩
  | @snoc ran past b j now s d _ hnow hd ih =>
    obtain ⟨rfl, hb⟩ := ih fun k hk => hsub (List.mem_append_left _ hk)
    obtain ⟨rfl, hP⟩ := (hjob j (hsub (by simp))).returns hb hnow hd
    exact ⟨by simp, hP⟩

/-- The sequence is stuck only where all its jobs are through. -/
theorem stuck_ended (hjob : ∀ j ∈ js, Job jobs P full j) {a : α} (ha : P a) {tr : List δ}
    {p : jobs.Place} (h : Reach (jobs.sequence a js) tr p)
    (stuck : Stuck (jobs.sequence a js) p) : ∃ b, p = .between b [] := by
  have htraced := reach_traced h
  cases p with
  | between b left =>
    cases left with
    | nil => exact ⟨b, rfl⟩
    | cons j left =>
      have hnext : jobs.step (.between b (j :: left)) .next = none := stuck .next
      simp [step] at hnext
  | inside b j s left =>
    obtain ⟨ran, past, now, rfl, rfl, hran, hnow⟩ := htraced
    obtain ⟨-, hb⟩ := hran.traces hjob ha (List.subset_append_left _ _)
    have hinner : Stuck (jobs.machine b j) s := fun e => by
      have hmove : jobs.step (.inside b j s left) (.inside e) = none := stuck (.inside e)
      simpa [step] using hmove
    obtain ⟨d, hd⟩ := (hjob j (by simp)).progress hb hnow hinner
    have hnext : jobs.step (.inside b j s left) .next = none := stuck .next
    simp [step, hd] at hnext

theorem reach_ended (hjob : ∀ j ∈ js, Job jobs P full j) {a b : α} (ha : P a) {tr : List δ}
    (h : Reach (jobs.sequence a js) tr (.between b [])) : tr = js.flatMap full ∧ P b := by
  obtain ⟨ran, hjs, hran⟩ := reach_traced h
  rw [List.append_nil] at hjs
  subst hjs
  exact hran.traces hjob ha (List.Subset.refl _)

/-- Every run can be brought to the end of all jobs, so it has seen a part of what there is to
see. -/
theorem Ranked.run_ends (hr : Ranked jobs rank cost) (hjob : ∀ j ∈ js, Job jobs P full j) {a : α}
    (ha : P a) {tr : List δ} {p : jobs.Place} (h : Reach (jobs.sequence a js) tr p) :
    ∃ more b, Reach (jobs.sequence a js) (tr ++ more) (.between b []) ∧
      tr ++ more = js.flatMap full := by
  have hentered : p.Entered := by
    have htraced := reach_traced h
    cases p with
    | between b left => trivial
    | inside b j s left =>
      obtain ⟨_, _, now, _, _, _, hnow⟩ := htraced
      exact ⟨now, hnow⟩
  obtain ⟨more, q, hq, -, hstuck⟩ := h.exists_stuck (Place.rank rank cost) Place.Entered
    (fun _ _ _ _ hp hstep => hr.sequence_step hp hstep) hentered
  obtain ⟨b, rfl⟩ := stuck_ended hjob ha hq hstuck
  exact ⟨more, b, hq, (reach_ended hjob ha hq).1⟩

end Ends

end Jobs

end SysPerf
