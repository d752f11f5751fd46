import SysPerf.Machine
import Mathlib.Data.List.Range

namespace SysPerf.CreateProcesses

/-- A process in a call of `create_processes`: in the loop, at the `return i` of a child, back
from the call with a value, or back without one, because the function ends behind the loop. -/
inductive Proc
  | looping (i : ℕ)
  | child (i : ℕ)
  | returned (v : ℕ)
  | fellOff
  deriving DecidableEq

/-- The processes in the order of their creation, the caller first. -/
abbrev State := List Proc

inductive Event
  | forked (parent child : ℕ)
  | forkFailed (parent : ℕ)
  | returned (pid v : ℕ)
  | fellOff (pid : ℕ)
  deriving DecidableEq

/-- `forks pid i` says whether the `fork` of the process `pid` at `i` succeeds. -/
def step (n : ℕ) (forks : ℕ → ℕ → Bool) (s : State) (pid : ℕ) : Option (State × List Event) :=
  match s[pid]? with
  | some (.looping i) =>
    if i < n then
      if forks pid i then
        some (s.set pid (.looping (i + 1)) ++ [.child i], [.forked pid s.length])
      else some (s.set pid (.looping (i + 1)), [.forkFailed pid])
    else some (s.set pid .fellOff, [.fellOff pid])
  | some (.child i) => some (s.set pid (.returned i), [.returned pid i])
  | _ => none

/-- `create_processes(n)`. -/
def createProcesses (n : ℕ) (forks : ℕ → ℕ → Bool) : Machine State ℕ Event where
  init := [.looping 0]
  step := step n forks

variable {n : ℕ} {forks : ℕ → ℕ → Bool}

inductive Moves (n : ℕ) (forks : ℕ → ℕ → Bool) (s : State) (pid : ℕ) : State → List Event → Prop
  | forks {i} : s[pid]? = some (.looping i) → i < n → forks pid i →
      Moves n forks s pid (s.set pid (.looping (i + 1)) ++ [.child i]) [.forked pid s.length]
  | fails {i} : s[pid]? = some (.looping i) → i < n → ¬forks pid i →
      Moves n forks s pid (s.set pid (.looping (i + 1))) [.forkFailed pid]
  | falls {i} : s[pid]? = some (.looping i) → ¬i < n →
      Moves n forks s pid (s.set pid .fellOff) [.fellOff pid]
  | returns {i} : s[pid]? = some (.child i) →
      Moves n forks s pid (s.set pid (.returned i)) [.returned pid i]

theorem step_moves {s t : State} {pid : ℕ} {out : List Event}
    (h : step n forks s pid = some (t, out)) : Moves n forks s pid t out := by
  unfold step at h
  split at h
  next i hat =>
    split at h
    next hlt =>
      split at h
      next hfork =>
        obtain ⟨rfl, rfl⟩ := Prod.mk.inj (Option.some.inj h)
        exact Moves.forks hat hlt hfork
      next hfork =>
        obtain ⟨rfl, rfl⟩ := Prod.mk.inj (Option.some.inj h)
        exact Moves.fails hat hlt hfork
    next hge =>
      obtain ⟨rfl, rfl⟩ := Prod.mk.inj (Option.some.inj h)
      exact Moves.falls hat hge
  next i hat =>
    obtain ⟨rfl, rfl⟩ := Prod.mk.inj (Option.some.inj h)
    exact Moves.returns hat
  next => cases h

/-- A child holds the value it returns or has returned. -/
def Proc.value? : Proc → Option ℕ
  | .child i => some i
  | .returned v => some v
  | _ => none

/-- The caller has come to `i` in its loop and has a child for each `fork` that succeeded. -/
structure Tree (n : ℕ) (forks : ℕ → ℕ → Bool) (s : State) (i : ℕ) (caller : Proc)
    (children : List Proc) : Prop where
  state : s = caller :: children
  turn : i ≤ n
  caller : caller = .looping i ∨ caller = .fellOff ∧ i = n
  values : children.map Proc.value? = ((List.range i).filter (forks 0)).map some

theorem Tree.start : Tree n forks [.looping 0] 0 (.looping 0) [] :=
  ⟨rfl, Nat.zero_le n, Or.inl rfl, rfl⟩

theorem Tree.child_value {s : State} {i : ℕ} {caller p : Proc} {children : List Proc}
    (h : Tree n forks s i caller children) (hp : p ∈ children) :
    ∃ v, p.value? = some v ∧ v < n := by
  have hmem := List.mem_map_of_mem (f := Proc.value?) hp
  rw [h.values] at hmem
  obtain ⟨v, hv, heq⟩ := List.mem_map.mp hmem
  have hlt := List.mem_range.mp (List.mem_filter.mp hv).1
  have := h.turn
  exact ⟨v, heq.symm, by omega⟩

/-- Only the caller is ever in the loop. -/
theorem Tree.looping {s : State} {i j pid : ℕ} {caller : Proc} {children : List Proc}
    (h : Tree n forks s i caller children) (hat : s[pid]? = some (.looping j)) :
    pid = 0 ∧ caller = .looping j ∧ i = j := by
  rw [h.state] at hat
  cases pid with
  | zero =>
    obtain rfl : caller = .looping j := by simpa using hat
    rcases h.caller with heq | ⟨heq, -⟩
    · cases heq
      exact ⟨rfl, rfl, rfl⟩
    · cases heq
  | succ pid =>
    have hmem : Proc.looping j ∈ children := List.mem_of_getElem? (by simpa using hat)
    obtain ⟨v, hv, -⟩ := h.child_value hmem
    cases hv

/-- A turn of the caller or the return of a child. -/
theorem Tree.move {s t : State} {i pid : ℕ} {caller : Proc} {children : List Proc}
    {out : List Event} (h : Tree n forks s i caller children) (hmove : Moves n forks s pid t out) :
    ∃ i' caller' children', Tree n forks t i' caller' children' := by
  have hloop : ∀ {j}, s[pid]? = some (.looping j) → pid = 0 ∧ caller = .looping j ∧ i = j :=
    h.looping
  obtain ⟨rfl, hturn, hcaller, hvalues⟩ := h
  cases hmove with
  | forks hat hlt hfork =>
    obtain ⟨rfl, rfl, rfl⟩ := hloop hat
    refine ⟨i + 1, .looping (i + 1), children ++ [.child i], rfl, hlt, Or.inl rfl, ?_⟩
    rw [List.map_append, hvalues, List.range_succ, List.filter_append, List.map_append]
    simp [hfork, Proc.value?]
  | fails hat hlt hfork =>
    obtain ⟨rfl, rfl, rfl⟩ := hloop hat
    refine ⟨i + 1, .looping (i + 1), children, rfl, hlt, Or.inl rfl, ?_⟩
    rw [hvalues, List.range_succ, List.filter_append]
    simp [hfork]
  | falls hat hge =>
    obtain ⟨rfl, rfl, rfl⟩ := hloop hat
    exact ⟨i, .fellOff, children, rfl, hturn, Or.inr ⟨rfl, by omega⟩, hvalues⟩
  | @returns j hat =>
    cases pid with
    | zero =>
      obtain rfl : caller = .child j := by simpa using hat
      rcases hcaller with heq | ⟨heq, -⟩ <;> cases heq
    | succ pid =>
      have hat : children[pid]? = some (.child j) := by simpa using hat
      refine ⟨i, caller, children.set pid (.returned j), rfl, hturn, hcaller, ?_⟩
      rw [← hvalues, List.map_set]
      obtain ⟨hlt, hget⟩ := List.getElem?_eq_some_iff.mp hat
      apply List.ext_getElem (by simp)
      intro k hk hk'
      rw [List.getElem_set]
      split
      next heq =>
        subst heq
        simp [hget, Proc.value?]
      next => rfl

theorem reach_tree {tr : List Event} {s : State} (h : Reach (createProcesses n forks) tr s) :
    ∃ i caller children, Tree n forks s i caller children := by
  apply h.invariant (P := fun s => ∃ i caller children, Tree n forks s i caller children)
  · exact ⟨0, _, _, Tree.start⟩
  · rintro s pid t out ⟨i, caller, children, htree⟩ hstep
    exact htree.move (step_moves hstep)

/-- No child forks. -/
theorem forked_by_caller {tr : List Event} {s : State} (h : Reach (createProcesses n forks) tr s)
    {parent child : ℕ} (hfork : .forked parent child ∈ tr) : parent = 0 := by
  have hall : (∃ i caller children, Tree n forks s i caller children) ∧
      ∀ parent child, .forked parent child ∈ tr → parent = 0 := by
    apply h.history (P := fun tr s => (∃ i caller children, Tree n forks s i caller children) ∧
      ∀ parent child, .forked parent child ∈ tr → parent = 0)
    · exact ⟨⟨0, _, _, Tree.start⟩, by simp⟩
    · rintro tr s pid t out ⟨⟨i, caller, children, htree⟩, hold⟩ hstep
      have hmove := step_moves hstep
      refine ⟨htree.move hmove, ?_⟩
      intro parent child hmem
      rcases List.mem_append.mp hmem with hmem | hmem
      · exact hold parent child hmem
      · cases hmove with
        | forks hat hlt hfork =>
          obtain ⟨rfl, -⟩ := htree.looping hat
          simp only [List.mem_singleton, Event.forked.injEq] at hmem
          exact hmem.1
        | fails hat hlt hfork => simp at hmem
        | falls hat hge => simp at hmem
        | returns hat => simp at hmem
  exact hall.2 parent child hfork

end SysPerf.CreateProcesses
