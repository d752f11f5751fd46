import Mathlib.Algebra.GroupWithZero.Nat
import Mathlib.Order.Basic
import Mathlib.Algebra.BigOperators.Group.Finset.Basic
import Mathlib.Algebra.Order.BigOperators.Group.Finset

namespace SysPerf

/-- Parties that move one at a time. The scheduler names the move `e`; `step s e` is
`none` while that move is not enabled, and the list holds what an observer sees of it. -/
structure Machine (σ ε δ : Type) where
  init : σ
  step : σ → ε → Option (σ × List δ)

variable {σ ε δ τ κ : Type}

/-- States that some schedule reaches, with the observations made on the way. -/
inductive Reach (m : Machine σ ε δ) : List δ → σ → Prop
  | init : Reach m [] m.init
  | step {tr s e t out} : Reach m tr s → m.step s e = some (t, out) → Reach m (tr ++ out) t

def Stuck (m : Machine σ ε δ) (s : σ) : Prop :=
  ∀ e, m.step s e = none

/-- The effect of one whole schedule, `none` as soon as a move in it is not enabled. -/
def Machine.exec (m : Machine σ ε δ) : σ → List ε → Option (σ × List δ)
  | s, [] => some (s, [])
  | s, e :: es => (m.step s e).bind fun p => (m.exec p.1 es).map fun q => (q.1, p.2 ++ q.2)

theorem Reach.history {m : Machine σ ε δ} {P : List δ → σ → Prop} (start : P [] m.init)
    (keep : ∀ tr s e t out, P tr s → m.step s e = some (t, out) → P (tr ++ out) t)
    {tr : List δ} {s : σ} (h : Reach m tr s) : P tr s := by
  induction h with
  | init => exact start
  | step _ hs ih => exact keep _ _ _ _ _ ih hs

theorem Reach.invariant {m : Machine σ ε δ} {P : σ → Prop} (start : P m.init)
    (keep : ∀ s e t out, P s → m.step s e = some (t, out) → P t)
    {tr : List δ} {s : σ} (h : Reach m tr s) : P s :=
  h.history (P := fun _ s => P s) start (fun _ s e t out => keep s e t out)

theorem Reach.exec {m : Machine σ ε δ} {tr out : List δ} {s t : σ} {es : List ε}
    (h : Reach m tr s) (he : m.exec s es = some (t, out)) : Reach m (tr ++ out) t := by
  induction es generalizing tr out s with
  | nil =>
    obtain ⟨rfl, rfl⟩ : s = t ∧ [] = out := by simpa [Machine.exec] using he
    simpa using h
  | cons e es ih =>
    obtain ⟨⟨u, first⟩, hu, he⟩ := Option.bind_eq_some_iff.mp he
    obtain ⟨⟨v, rest⟩, hv, heq⟩ := Option.map_eq_some_iff.mp he
    obtain ⟨rfl, rfl⟩ := Prod.mk.inj heq
    simpa using ih (h.step hu) hv

theorem reach_of_exec {m : Machine σ ε δ} {out : List δ} {s : σ} (es : List ε)
    (he : m.exec m.init es = some (s, out)) : Reach m out s := by
  simpa using Reach.init.exec he

/-- A rank that every move lowers lets each run be prolonged to one that cannot move. -/
theorem Reach.exists_stuck {m : Machine σ ε δ} (rank : σ → ℕ) (P : σ → Prop)
    (keep : ∀ s e t out, P s → m.step s e = some (t, out) → P t ∧ rank t < rank s)
    {tr : List δ} {s : σ} (h : Reach m tr s) (hs : P s) :
    ∃ more t, Reach m (tr ++ more) t ∧ P t ∧ Stuck m t := by
  induction hr : rank s using Nat.strong_induction_on generalizing tr s with
  | _ r ih =>
    by_cases stuck : Stuck m s
    · exact ⟨[], s, by simpa using h, hs, stuck⟩
    · obtain ⟨e, he⟩ := not_forall.mp stuck
      obtain ⟨⟨t, out⟩, ht⟩ := Option.ne_none_iff_exists'.mp he
      obtain ⟨hP, hlt⟩ := keep s e t out hs ht
      obtain ⟨more, u, hu, hPu, hstuck⟩ := ih (rank t) (by omega) (h.step ht) hP rfl
      exact ⟨out ++ more, u, by simpa using hu, hPu, hstuck⟩

/-- No schedule is longer than a rank that every move lowers. -/
theorem exec_length_le {m : Machine σ ε δ} (rank : σ → ℕ) (P : σ → Prop)
    (keep : ∀ s e t out, P s → m.step s e = some (t, out) → P t ∧ rank t < rank s)
    {s t : σ} {es : List ε} {out : List δ} (hs : P s) (h : m.exec s es = some (t, out)) :
    es.length ≤ rank s := by
  induction es generalizing s out with
  | nil => exact Nat.zero_le _
  | cons e es ih =>
    obtain ⟨⟨u, first⟩, hu, h⟩ := Option.bind_eq_some_iff.mp h
    obtain ⟨⟨v, rest⟩, hv, heq⟩ := Option.map_eq_some_iff.mp h
    obtain ⟨rfl, rfl⟩ := Prod.mk.inj heq
    obtain ⟨hP, hlt⟩ := keep s e u first hs hu
    have hrest := ih hP hv
    rw [List.length_cons]
    omega

/-- What every move keeps, a schedule keeps. -/
theorem exec_invariant {m : Machine σ ε δ} {P : σ → Prop}
    (keep : ∀ s e t out, P s → m.step s e = some (t, out) → P t) {s t : σ} {es : List ε}
    {out : List δ} (hs : P s) (h : m.exec s es = some (t, out)) : P t := by
  induction es generalizing s out with
  | nil =>
    obtain ⟨rfl, -⟩ : s = t ∧ [] = out := by simpa [Machine.exec] using h
    exact hs
  | cons e es ih =>
    obtain ⟨⟨u, first⟩, hu, h⟩ := Option.bind_eq_some_iff.mp h
    obtain ⟨⟨v, rest⟩, hv, heq⟩ := Option.map_eq_some_iff.mp h
    obtain ⟨rfl, rfl⟩ := Prod.mk.inj heq
    exact ih (keep s e u first hs hu) hv

/-- Every move of `m` is silent for `a` or is a move of `a` with the same observations. -/
structure Simulates (m : Machine σ ε δ) (a : Machine τ κ δ) (R : σ → τ → Prop) : Prop where
  init : R m.init a.init
  step : ∀ {s x e t out}, R s x → m.step s e = some (t, out) →
    (out = [] ∧ R t x) ∨ ∃ k y, a.step x k = some (y, out) ∧ R t y

theorem Simulates.reach {m : Machine σ ε δ} {a : Machine τ κ δ} {R : σ → τ → Prop}
    (sim : Simulates m a R) {tr : List δ} {s : σ} (h : Reach m tr s) :
    ∃ x, Reach a tr x ∧ R s x := by
  induction h with
  | init => exact ⟨a.init, Reach.init, sim.init⟩
  | step _ hs ih =>
    obtain ⟨x, hx, hR⟩ := ih
    rcases sim.step hR hs with ⟨rfl, hR'⟩ | ⟨k, y, hy, hR'⟩
    · exact ⟨x, by simpa using hx, hR'⟩
    · exact ⟨y, hx.step hy, hR'⟩

/-- The second machine moves as the first one does wherever that one can be. -/
structure SameMoves (m n : Machine σ ε δ) : Prop where
  init : n.init = m.init
  step : ∀ {tr s}, Reach m tr s → ∀ e, n.step s e = m.step s e

theorem SameMoves.reach_iff {m n : Machine σ ε δ} (same : SameMoves m n) {tr : List δ} {s : σ} :
    Reach n tr s ↔ Reach m tr s := by
  constructor
  · intro h
    induction h with
    | init => exact same.init ▸ Reach.init
    | step _ hs ih => exact ih.step ((same.step ih _).symm.trans hs)
  · intro h
    induction h with
    | init => exact same.init ▸ Reach.init
    | step hr hs ih => exact ih.step ((same.step hr _).trans hs)

theorem SameMoves.stuck_iff {m n : Machine σ ε δ} (same : SameMoves m n) {tr : List δ} {s : σ}
    (h : Reach m tr s) : Stuck n s ↔ Stuck m s :=
  forall_congr' fun e => by rw [same.step h e]

theorem SameMoves.exec_eq {m n : Machine σ ε δ} (same : SameMoves m n) {tr : List δ} {s : σ}
    (h : Reach m tr s) (es : List ε) : n.exec s es = m.exec s es := by
  induction es generalizing tr s with
  | nil => rfl
  | cons e es ih =>
    rw [Machine.exec, Machine.exec, same.step h e]
    cases hs : m.step s e with
    | none => rfl
    | some p =>
      obtain ⟨t, out⟩ := p
      rw [Option.bind_some, Option.bind_some, ih (h.step hs)]

/-- Lowering the rank of one party lowers the sum of the ranks of all of them. -/
theorem sum_update_lt {ι α : Type} [Fintype ι] [DecidableEq ι] (rank : α → ℕ) (g : ι → α)
    {i : ι} {a : α} (h : rank a < rank (g i)) :
    ∑ j, rank (Function.update g i a j) < ∑ j, rank (g j) := by
  refine Finset.sum_lt_sum (fun j _ => ?_) ⟨i, Finset.mem_univ i, by simpa using h⟩
  by_cases hj : j = i
  · subst j; simpa using h.le
  · simp [hj]

/-- A party after one of them moved is that one or was there as it is. -/
theorem set_get_cases {α : Type} {parties : List α} {i k : ℕ} {a b : α}
    (h : (parties.set i b)[k]? = some a) : (k = i ∧ a = b) ∨ (k ≠ i ∧ parties[k]? = some a) := by
  by_cases hk : k = i
  · subst hk
    have hlt : k < parties.length := by
      simpa using (List.getElem?_eq_some_iff.mp h).1
    rw [List.getElem?_set_self hlt] at h
    exact Or.inl ⟨rfl, (Option.some.inj h).symm⟩
  · rw [List.getElem?_set_ne (Ne.symm hk)] at h
    exact Or.inr ⟨hk, h⟩

/-- A party after others came is one from before or one of those that came. -/
theorem append_get_cases {α : Type} {parties born : List α} {k : ℕ} {a : α}
    (h : (parties ++ born)[k]? = some a) :
    parties[k]? = some a ∨ (parties.length ≤ k ∧ born[k - parties.length]? = some a) := by
  rcases Nat.lt_or_ge k parties.length with hlt | hge
  · rw [List.getElem?_append_left hlt] at h
    exact Or.inl h
  · rw [List.getElem?_append_right hge] at h
    exact Or.inr ⟨hge, h⟩

theorem concat_get_cases {α : Type} {parties : List α} {k : ℕ} {a b : α}
    (h : (parties ++ [b])[k]? = some a) :
    parties[k]? = some a ∨ (k = parties.length ∧ a = b) := by
  rcases append_get_cases h with h | ⟨hge, h⟩
  · exact Or.inl h
  · have hlt : k - parties.length < 1 := (List.getElem?_eq_some_iff.mp h).1
    exact Or.inr ⟨by omega, List.mem_singleton.mp (List.mem_of_getElem? h)⟩

/-- The weights of a list of parties together. -/
def total {α : Type} (weight : α → ℕ) (parties : List α) : ℕ :=
  (parties.map weight).sum

theorem total_append {α : Type} (weight : α → ℕ) (xs ys : List α) :
    total weight (xs ++ ys) = total weight xs + total weight ys := by
  simp [total]

theorem total_set {α : Type} (weight : α → ℕ) {parties : List α} {i : ℕ} {a b : α}
    (h : parties[i]? = some a) :
    total weight (parties.set i b) + weight a = total weight parties + weight b := by
  induction parties generalizing i with
  | nil => simp at h
  | cons x xs ih =>
    cases i with
    | zero =>
      obtain rfl : x = a := by simpa using h
      simp only [total, List.set_cons_zero, List.map_cons, List.sum_cons]
      omega
    | succ i =>
      have hrest := ih (i := i) (by simpa using h)
      simp only [total, List.set_cons_succ, List.map_cons, List.sum_cons] at hrest ⊢
      omega

theorem length_le_total {α : Type} {weight : α → ℕ} {parties : List α}
    (h : ∀ a ∈ parties, 1 ≤ weight a) : parties.length ≤ total weight parties := by
  have hlength := (parties.map weight).length_le_sum_of_one_le fun w hw => by
    obtain ⟨a, ha, rfl⟩ := List.mem_map.mp hw
    exact h a ha
  rwa [List.length_map] at hlength

end SysPerf
