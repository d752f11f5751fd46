import SysPerf.Machine
import Mathlib.Data.Sum.Basic

namespace SysPerf

variable {σ ε δ τ κ γ : Type}

/-- Two machines side by side, of which the second one makes its `held` moves only once the first
one is done. -/
def phases (m : Machine σ ε δ) (n : Machine τ κ γ) (done : σ → Bool) (held : κ → Bool) :
    Machine (σ × τ) (ε ⊕ κ) (δ ⊕ γ) where
  init := (m.init, n.init)
  step s
    | .inl e => (m.step s.1 e).map fun p => ((p.1, s.2), p.2.map Sum.inl)
    | .inr e =>
      if held e && !done s.1 then none
      else (n.step s.2 e).map fun p => ((s.1, p.1), p.2.map Sum.inr)

def lefts (tr : List (δ ⊕ γ)) : List δ :=
  tr.filterMap Sum.getLeft?

def rights (tr : List (δ ⊕ γ)) : List γ :=
  tr.filterMap Sum.getRight?

theorem lefts_append_inl (tr : List (δ ⊕ γ)) (out : List δ) :
    lefts (tr ++ out.map Sum.inl) = lefts tr ++ out := by
  simp [lefts, List.filterMap_map, Function.comp_def]

theorem rights_append_inl (tr : List (δ ⊕ γ)) (out : List δ) :
    rights (tr ++ out.map Sum.inl) = rights tr := by
  simp [rights, List.filterMap_map, Function.comp_def]

theorem lefts_append_inr (tr : List (δ ⊕ γ)) (out : List γ) :
    lefts (tr ++ out.map Sum.inr) = lefts tr := by
  simp [lefts, List.filterMap_map, Function.comp_def]

theorem rights_append_inr (tr : List (δ ⊕ γ)) (out : List γ) :
    rights (tr ++ out.map Sum.inr) = rights tr ++ out := by
  simp [rights, List.filterMap_map, Function.comp_def]

variable {m : Machine σ ε δ} {n : Machine τ κ γ} {done : σ → Bool} {held : κ → Bool}

theorem phases_step {s t : σ × τ} {e : ε ⊕ κ} {out : List (δ ⊕ γ)}
    (h : (phases m n done held).step s e = some (t, out)) :
    (∃ e' u first, m.step s.1 e' = some (u, first) ∧ t = (u, s.2) ∧ out = first.map Sum.inl) ∨
      ∃ e' u first, n.step s.2 e' = some (u, first) ∧ (held e' = true → done s.1 = true) ∧
        t = (s.1, u) ∧ out = first.map Sum.inr := by
  cases e with
  | inl e =>
    obtain ⟨⟨u, first⟩, hu, heq⟩ := Option.map_eq_some_iff.mp h
    obtain ⟨rfl, rfl⟩ := Prod.mk.inj heq
    exact Or.inl ⟨e, u, first, hu, rfl, rfl⟩
  | inr e =>
    simp only [phases] at h
    split at h
    next => cases h
    next hheld =>
      obtain ⟨⟨u, first⟩, hu, heq⟩ := Option.map_eq_some_iff.mp h
      obtain ⟨rfl, rfl⟩ := Prod.mk.inj heq
      exact Or.inr ⟨e, u, first, hu, by simpa using hheld, rfl, rfl⟩

/-- Each of the two is in a run of its own. -/
theorem reach_phases {tr : List (δ ⊕ γ)} {s : σ × τ} (h : Reach (phases m n done held) tr s) :
    Reach m (lefts tr) s.1 ∧ Reach n (rights tr) s.2 := by
  refine h.history (P := fun tr s => Reach m (lefts tr) s.1 ∧ Reach n (rights tr) s.2)
    ⟨Reach.init, Reach.init⟩ ?_
  intro tr s e t out ⟨hm, hn⟩ hstep
  rcases phases_step hstep with ⟨e', u, first, hu, rfl, rfl⟩ | ⟨e', u, first, hu, -, rfl, rfl⟩
  · rw [lefts_append_inl, rights_append_inl]
    exact ⟨hm.step hu, hn⟩
  · rw [lefts_append_inr, rights_append_inr]
    exact ⟨hm, hn.step hu⟩

/-- What the second one keeps without its held moves it has as long as the first is not done. -/
theorem reach_held {P : τ → Prop} (start : P n.init)
    (keep : ∀ s e t out, P s → held e = false → n.step s e = some (t, out) → P t)
    (stays : ∀ s e t out, done s = true → m.step s e = some (t, out) → done t = true)
    {tr : List (δ ⊕ γ)} {s : σ × τ} (h : Reach (phases m n done held) tr s) :
    done s.1 = true ∨ P s.2 := by
  refine h.invariant (P := fun s => done s.1 = true ∨ P s.2) (Or.inr start) ?_
  intro s e t out hs hstep
  rcases phases_step hstep with
    ⟨e', u, first, hu, rfl, rfl⟩ | ⟨e', u, first, hu, hheld, rfl, rfl⟩
  · exact hs.imp_left fun hdone => stays _ _ _ _ hdone hu
  · rcases hs with hdone | hP
    · exact Or.inl hdone
    · cases he : held e' with
      | true => exact Or.inl (hheld he)
      | false => exact Or.inr (keep _ _ _ _ hP he hu)

theorem stuck_phases {s : σ × τ} (h : Stuck (phases m n done held) s) :
    Stuck m s.1 ∧ (done s.1 = true → Stuck n s.2) := by
  refine ⟨fun e => ?_, fun hdone e => ?_⟩
  · exact Option.map_eq_none_iff.mp (h (.inl e))
  · have hstep := h (.inr e)
    simp only [phases, hdone, Bool.not_true, Bool.and_false, Bool.false_eq_true, if_false] at hstep
    exact Option.map_eq_none_iff.mp hstep

end SysPerf
