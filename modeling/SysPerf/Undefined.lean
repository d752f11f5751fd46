import SysPerf.Machine

namespace SysPerf

variable {σ ε δ : Type} {m : Machine σ ε δ} {ok : δ → Bool}

/-- All that is seen of any run is something that the language defines. -/
def Defined (m : Machine σ ε δ) (ok : δ → Bool) : Prop :=
  ∀ tr s, Reach m tr s → ∀ x ∈ tr, ok x = true

/-- What a program can have done: a run, or a run up to a move that is not defined and then
anything at all. -/
inductive MayReach (m : Machine σ ε δ) (ok : δ → Bool) : List δ → σ → Prop
  | run {tr s} : Reach m tr s → MayReach m ok tr s
  | undefined {tr s e t out x} (more : List δ) (u : σ) : Reach m tr s →
      m.step s e = some (t, out) → x ∈ out → ok x = false → MayReach m ok (tr ++ more) u

theorem mayReach_iff (h : Defined m ok) {tr : List δ} {s : σ} :
    MayReach m ok tr s ↔ Reach m tr s := by
  constructor
  · intro hmay
    cases hmay with
    | run hr => exact hr
    | @undefined tr s e t out x more u hr hs hx hbad =>
      have hok := h _ _ (hr.step hs) x (List.mem_append_right _ hx)
      simp [hbad] at hok
  · exact .run

/-- A run that shows something undefined has come to a move after which everything may follow. -/
theorem exists_undefined {tr : List δ} {s : σ} (h : Reach m tr s) {x : δ} (hx : x ∈ tr)
    (hbad : ok x = false) : ∃ before, ∀ more u, MayReach m ok (before ++ more) u := by
  induction h with
  | init => cases hx
  | @step tr s e t out hr hs ih =>
    rcases List.mem_append.mp hx with hx | hx
    · exact ih hx
    · exact ⟨tr, fun more u => .undefined more u hr hs hx hbad⟩

theorem mayReach_anything (h : ¬Defined m ok) :
    ∃ before, ∀ more u, MayReach m ok (before ++ more) u := by
  simp only [Defined, not_forall, Bool.not_eq_true] at h
  obtain ⟨tr, s, hr, x, hx, hbad⟩ := h
  exact exists_undefined hr hx hbad

end SysPerf
