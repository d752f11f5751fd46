import Mathlib.Data.List.Basic

namespace SysPerf.OptionLoop

variable {α β : Type} {f : α → Option β} {xs : List α}

/-- A loop whose turns all have a result. -/
theorem mapM_eq_map {g : α → β} (h : ∀ a ∈ xs, f a = some (g a)) : xs.mapM f = some (xs.map g) := by
  induction xs with
  | nil => rfl
  | cons a xs ih =>
    rw [List.mapM_cons, h a (List.mem_cons_self ..),
      ih fun b hb => h b (List.mem_cons_of_mem a hb)]
    rfl

theorem mapM_mem {ys : List β} (h : xs.mapM f = some ys) {a : α} (ha : a ∈ xs) : ∃ b, f a = some b := by
  induction xs generalizing ys with
  | nil => cases ha
  | cons x xs ih =>
    rw [List.mapM_cons] at h
    obtain ⟨b, hb, h⟩ := Option.bind_eq_some_iff.mp h
    obtain ⟨rest, hrest, -⟩ := Option.bind_eq_some_iff.mp h
    rcases List.mem_cons.mp ha with rfl | ha
    · exact ⟨b, hb⟩
    · exact ih hrest ha

/-- What holds of the result of each turn holds of those of the loop. -/
theorem mapM_all {P : β → Prop} (h : ∀ a ∈ xs, ∃ b, f a = some b ∧ P b) :
    ∃ ys, xs.mapM f = some ys ∧ ys.length = xs.length ∧ ∀ b ∈ ys, P b := by
  induction xs with
  | nil => exact ⟨[], rfl, rfl, by simp⟩
  | cons a xs ih =>
    obtain ⟨b, hb, hP⟩ := h a (List.mem_cons_self ..)
    obtain ⟨ys, hys, hlen, hall⟩ := ih fun c hc => h c (List.mem_cons_of_mem a hc)
    refine ⟨b :: ys, ?_, by rw [List.length_cons, List.length_cons, hlen], ?_⟩
    · rw [List.mapM_cons, hb, hys]
      rfl
    · intro c hc
      rcases List.mem_cons.mp hc with rfl | hc
      · exact hP
      · exact hall c hc

end SysPerf.OptionLoop
