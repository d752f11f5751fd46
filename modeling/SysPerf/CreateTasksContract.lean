import SysPerf.CreateTasksPassed
import SysPerf.CreateTasksTidy

namespace SysPerf.CreateTasks

variable {c : Cleanup} {samples iter : ℕ} {created : ℕ → ℕ → Bool} {s t : State}
  {out : List Event}

theorem clean_of_cleansUp {f : Function} (h : CleansUp f samples iter created) {n : ℕ}
    (hn : n < samples) : f.cleanup.Clean iter (created n) := by
  obtain ⟨tr, t, ht, hstuck⟩ := exists_end f.cleanup samples iter created
  have hend := h.returns ht hstuck
  have hpassed : ∀ i, Passed t n i := fun i => Or.inl (by omega)
  have hcollected := h.collected ht
  have hdefined := h.defined ht
  cases hc : f.cleanup with
  | waitAll => trivial
  | joinEach =>
    rw [hc] at ht
    intro i hpos hle
    exact (reach_joined ht).all hdefined n i hpos hle (hpassed i)
  | leave =>
    rw [hc] at ht
    intro i hpos hle
    by_contra hmade
    obtain ⟨task, hmem, hsample, hstatus⟩ :=
      (reach_left ht).left n i hpos hle (hpassed i) (by simpa using hmade)
    exact hstatus (hcollected task hmem (by omega))

/-- The functions that wait clean up after themselves, those that join if every `pthread_create`
succeeds, and the others if no creation does. -/
theorem cleansUp_iff (f : Function) (samples iter : ℕ) (created : ℕ → ℕ → Bool) :
    CleansUp f samples iter created ↔ ∀ n < samples, f.cleanup.Clean iter (created n) :=
  ⟨fun h _ hn => clean_of_cleansUp h hn, cleansUp_of_clean⟩

/-- The child of one `fork` is still there after the call. -/
theorem child_left : ¬∀ (f : Function) (samples iter : ℕ) (created : ℕ → ℕ → Bool),
    CleansUp f samples iter created := by
  intro h
  have hclean := h .createProcessTimeChronoOuterloop 1 1 fun _ _ => true
  have hreach : Reach (runFunc .leave 1 1 fun _ _ => true) []
      ⟨1, .loop 1, none, [⟨0, .running⟩]⟩ := reach_of_exec [.parent, .parent] rfl
  have hcollected := hclean.collected hreach ⟨0, .running⟩ (by decide) (by decide)
  cases hcollected

end SysPerf.CreateTasks
