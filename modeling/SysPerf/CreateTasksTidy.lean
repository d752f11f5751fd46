import SysPerf.CreateTasksPlace

namespace SysPerf.CreateTasks

variable {c : Cleanup} {samples iter : ℕ} {created : ℕ → ℕ → Bool} {s t : State}
  {out : List Event}

theorem Tidy.step (hclean : ∀ n < samples, c.Clean iter (created n)) (h : Tidy c samples iter s)
    (hmove : Moves c samples iter created s t out) : Tidy c samples iter t := by
  have hbooked := h.booked.step hmove
  have hturn := h.booked.turn
  cases hmove with
  | @creates i hlt hpc hcreated =>
    rw [hpc] at hturn
    refine ⟨hbooked, ?_, h.place.create hlt hpc ?_⟩
    · intro task htask hpast
      rcases List.mem_append.mp htask with hold | hnew
      · exact h.past task hold hpast
      · obtain rfl := List.mem_singleton.mp hnew
        exact absurd hpast (Nat.lt_irrefl _)
    · rintro rfl
      have hfailed := hclean s.sample hlt (i + 1) (Nat.succ_pos i) hturn
      rw [hcreated] at hfailed
      cases hfailed
  | @fails i hlt hpc hcreated =>
    rw [hpc] at hturn
    refine ⟨hbooked, h.past, h.place.fail hpc ?_⟩
    rintro rfl
    have hmade := hclean s.sample hlt (i + 1) (Nat.succ_pos i) hturn
    rw [hcreated] at hmade
    cases hmade
  | waits hlt hpc hc =>
    subst hc
    exact ⟨hbooked, h.past, Place.waiting rfl hlt⟩
  | returns hlt hpc hc =>
    have hall := h.place.all_collected hpc hc
    exact ⟨hbooked, fun task htask _ => hall task htask, h.place.again hall⟩
  | joins hlt hpc htid hat =>
    exact ⟨hbooked, h.past_set hat (by decide), h.place.join hpc htid⟩
  | strays hlt hpc hstray =>
    obtain ⟨-, k, status, htid, hat, hstatus, -⟩ := h.place.of_join hpc
    exact absurd (hstray k s.sample status htid hat) hstatus
  | drains hlt hpc hall =>
    exact ⟨hbooked, fun task htask _ => hall task htask, h.place.again hall⟩
  | exits hat => exact ⟨hbooked, h.past_set hat (by decide), h.place.end' hat⟩
  | reaps hpc hat =>
    obtain rfl := h.place.wait hpc
    refine ⟨hbooked, h.past_set hat (by decide), ?_⟩
    cases h.place with
    | forking hloop => exact Place.forking hloop
    | waiting _ hlt => exact Place.waiting hpc hlt

theorem reach_tidy (hclean : ∀ n < samples, c.Clean iter (created n)) {tr : List Event}
    (h : Reach (runFunc c samples iter created) tr s) : Tidy c samples iter s :=
  h.invariant (P := Tidy c samples iter) (Tidy.start c)
    fun _ _ _ _ hs hstep => hs.step hclean (step_moves hstep)

theorem Tidy.not_stuck (h : Tidy c samples iter s) (hlt : s.sample < samples) :
    ¬Stuck (runFunc c samples iter created) s := by
  intro hstuck
  have hparent : parentStep c samples iter created s = none := hstuck .parent
  cases h.place with
  | forking hpc => exact loop_moves hlt hpc hparent
  | waiting hpc =>
    by_cases hall : ∀ task ∈ s.tasks, task.status = .collected
    · exact wait_moves hlt hpc hall hparent
    · obtain ⟨⟨n, status⟩, hmem, hstatus⟩ : ∃ task ∈ s.tasks, task.status ≠ .collected := by
        simpa using hall
      obtain ⟨k, hat⟩ := List.mem_iff_getElem?.mp hmem
      cases status with
      | running => exact running_moves hat (hstuck (.exits k))
      | ended => exact ended_moves hpc hat (hstuck (.reaps k))
      | collected => exact hstatus rfl
  | joined hpc => exact loop_moves hlt hpc hparent
  | @joining i k status hpc _ htid hat hstatus =>
    cases status with
    | running => exact running_moves hat (hstuck (.exits k))
    | ended => exact join_moves hlt hpc htid hat hparent
    | collected => exact hstatus rfl
  | leaving hpc => exact loop_moves hlt hpc hparent

/-- Whom the parent waits for, it has made in the same call. -/
theorem collected_prompt (hclean : ∀ n < samples, c.Clean iter (created n)) {tr : List Event}
    (h : Reach (runFunc c samples iter created) tr s) {made now : ℕ}
    (hmem : .collected made now ∈ tr) : made = now := by
  have hall : Tidy c samples iter s ∧ ∀ made now, .collected made now ∈ tr → made = now := by
    apply h.history (P := fun tr s =>
      Tidy c samples iter s ∧ ∀ made now, .collected made now ∈ tr → made = now)
    · exact ⟨Tidy.start c, by simp⟩
    · rintro tr s a t out ⟨hs, hold⟩ hstep
      have hmove := step_moves hstep
      refine ⟨hs.step hclean hmove, ?_⟩
      intro made now hmem
      rcases List.mem_append.mp hmem with hmem | hnew
      · exact hold made now hmem
      · cases hmove with
        | creates => cases hnew
        | fails => cases hnew
        | waits => cases hnew
        | returns => cases hnew
        | joins _ _ _ hat =>
          obtain ⟨rfl, rfl⟩ := Event.collected.inj (List.mem_singleton.mp hnew)
          exact hs.now hat (by decide)
        | strays => cases hnew
        | drains => cases hnew
        | exits => cases hnew
        | reaps _ hat =>
          obtain ⟨rfl, rfl⟩ := Event.collected.inj (List.mem_singleton.mp hnew)
          exact hs.now hat (by decide)
  exact hall.2 made now hmem

theorem Place.defined (h : Place samples s c) : s.pc ≠ .undefined := by
  intro hpc
  cases h with
  | forking hloop => rw [hpc] at hloop; cases hloop
  | waiting hwait => rw [hpc] at hwait; cases hwait
  | joined hloop => rw [hpc] at hloop; cases hloop
  | joining hjoin => rw [hpc] at hjoin; cases hjoin
  | leaving hloop => rw [hpc] at hloop; cases hloop

theorem cleansUp_of_clean {f : Function}
    (hclean : ∀ n < samples, f.cleanup.Clean iter (created n)) :
    CleansUp f samples iter created where
  collected h := (reach_tidy hclean h).past
  prompt h _ _ hmem := collected_prompt hclean h hmem
  defined h := (reach_tidy hclean h).place.defined
  returns h hstuck := by
    have htidy := reach_tidy hclean h
    by_contra hne
    exact htidy.not_stuck (Nat.lt_of_le_of_ne htidy.booked.samples hne) hstuck
  bounded := ⟨_, fun _ _ _ h => schedule_bounded h⟩

end SysPerf.CreateTasks
