import SysPerf.SessionAccounting

namespace SysPerf.Session

open Server (Config Service Act Acted)

variable {cfg : Config} {tr out : List Event} {s t : State}

@[simp] theorem accepted_accepted (conn : ℕ) : accepted [.accepted conn] = [conn] := rfl

@[simp] theorem accepted_completed (conn : ℕ) : accepted [.completed conn] = [] := rfl

@[simp] theorem completed_accepted (conn : ℕ) : completed [.accepted conn] = [] := rfl

@[simp] theorem completed_completed (conn : ℕ) : completed [.completed conn] = [conn] := rfl

/-- Every connection is accepted and completed before the next one. -/
def alternating (n : ℕ) : List Event :=
  (List.range n).flatMap fun conn => [.accepted conn, .completed conn]

theorem alternating_succ (n : ℕ) :
    alternating (n + 1) = alternating n ++ [.accepted n, .completed n] := by
  simp [alternating, List.range_succ]

theorem accepted_alternating (n : ℕ) : accepted (alternating n) = List.range n := by
  induction n with
  | zero => rfl
  | succ n ih =>
    rw [alternating_succ, accepted_append, ih, List.range_succ]
    rfl

theorem completed_alternating (n : ℕ) : completed (alternating n) = List.range n := by
  induction n with
  | zero => rfl
  | succ n ih =>
    rw [alternating_succ, completed_append, ih, List.range_succ]
    rfl

theorem accepted_le (hs : Inv cfg tr s) :
    (completed tr).length ≤ (accepted tr).length ∧
      (accepted tr).length ≤ (completed tr).length + 1 := by
  have hle := returned_le hs
  have hmade := hs.booked.made
  have hworkers := hs.served.le
  rw [hs.booked.completed, hs.served.accepted, List.length_range, List.length_range]
  refine ⟨hle, ?_⟩
  split at hmade <;> omega

theorem moved_out (h : Moved cfg s t out) :
    out = [] ∨ (∃ conn, out = [.accepted conn]) ∨ ∃ conn, out = [.completed conn] := by
  cases h with
  | completes => exact Or.inr (Or.inr ⟨_, rfl⟩)
  | accepts => exact Or.inr (Or.inl ⟨_, rfl⟩)
  | _ => exact Or.inl rfl

theorem range_concat {n m conn : ℕ} (h : List.range n ++ [conn] = List.range m) : conn = n := by
  have hlength := congrArg List.length h
  rw [List.length_append, List.length_range, List.length_range, List.length_singleton] at hlength
  subst hlength
  rw [List.range_succ] at h
  exact List.singleton_inj.mp (List.append_cancel_left h)

/-- The trace of every run alternates. -/
theorem session_alternates (h : Reach (session cfg) tr s) :
    ∃ n, tr = alternating n ∨ tr = alternating n ++ [.accepted n] := by
  refine (h.history (P := fun tr s => Reach (session cfg) tr s ∧
    ∃ n, tr = alternating n ∨ tr = alternating n ++ [.accepted n]) ⟨Reach.init, 0, Or.inl rfl⟩ ?_).2
  intro tr s e t out ⟨hr, n, htr⟩ hstep
  have hnext := hr.step hstep
  have hinv := session_inv hnext
  have hle := accepted_le hinv
  have haccepted := hinv.served.accepted
  have hcompleted := hinv.booked.completed
  rw [accepted_append] at hle haccepted
  rw [completed_append] at hle hcompleted
  refine ⟨hnext, ?_⟩
  rcases moved_out (step_moved hstep) with rfl | ⟨conn, rfl⟩ | ⟨conn, rfl⟩
  · exact ⟨n, by rwa [List.append_nil]⟩
  · rcases htr with rfl | rfl
    · rw [accepted_alternating] at haccepted
      obtain rfl := range_concat haccepted
      exact ⟨conn, Or.inr rfl⟩
    · -- the connection before it has no reply yet
      simp [accepted_append, completed_append, accepted_alternating, completed_alternating] at hle
  · rcases htr with rfl | rfl
    · simp [accepted_alternating, completed_alternating] at hle
    · rw [completed_append, completed_alternating, completed_accepted, List.append_nil] at hcompleted
      obtain rfl := range_concat hcompleted
      exact ⟨conn + 1, Or.inl (by rw [alternating_succ, List.append_assoc]; rfl)⟩

/-- However the client, the accept loop and the worker threads are scheduled, they serve one
connection after the other: each is accepted and completed before the next one is made, at most one
waits in the backlog, and at most one worker has not sent its reply. -/
theorem session_sequential (h : Reach (session cfg) tr s) :
    (∃ n, tr = alternating n ∨ tr = alternating n ++ [.accepted n]) ∧
      (∀ conn, conn + 1 < s.made → conn ∈ accepted tr ∧ conn ∈ completed tr) ∧
      s.backlog.length ≤ 1 ∧
      (∀ (w : ℕ) (v : Server.Worker), s.server.workers[w]? = some v →
        v.pc = .receiving ∨ v.pc = .sending →
        s.backlog = [] ∧ ∀ (w' : ℕ) (v' : Server.Worker), s.server.workers[w']? = some v' →
          v'.pc = .receiving ∨ v'.pc = .sending → w' = w) := by
  have hs := session_inv h
  have hcurrent : ∀ conn < s.made, s.replied conn = false → s.client.conn? = some conn := by
    intro conn hlt hreplied
    by_contra hne
    simp [hs.delivered.current conn hlt hne] at hreplied
  have hle := hs.served.le
  have hbacklog := hs.served.backlog
  have hmade := hs.booked.made
  have hreturned := returned_le hs
  refine ⟨session_alternates h, fun conn hconn => ?_, ?_, fun w v hw hv => ?_⟩
  · rw [hs.served.accepted, hs.booked.completed, List.mem_range, List.mem_range]
    split at hmade <;> omega
  · rw [hbacklog, List.length_range']
    split at hmade <;> omega
  have hopen : ∀ (w : ℕ) (v : Server.Worker), s.server.workers[w]? = some v →
      v.pc = .receiving ∨ v.pc = .sending → s.client.conn? = some w := by
    intro w v hw hv
    have hlt : w < s.server.workers.length := (List.getElem?_eq_some_iff.mp hw).1
    refine hcurrent w (by omega) (Bool.eq_false_iff.mpr fun hreplied => ?_)
    rcases (hs.delivered.replied w v hw).mp hreplied with hpc | hpc <;>
      rcases hv with hv | hv <;> simp [hpc] at hv
  have hw' := hopen w v hw hv
  refine ⟨?_, fun w' v' hget hpc => ?_⟩
  · have hlt : w < s.server.workers.length := (List.getElem?_eq_some_iff.mp hw).1
    by_contra hne
    have hmade : s.server.workers.length < s.made := by
      by_contra hge
      exact hne (by rw [hbacklog, Nat.sub_eq_zero_of_le (Nat.le_of_not_lt hge)]; rfl)
    have hnext := hcurrent _ hmade (hs.delivered.unaccepted _ le_rfl)
    have heq := Option.some.inj (hw'.symm.trans hnext)
    omega
  · exact Option.some.inj ((hopen w' v' hget hpc).symm.trans hw')

theorem session_sequential_one : ∃ tr s, Reach (session ⟨.echo, 1, 1⟩) tr s ∧
    s.server.workers.length = 2 ∧ ∃ n, tr = alternating n ∨ tr = alternating n ++ [.accepted n] := by
  have hrun : Reach (session ⟨.echo, 1, 1⟩) _ _ := reach_of_exec
    [.client, .server, .client, .client, .server, .worker 0, .worker 0, .client, .client,
      .client, .client, .client, .server, .worker 1] rfl
  exact ⟨_, _, hrun, rfl, (session_sequential hrun).1⟩

end SysPerf.Session
