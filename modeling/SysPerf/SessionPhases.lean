import SysPerf.Phases
import SysPerf.SessionSequential

namespace SysPerf.Session

open Server (Config Service Act Acted)

variable {cfg : Config} {s t : State} {tr out : List Event}

/-- The second half of `main` against the server on the other host, which no `wait` follows. -/
def remote (cfg : Config) : Machine State Move Event where
  init := start
  step s e := if s.client = .waiting ∧ e = .client then none else step cfg s e

/-- `main` of rtt.cpp and of bw.cpp with its server, and the server of remote_rtt.cpp or
remote_bw.cpp, which has run since any time before. -/
def bothPhases (cfg : Config) : Machine (State × State) (Move ⊕ Move) (Event ⊕ Event) :=
  phases (session cfg) (remote cfg) (fun s => decide (s.client = .finished))
    (fun e => decide (e = .client))

theorem remote_step {e : Move} (h : (remote cfg).step s e = some (t, out)) :
    ¬(s.client = .waiting ∧ e = .client) ∧ step cfg s e = some (t, out) := by
  simp only [remote] at h
  split at h
  next => cases h
  next hne => exact ⟨hne, h⟩

theorem reach_remote (h : Reach (remote cfg) tr s) : Reach (session cfg) tr s := by
  induction h with
  | init => exact Reach.init
  | step _ hstep ih => exact ih.step (remote_step hstep).2

/-- Only the client changes what it knows and makes connections. -/
theorem step_client {e : Move} (h : step cfg s e = some (t, out)) (he : e ≠ .client) :
    t.client = s.client ∧ t.made = s.made := by
  have hwith : ∀ {u v : State} {r : Option (Server.State × List Server.Event)} {o o' : List Event},
      u.withServer r o = some (v, o') → v.client = u.client ∧ v.made = u.made := by
    intro u v r o o' hv
    obtain ⟨server, -, -, rfl, -⟩ := withServer_eq_some hv
    exact ⟨rfl, rfl⟩
  cases e with
  | client => exact absurd rfl he
  | server =>
    simp only [step, serverStep] at h
    split at h
    next => exact hwith h
    next =>
      split at h
      next =>
        split at h
        next =>
          have hsame := hwith h
          exact hsame
        next => cases h
      next => exact hwith h
    next => exact hwith h
  | worker w =>
    simp only [step, workerStep] at h
    split at h
    next =>
      split at h
      next => exact hwith h
      next => cases h
    next =>
      have hsame := hwith h
      exact hsame
    next => exact hwith h
    next => cases h

theorem finished_stays {e : Move} (hs : s.client = .finished)
    (h : (session cfg).step s e = some (t, out)) : t.client = .finished := by
  by_cases he : e = .client
  · subst he
    simp [session, step, clientStep, hs] at h
  · exact (step_client h he).1.trans hs

theorem remote_not_finished (h : Reach (remote cfg) tr s) : s.client ≠ .finished := by
  refine h.invariant (P := fun s => s.client ≠ .finished) (by simp [remote, start]) ?_
  intro s e t out hs hstep
  obtain ⟨hwaits, hstep⟩ := remote_step hstep
  by_cases he : e = .client
  · subst he
    have hwaiting : s.client ≠ .waiting := fun hc => hwaits ⟨hc, rfl⟩
    cases clientStep_moved hstep with
    | connects hc => exact setCall_ne_finished hc _
    | refused hc => cases hcl : s.client <;> simp [Client.call?, Client.resume, hcl] at hc ⊢
    | sends hc => exact setCall_ne_finished hc _
    | receives hc => exact setCall_ne_finished hc _
    | completes hc => exact resume_ne_finished hc
    | requests => simp
    | ends => simp
    | waits => simp
    | finishes hc => exact absurd hc hwaiting
    | _ => exact hs
  · rw [(step_client hstep he).1]
    exact hs

/-- A client that has no request left has had all its connections accepted and answered. -/
theorem waiting_trace (h : Reach (session cfg) tr s) (hc : s.client = .waiting ∨ s.client = .finished) :
    tr = alternating (cfg.requests * cfg.iterations + 1) := by
  obtain ⟨-, haccepted, hcompleted, -⟩ := waiting_counts (session_inv h) hc
  obtain ⟨n, rfl | rfl⟩ := session_alternates h
  · rw [accepted_alternating] at haccepted
    have hlength := congrArg List.length haccepted
    rw [List.length_range, List.length_range] at hlength
    rw [hlength]
    rfl
  · have hlength := congrArg List.length (haccepted.trans hcompleted.symm)
    simp [accepted_append, completed_append, accepted_alternating, completed_alternating] at hlength

/-- The second half does not begin before the local server has exited, with all its connections
accepted and answered; `main` never hangs, and when it is through, each of the two servers has
accepted exactly `REQUESTS * ITERATIONS + 1` connections, one after the other. -/
theorem phases_accounting {tr : List (Event ⊕ Event)} {s : State × State}
    (h : Reach (bothPhases cfg) tr s) :
    (0 < s.2.made → s.1.server.main = .exited ∧
      lefts tr = alternating (cfg.requests * cfg.iterations + 1)) ∧
    (s.2.client ≠ .waiting → ¬Stuck (bothPhases cfg) s) ∧
    (s.2.client = .waiting →
      lefts tr = alternating (cfg.requests * cfg.iterations + 1) ∧
      rights tr = alternating (cfg.requests * cfg.iterations + 1)) := by
  obtain ⟨hlocal, hremote⟩ := reach_phases h
  have hremote := reach_remote hremote
  have hbegun : s.1.client = .finished ∨ s.2.client = .probing .connecting ∧ s.2.made = 0 := by
    have hheld := reach_held (P := fun t => t.client = .probing .connecting ∧ t.made = 0)
      ⟨rfl, rfl⟩ ?_ ?_ h
    · simpa using hheld
    · intro s e t out hs he hstep
      have hsame := step_client (remote_step hstep).2 (by simpa using he)
      exact ⟨hsame.1.trans hs.1, hsame.2.trans hs.2⟩
    · intro s e t out hs hstep
      simpa using finished_stays (by simpa using hs) hstep
  have hended : s.1.client = .finished → s.1.server.main = .exited ∧
      lefts tr = alternating (cfg.requests * cfg.iterations + 1) := fun hc =>
    ⟨(session_inv hlocal).served.finished hc, waiting_trace hlocal (Or.inr hc)⟩
  refine ⟨fun hmade => ?_, fun hc stuck => ?_, fun hc => ⟨?_, waiting_trace hremote (Or.inl hc)⟩⟩
  · rcases hbegun with hbegun | ⟨-, hzero⟩
    · exact hended hbegun
    · omega
  · obtain ⟨hfirst, hsecond⟩ := stuck_phases stuck
    by_cases hdone : s.1.client = .finished
    · refine session_not_stuck hremote (remote_not_finished (reach_phases h).2) fun e => ?_
      have hstep := hsecond (by simpa using hdone) e
      simpa [remote, session, hc] using hstep
    · exact session_not_stuck hlocal hdone hfirst
  · rcases hbegun with hbegun | ⟨hprobing, -⟩
    · exact (hended hbegun).2
    · simp [hc] at hprobing

/-- One request in each half, with a remote server that has listened since before. -/
theorem phases_accounting_one : ∃ tr s, Reach (bothPhases ⟨.push, 1, 1⟩) tr s ∧
    s.2.client = .waiting ∧ rights tr = alternating 2 := by
  have hrun : Reach (bothPhases ⟨.push, 1, 1⟩) _ _ := reach_of_exec
    [.inr .server, .inl .server, .inl .client, .inl .server, .inl (.worker 0), .inl (.worker 0),
      .inl .client, .inl .client, .inl .client, .inl .client, .inl .server, .inl (.worker 1),
      .inl (.worker 1), .inl .client, .inl .client, .inl .client, .inl .client, .inl .server,
      .inl .server, .inl .server, .inl .server, .inl .client, .inr .client, .inr .server,
      .inr (.worker 0), .inr (.worker 0), .inr .client, .inr .client, .inr .client, .inr .client,
      .inr .server, .inr (.worker 1), .inr (.worker 1), .inr .client, .inr .client, .inr .client,
      .inr .client] rfl
  exact ⟨_, _, hrun, rfl, ((phases_accounting hrun).2.2 rfl).2⟩

end SysPerf.Session
