import SysPerf.SessionProgress

namespace SysPerf.Session

open Server (Config Service Act Acted)

variable {cfg : Config} {tr out : List Event} {s t : State}

/-- A connection with a reply has been accepted. -/
theorem returned_le (hs : Inv cfg tr s) :
    s.client.returned cfg ≤ s.server.workers.length := by
  by_contra hlt
  have hmade := hs.booked.made
  have hreplied := hs.delivered.current s.server.workers.length
    (by split at hmade <;> omega) fun hc => by have := hs.booked.conn _ hc; omega
  simp [hs.delivered.unaccepted _ le_rfl] at hreplied

/-- The client has nothing left to ask for. -/
def State.Quiet (cfg : Config) (s : State) : Prop :=
  (s.client = .waiting ∨ s.client = .finished) ∧ s.server.Ok cfg ∧ s.server.main ≠ .killed

def State.rank (cfg : Config) (s : State) : ℕ :=
  s.server.rank cfg + if s.client = .waiting then 1 else 0

theorem quiet_step (hs : s.Quiet cfg) (h : Moved cfg s t out) :
    t.Quiet cfg ∧ t.rank cfg < s.rank cfg := by
  obtain ⟨hclient, hok, halive⟩ := hs
  have hcall : s.client.call? = none := by
    rcases hclient with hc | hc <;> rw [hc] <;> rfl
  have hloop : ∀ run i, s.client ≠ .looping run i := by
    intro run i
    rcases hclient with hc | hc <;> simp [hc]
  cases h with
  | connects hc hl => simp [hcall] at hc
  | refused hc hl => simp [hcall] at hc
  | sends hc => simp [hcall] at hc
  | receives hc hreplied => simp [hcall] at hc
  | completes hc => simp [hcall] at hc
  | requests hc hrun hi => exact absurd hc (hloop _ _)
  | ends hc hrun hi => exact absurd hc (hloop _ _)
  | waits hc hrun => exact absurd hc (hloop _ _)
  | finishes hc hm => exact ⟨⟨Or.inr rfl, hok, halive⟩, by simp [State.rank, hc]⟩
  | control ha hacted =>
    refine ⟨⟨hclient, Server.acted_ok hok hacted, (control_acted ha hacted).2.2.1⟩, ?_⟩
    exact Nat.add_lt_add_right (Server.acted_rank hok hacted) _
  | @accepts i conn rest hm hi hbacklog =>
    have hacted : Acted cfg s.server (.accept (some conn)) _ _ := .accepts hm hi
    exact ⟨⟨hclient, Server.acted_ok hok hacted, by simp⟩,
      Nat.add_lt_add_right (Server.acted_rank hok hacted) _⟩
  | hears hw hreq =>
    have hacted : Acted cfg s.server (.recv _ true) _ _ := .received halive hw
    exact ⟨⟨hclient, Server.acted_ok hok hacted, halive⟩,
      Nat.add_lt_add_right (Server.acted_rank hok hacted) _⟩
  | replies hw =>
    have hacted : Acted cfg s.server (.send _ .sent) _ _ := .sent halive hw
    exact ⟨⟨hclient, Server.acted_ok hok hacted, halive⟩,
      Nat.add_lt_add_right (Server.acted_rank hok hacted) _⟩
  | closes hw =>
    have hacted : Acted cfg s.server (.close _) _ _ := .closes halive hw
    exact ⟨⟨hclient, Server.acted_ok hok hacted, halive⟩,
      Nat.add_lt_add_right (Server.acted_rank hok hacted) _⟩

/-- Once the client waits, the rest of the run is bounded. -/
theorem waiting_bounded (hs : Inv cfg tr s) (hc : s.client = .waiting) {es : List Move}
    (h : (session cfg).exec s es = some (t, out)) : es.length ≤ s.rank cfg := by
  refine exec_length_le (State.rank cfg) (State.Quiet cfg) ?_
    ⟨Or.inl hc, hs.served.ok, hs.served.alive⟩ h
  intro s e t out hs hstep
  exact quiet_step hs (step_moved hstep)

/-- When the client waits, every connection has been accepted and has its reply. -/
theorem waiting_counts (hs : Inv cfg tr s) (hc : s.client = .waiting ∨ s.client = .finished) :
    s.made = cfg.measured + 1 ∧ accepted tr = List.range (cfg.measured + 1) ∧
      completed tr = List.range (cfg.measured + 1) ∧ ∀ conn < s.made, s.replied conn = true := by
  have hconn : s.client.conn? = none := by
    rcases hc with hc | hc <;> rw [hc] <;> rfl
  have hreturned : s.client.returned cfg = cfg.measured + 1 := by
    rcases hc with hc | hc <;> rw [hc] <;> rfl
  have hmade : s.made = cfg.measured + 1 := by
    have hmade := hs.booked.made
    simpa [hconn, hreturned] using hmade
  have hlength : s.server.workers.length = cfg.measured + 1 := by
    have hle := hs.served.le
    have hge := returned_le hs
    omega
  refine ⟨hmade, hlength ▸ hs.served.accepted, hreturned ▸ hs.booked.completed, ?_⟩
  exact fun conn hlt => hs.delivered.current conn hlt (by simp [hconn])

/-- While the client waits the server is past its last `accept`. -/
theorem waiting_server (hs : Inv cfg tr s) (hc : s.client = .waiting) :
    s.server.main = .accepting (cfg.measured + 1) ∨ (∃ j, s.server.main = .joining j) ∨
      s.server.main = .exited := by
  have hmade := (waiting_counts hs (Or.inl hc)).1
  have hge := returned_le hs
  have hok := hs.served.ok
  rw [hc, Client.returned] at hge
  cases hm : s.server.main with
  | starting =>
    have hzero := hs.served.listens hm
    omega
  | accepting i =>
    simp only [Server.State.Ok, hm, Server.Main.Fits] at hok
    obtain rfl : i = cfg.measured + 1 := by omega
    exact Or.inl rfl
  | joining j => exact Or.inr (Or.inl ⟨j, rfl⟩)
  | exited => exact Or.inr (Or.inr rfl)
  | killed => exact absurd hm hs.served.alive

theorem session_accounting (h : Reach (session cfg) tr s) :
    (s.client ≠ .finished → ¬Stuck (session cfg) s) ∧
      (completed tr).length ≤ (accepted tr).length ∧
      (∀ conn ∈ completed tr, s.replied conn = true) ∧
      (s.client = .waiting ∨ s.client = .finished →
        accepted tr = List.range (cfg.requests * cfg.iterations + 1) ∧
          completed tr = List.range (cfg.requests * cfg.iterations + 1) ∧
          ∀ conn < s.made, s.replied conn = true) ∧
      (s.client = .waiting →
        (s.server.main = .accepting (cfg.requests * cfg.iterations + 1) ∨
          (∃ j, s.server.main = .joining j) ∨ s.server.main = .exited) ∧
        ∃ bound, ∀ es t out, (session cfg).exec s es = some (t, out) → es.length ≤ bound) ∧
      (s.client = .finished → s.server.main = .exited) := by
  have hs := session_inv h
  refine ⟨session_not_stuck h, ?_, ?_, fun hc => (waiting_counts hs hc).2, fun hc => ?_,
    hs.served.finished⟩
  · rw [hs.booked.completed, hs.served.accepted, List.length_range, List.length_range]
    exact returned_le hs
  · intro conn hconn
    rw [hs.booked.completed] at hconn
    have hlt := List.mem_range.mp hconn
    have hmade := hs.booked.made
    refine hs.delivered.current conn (by omega) fun hopen => ?_
    have heq := hs.booked.conn conn hopen
    omega
  · exact ⟨waiting_server hs hc, s.rank cfg, fun _ _ _ hexec => waiting_bounded hs hc hexec⟩

end SysPerf.Session
