import SysPerf.SessionMoves

namespace SysPerf.Session

open Server (Config Service Act Acted)

variable {cfg : Config}

def Client.InRange (cfg : Config) : Client → Prop
  | .looping run i => run ≤ cfg.iterations ∧ i ≤ cfg.requests ∧ (run = cfg.iterations → i = 0)
  | .measuring run i _ => run < cfg.iterations ∧ i < cfg.requests
  | _ => True

/-- The client knows how many connections there are. -/
structure Booked (cfg : Config) (tr : List Event) (s : State) : Prop where
  range : s.client.InRange cfg
  made : s.made = s.client.returned cfg + if s.client.conn?.isSome then 1 else 0
  conn : ∀ c, s.client.conn? = some c → c = s.client.returned cfg
  completed : completed tr = List.range (s.client.returned cfg)

/-- The server has one worker for each connection it has taken from the backlog. -/
structure Served (cfg : Config) (tr : List Event) (s : State) : Prop where
  ok : s.server.Ok cfg
  alive : s.server.main ≠ .killed
  fd : ∀ (w : ℕ) (v : Server.Worker), s.server.workers[w]? = some v → v.fd = some w
  le : s.server.workers.length ≤ s.made
  backlog : s.backlog = List.range' s.server.workers.length (s.made - s.server.workers.length)
  accepted : accepted tr = List.range s.server.workers.length
  listens : s.server.main = .starting → s.made = 0
  finished : s.client = .finished → s.server.main = .exited

/-- Only the connection of the call under way lacks its reply. -/
structure Delivered (cfg : Config) (s : State) : Prop where
  receiving : ∀ (w : ℕ) (v : Server.Worker), s.server.workers[w]? = some v →
    v.pc = .receiving → cfg.service = .echo
  replied : ∀ (w : ℕ) (v : Server.Worker), s.server.workers[w]? = some v →
    (s.replied w = true ↔ v.pc = .closing ∨ v.pc = .done)
  unaccepted : ∀ c, s.server.workers.length ≤ c → s.replied c = false
  current : ∀ c < s.made, s.client.conn? ≠ some c → s.replied c = true
  closing : ∀ c, s.client.call? = some (.closing c) → s.replied c = true
  requested : cfg.service = .echo → ∀ c < s.made,
    s.client.call? ≠ some (.sending c) → s.requested c = true

structure Inv (cfg : Config) (tr : List Event) (s : State) : Prop where
  booked : Booked cfg tr s
  served : Served cfg tr s
  delivered : Delivered cfg s

section

variable {client : Client} {call : Call}

theorem call_setCall (h : client.call? = some call) (next : Call) :
    (client.setCall next).call? = some next := by
  cases client <;> simp [Client.call?, Client.setCall] at h ⊢

theorem returned_setCall (h : client.call? = some call) (next : Call) :
    (client.setCall next).returned cfg = client.returned cfg := by
  cases client <;> simp [Client.call?, Client.setCall, Client.returned] at h ⊢

theorem inRange_setCall (h : client.InRange cfg) (next : Call) :
    (client.setCall next).InRange cfg := by
  cases client <;> exact h

theorem call_resume (h : client.call? = some call) : (client.resume true).call? = none := by
  cases client <;> simp [Client.call?, Client.resume] at h ⊢

theorem returned_resume (h : client.call? = some call) :
    (client.resume true).returned cfg = client.returned cfg + 1 := by
  cases client <;> simp [Client.call?, Client.resume, Client.returned] at h ⊢
  omega

theorem inRange_resume (h : client.call? = some call) (hr : client.InRange cfg) :
    (client.resume true).InRange cfg := by
  cases client <;> simp [Client.call?] at h
  · exact ⟨Nat.zero_le _, Nat.zero_le _, fun _ => rfl⟩
  · exact ⟨hr.1.le, hr.2, fun heq => absurd heq hr.1.ne⟩

end

/-- The connections of `run` whole runs and some requests are among those of all runs. -/
theorem calls_lt {run i : ℕ} (hrun : run < cfg.iterations) (hi : i < cfg.requests) :
    run * cfg.requests + i + 1 ≤ cfg.measured := by
  calc run * cfg.requests + i + 1 ≤ run * cfg.requests + cfg.requests := by omega
    _ = (run + 1) * cfg.requests := by rw [Nat.add_mul, Nat.one_mul]
    _ ≤ cfg.iterations * cfg.requests := Nat.mul_le_mul_right _ hrun
    _ = cfg.measured := Nat.mul_comm _ _

theorem Booked.made_le {tr : List Event} {s : State} (h : Booked cfg tr s) :
    s.made ≤ cfg.measured + 1 := by
  have hmade := h.made
  have hrange := h.range
  cases hc : s.client with
  | probing call =>
    rw [hc] at hmade
    simp only [Client.returned] at hmade
    split at hmade <;> omega
  | looping run i =>
    rw [hc] at hmade hrange
    obtain ⟨hrun, hi, hend⟩ := hrange
    simp only [Client.returned, Client.conn?, Client.call?] at hmade
    have hcalls : run * cfg.requests + i ≤ cfg.measured := by
      rcases Nat.lt_or_eq_of_le hrun with hlt | rfl
      · calc run * cfg.requests + i ≤ (run + 1) * cfg.requests := by
              rw [Nat.add_mul, Nat.one_mul]; omega
          _ ≤ cfg.iterations * cfg.requests := Nat.mul_le_mul_right _ hlt
          _ = cfg.measured := Nat.mul_comm _ _
      · rw [hend rfl, Config.measured, Nat.mul_comm, Nat.add_zero]
    simpa using hmade.le.trans (Nat.succ_le_succ hcalls)
  | measuring run i call =>
    rw [hc] at hmade hrange
    have hcalls := calls_lt hrange.1 hrange.2
    simp only [Client.returned] at hmade
    split at hmade <;> omega
  | waiting =>
    rw [hc] at hmade
    exact hmade.le
  | finished =>
    rw [hc] at hmade
    exact hmade.le

/-- Once the server has been reached it listens as long as the client has requests to make. -/
theorem Inv.refused {tr : List Event} {s : State} (h : Inv cfg tr s)
    (hcall : s.client.call? = some .connecting) (hl : listening s.server = false) :
    s.client = .probing .connecting := by
  cases hc : s.client with
  | probing call =>
    rw [hc] at hcall
    rw [Option.some.inj hcall]
  | measuring run i call =>
    have hmade := h.booked.made
    have hrange := h.booked.range
    rw [hc] at hcall hmade hrange
    obtain rfl := Option.some.inj hcall
    have hcalls := calls_lt hrange.1 hrange.2
    simp only [Client.returned, Client.conn?, Client.call?] at hmade
    have hle := h.served.le
    have hok := h.served.ok
    cases hm : s.server.main with
    | starting =>
      have hzero := h.served.listens hm
      omega
    | accepting i => simp [listening, hm] at hl
    | joining j => simp [listening, hm] at hl
    | exited =>
      simp only [Server.State.Ok, hm, Server.Main.Fits] at hok
      simp [Call.conn?] at hmade
      omega
    | killed => exact absurd hm h.served.alive
  | _ => simp [hc, Client.call?] at hcall

theorem booked_start : Booked cfg [] start :=
  ⟨trivial, rfl, by simp [start, Client.conn?, Client.call?, Call.conn?], rfl⟩

theorem served_start : Served cfg [] start :=
  ⟨rfl, by simp [start, Server.start], by simp [start, Server.start], Nat.zero_le _, rfl, rfl,
    fun _ => rfl, by simp [start]⟩

theorem delivered_start : Delivered cfg start :=
  ⟨by simp [start, Server.start], by simp [start, Server.start], fun _ _ => rfl,
    by simp [start], by simp [start, Client.call?], by simp [start]⟩

end SysPerf.Session
