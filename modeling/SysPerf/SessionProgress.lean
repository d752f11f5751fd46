import SysPerf.SessionDelivery

namespace SysPerf.Session

open Server (Config Service Act Acted)

variable {cfg : Config} {tr out : List Event} {s t : State}

theorem client_moves {call : Call} (hcall : s.client.call? = some call)
    (h : ∀ conn, call = .receiving conn → s.replied conn = true) : clientStep cfg s ≠ none := by
  have hstep : clientStep cfg s = callStep cfg s call := by
    cases hc : s.client <;> simp [hc, Client.call?] at hcall <;> simp [clientStep, hc, hcall]
  rw [hstep]
  cases call with
  | connecting =>
    simp only [callStep]
    split <;> simp
  | sending conn => simp [callStep]
  | receiving conn => simp [callStep, h conn rfl]
  | closing conn => simp [callStep]

theorem worker_moves (hs : Served cfg tr s) {w : ℕ} {v : Server.Worker}
    (hw : s.server.workers[w]? = some v) (hv : v.pc ≠ .done)
    (hreq : v.pc = .receiving → s.requested w = true) : workerStep cfg s w ≠ none := by
  obtain ⟨fd, pc⟩ := v
  obtain rfl : fd = some w := hs.fd w _ hw
  have halive := hs.alive
  cases pc with
  | receiving =>
    simp [workerStep, State.withServer, Server.act, Server.workerAct, hw, halive, hreq rfl]
  | sending => simp [workerStep, State.withServer, Server.act, Server.workerAct, hw, halive]
  | closing => simp [workerStep, State.withServer, Server.act, Server.workerAct, hw, halive]
  | done => exact absurd rfl hv

/-- A client outside a call can go on unless it waits for the server. -/
theorem idle_moves (hcall : s.client.call? = none) (hwait : s.client = .waiting → s.server.main = .exited)
    (hfinished : s.client ≠ .finished) : clientStep cfg s ≠ none := by
  cases hc : s.client with
  | probing call => simp [hc, Client.call?] at hcall
  | measuring run i call => simp [hc, Client.call?] at hcall
  | looping run i =>
    simp only [clientStep, hc]
    split
    · split <;> simp
    · simp
  | waiting => simp [clientStep, hc, hwait hc]
  | finished => exact absurd hc hfinished

/-- A client whose connection has been accepted can go on, or else its worker can. -/
theorem call_moves (hs : Inv cfg tr s) {call : Call} (hcall : s.client.call? = some call)
    (hall : s.made ≤ s.server.workers.length) :
    clientStep cfg s ≠ none ∨ ∃ w, workerStep cfg s w ≠ none := by
  by_cases hreply : ∀ conn, call = .receiving conn → s.replied conn = true
  · exact Or.inl (client_moves hcall hreply)
  · simp only [not_forall, Bool.not_eq_true] at hreply
    obtain ⟨conn, rfl, hnone⟩ := hreply
    have hconn := conn_of_call hcall
    have hmade := hs.booked.made
    have hreturned := hs.booked.conn conn hconn
    rw [hconn] at hmade
    have hlt : conn < s.made := by simp [Call.conn?] at hmade; omega
    have hw : s.server.workers[conn]? = some s.server.workers[conn] :=
      List.getElem?_eq_getElem (by omega)
    have hpc := (hs.delivered.replied conn _ hw).not.mp (by simp [hnone])
    refine Or.inr ⟨conn, worker_moves hs.served hw (fun h => hpc (Or.inr h)) fun h => ?_⟩
    exact hs.delivered.requested (hs.delivered.receiving conn _ hw h) conn hlt (by simp [hcall])

theorem made_le_of_backlog (hs : Served cfg tr s) (h : s.backlog = []) :
    s.made ≤ s.server.workers.length := by
  have hlist := hs.backlog
  rw [h] at hlist
  have hlength := congrArg List.length hlist
  simp only [List.length_nil, List.length_range'] at hlength
  omega

theorem session_not_stuck (h : Reach (session cfg) tr s) (hf : s.client ≠ .finished) :
    ¬Stuck (session cfg) s := by
  intro stuck
  have hs := session_inv h
  have hclient : clientStep cfg s = none := stuck .client
  have hserver : serverStep cfg s = none := stuck .server
  have hworker : ∀ w, workerStep cfg s w = none := fun w => stuck (.worker w)
  have hok := hs.served.ok
  cases hm : s.server.main with
  | starting =>
    simp [serverStep, State.withServer, Server.act, Server.mainAct, hm] at hserver
  | accepting i =>
    simp only [Server.State.Ok, hm, Server.Main.Fits] at hok
    by_cases hi : i ≤ cfg.measured
    · cases hb : s.backlog with
      | cons conn rest =>
        simp [serverStep, State.withServer, Server.act, Server.mainAct, hm, hi, hb] at hserver
      | nil =>
        have hall := made_le_of_backlog hs.served hb
        cases hcall : s.client.call? with
        | none =>
          refine idle_moves hcall (fun hc => ?_) hf hclient
          have hmade := hs.booked.made
          simp [hc, Client.returned, Client.conn?, Client.call?] at hmade
          omega
        | some call =>
          rcases call_moves hs hcall hall with hmove | ⟨w, hmove⟩
          · exact hmove hclient
          · exact hmove (hworker w)
    · simp [serverStep, State.withServer, Server.act, Server.mainAct, hm, hi] at hserver
  | joining j =>
    simp only [Server.State.Ok, hm, Server.Main.Fits] at hok
    cases hw : s.server.workers[j]? with
    | none => simp [serverStep, State.withServer, Server.act, Server.mainAct, hm, hw] at hserver
    | some v =>
      by_cases hv : v.pc = .done
      · simp [serverStep, State.withServer, Server.act, Server.mainAct, hm, hw, hv] at hserver
      · have hlt : j < s.server.workers.length := (List.getElem?_eq_some_iff.mp hw).1
        have hle := hs.served.le
        by_cases hsend : s.client.call? = some (.sending j)
        · exact client_moves hsend (by simp) hclient
        · refine worker_moves hs.served hw hv (fun hpc => ?_) (hworker j)
          exact hs.delivered.requested (hs.delivered.receiving j v hw hpc) j (by omega) hsend
  | exited =>
    simp only [Server.State.Ok, hm, Server.Main.Fits] at hok
    cases hcall : s.client.call? with
    | none => exact idle_moves hcall (fun _ => hm) hf hclient
    | some call =>
      have hle := hs.booked.made_le
      rcases call_moves hs hcall (by omega) with hmove | ⟨w, hmove⟩
      · exact hmove hclient
      · exact hmove (hworker w)
  | killed => exact hs.served.alive hm

end SysPerf.Session
