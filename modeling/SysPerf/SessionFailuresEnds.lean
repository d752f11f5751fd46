import SysPerf.SessionFailuresRuns

namespace SysPerf.FailingSession

open Server (Config Service Act Acted)
open Session (Call Client listening firstCall)

variable {cfg : Config} {tr out : List Event} {s t : State}

/-- The server waits in `accept`, and no connection is there for it. -/
def State.Idle (cfg : Config) (s : State) : Prop :=
  s.session.backlog = [] ∧ ∃ i ≤ cfg.measured, s.session.server.main = .accepting i

/-- The client waits for the reply to a message of which it has not sent all, and the worker for
what is left of the message. -/
def State.Crossed (cfg : Config) (s : State) : Prop :=
  cfg.service = .echo ∧ ∃ (conn w : ℕ), s.session.client.call? = some (.receiving conn) ∧
    s.session.server.workers[w]? = some ⟨some conn, .receiving⟩ ∧
    s.session.requested conn = false

/-- What can be left to wait for where nothing goes on. -/
inductive Rest (cfg : Config) (s : State) : Prop
  | finished : s.exited = false → s.session.client = .finished → Rest cfg s
  | exited : s.exited = true → ended s.session.server.main = true → Rest cfg s
  | abandoned : s.exited = true → s.Idle cfg → Rest cfg s
  | starved : s.exited = false → s.session.client = .waiting → s.Idle cfg → Rest cfg s
  | crossed : s.exited = false → s.Crossed cfg → Rest cfg s

section

theorem server_rests (h : Blocked cfg s) :
    ended s.session.server.main = true ∨ s.Idle cfg ∨
      ∃ (j : ℕ) (v : Server.Worker), s.session.server.workers[j]? = some v ∧ v.pc ≠ .done ∧
        s.session.server.main ≠ .killed := by
  have hserver : Session.serverStep cfg s.session = none :=
    Option.map_eq_none_iff.mp (h (.server true) rfl)
  cases hm : s.session.server.main with
  | starting =>
    simp [Session.serverStep, Session.State.withServer, Server.act, Server.mainAct, hm] at hserver
  | accepting i =>
    by_cases hi : i ≤ cfg.measured
    · cases hb : s.session.backlog with
      | nil => exact Or.inr (Or.inl ⟨hb, i, hi, hm⟩)
      | cons conn rest =>
        simp [Session.serverStep, Session.State.withServer, Server.act, Server.mainAct, hm, hi,
          hb] at hserver
    · simp [Session.serverStep, Session.State.withServer, Server.act, Server.mainAct, hm,
        hi] at hserver
  | joining j =>
    cases hw : s.session.server.workers[j]? with
    | none =>
      simp [Session.serverStep, Session.State.withServer, Server.act, Server.mainAct, hm,
        hw] at hserver
    | some v =>
      refine Or.inr (Or.inr ⟨j, v, hw, fun hdone => ?_, by simp⟩)
      simp [Session.serverStep, Session.State.withServer, Server.act, Server.mainAct, hm, hw,
        hdone] at hserver
  | exited => exact Or.inl rfl
  | killed => exact Or.inl rfl

/-- A worker that is not done waits for the rest of the message of the client's own call. -/
theorem worker_rests (h : Blocked cfg s) (hm : s.session.server.main ≠ .killed) {w : ℕ}
    {v : Server.Worker} (hw : s.session.server.workers[w]? = some v) (hv : v.pc ≠ .done) :
    ∃ conn, v = ⟨some conn, .receiving⟩ ∧ s.session.requested conn = false ∧
      s.exited = false ∧ s.session.client.conn? = some conn := by
  have hstep : workerStep cfg s w .succeeds = none := h (.worker w .succeeds) rfl
  obtain ⟨fd, pc⟩ := v
  cases pc with
  | receiving =>
    cases fd with
    | none => simp [workerStep, State.act, Server.act, Server.workerAct, hw, hm] at hstep
    | some conn =>
      simp only [workerStep, State.act, Server.act, Server.workerAct, hw, hm, if_false,
        if_true, Option.map_some, ite_eq_right_iff, reduceCtorEq, imp_false, Bool.or_eq_true,
        not_or, Bool.not_eq_true] at hstep
      obtain ⟨hrequested, hleft⟩ := hstep
      simp only [State.left, Bool.or_eq_false_iff, decide_eq_false_iff_not, not_not] at hleft
      exact ⟨conn, rfl, hrequested, hleft.1, hleft.2⟩
  | sending =>
    cases fd <;>
      simp [workerStep, State.act, State.setServer, Server.act, Server.workerAct, hw, hm] at hstep
  | closing =>
    cases fd <;> simp [workerStep, State.act, Server.act, Server.workerAct, hw, hm] at hstep
  | done => exact absurd rfl hv

theorem client_rests (h : Blocked cfg s) (hexited : s.exited = false) {call : Call}
    (hcall : s.session.client.call? = some call) :
    ∃ conn, call = .receiving conn ∧ s.hungUp conn = false := by
  have hstep : clientStep cfg s .succeeds = none := h (.client .succeeds) rfl
  simp only [clientStep, hexited, hcall, Bool.false_eq_true, if_false] at hstep
  cases call with
  | connecting =>
    simp only [callStep, State.inSession, Session.callStep] at hstep
    split at hstep <;> simp_all
  | sending conn => simp [callStep, State.inSession, Session.callStep] at hstep
  | receiving conn =>
    simp only [callStep, ite_eq_right_iff, reduceCtorEq, imp_false, Bool.or_eq_true, not_or,
      Bool.not_eq_true] at hstep
    exact ⟨conn, rfl, hstep.2⟩
  | closing conn => simp [callStep, State.inSession, Session.callStep] at hstep

/-- A worker that still waits stands across from the client. -/
theorem crossed_of_worker (hs : Inv cfg tr s) (h : Blocked cfg s)
    (hm : s.session.server.main ≠ .killed) {w : ℕ} {v : Server.Worker}
    (hw : s.session.server.workers[w]? = some v) (hv : v.pc ≠ .done) :
    s.exited = false ∧ s.Crossed cfg := by
  obtain ⟨conn, rfl, hrequested, hexited, hconn⟩ := worker_rests h hm hw hv
  obtain ⟨call, hcall, hheld⟩ := Option.bind_eq_some_iff.mp hconn
  obtain ⟨conn', rfl, -⟩ := client_rests h hexited hcall
  obtain rfl := Option.some.inj hheld
  exact ⟨hexited, hs.served.receiving _ (List.mem_of_getElem? hw) rfl, conn', w, hcall, hw,
    hrequested⟩

theorem idle_rests (h : Blocked cfg s) (hexited : s.exited = false)
    (hcall : s.session.client.call? = none) : s.session.client = .finished ∨
      s.session.client = .waiting ∧ ended s.session.server.main = false := by
  have hstep : clientStep cfg s .succeeds = none := h (.client .succeeds) rfl
  simp only [clientStep, hexited, hcall, Bool.false_eq_true, if_false, if_true] at hstep
  have hclient := Option.map_eq_none_iff.mp hstep
  cases hc : s.session.client with
  | probing call => simp [hc, Client.call?] at hcall
  | measuring run i call => simp [hc, Client.call?] at hcall
  | looping run i =>
    simp only [Session.clientStep, hc] at hclient
    split at hclient
    next => split at hclient <;> cases hclient
    next => cases hclient
  | waiting =>
    refine Or.inr ⟨rfl, ?_⟩
    cases hm : s.session.server.main <;> simp [Session.clientStep, hc, hm] at hclient <;> rfl
  | finished => exact Or.inl rfl

/-- A call that waits for its reply has its connection in the backlog or with a worker. -/
theorem call_crossed (hs : Inv cfg tr s) (h : Blocked cfg s) (hexited : s.exited = false)
    {call : Call} (hcall : s.session.client.call? = some call) : s.Crossed cfg := by
  obtain ⟨conn, rfl, hhung⟩ := client_rests h hexited hcall
  simp only [State.hungUp, Bool.or_eq_false_iff, decide_eq_false_iff_not] at hhung
  obtain ⟨⟨hlive, hdropped⟩, hdone⟩ := hhung
  have hkilled : s.session.server.main ≠ .killed := by
    intro hm
    simp [hm, ended] at hlive
  have hmade := hs.booked.conn conn (Session.conn_of_call hcall)
  have hworker : ∀ v ∈ s.session.server.workers, v.pc ≠ .done → s.Crossed cfg := by
    intro v hv hpc
    obtain ⟨w, hw⟩ := List.mem_iff_getElem?.mp hv
    exact (crossed_of_worker hs h hkilled hw hpc).2
  rcases hs.served.placed conn (by omega) with hbacklog | hdrop | hfd
  · rcases server_rests h with hended | hidle | ⟨j, v, hw, hv, -⟩
    · simp [hlive] at hended
    · simp [hidle.1] at hbacklog
    · exact hworker v (List.mem_of_getElem? hw) hv
  · exact absurd hdrop hdropped
  · obtain ⟨v, hv, hfd⟩ := List.mem_map.mp hfd
    refine hworker v hv fun hpc => hdone ?_
    rwa [← hfd, ← hpc]

/-- Where nothing goes on unless a call fails, it is at one of the five ends. -/
theorem blocked_rest (hs : Inv cfg tr s) (h : Blocked cfg s) : Rest cfg s := by
  by_cases hexited : s.exited = true
  · rcases server_rests h with hended | hidle | ⟨j, v, hw, hv, hm⟩
    · exact .exited hexited hended
    · exact .abandoned hexited hidle
    · have hstays := (crossed_of_worker hs h hm hw hv).1
      simp [hstays] at hexited
  have hexited : s.exited = false := Bool.eq_false_iff.mpr hexited
  cases hcall : s.session.client.call? with
  | some call => exact .crossed hexited (call_crossed hs h hexited hcall)
  | none =>
    rcases idle_rests h hexited hcall with hc | ⟨hc, hlive⟩
    · exact .finished hexited hc
    rcases server_rests h with hended | hidle | ⟨j, v, hw, hv, hm⟩
    · simp [hlive] at hended
    · exact .starved hexited hc hidle
    · exact .crossed hexited (crossed_of_worker hs h hm hw hv).2

end

section

/-- The calls of a client that has made them all. -/
theorem calls_made (hs : Inv cfg tr s)
    (hc : s.session.client = .waiting ∨ s.session.client = .finished) :
    (completed tr).length + tr.count .refused = cfg.measured + 1 ∧
      s.session.made = (completed tr).length := by
  have hmade := hs.booked.made
  have hcompleted := hs.booked.completed
  have hreturned : s.session.client.returned cfg = cfg.measured + 1 := by
    rcases hc with hc | hc <;> rw [hc] <;> rfl
  have hconn : s.session.client.conn? = none := by
    rcases hc with hc | hc <;> rw [hc] <;> rfl
  rw [hconn] at hmade
  simp only [Option.isSome_none, Bool.false_eq_true, if_false] at hmade
  exact ⟨hcompleted.trans hreturned, by omega⟩

/-- A server that comes to its own end has turned in its loop often enough. -/
theorem exited_turns (hs : Inv cfg tr s)
    (hc : s.session.client = .waiting ∨ s.session.client = .finished)
    (hm : s.session.server.main = .exited) : tr.count .refused ≤ tr.count .missed := by
  obtain ⟨hcalls, hmade⟩ := calls_made hs hc
  have hturns := hs.served.turns
  have hok := hs.served.ok
  simp only [Server.State.Ok, hm, Server.Main.Fits] at hok
  omega

/-- The turns that the loop still has to make are the connections that it will not get. -/
theorem idle_turns (hs : Inv cfg tr s)
    (hc : s.session.client = .waiting ∨ s.session.client = .finished) {i : ℕ}
    (hm : s.session.server.main = .accepting i) (hb : s.session.backlog = []) :
    i + tr.count .refused = cfg.measured + 1 + tr.count .missed := by
  obtain ⟨hcalls, hmade⟩ := calls_made hs hc
  have hturns := hs.served.turns
  have hok := hs.served.ok
  simp only [Server.State.Ok, hm, Server.Main.Fits] at hok
  simp only [hb, List.length_nil] at hturns
  omega

theorem moved_ended (hended : ended s.session.server.main = true) (h : Moved cfg s t out) :
    ended t.session.server.main = true ∧ t.session.made = s.session.made := by
  cases h with
  | connects hcall hl =>
    cases hm : s.session.server.main <;> simp [hm, listening, ended] at hl hended
  | control ha hacted => simp [control_live ha hacted] at hended
  | accepts hm hi hb => simp [hm, ended] at hended
  | startFails hm => simp [hm, ended] at hended
  | misses hm hi => simp [hm, ended] at hended
  | aborts hm hi hb => simp [hm, ended] at hended
  | works hacted ha =>
    rcases (works_acted hacted ha).2 with hm | hm
    · exact ⟨by rw [hm]; exact hended, rfl⟩
    · exact ⟨by rw [hm]; rfl, rfl⟩
  | _ => exact ⟨hended, rfl⟩

/-- A server that has gone before a connection was made leaves the client in its first loop. -/
theorem unreached_forever (hs : s.Unreached) (hmade : s.session.made = 0)
    (hended : ended s.session.server.main = true) {es : List Move}
    (h : (failingSession cfg).exec s es = some (t, out)) :
    t.session.client = .probing .connecting ∧ t.exited = false := by
  have hkept := exec_invariant (P := fun s => s.Unreached ∧ s.session.made = 0 ∧
    ended s.session.server.main = true) ?_ ⟨hs, hmade, hended⟩ h
  · exact hkept.1 hkept.2.1
  · intro s e t out hs hstep
    obtain ⟨hs, hmade, hended⟩ := hs
    have hmoved := step_moved hstep
    obtain ⟨hended', hmade'⟩ := moved_ended hended hmoved
    exact ⟨moved_unreached hs hmoved, hmade'.trans hmade, hended'⟩

end

/-- Calls may fail in any way on both sides. From the first connection on only so many moves
follow, and without one the server's end leaves the client in its first loop. What then is left
waiting is a client in `wait(NULL)` that has lost more connections than the server has missed, by
as many as the server still waits for, or in rtt.cpp a client and a worker that wait for each
other, or the server of a client that has exited. The samples of a client that has made all its
calls count the refused ones as well. -/
theorem failing_session_ends (h : Reach (failingSession cfg) tr s) :
    (0 < s.session.made → ∀ es t out, (failingSession cfg).exec s es = some (t, out) →
      es.length ≤ budget cfg) ∧
    (s.session.made = 0 → ended s.session.server.main = true →
      ∀ es t out, (failingSession cfg).exec s es = some (t, out) →
        t.session.client = .probing .connecting ∧ t.exited = false) ∧
    (Blocked cfg s → Rest cfg s) ∧
    (s.session.client = .waiting ∨ s.session.client = .finished →
      (completed tr).length + tr.count .refused = cfg.requests * cfg.iterations + 1 ∧
      (s.session.server.main = .exited → tr.count .refused ≤ tr.count .missed) ∧
      ∀ i ≤ cfg.measured, s.session.server.main = .accepting i → s.session.backlog = [] →
        i + tr.count .refused = cfg.requests * cfg.iterations + 1 + tr.count .missed) := by
  have hs := failing_session_inv h
  refine ⟨fun hmade es t out => exec_bounded h hmade, fun hmade hended es t out =>
    unreached_forever hs.unreached hmade hended, blocked_rest hs, fun hc =>
    ⟨(calls_made hs hc).1, exited_turns hs hc, fun i _ hm hb => idle_turns hs hc hm hb⟩⟩

/-- One measured call, and its `connect` fails. -/
theorem failing_session_ends_one : ∃ tr s, Reach (failingSession ⟨.push, 1, 1⟩) tr s ∧
    s.session.client = .waiting ∧ s.session.server.main = .accepting 1 ∧
      (completed tr).length = 1 := by
  have hrun : Reach (failingSession ⟨.push, 1, 1⟩) _ _ := reach_of_exec
    [.server true, .client .succeeds, .server true, .worker 0 .succeeds, .worker 0 .succeeds,
      .client .succeeds, .client .succeeds, .client .succeeds, .client .fails, .client .succeeds,
      .client .succeeds] rfl
  obtain ⟨-, -, -, hcalls⟩ := failing_session_ends hrun
  obtain ⟨hcount, -, -⟩ := hcalls (Or.inl rfl)
  exact ⟨_, _, hrun, rfl, rfl, Nat.succ_injective hcount⟩

end SysPerf.FailingSession
