import SysPerf.SessionFailuresBooked
import SysPerf.SessionFailuresServed

namespace SysPerf.FailingSession

open Server (Config Service Act Acted)
open Session (Call Client listening firstCall)

variable {cfg : Config} {tr out : List Event} {s t : State}

def callRank : Call → ℕ
  | .connecting => 4
  | .sending _ => 3
  | .receiving _ => 2
  | .closing _ => 1

/-- Each call is five moves at most, and each run of `run_func` ends with one more. -/
def clientRank (cfg : Config) : Client → ℕ
  | .probing call => 5 * cfg.measured + cfg.iterations + 2 + callRank call
  | .looping run i =>
    5 * (cfg.measured + 1 - (run * cfg.requests + i + 1)) + (cfg.iterations - run) + 2
  | .measuring run i call =>
    5 * (cfg.measured - (run * cfg.requests + i + 1)) + (cfg.iterations - run) + 2 + callRank call
  | .waiting => 1
  | .finished => 0

def State.rank (cfg : Config) (s : State) : ℕ :=
  s.session.server.rank cfg + clientRank cfg s.session.client + if s.exited then 0 else 1

/-- No more moves than these follow the first connection. -/
def budget (cfg : Config) : ℕ :=
  Server.start.rank cfg + (5 * cfg.measured + cfg.iterations + 6) + 1

theorem callRank_pos (call : Call) : 0 < callRank call := by
  cases call <;> simp [callRank]

theorem callRank_le (call : Call) : callRank call ≤ 4 := by
  cases call <;> simp [callRank]

theorem clientRank_le (client : Client) :
    clientRank cfg client ≤ 5 * cfg.measured + cfg.iterations + 6 := by
  cases client with
  | probing call =>
    have hcall := callRank_le call
    simp only [clientRank]
    omega
  | looping run i =>
    simp only [clientRank]
    omega
  | measuring run i call =>
    have hcall := callRank_le call
    simp only [clientRank]
    omega
  | waiting => simp only [clientRank]; omega
  | finished => simp only [clientRank]; omega

theorem clientRank_setCall {client : Client} {call next : Call} (hcall : client.call? = some call)
    (h : callRank next < callRank call) :
    clientRank cfg (client.setCall next) < clientRank cfg client := by
  cases client with
  | probing first =>
    obtain rfl := Option.some.inj hcall
    simp only [clientRank, Client.setCall]
    omega
  | measuring run i first =>
    obtain rfl := Option.some.inj hcall
    simp only [clientRank, Client.setCall]
    omega
  | _ => simp [Client.call?] at hcall

theorem clientRank_measured {run i : ℕ} (call : Call) :
    clientRank cfg (.looping run (i + 1)) < clientRank cfg (.measuring run i call) := by
  have hpos := callRank_pos call
  simp only [clientRank]
  omega

theorem clientRank_resume {client : Client} {call : Call} (hcall : client.call? = some call) :
    clientRank cfg (client.resume true) < clientRank cfg client := by
  cases client with
  | probing first =>
    have hpos := callRank_pos first
    simp only [clientRank, Client.resume, if_true, Nat.zero_mul]
    omega
  | measuring run i first => exact clientRank_measured first
  | _ => simp [Client.call?] at hcall

/-- A client that has not made a connection is where it has begun. -/
def State.Unreached (s : State) : Prop :=
  s.session.made = 0 → s.session.client = .probing .connecting ∧ s.exited = false

theorem moved_unreached (hs : s.Unreached) (h : Moved cfg s t out) : t.Unreached := by
  intro hmade
  cases h with
  | connects hcall hl => simp at hmade
  | refuses hcall =>
    obtain ⟨hc, hexited⟩ := hs hmade
    rw [refuse_probing hc]
    exact ⟨rfl, hexited⟩
  | sends hcall => simp [(hs hmade).1, Client.call?] at hcall
  | receives hcall => simp [(hs hmade).1, Client.call?] at hcall
  | completes hcall => simp [(hs hmade).1, Client.call?] at hcall
  | exits hconn hexited => simp [(hs hmade).1, Client.conn?, Client.call?, Call.conn?] at hconn
  | requests hc hrun hi => simp [(hs hmade).1] at hc
  | ends hc hrun hi => simp [(hs hmade).1] at hc
  | waits hc hrun => simp [(hs hmade).1] at hc
  | finishes hc hm => simp [(hs hmade).1] at hc
  | control ha hacted => exact hs hmade
  | accepts hm hi hb => exact hs hmade
  | startFails hm => exact hs hmade
  | misses hm hi => exact hs hmade
  | aborts hm hi hb => exact hs hmade
  | works hacted ha => exact hs hmade

structure Inv (cfg : Config) (tr : List Event) (s : State) : Prop where
  booked : Booked cfg tr s
  served : Served cfg tr s
  unreached : s.Unreached

theorem moved_inv (hs : Inv cfg tr s) (h : Moved cfg s t out) : Inv cfg (tr ++ out) t :=
  ⟨moved_booked hs.booked h, moved_served hs.served h, moved_unreached hs.unreached h⟩

theorem failing_session_inv (h : Reach (failingSession cfg) tr s) : Inv cfg tr s := by
  refine h.history (P := Inv cfg) ⟨booked_start, served_start, fun _ => ⟨rfl, rfl⟩⟩ ?_
  intro tr s e t out hs hstep
  exact moved_inv hs (step_moved hstep)

theorem rank_client (hserver : t.session.server = s.session.server) (hexited : t.exited = s.exited)
    (hlt : clientRank cfg t.session.client < clientRank cfg s.session.client) :
    t.rank cfg < s.rank cfg := by
  rw [State.rank, State.rank, hserver, hexited]
  omega

theorem rank_server (hclient : t.session.client = s.session.client) (hexited : t.exited = s.exited)
    (hlt : t.session.server.rank cfg < s.session.server.rank cfg) : t.rank cfg < s.rank cfg := by
  rw [State.rank, State.rank, hclient, hexited]
  omega

/-- Once there has been a connection every move is one less that can follow. -/
theorem moved_rank (hs : Inv cfg tr s) (hmade : 0 < s.session.made) (h : Moved cfg s t out) :
    0 < t.session.made ∧ t.rank cfg < s.rank cfg := by
  have hok := hs.served.ok
  cases h with
  | connects hcall hl =>
    refine ⟨Nat.succ_pos _, rank_client rfl rfl (clientRank_setCall hcall ?_)⟩
    cases cfg.service <;> simp [firstCall, callRank]
  | refuses hcall =>
    cases hc : s.session.client with
    | probing call =>
      -- a client of the first loop that is in `connect` has made no connection
      have hbooked := hs.booked.made
      rw [hc] at hcall hbooked
      obtain rfl := Option.some.inj hcall
      simp [Client.returned, Client.conn?, Client.call?, Call.conn?] at hbooked
      omega
    | measuring run i call =>
      rw [refuse_measuring hc]
      refine ⟨hmade, rank_client rfl rfl ?_⟩
      rw [hc]
      exact clientRank_measured call
    | _ => simp [hc, Client.call?] at hcall
  | sends hcall => exact ⟨hmade, rank_client rfl rfl (clientRank_setCall hcall (by simp [callRank]))⟩
  | receives hcall =>
    exact ⟨hmade, rank_client rfl rfl (clientRank_setCall hcall (by simp [callRank]))⟩
  | completes hcall => exact ⟨hmade, rank_client rfl rfl (clientRank_resume hcall)⟩
  | exits hconn hexited => exact ⟨hmade, by simp [State.rank, hexited]⟩
  | @requests run i hc hrun hi =>
    have hcalls := Session.calls_lt hrun hi
    refine ⟨hmade, rank_client rfl rfl ?_⟩
    simp only [State.setClient, hc, clientRank, callRank]
    omega
  | @ends run i hc hrun hi =>
    have hrange := hs.booked.range
    rw [hc] at hrange
    obtain rfl : i = cfg.requests := by have := hrange.2.1; omega
    refine ⟨hmade, rank_client rfl rfl ?_⟩
    simp only [State.setClient, hc, clientRank, Nat.succ_mul]
    omega
  | waits hc hrun =>
    refine ⟨hmade, rank_client rfl rfl ?_⟩
    simp only [State.setClient, hc, clientRank]
    omega
  | finishes hc hm => exact ⟨hmade, rank_client rfl rfl (by simp [State.setClient, hc, clientRank])⟩
  | control ha hacted => exact ⟨hmade, rank_server rfl rfl (Server.acted_rank hok hacted)⟩
  | @accepts i conn rest hm hi hb =>
    have hacted : Acted cfg s.session.server (.accept (some conn)) _ _ := .accepts hm hi
    exact ⟨hmade, rank_server rfl rfl (Server.acted_rank hok hacted)⟩
  | startFails hm => exact absurd (hs.served.listens hm) hmade.ne'
  | misses hm hi =>
    have hacted : Acted cfg s.session.server (.accept none) _ _ := .accepts hm hi
    exact ⟨hmade, rank_server rfl rfl (Server.acted_rank hok hacted)⟩
  | aborts hm hi hb =>
    have hacted : Acted cfg s.session.server (.accept none) _ _ := .accepts hm hi
    exact ⟨hmade, rank_server rfl rfl (Server.acted_rank hok hacted)⟩
  | works hacted ha => exact ⟨hmade, rank_server rfl rfl (Server.acted_rank hok hacted)⟩

theorem rank_le_budget (hs : Inv cfg tr s) : s.rank cfg ≤ budget cfg := by
  have hserver := hs.served.rank
  have hclient : clientRank cfg s.session.client ≤ _ := clientRank_le _
  simp only [State.rank, budget]
  split <;> omega

theorem exec_bounded (h : Reach (failingSession cfg) tr s) (hmade : 0 < s.session.made)
    {es : List Move} (hexec : (failingSession cfg).exec s es = some (t, out)) :
    es.length ≤ budget cfg := by
  refine (exec_length_le (State.rank cfg)
    (fun s => 0 < s.session.made ∧ ∃ tr, Inv cfg tr s) ?_ ⟨hmade, tr, failing_session_inv h⟩
    hexec).trans (rank_le_budget (failing_session_inv h))
  intro s e t out hs hstep
  obtain ⟨hmade, tr, hinv⟩ := hs
  have hmoved := step_moved hstep
  obtain ⟨hpos, hlt⟩ := moved_rank hinv hmade hmoved
  exact ⟨⟨hpos, tr ++ out, moved_inv hinv hmoved⟩, hlt⟩

end SysPerf.FailingSession
