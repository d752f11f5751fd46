import SysPerf.SessionFailuresEnds
import SysPerf.SessionDelivery

namespace SysPerf.FailingSession

open Server (Config Service Act Acted)
open Session (Call Client listening)

variable {cfg : Config} {u : Session.State} {seen : List Session.Event}

/-- The program where no call fails by itself. -/
def faultless (cfg : Config) : Machine State Move Event where
  init := start
  step s e := if e.ok then step cfg s e else none

def Move.of : Session.Move → Move
  | .client => .client .succeeds
  | .server => .server true
  | .worker w => .worker w .succeeds

def State.of (u : Session.State) : State :=
  ⟨u, false, []⟩

theorem ok_of {e : Move} (h : e.ok = true) : ∃ e', e = Move.of e' := by
  cases e with
  | client e => exact ⟨.client, by rw [of_decide_eq_true h]; rfl⟩
  | server ok => exact ⟨.server, congrArg Move.server h⟩
  | aborts => cases h
  | worker w e => exact ⟨.worker w, by rw [of_decide_eq_true h]; rfl⟩

theorem of_ok (e : Session.Move) : (Move.of e).ok = true := by
  cases e <;> rfl

/-- A worker that is past its reply has sent it. -/
theorem done_replied (hs : Session.Inv cfg seen u) {conn : ℕ}
    (h : ⟨some conn, .done⟩ ∈ u.server.workers) : u.replied conn = true := by
  obtain ⟨w, hw⟩ := List.mem_iff_getElem?.mp h
  obtain rfl : conn = w := Option.some.inj (hs.served.fd w _ hw)
  exact (hs.delivered.replied conn _ hw).mpr (Or.inr rfl)

/-- The server's side of the client's connection is not closed before the reply is there. -/
theorem hungUp_replied (hs : Session.Inv cfg seen u) {conn : ℕ}
    (hconn : u.client.conn? = some conn) (h : (State.of u).hungUp conn = true) :
    u.replied conn = true := by
  simp only [State.hungUp, State.of, List.not_mem_nil, decide_false, Bool.or_false,
    Bool.or_eq_true] at h
  rcases h with hended | hdone
  · have hok := hs.served.ok
    cases hm : u.server.main with
    | exited =>
      simp only [Server.State.Ok, hm, Server.Main.Fits] at hok
      have hmade := hs.booked.made
      have hle := hs.booked.made_le
      have hreturned := hs.booked.conn conn hconn
      rw [hconn] at hmade
      simp only [Option.isSome_some, if_true] at hmade
      have hlt : conn < u.server.workers.length := by omega
      have hw : u.server.workers[conn]? = some u.server.workers[conn] :=
        List.getElem?_eq_getElem hlt
      exact (hs.delivered.replied conn _ hw).mpr (Or.inr (hok.2 _ (List.getElem_mem hlt)))
    | killed => exact absurd hm hs.served.alive
    | _ => simp [hm, ended] at hended
  · exact done_replied hs (of_decide_eq_true hdone)

/-- The client does not close its side of a connection before its message has gone. -/
theorem left_requested (hs : Session.Inv cfg seen u) {w conn : ℕ}
    (hw : u.server.workers[w]? = some ⟨some conn, .receiving⟩)
    (h : (State.of u).left conn = true) : u.requested conn = true := by
  have hconn : u.client.conn? ≠ some conn := of_decide_eq_true h
  have hlt : w < u.server.workers.length := (List.getElem?_eq_some_iff.mp hw).1
  have hle := hs.served.le
  obtain rfl : conn = w := Option.some.inj (hs.served.fd w _ hw)
  refine hs.delivered.requested (hs.delivered.receiving conn _ hw rfl) conn (by omega) ?_
  intro hcall
  exact hconn (Session.conn_of_call hcall)

theorem clientStep_of (hs : Session.Inv cfg seen u) :
    clientStep cfg (State.of u) .succeeds = (State.of u).inSession (Session.clientStep cfg u) := by
  cases hcall : u.client.call? with
  | none => simp [clientStep, State.of, hcall]
  | some call =>
    have hclient : Session.clientStep cfg u = Session.callStep cfg u call := by
      cases hc : u.client <;> simp [hc, Client.call?] at hcall <;>
        simp [Session.clientStep, hc, hcall]
    have hstep : clientStep cfg (State.of u) .succeeds = callStep cfg (State.of u) call .succeeds := by
      simp [clientStep, State.of, hcall]
    rw [hstep, hclient]
    cases call with
    | connecting =>
      by_cases hl : listening u.server = true
      · simp [callStep, State.of, hl]
      · have hc := hs.refused hcall (Bool.eq_false_iff.mpr hl)
        have hrefuse : callStep cfg (State.of u) .connecting .succeeds =
            some (State.of u).refuse := if_neg hl
        have hprobing : (State.of u).session.client = .probing .connecting := hc
        rw [hrefuse, refuse_probing hprobing]
        simp [State.of, State.setClient, State.inSession, Session.callStep, Client.resume, hl, hc]
    | sending conn => rfl
    | receiving conn =>
      have hhung : (u.replied conn || (State.of u).hungUp conn) = u.replied conn := by
        cases hreplied : u.replied conn with
        | true => rfl
        | false =>
          rw [Bool.false_or, Bool.eq_false_iff]
          intro hhung
          simp [hungUp_replied hs (Session.conn_of_call hcall) hhung] at hreplied
      change (if (u.replied conn || (State.of u).hungUp conn) = true then _ else none) = _
      rw [hhung]
      cases hreplied : u.replied conn <;>
        simp [State.inSession, Session.callStep, hreplied, State.of, State.setClient]
    | closing conn => rfl

theorem workerStep_of (hs : Session.Inv cfg seen u) (w : ℕ) :
    workerStep cfg (State.of u) w .succeeds =
      (State.of u).inSession (Session.workerStep cfg u w) := by
  cases hw : u.server.workers[w]? with
  | none => simp [workerStep, Session.workerStep, State.of, State.inSession, hw]
  | some v =>
    obtain ⟨fd, pc⟩ := v
    obtain rfl : fd = some w := hs.served.fd w _ hw
    have hlive : u.server.main ≠ .killed := hs.served.alive
    cases pc with
    | receiving =>
      have hheard : (u.requested w || (State.of u).left w) = u.requested w := by
        cases hrequested : u.requested w with
        | true => rfl
        | false =>
          rw [Bool.false_or, Bool.eq_false_iff]
          intro hleft
          simp [left_requested hs hw hleft] at hrequested
      have hstep : workerStep cfg (State.of u) w .succeeds =
          if (u.requested w || (State.of u).left w) = true then
            (State.of u).act cfg (.recv w true) else none := by
        simp [workerStep, State.of, hw]
      rw [hstep, hheard]
      cases hrequested : u.requested w <;>
        simp [Session.workerStep, State.act, State.of, State.setServer, State.inSession,
          Session.State.withServer, Server.act, Server.workerAct, hw, hlive, hrequested]
    | sending =>
      simp [workerStep, Session.workerStep, State.act, State.of, State.setServer, State.inSession,
        Session.State.withServer, Server.act, Server.workerAct, hw, hlive]
    | closing =>
      simp [workerStep, Session.workerStep, State.act, State.of, State.setServer, State.inSession,
        Session.State.withServer, Server.act, Server.workerAct, hw, hlive]
    | done => simp [workerStep, Session.workerStep, State.of, State.inSession, hw]

/-- In a state of the session every call that does not fail by itself does what it does there. -/
theorem step_of (hs : Session.Inv cfg seen u) (e : Session.Move) :
    step cfg (State.of u) (Move.of e) = (State.of u).inSession (Session.step cfg u e) := by
  cases e with
  | client => exact clientStep_of hs
  | server => rfl
  | worker w => exact workerStep_of hs w

theorem reach_of (h : Reach (Session.session cfg) seen u) :
    Reach (faultless cfg) (seen.map .session) (State.of u) := by
  induction h with
  | init => exact Reach.init
  | @step seen u e v out hu hstep ih =>
    have hstep : Session.step cfg u e = some (v, out) := hstep
    have hnext : (faultless cfg).step (State.of u) (Move.of e) =
        some (State.of v, out.map .session) := by
      simp only [faultless, of_ok, if_true]
      rw [step_of (Session.session_inv hu), hstep]
      rfl
    simpa using ih.step hnext

/-- Where no call fails by itself none meets a side that is closed: no `recv` returns with less
than the whole message, and no `connect` is refused behind the first loop. The program runs as the
session does. -/
theorem faultless_iff {tr : List Event} {s : State} : Reach (faultless cfg) tr s ↔
    ∃ seen, Reach (Session.session cfg) seen s.session ∧ tr = seen.map .session ∧
      s = State.of s.session := by
  constructor
  · intro h
    induction h with
    | init => exact ⟨[], Reach.init, rfl, rfl⟩
    | @step tr s e t out _ hstep ih =>
      obtain ⟨seen, hreach, rfl, hs⟩ := ih
      obtain ⟨hok, hstep⟩ := Option.ite_none_right_eq_some.mp hstep
      obtain ⟨e, rfl⟩ := ok_of hok
      rw [hs, step_of (Session.session_inv hreach)] at hstep
      obtain ⟨v, o, hv, rfl, rfl⟩ := inSession_eq_some hstep
      exact ⟨seen ++ o, hreach.step hv, by simp, rfl⟩
  · rintro ⟨seen, hreach, rfl, hs⟩
    rw [hs]
    exact reach_of hreach

end SysPerf.FailingSession
