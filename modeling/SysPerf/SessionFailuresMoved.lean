import SysPerf.SessionFailures

namespace SysPerf.FailingSession

open Server (Config Service Act Acted)
open Session (Call Client listening firstCall)

/-- The acts of the workers. -/
def Works : Act → Prop
  | .recv _ _ => True
  | .send _ _ => True
  | .close _ => True
  | _ => False

/-- What can happen next, with what it leaves of the messages as it may be. -/
inductive Moved (cfg : Config) (s : State) : State → List Event → Prop
  | connects : s.session.client.call? = some .connecting → listening s.session.server = true →
      Moved cfg s { s with session := { s.session with
        client := s.session.client.setCall (firstCall cfg.service s.session.made)
        made := s.session.made + 1
        backlog := s.session.backlog ++ [s.session.made] } } []
  | refuses : s.session.client.call? = some .connecting → Moved cfg s s.refuse.1 s.refuse.2
  | sends {conn requested} : s.session.client.call? = some (.sending conn) →
      Moved cfg s { s with session := { s.session with
        client := s.session.client.setCall (.receiving conn)
        requested := requested } } []
  | receives {conn} : s.session.client.call? = some (.receiving conn) →
      Moved cfg s (s.setClient (s.session.client.setCall (.closing conn))) []
  | completes {conn} : s.session.client.call? = some (.closing conn) →
      Moved cfg s (s.setClient (s.session.client.resume true)) [.session (.completed conn)]
  | exits {conn} : s.session.client.conn? = some conn → s.exited = false →
      Moved cfg s { s with exited := true } []
  | requests {run i} : s.session.client = .looping run i → run < cfg.iterations →
      i < cfg.requests → Moved cfg s (s.setClient (.measuring run i .connecting)) []
  | ends {run i} : s.session.client = .looping run i → run < cfg.iterations →
      ¬i < cfg.requests → Moved cfg s (s.setClient (.looping (run + 1) 0)) []
  | waits {run i} : s.session.client = .looping run i → ¬run < cfg.iterations →
      Moved cfg s (s.setClient .waiting) []
  | finishes : s.session.client = .waiting → ended s.session.server.main = true →
      Moved cfg s (s.setClient .finished) []
  | control {a server} : a = .listen ∨ a = .advance → Acted cfg s.session.server a server [] →
      Moved cfg s (s.setServer server) []
  | accepts {i conn rest} : s.session.server.main = .accepting i → i ≤ cfg.measured →
      s.session.backlog = conn :: rest → Moved cfg s { s with session := { s.session with
        server := ⟨.accepting (i + 1),
          s.session.server.workers ++ [⟨some conn, cfg.service.first⟩]⟩
        backlog := rest } } [.session (.accepted conn)]
  | startFails : s.session.server.main = .starting →
      Moved cfg s (s.setServer { s.session.server with main := .killed }) []
  | misses {i} : s.session.server.main = .accepting i → i ≤ cfg.measured →
      Moved cfg s (s.setServer ⟨.accepting (i + 1),
        s.session.server.workers ++ [⟨none, cfg.service.first⟩]⟩) [.missed]
  | aborts {i conn rest} : s.session.server.main = .accepting i → i ≤ cfg.measured →
      s.session.backlog = conn :: rest → Moved cfg s { s with
        session := { s.session with
          server := ⟨.accepting (i + 1),
            s.session.server.workers ++ [⟨none, cfg.service.first⟩]⟩
          backlog := rest }
        dropped := conn :: s.dropped } [.aborted conn]
  | works {a server ev replied} : Acted cfg s.session.server a server ev → Works a →
      Moved cfg s { s with session := { s.session with
        server := server
        replied := replied } } []

variable {cfg : Config} {s t : State} {out : List Event}

theorem refuse_probing {call : Call} (hc : s.session.client = .probing call) :
    s.refuse = (s.setClient (.probing .connecting), []) := by
  simp [State.refuse, refusal, Client.resume, hc]

theorem refuse_measuring {run i : ℕ} {call : Call}
    (hc : s.session.client = .measuring run i call) :
    s.refuse = (s.setClient (.looping run (i + 1)), [.refused]) := by
  simp [State.refuse, refusal, Client.resume, hc]

theorem inSession_eq_some {r : Option (Session.State × List Session.Event)}
    (h : s.inSession r = some (t, out)) :
    ∃ u o, r = some (u, o) ∧ t = { s with session := u } ∧ out = o.map .session := by
  obtain ⟨⟨u, o⟩, hr, heq⟩ := Option.map_eq_some_iff.mp h
  obtain ⟨rfl, rfl⟩ := Prod.mk.inj heq
  exact ⟨u, o, hr, rfl, rfl⟩

theorem act_eq_some {a : Act} (h : s.act cfg a = some (t, out)) :
    ∃ server ev, Acted cfg s.session.server a server ev ∧ t = s.setServer server ∧ out = [] := by
  obtain ⟨⟨server, ev⟩, hact, heq⟩ := Option.map_eq_some_iff.mp h
  obtain ⟨rfl, rfl⟩ := Prod.mk.inj heq
  exact ⟨server, ev, Server.act_acted hact, rfl, rfl⟩

theorem callStep_moved {call : Call} {e : Ending} (hcall : s.session.client.call? = some call)
    (hexited : s.exited = false) (h : callStep cfg s call e = some (t, out)) :
    Moved cfg s t out := by
  unfold callStep at h
  split at h
  next =>
    split at h
    next hl =>
      obtain ⟨u, o, hstep, rfl, rfl⟩ := inSession_eq_some h
      simp only [Session.callStep, hl, if_true, Option.some.injEq, Prod.mk.injEq] at hstep
      obtain ⟨rfl, rfl⟩ := hstep
      exact .connects hcall hl
    next =>
      obtain ⟨rfl, rfl⟩ := Prod.mk.inj (Option.some.inj h)
      exact .refuses hcall
  next =>
    obtain ⟨rfl, rfl⟩ := Prod.mk.inj (Option.some.inj h)
    exact .refuses hcall
  next conn =>
    obtain ⟨u, o, hstep, rfl, rfl⟩ := inSession_eq_some h
    obtain ⟨rfl, rfl⟩ := Prod.mk.inj (Option.some.inj hstep)
    exact .sends hcall
  next conn =>
    obtain ⟨rfl, rfl⟩ := Prod.mk.inj (Option.some.inj h)
    exact Moved.sends hcall
  next conn =>
    obtain ⟨-, heq⟩ := Option.ite_none_right_eq_some.mp h
    obtain ⟨rfl, rfl⟩ := Prod.mk.inj (Option.some.inj heq)
    exact .exits (Session.conn_of_call hcall) hexited
  next conn =>
    obtain ⟨-, heq⟩ := Option.ite_none_right_eq_some.mp h
    obtain ⟨rfl, rfl⟩ := Prod.mk.inj (Option.some.inj heq)
    exact .receives hcall
  next conn =>
    obtain ⟨rfl, rfl⟩ := Prod.mk.inj (Option.some.inj h)
    exact .exits (Session.conn_of_call hcall) hexited
  next conn =>
    obtain ⟨u, o, hstep, rfl, rfl⟩ := inSession_eq_some h
    obtain ⟨rfl, rfl⟩ := Prod.mk.inj (Option.some.inj hstep)
    exact .completes hcall
  next => cases h

theorem idleStep_moved (hcall : s.session.client.call? = none)
    (h : s.inSession (Session.clientStep cfg s.session) = some (t, out)) : Moved cfg s t out := by
  obtain ⟨u, o, hstep, rfl, rfl⟩ := inSession_eq_some h
  cases hc : s.session.client with
  | probing call => simp [hc, Client.call?] at hcall
  | measuring run i call => simp [hc, Client.call?] at hcall
  | looping run i =>
    simp only [Session.clientStep, hc] at hstep
    split at hstep
    next hrun =>
      split at hstep
      next hi =>
        obtain ⟨rfl, rfl⟩ := Prod.mk.inj (Option.some.inj hstep)
        exact .requests hc hrun hi
      next hi =>
        obtain ⟨rfl, rfl⟩ := Prod.mk.inj (Option.some.inj hstep)
        exact .ends hc hrun hi
    next hrun =>
      obtain ⟨rfl, rfl⟩ := Prod.mk.inj (Option.some.inj hstep)
      exact .waits hc hrun
  | waiting =>
    cases hm : s.session.server.main with
    | exited =>
      simp only [Session.clientStep, hc, hm, Option.some.injEq, Prod.mk.injEq] at hstep
      obtain ⟨rfl, rfl⟩ := hstep
      exact .finishes hc (by rw [hm]; rfl)
    | killed =>
      simp only [Session.clientStep, hc, hm, Option.some.injEq, Prod.mk.injEq] at hstep
      obtain ⟨rfl, rfl⟩ := hstep
      exact .finishes hc (by rw [hm]; rfl)
    | _ => simp [Session.clientStep, hc, hm] at hstep
  | finished => simp [Session.clientStep, hc] at hstep

theorem clientStep_moved {e : Ending} (h : clientStep cfg s e = some (t, out)) :
    Moved cfg s t out := by
  obtain ⟨hexited, h⟩ := Option.ite_none_left_eq_some.mp h
  cases hcall : s.session.client.call? with
  | some call =>
    rw [hcall] at h
    exact callStep_moved hcall (Bool.eq_false_iff.mpr hexited) h
  | none =>
    rw [hcall] at h
    obtain ⟨-, h⟩ := Option.ite_none_right_eq_some.mp h
    exact idleStep_moved hcall h

theorem control_moved {a : Act} (ha : a = .listen ∨ a = .advance)
    (h : s.inSession (s.session.withServer (Server.act cfg s.session.server a) []) =
      some (t, out)) : Moved cfg s t out := by
  obtain ⟨u, o, hstep, rfl, rfl⟩ := inSession_eq_some h
  obtain ⟨server, ev, hact, rfl, rfl⟩ := Session.withServer_eq_some hstep
  have hacted := Server.act_acted hact
  have hev : ev = [] := by
    rcases ha with rfl | rfl
    · cases hacted; rfl
    · cases hacted <;> rfl
  subst hev
  exact .control ha hacted

/-- An `accept` that returns -1 still makes a worker. -/
theorem accept_none {server : Server.State} {ev : List Server.Event}
    (h : Server.act cfg s.session.server (.accept none) = some (server, ev)) :
    ∃ i, s.session.server.main = .accepting i ∧ i ≤ cfg.measured ∧ server =
      ⟨.accepting (i + 1), s.session.server.workers ++ [⟨none, cfg.service.first⟩]⟩ := by
  cases Server.act_acted h with
  | accepts hm hi => exact ⟨_, hm, hi, rfl⟩

theorem serverStep_moved {ok : Bool} (h : serverStep cfg s ok = some (t, out)) :
    Moved cfg s t out := by
  unfold serverStep at h
  split at h
  next =>
    unfold Session.serverStep at h
    split at h
    next => exact control_moved (Or.inl rfl) h
    next i hm =>
      split at h
      next hi =>
        split at h
        next conn rest hb =>
          obtain ⟨u, o, hstep, rfl, rfl⟩ := inSession_eq_some h
          obtain ⟨server, ev, hact, rfl, rfl⟩ := Session.withServer_eq_some hstep
          cases Server.act_acted hact with
          | accepts hm' _ =>
            obtain rfl := Server.Main.accepting.inj (hm.symm.trans hm')
            exact .accepts hm hi hb
        next => cases h
      next => exact control_moved (Or.inr rfl) h
    next => exact control_moved (Or.inr rfl) h
  next =>
    split at h
    next hm =>
      obtain ⟨rfl, rfl⟩ := Prod.mk.inj (Option.some.inj h)
      exact .startFails hm
    next =>
      obtain ⟨⟨server, ev⟩, hact, heq⟩ := Option.map_eq_some_iff.mp h
      obtain ⟨rfl, rfl⟩ := Prod.mk.inj heq
      obtain ⟨i, hm, hi, rfl⟩ := accept_none hact
      exact .misses hm hi

theorem abortStep_moved (h : abortStep cfg s = some (t, out)) : Moved cfg s t out := by
  unfold abortStep at h
  split at h
  next conn rest hb =>
    obtain ⟨⟨server, ev⟩, hact, heq⟩ := Option.map_eq_some_iff.mp h
    obtain ⟨rfl, rfl⟩ := Prod.mk.inj heq
    obtain ⟨i, hm, hi, rfl⟩ := accept_none hact
    exact .aborts hm hi hb
  next => cases h

theorem act_moved {a : Act} (h : s.act cfg a = some (t, out)) (ha : Works a) :
    Moved cfg s t out := by
  obtain ⟨server, ev, hacted, rfl, rfl⟩ := act_eq_some h
  exact Moved.works hacted ha

theorem workerStep_moved {w : ℕ} {e : Ending} (h : workerStep cfg s w e = some (t, out)) :
    Moved cfg s t out := by
  unfold workerStep at h
  split at h
  next => exact act_moved (Option.ite_none_right_eq_some.mp h).2 trivial
  next => exact act_moved h trivial
  next =>
    obtain ⟨server, ev, hacted, rfl, rfl⟩ := act_eq_some h
    exact .works hacted trivial
  next => exact act_moved h trivial
  next => exact act_moved (Option.ite_none_right_eq_some.mp h).2 trivial
  next => exact act_moved h trivial
  next => exact act_moved h trivial
  next => exact act_moved h trivial
  next => cases h

theorem step_moved {e : Move} (h : step cfg s e = some (t, out)) : Moved cfg s t out := by
  cases e with
  | client e => exact clientStep_moved h
  | server ok => exact serverStep_moved h
  | aborts => exact abortStep_moved h
  | worker w e => exact workerStep_moved h

end SysPerf.FailingSession
