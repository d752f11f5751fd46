import SysPerf.Session

namespace SysPerf.Session

open Server (Config Service Act Acted)

variable {cfg : Config}

/-- What can happen next in the client, the server and its workers. -/
inductive Moved (cfg : Config) (s : State) : State → List Event → Prop
  | connects : s.client.call? = some .connecting → listening s.server = true →
      Moved cfg s { s with
        client := s.client.setCall (firstCall cfg.service s.made)
        made := s.made + 1
        backlog := s.backlog ++ [s.made] } []
  | refused : s.client.call? = some .connecting → listening s.server = false →
      Moved cfg s { s with client := s.client.resume false } []
  | sends {conn} : s.client.call? = some (.sending conn) →
      Moved cfg s { s with
        client := s.client.setCall (.receiving conn)
        requested := Function.update s.requested conn true } []
  | receives {conn} : s.client.call? = some (.receiving conn) → s.replied conn = true →
      Moved cfg s { s with client := s.client.setCall (.closing conn) } []
  | completes {conn} : s.client.call? = some (.closing conn) →
      Moved cfg s { s with client := s.client.resume true } [.completed conn]
  | requests {run i} : s.client = .looping run i → run < cfg.iterations → i < cfg.requests →
      Moved cfg s { s with client := .measuring run i .connecting } []
  | ends {run i} : s.client = .looping run i → run < cfg.iterations → ¬i < cfg.requests →
      Moved cfg s { s with client := .looping (run + 1) 0 } []
  | waits {run i} : s.client = .looping run i → ¬run < cfg.iterations →
      Moved cfg s { s with client := .waiting } []
  | finishes : s.client = .waiting → (s.server.main = .exited ∨ s.server.main = .killed) →
      Moved cfg s { s with client := .finished } []
  | control {a server} : a = .listen ∨ a = .advance → Acted cfg s.server a server [] →
      Moved cfg s { s with server := server } []
  | accepts {i conn rest} : s.server.main = .accepting i → i ≤ cfg.measured →
      s.backlog = conn :: rest → Moved cfg s { s with
        server := ⟨.accepting (i + 1), s.server.workers ++ [⟨some conn, cfg.service.first⟩]⟩
        backlog := rest } [.accepted conn]
  | hears {w conn} : s.server.workers[w]? = some ⟨some conn, .receiving⟩ →
      s.requested conn = true →
      Moved cfg s { s with server := s.server.setWorker w (some conn) .sending } []
  | replies {w conn} : s.server.workers[w]? = some ⟨some conn, .sending⟩ →
      Moved cfg s { s with
        server := s.server.setWorker w (some conn) .closing
        replied := Function.update s.replied conn true } []
  | closes {w conn} : s.server.workers[w]? = some ⟨some conn, .closing⟩ →
      Moved cfg s { s with server := s.server.setWorker w (some conn) .done } []

theorem withServer_eq_some {s t : State} {r : Option (Server.State × List Server.Event)}
    {out ev : List Event} (h : s.withServer r out = some (t, ev)) :
    ∃ server o, r = some (server, o) ∧ t = { s with server := server } ∧ ev = out := by
  obtain ⟨⟨server, o⟩, hr, heq⟩ := Option.map_eq_some_iff.mp h
  obtain ⟨rfl, rfl⟩ := Prod.mk.inj heq
  exact ⟨server, o, hr, rfl, rfl⟩

theorem callStep_moved {s t : State} {call : Call} {out : List Event}
    (hcall : s.client.call? = some call) (h : callStep cfg s call = some (t, out)) :
    Moved cfg s t out := by
  cases call with
  | connecting =>
    simp only [callStep] at h
    split at h
    next hl =>
      obtain ⟨rfl, rfl⟩ := Prod.mk.inj (Option.some.inj h)
      exact .connects hcall hl
    next hl =>
      obtain ⟨rfl, rfl⟩ := Prod.mk.inj (Option.some.inj h)
      exact .refused hcall (Bool.not_eq_true _ ▸ hl)
  | sending conn =>
    obtain ⟨rfl, rfl⟩ := Prod.mk.inj (Option.some.inj h)
    exact .sends hcall
  | receiving conn =>
    obtain ⟨hreplied, heq⟩ := Option.ite_none_right_eq_some.mp h
    obtain ⟨rfl, rfl⟩ := Prod.mk.inj (Option.some.inj heq)
    exact .receives hcall hreplied
  | closing conn =>
    obtain ⟨rfl, rfl⟩ := Prod.mk.inj (Option.some.inj h)
    exact .completes hcall

theorem clientStep_moved {s t : State} {out : List Event}
    (h : clientStep cfg s = some (t, out)) : Moved cfg s t out := by
  cases hc : s.client with
  | probing call =>
    simp only [clientStep, hc] at h
    exact callStep_moved (by rw [hc]; rfl) h
  | measuring run i call =>
    simp only [clientStep, hc] at h
    exact callStep_moved (by rw [hc]; rfl) h
  | looping run i =>
    simp only [clientStep, hc] at h
    split at h
    next hrun =>
      split at h
      next hi =>
        obtain ⟨rfl, rfl⟩ := Prod.mk.inj (Option.some.inj h)
        exact .requests hc hrun hi
      next hi =>
        obtain ⟨rfl, rfl⟩ := Prod.mk.inj (Option.some.inj h)
        exact .ends hc hrun hi
    next hrun =>
      obtain ⟨rfl, rfl⟩ := Prod.mk.inj (Option.some.inj h)
      exact .waits hc hrun
  | waiting =>
    cases hm : s.server.main with
    | exited =>
      simp only [clientStep, hc, hm, Option.some.injEq, Prod.mk.injEq] at h
      obtain ⟨rfl, rfl⟩ := h
      exact .finishes hc (Or.inl hm)
    | killed =>
      simp only [clientStep, hc, hm, Option.some.injEq, Prod.mk.injEq] at h
      obtain ⟨rfl, rfl⟩ := h
      exact .finishes hc (Or.inr hm)
    | _ => simp [clientStep, hc, hm] at h
  | finished => simp [clientStep, hc] at h

theorem control_moved {s t : State} {a : Act} {out : List Event}
    (ha : a = .listen ∨ a = .advance)
    (h : s.withServer (Server.act cfg s.server a) [] = some (t, out)) : Moved cfg s t out := by
  obtain ⟨server, o, hact, rfl, rfl⟩ := withServer_eq_some h
  have hacted := Server.act_acted hact
  have ho : o = [] := by
    rcases ha with rfl | rfl
    · cases hacted; rfl
    · cases hacted <;> rfl
  subst ho
  exact .control ha hacted

theorem serverStep_moved {s t : State} {out : List Event}
    (h : serverStep cfg s = some (t, out)) : Moved cfg s t out := by
  simp only [serverStep] at h
  split at h
  next => exact control_moved (Or.inl rfl) h
  next i hm =>
    split at h
    next hi =>
      split at h
      next conn rest hb =>
        obtain ⟨server, o, hact, rfl, rfl⟩ := withServer_eq_some h
        cases Server.act_acted hact with
        | accepts hm' _ =>
          obtain rfl := Server.Main.accepting.inj (hm.symm.trans hm')
          exact .accepts hm hi hb
      next => simp at h
    next => exact control_moved (Or.inr rfl) h
  next => exact control_moved (Or.inr rfl) h

theorem workerStep_moved {s t : State} {w : ℕ} {out : List Event}
    (h : workerStep cfg s w = some (t, out)) : Moved cfg s t out := by
  simp only [workerStep] at h
  split at h
  next conn hw =>
    obtain ⟨hreq, h⟩ := Option.ite_none_right_eq_some.mp h
    obtain ⟨server, o, hact, rfl, rfl⟩ := withServer_eq_some h
    cases Server.act_acted hact with
    | received _ hw' =>
      obtain ⟨rfl⟩ := Option.some.inj (hw.symm.trans hw')
      exact .hears hw hreq
    | recvKills _ hw' hfail =>
      obtain ⟨rfl⟩ := Option.some.inj (hw.symm.trans hw')
      simp at hfail
  next conn hw =>
    obtain ⟨server, o, hact, rfl, rfl⟩ := withServer_eq_some h
    cases Server.act_acted hact with
    | sent _ hw' =>
      obtain ⟨rfl⟩ := Option.some.inj (hw.symm.trans hw')
      exact .replies hw
    | sendFails _ hw' hfail =>
      obtain ⟨rfl⟩ := Option.some.inj (hw.symm.trans hw')
      simp at hfail
  next conn hw =>
    obtain ⟨server, o, hact, rfl, rfl⟩ := withServer_eq_some h
    cases Server.act_acted hact with
    | closes _ hw' =>
      obtain ⟨rfl⟩ := Option.some.inj (hw.symm.trans hw')
      exact .closes hw
  next => simp at h

theorem step_moved {s t : State} {e : Move} {out : List Event}
    (h : step cfg s e = some (t, out)) : Moved cfg s t out := by
  cases e with
  | client => exact clientStep_moved h
  | server => exact serverStep_moved h
  | worker w => exact workerStep_moved h

end SysPerf.Session
