import SysPerf.SessionFailuresMoved

namespace SysPerf.FailingSession

open Server (Config Service Act Acted)
open Session (Call Client listening firstCall)

variable {cfg : Config} {tr out : List Event} {s t : State}

/-- Each turn of the accept loop has taken a connection from the backlog or has missed one. -/
structure Served (cfg : Config) (tr : List Event) (s : State) : Prop where
  ok : s.session.server.Ok cfg
  turns : s.session.server.workers.length + s.session.backlog.length =
    s.session.made + tr.count .missed
  placed : ∀ c < s.session.made, c ∈ s.session.backlog ∨ c ∈ s.dropped ∨
    some c ∈ s.session.server.workers.map Server.Worker.fd
  receiving : ∀ v ∈ s.session.server.workers, v.pc = .receiving → cfg.service = .echo
  listens : s.session.server.main = .starting → s.session.made = 0
  rank : s.session.server.rank cfg ≤ Server.start.rank cfg
  finished : s.session.client = .finished → ended s.session.server.main = true

theorem served_start : Served cfg [] start :=
  ⟨rfl, rfl, by simp [start, Session.start], by simp [start, Session.start, Server.start],
    fun _ => rfl, le_rfl, by simp [start, Session.start]⟩

theorem setWorker_fds {server : Server.State} {w : ℕ} {fd : Option ℕ} {old new : Server.WorkerPc}
    (hw : server.workers[w]? = some ⟨fd, old⟩) (hnew : new ≠ .receiving) :
    (server.setWorker w fd new).workers.map Server.Worker.fd =
        server.workers.map Server.Worker.fd ∧
      ∀ v ∈ (server.setWorker w fd new).workers, v.pc = .receiving → v ∈ server.workers := by
  obtain ⟨hlt, hget⟩ := List.getElem?_eq_some_iff.mp hw
  refine ⟨List.ext_getElem? fun k => ?_, fun v hv hpc => ?_⟩
  · by_cases hk : w = k
    · subst hk
      simp [Server.State.setWorker, hlt, hget]
    · simp [Server.State.setWorker, hk]
  · rcases List.mem_or_eq_of_mem_set hv with hv | rfl
    · exact hv
    · exact absurd hpc hnew

/-- What a worker does changes no descriptor and lets none begin to receive. -/
theorem works_acted {a : Act} {server next : Server.State} {ev : List Server.Event}
    (h : Acted cfg server a next ev) (ha : Works a) :
    (next.workers.map Server.Worker.fd = server.workers.map Server.Worker.fd ∧
      ∀ v ∈ next.workers, v.pc = .receiving → v ∈ server.workers) ∧
    (next.main = server.main ∨ next.main = .killed) := by
  cases h with
  | listens hm => cases ha
  | accepts hm hi => cases ha
  | leaves hm hi => cases ha
  | joins hm hw hdone => cases ha
  | exits hm hw => cases ha
  | received hm hw => exact ⟨setWorker_fds hw (by simp), Or.inl rfl⟩
  | recvKills hm hw hfail => exact ⟨⟨rfl, fun v hv _ => hv⟩, Or.inr rfl⟩
  | sent hm hw => exact ⟨setWorker_fds hw (by simp), Or.inl rfl⟩
  | sendFails hm hw hfail => exact ⟨setWorker_fds hw (by simp), Or.inl rfl⟩
  | sendKills hm hw => exact ⟨⟨rfl, fun v hv _ => hv⟩, Or.inr rfl⟩
  | closes hm hw => exact ⟨setWorker_fds hw (by simp), Or.inl rfl⟩

theorem control_live {a : Act} {server next : Server.State} {ev : List Server.Event}
    (ha : a = .listen ∨ a = .advance) (h : Acted cfg server a next ev) :
    ended server.main = false := by
  cases h with
  | listens hm => rw [hm]; rfl
  | leaves hm hi => rw [hm]; rfl
  | joins hm hw hdone => rw [hm]; rfl
  | exits hm hw => rw [hm]; rfl
  | accepts hm hi => simp at ha
  | received hm hw => simp at ha
  | recvKills hm hw hfail => simp at ha
  | sent hm hw => simp at ha
  | sendFails hm hw hfail => simp at ha
  | sendKills hm hw => simp at ha
  | closes hm hw => simp at ha

/-- A move of the client that makes no connection. -/
theorem served_client (hs : Served cfg tr s) (hserver : t.session.server = s.session.server)
    (hmade : t.session.made = s.session.made) (hbacklog : t.session.backlog = s.session.backlog)
    (hdropped : t.dropped = s.dropped) (hout : out.count .missed = 0)
    (hfinished : t.session.client = .finished → ended s.session.server.main = true) :
    Served cfg (tr ++ out) t := by
  obtain ⟨hok, hturns, hplaced, hreceiving, hlistens, hrank, _⟩ := hs
  refine ⟨hserver ▸ hok, ?_, ?_, hserver ▸ hreceiving, ?_, hserver ▸ hrank, ?_⟩
  · rw [hserver, hmade, hbacklog, List.count_append, hout]
    exact hturns
  · rw [hserver, hmade, hbacklog, hdropped]
    exact hplaced
  · rw [hserver, hmade]
    exact hlistens
  · rw [hserver]
    exact hfinished

theorem served_connect (hs : Served cfg tr s) (hl : listening s.session.server = true)
    {client : Client} (hclient : client ≠ .finished) :
    Served cfg (tr ++ []) { s with session := { s.session with
      client := client
      made := s.session.made + 1
      backlog := s.session.backlog ++ [s.session.made] } } := by
  have hturns := hs.turns
  refine ⟨hs.ok, ?_, fun c hc => ?_, hs.receiving, fun hm => ?_, hs.rank,
    fun hf => absurd hf hclient⟩
  · simp only [List.append_nil, List.length_append, List.length_singleton]
    omega
  · rcases Nat.lt_succ_iff_lt_or_eq.mp hc with hlt | rfl
    · rcases hs.placed c hlt with hb | hd | hw
      · exact Or.inl (List.mem_append_left _ hb)
      · exact Or.inr (Or.inl hd)
      · exact Or.inr (Or.inr hw)
    · exact Or.inl (List.mem_append_right _ (List.mem_singleton_self _))
  · have hm : s.session.server.main = .starting := hm
    simp [listening, hm] at hl

/-- A turn of the accept loop makes one worker more, for a connection or for none. -/
theorem served_turn (hs : Served cfg tr s) {i : ℕ} {fd : Option ℕ} {backlog dropped : List ℕ}
    (hm : s.session.server.main = .accepting i) (hi : i ≤ cfg.measured)
    (hcount : backlog.length + 1 = s.session.backlog.length + out.count .missed)
    (hplaced : ∀ c, c ∈ s.session.backlog ∨ c ∈ s.dropped →
      c ∈ backlog ∨ c ∈ dropped ∨ some c = fd) :
    Served cfg (tr ++ out) ⟨{ s.session with
      server := ⟨.accepting (i + 1), s.session.server.workers ++ [⟨fd, cfg.service.first⟩]⟩
      backlog := backlog }, s.exited, dropped⟩ := by
  have hacted : Acted cfg s.session.server (.accept fd) _ _ := .accepts hm hi
  have hturns := hs.turns
  refine ⟨Server.acted_ok hs.ok hacted, ?_, fun c hc => ?_, fun v hv hpc => ?_, by simp,
    (Server.acted_rank hs.ok hacted).le.trans hs.rank, fun hf => ?_⟩
  · simp only [List.length_append, List.length_singleton, List.count_append]
    omega
  · have hlast : some c = fd → some c ∈
        (s.session.server.workers ++ [(⟨fd, cfg.service.first⟩ : Server.Worker)]).map
          Server.Worker.fd := by
      rintro rfl
      simp
    rcases hs.placed c hc with hb | hd | hw
    · rcases hplaced c (Or.inl hb) with h | h | h
      · exact Or.inl h
      · exact Or.inr (Or.inl h)
      · exact Or.inr (Or.inr (hlast h))
    · rcases hplaced c (Or.inr hd) with h | h | h
      · exact Or.inl h
      · exact Or.inr (Or.inl h)
      · exact Or.inr (Or.inr (hlast h))
    · rw [List.map_append]
      exact Or.inr (Or.inr (List.mem_append_left _ hw))
  · rcases List.mem_append.mp hv with hv | hv
    · exact hs.receiving v hv hpc
    · obtain rfl := List.mem_singleton.mp hv
      cases hservice : cfg.service with
      | echo => rfl
      | push => simp [hservice, Service.first] at hpc
  · have hended := hs.finished hf
    simp [hm, ended] at hended

theorem served_refuse (hs : Served cfg tr s)
    (hcall : s.session.client.call? = some .connecting) :
    Served cfg (tr ++ s.refuse.2) s.refuse.1 := by
  cases hc : s.session.client with
  | probing call =>
    rw [refuse_probing hc]
    exact served_client hs rfl rfl rfl rfl rfl (by simp [State.setClient])
  | measuring run i call =>
    rw [refuse_measuring hc]
    exact served_client hs rfl rfl rfl rfl rfl (by simp [State.setClient])
  | _ => simp [hc, Client.call?] at hcall

theorem served_control (hs : Served cfg tr s) {a : Act} {server : Server.State}
    (ha : a = .listen ∨ a = .advance) (hacted : Acted cfg s.session.server a server []) :
    Served cfg (tr ++ []) (s.setServer server) := by
  obtain ⟨hworkers, hstarting, -, -⟩ := Session.control_acted ha hacted
  have hlive := control_live ha hacted
  refine ⟨Server.acted_ok hs.ok hacted, ?_, ?_, ?_, fun hm => absurd hm hstarting,
    (Server.acted_rank hs.ok hacted).le.trans hs.rank, fun hf => ?_⟩
  · simpa [State.setServer, hworkers] using hs.turns
  · simpa [State.setServer, hworkers] using hs.placed
  · simpa [State.setServer, hworkers] using hs.receiving
  · have hended := hs.finished hf
    simp [hlive] at hended

theorem served_works (hs : Served cfg tr s) {a : Act} {server : Server.State}
    {ev : List Server.Event} {replied : ℕ → Bool}
    (hacted : Acted cfg s.session.server a server ev) (ha : Works a) :
    Served cfg (tr ++ []) { s with session := { s.session with
      server := server
      replied := replied } } := by
  obtain ⟨⟨hfds, hreceiving⟩, hmain⟩ := works_acted hacted ha
  have hlength := congrArg List.length hfds
  simp only [List.length_map] at hlength
  refine ⟨Server.acted_ok hs.ok hacted, ?_, ?_, fun v hv hpc => ?_, fun hm => ?_,
    (Server.acted_rank hs.ok hacted).le.trans hs.rank, fun hf => ?_⟩
  · simpa [hlength] using hs.turns
  · simpa [hfds] using hs.placed
  · exact hs.receiving v (hreceiving v hv hpc) hpc
  · rcases hmain with hmain | hmain
    · exact hs.listens (hmain.symm.trans hm)
    · simp [hmain] at hm
  · rcases hmain with hmain | hmain
    · simpa [hmain] using hs.finished hf
    · simp [hmain, ended]

theorem moved_served (hs : Served cfg tr s) (h : Moved cfg s t out) :
    Served cfg (tr ++ out) t := by
  cases h with
  | connects hcall hl => exact served_connect hs hl (Session.setCall_ne_finished hcall _)
  | refuses hcall => exact served_refuse hs hcall
  | sends hcall =>
    exact served_client hs rfl rfl rfl rfl rfl fun hf =>
      absurd hf (Session.setCall_ne_finished hcall _)
  | receives hcall =>
    exact served_client hs rfl rfl rfl rfl rfl fun hf =>
      absurd hf (Session.setCall_ne_finished hcall _)
  | completes hcall =>
    exact served_client hs rfl rfl rfl rfl rfl fun hf =>
      absurd hf (Session.resume_ne_finished hcall)
  | exits hconn hexited => exact served_client hs rfl rfl rfl rfl rfl hs.finished
  | requests hc hrun hi => exact served_client hs rfl rfl rfl rfl rfl (by simp [State.setClient])
  | ends hc hrun hi => exact served_client hs rfl rfl rfl rfl rfl (by simp [State.setClient])
  | waits hc hrun => exact served_client hs rfl rfl rfl rfl rfl (by simp [State.setClient])
  | finishes hc hm => exact served_client hs rfl rfl rfl rfl rfl fun _ => hm
  | control ha hacted => exact served_control hs ha hacted
  | @accepts i conn rest hm hi hb =>
    refine served_turn hs hm hi (by simp [hb]) fun c hc => ?_
    simp only [hb, List.mem_cons] at hc
    rcases hc with (rfl | hc) | hc
    · exact Or.inr (Or.inr rfl)
    · exact Or.inl hc
    · exact Or.inr (Or.inl hc)
  | startFails hm =>
    refine ⟨trivial, ?_, hs.placed, hs.receiving, by simp [State.setServer], ?_, fun _ => rfl⟩
    · simpa [State.setServer] using hs.turns
    · have hrank := hs.rank
      simp only [Server.State.rank, State.setServer, Server.Main.rank, hm] at hrank ⊢
      omega
  | misses hm hi =>
    refine served_turn hs hm hi (by simp) fun c hc => ?_
    rcases hc with hc | hc
    · exact Or.inl hc
    · exact Or.inr (Or.inl hc)
  | @aborts i conn rest hm hi hb =>
    refine served_turn hs hm hi (by simp [hb]) fun c hc => ?_
    simp only [hb, List.mem_cons] at hc ⊢
    rcases hc with (rfl | hc) | hc
    · exact Or.inr (Or.inl (Or.inl rfl))
    · exact Or.inl hc
    · exact Or.inr (Or.inl (Or.inr hc))
  | works hacted ha => exact served_works hs hacted ha

end SysPerf.FailingSession
