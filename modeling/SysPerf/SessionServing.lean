import SysPerf.SessionSteps

namespace SysPerf.Session

open Server (Config Service Act Acted)

variable {cfg : Config} {tr out : List Event} {s t : State}

/-- The moves of the main thread that take no connection keep the workers. -/
theorem control_acted {a : Act} {server next : Server.State} {ev : List Server.Event}
    (ha : a = .listen ∨ a = .advance) (h : Acted cfg server a next ev) :
    next.workers = server.workers ∧ next.main ≠ .starting ∧ next.main ≠ .killed ∧
      server.main ≠ .exited := by
  cases h with
  | listens hm => simp [hm]
  | leaves hm hi => simp [hm]
  | joins hm hw hdone => simp [hm]
  | exits hm hw => simp [hm]
  | accepts hm hi => simp at ha
  | received hm hw => simp at ha
  | recvKills hm hw hfail => simp at ha
  | sent hm hw => simp at ha
  | sendFails hm hw hfail => simp at ha
  | sendKills hm hw => simp at ha
  | closes hm hw => simp at ha

/-- A move of the client that makes no connection. -/
theorem served_client (hs : Served cfg tr s) (hserver : t.server = s.server)
    (hmade : t.made = s.made) (hbacklog : t.backlog = s.backlog) (hout : accepted out = [])
    (hfinished : t.client = .finished → s.server.main = .exited) :
    Served cfg (tr ++ out) t := by
  obtain ⟨hok, halive, hfd, hle, hb, hacc, hlistens, _⟩ := hs
  refine ⟨hserver ▸ hok, hserver ▸ halive, hserver ▸ hfd, ?_, ?_, ?_, ?_, ?_⟩
  · rw [hserver, hmade]; exact hle
  · rw [hserver, hmade, hbacklog]; exact hb
  · rw [accepted_append, hout, List.append_nil, hserver]; exact hacc
  · rw [hserver, hmade]; exact hlistens
  · rw [hserver]; exact hfinished

theorem served_worker (hs : Served cfg tr s) {w conn : ℕ} {old new : Server.WorkerPc}
    (hw : s.server.workers[w]? = some ⟨some conn, old⟩) (hold : old ≠ .done)
    (hserver : t.server = s.server.setWorker w (some conn) new) (hclient : t.client = s.client)
    (hmade : t.made = s.made) (hbacklog : t.backlog = s.backlog) : Served cfg (tr ++ []) t := by
  have hconn : some conn = some w := hs.fd w _ hw
  have hlength : t.server.workers.length = s.server.workers.length := by
    simp [hserver, Server.State.setWorker]
  refine ⟨hserver ▸ Server.setWorker_ok hs.ok hw hold, ?_, ?_, ?_, ?_, ?_, ?_, ?_⟩
  · rw [hserver]; exact hs.alive
  · intro k v hv
    rw [hserver] at hv
    rcases set_get_cases hv with ⟨rfl, rfl⟩ | ⟨_, hv⟩
    · exact hconn
    · exact hs.fd k v hv
  · rw [hlength, hmade]; exact hs.le
  · rw [hlength, hmade, hbacklog]; exact hs.backlog
  · rw [List.append_nil, hlength]; exact hs.accepted
  · rw [hserver, hmade]; exact hs.listens
  · rw [hserver, hclient]; exact hs.finished

theorem setCall_ne_finished {client : Client} {call : Call} (h : client.call? = some call)
    (next : Call) : client.setCall next ≠ .finished := by
  cases client <;> simp [Client.call?, Client.setCall] at h ⊢

theorem resume_ne_finished {client : Client} {call : Call} (h : client.call? = some call) :
    client.resume true ≠ .finished := by
  cases client <;> simp [Client.call?, Client.resume] at h ⊢

/-- The next connection goes to the end of the backlog. -/
theorem served_connect (hs : Served cfg tr s) (hl : listening s.server = true) {client : Client}
    (hclient : client ≠ .finished) :
    Served cfg (tr ++ []) { s with
      client := client
      made := s.made + 1
      backlog := s.backlog ++ [s.made] } := by
  have hle := hs.le
  refine ⟨hs.ok, hs.alive, hs.fd, by simp only; omega, ?_, by simpa using hs.accepted, ?_,
    fun hf => absurd hf hclient⟩
  · have hlast : List.range' s.server.workers.length (s.made - s.server.workers.length + 1) =
        List.range' s.server.workers.length (s.made - s.server.workers.length) ++
          [s.server.workers.length + 1 * (s.made - s.server.workers.length)] :=
      List.range'_concat
    have hadd : s.made + 1 - s.server.workers.length =
        s.made - s.server.workers.length + 1 := by omega
    have hend : s.server.workers.length + 1 * (s.made - s.server.workers.length) = s.made := by
      omega
    rw [hend] at hlast
    simp only [hs.backlog]
    rw [hadd, hlast]
  · intro hm
    have hm : s.server.main = .starting := hm
    simp [listening, hm] at hl

/-- The head of the backlog is the next connection, and it gets the next worker. -/
theorem served_accept (hs : Served cfg tr s) {i conn : ℕ} {rest : List ℕ}
    (hm : s.server.main = .accepting i) (hi : i ≤ cfg.measured)
    (hbacklog : s.backlog = conn :: rest) :
    Served cfg (tr ++ [.accepted conn]) { s with
      server := ⟨.accepting (i + 1), s.server.workers ++ [⟨some conn, cfg.service.first⟩]⟩
      backlog := rest } := by
  have hle := hs.le
  have hlist := hs.backlog
  rw [hbacklog] at hlist
  obtain ⟨k, hk⟩ : ∃ k, s.made - s.server.workers.length = k + 1 := by
    refine Nat.exists_eq_succ_of_ne_zero fun hzero => ?_
    simp [hzero] at hlist
  rw [hk, List.range'_succ] at hlist
  obtain ⟨rfl, hrest⟩ := List.cons.inj hlist
  have hacted : Acted cfg s.server (.accept (some s.server.workers.length)) _ _ := .accepts hm hi
  refine ⟨Server.acted_ok hs.ok hacted, by simp, fun w v hw => ?_,
    by simp only [List.length_append, List.length_singleton]; omega, ?_, ?_, by simp,
    fun hf => absurd (hs.finished hf) (by simp [hm])⟩
  · rcases concat_get_cases hw with hw | ⟨rfl, rfl⟩
    · exact hs.fd w v hw
    · rfl
  · have hsub : s.made - (s.server.workers.length + 1) = k := by omega
    simp only [List.length_append, List.length_singleton, hrest, hsub]
  · rw [accepted_append, hs.accepted, List.length_append, List.length_singleton, List.range_succ]
    rfl

theorem moved_served (hs : Inv cfg tr s) (h : Moved cfg s t out) : Served cfg (tr ++ out) t := by
  have hv := hs.served
  cases h with
  | connects hcall hl => exact served_connect hv hl (setCall_ne_finished hcall _)
  | refused hcall hl =>
    rw [refused_same (hs.refused hcall hl), List.append_nil]
    exact hv
  | sends hcall =>
    exact served_client hv rfl rfl rfl rfl fun hf => absurd hf (setCall_ne_finished hcall _)
  | receives hcall hreplied =>
    exact served_client hv rfl rfl rfl rfl fun hf => absurd hf (setCall_ne_finished hcall _)
  | completes hcall =>
    exact served_client hv rfl rfl rfl rfl fun hf => absurd hf (resume_ne_finished hcall)
  | requests hc hrun hi => exact served_client hv rfl rfl rfl rfl (by simp)
  | ends hc hrun hi => exact served_client hv rfl rfl rfl rfl (by simp)
  | waits hc hrun => exact served_client hv rfl rfl rfl rfl (by simp)
  | finishes hc hm =>
    refine served_client hv rfl rfl rfl rfl fun _ => ?_
    rcases hm with hm | hm
    · exact hm
    · exact absurd hm hv.alive
  | control ha hacted =>
    obtain ⟨hworkers, hstarting, hkilled, hexited⟩ := control_acted ha hacted
    refine ⟨Server.acted_ok hv.ok hacted, hkilled, ?_, ?_, ?_, ?_, ?_, ?_⟩
    · simp only [hworkers]; exact hv.fd
    · simp only [hworkers]; exact hv.le
    · simp only [hworkers]; exact hv.backlog
    · simp only [hworkers, List.append_nil]; exact hv.accepted
    · exact fun hm => absurd hm hstarting
    · exact fun hf => absurd (hv.finished hf) hexited
  | accepts hm hi hbacklog => exact served_accept hv hm hi hbacklog
  | hears hw hreq => exact served_worker hv hw (by simp) rfl rfl rfl rfl
  | replies hw => exact served_worker hv hw (by simp) rfl rfl rfl rfl
  | closes hw => exact served_worker hv hw (by simp) rfl rfl rfl rfl

end SysPerf.Session
