import SysPerf.SessionServing

namespace SysPerf.Session

open Server (Config Service Act Acted)

variable {cfg : Config} {tr out : List Event} {s t : State}

/-- A move of the client where no connection lacks its reply. -/
theorem delivered_idle (hs : Delivered cfg s) {client : Client}
    (hnew : ∀ c, client.call? ≠ some (.closing c))
    (hall : ∀ c < s.made, s.replied c = true)
    (hrequested : ∀ c, s.client.call? ≠ some (.sending c)) :
    Delivered cfg { s with client := client } where
  receiving := hs.receiving
  replied := hs.replied
  unaccepted := hs.unaccepted
  current c hc _ := hall c hc
  closing c hc := absurd hc (hnew c)
  requested hecho c hc _ := hs.requested hecho c hc (hrequested c)

/-- Outside a call the client can go anywhere but to the end of one. -/
theorem delivered_between (hs : Delivered cfg s) (hcall : s.client.call? = none)
    {client : Client} (hnew : ∀ c, client.call? ≠ some (.closing c)) :
    Delivered cfg { s with client := client } :=
  delivered_idle hs hnew (fun c hc => hs.current c hc (by simp [Client.conn?, hcall]))
    (by simp [hcall])

/-- A worker goes on and may have sent its reply on the way. -/
theorem delivered_worker (hs : Delivered cfg s) {w : ℕ} {fd : Option ℕ}
    {old new : Server.WorkerPc} (hw : s.server.workers[w]? = some ⟨fd, old⟩)
    (hserver : t.server = s.server.setWorker w fd new) (hclient : t.client = s.client)
    (hmade : t.made = s.made) (hrequested : t.requested = s.requested)
    (hnew : new ≠ .receiving) (hothers : ∀ k, k ≠ w → t.replied k = s.replied k)
    (hown : t.replied w = true ↔ new = .closing ∨ new = .done)
    (hkeep : s.replied w = true → t.replied w = true) : Delivered cfg t := by
  have hlt : w < s.server.workers.length := (List.getElem?_eq_some_iff.mp hw).1
  have hthreads : ∀ k v, t.server.workers[k]? = some v →
      (k = w ∧ v = ⟨fd, new⟩) ∨ (k ≠ w ∧ s.server.workers[k]? = some v) := by
    intro k v hv
    rw [hserver] at hv
    exact set_get_cases hv
  have hmono : ∀ k, s.replied k = true → t.replied k = true := by
    intro k hk
    by_cases heq : k = w
    · subst heq; exact hkeep hk
    · rw [hothers k heq]; exact hk
  refine ⟨fun k v hv hpc => ?_, fun k v hv => ?_, fun c hc => ?_, fun c hc hne => ?_,
    fun c hc => ?_, fun hecho c hc hne => ?_⟩
  · rcases hthreads k v hv with ⟨rfl, rfl⟩ | ⟨_, hv⟩
    · exact absurd hpc hnew
    · exact hs.receiving k v hv hpc
  · rcases hthreads k v hv with ⟨rfl, rfl⟩ | ⟨hk, hv⟩
    · exact hown
    · rw [hothers k hk]
      exact hs.replied k v hv
  · have hlength : t.server.workers.length = s.server.workers.length := by
      simp [hserver, Server.State.setWorker]
    rw [hothers c (by omega)]
    exact hs.unaccepted c (by omega)
  · exact hmono c (hs.current c (by omega) (hclient ▸ hne))
  · exact hmono c (hs.closing c (hclient ▸ hc))
  · rw [hrequested]
    exact hs.requested hecho c (by omega) (hclient ▸ hne)

/-- The call goes on with the connection that it has. -/
theorem delivered_call (hs : Delivered cfg s) {call : Call} (next : Call)
    (hcall : s.client.call? = some call) (hsame : next.conn? = call.conn?)
    (hclosing : ∀ c, next = .closing c → s.replied c = true) {requested : ℕ → Bool}
    (hrequested : cfg.service = .echo → ∀ c < s.made, next ≠ .sending c → requested c = true) :
    Delivered cfg { s with client := s.client.setCall next, requested := requested } where
  receiving := hs.receiving
  replied := hs.replied
  unaccepted := hs.unaccepted
  current c hc hne := by
    refine hs.current c hc ?_
    rw [conn_of_call hcall, ← hsame, ← conn_setCall hcall]
    exact hne
  closing c hc := hclosing c (Option.some.inj ((call_setCall hcall next).symm.trans hc))
  requested hecho c hc hne := by
    refine hrequested hecho c hc fun heq => hne ?_
    rw [← heq]
    exact call_setCall hcall next

/-- The call has made the next connection, which has no message in either direction. -/
theorem delivered_connect (hs : Delivered cfg s) (hcall : s.client.call? = some .connecting)
    {backlog : List ℕ} :
    Delivered cfg { s with
      client := s.client.setCall (firstCall cfg.service s.made)
      made := s.made + 1
      backlog := backlog } := by
  have hnew := call_setCall hcall (firstCall cfg.service s.made)
  refine ⟨hs.receiving, hs.replied, hs.unaccepted, ?_, ?_, ?_⟩
  · intro c hc hne
    have hne : (s.client.setCall (firstCall cfg.service s.made)).conn? ≠ some c := hne
    rw [conn_setCall hcall, conn_firstCall, ne_eq, Option.some.injEq] at hne
    have hc : c < s.made + 1 := hc
    exact hs.current c (by omega) (by simp [conn_of_call hcall, Call.conn?])
  · intro c hc
    simp only [hnew] at hc
    cases hservice : cfg.service <;> simp [hservice, firstCall] at hc
  · intro hecho c hc hne
    have hne : (s.client.setCall (firstCall cfg.service s.made)).call? ≠ some (.sending c) := hne
    have hc : c < s.made + 1 := hc
    rw [hnew, hecho] at hne
    have hold : c ≠ s.made := fun heq => hne (by rw [heq]; rfl)
    exact hs.requested hecho c (by omega) (by simp [hcall])

/-- The worker of an accepted connection has not replied. -/
theorem delivered_accept (hs : Delivered cfg s) {main : Server.Main} {fd : Option ℕ}
    {rest : List ℕ} :
    Delivered cfg { s with
      server := ⟨main, s.server.workers ++ [⟨fd, cfg.service.first⟩]⟩
      backlog := rest } := by
  have hnone : s.replied s.server.workers.length = false := hs.unaccepted _ le_rfl
  refine ⟨fun w v hw hpc => ?_, fun w v hw => ?_, fun c hc => ?_, hs.current, hs.closing,
    hs.requested⟩
  · rcases concat_get_cases hw with hw | ⟨rfl, rfl⟩
    · exact hs.receiving w v hw hpc
    · cases hservice : cfg.service with
      | echo => rfl
      | push => simp [hservice, Service.first] at hpc
  · rcases concat_get_cases hw with hw | ⟨rfl, rfl⟩
    · exact hs.replied w v hw
    · simp only [hnone]
      cases cfg.service <;> simp [Service.first]
  · simp only [List.length_append, List.length_singleton] at hc
    exact hs.unaccepted c (by omega)

theorem moved_delivered (hs : Inv cfg tr s) (h : Moved cfg s t out) : Delivered cfg t := by
  have hd := hs.delivered
  cases h with
  | connects hcall hl => exact delivered_connect hd hcall
  | refused hcall hl =>
    rw [refused_same (hs.refused hcall hl)]
    exact hd
  | @sends conn hcall =>
    refine delivered_call hd (.receiving conn) hcall rfl (by simp) fun hecho c hc _ => ?_
    by_cases heq : c = conn
    · simp [heq]
    · have hold := hd.requested hecho c hc (by simpa [hcall] using Ne.symm heq)
      simpa [heq] using hold
  | @receives conn hcall hreplied =>
    refine delivered_call hd (.closing conn) hcall rfl (fun c hc => ?_) fun hecho c hc _ => ?_
    · obtain rfl := Call.closing.inj hc
      exact hreplied
    · exact hd.requested hecho c hc (by simp [hcall])
  | @completes conn hcall =>
    refine delivered_idle hd (by simp [call_resume hcall]) (fun c hc => ?_) (by simp [hcall])
    by_cases heq : c = conn
    · exact heq ▸ hd.closing conn hcall
    · refine hd.current c hc ?_
      rw [conn_of_call hcall]
      simpa [Call.conn?] using Ne.symm heq
  | requests hc hrun hi => exact delivered_between hd (by rw [hc]; rfl) (by simp [Client.call?])
  | ends hc hrun hi => exact delivered_between hd (by rw [hc]; rfl) (by simp [Client.call?])
  | waits hc hrun => exact delivered_between hd (by rw [hc]; rfl) (by simp [Client.call?])
  | finishes hc hm => exact delivered_between hd (by rw [hc]; rfl) (by simp [Client.call?])
  | control ha hacted =>
    obtain ⟨hworkers, _⟩ := control_acted ha hacted
    refine ⟨?_, ?_, ?_, hd.current, hd.closing, hd.requested⟩
    · simp only [hworkers]; exact hd.receiving
    · simp only [hworkers]; exact hd.replied
    · simp only [hworkers]; exact hd.unaccepted
  | accepts hm hi hbacklog => exact delivered_accept hd
  | @hears w conn hw hreq =>
    have hnone : ¬s.replied w = true := (hd.replied w _ hw).not.mpr (by simp)
    exact delivered_worker hd hw rfl rfl rfl rfl (by simp) (fun _ _ => rfl)
      (by simpa using hnone) id
  | @replies w conn hw =>
    obtain rfl : conn = w := Option.some.inj (hs.served.fd w _ hw)
    exact delivered_worker hd hw rfl rfl rfl rfl (by simp)
      (fun k hk => Function.update_of_ne hk ..) (by simp) (by simp)
  | @closes w conn hw =>
    have hsome : s.replied w = true := (hd.replied w _ hw).mpr (Or.inl rfl)
    exact delivered_worker hd hw rfl rfl rfl rfl (by simp) (fun _ _ => rfl)
      (by simpa using hsome) id

theorem session_inv (h : Reach (session cfg) tr s) : Inv cfg tr s := by
  refine h.history (P := Inv cfg) ⟨booked_start, served_start, delivered_start⟩ ?_
  intro tr s e t out hs hstep
  have hmoved := step_moved hstep
  exact ⟨moved_booked hs hmoved, moved_served hs hmoved, moved_delivered hs hmoved⟩

end SysPerf.Session
