import SysPerf.ConnectServerRuns

namespace SysPerf.ConnectServer

variable {cfg : Config} {tr out : List Event} {s t : State}

/-- A client gets nearer to its end by more than what its move leaves to the server. -/
theorem rank_client {k extra : ℕ} {old new : Client} (hk : s.clients[k]? = some old)
    (h : new.rank cfg + extra < old.rank cfg) :
    total (Client.rank cfg) (s.clients.set k new) + extra < total (Client.rank cfg) s.clients := by
  have hset := total_set (Client.rank cfg) (b := new) hk
  omega

/-- Every move brings the run nearer to its end. -/
theorem moved_rank (hs : Inv cfg tr s) (h : Moved cfg s t out) : t.rank cfg < s.rank cfg := by
  unfold State.rank
  cases h with
  | listens hm => simp [hm, Server.rank]
  | exits hm =>
    have hrank : 0 < s.server.rank := by
      rcases hm with hm | hm <;> simp [hm, Server.rank]
    show 0 + 2 * 0 + _ < _
    simp only [State.exit]
    omega
  | accepts hm hb =>
    simp only [hm, hb, Server.rank, List.length_cons]
    omega
  | closes hm => simp [hm, Server.rank]
  | @opens k i hk hlt =>
    have hrank : (Client.opened i).rank cfg + 0 < (Client.looping i).rank cfg := by
      simp [Client.rank]
    have htotal := rank_client hk hrank
    simp only [State.setClient]
    omega
  | @fails k i hk hlt =>
    have hrank : (Client.failed i).rank cfg + 0 < (Client.looping i).rank cfg := by
      simp [Client.rank]
    have htotal := rank_client hk hrank
    simp only [State.setClient]
    omega
  | @returns k i hk hge =>
    have hrank : (Client.finished i).rank cfg + 0 < (Client.looping i).rank cfg := by
      simp [Client.rank]
    have htotal := rank_client hk hrank
    simp only [State.setClient]
    omega
  | @connects k i hk hl hroom =>
    have hlt : i < cfg.nRuns := (hs.clients k _ hk).range
    have hrank : (Client.connected i (some s.made)).rank cfg + 2 < (Client.opened i).rank cfg := by
      simp only [Client.rank]
      omega
    have htotal := rank_client hk hrank
    simp only [State.setClient, List.length_append, List.length_singleton]
    omega
  | @refused k i hk =>
    have hlt : i < cfg.nRuns := (hs.clients k _ hk).range
    have hrank : (Client.connected i none).rank cfg + 0 < (Client.opened i).rank cfg := by
      simp only [Client.rank]
      omega
    have htotal := rank_client hk hrank
    simp only [State.setClient]
    omega
  | @samples k i conn timed hk ht =>
    have hlt : i < cfg.nRuns := (hs.clients k _ hk).range
    have hrank : (Client.looping (i + 1)).rank cfg + 0 < (Client.connected i conn).rank cfg := by
      simp only [Client.rank]
      omega
    have htotal := rank_client hk hrank
    simp only [State.setClient]
    omega

/-- A client that has not ended can go on, unless it waits for room in the backlog. -/
theorem client_moves (hs : Inv cfg tr s) {k : ℕ} {c : Client} (hc : s.clients[k]? = some c)
    (hend : c.ended = false) : (∃ r, clientStep cfg s k true = some r) ∨
      listening s.server = true ∧ cfg.capacity ≤ s.backlog.length := by
  unfold clientStep
  rw [hc, Option.bind_some]
  cases c with
  | looping i => by_cases hlt : i < cfg.nRuns <;> simp [hlt]
  | opened i =>
    by_cases hl : listening s.server = true
    · by_cases hroom : s.backlog.length < cfg.capacity
      · simp [hl, hroom]
      · exact Or.inr ⟨hl, Nat.le_of_not_lt hroom⟩
    · simp [hl]
  | connected i conn =>
    have hlt : k < cfg.clients.length := hs.length ▸ (List.getElem?_eq_some_iff.mp hc).1
    simp [List.getElem?_eq_getElem hlt]
  | finished i => cases hend
  | failed i => cases hend

theorem server_rests (h : serverStep s true = none) :
    s.server = .exited ∨ s.server = .accepting ∧ s.backlog = [] := by
  cases hm : s.server with
  | opening => simp [serverStep, hm] at h
  | accepting =>
    cases hb : s.backlog with
    | nil => exact Or.inr ⟨rfl, rfl⟩
    | cons conn rest => simp [serverStep, hm, hb] at h
  | closing conn => simp [serverStep, hm] at h
  | exited => exact Or.inl rfl

/-- A server that rests leaves no client waiting for room in its backlog. -/
theorem clients_rest (hs : Inv cfg tr s) (hcap : 0 < cfg.capacity)
    (hserver : serverStep s true = none) (hclients : ∀ k, clientStep cfg s k true = none) :
    ∀ c ∈ s.clients, c.ended = true := by
  intro c hc
  obtain ⟨k, hk⟩ := List.mem_iff_getElem?.mp hc
  by_contra hend
  rcases client_moves hs hk (Bool.eq_false_of_not_eq_true hend) with ⟨r, hr⟩ | ⟨hlistening, hfull⟩
  · simp [hclients k] at hr
  · rcases server_rests hserver with hm | ⟨-, hb⟩
    · simp [hm, listening] at hlistening
    · rw [hb, List.length_nil] at hfull
      omega

theorem network_bounded {es : List Move}
    (h : (network cfg).exec (network cfg).init es = some (t, out)) :
    es.length ≤ cfg.clients.length * (5 * cfg.nRuns + 1) + 3 := by
  have hkeep : ∀ s e t out, (∃ tr, Inv cfg tr s) → (network cfg).step s e = some (t, out) →
      (∃ tr, Inv cfg tr t) ∧ t.rank cfg < s.rank cfg := by
    intro s e t out hs hstep
    obtain ⟨tr, hs⟩ := hs
    have hmoved := step_moved hstep
    exact ⟨⟨tr ++ out, moved_inv hs hmoved⟩, moved_rank hs hmoved⟩
  have hlength := exec_length_le (State.rank cfg) _ hkeep ⟨[], inv_start⟩ h
  have hstart : State.rank cfg (network cfg).init =
      cfg.clients.length * (5 * cfg.nRuns + 1) + 3 := by
    simp only [State.rank, network, Server.rank, total, List.map_const', List.map_replicate,
      Client.rank, List.sum_replicate_nat, List.length_nil, Nat.sub_zero]
    omega
  omega

/-- Every run ends. Where no call under way can succeed all clients have ended, and a server that
lives has accepted and closed each of their connections and waits for another. -/
theorem network_settles (hcap : 0 < cfg.capacity) :
    (∀ es t out, (network cfg).exec (network cfg).init es = some (t, out) →
      es.length ≤ cfg.clients.length * (5 * cfg.nRuns + 1) + 3) ∧
    ∀ tr s, Reach (network cfg) tr s →
      (∃ e r, e.ok = true ∧ (network cfg).step s e = some r) ∨
        (∀ c ∈ s.clients, c.ended = true) ∧
          (s.server = .exited ∨ s.server = .accepting ∧ closed tr = made tr) := by
  refine ⟨fun es t out => network_bounded, fun tr s h => ?_⟩
  by_cases hmove : ∃ e r, e.ok = true ∧ (network cfg).step s e = some r
  · exact Or.inl hmove
  have hstill : ∀ e : Move, e.ok = true → step cfg s e = none := by
    intro e he
    by_contra hne
    obtain ⟨r, hr⟩ := Option.ne_none_iff_exists'.mp hne
    exact hmove ⟨e, r, he, hr⟩
  have hinv := network_inv h
  have hserver := hstill (.server true) rfl
  refine Or.inr ⟨clients_rest hinv hcap hserver fun k => hstill (.client k true) rfl, ?_⟩
  rcases server_rests hserver with hm | ⟨hm, hb⟩
  · exact Or.inl hm
  · have hqueue := hinv.served.queue (by simp [hm])
    have hclosed := hinv.served.closed
    rw [hb, List.append_nil] at hqueue
    rw [hm] at hclosed
    exact Or.inr ⟨hm, by rw [← hqueue, ← hclosed]; simp [Server.current]⟩

theorem network_settles_small : ∃ tr s, Reach (network smallNetwork) tr s ∧
    ((∃ e r, e.ok = true ∧ (network smallNetwork).step s e = some r) ∨
      (∀ c ∈ s.clients, c.ended = true) ∧
        (s.server = .exited ∨ s.server = .accepting ∧ closed tr = made tr)) := by
  obtain ⟨tr, s, h, -⟩ := smallRun
  exact ⟨tr, s, h, (network_settles (by decide)).2 tr s h⟩

end SysPerf.ConnectServer
