import SysPerf.ConnectServerServed

namespace SysPerf.ConnectServer

variable {cfg : Config} {tr out : List Event} {s t : State}

def Client.InRange (cfg : Config) : Client → Prop
  | .looping i => i ≤ cfg.nRuns
  | .opened i => i < cfg.nRuns
  | .connected i _ => i < cfg.nRuns
  | .finished i => i = cfg.nRuns
  | .failed i => i < cfg.nRuns

/-- Each `connect` of a client but the last one has its sample, whatever came of it. -/
structure Sampled (cfg : Config) (tr : List Event) (k : ℕ) (c : Client) : Prop where
  connects : connects k tr = samples k tr ++ c.pending
  count : (samples k tr).length = c.count
  range : c.InRange cfg

structure Inv (cfg : Config) (tr : List Event) (s : State) : Prop where
  served : Served tr s
  length : s.clients.length = cfg.clients.length
  clients : ∀ (k : ℕ) (c : Client), s.clients[k]? = some c → Sampled cfg tr k c

theorem connects_append (k : ℕ) (xs ys : List Event) :
    connects k (xs ++ ys) = connects k xs ++ connects k ys := by
  simp [connects]

theorem samples_append (k : ℕ) (xs ys : List Event) :
    samples k (xs ++ ys) = samples k xs ++ samples k ys := by
  simp [samples]

theorem inv_start : Inv cfg [] (network cfg).init := by
  refine ⟨⟨rfl, fun _ => rfl, (fun h => by cases h), rfl⟩, List.length_map _, ?_⟩
  intro k c hc
  obtain ⟨timed, -, rfl⟩ := Option.map_eq_some_iff.mp ((List.getElem?_map ..).symm.trans hc)
  exact ⟨rfl, rfl, Nat.zero_le _⟩

theorem connected_other {j k : ℕ} (hne : j ≠ k) (conn : Option ℕ) :
    connects j [.connected k conn] = [] ∧ samples j [.connected k conn] = [] := by
  simp [connects, samples, Event.connected?, Event.sampled?, Ne.symm hne]

theorem sampled_other {j k : ℕ} (hne : j ≠ k) (timed : Timed) (conn : Option ℕ) :
    connects j [.sampled k timed conn] = [] ∧ samples j [.sampled k timed conn] = [] := by
  simp [connects, samples, Event.connected?, Event.sampled?, Ne.symm hne]

/-- A `connect` has returned, with a connection or without. -/
theorem sampled_connect {k i : ℕ} (h : Sampled cfg tr k (.opened i)) (conn : Option ℕ) :
    Sampled cfg (tr ++ [.connected k conn]) k (.connected i conn) := by
  obtain ⟨hconnects, hcount, hrange⟩ := h
  have hsamples : samples k [.connected k conn] = [] := rfl
  refine ⟨?_, ?_, hrange⟩
  · rw [connects_append, samples_append, hsamples, hconnects]
    simp [connects, Event.connected?, Client.pending]
  · rw [samples_append, hsamples, List.append_nil]
    exact hcount

theorem sampled_sample {k i : ℕ} {conn : Option ℕ} (h : Sampled cfg tr k (.connected i conn))
    (timed : Timed) : Sampled cfg (tr ++ [.sampled k timed conn]) k (.looping (i + 1)) := by
  obtain ⟨hconnects, hcount, hrange⟩ := h
  have hnew : samples k [.sampled k timed conn] = [conn] := by
    simp [samples, Event.sampled?]
  have hconn : connects k [.sampled k timed conn] = [] := rfl
  refine ⟨?_, ?_, hrange⟩
  · rw [connects_append, samples_append, hnew, hconn, hconnects]
    simp [Client.pending]
  · rw [samples_append, hnew, List.length_append, hcount]
    rfl

/-- Only the client that moves gets something. -/
theorem clients_update {k : ℕ} {old new : Client}
    (hs : ∀ (j : ℕ) (c : Client), s.clients[j]? = some c → Sampled cfg tr j c)
    (hk : s.clients[k]? = some old) (hnew : Sampled cfg tr k old → Sampled cfg (tr ++ out) k new)
    (hothers : ∀ j, j ≠ k → connects j out = [] ∧ samples j out = []) :
    ∀ (j : ℕ) (c : Client), (s.clients.set k new)[j]? = some c → Sampled cfg (tr ++ out) j c := by
  intro j c hj
  rcases set_get_cases hj with ⟨rfl, rfl⟩ | ⟨hne, hj⟩
  · exact hnew (hs _ _ hk)
  · obtain ⟨hconnects, hsamples⟩ := hothers j hne
    have hold := hs j c hj
    refine ⟨?_, ?_, hold.range⟩
    · rw [connects_append, samples_append, hconnects, hsamples, List.append_nil, List.append_nil]
      exact hold.connects
    · rw [samples_append, hsamples, List.append_nil]
      exact hold.count

theorem moved_inv (hs : Inv cfg tr s) (h : Moved cfg s t out) : Inv cfg (tr ++ out) t := by
  refine ⟨moved_served hs.served h, ?_, ?_⟩
  · cases h <;> simp [State.setClient, State.exit, hs.length]
  have hquiet : ∀ k, connects k out = [] → samples k out = [] → ∀ c, Sampled cfg tr k c →
      Sampled cfg (tr ++ out) k c := by
    intro k hconnects hsamples c hc
    refine ⟨?_, ?_, hc.range⟩
    · rw [connects_append, samples_append, hconnects, hsamples, List.append_nil, List.append_nil]
      exact hc.connects
    · rw [samples_append, hsamples, List.append_nil]
      exact hc.count
  cases h with
  | listens hm => exact fun k c hc => hquiet k rfl rfl c (hs.clients k c hc)
  | exits hm => exact fun k c hc => hquiet k rfl rfl c (hs.clients k c hc)
  | accepts hm hb => exact fun k c hc => hquiet k rfl rfl c (hs.clients k c hc)
  | closes hm => exact fun k c hc => hquiet k rfl rfl c (hs.clients k c hc)
  | opens hk hlt =>
    exact clients_update hs.clients hk (fun hc => by
      obtain ⟨hconnects, hcount, hrange⟩ := hquiet _ rfl rfl _ hc
      exact ⟨hconnects, hcount, hlt⟩) fun _ _ => ⟨rfl, rfl⟩
  | fails hk hlt =>
    exact clients_update hs.clients hk (fun hc => by
      obtain ⟨hconnects, hcount, hrange⟩ := hquiet _ rfl rfl _ hc
      exact ⟨hconnects, hcount, hlt⟩) fun _ _ => ⟨rfl, rfl⟩
  | returns hk hge =>
    exact clients_update hs.clients hk (fun hc => by
      obtain ⟨hconnects, hcount, hrange⟩ := hquiet _ rfl rfl _ hc
      exact ⟨hconnects, hcount, Nat.le_antisymm hrange hge⟩) fun _ _ => ⟨rfl, rfl⟩
  | connects hk hl hroom =>
    exact clients_update hs.clients hk (fun hc => sampled_connect hc _)
      fun _ hne => connected_other hne _
  | refused hk =>
    exact clients_update hs.clients hk (fun hc => sampled_connect hc none)
      fun _ hne => connected_other hne none
  | samples hk ht =>
    exact clients_update hs.clients hk (fun hc => sampled_sample hc _)
      fun _ hne => sampled_other hne _ _

theorem network_inv (h : Reach (network cfg) tr s) : Inv cfg tr s :=
  h.history (P := Inv cfg) inv_start fun _ _ _ _ _ hs hstep => moved_inv hs (step_moved hstep)

/-- In every run the server accepts the connections in the order in which they were made, closes
each before it accepts the next, and misses none as long as it lives. Each client takes one sample
of each of its `connect` calls, those that failed included, and has `N_RUNS` of them when it
ends. -/
theorem connections_accounted (h : Reach (network cfg) tr s) :
    (made tr).Nodup ∧ accepted tr <+: made tr ∧
      (s.server ≠ .exited → accepted tr ++ s.backlog = made tr) ∧
      closed tr <+: accepted tr ∧ (accepted tr).length ≤ (closed tr).length + 1 ∧
      ∀ (k : ℕ) (c : Client), s.clients[k]? = some c → samples k tr <+: connects k tr ∧
        (connects k tr).length ≤ (samples k tr).length + 1 ∧ (connects k tr).length ≤ cfg.nRuns ∧
        ∀ i, c = .finished i → samples k tr = connects k tr ∧
          (samples k tr).length = cfg.nRuns := by
  have hinv := network_inv h
  obtain ⟨hnumbers, hqueue, hdropped, hclosed⟩ := hinv.served
  have hcurrent : s.server.current.length ≤ 1 := by
    cases s.server <;> simp [Server.current]
  refine ⟨hnumbers ▸ List.nodup_range, ?_, hqueue, ⟨_, hclosed⟩, ?_, ?_⟩
  · by_cases hexit : s.server = .exited
    · exact (hdropped hexit).2
    · exact ⟨_, hqueue hexit⟩
  · rw [← hclosed, List.length_append]
    omega
  · intro k c hc
    obtain ⟨hconnects, hcount, hrange⟩ := hinv.clients k c hc
    have hlength := congrArg List.length hconnects
    rw [List.length_append, hcount] at hlength
    have hpending : c.pending.length ≤ 1 ∧ c.count + c.pending.length ≤ cfg.nRuns := by
      cases c <;> simp [Client.InRange, Client.pending, Client.count] at hrange ⊢ <;> omega
    refine ⟨⟨_, hconnects.symm⟩, by omega, by omega, ?_⟩
    rintro i rfl
    exact ⟨by simpa [Client.pending] using hconnects.symm, hcount.trans hrange⟩

/-- A server that exits after its second `accept`, and two clients of which one is too early. -/
def smallNetwork : Config :=
  ⟨[.connect, .close], 2, 10⟩

def smallMoves : List Move :=
  [.client 0 true, .client 0 true, .client 0 true, .server true, .client 0 true, .client 0 true,
    .client 1 true, .client 1 true, .server true, .client 0 true, .client 1 true, .client 0 true,
    .server true, .server true, .client 1 true, .client 1 true, .server true, .server false,
    .client 1 true, .client 1 true]

theorem smallRun : ∃ tr s, Reach (network smallNetwork) tr s ∧
    s.clients = [.finished 2, .finished 2] := by
  obtain ⟨⟨s, tr⟩, hexec, hend⟩ : ∃ r, (network smallNetwork).exec (network smallNetwork).init
      smallMoves = some r ∧ r.1.clients = [.finished 2, .finished 2] := by
    decide +kernel
  exact ⟨tr, s, reach_of_exec _ hexec, hend⟩

theorem connections_accounted_small : ∃ tr s, Reach (network smallNetwork) tr s ∧
    samples 0 tr = connects 0 tr ∧ (samples 0 tr).length = 2 := by
  obtain ⟨tr, s, h, hclients⟩ := smallRun
  have hfirst : s.clients[0]? = some (.finished 2) := by rw [hclients]; rfl
  exact ⟨tr, s, h, ((connections_accounted h).2.2.2.2.2 0 _ hfirst).2.2.2 2 rfl⟩

end SysPerf.ConnectServer
