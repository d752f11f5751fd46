import SysPerf.ConnectServer

namespace SysPerf.ConnectServer

variable {cfg : Config} {tr out : List Event} {s t : State}

/-- The moves, each with what it needs and what it does. -/
inductive Moved (cfg : Config) (s : State) : State → List Event → Prop
  | listens (h : s.server = .opening) : Moved cfg s { s with server := .accepting } []
  | exits (h : s.server = .opening ∨ s.server = .accepting) : Moved cfg s s.exit []
  | accepts {conn : ℕ} {rest : List ℕ} (h : s.server = .accepting)
    (hb : s.backlog = conn :: rest) :
    Moved cfg s { s with server := .closing conn, backlog := rest } [.accepted conn]
  | closes {conn : ℕ} (h : s.server = .closing conn) :
    Moved cfg s { s with server := .accepting } [.closed conn]
  | opens {k i : ℕ} (h : s.clients[k]? = some (.looping i)) (hlt : i < cfg.nRuns) :
    Moved cfg s (s.setClient k (.opened i)) []
  | fails {k i : ℕ} (h : s.clients[k]? = some (.looping i)) (hlt : i < cfg.nRuns) :
    Moved cfg s (s.setClient k (.failed i)) []
  | returns {k i : ℕ} (h : s.clients[k]? = some (.looping i)) (hge : cfg.nRuns ≤ i) :
    Moved cfg s (s.setClient k (.finished i)) []
  | connects {k i : ℕ} (h : s.clients[k]? = some (.opened i)) (hl : listening s.server = true)
    (hroom : s.backlog.length < cfg.capacity) :
    Moved cfg s { s.setClient k (.connected i (some s.made)) with
      made := s.made + 1
      backlog := s.backlog ++ [s.made] } [.connected k (some s.made)]
  | refused {k i : ℕ} (h : s.clients[k]? = some (.opened i)) :
    Moved cfg s (s.setClient k (.connected i none)) [.connected k none]
  | samples {k i : ℕ} {conn : Option ℕ} {timed : Timed}
    (h : s.clients[k]? = some (.connected i conn)) (ht : cfg.clients[k]? = some timed) :
    Moved cfg s (s.setClient k (.looping (i + 1))) [.sampled k timed conn]

theorem serverStep_moved {ok : Bool} (h : serverStep s ok = some (t, out)) : Moved cfg s t out := by
  unfold serverStep at h
  split at h
  next hm =>
    obtain ⟨rfl, rfl⟩ := Prod.mk.inj (Option.some.inj h)
    cases ok with
    | true => exact .listens hm
    | false => exact .exits (Or.inl hm)
  next hm =>
    cases ok with
    | true =>
      simp only [if_true] at h
      split at h
      next conn rest hb =>
        obtain ⟨rfl, rfl⟩ := Prod.mk.inj (Option.some.inj h)
        exact .accepts hm hb
      next => cases h
    | false =>
      obtain ⟨rfl, rfl⟩ := Prod.mk.inj (Option.some.inj h)
      exact .exits (Or.inr hm)
  next conn hm =>
    obtain ⟨rfl, rfl⟩ := Prod.mk.inj (Option.some.inj h)
    exact .closes hm
  next => cases h

theorem clientStep_moved {k : ℕ} {ok : Bool} (h : clientStep cfg s k ok = some (t, out)) :
    Moved cfg s t out := by
  obtain ⟨c, hc, h⟩ := Option.bind_eq_some_iff.mp h
  cases c with
  | looping i =>
    simp only at h
    split at h
    next hlt =>
      obtain ⟨rfl, rfl⟩ := Prod.mk.inj (Option.some.inj h)
      cases ok with
      | true => exact .opens hc hlt
      | false => exact .fails hc hlt
    next hge =>
      obtain ⟨rfl, rfl⟩ := Prod.mk.inj (Option.some.inj h)
      exact .returns hc (Nat.le_of_not_lt hge)
  | opened i =>
    simp only at h
    split at h
    next hl =>
      obtain ⟨hroom, heq⟩ := Option.ite_none_right_eq_some.mp h
      obtain ⟨rfl, rfl⟩ := Prod.mk.inj (Option.some.inj heq)
      exact .connects hc (Bool.and_eq_true_iff.mp hl).2 hroom
    next =>
      obtain ⟨rfl, rfl⟩ := Prod.mk.inj (Option.some.inj h)
      exact .refused hc
  | connected i conn =>
    obtain ⟨timed, ht, heq⟩ := Option.map_eq_some_iff.mp h
    obtain ⟨rfl, rfl⟩ := Prod.mk.inj heq
    exact .samples hc ht
  | finished i => cases h
  | failed i => cases h

theorem step_moved {e : Move} (h : step cfg s e = some (t, out)) : Moved cfg s t out := by
  cases e with
  | server ok => exact serverStep_moved h
  | client k ok => exact clientStep_moved h

/-- The server takes the connections in the order in which they were made, one at a time. -/
structure Served (tr : List Event) (s : State) : Prop where
  numbers : made tr = List.range s.made
  queue : s.server ≠ .exited → accepted tr ++ s.backlog = made tr
  dropped : s.server = .exited → s.backlog = [] ∧ accepted tr <+: made tr
  closed : closed tr ++ s.server.current = accepted tr

theorem made_append (xs ys : List Event) : made (xs ++ ys) = made xs ++ made ys := by
  simp [made]

theorem accepted_append (xs ys : List Event) :
    accepted (xs ++ ys) = accepted xs ++ accepted ys := by
  simp [accepted]

theorem closed_append (xs ys : List Event) : closed (xs ++ ys) = closed xs ++ closed ys := by
  simp [closed]

/-- A move that makes, takes and closes no connection. -/
theorem served_same (hs : Served tr s) (hserver : t.server = s.server) (hmade : t.made = s.made)
    (hbacklog : t.backlog = s.backlog) (hm : made out = []) (ha : accepted out = [])
    (hc : closed out = []) : Served (tr ++ out) t := by
  refine ⟨?_, ?_, ?_, ?_⟩
  · rw [made_append, hm, List.append_nil, hmade, hs.numbers]
  · rw [made_append, accepted_append, hm, ha, List.append_nil, List.append_nil, hserver, hbacklog]
    exact hs.queue
  · rw [made_append, accepted_append, hm, ha, List.append_nil, List.append_nil, hserver, hbacklog]
    exact hs.dropped
  · rw [closed_append, accepted_append, hc, ha, List.append_nil, List.append_nil, hserver]
    exact hs.closed

theorem moved_served (hs : Served tr s) (h : Moved cfg s t out) : Served (tr ++ out) t := by
  have hqueue := hs.queue
  have hclosed := hs.closed
  cases h with
  | listens hm =>
    rw [hm] at hqueue hclosed
    rw [List.append_nil]
    exact ⟨hs.numbers, fun _ => hqueue (by simp), (fun h => by cases h), hclosed⟩
  | exits hm =>
    have hne : s.server ≠ .exited := by
      rcases hm with hm | hm <;> simp [hm]
    have hcurrent : s.server.current = [] := by
      rcases hm with hm | hm <;> rw [hm] <;> rfl
    rw [hcurrent] at hclosed
    rw [List.append_nil]
    exact ⟨hs.numbers, fun h => absurd rfl h,
      fun _ => ⟨rfl, hqueue hne ▸ List.prefix_append ..⟩, hclosed⟩
  | @accepts conn rest hm hb =>
    rw [hm] at hqueue hclosed
    rw [hb] at hqueue
    have hmade : made [.accepted conn] = [] := rfl
    have haccepted : accepted [.accepted conn] = [conn] := rfl
    have hnone : closed [.accepted conn] = [] := rfl
    refine ⟨?_, ?_, (fun h => by cases h), ?_⟩
    · rw [made_append, hmade, List.append_nil, hs.numbers]
    · intro _
      rw [made_append, accepted_append, hmade, haccepted, List.append_nil, ← hqueue (by simp)]
      simp
    · rw [closed_append, accepted_append, hnone, haccepted, ← hclosed]
      simp [Server.current]
  | @closes conn hm =>
    rw [hm] at hqueue hclosed
    have hmade : made [.closed conn] = [] := rfl
    have haccepted : accepted [.closed conn] = [] := rfl
    have hconn : closed [.closed conn] = [conn] := rfl
    refine ⟨?_, ?_, (fun h => by cases h), ?_⟩
    · rw [made_append, hmade, List.append_nil, hs.numbers]
    · intro _
      rw [made_append, accepted_append, hmade, haccepted, List.append_nil, List.append_nil]
      exact hqueue (by simp)
    · rw [closed_append, accepted_append, hconn, haccepted, ← hclosed]
      simp [Server.current]
  | @connects k i hk hl hroom =>
    have hne : s.server ≠ .exited := by
      intro hexit
      simp [hexit, listening] at hl
    have hqueue := hqueue hne
    have hmade : made (tr ++ [.connected k (some s.made)]) = made tr ++ [s.made] := by
      simp [made, Event.made?]
    have haccepted : accepted (tr ++ [.connected k (some s.made)]) = accepted tr := by
      simp [accepted, Event.accepted?]
    refine ⟨?_, ?_, fun h => absurd h hne, ?_⟩
    · rw [hmade, hs.numbers, List.range_succ]
    · intro _
      rw [hmade, haccepted, ← hqueue, List.append_assoc]
    · rw [haccepted, ← hclosed]
      simp [closed, Event.closed?, State.setClient]
  | opens hk hlt => exact served_same hs rfl rfl rfl rfl rfl rfl
  | fails hk hlt => exact served_same hs rfl rfl rfl rfl rfl rfl
  | returns hk hge => exact served_same hs rfl rfl rfl rfl rfl rfl
  | refused hk => exact served_same hs rfl rfl rfl rfl rfl rfl
  | samples hk ht => exact served_same hs rfl rfl rfl rfl rfl rfl

end SysPerf.ConnectServer
