import SysPerf.SessionFailuresMoved

namespace SysPerf.FailingSession

open Server (Config Service Act Acted)
open Session (Call Client listening firstCall)

variable {cfg : Config} {tr out : List Event} {s t : State}

/-- What the client knows of its calls. -/
structure Booked (cfg : Config) (tr : List Event) (s : State) : Prop where
  range : s.session.client.InRange cfg
  made : s.session.made + tr.count .refused =
    s.session.client.returned cfg + if s.session.client.conn?.isSome then 1 else 0
  conn : ∀ c, s.session.client.conn? = some c → c + 1 = s.session.made
  completed : (completed tr).length + tr.count .refused = s.session.client.returned cfg

theorem completed_append (xs ys : List Event) :
    completed (xs ++ ys) = completed xs ++ completed ys := by
  simp [completed]

theorem booked_start : Booked cfg [] start :=
  ⟨trivial, rfl, by simp [start, Session.start, Client.conn?, Client.call?, Call.conn?], rfl⟩

/-- A move that returns from no call and makes no connection. -/
theorem booked_same (hs : Booked cfg tr s) (client : Client) (hrange : client.InRange cfg)
    (hclient : t.session.client = client) (hmade : t.session.made = s.session.made)
    (hconn : client.conn? = s.session.client.conn?)
    (hreturned : client.returned cfg = s.session.client.returned cfg)
    (hrefused : out.count .refused = 0) (hcompleted : completed out = []) :
    Booked cfg (tr ++ out) t := by
  subst hclient
  refine ⟨hrange, ?_, ?_, ?_⟩
  · rw [List.count_append, hrefused, hmade, hconn, hreturned]
    exact hs.made
  · rw [hconn, hmade]
    exact hs.conn
  · rw [completed_append, List.count_append, hrefused, hcompleted, List.append_nil, hreturned]
    exact hs.completed

theorem booked_call (hs : Booked cfg tr s) {call : Call} (next : Call)
    (hcall : s.session.client.call? = some call) (hsame : next.conn? = call.conn?)
    (hclient : t.session.client = s.session.client.setCall next)
    (hmade : t.session.made = s.session.made) : Booked cfg (tr ++ []) t := by
  refine booked_same hs _ (Session.inRange_setCall hs.range next) hclient hmade ?_
    (Session.returned_setCall hcall next) rfl rfl
  rw [Session.conn_setCall hcall, Session.conn_of_call hcall, hsame]

theorem booked_connect (hs : Booked cfg tr s)
    (hcall : s.session.client.call? = some .connecting) {backlog : List ℕ} :
    Booked cfg (tr ++ []) { s with session := { s.session with
      client := s.session.client.setCall (firstCall cfg.service s.session.made)
      made := s.session.made + 1
      backlog := backlog } } := by
  have hmade := hs.made
  rw [Session.conn_of_call hcall] at hmade
  have hconn : (s.session.client.setCall (firstCall cfg.service s.session.made)).conn? =
      some s.session.made := by
    rw [Session.conn_setCall hcall, Session.conn_firstCall]
  have hreturned : (s.session.client.setCall (firstCall cfg.service s.session.made)).returned cfg =
      s.session.client.returned cfg := Session.returned_setCall hcall _
  simp only [Call.conn?, Option.isSome_none, Bool.false_eq_true, if_false] at hmade
  refine ⟨Session.inRange_setCall hs.range _, ?_, fun c hc => ?_, ?_⟩
  · simp only [List.append_nil, hconn, hreturned, Option.isSome_some, if_true]
    omega
  · have hc := hconn.symm.trans hc
    rw [← Option.some.inj hc]
  · simpa [hreturned] using hs.completed

/-- A refused call returns, which only the loop of the measured calls takes for one of its own. -/
theorem booked_refuse (hs : Booked cfg tr s)
    (hcall : s.session.client.call? = some .connecting) :
    Booked cfg (tr ++ s.refuse.2) s.refuse.1 := by
  have hmade := hs.made
  have hcompleted := hs.completed
  have hrange := hs.range
  cases hc : s.session.client with
  | probing call =>
    rw [hc] at hcall
    obtain rfl := Option.some.inj hcall
    rw [refuse_probing hc]
    exact booked_same hs (.probing .connecting) trivial rfl rfl (by rw [hc]) (by rw [hc]) rfl rfl
  | measuring run i call =>
    rw [hc] at hcall hmade hcompleted hrange
    obtain rfl := Option.some.inj hcall
    rw [refuse_measuring hc]
    simp only [Client.conn?, Client.call?, Option.bind_some, Call.conn?, Option.isSome_none,
      Bool.false_eq_true, if_false, Client.returned] at hmade hcompleted
    refine ⟨⟨hrange.1.le, hrange.2, fun heq => absurd heq hrange.1.ne⟩, ?_,
      by simp [State.setClient, Client.conn?, Client.call?], ?_⟩
    · rw [List.count_append, List.count_singleton_self]
      simp only [State.setClient, Client.conn?, Client.call?, Client.returned, Option.bind_none,
        Option.isSome_none, Bool.false_eq_true, if_false]
      omega
    · have hnone : completed [Event.refused] = [] := rfl
      rw [completed_append, hnone, List.append_nil, List.count_append, List.count_singleton_self]
      simp only [State.setClient, Client.returned]
      omega
  | _ => simp [hc, Client.call?] at hcall

theorem booked_complete (hs : Booked cfg tr s) {conn : ℕ}
    (hcall : s.session.client.call? = some (.closing conn)) :
    Booked cfg (tr ++ [.session (.completed conn)])
      (s.setClient (s.session.client.resume true)) := by
  have hmade := hs.made
  have hcompleted := hs.completed
  rw [Session.conn_of_call hcall] at hmade
  have hnone : (s.session.client.resume true).conn? = none := by
    simp [Client.conn?, Session.call_resume hcall]
  have hreturned : (s.session.client.resume true).returned cfg =
      s.session.client.returned cfg + 1 := Session.returned_resume hcall
  simp only [Call.conn?, Option.isSome_some, if_true] at hmade
  refine ⟨Session.inRange_resume hcall hs.range, ?_, by simp [State.setClient, hnone], ?_⟩
  · simp only [State.setClient, hnone, hreturned, List.count_append]
    simp
    omega
  · simp only [State.setClient, hreturned, List.count_append, completed_append,
      List.length_append]
    simp [completed, Event.completed?] at hcompleted ⊢
    omega

theorem moved_booked (hs : Booked cfg tr s) (h : Moved cfg s t out) :
    Booked cfg (tr ++ out) t := by
  have hkeep : ∀ {u : State} {o : List Event}, u.session.client = s.session.client →
      u.session.made = s.session.made → o.count .refused = 0 → completed o = [] →
      Booked cfg (tr ++ o) u :=
    fun hclient hmade hrefused hcompleted =>
      booked_same hs _ hs.range hclient hmade rfl rfl hrefused hcompleted
  cases h with
  | connects hcall hl => exact booked_connect hs hcall
  | refuses hcall => exact booked_refuse hs hcall
  | sends hcall => exact booked_call hs (.receiving _) hcall rfl rfl rfl
  | receives hcall => exact booked_call hs (.closing _) hcall rfl rfl rfl
  | completes hcall => exact booked_complete hs hcall
  | exits hconn hexited => exact hkeep rfl rfl rfl rfl
  | @requests run i hc hrun hi =>
    exact booked_same hs (.measuring run i .connecting) ⟨hrun, hi⟩ rfl rfl
      (by simp [hc, Client.conn?, Client.call?, Call.conn?]) (by simp [hc, Client.returned]) rfl rfl
  | @ends run i hc hrun hi =>
    have hrange := hs.range
    rw [hc] at hrange
    obtain rfl : i = cfg.requests := by have := hrange.2.1; omega
    exact booked_same hs (.looping (run + 1) 0) ⟨hrun, Nat.zero_le _, fun _ => rfl⟩ rfl rfl
      (by simp [hc, Client.conn?, Client.call?]) (by simp [hc, Client.returned, Nat.add_mul])
      rfl rfl
  | @waits run i hc hrun =>
    have hrange := hs.range
    rw [hc] at hrange
    obtain rfl : run = cfg.iterations := by have := hrange.1; omega
    obtain rfl := hrange.2.2 rfl
    exact booked_same hs .waiting trivial rfl rfl (by simp [hc, Client.conn?, Client.call?])
      (by simp [hc, Client.returned, Config.measured, Nat.mul_comm]) rfl rfl
  | finishes hc hm =>
    exact booked_same hs .finished trivial rfl rfl (by simp [hc, Client.conn?, Client.call?])
      (by simp [hc, Client.returned]) rfl rfl
  | control ha hacted => exact hkeep rfl rfl rfl rfl
  | accepts hm hi hb => exact hkeep rfl rfl rfl rfl
  | startFails hm => exact hkeep rfl rfl rfl rfl
  | misses hm hi => exact hkeep rfl rfl rfl rfl
  | aborts hm hi hb => exact hkeep rfl rfl rfl rfl
  | works hacted ha => exact hkeep rfl rfl rfl rfl

end SysPerf.FailingSession
