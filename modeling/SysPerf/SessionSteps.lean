import SysPerf.SessionInvariant

namespace SysPerf.Session

open Server (Config Service Act Acted)

variable {cfg : Config} {tr out : List Event} {s t : State}

theorem refused_same (hc : s.client = .probing .connecting) :
    { s with client := s.client.resume false } = s := by
  obtain ⟨server, client, made, backlog, requested, replied⟩ := s
  obtain rfl : client = .probing .connecting := hc
  rfl

theorem conn_of_call {client : Client} {call : Call} (h : client.call? = some call) :
    client.conn? = call.conn? := by
  simp [Client.conn?, h]

theorem conn_setCall {client : Client} {call : Call} (h : client.call? = some call)
    (next : Call) : (client.setCall next).conn? = next.conn? :=
  conn_of_call (call_setCall h next)

theorem completed_append (xs ys : List Event) :
    completed (xs ++ ys) = completed xs ++ completed ys := by
  simp [completed]

theorem accepted_append (xs ys : List Event) :
    accepted (xs ++ ys) = accepted xs ++ accepted ys := by
  simp [accepted]

/-- The moves of the server leave the client's books alone. -/
theorem booked_server (hs : Booked cfg tr s) (hclient : t.client = s.client)
    (hmade : t.made = s.made) (hout : completed out = []) : Booked cfg (tr ++ out) t := by
  obtain ⟨hrange, hm, hconn, hcompleted⟩ := hs
  refine ⟨hclient ▸ hrange, ?_, hclient ▸ hconn, ?_⟩
  · rw [hmade, hclient]; exact hm
  · rw [completed_append, hout, List.append_nil, hclient]; exact hcompleted

/-- The client goes to a point where it holds no connection. -/
theorem booked_idle (hs : Booked cfg tr s) (hidle : s.client.conn? = none) {client : Client}
    (hrange : client.InRange cfg) (hconn : client.conn? = none)
    (hreturned : client.returned cfg = s.client.returned cfg) :
    Booked cfg (tr ++ []) { s with client := client } := by
  have hmade := hs.made
  rw [hidle] at hmade
  refine ⟨hrange, ?_, by simp [hconn], ?_⟩
  · simpa [hconn, hreturned] using hmade
  · simpa [hreturned] using hs.completed

/-- The call goes on with the connection that it has. -/
theorem booked_call (hs : Booked cfg tr s) {call : Call} (next : Call)
    (hcall : s.client.call? = some call) (hsame : next.conn? = call.conn?)
    (hclient : t.client = s.client.setCall next) (hmade : t.made = s.made) :
    Booked cfg (tr ++ []) t := by
  have hconn : t.client.conn? = s.client.conn? := by
    rw [hclient, conn_setCall hcall, conn_of_call hcall, hsame]
  have hreturned : t.client.returned cfg = s.client.returned cfg := by
    rw [hclient, returned_setCall hcall]
  refine ⟨?_, ?_, ?_, ?_⟩
  · rw [hclient]; exact inRange_setCall hs.range next
  · rw [hmade, hconn, hreturned]; exact hs.made
  · rw [hconn, hreturned]; exact hs.conn
  · rw [List.append_nil, hreturned]; exact hs.completed

/-- The call has made the next connection. -/
theorem booked_connect (hs : Booked cfg tr s) (hcall : s.client.call? = some .connecting)
    {next : Call} (hnext : next.conn? = some s.made) {backlog : List ℕ} :
    Booked cfg (tr ++ []) { s with
      client := s.client.setCall next
      made := s.made + 1
      backlog := backlog } := by
  have hconn : (s.client.setCall next).conn? = some s.made := by
    rw [conn_setCall hcall, hnext]
  have hreturned : (s.client.setCall next).returned cfg = s.client.returned cfg :=
    returned_setCall hcall next
  have hmade := hs.made
  rw [conn_of_call hcall] at hmade
  have hsame : s.made = s.client.returned cfg := by simpa [Call.conn?] using hmade
  refine ⟨inRange_setCall hs.range _, ?_, fun c hc => ?_, ?_⟩
  · simp [hconn, hreturned, ← hsame]
  · have hc : (s.client.setCall next).conn? = some c := hc
    rw [hconn] at hc
    rw [← Option.some.inj hc, hreturned, hsame]
  · simpa [hreturned] using hs.completed

/-- The call returns and its connection is the next one completed. -/
theorem booked_complete (hs : Booked cfg tr s) {conn : ℕ}
    (hcall : s.client.call? = some (.closing conn)) :
    Booked cfg (tr ++ [.completed conn]) { s with client := s.client.resume true } := by
  have hmade := hs.made
  have heq := hs.conn conn (conn_of_call hcall)
  rw [conn_of_call hcall] at hmade
  have hnone : (s.client.resume true).conn? = none := by
    simp [Client.conn?, call_resume hcall]
  have hreturned : (s.client.resume true).returned cfg = s.client.returned cfg + 1 :=
    returned_resume hcall
  refine ⟨inRange_resume hcall hs.range, ?_, by simp [hnone], ?_⟩
  · simpa [hnone, hreturned, Call.conn?] using hmade
  · rw [completed_append, hs.completed, hreturned, List.range_succ, heq]
    rfl

theorem conn_firstCall (service : Service) (conn : ℕ) :
    (firstCall service conn).conn? = some conn := by
  cases service <;> rfl

theorem moved_booked (hs : Inv cfg tr s) (h : Moved cfg s t out) : Booked cfg (tr ++ out) t := by
  have hb := hs.booked
  cases h with
  | connects hcall hl => exact booked_connect hb hcall (conn_firstCall ..)
  | refused hcall hl =>
    rw [refused_same (hs.refused hcall hl), List.append_nil]
    exact hb
  | sends hcall => exact booked_call hb (.receiving _) hcall rfl rfl rfl
  | receives hcall hreplied => exact booked_call hb (.closing _) hcall rfl rfl rfl
  | completes hcall => exact booked_complete hb hcall
  | @requests run i hc hrun hi =>
    refine booked_idle hb (by simp [hc, Client.conn?, Client.call?]) ⟨hrun, hi⟩ rfl ?_
    simp [hc, Client.returned]
  | @ends run i hc hrun hi =>
    have hrange := hb.range
    rw [hc] at hrange
    obtain rfl : i = cfg.requests := by have := hrange.2.1; omega
    refine booked_idle hb (by simp [hc, Client.conn?, Client.call?])
      ⟨hrun, Nat.zero_le _, fun _ => rfl⟩ rfl ?_
    simp [hc, Client.returned, Nat.add_mul]
  | @waits run i hc hrun =>
    have hrange := hb.range
    rw [hc] at hrange
    obtain rfl : run = cfg.iterations := by have := hrange.1; omega
    obtain rfl := hrange.2.2 rfl
    refine booked_idle hb (by simp [hc, Client.conn?, Client.call?]) trivial rfl ?_
    simp [hc, Client.returned, Config.measured, Nat.mul_comm]
  | finishes hc hm =>
    refine booked_idle hb (by simp [hc, Client.conn?, Client.call?]) trivial rfl ?_
    simp [hc, Client.returned]
  | control ha hacted => exact booked_server hb rfl rfl rfl
  | accepts hm hi hbacklog => exact booked_server hb rfl rfl rfl
  | hears hw hreq => exact booked_server hb rfl rfl rfl
  | replies hw => exact booked_server hb rfl rfl rfl
  | closes hw => exact booked_server hb rfl rfl rfl

end SysPerf.Session
