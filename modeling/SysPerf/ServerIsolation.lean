import SysPerf.ServerFaults

namespace SysPerf.Server

variable {cfg : Config} {f : Faults}

/-- What is known of the worker of turn `w` and of the calls it has made. -/
structure Worker.Traced (cfg : Config) (f : Faults) (tr : List Event) (w : ℕ) (v : Worker) :
    Prop where
  fd : v.fd = if f.accept w then some w else none
  receiving : v.pc = .receiving → cfg.service = .echo
  received : cfg.service = .echo → v.pc ≠ .receiving → f.accept w = true ∧ f.recv w = true
  sent : v.pc = .closing ∨ v.pc = .done → f.accept w = true →
    f.send w ≠ .brokenPipe ∧ (f.send w = .sent → .replied w ∈ tr)

structure Traced (cfg : Config) (f : Faults) (tr : List Event) (s : State) : Prop where
  ok : s.Ok cfg
  workers : ∀ (w : ℕ) (v : Worker), s.workers[w]? = some v → v.Traced cfg f tr w
  accepted : accepted tr = s.workers.filterMap Worker.fd

theorem Worker.Traced.mono {tr out : List Event} {w : ℕ} {v : Worker}
    (h : v.Traced cfg f tr w) : v.Traced cfg f (tr ++ out) w where
  fd := h.fd
  receiving := h.receiving
  received := h.received
  sent hpc hacc := ⟨(h.sent hpc hacc).1, fun hs => List.mem_append_left _ ((h.sent hpc hacc).2 hs)⟩

theorem Worker.Traced.accept_of_fd {tr : List Event} {w conn : ℕ} {v : Worker}
    (h : v.Traced cfg f tr w) (hfd : v.fd = some conn) : f.accept w = true ∧ conn = w := by
  have heq := h.fd
  rw [hfd] at heq
  split at heq
  next hacc => exact ⟨hacc, Option.some.inj heq⟩
  next => simp at heq

theorem accepted_append (xs ys : List Event) : accepted (xs ++ ys) = accepted xs ++ accepted ys := by
  simp [accepted]

/-- One worker moves on, keeping its descriptor. -/
theorem traced_setWorker {tr out : List Event} {s : State} (hs : Traced cfg f tr s) {w : ℕ}
    {fd : Option ℕ} {old new : WorkerPc} (hw : s.workers[w]? = some ⟨fd, old⟩)
    (hold : old ≠ .done) (hout : accepted out = [])
    (hnew : Worker.Traced cfg f (tr ++ out) w ⟨fd, new⟩) :
    Traced cfg f (tr ++ out) (s.setWorker w fd new) where
  ok := setWorker_ok hs.ok hw hold
  workers k v hv := by
    rcases set_get_cases hv with ⟨rfl, rfl⟩ | ⟨_, hv⟩
    · exact hnew
    · exact (hs.workers k v hv).mono
  accepted := by
    obtain ⟨hlt, hget⟩ := List.getElem?_eq_some_iff.mp hw
    have hsame : (s.workers.set w ⟨fd, new⟩).map Worker.fd = s.workers.map Worker.fd := by
      have hself := List.set_getElem_self (show w < (s.workers.map Worker.fd).length by simpa)
      rw [List.map_set]
      simpa [hget] using hself
    have hfilter : ∀ l : List Worker, l.filterMap Worker.fd = (l.map Worker.fd).filterMap id := by
      intro l
      simp [List.filterMap_map]
    rw [accepted_append, hout, List.append_nil, hs.accepted, State.setWorker]
    simp only
    rw [hfilter, hfilter, hsame]

/-- Only the thread of the main loop has changed. -/
theorem traced_main {tr : List Event} {s : State} (hs : Traced cfg f tr s) {main : Main}
    (hok : State.Ok cfg { s with main := main }) : Traced cfg f tr { s with main := main } :=
  ⟨hok, hs.workers, hs.accepted⟩

theorem step_traced {tr out : List Event} {s t : State} {e : Move} (hs : Traced cfg f tr s)
    (h : step cfg f s e = some (t, out)) : Traced cfg f (tr ++ out) t := by
  obtain ⟨a, hnamed, hacted⟩ := step_acted h
  have hok := acted_ok hs.ok hacted
  cases hacted with
  | listens hm => simpa using traced_main hs hok
  | @accepts i fd hm hi =>
    have hlength : s.workers.length = i := by
      have hfits := hs.ok
      simp only [State.Ok, hm, Main.Fits] at hfits
      exact hfits.1
    obtain ⟨j, hm', rfl⟩ := hnamed
    obtain rfl := Main.accepting.inj (hm.symm.trans hm')
    refine ⟨hok, fun w v hv => ?_, ?_⟩
    · rcases concat_get_cases hv with hv | ⟨hw, rfl⟩
      · exact (hs.workers w v hv).mono
      · obtain rfl : w = i := hw.trans hlength
        cases hservice : cfg.service with
        | echo => exact ⟨rfl, fun _ => hservice, by simp [Service.first], by simp [Service.first]⟩
        | push =>
          exact ⟨rfl, by simp [Service.first], by simp [hservice], by simp [Service.first]⟩
    · rw [accepted_append, hs.accepted, List.filterMap_append]
      cases f.accept i <;> simp [acceptedEvent, accepted]
  | leaves hm hi => simpa using traced_main hs hok
  | joins hm hw hdone => simpa using traced_main hs hok
  | exits hm hw => simpa using traced_main hs hok
  | @received w conn hm hw =>
    have hv := hs.workers w _ hw
    have hacc := hv.accept_of_fd rfl
    have hrecv : true = f.recv w := hnamed
    refine traced_setWorker hs hw (by simp) rfl ⟨hv.fd, by simp, fun _ _ => ?_, by simp⟩
    exact ⟨hacc.1, hrecv.symm⟩
  | recvKills hm hw hfail => simpa using traced_main hs hok
  | @sent w conn hm hw =>
    have hv := hs.workers w _ hw
    obtain ⟨_, rfl⟩ := hv.accept_of_fd rfl
    have hsend : .sent = f.send conn := hnamed
    refine traced_setWorker hs hw (by simp) rfl ⟨hv.fd, by simp, fun hservice _ => ?_, fun _ _ => ?_⟩
    · exact hv.received hservice (by simp)
    · exact ⟨by simp [← hsend], fun _ => by simp⟩
  | @sendFails w fd result hm hw hfail =>
    have hv := hs.workers w _ hw
    have hsend : result = f.send w := hnamed
    refine traced_setWorker hs hw (by simp) rfl ⟨hv.fd, by simp, fun hservice _ => ?_,
      fun _ hacc => ?_⟩
    · exact hv.received hservice (by simp)
    · rcases hfail with hnone | rfl
      · have hfd := hv.fd
        simp [hacc, hnone] at hfd
      · exact ⟨by simp [← hsend], fun hsent => by simp [← hsend] at hsent⟩
  | sendKills hm hw => simpa using traced_main hs hok
  | @closes w fd hm hw =>
    have hv := hs.workers w _ hw
    refine traced_setWorker hs hw (by simp) rfl ⟨hv.fd, by simp, fun hservice _ => ?_,
      fun _ hacc => ?_⟩
    · exact hv.received hservice (by simp)
    · simpa using hv.sent (Or.inl rfl) hacc

theorem create_server_traced {tr : List Event} {s : State}
    (h : Reach (createServer cfg f) tr s) : Traced cfg f tr s := by
  refine h.history (P := Traced cfg f) ⟨start_ok, by simp [createServer, start], rfl⟩ ?_
  intro tr s e t out hs hstep
  exact step_traced hs hstep

/-- Only a call that the pattern fails in a way the server does not survive ends it. -/
theorem benign_running (hf : f.Benign cfg) {tr : List Event} {s : State}
    (h : Reach (createServer cfg f) tr s) : s.main ≠ .killed := by
  induction h with
  | init => simp [createServer, start]
  | @step tr s e t out hreach hstep ih =>
    have hs := create_server_traced hreach
    obtain ⟨a, hnamed, hacted⟩ := step_acted hstep
    have hbound : ∀ w v, s.workers[w]? = some v → w ≤ cfg.measured := by
      intro w v hw
      have hlt := (List.getElem?_eq_some_iff.mp hw).1
      have hlength := length_le hs.ok ih
      omega
    cases hacted with
    | @recvKills w fd ok hm hw hfail =>
      have hv := hs.workers w _ hw
      obtain ⟨hacc, hrecv, _⟩ := hf w (hbound w _ hw)
      rcases hfail with hnone | hfalse
      · have hfd := hv.fd
        simp [hacc, hnone] at hfd
      · have htrue := hrecv (hv.receiving rfl)
        have hrecv : ok = f.recv w := hnamed
        rw [← hrecv, hfalse] at htrue
        exact absurd htrue (by simp)
    | @sendKills w conn hm hw =>
      have hsend : .brokenPipe = f.send w := hnamed
      exact absurd hsend.symm (hf w (hbound w _ hw)).2.2
    | listens hm => simp
    | accepts hm hi => simp
    | leaves hm hi => simp
    | joins hm hw hdone => simp
    | exits hm hw => simp
    | received hm hw => exact hm
    | sent hm hw => exact hm
    | sendFails hm hw hfail => exact hm
    | closes hm hw => exact hm

/-- What is left of a run that has come to its end without being killed. -/
theorem stuck_end {tr : List Event} {s : State} (h : Reach (createServer cfg f) tr s)
    (hstuck : Stuck (createServer cfg f) s) (hrun : s.main ≠ .killed) :
    s.workers.length = cfg.measured + 1 ∧ ∀ w ∈ s.workers, w.pc = .done := by
  have hok := create_server_ok h
  rcases stuck_cases hstuck with hm | hm
  · simpa only [State.Ok, hm, Main.Fits] using hok
  · exact absurd hm hrun

theorem benign_isolated (hf : f.Benign cfg) : Isolated cfg f where
  running := benign_running hf
  accepts := by
    intro tr s h hstuck
    obtain ⟨hlength, _⟩ := stuck_end h hstuck (benign_running hf h)
    have hs := create_server_traced h
    have hall : ∀ v ∈ s.workers, v.fd.isSome = true := by
      intro v hv
      obtain ⟨w, hw⟩ := List.mem_iff_getElem?.mp hv
      have hlt := (List.getElem?_eq_some_iff.mp hw).1
      simp [(hs.workers w v hw).fd, (hf w (by omega)).1]
    rw [hs.accepted, List.filterMap_length_eq_length.mpr hall, hlength]
  replies := by
    intro tr s h hstuck conn hconn _ hsent
    obtain ⟨_, hdone⟩ := stuck_end h hstuck (benign_running hf h)
    have hs := create_server_traced h
    rw [hs.accepted] at hconn
    obtain ⟨v, hv, hfd⟩ := List.mem_filterMap.mp hconn
    obtain ⟨w, hw⟩ := List.mem_iff_getElem?.mp hv
    have htraced := hs.workers w v hw
    obtain ⟨hacc, rfl⟩ := htraced.accept_of_fd hfd
    exact (htraced.sent (Or.inr (hdone v hv)) hacc).2 hsent

theorem isolated_benign (h : Isolated cfg f) : f.Benign cfg := by
  obtain ⟨tr, s, hreach, hstuck⟩ := create_server_ends (Reach.init (m := createServer cfg f))
  obtain ⟨hlength, hdone⟩ := stuck_end hreach hstuck (h.running hreach)
  have hs := create_server_traced hreach
  have haccepts := h.accepts hreach hstuck
  rw [hs.accepted, ← hlength, List.filterMap_length_eq_length] at haccepts
  intro i hi
  have hlt : i < s.workers.length := by omega
  have hw : s.workers[i]? = some s.workers[i] := List.getElem?_eq_getElem hlt
  have hmem : s.workers[i] ∈ s.workers := List.getElem_mem hlt
  have htraced := hs.workers i _ hw
  obtain ⟨conn, hconn⟩ := Option.isSome_iff_exists.mp (haccepts _ hmem)
  obtain ⟨hacc, _⟩ := htraced.accept_of_fd hconn
  have hpc := hdone _ hmem
  exact ⟨hacc, fun hservice => (htraced.received hservice (by simp [hpc])).2,
    (htraced.sent (Or.inr hpc) hacc).1⟩

theorem isolated_iff (cfg : Config) (f : Faults) : Isolated cfg f ↔ f.Benign cfg :=
  ⟨isolated_benign, benign_isolated⟩

/-- rtt.cpp, whose first `accept` fails. -/
def firstAcceptFails : Faults :=
  ⟨fun i => i != 0, fun _ => true, fun _ => .sent⟩

theorem not_isolated_first_accept : ¬Isolated ⟨.echo, 100, 10⟩ firstAcceptFails := by
  intro h
  have hrun : Reach (createServer ⟨.echo, 100, 10⟩ firstAcceptFails) _ _ := reach_of_exec
    [.main, .main, .worker 0] rfl
  exact h.running hrun rfl

end SysPerf.Server
