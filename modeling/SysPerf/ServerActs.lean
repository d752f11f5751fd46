import SysPerf.Server

namespace SysPerf.Server

variable {cfg : Config}

theorem mainAct_acted {s t : State} {a : Act} {out : List Event}
    (h : mainAct cfg s a = some (t, out)) : Acted cfg s a t out := by
  cases a with
  | listen =>
    cases hm : s.main with
    | starting =>
      simp only [mainAct, hm, Option.some.injEq, Prod.mk.injEq] at h
      obtain ⟨rfl, rfl⟩ := h
      exact .listens hm
    | _ => simp [mainAct, hm] at h
  | accept fd =>
    cases hm : s.main with
    | accepting i =>
      simp only [mainAct, hm] at h
      obtain ⟨hi, heq⟩ := Option.ite_none_right_eq_some.mp h
      obtain ⟨rfl, rfl⟩ := Prod.mk.inj (Option.some.inj heq)
      exact .accepts hm hi
    | _ => simp [mainAct, hm] at h
  | advance =>
    cases hm : s.main with
    | accepting i =>
      simp only [mainAct, hm] at h
      obtain ⟨hi, heq⟩ := Option.ite_none_left_eq_some.mp h
      obtain ⟨rfl, rfl⟩ := Prod.mk.inj (Option.some.inj heq)
      exact .leaves hm hi
    | joining j =>
      simp only [mainAct, hm] at h
      split at h
      next w hw =>
        obtain ⟨hdone, heq⟩ := Option.ite_none_right_eq_some.mp h
        obtain ⟨rfl, rfl⟩ := Prod.mk.inj (Option.some.inj heq)
        exact .joins hm hw hdone
      next hw =>
        obtain ⟨rfl, rfl⟩ := Prod.mk.inj (Option.some.inj h)
        exact .exits hm hw
    | _ => simp [mainAct, hm] at h
  | recv w ok => simp [mainAct] at h
  | send w result => simp [mainAct] at h
  | close w => simp [mainAct] at h

theorem workerAct_acted {s t : State} {a : Act} {out : List Event} (hm : s.main ≠ .killed)
    (h : workerAct s a = some (t, out)) : Acted cfg s a t out := by
  cases a with
  | recv w ok =>
    simp only [workerAct] at h
    split at h
    next conn hw =>
      cases ok with
      | true =>
        obtain ⟨rfl, rfl⟩ := Prod.mk.inj (Option.some.inj h)
        exact .received hm hw
      | false =>
        obtain ⟨rfl, rfl⟩ := Prod.mk.inj (Option.some.inj h)
        exact .recvKills hm hw (Or.inr rfl)
    next hw =>
      obtain ⟨rfl, rfl⟩ := Prod.mk.inj (Option.some.inj h)
      exact .recvKills hm hw (Or.inl rfl)
    next => simp at h
  | send w result =>
    simp only [workerAct] at h
    split at h
    next conn hw =>
      cases result with
      | sent =>
        obtain ⟨rfl, rfl⟩ := Prod.mk.inj (Option.some.inj h)
        exact .sent hm hw
      | failed =>
        obtain ⟨rfl, rfl⟩ := Prod.mk.inj (Option.some.inj h)
        exact .sendFails hm hw (Or.inr rfl)
      | brokenPipe =>
        obtain ⟨rfl, rfl⟩ := Prod.mk.inj (Option.some.inj h)
        exact .sendKills hm hw
    next hw =>
      obtain ⟨rfl, rfl⟩ := Prod.mk.inj (Option.some.inj h)
      exact .sendFails hm hw (Or.inl rfl)
    next => simp at h
  | close w =>
    simp only [workerAct] at h
    split at h
    next fd hw =>
      obtain ⟨rfl, rfl⟩ := Prod.mk.inj (Option.some.inj h)
      exact .closes hm hw
    next => simp at h
  | listen => simp [workerAct] at h
  | accept fd => simp [workerAct] at h
  | advance => simp [workerAct] at h

theorem act_acted {s t : State} {a : Act} {out : List Event}
    (h : act cfg s a = some (t, out)) : Acted cfg s a t out := by
  cases a with
  | listen => exact mainAct_acted h
  | accept fd => exact mainAct_acted h
  | advance => exact mainAct_acted h
  | recv w ok =>
    obtain ⟨hm, h⟩ := Option.ite_none_left_eq_some.mp h
    exact workerAct_acted hm h
  | send w result =>
    obtain ⟨hm, h⟩ := Option.ite_none_left_eq_some.mp h
    exact workerAct_acted hm h
  | close w =>
    obtain ⟨hm, h⟩ := Option.ite_none_left_eq_some.mp h
    exact workerAct_acted hm h

/-- How the loop counters fit the threads created so far. -/
def Main.Fits (cfg : Config) (workers : List Worker) : Main → Prop
  | .starting => workers = []
  | .accepting i => workers.length = i ∧ i ≤ cfg.measured + 1
  | .joining j => workers.length = cfg.measured + 1 ∧ j ≤ cfg.measured + 1 ∧
      ∀ k w, k < j → workers[k]? = some w → w.pc = .done
  | .exited => workers.length = cfg.measured + 1 ∧ ∀ w ∈ workers, w.pc = .done
  | .killed => True

def State.Ok (cfg : Config) (s : State) : Prop :=
  s.main.Fits cfg s.workers

theorem start_ok : start.Ok cfg := rfl

/-- A server that runs has at most one thread for each turn of its loop. -/
theorem length_le {s : State} (hs : s.Ok cfg) (hm : s.main ≠ .killed) :
    s.workers.length ≤ cfg.measured + 1 := by
  cases hm' : s.main <;> simp only [State.Ok, hm', Main.Fits] at hs
  · simp [hs]
  · omega
  · omega
  · omega
  · exact absurd hm' hm

/-- A worker that is not done goes on; what the main thread relies on stays true. -/
theorem setWorker_ok {s : State} (hs : s.Ok cfg) {w : ℕ} {old : Worker} {fd : Option ℕ}
    {pc : WorkerPc} (hw : s.workers[w]? = some old) (hold : old.pc ≠ .done) :
    (s.setWorker w fd pc).Ok cfg := by
  obtain ⟨main, workers⟩ := s
  have hw : workers[w]? = some old := hw
  have hlt : w < workers.length := (List.getElem?_eq_some_iff.mp hw).1
  cases main with
  | starting =>
    obtain rfl : workers = [] := hs
    simp at hlt
  | accepting i => exact ⟨by simpa [State.setWorker] using hs.1, hs.2⟩
  | joining j =>
    refine ⟨by simpa [State.setWorker] using hs.1, hs.2.1, fun k v hk hv => ?_⟩
    have hne : w ≠ k := by
      rintro rfl
      exact hold (hs.2.2 w old hk hw)
    exact hs.2.2 k v hk (by simpa [State.setWorker, hne] using hv)
  | exited => exact absurd (hs.2 old (List.mem_of_getElem? hw)) hold
  | killed => trivial

theorem acted_ok {s t : State} {a : Act} {out : List Event} (hs : s.Ok cfg)
    (h : Acted cfg s a t out) : t.Ok cfg := by
  cases h with
  | listens hm =>
    simp only [State.Ok, hm, Main.Fits] at hs
    exact ⟨by simp [hs], Nat.zero_le _⟩
  | accepts hm hi =>
    simp only [State.Ok, hm, Main.Fits] at hs
    exact ⟨by simp [hs.1], by omega⟩
  | leaves hm hi =>
    simp only [State.Ok, hm, Main.Fits] at hs
    exact ⟨by simp only; omega, Nat.zero_le _, fun k w hk _ => absurd hk (Nat.not_lt_zero k)⟩
  | @joins j w hm hw hdone =>
    simp only [State.Ok, hm, Main.Fits] at hs
    have hlt : j < s.workers.length := (List.getElem?_eq_some_iff.mp hw).1
    refine ⟨hs.1, by omega, fun k v hk hv => ?_⟩
    rcases Nat.lt_succ_iff_lt_or_eq.mp hk with hlt | rfl
    · exact hs.2.2 k v hlt hv
    · obtain rfl := Option.some.inj (hw.symm.trans hv)
      exact hdone
  | @exits j hm hw =>
    simp only [State.Ok, hm, Main.Fits] at hs
    have hge : s.workers.length ≤ j := List.getElem?_eq_none_iff.mp hw
    refine ⟨hs.1, fun v hv => ?_⟩
    obtain ⟨k, hk⟩ := List.mem_iff_getElem?.mp hv
    have hlt : k < s.workers.length := (List.getElem?_eq_some_iff.mp hk).1
    exact hs.2.2 k v (by omega) hk
  | received hm hw => exact setWorker_ok hs hw (by simp)
  | recvKills hm hw hfail => trivial
  | sent hm hw => exact setWorker_ok hs hw (by simp)
  | sendFails hm hw hfail => exact setWorker_ok hs hw (by simp)
  | sendKills hm hw => trivial
  | closes hm hw => exact setWorker_ok hs hw (by simp)

def WorkerPc.rank : WorkerPc → ℕ
  | .receiving => 3
  | .sending => 2
  | .closing => 1
  | .done => 0

def Main.rank (cfg : Config) : Main → ℕ
  | .starting => 5 * (cfg.measured + 1) + (cfg.measured + 4)
  | .accepting i => 5 * (cfg.measured + 1 - i) + (cfg.measured + 3)
  | .joining j => cfg.measured + 2 - j
  | .exited => 0
  | .killed => 0

/-- A bound on the steps that the server can still make. -/
def State.rank (cfg : Config) (s : State) : ℕ :=
  s.main.rank cfg + total (fun w => w.pc.rank) s.workers

theorem setWorker_rank {s : State} {w : ℕ} {fd : Option ℕ} {old new : WorkerPc}
    (hw : s.workers[w]? = some ⟨fd, old⟩) (h : new.rank < old.rank) :
    (s.setWorker w fd new).rank cfg < s.rank cfg := by
  have htotal := total_set (fun w : Worker => w.pc.rank) (b := ⟨fd, new⟩) hw
  simp only [State.rank, State.setWorker]
  simp only at htotal
  omega

theorem kill_rank {s : State} (hs : s.Ok cfg) (hm : s.main ≠ .killed) {w : ℕ} {old : Worker}
    (hw : s.workers[w]? = some old) (hold : old.pc ≠ .done) :
    State.rank cfg { s with main := .killed } < s.rank cfg := by
  have hpos : 0 < s.main.rank cfg := by
    cases hm' : s.main with
    | starting => simp [Main.rank]
    | accepting i => simp [Main.rank]
    | joining j =>
      simp only [State.Ok, hm', Main.Fits] at hs
      simp only [Main.rank]
      omega
    | exited =>
      simp only [State.Ok, hm', Main.Fits] at hs
      exact absurd (hs.2 old (List.mem_of_getElem? hw)) hold
    | killed => exact absurd hm' hm
  exact Nat.add_lt_add_right hpos _

/-- Every act takes the server nearer to its end. -/
theorem acted_rank {s t : State} {a : Act} {out : List Event} (hs : s.Ok cfg)
    (h : Acted cfg s a t out) : t.rank cfg < s.rank cfg := by
  cases h with
  | listens hm =>
    simp only [State.rank, hm, Main.rank]
    omega
  | @accepts i fd hm hi =>
    have hfirst : cfg.service.first.rank ≤ 3 := by
      cases cfg.service <;> simp [Service.first, WorkerPc.rank]
    have hnew : total (fun w : Worker => w.pc.rank) [⟨fd, cfg.service.first⟩] ≤ 3 := by
      simpa [total] using hfirst
    simp only [State.rank, hm, Main.rank, total_append]
    omega
  | leaves hm hi =>
    simp only [State.rank, hm, Main.rank]
    omega
  | joins hm hw hdone =>
    simp only [State.Ok, hm, Main.Fits] at hs
    have hlt := (List.getElem?_eq_some_iff.mp hw).1
    simp only [State.rank, hm, Main.rank]
    omega
  | exits hm hw =>
    simp only [State.Ok, hm, Main.Fits] at hs
    simp only [State.rank, hm, Main.rank]
    omega
  | received hm hw => exact setWorker_rank hw (by simp [WorkerPc.rank])
  | recvKills hm hw hfail => exact kill_rank hs hm hw (by simp)
  | sent hm hw => exact setWorker_rank hw (by simp [WorkerPc.rank])
  | sendFails hm hw hfail => exact setWorker_rank hw (by simp [WorkerPc.rank])
  | sendKills hm hw => exact kill_rank hs hm hw (by simp)
  | closes hm hw => exact setWorker_rank hw (by simp [WorkerPc.rank])

end SysPerf.Server
