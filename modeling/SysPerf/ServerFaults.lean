import SysPerf.ServerActs

namespace SysPerf.Server

/-- What the system calls return: `accept` in the turn `i` of the loop, and `recv` and `send`
in the worker created there. -/
structure Faults where
  accept : ℕ → Bool
  recv : ℕ → Bool
  send : ℕ → SendResult

inductive Move
  | main
  | worker (w : ℕ)
  deriving DecidableEq

def mainMove (cfg : Config) (f : Faults) (s : State) : Option (State × List Event) :=
  match s.main with
  | .starting => act cfg s .listen
  | .accepting i =>
    if i ≤ cfg.measured then act cfg s (.accept (if f.accept i then some i else none))
    else act cfg s .advance
  | _ => act cfg s .advance

def workerMove (cfg : Config) (f : Faults) (s : State) (w : ℕ) : Option (State × List Event) :=
  match s.workers[w]? with
  | some ⟨_, .receiving⟩ => act cfg s (.recv w (f.recv w))
  | some ⟨_, .sending⟩ => act cfg s (.send w (f.send w))
  | some ⟨_, .closing⟩ => act cfg s (.close w)
  | _ => none

def step (cfg : Config) (f : Faults) (s : State) : Move → Option (State × List Event)
  | .main => mainMove cfg f s
  | .worker w => workerMove cfg f s w

/-- `create_server` where there is always another connection to accept; the one accepted in the
turn `i` is called `i`. -/
def createServer (cfg : Config) (f : Faults) : Machine State Move Event where
  init := start
  step := step cfg f

/-- The real connections that were accepted, in order. -/
def accepted (tr : List Event) : List ℕ :=
  tr.filterMap fun
    | .accepted conn => some conn
    | .replied _ => none

/-- Nothing that fails for one connection is felt by another one. -/
structure Isolated (cfg : Config) (f : Faults) : Prop where
  running : ∀ {tr s}, Reach (createServer cfg f) tr s → s.main ≠ .killed
  accepts : ∀ {tr s}, Reach (createServer cfg f) tr s → Stuck (createServer cfg f) s →
    (accepted tr).length = cfg.measured + 1
  replies : ∀ {tr s}, Reach (createServer cfg f) tr s → Stuck (createServer cfg f) s →
    ∀ conn ∈ accepted tr, (cfg.service = .echo → f.recv conn = true) → f.send conn = .sent →
      .replied conn ∈ tr

/-- No failure that the server would not survive befalls one of its connections. -/
def Faults.Benign (cfg : Config) (f : Faults) : Prop :=
  ∀ i ≤ cfg.measured, f.accept i = true ∧ (cfg.service = .echo → f.recv i = true) ∧
    f.send i ≠ .brokenPipe

variable {cfg : Config} {f : Faults}

/-- The results that an act of the server names are those of the pattern. -/
def Named (f : Faults) (s : State) : Act → Prop
  | .accept fd => ∃ i, s.main = .accepting i ∧ fd = if f.accept i then some i else none
  | .recv w ok => ok = f.recv w
  | .send w result => result = f.send w
  | _ => True

theorem step_acted {s t : State} {e : Move} {out : List Event}
    (h : step cfg f s e = some (t, out)) : ∃ a, Named f s a ∧ Acted cfg s a t out := by
  cases e with
  | main =>
    simp only [step, mainMove] at h
    split at h
    next hm => exact ⟨.listen, trivial, act_acted h⟩
    next i hm =>
      split at h
      next => exact ⟨.accept _, ⟨i, hm, rfl⟩, act_acted h⟩
      next => exact ⟨.advance, trivial, act_acted h⟩
    next => exact ⟨.advance, trivial, act_acted h⟩
  | worker w =>
    simp only [step, workerMove] at h
    split at h
    next => exact ⟨.recv w _, rfl, act_acted h⟩
    next => exact ⟨.send w _, rfl, act_acted h⟩
    next => exact ⟨.close w, trivial, act_acted h⟩
    next => simp at h

theorem create_server_ok {tr : List Event} {s : State} (h : Reach (createServer cfg f) tr s) :
    s.Ok cfg := by
  refine h.invariant start_ok ?_
  intro s e t out hs hstep
  obtain ⟨a, _, hacted⟩ := step_acted hstep
  exact acted_ok hs hacted

/-- Every run of the server can be prolonged to one that has come to its end. -/
theorem create_server_ends {tr : List Event} {s : State} (h : Reach (createServer cfg f) tr s) :
    ∃ more t, Reach (createServer cfg f) (tr ++ more) t ∧ Stuck (createServer cfg f) t := by
  obtain ⟨more, t, ht, _, hstuck⟩ := h.exists_stuck (State.rank cfg) (State.Ok cfg)
    (by
      intro s e t out hs hstep
      obtain ⟨a, _, hacted⟩ := step_acted hstep
      exact ⟨acted_ok hs hacted, acted_rank hs hacted⟩)
    (create_server_ok h)
  exact ⟨more, t, ht, hstuck⟩

theorem worker_moves {s : State} (hm : s.main ≠ .killed) {w : ℕ} {v : Worker}
    (hw : s.workers[w]? = some v) (hv : v.pc ≠ .done) : workerMove cfg f s w ≠ none := by
  obtain ⟨fd, pc⟩ := v
  cases pc with
  | receiving =>
    cases fd <;> cases hr : f.recv w <;> simp [workerMove, act, workerAct, hw, hm, hr]
  | sending =>
    cases fd <;> cases hr : f.send w <;> simp [workerMove, act, workerAct, hw, hm, hr]
  | closing => simp [workerMove, act, workerAct, hw, hm]
  | done => exact absurd rfl hv

/-- The server comes to its end when it exits and when it is killed, never before. -/
theorem stuck_cases {s : State} (hstuck : Stuck (createServer cfg f) s) :
    s.main = .exited ∨ s.main = .killed := by
  have hmain : mainMove cfg f s = none := hstuck .main
  cases hm : s.main with
  | starting => simp [mainMove, act, mainAct, hm] at hmain
  | accepting i =>
    by_cases hi : i ≤ cfg.measured
    · simp [mainMove, act, mainAct, hm, hi] at hmain
    · simp [mainMove, act, mainAct, hm, hi] at hmain
  | joining j =>
    cases hw : s.workers[j]? with
    | none => simp [mainMove, act, mainAct, hm, hw] at hmain
    | some v =>
      by_cases hv : v.pc = .done
      · simp [mainMove, act, mainAct, hm, hw, hv] at hmain
      · exact absurd (hstuck (.worker j)) (worker_moves (by simp [hm]) hw hv)
  | exited => exact Or.inl rfl
  | killed => exact Or.inr rfl

end SysPerf.Server
