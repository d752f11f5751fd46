import SysPerf.Machine

namespace SysPerf.Server

/-- The worker of rtt.cpp and remote_rtt.cpp echoes what it receives, the one of bw.cpp sends
at once. -/
inductive Service
  | echo
  | push
  deriving DecidableEq

/-- `REQUESTS` and `ITERATIONS`. -/
structure Config where
  service : Service
  requests : ℕ
  iterations : ℕ
  deriving DecidableEq

/-- `REQUESTS*ITERATIONS` of constants whose product is an int; `IntSession.more` has the test of the
accept loop for all others too. -/
def Config.measured (cfg : Config) : ℕ :=
  cfg.requests * cfg.iterations

inductive WorkerPc
  | receiving
  | sending
  | closing
  | done
  deriving DecidableEq

/-- The descriptor is `none` for the -1 of a failed `accept`. -/
structure Worker where
  fd : Option ℕ
  pc : WorkerPc
  deriving DecidableEq

def Service.first : Service → WorkerPc
  | .echo => .receiving
  | .push => .sending

/-- The main thread of `create_server`: before `listen` has returned, in the accept loop or in
the loop of joins. `killed` is an `exit(1)` of a worker or a signal. -/
inductive Main
  | starting
  | accepting (i : ℕ)
  | joining (j : ℕ)
  | exited
  | killed
  deriving DecidableEq

structure State where
  main : Main
  workers : List Worker
  deriving DecidableEq

/-- How `send` ends: a `send` to a connection that the peer has reset raises `SIGPIPE`. -/
inductive SendResult
  | sent
  | failed
  | brokenPipe
  deriving DecidableEq

/-- The steps of the server, with what the system calls in them return. -/
inductive Act
  | listen
  | accept (fd : Option ℕ)
  | advance
  | recv (w : ℕ) (ok : Bool)
  | send (w : ℕ) (result : SendResult)
  | close (w : ℕ)
  deriving DecidableEq

inductive Event
  | accepted (conn : ℕ)
  | replied (conn : ℕ)
  deriving DecidableEq

def State.setWorker (s : State) (w : ℕ) (fd : Option ℕ) (pc : WorkerPc) : State :=
  { s with workers := s.workers.set w ⟨fd, pc⟩ }

def acceptedEvent : Option ℕ → List Event
  | some conn => [.accepted conn]
  | none => []

def mainAct (cfg : Config) (s : State) : Act → Option (State × List Event)
  | .listen =>
    match s.main with
    | .starting => some ({ s with main := .accepting 0 }, [])
    | _ => none
  | .accept fd =>
    match s.main with
    | .accepting i =>
      if i ≤ cfg.measured then
        some (⟨.accepting (i + 1), s.workers ++ [⟨fd, cfg.service.first⟩]⟩, acceptedEvent fd)
      else none
    | _ => none
  | .advance =>
    match s.main with
    | .accepting i => if i ≤ cfg.measured then none else some ({ s with main := .joining 0 }, [])
    | .joining j =>
      match s.workers[j]? with
      | some w => if w.pc = .done then some ({ s with main := .joining (j + 1) }, []) else none
      | none => some ({ s with main := .exited }, [])
    | _ => none
  | _ => none

/-- A worker's turn. `recv` and `send` fail on the descriptor -1, whatever the result named. -/
def workerAct (s : State) : Act → Option (State × List Event)
  | .recv w ok =>
    match s.workers[w]? with
    | some ⟨some conn, .receiving⟩ =>
      if ok then some (s.setWorker w (some conn) .sending, [])
      else some ({ s with main := .killed }, [])
    | some ⟨none, .receiving⟩ => some ({ s with main := .killed }, [])
    | _ => none
  | .send w result =>
    match s.workers[w]? with
    | some ⟨some conn, .sending⟩ =>
      match result with
      | .sent => some (s.setWorker w (some conn) .closing, [.replied conn])
      | .failed => some (s.setWorker w (some conn) .closing, [])
      | .brokenPipe => some ({ s with main := .killed }, [])
    | some ⟨none, .sending⟩ => some (s.setWorker w none .closing, [])
    | _ => none
  | .close w =>
    match s.workers[w]? with
    | some ⟨fd, .closing⟩ => some (s.setWorker w fd .done, [])
    | _ => none
  | _ => none

def act (cfg : Config) (s : State) (a : Act) : Option (State × List Event) :=
  match a with
  | .listen => mainAct cfg s a
  | .accept _ => mainAct cfg s a
  | .advance => mainAct cfg s a
  | .recv _ _ => if s.main = .killed then none else workerAct s a
  | .send _ _ => if s.main = .killed then none else workerAct s a
  | .close _ => if s.main = .killed then none else workerAct s a

def start : State :=
  ⟨.starting, []⟩

/-- What an act does, one constructor for each way it can end. -/
inductive Acted (cfg : Config) (s : State) : Act → State → List Event → Prop
  | listens : s.main = .starting → Acted cfg s .listen { s with main := .accepting 0 } []
  | accepts {i fd} : s.main = .accepting i → i ≤ cfg.measured → Acted cfg s (.accept fd)
      ⟨.accepting (i + 1), s.workers ++ [⟨fd, cfg.service.first⟩]⟩ (acceptedEvent fd)
  | leaves {i} : s.main = .accepting i → ¬i ≤ cfg.measured →
      Acted cfg s .advance { s with main := .joining 0 } []
  | joins {j w} : s.main = .joining j → s.workers[j]? = some w → w.pc = .done →
      Acted cfg s .advance { s with main := .joining (j + 1) } []
  | exits {j} : s.main = .joining j → s.workers[j]? = none →
      Acted cfg s .advance { s with main := .exited } []
  | received {w conn} : s.main ≠ .killed → s.workers[w]? = some ⟨some conn, .receiving⟩ →
      Acted cfg s (.recv w true) (s.setWorker w (some conn) .sending) []
  | recvKills {w fd ok} : s.main ≠ .killed → s.workers[w]? = some ⟨fd, .receiving⟩ →
      (fd = none ∨ ok = false) → Acted cfg s (.recv w ok) { s with main := .killed } []
  | sent {w conn} : s.main ≠ .killed → s.workers[w]? = some ⟨some conn, .sending⟩ →
      Acted cfg s (.send w .sent) (s.setWorker w (some conn) .closing) [.replied conn]
  | sendFails {w fd result} : s.main ≠ .killed → s.workers[w]? = some ⟨fd, .sending⟩ →
      (fd = none ∨ result = .failed) → Acted cfg s (.send w result) (s.setWorker w fd .closing) []
  | sendKills {w conn} : s.main ≠ .killed → s.workers[w]? = some ⟨some conn, .sending⟩ →
      Acted cfg s (.send w .brokenPipe) { s with main := .killed } []
  | closes {w fd} : s.main ≠ .killed → s.workers[w]? = some ⟨fd, .closing⟩ →
      Acted cfg s (.close w) (s.setWorker w fd .done) []

end SysPerf.Server
