import SysPerf.SessionServing

namespace SysPerf.FailingSession

open Server (Config Service Act Acted)
open Session (Call Client listening firstCall)

/-- How a system call ends: as the other side lets it, with -1 (`send` also with a part of the
message), or with the signal for a `send` to a side that is closed. -/
inductive Ending
  | succeeds
  | fails
  | breaks
  deriving DecidableEq

/-- In `aborts` an `accept` fails and its connection is lost. -/
inductive Move
  | client (e : Ending)
  | server (ok : Bool)
  | aborts
  | worker (w : ℕ) (e : Ending)
  deriving DecidableEq

/-- `refused` is a measured call whose `connect` fails, `missed` an `accept` that fails without a
connection, `aborted` one that fails with it. -/
inductive Event
  | session (e : Session.Event)
  | refused
  | missed
  | aborted (conn : ℕ)
  deriving DecidableEq

/-- The client may have left by `exit(1)` or a signal; `dropped` are the aborted connections. -/
structure State where
  session : Session.State
  exited : Bool
  dropped : List ℕ

def ended : Server.Main → Bool
  | .exited => true
  | .killed => true
  | _ => false

/-- The server's side of the connection is closed. -/
def State.hungUp (s : State) (conn : ℕ) : Bool :=
  ended s.session.server.main || decide (conn ∈ s.dropped) ||
    decide (⟨some conn, .done⟩ ∈ s.session.server.workers)

/-- The client's side of the connection is closed. -/
def State.left (s : State) (conn : ℕ) : Bool :=
  s.exited || decide (s.session.client.conn? ≠ some conn)

def State.setClient (s : State) (client : Client) : State :=
  { s with session := { s.session with client := client } }

def State.setServer (s : State) (server : Server.State) : State :=
  { s with session := { s.session with server := server } }

def refusal : Client → List Event
  | .measuring _ _ _ => [.refused]
  | _ => []

/-- `create_client` returns false; its caller looks at that in the first loop only. -/
def State.refuse (s : State) : State × List Event :=
  (s.setClient (s.session.client.resume false), refusal s.session.client)

def State.inSession (s : State) (step : Option (Session.State × List Session.Event)) :
    Option (State × List Event) :=
  step.map fun p => ({ s with session := p.1 }, p.2.map .session)

/-- A `recv` of the client returns when it has the whole reply or the server's side is closed. A
`send` that fails is only printed, a `recv` that fails is followed by `exit(1)`. -/
def callStep (cfg : Config) (s : State) : Call → Ending → Option (State × List Event)
  | .connecting, .succeeds =>
    if listening s.session.server then s.inSession (Session.callStep cfg s.session .connecting)
    else some s.refuse
  | .connecting, .fails => some s.refuse
  | .sending conn, .succeeds => s.inSession (Session.callStep cfg s.session (.sending conn))
  | .sending conn, .fails => some (s.setClient (s.session.client.setCall (.receiving conn)), [])
  | .sending conn, .breaks => if s.hungUp conn then some ({ s with exited := true }, []) else none
  | .receiving conn, .succeeds =>
    if s.session.replied conn || s.hungUp conn then
      some (s.setClient (s.session.client.setCall (.closing conn)), [])
    else none
  | .receiving _, .fails => some ({ s with exited := true }, [])
  | .closing conn, .succeeds => s.inSession (Session.callStep cfg s.session (.closing conn))
  | _, _ => none

def clientStep (cfg : Config) (s : State) (e : Ending) : Option (State × List Event) :=
  if s.exited then none
  else
    match s.session.client.call? with
    | some call => callStep cfg s call e
    | none => if e = .succeeds then s.inSession (Session.clientStep cfg s.session) else none

/-- Where `bind` or `listen` fails the server exits; an `accept` that fails is only printed. -/
def serverStep (cfg : Config) (s : State) (ok : Bool) : Option (State × List Event) :=
  if ok then s.inSession (Session.serverStep cfg s.session)
  else
    match s.session.server.main with
    | .starting => some (s.setServer { s.session.server with main := .killed }, [])
    | _ => (Server.act cfg s.session.server (.accept none)).map fun p =>
        (s.setServer p.1, [.missed])

def abortStep (cfg : Config) (s : State) : Option (State × List Event) :=
  match s.session.backlog with
  | conn :: rest => (Server.act cfg s.session.server (.accept none)).map fun p =>
      ({ s with
        session := { s.session with server := p.1, backlog := rest }
        dropped := conn :: s.dropped }, [.aborted conn])
  | [] => none

def State.act (cfg : Config) (s : State) (a : Act) : Option (State × List Event) :=
  (Server.act cfg s.session.server a).map fun p => (s.setServer p.1, [])

/-- A `recv` of a worker returns when it has the whole message or the client's side is closed. On
the descriptor -1 every call returns -1 at once. -/
def workerStep (cfg : Config) (s : State) (w : ℕ) (e : Ending) : Option (State × List Event) :=
  match s.session.server.workers[w]?, e with
  | some ⟨some conn, .receiving⟩, .succeeds =>
    if s.session.requested conn || s.left conn then s.act cfg (.recv w true) else none
  | some ⟨some _, .receiving⟩, .fails => s.act cfg (.recv w false)
  | some ⟨some conn, .sending⟩, .succeeds =>
    State.act cfg { s with session := { s.session with
      replied := Function.update s.session.replied conn true } } (.send w .sent)
  | some ⟨some _, .sending⟩, .fails => s.act cfg (.send w .failed)
  | some ⟨some conn, .sending⟩, .breaks =>
    if s.left conn then s.act cfg (.send w .brokenPipe) else none
  | some ⟨none, .receiving⟩, .succeeds => s.act cfg (.recv w false)
  | some ⟨none, .sending⟩, .succeeds => s.act cfg (.send w .failed)
  | some ⟨_, .closing⟩, .succeeds => s.act cfg (.close w)
  | _, _ => none

def step (cfg : Config) (s : State) : Move → Option (State × List Event)
  | .client e => clientStep cfg s e
  | .server ok => serverStep cfg s ok
  | .aborts => abortStep cfg s
  | .worker w e => workerStep cfg s w e

def start : State :=
  ⟨Session.start, false, []⟩

/-- The program after its `fork`, with calls that may fail on both sides. -/
def failingSession (cfg : Config) : Machine State Move Event where
  init := start
  step := step cfg

/-- The call under way does not fail by itself. -/
def Move.ok : Move → Bool
  | .client e => decide (e = .succeeds)
  | .server ok => ok
  | .aborts => false
  | .worker _ e => decide (e = .succeeds)

/-- Nothing goes on unless a call fails. -/
def Blocked (cfg : Config) (s : State) : Prop :=
  ∀ e : Move, e.ok = true → step cfg s e = none

def Event.completed? : Event → Option ℕ
  | .session (.completed conn) => some conn
  | _ => none

/-- The connections of the calls that returned `true`. -/
def completed (tr : List Event) : List ℕ :=
  tr.filterMap Event.completed?

end SysPerf.FailingSession
