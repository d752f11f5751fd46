import SysPerf.ServerActs

namespace SysPerf.Session

open Server (Config Service Act)

/-- A call of `create_client`, with the connection once `connect` has made one. -/
inductive Call
  | connecting
  | sending (conn : ℕ)
  | receiving (conn : ℕ)
  | closing (conn : ℕ)
  deriving DecidableEq

/-- The parent process: in the loop that waits for the server, at the head of the loop of
`measure_rtt` or `measure_bw`, in a call that this loop makes, or in `wait(NULL)`. -/
inductive Client
  | probing (call : Call)
  | looping (run i : ℕ)
  | measuring (run i : ℕ) (call : Call)
  | waiting
  | finished
  deriving DecidableEq

/-- `made` counts the connections, `backlog` holds those that no `accept` has returned.
`requested` and `replied` tell which of them have the client's and the server's message. -/
structure State where
  server : Server.State
  client : Client
  made : ℕ
  backlog : List ℕ
  requested : ℕ → Bool
  replied : ℕ → Bool

inductive Move
  | client
  | server
  | worker (w : ℕ)
  deriving DecidableEq

inductive Event
  | accepted (conn : ℕ)
  | completed (conn : ℕ)
  deriving DecidableEq

/-- The kernel takes connections from `listen` until the socket goes with its process. -/
def listening (server : Server.State) : Bool :=
  match server.main with
  | .accepting _ => true
  | .joining _ => true
  | _ => false

def Client.call? : Client → Option Call
  | .probing call => some call
  | .measuring _ _ call => some call
  | _ => none

def Client.setCall (client : Client) (call : Call) : Client :=
  match client with
  | .probing _ => .probing call
  | .measuring run i _ => .measuring run i call
  | _ => client

/-- What follows when `create_client` returns `ok`, which only the first loop looks at. -/
def Client.resume (client : Client) (ok : Bool) : Client :=
  match client with
  | .probing _ => if ok then .looping 0 0 else .probing .connecting
  | .measuring run i _ => .looping run (i + 1)
  | _ => client

/-- Where a client of the service goes on once it is connected. -/
def firstCall (service : Service) (conn : ℕ) : Call :=
  match service with
  | .echo => .sending conn
  | .push => .receiving conn

def callStep (cfg : Config) (s : State) : Call → Option (State × List Event)
  | .connecting =>
    if listening s.server then
      some ({ s with
        client := s.client.setCall (firstCall cfg.service s.made)
        made := s.made + 1
        backlog := s.backlog ++ [s.made] }, [])
    else some ({ s with client := s.client.resume false }, [])
  | .sending conn =>
    some ({ s with
      client := s.client.setCall (.receiving conn)
      requested := Function.update s.requested conn true }, [])
  | .receiving conn =>
    if s.replied conn then some ({ s with client := s.client.setCall (.closing conn) }, [])
    else none
  | .closing conn => some ({ s with client := s.client.resume true }, [.completed conn])

def clientStep (cfg : Config) (s : State) : Option (State × List Event) :=
  match s.client with
  | .probing call => callStep cfg s call
  | .measuring _ _ call => callStep cfg s call
  | .looping run i =>
    if run < cfg.iterations then
      if i < cfg.requests then some ({ s with client := .measuring run i .connecting }, [])
      else some ({ s with client := .looping (run + 1) 0 }, [])
    else some ({ s with client := .waiting }, [])
  | .waiting =>
    match s.server.main with
    | .exited => some ({ s with client := .finished }, [])
    | .killed => some ({ s with client := .finished }, [])
    | _ => none
  | .finished => none

def State.withServer (s : State) (step : Option (Server.State × List Server.Event))
    (out : List Event) : Option (State × List Event) :=
  step.map fun (server, _) => ({ s with server := server }, out)

def serverStep (cfg : Config) (s : State) : Option (State × List Event) :=
  match s.server.main with
  | .starting => s.withServer (Server.act cfg s.server .listen) []
  | .accepting i =>
    if i ≤ cfg.measured then
      match s.backlog with
      | conn :: rest =>
        { s with backlog := rest }.withServer (Server.act cfg s.server (.accept (some conn)))
          [.accepted conn]
      | [] => none
    else s.withServer (Server.act cfg s.server .advance) []
  | _ => s.withServer (Server.act cfg s.server .advance) []

/-- The calls of a worker succeed; its `recv` waits for the whole message of the client. -/
def workerStep (cfg : Config) (s : State) (w : ℕ) : Option (State × List Event) :=
  match s.server.workers[w]? with
  | some ⟨some conn, .receiving⟩ =>
    if s.requested conn then s.withServer (Server.act cfg s.server (.recv w true)) [] else none
  | some ⟨some conn, .sending⟩ =>
    { s with replied := Function.update s.replied conn true }.withServer
      (Server.act cfg s.server (.send w .sent)) []
  | some ⟨some _, .closing⟩ => s.withServer (Server.act cfg s.server (.close w)) []
  | _ => none

def step (cfg : Config) (s : State) : Move → Option (State × List Event)
  | .client => clientStep cfg s
  | .server => serverStep cfg s
  | .worker w => workerStep cfg s w

def start : State :=
  ⟨Server.start, .probing .connecting, 0, [], fun _ => false, fun _ => false⟩

/-- The program after its `fork`, with transfers that succeed once the server listens. -/
def session (cfg : Config) : Machine State Move Event where
  init := start
  step := step cfg

/-- The connections that `accept` has returned, in order. -/
def accepted (tr : List Event) : List ℕ :=
  tr.filterMap fun
    | .accepted conn => some conn
    | .completed _ => none

/-- The connections of the calls that returned `true`, in order. -/
def completed (tr : List Event) : List ℕ :=
  tr.filterMap fun
    | .accepted _ => none
    | .completed conn => some conn

/-- The connection that the call holds. -/
def Call.conn? : Call → Option ℕ
  | .connecting => none
  | .sending conn => some conn
  | .receiving conn => some conn
  | .closing conn => some conn

def Client.conn? (client : Client) : Option ℕ :=
  client.call?.bind Call.conn?

/-- How many calls have returned when the client is at this point, refused ones apart. -/
def Client.returned (cfg : Config) : Client → ℕ
  | .probing _ => 0
  | .looping run i => run * cfg.requests + i + 1
  | .measuring run i _ => run * cfg.requests + i + 1
  | .waiting => cfg.measured + 1
  | .finished => cfg.measured + 1

end SysPerf.Session
