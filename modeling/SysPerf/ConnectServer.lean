import SysPerf.Machine

namespace SysPerf.ConnectServer

/-- The process of server.cpp: before `listen` has returned, in `accept`, with a connection that it
closes next, or past its `exit`. -/
inductive Server
  | opening
  | accepting
  | closing (conn : ℕ)
  | exited
  deriving DecidableEq

/-- A process of client_setup.cpp or client_teardown.cpp with the number of its finished samples: at
the head of the loop of `run_func`, with its socket, behind `connect`, which has made the connection
or failed, at its end, or past its `exit`. -/
inductive Client
  | looping (i : ℕ)
  | opened (i : ℕ)
  | connected (i : ℕ) (conn : Option ℕ)
  | finished (i : ℕ)
  | failed (i : ℕ)
  deriving DecidableEq

/-- `get_setup_overhead_time` has its timer around `connect`, `get_teardown_overhead_time` around
`close`. -/
inductive Timed
  | connect
  | close
  deriving DecidableEq

/-- What the clients measure, `N_RUNS`, and how many connections the kernel keeps for `accept`. -/
structure Config where
  clients : List Timed
  nRuns : ℕ
  capacity : ℕ

/-- `made` counts the connections and `backlog` holds those that no `accept` has returned. -/
structure State where
  server : Server
  clients : List Client
  made : ℕ
  backlog : List ℕ
  deriving DecidableEq

/-- A move in which the call under way succeeds or, with `ok = false`, returns -1. -/
inductive Move
  | server (ok : Bool)
  | client (k : ℕ) (ok : Bool)
  deriving DecidableEq

/-- `sampled` is a value that client `k` takes of the timed call on its connection. -/
inductive Event
  | connected (k : ℕ) (conn : Option ℕ)
  | sampled (k : ℕ) (timed : Timed) (conn : Option ℕ)
  | accepted (conn : ℕ)
  | closed (conn : ℕ)
  deriving DecidableEq

def listening : Server → Bool
  | .accepting => true
  | .closing _ => true
  | _ => false

/-- The kernel resets what is in the backlog. -/
def State.exit (s : State) : State :=
  { s with server := .exited, backlog := [] }

def serverStep (s : State) (ok : Bool) : Option (State × List Event) :=
  match s.server with
  | .opening => some (if ok then { s with server := .accepting } else s.exit, [])
  | .accepting =>
    if ok then
      match s.backlog with
      | conn :: rest => some ({ s with server := .closing conn, backlog := rest }, [.accepted conn])
      | [] => none
    else some (s.exit, [])
  | .closing conn => some ({ s with server := .accepting }, [.closed conn])
  | .exited => none

def State.setClient (s : State) (k : ℕ) (c : Client) : State :=
  { s with clients := s.clients.set k c }

/-- `connect` waits for room in the backlog of a server that listens and fails if there is none; it
may also fail by itself. -/
def clientStep (cfg : Config) (s : State) (k : ℕ) (ok : Bool) : Option (State × List Event) :=
  s.clients[k]?.bind fun
    | .looping i =>
      if i < cfg.nRuns then some (s.setClient k (if ok then .opened i else .failed i), [])
      else some (s.setClient k (.finished i), [])
    | .opened i =>
      if ok && listening s.server then
        if s.backlog.length < cfg.capacity then
          some ({ s.setClient k (.connected i (some s.made)) with
            made := s.made + 1
            backlog := s.backlog ++ [s.made] }, [.connected k (some s.made)])
        else none
      else some (s.setClient k (.connected i none), [.connected k none])
    | .connected i conn =>
      cfg.clients[k]?.map fun timed =>
        (s.setClient k (.looping (i + 1)), [.sampled k timed conn])
    | .finished _ => none
    | .failed _ => none

def step (cfg : Config) (s : State) : Move → Option (State × List Event)
  | .server ok => serverStep s ok
  | .client k ok => clientStep cfg s k ok

/-- The server and any number of clients of both kinds, on one host or on two. -/
def network (cfg : Config) : Machine State Move Event where
  init := ⟨.opening, cfg.clients.map fun _ => .looping 0, 0, []⟩
  step := step cfg

def Move.ok : Move → Bool
  | .server ok => ok
  | .client _ ok => ok

def Event.accepted? : Event → Option ℕ
  | .accepted conn => some conn
  | _ => none

def Event.closed? : Event → Option ℕ
  | .closed conn => some conn
  | _ => none

def Event.made? : Event → Option ℕ
  | .connected _ conn => conn
  | _ => none

def Event.connected? (k : ℕ) : Event → Option (Option ℕ)
  | .connected j conn => if j = k then some conn else none
  | _ => none

def Event.sampled? (k : ℕ) : Event → Option (Option ℕ)
  | .sampled j _ conn => if j = k then some conn else none
  | _ => none

/-- The connections in the order in which they were made, accepted and closed by the server. -/
def made (tr : List Event) : List ℕ :=
  tr.filterMap Event.made?

def accepted (tr : List Event) : List ℕ :=
  tr.filterMap Event.accepted?

def closed (tr : List Event) : List ℕ :=
  tr.filterMap Event.closed?

/-- What `connect` gave client `k` each time, and what its samples were taken of. -/
def connects (k : ℕ) (tr : List Event) : List (Option ℕ) :=
  tr.filterMap (Event.connected? k)

def samples (k : ℕ) (tr : List Event) : List (Option ℕ) :=
  tr.filterMap (Event.sampled? k)

/-- The connection that the server has open. -/
def Server.current : Server → List ℕ
  | .closing conn => [conn]
  | _ => []

def Client.count : Client → ℕ
  | .looping i => i
  | .opened i => i
  | .connected i _ => i
  | .finished i => i
  | .failed i => i

/-- What the client has of a `connect` without a sample so far. -/
def Client.pending : Client → List (Option ℕ)
  | .connected _ conn => [conn]
  | _ => []

def Client.ended : Client → Bool
  | .finished _ => true
  | .failed _ => true
  | _ => false

/-- What is left to do for a client, with the `accept` and the `close` of each of its
connections. -/
def Client.rank (cfg : Config) : Client → ℕ
  | .looping i => 5 * (cfg.nRuns - i) + 1
  | .opened i => 5 * (cfg.nRuns - i)
  | .connected i _ => 5 * (cfg.nRuns - i) - 3
  | .finished _ => 0
  | .failed _ => 0

def Server.rank : Server → ℕ
  | .opening => 3
  | .accepting => 2
  | .closing _ => 3
  | .exited => 0

def State.rank (cfg : Config) (s : State) : ℕ :=
  s.server.rank + 2 * s.backlog.length + total (Client.rank cfg) s.clients

end SysPerf.ConnectServer
