import SysPerf.MachineInt
import SysPerf.SessionAccounting

namespace SysPerf.IntSession

open MachineInt
open Server (Config Service)
open Session (State Move Event accepted completed)

/-- The test `i <= REQUESTS*ITERATIONS` of the accept loop after `i` turns. Both sides are ints:
what does not fit is undefined in the language, and here it is taken modulo `2 ^ 32`. -/
def more (cfg : Config) (i : ℕ) : Bool :=
  decide (toInt i ≤ toInt (cfg.requests * cfg.iterations))

/-- The main thread of `create_server`. -/
def serverStep (cfg : Config) (s : State) : Option (State × List Event) :=
  match s.server.main with
  | .accepting i =>
    if more cfg i then
      match s.backlog with
      | conn :: rest =>
        some ({ s with
          server := ⟨.accepting (i + 1), s.server.workers ++ [⟨some conn, cfg.service.first⟩]⟩
          backlog := rest }, [.accepted conn])
      | [] => none
    else some ({ s with server := { s.server with main := .joining 0 } }, [])
  | _ => Session.serverStep cfg s

def step (cfg : Config) (s : State) : Move → Option (State × List Event)
  | .client => Session.clientStep cfg s
  | .server => serverStep cfg s
  | .worker w => Session.workerStep cfg s w

/-- The session with an accept loop that counts in ints. -/
def session (cfg : Config) : Machine State Move Event where
  init := Session.start
  step := step cfg

/-- What the two sides owe each other in a reachable state. -/
structure Accounted (cfg : Config) (tr : List Event) (s : State) : Prop where
  moves : s.client ≠ .finished → ¬Stuck (session cfg) s
  balance : (completed tr).length ≤ (accepted tr).length
  replied : ∀ conn ∈ completed tr, s.replied conn = true
  counts : s.client = .waiting ∨ s.client = .finished →
    accepted tr = List.range (cfg.requests * cfg.iterations + 1) ∧
      completed tr = List.range (cfg.requests * cfg.iterations + 1) ∧
      ∀ conn < s.made, s.replied conn = true
  leaves : s.client = .waiting → (∃ i, s.server.main = .accepting i ∧ more cfg i = false) ∨
    (∃ j, s.server.main = .joining j) ∨ s.server.main = .exited
  bounded : s.client = .waiting → ∃ bound, ∀ es t out,
    (session cfg).exec s es = some (t, out) → es.length ≤ bound
  finished : s.client = .finished → s.server.main = .exited

variable {cfg : Config} {tr : List Event} {s : State}

theorem more_iff (hfits : cfg.measured < 2 ^ 31 - 1) {i : ℕ} (hi : i ≤ cfg.measured + 1) :
    more cfg i = true ↔ i ≤ cfg.measured := by
  have hcount : toInt i = i := toInt_eq_self (by unfold FitsInt; omega)
  have hproduct : toInt ((cfg.requests : ℤ) * cfg.iterations) = cfg.measured := by
    rw [← Nat.cast_mul]
    exact toInt_eq_self (by unfold FitsInt; unfold Config.measured at hfits; omega)
  rw [more, hcount, hproduct, decide_eq_true_eq]
  omega

theorem serverStep_eq (hfits : cfg.measured < 2 ^ 31 - 1) (hs : s.server.Ok cfg) :
    serverStep cfg s = Session.serverStep cfg s := by
  cases hm : s.server.main with
  | accepting i =>
    simp only [Server.State.Ok, hm, Server.Main.Fits] at hs
    have hmore := more_iff hfits hs.2
    by_cases hi : i ≤ cfg.measured
    · cases hb : s.backlog with
      | nil => simp [serverStep, Session.serverStep, hm, hmore, hi, hb]
      | cons conn rest =>
        simp [serverStep, Session.serverStep, Session.State.withServer, Server.act, Server.mainAct,
          hm, hmore, hi, hb]
    · simp [serverStep, Session.serverStep, Session.State.withServer, Server.act, Server.mainAct,
        hm, hmore, hi]
  | _ => simp [serverStep, hm]

/-- As long as neither the product nor the counter overflows the loop counts as it should. -/
theorem sameMoves (hfits : cfg.measured < 2 ^ 31 - 1) :
    SameMoves (Session.session cfg) (session cfg) where
  init := rfl
  step := by
    intro tr s h e
    cases e with
    | client => rfl
    | server => exact serverStep_eq hfits (Session.session_inv h).served.ok
    | worker w => rfl

theorem session_accounted (hfits : cfg.requests * cfg.iterations < 2 ^ 31 - 1)
    (h : Reach (session cfg) tr s) : Accounted cfg tr s := by
  have same : SameMoves (Session.session cfg) (session cfg) := sameMoves hfits
  have hreach := same.reach_iff.mp h
  obtain ⟨hmoves, hbalance, hreplied, hcounts, hwaiting, hfinished⟩ :=
    Session.session_accounting hreach
  refine ⟨fun hc stuck => hmoves hc ((same.stuck_iff hreach).mp stuck), hbalance, hreplied,
    hcounts, fun hc => ?_, fun hc => ?_, hfinished⟩
  · rcases (hwaiting hc).1 with hm | hm
    · refine Or.inl ⟨_, hm, Bool.eq_false_iff.mpr fun hmore => ?_⟩
      have hle := (more_iff hfits le_rfl).mp hmore
      omega
    · exact Or.inr hm
  · obtain ⟨bound, hbound⟩ := (hwaiting hc).2
    refine ⟨bound, fun es t out hexec => hbound es t out ?_⟩
    rwa [same.exec_eq hreach] at hexec

/-- One run of one request, after a probe that came before the server listened. -/
theorem session_accounted_one : ∃ tr s, Reach (session ⟨.echo, 1, 1⟩) tr s ∧
    s.client = .waiting ∧ accepted tr = List.range 2 ∧ completed tr = List.range 2 := by
  have hrun : Reach (session ⟨.echo, 1, 1⟩) _ _ := reach_of_exec
    [.client, .server, .client, .client, .server, .worker 0, .worker 0, .client, .client,
      .client, .client, .client, .server, .worker 1, .worker 1, .client, .client, .client,
      .client] rfl
  have hall := (session_accounted (by decide) hrun).counts (Or.inl rfl)
  exact ⟨_, _, hrun, rfl, hall.1, hall.2.1⟩

/-- The product of these is `2 ^ 32`. -/
def wrapped : Config := ⟨.echo, 65536, 65536⟩

/-- The product is 0 as an int, so the server leaves its loop after the probe and exits while the
client still asks for its first reply. -/
theorem session_not_accounted :
    ¬∀ tr s, Reach (session wrapped) tr s → Accounted wrapped tr s := by
  intro hall
  have hrun : Reach (session wrapped) _ _ := reach_of_exec
    [.server, .client, .server, .client, .worker 0, .worker 0, .worker 0, .client, .client,
      .client, .server, .client, .server, .server, .client] rfl
  refine (hall _ _ hrun).moves (by decide) fun e => ?_
  cases e with
  | client => rfl
  | server => rfl
  | worker w => cases w <;> rfl

end SysPerf.IntSession
