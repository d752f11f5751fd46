import SysPerf.Machine

namespace SysPerf.CreateTasks

/-- What a benchmark does about the tasks it makes: `while(wait(NULL) > 0)` behind its loop,
`pthread_join(tid, NULL)` in each turn, or nothing. -/
inductive Cleanup
  | waitAll
  | joinEach
  | leave
  deriving DecidableEq

inductive Function
  | createProcessTimeChronoInnerloop
  | createProcessTimeChronoOuterloop
  | createProcessTimeRtdscInnerloop
  | createProcessTimeRtdscOuterloop
  | createThreadTimeChronoInnerloop
  | createThreadTimeChronoOuterloop
  | createThreadTimeRtdscInnerloop
  | createThreadTimeRtdscOuterloop
  deriving DecidableEq

def Function.cleanup : Function → Cleanup
  | .createProcessTimeChronoInnerloop => .waitAll
  | .createProcessTimeChronoOuterloop => .leave
  | .createProcessTimeRtdscInnerloop => .waitAll
  | .createProcessTimeRtdscOuterloop => .leave
  | .createThreadTimeChronoInnerloop => .joinEach
  | .createThreadTimeChronoOuterloop => .leave
  | .createThreadTimeRtdscInnerloop => .joinEach
  | .createThreadTimeRtdscOuterloop => .leave

/-- A child or thread that runs, has come to its end, or has been reaped or joined. -/
inductive Status
  | running
  | ended
  | collected
  deriving DecidableEq

/-- A child or thread, with the number of the sample that made it. -/
structure Task where
  sample : ℕ
  status : Status
  deriving DecidableEq

/-- The parent is at `i > 0` of its loop, at the `pthread_join` of the turn at `i + 1`, or at
`wait(NULL)`, or it has joined a `tid` that stands for no thread. -/
inductive Pc
  | loop (i : ℕ)
  | join (i : ℕ)
  | wait
  | undefined
  deriving DecidableEq

/-- `sample` calls have returned. A creation that fails leaves `tid` undefined. -/
structure State where
  sample : ℕ
  pc : Pc
  tid : Option ℕ
  tasks : List Task
  deriving DecidableEq

/-- `reaps k` is a `wait(NULL)` that the kernel answers with the child `k`. -/
inductive Act
  | parent
  | exits (k : ℕ)
  | reaps (k : ℕ)
  deriving DecidableEq

/-- A task of the sample `made` is reaped or joined in the sample `now`. -/
inductive Event
  | collected (made now : ℕ)
  deriving DecidableEq

/-- Where the parent goes from a creation, with `i` turns left. -/
def Cleanup.next (i : ℕ) : Cleanup → Pc
  | .joinEach => .join i
  | _ => .loop i

/-- The next call, with its own `tid`. -/
def State.return (s : State) (iter : ℕ) : State :=
  { s with sample := s.sample + 1, pc := .loop iter, tid := none }

def State.setStatus (s : State) (k n : ℕ) (status : Status) : State :=
  { s with tasks := s.tasks.set k ⟨n, status⟩ }

section

variable (c : Cleanup) (samples iter : ℕ) (created : ℕ → ℕ → Bool)

/-- `created n i` says whether the `fork` or `pthread_create` of the sample `n` succeeds at `i`. -/
def parentStep (s : State) : Option (State × List Event) :=
  if s.sample < samples then
    match s.pc with
    | .loop (i + 1) =>
      if created s.sample (i + 1) then
        some ({ s with
          pc := c.next i
          tid := some s.tasks.length
          tasks := s.tasks ++ [⟨s.sample, .running⟩] }, [])
      else some ({ s with pc := c.next i, tid := none }, [])
    | .loop 0 =>
      if c = .waitAll then some ({ s with pc := .wait }, []) else some (s.return iter, [])
    | .join i =>
      match s.tid.bind fun k => s.tasks[k]?.map fun task => (k, task) with
      | some (_, ⟨_, .running⟩) => none
      | some (k, ⟨n, .ended⟩) =>
        some ({ s.setStatus k n .collected with pc := .loop i }, [.collected n s.sample])
      -- `tid` stands for no thread, or for one that has been joined already
      | _ => some ({ s with pc := .undefined }, [])
    | .wait =>
      if ∀ task ∈ s.tasks, task.status = .collected then some (s.return iter, []) else none
    | .undefined => none
  else none

def step (s : State) : Act → Option (State × List Event)
  | .parent => parentStep c samples iter created s
  | .exits k =>
    match s.tasks[k]? with
    | some ⟨n, .running⟩ => some (s.setStatus k n .ended, [])
    | _ => none
  | .reaps k =>
    match s.pc, s.tasks[k]? with
    | .wait, some ⟨n, .ended⟩ => some (s.setStatus k n .collected, [.collected n s.sample])
    | _, _ => none

/-- `run_func` of `samples` runs, with `iter` turns in each. -/
def runFunc : Machine State Act Event where
  init := ⟨0, .loop iter, none, []⟩
  step := step c samples iter created

end

variable {c : Cleanup} {samples iter : ℕ} {created : ℕ → ℕ → Bool}

inductive Moves (c : Cleanup) (samples iter : ℕ) (created : ℕ → ℕ → Bool) (s : State) :
    State → List Event → Prop
  | creates {i} : s.sample < samples → s.pc = .loop (i + 1) → created s.sample (i + 1) = true →
      Moves c samples iter created s
        ⟨s.sample, c.next i, some s.tasks.length, s.tasks ++ [⟨s.sample, .running⟩]⟩ []
  | fails {i} : s.sample < samples → s.pc = .loop (i + 1) → created s.sample (i + 1) = false →
      Moves c samples iter created s ⟨s.sample, c.next i, none, s.tasks⟩ []
  | waits : s.sample < samples → s.pc = .loop 0 → c = .waitAll →
      Moves c samples iter created s ⟨s.sample, .wait, s.tid, s.tasks⟩ []
  | returns : s.sample < samples → s.pc = .loop 0 → c ≠ .waitAll →
      Moves c samples iter created s (s.return iter) []
  | joins {i k n} : s.sample < samples → s.pc = .join i → s.tid = some k →
      s.tasks[k]? = some ⟨n, .ended⟩ →
      Moves c samples iter created s
        ⟨s.sample, .loop i, s.tid, s.tasks.set k ⟨n, .collected⟩⟩ [.collected n s.sample]
  | strays {i} : s.sample < samples → s.pc = .join i →
      (∀ k n status, s.tid = some k → s.tasks[k]? = some ⟨n, status⟩ → status = .collected) →
      Moves c samples iter created s ⟨s.sample, .undefined, s.tid, s.tasks⟩ []
  | drains : s.sample < samples → s.pc = .wait → (∀ task ∈ s.tasks, task.status = .collected) →
      Moves c samples iter created s (s.return iter) []
  | exits {k n} : s.tasks[k]? = some ⟨n, .running⟩ →
      Moves c samples iter created s (s.setStatus k n .ended) []
  | reaps {k n} : s.pc = .wait → s.tasks[k]? = some ⟨n, .ended⟩ →
      Moves c samples iter created s (s.setStatus k n .collected) [.collected n s.sample]

theorem parentStep_moves {s t : State} {out : List Event}
    (h : parentStep c samples iter created s = some (t, out)) :
    Moves c samples iter created s t out := by
  unfold parentStep at h
  split at h
  next hlt =>
    split at h
    next i hpc =>
      split at h
      next hcreated =>
        obtain ⟨rfl, rfl⟩ := Prod.mk.inj (Option.some.inj h)
        exact Moves.creates hlt hpc hcreated
      next hcreated =>
        obtain ⟨rfl, rfl⟩ := Prod.mk.inj (Option.some.inj h)
        exact Moves.fails hlt hpc (Bool.eq_false_of_not_eq_true hcreated)
    next hpc =>
      split at h
      next hc =>
        obtain ⟨rfl, rfl⟩ := Prod.mk.inj (Option.some.inj h)
        exact Moves.waits hlt hpc hc
      next hc =>
        obtain ⟨rfl, rfl⟩ := Prod.mk.inj (Option.some.inj h)
        exact Moves.returns hlt hpc hc
    next i hpc =>
      split at h
      next => cases h
      next k n hat =>
        obtain ⟨rfl, rfl⟩ := Prod.mk.inj (Option.some.inj h)
        obtain ⟨k', htid, hat⟩ := Option.bind_eq_some_iff.mp hat
        obtain ⟨task, htask, heq⟩ := Option.map_eq_some_iff.mp hat
        obtain ⟨rfl, rfl⟩ := Prod.mk.inj heq
        exact Moves.joins hlt hpc htid htask
      next hrunning hended =>
        obtain ⟨rfl, rfl⟩ := Prod.mk.inj (Option.some.inj h)
        refine Moves.strays hlt hpc ?_
        intro k n status htid htask
        cases status with
        | running => exact absurd (by simp [htid, htask]) (hrunning k n)
        | ended => exact absurd (by simp [htid, htask]) (hended k n)
        | collected => rfl
    next hpc =>
      split at h
      next hall =>
        obtain ⟨rfl, rfl⟩ := Prod.mk.inj (Option.some.inj h)
        exact Moves.drains hlt hpc hall
      next => cases h
    next => cases h
  next => cases h

theorem step_moves {s t : State} {a : Act} {out : List Event}
    (h : step c samples iter created s a = some (t, out)) :
    Moves c samples iter created s t out := by
  cases a with
  | parent => exact parentStep_moves h
  | exits k =>
    simp only [step] at h
    split at h
    next n hat =>
      obtain ⟨rfl, rfl⟩ := Prod.mk.inj (Option.some.inj h)
      exact Moves.exits hat
    next => cases h
  | reaps k =>
    simp only [step] at h
    split at h
    next n hpc hat =>
      obtain ⟨rfl, rfl⟩ := Prod.mk.inj (Option.some.inj h)
      exact Moves.reaps hpc hat
    next => cases h

end SysPerf.CreateTasks
