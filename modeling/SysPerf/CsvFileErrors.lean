import SysPerf.CsvFileRoundTrip
import SysPerf.Unwinding

namespace SysPerf.CsvFile

open Unwinding

/-- What can be thrown: the stream's `std::ios` failure, and what `substr` throws. -/
inductive Failure
  | ios
  | outOfRange
  deriving DecidableEq

/-- The object with the error bits of its stream. `calls` counts the stream's operations. -/
structure Stream where
  state : State
  failed : Bool
  calls : ℕ

/-- An operation of a stream with `exceptions(failbit | badbit)`. It fails if its file does, which
`fails` says by the number of the call, or if a bit is set; then it sets a bit and throws. -/
def call (fails : ℕ → Bool) (effect : State → State) (s : Stream) : Outcome Stream Failure :=
  if s.failed ∨ fails s.calls then .throws .ios { s with failed := true, calls := s.calls + 1 }
  else .done ⟨effect s.state, false, s.calls + 1⟩

section

variable (fails : ℕ → Bool) (sep : Separator)

/-- The constructor, which opens the file. -/
def construct (s : Stream) : Outcome Stream Failure :=
  call fails (fun _ => start) s

/-- `csvfile::write`. -/
def writeCall (val : List Char) (s : Stream) : Outcome Stream Failure :=
  if s.state.isFirst then
    call fails (·.insert val) { s with state := { s.state with isFirst := false } }
  else (call fails (·.insert sep.chars) s).andThen (call fails (·.insert val))

/-- `std::endl` inserts a newline and then flushes the stream. -/
def endrowCall (s : Stream) : Outcome Stream Failure :=
  ((call fails (·.insert ['\n']) s).andThen (call fails State.flush)).andThen fun s =>
    .done { s with state := { s.state with isFirst := true } }

def opCall (s : Stream) : Op → Outcome Stream Failure
  | .text val =>
    match escape val with
    | some escaped => writeCall fails sep escaped s
    | none => .throws .outOfRange s
  | .raw printed => writeCall fails sep printed s
  | .endrow => endrowCall fails s
  | .flush => call fails State.flush s

/-- The operations in the `try` block. -/
def opCalls : List Op → Stream → Outcome Stream Failure
  | [], s => .done s
  | op :: ops, s => (opCall fails sep s op).andThen (opCalls ops)

/-- `~csvfile` flushes and closes the file; closing writes what is buffered, too. -/
def destroy (s : Stream) : Outcome Stream Failure :=
  (call fails State.flush s).andThen (call fails State.flush)

/-- A `try` block like that of test_csv.cpp, with other operations. -/
def main (ops : List Op) : Option (Caught Stream Failure) :=
  tryCatch (withObject (construct fails) (opCalls fails sep ops) (destroy fails) ⟨start, false, 0⟩)

end

/-- The number of the stream's operations for an operation of the object. -/
def callsOf (isFirst : Bool) : Op → ℕ
  | .text _ | .raw _ => if isFirst then 1 else 2
  | .endrow => 2
  | .flush => 1

/-- Whether the row is empty after the operation. -/
def isFirstAfter (isFirst : Bool) : Op → Bool
  | .text _ | .raw _ => false
  | .endrow => true
  | .flush => isFirst

/-- The number of the stream's operations from the constructor to the end of the destructor. -/
def callsOfOps (isFirst : Bool) : List Op → ℕ
  | [] => 0
  | op :: ops => callsOf isFirst op + callsOfOps (isFirstAfter isFirst op) ops

def streamCalls (ops : List Op) : ℕ :=
  1 + callsOfOps true ops + 2

/-- A failure comes to the handler as one `std::ios` failure, and the process goes on. -/
structure ErrorsDelivered (fails : ℕ → Bool) (sep : Separator) (ops : List Op) : Prop where
  caught : (∃ k < streamCalls ops, fails k) → ∃ s, main fails sep ops = some (.exception .ios s)
  survives : main fails sep ops ≠ none

/-- `n` operations of the stream after `calls` others end as `r`: behind the last of them if none
fails, and with the failure of the first that does. -/
structure Steps (fails : ℕ → Bool) (calls n : ℕ) (after : State) (r : Outcome Stream Failure) :
    Prop where
  done : (∀ k < n, ¬fails (calls + k)) → r = .done ⟨after, false, calls + n⟩
  failed : (∃ k < n, fails (calls + k)) → ∃ t, r = .throws .ios t ∧ t.failed

theorem Steps.andThen {fails : ℕ → Bool} {calls n m : ℕ} {mid after : State} {r : Outcome Stream Failure}
    {next : Stream → Outcome Stream Failure} (hr : Steps fails calls n mid r)
    (hnext : Steps fails (calls + n) m after (next ⟨mid, false, calls + n⟩)) :
    Steps fails calls (n + m) after (r.andThen next) := by
  constructor
  · intro hok
    rw [hr.done fun k hk => hok k (by omega)]
    have hrest := hnext.done fun k hk => by
      have := hok (n + k) (by omega)
      rw [← Nat.add_assoc] at this
      exact this
    rw [Nat.add_assoc] at hrest
    exact hrest
  · rintro ⟨k, hk, hfails⟩
    by_cases hfirst : ∃ k < n, fails (calls + k)
    · obtain ⟨t, rfl, ht⟩ := hr.failed hfirst
      exact ⟨t, rfl, ht⟩
    · have hfirst : ∀ k < n, ¬fails (calls + k) := fun k hk h => hfirst ⟨k, hk, h⟩
      rw [hr.done hfirst]
      have hge : n ≤ k := by
        by_contra hlt
        exact hfirst k (by omega) hfails
      have hsum : calls + k = calls + n + (k - n) := by omega
      rw [hsum] at hfails
      exact hnext.failed ⟨k - n, by omega, hfails⟩

variable (fails : ℕ → Bool) (sep : Separator)

theorem call_steps (effect : State → State) (state : State) (calls : ℕ) :
    Steps fails calls 1 (effect state) (call fails effect ⟨state, false, calls⟩) := by
  constructor
  · intro hok
    have hfails : ¬(false = true ∨ fails calls = true) := by simpa using hok 0 Nat.one_pos
    exact if_neg hfails
  · rintro ⟨k, hk, hfails⟩
    obtain rfl : k = 0 := by omega
    exact ⟨_, if_pos (Or.inr hfails), rfl⟩

/-- The bits stay set. -/
theorem call_failed {s : Stream} (hs : s.failed) (effect : State → State) :
    ∃ t, call fails effect s = .throws .ios t :=
  ⟨_, if_pos (Or.inl hs)⟩

theorem writeCall_steps (val : List Char) (state : State) (calls : ℕ) :
    Steps fails calls (if state.isFirst then 1 else 2) (state.write sep val)
      (writeCall fails sep val ⟨state, false, calls⟩) := by
  unfold writeCall State.write
  cases hfirst : state.isFirst with
  | true =>
    simp only [if_true]
    exact call_steps fails (·.insert val) { state with isFirst := false } calls
  | false =>
    simp only [Bool.false_eq_true, if_false]
    exact (call_steps fails (·.insert sep.chars) state calls).andThen (call_steps fails (·.insert val) _ _)

theorem endrowCall_steps (state : State) (calls : ℕ) :
    Steps fails calls 2 state.endrow (endrowCall fails ⟨state, false, calls⟩) := by
  have hend := (call_steps fails (·.insert ['\n']) state calls).andThen
    (call_steps fails State.flush _ _)
  constructor
  · intro hok
    unfold endrowCall
    rw [hend.done hok]
    rfl
  · intro hfails
    obtain ⟨t, ht, hfailed⟩ := hend.failed hfails
    unfold endrowCall
    rw [ht]
    exact ⟨t, rfl, hfailed⟩

/-- An operation of the object does what it does without failures, or fails. -/
theorem opCall_steps (op : Op) (state : State) (calls : ℕ) :
    ∃ after, step sep state op = some after ∧ after.isFirst = isFirstAfter state.isFirst op ∧
      Steps fails calls (callsOf state.isFirst op) after
        (opCall fails sep ⟨state, false, calls⟩ op) := by
  have hwrite : ∀ val, (state.write sep val).isFirst = false := by
    intro val
    unfold State.write
    cases hfirst : state.isFirst <;> simp [State.insert, hfirst]
  cases op with
  | text val =>
    have hescape := escape_eq sep val
    refine ⟨_, by rw [step, hescape]; rfl, hwrite _, ?_⟩
    rw [opCall, hescape]
    exact writeCall_steps fails sep _ state calls
  | raw printed => exact ⟨_, rfl, hwrite printed, writeCall_steps fails sep printed state calls⟩
  | endrow => exact ⟨_, rfl, rfl, endrowCall_steps fails state calls⟩
  | flush => exact ⟨_, rfl, rfl, call_steps fails State.flush state calls⟩

theorem opCalls_steps (ops : List Op) (state : State) (calls : ℕ) :
    ∃ after, ops.foldlM (step sep) state = some after ∧
      Steps fails calls (callsOfOps state.isFirst ops) after
        (opCalls fails sep ops ⟨state, false, calls⟩) := by
  induction ops generalizing state calls with
  | nil =>
    refine ⟨state, rfl, fun _ => rfl, ?_⟩
    rintro ⟨k, hk, -⟩
    exact absurd hk (Nat.not_lt_zero k)
  | cons op ops ih =>
    obtain ⟨mid, hmid, hfirst, hop⟩ := opCall_steps fails sep op state calls
    obtain ⟨after, hafter, hrest⟩ := ih mid (calls + callsOf state.isFirst op)
    refine ⟨after, ?_, ?_⟩
    · rw [List.foldlM_cons, hmid]
      exact hafter
    · rw [hfirst] at hrest
      exact hop.andThen hrest

theorem destroy_steps (state : State) (calls : ℕ) :
    Steps fails calls 2 state.flush.flush (destroy fails ⟨state, false, calls⟩) :=
  (call_steps fails State.flush state calls).andThen (call_steps fails State.flush _ _)

theorem destroy_failed {s : Stream} (hs : s.failed) :
    ∃ t, destroy fails s = .throws .ios t := by
  obtain ⟨t, ht⟩ := call_failed fails hs State.flush
  unfold destroy
  rw [ht]
  exact ⟨t, rfl⟩

theorem construct_steps : Steps fails 0 1 start (construct fails ⟨start, false, 0⟩) :=
  call_steps fails (fun _ => start) start 0

theorem body_steps (ops : List Op) : ∃ after, run sep ops = some after ∧
    Steps fails 1 (callsOfOps true ops) after (opCalls fails sep ops ⟨start, false, 1⟩) :=
  opCalls_steps fails sep ops start 1

variable {fails sep} {ops : List Op}

/-- A failure to open the file comes to the handler: there is no object to destroy yet. -/
theorem main_of_open (h : fails 0) : ∃ s, main fails sep ops = some (.exception .ios s) := by
  obtain ⟨t, ht, -⟩ := (construct_steps fails).failed ⟨0, Nat.one_pos, h⟩
  unfold main
  rw [withObject_of_ctor ht]
  exact ⟨t, rfl⟩

/-- Without failures the file is what it is without the error bits. -/
theorem main_of_ok (h : ∀ k < streamCalls ops, ¬fails k) :
    ∃ s, main fails sep ops = some (.nothing s) ∧ output sep ops = some s.state.disk := by
  unfold streamCalls at h
  have hctor := (construct_steps fails).done fun k hk => by
    rw [Nat.zero_add]
    exact h k (by omega)
  obtain ⟨after, hafter, hops⟩ := body_steps fails sep ops
  have hbody := hops.done fun k hk => h (1 + k) (by omega)
  have hdtor := (destroy_steps fails after (1 + callsOfOps true ops)).done fun k hk =>
    h _ (by omega)
  refine ⟨⟨after.flush.flush, false, 1 + callsOfOps true ops + 2⟩, ?_, ?_⟩
  · unfold main
    rw [withObject_of_body hctor hbody, hdtor]
    rfl
  · unfold output
    rw [hafter]
    simp [State.file, State.flush]

/-- A failure behind the opening ends the process: the destructor, which runs for a failure before
it too, throws. -/
theorem main_of_failure (hopen : ¬fails 0) (h : ∃ k < streamCalls ops, fails k) :
    main fails sep ops = none := by
  obtain ⟨k, hk, hfails⟩ := h
  unfold streamCalls at hk
  have hpos : k ≠ 0 := by
    rintro rfl
    exact hopen hfails
  have hctor := (construct_steps fails).done fun j hj => by
    obtain rfl : j = 0 := by omega
    exact hopen
  obtain ⟨after, -, hops⟩ := body_steps fails sep ops
  unfold main
  by_cases hbody : ∃ j < callsOfOps true ops, fails (1 + j)
  · obtain ⟨t, ht, hfailed⟩ := hops.failed hbody
    obtain ⟨u, hu⟩ := destroy_failed fails hfailed
    rw [withObject_terminated hctor ht hu]
    rfl
  · have hbody : ∀ j < callsOfOps true ops, ¬fails (1 + j) := fun j hj h => hbody ⟨j, hj, h⟩
    have hge : 1 + callsOfOps true ops ≤ k := by
      by_contra hlt
      apply hbody (k - 1) (by omega)
      rw [Nat.add_sub_cancel' (by omega : 1 ≤ k)]
      exact hfails
    have hdtor := (destroy_steps fails after (1 + callsOfOps true ops)).failed
      ⟨k - (1 + callsOfOps true ops), by omega, by rw [Nat.add_sub_cancel' hge]; exact hfails⟩
    obtain ⟨t, ht, -⟩ := hdtor
    rw [withObject_of_body hctor (hops.done hbody), ht]
    rfl

/-- Failures come to the handler exactly if there are none, or if the file cannot be opened. -/
theorem errorsDelivered_iff :
    ErrorsDelivered fails sep ops ↔ fails 0 ∨ ∀ k < streamCalls ops, ¬fails k := by
  constructor
  · intro h
    by_contra hne
    obtain ⟨hopen, hne⟩ := not_or.mp hne
    simp only [not_forall, not_not] at hne
    obtain ⟨k, hk, hfails⟩ := hne
    exact h.survives (main_of_failure hopen ⟨k, hk, hfails⟩)
  · rintro (hopen | hok)
    · obtain ⟨s, hs⟩ : ∃ s, main fails sep ops = some (.exception .ios s) := main_of_open hopen
      exact ⟨fun _ => ⟨s, hs⟩, by rw [hs]; exact Option.some_ne_none _⟩
    · obtain ⟨s, hs⟩ : ∃ s, main fails sep ops = some (.nothing s) :=
        (main_of_ok hok).imp fun _ h => h.1
      refine ⟨?_, by rw [hs]; exact Option.some_ne_none _⟩
      rintro ⟨k, hk, hfails⟩
      exact absurd hfails (hok k hk)

/-- The first row of test_csv.cpp on a device that fails when `endrow` flushes. -/
theorem full_device : ¬∀ (fails : ℕ → Bool) (sep : Separator) (ops : List Op), ¬fails 0 →
    ErrorsDelivered fails sep ops := by
  intro h
  have hdelivered := h (fun k => k = 5) .comma [.text ['X'], .text ['V'], .endrow] (by decide)
  exact hdelivered.survives (main_of_failure (by decide) ⟨5, by decide, by decide⟩)

end SysPerf.CsvFile
