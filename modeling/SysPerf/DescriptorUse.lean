import SysPerf.CtxSwitchKernel
import SysPerf.Descriptors

namespace SysPerf

open Descriptors

namespace CtxSwitchKernel

/-- What `overhead`, `total_pass` and `kern_thread_ring` do with the descriptors of the process that
calls them: they throw if a pipe cannot be made, and else close all of them at their end. -/
def ringCall (pipes : ℕ) (d : Descriptors) : Except Descriptors Descriptors :=
  (openPipes pipes d).map fun r => r.2.closePipes r.1

def callDescriptors : List Call → Descriptors → Except Descriptors Descriptors
  | [], d => .ok d
  | call :: calls, d =>
    match ringCall call.bench.pipes d with
    | .ok d' => callDescriptors calls d'
    | .error left => .error left

/-- `main` opens its file before the first call and closes it behind the last one. -/
def mainDescriptors (p : Plan) (d : Descriptors) : Except Descriptors Descriptors :=
  match d.alloc with
  | none => .error d
  | some (file, d') => (callDescriptors p.calls d').map fun d'' => d''.close file

theorem ringCall_ok {pipes : ℕ} {d : Descriptors} (h : 2 * pipes ≤ d.free) :
    ringCall pipes d = .ok d := by
  obtain ⟨ps, d', hopen⟩ := exists_openPipes h
  unfold ringCall
  rw [hopen]
  exact congrArg Except.ok (closePipes_openPipes hopen)

theorem ringCall_error {pipes : ℕ} {d : Descriptors} (h : d.free < 2 * pipes) :
    ∃ left, ringCall pipes d = .error left ∧ left.used.card = d.used.card + 2 * (d.free / 2) := by
  obtain ⟨left, hopen, -, -, hcard⟩ := openPipes_error h
  exact ⟨left, by unfold ringCall; rw [hopen]; rfl, hcard⟩

/-- The calls before the first one whose ring does not fit leave no trace. -/
theorem callDescriptors_append {calls : List Call} {d : Descriptors}
    (h : ∀ call ∈ calls, 2 * call.bench.pipes ≤ d.free) (rest : List Call) :
    callDescriptors (calls ++ rest) d = callDescriptors rest d := by
  induction calls with
  | nil => rfl
  | cons call calls ih =>
    rw [List.cons_append, callDescriptors, ringCall_ok (h call (List.mem_cons_self ..))]
    exact ih fun next hnext => h next (List.mem_cons_of_mem call hnext)

theorem callDescriptors_ok {calls : List Call} {d : Descriptors}
    (h : ∀ call ∈ calls, 2 * call.bench.pipes ≤ d.free) : callDescriptors calls d = .ok d := by
  have hall := callDescriptors_append h []
  rwa [List.append_nil] at hall

theorem callDescriptors_fit {calls : List Call} {d last : Descriptors}
    (h : callDescriptors calls d = .ok last) :
    last = d ∧ ∀ call ∈ calls, 2 * call.bench.pipes ≤ d.free := by
  induction calls with
  | nil => exact ⟨(Except.ok.inj h).symm, by simp⟩
  | cons call calls ih =>
    rw [callDescriptors] at h
    rcases Nat.lt_or_ge d.free (2 * call.bench.pipes) with hshort | hfits
    · obtain ⟨left, herror, -⟩ := ringCall_error hshort
      simp [herror] at h
    · rw [ringCall_ok hfits] at h
      obtain ⟨hlast, hall⟩ := ih h
      refine ⟨hlast, fun c hc => ?_⟩
      rcases List.mem_cons.mp hc with rfl | hc
      · exact hfits
      · exact hall c hc

/-- Descriptors never pile up over the calls of a benchmark: each finds those that were in use
before the first one, and all ends of the pipes in it are different and new. The program comes to
its end just if every ring fits, and is ended by the first one that does not. -/
theorem bench_descriptors (p : Plan) {d d' : Descriptors} {file : ℕ}
    (hfile : d.alloc = some (file, d')) :
    ((∃ last, mainDescriptors p d = .ok last) ↔
        ∀ call ∈ p.calls, 2 * call.bench.pipes ≤ d'.free) ∧
      (∀ last, mainDescriptors p d = .ok last → last = d) ∧
      ∀ before call after, p.calls = before ++ call :: after →
        (∀ c ∈ before, 2 * c.bench.pipes ≤ d'.free) → callDescriptors before d' = .ok d' ∧
          (2 * call.bench.pipes ≤ d'.free → ∃ ps d'', openPipes call.bench.pipes d' = .ok (ps, d'') ∧
            ps.length = call.bench.pipes ∧ (ends ps).Nodup ∧ ∀ fd ∈ ends ps, fd ∉ d'.used) ∧
          (d'.free < 2 * call.bench.pipes → ∃ left, mainDescriptors p d = .error left) := by
  have hmain : mainDescriptors p d =
      (callDescriptors p.calls d').map fun d'' => d''.close file := by
    unfold mainDescriptors
    rw [hfile]
  have hok : ∀ last, mainDescriptors p d = .ok last →
      last = d ∧ ∀ call ∈ p.calls, 2 * call.bench.pipes ≤ d'.free := by
    intro last h
    rw [hmain] at h
    cases hcalls : callDescriptors p.calls d' with
    | error left => simp [hcalls, Except.map] at h
    | ok d'' =>
      obtain ⟨rfl, hfit⟩ := callDescriptors_fit hcalls
      rw [hcalls] at h
      exact ⟨(Except.ok.inj h).symm.trans (alloc_spec hfile).2.2.2.2, hfit⟩
  refine ⟨⟨fun ⟨last, h⟩ => (hok last h).2, fun h => ?_⟩, fun last h => (hok last h).1, ?_⟩
  · rw [hmain, callDescriptors_ok h]
    exact ⟨_, rfl⟩
  · intro before call after hcalls hbefore
    refine ⟨callDescriptors_ok hbefore, fun hfits => ?_, fun hshort => ?_⟩
    · obtain ⟨ps, d'', hopen⟩ := exists_openPipes hfits
      obtain ⟨hlength, hnodup, hfresh, -⟩ := openPipes_spec hopen
      exact ⟨ps, d'', hopen, hlength, hnodup, hfresh⟩
    · obtain ⟨left, herror, -⟩ := ringCall_error hshort
      refine ⟨left, ?_⟩
      rw [hmain, hcalls, callDescriptors_append hbefore, callDescriptors, herror]
      rfl

/-- A process with its three standard descriptors and room for six more. -/
def smallTable : Descriptors :=
  ⟨{0, 1, 2}, 9, by decide⟩

theorem bench_descriptors_small : ∃ last, mainDescriptors ⟨[1, 2], [0], 10, 100⟩ smallTable = .ok last := by
  obtain ⟨file, d', hfile⟩ := exists_alloc (d := smallTable) (by decide)
  have hfree := (alloc_spec hfile).2.2.2.1
  have hsmall : smallTable.free = 6 := by decide
  exact (bench_descriptors _ hfile).1.mpr (by
    have hcalls : ∀ call ∈ (⟨[1, 2], [0], 10, 100⟩ : Plan).calls, call.bench.pipes ≤ 2 := by decide
    intro call hcall
    have hpipes := hcalls call hcall
    omega)

end CtxSwitchKernel

namespace ClientDescriptors

/-- `create_client` of rtt.cpp and bw.cpp, whose early `return false` leaves the socket open. Without
a free descriptor `socket` returns -1, with which `connect` fails. -/
def createClient (d : Descriptors) (connects : Bool) : Bool × Descriptors :=
  match d.alloc with
  | none => (false, d)
  | some (client, d') => if connects then (true, d'.close client) else (false, d')

/-- The loop of `main` that waits for the server, from its call `i` on, and how many calls it has
made; `none` if that takes more than `fuel` turns. -/
def probe (connects : ℕ → Bool) : ℕ → ℕ → Descriptors → Option (ℕ × Descriptors)
  | 0, _, _ => none
  | fuel + 1, i, d =>
    let r := createClient d (connects i)
    if r.1 then some (i + 1, r.2) else probe connects fuel (i + 1) r.2

/-- Calls whose results nobody looks at, as in `measure_rtt` and `measure_bw`. -/
def requests (d : Descriptors) (connects : List Bool) : Descriptors :=
  connects.foldl (fun d ok => (createClient d ok).2) d

variable {d d' : Descriptors}

theorem createClient_full (h : d.free = 0) (ok : Bool) : createClient d ok = (false, d) := by
  unfold createClient
  rw [alloc_eq_none h]

theorem createClient_connected (h : 0 < d.free) : createClient d true = (true, d) := by
  obtain ⟨client, d', halloc⟩ := exists_alloc h
  unfold createClient
  rw [halloc]
  exact congrArg (Prod.mk true) (alloc_spec halloc).2.2.2.2

/-- A refused call costs a descriptor. -/
theorem createClient_refused (h : 0 < d.free) : ∃ d', createClient d false = (false, d') ∧
    d.used ⊆ d'.used ∧ d'.limit = d.limit ∧ d'.free + 1 = d.free := by
  obtain ⟨client, d', halloc⟩ := exists_alloc h
  obtain ⟨-, hused, hlimit, hfree, -⟩ := alloc_spec halloc
  refine ⟨d', ?_, hused ▸ Finset.subset_insert _ _, hlimit, hfree⟩
  unfold createClient
  rw [halloc]
  rfl

theorem requests_leak (connects : List Bool) (d : Descriptors) :
    d.used ⊆ (requests d connects).used ∧
      (requests d connects).used.card = d.used.card + min (connects.count false) d.free := by
  induction connects generalizing d with
  | nil => simp [requests]
  | cons ok connects ih =>
    have hstep : requests d (ok :: connects) = requests (createClient d ok).2 connects := rfl
    rw [hstep]
    rcases Nat.eq_zero_or_pos d.free with hfull | hfree
    · rw [createClient_full hfull]
      obtain ⟨hsub, hcard⟩ := ih d
      exact ⟨hsub, by rw [hcard, hfull, Nat.min_zero, Nat.min_zero]⟩
    · cases ok with
      | true =>
        rw [createClient_connected hfree]
        obtain ⟨hsub, hcard⟩ := ih d
        exact ⟨hsub, by simpa using hcard⟩
      | false =>
        obtain ⟨d', hrefused, hsub', hlimit, hfree'⟩ := createClient_refused hfree
        rw [hrefused]
        obtain ⟨hsub, hcard⟩ := ih d'
        have hcard' := card_of_free hsub' hlimit hfree'
        refine ⟨hsub'.trans hsub, ?_⟩
        rw [hcard, hcard', List.count_cons_self]
        omega

theorem requests_connected {connects : List Bool} (h : ∀ ok ∈ connects, ok = true)
    (d : Descriptors) : requests d connects = d := by
  induction connects with
  | nil => rfl
  | cons ok connects ih =>
    obtain rfl := h ok (List.mem_cons_self ..)
    have hstep : requests d (true :: connects) = requests (createClient d true).2 connects := rfl
    have hsame : (createClient d true).2 = d := by
      rcases Nat.eq_zero_or_pos d.free with hfull | hfree
      · rw [createClient_full hfull]
      · rw [createClient_connected hfree]
    rw [hstep, hsame]
    exact ih fun next hnext => h next (List.mem_cons_of_mem _ hnext)

/-- The loop ends with the first call that finds a server and a descriptor. -/
theorem probe_spec {connects : ℕ → Bool} {fuel i calls : ℕ}
    (h : probe connects fuel i d = some (calls, d')) :
    ∃ k < d.free, connects (i + k) = true ∧ calls = i + k + 1 ∧ d.used ⊆ d'.used ∧
      d'.used.card = d.used.card + k := by
  induction fuel generalizing i d with
  | zero => cases h
  | succ fuel ih =>
    rw [probe] at h
    rcases Nat.eq_zero_or_pos d.free with hfull | hfree
    · rw [createClient_full hfull] at h
      obtain ⟨k, hk, -⟩ := ih h
      exact absurd hk (by simp [hfull])
    · cases hc : connects i with
      | true =>
        rw [hc, createClient_connected hfree] at h
        obtain ⟨rfl, rfl⟩ := Prod.mk.inj (Option.some.inj h)
        exact ⟨0, hfree, hc, rfl, Finset.Subset.refl _, rfl⟩
      | false =>
        obtain ⟨mid, hrefused, hsub, hlimit, hmid⟩ := createClient_refused hfree
        rw [hc, hrefused] at h
        obtain ⟨k, hk, hconnects, rfl, hsub', hcard⟩ := ih h
        have hk : k < mid.free := hk
        have hcard : d'.used.card = mid.used.card + k := hcard
        have hcard' := card_of_free hsub hlimit hmid
        have hi : i + 1 + k = i + (k + 1) := by omega
        exact ⟨k + 1, by omega, hi ▸ hconnects, by omega, hsub.trans hsub', by omega⟩

theorem exists_probe {connects : ℕ → Bool} {k i : ℕ} (hk : k < d.free)
    (hconnects : connects (i + k) = true) : ∃ fuel r, probe connects fuel i d = some r := by
  have hfree : 0 < d.free := by omega
  have hfirst : connects i = true → ∃ fuel r, probe connects fuel i d = some r := fun hc =>
    ⟨1, (i + 1, d), by rw [probe, hc, createClient_connected hfree]; rfl⟩
  induction k generalizing i d with
  | zero => exact hfirst hconnects
  | succ k ih =>
    cases hc : connects i with
    | true => exact hfirst hc
    | false =>
      obtain ⟨mid, hrefused, -, -, hmid⟩ := createClient_refused hfree
      have hi : i + (k + 1) = i + 1 + k := by omega
      have hmidfree : 0 < mid.free := by omega
      obtain ⟨fuel, r, hr⟩ := ih (d := mid) (i := i + 1) (by omega) (hi ▸ hconnects) hmidfree
        fun hc => ⟨1, (i + 2, mid), by rw [probe, hc, createClient_connected hmidfree]; rfl⟩
      refine ⟨fuel + 1, r, ?_⟩
      rw [probe, hc, hrefused]
      exact hr

/-- The loop that waits for the server ends just if the server listens before the calls have used
up the descriptors, of which each refused one keeps one for the rest of the program. Later calls
give back what they take if they are connected. -/
theorem probe_leaks (connects : ℕ → Bool) (d : Descriptors) :
    ((∃ fuel r, probe connects fuel 0 d = some r) ↔ ∃ i < d.free, connects i = true) ∧
      ∀ fuel calls d', probe connects fuel 0 d = some (calls, d') → d.used ⊆ d'.used ∧
        d'.used.card + 1 = d.used.card + calls ∧ ∀ more : List Bool,
          (requests d' more).used.card = d'.used.card + min (more.count false) d'.free ∧
          ((∀ ok ∈ more, ok = true) → requests d' more = d') := by
  refine ⟨⟨fun ⟨fuel, r, h⟩ => ?_, fun ⟨i, hi, hconnects⟩ => ?_⟩, fun fuel calls d' h => ?_⟩
  · obtain ⟨k, hk, hconnects, -⟩ := probe_spec h
    exact ⟨k, hk, by simpa using hconnects⟩
  · exact exists_probe hi (by simpa using hconnects)
  · obtain ⟨k, -, -, hcalls, hsub, hcard⟩ := probe_spec h
    exact ⟨hsub, by omega, fun more => ⟨(requests_leak more d').2, fun hall =>
      requests_connected hall d'⟩⟩

end ClientDescriptors

end SysPerf
