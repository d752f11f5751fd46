import Mathlib.Data.Finset.Card
import Mathlib.Data.Finset.Range
import Mathlib.Data.Fintype.EquivFin

namespace SysPerf

/-- The descriptors of a process, all below its limit. -/
@[ext] structure Descriptors where
  used : Finset ℕ
  limit : ℕ
  within : ∀ fd ∈ used, fd < limit

namespace Descriptors

variable {d d' : Descriptors} {fd n : ℕ}

def lowest (used : Finset ℕ) : ℕ :=
  Nat.find (Infinite.exists_notMem_finset used)

theorem insert_within (h : lowest d.used < d.limit) :
    ∀ fd ∈ insert (lowest d.used) d.used, fd < d.limit := by
  intro fd hfd
  rcases Finset.mem_insert.mp hfd with rfl | hfd
  · exact h
  · exact d.within fd hfd

/-- The lowest free descriptor; there is none if all are in use. -/
def alloc (d : Descriptors) : Option (ℕ × Descriptors) :=
  if h : lowest d.used < d.limit then
    some (lowest d.used, ⟨insert (lowest d.used) d.used, d.limit, insert_within h⟩)
  else none

def close (d : Descriptors) (fd : ℕ) : Descriptors where
  used := d.used.erase fd
  limit := d.limit
  within := fun fd' h => d.within fd' (Finset.mem_of_mem_erase h)

/-- A pipe takes two descriptors or none. -/
def pipe (d : Descriptors) : Option ((ℕ × ℕ) × Descriptors) :=
  d.alloc.bind fun r => r.2.alloc.map fun w => ((r.1, w.1), w.2)

def free (d : Descriptors) : ℕ :=
  d.limit - d.used.card

theorem card_used_le (d : Descriptors) : d.used.card ≤ d.limit := by
  have hsub : d.used ⊆ Finset.range d.limit := fun fd h => Finset.mem_range.mpr (d.within fd h)
  simpa using Finset.card_le_card hsub

theorem lowest_notMem (used : Finset ℕ) : lowest used ∉ used :=
  Nat.find_spec (Infinite.exists_notMem_finset used)

theorem lowest_lt_iff (d : Descriptors) : lowest d.used < d.limit ↔ 0 < d.free := by
  constructor
  · intro h
    have hinsert := Finset.card_insert_of_notMem (lowest_notMem d.used)
    have hle : (insert (lowest d.used) d.used).card ≤ d.limit :=
      card_used_le ⟨_, _, insert_within h⟩
    unfold free
    omega
  · intro h
    by_contra hge
    have hsub : Finset.range d.limit ⊆ d.used := by
      intro fd hfd
      by_contra hfree
      have hlow : lowest d.used ≤ fd := Nat.find_min' _ hfree
      have hlt := Finset.mem_range.mp hfd
      omega
    have hcard := Finset.card_le_card hsub
    rw [Finset.card_range] at hcard
    unfold free at h
    omega

theorem alloc_eq_none (h : d.free = 0) : d.alloc = none := by
  unfold alloc
  rw [dif_neg (by rw [lowest_lt_iff]; omega)]

theorem exists_alloc (h : 0 < d.free) : ∃ fd d', d.alloc = some (fd, d') := by
  unfold alloc
  rw [dif_pos ((lowest_lt_iff d).mpr h)]
  exact ⟨_, _, rfl⟩

/-- A new descriptor was not in use, and to close it gives back what there was. -/
theorem alloc_spec (h : d.alloc = some (fd, d')) : fd ∉ d.used ∧ d'.used = insert fd d.used ∧
    d'.limit = d.limit ∧ d'.free + 1 = d.free ∧ d'.close fd = d := by
  unfold alloc at h
  split at h
  next hlt =>
    obtain ⟨rfl, rfl⟩ := Prod.mk.inj (Option.some.inj h)
    have hnew := lowest_notMem d.used
    refine ⟨hnew, rfl, rfl, ?_, ?_⟩
    · have hfree := (lowest_lt_iff d).mp hlt
      have hcard := Finset.card_insert_of_notMem hnew
      unfold free at hfree ⊢
      simp only
      omega
    · ext1
      · exact Finset.erase_insert hnew
      · rfl
  next => cases h

theorem pipe_eq_none (h : d.free < 2) : d.pipe = none := by
  unfold pipe
  cases hr : d.alloc with
  | none => rfl
  | some r =>
    have hfree := (alloc_spec hr).2.2.2.1
    rw [Option.bind_some, alloc_eq_none (by omega)]
    rfl

theorem exists_pipe (h : 2 ≤ d.free) : ∃ p d', d.pipe = some (p, d') := by
  obtain ⟨r, d₁, hr⟩ := exists_alloc (d := d) (by omega)
  have hfree := (alloc_spec hr).2.2.2.1
  obtain ⟨w, d₂, hw⟩ := exists_alloc (d := d₁) (by omega)
  refine ⟨(r, w), d₂, ?_⟩
  unfold pipe
  rw [hr, Option.bind_some, hw]
  rfl

/-- The two ends of a new pipe. -/
theorem pipe_spec {p : ℕ × ℕ} (h : d.pipe = some (p, d')) : p.1 ∉ d.used ∧ p.2 ∉ d.used ∧
    p.1 ≠ p.2 ∧ d'.used = insert p.2 (insert p.1 d.used) ∧ d'.limit = d.limit ∧
    d'.free + 2 = d.free := by
  obtain ⟨⟨r, d₁⟩, hr, h⟩ := Option.bind_eq_some_iff.mp h
  obtain ⟨⟨w, d₂⟩, hw, heq⟩ := Option.map_eq_some_iff.mp h
  obtain ⟨rfl, rfl⟩ := Prod.mk.inj heq
  obtain ⟨hr1, hr2, hr3, hr4, -⟩ := alloc_spec hr
  obtain ⟨hw1, hw2, hw3, hw4, -⟩ := alloc_spec hw
  rw [hr2] at hw1 hw2
  have hne : w ≠ r ∧ w ∉ d.used := by simpa using hw1
  refine ⟨hr1, hne.2, hne.1.symm, hw2, hw3.trans hr3, ?_⟩
  show d₂.free + 2 = d.free
  have hfirst : d₁.free + 1 = d.free := hr4
  have hsecond : d₂.free + 1 = d₁.free := hw4
  omega

/-- A loop that makes `n` pipes and ends in an exception at the first that cannot be made, with the
pipes before it open. -/
def openPipes : ℕ → Descriptors → Except Descriptors (List (ℕ × ℕ) × Descriptors)
  | 0, d => .ok ([], d)
  | n + 1, d =>
    match d.pipe with
    | none => .error d
    | some (p, d') => (openPipes n d').map fun r => (p :: r.1, r.2)

def closePipes (d : Descriptors) (ps : List (ℕ × ℕ)) : Descriptors :=
  ps.foldl (fun d p => (d.close p.1).close p.2) d

def ends (ps : List (ℕ × ℕ)) : List ℕ :=
  ps.flatMap fun p => [p.1, p.2]

theorem closePipes_spec (ps : List (ℕ × ℕ)) (d : Descriptors) :
    (d.closePipes ps).used = d.used \ (ends ps).toFinset ∧ (d.closePipes ps).limit = d.limit := by
  induction ps generalizing d with
  | nil => simp [closePipes, ends]
  | cons p ps ih =>
    obtain ⟨hused, hlimit⟩ := ih ((d.close p.1).close p.2)
    refine ⟨?_, hlimit⟩
    show (closePipes ((d.close p.1).close p.2) ps).used = _
    rw [hused]
    ext fd
    simp [close, ends]
    tauto

theorem openPipes_succ {ps : List (ℕ × ℕ)} (h : openPipes (n + 1) d = .ok (ps, d')) :
    ∃ p rest mid, d.pipe = some (p, mid) ∧ openPipes n mid = .ok (rest, d') ∧ ps = p :: rest := by
  unfold openPipes at h
  split at h
  next => cases h
  next p mid hp =>
    cases hrest : openPipes n mid with
    | error left => simp [hrest, Except.map] at h
    | ok r =>
      simp only [hrest, Except.map, Except.ok.injEq, Prod.mk.injEq] at h
      obtain ⟨rfl, rfl⟩ := h
      exact ⟨p, r.1, mid, hp, hrest, rfl⟩

/-- Pipes that all could be made have different ends, none of them in use before. -/
theorem openPipes_spec {ps : List (ℕ × ℕ)} (h : openPipes n d = .ok (ps, d')) :
    ps.length = n ∧ (ends ps).Nodup ∧ (∀ fd ∈ ends ps, fd ∉ d.used) ∧
      d'.used = d.used ∪ (ends ps).toFinset ∧ d'.limit = d.limit := by
  induction n generalizing d ps with
  | zero =>
    obtain ⟨rfl, rfl⟩ : [] = ps ∧ d = d' := by simpa [openPipes] using h
    simp [ends]
  | succ n ih =>
    obtain ⟨p, rest, mid, hp, hrest, rfl⟩ := openPipes_succ h
    obtain ⟨hlength, hnodup, hfresh, hused, hlimit⟩ := ih hrest
    obtain ⟨hr, hw, hne, hmid, hlimit', -⟩ := pipe_spec hp
    have hfresh' : ∀ fd ∈ ends rest, fd ≠ p.1 ∧ fd ≠ p.2 ∧ fd ∉ d.used := by
      intro fd hfd
      have hnot := hfresh fd hfd
      rw [hmid] at hnot
      simp only [Finset.mem_insert, not_or] at hnot
      exact ⟨hnot.2.1, hnot.1, hnot.2.2⟩
    have hends : ends (p :: rest) = p.1 :: p.2 :: ends rest := rfl
    refine ⟨by rw [List.length_cons, hlength], ?_, ?_, ?_, hlimit.trans hlimit'⟩
    · rw [hends, List.nodup_cons, List.nodup_cons]
      refine ⟨?_, fun hmem => (hfresh' _ hmem).2.1 rfl, hnodup⟩
      intro hmem
      rcases List.mem_cons.mp hmem with heq | hmem
      · exact hne heq
      · exact (hfresh' _ hmem).1 rfl
    · intro fd hfd
      rw [hends] at hfd
      rcases List.mem_cons.mp hfd with rfl | hfd
      · exact hr
      · rcases List.mem_cons.mp hfd with rfl | hfd
        · exact hw
        · exact (hfresh' fd hfd).2.2
    · rw [hused, hmid, hends]
      ext fd
      simp only [Finset.mem_union, Finset.mem_insert, List.toFinset_cons]
      tauto

theorem exists_openPipes (h : 2 * n ≤ d.free) : ∃ ps d', openPipes n d = .ok (ps, d') := by
  induction n generalizing d with
  | zero => exact ⟨[], d, rfl⟩
  | succ n ih =>
    obtain ⟨p, mid, hp⟩ := exists_pipe (d := d) (by omega)
    have hfree := (pipe_spec hp).2.2.2.2.2
    obtain ⟨rest, last, hrest⟩ := ih (d := mid) (by omega)
    refine ⟨p :: rest, last, ?_⟩
    unfold openPipes
    rw [hp]
    simp [hrest, Except.map]

theorem card_of_free (hused : d.used ⊆ d'.used) (hlimit : d'.limit = d.limit) {k : ℕ}
    (hfree : d'.free + k = d.free) : d'.used.card = d.used.card + k := by
  have hle := Finset.card_le_card hused
  have hle' := d'.card_used_le
  unfold free at hfree
  omega

/-- Where not all can be made, those before stay open. -/
theorem openPipes_error (h : d.free < 2 * n) :
    ∃ d', openPipes n d = .error d' ∧ d.used ⊆ d'.used ∧ d'.limit = d.limit ∧
      d'.used.card = d.used.card + 2 * (d.free / 2) := by
  induction n generalizing d with
  | zero => omega
  | succ n ih =>
    rcases Nat.lt_or_ge d.free 2 with hnone | hsome
    · refine ⟨d, ?_, Finset.Subset.refl _, rfl, by omega⟩
      unfold openPipes
      rw [pipe_eq_none hnone]
    · obtain ⟨p, mid, hp⟩ := exists_pipe hsome
      obtain ⟨-, -, -, hused, hlimit, hfree⟩ := pipe_spec hp
      have hsub : d.used ⊆ mid.used := by
        rw [hused]
        exact (Finset.subset_insert _ _).trans (Finset.subset_insert _ _)
      obtain ⟨left, hleft, hsub', hlimit', hcard⟩ := ih (d := mid) (by omega)
      have hmid := card_of_free hsub hlimit hfree
      refine ⟨left, ?_, hsub.trans hsub', hlimit'.trans hlimit, by omega⟩
      unfold openPipes
      rw [hp]
      simp [hleft, Except.map]

/-- To close the pipes gives back what there was. -/
theorem closePipes_openPipes {ps : List (ℕ × ℕ)} (h : openPipes n d = .ok (ps, d')) :
    d'.closePipes ps = d := by
  obtain ⟨-, -, hfresh, hused, hlimit⟩ := openPipes_spec h
  obtain ⟨hclosed, hlimit'⟩ := closePipes_spec ps d'
  ext1
  · rw [hclosed, hused, Finset.union_sdiff_right, Finset.sdiff_eq_self_iff_disjoint,
      Finset.disjoint_left]
    intro fd hfd hmem
    exact hfresh fd (List.mem_toFinset.mp hmem) hfd
  · exact hlimit'.trans hlimit

end Descriptors

end SysPerf
