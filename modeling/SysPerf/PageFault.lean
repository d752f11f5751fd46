import SysPerf.LocalAveragesReads
import Mathlib.Data.Rat.Defs

namespace SysPerf.PageFault

open FileBlocks LocalAverages

/-- `int offset = 4*4*1024`. -/
def offset : ℤ :=
  4 * 4 * 1024

/-- `size` after `size -= 20*offset`. -/
def size : ℤ :=
  4606352424 - 20 * offset

def iter : ℕ :=
  1000

/-- Bytes that come into memory with one fault. -/
def page : ℤ :=
  4096

/-- The values of a 64-bit long. -/
def FitsLong (z : ℤ) : Prop :=
  -2 ^ 63 ≤ z ∧ z < 2 ^ 63

instance decidableFitsLong (z : ℤ) : Decidable (FitsLong z) :=
  inferInstanceAs (Decidable (_ ∧ _))

/-- What the system gives a call: the descriptor of sample.txt, whether the mapping succeeds, the
size of the file, what `munmap` returns, the random numbers, and the word of the stack that comes
after `array`. -/
structure Env where
  fd : ℤ
  mapped : Bool
  fileSize : ℤ
  unmap : ℤ
  rand : ℕ → Rand
  beyond : ℤ

/-- `exit(1)` after one of the three messages, a read that there is no memory for, or the end of
the function with the offsets it has read. -/
inductive Outcome (K : Type)
  | fileNotRead
  | mappingFailed
  | unMappingFailed
  | faulted
  | returned (reads : List ℤ) (value : K)
  deriving DecidableEq

/-- `array` after the loop that fills it. -/
def filled (rand : ℕ → Rand) : List ℤ :=
  (List.range iter).map fun i => ((rand i).val : ℤ).tmod 250000

/-- `array[i]` for `i` up to `iter`. -/
def element (array : List ℤ) (beyond : ℤ) (i : ℕ) : ℤ :=
  array.getD i beyond

/-- `(v * offset) % (size - 1)`, `none` for an overflow. -/
def index (v : ℤ) : Option ℤ :=
  if FitsLong (v * offset) then some ((v * offset).tmod (size - 1)) else none

/-- `ptr[index]` can be read where the mapping has it and the file has a part of its page. -/
def read (fileSize v : ℤ) : Option ℤ :=
  (index v).bind fun k =>
    if 0 ≤ k ∧ k < size ∧ k / page * page < fileSize then some k else none

/-- The loop for `i` down to 1. -/
def readLoop (fileSize : ℤ) (array : List ℤ) (beyond : ℤ) : ℕ → Option (List ℤ)
  | 0 => some []
  | i + 1 =>
    (read fileSize (element array beyond (i + 1))).bind fun k =>
      (readLoop fileSize array beyond i).map fun rest => k :: rest

section

variable {K : Type} [Field K]

def innerloop (time : K) (env : Env) : Outcome K :=
  if env.fd < 0 then .fileNotRead
  else if env.mapped = false then .mappingFailed
  else
    match readLoop env.fileSize (filled env.rand) env.beyond iter with
    | none => .faulted
    | some reads =>
      if env.unmap ≠ 0 then .unMappingFailed else .returned reads (time / (iter : K))

def pageFaultTimeChronoInnerloop (t : Interval) (env : Env) : Outcome K :=
  innerloop (t.microseconds : K) env

def pageFaultTimeRtdscInnerloop (freq : K) (t : Timer) (stamps : BitVec 64 × BitVec 64)
    (env : Env) : Outcome K :=
  innerloop (timed freq t stamps) env

end

/-- The random number that the loop uses in its turn for `i`. -/
def number (rand : ℕ → Rand) (i : ℕ) : ℤ :=
  (rand i).val % 250000

theorem number_bounds (rand : ℕ → Rand) (i : ℕ) :
    0 ≤ number rand i ∧ number rand i < 250000 := by
  unfold number
  omega

theorem element_filled (rand : ℕ → Rand) (beyond : ℤ) {i : ℕ} (h : i < iter) :
    element (filled rand) beyond i = number rand i := by
  have hnonneg : (0 : ℤ) ≤ (rand i).val := Int.natCast_nonneg _
  simp [element, filled, number, h, Int.tmod_eq_emod_of_nonneg hnonneg]

/-- The turn for `i = iter` reads beyond the array. -/
theorem element_beyond (rand : ℕ → Rand) (beyond : ℤ) :
    element (filled rand) beyond iter = beyond := by
  simp [element, filled]

/-- An offset that a random number gives is left alone by the `%`, and it is in the file. -/
theorem read_number {fileSize : ℤ} (hfile : 250000 * offset ≤ fileSize) (rand : ℕ → Rand)
    (i : ℕ) : read fileSize (number rand i) = some (number rand i * offset) := by
  obtain ⟨hnonneg, hlt⟩ := number_bounds rand i
  generalize number rand i = v at hnonneg hlt
  unfold offset at hfile
  have hfits : FitsLong (v * offset) := by
    unfold FitsLong offset
    omega
  have hmod : (v * offset).tmod (size - 1) = v * offset := by
    apply Int.tmod_eq_of_lt <;> simp only [offset, size] <;> omega
  have hin : 0 ≤ v * offset ∧ v * offset < size ∧ v * offset / page * page < fileSize := by
    simp only [offset, size, page]
    omega
  rw [read, index, if_pos hfits, Option.bind_some, hmod, if_pos hin]

/-- The reads for `i` down to 1 with the array filled as it is. -/
theorem readLoop_filled {fileSize : ℤ} (hfile : 250000 * offset ≤ fileSize) (rand : ℕ → Rand)
    (beyond : ℤ) {i : ℕ} (hi : i < iter) :
    readLoop fileSize (filled rand) beyond i =
      some ((List.range i).reverse.map fun j => number rand (j + 1) * offset) := by
  induction i with
  | zero => rfl
  | succ i ih =>
    rw [readLoop, element_filled rand beyond hi, read_number hfile, Option.bind_some,
      ih (by omega), List.range_succ, List.reverse_append]
    rfl

theorem readLoop_iter {fileSize : ℤ} (hfile : 250000 * offset ≤ fileSize) (rand : ℕ → Rand)
    (beyond : ℤ) : readLoop fileSize (filled rand) beyond iter = (read fileSize beyond).map
      fun first => first :: (List.range (iter - 1)).reverse.map fun j =>
        number rand (j + 1) * offset := by
  have hloop := readLoop_filled hfile rand beyond (i := iter - 1) (by decide)
  change (read fileSize (element (filled rand) beyond iter)).bind _ = _
  rw [element_beyond]
  change (read fileSize beyond).bind (fun k =>
    (readLoop fileSize (filled rand) beyond (iter - 1)).map fun rest => k :: rest) = _
  rw [hloop]
  cases read fileSize beyond <;> rfl

/-- Offsets of two numbers are in one page only if the numbers are one. -/
theorem pages_card {α : Type} (items : List α) (v : α → ℤ) :
    ((items.map fun a => v a * offset).map (· / page)).toFinset.card =
      (items.map v).toFinset.card := by
  have hpage : ∀ z : ℤ, z * offset / page = 4 * z := by
    intro z
    simp only [offset, page]
    omega
  have hmap : (items.map fun a => v a * offset).map (· / page) =
      (items.map v).map (fun z => 4 * z) := by
    simp [hpage, Function.comp_def]
  have himage : ((items.map v).map fun z => 4 * z).toFinset =
      (items.map v).toFinset.image fun z => 4 * z := by
    ext z
    simp
  rw [hmap, himage]
  exact Finset.card_image_of_injective _ fun x y h => by simpa using h

/-- Where the system grants all that is asked for and sample.txt has the 250000 offsets that the
numbers can give, as the 4 GiB of createFile.sh do, whether the function returns is up to the word
beyond its array, which its first read uses. The others never fail; they use all numbers but the
first that was drawn, and touch as many pages as there are different ones among these. -/
theorem innerloop_reads {K : Type} [Field K] {env : Env} (hfd : 0 ≤ env.fd)
    (hmapped : env.mapped = true) (hunmap : env.unmap = 0)
    (hfile : 250000 * offset ≤ env.fileSize) (time : K) :
    (innerloop time env = .faulted ↔ read env.fileSize env.beyond = none) ∧
    ∀ first, read env.fileSize env.beyond = some first → ∃ rest,
      innerloop time env = .returned (first :: rest) (time / (iter : K)) ∧
      rest = (List.range (iter - 1)).reverse.map (fun j => number env.rand (j + 1) * offset) ∧
      (rest.map (· / page)).toFinset.card =
        ((List.range (iter - 1)).map fun j => number env.rand (j + 1)).toFinset.card := by
  have hloop := readLoop_iter hfile env.rand env.beyond
  have hopened : ¬env.fd < 0 := by omega
  constructor
  · unfold innerloop
    rw [if_neg hopened, if_neg (by simp [hmapped]), hloop]
    cases read env.fileSize env.beyond with
    | none => simp
    | some first => simp [hunmap]
  · intro first hfirst
    refine ⟨_, ?_, rfl, ?_⟩
    · unfold innerloop
      rw [if_neg hopened, if_neg (by simp [hmapped]), hloop, hfirst]
      simp [hunmap]
    · rw [pages_card, List.map_reverse, List.toFinset_reverse]

/-- The stack goes on with the word 7. -/
def sampleEnv : Env where
  fd := 3
  mapped := true
  fileSize := 4 * 1024 * 1024 * 1024
  unmap := 0
  rand := fun i => Fin.ofNat (2 ^ 31) (i * i)
  beyond := 7

theorem innerloop_reads_sample : ∃ rest,
    innerloop (2000 : ℚ) sampleEnv = .returned (114688 :: rest) (2000 / (iter : ℚ)) := by
  have hfd : 0 ≤ sampleEnv.fd := by decide
  obtain ⟨-, hreturns⟩ := innerloop_reads hfd rfl rfl (by decide) (2000 : ℚ)
  obtain ⟨rest, hreturned, -, -⟩ := hreturns 114688 (by decide)
  exact ⟨rest, hreturned⟩

/-- With a word that is less than 0 the first read is before the mapping. -/
example : read (4 * 1024 * 1024 * 1024) (-1) = none := by
  decide

end SysPerf.PageFault
