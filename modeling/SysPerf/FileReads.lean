import SysPerf.FileBlocks
import SysPerf.OptionLoop

namespace SysPerf.FileReads

open FileBlocks (checkInt Rand)
open MachineInt OptionLoop

/-- `4*1024`. -/
def blocksize : ℕ := 4096

/-- `(1024*1024)/(4*1024)`. -/
def numOfBlocksinMB : ℕ := 256

/-- A regular file of `size` bytes, open for reading at the position `pos`. -/
structure Fd where
  size : ℕ
  pos : ℕ

/-- `lseek(fd, offset, SEEK_SET)` with its result, which fails for a negative offset. A file system
also refuses offsets behind the longest file it can have, none of which is in this one. -/
def lseek (fd : Fd) (offset : ℤ) : ℤ × Fd :=
  if 0 ≤ offset then (offset, { fd with pos := offset.toNat }) else (-1, fd)

/-- `read(fd, bf, blocksize)` with its result. -/
def read (fd : Fd) : ℕ × Fd :=
  let got := min blocksize (fd.size - fd.pos)
  (got, { fd with pos := fd.pos + got })

/-- A loop of `left` calls of `read`: where each begins and what it returns. -/
def readLoop : ℕ → Fd → List (ℕ × ℕ) × Fd
  | 0, fd => ([], fd)
  | left + 1, fd =>
    let (got, next) := read fd
    let (log, last) := readLoop left next
    ((fd.pos, got) :: log, last)

/-- `rand() % numOfBlocks`, in blocks of `blocksize` bytes. -/
def randOffset (numOfBlocks : ℤ) (rand : Rand) : Option ℤ :=
  if numOfBlocks = 0 then none else some ((rand.val : ℤ).tmod numOfBlocks * blocksize)

/-- A `long array[iter]` on the stack, read at `i`. Behind its last element is something else. -/
def arrayAt (array : List ℤ) (beyond : ℤ) (i : ℕ) : ℤ :=
  array.getD i beyond

/-- The loop of the random readers for `i` down to 1: what `lseek` and `read` return. -/
def randReadLoop (array : List ℤ) (beyond : ℤ) : ℕ → Fd → List (ℤ × ℕ)
  | 0, _ => []
  | i + 1, fd =>
    let (offset, fd) := lseek fd (arrayAt array beyond (i + 1))
    let (got, fd) := read fd
    (offset, got) :: randReadLoop array beyond i fd

section

variable (size : ℕ) (sizeinMB : ℤ)

/-- What the random readers do with their file, from its `open` on. -/
def randRead (iter : ℕ) (rand : ℕ → Rand) (beyond : ℤ) : Option (List (ℤ × ℕ)) :=
  (checkInt (sizeinMB * numOfBlocksinMB)).bind fun numOfBlocks =>
    ((List.range iter).mapM fun i => randOffset numOfBlocks (rand i)).map fun array =>
      randReadLoop array beyond iter ⟨size, 0⟩

/-- `rand_read_time_rtdsc_innerloop` in readtime_random.cpp. -/
def readtimeRandom : (ℕ → Rand) → ℤ → Option (List (ℤ × ℕ)) :=
  randRead size sizeinMB 1000

/-- `rand_read_time_chrono_innerloop` in cache_size.cpp. -/
def cacheSizeChrono : (ℕ → Rand) → ℤ → Option (List (ℤ × ℕ)) :=
  randRead size sizeinMB 100

/-- `rand_read_time_rtdsc_innerloop` in cache_size.cpp. -/
def cacheSizeRtdsc : (ℕ → Rand) → ℤ → Option (List (ℤ × ℕ)) :=
  randRead size sizeinMB 1000

/-- `iter` of `seq_read_time_rtdsc_innerloop`. -/
def seqIter : ℕ := 1000

/-- `seq_read_time_rtdsc_innerloop`, from its `open` on: what `lseek` returns, and the reads. -/
def seqRead (rand : Rand) : Option (ℤ × List (ℕ × ℕ) × Fd) :=
  (checkInt (sizeinMB * numOfBlocksinMB)).bind fun blocks =>
    (checkInt (blocks - seqIter)).bind fun blocks =>
      (checkInt (blocks - 1)).bind fun numOfBlocks =>
        (randOffset numOfBlocks rand).map fun offset =>
          let (result, fd) := lseek ⟨size, 0⟩ offset
          (result, readLoop seqIter fd)

/-- `readSeq`, from its `open` on. -/
def readSeq : Option (List (ℕ × ℕ) × Fd) :=
  (checkInt (sizeinMB * numOfBlocksinMB)).map fun numOfBlocks =>
    readLoop numOfBlocks.toNat ⟨size, 0⟩

end

/-- The offset of a block of the file. -/
def IsBlock (size : ℕ) (offset : ℤ) : Prop :=
  0 ≤ offset ∧ (blocksize : ℤ) ∣ offset ∧ offset + blocksize ≤ size

/-- As many seeks as turns, each to a block, which is then read. -/
def SeeksBlocks (size iter : ℕ) (log : Option (List (ℤ × ℕ))) : Prop :=
  ∃ turns, log = some turns ∧ turns.length = iter ∧
    ∀ turn ∈ turns, IsBlock size turn.1 ∧ turn.2 = blocksize

/-- The size in bytes of a file of `s` MB. -/
def fileSize (s : ℕ) : ℕ :=
  s * (1024 * 1024)

/-- The three functions that read at random. -/
inductive Reader
  | readtimeRandom
  | cacheSizeChrono
  | cacheSizeRtdsc

def Reader.iter : Reader → ℕ
  | .readtimeRandom => 1000
  | .cacheSizeChrono => 100
  | .cacheSizeRtdsc => 1000

def Reader.run (size : ℕ) (sizeinMB : ℤ) (rand : ℕ → Rand) (beyond : ℤ) :
    Reader → Option (List (ℤ × ℕ))
  | .readtimeRandom => FileReads.readtimeRandom size sizeinMB rand beyond
  | .cacheSizeChrono => FileReads.cacheSizeChrono size sizeinMB rand beyond
  | .cacheSizeRtdsc => FileReads.cacheSizeRtdsc size sizeinMB rand beyond

/-- Every timed read is of a whole block of the file of `s` MB, and `readSeq` reads all of them.
`beyond r` is what lies behind the array of `r`. -/
structure ReadsSpec (s : ℕ) (rand : Reader → ℕ → Rand) (seqRand : Rand) (beyond : Reader → ℤ) :
    Prop where
  random : ∀ r : Reader,
    SeeksBlocks (fileSize s) r.iter (r.run (fileSize s) s (rand r) (beyond r))
  sequential : ∃ offset log fd, seqRead (fileSize s) s seqRand = some (offset, log, fd) ∧
    IsBlock (fileSize s) offset ∧ log.length = seqIter ∧ (∀ turn ∈ log, turn.2 = blocksize) ∧
    fd.pos < fd.size
  readSeq : ∃ fd, readSeq (fileSize s) s =
    some ((List.range (fileSize s / blocksize)).map fun k => (k * blocksize, blocksize), fd) ∧
      fd.pos = fileSize s

end SysPerf.FileReads
