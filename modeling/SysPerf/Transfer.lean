import SysPerf.Server
import SysPerf.Timer
import Mathlib.Algebra.Order.Ring.Rat

namespace SysPerf.Transfer

open Server (Service)

theorem bw_size_pos : 0 < 52428800 := by
  omega

theorem rtt_size_pos : 0 < 64 := by
  omega

/-- `MESSAGE_SIZE` and `REQUESTS` of a program, with what its server does. -/
structure Config where
  service : Service
  messageSize : ℕ
  requests : ℕ
  size_pos : 0 < messageSize

def bw : Config :=
  ⟨.push, 52428800, 5, bw_size_pos⟩

def rtt : Config :=
  ⟨.echo, 64, 100, rtt_size_pos⟩

/-- What `send` of `len` bytes may return, `none` for -1. -/
def SendReturns (len : ℕ) (result : Option ℕ) : Prop :=
  ∀ k ∈ result, k ≤ len ∧ (len = 0 ∨ 1 ≤ k)

/-- What the system calls around one connection return: `connect`, `send` and `recv` in
`create_client`, `recv` and `send` in the worker. `none` stands for -1. In bw.cpp the client does
not send and the worker does not receive. -/
structure Outcome (cfg : Config) where
  connect : Bool
  send : Option ℕ
  workerRecv : ℕ
  workerSend : Option ℕ
  recv : Option ℕ
  send_returns : SendReturns cfg.messageSize send
  workerRecv_le : workerRecv ≤ send.getD 0
  workerSend_returns : match cfg.service with
    | .echo => SendReturns workerRecv workerSend
    | .push => SendReturns cfg.messageSize workerSend
  recv_le : ∀ n ∈ recv, n ≤ workerSend.getD 0

section

variable {cfg : Config}

/-- `none` where the process exits in the call. A failed `send` is only printed. -/
def createClient (o : Outcome cfg) : Option Bool :=
  if o.connect then o.recv.map fun _ => true else some false

/-- The loop between `t.begin()` and `t.end()`, which ignores what the calls return. -/
def requestLoop (outcomes : ℕ → Outcome cfg) (i : ℕ) : ℕ → Option Unit
  | 0 => some ()
  | left + 1 => (createClient (outcomes i)).bind fun _ => requestLoop outcomes (i + 1) left

variable {K : Type} [Field K]

def measureBw (freq : K) (t : Timer) (stamps : BitVec 64 × BitVec 64)
    (outcomes : ℕ → Outcome cfg) : Option K :=
  (requestLoop outcomes 0 cfg.requests).map fun _ =>
    ((cfg.requests * cfg.messageSize : ℕ) : K) /
      ((t.begin stamps.1).end' stamps.2).timeDiffMicro freq

def measureRtt (freq : K) (t : Timer) (stamps : BitVec 64 × BitVec 64)
    (outcomes : ℕ → Outcome cfg) : Option K :=
  (requestLoop outcomes 0 cfg.requests).map fun _ =>
    ((t.begin stamps.1).end' stamps.2).timeDiffMicro freq / ((cfg.requests * 1000 : ℕ) : K)

/-- The bytes that `create_client` has got in the call. -/
def received (o : Outcome cfg) : ℕ :=
  if o.connect then o.recv.getD 0 else 0

/-- A round trip takes the whole message to the server and back. -/
def RoundTrip (o : Outcome cfg) : Prop :=
  o.connect ∧ o.send = some cfg.messageSize ∧ o.recv = some cfg.messageSize

instance (o : Outcome cfg) : Decidable (RoundTrip o) :=
  inferInstanceAs (Decidable (_ ∧ _))

def bytesCompleted (outcomes : ℕ → Outcome cfg) (n : ℕ) : ℕ :=
  ∑ i ∈ Finset.range n, received (outcomes i)

def roundTripsCompleted (outcomes : ℕ → Outcome cfg) (n : ℕ) : ℕ :=
  ((Finset.range n).filter fun i => RoundTrip (outcomes i)).card

/-- The calls that the loop comes to: no call before has had a failed `recv`. -/
def Made (outcomes : ℕ → Outcome cfg) (i : ℕ) : Prop :=
  ∀ j < i, (outcomes j).connect → (outcomes j).recv ≠ none

/-- `create_client` is true only of whole messages, and a sample is worked out from what was
completed between the two stamps. -/
def SampleSpec (outcomes : ℕ → Outcome cfg) : Prop :=
  (∀ i < cfg.requests, Made outcomes i → createClient (outcomes i) = some true →
    received (outcomes i) = cfg.messageSize) ∧
  match cfg.service with
  | .push => ∀ (freq : ℚ) t stamps sample, measureBw freq t stamps outcomes = some sample →
      sample = ((bytesCompleted outcomes cfg.requests : ℕ) : ℚ) /
        ((t.begin stamps.1).end' stamps.2).timeDiffMicro freq
  | .echo => ∀ (freq : ℚ) t stamps sample, measureRtt freq t stamps outcomes = some sample →
      sample = ((t.begin stamps.1).end' stamps.2).timeDiffMicro freq /
        ((roundTripsCompleted outcomes cfg.requests * 1000 : ℕ) : ℚ)

/-- No call that the loop comes to gets a part of a message only, and in a loop that runs to its
end every connection is accepted. -/
def WholeTransfers (outcomes : ℕ → Outcome cfg) : Prop :=
  (∀ i < cfg.requests, Made outcomes i → (outcomes i).connect →
    ∀ n ∈ (outcomes i).recv, n = cfg.messageSize) ∧
  (Made outcomes cfg.requests → ∀ i < cfg.requests, (outcomes i).connect)

end

section

variable {cfg : Config}

theorem createClient_eq_none_iff (o : Outcome cfg) :
    createClient o = none ↔ o.connect ∧ o.recv = none := by
  unfold createClient
  split
  next h => simp [h]
  next h => simp [h]

theorem createClient_eq_true_iff (o : Outcome cfg) :
    createClient o = some true ↔ o.connect ∧ o.recv ≠ none := by
  unfold createClient
  split
  next h => cases hrecv : o.recv <;> simp [h]
  next h => simp [h]

theorem requestLoop_eq_some_iff {outcomes : ℕ → Outcome cfg} {i left : ℕ} :
    requestLoop outcomes i left = some () ↔
      ∀ j, i ≤ j → j < i + left → (outcomes j).connect → (outcomes j).recv ≠ none := by
  induction left generalizing i with
  | zero =>
    refine iff_of_true rfl ?_
    intro j hij hj
    omega
  | succ left ih =>
    cases hfirst : createClient (outcomes i) with
    | none =>
      obtain ⟨hconnect, hrecv⟩ := (createClient_eq_none_iff _).mp hfirst
      refine iff_of_false ?_ ?_
      · simp [requestLoop, hfirst]
      · intro h
        exact h i le_rfl (by omega) hconnect hrecv
    | some b =>
      have hrest : requestLoop outcomes i (left + 1) = requestLoop outcomes (i + 1) left := by
        simp [requestLoop, hfirst]
      rw [hrest, ih]
      constructor
      · intro h j hij hj hconnect hrecv
        rcases Nat.lt_or_ge i j with hlt | hge
        · exact h j hlt (by omega) hconnect hrecv
        · obtain rfl : j = i := by omega
          rw [(createClient_eq_none_iff _).mpr ⟨hconnect, hrecv⟩] at hfirst
          cases hfirst
      · intro h j hij hj
        exact h j (by omega) (by omega)

theorem requestLoop_iff_made {outcomes : ℕ → Outcome cfg} :
    requestLoop outcomes 0 cfg.requests = some () ↔ Made outcomes cfg.requests := by
  rw [requestLoop_eq_some_iff]
  constructor
  · intro h j hj
    exact h j (Nat.zero_le j) (by omega)
  · intro h j _ hj
    exact h j (by omega)

theorem send_getD_le {len : ℕ} {result : Option ℕ} (h : SendReturns len result) :
    result.getD 0 ≤ len := by
  cases result with
  | none => exact Nat.zero_le _
  | some k => exact (h k rfl).1

theorem workerSend_le (o : Outcome cfg) : o.workerSend.getD 0 ≤ cfg.messageSize := by
  have hsend := o.workerSend_returns
  have hrecv := o.workerRecv_le
  have hfirst := send_getD_le o.send_returns
  split at hsend
  next => exact (send_getD_le hsend).trans (hrecv.trans hfirst)
  next => exact send_getD_le hsend

theorem received_le (o : Outcome cfg) : received o ≤ cfg.messageSize := by
  unfold received
  split
  next =>
    cases h : o.recv with
    | none => exact Nat.zero_le _
    | some n => exact (o.recv_le n h).trans (workerSend_le o)
  next => exact Nat.zero_le _

theorem received_eq_iff (o : Outcome cfg) :
    received o = cfg.messageSize ↔ o.connect ∧ o.recv = some cfg.messageSize := by
  have hpos := cfg.size_pos
  unfold received
  split
  next h =>
    cases hrecv : o.recv with
    | none => simp [h]; omega
    | some n => simp [h]
  next h => simp [h]; omega

/-- An answer of full length has been a message of full length. -/
theorem roundTrip_iff (h : cfg.service = .echo) (o : Outcome cfg) :
    RoundTrip o ↔ received o = cfg.messageSize := by
  rw [received_eq_iff]
  constructor
  · rintro ⟨hconnect, -, hrecv⟩
    exact ⟨hconnect, hrecv⟩
  · rintro ⟨hconnect, hrecv⟩
    refine ⟨hconnect, ?_, hrecv⟩
    have hworker := o.workerSend_returns
    rw [h] at hworker
    have hback := o.recv_le _ hrecv
    have hthere := (hback.trans (send_getD_le hworker)).trans o.workerRecv_le
    have hfirst := send_getD_le o.send_returns
    have hpos := cfg.size_pos
    cases hsend : o.send with
    | none =>
      rw [hsend] at hthere
      simp at hthere
      omega
    | some k =>
      rw [hsend] at hthere hfirst
      simp at hthere hfirst
      rw [le_antisymm hfirst hthere]

end

end SysPerf.Transfer
