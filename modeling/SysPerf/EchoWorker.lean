import SysPerf.CString

namespace SysPerf.EchoWorker

open CString

/-- What reaches the worker before its `recv` returns, in the segments that TCP makes of the
message of a client. -/
structure Delivery (messageSize : ℕ) where
  message : List UInt8
  segments : List (List UInt8)
  message_le : message.length ≤ messageSize
  delivered : segments.flatten <+: message

inductive Ended
  | exited
  | sent (bytes : List UInt8)
  deriving DecidableEq

section

variable {messageSize : ℕ}

/-- `recv` with `MSG_WAITALL` from the byte `i` of the buffer on: it stores segment after segment
until it has `len` bytes or the peer stops. -/
def recv {n : ℕ} (buf : Buffer n) (len i : ℕ) : List (List UInt8) → Option (Buffer n × ℕ)
  | [] => some (buf, i)
  | segment :: segments =>
    let stored := segment.take (len - i)
    (buf.store i stored).bind fun buf => recv buf len (i + stored.length) segments

/-- The bytes that `send` is handed. -/
def handed {n : ℕ} (buf : Buffer n) : Option (List UInt8) :=
  (strlen buf.bytes).map fun len => buf.bytes.take len

/-- The body of a worker of rtt.cpp and remote_rtt.cpp. `MAXSIZE` is `MESSAGE_SIZE + 1` and the
buffer is not initialized; without a delivery `recv` has returned -1. -/
def worker (buf : Buffer (messageSize + 1)) : Option (Delivery messageSize) → Option Ended
  | none => some .exited
  | some delivery =>
    (recv buf (messageSize + 1 - 1) 0 delivery.segments).bind fun (buf, numbytes) =>
      (buf.set numbytes 0).bind fun buf => (handed buf).map .sent

def Delivery.received (delivery : Delivery messageSize) : List UInt8 :=
  delivery.segments.flatten

theorem Delivery.received_le (delivery : Delivery messageSize) :
    delivery.received.length ≤ messageSize :=
  delivery.delivered.length_le.trans delivery.message_le

/-- The segments make no difference to what is stored. -/
theorem recv_eq_store {n len i : ℕ} (buf : Buffer n) {segments : List (List UInt8)}
    (h : i + segments.flatten.length ≤ len) :
    recv buf len i segments =
      (buf.store i segments.flatten).map fun buf => (buf, i + segments.flatten.length) := by
  induction segments generalizing buf i with
  | nil => rfl
  | cons segment segments ih =>
    rw [List.flatten_cons, List.length_append] at h ⊢
    have hall : segment.take (len - i) = segment := List.take_of_length_le (by omega)
    show (buf.store i (segment.take (len - i))).bind (fun buf =>
      recv buf len (i + (segment.take (len - i)).length) segments) = _
    rw [Buffer.store_append, hall]
    cases buf.store i segment with
    | none => rfl
    | some buf' =>
      have hrest := ih buf' (i := i + segment.length) (by omega)
      rw [← Nat.add_assoc]
      exact hrest

theorem handed_zero {n : ℕ} {buf : Buffer n} {cs rest : List UInt8}
    (h : buf.bytes = cs ++ 0 :: rest) : handed buf = some (cs.takeWhile (· ≠ 0)) := by
  unfold handed
  rw [h, strlen_zero]
  show some ((cs ++ 0 :: rest).take (cs.takeWhile (· ≠ 0)).length) = _
  have hle := (cs.takeWhile_prefix (· ≠ 0)).length_le
  rw [List.take_append_of_le_length hle]
  have htake := List.prefix_iff_eq_take.mp (cs.takeWhile_prefix (· ≠ 0))
  rw [← htake]

/-- The worker stays inside its buffer and sends what came before the first byte 0. -/
theorem worker_delivery (buf : Buffer (messageSize + 1)) (delivery : Delivery messageSize) :
    worker buf (some delivery) = some (.sent (delivery.received.takeWhile (· ≠ 0))) := by
  have hle := delivery.received_le
  obtain ⟨stored, hstore, hbytes⟩ := buf.store_spec 0 delivery.received (by omega)
  obtain ⟨ended, hset, hended⟩ := stored.set_spec (i := delivery.received.length) (by omega) 0
  have hfirst : stored.bytes.take delivery.received.length = delivery.received := by
    rw [hbytes]
    simp
  rw [hfirst] at hended
  have hfits : 0 + delivery.segments.flatten.length ≤ messageSize := by
    rw [Nat.zero_add]
    exact hle
  have hrecv := recv_eq_store buf hfits
  rw [Nat.zero_add] at hrecv
  show (recv buf messageSize 0 delivery.segments).bind _ = _
  rw [hrecv]
  show ((buf.store 0 delivery.received).map _).bind _ = _
  rw [hstore]
  show (stored.set delivery.received.length 0).bind _ = _
  rw [hset]
  show (handed ended).map _ = _
  rw [handed_zero hended]
  rfl

/-- The worker stays inside its buffer and hands on what it got. -/
def EchoSpec (buf : Buffer (messageSize + 1)) (delivery : Delivery messageSize) : Prop :=
  ∃ bytes, worker buf (some delivery) = some (.sent bytes) ∧ bytes = delivery.received

theorem echoSpec_iff (buf : Buffer (messageSize + 1)) (delivery : Delivery messageSize) :
    EchoSpec buf delivery ↔ 0 ∉ delivery.received := by
  unfold EchoSpec
  rw [worker_delivery, ← takeWhile_eq_self_iff_zero_notMem]
  constructor
  · rintro ⟨bytes, hsent, hbytes⟩
    cases hsent
    exact hbytes
  · intro h
    exact ⟨_, rfl, h⟩

end

/-- A message of rtt.cpp that begins with a byte 0 comes back empty. -/
theorem echo_of_zero : ¬∀ (buf : Buffer (64 + 1)) (delivery : Delivery 64),
    EchoSpec buf delivery := by
  intro h
  have hzero : [List.replicate 64 (0 : UInt8)].flatten <+: List.replicate 64 0 :=
    List.prefix_refl _
  have hlength : (List.replicate 64 (0 : UInt8)).length ≤ 64 := by simp
  obtain ⟨bytes, hsent, hbytes⟩ := h ⟨List.replicate 65 0, List.length_replicate⟩
    ⟨List.replicate 64 0, [List.replicate 64 0], hlength, hzero⟩
  rw [worker_delivery] at hsent
  cases hsent
  exact absurd hbytes (by simp [Delivery.received])

end SysPerf.EchoWorker
