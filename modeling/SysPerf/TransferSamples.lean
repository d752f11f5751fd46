import SysPerf.Transfer

namespace SysPerf.Transfer

open Server (Service)

variable {cfg : Config}

theorem bytesCompleted_eq_iff {outcomes : ℕ → Outcome cfg} {n : ℕ} :
    bytesCompleted outcomes n = n * cfg.messageSize ↔
      ∀ i < n, received (outcomes i) = cfg.messageSize := by
  have hall : ∑ _i ∈ Finset.range n, cfg.messageSize = n * cfg.messageSize := by simp
  unfold bytesCompleted
  rw [← hall, Finset.sum_eq_sum_iff_of_le fun i _ => received_le (outcomes i)]
  simp

theorem roundTripsCompleted_eq_iff {outcomes : ℕ → Outcome cfg} {n : ℕ} :
    roundTripsCompleted outcomes n = n ↔ ∀ i < n, RoundTrip (outcomes i) := by
  have hall : (Finset.range n).card = n := Finset.card_range n
  unfold roundTripsCompleted
  nth_rewrite 2 [← hall]
  rw [Finset.card_filter_eq_iff]
  simp

/-- A timer that has counted one microsecond. -/
theorem timeDiffMicro_one :
    (((⟨0, 0, 0, 0⟩ : Timer).begin 0).end' 1).timeDiffMicro (1 : ℚ) = 1 := by
  have hdiff : ((1 : BitVec 64) - 0).toNat = 1 := by decide
  unfold Timer.timeDiffMicro
  rw [Timer.diff_begin_end, hdiff]
  norm_num

/-- A sample is worked out where the loop has run to its end. -/
theorem map_requestLoop {K : Type} {outcomes : ℕ → Outcome cfg} {value sample : K} :
    ((requestLoop outcomes 0 cfg.requests).map fun _ => value) = some sample ↔
      Made outcomes cfg.requests ∧ value = sample := by
  rw [← requestLoop_iff_made]
  cases h : requestLoop outcomes 0 cfg.requests with
  | none => simp
  | some done => simp

/-- What is said of the samples, without the clock. -/
def Counted (outcomes : ℕ → Outcome cfg) : Prop :=
  Made outcomes cfg.requests → ∀ i < cfg.requests, received (outcomes i) = cfg.messageSize

theorem counted_of_measureBw {outcomes : ℕ → Outcome cfg} (h : ∀ (freq : ℚ) t stamps sample,
    measureBw freq t stamps outcomes = some sample →
      sample = ((bytesCompleted outcomes cfg.requests : ℕ) : ℚ) /
        ((t.begin stamps.1).end' stamps.2).timeDiffMicro freq) : Counted outcomes := by
  intro hmade
  have hsample := h 1 ⟨0, 0, 0, 0⟩ (0, 1) _ (map_requestLoop.mpr ⟨hmade, rfl⟩)
  rw [timeDiffMicro_one, div_one, div_one] at hsample
  exact bytesCompleted_eq_iff.mp (by exact_mod_cast hsample.symm)

theorem counted_of_measureRtt (hecho : cfg.service = .echo) {outcomes : ℕ → Outcome cfg}
    (h : ∀ (freq : ℚ) t stamps sample, measureRtt freq t stamps outcomes = some sample →
      sample = ((t.begin stamps.1).end' stamps.2).timeDiffMicro freq /
        ((roundTripsCompleted outcomes cfg.requests * 1000 : ℕ) : ℚ)) : Counted outcomes := by
  intro hmade
  have hsample := h 1 ⟨0, 0, 0, 0⟩ (0, 1) _ (map_requestLoop.mpr ⟨hmade, rfl⟩)
  rw [timeDiffMicro_one, one_div, one_div, inv_inj] at hsample
  have hcount : cfg.requests * 1000 = roundTripsCompleted outcomes cfg.requests * 1000 := by
    exact_mod_cast hsample
  have hall := roundTripsCompleted_eq_iff.mp (by omega : roundTripsCompleted outcomes cfg.requests = _)
  intro i hi
  exact (roundTrip_iff hecho _).mp (hall i hi)

theorem Made.mono {outcomes : ℕ → Outcome cfg} {i k : ℕ} (h : Made outcomes k) (hi : i ≤ k) :
    Made outcomes i := by
  intro j hj
  exact h j (by omega)

theorem whole_iff {outcomes : ℕ → Outcome cfg} :
    WholeTransfers outcomes ↔
      (∀ i < cfg.requests, Made outcomes i → createClient (outcomes i) = some true →
        received (outcomes i) = cfg.messageSize) ∧ Counted outcomes := by
  constructor
  · rintro ⟨hshort, hall⟩
    have hwhole : ∀ i < cfg.requests, Made outcomes i → (outcomes i).connect →
        (outcomes i).recv ≠ none → received (outcomes i) = cfg.messageSize := by
      intro i hi hmade hconnect hrecv
      obtain ⟨n, hn⟩ := Option.ne_none_iff_exists'.mp hrecv
      obtain rfl := hshort i hi hmade hconnect n hn
      exact (received_eq_iff _).mpr ⟨hconnect, hn⟩
    constructor
    · intro i hi hmade htrue
      obtain ⟨hconnect, hrecv⟩ := (createClient_eq_true_iff _).mp htrue
      exact hwhole i hi hmade hconnect hrecv
    · intro hmade i hi
      have hconnect := hall hmade i hi
      exact hwhole i hi (hmade.mono (by omega)) hconnect (hmade i hi hconnect)
  · rintro ⟨htrue, hcount⟩
    constructor
    · intro i hi hmade hconnect n hn
      have hsome : (outcomes i).recv ≠ none := Option.ne_none_iff_exists'.mpr ⟨n, hn⟩
      have hclient : createClient (outcomes i) = some true :=
        (createClient_eq_true_iff _).mpr ⟨hconnect, hsome⟩
      obtain ⟨-, hrecv⟩ := (received_eq_iff _).mp (htrue i hi hmade hclient)
      exact Option.some.inj (hn.symm.trans hrecv)
    · intro hmade i hi
      exact ((received_eq_iff _).mp (hcount hmade i hi)).1

/-- Both programs count what was completed exactly where no transfer is cut short and, in a loop
that no failed `recv` ends, no connection refused. -/
theorem sampleSpec_iff (outcomes : ℕ → Outcome cfg) :
    SampleSpec outcomes ↔ WholeTransfers outcomes := by
  rw [whole_iff]
  unfold SampleSpec
  apply and_congr_right
  intro _
  cases hservice : cfg.service with
  | push =>
    constructor
    · exact counted_of_measureBw
    · intro hcount freq t stamps sample hsample
      obtain ⟨hmade, rfl⟩ := map_requestLoop.mp hsample
      rw [bytesCompleted_eq_iff.mpr (hcount hmade)]
  | echo =>
    constructor
    · exact counted_of_measureRtt hservice
    · intro hcount freq t stamps sample hsample
      obtain ⟨hmade, rfl⟩ := map_requestLoop.mp hsample
      have hall : ∀ i < cfg.requests, RoundTrip (outcomes i) := by
        intro i hi
        exact (roundTrip_iff hservice _).mpr (hcount hmade i hi)
      rw [roundTripsCompleted_eq_iff.mpr hall]

/-- A call on a connection that is refused. -/
def refused (cfg : Config) : Outcome cfg where
  connect := false
  send := none
  workerRecv := 0
  workerSend := none
  recv := none
  send_returns := by simp [SendReturns]
  workerRecv_le := le_rfl
  workerSend_returns := by cases cfg.service <;> simp [SendReturns]
  recv_le := by simp

/-- Five refused connections are a bandwidth sample like any other. -/
theorem sample_of_nothing :
    ¬∀ (cfg : Config) (outcomes : ℕ → Outcome cfg), SampleSpec outcomes := by
  intro h
  have hmade : Made (fun _ => refused bw) bw.requests := by
    intro j _ hconnect
    simp [refused] at hconnect
  have hcount := counted_of_measureBw (h bw fun _ => refused bw).2 hmade 0 (by decide)
  have hnone : received (refused bw) = 0 := by simp [received, refused]
  rw [hnone] at hcount
  exact absurd hcount bw.size_pos.ne

end SysPerf.Transfer
