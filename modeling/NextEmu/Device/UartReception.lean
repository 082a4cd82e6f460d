import NextEmu.Device.UartRx

/-!
# Receiving one frame

What the receiver does with a frame whose bits last `clkPerBit` clocks each. The line is
looked at two clocks late, at the middle of the start bit, and from there on every
`clkPerBit + 1` clocks, so that the sampling drifts by one clock a bit; the frame is received
as long as that drift stays inside the second half of a bit.
-/

namespace NextEmu.Device.UartReception

open UartRx

variable {p : Params}

/-! ## One clock -/

/-- A register that is one bit wider than it takes to tell `n` values apart holds `n`. -/
theorem lt_width (n : Nat) : n < 2 ^ (Nat.clog 2 n + 1) := by
  have hle : n ≤ 2 ^ Nat.clog 2 n := Nat.le_pow_clog (by decide) _
  have hpos : 0 < 2 ^ Nat.clog 2 n := Nat.two_pow_pos _
  rw [Nat.pow_succ]
  omega

theorem paramClkPerBit_toNat (p : Params) : p.paramClkPerBit.toNat = p.clkPerBit := by
  rw [Params.paramClkPerBit, BitVec.toNat_ofNat]
  exact Nat.mod_eq_of_lt (lt_width _)

/-- A counter that is below its limit does not wrap. -/
theorem succ_mod {n m : Nat} (hm : m < n) : (m + 1) % 2 ^ (Nat.clog 2 n + 1) = m + 1 :=
  Nat.mod_eq_of_lt (Nat.lt_of_le_of_lt hm (lt_width n))

theorem getLsbD_writeBit {n : Nat} (x : BitVec n) {i j : Nat} (b : Bool) (hj : j < n) :
    (writeBit x i b).getLsbD j = if j = i then b else x.getLsbD j := by
  unfold writeBit
  rw [← BitVec.twoPow_eq, BitVec.getLsbD_or, BitVec.getLsbD_and, BitVec.getLsbD_not,
    BitVec.getLsbD_twoPow]
  by_cases hji : j = i
  · subst hji
    cases b <;> simp [hj]
  · cases b <;> simp [hj, hji, Ne.symm hji]

/-- Where the receiver is in a frame. -/
structure At (u : UartRx p) (state : FsmState) (clk bit : Nat) : Prop where
  state : u.fsmState = state
  clk : u.clkCounter.toNat = clk
  bit : u.bitCounter.toNat = bit

/-- The value of the clock counter at which a state is left, or its next bit begun. -/
def limit (p : Params) : FsmState → Nat
  | .idle => 0
  | .startBit => p.clkPerBit / 2
  | .dataBits => p.clkPerBit
  | .stopBit => p.clkPerBit

section Clock

variable {u : UartRx p} {clk bit : Nat}

theorem recvBit_clock (u : UartRx p) (rx : Bool) :
    (u.clock rx).recvBit = u.recvDataBit.getLsbD 0 ∧
      (u.clock rx).recvDataBit.getLsbD 0 = rx := by
  unfold recvBit clock
  constructor
  · rw [BitVec.getLsbD_append]
    simp
  · rw [BitVec.getLsbD_append]
    simp

theorem clock_idle_high (h : u.fsmState = .idle) (hbit : u.recvBit = true) (rx : Bool) :
    (u.clock rx).fsmState = .idle ∧ (u.clock rx).rxDone = false := by
  unfold clock rxDone nextFsmState stopBitMidMoment
  rw [h]
  simp [hbit]

theorem clock_idle_low (h : u.fsmState = .idle) (hbit : u.recvBit = false) (rx : Bool) :
    At (u.clock rx) .startBit 0 0 ∧ (u.clock rx).rxDone = false := by
  refine ⟨⟨?_, ?_, ?_⟩, ?_⟩
  · simp [clock, nextFsmState, h, hbit]
  · simp [clock, nextClkCounter, h]
  · simp [clock, nextBitCounter, h]
  · simp [clock, rxDone, stopBitMidMoment, h]

/-- Before its limit a state only counts. -/
theorem clock_wait {state : FsmState} (h : At u state clk bit) (hclk : clk < limit p state)
    (hbit : state = .dataBits → bit < p.payloadBits) (rx : Bool) :
    At (u.clock rx) state (clk + 1) bit ∧ (u.clock rx).rxDone = false ∧
      (u.clock rx).recvData = u.recvData := by
  obtain ⟨hstate, hc, hb⟩ := h
  have hle : limit p state ≤ p.clkPerBit := by
    cases state
    · exact Nat.zero_le _
    · exact Nat.div_le_self ..
    · exact Nat.le_refl _
    · exact Nat.le_refl _
  have hsucc : (clk + 1) % 2 ^ p.clkCounterBitWidth = clk + 1 :=
    succ_mod (n := p.clkPerBit) (by omega)
  have hne : clk ≠ limit p state := by omega
  cases state with
  | idle => exact absurd hclk (Nat.not_lt_zero _)
  | startBit =>
    simp only [limit] at hclk hne
    refine ⟨⟨?_, ?_, ?_⟩, ?_, ?_⟩
    · simp [clock, nextFsmState, startBitMidMoment, hstate, hc, paramClkPerBit_toNat, hne]
    · simp [clock, nextClkCounter, hstate, hc, paramClkPerBit_toNat, hclk, hsucc]
    · simp [clock, nextBitCounter, hstate, hb]
    · simp [clock, rxDone, stopBitMidMoment, hstate]
    · simp [clock, nextRecvData, dataBitMidMoment, hstate]
  | dataBits =>
    simp only [limit] at hclk hne
    have hlt := hbit rfl
    have hnb : bit ≠ p.payloadBits := by omega
    refine ⟨⟨?_, ?_, ?_⟩, ?_, ?_⟩
    · simp [clock, nextFsmState, hstate, hb, hnb]
    · simp [clock, nextClkCounter, hstate, hc, paramClkPerBit_toNat, hclk, hsucc]
    · simp [clock, nextBitCounter, dataBitMidMoment, hstate, hc, paramClkPerBit_toNat, hne, hb]
    · simp [clock, rxDone, stopBitMidMoment, hstate]
    · simp [clock, nextRecvData, dataBitMidMoment, hstate, hc, paramClkPerBit_toNat, hne]
  | stopBit =>
    simp only [limit] at hclk hne
    refine ⟨⟨?_, ?_, ?_⟩, ?_, ?_⟩
    · simp [clock, nextFsmState, stopBitMidMoment, hstate, hc, paramClkPerBit_toNat, hne]
    · simp [clock, nextClkCounter, hstate, hc, paramClkPerBit_toNat, hclk, hsucc]
    · simp [clock, nextBitCounter, hstate, hb]
    · simp [clock, rxDone, stopBitMidMoment, hstate, hc, paramClkPerBit_toNat, hne]
    · simp [clock, nextRecvData, dataBitMidMoment, hstate]

/-- The middle of the start bit. -/
theorem clock_start (h : At u .startBit (p.clkPerBit / 2) bit) (rx : Bool) :
    At (u.clock rx) (if u.recvBit = false then .dataBits else .idle) 0 bit ∧
      (u.clock rx).rxDone = false := by
  obtain ⟨hstate, hc, hb⟩ := h
  refine ⟨⟨?_, ?_, ?_⟩, ?_⟩
  · simp [clock, nextFsmState, startBitMidMoment, hstate, hc, paramClkPerBit_toNat]
  · simp [clock, nextClkCounter, hstate, hc, paramClkPerBit_toNat]
  · simp [clock, nextBitCounter, hstate, hb]
  · simp [clock, rxDone, stopBitMidMoment, hstate]

/-- The middle of a data bit. -/
theorem clock_data (h : At u .dataBits p.clkPerBit bit) (hbit : bit < p.payloadBits) (rx : Bool) :
    At (u.clock rx) .dataBits 0 (bit + 1) ∧ (u.clock rx).rxDone = false ∧
      (u.clock rx).recvData = writeBit u.recvData bit u.recvBit := by
  obtain ⟨hstate, hc, hb⟩ := h
  have hsucc : (bit + 1) % 2 ^ p.bitCounterBitWidth = bit + 1 := succ_mod hbit
  have hnb : bit ≠ p.payloadBits := by omega
  have hindex : bit % 2 ^ (p.bitCounterBitWidth - 1) = bit :=
    Nat.mod_eq_of_lt (Nat.lt_of_lt_of_le hbit (Nat.le_pow_clog (by decide) _))
  refine ⟨⟨?_, ?_, ?_⟩, ?_, ?_⟩
  · simp [clock, nextFsmState, hstate, hb, hnb]
  · simp [clock, nextClkCounter, hstate, hc, paramClkPerBit_toNat]
  · simp [clock, nextBitCounter, dataBitMidMoment, hstate, hc, paramClkPerBit_toNat, hb, hbit,
      hsucc]
  · simp [clock, rxDone, stopBitMidMoment, hstate]
  · simp [clock, nextRecvData, dataBitMidMoment, hstate, hc, paramClkPerBit_toNat, hb, hindex]

/-- The clock after the last data bit, which is the first one of the stop bit. -/
theorem clock_last (h : At u .dataBits 0 p.payloadBits) (hpos : 0 < p.clkPerBit) (rx : Bool) :
    At (u.clock rx) .stopBit 1 p.payloadBits ∧ (u.clock rx).rxDone = false ∧
      (u.clock rx).recvData = u.recvData := by
  obtain ⟨hstate, hc, hb⟩ := h
  have hsucc : 1 % 2 ^ p.clkCounterBitWidth = 1 := succ_mod hpos
  have hne : 0 ≠ p.clkPerBit := by omega
  refine ⟨⟨?_, ?_, ?_⟩, ?_, ?_⟩
  · simp [clock, nextFsmState, hstate, hb]
  · simp [clock, nextClkCounter, hstate, hc, paramClkPerBit_toNat, hpos, hsucc]
  · simp [clock, nextBitCounter, dataBitMidMoment, hstate, hc, paramClkPerBit_toNat, hne, hb]
  · simp [clock, rxDone, stopBitMidMoment, hstate]
  · simp [clock, nextRecvData, dataBitMidMoment, hstate, hc, paramClkPerBit_toNat, hne]

/-- The middle of the stop bit. -/
theorem clock_stop (h : At u .stopBit p.clkPerBit bit) (rx : Bool) :
    (u.clock rx).fsmState = .idle ∧ (u.clock rx).rxDone = true ∧
      (u.clock rx).recvData = u.recvData := by
  obtain ⟨hstate, hc, hb⟩ := h
  refine ⟨?_, ?_, ?_⟩
  · simp [clock, nextFsmState, stopBitMidMoment, hstate, hc, paramClkPerBit_toNat]
  · simp [clock, rxDone, stopBitMidMoment, hstate, hc, paramClkPerBit_toNat]
  · simp [clock, nextRecvData, dataBitMidMoment, hstate]

end Clock

/-! ## A frame -/

/-- No byte is announced after the edges from `t` to `t'`. -/
def Quiet (p : Params) (line : Nat → Bool) (t t' : Nat) : Prop :=
  ∀ k, t < k → k ≤ t' → (after line k : UartRx p).rxDone = false

/-- From clock `s` on the line carries a start bit, the bits of `b` and a stop bit. -/
structure Frame (line : Nat → Bool) (s : Nat) (b : BitVec p.payloadBits) : Prop where
  start : ∀ k, k < p.clkPerBit → line (s + k) = false
  data : ∀ i k, i < p.payloadBits → k < p.clkPerBit →
    line (s + p.clkPerBit * (i + 1) + k) = b.getLsbD i
  stop : ∀ k, k < p.clkPerBit → line (s + p.clkPerBit * (p.payloadBits + 1) + k) = true

/-- The number of clocks from the start of a frame to the one that announces it. -/
def frameClocks (p : Params) : Nat := p.clkPerBit / 2 + (p.clkPerBit + 1) * (p.payloadBits + 1) + 4

section Frame

variable {line : Nat → Bool} {t t' : Nat}

theorem Quiet.trans {t₁ : Nat} (h : Quiet p line t t₁) (h' : Quiet p line t₁ t') :
    Quiet p line t t' := by
  intro k hlo hhi
  by_cases hk : k ≤ t₁
  · exact h k hlo hk
  · exact h' k (Nat.lt_of_not_le hk) hhi

theorem Quiet.step (h : Quiet p line t t')
    (hstep : (after line (t' + 1) : UartRx p).rxDone = false) : Quiet p line t (t' + 1) := by
  intro k hlo hhi
  by_cases hk : k ≤ t'
  · exact h k hlo hk
  · obtain rfl : k = t' + 1 := by omega
    exact hstep

theorem Quiet.refl (t : Nat) : Quiet p line t t := fun k hlo hhi => absurd hlo (by omega)

/-- The line behind the synchroniser, whose two registers are reset to 0. -/
def synced (line : Nat → Bool) : Nat → Bool
  | 0 => false
  | 1 => false
  | t + 2 => line t

/-- The FSM sees the line two clocks late. -/
theorem recvBit_after (line : Nat → Bool) (t : Nat) :
    (after line t : UartRx p).recvBit = synced line t := by
  match t with
  | 0 => exact BitVec.getLsbD_zero
  | 1 => exact (recvBit_clock (after line 0 : UartRx p) (line 0)).1.trans BitVec.getLsbD_zero
  | t + 2 =>
    have hlate := (recvBit_clock (after line (t + 1) : UartRx p) (line (t + 1))).1
    exact hlate.trans (recvBit_clock (after line t : UartRx p) (line t)).2

/-- While it sees the line high an idle receiver stays idle. -/
theorem idle_high {m : Nat} (h : (after line t : UartRx p).fsmState = .idle)
    (hhigh : ∀ k, k < m → synced line (t + k) = true) :
    (after line (t + m) : UartRx p).fsmState = .idle ∧ Quiet p line t (t + m) := by
  induction m with
  | zero => exact ⟨h, .refl _⟩
  | succ m ih =>
    obtain ⟨hidle, hquiet⟩ := ih fun k hk => hhigh k (Nat.lt_succ_of_lt hk)
    have hbit : (after line (t + m) : UartRx p).recvBit = true :=
      (recvBit_after line (t + m)).trans (hhigh m (Nat.lt_succ_self m))
    obtain ⟨hidle', hdone⟩ := clock_idle_high hidle hbit (line (t + m))
    exact ⟨hidle', hquiet.step hdone⟩

theorem after_idle {m : Nat} (h : (after line (t + 2) : UartRx p).fsmState = .idle)
    (hhigh : ∀ k, k < m → line (t + k) = true) :
    (after line (t + m + 2) : UartRx p).fsmState = .idle ∧ Quiet p line (t + 2) (t + m + 2) := by
  have hindex : ∀ k, t + 2 + k = t + k + 2 := fun k => Nat.add_right_comm t 2 k
  have hall := idle_high (m := m) h fun k hk => by
    rw [hindex]
    exact hhigh k hk
  rwa [hindex] at hall

theorem after_wait {state : FsmState} {clk bit m : Nat}
    (h : At (after line t : UartRx p) state clk bit) (hm : clk + m ≤ limit p state)
    (hbit : state = .dataBits → bit < p.payloadBits) :
    At (after line (t + m) : UartRx p) state (clk + m) bit ∧ Quiet p line t (t + m) ∧
      (after line (t + m) : UartRx p).recvData = (after line t : UartRx p).recvData := by
  induction m with
  | zero => exact ⟨h, .refl _, rfl⟩
  | succ m ih =>
    obtain ⟨hat, hquiet, hdata⟩ := ih (by omega)
    obtain ⟨hat', hdone, hdata'⟩ := clock_wait hat (by omega) hbit (line (t + m))
    exact ⟨hat', hquiet.step hdone, hdata'.trans hdata⟩

variable {s : Nat} {b : BitVec p.payloadBits}

/-- The clock at which the line is looked at for bit `i` behind a falling edge at `s`. -/
def sampleAt (p : Params) (s i : Nat) : Nat := s + p.clkPerBit / 2 + 1 + (p.clkPerBit + 1) * (i + 1)

/-- From clock `s` on the line has what the receiver takes for a start bit and the bits of `b`. -/
structure Heard (line : Nat → Bool) (s : Nat) (b : BitVec p.payloadBits) : Prop where
  start : line s = false
  middle : line (s + p.clkPerBit / 2 + 1) = false
  bits : ∀ i, i < p.payloadBits → line (sampleAt p s i) = b.getLsbD i

/-- Where the drift stays inside the second half of a bit, the bits are those of the frame. -/
theorem Frame.heard (h : Frame line s b)
    (hN : p.clkPerBit / 2 + p.payloadBits + 2 ≤ p.clkPerBit) : Heard line s b where
  start := h.start 0 (by omega)
  middle := by
    rw [Nat.add_assoc]
    exact h.start _ (by omega)
  bits i hi := by
    have hmul : (p.clkPerBit + 1) * (i + 1) = p.clkPerBit * (i + 1) + (i + 1) := Nat.succ_mul ..
    have hindex : sampleAt p s i =
        s + p.clkPerBit * (i + 1) + (p.clkPerBit / 2 + i + 2) := by
      rw [sampleAt]
      omega
    rw [hindex]
    exact h.data i _ hi (by omega)

/-- The clock at which the stop bit is due. -/
def stopAt (p : Params) (s : Nat) : Nat := sampleAt p s p.payloadBits

/-- An idle receiver that sees a falling edge looks at the line half a bit later. -/
theorem edge_sampled (hlow : synced line s = false)
    (hidle : (after line s : UartRx p).fsmState = .idle) :
    At (after line (s + p.clkPerBit / 2 + 2) : UartRx p)
        (if synced line (s + p.clkPerBit / 2 + 1) = false then .dataBits else .idle) 0 0 ∧
      Quiet p line s (s + p.clkPerBit / 2 + 2) := by
  obtain ⟨hat, hdone⟩ := clock_idle_low hidle ((recvBit_after line s).trans hlow) (line s)
  have hquiet : Quiet p line s (s + 1) := (Quiet.refl _).step hdone
  obtain ⟨hmid, hquiet', -⟩ := after_wait (m := p.clkPerBit / 2)
    (show At (after line (s + 1) : UartRx p) .startBit 0 0 from hat)
    (Nat.le_of_eq (Nat.zero_add _)) nofun
  have hindex : s + 1 + p.clkPerBit / 2 = s + p.clkPerBit / 2 + 1 := Nat.add_right_comm ..
  rw [Nat.zero_add, hindex] at hmid
  rw [hindex] at hquiet'
  obtain ⟨hdata, hdone'⟩ := clock_start hmid (line (s + p.clkPerBit / 2 + 1))
  rw [recvBit_after] at hdata
  exact ⟨hdata, (hquiet.trans hquiet').step hdone'⟩

/-- The first `i` bits are in the register. -/
theorem heard_bits (h : Heard (synced line) s b)
    (hidle : (after line s : UartRx p).fsmState = .idle) (i : Nat) (hi : i ≤ p.payloadBits) :
    At (after line (s + p.clkPerBit / 2 + 2 + (p.clkPerBit + 1) * i) : UartRx p) .dataBits 0 i ∧
      Quiet p line s (s + p.clkPerBit / 2 + 2 + (p.clkPerBit + 1) * i) ∧
      ∀ j, j < i → (after line (s + p.clkPerBit / 2 + 2 + (p.clkPerBit + 1) * i) :
        UartRx p).recvData.getLsbD j = b.getLsbD j := by
  induction i with
  | zero =>
    obtain ⟨hat, hquiet⟩ := edge_sampled h.start hidle
    rw [if_pos h.middle] at hat
    exact ⟨hat, hquiet, fun j hj => absurd hj (Nat.not_lt_zero j)⟩
  | succ i ih =>
    obtain ⟨hat, hquiet, hbits⟩ := ih (by omega)
    obtain ⟨hmid, hquiet', hsame⟩ := after_wait (m := p.clkPerBit) hat
      (Nat.le_of_eq (Nat.zero_add _)) (fun _ => hi)
    have hindex : s + p.clkPerBit / 2 + 2 + (p.clkPerBit + 1) * i + p.clkPerBit =
        sampleAt p s i := by
      rw [sampleAt, Nat.mul_succ]
      omega
    rw [Nat.zero_add, hindex] at hmid
    rw [hindex] at hquiet' hsame
    have hsample : (after line (sampleAt p s i) : UartRx p).recvBit = b.getLsbD i :=
      (recvBit_after line _).trans (h.bits i hi)
    obtain ⟨hat', hdone, hdata⟩ := clock_data hmid hi (line (sampleAt p s i))
    rw [hsample, hsame] at hdata
    have hnext : s + p.clkPerBit / 2 + 2 + (p.clkPerBit + 1) * (i + 1) = sampleAt p s i + 1 := by
      rw [sampleAt]
      omega
    rw [hnext]
    refine ⟨hat', (hquiet.trans hquiet').step hdone, fun j hj => ?_⟩
    have hafter := congrArg (·.getLsbD j) hdata
    refine hafter.trans ?_
    rw [getLsbD_writeBit _ _ (by omega)]
    by_cases hji : j = i
    · rw [if_pos hji, hji]
    · rw [if_neg hji]
      exact hbits j (by omega)

/-- A byte that an idle receiver hears is announced once, behind the clock of the stop bit. -/
theorem heard_done (h : Heard (synced line) s b) (hpos : 0 < p.clkPerBit)
    (hidle : (after line s : UartRx p).fsmState = .idle) :
    (after line (stopAt p s + 1) : UartRx p).fsmState = .idle ∧
      (after line (stopAt p s + 1) : UartRx p).rxDone = true ∧
      (after line (stopAt p s + 1) : UartRx p).rxData = b ∧
      Quiet p line s (stopAt p s) := by
  obtain ⟨hat, hquiet, hbits⟩ := heard_bits h hidle p.payloadBits (Nat.le_refl _)
  obtain ⟨hstop, hdone, hdata⟩ := clock_last hat hpos
    (line (s + p.clkPerBit / 2 + 2 + (p.clkPerBit + 1) * p.payloadBits))
  obtain ⟨hmid, hquiet', hsame⟩ := after_wait (m := p.clkPerBit - 1)
    (show At (after line (s + p.clkPerBit / 2 + 2 + (p.clkPerBit + 1) * p.payloadBits + 1) :
      UartRx p) .stopBit 1 p.payloadBits from hstop)
    (by rw [limit]; omega) nofun
  have hlimit : 1 + (p.clkPerBit - 1) = p.clkPerBit := by omega
  have hindex : s + p.clkPerBit / 2 + 2 + (p.clkPerBit + 1) * p.payloadBits + 1 +
      (p.clkPerBit - 1) = stopAt p s := by
    rw [stopAt, sampleAt, Nat.mul_succ]
    omega
  rw [hlimit, hindex] at hmid
  rw [hindex] at hquiet' hsame
  obtain ⟨hend, hlast, hkept⟩ := clock_stop hmid (line (stopAt p s))
  refine ⟨hend, hlast, ?_, (hquiet.step hdone).trans hquiet'⟩
  refine BitVec.eq_of_getLsbD_eq fun j hj => ?_
  have hreg := (hkept.trans hsame).trans hdata
  exact (congrArg (·.getLsbD j) hreg).trans (hbits j hj)

/-! The same in clocks of the line itself. -/

theorem edge_middle (hlow : line s = false)
    (hidle : (after line (s + 2) : UartRx p).fsmState = .idle) :
    At (after line (s + 4 + p.clkPerBit / 2) : UartRx p)
        (if line (s + p.clkPerBit / 2 + 1) = false then .dataBits else .idle) 0 0 ∧
      Quiet p line (s + 2) (s + 4 + p.clkPerBit / 2) := by
  have hlate : s + 2 + p.clkPerBit / 2 + 1 = s + p.clkPerBit / 2 + 1 + 2 := by omega
  have hend : s + 2 + p.clkPerBit / 2 + 2 = s + 4 + p.clkPerBit / 2 := by omega
  have hall := edge_sampled (s := s + 2) hlow hidle
  rwa [hlate, hend] at hall

theorem Heard.synced (h : Heard line s b) : Heard (synced line) (s + 2) b where
  start := h.start
  middle := by
    have hlate : s + 2 + p.clkPerBit / 2 + 1 = s + p.clkPerBit / 2 + 1 + 2 := by omega
    rw [hlate]
    exact h.middle
  bits i hi := by
    have hlate : sampleAt p (s + 2) i = sampleAt p s i + 2 := by
      rw [sampleAt, sampleAt]
      omega
    rw [hlate]
    exact h.bits i hi

theorem heard_received (h : Heard line s b) (hpos : 0 < p.clkPerBit)
    (hidle : (after line (s + 2) : UartRx p).fsmState = .idle) :
    (after line (s + frameClocks p) : UartRx p).fsmState = .idle ∧
      (after line (s + frameClocks p) : UartRx p).rxDone = true ∧
      (after line (s + frameClocks p) : UartRx p).rxData = b ∧
      Quiet p line (s + 2) (s + frameClocks p - 1) := by
  have hindex : stopAt p (s + 2) + 1 = s + frameClocks p := by
    rw [stopAt, sampleAt, frameClocks]
    omega
  have hlast : stopAt p (s + 2) = s + frameClocks p - 1 := by omega
  have hall := heard_done h.synced hpos hidle
  rwa [hindex, hlast] at hall

end Frame

/-! ## What has been received -/

/-- Whatever the line does, a byte is announced for one clock. -/
theorem done_once {line : Nat → Bool} {t : Nat}
    (h : (after line (t + 1) : UartRx p).rxDone = true) :
    (after line (t + 2) : UartRx p).rxDone = false := by
  have hmoment : (after line t : UartRx p).stopBitMidMoment = true := h
  have hstate : (after line t : UartRx p).fsmState = .stopBit := by
    have hboth := hmoment
    rw [stopBitMidMoment, Bool.and_eq_true] at hboth
    exact eq_of_beq hboth.1
  have hnext : (after line (t + 1) : UartRx p).fsmState = .idle := by
    change (after line t : UartRx p).nextFsmState = .idle
    rw [nextFsmState, hstate]
    exact if_pos hmoment
  change (after line (t + 1) : UartRx p).stopBitMidMoment = false
  rw [stopBitMidMoment, hnext]
  rfl

theorem received_quiet {line : Nat → Bool} {t t' : Nat} (hle : t ≤ t') (h : Quiet p line t t') :
    (received line t' : List (BitVec p.payloadBits)) = received line t := by
  induction hle with
  | refl => rfl
  | @step m hle ih =>
    have hdone := h (m + 1) (Nat.lt_succ_of_le hle) (Nat.le_refl _)
    rw [received, hdone, if_neg Bool.false_ne_true, List.append_nil]
    exact ih fun k hlo hhi => h k hlo (Nat.le_succ_of_le hhi)

theorem received_frame {line : Nat → Bool} {t : Nat} {u : UartRx p}
    (hu : u = after line (t + 1)) (hdone : u.rxDone = true) :
    (received line (t + 1) : List (BitVec p.payloadBits)) = received line t ++ [u.rxData] := by
  subst hu
  rw [received, hdone, if_pos rfl]

/-- The clock at which frame `j` starts when each is preceded by one bit of idle. -/
def frameAt (p : Params) (j : Nat) : Nat :=
  p.clkPerBit * (p.payloadBits + 3) * j + p.clkPerBit

/-- The clock from which on the first `j` of them are announced. -/
def announced (p : Params) : Nat → Nat
  | 0 => 0
  | j + 1 => frameAt p j + frameClocks p

/-- The line is high but for the frames of `data`. -/
structure Carries (line : Nat → Bool) (data : List (BitVec p.payloadBits)) : Prop where
  idle : ∀ j k, j < data.length → k < p.clkPerBit → line (frameAt p j - p.clkPerBit + k) = true
  frame : ∀ j (hj : j < data.length), Frame line (frameAt p j) data[j]
  rest : ∀ t, frameAt p data.length - p.clkPerBit ≤ t → line t = true

section Stream

variable {line : Nat → Bool} {data : List (BitVec p.payloadBits)}

/-- Before each frame, and after the last one, the line is high for one bit. -/
theorem Carries.high (h : Carries line data) {j : Nat} (hj : j ≤ data.length) {t : Nat}
    (hlo : frameAt p j - p.clkPerBit ≤ t) (hhi : t < frameAt p j) : line t = true := by
  by_cases hlast : j = data.length
  · subst hlast
    exact h.rest t hlo
  · have hindex : frameAt p j - p.clkPerBit + (t - (frameAt p j - p.clkPerBit)) = t := by omega
    have hidle := h.idle j (t - (frameAt p j - p.clkPerBit)) (by omega) (by omega)
    rwa [hindex] at hidle

theorem period_eq (p : Params) : p.clkPerBit * (p.payloadBits + 3) =
    p.clkPerBit * (p.payloadBits + 1) + p.clkPerBit * 2 :=
  Nat.mul_add p.clkPerBit (p.payloadBits + 1) 2

theorem frameAt_succ (p : Params) (j : Nat) :
    frameAt p (j + 1) = frameAt p j + p.clkPerBit * (p.payloadBits + 1) + p.clkPerBit * 2 := by
  unfold frameAt
  rw [Nat.mul_succ, period_eq]
  omega

/-- After reset the synchroniser holds a 0, which the receiver takes for a start bit until the
middle of it. -/
theorem after_reset (hhigh : ∀ k, k < p.clkPerBit → line k = true) (hN : 2 ≤ p.clkPerBit) :
    (after line (p.clkPerBit / 2 + 2) : UartRx p).fsmState = .idle ∧
      Quiet p line 0 (p.clkPerBit / 2 + 2) := by
  obtain ⟨hend, hquiet⟩ := edge_sampled (p := p) (show synced line 0 = false from rfl) rfl
  have hindex : 0 + p.clkPerBit / 2 + 1 = p.clkPerBit / 2 - 1 + 2 := by omega
  have hsample : synced line (0 + p.clkPerBit / 2 + 1) = true := by
    rw [hindex]
    exact hhigh _ (by omega)
  rw [hsample, if_neg (by decide), Nat.zero_add] at hend
  rw [Nat.zero_add] at hquiet
  exact ⟨hend.state, hquiet⟩

variable (hN : p.clkPerBit / 2 + p.payloadBits + 5 ≤ p.clkPerBit)
include hN

theorem frameClocks_lt : frameClocks p + p.clkPerBit ≤ p.clkPerBit * (p.payloadBits + 3) ∧
    p.clkPerBit * (p.payloadBits + 1) + 2 ≤ frameClocks p ∧ 4 ≤ frameClocks p := by
  have hmul : (p.clkPerBit + 1) * (p.payloadBits + 1) =
      p.clkPerBit * (p.payloadBits + 1) + (p.payloadBits + 1) := Nat.succ_mul ..
  rw [frameClocks, period_eq]
  omega

theorem announced_le (j : Nat) : announced p j ≤ frameAt p j + 2 := by
  cases j with
  | zero => exact Nat.zero_le _
  | succ j =>
    have hprev := frameAt_succ p j
    obtain ⟨hlong, -, -⟩ := frameClocks_lt hN
    have hperiod := period_eq p
    rw [announced]
    omega

/-- Frame `j` finds the receiver idle, and the bytes before it received. -/
theorem before_frame (h : Carries line data) (j : Nat) (hj : j ≤ data.length) :
    (after line (frameAt p j + 2) : UartRx p).fsmState = .idle ∧
      ∀ t, announced p j ≤ t → t ≤ frameAt p j + 2 → received line t = data.take j := by
  induction j with
  | zero =>
    have hfirst : frameAt p 0 = p.clkPerBit := by rw [frameAt, Nat.mul_zero, Nat.zero_add]
    have hlead : ∀ k, k < p.clkPerBit → line k = true := fun k hk =>
      h.high (Nat.zero_le _) (by omega) (by omega)
    obtain ⟨hidle, hquiet⟩ := after_reset hlead (by omega)
    have hsplit : p.clkPerBit = p.clkPerBit / 2 + (p.clkPerBit - p.clkPerBit / 2) := by omega
    obtain ⟨hidle', hquiet'⟩ := after_idle (m := p.clkPerBit - p.clkPerBit / 2) hidle
      fun k hk => h.high (Nat.zero_le _) (by omega) (by omega)
    rw [← hsplit] at hidle' hquiet'
    rw [hfirst]
    refine ⟨hidle', fun t _ hhi => ?_⟩
    have hall := hquiet.trans hquiet'
    rw [received_quiet (Nat.zero_le t) fun k hlo hle => hall k hlo (Nat.le_trans hle hhi),
      received, List.take_zero]
  | succ j ih =>
    obtain ⟨hidle, hreceived⟩ := ih (by omega)
    obtain ⟨hlong, hshort, hfour⟩ := frameClocks_lt hN
    obtain ⟨hend, hdone, hdata, hquiet⟩ := heard_received ((h.frame j hj).heard (by omega))
      (by omega) hidle
    have hsucc := frameAt_succ p j
    have hperiod := period_eq p
    -- from the end of the frame on the line is high up to the next one
    have hstart : frameAt p j + frameClocks p = frameAt p j + frameClocks p - 2 + 2 := by omega
    rw [hstart] at hend
    obtain ⟨hidle', hquiet'⟩ := after_idle
      (m := frameAt p (j + 1) - (frameAt p j + frameClocks p - 2)) hend fun k hk => by
        by_cases hstop : frameAt p j + frameClocks p - 2 + k < frameAt p (j + 1) - p.clkPerBit
        · have hbit := (h.frame j hj).stop (frameClocks p - 2 + k -
            p.clkPerBit * (p.payloadBits + 1)) (by omega)
          have hindex : frameAt p j + p.clkPerBit * (p.payloadBits + 1) + (frameClocks p - 2 + k -
              p.clkPerBit * (p.payloadBits + 1)) = frameAt p j + frameClocks p - 2 + k := by omega
          rwa [hindex] at hbit
        · exact h.high hj (by omega) (by omega)
    have hnext : frameAt p j + frameClocks p - 2 +
        (frameAt p (j + 1) - (frameAt p j + frameClocks p - 2)) = frameAt p (j + 1) := by omega
    rw [hnext, ← hstart] at hquiet'
    rw [hnext] at hidle'
    refine ⟨hidle', fun t hlo hhi => ?_⟩
    have hmost : Quiet p line (frameAt p j + frameClocks p) t :=
      fun k hk hle => hquiet' k hk (Nat.le_trans hle hhi)
    have hpred : frameAt p j + frameClocks p = frameAt p j + frameClocks p - 1 + 1 := by omega
    rw [received_quiet hlo hmost, announced]
    rw [hpred] at hdone hdata ⊢
    rw [received_frame rfl hdone, hdata, received_quiet (by omega) hquiet,
      hreceived _ (announced_le hN j) (Nat.le_refl _)]
    exact (List.take_append_getElem hj).symm ▸ rfl

/-- At every clock the bytes received are those that have been announced. -/
theorem received_from (h : Carries line data) {j t : Nat} (hj : j ≤ data.length)
    (hlo : announced p j ≤ t) (hhi : j < data.length → t < announced p (j + 1)) :
    received line t = data.take j := by
  obtain ⟨hidle, hreceived⟩ := before_frame hN h j hj
  by_cases hearly : t ≤ frameAt p j + 2
  · exact hreceived t hlo hearly
  · have hlate : frameAt p j + 2 ≤ t := by omega
    rw [← hreceived _ (announced_le hN j) (Nat.le_refl _)]
    refine received_quiet hlate ?_
    by_cases hlast : j = data.length
    · obtain ⟨-, hquiet⟩ := after_idle (m := t - (frameAt p j + 2)) hidle fun k _ => by
        refine h.rest _ ?_
        rw [← hlast]
        omega
      exact fun k hk hle => hquiet k hk (by omega)
    · have hlt : j < data.length := by omega
      obtain ⟨-, -, -, hquiet⟩ := heard_received ((h.frame j hlt).heard (by omega)) (by omega) hidle
      have hend := hhi hlt
      rw [announced] at hend
      exact fun k hk hle => hquiet k hk (by omega)

end Stream

end NextEmu.Device.UartReception
