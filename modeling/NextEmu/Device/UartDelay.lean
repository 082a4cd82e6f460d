import NextEmu.Device.UartTransmission

/-!
# The delay of the encoder

A tick that counts the delay down returns with the mutex locked, so the one behind it never
returns: an encoder with a delay sends nothing at all.
-/

namespace NextEmu.Device.UartDelay

open UartEncoder UartRoundTrip UartTransmission

/-- `e` puts the waveform of `undelayed` on the line, `d` ticks later, and after any number of
ticks the mutex is free. -/
structure Shifts (undelayed e : UartEncoder) (d : Nat) : Prop where
  shifted : ∀ t, ∃ b, Line undelayed t b ∧ Line e (d + t) b
  high : ∀ t, t < d → Line e t true
  released : ∀ t, ∃ s, e.ticks t = .ok s ∧ s.ueMutex = false
  accepts : ∀ t s data n, e.ticks t = .ok s → ∃ s', s.resetData data n = .ok s'

section Encoder

variable {e : UartEncoder} {c : Nat}

theorem released_of_runs (h : Runs e c) (t : Nat) :
    ∃ s, e.ticks t = .ok s ∧ s.ueMutex = false :=
  ⟨_, ticks_from h t, (h.updates _).unlocked⟩

theorem resetData_unlocked (h : e.ueMutex = false) (data : Nat → BitVec 8) (n : BitVec 64) :
    e.resetData data n = .ok { e with
      txBitCounter := 0
      txDataBytes := n
      txData := data
      nextState := stateIdle } := by
  unfold resetData
  rw [if_neg (by rw [h]; exact Bool.false_ne_true)]
  rfl

theorem shifts_of_runs (h : Runs e c) : Shifts e e 0 where
  shifted t := by
    rw [Nat.zero_add]
    exact ⟨_, ⟨_, ticks_from h (t + 1), rfl⟩, ⟨_, ticks_from h (t + 1), rfl⟩⟩
  high t ht := absurd ht (Nat.not_lt_zero t)
  released := released_of_runs h
  accepts t s data n hticks := by
    obtain ⟨s', hticks', hunlocked⟩ := released_of_runs h t
    cases hticks.symm.trans hticks'
    exact ⟨_, resetData_unlocked hunlocked data n⟩

/-- The first tick of a delay returns with the mutex locked. -/
theorem tick_delayed (hunlocked : e.ueMutex = false) (hdelay : e.cyclesToDelay > 0) :
    e.ticks 1 = .ok { e with ueMutex := true, cyclesToDelay := e.cyclesToDelay - 1 } := by
  show e.tick = _
  unfold tick
  rw [if_neg (by rw [hunlocked]; exact Bool.false_ne_true)]
  dsimp only
  rw [if_pos hdelay]
  rfl

theorem tick_divZero (hunlocked : e.ueMutex = false) (hdelay : e.cyclesToDelay = 0)
    (hzero : e.cyclesPerBit = 0) : e.ticks 1 = .error .divZero := by
  show e.tick = _
  unfold tick
  rw [if_neg (by rw [hunlocked]; exact Bool.false_ne_true)]
  dsimp only
  rw [if_neg (by rw [hdelay]; decide), if_pos hzero]
  rfl

/-- An encoder whose ticks leave the mutex free has no delay, and divides by no zero. -/
theorem undelayed_of_released (hunlocked : e.ueMutex = false)
    (h : ∀ t, ∃ s, e.ticks t = .ok s ∧ s.ueMutex = false) :
    e.cyclesToDelay = 0 ∧ e.cyclesPerBit ≠ 0 := by
  obtain ⟨s, hticks, hfree⟩ := h 1
  by_cases hdelay : e.cyclesToDelay > 0
  · rw [tick_delayed hunlocked hdelay] at hticks
    cases hticks
    cases hfree
  · have hzero : e.cyclesToDelay = 0 := by
      have hnot : ¬ 0 < e.cyclesToDelay.toNat := hdelay
      exact BitVec.eq_of_toNat_eq (Nat.eq_zero_of_not_pos hnot)
    refine ⟨hzero, fun hcycles => ?_⟩
    rw [tick_divZero hunlocked hzero hcycles] at hticks
    cases hticks

theorem runs_of_undelayed (hunlocked : e.ueMutex = false) (hdelay : e.cyclesToDelay = 0)
    (hcycles : e.cyclesPerBit ≠ 0) : Runs e e.cyclesPerBit.toNat where
  cycles := rfl
  pos := Nat.pos_of_ne_zero fun hzero => hcycles (BitVec.eq_of_toNat_eq hzero)
  undelayed := hdelay
  unlocked := hunlocked

end Encoder

/-- The delay shifts the waveform exactly when it is none, and the clock is fast enough for the
baud rate. -/
theorem shifts_iff (clkFreqHz baudRate dataLenBytes payloadBits cyclesDelay : BitVec 64)
    (data : Nat → BitVec 8) (cur : BitVec 8) :
    Shifts (UartEncoder.init clkFreqHz data dataLenBytes baudRate payloadBits 0 cur)
        (UartEncoder.init clkFreqHz data dataLenBytes baudRate payloadBits cyclesDelay cur)
        cyclesDelay.toNat ↔
      cyclesDelay = 0 ∧ clkFreqHz / baudRate ≠ 0 := by
  constructor
  · intro h
    exact undelayed_of_released
      (e := UartEncoder.init clkFreqHz data dataLenBytes baudRate payloadBits cyclesDelay cur) rfl
      h.released
  · rintro ⟨rfl, hcycles⟩
    have hruns := runs_of_undelayed
      (e := UartEncoder.init clkFreqHz data dataLenBytes baudRate payloadBits 0 cur) rfl rfl
      hcycles
    exact shifts_of_runs hruns

/-- With a delay of one cycle the second tick blocks. -/
theorem second_tick_blocks :
    ¬ ∀ (clkFreqHz baudRate dataLenBytes payloadBits cyclesDelay : BitVec 64)
        (data : Nat → BitVec 8) (cur : BitVec 8), baudRate ≠ 0 → baudRate ≤ clkFreqHz →
      Shifts (UartEncoder.init clkFreqHz data dataLenBytes baudRate payloadBits 0 cur)
        (UartEncoder.init clkFreqHz data dataLenBytes baudRate payloadBits cyclesDelay cur)
        cyclesDelay.toNat := by
  intro hall
  have hone := hall 1 1 1 8 1 (fun _ => 0) 0 (by decide) (by decide)
  obtain ⟨s, hticks, -⟩ := hone.released 2
  have hblocked : (UartEncoder.init 1 (fun _ => 0) 1 1 8 1 0).ticks 2 = .error .blocked := rfl
  rw [hblocked] at hticks
  cases hticks

end NextEmu.Device.UartDelay
