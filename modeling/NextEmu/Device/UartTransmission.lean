import NextEmu.Device.UartRoundTrip

/-!
# What the encoder puts on the line

Every frame of the encoder has all of its data bits, also when the array ends inside of one: then
the rest is read from behind the array. The bits begin every `cyclesPerBit` ticks until the
cycle counter wraps.
-/

namespace NextEmu.Device.UartTransmission

open NextEmu.Lib.Divider UartEncoder UartRoundTrip

/-- The byte that the next tick reads, if it begins a data bit. -/
def byteRead (e : UartEncoder) : Option Nat :=
  if e.cyclesToDelay = 0 ∧ e.cycleCounter % e.cyclesPerBit = 0 ∧
      (e.txBitCounter < 8 * e.txDataBytes ∨ e.currentState ≠ stateIdle) ∧
      e.nextState = stateDataBits then
    some (e.txBitCounter >>> 3).toNat
  else none

/-- The line has the level `b` behind tick `t`, counted from 0. -/
def Line (e : UartEncoder) (t : Nat) (b : Bool) : Prop :=
  ∃ e', e.ticks (t + 1) = .ok e' ∧ e'.currentLogicVal = b

/-- A bit of the array, of each byte the lowest first. -/
def arrayBit (data : Nat → BitVec 8) (b : Nat) : Bool := (data (b / 8)).getLsbD (b % 8)

/-- The frames of `p` bits that `n` bytes take. -/
def frames (n p : Nat) : Nat := (8 * n + (p - 1)) / p

/-- The encoder sends `n` bytes in frames of `p` bits, each bit for `c` ticks, and is finished
behind the last frame. -/
structure Transmits (e : UartEncoder) (n p c : Nat) : Prop where
  idle : ∀ j, j < frames n p → ∀ k, k < c → Line e (c * ((p + 3) * j) + k) true
  start : ∀ j, j < frames n p → ∀ k, k < c → Line e (c * ((p + 3) * j + 1) + k) false
  data : ∀ j, j < frames n p → ∀ i, i < p → ∃ b, (p * j + i < 8 * n →
    b = arrayBit e.txData (p * j + i)) ∧ ∀ k, k < c → Line e (c * ((p + 3) * j + 2 + i) + k) b
  stop : ∀ j, j < frames n p → ∀ k, k < c → Line e (c * ((p + 3) * j + 2 + p) + k) true
  finished : ∀ t, ∃ e', e.ticks t = .ok e' ∧
    (e'.finished = true ↔ c * ((p + 3) * frames n p) < t)
  reads : ∀ t e' i, e.ticks t = .ok e' → byteRead e' = some i → i < n

/-- The frames end where the array does, the number of its bits fits 64 bits, and the cycle counter
does not wrap inside of a bit. -/
structure Whole (n p c : Nat) : Prop where
  divides : p ∣ 8 * n
  fits : 8 * n < 2 ^ 64
  unwrapped : c * ((p + 3) * frames n p) < 2 ^ 64 ∨ c ∣ 2 ^ 64

theorem onUpdate_other_bytes (e : UartEncoder) (m : Nat → BitVec 8)
    (h : e.nextState = stateDataBits →
      m (e.txBitCounter >>> 3).toNat = e.txData (e.txBitCounter >>> 3).toNat) :
    { e with txData := m }.onUpdate = { e.onUpdate with txData := m } := by
  obtain hidle | hstart | hdata | hstop | ⟨hidle, hstart, hdata, hstop⟩ := nextState_cases e
  · rw [onUpdate_idle hidle, onUpdate_idle (e := { e with txData := m }) hidle]
  · rw [onUpdate_start hstart, onUpdate_start (e := { e with txData := m }) hstart]
  · have hbit : getTxDataBit e.txBitCounter m = getTxDataBit e.txBitCounter e.txData := by
      unfold getTxDataBit
      rw [h hdata]
    rw [onUpdate_data hdata, onUpdate_data (e := { e with txData := m }) hdata]
    dsimp only
    rw [hbit]
  · rw [onUpdate_stop hstop, onUpdate_stop (e := { e with txData := m }) hstop]
  · rw [onUpdate_other hidle hstart hdata hstop,
      onUpdate_other (e := { e with txData := m }) hidle hstart hdata hstop]

/-- No other byte has a part in the tick. -/
theorem tick_other_bytes (e : UartEncoder) (m : Nat → BitVec 8)
    (h : ∀ i, byteRead e = some i → m i = e.txData i) :
    { e with txData := m }.tick = e.tick.map fun e' => { e' with txData := m } := by
  have hupdate : ∀ b : Bool, e.cyclesToDelay = 0 → e.cycleCounter % e.cyclesPerBit = 0 →
      { e with txData := m, ueMutex := b }.update =
        { { e with ueMutex := b }.update with txData := m } := by
    intro b hdelay hdue
    unfold update
    by_cases hgo : e.txBitCounter < 8 * e.txDataBytes ∨ e.currentState ≠ stateIdle
    · rw [if_pos (show _ from hgo), if_pos (show _ from hgo)]
      apply onUpdate_other_bytes { e with ueMutex := b } m
      intro hnext
      apply h
      unfold byteRead
      rw [if_pos ⟨hdelay, hdue, hgo, hnext⟩]
    · rw [if_neg (show ¬ _ from hgo), if_neg (show ¬ _ from hgo)]
  by_cases hmutex : e.ueMutex = true
  · unfold tick
    rw [if_pos (show _ from hmutex), if_pos hmutex]
    rfl
  by_cases hdelay : e.cyclesToDelay > 0
  · unfold tick
    rw [if_neg (show ¬ _ from hmutex), if_neg hmutex]
    dsimp only
    rw [if_pos hdelay, if_pos hdelay]
    rfl
  by_cases hzero : e.cyclesPerBit = 0
  · unfold tick
    rw [if_neg (show ¬ _ from hmutex), if_neg hmutex]
    dsimp only
    rw [if_neg hdelay, if_neg hdelay, if_pos hzero, if_pos hzero]
    rfl
  have hundelayed : e.cyclesToDelay = 0 := by
    have hnot : ¬ 0 < e.cyclesToDelay.toNat := hdelay
    exact BitVec.eq_of_toNat_eq (Nat.eq_zero_of_not_pos hnot)
  unfold tick
  rw [if_neg (show ¬ _ from hmutex), if_neg hmutex]
  dsimp only
  rw [if_neg hdelay, if_neg hdelay, if_neg hzero, if_neg hzero]
  by_cases hdue : e.cycleCounter % e.cyclesPerBit = 0
  · rw [if_pos hdue, if_pos hdue, hupdate true hundelayed hdue]
    rfl
  · rw [if_neg hdue, if_neg hdue]
    rfl

section Encoder

variable {e : UartEncoder} {p count c : Nat}

/-- The state while a bit is sent, by the part of the frame that it belongs to. -/
theorem bit_cases (h : Sends e p count) {m : Nat} (hm : m < (p + 3) * count) :
    ∃ j, j < count ∧
      ((m = (p + 3) * j ∧ updates e (m + 1) = phase e stateIdle stateStartBit 0 (p * j) true) ∨
        (m = (p + 3) * j + 1 ∧
          updates e (m + 1) = phase e stateStartBit stateDataBits 0 (p * j) false) ∨
        (∃ i, i < p ∧ m = (p + 3) * j + 2 + i ∧ updates e (m + 1) =
          phase e stateDataBits (if i + 1 = p then stateStopBit else stateDataBits)
            (if i + 1 = p then 0 else i + 1) (p * j + i + 1)
            (getTxDataBit (BitVec.ofNat 64 (p * j + i)) e.txData)) ∨
        (m = (p + 3) * j + 2 + p ∧
          updates e (m + 1) = phase e stateStopBit stateIdle 0 (p * j + p) true)) := by
  obtain ⟨j, r, hr, rfl⟩ : ∃ j r, r < p + 3 ∧ m = (p + 3) * j + r :=
    ⟨m / (p + 3), m % (p + 3), Nat.mod_lt _ (by omega), (Nat.div_add_mod m (p + 3)).symm⟩
  have hj : j < count := by
    have hlt : (p + 3) * j < (p + 3) * count := by omega
    exact Nat.lt_of_mul_lt_mul_left hlt
  obtain ⟨cur, level, hword, -, -⟩ := updates_word h j (Nat.le_of_lt hj)
  obtain ⟨hidle, hstart, hdata, hstop⟩ := updates_frame h.payload h.pos h.lt (h.more j hj) hword
  refine ⟨j, hj, ?_⟩
  match r with
  | 0 => exact .inl ⟨rfl, hidle⟩
  | 1 => exact .inr (.inl ⟨rfl, hstart⟩)
  | i + 2 =>
    right; right
    by_cases hi : i < p
    · have hindex : (p + 3) * j + (i + 2) + 1 = (p + 3) * j + 3 + i := by omega
      exact .inl ⟨i, hi, by omega, hindex ▸ hdata i hi⟩
    · have hlast : i = p := by omega
      have hindex : (p + 3) * j + (i + 2) + 1 = (p + 3) * j + 3 + p := by omega
      exact .inr ⟨by omega, hindex ▸ hstop⟩

theorem phase_finished (cur next : BitVec 8) (bit tx : Nat) (level : Bool) :
    (phase e cur next bit tx level).finished = true ↔ ¬ More e tx ∧ cur = stateIdle := by
  show (decide (8 * e.txDataBytes ≤ BitVec.ofNat 64 tx) && cur == stateIdle) = true ↔ _
  rw [Bool.and_eq_true, decide_eq_true_iff, beq_iff_eq, More, BitVec.lt_def, BitVec.le_def,
    Nat.not_lt]

theorem unfinished_of_phase {u : UartEncoder} {cur next : BitVec 8} {bit tx : Nat} {level : Bool}
    (h : u = phase e cur next bit tx level) (hcur : cur ≠ stateIdle) : ¬ u.finished = true := by
  rw [h, phase_finished]
  exact fun h => hcur h.2

theorem finished_of_sent (h : Sends e p count) {m : Nat} (hm : (p + 3) * count < m) :
    (updates e m).finished = true := by
  obtain ⟨cur, level, hword, -, -⟩ := updates_word h count (Nat.le_refl _)
  obtain ⟨-, hfix⟩ := updates_rest h
  rw [updates_fixed hfix hm, updates, hword]
  by_cases hidle : cur = stateIdle
  · subst hidle
    rw [update_done h.done]
    exact (phase_finished _ _ _ _ _).mpr ⟨h.done, rfl⟩
  · rw [update_idle (.inr hidle)]
    exact (phase_finished _ _ _ _ _).mpr ⟨h.done, rfl⟩

theorem not_finished (h : Sends e p count) (hcount : 0 < count) {m : Nat}
    (hm : m ≤ (p + 3) * count) : ¬ (updates e m).finished = true := by
  cases m with
  | zero =>
    show ¬ e.finished = true
    rw [h.fresh, phase_finished]
    rintro ⟨hdone, -⟩
    exact hdone (h.more 0 hcount)
  | succ m =>
    obtain ⟨j, hj, ⟨-, heq⟩ | ⟨-, heq⟩ | ⟨i, -, -, heq⟩ | ⟨-, heq⟩⟩ := bit_cases h hm
    · rw [heq, phase_finished]
      rintro ⟨hdone, -⟩
      exact hdone (h.more j hj)
    · exact unfinished_of_phase heq (by decide)
    · exact unfinished_of_phase heq (by decide)
    · exact unfinished_of_phase heq (by decide)

theorem byteRead_some {i : Nat} (h : byteRead e = some i) :
    (e.txBitCounter < 8 * e.txDataBytes ∨ e.currentState ≠ stateIdle) ∧
      e.nextState = stateDataBits ∧ i = (e.txBitCounter >>> 3).toNat := by
  unfold byteRead at h
  split at h
  · rename_i hcond
    cases h
    exact ⟨hcond.2.2.1, hcond.2.2.2, rfl⟩
  · cases h

/-- What the encoder reads are bits of the frames. -/
theorem read_in_frames (h : Sends e p count) {m i : Nat} {x : BitVec 64}
    (hread : byteRead { updates e m with cycleCounter := x } = some i) :
    ∃ b, b < p * count ∧ i = (BitVec.ofNat 64 b >>> 3).toNat := by
  obtain ⟨hgo, hnext, hi⟩ := byteRead_some hread
  have hgo : (updates e m).txBitCounter < 8 * (updates e m).txDataBytes ∨
      (updates e m).currentState ≠ stateIdle := hgo
  have hnext : (updates e m).nextState = stateDataBits := hnext
  have hi : i = ((updates e m).txBitCounter >>> 3).toNat := hi
  have hwhole : ∀ {j}, j < count → p * j + p ≤ p * count := by
    intro j hj
    rw [← Nat.mul_succ]
    exact Nat.mul_le_mul_left p hj
  rcases Nat.lt_or_ge ((p + 3) * count) m with hsent | hm
  · have hdone := finished_of_sent h hsent
    unfold UartEncoder.finished at hdone
    rw [Bool.and_eq_true, decide_eq_true_iff, beq_iff_eq] at hdone
    rcases hgo with hlt | hcur
    · rw [BitVec.lt_def] at hlt
      have hle := hdone.1
      rw [BitVec.le_def] at hle
      omega
    · exact absurd hdone.2 hcur
  cases m with
  | zero =>
    have hfresh : (updates e 0).nextState = stateIdle := congrArg UartEncoder.nextState h.fresh
    rw [hfresh] at hnext
    exact absurd hnext (by decide)
  | succ m =>
    obtain ⟨j, hj, ⟨-, heq⟩ | ⟨-, heq⟩ | ⟨k, hk, -, heq⟩ | ⟨-, heq⟩⟩ := bit_cases h hm
    · rw [heq] at hnext
      exact absurd hnext (by show stateStartBit ≠ stateDataBits; decide)
    · rw [heq] at hi
      have hpart := hwhole hj
      have hpos := h.pos
      exact ⟨p * j, by omega, hi⟩
    · rw [heq] at hnext hi
      have hpart := hwhole hj
      by_cases hlast : k + 1 = p
      · rw [if_pos hlast] at hnext
        exact absurd hnext (by show stateStopBit ≠ stateDataBits; decide)
      · exact ⟨p * j + k + 1, by omega, hi⟩
    · rw [heq] at hnext
      exact absurd hnext (by show stateIdle ≠ stateDataBits; decide)

/-- When the frames go on behind the bits of the array, the byte behind it is read. -/
theorem reads_behind (h : Sends e p count) (hruns : Runs e c) (hzero : e.cycleCounter = 0) {b : Nat}
    (hlt : b < p * count) (hpart : ¬ p ∣ b) :
    ∃ t e', e.ticks t = .ok e' ∧ byteRead e' = some (BitVec.ofNat 64 b >>> 3).toNat := by
  have hpos := h.pos
  have hsplit := Nat.div_add_mod b p
  have hlow := Nat.mod_lt b hpos
  have hinside : b % p ≠ 0 := fun hmod => hpart (Nat.dvd_of_mod_eq_zero hmod)
  have hj : b / p < count := Nat.div_lt_of_lt_mul hlt
  obtain ⟨cur, level, hword, -, -⟩ := updates_word h (b / p) (Nat.le_of_lt hj)
  obtain ⟨-, -, hdata, -⟩ := updates_frame h.payload h.pos h.lt (h.more _ hj) hword
  have hbit := hdata (b % p - 1) (by omega)
  have hnext : ¬ b % p - 1 + 1 = p := by omega
  have htx : p * (b / p) + (b % p - 1) + 1 = b := by omega
  rw [if_neg hnext, if_neg hnext, htx] at hbit
  obtain ⟨t, hfired, hdue⟩ := exists_fire hruns.pos (M := 2 ^ 64) (by decide)
    ((p + 3) * (b / p) + 3 + (b % p - 1))
  have hticks := ticks_fired hruns hzero t
  have hrate := hruns.updates ((p + 3) * (b / p) + 3 + (b % p - 1))
  rw [hfired] at hticks
  refine ⟨t, _, hticks, ?_⟩
  rw [hbit] at hrate ⊢
  have hmod : BitVec.ofNat 64 t % e.cyclesPerBit = 0 := by
    apply BitVec.eq_of_toNat_eq
    rw [BitVec.toNat_umod, BitVec.toNat_ofNat, hruns.cycles]
    exact hdue
  unfold byteRead
  rw [if_pos ⟨hrate.undelayed, hmod, .inr (by show stateDataBits ≠ stateIdle; decide), rfl⟩]
  rfl

/-- Without a wrap inside of a bit the frames take their time. -/
theorem fired_inside (hruns : Runs e c) {last t : Nat} (hwrap : c * last < 2 ^ 64 ∨ c ∣ 2 ^ 64)
    (ht : t ≤ c * last + 1) : fired (2 ^ 64) c t = (t + (c - 1)) / c := by
  rcases hwrap with hlast | hdvd
  · exact fired_eq hruns.pos (.inl (by omega))
  · exact fired_eq hruns.pos (.inr hdvd)

theorem line_of_bit (hruns : Runs e c) (hzero : e.cycleCounter = 0) {last q k : Nat} {b : Bool}
    (hwrap : c * last < 2 ^ 64 ∨ c ∣ 2 ^ 64) (hq : q < last) (hk : k < c)
    (hbit : (updates e (q + 1)).currentLogicVal = b) : Line e (c * q + k) b := by
  have hnext : c * (q + 1) ≤ c * last := Nat.mul_le_mul_left c hq
  have hsum : c * (q + 1) = c * q + c := Nat.mul_succ c q
  have hfired := fired_inside hruns hwrap (t := c * q + k + 1) (by omega)
  have hindex : (c * q + k) / c = q := by
    rw [Nat.mul_add_div hruns.pos, Nat.div_eq_of_lt hk, Nat.add_zero]
  refine ⟨_, ticks_fired hruns hzero _, ?_⟩
  rw [hfired, begun_succ hruns.pos, hindex]
  exact hbit

theorem bit_of_array {data : Nat → BitVec 8} {b : Nat} (hb : b < 2 ^ 64) :
    getTxDataBit (BitVec.ofNat 64 b) data = arrayBit data b := by
  have hbyte : (BitVec.ofNat 64 b >>> 3).toNat = b / 8 := by
    rw [BitVec.toNat_ushiftRight, BitVec.toNat_ofNat, Nat.mod_eq_of_lt hb,
      Nat.shiftRight_eq_div_pow]
  have hlow : (BitVec.ofNat 64 b % 8).toNat = b % 8 := by
    rw [BitVec.toNat_umod, BitVec.toNat_ofNat, Nat.mod_eq_of_lt hb]
    rfl
  unfold getTxDataBit arrayBit
  rw [hbyte, hlow]

/-- The encoder is finished one tick behind its last frame. -/
theorem finished_iff (h : Sends e p count) (hruns : Runs e c) (hcount : 0 < count)
    (hwrap : c * ((p + 3) * count) < 2 ^ 64 ∨ c ∣ 2 ^ 64) (t : Nat) :
    (updates e (fired (2 ^ 64) c t)).finished = true ↔ c * ((p + 3) * count) < t := by
  by_cases ht : c * ((p + 3) * count) < t
  · have hle := le_mul_fired hruns.pos (M := 2 ^ 64) (by decide) t
    have hsent : (p + 3) * count < fired (2 ^ 64) c t :=
      Nat.lt_of_mul_lt_mul_left (Nat.lt_of_lt_of_le ht hle)
    exact iff_of_true (finished_of_sent h hsent) ht
  · have hbegun : (t + (c - 1)) / c ≤ (p + 3) * count :=
      (begun_le_iff hruns.pos).mpr (Nat.le_of_not_lt ht)
    rw [← fired_inside hruns hwrap (by omega)] at hbegun
    exact iff_of_false (not_finished h hcount hbegun) ht

/-- Frames that end with the array, in time. -/
theorem transmits_of_whole {n : Nat} (h : Sends e p (frames n p)) (hruns : Runs e c)
    (hzero : e.cycleCounter = 0) (hn : 0 < n) (hwhole : Whole n p c) : Transmits e n p c := by
  have hfits := hwhole.fits
  have hwrap := hwhole.unwrapped
  have hbits : p * frames n p = 8 * n := by
    obtain ⟨q, hq⟩ := hwhole.divides
    have hrest : (p - 1) / p = 0 := Nat.div_eq_of_lt (by have := h.pos; omega)
    unfold frames
    rw [hq, Nat.mul_add_div h.pos, hrest, Nat.add_zero]
  have hcount : 0 < frames n p := by
    apply Nat.pos_of_ne_zero
    intro hnone
    rw [hnone] at hbits
    omega
  have hframe : ∀ {j}, j < frames n p → p * j + p ≤ p * frames n p ∧
      (p + 3) * j + (p + 3) ≤ (p + 3) * frames n p := by
    intro j hj
    rw [← Nat.mul_succ, ← Nat.mul_succ]
    exact ⟨Nat.mul_le_mul_left _ hj, Nat.mul_le_mul_left _ hj⟩
  have hword : ∀ {j}, j < frames n p → ∃ cur level,
      updates e ((p + 3) * j) = phase e cur stateIdle 0 (p * j) level := by
    intro j hj
    obtain ⟨cur, level, hword, -, -⟩ := updates_word h j (Nat.le_of_lt hj)
    exact ⟨cur, level, hword⟩
  constructor
  · intro j hj k hk
    obtain ⟨cur, level, hstate⟩ := hword hj
    obtain ⟨hidle, -, -, -⟩ := updates_frame h.payload h.pos h.lt (h.more j hj) hstate
    have hend := (hframe hj).2
    exact line_of_bit hruns hzero hwrap (by omega) hk (congrArg currentLogicVal hidle)
  · intro j hj k hk
    obtain ⟨cur, level, hstate⟩ := hword hj
    obtain ⟨-, hstart, -, -⟩ := updates_frame h.payload h.pos h.lt (h.more j hj) hstate
    have hend := (hframe hj).2
    exact line_of_bit hruns hzero hwrap (by omega) hk (congrArg currentLogicVal hstart)
  · intro j hj i hi
    obtain ⟨cur, level, hstate⟩ := hword hj
    obtain ⟨-, -, hdata, -⟩ := updates_frame h.payload h.pos h.lt (h.more j hj) hstate
    have hend := hframe hj
    have hindex : (p + 3) * j + 2 + i + 1 = (p + 3) * j + 3 + i := by omega
    refine ⟨_, fun _ => bit_of_array (by omega), fun k hk => ?_⟩
    apply line_of_bit hruns hzero hwrap (by omega) hk
    rw [hindex, hdata i hi]
    rfl
  · intro j hj k hk
    obtain ⟨cur, level, hstate⟩ := hword hj
    obtain ⟨-, -, -, hstop⟩ := updates_frame h.payload h.pos h.lt (h.more j hj) hstate
    have hend := (hframe hj).2
    have hindex : (p + 3) * j + 2 + p + 1 = (p + 3) * j + 3 + p := by omega
    apply line_of_bit hruns hzero hwrap (by omega) hk
    rw [hindex, hstop]
    rfl
  · intro t
    exact ⟨_, ticks_fired hruns hzero t, finished_iff h hruns hcount hwrap t⟩
  · intro t e' i hticks hread
    rw [ticks_fired hruns hzero t] at hticks
    cases hticks
    obtain ⟨b, hb, rfl⟩ := read_in_frames h hread
    rw [BitVec.toNat_ushiftRight, BitVec.toNat_ofNat, Nat.mod_eq_of_lt (by omega),
      Nat.shiftRight_eq_div_pow]
    omega

theorem finished_at (h : Sends e p count) (hruns : Runs e c) (hzero : e.cycleCounter = 0)
    {n t : Nat} (hsent : (p + 3) * count < fired (2 ^ 64) c t) (htransmits : Transmits e n p c) :
    c * ((p + 3) * frames n p) < t := by
  obtain ⟨e', hticks, hiff⟩ := htransmits.finished t
  rw [ticks_fired hruns hzero t] at hticks
  cases hticks
  exact hiff.mp (finished_of_sent h hsent)

/-- An encoder that is finished in time and reads no other byte meets the conditions. -/
theorem whole_of_transmits {n : Nat} (h : Sends e p count)
    (hcount : count = (8 * n % 2 ^ 64 + (p - 1)) / p) (hruns : Runs e c)
    (hzero : e.cycleCounter = 0) (htransmits : Transmits e n p c) : Whole n p c := by
  have hpos := h.pos
  have hcpos := hruns.pos
  have hfits : 8 * n < 2 ^ 64 := by
    apply Nat.lt_of_not_le
    intro hbig
    -- the frames that are sent are fewer than the array takes
    have hfewer : count + 1 ≤ frames n p := by
      rw [hcount, ← Nat.add_div_right _ hpos]
      exact Nat.div_le_div_right (by have := h.lt; omega)
    have hlate := finished_at h hruns hzero (n := n) (t := c * ((p + 3) * count) + 1)
      (Nat.lt_of_mul_lt_mul_left (Nat.lt_of_succ_le (le_mul_fired hcpos (by decide) _))) htransmits
    have hmore : (p + 3) * count + (p + 3) ≤ (p + 3) * frames n p := by
      rw [← Nat.mul_succ]
      exact Nat.mul_le_mul_left _ hfewer
    have hscaled := Nat.mul_le_mul_left c hmore
    have hone : c * 1 ≤ c * (p + 3) := Nat.mul_le_mul_left c (by omega)
    rw [Nat.mul_add] at hscaled
    omega
  have hframes : count = frames n p := by
    rw [hcount, Nat.mod_eq_of_lt hfits]
    rfl
  subst hframes
  constructor
  · apply Classical.byContradiction
    intro hpart
    have hcover : 8 * n ≤ p * frames n p := (begun_le_iff hpos).mp (Nat.le_refl _)
    have hne : p * frames n p ≠ 8 * n := fun heq => hpart ⟨_, heq.symm⟩
    obtain ⟨t, e', hticks, hread⟩ :=
      reads_behind h hruns hzero (b := 8 * n) (by omega) hpart
    have hbyte := htransmits.reads t e' _ hticks hread
    rw [BitVec.toNat_ushiftRight, BitVec.toNat_ofNat, Nat.mod_eq_of_lt hfits,
      Nat.shiftRight_eq_div_pow] at hbyte
    omega
  · exact hfits
  · apply Classical.byContradiction
    intro hwrap
    obtain ⟨hlong, hdvd⟩ := not_or.mp hwrap
    have hne : c * ((p + 3) * frames n p) ≠ 2 ^ 64 := fun heq => hdvd ⟨_, heq.symm⟩
    have hearly := lt_fired hcpos (M := 2 ^ 64) (by decide) hdvd
      (m := (p + 3) * frames n p) (by omega)
    exact Nat.lt_irrefl _ (finished_at h hruns hzero hearly htransmits)

end Encoder

/-! ## From construction -/

section Init

variable (clkFreqHz baudRate dataLenBytes payloadBits : BitVec 64) (data : Nat → BitVec 8)
  (cur : BitVec 8)

variable {clkFreqHz baudRate} in
theorem runs_init (hbaud : baudRate ≠ 0) (hclk : baudRate ≤ clkFreqHz) :
    Runs (UartEncoder.init clkFreqHz data dataLenBytes baudRate payloadBits 0 cur)
      (clkFreqHz / baudRate).toNat where
  cycles := rfl
  pos := by
    have hpos : 0 < baudRate.toNat :=
      Nat.pos_of_ne_zero fun h => hbaud (BitVec.eq_of_toNat_eq h)
    rw [BitVec.toNat_udiv]
    exact Nat.div_pos hclk hpos
  undelayed := rfl
  unlocked := rfl

variable {payloadBits} in
/-- The number of bits is taken modulo 2^64, and the frames go up to there. -/
theorem sends_init (hlow : 1 ≤ payloadBits) (hhigh : payloadBits ≤ 8) :
    Sends (UartEncoder.init clkFreqHz data dataLenBytes baudRate payloadBits 0 cur)
      payloadBits.toNat
      (((8 * dataLenBytes.toNat) % 2 ^ 64 + (payloadBits.toNat - 1)) / payloadBits.toNat) := by
  have hpos : 1 ≤ payloadBits.toNat := hlow
  have height : payloadBits.toNat ≤ 8 := hhigh
  have hbits : (8 * dataLenBytes).toNat = 8 * dataLenBytes.toNat % 2 ^ 64 := BitVec.toNat_mul _ _
  have hmore : ∀ tx, tx < 2 ^ 64 →
      (More (UartEncoder.init clkFreqHz data dataLenBytes baudRate payloadBits 0 cur) tx ↔
        tx < 8 * dataLenBytes.toNat % 2 ^ 64) := by
    intro tx htx
    show BitVec.ofNat 64 tx < 8 * dataLenBytes ↔ _
    rw [BitVec.lt_def, hbits, BitVec.toNat_ofNat, Nat.mod_eq_of_lt htx]
  constructor
  · apply BitVec.eq_of_toNat_eq
    rw [BitVec.toNat_ofNat]
    exact (Nat.mod_eq_of_lt payloadBits.isLt).symm
  · exact hpos
  · omega
  · rfl
  · intro j hj
    have hlt : payloadBits.toNat * j < 8 * dataLenBytes.toNat % 2 ^ 64 :=
      Nat.lt_of_not_le fun hle => absurd hj (Nat.not_lt.mpr ((begun_le_iff hpos).mpr hle))
    exact (hmore _ (by omega)).mpr hlt
  · have hcover := (begun_le_iff hpos (t := 8 * dataLenBytes.toNat % 2 ^ 64)).mp (Nat.le_refl _)
    have hover := Nat.mul_div_le (8 * dataLenBytes.toNat % 2 ^ 64 + (payloadBits.toNat - 1))
      payloadBits.toNat
    rw [hmore _ (by omega)]
    omega

end Init

/-- From construction the encoder sends the array and reads nothing else exactly when its frames
end where the array does and no counter wraps before. -/
theorem transmits_iff_whole (clkFreqHz baudRate dataLenBytes payloadBits : BitVec 64)
    (data : Nat → BitVec 8) (cur : BitVec 8) (hbaud : baudRate ≠ 0) (hclk : baudRate ≤ clkFreqHz)
    (hlen : 1 ≤ dataLenBytes) (hlow : 1 ≤ payloadBits) (hhigh : payloadBits ≤ 8) :
    Transmits (UartEncoder.init clkFreqHz data dataLenBytes baudRate payloadBits 0 cur)
        dataLenBytes.toNat payloadBits.toNat (clkFreqHz / baudRate).toNat ↔
      Whole dataLenBytes.toNat payloadBits.toNat (clkFreqHz / baudRate).toNat := by
  have hsends := sends_init clkFreqHz baudRate dataLenBytes data cur hlow hhigh
  have hruns := runs_init dataLenBytes payloadBits data cur hbaud hclk
  constructor
  · exact whole_of_transmits hsends rfl hruns rfl
  · intro hwhole
    rw [Nat.mod_eq_of_lt hwhole.fits] at hsends
    exact transmits_of_whole hsends hruns rfl hlen hwhole

/-- One byte in frames of five bits. -/
theorem byte_in_fives :
    ¬ Transmits (UartEncoder.init 1 (fun _ => 0) 1 1 5 0 0) 1 5 1 := by
  intro htransmits
  have hwhole := whole_of_transmits (sends_init 1 1 1 (fun _ => 0) 0 (by decide) (by decide)) rfl
    (runs_init 1 5 (fun _ => 0) 0 (by decide) (by decide)) rfl htransmits
  exact absurd hwhole.divides (by decide)

/-- Five bytes in eight such frames. -/
theorem five_bytes_in_fives :
    (1 : BitVec 64) ≠ 0 ∧ (1 : BitVec 64) ≤ 1 ∧ (1 : BitVec 64) ≤ 5 ∧ (5 : BitVec 64) ≤ 8 ∧
      Transmits (UartEncoder.init 1 (fun _ => 0x55) 5 1 5 0 0) 5 5 1 := by
  refine ⟨by decide, by decide, by decide, by decide, ?_⟩
  apply (transmits_iff_whole 1 1 5 5 (fun _ => 0x55) 0 (by decide) (by decide) (by decide)
    (by decide) (by decide)).mpr
  exact ⟨by decide, by decide, .inl (by decide)⟩

end NextEmu.Device.UartTransmission
