import NextEmu.Device.UartEncoder
import NextEmu.Device.UartReception
import NextEmu.Lib.Divider

/-!
# From the encoder to the receiver

Each tick of the encoder is followed by one clock of the receiver. As long as the encoder's
64-bit counters do not wrap, the line carries one frame for each byte, each after one bit of
idle, and the receiver announces exactly these bytes. A longer array wraps `8 * txDataBytes`
first: of 2 ^ 61 bytes nothing is sent.
-/

namespace NextEmu.Device.UartRoundTrip

open NextEmu.Lib.Divider UartEncoder UartRx UartReception

/-! ## The frames of the encoder -/

/-- The encoder with what changes from bit to bit. -/
def phase (e : UartEncoder) (cur next : BitVec 8) (bit tx : Nat) (level : Bool) : UartEncoder :=
  { e with
    currentState := cur
    nextState := next
    bitCounter := BitVec.ofNat 64 bit
    txBitCounter := BitVec.ofNat 64 tx
    currentLogicVal := level }

/-- The state after `m` bits. -/
def updates (e : UartEncoder) : Nat → UartEncoder
  | 0 => e
  | m + 1 => (updates e m).update

/-! What `onUpdate` does, by the state that it enters. -/

section OnUpdate

variable {e : UartEncoder}

theorem onUpdate_idle (h : e.nextState = stateIdle) : e.onUpdate =
    { e with
      currentState := stateIdle
      currentLogicVal := true
      nextState := stateStartBit } := by
  simp [onUpdate, getBit, h]

theorem onUpdate_start (h : e.nextState = stateStartBit) : e.onUpdate =
    { e with
      currentState := stateStartBit
      currentLogicVal := false
      nextState := stateDataBits } := by
  have hidle : ¬ stateStartBit = stateIdle := by decide
  simp [onUpdate, getBit, h, hidle]

theorem onUpdate_data (h : e.nextState = stateDataBits) : e.onUpdate =
    { e with
      currentState := stateDataBits
      currentLogicVal := getTxDataBit e.txBitCounter e.txData
      bitCounter := if e.bitCounter + 1 = e.payloadBits then 0 else e.bitCounter + 1
      txBitCounter := e.txBitCounter + 1
      nextState := if e.bitCounter + 1 = e.payloadBits then stateStopBit else stateDataBits } := by
  have hidle : ¬ stateDataBits = stateIdle := by decide
  have hstart : ¬ stateDataBits = stateStartBit := by decide
  by_cases hlast : e.bitCounter + 1#64 = e.payloadBits
  · simp [onUpdate, getBit, h, hidle, hstart, hlast]
  · simp [onUpdate, getBit, h, hidle, hstart, hlast]

theorem onUpdate_stop (h : e.nextState = stateStopBit) : e.onUpdate =
    { e with
      currentState := stateStopBit
      currentLogicVal := true
      nextState := stateIdle } := by
  have hidle : ¬ stateStopBit = stateIdle := by decide
  have hstart : ¬ stateStopBit = stateStartBit := by decide
  have hdata : ¬ stateStopBit = stateDataBits := by decide
  simp [onUpdate, getBit, h, hidle, hstart, hdata]

/-- The other values of the state are entered and never left. -/
theorem onUpdate_other (hidle : e.nextState ≠ stateIdle) (hstart : e.nextState ≠ stateStartBit)
    (hdata : e.nextState ≠ stateDataBits) (hstop : e.nextState ≠ stateStopBit) : e.onUpdate =
    { e with
      currentState := e.nextState
      currentLogicVal := false } := by
  simp [onUpdate, getBit, hidle, hstart, hdata, hstop]

theorem nextState_cases (e : UartEncoder) : e.nextState = stateIdle ∨
    e.nextState = stateStartBit ∨ e.nextState = stateDataBits ∨ e.nextState = stateStopBit ∨
    (e.nextState ≠ stateIdle ∧ e.nextState ≠ stateStartBit ∧ e.nextState ≠ stateDataBits ∧
      e.nextState ≠ stateStopBit) := by
  by_cases hidle : e.nextState = stateIdle
  · exact .inl hidle
  by_cases hstart : e.nextState = stateStartBit
  · exact .inr (.inl hstart)
  by_cases hdata : e.nextState = stateDataBits
  · exact .inr (.inr (.inl hdata))
  by_cases hstop : e.nextState = stateStopBit
  · exact .inr (.inr (.inr (.inl hstop)))
  · exact .inr (.inr (.inr (.inr ⟨hidle, hstart, hdata, hstop⟩)))

end OnUpdate

section Encoder

variable {e : UartEncoder} {cur next : BitVec 8} {bit tx : Nat} {level : Bool}

/-- There is a bit left to send. -/
def More (e : UartEncoder) (tx : Nat) : Prop := BitVec.ofNat 64 tx < 8 * e.txDataBytes

theorem update_idle (h : More e tx ∨ cur ≠ stateIdle) :
    (phase e cur stateIdle bit tx level).update =
      phase e stateIdle stateStartBit bit tx true := by
  have hgo : (phase e cur stateIdle bit tx level).txBitCounter <
      8 * (phase e cur stateIdle bit tx level).txDataBytes ∨
      (phase e cur stateIdle bit tx level).currentState ≠ stateIdle := h
  rw [update, if_pos hgo]
  rfl

theorem update_start (h : More e tx) :
    (phase e stateIdle stateStartBit bit tx level).update =
      phase e stateStartBit stateDataBits bit tx false := by
  have hgo : (phase e stateIdle stateStartBit bit tx level).txBitCounter <
      8 * (phase e stateIdle stateStartBit bit tx level).txDataBytes ∨
      (phase e stateIdle stateStartBit bit tx level).currentState ≠ stateIdle := .inl h
  rw [update, if_pos hgo]
  rfl

theorem update_data (hcur : cur ≠ stateIdle) {n : Nat} (hn : e.payloadBits = BitVec.ofNat 64 n)
    (hbit : bit < n) (hlt : n < 2 ^ 64) :
    (phase e cur stateDataBits bit tx level).update =
      phase e stateDataBits (if bit + 1 = n then stateStopBit else stateDataBits)
        (if bit + 1 = n then 0 else bit + 1) (tx + 1)
        (getTxDataBit (BitVec.ofNat 64 tx) e.txData) := by
  have hgo : (phase e cur stateDataBits bit tx level).txBitCounter <
      8 * (phase e cur stateDataBits bit tx level).txDataBytes ∨
      (phase e cur stateDataBits bit tx level).currentState ≠ stateIdle := .inr hcur
  have hbits : BitVec.ofNat 64 bit + 1 = BitVec.ofNat 64 (bit + 1) := (BitVec.ofNat_add ..).symm
  have htx : BitVec.ofNat 64 tx + 1 = BitVec.ofNat 64 (tx + 1) := (BitVec.ofNat_add ..).symm
  have hlast : BitVec.ofNat 64 (bit + 1) = e.payloadBits ↔ bit + 1 = n := by
    rw [hn, ← BitVec.toNat_inj, BitVec.toNat_ofNat, BitVec.toNat_ofNat]
    omega
  have hstep : (phase e cur stateDataBits bit tx level).onUpdate =
      if BitVec.ofNat 64 bit + 1 = e.payloadBits then
        { phase e stateDataBits stateStopBit 0 tx (getTxDataBit (BitVec.ofNat 64 tx) e.txData) with
          txBitCounter := BitVec.ofNat 64 tx + 1 }
      else
        { phase e stateDataBits stateDataBits bit tx
            (getTxDataBit (BitVec.ofNat 64 tx) e.txData) with
          bitCounter := BitVec.ofNat 64 bit + 1
          txBitCounter := BitVec.ofNat 64 tx + 1 } := rfl
  rw [update, if_pos hgo, hstep, hbits, htx]
  by_cases hend : bit + 1 = n
  · rw [if_pos (hlast.mpr hend), if_pos hend, if_pos hend]
    rfl
  · rw [if_neg (hend ∘ hlast.mp), if_neg hend, if_neg hend]
    rfl

theorem update_stop :
    (phase e stateDataBits stateStopBit bit tx level).update =
      phase e stateStopBit stateIdle bit tx true := by
  have hgo : (phase e stateDataBits stateStopBit bit tx level).txBitCounter <
      8 * (phase e stateDataBits stateStopBit bit tx level).txDataBytes ∨
      (phase e stateDataBits stateStopBit bit tx level).currentState ≠ stateIdle :=
    .inr (show stateDataBits ≠ stateIdle by decide)
  rw [update, if_pos hgo]
  rfl

theorem update_done (h : ¬ More e tx) :
    (phase e stateIdle next bit tx level).update = phase e stateIdle next bit tx level := by
  have hstop : ¬ ((phase e stateIdle next bit tx level).txBitCounter <
      8 * (phase e stateIdle next bit tx level).txDataBytes ∨
      (phase e stateIdle next bit tx level).currentState ≠ stateIdle) :=
    fun hor => hor.elim h fun hne => hne rfl
  rw [update, if_neg hstop]

/-- Data bits one after the other, up to the end of the frame. -/
theorem updates_bits {m n : Nat} (hn : e.payloadBits = BitVec.ofNat 64 n) (hlt : n < 2 ^ 64)
    (hcur : cur ≠ stateIdle) (hm : updates e m = phase e cur stateDataBits bit tx level) (i : Nat)
    (hi : bit + i < n) : updates e (m + 1 + i) =
      phase e stateDataBits (if bit + i + 1 = n then stateStopBit else stateDataBits)
        (if bit + i + 1 = n then 0 else bit + i + 1) (tx + i + 1)
        (getTxDataBit (BitVec.ofNat 64 (tx + i)) e.txData) := by
  induction i with
  | zero =>
    have hbit : bit < n := hi
    rw [Nat.add_zero, updates, hm, update_data hcur hn hbit hlt]
    rfl
  | succ i ih =>
    have hne : ¬ bit + i + 1 = n := by omega
    rw [← Nat.add_assoc, updates, ih (by omega), if_neg hne, if_neg hne,
      update_data (by decide) hn (by omega) hlt]
    rfl

/-- One frame, from any state that goes on to idle and has counted `bit` bits of it. -/
theorem updates_frame_from {m n : Nat} (hn : e.payloadBits = BitVec.ofNat 64 n) (hbit : bit < n)
    (hlt : n < 2 ^ 64) (hmore : More e tx)
    (hm : updates e m = phase e cur stateIdle bit tx level) :
    updates e (m + 1) = phase e stateIdle stateStartBit bit tx true ∧
    updates e (m + 2) = phase e stateStartBit stateDataBits bit tx false ∧
    (∀ i, bit + i < n → updates e (m + 3 + i) =
      phase e stateDataBits (if bit + i + 1 = n then stateStopBit else stateDataBits)
        (if bit + i + 1 = n then 0 else bit + i + 1) (tx + i + 1)
        (getTxDataBit (BitVec.ofNat 64 (tx + i)) e.txData)) ∧
    updates e (m + 3 + (n - bit)) = phase e stateStopBit stateIdle 0 (tx + (n - bit)) true := by
  have hidle : updates e (m + 1) = phase e stateIdle stateStartBit bit tx true := by
    rw [updates, hm, update_idle (.inl hmore)]
  have hstart : updates e (m + 2) = phase e stateStartBit stateDataBits bit tx false := by
    rw [updates, hidle, update_start hmore]
  have hdata := updates_bits hn hlt (by decide) hstart
  refine ⟨hidle, hstart, hdata, ?_⟩
  have hlast := hdata (n - bit - 1) (by omega)
  have hsum : bit + (n - bit - 1) + 1 = n := by omega
  have htx : tx + (n - bit - 1) + 1 = tx + (n - bit) := by omega
  have hindex : m + 3 + (n - bit) = m + 2 + 1 + (n - bit - 1) + 1 := by omega
  rw [if_pos hsum, if_pos hsum, htx] at hlast
  rw [hindex, updates, hlast, update_stop]

/-- A whole one. -/
theorem updates_frame {m n : Nat} (hn : e.payloadBits = BitVec.ofNat 64 n) (hpos : 0 < n)
    (hlt : n < 2 ^ 64) (hmore : More e tx)
    (hm : updates e m = phase e cur stateIdle 0 tx level) :
    updates e (m + 1) = phase e stateIdle stateStartBit 0 tx true ∧
    updates e (m + 2) = phase e stateStartBit stateDataBits 0 tx false ∧
    (∀ i, i < n → updates e (m + 3 + i) =
      phase e stateDataBits (if i + 1 = n then stateStopBit else stateDataBits)
        (if i + 1 = n then 0 else i + 1) (tx + i + 1)
        (getTxDataBit (BitVec.ofNat 64 (tx + i)) e.txData)) ∧
    updates e (m + 3 + n) = phase e stateStopBit stateIdle 0 (tx + n) true := by
  have hall := updates_frame_from hn hpos hlt hmore hm
  simp only [Nat.zero_add, Nat.sub_zero] at hall
  exact hall

end Encoder

/-- `e` is about to send, in frames of `n` bits, `count` of them. -/
structure Sends (e : UartEncoder) (n count : Nat) : Prop where
  payload : e.payloadBits = BitVec.ofNat 64 n
  pos : 0 < n
  lt : n < 2 ^ 64
  fresh : e = phase e e.currentState stateIdle 0 0 true
  more : ∀ j, j < count → More e (n * j)
  done : ¬ More e (n * count)

section Sends

variable {e : UartEncoder} {n count : Nat}

theorem updates_word (h : Sends e n count) (j : Nat) (hj : j ≤ count) :
    ∃ cur level, updates e ((n + 3) * j) = phase e cur stateIdle 0 (n * j) level ∧
      (j = 0 → level = true) ∧ (0 < j → cur = stateStopBit) := by
  induction j with
  | zero => exact ⟨e.currentState, true, h.fresh, fun _ => rfl, fun hlt => absurd hlt (by decide)⟩
  | succ j ih =>
    obtain ⟨cur, level, hword, -, -⟩ := ih (by omega)
    obtain ⟨-, -, -, hstop⟩ := updates_frame h.payload h.pos h.lt (h.more j hj) hword
    have hindex : (n + 3) * (j + 1) = (n + 3) * j + 3 + n := by rw [Nat.mul_succ]; omega
    refine ⟨stateStopBit, true, ?_, fun _ => rfl, fun _ => rfl⟩
    rw [hindex, hstop, Nat.mul_succ]

/-- After the last frame the line is high and stays so. -/
theorem updates_rest (h : Sends e n count) :
    (updates e ((n + 3) * count + 1)).currentLogicVal = true ∧
      (updates e ((n + 3) * count + 1)).update = updates e ((n + 3) * count + 1) := by
  obtain ⟨cur, level, hword, hlevel, hcur⟩ := updates_word h count (Nat.le_refl _)
  by_cases hidle : cur = stateIdle
  · have hzero : count = 0 := by
      refine Decidable.byContradiction fun hne => ?_
      rw [hcur (by omega)] at hidle
      exact absurd hidle (by decide)
    subst hidle
    rw [updates, hword, update_done h.done, update_done h.done]
    exact ⟨hlevel hzero, rfl⟩
  · rw [updates, hword, update_idle (.inr hidle), update_done h.done]
    exact ⟨rfl, rfl⟩

theorem updates_fixed {m : Nat} (h : (updates e m).update = updates e m) {m' : Nat}
    (hle : m ≤ m') : updates e m' = updates e m := by
  induction hle with
  | refl => rfl
  | step _ ih => rw [updates, ih, h]

end Sends

/-! ## Ticks -/

section Ticks

variable (e : UartEncoder)

/-- The counter of the cycles and the mutex take no part in an update. -/
theorem onUpdate_rest (x : BitVec 64) (b : Bool) :
    { e with cycleCounter := x, ueMutex := b }.onUpdate =
      { e.onUpdate with cycleCounter := x, ueMutex := b } ∧
    e.onUpdate.cyclesPerBit = e.cyclesPerBit ∧ e.onUpdate.cyclesToDelay = e.cyclesToDelay ∧
    e.onUpdate.ueMutex = e.ueMutex := by
  obtain h | h | h | h | ⟨hidle, hstart, hdata, hstop⟩ := nextState_cases e
  · rw [onUpdate_idle h, onUpdate_idle (e := { e with cycleCounter := x, ueMutex := b }) h]
    exact ⟨rfl, rfl, rfl, rfl⟩
  · rw [onUpdate_start h, onUpdate_start (e := { e with cycleCounter := x, ueMutex := b }) h]
    exact ⟨rfl, rfl, rfl, rfl⟩
  · rw [onUpdate_data h, onUpdate_data (e := { e with cycleCounter := x, ueMutex := b }) h]
    exact ⟨rfl, rfl, rfl, rfl⟩
  · rw [onUpdate_stop h, onUpdate_stop (e := { e with cycleCounter := x, ueMutex := b }) h]
    exact ⟨rfl, rfl, rfl, rfl⟩
  · rw [onUpdate_other hidle hstart hdata hstop,
      onUpdate_other (e := { e with cycleCounter := x, ueMutex := b }) hidle hstart hdata hstop]
    exact ⟨rfl, rfl, rfl, rfl⟩

theorem update_rest (x : BitVec 64) (b : Bool) :
    { e with cycleCounter := x, ueMutex := b }.update =
      { e.update with cycleCounter := x, ueMutex := b } ∧
    e.update.cyclesPerBit = e.cyclesPerBit ∧ e.update.cyclesToDelay = e.cyclesToDelay ∧
    e.update.ueMutex = e.ueMutex := by
  obtain ⟨hrest, hper, hdelay, hmutex⟩ := onUpdate_rest e x b
  unfold update
  by_cases hgo : e.txBitCounter < 8 * e.txDataBytes ∨ e.currentState ≠ stateIdle
  · rw [if_pos hgo, if_pos (show _ from hgo)]
    exact ⟨hrest, hper, hdelay, hmutex⟩
  · rw [if_neg hgo, if_neg (show ¬ _ from hgo)]
    exact ⟨rfl, rfl, rfl, rfl⟩

/-- An encoder without a delay, with `c` cycles to a bit, that nobody holds the mutex of. -/
structure Runs (e : UartEncoder) (c : Nat) : Prop where
  cycles : e.cyclesPerBit.toNat = c
  pos : 0 < c
  undelayed : e.cyclesToDelay = 0
  unlocked : e.ueMutex = false

variable {e} {c : Nat}

theorem Runs.update (h : Runs e c) : Runs e.update c := by
  obtain ⟨-, hper, hdelay, hmutex⟩ := update_rest e 0 false
  exact ⟨hper ▸ h.cycles, h.pos, hdelay.trans h.undelayed, hmutex.trans h.unlocked⟩

theorem Runs.updates (h : Runs e c) (m : Nat) : Runs (updates e m) c := by
  induction m with
  | zero => exact h
  | succ m ih => exact ih.update

theorem tick_eq (h : Runs e c) (x : BitVec 64) :
    { e with cycleCounter := x }.tick = .ok { (if x.toNat % c = 0 then e.update else e) with
      cycleCounter := x + 1 } := by
  have hzero : ¬ e.cyclesPerBit = 0 := by
    intro hzero
    have hcycles := h.cycles
    rw [hzero] at hcycles
    exact absurd h.pos (by rw [← hcycles]; decide)
  have hmod : x % e.cyclesPerBit = 0 ↔ x.toNat % c = 0 := by
    rw [← BitVec.toNat_inj, BitVec.toNat_umod, h.cycles]
    rfl
  have hdelay : ¬ e.cyclesToDelay > 0 := by rw [h.undelayed]; decide
  have hlock : ¬ e.ueMutex = true := by rw [h.unlocked]; decide
  obtain ⟨hrest, -, -, hmutex⟩ := update_rest e x true
  have hstep : { e with cycleCounter := x }.tick =
      .ok { (if x % e.cyclesPerBit = 0 then { e with cycleCounter := x, ueMutex := true }.update
        else { e with cycleCounter := x, ueMutex := true }) with
        cycleCounter := (if x % e.cyclesPerBit = 0 then
          { e with cycleCounter := x, ueMutex := true }.update
          else { e with cycleCounter := x, ueMutex := true }).cycleCounter + 1
        ueMutex := false } := by
    unfold tick
    rw [if_neg hlock, if_neg hdelay, if_neg hzero]
    rfl
  rw [hstep, hrest]
  by_cases hbit : x.toNat % c = 0
  · rw [if_pos (hmod.mpr hbit), if_pos hbit, ← hmutex.trans h.unlocked]
  · rw [if_neg (hbit ∘ hmod.mp), if_neg hbit, ← h.unlocked]

/-- The ticks update the encoder whenever its cycle counter is a multiple of `c`. -/
theorem ticks_from (h : Runs e c) (t : Nat) :
    e.ticks t = .ok { updates e (firedFrom (2 ^ 64) c e.cycleCounter.toNat t) with
      cycleCounter := e.cycleCounter + BitVec.ofNat 64 t } := by
  induction t with
  | zero =>
    have hstart : e.cycleCounter + BitVec.ofNat 64 0 = e.cycleCounter := BitVec.add_zero _
    rw [ticks, firedFrom, updates, hstart]
  | succ t ih =>
    have hstep : e.ticks (t + 1) =
        ({ updates e (firedFrom (2 ^ 64) c e.cycleCounter.toNat t) with
          cycleCounter := e.cycleCounter + BitVec.ofNat 64 t }).tick := by
      rw [ticks, ih]
      rfl
    have hone : e.cycleCounter + BitVec.ofNat 64 t + 1 =
        e.cycleCounter + BitVec.ofNat 64 (t + 1) := by
      rw [BitVec.ofNat_add, BitVec.add_assoc]
      rfl
    have hcount : (e.cycleCounter + BitVec.ofNat 64 t).toNat =
        (e.cycleCounter.toNat + t) % 2 ^ 64 := by
      rw [BitVec.toNat_add, BitVec.toNat_ofNat, Nat.add_mod_mod]
    rw [hstep, tick_eq (h.updates _), hone, hcount, firedFrom]
    split
    · rfl
    · rfl

/-- The same from construction. -/
theorem ticks_fired (h : Runs e c) (hzero : e.cycleCounter = 0) (t : Nat) :
    e.ticks t = .ok { updates e (fired (2 ^ 64) c t) with cycleCounter := BitVec.ofNat 64 t } := by
  have hstart : (0 : BitVec 64).toNat = 0 := rfl
  have hcount : 0 + BitVec.ofNat 64 t = BitVec.ofNat 64 t := BitVec.zero_add _
  rw [ticks_from h, hzero, hstart, firedFrom_zero, hcount]

/-- The ticks of an encoder that has sent everything before its cycle counter wraps. -/
theorem ticks_eq (h : Runs e c) (hzero : e.cycleCounter = 0) {m : Nat}
    (hfix : (updates e (m + 1)).update = updates e (m + 1)) (hwrap : c * m + 1 ≤ 2 ^ 64) (t : Nat) :
    e.ticks t = .ok { updates e ((t + (c - 1)) / c) with cycleCounter := BitVec.ofNat 64 t } := by
  have hpos := h.pos
  rw [ticks_fired h hzero]
  by_cases hlow : t ≤ 2 ^ 64
  · rw [fired_eq hpos (.inl hlow)]
  -- behind the wrap both counts are past the last bit
  · have hbegun : m + 1 ≤ (t + (c - 1)) / c :=
      (Nat.le_div_iff_mul_le hpos).mpr (by rw [Nat.mul_comm, Nat.mul_succ]; omega)
    have hfired : m + 1 ≤ fired (2 ^ 64) c t := by
      have hle := le_mul_fired hpos (M := 2 ^ 64) (by decide) t
      exact Nat.lt_of_mul_lt_mul_left (Nat.lt_of_lt_of_le (by omega) hle)
    rw [updates_fixed hfix hbegun, updates_fixed hfix hfired]

end Ticks

/-! ## The two together -/

structure Link (p : Params) where
  enc : UartEncoder
  rx : UartRx p
  received : List (BitVec p.payloadBits)

/-- `t` ticks from reset, each followed by a rising edge of the clock. -/
def link (p : Params) (e : UartEncoder) : Nat → Except UartEncoder.Fault (Link p)
  | 0 => .ok ⟨e, reset, []⟩
  | t + 1 => do
    let s ← link p e t
    let enc ← s.enc.tick
    let rx := s.rx.clock enc.currentLogicVal
    return ⟨enc, rx, s.received ++ if rx.rxDone then [rx.rxData] else []⟩

/-- The line while bit `t / c` is sent. -/
def lineOf (e : UartEncoder) (c : Nat) (t : Nat) : Bool := (updates e (t / c + 1)).currentLogicVal

section Link

variable {p : Params} {e : UartEncoder} {data : List (BitVec p.payloadBits)}

theorem link_eq {line : Nat → Bool}
    (h : ∀ t, ∃ enc, e.ticks t = .ok enc ∧ (0 < t → enc.currentLogicVal = line (t - 1))) (t : Nat) :
    ∃ enc, e.ticks t = .ok enc ∧ link p e t = .ok ⟨enc, after line t, UartRx.received line t⟩ := by
  induction t with
  | zero => exact ⟨e, rfl, rfl⟩
  | succ t ih =>
    obtain ⟨enc, hticks, hlink⟩ := ih
    obtain ⟨enc', hticks', hlevel⟩ := h (t + 1)
    have htick : enc.tick = .ok enc' := by
      rw [ticks, hticks] at hticks'
      exact hticks'
    refine ⟨enc', hticks', ?_⟩
    rw [link, hlink]
    change (do
      let enc' ← enc.tick
      let rx := (after line t : UartRx p).clock enc'.currentLogicVal
      return Link.mk enc' rx (UartRx.received line t ++ if rx.rxDone then [rx.rxData] else [])) = _
    rw [htick]
    change Except.ok (Link.mk enc' ((after line t : UartRx p).clock enc'.currentLogicVal) _) = _
    rw [hlevel (Nat.succ_pos t), Nat.add_sub_cancel]
    rfl

/-- The bits of the words are those that the encoder takes from its array. -/
def Spells (e : UartEncoder) (data : List (BitVec p.payloadBits)) : Prop :=
  ∀ j (hj : j < data.length) i, i < p.payloadBits →
    getTxDataBit (BitVec.ofNat 64 (p.payloadBits * j + i)) e.txData = data[j].getLsbD i

theorem lineOf_bit {c : Nat} (m k : Nat) (hk : k < c) :
    lineOf e c (c * m + k) = (updates e (m + 1)).currentLogicVal := by
  have hpos : 0 < c := by omega
  rw [lineOf, Nat.mul_add_div hpos, Nat.div_eq_of_lt hk, Nat.add_zero]

theorem carries_lineOf (h : Sends e p.payloadBits data.length) (hspells : Spells e data)
    (hpos : 0 < p.clkPerBit) : Carries (lineOf e p.clkPerBit) data := by
  have hstart : ∀ j, frameAt p j = p.clkPerBit * ((p.payloadBits + 3) * j + 1) := by
    intro j
    rw [frameAt, Nat.mul_assoc, ← Nat.mul_succ]
  have hframe : ∀ j, j < data.length → ∃ cur level,
      updates e ((p.payloadBits + 3) * j) = phase e cur stateIdle 0 (p.payloadBits * j) level := by
    intro j hj
    obtain ⟨cur, level, hword, -, -⟩ := updates_word h j (by omega)
    exact ⟨cur, level, hword⟩
  refine ⟨fun j k hj hk => ?_, fun j hj => ⟨fun k hk => ?_, fun i k hi hk => ?_, fun k hk => ?_⟩,
    fun t ht => ?_⟩
  · obtain ⟨cur, level, hword⟩ := hframe j hj
    obtain ⟨hidle, -, -, -⟩ := updates_frame h.payload h.pos h.lt (h.more j hj) hword
    have hindex : frameAt p j - p.clkPerBit + k = p.clkPerBit * ((p.payloadBits + 3) * j) + k := by
      rw [hstart, Nat.mul_succ]
      omega
    rw [hindex, lineOf_bit _ _ hk, hidle]
    rfl
  · obtain ⟨cur, level, hword⟩ := hframe j hj
    obtain ⟨-, hlow, -, -⟩ := updates_frame h.payload h.pos h.lt (h.more j hj) hword
    rw [hstart, lineOf_bit _ _ hk, hlow]
    rfl
  · obtain ⟨cur, level, hword⟩ := hframe j hj
    obtain ⟨-, -, hdata, -⟩ := updates_frame h.payload h.pos h.lt (h.more j hj) hword
    have hindex : frameAt p j + p.clkPerBit * (i + 1) + k =
        p.clkPerBit * ((p.payloadBits + 3) * j + 2 + i) + k := by
      rw [hstart, ← Nat.mul_add]
      congr 2
      omega
    have hbit : (p.payloadBits + 3) * j + 2 + i + 1 = (p.payloadBits + 3) * j + 3 + i := by omega
    rw [hindex, lineOf_bit _ _ hk, hbit, hdata i hi]
    exact hspells j hj i hi
  · obtain ⟨cur, level, hword⟩ := hframe j hj
    obtain ⟨-, -, -, hstop⟩ := updates_frame h.payload h.pos h.lt (h.more j hj) hword
    have hindex : frameAt p j + p.clkPerBit * (p.payloadBits + 1) + k =
        p.clkPerBit * ((p.payloadBits + 3) * j + 2 + p.payloadBits) + k := by
      rw [hstart, ← Nat.mul_add]
      congr 2
      omega
    have hbit : (p.payloadBits + 3) * j + 2 + p.payloadBits + 1 =
        (p.payloadBits + 3) * j + 3 + p.payloadBits := by omega
    rw [hindex, lineOf_bit _ _ hk, hbit, hstop]
    rfl
  · obtain ⟨hhigh, hfix⟩ := updates_rest h
    rw [hstart, Nat.mul_succ, Nat.add_sub_cancel] at ht
    have hle : (p.payloadBits + 3) * data.length ≤ t / p.clkPerBit :=
      (Nat.le_div_iff_mul_le hpos).mpr (by rw [Nat.mul_comm]; exact ht)
    rw [lineOf, updates_fixed hfix (Nat.succ_le_succ hle)]
    exact hhigh

/-- What the receiver has announced after `t` ticks, when the last frame ends before the cycle
counter wraps. -/
theorem link_received (hruns : Runs e p.clkPerBit) (hsends : Sends e p.payloadBits data.length)
    (hspells : Spells e data) (hzero : e.cycleCounter = 0)
    (hN : p.clkPerBit / 2 + p.payloadBits + 5 ≤ p.clkPerBit)
    (hwrap : p.clkPerBit * ((p.payloadBits + 3) * data.length) + 1 ≤ 2 ^ 64) (t : Nat) :
    ∃ enc, link p e t = .ok ⟨enc, after (lineOf e p.clkPerBit) t,
        UartRx.received (lineOf e p.clkPerBit) t⟩ ∧
      ∀ j, j ≤ data.length → announced p j ≤ t → (j < data.length → t < announced p (j + 1)) →
        UartRx.received (lineOf e p.clkPerBit) t = data.take j := by
  obtain ⟨-, hfix⟩ := updates_rest hsends
  have hpos := hruns.pos
  have hline : ∀ t, ∃ enc, e.ticks t = .ok enc ∧
      (0 < t → enc.currentLogicVal = lineOf e p.clkPerBit (t - 1)) := by
    intro t
    refine ⟨_, ticks_eq hruns hzero hfix hwrap t, fun ht => ?_⟩
    obtain ⟨t, rfl⟩ : ∃ t', t = t' + 1 := ⟨t - 1, by omega⟩
    rw [begun_succ hpos, Nat.add_sub_cancel]
    rfl
  obtain ⟨enc, -, hlink⟩ := link_eq (p := p) hline t
  refine ⟨enc, hlink, fun j hj hlo hhi => ?_⟩
  exact received_from hN (carries_lineOf hsends hspells hpos) hj hlo hhi

end Link

/-! ## At 9600 baud and 1 MHz -/

/-- An encoder for the bytes of `data`, which `rest` follows in memory; `cur` is what
`currentState` happens to hold. -/
def encoder (data : List (BitVec 8)) (rest : Nat → BitVec 8) (cur : BitVec 8) : UartEncoder :=
  UartEncoder.init 1000000 (fun i => data.getD i (rest i)) (BitVec.ofNat 64 data.length) 9600 8 0
    cur

/-- The two never block, and what is announced is `data`, in order, each byte for one clock. -/
structure Delivers (e : UartEncoder) (data : List (BitVec 8)) : Prop where
  runs : ∀ t, ∃ s, link {} e t = .ok s
  inOrder : ∀ t s, link {} e t = .ok s → s.received <+: data
  all : ∃ t₀, ∀ t s, t₀ ≤ t → link {} e t = .ok s → s.received = data
  once : ∀ t s s', link {} e t = .ok s → link {} e (t + 1) = .ok s' → s.rx.rxDone = true →
    s'.rx.rxDone = false

section Default

variable {data : List (BitVec 8)} {rest : Nat → BitVec 8} {cur : BitVec 8}

theorem encoder_runs : Runs (encoder data rest cur) 104 where
  cycles := show ((1000000 : BitVec 64) / 9600).toNat = 104 by decide
  pos := by decide
  undelayed := rfl
  unlocked := rfl

/-- Without a bit left `count` is 0 for any array. -/
theorem encoder_sends {count : Nat}
    (hmore : ∀ j, j < count → More (encoder data rest cur) (8 * j))
    (hdone : ¬ More (encoder data rest cur) (8 * count)) : Sends (encoder data rest cur) 8 count :=
  ⟨rfl, by decide, by decide, rfl, hmore, hdone⟩

theorem more_iff (hlen : data.length * 8 < 2 ^ 64) {j : Nat} (hj : j ≤ data.length) :
    More (encoder data rest cur) (8 * j) ↔ j < data.length := by
  have hbytes : (8 * (encoder data rest cur).txDataBytes).toNat = 8 * data.length := by
    have hmul : (8 * (encoder data rest cur).txDataBytes).toNat =
        8 * (data.length % 2 ^ 64) % 2 ^ 64 := by
      rw [BitVec.toNat_mul, encoder, UartEncoder.init, BitVec.toNat_ofNat]
      rfl
    rw [hmul]
    omega
  rw [More, BitVec.lt_def, hbytes, BitVec.toNat_ofNat]
  omega

theorem encoder_spells (hlen : data.length * 8 < 2 ^ 64) :
    Spells (p := {}) (encoder data rest cur) data := by
  intro j hj i hi
  have hi8 : i < 8 := hi
  have hlow : 8 * j + i < 2 ^ 64 := by omega
  have hbyte : (BitVec.ofNat 64 (8 * j + i) >>> 3).toNat = j := by
    rw [BitVec.toNat_ushiftRight, BitVec.toNat_ofNat, Nat.mod_eq_of_lt hlow,
      Nat.shiftRight_eq_div_pow]
    omega
  have hbit : (BitVec.ofNat 64 (8 * j + i) % 8).toNat = i := by
    rw [BitVec.toNat_umod, BitVec.toNat_ofNat, Nat.mod_eq_of_lt hlow]
    change (8 * j + i) % 8 = i
    omega
  change ((fun i => data.getD i (rest i)) (BitVec.ofNat 64 (8 * j + i) >>> 3).toNat).getLsbD
    (BitVec.ofNat 64 (8 * j + i) % 8).toNat = _
  rw [hbyte, hbit]
  simp only [List.getD_eq_getElem?_getD, List.getElem?_eq_getElem hj, Option.getD_some]

theorem announced_eq (j : Nat) : announced {} (j + 1) = 1144 * j + 1105 := by
  have hframe : frameAt {} j = 1144 * j + 104 := rfl
  have hclocks : frameClocks {} = 1001 := rfl
  rw [announced, hframe, hclocks]

/-- The whole of `data` is delivered when the encoder sends as many frames as there are bytes. -/
theorem delivers (e : UartEncoder) (hruns : Runs e 104) (hsends : Sends e 8 data.length)
    (hspells : Spells (p := {}) e data) (hzero : e.cycleCounter = 0)
    (hwrap : 1144 * data.length < 2 ^ 64) : Delivers e data := by
  have hlink := link_received (p := {}) hruns hsends hspells hzero (by decide) (by
    change 104 * (11 * data.length) + 1 ≤ 2 ^ 64
    omega)
  have htake : ∀ t, UartRx.received (p := {}) (lineOf e (Params.clkPerBit {})) t =
      data.take ((t + 39) / 1144) := by
    intro t
    obtain ⟨-, -, hreceived⟩ := hlink t
    by_cases hall : data.length ≤ (t + 39) / 1144
    · rw [hreceived data.length (Nat.le_refl _) ?_ (fun hlt => absurd hlt (Nat.lt_irrefl _)),
        List.take_length, List.take_of_length_le hall]
      cases hlen : data.length with
      | zero => exact Nat.zero_le _
      | succ n =>
        rw [announced_eq]
        omega
    · refine hreceived _ (by omega) ?_ fun _ => ?_
      · cases hq : (t + 39) / 1144 with
        | zero => exact Nat.zero_le _
        | succ n =>
          rw [announced_eq]
          omega
      · rw [announced_eq]
        omega
  refine ⟨fun t => ?_, fun t s hs => ?_, ⟨1144 * data.length, fun t s ht hs => ?_⟩,
    fun t s s' hs hs' hdone => ?_⟩
  · obtain ⟨enc, henc, -⟩ := hlink t
    exact ⟨_, henc⟩
  · obtain ⟨enc, henc, -⟩ := hlink t
    obtain rfl := Except.ok.inj (henc.symm.trans hs)
    exact htake t ▸ List.take_prefix _ _
  · obtain ⟨enc, henc, -⟩ := hlink t
    obtain rfl := Except.ok.inj (henc.symm.trans hs)
    exact (htake t).trans (List.take_of_length_le (by omega))
  · obtain ⟨enc, henc, -⟩ := hlink t
    obtain ⟨enc', henc', -⟩ := hlink (t + 1)
    obtain rfl := Except.ok.inj (henc.symm.trans hs)
    obtain rfl := Except.ok.inj (henc'.symm.trans hs')
    cases t with
    | zero => cases hdone
    | succ t => exact done_once hdone

end Default

/-- Any bytes whose frames end before the cycle counter of the encoder wraps are delivered. -/
theorem round_trip (data : List (BitVec 8)) (rest : Nat → BitVec 8) (cur : BitVec 8)
    (hlen : 1144 * data.length < 2 ^ 64) : Delivers (encoder data rest cur) data := by
  have hbits : data.length * 8 < 2 ^ 64 := by omega
  have hmore : ∀ j, j ≤ data.length →
      (More (encoder data rest cur) (8 * j) ↔ j < data.length) := fun _ hj => more_iff hbits hj
  refine delivers _ encoder_runs (encoder_sends (fun j hj => ?_) fun hlast => ?_)
    (encoder_spells (by omega)) rfl hlen
  · exact (hmore j (by omega)).mpr hj
  · exact absurd ((hmore _ (Nat.le_refl _)).mp hlast) (Nat.lt_irrefl _)

theorem round_trip_hello :
    Delivers (encoder [0x68, 0x65, 0x6c, 0x6c, 0x6f] (fun _ => 0) 0)
      [0x68, 0x65, 0x6c, 0x6c, 0x6f] :=
  round_trip _ _ _ (by decide)

/-- Of 2 ^ 61 bytes nothing is sent, since the number of their bits wraps to 0. -/
theorem wrapped_not_sent : ¬ ∀ (data : List (BitVec 8)) (rest : Nat → BitVec 8) (cur : BitVec 8),
    Delivers (encoder data rest cur) data := by
  intro hall
  have hlong : Delivers (encoder (.replicate (2 ^ 61) 0) (fun _ => 0) 0) (.replicate (2 ^ 61) 0) :=
    hall _ _ _
  have hnone : ¬ More (encoder (.replicate (2 ^ 61) 0) (fun _ => 0) 0) (8 * 0) := by
    rw [More, encoder, UartEncoder.init, List.length_replicate]
    decide
  have hempty : Delivers (encoder (.replicate (2 ^ 61) 0) (fun _ => 0) 0) [] :=
    delivers _ encoder_runs (encoder_sends (fun j hj => absurd hj (Nat.not_lt_zero j)) hnone)
      (fun j hj => absurd hj (Nat.not_lt_zero j)) rfl (by decide)
  obtain ⟨t₀, hsent⟩ := hlong.all
  obtain ⟨s, hs⟩ := hempty.runs t₀
  have hnil := List.prefix_nil.mp (hempty.inOrder t₀ s hs)
  have hlength := congrArg List.length ((hsent t₀ s (Nat.le_refl _) hs).symm.trans hnil)
  rw [List.length_replicate] at hlength
  exact absurd hlength (by decide)

end NextEmu.Device.UartRoundTrip
