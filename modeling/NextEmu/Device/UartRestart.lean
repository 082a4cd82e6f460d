import NextEmu.Device.UartDelay

/-!
# Restarting the encoder

`resetData` clears the counter of the bits that were sent but not `bitCounter`, which counts
those of a frame. A restart in the middle of the data bits therefore begins with a frame that
is as much too short, and the frames behind it are out of step with the bytes.
-/

namespace NextEmu.Device.UartRestart

open NextEmu.Lib.Divider UartEncoder UartRoundTrip UartTransmission UartDelay

/-- The states that ticks and restarts reach. -/
inductive Reached (e₀ : UartEncoder) : UartEncoder → Prop
  | start : Reached e₀ e₀
  | tick {e e' : UartEncoder} (h : Reached e₀ e) (htick : e.tick = .ok e') : Reached e₀ e'
  | resetData {e e' : UartEncoder} (h : Reached e₀ e) (data : Nat → BitVec 8)
      (dataLenBytes : BitVec 64) (hreset : e.resetData data dataLenBytes = .ok e') : Reached e₀ e'

/-- The bits that the next `t` ticks begin. -/
def begun (e : UartEncoder) (t : Nat) : Nat :=
  firedFrom (2 ^ 64) e.cyclesPerBit.toNat e.cycleCounter.toNat t

/-- `e'`, which is `e` behind a restart, keeps the level until the next bit begins, is idle there,
and from there on has bit by bit the level of `fresh` and is finished when that is. -/
structure RestartsAs (e e' fresh : UartEncoder) : Prop where
  runs : ∀ t, ∃ s, e'.ticks t = .ok s
  bits : ∀ m, ∃ t, begun e' t = m
  held : ∀ t s, e'.ticks t = .ok s → begun e' t = 0 → s.currentLogicVal = e.currentLogicVal
  idle : ∀ t s, e'.ticks t = .ok s → begun e' t = 1 → s.currentLogicVal = true
  frames : ∀ t t' s s', e'.ticks t = .ok s → fresh.ticks t' = .ok s' → 0 < begun e' t →
    begun e' t = begun fresh t' → s.currentLogicVal = s'.currentLogicVal ∧ s.finished = s'.finished

def Restarts (e fresh : UartEncoder) (data : Nat → BitVec 8) (dataLenBytes : BitVec 64) : Prop :=
  ∃ e', e.resetData data dataLenBytes = .ok e' ∧ RestartsAs e e' fresh

/-! ## What a transmission keeps -/

/-- The delay counts with the mutex locked, an idle line is high, and a frame is not complete. -/
structure Kept (cycles delay : BitVec 64) (e : UartEncoder) : Prop where
  cycles : e.cyclesPerBit = cycles
  payload : e.payloadBits = 8
  unlocked : e.ueMutex = false → e.cyclesToDelay = delay
  locked : e.ueMutex = true → delay ≠ 0
  idle : e.currentState = stateIdle → e.currentLogicVal = true
  inside : e.bitCounter.toNat < 8

section Kept

variable {cycles delay : BitVec 64} {e e' : UartEncoder}

theorem onUpdate_kept (h : Kept cycles delay e) : Kept cycles delay e.onUpdate := by
  obtain ⟨hcycles, hpayload, hunlocked, hlocked, -, hinside⟩ := h
  obtain hidle | hstart | hdata | hstop | ⟨hidle, hstart, hdata, hstop⟩ := nextState_cases e
  · rw [onUpdate_idle hidle]
    exact ⟨hcycles, hpayload, hunlocked, hlocked, fun _ => rfl, hinside⟩
  · have hne : ¬ stateStartBit = stateIdle := by decide
    rw [onUpdate_start hstart]
    exact ⟨hcycles, hpayload, hunlocked, hlocked, fun h => absurd h hne, hinside⟩
  · have hne : ¬ stateDataBits = stateIdle := by decide
    rw [onUpdate_data hdata]
    refine ⟨hcycles, hpayload, hunlocked, hlocked, fun h => absurd h hne, ?_⟩
    dsimp only
    split
    · decide
    · rename_i hlast
      rw [hpayload, ← BitVec.toNat_inj, BitVec.toNat_add] at hlast
      rw [BitVec.toNat_add]
      change ¬ (e.bitCounter.toNat + 1) % 2 ^ 64 = 8 at hlast
      change (e.bitCounter.toNat + 1) % 2 ^ 64 < 8
      omega
  · rw [onUpdate_stop hstop]
    exact ⟨hcycles, hpayload, hunlocked, hlocked, fun _ => rfl, hinside⟩
  · rw [onUpdate_other hidle hstart hdata hstop]
    exact ⟨hcycles, hpayload, hunlocked, hlocked, fun h => absurd h hidle, hinside⟩

theorem update_kept (h : Kept cycles delay e) : Kept cycles delay e.update := by
  unfold update
  split
  · exact onUpdate_kept h
  · exact h

/-- A tick that returns counts down the delay, or begins a bit, or neither. -/
theorem tick_cases (h : e.tick = .ok e') : e.ueMutex = false ∧
    ((e.cyclesToDelay > 0 ∧ e' = { e with ueMutex := true, cyclesToDelay := e.cyclesToDelay - 1 }) ∨
      ∃ x, e' = { e.update with cycleCounter := x, ueMutex := false } ∨
        e' = { e with cycleCounter := x, ueMutex := false }) := by
  unfold tick at h
  by_cases hmutex : e.ueMutex = true
  · rw [if_pos hmutex] at h
    cases h
  rw [if_neg hmutex] at h
  refine ⟨Bool.eq_false_iff.mpr hmutex, ?_⟩
  by_cases hdelay : e.cyclesToDelay > 0
  · have heq : Except.ok _ = Except.ok e' := (if_pos hdelay).symm.trans h
    cases heq
    exact .inl ⟨hdelay, rfl⟩
  by_cases hzero : e.cyclesPerBit = 0
  · have heq : Except.error _ = Except.ok e' :=
      ((if_neg hdelay).trans (if_pos hzero)).symm.trans h
    cases heq
  right
  dsimp only at h
  rw [if_neg hdelay, if_neg hzero] at h
  by_cases hdue : e.cycleCounter % e.cyclesPerBit = 0
  · rw [if_pos hdue] at h
    cases h
    have hrest : { e with ueMutex := true }.update =
        { e.update with cycleCounter := e.cycleCounter, ueMutex := true } :=
      (update_rest e e.cycleCounter true).1
    rw [hrest]
    exact ⟨e.cycleCounter + 1, .inl rfl⟩
  · rw [if_neg hdue] at h
    cases h
    exact ⟨e.cycleCounter + 1, .inr rfl⟩

theorem tick_kept (h : Kept cycles delay e) (htick : e.tick = .ok e') : Kept cycles delay e' := by
  obtain ⟨hmutex, ⟨hdelay, rfl⟩ | ⟨x, rfl | rfl⟩⟩ := tick_cases htick
  · refine ⟨h.cycles, h.payload, nofun, fun _ hzero => ?_, h.idle, h.inside⟩
    rw [h.unlocked hmutex, hzero] at hdelay
    exact absurd hdelay (by decide)
  · have hk := update_kept h
    obtain ⟨-, -, hsame, hunlocked⟩ := update_rest e 0 false
    exact ⟨hk.cycles, hk.payload, fun _ => hsame.trans (h.unlocked hmutex), nofun, hk.idle,
      hk.inside⟩
  · exact ⟨h.cycles, h.payload, fun _ => h.unlocked hmutex, nofun, h.idle, h.inside⟩

theorem resetData_cases {data : Nat → BitVec 8} {n : BitVec 64}
    (h : e.resetData data n = .ok e') : e.ueMutex = false ∧
      e' = { e with
        txBitCounter := 0
        txDataBytes := n
        txData := data
        nextState := stateIdle } := by
  by_cases hmutex : e.ueMutex = true
  · unfold resetData at h
    rw [if_pos hmutex] at h
    cases h
  · have hunlocked := Bool.eq_false_iff.mpr hmutex
    rw [resetData_unlocked hunlocked] at h
    cases h
    exact ⟨hunlocked, rfl⟩

theorem kept_reached {clkFreqHz baudRate dataLenBytes : BitVec 64} {data : Nat → BitVec 8}
    {cur : BitVec 8}
    (h : Reached (UartEncoder.init clkFreqHz data dataLenBytes baudRate 8 delay cur) e) :
    Kept (clkFreqHz / baudRate) delay e := by
  induction h with
  | start => exact ⟨rfl, rfl, fun _ => rfl, nofun, fun _ => rfl, Nat.succ_pos 7⟩
  | tick _ htick ih => exact tick_kept ih htick
  | resetData _ data n hreset ih =>
    obtain ⟨-, rfl⟩ := resetData_cases hreset
    exact ⟨ih.cycles, ih.payload, ih.unlocked, ih.locked, ih.idle, ih.inside⟩

end Kept

/-! ## Behind a restart -/

section Behind

variable {e e' fresh : UartEncoder} {b q : Nat}

/-- An encoder that is about to begin a message, and has counted `b` bits of a frame. -/
theorem phase_restarted (hnext : e.nextState = stateIdle) (htx : e.txBitCounter = 0) :
    e = phase e e.currentState stateIdle e.bitCounter.toNat 0 e.currentLogicVal := by
  have hbit : BitVec.ofNat 64 e.bitCounter.toNat = e.bitCounter := by
    rw [BitVec.ofNat_toNat, BitVec.setWidth_eq]
  have hzero : BitVec.ofNat 64 0 = e.txBitCounter := htx.symm
  unfold phase
  rw [hbit, hzero, ← hnext]

/-- Of an empty message it only goes to idle. -/
theorem updates_empty (hnext : e.nextState = stateIdle) (htx : e.txBitCounter = 0)
    (hnone : ¬ More e 0) (hidle : e.currentState = stateIdle → e.currentLogicVal = true)
    (m : Nat) : (updates e (m + 1)).currentLogicVal = true ∧
      (updates e (m + 1)).finished = true := by
  have hstart := phase_restarted hnext htx
  by_cases hcur : e.currentState = stateIdle
  · rw [hcur, hidle hcur] at hstart
    have hfixed : e.update = e := by
      rw [hstart]
      exact update_done hnone
    rw [updates_fixed (m := 0) hfixed (Nat.zero_le _)]
    refine ⟨hidle hcur, ?_⟩
    rw [updates, hstart]
    exact (phase_finished _ _ _ _ _).mpr ⟨hnone, rfl⟩
  · have hfirst : updates e 1 = phase e stateIdle stateStartBit e.bitCounter.toNat 0 true := by
      rw [updates, updates]
      exact (congrArg UartEncoder.update hstart).trans (update_idle (.inr hcur))
    have hfixed : (updates e 1).update = updates e 1 := by
      rw [hfirst]
      exact update_done hnone
    rw [updates_fixed hfixed (Nat.succ_le_succ (Nat.zero_le m)), hfirst]
    exact ⟨rfl, (phase_finished _ _ _ _ _).mpr ⟨hnone, rfl⟩⟩

/-- What the cycle counter is takes no part in the bits. -/
theorem updates_cycle (x : BitVec 64) (m : Nat) :
    updates { e with cycleCounter := x } m = { updates e m with cycleCounter := x } := by
  induction m with
  | zero => rfl
  | succ m ih =>
    rw [updates, ih]
    exact (update_rest (updates e m) x (updates e m).ueMutex).1.trans
      (by rw [← (update_rest (updates e m) x true).2.2.2]; rfl)

/-- From its first bit on it is in the state of a new encoder, when it has counted no bits of a
frame. -/
theorem updates_fresh (hsame : fresh = { e with
      bitCounter := 0
      cycleCounter := fresh.cycleCounter
      currentState := fresh.currentState
      currentLogicVal := fresh.currentLogicVal })
    (hnext : e.nextState = stateIdle) (htx : e.txBitCounter = 0) (hbit : e.bitCounter = 0)
    (hmore : More e 0) (m : Nat) :
    updates fresh (m + 1) = { updates e (m + 1) with cycleCounter := fresh.cycleCounter } := by
  induction m with
  | zero =>
    have hfirst := phase_restarted hnext htx
    have hupdate : e.update = phase e stateIdle stateStartBit e.bitCounter.toNat 0 true :=
      (congrArg UartEncoder.update hfirst).trans (update_idle (.inl hmore))
    have hmore' : More fresh 0 := by
      rw [hsame]
      exact hmore
    have hnext' : fresh.nextState = stateIdle := by
      rw [hsame]
      exact hnext
    have htx' : fresh.txBitCounter = 0 := by
      rw [hsame]
      exact htx
    have hupdate' : fresh.update =
        phase fresh stateIdle stateStartBit fresh.bitCounter.toNat 0 true :=
      (congrArg UartEncoder.update (phase_restarted hnext' htx')).trans (update_idle (.inl hmore'))
    rw [updates, updates, updates, updates, hupdate, hupdate', hbit]
    have hzero : fresh.bitCounter = 0 := by rw [hsame]
    rw [hzero, hsame]
    rfl
  | succ m ih =>
    rw [updates, ih]
    exact updates_cycle fresh.cycleCounter 1

/-- Behind a short frame the next ones are as much ahead of the bytes. -/
theorem late_frames (hpayload : e.payloadBits = 8) (hnext : e.nextState = stateIdle)
    (htx : e.txBitCounter = 0) (hb : e.bitCounter.toNat = b) (hpos : 0 < b) (hlt : b < 8)
    (hmore : ∀ tx, tx < 8 * q → More e tx) (j : Nat) (hj : j < q) :
    updates e (11 - b + 11 * j) = phase e stateStopBit stateIdle 0 (8 - b + 8 * j) true := by
  have hword : e.payloadBits = BitVec.ofNat 64 8 := hpayload
  induction j with
  | zero =>
    have hstart : updates e 0 = phase e e.currentState stateIdle b 0 e.currentLogicVal := by
      rw [updates, ← hb]
      exact phase_restarted hnext htx
    obtain ⟨-, -, -, hstop⟩ := updates_frame_from hword hlt (by decide) (hmore 0 (by omega)) hstart
    have hindex : 11 - b + 11 * 0 = 0 + 3 + (8 - b) := by omega
    have hsent : 8 - b + 8 * 0 = 0 + (8 - b) := by omega
    rw [hindex, hsent, hstop]
  | succ j ih =>
    obtain ⟨-, -, -, hstop⟩ := updates_frame hword (by decide) (by decide)
      (hmore (8 - b + 8 * j) (by omega)) (ih (by omega))
    have hindex : 11 - b + 11 * (j + 1) = 11 - b + 11 * j + 3 + 8 := by omega
    have hsent : 8 - b + 8 * (j + 1) = 8 - b + 8 * j + 8 := by omega
    rw [hindex, hsent, hstop]

/-- They go on when a new encoder is finished. -/
theorem late_unfinished (hpayload : e.payloadBits = 8) (hnext : e.nextState = stateIdle)
    (htx : e.txBitCounter = 0) (hb : e.bitCounter.toNat = b) (hpos : 0 < b) (hlt : b < 8)
    (hq : 0 < q) (hmore : ∀ tx, tx < 8 * q → More e tx) :
    ¬ (updates e (11 * q + 1)).finished = true := by
  have hword : e.payloadBits = BitVec.ofNat 64 8 := hpayload
  have hlast := late_frames hpayload hnext htx hb hpos hlt hmore (q - 1) (by omega)
  obtain ⟨-, hstart, hdata, -⟩ := updates_frame hword (by decide) (by decide)
    (hmore (8 - b + 8 * (q - 1)) (by omega)) hlast
  by_cases hone : b = 1
  · have hindex : 11 * q + 1 = 11 - b + 11 * (q - 1) + 2 := by omega
    rw [hindex]
    exact unfinished_of_phase hstart (by decide)
  · have hindex : 11 * q + 1 = 11 - b + 11 * (q - 1) + 3 + (b - 2) := by omega
    rw [hindex]
    exact unfinished_of_phase (hdata (b - 2) (by omega)) (by decide)

end Behind

/-! ## From construction -/

section Init

variable {clkFreqHz baudRate dataLenBytes delay n : BitVec 64} {data data' : Nat → BitVec 8}
  {cur cur' : BitVec 8} {e : UartEncoder}

/-- The state behind a restart. -/
def restarted (e : UartEncoder) (data : Nat → BitVec 8) (dataLenBytes : BitVec 64) : UartEncoder :=
  { e with txBitCounter := 0, txDataBytes := dataLenBytes, txData := data, nextState := stateIdle }

theorem more_iff_lt {tx : Nat} (htx : tx < 2 ^ 64) :
    More (restarted e data' n) tx ↔ tx < (8 * n).toNat := by
  show BitVec.ofNat 64 tx < 8 * n ↔ _
  rw [BitVec.lt_def, BitVec.toNat_ofNat, Nat.mod_eq_of_lt htx]

/-- Both begin their bits one by one. -/
theorem exists_begun (hcycles : e.cyclesPerBit ≠ 0) (m : Nat) : ∃ t, begun e t = m :=
  exists_firedFrom (Nat.pos_of_ne_zero fun hzero => hcycles (BitVec.eq_of_toNat_eq hzero))
    (by decide) _ m

theorem ticks_begun (hunlocked : e.ueMutex = false) (hdelay : e.cyclesToDelay = 0)
    (hcycles : e.cyclesPerBit ≠ 0) (t : Nat) : e.ticks t =
      .ok { updates e (begun e t) with cycleCounter := e.cycleCounter + BitVec.ofNat 64 t } :=
  ticks_from (runs_of_undelayed hunlocked hdelay hcycles) t

/-- What a restart has to return is what the mutex, the delay and the rate allow. -/
theorem undelayed_of_restarts (hkept : Kept (clkFreqHz / baudRate) delay e)
    (hunlocked : e.ueMutex = false) (hruns : ∀ t, ∃ s, (restarted e data' n).ticks t = .ok s) :
    delay = 0 ∧ clkFreqHz / baudRate ≠ 0 := by
  have hdelay : e.cyclesToDelay = 0 := by
    obtain ⟨s, hs⟩ := hruns 2
    have hnot : ¬ (restarted e data' n).cyclesToDelay > 0 := by
      intro hpos
      have hone := tick_delayed (e := restarted e data' n) hunlocked hpos
      have htwo : (restarted e data' n).ticks 2 = .error .blocked := by
        rw [ticks, hone]
        rfl
      rw [htwo] at hs
      cases hs
    have hzero : ¬ 0 < e.cyclesToDelay.toNat := hnot
    exact BitVec.eq_of_toNat_eq (Nat.eq_zero_of_not_pos hzero)
  refine ⟨(hkept.unlocked hunlocked).symm.trans hdelay, fun hzero => ?_⟩
  obtain ⟨s, hs⟩ := hruns 1
  have hcycles : e.cyclesPerBit = 0 := hkept.cycles.trans hzero
  rw [tick_divZero (e := restarted e data' n) hunlocked hdelay hcycles] at hs
  cases hs

/-- A restart that keeps a part of a frame sends more frames than a new encoder. -/
theorem bitCounter_of_restarts (hkept : Kept (clkFreqHz / baudRate) delay e)
    (h : Restarts e (UartEncoder.init clkFreqHz data' n baudRate 8 delay cur') data' n) :
    delay = 0 ∧ clkFreqHz / baudRate ≠ 0 ∧ (e.bitCounter = 0 ∨ 8 * n = 0) := by
  obtain ⟨e', hreset, hruns, -, -, -, hframes⟩ := h
  obtain ⟨hunlocked, rfl⟩ := resetData_cases hreset
  obtain ⟨rfl, hrate⟩ := undelayed_of_restarts hkept hunlocked hruns
  have hcycles : e.cyclesPerBit ≠ 0 := hkept.cycles ▸ hrate
  refine ⟨rfl, hrate, ?_⟩
  apply Classical.byContradiction
  intro hneither
  obtain ⟨hbit, hlen⟩ := not_or.mp hneither
  have hb : 0 < e.bitCounter.toNat :=
    Nat.pos_of_ne_zero fun hzero => hbit (BitVec.eq_of_toNat_eq hzero)
  have hbits : 0 < (8 * n).toNat :=
    Nat.pos_of_ne_zero fun hzero => hlen (BitVec.eq_of_toNat_eq hzero)
  have hmul : (8 * n).toNat = 8 * n.toNat % 2 ^ 64 := BitVec.toNat_mul _ _
  obtain ⟨q, hq⟩ : ∃ q, (8 * n).toNat = 8 * q := ⟨8 * n.toNat % 2 ^ 64 / 8, by omega⟩
  have hsends : Sends (UartEncoder.init clkFreqHz data' n baudRate 8 0 cur') 8 q := by
    have hlow : (1 : BitVec 64) ≤ 8 := by decide
    have hcount : (8 * n.toNat % 2 ^ 64 + (8 - 1)) / 8 = q := by omega
    rw [← hcount]
    exact sends_init clkFreqHz baudRate n data' cur' hlow (BitVec.le_refl _)
  have hfresh := finished_of_sent hsends (Nat.lt_succ_self (11 * q))
  have hlate : ¬ (updates (restarted e data' n) (11 * q + 1)).finished = true :=
    late_unfinished hkept.payload rfl rfl rfl hb hkept.inside (by omega) fun tx htx =>
      (more_iff_lt (by have := (8 * n).isLt; omega)).mpr (by omega)
  obtain ⟨t, ht⟩ := exists_begun (e := restarted e data' n) hcycles (11 * q + 1)
  obtain ⟨t', ht'⟩ :=
    exists_begun (e := UartEncoder.init clkFreqHz data' n baudRate 8 0 cur') hrate (11 * q + 1)
  have hundelayed := hkept.unlocked hunlocked
  have hticks := ticks_begun (e := restarted e data' n) hunlocked hundelayed hcycles t
  have hticks' :=
    ticks_begun (e := UartEncoder.init clkFreqHz data' n baudRate 8 0 cur') rfl rfl hrate t'
  have hpos : 0 < begun (restarted e data' n) t := ht ▸ Nat.succ_pos _
  have hsame := (hframes t t' _ _ hticks hticks' hpos (ht.trans ht'.symm)).2
  rw [ht, ht'] at hsame
  exact hlate (hsame.trans hfresh)

variable (data') in
/-- Nothing to send: the line goes to idle and stays there. -/
theorem restarts_empty (hidle : e.currentState = stateIdle → e.currentLogicVal = true)
    (hlen : 8 * n = 0) (m : Nat) :
    (updates (restarted e data' n) (m + 1)).currentLogicVal = true ∧
      (updates (restarted e data' n) (m + 1)).finished = true := by
  have hnone : ¬ More (restarted e data' n) 0 := by
    rw [more_iff_lt (by decide), hlen]
    exact Nat.lt_irrefl 0
  exact updates_empty rfl rfl hnone hidle m

variable (data' cur') in
/-- Otherwise it goes to idle and begins a frame, as far as nothing of one is counted. -/
theorem restarts_fresh (hkept : Kept (clkFreqHz / baudRate) 0 e) (hunlocked : e.ueMutex = false)
    (hbit : e.bitCounter = 0) (hlen : 8 * n ≠ 0) (m : Nat) :
    updates (UartEncoder.init clkFreqHz data' n baudRate 8 0 cur') (m + 1) =
      { updates (restarted e data' n) (m + 1) with cycleCounter := 0 } := by
  have hbits : 0 < (8 * n).toNat :=
    Nat.pos_of_ne_zero fun hzero => hlen (BitVec.eq_of_toNat_eq hzero)
  have hsame : UartEncoder.init clkFreqHz data' n baudRate 8 0 cur' =
      { restarted e data' n with
        bitCounter := 0
        cycleCounter := 0
        currentState := cur'
        currentLogicVal := true } := by
    unfold UartEncoder.init restarted
    rw [hkept.cycles, hkept.payload, hkept.unlocked hunlocked, hunlocked]
  exact updates_fresh (e := restarted e data' n) hsame rfl rfl hbit
    ((more_iff_lt (by decide)).mpr hbits) m

theorem idle_first (h : 0 < (8 * n).toNat) :
    (updates (restarted e data' n) 1).currentLogicVal = true := by
  have hupdate : (restarted e data' n).update =
      phase (restarted e data' n) stateIdle stateStartBit e.bitCounter.toNat 0 true :=
    (congrArg UartEncoder.update (phase_restarted rfl rfl)).trans
      (update_idle (.inl ((more_iff_lt (by decide)).mpr h)))
  rw [updates, updates, hupdate]
  rfl

theorem restarts_of_bitCounter (hkept : Kept (clkFreqHz / baudRate) 0 e)
    (hunlocked : e.ueMutex = false) (hrate : clkFreqHz / baudRate ≠ 0)
    (h : e.bitCounter = 0 ∨ 8 * n = 0) :
    Restarts e (UartEncoder.init clkFreqHz data' n baudRate 8 0 cur') data' n := by
  have hcycles : e.cyclesPerBit ≠ 0 := hkept.cycles ▸ hrate
  have hticks := ticks_begun (e := restarted e data' n) hunlocked (hkept.unlocked hunlocked) hcycles
  have hticks' :=
    ticks_begun (e := UartEncoder.init clkFreqHz data' n baudRate 8 0 cur') rfl rfl hrate
  refine ⟨restarted e data' n, resetData_unlocked hunlocked data' n, ?_⟩
  constructor
  · exact fun t => ⟨_, hticks t⟩
  · exact exists_begun (e := restarted e data' n) hcycles
  · intro t s hs hnone
    cases (hticks t).symm.trans hs
    rw [hnone]
    rfl
  · intro t s hs hone
    cases (hticks t).symm.trans hs
    rw [hone]
    by_cases hlen : 8 * n = 0
    · exact (restarts_empty data' hkept.idle hlen 0).1
    · exact idle_first (Nat.pos_of_ne_zero fun hzero => hlen (BitVec.eq_of_toNat_eq hzero))
  · intro t t' s s' hs hs' hpos hsame
    cases (hticks t).symm.trans hs
    cases (hticks' t').symm.trans hs'
    rw [← hsame]
    obtain ⟨m, hm⟩ : ∃ m, begun (restarted e data' n) t = m + 1 :=
      ⟨_, (Nat.succ_pred hpos.ne').symm⟩
    rw [hm]
    by_cases hlen : 8 * n = 0
    · have hnew := restarts_empty (e := UartEncoder.init clkFreqHz data' n baudRate 8 0 cur') data'
        (fun _ => rfl) hlen m
      obtain ⟨hlevel, hfinished⟩ := restarts_empty data' hkept.idle hlen m
      exact ⟨hlevel.trans hnew.1.symm, hfinished.trans hnew.2.symm⟩
    · have hbit := h.resolve_right hlen
      have hnew := restarts_fresh data' cur' hkept hunlocked hbit hlen m
      exact ⟨(congrArg UartEncoder.currentLogicVal hnew).symm,
        (congrArg UartEncoder.finished hnew).symm⟩

end Init

/-- A restart of an encoder for frames of eight bits is one from the start exactly when nothing
of a frame is counted, or there is nothing to send; with a delay it never is. -/
theorem restarts_iff (clkFreqHz baudRate dataLenBytes n cyclesDelay : BitVec 64)
    (data data' : Nat → BitVec 8) (cur cur' : BitVec 8) (e : UartEncoder)
    (h : Reached (UartEncoder.init clkFreqHz data dataLenBytes baudRate 8 cyclesDelay cur) e) :
    Restarts e (UartEncoder.init clkFreqHz data' n baudRate 8 cyclesDelay cur') data' n ↔
      cyclesDelay = 0 ∧ clkFreqHz / baudRate ≠ 0 ∧ (e.bitCounter = 0 ∨ 8 * n = 0) := by
  have hkept := kept_reached h
  constructor
  · exact bitCounter_of_restarts hkept
  · rintro ⟨rfl, hrate, hbit⟩
    have hunlocked : e.ueMutex = false := by
      cases hmutex : e.ueMutex with
      | false => rfl
      | true => exact absurd rfl (hkept.locked hmutex)
    exact restarts_of_bitCounter hkept hunlocked hrate hbit

/-- In the idle bit of the first frame. -/
theorem restarts_iff_idle : ∃ e,
    (UartEncoder.init 1 (fun _ => 0x55) 1 1 8 0 0).ticks 1 = .ok e ∧
      Restarts e (UartEncoder.init 1 (fun _ => 0x33) 2 1 8 0 0) (fun _ => 0x33) 2 :=
  ⟨_, rfl, (restarts_iff 1 1 1 2 0 (fun _ => 0x55) (fun _ => 0x33) 0 0 _
    (.tick .start rfl)).mpr ⟨rfl, by decide, .inl rfl⟩⟩

/-- In its first data bit. -/
theorem first_bit_kept :
    ¬ ∀ (clkFreqHz baudRate dataLenBytes n : BitVec 64) (data data' : Nat → BitVec 8)
        (cur cur' : BitVec 8) (e : UartEncoder), baudRate ≠ 0 → baudRate ≤ clkFreqHz →
      Reached (UartEncoder.init clkFreqHz data dataLenBytes baudRate 8 0 cur) e →
      Restarts e (UartEncoder.init clkFreqHz data' n baudRate 8 0 cur') data' n := by
  intro hall
  have hreached : Reached (UartEncoder.init 1 (fun _ => 0x55) 1 1 8 0 0) _ :=
    .tick (.tick (.tick .start rfl) rfl) rfl
  have hrestarts := hall 1 1 1 1 (fun _ => 0x55) (fun _ => 0x33) 0 0 _ (by decide) (by decide)
    hreached
  obtain ⟨-, -, hbit | hlen⟩ := bitCounter_of_restarts (kept_reached hreached) hrestarts
  · exact absurd hbit (by decide)
  · exact absurd hlen (by decide)

end NextEmu.Device.UartRestart
