import Mathlib.Data.Nat.Find
import NextEmu.Sdk.LogicAnalyzer

/-!
# What a logic analyzer records

A tick either looks for the trigger or records a line, so that the tick that starts the
recording is not in it, except in analog mode, which starts without one. The edge mode starts
never, and nothing ends a recording.
-/

namespace NextEmu.Sdk.LogicAnalyzerRecords

open LogicAnalyzer

/-- The trigger modes. -/
inductive Mode
  | low
  | high
  | posedge
  | negedge
  | edge
  | analog
  deriving DecidableEq, Repr

def Mode.code : Mode → BitVec 8
  | low => triggerModeLow
  | high => triggerModeHigh
  | posedge => triggerModePosedge
  | negedge => triggerModeNegedge
  | edge => triggerModeEdge
  | analog => triggerModeAnalog

/-- What a mode waits for, in the previous and the current value of the trigger. -/
def Mode.Starts (m : Mode) (prev cur : BitVal) : Prop :=
  match m with
  | low => cur = bitNeg
  | high => cur = bitPos
  | posedge => prev = bitNeg ∧ cur = bitPos
  | negedge => prev = bitPos ∧ cur = bitNeg
  | edge => (prev = bitNeg ∧ cur = bitPos) ∨ (prev = bitPos ∧ cur = bitNeg)
  | analog => True

/-- The analyzer with these channels, before its first tick. -/
def setUp (timeScaleNs : BitVec 64) (m : Mode) (freqHz sampleTimes : BitVec 64) (host : Host)
    (channels : List (Signal × Bool)) : Except Fault LogicAnalyzer := do
  let la ← init timeScaleNs m.code freqHz sampleTimes
  let la ← channels.foldlM (fun la channel => la.addChannel host channel.1 channel.2) la
  return la.buildVcdHeader

section History

variable (la : LogicAnalyzer) (channels : List (Signal × Bool)) (hosts : Nat → Host)

/-- The trigger at tick `t`. -/
def trigger (t : Nat) : BitVal :=
  match la.triggerSignal with
  | some s => s.loadBitVal (hosts t)
  | none => bitUndef

/-- The trigger at the tick before. -/
def previous : Nat → BitVal
  | 0 => bitUndef
  | t + 1 => trigger la hosts t

def StartsAt (m : Mode) (t : Nat) : Prop := m.Starts (previous la hosts t) (trigger la hosts t)

/-- The values of the channels at tick `t`, with their ids. -/
def sample (t : Nat) : List (BitVal × String) :=
  channels.map fun channel => (channel.1.loadBitVal (hosts t), channel.1.sigId)

/-- The line of one tick: the number, and of each channel the value and the id. -/
def line (number : Nat) (values : List (BitVal × String)) : String :=
  "#" ++ toString number ++ " " ++
    String.join (values.map fun v => toString v.1.toNat ++ v.2 ++ " ") ++ "\n"

/-- The lines of `n` ticks from `s` on. The numbers count them in steps of a sample period. -/
def lines (period s : Nat) : Nat → String
  | 0 => ""
  | n + 1 => lines period s n ++ line (n * period) (sample channels hosts (s + n))

/-- Behind `k` ticks `la'` has recorded nothing, or from the first tick on at which the mode's
condition holds one line for each tick, up to the limit. -/
structure Recorded (period : Nat) (m : Mode) (k : Nat) (la' : LogicAnalyzer) : Prop where
  waiting : (∀ t, t < k → ¬ StartsAt la hosts m t) →
    la'.sampleCounter = 0 ∧ la'.vcdStrStream = la.vcdStrStream
  started : ∀ s, s < k → StartsAt la hosts m s → (∀ t, t < s → ¬ StartsAt la hosts m t) →
    la'.sampleCounter = BitVec.ofNat 64 (min (k - s) la.sampleTimes.toNat) ∧
      la'.vcdStrStream = la.vcdStrStream ++
        lines channels hosts period s (min (k - s) la.sampleTimes.toNat)

/-- It does so at every tick of a run, with one sample period. -/
def Records (m : Mode) (n : Nat) : Prop :=
  ∃ period, 0 < period ∧
    ∀ k, k ≤ n → ∃ la', la.ticks hosts k = .ok la' ∧ Recorded la channels hosts period m k la'

end History

/-! ## Runs -/

section Runs

variable {la : LogicAnalyzer} {hosts : Nat → Host} {s : Signal}

/-- What `n` ticks from `b` on write. The number of a line is a product of 64 bits. -/
def dumps (la : LogicAnalyzer) (hosts : Nat → Host) (b : Nat) : Nat → String
  | 0 => ""
  | n + 1 => dumps la hosts b n ++
      { la with sampleCounter := BitVec.ofNat 64 n }.momentDump (hosts (b + n))

theorem tick_triggered (h : la.triggered = true) (host : Host) :
    la.tick host = .ok { la with
      vcdStrStream := la.vcdStrStream ++ la.momentDump host
      sampleCounter := la.sampleCounter + 1
      currentMomentNs := la.currentMomentNs + la.cycleDurationNs } := by
  unfold tick
  rw [if_neg (by rw [h]; decide)]
  rfl

theorem tick_waiting (h : la.triggered = false) (hsignal : la.triggerSignal = some s)
    (host : Host) : la.tick host = .ok { la with
      triggered := isTriggered la.lastTriggerSignalVal (s.loadBitVal host) la.triggerMode
      lastTriggerSignalVal := s.loadBitVal host
      currentMomentNs := la.currentMomentNs + la.cycleDurationNs } := by
  unfold tick
  rw [if_pos h, hsignal]
  rfl

/-- Triggered, with the ticks from `b` on behind what `la` has recorded. -/
structure Recording (la : LogicAnalyzer) (hosts : Nat → Host) (b n : Nat) (la' : LogicAnalyzer) :
    Prop where
  triggered : la'.triggered = true
  counter : la'.sampleCounter = BitVec.ofNat 64 n
  stream : la'.vcdStrStream = la.vcdStrStream ++ dumps la hosts b n
  signals : la'.signals = la.signals
  cycle : la'.cycleDurationNs = la.cycleDurationNs

/-- Not triggered, with `prev` as the last value of the trigger. -/
structure Waiting (la : LogicAnalyzer) (prev : BitVal) (la' : LogicAnalyzer) : Prop where
  triggered : la'.triggered = false
  last : la'.lastTriggerSignalVal = prev
  counter : la'.sampleCounter = la.sampleCounter
  stream : la'.vcdStrStream = la.vcdStrStream
  signal : la'.triggerSignal = la.triggerSignal
  mode : la'.triggerMode = la.triggerMode
  signals : la'.signals = la.signals
  cycle : la'.cycleDurationNs = la.cycleDurationNs

theorem tick_recording {b n : Nat} {la' : LogicAnalyzer} (h : Recording la hosts b n la') :
    ∃ la'', la'.tick (hosts (b + n)) = .ok la'' ∧ Recording la hosts b (n + 1) la'' := by
  refine ⟨_, tick_triggered h.triggered _, h.triggered, ?_, ?_, h.signals, h.cycle⟩
  · show la'.sampleCounter + 1 = _
    rw [h.counter, BitVec.ofNat_add]
    rfl
  · have hline : la'.momentDump (hosts (b + n)) =
        { la with sampleCounter := BitVec.ofNat 64 n }.momentDump (hosts (b + n)) := by
      unfold momentDump
      rw [h.counter, h.signals, h.cycle]
    show la'.vcdStrStream ++ la'.momentDump (hosts (b + n)) = _
    rw [h.stream, hline, dumps, String.append_assoc]

theorem recording_from {b : Nat} {la' : LogicAnalyzer} (hticks : la.ticks hosts b = .ok la')
    (h : Recording la hosts b 0 la') (n : Nat) :
    ∃ la'', la.ticks hosts (b + n) = .ok la'' ∧ Recording la hosts b n la'' := by
  induction n with
  | zero => exact ⟨la', hticks, h⟩
  | succ n ih =>
    obtain ⟨mid, hmid, hrec⟩ := ih
    obtain ⟨la'', htick, hrec'⟩ := tick_recording hrec
    refine ⟨la'', ?_, hrec'⟩
    rw [← Nat.add_assoc, ticks, hmid]
    exact htick

/-- Whether the analyzer takes tick `t` for the start. -/
def fires (la : LogicAnalyzer) (hosts : Nat → Host) (t : Nat) : Bool :=
  isTriggered (previous la hosts t) (trigger la hosts t) la.triggerMode

theorem trigger_eq (hsignal : la.triggerSignal = some s) (t : Nat) :
    trigger la hosts t = s.loadBitVal (hosts t) := by
  unfold trigger
  rw [hsignal]

/-- A waiting analyzer goes on waiting or is triggered, and records nothing in either case. -/
theorem tick_of_waiting (hsignal : la.triggerSignal = some s) (hzero : la.sampleCounter = 0)
    {k : Nat} {la' : LogicAnalyzer} (h : Waiting la (previous la hosts k) la') :
    ∃ la'', la'.tick (hosts k) = .ok la'' ∧
      (fires la hosts k = false → Waiting la (previous la hosts (k + 1)) la'') ∧
      (fires la hosts k = true → Recording la hosts (k + 1) 0 la'') := by
  have htick := tick_waiting h.triggered (h.signal.trans hsignal) (hosts k)
  have hfires : isTriggered la'.lastTriggerSignalVal (s.loadBitVal (hosts k)) la'.triggerMode =
      fires la hosts k := by
    rw [h.last, h.mode, ← trigger_eq hsignal]
    rfl
  have hlines : la'.vcdStrStream = la.vcdStrStream ++ dumps la hosts (k + 1) 0 := by
    rw [dumps, String.append_empty]
    exact h.stream
  refine ⟨_, htick, fun hfire => ?_, fun hfire => ?_⟩
  · exact ⟨hfires.trans hfire, (trigger_eq hsignal k).symm, h.counter, h.stream, h.signal, h.mode,
      h.signals, h.cycle⟩
  · exact ⟨hfires.trans hfire, h.counter.trans hzero, hlines, h.signals, h.cycle⟩

theorem waiting_run (hfresh : Waiting la bitUndef la) (hsignal : la.triggerSignal = some s)
    (hzero : la.sampleCounter = 0) (k : Nat) (hnone : ∀ t, t < k → fires la hosts t = false) :
    ∃ la', la.ticks hosts k = .ok la' ∧ Waiting la (previous la hosts k) la' := by
  induction k with
  | zero => exact ⟨la, rfl, hfresh⟩
  | succ k ih =>
    obtain ⟨la', hticks, hwait⟩ := ih fun t ht => hnone t (Nat.lt_succ_of_lt ht)
    obtain ⟨la'', htick, hgo, -⟩ := tick_of_waiting hsignal hzero hwait
    refine ⟨la'', ?_, hgo (hnone k (Nat.lt_succ_self k))⟩
    rw [ticks, hticks]
    exact htick

/-- The tick that starts the recording is not in it. -/
theorem started_run (hfresh : Waiting la bitUndef la) (hsignal : la.triggerSignal = some s)
    (hzero : la.sampleCounter = 0) {b : Nat} (hfire : fires la hosts b = true)
    (hnone : ∀ t, t < b → fires la hosts t = false) (n : Nat) :
    ∃ la', la.ticks hosts (b + 1 + n) = .ok la' ∧ Recording la hosts (b + 1) n la' := by
  obtain ⟨la', hticks, hwait⟩ := waiting_run hfresh hsignal hzero b hnone
  obtain ⟨la'', htick, -, hstart⟩ := tick_of_waiting hsignal hzero hwait
  have hticks' : la.ticks hosts (b + 1) = .ok la'' := by
    rw [ticks, hticks]
    exact htick
  exact recording_from hticks' (hstart hfire) n

end Runs

/-! ## The modes -/

section Modes

variable {m : Mode} {prev cur : BitVal}

/-- `isTriggered` has no case for the edge mode. -/
theorem isTriggered_iff (h : m ≠ .edge) :
    isTriggered prev cur m.code = true ↔ m.Starts prev cur := by
  cases m with
  | edge => exact absurd rfl h
  | analog => exact iff_of_true rfl trivial
  | low => exact decide_eq_true_iff
  | high => exact decide_eq_true_iff
  | posedge => exact decide_eq_true_iff
  | negedge => exact decide_eq_true_iff

end Modes

/-- An analyzer before its first tick. -/
structure Fresh (m : Mode) (sampleTimes : BitVec 64) (la : LogicAnalyzer) : Prop where
  mode : la.triggerMode = m.code
  times : la.sampleTimes = sampleTimes
  triggered : la.triggered = decide (m = .analog)
  last : la.lastTriggerSignalVal = bitUndef
  counter : la.sampleCounter = 0

section SetUp

variable {m : Mode} {timeScaleNs freqHz sampleTimes : BitVec 64} {host : Host}
  {la la' : LogicAnalyzer}

theorem fresh_init (h : init timeScaleNs m.code freqHz sampleTimes = .ok la) :
    Fresh m sampleTimes la := by
  unfold init at h
  by_cases hfreq : freqHz = 0
  · rw [if_pos hfreq] at h
    cases h
  · rw [if_neg hfreq] at h
    cases h
    refine ⟨rfl, rfl, ?_, rfl, rfl⟩
    cases m <;> rfl

theorem fresh_addChannel {s : Signal} {isTrigger : Bool} (hfresh : Fresh m sampleTimes la)
    (h : la.addChannel host s isTrigger = .ok la') : Fresh m sampleTimes la' := by
  unfold addChannel at h
  dsimp only at h
  split at h
  · cases h
    exact ⟨hfresh.mode, hfresh.times, hfresh.triggered, hfresh.last, hfresh.counter⟩
  · split at h
    · cases h
      exact ⟨hfresh.mode, hfresh.times, hfresh.triggered, hfresh.last, hfresh.counter⟩
    · cases h

theorem fresh_channels {channels : List (Signal × Bool)} (hfresh : Fresh m sampleTimes la)
    (h : channels.foldlM (fun la channel => la.addChannel host channel.1 channel.2) la = .ok la') :
    Fresh m sampleTimes la' := by
  induction channels generalizing la with
  | nil =>
    cases h
    exact hfresh
  | cons channel channels ih =>
    rw [List.foldlM_cons] at h
    cases hadd : la.addChannel host channel.1 channel.2 with
    | error e =>
      rw [hadd] at h
      cases h
    | ok mid =>
      rw [hadd] at h
      exact ih (fresh_addChannel hfresh hadd) h

/-- The steps of a set-up that returns. -/
theorem setUp_ok {channels : List (Signal × Bool)}
    (h : setUp timeScaleNs m freqHz sampleTimes host channels = .ok la) :
    ∃ start last, init timeScaleNs m.code freqHz sampleTimes = .ok start ∧
      channels.foldlM (fun la channel => la.addChannel host channel.1 channel.2) start = .ok last ∧
      la = last.buildVcdHeader := by
  unfold setUp at h
  cases hinit : init timeScaleNs m.code freqHz sampleTimes with
  | error e =>
    rw [hinit] at h
    cases h
  | ok start =>
    rw [hinit] at h
    change (channels.foldlM (fun la channel => la.addChannel host channel.1 channel.2) start >>=
      fun la => pure la.buildVcdHeader) = _ at h
    cases hchannels : channels.foldlM
        (fun la channel => la.addChannel host channel.1 channel.2) start with
    | error e =>
      rw [hchannels] at h
      cases h
    | ok last =>
      rw [hchannels] at h
      cases h
      exact ⟨start, last, rfl, hchannels, rfl⟩

theorem fresh_setUp {channels : List (Signal × Bool)}
    (h : setUp timeScaleNs m freqHz sampleTimes host channels = .ok la) :
    Fresh m sampleTimes la := by
  obtain ⟨start, last, hinit, hchannels, rfl⟩ := setUp_ok h
  have hfresh := fresh_channels (fresh_init hinit) hchannels
  exact ⟨hfresh.mode, hfresh.times, hfresh.triggered, hfresh.last, hfresh.counter⟩

end SetUp

/-! ## The numbers -/

/-- The channels and the sample period with which an analyzer was set up. -/
structure Measures (channels : List (Signal × Bool)) (freqHz : BitVec 64) (la : LogicAnalyzer) :
    Prop where
  signals : la.signals = channels.map Prod.fst
  cycle : la.cycleDurationNs = 1000000000 / freqHz
  divides : freqHz ≠ 0

/-- The numbers that are written count in steps of `period`. -/
def Counts (freqHz : BitVec 64) (period n : Nat) : Prop :=
  ∀ i, i < n → (BitVec.ofNat 64 i * (1000000000 / freqHz)).toNat = i * period

section Numbers

variable {m : Mode} {timeScaleNs freqHz sampleTimes : BitVec 64} {host : Host}
  {channels : List (Signal × Bool)} {la la' : LogicAnalyzer} {hosts : Nat → Host} {n : Nat}

theorem addChannel_keeps {s : Signal} {isTrigger : Bool}
    (h : la.addChannel host s isTrigger = .ok la') :
    la'.signals = la.signals ++ [s] ∧ la'.cycleDurationNs = la.cycleDurationNs := by
  unfold addChannel at h
  dsimp only at h
  split at h
  · cases h
    exact ⟨rfl, rfl⟩
  · split at h
    · cases h
      exact ⟨rfl, rfl⟩
    · cases h

theorem channels_keep
    (h : channels.foldlM (fun la channel => la.addChannel host channel.1 channel.2) la = .ok la') :
    la'.signals = la.signals ++ channels.map Prod.fst ∧
      la'.cycleDurationNs = la.cycleDurationNs := by
  induction channels generalizing la with
  | nil =>
    cases h
    exact ⟨(List.append_nil _).symm, rfl⟩
  | cons channel channels ih =>
    rw [List.foldlM_cons] at h
    cases hadd : la.addChannel host channel.1 channel.2 with
    | error e =>
      rw [hadd] at h
      cases h
    | ok mid =>
      rw [hadd] at h
      obtain ⟨hsignals, hcycle⟩ := addChannel_keeps hadd
      obtain ⟨hrest, hkept⟩ := ih h
      refine ⟨?_, hkept.trans hcycle⟩
      rw [hrest, hsignals, List.append_assoc]
      rfl

theorem init_keeps (h : init timeScaleNs m.code freqHz sampleTimes = .ok la) :
    la.signals = [] ∧ la.cycleDurationNs = 1000000000 / freqHz ∧ freqHz ≠ 0 := by
  unfold init at h
  by_cases hfreq : freqHz = 0
  · rw [if_pos hfreq] at h
    cases h
  · rw [if_neg hfreq] at h
    cases h
    exact ⟨rfl, rfl, hfreq⟩

theorem measures_setUp (h : setUp timeScaleNs m freqHz sampleTimes host channels = .ok la) :
    Measures channels freqHz la := by
  obtain ⟨start, last, hinit, hchannels, rfl⟩ := setUp_ok h
  obtain ⟨hnone, hcycle, hdivides⟩ := init_keeps hinit
  obtain ⟨hsignals, hkept⟩ := channels_keep hchannels
  rw [hnone, List.nil_append] at hsignals
  exact ⟨hsignals, hkept.trans hcycle, hdivides⟩

theorem momentDump_eq (h : Measures channels freqHz la) (n t : Nat) :
    { la with sampleCounter := BitVec.ofNat 64 n }.momentDump (hosts t) =
      line (BitVec.ofNat 64 n * (1000000000 / freqHz)).toNat (sample channels hosts t) := by
  unfold momentDump line sample
  rw [h.signals, h.cycle, List.map_map, List.map_map]
  rfl

theorem dumps_eq (h : Measures channels freqHz la) {period : Nat} (b : Nat)
    (hcounts : Counts freqHz period n) :
    dumps la hosts b n = lines channels hosts period b n := by
  induction n with
  | zero => rfl
  | succ n ih =>
    have hbefore := ih fun i hi => hcounts i (Nat.lt_succ_of_lt hi)
    rw [dumps, lines, hbefore, momentDump_eq h, hcounts n (Nat.lt_succ_self n)]

/-- Lines with the same values have the same number only if they are the same. -/
theorem line_number {i j : Nat} {values : List (BitVal × String)}
    (h : line i values = line j values) : i = j := by
  unfold line at h
  simp only [String.append_left_inj, String.append_right_inj] at h
  have hdigits := congrArg (Nat.ofDigitChars 10 · 0) (congrArg String.toList h)
  simpa only [Nat.toString_eq_repr, Nat.toList_repr, Nat.ofDigitChars_ten_toDigits] using hdigits

theorem counts_of_dumps (h : Measures channels freqHz la) {period b : Nat}
    (heq : ∀ k, k ≤ n → dumps la hosts b k = lines channels hosts period b k) :
    Counts freqHz period n := by
  intro i hi
  have hline := heq (i + 1) hi
  rw [dumps, lines, heq i (Nat.le_of_lt hi), String.append_right_inj, momentDump_eq h] at hline
  exact line_number hline

/-- They do so for one line, and for more as long as the period is not zero and the product does
not pass 2^64. -/
theorem counts_iff (hdivides : freqHz ≠ 0) (n : Nat) :
    (∃ period, 0 < period ∧ Counts freqHz period n) ↔
      n ≤ 1 ∨ freqHz.toNat ≤ 1000000000 ∧ (n - 1) * (1000000000 / freqHz.toNat) < 2 ^ 64 := by
  have hcycle : (1000000000 / freqHz).toNat = 1000000000 / freqHz.toNat := BitVec.toNat_udiv
  have hfreq : 0 < freqHz.toNat :=
    Nat.pos_of_ne_zero fun hzero => hdivides (BitVec.eq_of_toNat_eq hzero)
  constructor
  · rintro ⟨period, hpos, hcounts⟩
    by_cases hone : n ≤ 1
    · exact .inl hone
    · right
      have hperiod := hcounts 1 (by omega)
      rw [BitVec.one_mul, hcycle, Nat.one_mul] at hperiod
      have hlast := hcounts (n - 1) (by omega)
      constructor
      · by_contra hfast
        rw [Nat.div_eq_of_lt (Nat.lt_of_not_le hfast)] at hperiod
        omega
      · rw [hperiod, ← hlast]
        exact BitVec.isLt _
  · rintro (hone | ⟨hslow, hfits⟩)
    · refine ⟨1, Nat.one_pos, fun i hi => ?_⟩
      have hzero : i = 0 := by omega
      subst hzero
      rw [BitVec.zero_mul]
      rfl
    · refine ⟨1000000000 / freqHz.toNat, Nat.div_pos hslow hfreq, fun i hi => ?_⟩
      have hle : i * (1000000000 / freqHz.toNat) ≤ (n - 1) * (1000000000 / freqHz.toNat) :=
        Nat.mul_le_mul_right _ (by omega)
      rw [BitVec.toNat_mul, BitVec.toNat_ofNat, hcycle, Nat.mod_mul_mod,
        Nat.mod_eq_of_lt (Nat.lt_of_le_of_lt hle hfits)]

end Numbers

/-! ## The records -/

section Records

variable {m : Mode} {freqHz sampleTimes : BitVec 64} {channels : List (Signal × Bool)}
  {la : LogicAnalyzer} {hosts : Nat → Host} {n : Nat}

variable (hosts) in
theorem analog_run (hfresh : Fresh .analog sampleTimes la) (k : Nat) :
    ∃ la', la.ticks hosts k = .ok la' ∧ Recording la hosts 0 k la' := by
  have hstart : Recording la hosts 0 0 la := by
    refine ⟨hfresh.triggered, hfresh.counter, ?_, rfl, rfl⟩
    rw [dumps, String.append_empty]
  have hrun := recording_from (b := 0) rfl hstart k
  rwa [Nat.zero_add] at hrun

/-- In analog mode it records from the first tick on, and does not stop. -/
theorem records_analog (hfresh : Fresh .analog sampleTimes la)
    (hmeasures : Measures channels freqHz la) :
    Records la channels hosts .analog n ↔
      n ≤ sampleTimes.toNat ∧ ∃ period, 0 < period ∧ Counts freqHz period n := by
  have hfirst : ∀ t, t < 0 → ¬ StartsAt la hosts .analog t := fun t ht => absurd ht t.not_lt_zero
  constructor
  · rintro ⟨period, hpos, h⟩
    -- what should be and what is recorded behind `k` ticks
    have hboth : ∀ k, 0 < k → k ≤ n →
        BitVec.ofNat 64 k = BitVec.ofNat 64 (min k sampleTimes.toNat) ∧
        dumps la hosts 0 k = lines channels hosts period 0 (min k sampleTimes.toNat) := by
      intro k hk hn
      obtain ⟨la', hticks, hrec⟩ := h k hn
      obtain ⟨la'', hticks', hrun⟩ := analog_run hosts hfresh k
      cases hticks.symm.trans hticks'
      obtain ⟨hcounter, hstream⟩ := hrec.started 0 hk trivial hfirst
      rw [hrun.counter, hfresh.times] at hcounter
      rw [hrun.stream, hfresh.times, String.append_right_inj] at hstream
      exact ⟨hcounter, hstream⟩
    have hlimit : n ≤ sampleTimes.toNat := by
      apply Nat.le_of_not_lt
      intro hlate
      have hcount := (hboth (sampleTimes.toNat + 1) (Nat.succ_pos _) hlate).1
      rw [Nat.min_eq_right (Nat.le_succ _), ← BitVec.toNat_inj, BitVec.toNat_ofNat,
        BitVec.toNat_ofNat] at hcount
      have hlt := sampleTimes.isLt
      omega
    have hlines : ∀ k, k ≤ n → dumps la hosts 0 k = lines channels hosts period 0 k := by
      intro k hk
      rcases Nat.eq_zero_or_pos k with rfl | hpos
      · rfl
      · have hall := (hboth k hpos hk).2
        rwa [Nat.min_eq_left (Nat.le_trans hk hlimit)] at hall
    exact ⟨hlimit, period, hpos, counts_of_dumps hmeasures hlines⟩
  · rintro ⟨hlimit, period, hpos, hcounts⟩
    refine ⟨period, hpos, fun k hk => ?_⟩
    obtain ⟨la', hticks, hrun⟩ := analog_run hosts hfresh k
    refine ⟨la', hticks, fun hnone => ?_, fun s hs _ hnone => ?_⟩
    · have hzero : k = 0 := Nat.eq_zero_of_not_pos fun hpos => hnone 0 hpos trivial
      subst hzero
      refine ⟨hrun.counter, hrun.stream.trans ?_⟩
      rw [dumps, String.append_empty]
    · have hzero : s = 0 := Nat.eq_zero_of_not_pos fun hpos => hnone 0 hpos trivial
      subst hzero
      have hall : min (k - 0) la.sampleTimes.toNat = k := by
        rw [hfresh.times]
        omega
      rw [hall, ← dumps_eq hmeasures 0 fun i hi => hcounts i (Nat.lt_of_lt_of_le hi hk)]
      exact ⟨hrun.counter, hrun.stream⟩

section Triggered

variable {s : Signal} (hfresh : Fresh m sampleTimes la) (hmode : m ≠ .analog)
  (hsignal : la.triggerSignal = some s)

include hfresh hmode

theorem waiting_fresh : Waiting la bitUndef la :=
  ⟨hfresh.triggered.trans (decide_eq_false hmode), hfresh.last, rfl, rfl, rfl, rfl, rfl, rfl⟩

omit hmode in
theorem fires_iff (h : m ≠ .edge) (t : Nat) : fires la hosts t = true ↔ StartsAt la hosts m t := by
  unfold fires
  rw [hfresh.mode]
  exact isTriggered_iff h

omit hmode in
theorem fires_imp (t : Nat) (h : fires la hosts t = true) : StartsAt la hosts m t := by
  by_cases hedge : m = .edge
  · subst hedge
    rw [fires, hfresh.mode] at h
    cases h
  · exact (fires_iff hfresh hedge t).mp h

include hsignal

/-- While it waits nothing is recorded. -/
theorem silent_run (k : Nat) (hnone : ∀ t, t < k → fires la hosts t = false) :
    ∃ la', la.ticks hosts k = .ok la' ∧ la'.sampleCounter = 0 ∧
      la'.vcdStrStream = la.vcdStrStream := by
  obtain ⟨la', hticks, hwait⟩ :=
    waiting_run (waiting_fresh hfresh hmode) hsignal hfresh.counter k hnone
  exact ⟨la', hticks, hwait.counter.trans hfresh.counter, hwait.stream⟩

/-- Nor in the tick that triggers. -/
theorem silent_start (b : Nat) (hnone : ∀ t, t < b → fires la hosts t = false) :
    ∃ la', la.ticks hosts (b + 1) = .ok la' ∧ la'.sampleCounter = 0 ∧
      la'.vcdStrStream = la.vcdStrStream := by
  cases hfire : fires la hosts b with
  | false =>
    refine silent_run hfresh hmode hsignal (b + 1) fun t ht => ?_
    by_cases heq : t = b
    · rw [heq]
      exact hfire
    · exact hnone t (by omega)
  | true =>
    obtain ⟨la', hticks, hrun⟩ :=
      started_run (waiting_fresh hfresh hmode) hsignal hfresh.counter hfire hnone 0
    refine ⟨la', hticks, hrun.counter, hrun.stream.trans ?_⟩
    rw [dumps, String.append_empty]

omit hmode hsignal in
/-- The first tick at which the condition holds comes before any start. -/
theorem first_start {t : Nat} (h : StartsAt la hosts m t) :
    ∃ b, b ≤ t ∧ StartsAt la hosts m b ∧ (∀ t, t < b → ¬ StartsAt la hosts m t) ∧
      ∀ t, t < b → fires la hosts t = false := by
  classical
  have hsome : ∃ t, StartsAt la hosts m t := ⟨t, h⟩
  have hbefore : ∀ u, u < Nat.find hsome → ¬ StartsAt la hosts m u :=
    fun u hu => Nat.find_min hsome hu
  refine ⟨Nat.find hsome, Nat.find_min' hsome h, Nat.find_spec hsome, hbefore, fun u hu => ?_⟩
  exact Bool.eq_false_iff.mpr fun hfire => hbefore u hu (fires_imp hfresh u hfire)

/-- In the other modes it is late by one tick, or by all, and does not stop. -/
theorem starts_of_records (h : Records la channels hosts m n) :
    (sampleTimes ≠ 0 → ∀ t, t < n → ¬ StartsAt la hosts m t) ∧
      (sampleTimes = 0 → m ≠ .edge → ∀ t, t + 1 < n → ¬ StartsAt la hosts m t) := by
  obtain ⟨period, -, h⟩ := h
  constructor
  · intro htimes t ht hstart
    obtain ⟨b, hb, hstarts, hfirst, hnone⟩ := first_start hfresh hstart
    obtain ⟨la', hticks, hrec⟩ := h (b + 1) (by omega)
    obtain ⟨la'', hticks', hcounter, -⟩ := silent_start hfresh hmode hsignal b hnone
    cases hticks.symm.trans hticks'
    have hcount := (hrec.started b (Nat.lt_succ_self b) hstarts hfirst).1
    have hpos : 0 < sampleTimes.toNat :=
      Nat.pos_of_ne_zero fun hzero => htimes (BitVec.eq_of_toNat_eq hzero)
    have hlimit : min (b + 1 - b) la.sampleTimes.toNat = 1 := by
      rw [hfresh.times]
      omega
    rw [hcounter, hlimit] at hcount
    exact absurd hcount (by decide)
  · intro htimes hedge t ht hstart
    obtain ⟨b, hb, hstarts, hfirst, hnone⟩ := first_start hfresh hstart
    have hfire := (fires_iff hfresh hedge b).mpr hstarts
    obtain ⟨la', hticks, hrec⟩ := h (b + 1 + 1) (by omega)
    obtain ⟨la'', hticks', hrun⟩ :=
      started_run (waiting_fresh hfresh hmode) hsignal hfresh.counter hfire hnone 1
    cases hticks.symm.trans hticks'
    have hcount := (hrec.started b (by omega) hstarts hfirst).1
    have hlimit : min (b + 1 + 1 - b) la.sampleTimes.toNat = 0 := by
      rw [hfresh.times, htimes]
      exact Nat.min_zero _
    rw [hrun.counter, hlimit] at hcount
    exact absurd hcount (by decide)

theorem records_of_starts (hnone : sampleTimes ≠ 0 → ∀ t, t < n → ¬ StartsAt la hosts m t)
    (hlast : sampleTimes = 0 → m ≠ .edge → ∀ t, t + 1 < n → ¬ StartsAt la hosts m t) :
    Records la channels hosts m n := by
  refine ⟨1, Nat.one_pos, fun k hk => ?_⟩
  -- behind each of these ticks nothing is recorded yet
  have hsilent : ∃ la', la.ticks hosts k = .ok la' ∧ la'.sampleCounter = 0 ∧
      la'.vcdStrStream = la.vcdStrStream := by
    cases k with
    | zero => exact ⟨la, rfl, hfresh.counter, rfl⟩
    | succ k =>
      refine silent_start hfresh hmode hsignal k fun t ht => Bool.eq_false_iff.mpr fun hfire => ?_
      have hstart := fires_imp hfresh t hfire
      by_cases htimes : sampleTimes = 0
      · refine hlast htimes (fun hedge => ?_) t (by omega) hstart
        subst hedge
        rw [fires, hfresh.mode] at hfire
        cases hfire
      · exact hnone htimes t (by omega) hstart
  obtain ⟨la', hticks, hcounter, hstream⟩ := hsilent
  refine ⟨la', hticks, fun _ => ⟨hcounter, hstream⟩, fun b hb hstart _ => ?_⟩
  have htimes : sampleTimes = 0 :=
    Classical.byContradiction fun htimes => hnone htimes b (by omega) hstart
  have hlimit : min (k - b) la.sampleTimes.toNat = 0 := by
    rw [hfresh.times, htimes]
    exact Nat.min_zero _
  rw [hlimit, lines, String.append_empty]
  exact ⟨hcounter, hstream⟩

end Triggered

end Records

/-- The analyzer records what it should exactly in analog mode up to the limit, as long as the
sample period is not zero and its numbers do not pass 2^64, and in the other modes as long as there
is nothing to record. -/
theorem records_iff (timeScaleNs freqHz sampleTimes : BitVec 64) (m : Mode) (host : Host)
    (channels : List (Signal × Bool)) (la : LogicAnalyzer)
    (hsetUp : setUp timeScaleNs m freqHz sampleTimes host channels = .ok la)
    (htrigger : m ≠ .analog → la.triggerSignal ≠ none) (hosts : Nat → Host) (n : Nat) :
    Records la channels hosts m n ↔
      (m = .analog → n ≤ sampleTimes.toNat ∧ (n ≤ 1 ∨ freqHz.toNat ≤ 1000000000 ∧
        (n - 1) * (1000000000 / freqHz.toNat) < 2 ^ 64)) ∧
      (m ≠ .analog → sampleTimes ≠ 0 → ∀ t, t < n → ¬ StartsAt la hosts m t) ∧
      (m ≠ .analog → m ≠ .edge → sampleTimes = 0 → ∀ t, t + 1 < n → ¬ StartsAt la hosts m t) := by
  have hfresh := fresh_setUp hsetUp
  by_cases hmode : m = .analog
  · subst hmode
    have hmeasures := measures_setUp hsetUp
    rw [records_analog hfresh hmeasures, counts_iff hmeasures.divides]
    exact ⟨fun h => ⟨fun _ => h, fun hne => absurd rfl hne, fun hne => absurd rfl hne⟩,
      fun h => h.1 rfl⟩
  · obtain ⟨s, hsignal⟩ := Option.ne_none_iff_exists'.mp (htrigger hmode)
    constructor
    · intro h
      obtain ⟨hnone, hlast⟩ := starts_of_records hfresh hmode hsignal h
      exact ⟨fun heq => absurd heq hmode, fun _ => hnone, fun _ hedge hzero => hlast hzero hedge⟩
    · rintro ⟨-, hnone, hlast⟩
      exact records_of_starts hfresh hmode hsignal (hnone hmode)
        fun hzero hedge => hlast hmode hedge hzero

section Example

/-- One channel, which is the trigger. -/
def probe : List (Signal × Bool) := [({ descName := "rx", sigId := "r", ref := .simple 0 }, true)]

def level (bitVal : BitVal) : Host where
  bits := fun _ => bitVal
  wires := fun _ => WireSignal.init (fun _ => 0) 1 0

/-- Two ticks in analog mode, at 1 MHz. -/
theorem records_iff_analog : ∃ la, setUp 1 .analog 1000000 100 (level 0) probe = .ok la ∧
    Records la probe (fun _ => level 0) .analog 2 := by
  refine ⟨_, rfl, (records_iff 1 1000000 100 .analog (level 0) probe _ rfl (absurd rfl)
    (fun _ => level 0) 2).mpr ⟨fun _ => ⟨by decide, .inr (by decide)⟩, absurd rfl, absurd rfl⟩⟩

/-- In analog mode the second tick is recorded too when the limit is one line. -/
theorem limit_passed : ¬ ∀ (timeScaleNs freqHz sampleTimes : BitVec 64) (m : Mode) (host : Host)
    (channels : List (Signal × Bool)) (la : LogicAnalyzer) (hosts : Nat → Host) (n : Nat),
    setUp timeScaleNs m freqHz sampleTimes host channels = .ok la → la.triggerSignal ≠ none →
      Records la channels hosts m n := by
  intro hall
  have hsetUp : setUp 1 .analog 1000000 1 (level 1) probe = .ok _ := rfl
  have hrecords := hall 1 1000000 1 .analog (level 1) probe _ (fun _ => level 1) 2 hsetUp nofun
  exact absurd ((records_analog (fresh_setUp hsetUp) (measures_setUp hsetUp)).mp hrecords).1
    (by decide)

end Example

end NextEmu.Sdk.LogicAnalyzerRecords
