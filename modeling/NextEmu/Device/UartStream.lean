import Mathlib.Data.List.Basic
import NextEmu.Device.UartReception

/-!
# Receiving a stream of frames

On any line the receiver is a scanner: it waits for a low clock, looks again half a bit
later, takes a bit every `clkPerBit + 1` clocks from there, and is blind until the stop bit
has been counted out. On a stream of frames it is therefore late for a frame when the one
before has held it up. Whether all bytes are received is a condition on how late it is for
each frame: the start bit must not be over at its middle sample, and a bit that is looked
at too late must be 1, as the bit behind it then is. A receiver that misses a start bit
stays late for every frame that follows, and loses a byte at the last of them.
-/

namespace NextEmu.Device.UartStream

open UartRx UartReception

variable {p : Params} {line : Nat → Bool}

/-! ## The receiver on any line -/

/-- The number of clocks from a falling edge to the next clock that is looked at for one. -/
def blindClocks (p : Params) : Nat :=
  p.clkPerBit / 2 + (p.clkPerBit + 1) * (p.payloadBits + 1) + 2

/-- What an idle receiver receives that looks at the line from clock `x` on. -/
inductive Scans (line : Nat → Bool) : Nat → List (BitVec p.payloadBits) → Prop
  | rest {x : Nat} (h : ∀ k, x ≤ k → line k = true) : Scans line x []
  | high {x : Nat} {bs : List (BitVec p.payloadBits)} (h : line x = true)
      (next : Scans line (x + 1) bs) : Scans line x bs
  | noise {x : Nat} {bs : List (BitVec p.payloadBits)} (low : line x = false)
      (middle : line (x + p.clkPerBit / 2 + 1) = true)
      (next : Scans line (x + p.clkPerBit / 2 + 2) bs) : Scans line x bs
  | heard {x : Nat} {b : BitVec p.payloadBits} {bs : List (BitVec p.payloadBits)}
      (h : Heard line x b) (next : Scans line (x + blindClocks p) bs) : Scans line x (b :: bs)

section Scans

variable {x : Nat} {b : BitVec p.payloadBits} {bs : List (BitVec p.payloadBits)}

/-- A low clock whose middle is low too has a byte behind it. -/
theorem exists_heard (hlow : line x = false) (hmid : line (x + p.clkPerBit / 2 + 1) = false) :
    ∃ b : BitVec p.payloadBits, Heard line x b := by
  let sample : Fin p.payloadBits → Unit → Unit × Bool := fun i u => (u, line (sampleAt p x i))
  refine ⟨(BitVec.iunfoldr sample ()).2, hlow, hmid, fun i hi => ?_⟩
  exact (BitVec.iunfoldr_getLsbD (f := sample) (fun _ => ()) ⟨i, hi⟩ fun _ => rfl).symm

/-- On a line that is high from some clock on, the receiver scans to the end. -/
theorem exists_scans {t : Nat} (h : ∀ k, t ≤ k → line k = true) (x : Nat) :
    ∃ bs : List (BitVec p.payloadBits), Scans line x bs := by
  induction hd : t - x using Nat.strongRecOn generalizing x with
  | ind d ih =>
    by_cases hx : t ≤ x
    · exact ⟨[], .rest fun k hk => h k (Nat.le_trans hx hk)⟩
    have hblind : 0 < blindClocks p := Nat.succ_pos _
    cases hlow : line x with
    | true =>
      obtain ⟨bs, hbs⟩ := ih (t - (x + 1)) (by omega) (x + 1) rfl
      exact ⟨bs, .high hlow hbs⟩
    | false =>
      cases hmid : line (x + p.clkPerBit / 2 + 1) with
      | true =>
        obtain ⟨bs, hbs⟩ := ih (t - (x + p.clkPerBit / 2 + 2)) (by omega) _ rfl
        exact ⟨bs, .noise hlow hmid hbs⟩
      | false =>
        obtain ⟨b, hb⟩ := exists_heard hlow hmid
        obtain ⟨bs, hbs⟩ := ih (t - (x + blindClocks p)) (by omega) _ rfl
        exact ⟨b :: bs, .heard hb hbs⟩

/-- What an idle receiver has received in the end. -/
theorem Scans.received (h : Scans line x bs) (hpos : 0 < p.clkPerBit)
    (hidle : (after line (x + 2) : UartRx p).fsmState = .idle) :
    ∃ t₀, ∀ t, t₀ ≤ t → received line t = received line (x + 2) ++ bs := by
  induction h with
  | @rest x h =>
    refine ⟨x + 2, fun t ht => ?_⟩
    obtain ⟨-, hquiet⟩ := after_idle (m := t - (x + 2)) hidle fun k _ => h _ (Nat.le_add_right x k)
    rw [List.append_nil]
    exact received_quiet ht fun k hlo hhi => hquiet k hlo (by omega)
  | @high x bs h next ih =>
    obtain ⟨hidle', hquiet⟩ := after_idle (m := 1) hidle fun k hk => by
      obtain rfl : k = 0 := by omega
      exact h
    obtain ⟨t₀, ht₀⟩ := ih hidle'
    rw [received_quiet (Nat.le_succ _) hquiet] at ht₀
    exact ⟨t₀, ht₀⟩
  | @noise x bs low middle next ih =>
    obtain ⟨hat, hquiet⟩ := edge_middle low hidle
    rw [middle, if_neg (by decide)] at hat
    have hindex : x + 4 + p.clkPerBit / 2 = x + p.clkPerBit / 2 + 2 + 2 := by omega
    rw [hindex] at hat hquiet
    obtain ⟨t₀, ht₀⟩ := ih hat.state
    rw [received_quiet (by omega) hquiet] at ht₀
    exact ⟨t₀, ht₀⟩
  | @heard x b bs h next ih =>
    obtain ⟨hend, hdone, hdata, hquiet⟩ := heard_received h hpos hidle
    have hindex : x + frameClocks p = x + blindClocks p + 2 := rfl
    have hpred : x + frameClocks p = x + frameClocks p - 1 + 1 := rfl
    have hlong : x + 2 ≤ x + frameClocks p - 1 := by
      rw [hindex, blindClocks]
      omega
    obtain ⟨t₀, ht₀⟩ := ih (hindex ▸ hend)
    refine ⟨t₀, fun t ht => ?_⟩
    rw [hpred] at hdone hdata
    rw [ht₀ t ht, ← hindex, hpred, received_frame rfl hdone, hdata, received_quiet hlong hquiet,
      List.append_assoc]
    rfl

/-- The first byte. -/
theorem Scans.first (h : Scans line x (b :: bs)) :
    ∃ y, x ≤ y ∧ Heard line y b ∧ Scans line (y + blindClocks p) bs := by
  generalize hl : b :: bs = l at h
  induction h with
  | rest h => cases hl
  | high h next ih =>
    obtain ⟨y, hy, hrest⟩ := ih hl
    exact ⟨y, by omega, hrest⟩
  | noise low middle next ih =>
    obtain ⟨y, hy, hrest⟩ := ih hl
    exact ⟨y, by omega, hrest⟩
  | heard h next ih =>
    cases hl
    exact ⟨_, Nat.le_refl _, h, next⟩

/-- From a start bit on. -/
theorem Scans.hears (h : Scans line x bs) (hlow : line x = false)
    (hmid : line (x + p.clkPerBit / 2 + 1) = false) :
    ∃ b bs', bs = b :: bs' ∧ Heard line x b ∧ Scans line (x + blindClocks p) bs' := by
  cases h with
  | rest h => exact absurd (hlow.symm.trans (h x (Nat.le_refl x))) Bool.false_ne_true
  | high h next => exact absurd (hlow.symm.trans h) Bool.false_ne_true
  | noise low middle next => exact absurd (hmid.symm.trans middle) Bool.false_ne_true
  | heard h next => exact ⟨_, _, rfl, h, next⟩

/-- The line is high from `x` up to `y`. -/
def High (line : Nat → Bool) (x y : Nat) : Prop := ∀ k, x ≤ k → k < y → line k = true

theorem Scans.skip {y : Nat} (h : Scans line x bs) (hle : x ≤ y) (hhigh : High line x y) :
    Scans line y bs := by
  induction hle with
  | refl => exact h
  | @step y hle ih =>
    have hscan := ih fun k hlo hhi => hhigh k hlo (Nat.lt_succ_of_lt hhi)
    have hone : line y = true := hhigh y hle (Nat.lt_succ_self y)
    cases hscan with
    | rest hrest => exact .rest fun k hk => hrest k (Nat.le_of_succ_le hk)
    | high hhigh' next => exact next
    | noise low middle next => exact absurd (low.symm.trans hone) Bool.false_ne_true
    | heard hheard next => exact absurd (hheard.start.symm.trans hone) Bool.false_ne_true

/-- Nothing is received from a line that stays high. -/
theorem Scans.silent (h : Scans line x bs) (hhigh : ∀ k, x ≤ k → line k = true) : bs = [] := by
  cases bs with
  | nil => rfl
  | cons b bs =>
    obtain ⟨y, hy, hheard, -⟩ := h.first
    exact absurd (hheard.start.symm.trans (hhigh y hy)) Bool.false_ne_true

end Scans

/-! ## Streams -/

/-- From clock `s` on the line carries the frames, each behind so many clocks of idle, and is high
after the last one. -/
def Stream (p : Params) (line : Nat → Bool) : Nat → List (Nat × BitVec p.payloadBits) → Prop
  | s, [] => ∀ k, s ≤ k → line k = true
  | s, (gap, b) :: rest =>
    High line s (s + gap) ∧ Frame line (s + gap) b ∧
      Stream p line (s + gap + p.clkPerBit * (p.payloadBits + 2)) rest

/-- No frame finds the receiver too late. `late` clocks from the end of one frame on the receiver
looks for the next start bit. -/
def Timely (p : Params) : Nat → List (Nat × BitVec p.payloadBits) → Prop
  | _, [] => True
  | late, (gap, b) :: rest =>
    -- the middle sample is one of the start bit
    late - gap + p.clkPerBit / 2 + 1 < p.clkPerBit ∧
      -- and what is sampled in the bit behind it is 1
      (∀ i, i < p.payloadBits → p.clkPerBit ≤ late - gap + p.clkPerBit / 2 + 2 + i →
        b.getLsbD i = true) ∧
      Timely p (late - gap + blindClocks p - p.clkPerBit * (p.payloadBits + 2)) rest

section Frames

variable {s x : Nat} {b : BitVec p.payloadBits}

theorem frame_bit (h : Frame line s b) {i k : Nat} (hi : i < p.payloadBits)
    (hlo : s + p.clkPerBit * (i + 1) ≤ k) (hhi : k < s + p.clkPerBit * (i + 2)) :
    line k = b.getLsbD i := by
  have hmul : p.clkPerBit * (i + 2) = p.clkPerBit * (i + 1) + p.clkPerBit := Nat.mul_succ ..
  have hbit := h.data i (k - (s + p.clkPerBit * (i + 1))) hi (by omega)
  rwa [Nat.add_sub_of_le hlo] at hbit

/-- The stop bit. -/
theorem frame_stops (h : Frame line s b) :
    High line (s + p.clkPerBit * (p.payloadBits + 1)) (s + p.clkPerBit * (p.payloadBits + 2)) := by
  intro k hlo hhi
  have hmul : p.clkPerBit * (p.payloadBits + 2) = p.clkPerBit * (p.payloadBits + 1) +
    p.clkPerBit := Nat.mul_succ ..
  have hbit := h.stop (k - (s + p.clkPerBit * (p.payloadBits + 1))) (by omega)
  rwa [Nat.add_sub_of_le hlo] at hbit

/-- The data bit at a clock. -/
theorem frame_slot (h : Frame line s b) {k : Nat} (hlo : s + p.clkPerBit ≤ k)
    (hhi : k < s + p.clkPerBit * (p.payloadBits + 1)) :
    ∃ i, i < p.payloadBits ∧ s + p.clkPerBit * (i + 1) ≤ k ∧ k < s + p.clkPerBit * (i + 2) ∧
      line k = b.getLsbD i := by
  have hpos : 0 < p.clkPerBit := by
    refine Nat.pos_of_ne_zero fun hzero => ?_
    rw [hzero, Nat.zero_mul] at hhi
    omega
  have hone : 1 ≤ (k - s) / p.clkPerBit := (Nat.le_div_iff_mul_le hpos).mpr (by omega)
  have hlast : (k - s) / p.clkPerBit < p.payloadBits + 1 :=
    (Nat.div_lt_iff_lt_mul hpos).mpr (by rw [Nat.mul_comm]; omega)
  have hslot : (k - s) / p.clkPerBit - 1 + 1 = (k - s) / p.clkPerBit := by omega
  have hbegin : p.clkPerBit * ((k - s) / p.clkPerBit) ≤ k - s := Nat.mul_div_le ..
  have hend : k - s < p.clkPerBit * ((k - s) / p.clkPerBit + 1) := Nat.lt_mul_div_succ _ hpos
  have hi : (k - s) / p.clkPerBit - 1 < p.payloadBits := by omega
  have hlo' : s + p.clkPerBit * ((k - s) / p.clkPerBit - 1 + 1) ≤ k := by
    rw [hslot]
    omega
  have hhi' : k < s + p.clkPerBit * ((k - s) / p.clkPerBit - 1 + 2) := by
    have hnext : (k - s) / p.clkPerBit - 1 + 2 = (k - s) / p.clkPerBit + 1 := by omega
    rw [hnext]
    omega
  exact ⟨_, hi, hlo', hhi', frame_bit h hi hlo' hhi'⟩

/-- A byte is not heard from its own frame when the middle sample misses the start bit: every bit
is then taken from a later one, so that all are 1, but the middle sample was 0. -/
theorem not_heard_late (hf : Frame line s b) (h : Heard line x b)
    (hlate : s + p.clkPerBit ≤ x + p.clkPerBit / 2 + 1)
    (hhigh : ∀ k, s + p.clkPerBit * (p.payloadBits + 1) ≤ k →
      k ≤ x + p.clkPerBit / 2 + 1 + (p.clkPerBit + 1) * p.payloadBits → line k = true) : False := by
  -- from the last bit downwards
  have hones : ∀ d i, i < p.payloadBits → p.payloadBits - i ≤ d → b.getLsbD i = true := by
    intro d
    induction d with
    | zero => exact fun i hi hd => absurd hd (by omega)
    | succ d ih =>
      intro i hi hd
      have hmul : (p.clkPerBit + 1) * (i + 1) = p.clkPerBit * (i + 1) + (i + 1) := Nat.succ_mul ..
      have hlater : s + p.clkPerBit * (i + 2) ≤ sampleAt p x i := by
        rw [sampleAt, Nat.mul_succ p.clkPerBit (i + 1)]
        omega
      rw [← h.bits i hi]
      by_cases hend : s + p.clkPerBit * (p.payloadBits + 1) ≤ sampleAt p x i
      · have hlast : (p.clkPerBit + 1) * (i + 1) ≤ (p.clkPerBit + 1) * p.payloadBits :=
          Nat.mul_le_mul_left _ hi
        exact hhigh _ hend (by rw [sampleAt]; omega)
      · have hstart : p.clkPerBit ≤ p.clkPerBit * (i + 2) := Nat.le_mul_of_pos_right _ (by omega)
        obtain ⟨j, hj, -, hhi, hbit⟩ := frame_slot hf (k := sampleAt p x i) (by omega) (by omega)
        have hij : p.clkPerBit * (i + 2) < p.clkPerBit * (j + 2) := by omega
        have hlt : i + 2 < j + 2 := Nat.lt_of_mul_lt_mul_left hij
        rw [hbit]
        exact ih j hj (by omega)
  have hmiddle := h.middle
  by_cases hend : s + p.clkPerBit * (p.payloadBits + 1) ≤ x + p.clkPerBit / 2 + 1
  · exact Bool.false_ne_true (hmiddle.symm.trans (hhigh _ hend (Nat.le_add_right ..)))
  · obtain ⟨i, hi, -, -, hbit⟩ := frame_slot hf hlate (by omega)
    rw [hbit, hones p.payloadBits i hi (Nat.sub_le ..)] at hmiddle
    cases hmiddle

/-- What is heard of a frame that is not late is its byte exactly when each bit that is sampled in
the one behind it is 1. -/
theorem heard_iff {late : Nat} {b' : BitVec p.payloadBits} (hf : Frame line s b)
    (h : Heard line (s + late) b') (hn : p.payloadBits ≤ p.clkPerBit)
    (hlate : late + p.clkPerBit / 2 + 1 < p.clkPerBit) :
    b' = b ↔ ∀ i, i < p.payloadBits → p.clkPerBit ≤ late + p.clkPerBit / 2 + 2 + i →
      b.getLsbD i = true := by
  have hsample : ∀ i, sampleAt p (s + late) i =
      s + p.clkPerBit * (i + 1) + (late + p.clkPerBit / 2 + 2 + i) := by
    intro i
    have hmul : (p.clkPerBit + 1) * (i + 1) = p.clkPerBit * (i + 1) + (i + 1) := Nat.succ_mul ..
    rw [sampleAt]
    omega
  -- a bit that is sampled in time, and one that is not
  have hearly : ∀ i, i < p.payloadBits → late + p.clkPerBit / 2 + 2 + i < p.clkPerBit →
      b'.getLsbD i = b.getLsbD i := by
    intro i hi hin
    rw [← h.bits i hi, hsample]
    exact hf.data i _ hi hin
  have hnext : ∀ i, i < p.payloadBits → p.clkPerBit ≤ late + p.clkPerBit / 2 + 2 + i →
      b'.getLsbD i = if i + 1 < p.payloadBits then b.getLsbD (i + 1) else true := by
    intro i hi hout
    have hindex : sampleAt p (s + late) i = s + p.clkPerBit * (i + 1 + 1) +
        (late + p.clkPerBit / 2 + 2 + i - p.clkPerBit) := by
      rw [hsample, Nat.mul_succ p.clkPerBit (i + 1)]
      omega
    rw [← h.bits i hi, hindex]
    by_cases hlast : i + 1 < p.payloadBits
    · rw [if_pos hlast]
      exact hf.data (i + 1) _ hlast (by omega)
    · have hend : i + 1 = p.payloadBits := by omega
      rw [if_neg hlast, hend]
      exact hf.stop _ (by omega)
  constructor
  · rintro rfl
    have hones : ∀ d i, i < p.payloadBits → p.payloadBits - i ≤ d →
        p.clkPerBit ≤ late + p.clkPerBit / 2 + 2 + i → b'.getLsbD i = true := by
      intro d
      induction d with
      | zero => exact fun i hi hd => absurd hd (by omega)
      | succ d ih =>
        intro i hi hd hout
        rw [hnext i hi hout]
        split
        · exact ih (i + 1) ‹_› (by omega) (by omega)
        · rfl
    exact fun i hi => hones p.payloadBits i hi (Nat.sub_le ..)
  · intro hall
    refine BitVec.eq_of_getLsbD_eq fun i hi => ?_
    by_cases hin : late + p.clkPerBit / 2 + 2 + i < p.clkPerBit
    · exact hearly i hi hin
    · have hout := Nat.le_of_not_lt hin
      rw [hnext i hi hout, hall i hi hout]
      split
      · exact hall (i + 1) ‹_› (by omega)
      · rfl

end Frames

section Streams

variable {s x : Nat} {frames : List (Nat × BitVec p.payloadBits)} {bs : List (BitVec p.payloadBits)}

theorem Stream.rests (h : Stream p line s frames) : ∃ t, ∀ k, t ≤ k → line k = true := by
  induction frames generalizing s with
  | nil => exact ⟨s, h⟩
  | cons f rest ih => exact ih h.2.2

/-- A receiver that misses the start bit of a frame does not receive what is left of the stream. -/
theorem Scans.not_late {gap : Nat} {b : BitVec p.payloadBits}
    (hscan : Scans line x (b :: frames.map Prod.snd)) (h : Stream p line s ((gap, b) :: frames))
    (hlate : s + gap + p.clkPerBit ≤ x + p.clkPerBit / 2 + 1) : False := by
  induction frames generalizing s x gap b with
  | nil =>
    obtain ⟨-, hf, hrest⟩ := h
    obtain ⟨y, hy, hheard, -⟩ := hscan.first
    refine not_heard_late hf hheard (by omega) fun k hlo _ => ?_
    by_cases hstop : k < s + gap + p.clkPerBit * (p.payloadBits + 2)
    · exact frame_stops hf k hlo hstop
    · exact hrest k (Nat.le_of_not_lt hstop)
  | cons f rest ih =>
    obtain ⟨-, hf, hrest⟩ := h
    obtain ⟨y, hy, hheard, hnext⟩ := hscan.first
    have hmul : (p.clkPerBit + 1) * (p.payloadBits + 1) =
        (p.clkPerBit + 1) * p.payloadBits + (p.clkPerBit + 1) := Nat.mul_succ ..
    by_cases hlast : y + p.clkPerBit / 2 + 1 + (p.clkPerBit + 1) * p.payloadBits <
        s + gap + p.clkPerBit * (p.payloadBits + 2) + f.1
    · refine not_heard_late hf hheard (by omega) fun k hlo hhi => ?_
      by_cases hstop : k < s + gap + p.clkPerBit * (p.payloadBits + 2)
      · exact frame_stops hf k hlo hstop
      · exact hrest.1 k (Nat.le_of_not_lt hstop) (by omega)
    · -- the last sample is in the next frame, of which the start bit is over when the receiver
      -- looks again
      refine ih hnext hrest ?_
      rw [blindClocks]
      omega

/-- A receiver that is `late` for a stream receives it exactly when no frame finds it too late. -/
theorem Scans.timely_iff (hpos : 2 < p.clkPerBit) (hn : p.payloadBits ≤ p.clkPerBit)
    (hscan : Scans line x bs) (h : Stream p line s frames) (hhigh : High line x s) :
    bs = frames.map Prod.snd ↔ Timely p (x - s) frames := by
  induction frames generalizing s x bs with
  | nil =>
    refine iff_of_true (hscan.silent fun k hk => ?_) trivial
    by_cases hks : k < s
    · exact hhigh k hk hks
    · exact h k (Nat.le_of_not_lt hks)
  | cons f rest ih =>
    obtain ⟨gap, b⟩ := f
    by_cases hmid : x - s - gap + p.clkPerBit / 2 + 1 < p.clkPerBit
    · obtain ⟨hgap, hf, hrest⟩ := h
      -- the receiver waits for the start bit, or finds it at once
      have hstart : Scans line (s + gap + (x - s - gap)) bs := by
        by_cases hx : x ≤ s + gap
        · have hzero : x - s - gap = 0 := by omega
          rw [hzero]
          refine hscan.skip hx fun k hlo hhi => ?_
          by_cases hks : k < s
          · exact hhigh k hlo hks
          · exact hgap k (Nat.le_of_not_lt hks) hhi
        · have hindex : s + gap + (x - s - gap) = x := by omega
          rw [hindex]
          exact hscan
      have hlow : line (s + gap + (x - s - gap)) = false := hf.start _ (by omega)
      have hmiddle : line (s + gap + (x - s - gap) + p.clkPerBit / 2 + 1) = false := by
        rw [Nat.add_assoc, Nat.add_assoc (s + gap)]
        exact hf.start _ (by omega)
      obtain ⟨b', bs', rfl, hheard, hnext⟩ := hstart.hears hlow hmiddle
      have hstop : High line (s + gap + (x - s - gap) + blindClocks p)
          (s + gap + p.clkPerBit * (p.payloadBits + 2)) := by
        refine fun k hlo hhi => frame_stops hf k ?_ hhi
        have hmul : (p.clkPerBit + 1) * (p.payloadBits + 1) =
            p.clkPerBit * (p.payloadBits + 1) + (p.payloadBits + 1) := Nat.succ_mul ..
        rw [blindClocks] at hlo
        omega
      have htail := ih hnext hrest hstop
      have hlate : s + gap + (x - s - gap) + blindClocks p -
          (s + gap + p.clkPerBit * (p.payloadBits + 2)) =
          x - s - gap + blindClocks p - p.clkPerBit * (p.payloadBits + 2) := by omega
      rw [hlate] at htail
      rw [List.map_cons, List.cons.injEq, heard_iff hf hheard hn hmid, htail]
      exact ⟨fun hboth => ⟨hmid, hboth⟩, fun hall => hall.2⟩
    · refine iff_of_false (fun hall => ?_) fun htimely => hmid htimely.1
      rw [hall] at hscan
      exact hscan.not_late h (by omega)

/-- After reset, and the line high for a bit, the receiver scans what follows. -/
theorem received_scans {lead : Nat} (hpos : 2 < p.clkPerBit) (hlead : p.clkPerBit ≤ lead)
    (hhigh : High line 0 lead) (h : Stream p line lead frames) :
    ∃ bs : List (BitVec p.payloadBits), Scans line (p.clkPerBit / 2) bs ∧
      ∃ t₀, ∀ t, t₀ ≤ t → received line t = bs := by
  obtain ⟨t, ht⟩ := h.rests
  obtain ⟨bs, hscan⟩ := exists_scans (p := p) ht (p.clkPerBit / 2)
  have hbit : ∀ k, k < p.clkPerBit → line k = true := fun k hk =>
    hhigh k (Nat.zero_le k) (by omega)
  obtain ⟨hidle, hquiet⟩ := after_reset (p := p) hbit (by omega)
  obtain ⟨t₀, ht₀⟩ := hscan.received (by omega) hidle
  rw [received_quiet (Nat.zero_le _) hquiet] at ht₀
  exact ⟨bs, hscan, t₀, ht₀⟩

/-- After reset, and the line high for a bit at least, the bytes of a stream of frames are received
in order, each once, exactly when no frame finds the receiver too late. -/
theorem stream_received (p : Params) (hpos : 2 < p.clkPerBit) (hn : p.payloadBits ≤ p.clkPerBit)
    (line : Nat → Bool) (lead : Nat) (hlead : p.clkPerBit ≤ lead) (hhigh : High line 0 lead)
    (frames : List (Nat × BitVec p.payloadBits)) (h : Stream p line lead frames) :
    (∃ t₀, ∀ t, t₀ ≤ t → received line t = frames.map Prod.snd) ↔ Timely p 0 frames := by
  obtain ⟨bs, hscan, t₀, ht₀⟩ := received_scans hpos hlead hhigh h
  have hlate : p.clkPerBit / 2 - lead = 0 := by omega
  have htimely := hscan.timely_iff hpos hn h fun k _ hhi => hhigh k (Nat.zero_le k) hhi
  rw [← hlate, ← htimely]
  constructor
  · rintro ⟨t₁, ht₁⟩
    rw [← ht₀ (t₀ + t₁) (Nat.le_add_right ..), ht₁ (t₀ + t₁) (Nat.le_add_left ..)]
  · rintro rfl
    exact ⟨t₀, ht₀⟩

/-- With a bit of at least 21 clocks for 8 data bits the receiver is never late. -/
theorem timely_of_wide (hN : p.clkPerBit / 2 + p.payloadBits + 3 ≤ p.clkPerBit)
    (frames : List (Nat × BitVec p.payloadBits)) : Timely p 0 frames := by
  have hmul : (p.clkPerBit + 1) * (p.payloadBits + 1) =
      p.clkPerBit * (p.payloadBits + 1) + (p.payloadBits + 1) := Nat.succ_mul ..
  have hmul' : p.clkPerBit * (p.payloadBits + 2) =
      p.clkPerBit * (p.payloadBits + 1) + p.clkPerBit := Nat.mul_succ ..
  have hnever : blindClocks p - p.clkPerBit * (p.payloadBits + 2) = 0 := by
    rw [blindClocks]
    omega
  induction frames with
  | nil => trivial
  | cons f rest ih =>
    obtain ⟨gap, b⟩ := f
    refine ⟨by omega, fun i hi hout => absurd hout (by omega), ?_⟩
    rw [Nat.zero_sub, Nat.zero_add, hnever]
    exact ih

end Streams

/-! ## A single NUL -/

/-- A NUL behind one bit of idle. -/
def nulLine (p : Params) (t : Nat) : Bool :=
  decide (t < p.clkPerBit ∨ p.clkPerBit * (p.payloadBits + 2) ≤ t)

theorem nulLine_low {t : Nat} (hlo : p.clkPerBit ≤ t)
    (hhi : t < p.clkPerBit * (p.payloadBits + 2)) : nulLine p t = false := by
  unfold nulLine
  rw [decide_eq_false_iff_not]
  omega

theorem stream_nul (p : Params) :
    High (nulLine p) 0 p.clkPerBit ∧ Stream p (nulLine p) p.clkPerBit [(0, 0)] := by
  have hbits : p.clkPerBit * (p.payloadBits + 1) = p.clkPerBit * p.payloadBits + p.clkPerBit :=
    Nat.mul_succ ..
  have hstop : p.clkPerBit * (p.payloadBits + 2) =
      p.clkPerBit * (p.payloadBits + 1) + p.clkPerBit := Nat.mul_succ ..
  have hlate : ∀ t, p.clkPerBit * (p.payloadBits + 2) ≤ t → nulLine p t = true := fun t ht =>
    decide_eq_true (.inr ht)
  refine ⟨fun k _ hk => decide_eq_true (.inl hk), fun k hlo hhi => absurd hhi (by omega), ?_, ?_⟩
  · refine ⟨fun k hk => nulLine_low (by omega) (by omega), fun i k hi hk => ?_,
      fun k hk => hlate _ (by omega)⟩
    have hle : p.clkPerBit * (i + 1) ≤ p.clkPerBit * p.payloadBits := Nat.mul_le_mul_left _ hi
    have hzero : (0 : BitVec p.payloadBits).getLsbD i = false := BitVec.getLsbD_zero
    rw [hzero]
    exact nulLine_low (by omega) (by omega)
  · exact fun k hk => hlate k (by omega)

/-- At 21 clocks a bit it is received. -/
theorem stream_received_nul : ∃ t₀, ∀ t, t₀ ≤ t →
    received (p := { clkFreq := 201600 }) (nulLine { clkFreq := 201600 }) t = [0] :=
  (stream_received { clkFreq := 201600 } (by decide) (by decide) (nulLine { clkFreq := 201600 }) 21
    (by decide) (stream_nul { clkFreq := 201600 }).1 [(0, 0)]
    (stream_nul { clkFreq := 201600 }).2).mpr (timely_of_wide (by decide) _)

/-- At 16 clocks a bit it is not: its last bit is sampled in the stop bit. -/
theorem narrow_nul_lost : Params.clkPerBit { clkFreq := 153600 } = 16 ∧
    High (nulLine { clkFreq := 153600 }) 0 16 ∧
    Stream { clkFreq := 153600 } (nulLine { clkFreq := 153600 }) 16 [(0, 0)] ∧
    ¬ ∃ t₀, ∀ t, t₀ ≤ t →
      received (p := { clkFreq := 153600 }) (nulLine { clkFreq := 153600 }) t = [0] := by
  obtain ⟨hhigh, hstream⟩ := stream_nul { clkFreq := 153600 }
  refine ⟨by decide, hhigh, hstream, ?_⟩
  obtain ⟨bs, hscan, t₀, ht₀⟩ := received_scans (by decide) (Nat.le_refl _) hhigh hstream
  rintro ⟨t₁, ht₁⟩
  have hbs : bs = [0] := by
    rw [← ht₀ (t₀ + t₁) (Nat.le_add_right ..)]
    exact ht₁ (t₀ + t₁) (Nat.le_add_left ..)
  have htimely := (hscan.timely_iff (by decide) (by decide) hstream
    fun k _ hhi => hhigh k (Nat.zero_le k) hhi).mp hbs
  exact absurd (htimely.2.1 7 (by decide) (by decide)) (by decide)

end NextEmu.Device.UartStream
