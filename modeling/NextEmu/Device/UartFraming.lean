import NextEmu.Device.UartStream

/-!
# What the receiver takes for a frame

On any line the clocks at which the receiver looks for a start bit follow from the levels
alone. A byte is announced behind the stop bit of each frame that begins at one of them, and
at no other clock. The level of the stop bit itself is not looked at, so that a break is
announced as bytes of zeros.
-/

namespace NextEmu.Device.UartFraming

open UartRx UartReception UartStream

variable {p : Params}

/-- The next clock after `s` at which one looks for a start bit that does so at `s`. -/
def nextLook (p : Params) (level : Nat → Bool) (s : Nat) : Nat :=
  if level s = true then s + 1
  else if level (s + p.clkPerBit / 2 + 1) = true then s + p.clkPerBit / 2 + 2
  else stopAt p s + 1

inductive Looks (p : Params) (level : Nat → Bool) : Nat → Prop
  | reset : Looks p level 0
  | next {s : Nat} (h : Looks p level s) : Looks p level (nextLook p level s)

/-- A frame that begins at clock `s`: its start bit is low at the edge and in its middle, and its
data bits are those of `b`. -/
structure Framed (level : Nat → Bool) (s : Nat) (b : BitVec p.payloadBits) : Prop where
  looks : Looks p level s
  heard : Heard level s b

/-- Bytes are announced behind frames with a high stop bit only, and behind none with a low one. -/
structure WellFramed (p : Params) (line : Nat → Bool) : Prop where
  pulses : ∀ t, (after line t : UartRx p).rxDone = true →
    ∃ s, ∃ b : BitVec p.payloadBits, Framed (synced line) s b ∧ t = stopAt p s + 1 ∧
      (after line t : UartRx p).rxData = b ∧ synced line (stopAt p s) = true
  breaks : ∀ s, ∀ b : BitVec p.payloadBits, Framed (synced line) s b →
    synced line (stopAt p s) = false → Quiet p line s (stopAt p s + 1)

section Looks

variable {line : Nat → Bool} {s : Nat}

theorem lt_nextLook (p : Params) (level : Nat → Bool) (s : Nat) : s < nextLook p level s := by
  unfold nextLook stopAt sampleAt
  split
  · omega
  split
  · omega
  · omega

/-- A receiver that looks for a start bit is idle and says nothing before it looks again, unless
there is a frame. -/
theorem look_cases (hpos : 0 < p.clkPerBit) (hidle : (after line s : UartRx p).fsmState = .idle) :
    (after line (nextLook p (synced line) s) : UartRx p).fsmState = .idle ∧
      (Quiet p line s (nextLook p (synced line) s) ∨
        ∃ b : BitVec p.payloadBits, Heard (synced line) s b ∧
          nextLook p (synced line) s = stopAt p s + 1 ∧ Quiet p line s (stopAt p s) ∧
          (after line (stopAt p s + 1) : UartRx p).rxDone = true ∧
          (after line (stopAt p s + 1) : UartRx p).rxData = b) := by
  unfold nextLook
  cases hlow : synced line s with
  | true =>
    obtain ⟨hnext, hquiet⟩ := idle_high (m := 1) hidle fun k hk => by
      obtain rfl : k = 0 := by omega
      exact hlow
    exact ⟨hnext, .inl hquiet⟩
  | false =>
    rw [if_neg (by decide)]
    cases hmid : synced line (s + p.clkPerBit / 2 + 1) with
    | true =>
      obtain ⟨hat, hquiet⟩ := edge_sampled hlow hidle
      rw [hmid, if_neg (by decide)] at hat
      exact ⟨hat.state, .inl hquiet⟩
    | false =>
      obtain ⟨b, hb⟩ := exists_heard (p := p) hlow hmid
      obtain ⟨hnext, hdone, hdata, hquiet⟩ := heard_done hb hpos hidle
      exact ⟨hnext, .inr ⟨b, hb, rfl, hquiet, hdone, hdata⟩⟩

theorem idle_of_looks (hpos : 0 < p.clkPerBit) (h : Looks p (synced line) s) :
    (after line s : UartRx p).fsmState = .idle := by
  induction h with
  | reset => rfl
  | next _ ih => exact (look_cases hpos ih).1

/-- Each clock lies between two looks. -/
theorem exists_looks (p : Params) (level : Nat → Bool) (t : Nat) :
    ∃ s, Looks p level s ∧ s ≤ t ∧ t < nextLook p level s := by
  induction t with
  | zero => exact ⟨0, .reset, Nat.le_refl 0, lt_nextLook p level 0⟩
  | succ t ih =>
    obtain ⟨s, hlooks, hle, hlt⟩ := ih
    by_cases hnext : t + 1 < nextLook p level s
    · exact ⟨s, hlooks, Nat.le_succ_of_le hle, hnext⟩
    · have heq : nextLook p level s = t + 1 := by omega
      have hlater := lt_nextLook p level (nextLook p level s)
      exact ⟨nextLook p level s, hlooks.next, Nat.le_of_eq heq, by omega⟩

theorem framed_done {b : BitVec p.payloadBits} (hpos : 0 < p.clkPerBit)
    (h : Framed (synced line) s b) : (after line (stopAt p s + 1) : UartRx p).rxDone = true ∧
      (after line (stopAt p s + 1) : UartRx p).rxData = b ∧ Quiet p line s (stopAt p s) := by
  obtain ⟨-, hdone, hdata, hquiet⟩ := heard_done h.heard hpos (idle_of_looks hpos h.looks)
  exact ⟨hdone, hdata, hquiet⟩

end Looks

/-- A byte is announced behind each frame, whatever its stop bit is, and nowhere else. -/
theorem done_iff_framed (p : Params) (line : Nat → Bool) (t : Nat) (hpos : 0 < p.clkPerBit) :
    (after line t : UartRx p).rxDone = true ↔
      ∃ s, Framed (synced line) s (after line t : UartRx p).rxData ∧ t = stopAt p s + 1 := by
  constructor
  · intro hdone
    cases t with
    | zero => exact absurd hdone Bool.false_ne_true
    | succ t =>
      obtain ⟨s, hlooks, hle, hlt⟩ := exists_looks p (synced line) t
      obtain ⟨-, hquiet | ⟨b, hheard, hnext, hquiet, hdone', hdata⟩⟩ :=
        look_cases hpos (idle_of_looks hpos hlooks)
      · have hnone := hquiet (t + 1) (Nat.lt_succ_of_le hle) hlt
        exact absurd (hdone.symm.trans hnone) Bool.noConfusion
      · have hlast : ¬ t + 1 ≤ stopAt p s := fun hbefore => by
          have hnone := hquiet (t + 1) (Nat.lt_succ_of_le hle) hbefore
          exact absurd (hdone.symm.trans hnone) Bool.noConfusion
        obtain rfl : t = stopAt p s := by omega
        exact ⟨s, ⟨hlooks, hdata ▸ hheard⟩, rfl⟩
  · rintro ⟨s, hframed, hindex⟩
    rw [hindex]
    exact (framed_done hpos hframed).1

section Break

theorem synced_low (t : Nat) : synced (fun _ => false) t = false := by
  match t with
  | 0 => rfl
  | 1 => rfl
  | t + 2 => rfl

/-- In a break there is a frame without a stop bit. -/
theorem break_framed : Framed (p := {}) (synced fun _ => false) 0 0 where
  looks := .reset
  heard := ⟨synced_low _, synced_low _, fun _ _ => (synced_low _).trans BitVec.getLsbD_zero.symm⟩

theorem done_iff_framed_break : (after (fun _ => false) 999 : UartRx {}).rxDone = true :=
  have hdata : (after (fun _ => false) (stopAt {} 0 + 1) : UartRx {}).rxData = 0 :=
    (framed_done (by decide) break_framed).2.1
  (done_iff_framed {} (fun _ => false) 999 (by decide)).mpr ⟨0, hdata ▸ break_framed, rfl⟩

theorem break_announced : ¬ ∀ line : Nat → Bool, WellFramed {} line := by
  intro hall
  have hquiet := (hall fun _ => false).breaks 0 0 break_framed (synced_low _)
  have hnone := hquiet (stopAt {} 0 + 1) (Nat.succ_pos _) (Nat.le_refl _)
  have hdone := (framed_done (p := {}) (by decide) break_framed).1
  exact absurd (hdone.symm.trans hnone) Bool.noConfusion

end Break

/-- The announced bytes are well framed exactly on a line without breaks and framing errors. -/
theorem wellFramed_iff (p : Params) (line : Nat → Bool) (hpos : 0 < p.clkPerBit) :
    WellFramed p line ↔ ∀ s, ∀ b : BitVec p.payloadBits, Framed (synced line) s b →
      synced line (stopAt p s) = true := by
  constructor
  · intro h s b hframed
    cases hstop : synced line (stopAt p s) with
    | true => rfl
    | false =>
      have hnone := h.breaks s b hframed hstop (stopAt p s + 1)
        (by rw [stopAt, sampleAt]; omega) (Nat.le_refl _)
      exact absurd ((framed_done hpos hframed).1.symm.trans hnone) Bool.noConfusion
  · intro hall
    refine ⟨fun t hdone => ?_, fun s b hframed hlow => ?_⟩
    · obtain ⟨s, hframed, hindex⟩ := (done_iff_framed p line t hpos).mp hdone
      exact ⟨s, _, hframed, hindex, rfl, hall s _ hframed⟩
    · exact absurd ((hall s b hframed).symm.trans hlow) Bool.noConfusion

end NextEmu.Device.UartFraming
