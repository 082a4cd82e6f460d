import Mathlib.Data.List.Basic
import NextEmu.Sdk.WireSignal

/-!
# The layouts of a wire signal

A plain signal and a Verilator-backed one are the same bit vector in two layouts, at every
width. What they do not agree on is what counts as a 1: a plain signal takes `bitPos` for it
only, a Verilator-backed one all but 0, so that `bitUndef` clears the one and sets the other.
-/

namespace NextEmu.Sdk.WireSignalLayouts

open WireSignal

/-- The signal behind calls of `setBit`. -/
def after (s : WireSignal) : List (Nat × BitVal) → WireSignal
  | [] => s
  | (i, bitVal) :: calls => after (s.setBit i bitVal).2 calls

/-- The value of the last call for index `i`. -/
def lastSet (i : Nat) : List (Nat × BitVal) → Option BitVal
  | [] => none
  | (j, bitVal) :: calls => (lastSet i calls).or (if j = i then some bitVal else none)

/-- At every point of the calls both signals return and read the same, a bit is as its last call
has left it, and a call changes no other bit. -/
structure Agree (plain verilated : WireSignal) (calls : List (Nat × BitVal)) : Prop where
  results : ∀ pre i bitVal, pre ++ [(i, bitVal)] <+: calls →
    ((after plain pre).setBit i bitVal).1 = ((after verilated pre).setBit i bitVal).1
  reads : ∀ pre, pre <+: calls → ∀ i, (after plain pre).getBit i = (after verilated pre).getBit i
  last : ∃ f : BitVal → BitVal, ∀ pre, pre <+: calls → ∀ i bitVal, i < plain.busWidth →
    lastSet i pre = some bitVal →
      (after plain pre).getBit i = f bitVal ∧ (after verilated pre).getBit i = f bitVal
  others : ∀ pre i bitVal, pre ++ [(i, bitVal)] <+: calls → ∀ j, j ≠ i →
    (after plain (pre ++ [(i, bitVal)])).getBit j = (after plain pre).getBit j ∧
    (after verilated (pre ++ [(i, bitVal)])).getBit j = (after verilated pre).getBit j

section Calls

variable (s : WireSignal)

/-- What `setBit` leaves as it is, and what it returns. -/
theorem setBit_keeps (i : Nat) (bitVal : BitVal) :
    (s.setBit i bitVal).1 = decide (i < s.busWidth) ∧
      (s.setBit i bitVal).2.busWidth = s.busWidth ∧
      (s.setBit i bitVal).2.isVerilatorSig = s.isVerilatorSig := by
  by_cases h : i < s.busWidth
  · obtain ⟨m, hset, -⟩ := setBit_in h bitVal
    rw [hset]
    exact ⟨(decide_eq_true h).symm, rfl, rfl⟩
  · rw [setBit_out (Nat.le_of_not_lt h)]
    exact ⟨(decide_eq_false h).symm, rfl, rfl⟩

theorem after_keeps (calls : List (Nat × BitVal)) :
    (after s calls).busWidth = s.busWidth ∧
      (after s calls).isVerilatorSig = s.isVerilatorSig := by
  induction calls generalizing s with
  | nil => exact ⟨rfl, rfl⟩
  | cons call calls ih =>
    obtain ⟨-, hwidth, hver⟩ := setBit_keeps s call.1 call.2
    obtain ⟨hwidth', hver'⟩ := ih (s.setBit call.1 call.2).2
    exact ⟨hwidth'.trans hwidth, hver'.trans hver⟩

/-- A bit is as its last call has left it, or as it was at first. -/
theorem bitAt_after (calls : List (Nat × BitVal)) {i : Nat} (h : i < s.busWidth) :
    bitAt (after s calls).bitVals i =
      match lastSet i calls with
      | some bitVal => s.takes bitVal
      | none => bitAt s.bitVals i := by
  induction calls generalizing s with
  | nil => rfl
  | cons call calls ih =>
    obtain ⟨-, hwidth, hver⟩ := setBit_keeps s call.1 call.2
    have hrest := ih (s.setBit call.1 call.2).2 (hwidth ▸ h)
    have htakes : ∀ b, (s.setBit call.1 call.2).2.takes b = s.takes b := fun b => by
      rw [takes, takes, hver]
    rw [lastSet]
    refine hrest.trans ?_
    cases lastSet i calls with
    | some bitVal => exact htakes bitVal
    | none =>
      rw [Option.none_or]
      by_cases hin : call.1 < s.busWidth
      · obtain ⟨m, hset, hbits⟩ := setBit_in hin call.2
        rw [hset]
        refine (hbits i).trans ?_
        by_cases heq : call.1 = i
        · rw [if_pos heq, if_pos heq.symm]
        · rw [if_neg heq, if_neg (Ne.symm heq)]
      · have hne : call.1 ≠ i := fun heq => hin (heq ▸ h)
        rw [setBit_out (Nat.le_of_not_lt hin), if_neg hne]

theorem getBit_after (calls : List (Nat × BitVal)) {i : Nat} (h : i < s.busWidth) :
    (after s calls).getBit i = if bitAt (after s calls).bitVals i then bitPos else bitNeg :=
  getBit_in ((after_keeps s calls).1 ▸ h)

theorem getBit_set {calls : List (Nat × BitVal)} {i : Nat} {bitVal : BitVal} (h : i < s.busWidth)
    (hlast : lastSet i calls = some bitVal) :
    (after s calls).getBit i = if s.takes bitVal then bitPos else bitNeg := by
  rw [getBit_after s _ h, bitAt_after s _ h, hlast]

theorem getBit_unset {calls : List (Nat × BitVal)} {i : Nat} (h : i < s.busWidth)
    (hlast : lastSet i calls = none) :
    (after s calls).getBit i = if bitAt s.bitVals i then bitPos else bitNeg := by
  rw [getBit_after s _ h, bitAt_after s _ h, hlast]

theorem getBit_after_out (calls : List (Nat × BitVal)) {i : Nat} (h : s.busWidth ≤ i) :
    (after s calls).getBit i = -1 :=
  getBit_out ((after_keeps s calls).1 ▸ h)

theorem lastSet_append (i : Nat) (calls calls' : List (Nat × BitVal)) :
    lastSet i (calls ++ calls') = (lastSet i calls').or (lastSet i calls) := by
  induction calls with
  | nil => exact (Option.or_none).symm
  | cons call calls ih => rw [List.cons_append, lastSet, lastSet, ih, Option.or_assoc]

theorem mem_of_lastSet {i : Nat} {bitVal : BitVal} {calls : List (Nat × BitVal)}
    (h : lastSet i calls = some bitVal) : (i, bitVal) ∈ calls := by
  induction calls with
  | nil => cases h
  | cons call calls ih =>
    rw [lastSet, Option.or_eq_some_iff] at h
    obtain hlater | ⟨-, hhere⟩ := h
    · exact List.mem_cons_of_mem _ (ih hlater)
    · by_cases heq : call.1 = i
      · rw [if_pos heq] at hhere
        cases hhere
        subst heq
        exact List.mem_cons_self
      · rw [if_neg heq] at hhere
        cases hhere

/-- A call changes no other bit. -/
theorem getBit_others (pre : List (Nat × BitVal)) (i : Nat) (bitVal : BitVal) {j : Nat}
    (hj : j ≠ i) : (after s (pre ++ [(i, bitVal)])).getBit j = (after s pre).getBit j := by
  by_cases hin : j < s.busWidth
  · have hlast : lastSet j (pre ++ [(i, bitVal)]) = lastSet j pre := by
      rw [lastSet_append, lastSet, lastSet, if_neg hj.symm]
      rfl
    rw [getBit_after s _ hin, getBit_after s _ hin, bitAt_after s _ hin, bitAt_after s _ hin,
      hlast]
  · rw [getBit_after_out s _ (Nat.le_of_not_lt hin), getBit_after_out s _ (Nat.le_of_not_lt hin)]

end Calls

section Agreement

variable {w : Nat} {mem sig : Nat → BitVec 8} {calls : List (Nat × BitVal)}

/-- A value that is neither 0 nor 1 clears the plain bit and sets the other one. -/
theorem binary_of_reads (h : ∀ pre, pre <+: calls → ∀ i,
      (after ⟨mem, w, false⟩ pre).getBit i = (after ⟨sig, w, true⟩ pre).getBit i)
    (i : Nat) (bitVal : BitVal) (hmem : (i, bitVal) ∈ calls) (hi : i < w) :
    bitVal = bitNeg ∨ bitVal = bitPos := by
  apply Classical.byContradiction
  intro hneither
  obtain ⟨hneg, hpos⟩ := not_or.mp hneither
  obtain ⟨pre, post, rfl⟩ := List.append_of_mem hmem
  have hsplit : pre ++ (i, bitVal) :: post = pre ++ [(i, bitVal)] ++ post :=
    (List.append_cons ..)
  have hread := h (pre ++ [(i, bitVal)]) ⟨post, hsplit.symm⟩ i
  have hlast : lastSet i (pre ++ [(i, bitVal)]) = some bitVal := by
    rw [lastSet_append, lastSet, if_pos rfl]
    rfl
  have hplain := getBit_set ⟨mem, w, false⟩ hi hlast
  have hverilated := getBit_set ⟨sig, w, true⟩ hi hlast
  have hclear : WireSignal.takes ⟨mem, w, false⟩ bitVal = false := decide_eq_false hpos
  have hset : WireSignal.takes ⟨sig, w, true⟩ bitVal = true := decide_eq_true hneg
  rw [hclear] at hplain
  rw [hset] at hverilated
  exact absurd ((hplain.symm.trans hread).trans hverilated) (by decide)

/-- Both take 0 and 1 for themselves. -/
theorem takes_binary (s : WireSignal) {bitVal : BitVal} (h : bitVal = bitNeg ∨ bitVal = bitPos) :
    (if s.takes bitVal then bitPos else bitNeg) = bitVal := by
  unfold takes
  cases s.isVerilatorSig with
  | true => rcases h with rfl | rfl <;> rfl
  | false => rcases h with rfl | rfl <;> rfl

theorem getBit_last (s : WireSignal) {pre : List (Nat × BitVal)} {i : Nat} {bitVal : BitVal}
    (hi : i < s.busWidth) (hlast : lastSet i pre = some bitVal)
    (h : bitVal = bitNeg ∨ bitVal = bitPos) : (after s pre).getBit i = bitVal := by
  rw [getBit_set s hi hlast]
  exact takes_binary s h

theorem agree_of_binary (hinit : ∀ i, i < w → bitAt mem i = bitAt sig i)
    (h : ∀ i bitVal, (i, bitVal) ∈ calls → i < w → bitVal = bitNeg ∨ bitVal = bitPos) :
    Agree ⟨mem, w, false⟩ ⟨sig, w, true⟩ calls where
  results pre i bitVal _ := by
    rw [(setBit_keeps _ i bitVal).1, (setBit_keeps _ i bitVal).1, (after_keeps _ pre).1,
      (after_keeps _ pre).1]
  reads pre hpre i := by
    by_cases hin : i < w
    · cases hlast : lastSet i pre with
      | some bitVal =>
        have hbinary := h i bitVal (hpre.subset (mem_of_lastSet hlast)) hin
        exact (getBit_last ⟨mem, w, false⟩ hin hlast hbinary).trans
          (getBit_last ⟨sig, w, true⟩ hin hlast hbinary).symm
      | none =>
        rw [getBit_unset _ (show i < (WireSignal.mk mem w false).busWidth from hin) hlast,
          getBit_unset _ (show i < (WireSignal.mk sig w true).busWidth from hin) hlast]
        dsimp only
        rw [hinit i hin]
    · have hout := Nat.le_of_not_lt hin
      exact (getBit_after_out ⟨mem, w, false⟩ pre hout).trans
        (getBit_after_out ⟨sig, w, true⟩ pre hout).symm
  last := by
    refine ⟨id, fun pre hpre i bitVal hi hlast => ?_⟩
    have hbinary := h i bitVal (hpre.subset (mem_of_lastSet hlast)) hi
    exact ⟨getBit_last _ hi hlast hbinary, getBit_last _ hi hlast hbinary⟩
  others pre i bitVal _ j hj := ⟨getBit_others _ pre i bitVal hj, getBit_others _ pre i bitVal hj⟩

end Agreement

/-- The two kinds of signal agree exactly on calls that set bits to 0 and 1. -/
theorem agree_iff (w : Nat) (mem sig : Nat → BitVec 8) (calls : List (Nat × BitVal))
    (hinit : ∀ i, i < w → bitAt mem i = bitAt sig i) :
    Agree ⟨mem, w, false⟩ ⟨sig, w, true⟩ calls ↔
      ∀ i bitVal, (i, bitVal) ∈ calls → i < w → bitVal = bitNeg ∨ bitVal = bitPos :=
  ⟨fun h => binary_of_reads h.reads, agree_of_binary hinit⟩

/-- Across the words of a wide signal. -/
theorem agree_iff_wide :
    Agree ⟨fun _ => 0xa5, 70, false⟩ ⟨fun _ => 0xa5, 70, true⟩ [(31, bitPos), (69, bitNeg)] :=
  (agree_iff 70 _ _ _ fun _ _ => rfl).mpr fun i bitVal hmem _ => by
    rcases List.mem_pair.mp hmem with h | h
    · cases h
      exact .inr rfl
    · cases h
      exact .inl rfl

/-- An undefined level clears a plain bit and sets a Verilator-backed one. -/
theorem undef_disagrees : ¬ ∀ (w : Nat) (mem sig : Nat → BitVec 8) (calls : List (Nat × BitVal)),
    1 ≤ w → (∀ i, i < w → bitAt mem i = bitAt sig i) →
      Agree ⟨mem, w, false⟩ ⟨sig, w, true⟩ calls := by
  intro hall
  have hagree := hall 1 (fun _ => 0) (fun _ => 0) [(0, bitUndef)] (Nat.le_refl 1) fun _ _ => rfl
  have hbinary := binary_of_reads hagree.reads 0 bitUndef List.mem_cons_self Nat.one_pos
  exact absurd hbinary (by decide)

end NextEmu.Sdk.WireSignalLayouts
