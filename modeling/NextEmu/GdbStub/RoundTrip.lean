import NextEmu.GdbStub.Frames

/-!
# Packets and back

The reader gives back what the writer was given, whatever other bytes are in front, and
tells a packet with one byte changed, or with other digits, from a packet.
-/

namespace NextEmu.GdbStub.RoundTrip

open NextEmu.Lib.SumCheck

/-- No `$` and no `#`. -/
def Plain (xs : List Byte) : Prop := packetBeginChar ∉ xs ∧ packetEndChar ∉ xs

instance (xs : List Byte) : Decidable (Plain xs) := inferInstanceAs (Decidable (_ ∧ _))

/-- A packet with two digits is taken when they spell its sum, and refused when not. -/
theorem recvAndCheck_packet {pre data : List Byte} (stale : Byte) (rest : List Byte)
    (hpre : Plain pre) (hdata : Plain data) (hfit : pre.length + data.length + 2 ≤ bufferSize)
    {d₀ d₁ : Byte} {v v' : Nat} (h₀ : hexVal d₀ = some v) (h₁ : hexVal d₁ = some v') :
    recvAndCheck stale (pre ++ packetBeginChar :: (data ++ packetEndChar :: d₀ :: d₁ :: rest)) =
      if BitVec.ofNat 8 (16 * v + v') = total data then some ⟨.memuOk, data, rest⟩
      else some ⟨.memuChksumErr, [], rest⟩ := by
  have hend : packetEndChar ∉ pre ++ packetBeginChar :: data := by
    intro hm
    rcases List.mem_append.mp hm with hm | hm
    · exact hpre.2 hm
    · rcases List.mem_cons.mp hm with heq | hm
      · exact absurd heq (by decide)
      · exact hdata.2 hm
  have hlen : (pre ++ packetBeginChar :: data).length < bufferSize := by
    rw [List.length_append, List.length_cons]
    omega
  have hrecv := recvAndCheck_body stale rest hend hlen h₀ h₁
  rw [behindBegin_packet pre hdata.1, List.append_assoc, List.cons_append] at hrecv
  exact hrecv

/-- A plain packet stays plain when a byte is replaced by another plain one. -/
theorem plain_set {data : List Byte} (h : Plain data) (k : Nat) {b : Byte}
    (hbegin : b ≠ packetBeginChar) (hend : b ≠ packetEndChar) : Plain (data.set k b) := by
  constructor
  · intro hm
    rcases List.mem_or_eq_of_mem_set hm with hm | heq
    · exact h.1 hm
    · exact hbegin heq.symm
  · intro hm
    rcases List.mem_or_eq_of_mem_set hm with hm | heq
    · exact h.2 hm
    · exact hend heq.symm

theorem hexVal_lt {c : Byte} {v : Nat} (h : hexVal c = some v) : v < 16 := by
  unfold hexVal at h
  split at h
  · cases h
    omega
  · split at h
    · cases h
      omega
    · split at h
      · cases h
        omega
      · cases h

/-- The digits of a sum, as the reader sees them. -/
theorem ofNat_digits (b : Byte) : BitVec.ofNat 8 (16 * (b.toNat / 16) + b.toNat % 16) = b := by
  rw [Nat.div_add_mod, BitVec.ofNat_toNat, BitVec.setWidth_eq]

/-- The reader returns the packet; with one byte replaced, or the digits by others of another value,
it returns a checksum error. -/
theorem framing_round_trip (stale : Byte) (pre data rest : List Byte) (hpre : Plain pre)
    (hdata : Plain data) (hfit : pre.length + data.length + 2 ≤ bufferSize) :
    recvAndCheck stale (pre ++ packing data ++ rest) = some ⟨.memuOk, data, rest⟩ ∧
    (∀ (k : Nat) (hk : k < data.length) (b : Byte), b ≠ data[k] → b ≠ packetBeginChar →
      b ≠ packetEndChar →
      recvAndCheck stale (pre ++ packetBeginChar :: data.set k b ++
        packetEndChar :: sprintfHex (calCheckSum data) ++ rest) =
          some ⟨.memuChksumErr, [], rest⟩) ∧
    (∀ (d₀ d₁ : Byte) (v v' : Nat), hexVal d₀ = some v → hexVal d₁ = some v' →
      16 * v + v' ≠ (calCheckSum data).toNat →
      recvAndCheck stale (pre ++ packetBeginChar :: data ++ packetEndChar :: [d₀, d₁] ++ rest) =
        some ⟨.memuChksumErr, [], rest⟩) := by
  have hbytes : ∀ (xs digits : List Byte), pre ++ packetBeginChar :: xs ++
      packetEndChar :: digits ++ rest =
        pre ++ packetBeginChar :: (xs ++ packetEndChar :: (digits ++ rest)) := by
    intro xs digits
    simp only [List.append_assoc, List.cons_append]
  have hlt := (calCheckSum data).isLt
  have hhigh := hexVal_hexDigit (v := (calCheckSum data).toNat / 16) (by omega)
  have hlow := hexVal_hexDigit (v := (calCheckSum data).toNat % 16) (by omega)
  refine ⟨?_, ?_, ?_⟩
  · have hrun := recvAndCheck_packet stale rest hpre hdata hfit hhigh hlow
    rw [ofNat_digits, if_pos (calCheckSum_total data)] at hrun
    rw [packing, ← List.append_assoc, hbytes]
    exact hrun
  · intro k hk b hne hbegin hend
    have hset : (data.set k b).length = data.length := List.length_set
    have hrun := recvAndCheck_packet stale rest hpre (plain_set hdata k hbegin hend)
      (hset.symm ▸ hfit) hhigh hlow
    have hsum : ¬ calCheckSum data = total (data.set k b) := by
      rw [calCheckSum_total]
      exact (total_set_ne hk hne).symm
    rw [ofNat_digits, if_neg hsum] at hrun
    rw [hbytes]
    exact hrun
  · intro d₀ d₁ v v' h₀ h₁ hne
    have hrun := recvAndCheck_packet stale rest hpre hdata hfit h₀ h₁
    have hsum : ¬ BitVec.ofNat 8 (16 * v + v') = total data := by
      intro heq
      rw [← calCheckSum_total] at heq
      have hval := congrArg BitVec.toNat heq
      have hv := hexVal_lt h₀
      have hv' := hexVal_lt h₁
      rw [BitVec.toNat_ofNat, Nat.mod_eq_of_lt (by omega)] at hval
      exact hne hval
    rw [if_neg hsum] at hrun
    rw [hbytes]
    exact hrun

/-- A stale acknowledgement in front of `OK`. -/
theorem framing_round_trip_ok :
    recvAndCheck 0 ([0x2b] ++ packing [0x4f, 0x4b] ++ []) = some ⟨.memuOk, [0x4f, 0x4b], []⟩ :=
  (framing_round_trip 0 [0x2b] [0x4f, 0x4b] [] (by decide) (by decide) (by decide)).1

end NextEmu.GdbStub.RoundTrip
