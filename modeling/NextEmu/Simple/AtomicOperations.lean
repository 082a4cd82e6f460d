import NextEmu.Simple.AccessFaults

/-!
# Atomic memory operations

AMOs on main memory in M mode against the manual. One routine on 64-bit words serves both
widths: a word of 32 bits is sign-extended when it is loaded, the source register is
taken as it is, and the result is cut off when it is stored. Of the operations only the
minimum and the maximum see the upper bits.
-/

namespace NextEmu.Simple.AtomicOperations

open NextEmu.Lib.AbortState NextEmu.Lib.BitField NextEmu.Lib.ByteMemory NextEmu.Lib.RiscV
open NextEmu.Sdk
open AccessFaults Conformance LoadStore Outcomes Translation

/-! ## What the routine stores -/

/-- The source compares with the old word like its low half: it is the sign extension of it, or
the way in which it is out of range orders it as the low half does. -/
def LowHalfDecides (op : AtomicOp) (old : BitVec 32) (src : BitVec 64) : Prop :=
  match op with
  | .min | .max =>
    -2 ^ 31 ≤ src.toInt ∧ src.toInt < 2 ^ 31 ∨
      2 ^ 31 ≤ src.toInt ∧ old.toInt ≤ (src.setWidth 32).toInt ∨
      src.toInt < -2 ^ 31 ∧ (src.setWidth 32).toInt ≤ old.toInt
  | .minu | .maxu =>
    if old.toNat < 2 ^ 31 then src.toNat < 2 ^ 32 ∨ old.toNat ≤ (src.setWidth 32).toNat
    else 2 ^ 64 - 2 ^ 32 ≤ src.toNat ∨ (src.setWidth 32).toNat ≤ old.toNat
  | _ => True

instance (op : AtomicOp) (old : BitVec 32) (src : BitVec 64) :
    Decidable (LowHalfDecides op old src) := by
  unfold LowHalfDecides
  cases op <;> infer_instance

section Values

variable {old : BitVec 32} {src : BitVec 64}

theorem low_extended (v : BitVec 32) : (v.signExtend 64).setWidth 32 = v := by
  refine BitVec.eq_of_getLsbD_eq fun i hi => ?_
  have h64 : i < 64 := by omega
  simp only [BitVec.getLsbD_setWidth, BitVec.getLsbD_signExtend, hi, h64, decide_true,
    Bool.true_and, if_true]

/-- A register and its low half, as signed numbers. -/
theorem toInt_low (src : BitVec 64) : ∃ k : Int, src.toInt = (src.setWidth 32).toInt + 2 ^ 32 * k ∧
    -2 ^ 31 ≤ (src.setWidth 32).toInt ∧ (src.setWidth 32).toInt < 2 ^ 31 := by
  refine ⟨(src.toInt - (src.setWidth 32).toInt) / 2 ^ 32, ?_⟩
  have hlt := src.isLt
  rw [BitVec.toInt_eq_toNat_cond, BitVec.toInt_eq_toNat_cond, BitVec.toNat_setWidth]
  split <;> split <;> omega

theorem toInt_extended (old : BitVec 32) : (old.signExtend 64).toInt = old.toInt :=
  BitVec.toInt_signExtend_of_le (by decide)

theorem toNat_low (src : BitVec 64) : (src.setWidth 32).toNat = src.toNat % 2 ^ 32 :=
  BitVec.toNat_setWidth ..

/-- The sign extension as an unsigned number. -/
theorem toNat_extended (old : BitVec 32) : (old.signExtend 64).toNat =
    if old.toNat < 2 ^ 31 then old.toNat else old.toNat + (2 ^ 64 - 2 ^ 32) := by
  rw [BitVec.toNat_signExtend, BitVec.toNat_setWidth, BitVec.msb_eq_decide]
  have hlt := old.isLt
  by_cases h : old.toNat < 2 ^ 31
  · rw [if_pos h, decide_eq_false (Nat.not_le.mpr h), if_neg Bool.false_ne_true]
    omega
  · rw [if_neg h, decide_eq_true (Nat.le_of_not_lt h), if_pos rfl]
    omega

/-- Two choices of one of two words, by opposite comparisons. -/
theorem pick_eq_iff {n : Nat} (p q : Prop) [Decidable p] [Decidable q] (a b : BitVec n) :
    ((if p then a else b) = if q then b else a) ↔ a = b ∨ (p ↔ ¬ q) := by
  by_cases hp : p <;> by_cases hq : q <;> simp [hp, hq, eq_comm]

theorem signed_opposite {n : Nat} (a b : BitVec n) :
    a = b ∨ (a.toInt < b.toInt ↔ ¬ b.toInt < a.toInt) := by
  rw [← BitVec.toInt_inj]
  omega

theorem unsigned_opposite {n : Nat} (a b : BitVec n) :
    a = b ∨ (a.toNat < b.toNat ↔ ¬ b.toNat < a.toNat) := by
  rw [← BitVec.toNat_inj]
  omega

/-- The signed comparisons of the routine and of the manual, which pick opposite words. -/
theorem signed_decides (old : BitVec 32) (src : BitVec 64) :
    (old = src.setWidth 32 ∨ (old.toInt < src.toInt ↔ ¬ (src.setWidth 32).toInt < old.toInt)) ↔
      LowHalfDecides .min old src := by
  obtain ⟨k, hk, hlow, hhigh⟩ := toInt_low src
  have hold := BitVec.toInt_lt (x := old)
  have hold' := BitVec.le_toInt old
  simp only [LowHalfDecides, ← BitVec.toInt_inj]
  omega

theorem signed_decides' (old : BitVec 32) (src : BitVec 64) :
    (old = src.setWidth 32 ∨ (src.toInt < old.toInt ↔ ¬ old.toInt < (src.setWidth 32).toInt)) ↔
      LowHalfDecides .max old src := by
  obtain ⟨k, hk, hlow, hhigh⟩ := toInt_low src
  have hold := BitVec.toInt_lt (x := old)
  have hold' := BitVec.le_toInt old
  simp only [LowHalfDecides, ← BitVec.toInt_inj]
  omega

/-- The unsigned ones, of which one compares in the other order. -/
theorem unsigned_decides (old : BitVec 32) (src : BitVec 64) :
    (old = src.setWidth 32 ∨
      ((old.signExtend 64).toNat < src.toNat ↔ ¬ (src.setWidth 32).toNat < old.toNat)) ↔
      LowHalfDecides .minu old src := by
  have hlow := toNat_low src
  have hold := old.isLt
  have hsrc := src.isLt
  simp only [LowHalfDecides, ← BitVec.toNat_inj, toNat_extended]
  split <;> omega

theorem unsigned_decides' (old : BitVec 32) (src : BitVec 64) :
    (old = src.setWidth 32 ∨
      (src.toNat < (old.signExtend 64).toNat ↔ ¬ old.toNat < (src.setWidth 32).toNat)) ↔
      LowHalfDecides .maxu old src := by
  have hlow := toNat_low src
  have hold := old.isLt
  have hsrc := src.isLt
  simp only [LowHalfDecides, ← BitVec.toNat_inj, toNat_extended]
  split <;> omega

/-- A word of 32 bits: the low half of the result is that of the manual when the low half of the
source decides. -/
theorem amoResult_word {op : AtomicOp} (h : op ≠ .sc) (old : BitVec 32) (src : BitVec 64) :
    ∃ w, amoResult (functOf op) src (old.signExtend 64) = some w ∧
      (w.setWidth 32 = op.value old (src.setWidth 32) ↔ LowHalfDecides op old src) := by
  have hpick : ∀ (p : Prop) [Decidable p] (a b : BitVec 64),
      (if p then a else b).setWidth 32 = if p then a.setWidth 32 else b.setWidth 32 :=
    fun p _ a b => apply_ite _ p a b
  cases op with
  | sc => exact absurd rfl h
  | swap => exact ⟨_, rfl, iff_of_true rfl trivial⟩
  | add =>
    refine ⟨_, rfl, iff_of_true ?_ trivial⟩
    rw [BitVec.setWidth_add _ _ (by decide), low_extended]
    exact BitVec.add_comm _ _
  | xor =>
    refine ⟨_, rfl, iff_of_true ?_ trivial⟩
    rw [BitVec.setWidth_xor, low_extended]
    exact BitVec.xor_comm _ _
  | and =>
    refine ⟨_, rfl, iff_of_true ?_ trivial⟩
    rw [BitVec.setWidth_and, low_extended]
    exact BitVec.and_comm _ _
  | or =>
    refine ⟨_, rfl, iff_of_true ?_ trivial⟩
    rw [BitVec.setWidth_or, low_extended]
    exact BitVec.or_comm _ _
  | min =>
    refine ⟨_, rfl, ?_⟩
    simp only [BitVec.slt, decide_eq_true_eq, hpick, low_extended, toInt_extended]
    exact (pick_eq_iff _ _ _ _).trans (signed_decides old src)
  | max =>
    refine ⟨_, rfl, ?_⟩
    simp only [BitVec.slt, decide_eq_true_eq, hpick, low_extended, toInt_extended]
    exact (pick_eq_iff _ _ _ _).trans (signed_decides' old src)
  | minu =>
    refine ⟨_, rfl, ?_⟩
    simp only [BitVec.ult, decide_eq_true_eq, hpick, low_extended]
    exact (pick_eq_iff _ _ _ _).trans (unsigned_decides old src)
  | maxu =>
    refine ⟨_, rfl, ?_⟩
    simp only [BitVec.ult, decide_eq_true_eq, hpick, low_extended]
    exact (pick_eq_iff _ _ _ _).trans (unsigned_decides' old src)

/-- A word of 64 bits. -/
theorem amoResult_double {op : AtomicOp} (h : op ≠ .sc) (old src : BitVec 64) :
    amoResult (functOf op) src old = some (op.value old src) := by
  cases op with
  | sc => exact absurd rfl h
  | swap => rfl
  | add => exact congrArg some (BitVec.add_comm _ _)
  | xor => exact congrArg some (BitVec.xor_comm _ _)
  | and => exact congrArg some (BitVec.and_comm _ _)
  | or => exact congrArg some (BitVec.or_comm _ _)
  | min =>
    refine congrArg some ?_
    simp only [BitVec.slt, decide_eq_true_eq, AtomicOp.value]
    exact (pick_eq_iff _ _ _ _).mpr (signed_opposite old src)
  | max =>
    refine congrArg some ?_
    simp only [BitVec.slt, decide_eq_true_eq, AtomicOp.value]
    exact (pick_eq_iff _ _ _ _).mpr ((signed_opposite src old).imp_left Eq.symm)
  | minu =>
    refine congrArg some ?_
    simp only [BitVec.ult, decide_eq_true_eq, AtomicOp.value]
    exact (pick_eq_iff _ _ _ _).mpr (unsigned_opposite old src)
  | maxu =>
    refine congrArg some ?_
    simp only [BitVec.ult, decide_eq_true_eq, AtomicOp.value]
    exact (pick_eq_iff _ _ _ _).mpr ((unsigned_opposite src old).imp_left Eq.symm)

end Values

/-! ## The step -/

section Step

variable {δ : Type} [SlaveIOI δ] {s : Machine (AddrBus δ)}

/-- An AMO on main memory: it hands out what it has read, and stores the low bytes of its result. -/
theorem amo_bare {t : Machine (AddrBus δ)} {a : BitVec 64} {n : Nat} {op : AMOFunct}
    {src w : BitVec 64} (hbare : t.core.dataBare = true) (hn : n = 4 ∨ n = 8)
    (h : Contains t.bus a n)
    (hw : amoResult op src ((word (contents t.bus) a n).signExtend 64) = some w) :
    vaddrAtomicMemOperation a n op src t =
      .ok (Exec.ok, (word (contents t.bus) a n).signExtend 64) { t with
        bus := (t.bus.store a n (w.setWidth (8 * n))).2
        trace := .store a n :: .load a n :: t.trace } := by
  have hload : SlaveIOI.load t.bus a n = ((.success, word (contents t.bus) a n), t.bus) :=
    load_contained h
  have hstore : (SlaveIOI.store t.bus a n (w.setWidth (8 * n))).1 = .success :=
    (store_contained h _).1
  have hamo : paAmoOp a n op src t =
      .ok (true, (word (contents t.bus) a n).signExtend 64) { t with
        bus := (t.bus.store a n (w.setWidth (8 * n))).2
        trace := .store a n :: .load a n :: t.trace } := by
    unfold paAmoOp
    rw [bind_of_ok (DataPaths.amoLoad_run hn a t), hload]
    simp only [ne_eq, not_true_eq_false, if_false, hw]
    show EStateM.Result.ok (decide ((SlaveIOI.store t.bus a n _).1 = .success), _) _ = _
    rw [hstore]
    rfl
  unfold vaddrAtomicMemOperation
  rw [assert_bind hn, bind_of_ok (getCore_run t), if_pos hbare]
  unfold physAmo
  rw [bind_of_ok hamo]
  rfl

/-- The next step is one of M mode that takes no interrupt and fetches the AMO, no mode is lent,
and main memory contains the bytes of the access. -/
structure Reaches (s : Machine (AddrBus δ)) (op : AtomicOp) (double : Bool) (order : BitVec 2)
    (rd rs1 rs2 : Reg) : Prop where
  amo : op ≠ .sc
  mode : s.core.nextPrivMode = .mMode
  mprv : s.core.status.getLsbD MStatus.mprv = false
  fetched : fetchedWord s = some (AtomicInst.amo op double order rd rs1 rs2).encode
  inside : Contains s.bus (s.core.gpr rs1) (atomicBytes double)

/-- The step does what the manual says: the old word, sign-extended, goes to `rd`, the result of
the operation on words of its width replaces it, and no other byte and no other register differs. -/
structure Operates (s : Machine (AddrBus δ)) (op : AtomicOp) (double : Bool) (rd rs1 rs2 : Reg) :
    Prop where
  core : (final step s).core = retiredAt s.core rd
    ((word (contents s.bus) (s.core.gpr rs1) (atomicBytes double)).signExtend 64)
    (s.core.currentProgramCounter + 4)
  memory : contents (final step s).bus = Write.apply
    ⟨s.core.gpr rs1, atomicBytes double,
      op.value (word (contents s.bus) (s.core.gpr rs1) (atomicBytes double))
        ((s.core.gpr rs2).setWidth _)⟩ (contents s.bus)
  returns : returns step s = statusBlankZero s.core.status

variable {op : AtomicOp} {double : Bool} {order : BitVec 2} {rd rs1 rs2 : Reg}

/-- What the step leaves, whatever the routine computes. -/
theorem Reaches.stored (h : Reaches s op double order rd rs1 rs2) {w : BitVec 64}
    (hw : amoResult (functOf op) (s.core.gpr rs2)
      ((word (contents s.bus) (s.core.gpr rs1) (atomicBytes double)).signExtend 64) = some w) :
    (final step s).core = retiredAt s.core rd
        ((word (contents s.bus) (s.core.gpr rs1) (atomicBytes double)).signExtend 64)
        (s.core.currentProgramCounter + 4) ∧
      contents (final step s).bus = Write.apply
        ⟨s.core.gpr rs1, atomicBytes double, w.setWidth _⟩ (contents s.bus) ∧
      returns step s = statusBlankZero s.core.status := by
  obtain ⟨hcore, hquiet⟩ := decoding_silent h.fetched
  have hbus : region (decoding s (AtomicInst.amo op double order rd rs1 rs2).encode).bus =
      region s.bus := region_view.quiet hquiet
  have hsame : contents (decoding s (AtomicInst.amo op double order rd rs1 rs2).encode).bus =
      contents s.bus := congrArg contentsOf hbus
  have hbare : (decoding s (AtomicInst.amo op double order rd rs1 rs2).encode).core.dataBare =
      true := by
    have hmode : s.core.sampled.currentPrivMode = .mMode := h.mode
    have hmprv : s.core.sampled.status.getLsbD MStatus.mprv = false := h.mprv
    unfold RV64Core.dataBare
    rw [hcore, hmode, hmprv]
    rfl
  have hlen : isCompressed (AtomicInst.amo op double order rd rs1 rs2).encode = false := by
    unfold isCompressed AtomicInst.encode
    rw [IntegerConformance.opcode_rType]
    rfl
  have hinside := h.inside.congr hbus
  have hrun := amo_run h.amo double order rd rs1 rs2
    (decoding s (AtomicInst.amo op double order rd rs1 rs2).encode)
  have hgpr : (decoding s (AtomicInst.amo op double order rd rs1 rs2).encode).core.gpr =
      s.core.gpr := by
    rw [hcore]
    rfl
  rw [hgpr] at hrun
  rw [← hsame] at hw
  rw [bind_of_ok (amo_bare hbare (atomicBytes_cases double) hinside hw)] at hrun
  obtain ⟨hfinal, hreturns⟩ := step_end h.fetched hrun rfl
  refine ⟨?_, ?_, ?_⟩
  · rw [hfinal, ← hsame]
    refine (congrArg RV64Core.retire (congrArg (RV64Core.advancePC · _)
      (congrArg (RV64Core.setGPR · _ _) hcore))).trans ?_
    refine (retiredAt_fall s.core rd _ rfl).trans ?_
    rw [hlen]
    rfl
  · rw [hfinal, ← hsame]
    exact (store_contained hinside _).2
  · rw [hreturns]
    refine congrArg statusBlankZero ?_
    refine (congrArg (·.status) (congrArg (RV64Core.setGPR · _ _) hcore)).trans ?_
    exact setGPR_status s.core.sampled _ _

/-- The memory behind the step is that of the manual when the value that the routine stores is. -/
theorem Reaches.operates_iff (h : Reaches s op double order rd rs1 rs2) {w : BitVec 64}
    (hw : amoResult (functOf op) (s.core.gpr rs2)
      ((word (contents s.bus) (s.core.gpr rs1) (atomicBytes double)).signExtend 64) = some w) :
    Operates s op double rd rs1 rs2 ↔
      w.setWidth (8 * atomicBytes double) =
        op.value (word (contents s.bus) (s.core.gpr rs1) (atomicBytes double))
          ((s.core.gpr rs2).setWidth _) := by
  obtain ⟨hcore, hmemory, hreturns⟩ := h.stored hw
  have hbytes : atomicBytes double ≤ 2 ^ 64 := by
    rcases atomicBytes_cases double with hn | hn
    · rw [hn]
      decide
    · rw [hn]
      decide
  constructor
  · intro ho
    exact Write.value_eq hbytes (hmemory.symm.trans ho.memory)
  · intro heq
    rw [heq] at hmemory
    exact ⟨hcore, hmemory, hreturns⟩

/-- An AMO does what the manual says exactly when it is one of 64 bits or the low half of the source
decides its comparison. -/
theorem atomic_operation (s : Machine (AddrBus δ)) (op : AtomicOp) (double : Bool)
    (order : BitVec 2) (rd rs1 rs2 : Reg) (h : Reaches s op double order rd rs1 rs2) :
    Operates s op double rd rs1 rs2 ↔
      double = true ∨
        LowHalfDecides op (word (contents s.bus) (s.core.gpr rs1) 4) (s.core.gpr rs2) := by
  cases double with
  | true =>
    have hw := amoResult_double h.amo (word (contents s.bus) (s.core.gpr rs1) 8) (s.core.gpr rs2)
    have hextended : (word (contents s.bus) (s.core.gpr rs1) (atomicBytes true)).signExtend 64 =
        word (contents s.bus) (s.core.gpr rs1) 8 := BitVec.signExtend_eq _
    refine iff_of_true ?_ (.inl rfl)
    refine (h.operates_iff ((congrArg _ hextended).trans hw)).mpr ?_
    show BitVec.setWidth 64 _ = op.value _ ((s.core.gpr rs2).setWidth 64)
    rw [BitVec.setWidth_eq, BitVec.setWidth_eq]
    rfl
  | false =>
    obtain ⟨w, hw, hiff⟩ :=
      amoResult_word h.amo (word (contents s.bus) (s.core.gpr rs1) 4) (s.core.gpr rs2)
    refine (h.operates_iff hw).trans (hiff.trans ?_)
    simp

end Step

/-- An AMO on a zero word, with the source in `x2`. -/
def amoMachine (op : AtomicOp) (src : BitVec 64) : Machine (AddrBus Empty) :=
  Machine.start { (default : RV64Core) with
    currentProgramCounter := 0x80000000, nextPrivMode := .mMode
    gpr := fun r => if r = 1 then 0x80000100 else if r = 2 then src else 0 }
    (memoryBus fun a => (AtomicInst.amo op false 0 3 1 2).encode.extractLsb' (8 * a) 8)

/-- The least word of 32 bits, not sign-extended in the register, is not the minimum. -/
theorem minimum_missed :
    ¬ ∀ (s : Machine (AddrBus Empty)) (op : AtomicOp) (double : Bool) (order : BitVec 2)
      (rd rs1 rs2 : Reg), Reaches s op double order rd rs1 rs2 →
      Operates s op double rd rs1 rs2 := by
  intro hall
  have hreaches : Reaches (amoMachine .min 0x80000000) .min false 0 3 1 2 :=
    ⟨nofun, rfl, by decide, by decide +kernel, ⟨rfl, by decide, by decide⟩⟩
  have hdue := congrFun (hall _ _ _ _ _ _ _ hreaches).memory 0x80000103
  exact absurd hdue (by decide +kernel)

theorem atomic_operation_max :
    Operates (amoMachine .max 0x100000005) .max false 3 1 2 :=
  (atomic_operation (amoMachine .max 0x100000005) .max false 0 3 1 2
    ⟨nofun, rfl, by decide, by decide +kernel, ⟨rfl, by decide, by decide⟩⟩).mpr
    (.inr (by decide +kernel))

end NextEmu.Simple.AtomicOperations
