import NextEmu.Simple.PrivModes

/-!
# The interrupt registers below M mode

`sie` and `sip` show the part of `mie` and `mip` under `S_MODE_INT_MASK`, and a write
through them replaces that part. Nothing else reaches the two registers from below M
mode. `mideleg` has no say in either: a bit that M mode has kept for itself is written
as one that it has delegated.
-/

namespace NextEmu.Simple.Delegation

open NextEmu.Lib.AbortState NextEmu.Lib.BitField NextEmu.Sdk
open Boundary Conformance Outcomes PrivModes Translation

/-- The interrupt registers that have a view in S mode. -/
inductive View
  | enable
  | pending
  deriving DecidableEq, Repr

namespace View

/-- `mie` and `mip`. -/
def reg : View → RV64Core → BitVec 64
  | enable, c => c.csrIntEnable
  | pending, c => c.csrIntPending

/-- The number of `sie` and of `sip`. -/
def number : View → BitVec 12
  | enable => 0x104
  | pending => 0x144

/-- Those two. -/
def csr : View → CSRAddr
  | enable => .sie
  | pending => .sip

/-- The bits that `preExec` takes from the interrupt inputs. -/
def resampled : View → List Nat
  | enable => []
  | pending => [11, 3, 7, 9]

end View

/-- The value that an instruction writes to the CSR of a number. -/
def dataWritten (n : BitVec 12) (c : RV64Core) (inst : BitVec 32) : Option (BitVec 64) :=
  if OpCode.ofBits (RVInst.opcode inst) = some .system ∧ field inst 20 12 = n ∧
      c.csrOpPermissionCheck n true = true then csrWritten c inst
  else none

/-- A bit of a register of which a write has replaced the part under the mask. -/
def viewBit (old : BitVec 64) (written : Option (BitVec 64)) (i : Nat) : Bool :=
  match written with
  | some data => if sModeIntMask.getLsbD i then data.getLsbD i else old.getLsbD i
  | none => old.getLsbD i

variable {β : Type} [SlaveAtomicIOI β]

/-- The value that the next step writes to the CSR of a number. -/
def stepWrites (n : BitVec 12) (s : Machine β) : Option (BitVec 64) :=
  (fetchedWord s).bind (dataWritten n s.core.sampled)

section Registers

variable {w : View} {c c' : RV64Core} {inst : BitVec 32}

theorem reg_congr (he : c'.csrIntEnable = c.csrIntEnable)
    (hp : c'.csrIntPending = c.csrIntPending) : w.reg c' = w.reg c := by
  cases w with
  | enable => exact he
  | pending => exact hp

theorem setGPR_reg (c : RV64Core) (rd : BitVec 5) (value : BitVec 64) :
    w.reg (c.setGPR rd value) = w.reg c := by
  unfold RV64Core.setGPR
  split
  · rfl
  · exact reg_congr rfl rfl

theorem retire_reg (c : RV64Core) (l : StepLocals) : w.reg (c.advancePC l).retire = w.reg c := by
  unfold RV64Core.advancePC
  split
  · exact reg_congr rfl rfl
  · split
    · exact reg_congr rfl rfl
    · exact reg_congr rfl rfl

theorem trapped_reg (c : RV64Core) (cause : Cause) (tval : BitVec 64) :
    w.reg (c.trapped cause tval) = w.reg c := by
  unfold RV64Core.trapped
  dsimp only
  split
  · exact reg_congr rfl rfl
  · exact reg_congr rfl rfl

theorem plain_reg (h : PlainEffect c c') : w.reg c' = w.reg c := by
  cases h with
  | gpr rd value => exact setGPR_reg c rd value
  | jump rd value pc =>
    have hset := setGPR_reg (w := w) c rd value
    cases w with
    | enable => exact hset
    | pending => exact hset

theorem ofNumber_csr {n : BitVec 12} (h : CSRAddr.ofNumber n = some w.csr) : n = w.number := by
  cases w
  all_goals
    unfold CSRAddr.ofNumber at h
    split at h <;> first | rfl | cases h

/-- A write of another CSR of S mode. -/
theorem csrWrite_reg {n : BitVec 12} {data : BitVec 64}
    (hlow : ∀ a, CSRAddr.ofNumber n = some a → a ∈ lowerCSRs) (hn : n ≠ w.number)
    (h : c.csrWrite data (CSRAddr.ofNumber n) = .ok (some c')) : w.reg c' = w.reg c := by
  cases ha : CSRAddr.ofNumber n with
  | none =>
    rw [ha] at h
    cases h
  | some a =>
    have hmem := hlow a ha
    have hne : a ≠ w.csr := fun haw => hn (ofNumber_csr (haw ▸ ha))
    rw [ha] at h
    simp only [lowerCSRs, List.mem_cons, List.not_mem_nil, or_false] at hmem
    rcases hmem with rfl | rfl | rfl | rfl | rfl | rfl | rfl | rfl | rfl | rfl
    -- the two views themselves are left for the register that is not theirs
    case inr.inl =>
      cases w with
      | enable => exact absurd rfl hne
      | pending =>
        cases h
        rfl
    case inr.inr.inr.inr.inr.inr.inr.inr.inl =>
      cases w with
      | enable =>
        cases h
        rfl
      | pending => exact absurd rfl hne
    case inr.inr.inr.inr.inr.inr.inr.inr.inr =>
      simp only [RV64Core.csrWrite] at h
      split at h <;> cases h
      exact reg_congr rfl rfl
    all_goals
      cases h
      exact reg_congr rfl rfl

/-- Below M mode an instruction that does not write the view keeps the register. -/
theorem code_reg (hp : c.currentPrivMode = .uMode ∨ c.currentPrivMode = .sMode)
    (hnone : dataWritten w.number c inst = none) (he : CodeEffect inst c c') :
    w.reg c' = w.reg c := by
  rcases he with he | ⟨hop, he⟩
  · exact plain_reg he
  cases he with
  | plain effect => exact plain_reg effect
  | csr data c'' value permitted data_eq written =>
    rw [setGPR_reg]
    refine csrWrite_reg (fun a ha => lower_csr hp permitted ha) (fun hn => ?_) written
    unfold dataWritten at hnone
    rw [if_pos ⟨hop, hn, hn ▸ permitted⟩, data_eq] at hnone
    cases hnone
  | mret hinst hmode =>
    rcases hp with h | h
    · rw [h] at hmode
      cases hmode
    · rw [h] at hmode
      cases hmode
  | sret hinst hmode => exact reg_congr rfl rfl

/-- A write through the view replaces the part under the mask. -/
theorem csrWrite_view (data : BitVec 64) :
    ∃ c', c.csrWrite data (CSRAddr.ofNumber w.number) = .ok (some c') ∧
      w.reg c' = (w.reg c &&& ~~~ sModeIntMask) ||| (data &&& sModeIntMask) := by
  cases w with
  | enable => exact ⟨_, rfl, rfl⟩
  | pending => exact ⟨_, rfl, rfl⟩

theorem viewBit_write (old data : BitVec 64) (i : Nat) :
    ((old &&& ~~~ sModeIntMask) ||| (data &&& sModeIntMask)).getLsbD i =
      viewBit old (some data) i := by
  simp only [viewBit, BitVec.getLsbD_or, BitVec.getLsbD_and, BitVec.getLsbD_not]
  by_cases hi : i < 64
  · cases sModeIntMask.getLsbD i <;> simp [hi]
  · have hge : 64 ≤ i := by omega
    simp [BitVec.getLsbD_of_ge _ _ hge]

/-- Sampling the inputs leaves the other bits. -/
theorem sampled_reg {i : Nat} (hi : i ∉ w.resampled) :
    (w.reg c.sampled).getLsbD i = (w.reg c).getLsbD i := by
  cases w with
  | enable => rfl
  | pending =>
    simp only [View.resampled, List.mem_cons, List.not_mem_nil, or_false, not_or] at hi
    show (setBit (setBit (setBit (setBit c.csrIntPending 11 _) 3 _) 7 _) 9 _).getLsbD i = _
    rw [getLsbD_setBit_ne _ _ hi.2.2.2, getLsbD_setBit_ne _ _ hi.2.2.1,
      getLsbD_setBit_ne _ _ hi.2.1, getLsbD_setBit_ne _ _ hi.1]
    rfl

end Registers

section Steps

variable {w : View} {s t : Machine β}

theorem step_unwritten (hp : s.core.nextPrivMode = .uMode ∨ s.core.nextPrivMode = .sMode)
    (hnone : stepWrites w.number s = none) (h : step s = .ok () t) :
    w.reg t.core = w.reg s.core.sampled := by
  cases wp_ok (step_effect s) h with
  | trapped cause tval hcore =>
    rw [hcore]
    have hend : ∀ c, w.reg (trapEnd c) = w.reg c := fun c => reg_congr rfl rfl
    rw [hend, trapped_reg]
  | done inst c l hword effect hcore =>
    unfold stepWrites at hnone
    rw [hword] at hnone
    rw [hcore, retire_reg]
    exact code_reg hp hnone effect

/-- What an instruction that writes the CSR of a number is. -/
theorem stepWrites_some {n : BitVec 12} {data : BitVec 64} (h : stepWrites n s = some data) :
    ∃ inst, fetchedWord s = some inst ∧ OpCode.ofBits (RVInst.opcode inst) = some .system ∧
      field inst 20 12 = n ∧ s.core.sampled.csrOpPermissionCheck n true = true ∧
      csrWritten s.core.sampled inst = some data := by
  unfold stepWrites at h
  obtain ⟨inst, hw, hdata⟩ := Option.bind_eq_some_iff.mp h
  unfold dataWritten at hdata
  split at hdata
  case isFalse => cases hdata
  rename_i hcond
  exact ⟨inst, hw, hcond.1, hcond.2.1, hcond.2.2, hdata⟩

/-- What a step that writes the CSR of a number leaves: the write itself, then the old value in
`rd`. -/
theorem written_step {n : BitVec 12} {data : BitVec 64} {c' : RV64Core}
    (hsome : stepWrites n s = some data)
    (hwrite : s.core.sampled.csrWrite data (CSRAddr.ofNumber n) = .ok (some c'))
    (h : step s = .ok () t) :
    ∃ rd v l, t.core = ((c'.setGPR rd v).advancePC l).retire := by
  obtain ⟨inst, hword, hop, hn, hperm, hdata⟩ := stepWrites_some hsome
  rw [← hn] at hperm hwrite
  exact ⟨_, csr_step hword hop hperm hdata hwrite h⟩

theorem step_written {data : BitVec 64} (hsome : stepWrites w.number s = some data)
    (h : step s = .ok () t) :
    w.reg t.core =
      (w.reg s.core.sampled &&& ~~~ sModeIntMask) ||| (data &&& sModeIntMask) := by
  obtain ⟨c', hwrite, hreg⟩ := csrWrite_view (w := w) (c := s.core.sampled) data
  obtain ⟨rd, v, l, hcore⟩ := written_step hsome hwrite h
  rw [hcore, retire_reg, setGPR_reg, hreg]

/-- A step from U or S mode leaves every bit of `mie` and `mip` that `preExec` does not resample,
except that an instruction which writes `sie` or `sip` replaces the bits of `S_MODE_INT_MASK`. -/
theorem views_written (s t : Machine β)
    (hp : s.core.nextPrivMode = .uMode ∨ s.core.nextPrivMode = .sMode)
    (h : step { s with trace := [] } = .ok () t) (w : View) (i : Nat) (hi : i ∉ w.resampled) :
    (w.reg t.core).getLsbD i =
      viewBit (w.reg s.core) (stepWrites w.number { s with trace := [] }) i := by
  cases hw : stepWrites w.number { s with trace := [] } with
  | none =>
    rw [step_unwritten (s := { s with trace := [] }) hp hw h]
    exact sampled_reg hi
  | some data =>
    rw [step_written hw h, viewBit_write]
    have hsampled := sampled_reg (w := w) (c := s.core) hi
    simp only [viewBit]
    rw [hsampled]

end Steps

/-- S mode code that clears `sie`, with a supervisor interrupt that M mode has enabled and kept. -/
def clearMachine : Machine (AddrBus Empty) :=
  Machine.start { (default : RV64Core) with
    currentProgramCounter := 0x80000000, currentPrivMode := .sMode, nextPrivMode := .sMode
    csrIntEnable := 1#64 <<< 1 }
    -- csrw sie, x0
    (memoryBus fun a => (0x10401073#32).extractLsb' (8 * a) 8)

/-- That bit is not delegated, and is cleared. -/
theorem kept_bit_cleared :
    ¬ ∀ s t : Machine (AddrBus Empty),
      s.core.nextPrivMode = .uMode ∨ s.core.nextPrivMode = .sMode →
      step { s with trace := [] } = .ok () t →
      ¬ (traps t.trace ≠ [] ∧ t.core.nextPrivMode = .mMode) →
      (∀ i, s.core.csrMIntDelegation.getLsbD i = false →
        t.core.csrIntEnable.getLsbD i = s.core.csrIntEnable.getLsbD i) ∧
      (∀ i, i ∉ View.pending.resampled → s.core.csrMIntDelegation.getLsbD i = false →
        t.core.csrIntPending.getLsbD i = s.core.csrIntPending.getLsbD i) := by
  intro hall
  have hkept := (hall clearMachine (final step clearMachine) (.inr rfl)
    (eq_final (by decide +kernel)) (by decide +kernel)).1 1 (by decide)
  have hcleared : (final step clearMachine).core.csrIntEnable.getLsbD 1 = false := by
    decide +kernel
  rw [hcleared] at hkept
  cases hkept

theorem views_written_clear :
    (final step clearMachine).core.csrIntEnable.getLsbD 1 =
      viewBit clearMachine.core.csrIntEnable (stepWrites 0x104 clearMachine) 1 :=
  views_written clearMachine _ (.inr rfl) (eq_final (by decide +kernel)) .enable 1 nofun

end NextEmu.Simple.Delegation
