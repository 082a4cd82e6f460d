import NextEmu.Simple.Privilege

/-!
# What a write to a control register changes

Several CSRs are views of one word of the core: `sstatus` of `status`, `sie` and
`sip` of the two interrupt words, `cycle` and `time` of the cycle counter. A write
to a CSR changes its own word at most, and a read depends on its own word alone, so
that only the CSRs over one word can be seen to change together.
-/

namespace NextEmu.Simple

open NextEmu.Lib.BitField

/-- The words of the core that CSRs are views of. -/
inductive CSRWord
  | hartID | status | isa | medeleg | mideleg | intEnable | mtvec | mcounteren
  | mscratch | mepc | mcause | mtval | intPending | cycleNum | minstret
  | stvec | scounteren | sscratch | sepc | scause | stval | satp
  deriving DecidableEq, Repr

/-- What the core holds in a word. -/
def RV64Core.word (c : RV64Core) : CSRWord → BitVec 64
  | .hartID => c.rvHartID
  | .status => c.status
  | .isa => c.csrMachineISA
  | .medeleg => c.csrMExceptionDelegation
  | .mideleg => c.csrMIntDelegation
  | .intEnable => c.csrIntEnable
  | .mtvec => c.csrMTrapVecBaseAddr
  | .mcounteren => c.csrMCounterEN
  | .mscratch => c.csrMscratch
  | .mepc => c.csrMExceptionPC
  | .mcause => c.csrMachineCause
  | .mtval => c.csrMachineTrapVal
  | .intPending => c.csrIntPending
  | .cycleNum => c.csrMCycleNum
  | .minstret => c.minstret
  | .stvec => c.csrSTrapVecBaseAddr
  | .scounteren => c.csrSCounterEN
  | .sscratch => c.csrSscratch
  | .sepc => c.csrSExceptionPC
  | .scause => c.csrSupervisorCause
  | .stval => c.csrSupervisorTrapVal
  | .satp => c.satp

/-- The word that a CSR is a view of; a CSR that reads as a constant has none. -/
def CSRAddr.word : CSRAddr → Option CSRWord
  | .mhartid => some .hartID
  | .mstatus | .sstatus => some .status
  | .misa => some .isa
  | .medeleg => some .medeleg
  | .mideleg => some .mideleg
  | .mie | .sie => some .intEnable
  | .mtvec => some .mtvec
  | .mcounteren => some .mcounteren
  | .mscratch => some .mscratch
  | .mepc => some .mepc
  | .mcause => some .mcause
  | .mtval => some .mtval
  | .mip | .sip => some .intPending
  | .mcycle | .cycle | .time => some .cycleNum
  | .minstret => some .minstret
  | .stvec => some .stvec
  | .scounteren => some .scounteren
  | .sscratch => some .sscratch
  | .sepc => some .sepc
  | .scause => some .scause
  | .stval => some .stval
  | .satp => some .satp
  | .mvendorid | .marchid | .mimpid | .mconfigptr | .tselect | .tdata1 => none

/-- What a CSR shows of its word. -/
def CSRAddr.view : CSRAddr → BitVec 64 → BitVec 64
  | .sstatus, v => sstatusOf v
  | .sie, v => v &&& sModeIntMask
  | .sip, v => v &&& sModeIntMask
  | _, v => v

variable {c c' : RV64Core} {data : BitVec 64} {a b : CSRAddr}

/-- A read gives the view of the word, where there is one. -/
theorem csrRead_view {x : BitVec 64} {w : CSRWord} (hw : a.word = some w)
    (h : c.csrRead (some a) = some x) : x = a.view (c.word w) := by
  cases a <;> cases hw <;> simp only [RV64Core.csrRead] at h
  case satp | cycle =>
    split at h
    · cases h
    · cases h
      rfl
  all_goals
    cases h
    rfl

/-- Where there is none, every read gives the same. -/
theorem csrRead_const {x y : BitVec 64} (hw : a.word = none) (hx : c.csrRead (some a) = some x)
    (hy : c'.csrRead (some a) = some y) : y = x := by
  cases a <;> cases hw <;> exact Option.some.inj (hy.symm.trans hx)

/-- A write changes no word but its own. -/
theorem csrWrite_word {w : CSRWord} (hw : a.word ≠ some w)
    (h : c.csrWrite data (some a) = .ok (some c')) : c'.word w = c.word w := by
  cases a <;> simp only [RV64Core.csrWrite] at h
  case mtvec =>
    split at h <;> cases h
    cases w <;> first | rfl | exact absurd rfl hw
  case satp =>
    split at h <;> cases h
    cases w <;> first | rfl | exact absurd rfl hw
  all_goals
    cases h
    try cases w <;> first | rfl | exact absurd rfl hw

/-- What is read of a CSR over another word than the one written. -/
theorem csrWrite_read {x y : BitVec 64} (hne : a.word = none ∨ b.word = none ∨ a.word ≠ b.word)
    (h : c.csrWrite data (some a) = .ok (some c')) (hx : c.csrRead (some b) = some x)
    (hy : c'.csrRead (some b) = some y) : y = x := by
  cases hb : b.word with
  | none => exact csrRead_const hb hx hy
  | some w =>
    have ha : a.word ≠ some w := by
      rintro ha
      rw [ha, hb] at hne
      rcases hne with hne | hne | hne
      · cases hne
      · cases hne
      · exact hne rfl
    rw [csrRead_view hb hx, csrRead_view hb hy, csrWrite_word ha h]

/-! ## The views of S mode -/

/-- The fields of `CSReg_SStatus_t`, as bits of `mstatus`. -/
def sstatusMask : BitVec 64 := 0x80000003000de762

theorem sstatusOf_eq (status : BitVec 64) : sstatusOf status = status &&& sstatusMask := by
  have sie := copyBit (BitVec.and_zero (x := status)).symm SStatus.sie
  have spie := copyBit sie SStatus.spie
  have spp := copyBit (copyBit spie SStatus.ube) SStatus.spp
  have xs := copyField (copyField (copyField spp MStatus.vs 2) MStatus.fs 2) MStatus.xs 2
  have mxr := copyBit (copyBit xs SStatus.sum) SStatus.mxr
  exact (copyBit (copyField mxr MStatus.uxl 2) SStatus.sd).trans
    (congrArg (status &&& ·) (by decide))

theorem writeSStatus_and_not (status data : BitVec 64) :
    writeSStatus status data &&& ~~~ sstatusMask = status &&& ~~~ sstatusMask := by
  unfold writeSStatus
  dsimp only
  rw [setBit_and_not (by decide), setBit_and_not (by decide), setBit_and_not (by decide),
    setBit_and_not (by decide), setBit_and_not (by decide)]

/-! ## By number -/

namespace CSRFrame

/-- A call of `csrWrite`: what it returns and the core that it leaves. -/
def csrWriteCall (c : RV64Core) (csrIndex : BitVec 12) (csrData : BitVec 64) :
    Except Assertion (Bool × RV64Core) :=
  match c.csrWrite csrData (CSRAddr.ofNumber csrIndex) with
  | .error e => .error e
  | .ok none => .ok (false, c)
  | .ok (some c') => .ok (true, c')

/-- The value that `csrRead` gives for a number. -/
def readNumber (c : RV64Core) (csrIndex : BitVec 12) : Option (BitVec 64) :=
  c.csrRead (CSRAddr.ofNumber csrIndex)

/-- The CSRs that show one word under several numbers: `mstatus` and `sstatus`, `mie` and `sie`,
`mip` and `sip`, `mcycle` and `cycle` and `time`. -/
def aliasGroups : List (List (BitVec 12)) :=
  [[0x300, 0x100], [0x304, 0x104], [0x344, 0x144], [0xb00, 0xc00, 0xc01]]

def Aliased (a b : BitVec 12) : Prop := ∃ group ∈ aliasGroups, a ∈ group ∧ b ∈ group

instance (a b : BitVec 12) : Decidable (Aliased a b) :=
  inferInstanceAs (Decidable (∃ group ∈ aliasGroups, a ∈ group ∧ b ∈ group))

/-- A register that S mode sees a part of: the two numbers, and the bits that are seen. -/
structure SupervisorView where
  view : BitVec 12
  register : BitVec 12
  bits : BitVec 64
  deriving DecidableEq

def supervisorViews : List SupervisorView :=
  [⟨0x100, 0x300, sstatusMask⟩, ⟨0x104, 0x304, sModeIntMask⟩, ⟨0x144, 0x344, sModeIntMask⟩]

/-- The number of a CSR. -/
def number : CSRAddr → BitVec 12
  | .cycle => 0xc00
  | .time => 0xc01
  | .sstatus => 0x100
  | .sie => 0x104
  | .stvec => 0x105
  | .scounteren => 0x106
  | .sscratch => 0x140
  | .sepc => 0x141
  | .scause => 0x142
  | .stval => 0x143
  | .sip => 0x144
  | .satp => 0x180
  | .mvendorid => 0xf11
  | .marchid => 0xf12
  | .mimpid => 0xf13
  | .mhartid => 0xf14
  | .mconfigptr => 0xf15
  | .mstatus => 0x300
  | .misa => 0x301
  | .medeleg => 0x302
  | .mideleg => 0x303
  | .mie => 0x304
  | .mtvec => 0x305
  | .mcounteren => 0x306
  | .mscratch => 0x340
  | .mepc => 0x341
  | .mcause => 0x342
  | .mtval => 0x343
  | .mip => 0x344
  | .mcycle => 0xb00
  | .minstret => 0xb02
  | .tselect => 0x7a0
  | .tdata1 => 0x7a1

theorem ofNumber_some {n : BitVec 12} {a : CSRAddr} (h : CSRAddr.ofNumber n = some a) :
    n = number a := by
  unfold CSRAddr.ofNumber at h
  split at h <;> cases h <;> rfl

/-- Two CSRs over one word are the same or of one group. -/
theorem aliased_of_word {a b : CSRAddr} {w : CSRWord} (ha : a.word = some w)
    (hb : b.word = some w) : number b = number a ∨ Aliased (number a) (number b) := by
  cases a <;> cases ha <;> cases b <;> cases hb <;> decide

variable {c c' : RV64Core} {a b : BitVec 12} {data : BitVec 64}

/-- A call that returned true is a `csrWrite` of a known CSR. -/
theorem csrWriteCall_true (h : csrWriteCall c a data = .ok (true, c')) :
    ∃ r, CSRAddr.ofNumber a = some r ∧ c.csrWrite data (some r) = .ok (some c') := by
  unfold csrWriteCall at h
  cases hr : CSRAddr.ofNumber a with
  | none =>
    rw [hr] at h
    cases h
  | some r =>
    rw [hr] at h
    refine ⟨r, rfl, ?_⟩
    split at h
    · cases h
    · cases h
    · rename_i d hd
      cases h
      exact hd

theorem csrWriteCall_false (h : csrWriteCall c a data = .ok (false, c')) : c' = c := by
  unfold csrWriteCall at h
  split at h <;> cases h
  rfl

/-- A read that changes is one of the written CSR, under its own number or another of its group. -/
theorem changed_aliased {x y : BitVec 64} (h : csrWriteCall c a data = .ok (true, c'))
    (hx : readNumber c b = some x) (hy : readNumber c' b = some y) (hne : y ≠ x) :
    b = a ∨ Aliased a b := by
  obtain ⟨r, hr, hwrite⟩ := csrWriteCall_true h
  unfold readNumber at hx hy
  cases hq : CSRAddr.ofNumber b with
  | none =>
    rw [hq] at hx
    cases hx
  | some q =>
    rw [hq] at hx hy
    rw [ofNumber_some hr, ofNumber_some hq]
    cases hrw : r.word with
    | none => exact absurd (csrWrite_read (.inl hrw) hwrite hx hy) hne
    | some w =>
      by_cases hqw : q.word = some w
      · exact aliased_of_word hrw hqw
      · have hother : r.word ≠ q.word := fun heq => hqw (heq.symm.trans hrw)
        exact absurd (csrWrite_read (.inr (.inr hother)) hwrite hx hy) hne

/-- A view of S mode reads as its bits of the register. -/
theorem view_reads {s : SupervisorView} (hs : s ∈ supervisorViews) (c : RV64Core) :
    ∃ x, readNumber c s.register = some x ∧ readNumber c s.view = some (x &&& s.bits) := by
  simp only [supervisorViews, List.mem_cons, List.not_mem_nil, or_false] at hs
  rcases hs with rfl | rfl | rfl
  · exact ⟨c.status, rfl, congrArg some (sstatusOf_eq c.status)⟩
  · exact ⟨c.csrIntEnable, rfl, rfl⟩
  · exact ⟨c.csrIntPending, rfl, rfl⟩

/-- A write through a view leaves the other bits of the register. -/
theorem view_writes {s : SupervisorView} (hs : s ∈ supervisorViews) {ok : Bool} {x y : BitVec 64}
    (h : csrWriteCall c s.view data = .ok (ok, c')) (hx : readNumber c s.register = some x)
    (hy : readNumber c' s.register = some y) : y &&& ~~~ s.bits = x &&& ~~~ s.bits := by
  simp only [supervisorViews, List.mem_cons, List.not_mem_nil, or_false] at hs
  rcases hs with rfl | rfl | rfl
  all_goals
    cases h
    cases hx
    cases hy
  · exact writeSStatus_and_not c.status data
  · exact replace_and_not c.csrIntEnable data sModeIntMask
  · exact replace_and_not c.csrIntPending data sModeIntMask

/-- What a call of `csrWrite` changes of what `csrRead` gives, and the three views. -/
theorem csr_write_frame (c c' : RV64Core) (a : BitVec 12) (data : BitVec 64) (ok : Bool)
    (h : csrWriteCall c a data = .ok (ok, c')) :
    (ok = false → c' = c) ∧
    (ok = true → ∀ b x y, readNumber c b = some x → readNumber c' b = some y → y ≠ x →
      b = a ∨ Aliased a b) ∧
    (∀ s ∈ supervisorViews, a = s.view → ∀ x y, readNumber c s.register = some x →
      readNumber c' s.register = some y → y &&& ~~~ s.bits = x &&& ~~~ s.bits) ∧
    (∀ s ∈ supervisorViews, ∀ core : RV64Core, ∃ x,
      readNumber core s.register = some x ∧ readNumber core s.view = some (x &&& s.bits)) := by
  refine ⟨?_, ?_, ?_, fun s hs core => view_reads hs core⟩
  · rintro rfl
    exact csrWriteCall_false h
  · rintro rfl b x y hx hy hne
    exact changed_aliased h hx hy hne
  · rintro s hs rfl x y hx hy
    exact view_writes hs h hx hy

/-- All ones through `sie`: `mie` differs, in the three bits of the view. -/
theorem csr_write_frame_sie :
    (default : RV64Core).csrIntEnable &&& ~~~ sModeIntMask =
      sModeIntMask &&& ~~~ sModeIntMask :=
  ((csr_write_frame default { (default : RV64Core) with csrIntEnable := sModeIntMask } 0x104
    (BitVec.allOnes 64) true rfl).2.2.1 ⟨0x104, 0x304, sModeIntMask⟩ (by decide) rfl 0 sModeIntMask
    rfl rfl).symm

end CSRFrame

end NextEmu.Simple
