import NextEmu.Simple.Outcomes
import NextEmu.Simple.Translation

/-!
# Which interrupts are taken

An interrupt that is not delegated is due in M mode, and otherwise a delegated one
is due in S mode, when the mode and the status enable it. `preExec` looks at all
pending interrupts at once below M mode, so it takes what is due only where the
delegated ones do not stand in the way; the condition is stated and shown exact.
-/

namespace NextEmu.Simple.Interrupts

open NextEmu.Lib.AbortState NextEmu.Lib.BitField NextEmu.Sdk

/-! ## The order of urgency -/

/-- The six interrupts, the most urgent first. -/
def urgency : List IntType := [.mExt, .mSw, .mTimer, .sExt, .sSw, .sTimer]

/-- The most urgent interrupt of a set of bits. -/
def highest (bits : BitVec 64) : Option IntType := urgency.find? fun i => bits.getLsbD i.code

section Highest

variable {bits mask : BitVec 64} {i : IntType}

theorem bitsToIntType_eq (bits : BitVec 64) : bitsToIntType bits = highest bits := by
  unfold bitsToIntType highest urgency
  simp only [List.find?_cons, List.find?_nil, IntType.code]
  cases bits.getLsbD 11
  · cases bits.getLsbD 3
    · cases bits.getLsbD 7
      · cases bits.getLsbD 9
        · cases bits.getLsbD 1
          · cases bits.getLsbD 5 <;> rfl
          · rfl
        · rfl
      · rfl
    · rfl
  · rfl

theorem highest_bit (h : highest bits = some i) : bits.getLsbD i.code = true := by
  unfold highest at h
  have hfound := List.find?_some h
  exact hfound

theorem highest_none_iff : highest bits = none ↔ ∀ i : IntType, bits.getLsbD i.code = false := by
  unfold highest
  rw [List.find?_eq_none]
  constructor
  · intro h i
    have hmem : i ∈ urgency := by cases i <;> decide
    simpa using h i hmem
  · intro h i _
    simp [h i]

theorem code_lt (i : IntType) : i.code < 64 := by cases i <;> decide

/-- Under a mask that keeps it, the most urgent one stays the most urgent. -/
theorem highest_and (h : highest bits = some i) (hm : mask.getLsbD i.code = true) :
    highest (bits &&& mask) = some i := by
  unfold highest at h ⊢
  obtain ⟨hi, before, after, horder, hbefore⟩ := List.find?_eq_some_iff_append.mp h
  refine List.find?_eq_some_iff_append.mpr ⟨?_, before, after, horder, fun j hj => ?_⟩
  · rw [BitVec.getLsbD_and, hi, hm]
    rfl
  · have hj := hbefore j hj
    rw [Bool.not_eq_true'] at hj
    rw [BitVec.getLsbD_and, hj]
    rfl

theorem ne_zero_of_highest (h : highest bits = some i) : bits ≠ 0 := by
  intro h0
  have hbit := highest_bit h
  rw [h0] at hbit
  simp at hbit

/-- When some of the bits are set under a mask, some are set. -/
theorem highest_of_and {mask : BitVec 64} (h : highest (bits &&& mask) = some i) :
    ∃ j, highest bits = some j := by
  cases hj : highest bits with
  | some j => exact ⟨j, rfl⟩
  | none =>
    have hbit := highest_bit h
    rw [BitVec.getLsbD_and, highest_none_iff.mp hj i] at hbit
    cases hbit

/-- The most urgent of all is the most urgent on its side of a mask. -/
theorem highest_split (h : highest bits = some i) (mask : BitVec 64) :
    mask.getLsbD i.code = true ∧ highest (bits &&& mask) = some i ∨
    mask.getLsbD i.code = false ∧ highest (bits &&& ~~~ mask) = some i := by
  cases hm : mask.getLsbD i.code with
  | true => exact .inl ⟨rfl, highest_and h hm⟩
  | false =>
    refine .inr ⟨rfl, highest_and h ?_⟩
    rw [BitVec.getLsbD_not, hm]
    simp [code_lt i]

end Highest

/-! ## What is due -/

/-- Interrupt `i` is due in M mode. -/
def DueM (c : RV64Core) (i : IntType) : Prop :=
  highest (c.intBits &&& ~~~ c.csrMIntDelegation) = some i ∧
    (c.currentPrivMode.level < PrivMode.mMode.level ∨ c.status.getLsbD MStatus.mie = true)

/-- Interrupt `i` is due in S mode, where nothing is due in M mode. -/
def DueS (c : RV64Core) (i : IntType) : Prop :=
  (∀ j, ¬ DueM c j) ∧ highest (c.intBits &&& c.csrMIntDelegation) = some i ∧
    (c.currentPrivMode.level < PrivMode.sMode.level ∨
      c.currentPrivMode = .sMode ∧ c.status.getLsbD SStatus.sie = true)

/-- The core has trapped to M mode for interrupt `i`. -/
structure TookM (c : RV64Core) (i : IntType) : Prop where
  trap : c.needTrap = true
  mode : c.nextPrivMode = .mMode
  cause : c.csrMachineCause = (intCause (some i)).val

/-- The core has trapped to S mode for interrupt `i`. -/
structure TookS (c : RV64Core) (i : IntType) : Prop where
  trap : c.needTrap = true
  mode : c.nextPrivMode = .sMode
  cause : c.csrSupervisorCause = (intCause (some i)).val

variable {β : Type}

/-- `preExec` takes the interrupt that is due. -/
def TakesDue (s : Machine β) : Prop :=
  (∀ i, DueM s.core.sampled i → ∃ t, preExec s = .ok () t ∧ TookM t.core i) ∧
  (∀ i, DueS s.core.sampled i → ∃ t, preExec s = .ok () t ∧ TookS t.core i)

/-- No delegated interrupt stands in the way of one that is due in M mode: the mode is M, or
nothing is pending for M mode, or the most urgent of all is not delegated and S mode has not
masked a delegated one. -/
def Unobstructed (c : RV64Core) : Prop :=
  c.currentPrivMode = .mMode ∨
  highest (c.intBits &&& ~~~ c.csrMIntDelegation) = none ∨
  (∀ i, highest c.intBits = some i → c.csrMIntDelegation.getLsbD i.code = false) ∧
    ¬ (c.currentPrivMode = .sMode ∧ c.status.getLsbD SStatus.sie = false ∧
      c.intBits &&& c.csrMIntDelegation ≠ 0)

/-! ## What is taken -/

section Taken

variable {c : RV64Core} {s : Machine β} {i : IntType} {bits : BitVec 64}

theorem preExec_quiet (h : s.core.sampled.intToRaise = none) :
    preExec s = .ok () { s with core := s.core.sampled } := by
  unfold preExec
  rw [bind_of_ok (modifyCore_run _ s), bind_of_ok (getCore_run _)]
  simp only [h]
  rfl

/-- The interrupt of the bits that `preExec` picks is raised. -/
theorem preExec_raises (h : s.core.sampled.intToRaise = some bits) (hi : highest bits = some i) :
    preExec s = .ok ()
      { s with
        core := s.core.sampled.trapped (intCause (some i)) 0
        trace := .trap (intCause (some i)) 0 :: s.trace } := by
  have hcause : (intCause (some i)).cause ≠ Exec.ok := by cases i <;> decide
  have hfetch : (intCause (some i)).cause ≠ Exec.instrPgfault := by cases i <;> decide
  unfold preExec
  rw [bind_of_ok (modifyCore_run _ s), bind_of_ok (getCore_run _)]
  simp only [h, bitsToIntType_eq, hi]
  exact Outcomes.raiseTrap_run rfl hcause hfetch 0

theorem delegated_interrupt (c : RV64Core) (i : IntType) :
    c.delegated (intCause (some i)) =
      (c.currentPrivMode != .mMode && c.csrMIntDelegation.getLsbD i.code) := by
  unfold RV64Core.delegated
  have hcode : (intCause (some i)).cause.toNat = i.code := by cases i <;> rfl
  have hint : (intCause (some i)).interrupt = true := rfl
  rw [hint, if_pos rfl, hcode, and_twoPow_ne_zero _ (code_lt i)]

theorem trapped_tookM
    (h : c.currentPrivMode = .mMode ∨ c.csrMIntDelegation.getLsbD i.code = false) :
    TookM (c.trapped (intCause (some i)) 0) i := by
  have hd : ({ c with needTrap := true } : RV64Core).delegated (intCause (some i)) = false := by
    rw [delegated_interrupt]
    rcases h with h | h <;> simp [h]
  simp only [RV64Core.trapped, hd, Bool.false_eq_true, if_false]
  exact ⟨rfl, rfl, rfl⟩

theorem trapped_tookS (hp : c.currentPrivMode ≠ .mMode)
    (hd : c.csrMIntDelegation.getLsbD i.code = true) :
    TookS (c.trapped (intCause (some i)) 0) i := by
  have hd : ({ c with needTrap := true } : RV64Core).delegated (intCause (some i)) = true := by
    rw [delegated_interrupt]
    simp [hp, hd]
  simp only [RV64Core.trapped, hd, if_true]
  exact ⟨rfl, rfl, rfl⟩

end Taken

/-! ## The branches of `preExec` -/

section Branches

variable {c : RV64Core} {i n : IntType}

theorem intToRaise_machine (hp : c.currentPrivMode = .mMode)
    (hie : c.status.getLsbD MStatus.mie = true)
    (hn : highest (c.intBits &&& ~~~ c.csrMIntDelegation) = some n) :
    c.intToRaise = some (c.intBits &&& ~~~ c.csrMIntDelegation) := by
  obtain ⟨j, hj⟩ := highest_of_and hn
  have hne := ne_zero_of_highest hn
  simpa [RV64Core.intToRaise, bitsToIntType_eq, hj, hp, hie] using hne

/-- Below M mode all that is pending is looked at, unless S mode masks a delegated one. -/
theorem intToRaise_lower (hp : c.currentPrivMode = .uMode ∨ c.currentPrivMode = .sMode)
    (hi : highest c.intBits = some i) :
    c.intToRaise =
      if c.currentPrivMode = .sMode ∧ c.status.getLsbD SStatus.sie = false ∧
        c.intBits &&& c.csrMIntDelegation ≠ 0 then none else some c.intBits := by
  have hsie : MStatus.sie = SStatus.sie := rfl
  unfold RV64Core.intToRaise
  simp only [bitsToIntType_eq, hi, hsie]
  by_cases hd : c.intBits &&& c.csrMIntDelegation = 0
  · rcases hp with hp | hp <;> simp [hp, hd, PrivMode.level, PrivMode.toBits]
  · rcases hp with hp | hp
    · simp [hp, PrivMode.level, PrivMode.toBits]
    · cases c.status.getLsbD SStatus.sie <;> simp [hp, PrivMode.level, PrivMode.toBits]

end Branches

/-! ## What is due is taken -/

section Due

variable {s : Machine β} {n : IntType}

theorem takesDue_machine (hp : s.core.sampled.currentPrivMode = .mMode) : TakesDue s := by
  constructor
  · rintro i ⟨hi, hen⟩
    have hie : s.core.sampled.status.getLsbD MStatus.mie = true := by
      rcases hen with hlt | hie
      · rw [hp] at hlt
        exact absurd hlt (Nat.lt_irrefl _)
      · exact hie
    exact ⟨_, preExec_raises (intToRaise_machine hp hie hi) hi, trapped_tookM (.inl hp)⟩
  · rintro i ⟨-, -, hlt | ⟨hs, -⟩⟩
    · rw [hp] at hlt
      exact absurd hlt (by decide)
    · rw [hp] at hs
      cases hs

/-- Below M mode, with nothing pending for it, the delegated one is taken. -/
theorem takesDue_delegated
    (hp : s.core.sampled.currentPrivMode = .uMode ∨ s.core.sampled.currentPrivMode = .sMode)
    (hn : highest (s.core.sampled.intBits &&& ~~~ s.core.sampled.csrMIntDelegation) = none) :
    TakesDue s := by
  constructor
  · rintro i ⟨hi, -⟩
    rw [hn] at hi
    cases hi
  · rintro i ⟨-, hi, hen⟩
    have hne : s.core.sampled.currentPrivMode ≠ .mMode := by
      rcases hp with h | h <;> rw [h] <;> decide
    have hbit := highest_bit hi
    rw [BitVec.getLsbD_and, Bool.and_eq_true] at hbit
    -- the most urgent of all is delegated, so it is `i`
    obtain ⟨j, hj⟩ := highest_of_and hi
    have hall : highest s.core.sampled.intBits = some i := by
      rcases highest_split hj s.core.sampled.csrMIntDelegation with ⟨-, h⟩ | ⟨-, h⟩
      · rw [hj, ← h, hi]
      · rw [hn] at h
        cases h
    have hraise : s.core.sampled.intToRaise = some s.core.sampled.intBits := by
      rw [intToRaise_lower hp hall, if_neg]
      rintro ⟨hs, hoff, -⟩
      rcases hen with hlt | ⟨-, hon⟩
      · rw [hs] at hlt
        exact absurd hlt (Nat.lt_irrefl _)
      · rw [hoff] at hon
        cases hon
    exact ⟨_, preExec_raises hraise hall, trapped_tookS hne hbit.2⟩

/-- Below M mode, where one is pending for it and taken, no delegated one is in the way. -/
theorem free_of_takesDue
    (hp : s.core.sampled.currentPrivMode = .uMode ∨ s.core.sampled.currentPrivMode = .sMode)
    (hn : highest (s.core.sampled.intBits &&& ~~~ s.core.sampled.csrMIntDelegation) = some n)
    (ht : TakesDue s) :
    (∀ i, highest s.core.sampled.intBits = some i →
      s.core.sampled.csrMIntDelegation.getLsbD i.code = false) ∧
    ¬ (s.core.sampled.currentPrivMode = .sMode ∧
      s.core.sampled.status.getLsbD SStatus.sie = false ∧
      s.core.sampled.intBits &&& s.core.sampled.csrMIntDelegation ≠ 0) := by
  have hlt : s.core.sampled.currentPrivMode.level < PrivMode.mMode.level := by
    rcases hp with h | h <;> rw [h] <;> decide
  have hne : s.core.sampled.currentPrivMode ≠ .mMode := by
    rcases hp with h | h <;> rw [h] <;> decide
  obtain ⟨i, hi⟩ := highest_of_and hn
  have hraise := intToRaise_lower hp hi
  obtain ⟨t, hrun, htook⟩ := ht.1 n ⟨hn, .inl hlt⟩
  have hopen : ¬ (s.core.sampled.currentPrivMode = .sMode ∧
      s.core.sampled.status.getLsbD SStatus.sie = false ∧
      s.core.sampled.intBits &&& s.core.sampled.csrMIntDelegation ≠ 0) := by
    intro hmasked
    rw [if_pos hmasked] at hraise
    rw [preExec_quiet hraise] at hrun
    cases hrun
    exact Bool.false_ne_true htook.trap
  refine ⟨fun j hj => ?_, hopen⟩
  rw [hi] at hj
  cases hj
  rw [if_neg hopen] at hraise
  cases hd : s.core.sampled.csrMIntDelegation.getLsbD i.code with
  | false => rfl
  | true =>
    -- it would have been taken to S mode
    rw [preExec_raises hraise hi] at hrun
    cases hrun
    have hmode := (trapped_tookS hne hd).mode.symm.trans htook.mode
    cases hmode

/-- Below M mode, where no delegated one is in the way, the one pending for it is taken. -/
theorem takesDue_of_free
    (hp : s.core.sampled.currentPrivMode = .uMode ∨ s.core.sampled.currentPrivMode = .sMode)
    (hn : highest (s.core.sampled.intBits &&& ~~~ s.core.sampled.csrMIntDelegation) = some n)
    (hfree : ∀ i, highest s.core.sampled.intBits = some i →
      s.core.sampled.csrMIntDelegation.getLsbD i.code = false)
    (hopen : ¬ (s.core.sampled.currentPrivMode = .sMode ∧
      s.core.sampled.status.getLsbD SStatus.sie = false ∧
      s.core.sampled.intBits &&& s.core.sampled.csrMIntDelegation ≠ 0)) : TakesDue s := by
  have hlt : s.core.sampled.currentPrivMode.level < PrivMode.mMode.level := by
    rcases hp with h | h <;> rw [h] <;> decide
  obtain ⟨i, hi⟩ := highest_of_and hn
  have hraise := intToRaise_lower hp hi
  rw [if_neg hopen] at hraise
  have hd := hfree i hi
  have hin : i = n := by
    rcases highest_split hi s.core.sampled.csrMIntDelegation with ⟨h, -⟩ | ⟨-, h⟩
    · rw [hd] at h
      cases h
    · rw [hn] at h
      cases h
      rfl
  subst hin
  constructor
  · rintro j ⟨hj, -⟩
    rw [hn] at hj
    cases hj
    exact ⟨_, preExec_raises hraise hi, trapped_tookM (.inr hd)⟩
  · rintro j ⟨hnone, -⟩
    exact absurd ⟨hn, .inl hlt⟩ (hnone i)

/-- `preExec` takes what is due exactly where no delegated interrupt stands in the way. -/
theorem takesDue_iff_unobstructed (s : Machine β) (hp : s.core.nextPrivMode.Implemented) :
    TakesDue s ↔ Unobstructed s.core.sampled := by
  have hmode : s.core.sampled.currentPrivMode = s.core.nextPrivMode := rfl
  by_cases hm : s.core.sampled.currentPrivMode = .mMode
  · exact ⟨fun _ => .inl hm, fun _ => takesDue_machine hm⟩
  · have hlow : s.core.sampled.currentPrivMode = .uMode ∨
        s.core.sampled.currentPrivMode = .sMode := by
      rw [hmode] at hm ⊢
      rcases hp with h | h | h
      · exact .inl h
      · exact .inr h
      · exact absurd h hm
    cases hn : highest (s.core.sampled.intBits &&& ~~~ s.core.sampled.csrMIntDelegation) with
    | none => exact ⟨fun _ => .inr (.inl hn), fun _ => takesDue_delegated hlow hn⟩
    | some n =>
      refine ⟨fun h => .inr (.inr (free_of_takesDue hlow hn h)), ?_⟩
      rintro (h | h | ⟨hfree, hopen⟩)
      · exact absurd h hm
      · rw [hn] at h
        cases h
      · exact takesDue_of_free hlow hn hfree hopen

end Due

/-- S mode with its interrupts off; a supervisor timer interrupt is pending and delegated, and
the machine timer interrupt is pending. -/
def maskedMachine : Machine (AddrBus Empty) :=
  Machine.start { (default : RV64Core) with
    nextPrivMode := .sMode, intStatus := { (default : IntStatus) with mtip := true }
    csrIntPending := 0x20, csrIntEnable := 0xa0, csrMIntDelegation := 0x222 }
    (Translation.memoryBus fun _ => 0)

/-- The machine timer interrupt is held back. -/
theorem timer_held_back : DueM maskedMachine.core.sampled .mTimer ∧ ¬ TakesDue maskedMachine := by
  have hdue : DueM maskedMachine.core.sampled .mTimer := by
    unfold DueM
    decide +kernel
  refine ⟨hdue, fun h => ?_⟩
  obtain ⟨t, hrun, htook⟩ := h.1 _ hdue
  have hquiet : maskedMachine.core.sampled.intToRaise = none := by decide +kernel
  rw [preExec_quiet hquiet] at hrun
  cases hrun
  exact Bool.false_ne_true htook.trap

/-- With the machine timer interrupt alone nothing is in its way. -/
theorem takesDue_timer : TakesDue
    { maskedMachine with core := { maskedMachine.core with csrIntPending := 0 } } := by
  have hnone : ({ maskedMachine.core with csrIntPending := 0 } : RV64Core).sampled.intBits &&&
      maskedMachine.core.csrMIntDelegation = 0 := by decide +kernel
  have hall : highest ({ maskedMachine.core with csrIntPending := 0 } : RV64Core).sampled.intBits =
      some .mTimer := by decide +kernel
  refine (takesDue_iff_unobstructed _ (.inr (.inl rfl))).mpr (.inr (.inr ⟨fun i hi => ?_, ?_⟩))
  · rw [hall] at hi
    cases hi
    decide
  · exact fun h => h.2.2 hnone

/-! ## What is taken is not masked -/

/-- Nothing keeps interrupt `i` from M mode. -/
def OpenM (c : RV64Core) (i : IntType) : Prop :=
  c.csrMIntDelegation.getLsbD i.code = false ∧
    (c.currentPrivMode.level < PrivMode.mMode.level ∨ c.status.getLsbD MStatus.mie = true)

/-- Nothing keeps interrupt `i` from S mode. -/
def OpenS (c : RV64Core) (i : IntType) : Prop :=
  c.csrMIntDelegation.getLsbD i.code = true ∧
    (c.currentPrivMode = .uMode ∨
      c.currentPrivMode = .sMode ∧ c.status.getLsbD SStatus.sie = true)

section Masked

variable {c : RV64Core} {s t : Machine β} {i : IntType} {bits : BitVec 64}

theorem intToRaise_machine_inv (hp : c.currentPrivMode = .mMode) (h : c.intToRaise = some bits) :
    bits = c.intBits &&& ~~~ c.csrMIntDelegation ∧ c.status.getLsbD MStatus.mie = true := by
  unfold RV64Core.intToRaise at h
  dsimp only at h
  split at h
  · cases h
  split at h
  · rename_i hen
    cases h
    rw [Bool.and_eq_true] at hen
    exact ⟨rfl, hen.1⟩
  · cases h

/-- Below M mode it is all that is pending, and where S mode has its interrupts off nothing in
it is delegated. -/
theorem intToRaise_lower_inv (hp : c.currentPrivMode = .uMode ∨ c.currentPrivMode = .sMode)
    (h : c.intToRaise = some bits) :
    bits = c.intBits ∧ (c.currentPrivMode = .sMode → c.status.getLsbD SStatus.sie = false →
      c.intBits &&& c.csrMIntDelegation = 0) := by
  cases hi : highest c.intBits with
  | none =>
    simp [RV64Core.intToRaise, bitsToIntType_eq, hi] at h
  | some i =>
    rw [intToRaise_lower hp hi] at h
    split at h
    · cases h
    · rename_i hopen
      cases h
      refine ⟨rfl, fun hs hoff => ?_⟩
      exact Decidable.byContradiction fun hne => hopen ⟨hs, hoff, hne⟩

theorem and_bit {v mask : BitVec 64} (h : v &&& mask = 0) {n : Nat} (hv : v.getLsbD n = true) :
    mask.getLsbD n = false := by
  have hbit := congrArg (·.getLsbD n) h
  simpa [hv] using hbit

/-- The interrupt that is raised is pending, enabled, and open in one of the two modes. -/
theorem intToRaise_open (hp : c.currentPrivMode.Implemented) (h : c.intToRaise = some bits)
    (hi : highest bits = some i) :
    c.intBits.getLsbD i.code = true ∧ (OpenM c i ∨ OpenS c i) := by
  have hbit := highest_bit hi
  by_cases hm : c.currentPrivMode = .mMode
  · obtain ⟨rfl, hie⟩ := intToRaise_machine_inv hm h
    rw [BitVec.getLsbD_and, Bool.and_eq_true, BitVec.getLsbD_not, Bool.and_eq_true,
      Bool.not_eq_true'] at hbit
    exact ⟨hbit.1, .inl ⟨hbit.2.2, .inr hie⟩⟩
  · have hlow : c.currentPrivMode = .uMode ∨ c.currentPrivMode = .sMode := by
      rcases hp with h | h | h
      · exact .inl h
      · exact .inr h
      · exact absurd h hm
    obtain ⟨rfl, hoff⟩ := intToRaise_lower_inv hlow h
    refine ⟨hbit, ?_⟩
    cases hd : c.csrMIntDelegation.getLsbD i.code with
    | false =>
      have hlt : c.currentPrivMode.level < PrivMode.mMode.level := by
        rcases hlow with h | h <;> rw [h] <;> decide
      exact .inl ⟨hd, .inl hlt⟩
    | true =>
      refine .inr ⟨hd, hlow.imp_right fun hs => ⟨hs, ?_⟩⟩
      cases hie : c.status.getLsbD SStatus.sie with
      | true => rfl
      | false =>
        rw [and_bit (hoff hs hie) hbit] at hd
        cases hd

/-- Bits that name no interrupt stop at the assertion on the cause. -/
theorem raiseTrap_noInt (s : Machine β) :
    wp (raiseTrap (intCause none) 0) (fun _ _ => False) (fun _ _ => True) s := by
  have hcause : ¬ (intCause none).cause ≠ Exec.ok := by decide
  unfold raiseTrap
  simp only [wp_bind, wp_emit, wp_getCore, wp_assertThat]
  exact ⟨fun _ => ⟨fun hne => absurd hne hcause, fun _ => trivial⟩, fun _ => trivial⟩

/-- `preExec` takes only interrupts that are pending, enabled and not masked in the mode that
they go to. -/
theorem taken_unmasked (s t : Machine β) (hp : s.core.nextPrivMode.Implemented)
    (h : preExec s = .ok () t) (htrap : t.core.needTrap = true) :
    ∃ i : IntType, t.trace = .trap (intCause (some i)) 0 :: s.trace ∧
      s.core.sampled.csrIntPending.getLsbD i.code = true ∧
      s.core.sampled.csrIntEnable.getLsbD i.code = true ∧
      (OpenM s.core.sampled i ∧ TookM t.core i ∨ OpenS s.core.sampled i ∧ TookS t.core i) := by
  cases hraise : s.core.sampled.intToRaise with
  | none =>
    rw [preExec_quiet hraise] at h
    cases h
    cases htrap
  | some bits =>
    cases hi : highest bits with
    | none =>
      unfold preExec at h
      rw [bind_of_ok (modifyCore_run _ s), bind_of_ok (getCore_run _)] at h
      simp only [hraise, bitsToIntType_eq, hi] at h
      exact (wp_ok (raiseTrap_noInt _) h).elim
    | some i =>
      have hp' : s.core.sampled.currentPrivMode.Implemented := hp
      obtain ⟨hbit, hopen⟩ := intToRaise_open hp' hraise hi
      rw [preExec_raises hraise hi] at h
      cases h
      unfold RV64Core.intBits at hbit
      rw [BitVec.getLsbD_and, Bool.and_eq_true] at hbit
      refine ⟨i, rfl, hbit.1, hbit.2, ?_⟩
      rcases hopen with hopen | hopen
      · exact .inl ⟨hopen, trapped_tookM (.inr hopen.1)⟩
      · have hne : s.core.sampled.currentPrivMode ≠ .mMode := by
          rcases hopen.2 with h | ⟨h, -⟩ <;> rw [h] <;> decide
        exact .inr ⟨hopen, trapped_tookS hne hopen.1⟩

end Masked

/-- The machine timer interrupt of U mode. -/
def timerMachine : Machine (AddrBus Empty) :=
  { maskedMachine with core := { maskedMachine.core with nextPrivMode := .uMode } }

theorem taken_unmasked_timer : ∃ i : IntType,
    (final preExec timerMachine).trace = .trap (intCause (some i)) 0 :: timerMachine.trace ∧
      timerMachine.core.sampled.csrIntPending.getLsbD i.code = true ∧
      timerMachine.core.sampled.csrIntEnable.getLsbD i.code = true ∧
      (OpenM timerMachine.core.sampled i ∧ TookM (final preExec timerMachine).core i ∨
        OpenS timerMachine.core.sampled i ∧ TookS (final preExec timerMachine).core i) :=
  taken_unmasked timerMachine _ (.inl rfl) (eq_final (by decide +kernel)) (by decide +kernel)

end NextEmu.Simple.Interrupts
