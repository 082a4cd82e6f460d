import NextEmu.Simple.TrapReturn

/-!
# Retired instructions

`minstret` counts the steps that end with `needTrap` clear. The flag is set by every trap, and
also by `mret` and `sret`, for which it carries no more than the new PC: the steps that
execute these are not counted. Every other instruction that is done is.
-/

namespace NextEmu.Simple.Retirement

open NextEmu.Lib.AbortState NextEmu.Sdk
open Conformance Outcomes TrapReturn

variable {β : Type} [SlaveAtomicIOI β]

/-! ## Runs with their steps -/

/-- A run from `s`, with the machines before and after each step, newest first. Between two steps
the interrupt inputs and the bus may change. -/
inductive Run (s : Machine β) : Machine β → List (Machine β × Machine β) → Prop
  | start : Run s s []
  | environment {t : Machine β} {steps : List (Machine β × Machine β)} (h : Run s t steps)
      (intStatus : IntStatus) (bus : β) :
      Run s { t with core := { t.core with intStatus := intStatus }, bus := bus } steps
  | step {t u : Machine β} {steps : List (Machine β × Machine β)} (h : Run s t steps)
      (hstep : step { t with trace := [] } = .ok () u) : Run s u ((t, u) :: steps)

/-- The step took neither an interrupt nor an exception. -/
def completed (p : Machine β × Machine β) : Bool := (traps p.2.trace).isEmpty

/-- The step executes `mret` or `sret` where it is allowed. -/
def returning (s : Machine β) : Bool :=
  match fetchedWord { s with trace := [] } with
  | some inst => [Dest.supervisor, .machine].any fun d =>
      inst == d.ret && d.allowed s.core.sampled
  | none => false

/-- In every state that the run reaches, the counter has been increased by the number of steps that
executed an instruction to completion. -/
def Counts (s : Machine β) (steps : List (Machine β × Machine β)) : Prop :=
  ∀ p earlier, p :: earlier <:+ steps →
    p.2.core.minstret = s.core.minstret + BitVec.ofNat 64 ((p :: earlier).countP completed)

/-! ## One step -/

section Core

variable {c c' : RV64Core} {inst : BitVec 32} {d : Dest}

omit [SlaveAtomicIOI β] in
theorem setGPR_minstret (c : RV64Core) (rd : BitVec 5) (value : BitVec 64) :
    (c.setGPR rd value).minstret = c.minstret := by
  unfold RV64Core.setGPR
  split <;> rfl

theorem trapped_minstret (c : RV64Core) (cause : Cause) (tval : BitVec 64) :
    (c.trapped cause tval).minstret = c.minstret := by
  unfold RV64Core.trapped
  dsimp only
  split <;> rfl

theorem plain_counter (h : PlainEffect c c') :
    c'.minstret = c.minstret ∧ c'.needTrap = c.needTrap := by
  cases h with
  | gpr rd value => exact ⟨setGPR_minstret c rd value, setGPR_needTrap c rd value⟩
  | jump rd value pc => exact ⟨setGPR_minstret c rd value, setGPR_needTrap c rd value⟩

/-- An instruction that is done leaves the counter and the flag, or is a return. -/
theorem code_counter (h : CodeEffect inst c c') :
    c'.minstret = c.minstret ∧ c'.needTrap = c.needTrap ∨ ∃ d : Dest, inst = d.ret := by
  rcases h with h | ⟨-, h⟩
  · exact .inl (plain_counter h)
  cases h with
  | plain effect => exact .inl (plain_counter effect)
  | csr data c'' value permitted data_eq written =>
    have hkept := csrWrite_unwritten written
    left
    constructor
    · exact (setGPR_minstret c'' _ value).trans hkept.minstret
    · exact (setGPR_needTrap c'' _ value).trans hkept.needTrap
  | mret hinst => exact .inr ⟨.machine, hinst⟩
  | sret hinst => exact .inr ⟨.supervisor, hinst⟩

theorem returned_counter (c : RV64Core) :
    (d.returned c).minstret = c.minstret ∧ (d.returned c).needTrap = true := by
  cases d with
  | supervisor => exact ⟨rfl, rfl⟩
  | machine => exact ⟨rfl, rfl⟩

theorem retire_minstret (c : RV64Core) (l : StepLocals) :
    (c.advancePC l).retire.minstret = if c.needTrap then c.minstret else c.minstret + 1 := by
  unfold RV64Core.advancePC
  by_cases hneed : c.needTrap = true
  · rw [if_pos hneed, if_pos hneed]
    exact if_pos hneed
  · rw [if_neg hneed, if_neg hneed]
    split <;> exact if_neg hneed

end Core

section Step

variable {s t u : Machine β} {inst : BitVec 32} {d : Dest}

/-- The step of a return that is allowed traps no more than it counts, however it ends. -/
theorem allowed_step (hword : fetchedWord { t with trace := [] } = some d.ret)
    (h : d.allowed t.core.sampled = true) :
    (final step { t with trace := [] }).core.minstret = t.core.minstret ∧
      traps (final step { t with trace := [] }).trace = [] := by
  obtain ⟨l, hl, heq⟩ := step_ret_eq hword h
  have hfinal := (endStep_run hl { decoding { t with trace := [] } d.ret with
    core := d.returned t.core.sampled }).1
  rw [final_congr heq, hfinal]
  obtain ⟨hcount, hneed⟩ := returned_counter (d := d) t.core.sampled
  constructor
  · show ((d.returned t.core.sampled).advancePC l).retire.minstret = _
    rw [retire_minstret, hneed, if_pos rfl, hcount]
    rfl
  · show traps (decoding { t with trace := [] } d.ret).trace = []
    rw [← traps_log, decoding_log hword]
    rfl

/-- That of one that is not traps. -/
theorem refused_step (hword : fetchedWord { t with trace := [] } = some d.ret)
    (h : d.allowed t.core.sampled = false) (hstep : step { t with trace := [] } = .ok () u) :
    traps u.trace ≠ [] := by
  have hcore := (decoding_silent hword).1
  have hrun := execute_refused (d := d) (decoding { t with trace := [] } d.ret)
    (by rw [hcore]; exact h)
  have heq := step_eq hword
  rw [bind_of_ok hrun] at heq
  rw [heq] at hstep
  obtain ⟨v, cause, tval, htrap, hu⟩ := wp_ok (endStep_illegal rfl _) hstep
  rw [hu]
  exact List.ne_nil_of_mem htrap.raised

theorem returning_of (hword : fetchedWord { t with trace := [] } = some d.ret)
    (h : d.allowed t.core.sampled = true) : returning t = true := by
  unfold returning
  rw [hword]
  refine List.any_eq_true.mpr ⟨d, ?_, ?_⟩
  · cases d <;> decide
  · rw [h, beq_self_eq_true]
    rfl

theorem of_returning (h : returning t = true) :
    ∃ d : Dest, fetchedWord { t with trace := [] } = some d.ret ∧
      d.allowed t.core.sampled = true := by
  unfold returning at h
  split at h
  · rename_i inst hword
    obtain ⟨d, -, hd⟩ := List.any_eq_true.mp h
    obtain ⟨hinst, hallowed⟩ := (Bool.and_eq_true _ _).mp hd
    rw [beq_iff_eq.mp hinst] at hword
    exact ⟨d, hword, hallowed⟩
  · cases h

/-- A step counts what it completes, but for a return. -/
theorem step_minstret (hstep : step { t with trace := [] } = .ok () u) :
    u.core.minstret + BitVec.ofNat 64 (returning t).toNat =
      t.core.minstret + BitVec.ofNat 64 (completed (t, u)).toNat := by
  cases hret : returning t with
  | true =>
    obtain ⟨d, hword, hallowed⟩ := of_returning hret
    obtain ⟨hcount, htraps⟩ := allowed_step hword hallowed
    rw [final_of_ok hstep] at hcount htraps
    have hdone : completed (t, u) = true := by
      unfold completed
      rw [htraps]
      rfl
    rw [hcount, hdone]
  | false =>
    cases hw : fetchedWord { t with trace := [] } with
    | none =>
      obtain ⟨cause, tval, hcore, hlog, -⟩ := wp_ok (unfetched_traps hw) hstep
      have hdone : completed (t, u) = false := by
        have hmem : (cause, tval) ∈ traps u.trace := mem_traps.mpr (hlog ▸ List.mem_cons_self)
        exact List.isEmpty_eq_false_iff.mpr (List.ne_nil_of_mem hmem)
      rw [hdone, hcore]
      exact congrArg (· + _) (trapped_minstret t.core.sampled cause tval)
    | some inst =>
      cases wp_ok (step_decoded hw) hstep with
      | trapped cause tval hcore hraised =>
        have hdone : completed (t, u) = false :=
          List.isEmpty_eq_false_iff.mpr (List.ne_nil_of_mem hraised)
        rw [hdone, hcore]
        exact congrArg (· + _) (trapped_minstret t.core.sampled cause tval)
      | done c l effect hcore hlog =>
        have htraps : traps u.trace = [] := by
          rw [← traps_log, hlog]
          rfl
        have hdone : completed (t, u) = true := by
          unfold completed
          rw [htraps]
          rfl
        rcases code_counter effect with ⟨hcount, hneed⟩ | ⟨d, hinst⟩
        · have hclear : c.needTrap = false := hneed
          rw [hdone, hcore, retire_minstret, hclear, hcount]
          exact BitVec.add_zero _
        · -- a return that was not allowed would have trapped
          rw [hinst] at hw
          cases hallowed : d.allowed t.core.sampled with
          | true => exact absurd ((returning_of hw hallowed).symm.trans hret) nofun
          | false => exact absurd htraps (refused_step hw hallowed hstep)

end Step

/-! ## Runs -/

section Runs

variable {s t : Machine β} {steps : List (Machine β × Machine β)}

/-- The counter at the end of a run, and the returns that it has left out. -/
theorem run_minstret (h : Run s t steps) :
    t.core.minstret + BitVec.ofNat 64 (steps.countP fun p => returning p.1) =
      s.core.minstret + BitVec.ofNat 64 (steps.countP completed) := by
  have hone : ∀ {γ : Type} (f : γ → Bool) (p : γ) (l : List γ),
      (p :: l).countP f = l.countP f + (f p).toNat := by
    intro γ f p l
    rw [List.countP_cons]
    cases f p <;> rfl
  induction h with
  | start => rfl
  | environment _ _ _ ih => exact ih
  | @step t u steps h hstep ih =>
    have hlast := step_minstret hstep
    rw [hone, hone, BitVec.ofNat_add, BitVec.ofNat_add]
    generalize BitVec.ofNat 64 (steps.countP fun p => returning p.1) = returns at ih ⊢
    generalize BitVec.ofNat 64 (steps.countP completed) = dones at ih ⊢
    generalize BitVec.ofNat 64 (returning t).toNat = r at hlast ⊢
    generalize BitVec.ofNat 64 (completed (t, u)).toNat = d at hlast ⊢
    calc u.core.minstret + (returns + r)
        = u.core.minstret + r + returns := by ac_rfl
      _ = t.core.minstret + returns + d := by rw [hlast]; ac_rfl
      _ = s.core.minstret + (dones + d) := by rw [ih]; ac_rfl

/-- The steps up to one of a run are a run to the machine behind that step. -/
theorem run_earlier (h : Run s t steps) {p : Machine β × Machine β}
    {earlier : List (Machine β × Machine β)} (hp : p :: earlier <:+ steps) :
    Run s p.2 (p :: earlier) := by
  induction h with
  | start => exact absurd hp (by simp)
  | environment _ _ _ ih => exact ih hp
  | @step t u steps h hstep ih =>
    rcases List.suffix_cons_iff.mp hp with heq | hlater
    · rw [heq, (List.cons.inj heq).1]
      exact .step h hstep
    · exact ih hlater

/-- The counter is right at the end of a run when it has left out none. -/
theorem counted_iff (h : Run s t steps) :
    t.core.minstret = s.core.minstret + BitVec.ofNat 64 (steps.countP completed) ↔
      BitVec.ofNat 64 (steps.countP fun p => returning p.1) = 0#64 := by
  rw [← run_minstret h]
  exact BitVec.self_eq_add_right

omit [SlaveAtomicIOI β] in
theorem countP_eq_of_none {f : Machine β × Machine β → Bool} (h : ∀ p ∈ steps, f p = false) :
    steps.countP f = 0 :=
  List.countP_eq_zero.mpr fun p hp => by
    rw [h p hp]
    exact Bool.false_ne_true

/-- The counter is right throughout a run, exactly when no step of it is a return. -/
theorem minstret_counts (s t : Machine β) (steps : List (Machine β × Machine β))
    (h : Run s t steps) : Counts s steps ↔ ∀ p ∈ steps, returning p.1 = false := by
  constructor
  · intro hcounts
    induction steps generalizing t with
    | nil => exact fun _ hq => absurd hq List.not_mem_nil
    | cons p earlier ih =>
      have hearlier : ∀ q ∈ earlier, returning q.1 = false := by
        cases earlier with
        | nil => exact fun _ hq => absurd hq List.not_mem_nil
        | cons q before =>
          refine ih q.2 (run_earlier h (List.suffix_cons p _)) fun q' before' hq => ?_
          exact hcounts q' before' (hq.trans (List.suffix_cons p _))
      -- only the last step can be one that is left out
      have hend := (counted_iff (run_earlier h (List.suffix_refl _))).mp
        (hcounts p earlier (List.suffix_refl _))
      rw [List.countP_cons, countP_eq_of_none hearlier, Nat.zero_add] at hend
      have hlast : returning p.1 = false := by
        cases hret : returning p.1 with
        | false => rfl
        | true =>
          rw [hret, if_pos rfl] at hend
          exact absurd hend (by decide)
      intro q hq
      rcases List.mem_cons.mp hq with rfl | hq
      · exact hlast
      · exact hearlier q hq
  · intro hnone p earlier hp
    refine (counted_iff (run_earlier h hp)).mpr ?_
    rw [countP_eq_of_none fun q hq => hnone q (hp.subset hq)]

end Runs

/-- Five steps of `callMachine`, newest first: no return is among them, and the fourth traps. -/
def callSteps : List (Machine (AddrBus Empty) × Machine (AddrBus Empty)) :=
  [4, 3, 2, 1, 0].map fun n => (after callMachine n, after callMachine (n + 1))

theorem minstret_counts_call :
    Counts callMachine callSteps ∧ (after callMachine 5).core.minstret = 4 := by
  refine ⟨?_, by decide +kernel⟩
  have hreturns : ∀ n < 5, returns step { after callMachine n with trace := [] } = true := by
    decide +kernel
  have hstep : ∀ n, n < 5 →
      step { after callMachine n with trace := [] } = .ok () (after callMachine (n + 1)) :=
    fun n hn => eq_final (hreturns n hn)
  have hrun : Run callMachine (after callMachine 5) callSteps :=
    .step (.step (.step (.step (.step .start (hstep 0 (by decide))) (hstep 1 (by decide)))
      (hstep 2 (by decide))) (hstep 3 (by decide))) (hstep 4 (by decide))
  have hnone : ∀ n < 5, returning (after callMachine n) = false := by decide +kernel
  refine (minstret_counts callMachine _ _ hrun).mpr fun p hp => ?_
  obtain ⟨n, hn, rfl⟩ := List.mem_map.mp hp
  have hlt : ∀ n ∈ [4, 3, 2, 1, 0], n < 5 := by decide
  exact hnone n (hlt n hn)

/-- M mode at an `mret`. -/
def returnMachine : Machine (AddrBus Empty) :=
  Machine.start (RV64Core.reset { (default : RV64Core) with currentProgramCounter := 0x80000000 })
    (Translation.memoryBus fun a => (0x30200073#32).extractLsb' (8 * a) 8)

/-- Its one step is done and not counted. -/
theorem return_uncounted :
    ¬ ∀ (s t : Machine (AddrBus Empty)) (steps : List (Machine (AddrBus Empty) × _)),
      Run s t steps → Counts s steps := by
  intro hall
  have hrun : Run returnMachine (after returnMachine 1) [(returnMachine, after returnMachine 1)] :=
    .step .start (eq_final (by decide +kernel))
  have hcount := hall _ _ _ hrun _ [] (List.suffix_refl _)
  exact absurd hcount (by decide +kernel)

end NextEmu.Simple.Retirement
