import NextEmu.Simple.CompressedFetch
import NextEmu.Simple.GuestAborts
import NextEmu.Simple.Retirement

/-!
# At most one trap in a step

Every path through a step calls `raiseTrap` at most once. The instructions are traversed with
what the assertions of `raiseTrap` say: as long as they hold, a trap that has been raised has set
`need_trap`, and a second one would fail the first of them. That it does not fail is known from
`GuestAborts`. Four other assertions hold wherever a step comes to them, the one on the feedback
of the fetch because an even address lies with its bytes on one page.
-/

namespace NextEmu.Simple.OneTrap

open NextEmu.Lib.AbortState NextEmu.Sdk
open CompressedFetch Conformance GuestAborts Legality Outcomes Retirement Traversal TrapAsserts
open TrapReturn

variable {β : Type} [SlaveAtomicIOI β]

/-- The assertions that a step never fails. -/
def heldAsserts : List Assertion := .needTrapClear :: .causeNotOk :: firmAsserts

/-- What a step does about traps, however it ends. -/
structure TrapsOnce (s : Machine β) : Prop where
  once : (traps (final step s).trace).length ≤ 1
  cause : ∀ p ∈ traps (final step s).trace, p.1.cause ≠ Exec.ok
  /-- Not together with `mret` or `sret`. -/
  apart : returning s = true → traps (final step s).trace = []
  asserts : ∀ e t, step s = .error e t → e ∉ heldAsserts
  fetched : ∀ fb data t, fetch s = .ok (fb, data) t → fb ≠ .misAlign

/-! ## The fetch -/

section Fetch

variable {va : BitVec 64} {n : Nat}

/-- Bytes on one page are fetched without `VADDR_MIS_ALIGN`. -/
theorem part_feedback (hpage : crossesPage va n = false) (s : Machine β) :
    wp (instFetchPart va n) (fun r _ => r.1 ≠ .misAlign) (fun _ _ => True) s := by
  have hread : ∀ (pa : Addr) (u : Machine β),
      wp (physRead pa n) (fun r _ => r.1 ≠ .misAlign) (fun _ _ => True) u := by
    intro pa u
    show (if _ then VAddrFeedback.accessOk else .accessFault) ≠ .misAlign
    split <;> decide
  unfold instFetchPart pagedAccess
  rw [hpage]
  simp only [wp_bind, wp_assertThat, wp_getCore, wp_ite, Bool.false_eq_true, not_false_eq_true,
    implies_true, and_true, true_implies, false_implies, true_and]
  intro _
  refine ⟨fun _ => hread va s, fun _ => ?_⟩
  refine wp_mono (wp_run _ _) (fun found u _ => ?_) (fun _ _ _ => trivial)
  cases found with
  | none => exact VAddrFeedback.noConfusion
  | some e =>
    simp only [wp_bind, wp_getCore]
    have hcode := fetchRefusal_code ((.pageFault, 0) : VAddrFeedback × BitVec (8 * n)) u.core e
    cases hr : fetchRefusal () u.core e with
    | some r =>
      rw [hcode, hr]
      exact VAddrFeedback.noConfusion
    | none =>
      rw [hcode, hr]
      simp only [Option.map_none, wp_bind, wp_assertThat, implies_true, and_true]
      exact fun _ => hread _ u

theorem fetch_feedback (heven : va % 2 = 0) (s : Machine β) :
    wp (vaddrInstFetchMMUAPI va 4) (fun r _ => r.1 ≠ .misAlign) (fun _ _ => True) s := by
  rcases quarter_cases heven with h | h
  · exact wp_congr (fetch_at_word heven h) (part_feedback (whole_part heven (.inr ⟨rfl, h⟩)) s)
  · have hlow := part_feedback (whole_part heven (.inl rfl)) s
    have hhigh := part_feedback (β := β) (whole_part (even_next heven) (.inl rfl))
    unfold vaddrInstFetchMMUAPI
    rw [wp_bind, wp_assertThat]
    refine ⟨fun _ => ?_, fun _ => trivial⟩
    rw [if_pos ⟨rfl, h⟩, wp_bind]
    refine wp_mono hlow (fun r u hr => ?_) (fun _ _ _ => trivial)
    rw [wp_ite]
    refine ⟨fun _ => hr, fun _ => ?_⟩
    rw [wp_bind]
    refine wp_mono (hhigh u) (fun r' _ hr' => ?_) (fun _ _ _ => trivial)
    dsimp only
    rw [wp_ite]
    exact ⟨fun _ => hr', fun _ => nofun⟩

end Fetch

/-! ## The instructions -/

/-- Nothing has been trapped yet, or once, and then `need_trap` is set. -/
structure Single (s : Machine β) : Prop where
  once : (traps s.trace).length ≤ s.core.needTrap.toNat
  cause : ∀ p ∈ traps s.trace, p.1.cause ≠ Exec.ok

def Keeps (s t : Machine β) : Prop := Single s → Single t

/-- An abort at one of the first two assertions of `raiseTrap`, or at one that may fail after at
most one trap. -/
def Stops (e : Assertion) (s t : Machine β) : Prop :=
  Single s → e ∈ [.needTrapClear, .causeNotOk] ∨ e ∉ firmAsserts ∧ Single t

omit [SlaveAtomicIOI β] in
theorem Single.stored {s t : Machine β} (h : Single s) (hst : Stored s t) : Single t := by
  have htraps : traps t.trace = traps s.trace := by rw [← traps_log, hst.log, traps_log]
  refine ⟨?_, ?_⟩
  · rw [htraps, hst.core]
    exact h.once
  · rw [htraps]
    exact h.cause

omit [SlaveAtomicIOI β] in
/-- The trap that is raised is the first. -/
theorem raiseTrap_single (cause : Cause) (tval : BitVec 64) :
    Relates Keeps Stops (raiseTrap cause tval : Emu β Unit) := by
  intro s
  have hraised : s.core.needTrap = false → cause.cause ≠ Exec.ok → Single s →
      Single { s with
        core := s.core.trapped cause tval
        trace := .trap cause tval :: s.trace } := by
    intro hclear hcause h
    have hnone : traps s.trace = [] := by
      have hlen := h.once
      rw [hclear] at hlen
      exact List.length_eq_zero_iff.mp (Nat.le_zero.mp hlen)
    have hone : traps (Event.trap cause tval :: s.trace) = [(cause, tval)] :=
      congrArg ((cause, tval) :: ·) hnone
    refine ⟨?_, ?_⟩
    · rw [hone, trapped_needTrap]
      exact Nat.le_refl 1
    · rw [hone]
      intro p hp
      rw [List.mem_singleton.mp hp]
      exact hcause
  unfold raiseTrap
  simp only [wp_bind, wp_emit, wp_getCore, wp_assertThat, wp_modifyCore]
  refine ⟨fun hclear => ⟨fun hcause => ⟨fun _ => hraised hclear hcause, fun _ h => ?_⟩,
    fun _ _ => .inl (by decide)⟩, fun _ _ => .inl (by decide)⟩
  exact .inr ⟨by decide, hraised hclear hcause h⟩

/-- The assertions of a lookup are others. -/
theorem lookup_firm {e : Assertion} (h : e ∈ lookupAsserts) : e ∉ firmAsserts := by
  revert e
  decide

theorem traversed_single : Traversed (β := β) Keeps Stops where
  refl _ h := h
  trans _ _ _ h h' hs := h' (h hs)
  stop _ _ _ _ h h' hs := h' (h hs)
  core s c hc h := by
    refine ⟨Nat.le_trans h.once ?_, h.cause⟩
    rcases hc with hsame | hset
    · exact Nat.le_of_eq (congrArg Bool.toNat hsame.symm)
    · rw [hset]
      exact Bool.toNat_le _
  event s b e _ htrap h := by
    have htraps : traps (e :: s.trace) = traps s.trace := by
      cases e with
      | trap => cases htrap
      | _ => rfl
    refine ⟨?_, ?_⟩
    · rw [htraps]
      exact h.once
    · rw [htraps]
      exact h.cause
  flush _ _ _ h := ⟨h.once, h.cause⟩
  translate va s := wp_mono (getTLBEntry_stored va s) (fun _ _ hst h => h.stored hst)
    (fun _ _ he h => .inr ⟨lookup_firm he.2, h.stored he.1⟩)
  raise := raiseTrap_single
  abort _ _ ha h := .inr ⟨ha.2.2, h⟩

/-! ## The step -/

theorem fetchDecodeExec_single :
    Relates Keeps Stops (fetchDecodeExec : Emu β StepLocals) := by
  have k := traversed_single (β := β)
  refine k.bind k.getCore fun c => Relates.ite_of
    (fun _ => k.bind (k.raise _ _) fun _ => k.pure _) fun hodd => ?_
  have heven : c.currentProgramCounter % 2 = 0 := Decidable.not_not.mp hodd
  refine Relates.bind_of k.trans k.stop (k.instFetch _ 4) (fetch_feedback heven) fun r hr => ?_
  refine Relates.ite_of (fun hfail => ?_) fun _ => k.decodeExec _
  have hcause : fetchException r.1 ≠ 0 := by
    cases hfb : r.1 with
    | accessOk => exact absurd hfb hfail
    | misAlign => exact absurd hfb hr
    | accessFault => decide
    | pageFault => decide
  exact k.bind (k.holds hcause) fun _ => k.bind (k.raise _ _) fun _ => k.pure _

/-- What is left of it at the end of a step, where `need_trap` is cleared. -/
structure AtMostOnce (s : Machine β) : Prop where
  once : (traps s.trace).length ≤ 1
  cause : ∀ p ∈ traps s.trace, p.1.cause ≠ Exec.ok

omit [SlaveAtomicIOI β] in
theorem Single.atMostOnce {s : Machine β} (h : Single s) : AtMostOnce s :=
  ⟨Nat.le_trans h.once (Bool.toNat_le _), h.cause⟩

/-- How code ends, if the first two assertions of `raiseTrap` hold. -/
abbrev EndsWith {ρ : Type} (P : Machine β → Prop) (x : Emu β ρ) (s : Machine β) : Prop :=
  wp x (fun _ t => P t)
    (fun e t => e ∈ [.needTrapClear, .causeNotOk] ∨ e ∉ firmAsserts ∧ P t) s

omit [SlaveAtomicIOI β] in
/-- Code that has trapped at most once, and then the rest of the step. -/
theorem endsOnce_bind {α ρ : Type} {x : Emu β α} {f : α → Emu β ρ} {s : Machine β}
    (hx : EndsWith Single x s) (hf : ∀ a t, Single t → EndsWith AtMostOnce (f a) t) :
    EndsWith AtMostOnce (x >>= f) s := by
  unfold EndsWith
  rw [wp_bind]
  exact wp_mono hx (fun a t ht => hf a t ht)
    (fun _ _ he => he.imp id fun ho => ⟨ho.1, ho.2.atMostOnce⟩)

omit [SlaveAtomicIOI β] in
/-- Code that keeps it does so from a machine that has it. -/
theorem keeps_ends {α : Type} {x : Emu β α} {s : Machine β} (hx : Relates Keeps Stops x)
    (h : Single s) : EndsWith Single x s :=
  wp_mono (hx s) (fun _ _ ht => ht h) (fun _ _ he => he h)

omit [SlaveAtomicIOI β] in
theorem endStep_once {s : Machine β} (h : Single s) (l : StepLocals) :
    EndsWith AtMostOnce (endStep l) s := by
  have hend : ∀ t : Machine β, Single t → EndsWith AtMostOnce (do
      modifyCore (·.advancePC l)
      modifyCore (·.retire)
      let c ← getCore
      assertThat (statusBlankZero c.status = true) .statusBlank) t := by
    intro t ht
    have honce := ht.atMostOnce
    unfold EndsWith
    simp only [wp_bind, wp_modifyCore, wp_getCore, wp_assertThat]
    exact ⟨fun _ => ⟨honce.once, honce.cause⟩,
      fun _ => .inr ⟨by decide, honce.once, honce.cause⟩⟩
  unfold endStep
  dsimp only
  split
  · exact endsOnce_bind (keeps_ends (raiseTrap_single _ _) h) fun _ t ht => hend t ht
  · exact hend s h

omit [SlaveAtomicIOI β] in
/-- The start of a step clears `need_trap`, and the trace of the step is empty. -/
theorem preExec_single (s : Machine β) : EndsWith Single preExec { s with trace := [] } := by
  have hstart : Single { s with core := s.core.sampled, trace := [] } := ⟨Nat.zero_le _, nofun⟩
  unfold EndsWith preExec
  simp only [wp_bind, wp_modifyCore, wp_getCore]
  cases s.core.sampled.intToRaise with
  | none => exact hstart
  | some bits => exact keeps_ends (raiseTrap_single _ _) hstart

theorem step_once (s : Machine β) : EndsWith AtMostOnce step { s with trace := [] } := by
  refine endsOnce_bind (preExec_single s) fun _ t ht => ?_
  unfold EndsWith
  rw [wp_bind, wp_getCore, wp_ite]
  exact ⟨fun _ => endStep_once ht {}, fun _ =>
    endsOnce_bind (keeps_ends fetchDecodeExec_single ht) fun l u hu => endStep_once hu l⟩

/-- The first two assertions of `raiseTrap` hold in a step whose registers are legal. -/
theorem step_raises {s : Machine β} (h : CSRLegal s.core) :
    wp step (fun _ _ => True) (fun e _ => e ∉ [.needTrapClear, .causeNotOk]) s := by
  have hof : ∀ e : Assertion, e ∈ [Assertion.needTrapClear, .causeNotOk] →
      e ∈ trapAsserts ∧ e ≠ .tvecMode ∧ e ≠ .trapVectorFetch := by decide
  cases hw : fetchedWord s with
  | some inst =>
    refine wp_mono (fetched_ends hw) (fun _ _ _ => trivial) (fun e _ he hmem => ?_)
    obtain ⟨htrap, hne, -⟩ := hof e hmem
    exact hne (he htrap).1
  | none =>
    refine wp_mono (unfetched_ends h hw) (fun _ _ _ => trivial) (fun e _ he hmem => ?_)
    obtain ⟨htrap, -, hne⟩ := hof e hmem
    rcases he with hvector | hother
    · exact hne hvector.1
    · exact hother.1 htrap

/-! ## Every step of a run -/

/-- A step traps at most once, with a cause, and not when it returns from a trap; it fails none of
the assertions on what it has computed itself. -/
theorem traps_once (s : Machine β) (h : Reached (fun _ => True) s) :
    TrapsOnce { s with trace := [] } := by
  have hlegal : CSRLegal ({ s with trace := [] } : Machine β).core :=
    have hs := reached_legal h
    hs
  have hends := wp_and (step_once s) (step_raises hlegal)
  have hfinal : AtMostOnce (final step { s with trace := [] }) := by
    cases hrun : step { s with trace := [] } with
    | ok r t =>
      rw [final_of_ok hrun]
      exact (wp_ok hends hrun).1
    | error e t =>
      rw [final_of_error hrun]
      obtain ⟨hstop, hraise⟩ := wp_error hends hrun
      exact (hstop.resolve_left hraise).2
  refine ⟨hfinal.once, hfinal.cause, ?_, ?_, ?_⟩
  · intro hret
    obtain ⟨d, hword, hallowed⟩ := of_returning hret
    exact (allowed_step hword hallowed).2
  · intro e t hrun hmem
    obtain ⟨hstop, hraise⟩ := wp_error hends hrun
    rcases List.mem_append.mp (show e ∈ [.needTrapClear, .causeNotOk] ++ firmAsserts from hmem)
      with htrap | hfirm
    · exact hraise htrap
    · exact (hstop.resolve_left hraise).1 hfirm
  · intro fb data t hrun
    have hfeedback := wp_ok (fetch_feedback (fetch_even hrun) _) hrun
    exact hfeedback

/-- The `ecall` of `callMachine` traps once. -/
theorem traps_once_ecall : TrapsOnce { after callMachine 3 with trace := [] } ∧
    traps (final step { after callMachine 3 with trace := [] }).trace =
      [(exception Exec.ecallFromMachine, 0)] :=
  ⟨traps_once (after callMachine 3)
    (reached_after (.initial callMachine_initial) 3 (by decide +kernel)), by decide +kernel⟩

end NextEmu.Simple.OneTrap
