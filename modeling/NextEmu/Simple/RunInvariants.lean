import NextEmu.Simple.Conformance
import NextEmu.Simple.Runs

/-!
# What holds of the core in every state of a run

`x0` is zero, since no write reaches it, and so are the reserved bits of the status,
which every step checks at its end.
-/

namespace NextEmu.Simple.RunInvariants

open NextEmu.Lib.AbortState NextEmu.Sdk
open Conformance Outcomes

/-- The registers of a core that can be reached. -/
structure Sound (c : RV64Core) : Prop where
  zero : c.gpr 0 = 0
  blank : statusBlankZero c.status = true

theorem effect_zero {inst : BitVec 32} {c c' : RV64Core} (h : Effect inst c c') :
    c'.gpr 0 = c.gpr 0 := by
  have hset : ∀ (c : RV64Core) rd value, (c.setGPR rd value).gpr 0 = c.gpr 0 := by
    intro c rd value
    rw [setGPR_gpr, if_neg fun hne => hne.2 rfl]
  cases h with
  | gpr rd value => exact hset c rd value
  | jump rd value pc => exact hset c rd value
  | csr n data c' rd value hp hw => rw [hset, (csrWrite_unwritten hw).gpr]
  | mret => rfl
  | sret => rfl

variable {β : Type} [SlaveAtomicIOI β] {s t : Machine β}

theorem step_zero (h : step s = .ok () t) : t.core.gpr 0 = s.core.gpr 0 := by
  cases wp_ok (step_outcome s) h with
  | trapped cause tval hcore =>
    rw [hcore]
    exact congrFun (trapped_gpr s.core.sampled cause tval) 0
  | done inst c l he hcore =>
    rw [hcore]
    have hzero := effect_zero he
    exact (congrFun (advancePC_gpr c l) 0).trans hzero

theorem endStep_blank (l : StepLocals) (s : Machine β) :
    wp (endStep l) (fun _ t => statusBlankZero t.core.status = true) (fun _ _ => True) s := by
  have hend : ∀ s, wp (do
      modifyCore (·.advancePC l)
      modifyCore (·.retire)
      let c ← getCore
      assertThat (statusBlankZero c.status = true) .statusBlank : Emu β Unit)
        (fun _ t => statusBlankZero t.core.status = true) (fun _ _ => True) s := by
    intro s
    simp only [wp_bind, wp_modifyCore, wp_getCore, wp_assertThat]
    exact ⟨fun h => h, fun _ => trivial⟩
  unfold endStep
  dsimp only
  rw [wp_ite]
  refine ⟨fun _ => ?_, fun _ => hend s⟩
  rw [wp_bind]
  exact wp_mono (raiseTrap_trapped _ _ s) (fun _ t _ => hend t) (fun _ _ _ => trivial)

theorem step_blank (h : step s = .ok () t) : statusBlankZero t.core.status = true := by
  unfold step at h
  obtain ⟨_, _, -, h⟩ := bind_ok h
  obtain ⟨c, u, -, h⟩ := bind_ok h
  split at h
  · have hblank := wp_ok (endStep_blank {} u) h
    exact hblank
  · obtain ⟨l, v, -, h⟩ := bind_ok h
    have hblank := wp_ok (endStep_blank l v) h
    exact hblank

/-- Every state of a run is sound. -/
theorem reached_sound {ok : List (Event β) → Prop} (h : Reached ok s) : Sound s.core := by
  induction h with
  | initial h =>
    obtain ⟨c, hc⟩ := h.core
    have hstatus : statusBlankZero (RV64Core.reset default).status = true := by decide
    rw [hc]
    exact ⟨rfl, hstatus⟩
  | environment _ _ _ ih => exact ⟨ih.zero, ih.blank⟩
  | step _ hstep _ ih => exact ⟨(step_zero hstep).trans ih.zero, step_blank hstep⟩

end NextEmu.Simple.RunInvariants
