import NextEmu.Simple.Delegation
import NextEmu.Simple.EvenJumps

/-!
# An even PC

The instructions jump to even targets, the trap vectors drop their two lowest bits and
a fall through adds 2 or 4. What is left are `mret` and `sret`, which go to `mepc` and
`sepc`: traps save an even PC there, but a CSR instruction writes any value.
-/

namespace NextEmu.Simple.EvenPC

open NextEmu.Lib.AbortState NextEmu.Lib.BitField NextEmu.Sdk
open Conformance Delegation EvenJumps Outcomes PrivModes Translation

/-- The PC is even, and so are the addresses that the handlers return to. -/
structure EvenPCs (c : RV64Core) : Prop where
  pc : c.currentProgramCounter % 2 = 0
  mepc : c.csrMExceptionPC % 2 = 0
  sepc : c.csrSExceptionPC % 2 = 0

/-- The registers that a return reads, `mepc` and `sepc`. -/
inductive Epc
  | machine
  | supervisor
  deriving DecidableEq, Repr

namespace Epc

def number : Epc → BitVec 12
  | machine => 0x341
  | supervisor => 0x141

def csr : Epc → CSRAddr
  | machine => .mepc
  | supervisor => .sepc

def reg : Epc → RV64Core → BitVec 64
  | machine, c => c.csrMExceptionPC
  | supervisor, c => c.csrSExceptionPC

end Epc

variable {β : Type} [SlaveAtomicIOI β]

/-- The instruction that the next step executes writes no odd value to them. -/
def WritesEven (s : Machine β) : Prop :=
  ∀ r : Epc, ∀ data, stepWrites r.number s = some data → data % 2 = 0

/-- The machine has raised the misaligned exception of the start of a step. -/
def StartMisaligned (t : Machine β) : Prop :=
  fetches t.trace = [] ∧ ∃ tval, (exception Exec.instrMisalign, tval) ∈ traps t.trace

/-! ## The registers -/

section Registers

variable {c c' : RV64Core} {inst : BitVec 32}

/-- The same with the place that a trap or a return goes to. -/
structure EvenNext (c : RV64Core) : Prop extends EvenPCs c where
  next : c.needTrap = true → c.trapProgramCounter % 2 = 0

theorem sampled_even (h : EvenPCs c) : EvenNext c.sampled :=
  ⟨⟨h.pc, h.mepc, h.sepc⟩, fun hn => absurd hn Bool.false_ne_true⟩

theorem trapped_even (h : EvenPCs c) (cause : Cause) (tval : BitVec 64) :
    EvenNext (c.trapped cause tval) := by
  unfold RV64Core.trapped
  dsimp only
  split
  · exact ⟨⟨h.pc, h.mepc, h.pc⟩, fun _ => even_trapPC _ _⟩
  · exact ⟨⟨h.pc, h.pc, h.sepc⟩, fun _ => even_trapPC _ _⟩

theorem setGPR_even (h : EvenNext c) (rd : BitVec 5) (value : BitVec 64) :
    EvenNext (c.setGPR rd value) := by
  unfold RV64Core.setGPR
  split
  · exact h
  · exact { h with }

theorem retired_even (h : EvenNext c) (l : StepLocals) : EvenPCs (c.advancePC l).retire := by
  unfold RV64Core.advancePC
  split
  · rename_i hn
    exact { h with pc := h.next hn }
  · split
    · exact { h.toEvenPCs with }
    · refine { h with pc := even_add h.pc ?_ }
      split <;> rfl

theorem ofNumber_epc {n : BitVec 12} {r : Epc} (h : CSRAddr.ofNumber n = some r.csr) :
    n = r.number := by
  cases r
  all_goals
    unfold CSRAddr.ofNumber at h
    split at h <;> first | rfl | cases h

/-- A write of a CSR, of an even value if it is one of the two. -/
theorem csrWrite_even {data : BitVec 64} {a : Option CSRAddr} (h : EvenNext c)
    (hdata : ∀ r : Epc, a = some r.csr → data % 2 = 0)
    (hw : c.csrWrite data a = .ok (some c')) : EvenNext c' := by
  unfold RV64Core.csrWrite at hw
  split at hw
  case h_9 =>
    cases hw
    exact { h with mepc := hdata .machine rfl }
  case h_19 =>
    cases hw
    exact { h with sepc := hdata .supervisor rfl }
  all_goals
    first
    | (cases hw; done)
    | (cases hw; exact { h with })
    | (split at hw <;> cases hw; exact { h with })

theorem plain_even (h : EvenNext c) (he : PlainEffect c c')
    (hpc : c'.currentProgramCounter % 2 = 0) : EvenNext c' := by
  cases he with
  | gpr rd value => exact setGPR_even h rd value
  | jump rd value pc => exact { setGPR_even h rd value with pc := hpc }

theorem code_even (h : EvenNext c)
    (hdata : ∀ r : Epc, ∀ data, dataWritten r.number c inst = some data → data % 2 = 0)
    (he : CodeEffect inst c c') (hpc : c'.currentProgramCounter % 2 = 0) : EvenNext c' := by
  rcases he with he | ⟨hop, he⟩
  · exact plain_even h he hpc
  cases he with
  | plain effect => exact plain_even h effect hpc
  | csr data c'' value permitted data_eq written =>
    refine setGPR_even (csrWrite_even h (fun r ha => hdata r data ?_) written) _ value
    have hn := ofNumber_epc ha
    unfold dataWritten
    rw [if_pos ⟨hop, hn, hn ▸ permitted⟩]
    exact data_eq
  | mret hinst hmode => exact { h with next := fun _ => h.mepc }
  | sret hinst hmode => exact { h with next := fun _ => h.sepc }

end Registers

/-! ## Steps -/

section Steps

variable {s t : Machine β}

/-- A step that writes no odd value to them keeps them even. -/
theorem step_even (h : EvenPCs s.core) (hpre : WritesEven s) :
    wp step (fun _ t => EvenPCs t.core) (fun _ _ => True) s := by
  have hs := sampled_even h
  have htrap : ∀ cause tval, EvenPCs (trapEnd (s.core.sampled.trapped cause tval)) := by
    intro cause tval
    have ht := trapped_even hs.toEvenPCs cause tval
    exact { ht with pc := ht.next (trapped_needTrap _ cause tval) }
  cases hw : fetchedWord s with
  | none =>
    refine wp_mono (unfetched_traps hw) (fun _ t ht => ?_) (fun _ _ _ => trivial)
    obtain ⟨cause, tval, hcore, -⟩ := ht
    rw [hcore]
    exact htrap cause tval
  | some inst =>
    have hcore := (decoding_silent hw).1
    have hpc : (decoding s inst).core.currentProgramCounter % 2 = 0 := hcore ▸ hs.pc
    refine wp_congr (step_eq hw) ?_
    rw [wp_bind]
    refine wp_mono (wp_and (execute_outcome inst _) (even_execute inst _ hpc))
      (fun flags u ho => ?_) (fun _ _ _ => trivial)
    obtain ⟨ho, heven⟩ := ho
    cases ho with
    | trapped cause tval trap legal =>
      refine wp_mono (endStep_trapped legal trap) (fun _ v hv => ?_) (fun _ _ _ => trivial)
      rw [hv, trap.core, hcore]
      exact htrap cause tval
    | illegal silent hill =>
      refine wp_mono (endStep_illegal hill u) (fun _ v hv => ?_) (fun _ _ _ => trivial)
      obtain ⟨u', cause, tval, htrapped, rfl⟩ := hv
      rw [htrapped.core, silent.core, hcore]
      exact htrap cause tval
    | done effect hlog legal =>
      refine wp_mono (endStep_legal legal u) (fun _ v hv => ?_) (fun _ _ _ => trivial)
      rw [hv]
      rw [hcore] at effect
      refine retired_even (code_even hs (fun r data hdata => hpre r data ?_) effect heven) _
      unfold stepWrites
      rw [hw]
      exact hdata

/-- What a write of one of the two leaves there. -/
theorem step_epc {r : Epc} {data : BitVec 64} (hsome : stepWrites r.number s = some data)
    (hstep : step s = .ok () t) : r.reg t.core = data := by
  have hend : ∀ c : RV64Core, ∀ rd value l,
      r.reg ((c.setGPR rd value).advancePC l).retire = r.reg c := by
    intro c rd value l
    unfold RV64Core.setGPR RV64Core.advancePC
    cases r <;> (repeat' split) <;> rfl
  have hwrite : ∃ c', s.core.sampled.csrWrite data (CSRAddr.ofNumber r.number) = .ok (some c') ∧
      r.reg c' = data := by
    cases r with
    | machine => exact ⟨_, rfl, rfl⟩
    | supervisor => exact ⟨_, rfl, rfl⟩
  obtain ⟨c', hwrite, hreg⟩ := hwrite
  obtain ⟨rd, v, l, hcore⟩ := written_step hsome hwrite hstep
  rw [hcore, hend, hreg]

/-- A word that a step fetches is in its trace, also when its instruction traps. -/
theorem step_fetches {inst : BitVec 32} (hw : fetchedWord s = some inst) :
    wp step (fun _ t => fetches t.trace ≠ []) (fun _ _ => True) s := by
  have hmem : ∀ {tr : List (Event β)} (e : List (Event β)),
      log tr = e ++ log (decoding s inst).trace → fetches tr ≠ [] := by
    intro tr e hlog hnil
    have hin : inst ∈ fetches tr := by
      rw [mem_fetches, hlog, decoding_log hw]
      exact List.mem_append_right e List.mem_cons_self
    rw [hnil] at hin
    exact List.not_mem_nil hin
  refine wp_congr (step_eq hw) ?_
  rw [wp_bind]
  refine wp_mono (execute_outcome inst _) (fun flags u ho => ?_) (fun _ _ _ => trivial)
  cases ho with
  | trapped cause tval trap legal =>
    refine wp_mono (endStep_trapped legal trap) (fun _ v hv => ?_) (fun _ _ _ => trivial)
    rw [hv]
    exact hmem [_] trap.log
  | illegal silent hill =>
    refine wp_mono (endStep_illegal hill u) (fun _ v hv => ?_) (fun _ _ _ => trivial)
    obtain ⟨u', cause, tval, htrap, rfl⟩ := hv
    exact hmem [_] (htrap.log.trans (congrArg (_ :: ·) silent.log))
  | done effect hlog legal =>
    refine wp_mono (endStep_legal legal u) (fun _ v hv => ?_) (fun _ _ _ => trivial)
    rw [hv]
    exact hmem [] hlog

theorem start_aligned (heven : s.core.currentProgramCounter % 2 = 0)
    (hstep : step { s with trace := [] } = .ok () t) : ¬ StartMisaligned t := by
  rintro ⟨hnone, tval, hmis⟩
  cases hw : fetchedWord { s with trace := [] } with
  | some inst => exact wp_ok (step_fetches hw) hstep hnone
  | none =>
    obtain ⟨cause, tval', -, hlog, hne⟩ :=
      wp_ok (unfetched_traps (s := { s with trace := [] }) hw) hstep
    rw [mem_traps, hlog] at hmis
    cases hmis with
    | head => exact hne heven rfl
    | tail _ h => cases h

end Steps

/-! ## Runs -/

section Runs

/-- The machines that a run reaches from reset at an even PC, with a condition on the machine that
a step starts from. -/
inductive ReachedEven (pre : Machine β → Prop) : Machine β → Prop
  | initial {s : Machine β} (h : s.Initial) (heven : s.core.currentProgramCounter % 2 = 0) :
      ReachedEven pre s
  | environment {s : Machine β} (h : ReachedEven pre s) (intStatus : IntStatus) (bus : β) :
      ReachedEven pre { s with core := { s.core with intStatus := intStatus }, bus := bus }
  | step {s t : Machine β} (h : ReachedEven pre s) (hpre : pre s)
      (hstep : step { s with trace := [] } = .ok () t) : ReachedEven pre t

/-- In a run that writes no odd value to `mepc` and `sepc` the PC and the two are even and no step
is misaligned at its start, and the next step keeps them even exactly when it writes no odd value
either. -/
theorem pc_even (s : Machine β)
    (h : ReachedEven (fun m => WritesEven { m with trace := [] }) s) :
    EvenPCs s.core ∧ ∀ t, step { s with trace := [] } = .ok () t →
      ¬ StartMisaligned t ∧ (EvenPCs t.core ↔ WritesEven { s with trace := [] }) := by
  have heven : EvenPCs s.core := by
    induction h with
    | initial h heven =>
      obtain ⟨c, hc⟩ := h.core
      refine ⟨heven, ?_, ?_⟩
      · rw [hc]
        rfl
      · rw [hc]
        rfl
    | environment _ _ _ ih => exact { ih with }
    | @step s t _ hpre hstep ih =>
      exact wp_ok (step_even (s := { s with trace := [] }) ih hpre) hstep
  refine ⟨heven, fun t hstep => ⟨start_aligned heven.pc hstep, fun ht r data hdata => ?_,
    fun hpre => wp_ok (step_even (s := { s with trace := [] }) heven hpre) hstep⟩⟩
  rw [← step_epc hdata hstep]
  cases r with
  | machine => exact ht.mepc
  | supervisor => exact ht.sepc

end Runs

/-! ## A return to an odd address -/

/-- `li x1, 1`, `csrw mepc, x1` and `mret`. -/
def oddMachine : Machine (AddrBus Empty) :=
  Machine.start (RV64Core.reset { (default : RV64Core) with currentProgramCounter := 0x80000000 })
    (memoryBus fun a => (0x302000733410907300100093#96).extractLsb' (8 * a) 8)

theorem oddMachine_reached (pre : Machine (AddrBus Empty) → Prop) : ReachedEven pre oddMachine :=
  .initial ⟨⟨_, rfl⟩, fun _ => rfl, rfl⟩ (by decide)

/-- After `mret` the PC is 1, and the next step starts with the misaligned exception. -/
theorem odd_return :
    ¬ ∀ s : Machine (AddrBus Empty), ReachedEven (fun _ => True) s →
      EvenPCs s.core ∧ ∀ t, step { s with trace := [] } = .ok () t → ¬ StartMisaligned t := by
  intro hall
  have hrun : ∀ i, i < 3 →
      returns step { after oddMachine i with trace := [] } = true ∧ True := by
    decide +kernel
  have hreached := closed_after (Q := fun _ _ => True)
    (fun _ _ hs _ hstep => ReachedEven.step hs trivial hstep) (oddMachine_reached _) 3 hrun
  have hodd : (after oddMachine 3).core.currentProgramCounter = 1 := by decide +kernel
  have heven := (hall _ hreached).1.pc
  rw [hodd] at heven
  cases heven

/-- The first instruction writes neither register. -/
theorem pc_even_first :
    EvenPCs (after oddMachine 1).core ∧
      ∀ t, step { after oddMachine 1 with trace := [] } = .ok () t → ¬ StartMisaligned t ∧
        (EvenPCs t.core ↔ WritesEven { after oddMachine 1 with trace := [] }) :=
  pc_even _ (.step (oddMachine_reached _)
    (fun r data h => by cases r <;> cases (h.symm.trans (by decide +kernel : _ = none)))
    (eq_final (by decide +kernel)))

end NextEmu.Simple.EvenPC
