import NextEmu.Simple.AccessFaults

/-!
# Steps of compressed instructions

The effect of a step is that of the expansion. A load or a store makes one access of the bus: at
its own address, or where the translation takes it. In main memory the load gives the bytes at
that place and the store replaces them.
-/

namespace NextEmu.Simple.RvcSteps

open NextEmu.Lib.AbortState NextEmu.Lib.BitField NextEmu.Lib.ByteMemory NextEmu.Lib.RiscV
open NextEmu.Lib.RiscV.Compressed NextEmu.Sdk
open AccessFaults Conformance DataPaths LoadStore Outcomes Permitted PreciseTraps RvcConformance

variable {β M : Type} [SlaveAtomicIOI β]

/-! ## Where an access goes -/

/-- An access raises an exception, aborts, or is made at a physical address of the bus; `fault` is
the exception for a bus that refuses it. -/
inductive Place (β : Type)
  | raises (code : BitVec 63)
  | aborts (x : Assertion)
  | reaches (pa : Addr) (b : β) (fault : BitVec 63)

/-- Without a translation the address is the physical one. With one it is that of the entry which
the TLB or the walk of the tables has for it, if the entry is not refused. -/
def place (a : DataAccess) (m : Machine β) : Place β :=
  if ¬ Aligned a.beginAddr a.size then .raises (Fault.misaligned.code a.loads)
  else if m.core.dataBare then .reaches a.beginAddr m.bus (codes a).bare
  else match lookUp m a.beginAddr with
    | .stops x => .aborts x
    | .absent => .raises (codes a).page
    | .found e =>
      if (a.refuse m.core e).isSome then
        .raises (if SumOnly m.core e then (codes a).sum else (codes a).page)
      else .reaches (e.ppa + a.beginAddr % e.pagesize.bytes) (looked m a.beginAddr).bus
        (codes a).behind

/-- The store of a register at an address. -/
def storeOf (addr : BitVec 64) (width : Width) (data : BitVec 64) : DataAccess :=
  .write addr width.bytes (data.setWidth (8 * width.bytes))

/-! ## Steps -/

/-- The step has this effect. -/
def Conforms (mem : β → M) (len : BitVec 64) (s : Machine β) (inst : BitVec 32) : Effect → Prop
  | .write rd value => Retires mem s s.bus rd value (s.core.currentProgramCounter + len)
  | .jump rd link target => Retires mem s s.bus rd link target
  | .load rd addr width unsigned =>
    match place (.read addr width.bytes) (decoding s inst) with
    | .raises code => Excepts mem s (exception code) addr
    | .aborts x => ∃ t, step s = .error x t
    | .reaches pa b fault =>
      if (SlaveIOI.load b pa width.bytes).1.1 = .success then
        Retires mem s s.bus rd (extend unsigned (SlaveIOI.load b pa width.bytes).1.2)
          (s.core.currentProgramCounter + len)
      else Excepts mem s (exception fault) addr
  | .store addr width data =>
    match place (storeOf addr width data) (decoding s inst) with
    | .raises code => Excepts mem s (exception code) addr
    | .aborts x => ∃ t, step s = .error x t
    | .reaches pa b fault =>
      if (SlaveIOI.store b pa width.bytes (data.setWidth (8 * width.bytes))).1 = .success then
        Retires mem s (SlaveIOI.store b pa width.bytes (data.setWidth (8 * width.bytes))).2 0 0
          (s.core.currentProgramCounter + len)
      else Excepts mem s (exception fault) addr
  | .breakpoint => Excepts mem s (exception Exec.breakpoint) 0

section InMemory

variable {δ : Type} [SlaveIOI δ]

/-- The step has replaced bytes of main memory, and no register but the PC. -/
structure Replaces (s : Machine (AddrBus δ)) (x : Write 64) (pc : BitVec 64) : Prop where
  gpr : (final step s).core.gpr = s.core.gpr
  memory : contents (final step s).bus = x.apply (contents s.bus)
  pc : (final step s).core.currentProgramCounter = pc
  returns : returns step s = statusBlankZero s.core.status

/-- An access that is made in main memory reads or replaces the bytes at its physical address; one
that is made elsewhere leaves main memory alone. -/
def InMemory (len : BitVec 64) (s : Machine (AddrBus δ)) (inst : BitVec 32) : Effect → Prop
  | .load rd addr width unsigned => ∀ pa b fault,
    place (.read addr width.bytes) (decoding s inst) = .reaches pa b fault →
      Contains s.bus pa width.bytes → Retires contents s s.bus rd
        (extend unsigned (word (contents s.bus) pa width.bytes))
        (s.core.currentProgramCounter + len)
  | .store addr width data => ∀ pa b fault,
    place (storeOf addr width data) (decoding s inst) = .reaches pa b fault →
      (Contains s.bus pa width.bytes → Replaces s ⟨pa, width.bytes, data.setWidth (8 * width.bytes)⟩
        (s.core.currentProgramCounter + len)) ∧
      (s.bus.inMainMem pa = false → contents (final step s).bus = contents s.bus)
  | _ => True

end InMemory

/-! ## The accesses of the core -/

section Access

variable {a : DataAccess} {m t : Machine β} {va : BitVec 64} {width : Width} {code : BitVec 63}

/-- An exception that a data access may raise. -/
def Raisable (code : BitVec 63) : Prop := code ≠ Exec.ok ∧ code ≠ Exec.instrPgfault

theorem looked_silent (m : Machine β) {e : Option TLBEntry}
    (h : getTLBEntry va m = .ok e (looked m va)) : Silent m (looked m va) :=
  (wp_ok (silent_getTLBEntry va m) h).2 not_false

/-- How the call of an aligned access ends, by its place. -/
inductive Called (a : DataAccess) (m : Machine β) : Place β → Prop
  | raises {r : a.Answer} {t : Machine β} (silent : Silent m t) (run : a.run m = .ok r t)
      (raisable : Raisable (exceptionOf a r)) : Called a m (.raises (exceptionOf a r))
  | aborts {x : Assertion} {t : Machine β} (run : a.run m = .error x t) : Called a m (.aborts x)
  | bare (run : a.run m = a.bare m) : Called a m (.reaches a.beginAddr m.bus (codes a).bare)
  | behind {pa : Addr} {t : Machine β} (silent : Silent m t) (run : a.run m = a.act pa t) :
      Called a m (.reaches pa t.bus (codes a).behind)

theorem called_place (h : WellFormed a) (hal : Aligned a.beginAddr a.size) (m : Machine β) :
    Called a m (place a m) := by
  have hrun := DataAccess.run_path h.sized m
  unfold place
  rw [if_neg (not_not_intro hal)]
  by_cases hd : m.core.dataBare = true
  · rw [if_pos hd]
    exact .bare (hrun.trans (Path.run_direct (p := a.path β) hd))
  rw [if_neg hd]
  have hlook := hrun.trans (Path.run_lookUp (p := a.path β) (Bool.eq_false_iff.mpr hd)
    (aligned_inside h hal))
  have hget := (getTLBEntry_lookUp m a.beginAddr).2
  cases hl : lookUp m a.beginAddr with
  | stops x =>
    have hl' : lookUp m (a.path β).beginAddr = .stops x := hl
    rw [hl'] at hlook
    exact .aborts hlook
  | absent =>
    have hl' : lookUp m (a.path β).beginAddr = .absent := hl
    rw [hl'] at hlook
    rw [hl] at hget
    have hcode : exceptionOf a (a.path β).noEntry = (codes a).page := by cases a <;> rfl
    rw [← hcode]
    refine .raises (looked_silent m hget) hlook ?_
    rw [hcode]
    exact (codes_raise a).page
  | found e =>
    have hl' : lookUp m (a.path β).beginAddr = .found e := hl
    rw [hl'] at hlook
    rw [hl] at hget
    dsimp only at hlook ⊢
    cases hr : a.refuse m.core e with
    | some r =>
      have hr' : (a.path β).refuse m.core e = some r := hr
      rw [hr'] at hlook
      rw [if_pos Option.isSome_some, ← refuse_code hr]
      refine .raises (looked_silent m hget) hlook ?_
      rw [refuse_code hr]
      split
      · exact (codes_raise a).sum
      · exact (codes_raise a).page
    | none =>
      have hr' : (a.path β).refuse m.core e = none := hr
      rw [hr'] at hlook
      have hnone : ¬ (none : Option a.Answer).isSome = true := Bool.false_ne_true
      rw [if_neg hnone]
      exact .behind (looked_silent m hget) hlook

/-- A place that is reached is reached without a store. -/
theorem place_quiet {pa : Addr} {b : β} {fault : BitVec 63} (h : WellFormed a)
    (hp : place a m = .reaches pa b fault) : Quiet m.bus b := by
  have hal : Aligned a.beginAddr a.size := by
    refine Decidable.of_not_not fun hal => ?_
    unfold place at hp
    rw [if_pos hal] at hp
    cases hp
  have hcalled := called_place h hal m
  rw [hp] at hcalled
  cases hcalled with
  | bare run => exact .refl _
  | behind silent run => exact silent.bus

/-- A trap that an access raises. -/
theorem raise_run (hn : m.core.needTrap = false) (hsilent : Silent m t) (hcode : Raisable code)
    (va : BitVec 64) :
    ∃ u, raiseTrap (exception code) va t = .ok () u ∧ Trapped m u (exception code) va := by
  have hrun : raiseTrap (exception code) va t = .ok () _ :=
    raiseTrap_run (hsilent.core ▸ hn) hcode.1 hcode.2 va
  have htrap := wp_ok (raiseTrap_after hsilent (exception code) va) hrun
  exact ⟨_, hrun, htrap⟩

/-- How a read ends, by its place. -/
inductive Reads (va : BitVec 64) (n : Nat) (m : Machine β) : Place β → Prop
  | raises {code : BitVec 63} {t : Machine β} (run : memRead va n m = .ok none t)
      (trap : Trapped m t (exception code) va) : Reads va n m (.raises code)
  | aborts {x : Assertion} {t : Machine β} (run : memRead va n m = .error x t) :
      Reads va n m (.aborts x)
  | loads {pa : Addr} {b : β} {fault : BitVec 63} {t : Machine β}
      (succeeds : (SlaveIOI.load b pa n).1.1 = .success)
      (run : memRead va n m = .ok (some (SlaveIOI.load b pa n).1.2) t) (silent : Silent m t) :
      Reads va n m (.reaches pa b fault)
  | denied {pa : Addr} {b : β} {fault : BitVec 63} {t : Machine β}
      (fails : (SlaveIOI.load b pa n).1.1 ≠ .success) (run : memRead va n m = .ok none t)
      (trap : Trapped m t (exception fault) va) : Reads va n m (.reaches pa b fault)

/-- A read that the path refuses. -/
theorem memRead_refused (hn : m.core.needTrap = false) (hal : Aligned va width.bytes)
    {r : VAddrFeedback × BitVec (8 * width.bytes)} (hsilent : Silent m t)
    (hrun : vaddrReadBufferMMUAPI va width.bytes m = .ok r t)
    (hcode : Raisable (r.1.memException Exec.loadAccFault Exec.loadMisalign Exec.loadPgfault)) :
    ∃ u, memRead va width.bytes m = .ok none u ∧ Trapped m u
      (exception (r.1.memException Exec.loadAccFault Exec.loadMisalign Exec.loadPgfault)) va := by
  obtain ⟨u, hraise, htrap⟩ := raise_run hn hsilent hcode va
  have hfail : r.1 ≠ .accessOk := fun hok =>
    hcode.1 (congrArg (VAddrFeedback.memException · _ _ _) hok)
  refine ⟨u, ?_, htrap⟩
  unfold memRead
  rw [if_neg (not_not_intro ((aligned_iff va width).mpr hal)), bind_of_ok hrun]
  dsimp only
  rw [if_neg hfail, assert_bind hcode.1, bind_of_ok hraise]
  rfl

/-- A read at its place on the bus. -/
theorem memRead_reaches (hn : m.core.needTrap = false) (hal : Aligned va width.bytes) {pa : Addr}
    (hsilent : Silent m t)
    (hrun : vaddrReadBufferMMUAPI va width.bytes m = physRead pa width.bytes t) :
    Reads va width.bytes m (.reaches pa t.bus Exec.loadAccFault) := by
  rw [physRead_run] at hrun
  have hload : Silent m { t with
      bus := (SlaveIOI.load t.bus pa width.bytes).2
      trace := .load pa width.bytes :: t.trace } :=
    hsilent.trans ⟨⟨rfl, rfl⟩, .load (.refl _) _ _⟩
  by_cases hok : (SlaveIOI.load t.bus pa width.bytes).1.1 = .success
  · rw [if_pos hok] at hrun
    refine .loads hok ?_ hload
    unfold memRead
    rw [if_neg (not_not_intro ((aligned_iff va width).mpr hal)), bind_of_ok hrun]
    rfl
  · rw [if_neg hok] at hrun
    have hcode : Raisable Exec.loadAccFault := ⟨by decide, by decide⟩
    obtain ⟨u, hread, htrap⟩ := memRead_refused hn hal hload hrun hcode
    exact .denied hok hread htrap

theorem memRead_place (hn : m.core.needTrap = false) (va : BitVec 64) (width : Width) :
    Reads va width.bytes m (place (.read va width.bytes) m) := by
  by_cases hal : Aligned va width.bytes
  · have hcalled := called_place (a := .read va width.bytes) (width_bytes width) hal m
    generalize place (.read va width.bytes) m = p at hcalled ⊢
    cases hcalled with
    | raises silent run raisable =>
      obtain ⟨u, hread, htrap⟩ := memRead_refused hn hal silent run raisable
      exact .raises hread htrap
    | @aborts x t run =>
      have hrun : vaddrReadBufferMMUAPI va width.bytes m = .error x t := run
      refine .aborts (t := t) ?_
      unfold memRead
      rw [if_neg (not_not_intro ((aligned_iff va width).mpr hal)), run_bind, hrun]
    | bare run => exact memRead_reaches hn hal (.refl m) run
    | behind silent run => exact memRead_reaches hn hal silent run
  · have hplace : place (.read va width.bytes) m = .raises Exec.loadMisalign := if_pos hal
    rw [hplace]
    have hodd : ¬ va % BitVec.ofNat 64 width.bytes = 0 := fun h => hal ((aligned_iff va width).mp h)
    have hcode : Raisable Exec.loadMisalign := ⟨by decide, by decide⟩
    obtain ⟨u, hraise, htrap⟩ := raise_run hn (.refl m) hcode va
    refine .raises ?_ htrap
    unfold memRead
    rw [if_pos hodd, bind_of_ok hraise]
    rfl

/-- How a write ends, by its place. -/
inductive Writes (va : BitVec 64) (n : Nat) (src : BitVec 64) (m : Machine β) : Place β → Prop
  | raises {code : BitVec 63} {t : Machine β} (run : memWrite va n src m = .ok () t)
      (trap : Trapped m t (exception code) va) : Writes va n src m (.raises code)
  | aborts {x : Assertion} {t : Machine β} (run : memWrite va n src m = .error x t) :
      Writes va n src m (.aborts x)
  | stores {pa : Addr} {b : β} {fault : BitVec 63} {t : Machine β}
      (succeeds : (SlaveIOI.store b pa n (src.setWidth (8 * n))).1 = .success)
      (run : memWrite va n src m = .ok () t) (core : t.core = m.core)
      (bus : t.bus = (SlaveIOI.store b pa n (src.setWidth (8 * n))).2) :
      Writes va n src m (.reaches pa b fault)
  | denied {pa : Addr} {b : β} {fault : BitVec 63} {t : Machine β}
      (fails : (SlaveIOI.store b pa n (src.setWidth (8 * n))).1 ≠ .success)
      (run : memWrite va n src m = .ok () t) (trap : Trapped m t (exception fault) va) :
      Writes va n src m (.reaches pa b fault)

variable {src : BitVec 64}

theorem memWrite_refused (hn : m.core.needTrap = false) (hal : Aligned va width.bytes)
    {r : VAddrFeedback} (hsilent : Silent m t)
    (hrun : vaddrWriteBufferMMUAPI va width.bytes (src.setWidth (8 * width.bytes)) m = .ok r t)
    (hcode : Raisable (r.memException Exec.storeAccFault Exec.storeMisalign Exec.storePgfault)) :
    ∃ u, memWrite va width.bytes src m = .ok () u ∧ Trapped m u
      (exception (r.memException Exec.storeAccFault Exec.storeMisalign Exec.storePgfault)) va := by
  obtain ⟨u, hraise, htrap⟩ := raise_run hn hsilent hcode va
  have hfail : r ≠ .accessOk := fun hok =>
    hcode.1 (congrArg (VAddrFeedback.memException · _ _ _) hok)
  refine ⟨u, ?_, htrap⟩
  unfold memWrite
  rw [if_neg (not_not_intro ((aligned_iff va width).mpr hal)), bind_of_ok hrun]
  dsimp only
  rw [if_neg hfail, assert_bind hcode.1]
  exact hraise

/-- A write at its place on the bus. The two paths take a bus error for different exceptions. -/
theorem memWrite_reaches (hn : m.core.needTrap = false) (hal : Aligned va width.bytes) {pa : Addr}
    (hsilent : Silent m t) (fault : VAddrFeedback)
    (hcode : Raisable
      (fault.memException Exec.storeAccFault Exec.storeMisalign Exec.storePgfault))
    (hrun : vaddrWriteBufferMMUAPI va width.bytes (src.setWidth (8 * width.bytes)) m =
      physWrite .accessOk fault pa width.bytes (src.setWidth (8 * width.bytes)) t) :
    Writes va width.bytes src m (.reaches pa t.bus
      (fault.memException Exec.storeAccFault Exec.storeMisalign Exec.storePgfault)) := by
  have hphys : physWrite .accessOk fault pa width.bytes (src.setWidth (8 * width.bytes)) t =
      .ok (if (SlaveIOI.store t.bus pa width.bytes (src.setWidth _)).1 = .success then .accessOk
          else fault)
        { t with
          bus := (SlaveIOI.store t.bus pa width.bytes (src.setWidth _)).2
          trace := .store pa width.bytes :: t.trace } := rfl
  rw [hphys] at hrun
  by_cases hok : (SlaveIOI.store t.bus pa width.bytes (src.setWidth (8 * width.bytes))).1 = .success
  · rw [if_pos hok] at hrun
    have hwrite : memWrite va width.bytes src m = .ok () { t with
        bus := (SlaveIOI.store t.bus pa width.bytes (src.setWidth _)).2
        trace := .store pa width.bytes :: t.trace } := by
      unfold memWrite
      rw [if_neg (not_not_intro ((aligned_iff va width).mpr hal)), bind_of_ok hrun]
      rfl
    exact .stores hok hwrite hsilent.core rfl
  · rw [if_neg hok] at hrun
    have hstore : Silent m { t with
        bus := (SlaveIOI.store t.bus pa width.bytes (src.setWidth _)).2
        trace := .store pa width.bytes :: t.trace } :=
      hsilent.trans ⟨⟨rfl, rfl⟩, .failedStore (.refl _) _ _ _ hok⟩
    obtain ⟨u, hwrite, htrap⟩ := memWrite_refused hn hal hstore hrun hcode
    exact .denied hok hwrite htrap

theorem memWrite_place (hn : m.core.needTrap = false) (va : BitVec 64) (width : Width)
    (src : BitVec 64) : Writes va width.bytes src m (place (storeOf va width src) m) := by
  by_cases hal : Aligned va width.bytes
  · have hcalled := called_place (a := storeOf va width src) (width_bytes width) hal m
    generalize place (storeOf va width src) m = p at hcalled ⊢
    cases hcalled with
    | raises silent run raisable =>
      obtain ⟨u, hwrite, htrap⟩ := memWrite_refused hn hal silent run raisable
      exact .raises hwrite htrap
    | @aborts x t run =>
      have hrun : vaddrWriteBufferMMUAPI va width.bytes (src.setWidth _) m = .error x t := run
      refine .aborts (t := t) ?_
      unfold memWrite
      rw [if_neg (not_not_intro ((aligned_iff va width).mpr hal)), run_bind, hrun]
    | bare run =>
      exact memWrite_reaches hn hal (.refl m) .accessFault ⟨by decide, by decide⟩ run
    | behind silent run =>
      exact memWrite_reaches hn hal silent .pageFault ⟨by decide, by decide⟩ run
  · have hplace : place (storeOf va width src) m = .raises Exec.storeMisalign := if_pos hal
    rw [hplace]
    have hodd : ¬ va % BitVec.ofNat 64 width.bytes = 0 := fun h => hal ((aligned_iff va width).mp h)
    have hcode : Raisable Exec.storeMisalign := ⟨by decide, by decide⟩
    obtain ⟨u, hraise, htrap⟩ := raise_run hn (.refl m) hcode va
    refine .raises ?_ htrap
    unfold memWrite
    rw [if_pos hodd, bind_of_ok hraise]
    rfl

end Access

/-! ## The effects -/

section Effects

variable {mem : β → M} {s : Machine β} {inst : BitVec 32} {len : BitVec 64} {rd : BitVec 5}
  {addr data : BitVec 64} {width : Width} {unsigned : Bool}

theorem decoding_clear (h : fetchedWord s = some inst) :
    (decoding s inst).core.needTrap = false := by
  rw [(decoding_silent h).1]
  rfl

section Performed

variable (hmem : DataView mem) (h : fetchedWord s = some inst)
  (hlen : len = if isCompressed inst then 2 else 4)
include hmem h hlen

/-- A step whose access has raised an exception. -/
theorem excepts_of_trapped {t : Machine β} {cause : Cause} {tval : BitVec 64}
    (hrun : execute inst (decoding s inst) = .ok retired t)
    (htrap : Trapped (decoding s inst) t cause tval) : Excepts mem s cause tval := by
  obtain ⟨hcore, hquiet⟩ := decoding_silent h
  refine (Ran.mk h hlen hrun).excepts ?_ (hmem.quiet (hquiet.trans htrap.bus))
  rw [htrap.core, hcore]

theorem conforms_load
    (hp : Performs len (execute inst) (decoding s inst) (.load rd addr width unsigned)) :
    Conforms mem len s inst (.load rd addr width unsigned) := by
  obtain ⟨hcore, hquiet⟩ := decoding_silent h
  have hreads := memRead_place (decoding_clear h) addr width
  have hrun : execute inst (decoding s inst) =
      loadGPR addr width.bytes (extend unsigned) rd (decoding s inst) := hp
  unfold loadGPR at hrun
  simp only [Conforms]
  generalize place (.read addr width.bytes) (decoding s inst) = p at hreads ⊢
  cases hreads with
  | raises run trap =>
    rw [bind_of_ok run] at hrun
    exact excepts_of_trapped hmem h hlen hrun trap
  | aborts run =>
    rw [run_bind, run] at hrun
    exact ⟨_, step_abort h hrun⟩
  | loads succeeds run silent =>
    rw [bind_of_ok run] at hrun
    dsimp only
    rw [if_pos succeeds]
    refine (Ran.mk h hlen hrun).retires ?_ (hmem.quiet (hquiet.trans silent.bus))
    rw [silent.core, hcore]
  | denied fails run trap =>
    rw [bind_of_ok run] at hrun
    dsimp only
    rw [if_neg fails]
    exact excepts_of_trapped hmem h hlen hrun trap

theorem conforms_store
    (hp : Performs len (execute inst) (decoding s inst) (.store addr width data)) :
    Conforms mem len s inst (.store addr width data) := by
  have hcore := (decoding_silent h).1
  have hwrites := memWrite_place (decoding_clear h) addr width data
  have hrun : execute inst (decoding s inst) =
      (do memWrite addr width.bytes data; return retired : Emu β ExecFlags) (decoding s inst) := hp
  simp only [Conforms]
  generalize place (storeOf addr width data) (decoding s inst) = p at hwrites ⊢
  cases hwrites with
  | raises run trap =>
    rw [bind_of_ok run] at hrun
    exact excepts_of_trapped hmem h hlen hrun trap
  | aborts run =>
    rw [run_bind, run] at hrun
    exact ⟨_, step_abort h hrun⟩
  | stores succeeds run core bus =>
    rw [bind_of_ok run] at hrun
    dsimp only
    rw [if_pos succeeds]
    refine (Ran.mk h hlen hrun).retires ?_ (congrArg mem bus)
    rw [core, hcore]
    rfl
  | denied fails run trap =>
    rw [bind_of_ok run] at hrun
    dsimp only
    rw [if_neg fails]
    exact excepts_of_trapped hmem h hlen hrun trap

theorem conforms_breakpoint
    (hp : Performs len (execute inst) (decoding s inst) .breakpoint) :
    Conforms mem len s inst .breakpoint := by
  have hcode : Raisable Exec.breakpoint := ⟨by decide, by decide⟩
  obtain ⟨t, hraise, htrap⟩ := raise_run (decoding_clear h) (.refl _) hcode 0
  have hrun : execute inst (decoding s inst) =
      (do ebreak; return retired : Emu β ExecFlags) (decoding s inst) := hp
  unfold ebreak at hrun
  rw [bind_of_ok hraise] at hrun
  exact excepts_of_trapped hmem h hlen hrun htrap

/-- A step whose instruction performs an effect conforms to it. -/
theorem conforms_of_performs {e : Effect}
    (hp : Performs len (execute inst) (decoding s inst) e) : Conforms mem len s inst e := by
  obtain ⟨hcore, hquiet⟩ := decoding_silent h
  have hview : mem (decoding s inst).bus = mem s.bus := hmem.quiet hquiet
  cases e with
  | write rd value =>
    refine (Ran.mk h hlen hp).retires ?_ hview
    rw [hcore]
  | jump rd link target =>
    rcases hp with hp | ⟨hp, rfl, rfl⟩
    · refine (Ran.mk h hlen hp).jumps ?_ hview
      rw [hcore]
    · rw [hcore]
      exact (Ran.mk h hlen hp).retires hcore hview
  | load rd addr width unsigned => exact conforms_load hmem h hlen hp
  | store addr width data => exact conforms_store hmem h hlen hp
  | breakpoint => exact conforms_breakpoint hmem h hlen hp

end Performed

end Effects

/-! ## Main memory -/

section Memory

variable {δ : Type} [SlaveIOI δ] {s : Machine (AddrBus δ)} {inst : BitVec 32} {len : BitVec 64}

/-- A store that is not at an address of main memory. -/
theorem store_elsewhere {b : AddrBus δ} {pa : Addr} {n : Nat} (h : b.inMainMem pa = false)
    (x : BitVec (8 * n)) : region (b.store pa n x).2 = region b := by
  obtain ⟨hmain, hbegin, hend, -⟩ := b.breakReservation_memory pa (BitVec.ofNat 64 n)
  have hout : (b.breakReservation pa (BitVec.ofNat 64 n)).inMainMem pa = false := by
    unfold AddrBus.inMainMem at h ⊢
    rw [hmain, hbegin, hend]
    exact h
  rw [← region_congr hmain hbegin hend]
  unfold AddrBus.store AddrBus.storeRouted
  rw [if_neg (Bool.eq_false_iff.mp hout)]
  split <;> rfl

omit [SlaveIOI δ] in
theorem inMainMem_congr {b c : AddrBus δ} {pa : Addr} (hr : region c = region b) :
    c.inMainMem pa = b.inMainMem pa := by
  obtain ⟨hmem, hb, he⟩ := region_parts hr
  unfold AddrBus.inMainMem
  rw [hmem, hb, he]

theorem contents_view : DataView (fun b : AddrBus δ => contents b) :=
  dataView_of fun _ _ hmain hbegin hend => congrArg contentsOf (region_congr hmain hbegin hend)

/-- The bytes of main memory behind an effect. -/
theorem Conforms.inMemory (hw : fetchedWord s = some inst) {e : Effect}
    (h : Conforms contents len s inst e) : InMemory len s inst e := by
  have hquiet := (decoding_silent hw).2
  cases e with
  | load rd addr width unsigned =>
    intro pa b fault hp hin
    have hregion : region b = region s.bus :=
      region_view.quiet (hquiet.trans (place_quiet (a := .read addr width.bytes)
        (width_bytes width) hp))
    simp only [Conforms, hp] at h
    have hload : SlaveIOI.load b pa width.bytes =
        ((.success, word (contents b) pa width.bytes), b) := load_contained (hin.congr hregion)
    have hsame : contents b = contents s.bus := congrArg contentsOf hregion
    rw [hload, if_pos rfl, hsame] at h
    exact h
  | store addr width data =>
    intro pa b fault hp
    have hregion : region b = region s.bus :=
      region_view.quiet (hquiet.trans (place_quiet (a := storeOf addr width data)
        (width_bytes width) hp))
    have hsame : contents b = contents s.bus := congrArg contentsOf hregion
    simp only [Conforms, hp] at h
    constructor
    · intro hin
      have hstore := store_contained (hin.congr hregion) (data.setWidth (8 * width.bytes))
      have hok : (SlaveIOI.store b pa width.bytes (data.setWidth (8 * width.bytes))).1 =
          .success := hstore.1
      rw [if_pos hok] at h
      refine ⟨funext fun r => ?_, ?_, h.pc, h.returns⟩
      · rw [h.gpr r, if_neg]
        rintro ⟨rfl, hne⟩
        exact hne rfl
      · rw [h.memory, ← hsame]
        exact hstore.2
    · intro hout
      have helse : region (SlaveIOI.store b pa width.bytes (data.setWidth (8 * width.bytes))).2 =
          region b :=
        store_elsewhere ((inMainMem_congr hregion).trans hout) (data.setWidth (8 * width.bytes))
      split at h
      · rw [h.memory, ← hsame]
        exact congrArg contentsOf helse
      · exact h.memory
  | _ => exact trivial

end Memory

/-! ## The theorem -/

section Rvc

variable {s : Machine β} {inst : BitVec 32} {i : Inst}

/-- The code of a compressed instruction performs the effect of its expansion in the step. -/
theorem decoding_performs (h : fetchedWord s = some inst)
    (hexp : expand (inst.setWidth 16) = some i) (h0 : s.core.gpr 0 = 0) :
    Performs 2 (execute inst) (decoding s inst)
      (i.effect 2 s.core.gpr s.core.currentProgramCounter) := by
  have hcore := (decoding_silent h).1
  have hrun := rvc_performs (decoding s inst) inst (fun _ => by rw [hcore]; exact h0) hexp
  unfold PerformsInst at hrun
  rw [hcore] at hrun
  unfold execute
  rw [isCompressed_of_expand inst hexp]
  exact hrun

theorem step_conforms {mem : β → M} (hmem : DataView mem) (h : fetchedWord s = some inst)
    (hexp : expand (inst.setWidth 16) = some i) (h0 : s.core.gpr 0 = 0) :
    Conforms mem 2 s inst (i.effect 2 s.core.gpr s.core.currentProgramCounter) := by
  have hlen : (2 : BitVec 64) = if isCompressed inst then 2 else 4 := by
    rw [isCompressed_of_expand inst hexp]
    rfl
  exact conforms_of_performs hmem h hlen (decoding_performs h hexp h0)

end Rvc

/-- A step that fetches a compressed instruction has the effect of its expansion, over any bus; over
one with a main memory, what it loads are the bytes there and what it stores replaces them. -/
theorem rvc_conforms (inst : BitVec 32) (i : Inst) (hexp : expand (inst.setWidth 16) = some i) :
    (∀ (β M : Type) [SlaveAtomicIOI β] (mem : β → M) (s : Machine β), DataView mem →
      fetchedWord s = some inst → s.core.gpr 0 = 0 →
        Conforms mem 2 s inst (i.effect 2 s.core.gpr s.core.currentProgramCounter)) ∧
    ∀ (δ : Type) [SlaveIOI δ] (s : Machine (AddrBus δ)), fetchedWord s = some inst →
      s.core.gpr 0 = 0 →
        InMemory 2 s inst (i.effect 2 s.core.gpr s.core.currentProgramCounter) :=
  ⟨fun _ _ _ _ _ hmem h h0 => step_conforms hmem h hexp h0,
    fun _ _ _ h h0 => (step_conforms contents_view h hexp h0).inMemory h⟩

/-- `c.sd x9, 0(x8)` at the start of the memory. -/
def storeMachine : Machine (AddrBus Empty) :=
  Machine.start { (default : RV64Core) with
    currentProgramCounter := 0x80000000, nextPrivMode := .mMode
    gpr := fun r => if r = 8 then 0x80000100 else if r = 9 then 0xfedcba9876543210 else 0 }
    (Translation.memoryBus fun a => (0xe004#16).extractLsb' (8 * a) 8)

theorem rvc_conforms_sd :
    Replaces storeMachine ⟨0x80000100, 8, 0xfedcba9876543210⟩ 0x80000002 := by
  have hplace : place (storeOf 0x80000100 .double 0xfedcba9876543210)
      (decoding storeMachine 0xe004) =
        .reaches 0x80000100 (decoding storeMachine 0xe004).bus Exec.storeAccFault := by
    unfold place
    rw [if_neg (not_not_intro (by decide)), if_pos (by decide +kernel)]
    rfl
  exact ((rvc_conforms 0xe004 (.store .double 8 9 0) (by decide)).2 Empty storeMachine
    (by decide +kernel) rfl _ _ _ hplace).1
    ⟨by decide +kernel, by decide +kernel, by decide +kernel⟩

end NextEmu.Simple.RvcSteps
