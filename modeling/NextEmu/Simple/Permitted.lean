import NextEmu.Simple.DataPaths

/-!
# Permitted accesses

An access of U or S mode that the manual permits reaches the memory and succeeds, on
each of the five data paths, if the bus lets it. The one exception are the read paths
on a leaf that is not readable: they let MXR open it when it is not executable either,
which no valid leaf is, and so refuse every one that MXR is there for.
-/

namespace NextEmu.Simple.Permitted

open NextEmu.Lib NextEmu.Lib.AbortState NextEmu.Lib.BitField NextEmu.Lib.RadixWalk NextEmu.Sdk
open DataPaths Translation WalkConformance

variable {β : Type} [SlaveAtomicIOI β]

/-- The sizes and the operations that the instructions have. -/
def WellFormed : DataAccess → Prop
  | .read _ n | .write _ n _ => n = 1 ∨ n = 2 ∨ n = 4 ∨ n = 8
  | .loadReserved _ n | .storeConditional _ n _ => n = 4 ∨ n = 8
  | .amo _ n op _ => (n = 4 ∨ n = 8) ∧ op ≠ .lr ∧ op ≠ .sc

/-- The bus lets the access at a physical address succeed, and the reservation of an SC holds. -/
def BusSucceeds (pa : Addr) (hart : BitVec 64) (b : β) : DataAccess → Prop
  | .read _ n => (SlaveIOI.load b pa n).1.1 = .success
  | .write _ n data => (SlaveIOI.store b pa n data).1 = .success
  | .loadReserved _ n => (SlaveIOI.load (SlaveAtomicIOI.reserve b pa n hart) pa n).1.1 = .success
  | .storeConditional _ n data =>
    (SlaveAtomicIOI.check b pa n hart).1 = true ∧
      (SlaveIOI.store (SlaveAtomicIOI.check b pa n hart).2 pa n data).1 = .success
  | .amo _ n op src =>
    (SlaveIOI.load b pa n).1.1 = .success ∧
      ∀ w, amoResult op src ((SlaveIOI.load b pa n).1.2.signExtend 64) = some w →
        (SlaveIOI.store (SlaveIOI.load b pa n).2 pa n (w.setWidth (8 * n))).1 = .success

/-- What the access does on the bus, newest first. -/
def touched (pa : Addr) : DataAccess → List (Event β)
  | .read _ n => [.load pa n]
  | .write _ n _ => [.store pa n]
  | .loadReserved _ n => [.load pa n, .reserve pa n]
  | .storeConditional _ n _ => [.store pa n, .check pa n]
  | .amo _ n _ _ => [.store pa n, .load pa n]

/-- The call makes the access at `pa`, behind its translation, and reports success. -/
def Succeeds (a : DataAccess) (pa : Addr) (s : Machine β) : Prop :=
  ∃ r t, a.run s = .ok r t ∧ a.code r = some .accessOk ∧
    a.act pa (looked s a.beginAddr) = .ok r t ∧
    t.trace = touched pa a ++ (looked s a.beginAddr).trace

section Act

variable {pa : Addr} {t : Machine β}

/-- Where the bus lets it, an AMO loads and stores. -/
theorem physAmo_succeeds {n : Nat} {op : AMOFunct} {src : BitVec 64} (hn : n = 4 ∨ n = 8)
    (hlr : op ≠ .lr) (hsc : op ≠ .sc) (hload : (SlaveIOI.load t.bus pa n).1.1 = .success)
    (hstore : ∀ w, amoResult op src ((SlaveIOI.load t.bus pa n).1.2.signExtend 64) = some w →
      (SlaveIOI.store (SlaveIOI.load t.bus pa n).2 pa n (w.setWidth (8 * n))).1 = .success) :
    ∃ r u, physAmo pa n op src t = .ok r u ∧ r.1 = Exec.ok ∧
      u.trace = Event.store pa n :: .load pa n :: t.trace := by
  obtain ⟨w, hw⟩ := amoResult_some hlr hsc src ((SlaveIOI.load t.bus pa n).1.2.signExtend 64)
  have hop : paAmoOp pa n op src t = .ok
      (true, (SlaveIOI.load t.bus pa n).1.2.signExtend 64)
      { t with
        bus := (SlaveIOI.store (SlaveIOI.load t.bus pa n).2 pa n (w.setWidth (8 * n))).2
        trace := .store pa n :: .load pa n :: t.trace } := by
    unfold paAmoOp
    rw [bind_of_ok (amoLoad_run hn pa t)]
    dsimp only
    rw [if_neg (not_not_intro hload), hw]
    show EStateM.Result.ok (decide (_ = Feedback.success), _) _ = _
    rw [hstore w hw]
    rfl
  unfold physAmo
  rw [bind_of_ok hop]
  exact ⟨_, _, rfl, rfl, rfl⟩

/-- Where the bus lets it, the access at a physical address succeeds. -/
theorem act_succeeds (a : DataAccess) (hform : WellFormed a)
    (hbus : BusSucceeds pa t.core.rvHartID t.bus a) :
    ∃ r u, a.act pa t = .ok r u ∧ a.code r = some .accessOk ∧
      u.trace = touched pa a ++ t.trace := by
  cases a with
  | read va n => exact ⟨_, _, physRead_run pa n t, congrArg some (if_pos hbus), rfl⟩
  | write va n data => exact ⟨_, _, rfl, congrArg some (if_pos hbus), rfl⟩
  | loadReserved va n =>
    have hload : (SlaveIOI.load (SlaveAtomicIOI.reserve t.bus pa n t.core.rvHartID) pa n).1.1 =
        .success := hbus
    refine ⟨_, _, rfl, ?_, rfl⟩
    show DataAccess.excFeedback (if _ then Exec.ok else Exec.storeAccFault) = _
    rw [hload]
    rfl
  | storeConditional va n data =>
    obtain ⟨hcheck, hstore⟩ := hbus
    have hrun : physStoreConditional Exec.storePgfault pa n data t = .ok (Exec.ok, false)
        { t with
          bus := (SlaveIOI.store (SlaveAtomicIOI.check t.bus pa n t.core.rvHartID).2 pa n data).2
          trace := .store pa n :: .check pa n :: t.trace } := by
      unfold physStoreConditional
      rw [run_bind]
      show (if !(SlaveAtomicIOI.check t.bus pa n t.core.rvHartID).1 then _ else _ : Emu β _) _ = _
      rw [hcheck]
      show EStateM.Result.ok (if _ then Exec.ok else Exec.storePgfault, false) _ = _
      rw [hstore]
      rfl
    exact ⟨_, _, hrun, rfl, rfl⟩
  | amo va n op src =>
    obtain ⟨hn, hlr, hsc⟩ := hform
    obtain ⟨hload, hstore⟩ := hbus
    obtain ⟨r, u, hrun, hok, htrace⟩ := physAmo_succeeds hn hlr hsc hload hstore
    refine ⟨r, u, hrun, ?_, htrace⟩
    show DataAccess.excFeedback r.1 = _
    rw [hok]
    rfl

end Act

section Refusals

variable {c : RV64Core} {ρ : Type}

/-- The manual's permission in the mode and the status of a core. -/
def PermitsIn (c : RV64Core) (leaf : Sv39.Leaf) (store : Bool) : Prop :=
  leaf.permits (c.currentPrivMode == .uMode) (c.status.getLsbD MStatus.sum)
    (c.status.getLsbD MStatus.mxr) store = true

instance (c : RV64Core) (leaf : Sv39.Leaf) (store : Bool) : Decidable (PermitsIn c leaf store) :=
  inferInstanceAs (Decidable (_ = true))

variable {asid : BitVec 16} {va : BitVec 64} {leaf : Sv39.Leaf}

/-- What a permission says of A, and of U where the refusals look at it. -/
theorem permitsIn_common {store : Bool} (h : PermitsIn c leaf store)
    (hpriv : c.currentPrivMode = .uMode ∨ c.currentPrivMode = .sMode) :
    PTE.a leaf.pte = true ∧ (c.currentPrivMode == .uMode && !PTE.u leaf.pte) = false ∧
      (!c.status.getLsbD MStatus.sum && c.currentPrivMode == .sMode && PTE.u leaf.pte) = false := by
  simp only [PermitsIn, Sv39.Leaf.permits, Bool.and_eq_true] at h
  obtain ⟨⟨ha, hu⟩, -⟩ := h
  refine ⟨ha, ?_⟩
  rcases hpriv with hp | hp
  · rw [hp] at hu ⊢
    have hbit : PTE.u leaf.pte = true := hu
    rw [hbit]
    refine ⟨rfl, ?_⟩
    show (!c.status.getLsbD MStatus.sum && false && true) = false
    rw [Bool.and_false]
    rfl
  · rw [hp] at hu ⊢
    have hbit : (!PTE.u leaf.pte || c.status.getLsbD MStatus.sum) = true := hu
    refine ⟨rfl, ?_⟩
    cases hpte : PTE.u leaf.pte with
    | false => exact Bool.and_false _
    | true =>
      rw [hpte] at hbit
      have hsum : c.status.getLsbD MStatus.sum = true := hbit
      rw [hsum]
      rfl

/-- The write path lets a permitted store through. -/
theorem writeRefusal_permitted (h : PermitsIn c leaf true)
    (hpriv : c.currentPrivMode = .uMode ∨ c.currentPrivMode = .sMode) (pageFault : ρ) :
    writeRefusal pageFault c (leafEntry asid va leaf.level leaf.pte) = none := by
  obtain ⟨ha, hu, hs⟩ := permitsIn_common h hpriv
  have hmode : c.currentPrivMode ≠ .mMode := by
    rcases hpriv with hp | hp <;> rw [hp] <;> exact PrivMode.noConfusion
  simp only [PermitsIn, Sv39.Leaf.permits, Bool.and_eq_true, if_true] at h
  have hwd : PTE.w leaf.pte = true ∧ PTE.d leaf.pte = true := h.2
  unfold writeRefusal
  rw [Isolation.dataPriv_eq hmode]
  simp only [leafEntry, TLBEntry.ofLeaf, ha, hwd.1, hwd.2, hu, hs]
  rfl

/-- The read path lets a permitted load through if the leaf is readable. -/
theorem readRefusal_permitted (h : PermitsIn c leaf false)
    (hpriv : c.currentPrivMode = .uMode ∨ c.currentPrivMode = .sMode)
    (hr : PTE.r leaf.pte = true) (pageFault accessFault : ρ) :
    readRefusal pageFault accessFault c (leafEntry asid va leaf.level leaf.pte) = none := by
  obtain ⟨ha, hu, hs⟩ := permitsIn_common h hpriv
  have hmode : c.currentPrivMode ≠ .mMode := by
    rcases hpriv with hp | hp <;> rw [hp] <;> exact PrivMode.noConfusion
  unfold readRefusal
  rw [Isolation.dataPriv_eq hmode]
  simp only [leafEntry, TLBEntry.ofLeaf, ha, hr, hu, hs]
  rfl

/-- One that is not is executable, so MXR does not help it. -/
theorem readRefusal_unreadable (h : PermitsIn c leaf false) (hr : PTE.r leaf.pte = false)
    (pageFault accessFault : ρ) :
    readRefusal pageFault accessFault c (leafEntry asid va leaf.level leaf.pte) =
      some pageFault := by
  simp only [PermitsIn, Sv39.Leaf.permits, Bool.and_eq_true] at h
  have hrx : (PTE.r leaf.pte || c.status.getLsbD MStatus.mxr && PTE.x leaf.pte) = true := h.2
  have hx : PTE.x leaf.pte = true := by
    rw [hr, Bool.false_or, Bool.and_eq_true] at hrx
    exact hrx.2
  unfold readRefusal
  simp only [leafEntry, TLBEntry.ofLeaf, hr, hx, Bool.not_true, Bool.and_false, Bool.not_false,
    Bool.true_and, Bool.or_true, if_true]

variable {a : DataAccess}

theorem refuse_permitted (asid : BitVec 16) (va : BitVec 64) (h : PermitsIn c leaf (!a.loads))
    (hpriv : c.currentPrivMode = .uMode ∨ c.currentPrivMode = .sMode)
    (hr : a.loads = true → PTE.r leaf.pte = true) :
    a.refuse c (leafEntry asid va leaf.level leaf.pte) = none := by
  cases a with
  | read va n => exact readRefusal_permitted h hpriv (hr rfl) _ _
  | loadReserved va n => exact readRefusal_permitted h hpriv (hr rfl) _ _
  | write va n data => exact writeRefusal_permitted h hpriv _
  | storeConditional va n data => exact writeRefusal_permitted h hpriv _
  | amo va n op src => exact writeRefusal_permitted h hpriv _

theorem refuse_unreadable (asid : BitVec 16) (va : BitVec 64) (h : PermitsIn c leaf (!a.loads))
    (hl : a.loads = true) (hr : PTE.r leaf.pte = false) :
    ∃ r, a.refuse c (leafEntry asid va leaf.level leaf.pte) = some r ∧
      a.code r = some .pageFault := by
  cases a with
  | read va n => exact ⟨_, readRefusal_unreadable h hr _ _, rfl⟩
  | loadReserved va n => exact ⟨_, readRefusal_unreadable h hr _ _, rfl⟩
  | write va n data => cases hl
  | storeConditional va n data => cases hl
  | amo va n op src => cases hl

end Refusals

/-- The bytes of the access lie in one page. -/
def InPage (a : DataAccess) : Prop := a.beginAddr.toNat % 2 ^ 12 + a.size ≤ 2 ^ 12

instance (a : DataAccess) : Decidable (InPage a) := inferInstanceAs (Decidable (_ ≤ _))

section Accesses

variable {a : DataAccess} {s : Machine β} {leaf : Sv39.Leaf} {rd : Sv39.Reserved}
  {m : Addr → BitVec 64}

theorem WellFormed.sized (h : WellFormed a) : a.Sized := by
  cases a with
  | amo va n op src => exact h.1
  | _ => trivial

theorem WellFormed.size_pos (h : WellFormed a) : 0 < a.size := by
  cases a with
  | read va n | write va n data =>
    rcases h with rfl | rfl | rfl | rfl <;> exact Nat.succ_pos _
  | loadReserved va n | storeConditional va n data =>
    rcases h with rfl | rfl <;> exact Nat.succ_pos _
  | amo va n op src => rcases h.1 with rfl | rfl <;> exact Nat.succ_pos _

theorem InPage.not_crosses (h : InPage a) (hpos : 0 < a.size) :
    crossesPage a.beginAddr a.size = false := by
  unfold InPage at h
  have hlt := a.beginAddr.isLt
  have hone : (1 : BitVec 64).toNat = 1 := rfl
  have hend : (a.beginAddr + BitVec.ofNat 64 a.size - 1).toNat =
      a.beginAddr.toNat + a.size - 1 := by
    rw [BitVec.toNat_sub, BitVec.toNat_add, BitVec.toNat_ofNat, hone]
    omega
  refine bne_eq_false_iff_eq.mpr (BitVec.eq_of_toNat_eq ?_)
  rw [BitVec.toNat_ushiftRight, BitVec.toNat_ushiftRight, hend, Nat.shiftRight_eq_div_pow,
    Nat.shiftRight_eq_div_pow]
  omega

/-- The lookup finds the entry of the leaf. -/
theorem lookUp_leaf (hempty : AllInvalid s.mmu) (hmode : Satp.mode s.core.satp = 8)
    (hcanon : Sv39.Canonical a.beginAddr)
    (hmem : Agrees m (pageWalk s.core.satp s.bus a.beginAddr))
    (hleaf : Sv39.leafOf rd m (Satp.ppn s.core.satp) a.beginAddr = some leaf) :
    lookUp s a.beginAddr =
        .found (leafEntry (Satp.asid s.core.satp) a.beginAddr leaf.level leaf.pte) ∧
      leaf.level ≤ 2 ∧ leaf.aligned = true := by
  have hmatch := leafOf_matches (β := β) rd m s.core.satp a.beginAddr
  obtain ⟨hw, hal, -⟩ := (hmatch leaf).mp hleaf
  refine ⟨?_, walk_leaf_level hw, hal⟩
  have hresult : (pageWalk s.core.satp s.bus a.beginAddr).result = .leaf leaf.level leaf.pte :=
    (walk_eq_lookup hmem).trans hw
  unfold lookUp
  rw [if_pos ((canonical_iff _).mpr hcanon), hempty.hits_eq]
  dsimp only
  rw [if_pos hmode, hresult]
  rfl

/-- An access of U or S mode that the leaf of the manual permits, and that the bus lets succeed,
is made and succeeds; but on a read path exactly when the leaf is readable. -/
theorem permitted_succeeds (a : DataAccess) (s : Machine β) (rd : Sv39.Reserved)
    (m : Addr → BitVec 64) (leaf : Sv39.Leaf) (hform : WellFormed a) (hpage : InPage a)
    (hpriv : s.core.currentPrivMode = .uMode ∨ s.core.currentPrivMode = .sMode)
    (hempty : AllInvalid s.mmu) (hmode : Satp.mode s.core.satp = 8)
    (hcanon : Sv39.Canonical a.beginAddr)
    (hmem : Agrees m (pageWalk s.core.satp s.bus a.beginAddr))
    (hleaf : Sv39.leafOf rd m (Satp.ppn s.core.satp) a.beginAddr = some leaf)
    (hpermits : PermitsIn s.core leaf (!a.loads))
    (hbus : BusSucceeds (leaf.physAddr a.beginAddr) s.core.rvHartID (looked s a.beginAddr).bus a) :
    Succeeds a (leaf.physAddr a.beginAddr) s ↔
      (a.loads = true → Sv39.Entry.r leaf.pte = true) := by
  obtain ⟨hfound, hlevel, hal⟩ := lookUp_leaf hempty hmode hcanon hmem hleaf
  have hdirect : s.core.dataBare = false := by
    unfold RV64Core.dataBare
    rw [hmode]
    rcases hpriv with hp | hp <;> rw [hp] <;> rfl
  have hrun : a.run s = _ := (DataAccess.run_path hform.sized s).trans
    (Path.run_lookUp (p := a.path β) hdirect (hpage.not_crosses hform.size_pos))
  have hfound' : lookUp s (a.path β).beginAddr = _ := hfound
  rw [hfound'] at hrun
  dsimp only at hrun
  have haddr : (leafEntry (Satp.asid s.core.satp) a.beginAddr leaf.level leaf.pte).ppa +
      a.beginAddr % (leafEntry (Satp.asid s.core.satp) a.beginAddr leaf.level
        leaf.pte).pagesize.bytes = leaf.physAddr a.beginAddr :=
    physAddr_eq hlevel hal a.beginAddr
  constructor
  · intro hsucc hl
    cases hr : Sv39.Entry.r leaf.pte with
    | true => rfl
    | false =>
      obtain ⟨r, hsome, hcode⟩ := refuse_unreadable (Satp.asid s.core.satp) a.beginAddr hpermits
        hl hr
      have hrefused : (a.path β).refuse s.core _ = some r := hsome
      rw [hrefused] at hrun
      obtain ⟨r', t, hrun', hcode', -⟩ := hsucc
      rw [hrun] at hrun'
      cases hrun'
      rw [hcode] at hcode'
      cases hcode'
  · intro hr
    have hnone : (a.path β).refuse s.core _ = none :=
      refuse_permitted (Satp.asid s.core.satp) a.beginAddr hpermits hpriv hr
    rw [hnone] at hrun
    have hact : a.run s = a.act (leaf.physAddr a.beginAddr) (looked s a.beginAddr) :=
      hrun.trans (congrArg (fun pa => a.act pa (looked s a.beginAddr)) haddr)
    have hcore : (looked s a.beginAddr).core = s.core := looked_core s _
    obtain ⟨r, t, hdone, hcode, htrace⟩ := act_succeeds (t := looked s a.beginAddr) a hform
      (hcore ▸ hbus)
    exact ⟨r, t, hact.trans hdone, hcode, hdone, htrace⟩

end Accesses

/-- A write of S mode in the gigapage. -/
theorem permitted_succeeds_gigapage :
    Succeeds (.write 0x80001234 4 0) ((⟨2, 0x200000cf⟩ : Sv39.Leaf).physAddr 0x80001234)
        gigapageMachine ↔
      ((DataAccess.write 0x80001234 4 0).loads = true →
        Sv39.Entry.r (0x200000cf : BitVec 64) = true) := by
  have hbus : (SlaveIOI.store (looked gigapageMachine 0x80001234).bus
      ((⟨2, 0x200000cf⟩ : Sv39.Leaf).physAddr 0x80001234) 4 0).1 = Feedback.success := by
    decide +kernel
  exact permitted_succeeds (.write 0x80001234 4 0) gigapageMachine ⟨true, true⟩ (wordsOf gigapage)
    ⟨2, 0x200000cf⟩ (.inr (.inr (.inl rfl))) (by decide +kernel) (.inr rfl) (fun _ => rfl)
    (by decide) ((canonical_iff _).mp (by decide)) (by decide +kernel) (by decide +kernel)
    (by decide +kernel) hbus

/-- The gigapage as a page that is only executable. -/
def textGigapage : Nat → BitVec 8 := fun a => if a = 16 then 0x49 else gigapage a

/-- S mode with MXR set, on that page. -/
def mxrMachine : Machine (AddrBus Empty) :=
  Machine.start { (default : RV64Core) with
    currentPrivMode := .sMode, satp := 0x8000000000080000
    status := 1#64 <<< MStatus.mxr } (memoryBus textGigapage)

/-- A load from it faults. -/
theorem text_page_refused :
    ¬ ∀ (a : DataAccess) (s : Machine (AddrBus Empty)) (rd : Sv39.Reserved) (m : Addr → BitVec 64)
      (leaf : Sv39.Leaf), WellFormed a → InPage a →
      (s.core.currentPrivMode = .uMode ∨ s.core.currentPrivMode = .sMode) →
      AllInvalid s.mmu → Satp.mode s.core.satp = 8 → Sv39.Canonical a.beginAddr →
      Agrees m (pageWalk s.core.satp s.bus a.beginAddr) →
      Sv39.leafOf rd m (Satp.ppn s.core.satp) a.beginAddr = some leaf →
      PermitsIn s.core leaf (!a.loads) →
      BusSucceeds (leaf.physAddr a.beginAddr) s.core.rvHartID (looked s a.beginAddr).bus a →
      Succeeds a (leaf.physAddr a.beginAddr) s := by
  intro hall
  have hfault : (match (DataAccess.read 0x80001234 4).run mxrMachine with
      | .ok r _ => (DataAccess.read 0x80001234 4).code r
      | .error _ _ => none) = some .pageFault := by
    decide +kernel
  have hbus : (SlaveIOI.load (looked mxrMachine 0x80001234).bus
      ((⟨2, 0x20000049⟩ : Sv39.Leaf).physAddr 0x80001234) 4).1.1 = Feedback.success := by
    decide +kernel
  obtain ⟨r, t, hrun, hcode, -⟩ := hall (.read 0x80001234 4) mxrMachine ⟨true, true⟩
    (wordsOf textGigapage) ⟨2, 0x20000049⟩ (.inr (.inr (.inl rfl))) (by decide +kernel) (.inr rfl)
    (fun _ => rfl) (by decide) ((canonical_iff _).mp (by decide)) (by decide +kernel)
    (by decide +kernel) (by decide +kernel) hbus
  rw [hrun] at hfault
  exact absurd (hcode.symm.trans hfault) (by decide)

end NextEmu.Simple.Permitted
