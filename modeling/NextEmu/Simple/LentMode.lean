import NextEmu.Simple.DataPaths

/-!
# Accesses in a lent mode

With MPRV set, M mode makes its data accesses in the mode of MPP. Nothing on the access
paths looks at the core but for `satp`, the hart id and what `dataBare` and the refusals
look at, so an access with a lent mode is one made in that mode, except where the
refusals differ: the SUM check of the read paths looks at the current mode.
-/

namespace NextEmu.Simple.LentMode

open NextEmu.Lib NextEmu.Lib.AbortState NextEmu.Lib.BitField NextEmu.Lib.RadixWalk NextEmu.Sdk
open DataPaths Translation

variable {β : Type} [SlaveAtomicIOI β]

/-- The machine with another core. -/
def withCore (c : RV64Core) (s : Machine β) : Machine β := { s with core := c }

/-- What a run shows: its result, and the TLB, the bus and the events behind it. -/
def shown {ρ : Type} : EStateM.Result Assertion (Machine β) ρ →
    Except Assertion ρ × MMU × β × List (Event β)
  | .ok r t => (.ok r, t.mmu, t.bus, t.trace)
  | .error e t => (.error e, t.mmu, t.bus, t.trace)

/-! ## What is blind to the core -/

/-- The code keeps the core, and looks at no more of it than `satp` and the hart id. -/
def Blind {ρ : Type} (x : Emu β ρ) : Prop :=
  ∀ s c, c.satp = s.core.satp → c.rvHartID = s.core.rvHartID →
    (final x s).core = s.core ∧ x (withCore c s) = mapState (withCore c) (x s)

section Blind

variable {ρ α : Type}

omit [SlaveAtomicIOI β] in
theorem blind_pure (r : ρ) : Blind (β := β) (pure r) := fun _ _ _ _ => ⟨rfl, rfl⟩

omit [SlaveAtomicIOI β] in
theorem blind_throw (e : Assertion) : Blind (β := β) (throw e : Emu β ρ) :=
  fun _ _ _ _ => ⟨rfl, rfl⟩

omit [SlaveAtomicIOI β] in
theorem blind_bind {x : Emu β α} {f : α → Emu β ρ} (hx : Blind x) (hf : ∀ a, Blind (f a)) :
    Blind (x >>= f) := by
  intro s c hsatp hhart
  obtain ⟨hcore, hrun⟩ := hx s c hsatp hhart
  unfold final at hcore ⊢
  rw [run_bind, run_bind, hrun]
  cases hxs : x s with
  | error e t =>
    rw [hxs] at hcore
    exact ⟨hcore, rfl⟩
  | ok a t =>
    rw [hxs] at hcore
    have hsame : t.core = s.core := hcore
    obtain ⟨hcore', hrun'⟩ := hf a t c (by rw [hsame, hsatp]) (by rw [hsame, hhart])
    exact ⟨hcore'.trans hsame, hrun'⟩

omit [SlaveAtomicIOI β] in
theorem blind_ite {p : Prop} [Decidable p] {x y : Emu β ρ} (hx : Blind x) (hy : Blind y) :
    Blind (if p then x else y) := by
  split
  · exact hx
  · exact hy

theorem blind_doLoad (a : Addr) (n : Nat) : Blind (β := β) (doLoad a n) :=
  fun _ _ _ _ => ⟨rfl, rfl⟩

theorem blind_doStore (a : Addr) (n : Nat) (data : BitVec (8 * n)) :
    Blind (β := β) (doStore a n data) := fun _ _ _ _ => ⟨rfl, rfl⟩

theorem blind_doReserve (a : Addr) (n : Nat) : Blind (β := β) (doReserve a n) := by
  intro s c _ hhart
  refine ⟨rfl, ?_⟩
  show EStateM.Result.ok () { withCore c s with
    bus := SlaveAtomicIOI.reserve s.bus a n c.rvHartID, trace := .reserve a n :: s.trace } = _
  rw [hhart]
  rfl

theorem blind_doCheck (a : Addr) (n : Nat) : Blind (β := β) (doCheck a n) := by
  intro s c _ hhart
  refine ⟨rfl, ?_⟩
  show EStateM.Result.ok (SlaveAtomicIOI.check s.bus a n c.rvHartID).1 { withCore c s with
    bus := (SlaveAtomicIOI.check s.bus a n c.rvHartID).2, trace := .check a n :: s.trace } = _
  rw [hhart]
  rfl

theorem blind_physRead (pa : Addr) (n : Nat) : Blind (β := β) (physRead pa n) :=
  blind_bind (blind_doLoad pa n) fun _ => blind_pure _

theorem blind_physWrite {ok fault : ρ} (pa : Addr) (n : Nat) (data : BitVec (8 * n)) :
    Blind (β := β) (physWrite ok fault pa n data) :=
  blind_bind (blind_doStore pa n data) fun _ => blind_pure _

theorem blind_physLoadReserved (pa : Addr) (n : Nat) : Blind (β := β) (physLoadReserved pa n) :=
  blind_bind (blind_doReserve pa n) fun _ => blind_bind (blind_doLoad pa n) fun _ => blind_pure _

theorem blind_physStoreConditional (fault : BitVec 63) (pa : Addr) (n : Nat)
    (data : BitVec (8 * n)) : Blind (β := β) (physStoreConditional fault pa n data) :=
  blind_bind (blind_doCheck pa n) fun _ =>
    blind_ite (blind_pure _) (blind_bind (blind_doStore pa n data) fun _ => blind_pure _)

theorem blind_physAmo (pa : Addr) (n : Nat) (op : AMOFunct) (src : BitVec 64) :
    Blind (β := β) (physAmo pa n op src) := by
  have hload : Blind (β := β) (amoLoad pa n) :=
    blind_ite (blind_bind (blind_doLoad pa 4) fun _ => blind_pure _)
      (blind_bind (blind_doLoad pa 8) fun _ => blind_pure _)
  refine blind_bind (blind_bind hload fun r => blind_ite (blind_pure _) ?_) fun _ => blind_pure _
  cases amoResult op src r.2 with
  | none => exact blind_throw _
  | some toWrite => exact blind_bind (blind_doStore pa n _) fun _ => blind_pure _

theorem blind_bare (a : DataAccess) : Blind (β := β) a.bare := by
  cases a with
  | read va n => exact blind_physRead va n
  | write va n data => exact blind_physWrite va n data
  | loadReserved va n => exact blind_physLoadReserved va n
  | storeConditional va n data => exact blind_physStoreConditional _ va n data
  | amo va n op src => exact blind_physAmo va n op src

theorem blind_act (a : DataAccess) (pa : Addr) : Blind (β := β) (a.act pa) := by
  cases a with
  | read va n => exact blind_physRead pa n
  | write va n data => exact blind_physWrite pa n data
  | loadReserved va n => exact blind_physLoadReserved pa n
  | storeConditional va n data => exact blind_physStoreConditional _ pa n data
  | amo va n op src => exact blind_physAmo pa n op src

variable {s : Machine β} {c : RV64Core}

omit [SlaveAtomicIOI β] in
theorem shown_blind {x : Emu β ρ} (hx : Blind x) (hsatp : c.satp = s.core.satp)
    (hhart : c.rvHartID = s.core.rvHartID) : shown (x (withCore c s)) = shown (x s) := by
  rw [(hx s c hsatp hhart).2]
  cases x s <;> rfl

omit [SlaveAtomicIOI β] in
theorem finish_withCore {t : Machine β} (hsatp : c.satp = t.core.satp) (va : BitVec 64)
    (w : Walked β Addr (BitVec 64)) :
    finish va (withCore c t) w = mapState (withCore c) (finish va t w) := by
  have hcore : (withCore c t).core.satp = t.core.satp := hsatp
  unfold finish
  cases w.result with
  | unreadable => rfl
  | fault => rfl
  | leaf l pte =>
    dsimp only
    rw [hcore]
    rfl

theorem walkTables_withCore {t : Machine β} (hsatp : c.satp = t.core.satp) (va : BitVec 64) :
    walkTables va (withCore c t) = mapState (withCore c) (walkTables va t) := by
  have hcore : (withCore c t).core.satp = t.core.satp := hsatp
  by_cases hmode : Satp.mode t.core.satp = 8
  · rw [walkTables_eq va t hmode, walkTables_eq va _ (hcore ▸ hmode), hcore]
    exact finish_withCore hsatp va _
  · rw [walkTables_absent hmode, walkTables_absent (hcore ▸ hmode)]
    rfl

theorem blind_getTLBEntry (va : BitVec 64) : Blind (β := β) (getTLBEntry va) := by
  intro s c hsatp _
  refine ⟨looked_core s va, ?_⟩
  have hcore : (withCore c s).core.satp = s.core.satp := hsatp
  have hnoted : translating va (withCore c s) = withCore c (translating va s) := by
    unfold translating
    rw [hcore]
    rfl
  rw [getTLBEntry_eq, getTLBEntry_eq, hcore, hnoted]
  have hmmu : (withCore c s).mmu = s.mmu := rfl
  rw [hmmu]
  by_cases hc : canonicalCheck va = true
  · rw [if_pos hc, if_pos hc]
    rcases hits s.mmu (Satp.asid s.core.satp) va with _ | ⟨i, _ | ⟨j, rest⟩⟩
    · exact walkTables_withCore (t := translating va s) hsatp va
    · rfl
    · rfl
  · rw [if_neg hc, if_neg hc]
    rfl

theorem looked_withCore (hsatp : c.satp = s.core.satp) (hhart : c.rvHartID = s.core.rvHartID)
    (va : BitVec 64) : looked (withCore c s) va = withCore c (looked s va) := by
  unfold looked final
  rw [(blind_getTLBEntry va s c hsatp hhart).2]
  cases getTLBEntry va s <;> rfl

theorem lookUp_withCore (hsatp : c.satp = s.core.satp) (va : BitVec 64) :
    lookUp (withCore c s) va = lookUp s va := by
  have hcore : (withCore c s).core.satp = s.core.satp := hsatp
  unfold lookUp
  rw [hcore]
  rfl

end Blind

/-! ## The two runs -/

/-- The core in a mode of its own, with MPRV clear. -/
def inMode (p : PrivMode) (c : RV64Core) : RV64Core :=
  { c with currentPrivMode := p, status := setBit c.status MStatus.mprv false }

/-- M mode has lent the mode `p` to its data accesses. -/
structure Lends (p : PrivMode) (c : RV64Core) : Prop where
  mode : c.currentPrivMode = .mMode
  mprv : c.status.getLsbD MStatus.mprv = true
  mpp : PrivMode.ofBits (field c.status MStatus.mpp 2) = p
  lower : p = .uMode ∨ p = .sMode

/-- An entry that the SUM check of the read paths refuses to S mode, and no check before it. -/
def SumRefused (c : RV64Core) (e : TLBEntry) : Prop :=
  c.status.getLsbD MStatus.sum = false ∧ e.u = true ∧ e.a = true ∧
    (e.r = true ∨ c.status.getLsbD MStatus.mxr = true ∧ e.x = false)

/-- A read or a load-reserved that lends S mode and finds such an entry. -/
def SumSkipped (a : DataAccess) (p : PrivMode) (s : Machine β) : Prop :=
  a.loads = true ∧ p = .sMode ∧ Satp.mode s.core.satp ≠ 0 ∧
    crossesPage a.beginAddr a.size = false ∧
    ∃ e, lookUp s a.beginAddr = .found e ∧ SumRefused s.core e

section Checks

variable {p : PrivMode} {c : RV64Core} {e : TLBEntry} {ρ : Type}

theorem inMode_bit {i : Nat} (hi : i ≠ MStatus.mprv) :
    (inMode p c).status.getLsbD i = c.status.getLsbD i := getLsbD_setBit_ne c.status false hi

theorem lent_bare (h : Lends p c) : c.dataBare = (inMode p c).dataBare := by
  have hbits : (field c.status MStatus.mpp 2 == PrivMode.mMode.toBits) = false := by
    refine beq_false_of_ne fun hm => ?_
    have hmpp := h.mpp
    rw [hm] at hmpp
    rcases h.lower with hp | hp <;> rw [hp] at hmpp <;> cases hmpp
  have hmode : ((inMode p c).currentPrivMode == .mMode) = false := by
    show (p == .mMode) = false
    rcases h.lower with hp | hp <;> rw [hp] <;> rfl
  unfold RV64Core.dataBare
  rw [hmode, h.mprv, hbits]
  simp [inMode]

/-- With paging on the access is translated. -/
theorem lent_translated (h : Lends p c) (hpaging : Satp.mode c.satp ≠ 0) : c.dataBare = false := by
  have hmode : ((inMode p c).currentPrivMode == .mMode) = false := by
    show (p == .mMode) = false
    rcases h.lower with hp | hp <;> rw [hp] <;> rfl
  rw [lent_bare h]
  unfold RV64Core.dataBare
  rw [hmode]
  exact beq_false_of_ne hpaging

theorem lent_priv (h : Lends p c) : c.dataPriv = p ∧ (inMode p c).dataPriv = p := by
  have hclear : (inMode p c).status.getLsbD MStatus.mprv = false := by
    show (setBit c.status MStatus.mprv false).getLsbD MStatus.mprv = false
    rw [getLsbD_setBit, if_pos rfl]
    rfl
  unfold RV64Core.dataPriv
  rw [hclear, h.mprv, h.mode]
  exact ⟨h.mpp, rfl⟩

theorem lent_writeRefusal (h : Lends p c) (pageFault : ρ) :
    writeRefusal pageFault c e = writeRefusal pageFault (inMode p c) e := by
  unfold writeRefusal
  rw [(lent_priv h).1, (lent_priv h).2, inMode_bit (by decide)]

/-- The read paths answer alike but for the SUM check. -/
theorem lent_readRefusal (h : Lends p c) (pageFault accessFault : ρ)
    (hsum : ¬ (p = .sMode ∧ SumRefused c e)) :
    readRefusal pageFault accessFault c e = readRefusal pageFault accessFault (inMode p c) e := by
  have hcur : (c.currentPrivMode == .sMode) = false := by
    rw [h.mode]
    rfl
  have hown : ((inMode p c).currentPrivMode == .sMode) = (p == .sMode) := rfl
  unfold readRefusal
  rw [(lent_priv h).1, (lent_priv h).2, inMode_bit (by decide), inMode_bit (by decide), hcur, hown]
  unfold SumRefused at hsum
  rcases h.lower with hp | hp
  · have hne : (p == .sMode) = false := by
      rw [hp]
      rfl
    rw [hne]
  · have heq : (p == .sMode) = true := by
      rw [hp]
      rfl
    have hnot := fun hs => hsum ⟨hp, hs⟩
    rw [heq]
    by_cases hfirst : (!e.a || !e.r && !(c.status.getLsbD MStatus.mxr && !e.x)) = true
    · rw [if_pos hfirst, if_pos hfirst]
    · have hthird : (!c.status.getLsbD MStatus.sum && true && e.u) = false := by
        refine Bool.eq_false_iff.mpr fun hs => hnot ?_
        simp only [Bool.and_true, Bool.and_eq_true, Bool.not_eq_true'] at hs
        simp only [Bool.or_eq_true, Bool.and_eq_true, Bool.not_eq_true', not_or, not_and,
          Bool.not_eq_false] at hfirst
        refine ⟨hs.1, hs.2, hfirst.1, ?_⟩
        cases hr : e.r with
        | true => exact .inl rfl
        | false => exact .inr (by simpa using hfirst.2 hr)
      rw [hthird, Bool.and_false, Bool.false_and]

theorem sumRefused_refusal (h : Lends p c) (hp : p = .sMode) (hsum : SumRefused c e)
    (pageFault accessFault : ρ) :
    readRefusal pageFault accessFault c e = none ∧
      readRefusal pageFault accessFault (inMode p c) e = some accessFault := by
  obtain ⟨hclear, hu, ha, hr⟩ := hsum
  have hfirst : (!e.a || !e.r && !(c.status.getLsbD MStatus.mxr && !e.x)) = false := by
    rcases hr with hr | ⟨hm, hx⟩
    · simp [ha, hr]
    · simp [ha, hm, hx]
  have hcur : (c.currentPrivMode == .sMode) = false := by
    rw [h.mode]
    rfl
  have hown : ((inMode p c).currentPrivMode == .sMode) = true := by
    show (p == .sMode) = true
    rw [hp]
    rfl
  unfold readRefusal
  rw [(lent_priv h).1, (lent_priv h).2, inMode_bit (by decide), inMode_bit (by decide), hcur, hown,
    hfirst, hclear, hu]
  simp

theorem lent_refuse (a : DataAccess) (h : Lends p c)
    (hsum : a.loads = true → ¬ (p = .sMode ∧ SumRefused c e)) :
    a.refuse c e = a.refuse (inMode p c) e := by
  cases a with
  | read va n => exact lent_readRefusal h _ _ (hsum rfl)
  | write va n data => exact lent_writeRefusal h _
  | loadReserved va n => exact lent_readRefusal h _ _ (hsum rfl)
  | storeConditional va n data => exact lent_writeRefusal h _
  | amo va n op src => exact lent_writeRefusal h _

theorem skipped_refuse {a : DataAccess} (h : Lends p c) (hp : p = .sMode) (hsum : SumRefused c e)
    (hloads : a.loads = true) :
    a.refuse c e = none ∧ ∃ r, a.refuse (inMode p c) e = some r := by
  cases a with
  | read va n =>
    obtain ⟨hnone, hsome⟩ := sumRefused_refusal h hp hsum
      ((.pageFault, 0) : VAddrFeedback × BitVec (8 * n)) (.accessFault, 0)
    exact ⟨hnone, _, hsome⟩
  | loadReserved va n =>
    obtain ⟨hnone, hsome⟩ := sumRefused_refusal h hp hsum
      ((Exec.storePgfault, 0) : BitVec 63 × BitVec (8 * n)) (Exec.storeAccFault, 0)
    exact ⟨hnone, _, hsome⟩
  | write va n data => cases hloads
  | storeConditional va n data => cases hloads
  | amo va n op src => cases hloads

end Checks

section Runs

variable {p : PrivMode} {s : Machine β} {a : DataAccess}

/-- The access at a physical address is noted, of a path that reads. -/
theorem act_noted (hl : a.loads = true) (pa : Addr) (t : Machine β) :
    (shown (a.act pa t)).2.2.2 ≠ t.trace := by
  have hlen : ∀ tr : List (Event β), tr.length ≠ t.trace.length → tr ≠ t.trace :=
    fun tr hne heq => hne (congrArg List.length heq)
  cases a with
  | read va n =>
    refine hlen _ ?_
    show t.trace.length + 1 ≠ t.trace.length
    omega
  | loadReserved va n =>
    refine hlen _ ?_
    show t.trace.length + 1 + 1 ≠ t.trace.length
    omega
  | write va n data => cases hl
  | storeConditional va n data => cases hl
  | amo va n op src => cases hl

/-- Behind the lookup the two runs of a path show the same, unless the SUM check would have
refused the entry. -/
theorem found_alike (h : Lends p s.core) (hd : s.core.dataBare = false)
    (hcross : crossesPage a.beginAddr a.size = false)
    (hskip : ∀ e, lookUp s a.beginAddr = .found e → a.loads = true →
      ¬ (p = .sMode ∧ SumRefused s.core e)) :
    shown ((a.path β).run s) = shown ((a.path β).run (withCore (inMode p s.core) s)) := by
  have hlooked : looked (withCore (inMode p s.core) s) (a.path β).beginAddr =
      withCore (inMode p s.core) (looked s (a.path β).beginAddr) :=
    looked_withCore (s := s) (c := inMode p s.core) rfl rfl _
  have hcore : (looked s (a.path β).beginAddr).core = s.core := looked_core s _
  have hfound : lookUp (withCore (inMode p s.core) s) (a.path β).beginAddr =
      lookUp s (a.path β).beginAddr := lookUp_withCore (s := s) (c := inMode p s.core) rfl _
  have hsame : (withCore (inMode p s.core) s).core.dataBare = s.core.dataBare :=
    (lent_bare h).symm
  rw [Path.run_lookUp (p := a.path β) (s := s) hd hcross,
    Path.run_lookUp (p := a.path β) (s := withCore (inMode p s.core) s) (hsame.trans hd) hcross,
    hlooked, hfound]
  cases hl : lookUp s (a.path β).beginAddr with
  | stops e => rfl
  | absent => rfl
  | found e =>
    have hrefuse : (a.path β).refuse s.core e =
        (a.path β).refuse (withCore (inMode p s.core) s).core e :=
      lent_refuse a h fun hloads => hskip e hl hloads
    dsimp only
    rw [← hrefuse]
    cases (a.path β).refuse s.core e with
    | some r => rfl
    | none =>
      refine (shown_blind (blind_act a _) ?_ ?_).symm
      · rw [hcore]
        rfl
      · rw [hcore]
        rfl

/-- So do they where nothing is skipped. -/
theorem alike_of_checked (h : Lends p s.core) (hskip : ¬ SumSkipped a p s) :
    shown ((a.path β).run s) = shown ((a.path β).run (withCore (inMode p s.core) s)) := by
  have hsame : (withCore (inMode p s.core) s).core.dataBare = s.core.dataBare :=
    (lent_bare h).symm
  cases hd : s.core.dataBare with
  | true =>
    rw [Path.run_direct (p := a.path β) (s := s) hd,
      Path.run_direct (p := a.path β) (s := withCore (inMode p s.core) s) (hsame.trans hd)]
    exact (shown_blind (s := s) (c := inMode p s.core) (blind_bare a) rfl rfl).symm
  | false =>
    have hpaging : Satp.mode s.core.satp ≠ 0 := by
      intro hmode
      simp [RV64Core.dataBare, hmode] at hd
    cases hcross : crossesPage a.beginAddr a.size with
    | true =>
      rw [Path.run_crossing (p := a.path β) (s := s) hd hcross,
        Path.run_crossing (p := a.path β) (s := withCore (inMode p s.core) s) (hsame.trans hd)
          hcross]
      rfl
    | false =>
      refine found_alike h hd hcross fun e he hl hs => hskip ?_
      exact ⟨hl, hs.1, hpaging, hcross, e, he, hs.2⟩

/-- Where something is, the lent run accesses the memory and the other one does not. -/
theorem unlike_of_skipped (h : Lends p s.core) (hskip : SumSkipped a p s) :
    shown ((a.path β).run s) ≠ shown ((a.path β).run (withCore (inMode p s.core) s)) := by
  obtain ⟨hloads, hp, hpaging, hcross, e, hfound, hsum⟩ := hskip
  have hd := lent_translated h hpaging
  have hsame : (withCore (inMode p s.core) s).core.dataBare = s.core.dataBare :=
    (lent_bare h).symm
  have hlooked : looked (withCore (inMode p s.core) s) (a.path β).beginAddr =
      withCore (inMode p s.core) (looked s (a.path β).beginAddr) :=
    looked_withCore (s := s) (c := inMode p s.core) rfl rfl _
  have hfound' : lookUp (withCore (inMode p s.core) s) (a.path β).beginAddr = .found e :=
    (lookUp_withCore (s := s) (c := inMode p s.core) rfl _).trans hfound
  obtain ⟨hnone, r, hsome⟩ := skipped_refuse h hp hsum hloads
  have hnone' : (a.path β).refuse s.core e = none := hnone
  have hsome' : (a.path β).refuse (withCore (inMode p s.core) s).core e = some r := hsome
  have hfirst : lookUp s (a.path β).beginAddr = .found e := hfound
  rw [Path.run_lookUp (p := a.path β) (s := s) hd hcross,
    Path.run_lookUp (p := a.path β) (s := withCore (inMode p s.core) s) (hsame.trans hd) hcross,
    hlooked, hfirst, hfound']
  dsimp only
  rw [hnone', hsome']
  intro heq
  exact act_noted hloads _ _ (congrArg (·.2.2.2) heq)

/-- An access with a lent mode shows what an access in that mode shows, exactly when it is no read
or load-reserved that the SUM check would have refused. -/
theorem lent_alike (a : DataAccess) (p : PrivMode) (s : Machine β) (h : Lends p s.core) :
    shown (a.run s) = shown (a.run (withCore (inMode p s.core) s)) ↔ ¬ SumSkipped a p s := by
  by_cases hsized : a.Sized
  · rw [DataAccess.run_path hsized, DataAccess.run_path hsized]
    exact ⟨fun heq hskip => unlike_of_skipped h hskip heq, alike_of_checked h⟩
  · rw [DataAccess.run_unsized hsized, DataAccess.run_unsized hsized]
    refine ⟨fun _ hskip => ?_, fun _ => rfl⟩
    have hloads := hskip.1
    cases a with
    | amo va n op src => cases hloads
    | _ => exact hsized trivial

end Runs

/-- The gigapage as a page of U mode. -/
def userGigapage : Nat → BitVec 8 := fun a => if a = 16 then 0xdf else gigapage a

/-- M mode that lends S mode to its data accesses, with SUM clear. -/
def lendingMachine : Machine (AddrBus Empty) :=
  Machine.start { (default : RV64Core) with
    currentPrivMode := .mMode, satp := 0x8000000000080000
    status := 1#64 <<< MStatus.mprv ||| 1#64 <<< MStatus.mpp } (memoryBus userGigapage)

theorem lendingMachine_lends : Lends .sMode lendingMachine.core where
  mode := rfl
  mprv := by decide
  mpp := by decide
  lower := .inr rfl

/-- A write is refused either way. -/
theorem lent_alike_write :
    shown ((DataAccess.write 0x80001234 4 0).run lendingMachine) =
      shown ((DataAccess.write 0x80001234 4 0).run
        (withCore (inMode .sMode lendingMachine.core) lendingMachine)) ↔
    ¬ SumSkipped (.write 0x80001234 4 0) .sMode lendingMachine :=
  lent_alike _ .sMode lendingMachine lendingMachine_lends

/-- A read of the user page succeeds with the lent mode and fails in it. -/
theorem user_page_read :
    ¬ ∀ (a : DataAccess) (p : PrivMode) (s : Machine (AddrBus Empty)), Lends p s.core →
      shown (a.run s) = shown (a.run (withCore (inMode p s.core) s)) := by
  intro hall
  have h := congrArg (fun r => match r.1 with
      | .ok r => r.1
      | .error _ => VAddrFeedback.misAlign)
    (hall (.read 0x80001234 4) .sMode lendingMachine lendingMachine_lends)
  exact absurd h (by decide +kernel)

end NextEmu.Simple.LentMode
