import NextEmu.Simple.DataPaths

/-!
# Translations that do not abort

`getTLBEntry` asserts that the address is canonical, that no two entries of the TLB
match it and that the page table loads succeed. The first and the last are up to the
guest, and no access path looks at either before, so a call of a path returns exactly
when they hold of each translation that it makes. A page-crossing access makes none.
-/

namespace NextEmu.Simple.Unaborted

open NextEmu.Lib NextEmu.Lib.AbortState NextEmu.Lib.BitField NextEmu.Lib.RadixWalk NextEmu.Sdk
open DataPaths Translation WalkConformance

variable {β : Type} [SlaveAtomicIOI β]

/-! ## The accesses of a call -/

/-- An access that a path makes from a state. -/
structure Part (β : Type) where
  direct : Bool
  va : BitVec 64
  size : Nat
  start : Machine β

namespace Part

/-- The TLB has no entry for the address, and a load of its walk fails. -/
def TableLoadFails (p : Part β) : Prop :=
  hits p.start.mmu (Satp.asid p.start.core.satp) p.va = [] ∧ Satp.mode p.start.core.satp = 8 ∧
    (pageWalk p.start.core.satp p.start.bus p.va).result = .unreadable

/-- The code that a bad address and a failing page table load give. -/
structure Answered (p : Part β) (k : VAddrFeedback) : Prop where
  nonCanonical : p.direct = false → ¬ Sv39.Canonical p.va → k = .pageFault
  tableLoad : p.direct = false → Sv39.Canonical p.va → crossesPage p.va p.size = false →
    p.TableLoadFails → k = .accessFault

/-- The access is not translated, or its address is canonical and, if it stays in its page, no two
entries match and the loads of the walk succeed. -/
def Regular (p : Part β) : Prop :=
  p.direct = true ∨ Sv39.Canonical p.va ∧ (crossesPage p.va p.size = true ∨
    (hits p.start.mmu (Satp.asid p.start.core.satp) p.va).length ≤ 1 ∧ ¬ p.TableLoadFails)

/-- The misaligned code answers canonical addresses only. -/
theorem Answered.canonical {p : Part β} {k : VAddrFeedback} (h : p.Answered k)
    (hmis : k = .misAlign) (hd : p.direct = false) : Sv39.Canonical p.va := by
  refine Classical.byContradiction fun hcanon => ?_
  have hpage := h.nonCanonical hd hcanon
  rw [hmis] at hpage
  cases hpage

/-- Of a regular access the two codes are not called for. -/
theorem Regular.answered {p : Part β} (h : p.Regular) (k : VAddrFeedback) : p.Answered k := by
  constructor
  · intro hd hcanon
    rcases h with hdirect | ⟨hc, -⟩
    · exact absurd (hdirect.symm.trans hd) (by decide)
    · exact absurd hc hcanon
  · intro hd _ hcross hfails
    rcases h with hdirect | ⟨-, hcrosses | ⟨-, hloads⟩⟩
    · exact absurd (hdirect.symm.trans hd) (by decide)
    · exact absurd (hcrosses.symm.trans hcross) (by decide)
    · exact absurd hfails hloads

end Part

/-- What the lookup stops at. -/
theorem lookUp_stops {s : Machine β} {va : BitVec 64} : (∃ e, lookUp s va = .stops e) ↔
    ¬ (Sv39.Canonical va ∧ (hits s.mmu (Satp.asid s.core.satp) va).length ≤ 1 ∧
      ¬ (hits s.mmu (Satp.asid s.core.satp) va = [] ∧ Satp.mode s.core.satp = 8 ∧
        (pageWalk s.core.satp s.bus va).result = .unreadable)) := by
  rw [← canonical_iff]
  unfold lookUp
  by_cases hc : canonicalCheck va = true
  · rw [if_pos hc]
    rcases hits s.mmu (Satp.asid s.core.satp) va with _ | ⟨i, _ | ⟨j, rest⟩⟩
    · by_cases hmode : Satp.mode s.core.satp = 8
      · simp only [hc, hmode]
        cases (pageWalk s.core.satp s.bus va).result <;> simp [walkLookup]
      · simp only [hc, hmode, if_false, false_and, and_false, not_false_eq_true, and_true]
        simp
    · simp [hc]
    · simp [hc]
  · simp [hc]

/-! ## One path -/

section Paths

variable {ρ : Type} {p : Path β ρ} {code : ρ → Option VAddrFeedback} {s : Machine β}

/-- The access that a path makes. -/
def partOf (p : Path β ρ) (s : Machine β) : Part β where
  direct := p.direct s.core
  va := p.beginAddr
  size := p.size
  start := s

/-- Code that returns, with a code that is defined. -/
def Coded (code : ρ → Option VAddrFeedback) (x : Emu β ρ) : Prop :=
  ∀ s, ∃ r t k, x s = .ok r t ∧ code r = some k

/-- What a path does apart from its lookup returns one of its codes. -/
structure CodedPath (code : ρ → Option VAddrFeedback) (p : Path β ρ) : Prop where
  bare : Coded code p.bare
  act : ∀ pa, Coded code (p.act pa)
  crossPage : code p.crossPage = some .misAlign
  noEntry : code p.noEntry = some .pageFault
  refuse : ∀ c e r, p.refuse c e = some r → ∃ k, code r = some k

/-- A regular access returns. -/
theorem CodedPath.returns (hp : CodedPath code p) (h : (partOf p s).Regular) :
    ∃ r t k, p.run s = .ok r t ∧ code r = some k := by
  cases hd : p.direct s.core with
  | true =>
    rw [Path.run_direct hd]
    exact hp.bare s
  | false =>
    cases hcross : crossesPage p.beginAddr p.size with
    | true => exact ⟨_, _, _, Path.run_crossing hd hcross, hp.crossPage⟩
    | false =>
      have hlookup : ¬ ∃ e, lookUp s p.beginAddr = .stops e := by
        rw [lookUp_stops, Classical.not_not]
        rcases h with hdirect | ⟨hcanon, hcrosses | hone⟩
        · exact absurd (hdirect.symm.trans hd) (by decide)
        · exact absurd (hcrosses.symm.trans hcross) (by decide)
        · exact ⟨hcanon, hone⟩
      rw [Path.run_lookUp hd hcross]
      cases hl : lookUp s p.beginAddr with
      | stops e => exact absurd ⟨e, hl⟩ hlookup
      | absent => exact ⟨_, _, _, rfl, hp.noEntry⟩
      | found e =>
        dsimp only
        cases hr : p.refuse s.core e with
        | some r =>
          obtain ⟨k, hk⟩ := hp.refuse _ _ _ hr
          exact ⟨r, _, k, rfl, hk⟩
        | none => exact hp.act _ _

/-- An access that returns is regular, unless its address is bad and it leaves its page. -/
theorem CodedPath.regular (hp : CodedPath code p) {r : ρ} {t : Machine β} {k : VAddrFeedback}
    (hrun : p.run s = .ok r t) (hk : code r = some k)
    (hmis : k = .misAlign → p.direct s.core = false → Sv39.Canonical p.beginAddr) :
    (partOf p s).Regular := by
  cases hd : p.direct s.core with
  | true => exact .inl hd
  | false =>
    refine .inr ?_
    cases hcross : crossesPage p.beginAddr p.size with
    | true =>
      rw [Path.run_crossing hd hcross] at hrun
      cases hrun
      rw [hp.crossPage] at hk
      cases hk
      exact ⟨hmis rfl hd, .inl hcross⟩
    | false =>
      have hlookup : ¬ ∃ e, lookUp s p.beginAddr = .stops e := by
        rintro ⟨e, hl⟩
        rw [Path.run_lookUp hd hcross, hl] at hrun
        cases hrun
      rw [lookUp_stops, Classical.not_not] at hlookup
      exact ⟨hlookup.1, .inr hlookup.2⟩

end Paths

/-! ## The data paths -/

section Data

variable {ρ : Type} {c : RV64Core} {e : TLBEntry} {r : ρ}

theorem readRefusal_codes {pf af : ρ} (h : readRefusal pf af c e = some r) : r = pf ∨ r = af := by
  unfold readRefusal at h
  split at h
  · exact .inl (Option.some.inj h).symm
  · split at h
    · exact .inl (Option.some.inj h).symm
    · split at h
      · exact .inr (Option.some.inj h).symm
      · cases h

theorem writeRefusal_codes {pf : ρ} (h : writeRefusal pf c e = some r) : r = pf := by
  unfold writeRefusal at h
  split at h
  · exact (Option.some.inj h).symm
  · split at h
    · exact (Option.some.inj h).symm
    · split at h
      · exact (Option.some.inj h).symm
      · cases h

/-- The operations that the instructions have; what calls the AMO path promises them. -/
def Callable : DataAccess → Prop
  | .amo _ n op _ => (n = 4 ∨ n = 8) ∧ op ≠ .lr ∧ op ≠ .sc
  | _ => True

theorem Callable.sized {a : DataAccess} (h : Callable a) : a.Sized := by
  cases a with
  | amo va n op src => exact h.1
  | _ => trivial

/-- An AMO at a physical address reports success or an access fault. -/
theorem physAmo_codes {n : Nat} {op : AMOFunct} (hn : n = 4 ∨ n = 8) (hlr : op ≠ .lr)
    (hsc : op ≠ .sc) (pa : Addr) (src : BitVec 64) (s : Machine β) :
    ∃ r t, physAmo pa n op src s = .ok r t ∧ (r.1 = Exec.ok ∨ r.1 = Exec.storeAccFault) := by
  have hcodes : ∀ b : Bool, (if b then Exec.ok else Exec.storeAccFault) = Exec.ok ∨
      (if b then Exec.ok else Exec.storeAccFault) = Exec.storeAccFault := by decide
  have hop : ∃ r t, paAmoOp pa n op src s = .ok r t := by
    unfold paAmoOp
    rw [bind_of_ok (amoLoad_run hn pa s)]
    dsimp only
    by_cases hload : (SlaveIOI.load s.bus pa n).1.1 = .success
    · obtain ⟨w, hw⟩ := amoResult_some hlr hsc src ((SlaveIOI.load s.bus pa n).1.2.signExtend 64)
      rw [if_neg (not_not_intro hload), hw]
      exact ⟨_, _, rfl⟩
    · rw [if_pos hload]
      exact ⟨_, _, rfl⟩
  obtain ⟨r, t, hrun⟩ := hop
  unfold physAmo
  rw [bind_of_ok hrun]
  exact ⟨_, _, rfl, hcodes _⟩

theorem excFeedback_ite {q : Prop} [Decidable q] {x y : BitVec 63}
    (hx : ∃ k, DataAccess.excFeedback x = some k) (hy : ∃ k, DataAccess.excFeedback y = some k) :
    ∃ k, DataAccess.excFeedback (if q then x else y) = some k := by
  split
  · exact hx
  · exact hy

theorem excFeedback_ok : ∃ k, DataAccess.excFeedback Exec.ok = some k := ⟨.accessOk, rfl⟩

theorem excFeedback_accFault : ∃ k, DataAccess.excFeedback Exec.storeAccFault = some k :=
  ⟨.accessFault, rfl⟩

theorem excFeedback_pgfault : ∃ k, DataAccess.excFeedback Exec.storePgfault = some k :=
  ⟨.pageFault, rfl⟩

theorem physLoadReserved_coded (pa : Addr) (n : Nat) (va : BitVec 64) :
    Coded (β := β) (DataAccess.loadReserved va n).code (physLoadReserved pa n) := by
  intro s
  obtain ⟨k, hk⟩ := excFeedback_ite excFeedback_ok excFeedback_accFault (q :=
    (SlaveIOI.load (SlaveAtomicIOI.reserve s.bus pa n s.core.rvHartID) pa n).1.1 = .success)
  exact ⟨_, _, k, rfl, hk⟩

theorem physStoreConditional_coded {fault : BitVec 63}
    (hfault : ∃ k, DataAccess.excFeedback fault = some k) (pa : Addr) (n : Nat)
    (data : BitVec (8 * n)) (va : BitVec 64) :
    Coded (β := β) (DataAccess.storeConditional va n data).code
      (physStoreConditional fault pa n data) := by
  intro s
  unfold physStoreConditional
  rw [run_bind]
  show ∃ r t k, (if !(SlaveAtomicIOI.check s.bus pa n s.core.rvHartID).1 then _
    else _ : Emu β _) _ = .ok r t ∧ _
  cases (SlaveAtomicIOI.check s.bus pa n s.core.rvHartID).1 with
  | false => exact ⟨_, _, .accessOk, rfl, rfl⟩
  | true =>
    obtain ⟨k, hk⟩ := excFeedback_ite excFeedback_ok hfault (q :=
      (SlaveIOI.store (SlaveAtomicIOI.check s.bus pa n s.core.rvHartID).2 pa n data).1 = .success)
    exact ⟨_, _, k, rfl, hk⟩

theorem physAmo_coded {n : Nat} {op : AMOFunct} {src va : BitVec 64}
    (h : Callable (.amo va n op src)) (pa : Addr) :
    Coded (β := β) (DataAccess.amo va n op src).code (physAmo pa n op src) := by
  intro s
  obtain ⟨r, t, hrun, hcode⟩ := physAmo_codes h.1 h.2.1 h.2.2 pa src s
  rcases hcode with hr | hr
  · exact ⟨r, t, .accessOk, hrun, (congrArg DataAccess.excFeedback hr)⟩
  · exact ⟨r, t, .accessFault, hrun, (congrArg DataAccess.excFeedback hr)⟩

theorem data_refuse {a : DataAccess} {r : a.Answer} (h : a.refuse c e = some r) :
    ∃ k, a.code r = some k := by
  cases a with
  | read va n => exact ⟨_, rfl⟩
  | write va n data => exact ⟨_, rfl⟩
  | loadReserved va n =>
    rcases readRefusal_codes h with rfl | rfl
    · exact excFeedback_pgfault
    · exact excFeedback_accFault
  | storeConditional va n data =>
    cases writeRefusal_codes h
    exact excFeedback_pgfault
  | amo va n op src =>
    cases writeRefusal_codes h
    exact excFeedback_pgfault

theorem data_coded {a : DataAccess} (h : Callable a) : CodedPath a.code (a.path β) := by
  constructor
  case bare =>
    cases a with
    | read va n => exact fun s => ⟨_, _, _, rfl, rfl⟩
    | write va n data => exact fun s => ⟨_, _, _, rfl, rfl⟩
    | loadReserved va n => exact physLoadReserved_coded va n va
    | storeConditional va n data =>
      exact physStoreConditional_coded excFeedback_accFault va n data va
    | amo va n op src => exact physAmo_coded h va
  case act =>
    intro pa
    cases a with
    | read va n => exact fun s => ⟨_, _, _, rfl, rfl⟩
    | write va n data => exact fun s => ⟨_, _, _, rfl, rfl⟩
    | loadReserved va n => exact physLoadReserved_coded pa n va
    | storeConditional va n data =>
      exact physStoreConditional_coded excFeedback_pgfault pa n data va
    | amo va n op src => exact physAmo_coded h pa
  case crossPage => cases a <;> rfl
  case noEntry => cases a <;> rfl
  case refuse => exact fun _ _ _ hr => data_refuse hr

end Data

/-! ## The fetch -/

section Fetch

variable {va : BitVec 64} {n : Nat} {s : Machine β}

/-- The path of a fetch that is not split. -/
def fetchPath (β : Type) [SlaveAtomicIOI β] (va : BitVec 64) (n : Nat) :
    Path β (VAddrFeedback × BitVec (8 * n)) where
  beginAddr := va
  size := n
  direct := fun c => decide (c.currentPrivMode = .mMode ∨ Satp.mode c.satp = 0)
  bare := physRead va n
  crossPage := (.misAlign, 0)
  noEntry := (.pageFault, 0)
  refuse := fetchRefusal (.pageFault, 0)
  act := fun pa => physRead pa n

theorem instFetchPart_path (heven : va % 2 = 0) (s : Machine β) :
    instFetchPart va n s = (fetchPath β va n).run s := by
  unfold instFetchPart Path.run
  rw [assert_bind heven, bind_of_ok (getCore_run s), bind_of_ok (getCore_run s)]
  by_cases hd : s.core.currentPrivMode = .mMode ∨ Satp.mode s.core.satp = 0
  · have hdirect : (fetchPath β va n).direct s.core = true := decide_eq_true hd
    rw [if_pos hd, if_pos hdirect]
    rfl
  · have hdirect : (fetchPath β va n).direct s.core = false := decide_eq_false hd
    rw [if_neg hd, hdirect]
    rfl

theorem fetch_coded : CodedPath (fun r => some r.1) (fetchPath β va n) where
  bare := fun _ => ⟨_, _, _, rfl, rfl⟩
  act := fun _ _ => ⟨_, _, _, rfl, rfl⟩
  crossPage := rfl
  noEntry := rfl
  refuse := fun _ _ _ _ => ⟨_, rfl⟩

end Fetch

/-! ## The calls -/

/-- A call of one of the paths. -/
inductive Call
  | data (a : DataAccess)
  | fetch (va : BitVec 64) (size : Nat)

/-- The accesses of a call. The second half of a split fetch is made when the first succeeded. -/
inductive Makes : Call → Machine β → Part β → Prop
  | data {a : DataAccess} {s : Machine β} : Makes (.data a) s (partOf (a.path β) s)
  | whole {va : BitVec 64} {n : Nat} {s : Machine β} : ¬ (n = 4 ∧ va % 4 = 2) →
      Makes (.fetch va n) s (partOf (fetchPath β va n) s)
  | low {va : BitVec 64} {s : Machine β} : va % 4 = 2 →
      Makes (.fetch va 4) s (partOf (fetchPath β va 2) s)
  | high {va : BitVec 64} {s t : Machine β} {bytes : BitVec 16} : va % 4 = 2 →
      instFetchPart va 2 s = .ok (.accessOk, bytes) t →
      Makes (.fetch va 4) s (partOf (fetchPath β (va + 2) 2) t)

namespace Call

/-- The result code, if the call returns and its code is one of those that the path defines. -/
def code (c : Call) (s : Machine β) : Option VAddrFeedback :=
  match c with
  | data a => match a.run s with
    | .ok r _ => a.code r
    | .error _ _ => none
  | fetch va n => match vaddrInstFetchMMUAPI va n s with
    | .ok r _ => some r.1
    | .error _ _ => none

/-- The call returns a defined code, which is the one that each of its accesses calls for. -/
def Answered (c : Call) (s : Machine β) : Prop :=
  ∃ k, c.code s = some k ∧ ∀ p, Makes c s p → p.Answered k

/-- The address of a fetch is even, and each access of the call is regular. -/
def Regular (c : Call) (s : Machine β) : Prop :=
  (match c with
    | data _ => True
    | fetch va _ => va % 2 = 0) ∧ ∀ p, Makes c s p → p.Regular

def WellFormed : Call → Prop
  | data a => Callable a
  | fetch _ _ => True

end Call

section Calls

variable {va : BitVec 64} {n : Nat} {s : Machine β}

/-- A path that is the only access of its call. -/
theorem answered_path {ρ : Type} {p : Path β ρ} {code : ρ → Option VAddrFeedback}
    (hp : CodedPath code p) :
    (∃ r t k, p.run s = .ok r t ∧ code r = some k ∧ (partOf p s).Answered k) ↔
      (partOf p s).Regular := by
  constructor
  · rintro ⟨r, t, k, hrun, hk, hans⟩
    exact hp.regular hrun hk fun hmis hd => hans.canonical hmis hd
  · intro hreg
    obtain ⟨r, t, k, hrun, hk⟩ := hp.returns hreg
    exact ⟨r, t, k, hrun, hk, hreg.answered k⟩

/-- A call that makes one access, by a path that defines its codes. -/
theorem answered_single {ρ : Type} {p : Path β ρ} {code : ρ → Option VAddrFeedback} {c : Call}
    (hp : CodedPath code p) (hreturn : ∀ r t, p.run s = .ok r t → c.code s = code r)
    (habort : ∀ e t, p.run s = .error e t → c.code s = none)
    (hmakes : ∀ q, Makes c s q ↔ q = partOf p s) :
    c.Answered s ↔ ∀ q, Makes c s q → q.Regular := by
  unfold Call.Answered
  simp only [hmakes, forall_eq]
  rw [← answered_path hp]
  constructor
  · rintro ⟨k, hk, hans⟩
    cases hrun : p.run s with
    | ok r t => exact ⟨r, t, k, rfl, (hreturn r t hrun).symm.trans hk, hans⟩
    | error e t =>
      rw [habort e t hrun] at hk
      cases hk
  · rintro ⟨r, t, k, hrun, hk, hans⟩
    exact ⟨k, (hreturn r t hrun).trans hk, hans⟩

theorem answered_data {a : DataAccess} (h : Callable a) :
    (Call.data a).Answered s ↔ (Call.data a).Regular s := by
  have hmakes : ∀ q, Makes (.data a) s q ↔ q = partOf (a.path β) s := by
    intro q
    constructor
    · rintro ⟨⟩
      rfl
    · rintro rfl
      exact .data
  have hsingle : (Call.data a).Answered s ↔ ∀ q, Makes (.data a) s q → q.Regular := by
    refine answered_single (data_coded h) (fun r t hrun => ?_) (fun e t hrun => ?_) hmakes
    · unfold Call.code
      simp only [DataAccess.run_path h.sized, hrun]
    · unfold Call.code
      simp only [DataAccess.run_path h.sized, hrun]
  exact hsingle.trans (and_iff_right trivial).symm

theorem fetch_odd (hodd : va % 2 ≠ 0) : (Call.fetch va n).code s = none := by
  unfold Call.code vaddrInstFetchMMUAPI assertThat
  dsimp only
  rw [if_neg hodd]
  rfl

theorem fetch_whole (heven : va % 2 = 0) (hwhole : ¬ (n = 4 ∧ va % 4 = 2)) :
    vaddrInstFetchMMUAPI va n s = (fetchPath β va n).run s := by
  unfold vaddrInstFetchMMUAPI
  rw [assert_bind heven, if_neg hwhole]
  exact instFetchPart_path heven s

/-- The code of a fetch in two halves: the first one's when that failed. -/
theorem fetch_split (heven : va % 2 = 0) (hsplit : va % 4 = 2) :
    (Call.fetch va 4).code s = match (fetchPath β va 2).run s with
      | .ok r t => if r.1 ≠ .accessOk then some r.1
        else match (fetchPath β (va + 2) 2).run t with
          | .ok r' _ => some r'.1
          | .error _ _ => none
      | .error _ _ => none := by
  have heven2 : (va + 2) % 2 = 0 := by
    refine BitVec.eq_of_toNat_eq ?_
    have htwo := congrArg BitVec.toNat heven
    simp only [BitVec.toNat_umod, BitVec.toNat_add, BitVec.reduceToNat] at htwo ⊢
    omega
  unfold Call.code vaddrInstFetchMMUAPI
  dsimp only
  rw [assert_bind heven, if_pos ⟨rfl, hsplit⟩, run_bind, instFetchPart_path heven]
  cases (fetchPath β va 2).run s with
  | error e t => rfl
  | ok r t =>
    by_cases hok : r.1 = .accessOk
    · simp only [hok, ne_eq, not_true, if_false]
      rw [run_bind, instFetchPart_path heven2]
      cases (fetchPath β (va + 2) 2).run t with
      | error e u => rfl
      | ok r' u =>
        by_cases hok' : r'.1 = .accessOk
        · simp only [hok', not_true, if_false]
          rfl
        · simp only [hok', not_false_eq_true, if_true]
          rfl
    · simp only [hok, ne_eq, not_false_eq_true, if_true]
      rfl

theorem answered_whole (heven : va % 2 = 0) (hwhole : ¬ (n = 4 ∧ va % 4 = 2)) :
    (Call.fetch va n).Answered s ↔ (Call.fetch va n).Regular s := by
  have hmakes : ∀ q, Makes (.fetch va n) s q ↔ q = partOf (fetchPath β va n) s := by
    intro q
    constructor
    · intro hq
      cases hq with
      | whole => rfl
      | low hsplit => exact absurd ⟨rfl, hsplit⟩ hwhole
      | high hsplit => exact absurd ⟨rfl, hsplit⟩ hwhole
    · rintro rfl
      exact .whole hwhole
  have hsingle : (Call.fetch va n).Answered s ↔ ∀ q, Makes (.fetch va n) s q → q.Regular := by
    refine answered_single fetch_coded (fun r t hrun => ?_) (fun e t hrun => ?_) hmakes
    · unfold Call.code
      simp only [fetch_whole heven hwhole, hrun]
    · unfold Call.code
      simp only [fetch_whole heven hwhole, hrun]
  exact hsingle.trans (and_iff_right heven).symm

/-- What a split fetch answers for its halves. -/
theorem regular_of_split (heven : va % 2 = 0) (hsplit : va % 4 = 2)
    (h : (Call.fetch va 4).Answered s) : (Call.fetch va 4).Regular s := by
  obtain ⟨k, hcode, hans⟩ := h
  rw [fetch_split heven hsplit] at hcode
  cases hlow : (fetchPath β va 2).run s with
  | error e t =>
    rw [hlow] at hcode
    cases hcode
  | ok r t =>
    rw [hlow] at hcode
    dsimp only at hcode
    refine ⟨heven, fun p hp => ?_⟩
    cases hp with
    | whole hwhole => exact absurd ⟨rfl, hsplit⟩ hwhole
    | low =>
      refine fetch_coded.regular hlow rfl fun hk hd => ?_
      have hne : r.1 ≠ .accessOk := by
        rw [hk]
        decide
      rw [if_pos hne] at hcode
      have hlowAns : (partOf (fetchPath β va 2) s).Answered k := hans _ (.low hsplit)
      have hcanon := hlowAns.canonical ((Option.some.inj hcode).symm.trans hk) hd
      exact hcanon
    | high _ hfirst =>
      rw [instFetchPart_path heven, hlow] at hfirst
      cases hfirst
      rw [if_neg (not_not_intro rfl)] at hcode
      cases hhigh : (fetchPath β (va + 2) 2).run t with
      | error e u =>
        rw [hhigh] at hcode
        cases hcode
      | ok r' u =>
        rw [hhigh] at hcode
        have hfirst' : instFetchPart va 2 s = .ok _ t := (instFetchPart_path heven s).trans hlow
        refine fetch_coded.regular hhigh rfl fun hk hd => ?_
        have hhighAns : (partOf (fetchPath β (va + 2) 2) t).Answered k :=
          hans _ (.high hsplit hfirst')
        have hcanon := hhighAns.canonical ((Option.some.inj hcode).symm.trans hk) hd
        exact hcanon

theorem split_of_regular (hsplit : va % 4 = 2) (h : (Call.fetch va 4).Regular s) :
    (Call.fetch va 4).Answered s := by
  obtain ⟨heven, hreg⟩ := h
  suffices hcode : ∃ k, (Call.fetch va 4).code s = some k by
    obtain ⟨k, hk⟩ := hcode
    exact ⟨k, hk, fun p hp => (hreg p hp).answered k⟩
  obtain ⟨r, t, -, hlow, -⟩ := fetch_coded.returns (hreg _ (.low hsplit))
  rw [fetch_split heven hsplit, hlow]
  dsimp only
  by_cases hok : r.1 = .accessOk
  · have hfirst : instFetchPart va 2 s = .ok (.accessOk, r.2) t := by
      rw [instFetchPart_path heven, hlow, ← hok]
    obtain ⟨r', u, -, hhigh, -⟩ := fetch_coded.returns (hreg _ (.high hsplit hfirst))
    rw [if_neg (not_not_intro hok), hhigh]
    exact ⟨r'.1, rfl⟩
  · exact ⟨r.1, if_pos hok⟩

/-- A call of any of the six paths returns the code that its accesses call for exactly when each
of them is regular. -/
theorem answered_iff_regular (c : Call) (s : Machine β) (h : c.WellFormed) :
    c.Answered s ↔ c.Regular s := by
  cases c with
  | data a => exact answered_data h
  | fetch va n =>
    by_cases heven : va % 2 = 0
    · by_cases hsplit : n = 4 ∧ va % 4 = 2
      · obtain ⟨rfl, hsplit⟩ := hsplit
        exact ⟨regular_of_split heven hsplit, split_of_regular hsplit⟩
      · exact answered_whole heven hsplit
    · constructor
      · rintro ⟨k, hk, -⟩
        rw [fetch_odd heven] at hk
        cases hk
      · rintro ⟨heven', -⟩
        exact absurd heven' heven

end Calls

/-- A read in the gigapage. -/
theorem answered_iff_regular_gigapage :
    (Call.data (.read 0x80001234 4)).Answered gigapageMachine ↔
      (Call.data (.read 0x80001234 4)).Regular gigapageMachine :=
  answered_iff_regular (.data (.read 0x80001234 4)) gigapageMachine trivial

/-- A read at the first address that is not canonical stops the emulator. -/
theorem noncanonical_aborts :
    ¬ ∀ (c : Call) (s : Machine (AddrBus Empty)), c.WellFormed → c.Answered s := by
  intro hall
  obtain ⟨k, hk, -⟩ := hall (.data (.read 0x4000000000 1)) gigapageMachine trivial
  have hnone : (Call.data (.read 0x4000000000 1)).code gigapageMachine = none := by
    decide +kernel
  rw [hnone] at hk
  cases hk

end NextEmu.Simple.Unaborted
