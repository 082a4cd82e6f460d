import NextEmu.Simple.LoadStore
import NextEmu.Simple.Permitted
import NextEmu.Simple.Refusal
import NextEmu.Simple.RvcConformance

/-!
# The exceptions of data accesses

For an access that an instruction asks for, which exception is due: the misaligned one,
else the page fault if the translation refuses it, else the access fault if the bus does,
each of the class of the access. What the code raises instead is read off a table with one
line for each data path. The two agree on the loads, but for a page that SUM closes; the
stores and the SCs take a page fault for a bus error behind a translation, the atomic
operations do not look at the alignment, and LR is in the class of the stores.
-/

namespace NextEmu.Simple.AccessFaults

open NextEmu.Lib NextEmu.Lib.AbortState NextEmu.Lib.BitField NextEmu.Lib.RiscV NextEmu.Sdk
open Conformance DataPaths LoadStore Outcomes Permitted Refusal Unaborted

variable {β : Type} [SlaveAtomicIOI β]

/-! ## What is due -/

inductive Fault
  | misaligned | page | access
  deriving DecidableEq, Repr

/-- The exception of a class; LR is in that of the loads, SC and the AMOs in that of the stores. -/
def Fault.code (loads : Bool) : Fault → BitVec 63
  | misaligned => if loads then Exec.loadMisalign else Exec.storeMisalign
  | page => if loads then Exec.loadPgfault else Exec.storePgfault
  | access => if loads then Exec.loadAccFault else Exec.storeAccFault

/-- The bus refuses the access at a physical address. An SC without a reservation makes none. -/
def Denied (pa : Addr) (t : Machine β) : DataAccess → Prop
  | .read _ n => (SlaveIOI.load t.bus pa n).1.1 ≠ .success
  | .write _ n data => (SlaveIOI.store t.bus pa n data).1 ≠ .success
  | .loadReserved _ n =>
    (SlaveIOI.load (SlaveAtomicIOI.reserve t.bus pa n t.core.rvHartID) pa n).1.1 ≠ .success
  | .storeConditional _ n data =>
    (SlaveAtomicIOI.check t.bus pa n t.core.rvHartID).1 = true ∧
      (SlaveIOI.store (SlaveAtomicIOI.check t.bus pa n t.core.rvHartID).2 pa n data).1 ≠ .success
  | .amo _ n op src =>
    (SlaveIOI.load t.bus pa n).1.1 = .success →
      ∃ w ∈ amoResult op src ((SlaveIOI.load t.bus pa n).1.2.signExtend 64),
        (SlaveIOI.store (SlaveIOI.load t.bus pa n).2 pa n (w.setWidth (8 * n))).1 ≠ .success

instance (pa : Addr) (t : Machine β) (a : DataAccess) : Decidable (Denied pa t a) :=
  match a with
  | .read _ _ | .write _ _ _ | .loadReserved _ _ => inferInstanceAs (Decidable (_ ≠ _))
  | .storeConditional _ _ _ => inferInstanceAs (Decidable (_ ∧ _ ≠ _))
  | .amo _ _ _ _ => inferInstanceAs (Decidable (_ → ∃ w ∈ _, _ ≠ _))

/-- The access fault, when the bus refuses. -/
def busFault (pa : Addr) (t : Machine β) (a : DataAccess) : Option Fault :=
  if Denied pa t a then some .access else none

/-- The fault that is due. A translation refuses an address that is not canonical, one without
an entry, and what the checks of the path refuse; a bus that fails a load of the walk refuses the
access. -/
def due (m : Machine β) (a : DataAccess) : Option Fault :=
  if ¬ Aligned a.beginAddr a.size then some .misaligned
  else if m.core.dataBare then busFault a.beginAddr m a
  else match lookUp m a.beginAddr with
    | .stops .canonical => some .page
    | .stops .pteLoadOk => some .access
    | .stops _ => none
    | .absent => some .page
    | .found e =>
      if (a.refuse m.core e).isSome then some .page
      else busFault (e.ppa + a.beginAddr % e.pagesize.bytes) (looked m a.beginAddr) a

/-! ## Which instruction asks for which access -/

/-- The operation of an AMO in the words of the source. -/
def functOf : AtomicOp → AMOFunct
  | .sc => .sc
  | .swap => .swap
  | .add => .add
  | .xor => .xor
  | .and => .and
  | .or => .or
  | .min => .min
  | .max => .max
  | .minu => .minu
  | .maxu => .maxu

/-- The size of an atomic access. -/
def atomicBytes (double : Bool) : Nat := if double then 8 else 4

/-- The word is that of a load, a store, an LR, an SC or an AMO, which asks for the access. -/
inductive Asks (x : Reg → BitVec 64) : BitVec 32 → DataAccess → Prop
  | load (op : LoadOp) (rd rs1 : Reg) (imm : BitVec 12) :
      Asks x (MemInst.load op rd rs1 imm).encode (.read (x rs1 + imm.signExtend 64) op.width.bytes)
  | store (width : Width) (rs1 rs2 : Reg) (imm : BitVec 12) :
      Asks x (MemInst.store width rs1 rs2 imm).encode
        (.write (x rs1 + imm.signExtend 64) width.bytes ((x rs2).setWidth (8 * width.bytes)))
  | compressedLoad {w : BitVec 32} {width : Width} {unsigned : Bool} {rd rs1 : Reg}
      {imm : BitVec 12}
      (h : Compressed.expand (w.setWidth 16) = some (.load width unsigned rd rs1 imm)) :
      Asks x w (.read (x rs1 + imm.signExtend 64) width.bytes)
  | compressedStore {w : BitVec 32} {width : Width} {rs1 rs2 : Reg} {imm : BitVec 12}
      (h : Compressed.expand (w.setWidth 16) = some (.store width rs1 rs2 imm)) :
      Asks x w
        (.write (x rs1 + imm.signExtend 64) width.bytes ((x rs2).setWidth (8 * width.bytes)))
  | loadReserved (double : Bool) (order : BitVec 2) (rd rs1 : Reg) :
      Asks x (AtomicInst.lr double order rd rs1).encode (.loadReserved (x rs1) (atomicBytes double))
  | storeConditional (double : Bool) (order : BitVec 2) (rd rs1 rs2 : Reg) :
      Asks x (AtomicInst.amo .sc double order rd rs1 rs2).encode
        (.storeConditional (x rs1) (atomicBytes double) ((x rs2).setWidth (8 * atomicBytes double)))
  | amo {op : AtomicOp} (h : op ≠ .sc) (double : Bool) (order : BitVec 2) (rd rs1 rs2 : Reg) :
      Asks x (AtomicInst.amo op double order rd rs1 rs2).encode
        (.amo (x rs1) (atomicBytes double) (functOf op) (x rs2))

theorem width_bytes (width : Width) :
    width.bytes = 1 ∨ width.bytes = 2 ∨ width.bytes = 4 ∨ width.bytes = 8 := by
  cases width <;> decide

theorem atomicBytes_cases (double : Bool) : atomicBytes double = 4 ∨ atomicBytes double = 8 := by
  cases double <;> decide

theorem Asks.wellFormed {x : Reg → BitVec 64} {w : BitVec 32} {a : DataAccess}
    (h : Asks x w a) : WellFormed a := by
  cases h with
  | load op rd rs1 imm => exact width_bytes _
  | store width rs1 rs2 imm => exact width_bytes _
  | compressedLoad h => exact width_bytes _
  | compressedStore h => exact width_bytes _
  | loadReserved double order rd rs1 => exact atomicBytes_cases _
  | storeConditional double order rd rs1 rs2 => exact atomicBytes_cases _
  | @amo op h double order rd rs1 rs2 =>
    refine ⟨atomicBytes_cases _, ?_, ?_⟩
    · cases op <;> exact nofun
    · cases op with
      | sc => exact absurd rfl h
      | _ => exact nofun

/-! ## What the code raises -/

/-- The exception of an answer. -/
def exceptionOf : (a : DataAccess) → a.Answer → BitVec 63
  | .read _ _, r => r.1.memException Exec.loadAccFault Exec.loadMisalign Exec.loadPgfault
  | .write _ _ _, r => r.memException Exec.storeAccFault Exec.storeMisalign Exec.storePgfault
  | .loadReserved _ _, r | .storeConditional _ _ _, r | .amo _ _ _ _, r => r.1

/-- Whether the alignment is checked ahead of the path, as `memRead` and `memWrite` do. -/
def checked : DataAccess → Bool
  | .read _ _ | .write _ _ _ => true
  | _ => false

/-- The exception of a call; none if it succeeds, or aborts. -/
def called (m : Machine β) (a : DataAccess) : Option (BitVec 63) :=
  match a.run m with
  | .ok r _ => if exceptionOf a r = Exec.ok then none else some (exceptionOf a r)
  | .error _ _ => none

/-- The exception that the instruction raises. -/
def raised (m : Machine β) (a : DataAccess) : Option (BitVec 63) :=
  if checked a ∧ ¬ Aligned a.beginAddr a.size then some (Fault.misaligned.code a.loads)
  else called m a

/-- The exceptions of a data path: for an access that leaves its page, for one that the translation
refuses, for a page that SUM alone closes, and for a bus error without a translation and behind
one. -/
structure Codes where
  cross : BitVec 63
  page : BitVec 63
  sum : BitVec 63
  bare : BitVec 63
  behind : BitVec 63

def codes : DataAccess → Codes
  | .read _ _ =>
    { cross := Exec.loadMisalign, page := Exec.loadPgfault, sum := Exec.loadAccFault,
      bare := Exec.loadAccFault, behind := Exec.loadAccFault }
  | .loadReserved _ _ =>
    { cross := Exec.storeMisalign, page := Exec.storePgfault, sum := Exec.storeAccFault,
      bare := Exec.storeAccFault, behind := Exec.storeAccFault }
  | .write _ _ _ | .storeConditional _ _ _ =>
    { cross := Exec.storeMisalign, page := Exec.storePgfault, sum := Exec.storePgfault,
      bare := Exec.storeAccFault, behind := Exec.storePgfault }
  | .amo _ _ _ _ =>
    { cross := Exec.storeMisalign, page := Exec.storePgfault, sum := Exec.storePgfault,
      bare := Exec.storeAccFault, behind := Exec.storeAccFault }

/-- A user page that S mode reads without SUM, and that the other checks let through. -/
def SumOnly (c : RV64Core) (e : TLBEntry) : Prop :=
  e.a = true ∧ (e.r = true ∨ c.status.getLsbD MStatus.mxr = true ∧ e.x = false) ∧
    c.status.getLsbD MStatus.sum = false ∧ c.currentPrivMode = .sMode ∧ e.u = true

instance (c : RV64Core) (e : TLBEntry) : Decidable (SumOnly c e) :=
  inferInstanceAs (Decidable (_ ∧ _))

/-- The translation of an address does not abort. -/
def Answers (m : Machine β) (va : BitVec 64) : Prop := ∀ x, lookUp m va ≠ .stops x

/-- When the code raises a fault that is due. -/
def Right (m : Machine β) (a : DataAccess) : Fault → Prop
  | .misaligned => match a with
    | .read _ _ | .write _ _ _ => True
    | .loadReserved _ _ => False
    | .storeConditional va n _ | .amo va n _ _ =>
      m.core.dataBare = false ∧ crossesPage va n = true
  | .page => match a with
    | .read va _ => Answers m va ∧ ∀ e, lookUp m va = .found e → ¬ SumOnly m.core e
    | .loadReserved _ _ => False
    | .write va _ _ | .storeConditional va _ _ | .amo va _ _ _ => Answers m va
  | .access => match a with
    | .read va _ | .amo va _ _ _ => m.core.dataBare = true ∨ Answers m va
    | .loadReserved _ _ => False
    | .write _ _ _ | .storeConditional _ _ _ => m.core.dataBare = true

/-! ## The table -/

section Table

variable {t : Machine β} {c : RV64Core} {e : TLBEntry}

/-- What the read paths answer where they refuse. -/
theorem readRefusal_some {ρ : Type} {p f r : ρ} (h : readRefusal p f c e = some r) :
    r = if SumOnly c e then f else p := by
  unfold readRefusal at h
  split at h
  · rename_i hpage
    have hnot : ¬ SumOnly c e := by
      rintro ⟨ha, hr, -⟩
      rw [ha] at hpage
      rcases hr with hr | ⟨hmxr, hx⟩
      · rw [hr] at hpage
        exact Bool.false_ne_true hpage
      · rw [hmxr, hx] at hpage
        simp at hpage
    rw [if_neg hnot]
    exact (Option.some.inj h).symm
  · rename_i hopen
    split at h
    · rename_i huser
      have hnot : ¬ SumOnly c e := by
        rintro ⟨-, -, -, -, hu⟩
        rw [hu] at huser
        simp at huser
      rw [if_neg hnot]
      exact (Option.some.inj h).symm
    · split at h
      · rename_i hsum
        simp only [Bool.and_eq_true, Bool.not_eq_true', beq_iff_eq] at hsum
        have honly : SumOnly c e := by
          simp only [Bool.or_eq_true, Bool.and_eq_true, Bool.not_eq_true', not_or, not_and,
            Bool.not_eq_false] at hopen
          refine ⟨hopen.1, ?_, hsum.1.1, hsum.1.2, hsum.2⟩
          cases hr : e.r with
          | true => exact .inl rfl
          | false => exact .inr (by simpa using hopen.2 hr)
        rw [if_pos honly]
        exact (Option.some.inj h).symm
      · cases h

/-- The exception where the checks of a path refuse. -/
theorem refuse_code {a : DataAccess} {r : a.Answer} (h : a.refuse c e = some r) :
    exceptionOf a r = if SumOnly c e then (codes a).sum else (codes a).page := by
  cases a with
  | read va n =>
    rw [readRefusal_some h]
    split <;> rfl
  | loadReserved va n =>
    rw [readRefusal_some h]
    split <;> rfl
  | write va n data =>
    rw [writeRefusal_codes h]
    exact (ite_self _).symm
  | storeConditional va n data =>
    rw [writeRefusal_codes h]
    exact (ite_self _).symm
  | amo va n op src =>
    rw [writeRefusal_codes h]
    exact (ite_self _).symm

theorem physWrite_code {fault : VAddrFeedback} (pa va : Addr) (n : Nat) (data : BitVec (8 * n)) :
    ∃ r u, physWrite .accessOk fault pa n data t = .ok r u ∧
      exceptionOf (.write va n data) r =
        if Denied pa t (.write va n data) then
          fault.memException Exec.storeAccFault Exec.storeMisalign Exec.storePgfault
        else Exec.ok := by
  refine ⟨_, _, rfl, ?_⟩
  show (if (SlaveIOI.store t.bus pa n data).1 = .success then VAddrFeedback.accessOk
    else fault).memException _ _ _ = _
  by_cases hs : (SlaveIOI.store t.bus pa n data).1 = .success
  · have hlet : ¬ Denied pa t (.write va n data) := fun h => h hs
    rw [if_pos hs, if_neg hlet]
    rfl
  · have hdenied : Denied pa t (.write va n data) := hs
    rw [if_neg hs, if_pos hdenied]

theorem physStoreConditional_code {fault : BitVec 63} (pa va : Addr) (n : Nat)
    (data : BitVec (8 * n)) :
    ∃ r u, physStoreConditional fault pa n data t = .ok r u ∧
      exceptionOf (.storeConditional va n data) r =
        if Denied pa t (.storeConditional va n data) then fault else Exec.ok := by
  unfold physStoreConditional
  rw [run_bind]
  show ∃ r u, (if !(SlaveAtomicIOI.check t.bus pa n t.core.rvHartID).1 then _ else _ :
    Emu β _) _ = .ok r u ∧ _
  cases hcheck : (SlaveAtomicIOI.check t.bus pa n t.core.rvHartID).1 with
  | false =>
    have hlet : ¬ Denied pa t (.storeConditional va n data) := fun h =>
      Bool.false_ne_true (hcheck.symm.trans h.1)
    exact ⟨_, _, rfl, (if_neg hlet).symm⟩
  | true =>
    refine ⟨_, _, rfl, ?_⟩
    show (if (SlaveIOI.store (SlaveAtomicIOI.check t.bus pa n t.core.rvHartID).2 pa n data).1 =
      .success then Exec.ok else fault) = _
    by_cases hs : (SlaveIOI.store (SlaveAtomicIOI.check t.bus pa n t.core.rvHartID).2 pa n
        data).1 = .success
    · have hlet : ¬ Denied pa t (.storeConditional va n data) := fun h => h.2 hs
      rw [if_pos hs, if_neg hlet]
    · have hdenied : Denied pa t (.storeConditional va n data) := ⟨hcheck, hs⟩
      rw [if_neg hs, if_pos hdenied]

/-- An AMO at a physical address does not say which of its two accesses was refused. -/
theorem physAmo_code {va : Addr} {n : Nat} {op : AMOFunct} {src : BitVec 64}
    (h : Callable (.amo va n op src)) (pa : Addr) :
    ∃ r u, physAmo pa n op src t = .ok r u ∧
      exceptionOf (.amo va n op src) r =
        if Denied pa t (.amo va n op src) then Exec.storeAccFault else Exec.ok := by
  obtain ⟨hn, hlr, hsc⟩ := h
  obtain ⟨w, hw⟩ := amoResult_some hlr hsc src ((SlaveIOI.load t.bus pa n).1.2.signExtend 64)
  have hop : ∃ res u, paAmoOp pa n op src t =
      .ok (decide (¬ Denied pa t (.amo va n op src)), res) u := by
    unfold paAmoOp
    rw [bind_of_ok (amoLoad_run hn pa t)]
    dsimp only
    by_cases hload : (SlaveIOI.load t.bus pa n).1.1 = .success
    · rw [if_neg (not_not_intro hload), hw]
      refine ⟨_, _, congrArg (fun b => EStateM.Result.ok (b, _) _) (decide_eq_decide.mpr ?_)⟩
      constructor
      · intro hs hdenied
        obtain ⟨w', hw', hne⟩ := hdenied hload
        cases hw.symm.trans hw'
        exact hne hs
      · intro hlet
        exact Decidable.of_not_not fun hne => hlet fun _ => ⟨w, hw, hne⟩
    · have hdenied : Denied pa t (.amo va n op src) := fun hs => absurd hs hload
      rw [if_pos hload, decide_eq_false (not_not_intro hdenied)]
      exact ⟨_, _, rfl⟩
  obtain ⟨res, u, hrun⟩ := hop
  unfold physAmo
  rw [bind_of_ok hrun]
  refine ⟨_, _, rfl, ?_⟩
  show (if decide (¬ Denied pa t (.amo va n op src)) = true then Exec.ok
    else Exec.storeAccFault) = _
  by_cases hdenied : Denied pa t (.amo va n op src)
  · rw [if_pos hdenied, decide_eq_false (not_not_intro hdenied)]
    rfl
  · rw [if_neg hdenied, decide_eq_true hdenied]
    rfl

theorem physRead_code (pa va : Addr) (n : Nat) :
    ∃ r u, physRead pa n t = .ok r u ∧
      exceptionOf (.read va n) r = if Denied pa t (.read va n) then Exec.loadAccFault
        else Exec.ok := by
  refine ⟨_, _, physRead_run pa n t, ?_⟩
  show (if (SlaveIOI.load t.bus pa n).1.1 = .success then VAddrFeedback.accessOk
    else .accessFault).memException _ _ _ = _
  by_cases hl : (SlaveIOI.load t.bus pa n).1.1 = .success
  · have hlet : ¬ Denied pa t (.read va n) := fun h => h hl
    rw [if_pos hl, if_neg hlet]
    rfl
  · have hdenied : Denied pa t (.read va n) := hl
    rw [if_neg hl, if_pos hdenied]
    rfl

theorem physLoadReserved_code (pa va : Addr) (n : Nat) :
    ∃ r u, physLoadReserved pa n t = .ok r u ∧
      exceptionOf (.loadReserved va n) r = if Denied pa t (.loadReserved va n) then
        Exec.storeAccFault else Exec.ok := by
  refine ⟨_, _, rfl, ?_⟩
  show (if (SlaveIOI.load (SlaveAtomicIOI.reserve t.bus pa n t.core.rvHartID) pa n).1.1 = .success
    then Exec.ok else Exec.storeAccFault) = _
  by_cases hl : (SlaveIOI.load (SlaveAtomicIOI.reserve t.bus pa n t.core.rvHartID) pa n).1.1 =
      .success
  · have hlet : ¬ Denied pa t (.loadReserved va n) := fun h => h hl
    rw [if_pos hl, if_neg hlet]
  · have hdenied : Denied pa t (.loadReserved va n) := hl
    rw [if_neg hl, if_pos hdenied]

theorem bare_code {a : DataAccess} (h : Callable a) (t : Machine β) : ∃ r u, a.bare t = .ok r u ∧
    exceptionOf a r = if Denied a.beginAddr t a then (codes a).bare else Exec.ok := by
  cases a with
  | read va n => exact physRead_code va va n
  | write va n data => exact physWrite_code va va n data
  | loadReserved va n => exact physLoadReserved_code va va n
  | storeConditional va n data => exact physStoreConditional_code va va n data
  | amo va n op src => exact physAmo_code h va

theorem act_code {a : DataAccess} (h : Callable a) (pa : Addr) (t : Machine β) :
    ∃ r u, a.act pa t = .ok r u ∧
      exceptionOf a r = if Denied pa t a then (codes a).behind else Exec.ok := by
  cases a with
  | read va n => exact physRead_code pa va n
  | write va n data => exact physWrite_code pa va n data
  | loadReserved va n => exact physLoadReserved_code pa va n
  | storeConditional va n data => exact physStoreConditional_code pa va n data
  | amo va n op src => exact physAmo_code h pa

end Table

/-! ## The exception by the table -/

section Raised

variable {m : Machine β} {a : DataAccess}

/-- Each line of a table. -/
structure Codes.All (P : BitVec 63 → Prop) (k : Codes) : Prop where
  cross : P k.cross
  page : P k.page
  sum : P k.sum
  bare : P k.bare
  behind : P k.behind

/-- The exceptions of a table are exceptions, and of data accesses. -/
theorem codes_raise (a : DataAccess) :
    (codes a).All fun code => code ≠ Exec.ok ∧ code ≠ Exec.instrPgfault := by
  cases a <;> (simp only [codes]; constructor <;> decide)

theorem called_ok {r : a.Answer} {u : Machine β} (h : a.run m = .ok r u) :
    called m a = if exceptionOf a r = Exec.ok then none else some (exceptionOf a r) := by
  unfold called
  rw [h]

/-- A call that reaches the bus. -/
theorem called_bus {pa : Addr} {r : a.Answer} {t u : Machine β} {code : BitVec 63}
    (h : a.run m = .ok r u) (hcode : code ≠ Exec.ok)
    (hr : exceptionOf a r = if Denied pa t a then code else Exec.ok) :
    called m a = if Denied pa t a then some code else none := by
  rw [called_ok h, hr]
  by_cases hd : Denied pa t a
  · rw [if_pos hd, if_pos hd, if_neg hcode]
  · rw [if_neg hd, if_neg hd, if_pos rfl]

theorem called_bare (h : Callable a) (hd : m.core.dataBare = true) :
    called m a = if Denied a.beginAddr m a then some (codes a).bare else none := by
  obtain ⟨r, u, hrun, hcode⟩ := bare_code h m
  have hcall : a.run m = .ok r u :=
    (DataAccess.run_path h.sized m).trans ((Path.run_direct (p := a.path β) hd).trans hrun)
  exact called_bus hcall (codes_raise a).bare.1 hcode

theorem called_crossing (h : Callable a) (hd : m.core.dataBare = false)
    (hcross : crossesPage a.beginAddr a.size = true) : called m a = some (codes a).cross := by
  have hcall : a.run m = .ok (a.path β).crossPage m :=
    (DataAccess.run_path h.sized m).trans (Path.run_crossing (p := a.path β) hd hcross)
  rw [called_ok hcall]
  cases a <;> rfl

theorem called_lookUp (h : Callable a) (hd : m.core.dataBare = false)
    (hcross : crossesPage a.beginAddr a.size = false) :
    called m a = match lookUp m a.beginAddr with
      | .stops _ => none
      | .absent => some (codes a).page
      | .found e =>
        if (a.refuse m.core e).isSome then
          some (if SumOnly m.core e then (codes a).sum else (codes a).page)
        else if Denied (e.ppa + a.beginAddr % e.pagesize.bytes) (looked m a.beginAddr) a then
          some (codes a).behind
        else none := by
  have hcall := (DataAccess.run_path h.sized m).trans
    (Path.run_lookUp (p := a.path β) hd hcross)
  cases hl : lookUp m a.beginAddr with
  | stops x =>
    have hl' : lookUp m (a.path β).beginAddr = .stops x := hl
    rw [hl'] at hcall
    unfold called
    rw [hcall]
  | absent =>
    have hl' : lookUp m (a.path β).beginAddr = .absent := hl
    rw [hl'] at hcall
    rw [called_ok hcall]
    cases a <;> rfl
  | found e =>
    have hl' : lookUp m (a.path β).beginAddr = .found e := hl
    rw [hl'] at hcall
    dsimp only at hcall ⊢
    cases hr : a.refuse m.core e with
    | some r =>
      have hr' : (a.path β).refuse m.core e = some r := hr
      rw [hr'] at hcall
      have hne : (if SumOnly m.core e then (codes a).sum else (codes a).page) ≠ Exec.ok := by
        split
        · exact (codes_raise a).sum.1
        · exact (codes_raise a).page.1
      rw [called_ok hcall, refuse_code hr, if_neg hne]
      rfl
    | none =>
      have hr' : (a.path β).refuse m.core e = none := hr
      rw [hr'] at hcall
      obtain ⟨r, u, hrun, hcode⟩ := act_code h (e.ppa + a.beginAddr % e.pagesize.bytes)
        (looked m a.beginAddr)
      exact called_bus (hcall.trans hrun) (codes_raise a).behind.1 hcode

/-- An aligned access of one of the sizes lies in its page. -/
theorem aligned_inside (h : WellFormed a) (hal : Aligned a.beginAddr a.size) :
    crossesPage a.beginAddr a.size = false := by
  have hsize : a.size = 1 ∨ a.size = 2 ∨ a.size = 4 ∨ a.size = 8 := by
    cases a with
    | read va n => exact h
    | write va n data => exact h
    | loadReserved va n => exact .inr (.inr h)
    | storeConditional va n data => exact .inr (.inr h)
    | amo va n op src => exact .inr (.inr h.1)
  refine InPage.not_crosses ?_ h.size_pos
  unfold Aligned at hal
  unfold InPage
  rcases hsize with hn | hn | hn | hn <;> rw [hn] at hal ⊢ <;> omega

theorem callable_of (h : WellFormed a) : Callable a := by
  cases a with
  | amo va n op src => exact h
  | _ => trivial

/-! The table against what is due, on each way through a path. -/

theorem right_bare (hd : m.core.dataBare = true) :
    (codes a).bare = Fault.access.code a.loads ↔ Right m a .access := by
  cases a with
  | read va n => exact iff_of_true rfl (.inl hd)
  | write va n data => exact iff_of_true rfl hd
  | loadReserved va n => exact iff_of_false (by decide : Exec.storeAccFault ≠ Exec.loadAccFault) id
  | storeConditional va n data => exact iff_of_true rfl hd
  | amo va n op src => exact iff_of_true rfl (.inl hd)

theorem right_behind (hd : m.core.dataBare = false) (ha : Answers m a.beginAddr) :
    (codes a).behind = Fault.access.code a.loads ↔ Right m a .access := by
  have hbare : ¬ m.core.dataBare = true := Bool.eq_false_iff.mp hd
  have hpage : Exec.storePgfault ≠ Exec.storeAccFault := by decide
  cases a with
  | read va n => exact iff_of_true rfl (.inr ha)
  | write va n data => exact iff_of_false hpage hbare
  | loadReserved va n => exact iff_of_false (by decide : Exec.storeAccFault ≠ Exec.loadAccFault) id
  | storeConditional va n data => exact iff_of_false hpage hbare
  | amo va n op src => exact iff_of_true rfl (.inr ha)

/-- Behind a refusal: of an entry, which SUM alone may refuse, or for want of one. -/
theorem right_page (only : Prop) [Decidable only] (ha : Answers m a.beginAddr)
    (honly : only ↔ ∃ e, lookUp m a.beginAddr = .found e ∧ SumOnly m.core e) :
    (if only then (codes a).sum else (codes a).page) = Fault.page.code a.loads ↔
      Right m a .page := by
  cases a with
  | read va n =>
    by_cases h : only
    · obtain ⟨e, hfound, hsum⟩ := honly.mp h
      rw [if_pos h]
      exact iff_of_false (by decide : Exec.loadAccFault ≠ Exec.loadPgfault)
        fun hr => hr.2 e hfound hsum
    · rw [if_neg h]
      exact iff_of_true rfl ⟨ha, fun e hfound hsum => h (honly.mpr ⟨e, hfound, hsum⟩)⟩
  | loadReserved va n =>
    refine iff_of_false ?_ id
    split
    · exact (by decide : Exec.storeAccFault ≠ Exec.loadPgfault)
    · exact (by decide : Exec.storePgfault ≠ Exec.loadPgfault)
  | write va n data => exact iff_of_true (ite_self _) ha
  | storeConditional va n data => exact iff_of_true (ite_self _) ha
  | amo va n op src => exact iff_of_true (ite_self _) ha

/-- A translation that aborts raises nothing. -/
theorem wrong_stops {x : Assertion} {f : Fault} (hd : m.core.dataBare = false)
    (hl : lookUp m a.beginAddr = .stops x) (hf : f ≠ .misaligned) : ¬ Right m a f := by
  have hbare : ¬ m.core.dataBare = true := Bool.eq_false_iff.mp hd
  cases f with
  | misaligned => exact absurd rfl hf
  | page =>
    cases a with
    | read va n => exact fun h => h.1 x hl
    | loadReserved va n => exact id
    | write va n data => exact fun h => h x hl
    | storeConditional va n data => exact fun h => h x hl
    | amo va n op src => exact fun h => h x hl
  | access =>
    cases a with
    | read va n => exact fun h => h.elim hbare fun h => h x hl
    | loadReserved va n => exact id
    | write va n data => exact hbare
    | storeConditional va n data => exact hbare
    | amo va n op src => exact fun h => h.elim hbare fun h => h x hl

theorem busFault_some {pa : Addr} {f : Fault} (h : busFault pa m a = some f) :
    Denied pa m a ∧ f = .access := by
  unfold busFault at h
  split at h
  · rename_i hdenied
    exact ⟨hdenied, (Option.some.inj h).symm⟩
  · cases h

/-- An aligned access. -/
theorem raised_aligned (h : WellFormed a) (hal : Aligned a.beginAddr a.size) {f : Fault}
    (hdue : due m a = some f) : raised m a = some (f.code a.loads) ↔ Right m a f := by
  have hcross := aligned_inside h hal
  unfold raised
  rw [if_neg fun hc => hc.2 hal]
  unfold due at hdue
  rw [if_neg (not_not_intro hal)] at hdue
  cases hd : m.core.dataBare with
  | true =>
    rw [if_pos hd] at hdue
    obtain ⟨hdenied, rfl⟩ := busFault_some hdue
    rw [called_bare (callable_of h) hd, if_pos hdenied, Option.some_inj]
    exact right_bare hd
  | false =>
    rw [if_neg (Bool.eq_false_iff.mp hd)] at hdue
    rw [called_lookUp (callable_of h) hd hcross]
    cases hl : lookUp m a.beginAddr with
    | stops x =>
      rw [hl] at hdue
      have hf : f ≠ .misaligned := by
        rintro rfl
        cases x <;> cases hdue
      exact iff_of_false nofun (wrong_stops hd hl hf)
    | absent =>
      rw [hl] at hdue
      cases hdue
      have ha : Answers m a.beginAddr := fun x => by rw [hl]; exact nofun
      rw [Option.some_inj]
      refine right_page False ha (iff_of_false id ?_)
      rintro ⟨e, hfound, -⟩
      rw [hl] at hfound
      cases hfound
    | found e =>
      rw [hl] at hdue
      have ha : Answers m a.beginAddr := fun x => by rw [hl]; exact nofun
      dsimp only at hdue ⊢
      by_cases hrefuse : (a.refuse m.core e).isSome = true
      · rw [if_pos hrefuse] at hdue ⊢
        cases hdue
        rw [Option.some_inj]
        refine right_page _ ha ⟨fun hsum => ⟨e, hl, hsum⟩, ?_⟩
        rintro ⟨e', hfound, hsum⟩
        cases hl.symm.trans hfound
        exact hsum
      · rw [if_neg hrefuse] at hdue ⊢
        have hdenied : Denied (e.ppa + a.beginAddr % e.pagesize.bytes) (looked m a.beginAddr) a ∧
            f = .access := busFault_some hdue
        obtain ⟨hdenied, rfl⟩ := hdenied
        rw [if_pos hdenied, Option.some_inj]
        exact right_behind hd ha

/-- Every exception of a call is one of the table, that for a crossing in that case only. -/
theorem called_mem (h : Callable a) {code : BitVec 63} (hcode : called m a = some code) :
    code = (codes a).cross ∧ m.core.dataBare = false ∧
        crossesPage a.beginAddr a.size = true ∨
      code = (codes a).page ∨ code = (codes a).sum ∨ code = (codes a).bare ∨
        code = (codes a).behind := by
  cases hd : m.core.dataBare with
  | true =>
    rw [called_bare h hd] at hcode
    split at hcode
    · exact .inr (.inr (.inr (.inl (Option.some.inj hcode).symm)))
    · cases hcode
  | false =>
    cases hcross : crossesPage a.beginAddr a.size with
    | true =>
      rw [called_crossing h hd hcross] at hcode
      exact .inl ⟨(Option.some.inj hcode).symm, rfl, rfl⟩
    | false =>
      rw [called_lookUp h hd hcross] at hcode
      refine .inr ?_
      split at hcode
      · cases hcode
      · exact .inl (Option.some.inj hcode).symm
      · split at hcode
        · have hsum := (Option.some.inj hcode).symm
          split at hsum
          · exact .inr (.inl hsum)
          · exact .inl hsum
        · split at hcode
          · exact .inr (.inr (.inr (Option.some.inj hcode).symm))
          · cases hcode

/-- No other line of a table has a misaligned exception. -/
theorem codes_misaligned (a : DataAccess) : ∀ loads : Bool,
    (codes a).page ≠ Fault.misaligned.code loads ∧ (codes a).sum ≠ Fault.misaligned.code loads ∧
      (codes a).bare ≠ Fault.misaligned.code loads ∧
      (codes a).behind ≠ Fault.misaligned.code loads := by
  cases a <;> (simp only [codes]; decide)

theorem called_misaligned (h : Callable a)
    (hcode : called m a = some (Fault.misaligned.code a.loads)) :
    Fault.misaligned.code a.loads = (codes a).cross ∧ m.core.dataBare = false ∧
      crossesPage a.beginAddr a.size = true := by
  obtain ⟨hpage, hsum, hbare, hbehind⟩ := codes_misaligned a a.loads
  rcases called_mem h hcode with hc | hc | hc | hc | hc
  · exact hc
  · exact absurd hc.symm hpage
  · exact absurd hc.symm hsum
  · exact absurd hc.symm hbare
  · exact absurd hc.symm hbehind

/-- An atomic access that is not aligned raises the misaligned exception of the stores when it
leaves its page, and never that of the loads. -/
theorem raised_misaligned (h : WellFormed a) (hal : ¬ Aligned a.beginAddr a.size) :
    raised m a = some (Fault.misaligned.code a.loads) ↔ Right m a .misaligned := by
  unfold raised
  cases ha : checked a with
  | true =>
    rw [if_pos ⟨rfl, hal⟩]
    cases a with
    | read va n => exact iff_of_true rfl trivial
    | write va n data => exact iff_of_true rfl trivial
    | loadReserved va n => cases ha
    | storeConditional va n data => cases ha
    | amo va n op src => cases ha
  | false =>
    have hcall := called_misaligned (m := m) (callable_of h)
    have hcrossing := called_crossing (m := m) (callable_of h)
    rw [if_neg fun hc => Bool.false_ne_true hc.1]
    cases a with
    | read va n => cases ha
    | write va n data => cases ha
    | loadReserved va n =>
      have hne : Exec.loadMisalign ≠ Exec.storeMisalign := by decide
      exact iff_of_false (fun hcode => hne (hcall hcode).1) id
    | storeConditional va n data =>
      exact ⟨fun hcode => (hcall hcode).2, fun hc => hcrossing hc.1 hc.2⟩
    | amo va n op src =>
      exact ⟨fun hcode => (hcall hcode).2, fun hc => hcrossing hc.1 hc.2⟩

/-- The code raises a fault that is due exactly in these cases. -/
theorem raised_due (h : WellFormed a) {f : Fault} (hdue : due m a = some f) :
    raised m a = some (f.code a.loads) ↔ Right m a f := by
  by_cases hal : Aligned a.beginAddr a.size
  · exact raised_aligned h hal hdue
  · unfold due at hdue
    rw [if_pos hal] at hdue
    cases hdue
    exact raised_misaligned h hal

end Raised

/-! ## The instructions -/

section Instructions

variable {m u : Machine β} {a : DataAccess} {code : BitVec 63}

/-- The core has raised the exception for the address, and nothing else of note. -/
structure Faulted (m u : Machine β) (code : BitVec 63) (va : BitVec 64) : Prop where
  core : u.core = m.core.trapped (exception code) va
  log : log u.trace = .trap (exception code) va :: log m.trace

/-- The code of an instruction raises the exception of its access, or none. -/
def Ends (x : Emu β ExecFlags) (m : Machine β) (a : DataAccess) : Prop :=
  wp x (fun flags u => flags = retired ∧
      (∀ code, raised m a = some code → Faulted m u code a.beginAddr) ∧
      (raised m a = none → log u.trace = log m.trace))
    (fun _ u => raised m a = none ∧ log u.trace = log m.trace) m

theorem called_raises (h : Callable a) (hcode : called m a = some code) :
    code ≠ Exec.ok ∧ code ≠ Exec.instrPgfault := by
  have hraise := codes_raise a
  rcases called_mem h hcode with ⟨rfl, -⟩ | rfl | rfl | rfl | rfl
  · exact hraise.cross
  · exact hraise.page
  · exact hraise.sum
  · exact hraise.bare
  · exact hraise.behind

omit [SlaveAtomicIOI β] in
/-- The trap behind a call. -/
theorem faulted_raiseTrap (hn : m.core.needTrap = false) (hs : Stored m u)
    (hcode : code ≠ Exec.ok ∧ code ≠ Exec.instrPgfault) (va : BitVec 64) :
    wp (raiseTrap (exception code) va) (fun _ t => Faulted m t code va) (fun _ _ => False) u := by
  have hclear : u.core.needTrap = false := by
    rw [hs.core]
    exact hn
  unfold wp
  rw [raiseTrap_run hclear hcode.1 hcode.2 va]
  refine ⟨?_, ?_⟩
  · rw [← hs.core]
  · rw [← hs.log]
    rfl

/-- A call that returns has stored, at most. -/
theorem stored_run (a : DataAccess) (m : Machine β) :
    wp a.run (fun _ u => Stored m u) (fun _ _ => True) m := by
  have hcareful : ∀ {ρ : Type} {ok : ρ → Prop} {x : Emu β ρ}, Careful ok x →
      wp x (fun _ u => Stored m u) (fun _ _ => True) m := fun hx =>
    wp_mono (hx m) (fun _ _ hu => hu.1) (fun _ _ _ => trivial)
  cases a with
  | read va n => exact hcareful (silent_read va n)
  | write va n data => exact hcareful (careful_write va n data)
  | loadReserved va n => exact hcareful (silent_loadReserved va n)
  | storeConditional va n data => exact hcareful (careful_storeConditional va n data)
  | amo va n op src => exact hcareful (careful_amo va n op src)

/-- A call that aborts has looked up its address. -/
theorem aborted_log (h : Callable a) {x : Assertion} (hrun : a.run m = .error x u) :
    log u.trace = log m.trace := by
  rw [DataAccess.run_path h.sized m] at hrun
  cases hd : m.core.dataBare with
  | true =>
    obtain ⟨r, t, hbare, -⟩ := bare_code h m
    rw [Path.run_direct (p := a.path β) hd] at hrun
    exact absurd (hbare.symm.trans hrun) nofun
  | false =>
    cases hcross : crossesPage a.beginAddr a.size with
    | true =>
      rw [Path.run_crossing (p := a.path β) hd hcross] at hrun
      cases hrun
    | false =>
      rw [Path.run_lookUp (p := a.path β) hd hcross] at hrun
      split at hrun
      · cases hrun
        exact looked_log m _
      · cases hrun
      · split at hrun
        · cases hrun
        · obtain ⟨r, t, hact, -⟩ := act_code h _ (looked m (a.path β).beginAddr)
          exact absurd (hact.symm.trans hrun) nofun

/-- How a call ends. -/
theorem run_called (h : Callable a) (m : Machine β) :
    wp a.run (fun r u => Stored m u ∧
        called m a = if exceptionOf a r = Exec.ok then none else some (exceptionOf a r))
      (fun _ u => called m a = none ∧ log u.trace = log m.trace) m := by
  refine wp_mono (wp_and (stored_run a m) (wp_run _ m)) (fun r u hu => ⟨hu.1, called_ok hu.2⟩)
    (fun x u hu => ⟨?_, aborted_log h hu.2⟩)
  unfold called
  rw [hu.2]

theorem raised_of_aligned (hal : Aligned a.beginAddr a.size) : raised m a = called m a :=
  if_neg fun hc => hc.2 hal

theorem raised_of_unchecked (h : checked a = false) : raised m a = called m a :=
  if_neg fun hc => Bool.false_ne_true (h.symm.trans hc.1)

theorem memException_ok {acc mis pg : BitVec 63}
    (h : acc ≠ Exec.ok ∧ mis ≠ Exec.ok ∧ pg ≠ Exec.ok) (fb : VAddrFeedback) :
    fb.memException acc mis pg = Exec.ok ↔ fb = .accessOk := by
  cases fb with
  | accessOk => exact iff_of_true rfl rfl
  | accessFault => exact iff_of_false h.1 nofun
  | misAlign => exact iff_of_false h.2.1 nofun
  | pageFault => exact iff_of_false h.2.2 nofun

/-- The trap of an exception that is raised. -/
theorem raiseTrap_ends (hn : m.core.needTrap = false) (hs : Stored m u)
    (hraised : raised m a = some code) (hcode : code ≠ Exec.ok ∧ code ≠ Exec.instrPgfault) :
    wp (raiseTrap (exception code) a.beginAddr)
      (fun _ t => (∀ code, raised m a = some code → Faulted m t code a.beginAddr) ∧
        (raised m a = none → log t.trace = log m.trace)) (fun _ _ => False) u := by
  refine wp_mono (faulted_raiseTrap hn hs hcode a.beginAddr) (fun _ t ht => ?_) (fun _ _ h => h)
  rw [hraised]
  refine ⟨?_, nofun⟩
  rintro _ ⟨⟩
  exact ht

theorem memRead_ends (hn : m.core.needTrap = false) (va : BitVec 64) (width : Width) :
    wp (memRead va width.bytes)
      (fun r u => (∀ code, raised m (.read va width.bytes) = some code →
          r = none ∧ Faulted m u code va) ∧
        (raised m (.read va width.bytes) = none → log u.trace = log m.trace))
      (fun _ u => raised m (.read va width.bytes) = none ∧ log u.trace = log m.trace) m := by
  unfold memRead
  rw [wp_ite]
  refine ⟨fun hal => ?_, fun hal => ?_⟩
  · have hmis : raised m (.read va width.bytes) = some Exec.loadMisalign :=
      if_pos ⟨rfl, fun hc => hal ((aligned_iff va width).mpr hc)⟩
    rw [wp_bind]
    exact wp_mono (raiseTrap_ends (a := .read va width.bytes) hn (Stored.mk rfl rfl) hmis
        (by decide))
      (fun _ t ht => ⟨fun code hcode => ⟨rfl, ht.1 code hcode⟩, ht.2⟩) (fun _ _ h => h.elim)
  · have hal' : Aligned va width.bytes := (aligned_iff va width).mp (Decidable.of_not_not hal)
    have hraised := raised_of_aligned (m := m) (a := .read va width.bytes) hal'
    rw [wp_bind, hraised]
    refine wp_mono (run_called (a := .read va width.bytes) trivial m) (fun r u hu => ?_)
      (fun _ _ hu => hu)
    obtain ⟨hstored, hcalled⟩ := hu
    have hiff : exceptionOf (.read va width.bytes) r = Exec.ok ↔ r.1 = .accessOk :=
      memException_ok (by decide) r.1
    simp only [wp_ite, wp_pure, wp_bind, wp_assertThat]
    refine ⟨fun hok => ?_, fun hfail => ⟨fun hne => ?_, fun heq => ?_⟩⟩
    · rw [hcalled, if_pos (hiff.mpr hok)]
      exact ⟨fun _ hcode => absurd hcode (Option.some_ne_none _).symm, fun _ => hstored.log⟩
    · have hexc : exceptionOf (.read va width.bytes) r ≠ Exec.ok := hne
      rw [if_neg hexc] at hcalled
      have hraises := called_raises (a := .read va width.bytes) trivial hcalled
      rw [← hraised]
      exact wp_mono
        (raiseTrap_ends (a := .read va width.bytes) hn hstored (hraised.trans hcalled) hraises)
        (fun _ t ht => ⟨fun code hcode => ⟨trivial, ht.1 code hcode⟩, ht.2⟩)
        (fun _ _ h => h.elim)
    · exact absurd (hiff.mp (Decidable.of_not_not heq)) hfail

theorem memWrite_ends (hn : m.core.needTrap = false) (va : BitVec 64) (width : Width)
    (src : BitVec 64) :
    Ends (do memWrite va width.bytes src; return retired) m
      (.write va width.bytes (src.setWidth (8 * width.bytes))) := by
  unfold Ends memWrite
  rw [wp_bind, wp_ite]
  refine ⟨fun hal => ?_, fun hal => ?_⟩
  · have hmis : raised m (.write va width.bytes (src.setWidth (8 * width.bytes))) =
        some Exec.storeMisalign :=
      if_pos ⟨rfl, fun hc => hal ((aligned_iff va width).mpr hc)⟩
    rw [wp_bind]
    exact wp_mono (raiseTrap_ends (a := .write va width.bytes _) hn (Stored.mk rfl rfl)
        hmis (by decide))
      (fun _ t ht => ⟨rfl, ht⟩) (fun _ _ h => h.elim)
  · have hal' : Aligned va width.bytes := (aligned_iff va width).mp (Decidable.of_not_not hal)
    have hraised := raised_of_aligned (m := m)
      (a := .write va width.bytes (src.setWidth (8 * width.bytes))) hal'
    rw [wp_bind, hraised]
    refine wp_mono (run_called (a := .write va width.bytes _) trivial m) (fun r u hu => ?_)
      (fun _ _ hu => hu)
    obtain ⟨hstored, hcalled⟩ := hu
    have hiff : exceptionOf (.write va width.bytes (src.setWidth _)) r = Exec.ok ↔
        r = .accessOk := memException_ok (by decide) r
    simp only [wp_ite, wp_pure, wp_bind, wp_assertThat]
    refine ⟨fun hok => ⟨trivial, ?_⟩, fun hfail => ⟨fun hne => ?_, fun heq => ?_⟩⟩
    · rw [hcalled, if_pos (hiff.mpr hok)]
      exact ⟨fun _ hcode => absurd hcode (Option.some_ne_none _).symm, fun _ => hstored.log⟩
    · have hexc : exceptionOf (.write va width.bytes (src.setWidth _)) r ≠ Exec.ok := hne
      rw [if_neg hexc] at hcalled
      have hraises := called_raises (a := .write va width.bytes _) trivial hcalled
      rw [← hraised]
      exact wp_mono
        (raiseTrap_ends (a := .write va width.bytes _) hn hstored (hraised.trans hcalled) hraises)
        (fun _ t ht => ⟨trivial, ht⟩) (fun _ _ h => h.elim)
    · exact absurd (hiff.mp (Decidable.of_not_not heq)) hfail

/-- A load hands out the value of its read, where the read has one. -/
theorem loadGPR_ends (hn : m.core.needTrap = false) (va : BitVec 64) (width : Width)
    (ext : BitVec (8 * width.bytes) → BitVec 64) (rd : BitVec 5) :
    Ends (loadGPR va width.bytes ext rd) m (.read va width.bytes) := by
  unfold Ends loadGPR
  rw [wp_bind]
  refine wp_mono (memRead_ends hn va width) (fun r u hu => ?_) (fun _ _ hu => hu)
  cases r with
  | none => exact ⟨rfl, fun code hcode => (hu.1 code hcode).2, hu.2⟩
  | some v => exact ⟨rfl, fun code hcode => absurd (hu.1 code hcode).1 nofun, hu.2⟩

/-- The end of an atomic instruction, behind a call that is not checked for its alignment. -/
theorem amoEnd_ends (hn : m.core.needTrap = false) (h : Callable a) (hc : checked a = false)
    {ρ : Type} {x : Emu β (BitVec 63 × ρ)} (rd : BitVec 5) (result : ρ → BitVec 64)
    (hx : wp x (fun r u => Stored m u ∧ called m a = if r.1 = Exec.ok then none else some r.1)
      (fun _ u => called m a = none ∧ log u.trace = log m.trace) m) :
    Ends (do
      let r ← x
      amoEnd r.1 a.beginAddr rd (result r.2)) m a := by
  have hraised := raised_of_unchecked (m := m) hc
  unfold Ends
  rw [wp_bind, hraised]
  refine wp_mono hx (fun r u hu => ?_) (fun _ _ hu => hu)
  obtain ⟨hstored, hcalled⟩ := hu
  unfold amoEnd
  rw [wp_ite]
  refine ⟨fun hok => ?_, fun hne => ?_⟩
  · rw [if_pos hok] at hcalled
    rw [hcalled]
    exact ⟨rfl, nofun, fun _ => hstored.log⟩
  · rw [if_neg hne] at hcalled
    rw [wp_bind, ← hraised]
    exact wp_mono (raiseTrap_ends hn hstored (hraised.trans hcalled) (called_raises h hcalled))
      (fun _ t ht => ⟨rfl, ht⟩) (fun _ _ h => h.elim)

/-- What the decoder finds in an atomic instruction. -/
theorem atomic_fields {f5 : BitVec 5} {order : BitVec 2} {rs2 rs1 rd : BitVec 5} {double : Bool}
    {w : BitVec 32}
    (hw : w = rType (f5 ++ order) rs2 rs1 (AtomicInst.funct3 double) rd 0b0101111) :
    execute w m = execAmo w m ∧ ¬ (RVInst.funct3 w ≠ 0b010 ∧ RVInst.funct3 w ≠ 0b011) ∧
      1 <<< (RVInst.funct3 w).toNat = atomicBytes double ∧ RVInst.rs1 w = rs1 ∧
      RVInst.rs2 w = rs2 ∧ RVInst.rd w = rd ∧ (RVInst.funct7 w >>> 2).setWidth 5 = f5 := by
  have hop : ∀ (f5 : BitVec 5) (order : BitVec 2), ((f5 ++ order) >>> 2).setWidth 5 = f5 := by
    decide
  have hopcode : RVInst.opcode w = 0b0101111 := by
    rw [hw]
    exact IntegerConformance.opcode_rType ..
  have hrun : execute w m = execAmo w m := by
    unfold execute isCompressed exec32
    rw [hopcode]
    rfl
  refine ⟨hrun, ?_⟩
  subst hw
  rw [IntegerConformance.funct3_rType, IntegerConformance.rs1_rType, IntegerConformance.rs2_rType,
    IntegerConformance.rd_rType, IntegerConformance.funct7_rType, hop]
  exact ⟨by cases double <;> decide, by cases double <;> rfl, rfl, rfl, rfl, rfl⟩

theorem lr_run (double : Bool) (order : BitVec 2) (rd rs1 : BitVec 5) (m : Machine β) :
    execute (AtomicInst.lr double order rd rs1).encode m =
      (do
        let r ← vaddrLoadReserved (m.core.gpr rs1) (atomicBytes double)
        amoEnd r.1 (m.core.gpr rs1) rd (r.2.signExtend 64) : Emu β ExecFlags) m := by
  obtain ⟨hrun, hf3, hsize, hrs1, hrs2, hrd, hop⟩ :=
    atomic_fields (m := m) (w := (AtomicInst.lr double order rd rs1).encode) rfl
  rw [hrun]
  unfold execAmo
  dsimp only
  rw [if_neg hf3, bind_of_ok (getCore_run m), hop, hrs1, hrd, hsize]
  exact congrFun (if_neg fun hne => hne hrs2) m

theorem sc_run (double : Bool) (order : BitVec 2) (rd rs1 rs2 : BitVec 5) (m : Machine β) :
    execute (AtomicInst.amo .sc double order rd rs1 rs2).encode m =
      (do
        let r ← vaddrStoreConditional (m.core.gpr rs1) (atomicBytes double)
          ((m.core.gpr rs2).setWidth (8 * atomicBytes double))
        amoEnd r.1 (m.core.gpr rs1) rd (if r.2 then 1 else 0) : Emu β ExecFlags) m := by
  obtain ⟨hrun, hf3, hsize, hrs1, hrs2, hrd, hop⟩ :=
    atomic_fields (m := m) (w := (AtomicInst.amo .sc double order rd rs1 rs2).encode) rfl
  rw [hrun]
  unfold execAmo
  dsimp only
  rw [if_neg hf3, bind_of_ok (getCore_run m), hop, hrs1, hrs2, hrd, hsize]
  rfl

theorem amo_run {op : AtomicOp} (h : op ≠ .sc) (double : Bool) (order : BitVec 2)
    (rd rs1 rs2 : BitVec 5) (m : Machine β) :
    execute (AtomicInst.amo op double order rd rs1 rs2).encode m =
      (do
        let r ← vaddrAtomicMemOperation (m.core.gpr rs1) (atomicBytes double) (functOf op)
          (m.core.gpr rs2)
        amoEnd r.1 (m.core.gpr rs1) rd r.2 : Emu β ExecFlags) m := by
  obtain ⟨hrun, hf3, hsize, hrs1, hrs2, hrd, hop⟩ :=
    atomic_fields (m := m) (w := (AtomicInst.amo op double order rd rs1 rs2).encode) rfl
  rw [hrun]
  unfold execAmo
  dsimp only
  rw [if_neg hf3, bind_of_ok (getCore_run m), hop, hrs1, hrs2, hrd, hsize]
  cases op with
  | sc => exact absurd rfl h
  | _ => rfl

/-- A compressed load or store runs like its expansion. -/
theorem compressed_run {w : BitVec 32} {i : Inst}
    (h : Compressed.expand (w.setWidth 16) = some i) (hi : i.isMemory = true) (m : Machine β) :
    RvcConformance.PerformsInst (execute w) m i := by
  unfold execute
  rw [RvcConformance.isCompressed_of_expand w h]
  exact RvcConformance.rvc_performs m w
    (fun hno => absurd (hno.symm.trans hi) Bool.false_ne_true) h

/-- The code of an instruction raises what its access calls for. -/
theorem asks_ends (hn : m.core.needTrap = false) {w : BitVec 32} (h : Asks m.core.gpr w a) :
    Ends (execute w) m a := by
  cases h with
  | load op rd rs1 imm => exact wp_congr (load_run op rd rs1 imm m) (loadGPR_ends hn _ _ _ _)
  | store width rs1 rs2 imm =>
    exact wp_congr (store_run width rs1 rs2 imm m) (memWrite_ends hn _ _ _)
  | compressedLoad h => exact wp_congr (compressed_run h rfl m) (loadGPR_ends hn _ _ _ _)
  | compressedStore h => exact wp_congr (compressed_run h rfl m) (memWrite_ends hn _ _ _)
  | loadReserved double order rd rs1 =>
    have hends := amoEnd_ends (a := .loadReserved (m.core.gpr rs1) (atomicBytes double)) hn trivial
      rfl rd (fun result => result.signExtend 64) (run_called (a := .loadReserved _ _) trivial m)
    exact wp_congr (lr_run double order rd rs1 m) hends
  | storeConditional double order rd rs1 rs2 =>
    have hends := amoEnd_ends (a := .storeConditional (m.core.gpr rs1) (atomicBytes double)
      ((m.core.gpr rs2).setWidth _)) hn trivial rfl rd (fun scFail => if scFail then 1 else 0)
      (run_called (a := .storeConditional _ _ _) trivial m)
    exact wp_congr (sc_run double order rd rs1 rs2 m) hends
  | @amo op hop double order rd rs1 rs2 =>
    have hcall : Callable
        (.amo (m.core.gpr rs1) (atomicBytes double) (functOf op) (m.core.gpr rs2)) :=
      (Asks.amo (x := m.core.gpr) hop double order rd rs1 rs2).wellFormed
    have hends := amoEnd_ends hn hcall rfl rd (fun result => result) (run_called hcall m)
    exact wp_congr (amo_run hop double order rd rs1 rs2 m) hends

end Instructions

/-! ## The step -/

section Step

variable {s : Machine β} {w : BitVec 32} {a : DataAccess} {code : BitVec 63} {va : BitVec 64}

/-- The step has raised the exception for the address, and no other trap. -/
structure Raises (s : Machine β) (code : BitVec 63) (va : BitVec 64) : Prop where
  traps : traps (final step s).trace = (exception code, va) :: traps s.trace
  core : (final step s).core = trapEnd (s.core.sampled.trapped (exception code) va)
  returns : returns step s = statusBlankZero s.core.status

/-- A step whose instruction has raised an exception. -/
theorem raises_of_faulted (h : fetchedWord s = some w) {u : Machine β}
    (hrun : execute w (decoding s w) = .ok retired u)
    (hu : Faulted (decoding s w) u code va) : Raises s code va := by
  have hstep : step s = endStep
      { inst := w, isCompressedInst := isCompressed w, flags := retired } u :=
    (step_eq h).trans (bind_of_ok hrun)
  have htrapped : u.core = s.core.sampled.trapped (exception code) va := by
    rw [hu.core, (decoding_silent h).1]
  have hexcepts : Excepts (fun _ => ()) s (exception code) va :=
    excepts_of_end hstep rfl htrapped rfl
  refine ⟨?_, hexcepts.core, hexcepts.returns⟩
  rw [final_congr hstep, (endStep_run rfl u).1]
  show traps u.trace = _
  rw [← traps_log u.trace, hu.log, decoding_log h]
  show (exception code, va) :: traps (log s.trace) = _
  rw [traps_log]

/-- A step whose instruction has not. -/
theorem quiet_of_log (h : fetchedWord s = some w)
    (hrun : wp (execute w) (fun flags u => flags = retired ∧
      log u.trace = log (decoding s w).trace)
      (fun _ u => log u.trace = log (decoding s w).trace) (decoding s w)) :
    traps (final step s).trace = traps s.trace := by
  have hlog : ∀ {u : Machine β}, log u.trace = log (decoding s w).trace →
      traps u.trace = traps s.trace := by
    intro u hu
    rw [← traps_log u.trace, hu, decoding_log h]
    exact traps_log s.trace
  cases hx : execute w (decoding s w) with
  | error x u =>
    have hstep : step s = .error x u := by
      rw [step_eq h, run_bind, hx]
    have hfinal : final step s = u := by
      unfold final
      rw [hstep]
    rw [hfinal]
    unfold wp at hrun
    rw [hx] at hrun
    exact hlog hrun
  | ok flags u =>
    obtain ⟨rfl, hu⟩ := wp_ok hrun hx
    have hstep : step s = endStep
        { inst := w, isCompressedInst := isCompressed w, flags := retired } u :=
      (step_eq h).trans (bind_of_ok hx)
    rw [final_congr hstep, (endStep_run rfl u).1]
    exact hlog hu

/-- The step raises what its access calls for. -/
theorem raises_iff (h : fetchedWord s = some w) (ha : Asks s.core.gpr w a) :
    Raises s code a.beginAddr ↔ raised (decoding s w) a = some code := by
  have hcore := (decoding_silent h).1
  have hn : (decoding s w).core.needTrap = false := by
    rw [hcore]
    rfl
  have hasks : Asks (decoding s w).core.gpr w a := by
    rw [hcore]
    exact ha
  have hends := asks_ends hn hasks
  have hfaults : ∀ code', raised (decoding s w) a = some code' → Raises s code' a.beginAddr := by
    intro code' hcode
    cases hx : execute w (decoding s w) with
    | error x u =>
      have hnone := (wp_error hends hx).1
      rw [hcode] at hnone
      cases hnone
    | ok flags u =>
      obtain ⟨rfl, hfault, -⟩ := wp_ok hends hx
      exact raises_of_faulted h hx (hfault code' hcode)
  refine ⟨fun hr => ?_, hfaults code⟩
  cases hraised : raised (decoding s w) a with
  | none =>
    have hquiet := quiet_of_log h (wp_mono hends (fun flags u hu => ⟨hu.1, hu.2.2 hraised⟩)
      fun _ u hu => hu.2)
    have hlen := congrArg List.length (hr.traps.symm.trans hquiet)
    simp at hlen
  | some code' =>
    have hsame := hr.traps.symm.trans (hfaults code' hraised).traps
    have hcode : exception code = exception code' := (Prod.mk.inj (List.cons.inj hsame).1).1
    exact congrArg some (congrArg Cause.cause hcode).symm

/-- A step raises the exceptions that are due to its access exactly in these cases. -/
theorem raises_due_iff (s : Machine β) (w : BitVec 32) (a : DataAccess)
    (h : fetchedWord s = some w) (ha : Asks s.core.gpr w a) :
    (∀ f, due (decoding s w) a = some f → Raises s (f.code a.loads) a.beginAddr) ↔
      ∀ f, due (decoding s w) a = some f → Right (decoding s w) a f := by
  refine forall_congr' fun f => imp_congr_right fun hdue => ?_
  rw [raises_iff h ha]
  exact raised_due ha.wellFormed hdue

end Step

/-- A machine in M mode at one instruction, with an address in `x1`. -/
def accessMachine (w : BitVec 32) (va : BitVec 64) : Machine (AddrBus Empty) :=
  Machine.start { (default : RV64Core) with
    currentProgramCounter := 0x80000000, nextPrivMode := .mMode
    gpr := fun r => if r = 1 then va else 0 }
    (Translation.memoryBus fun a => w.extractLsb' (8 * a) 8)

/-- An `ld` where the bus has nothing takes a load access fault. -/
theorem raises_due_iff_ld : Raises (accessMachine 0x0000b183 0x1000) Exec.loadAccFault 0x1000 :=
  (raises_due_iff (accessMachine 0x0000b183 0x1000) 0x0000b183 (.read 0x1000 8)
    (by decide +kernel) (Asks.load .ld 3 1 0)).mpr
    (fun f hf => by
      have hdue : due (decoding (accessMachine 0x0000b183 0x1000) 0x0000b183) (.read 0x1000 8) =
          some .access := by decide +kernel
      cases hdue.symm.trans hf
      exact .inl (by decide +kernel))
    .access (by decide +kernel)

/-- An `lr.w` at an address that is not a multiple of four loads the word. -/
theorem misaligned_lr_loads :
    fetchedWord (accessMachine 0x1000a1af 0x80000002) = some 0x1000a1af ∧
      Asks (accessMachine 0x1000a1af 0x80000002).core.gpr 0x1000a1af
        (.loadReserved 0x80000002 4) ∧
      due (decoding (accessMachine 0x1000a1af 0x80000002) 0x1000a1af)
        (.loadReserved 0x80000002 4) = some .misaligned ∧
      ¬ Raises (accessMachine 0x1000a1af 0x80000002) (Fault.misaligned.code true) 0x80000002 := by
  have hword : fetchedWord (accessMachine 0x1000a1af 0x80000002) = some 0x1000a1af := by
    decide +kernel
  have hasks : Asks (accessMachine 0x1000a1af 0x80000002).core.gpr 0x1000a1af
      (.loadReserved 0x80000002 4) := Asks.loadReserved false 0 3 1
  have hraised : raised (decoding (accessMachine 0x1000a1af 0x80000002) 0x1000a1af)
      (.loadReserved 0x80000002 4) = none := by decide +kernel
  refine ⟨hword, hasks, by decide +kernel, fun h => ?_⟩
  have hsome := (raises_iff hword hasks).mp h
  rw [hraised] at hsome
  cases hsome

end NextEmu.Simple.AccessFaults
