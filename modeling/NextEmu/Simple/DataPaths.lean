import NextEmu.Simple.WalkConformance

/-!
# The access paths as one

What a lookup answers is a function of the TLB, `satp` and the tables behind the bus.
With it an access path is a case split: no translation, an access that leaves its page,
no entry, a refused entry, or the access at a physical address. The five data paths are
instances, each with its own codes.
-/

namespace NextEmu.Simple.DataPaths

open NextEmu.Lib NextEmu.Lib.AbortState NextEmu.Lib.BitField NextEmu.Lib.RadixWalk NextEmu.Sdk
open Translation

variable {β : Type} [SlaveAtomicIOI β]

/-! ## The lookup -/

/-- What a lookup answers. -/
inductive Lookup
  | found (e : TLBEntry)
  | absent
  | stops (a : Assertion)

/-- The answer of a walk. -/
def walkLookup (asid : BitVec 16) (va : BitVec 64) : RadixWalk.Result (BitVec 64) → Lookup
  | .unreadable => .stops .pteLoadOk
  | .fault => .absent
  | .leaf l pte => .found (leafEntry asid va l pte)

/-- The answer for an address: the one match, or that of a walk. -/
def lookUp (s : Machine β) (va : BitVec 64) : Lookup :=
  if canonicalCheck va then
    match hits s.mmu (Satp.asid s.core.satp) va with
    | [] =>
      if Satp.mode s.core.satp = 8 then
        walkLookup (Satp.asid s.core.satp) va (pageWalk s.core.satp s.bus va).result
      else .absent
    | [i] => .found (s.mmu.tlb i)
    | _ :: _ :: _ => .stops .duplicateMatch
  else .stops .canonical

/-- The machine behind a lookup. -/
def looked (s : Machine β) (va : BitVec 64) : Machine β := final (getTLBEntry va) s

section Lookup

variable {s : Machine β} {va : BitVec 64}

theorem walkTables_absent (hmode : Satp.mode s.core.satp ≠ 8) : walkTables va s = .ok none s := by
  unfold walkTables
  rw [bind_of_ok (getCore_run s), if_pos hmode]
  rfl

/-- What `getTLBEntry` returns, and that it does no more than to read the tables and to change
the TLB. -/
theorem getTLBEntry_lookUp (s : Machine β) (va : BitVec 64) :
    (∃ w m, looked s va = { readTables (translating va s) w with mmu := m }) ∧
      getTLBEntry va s = match lookUp s va with
        | .found e => .ok (some e) (looked s va)
        | .absent => .ok none (looked s va)
        | .stops a => .error a (looked s va) := by
  have hunread : ∃ w m, translating va s = { readTables (translating va s) w with mmu := m } :=
    ⟨⟨.fault, s.bus, []⟩, s.mmu, rfl⟩
  unfold looked final lookUp
  rw [getTLBEntry_eq]
  by_cases hc : canonicalCheck va = true
  · simp only [if_pos hc]
    rcases hits s.mmu (Satp.asid s.core.satp) va with _ | ⟨i, _ | ⟨j, rest⟩⟩
    · by_cases hmode : Satp.mode s.core.satp = 8
      · have hwalk := walkTables_eq va (translating va s) hmode
        simp only [if_pos hmode, hwalk, finish]
        have hsame : pageWalk (translating va s).core.satp (translating va s).bus va =
            pageWalk s.core.satp s.bus va := rfl
        rw [hsame]
        cases (pageWalk s.core.satp s.bus va).result with
        | unreadable => exact ⟨⟨pageWalk s.core.satp s.bus va, s.mmu, rfl⟩, rfl⟩
        | fault => exact ⟨⟨pageWalk s.core.satp s.bus va, s.mmu, rfl⟩, rfl⟩
        | leaf l pte => exact ⟨⟨pageWalk s.core.satp s.bus va, _, rfl⟩, rfl⟩
      · simp only [if_neg hmode, walkTables_absent (s := translating va s) hmode]
        exact ⟨hunread, trivial⟩
    · exact ⟨hunread, rfl⟩
    · exact ⟨hunread, rfl⟩
  · simp only [if_neg hc]
    exact ⟨hunread, trivial⟩

theorem looked_core (s : Machine β) (va : BitVec 64) : (looked s va).core = s.core := by
  obtain ⟨⟨w, m, hlooked⟩, -⟩ := getTLBEntry_lookUp s va
  rw [hlooked]
  rfl

/-- A lookup notes that it was called and the entries that it read. -/
theorem looked_trace (s : Machine β) (va : BitVec 64) : ∃ reads : List Addr,
    (looked s va).trace =
      (reads.map Event.pteLoad ++ [.translate va s.mmu s.core.satp s.bus]) ++ s.trace := by
  obtain ⟨⟨w, m, hlooked⟩, -⟩ := getTLBEntry_lookUp s va
  refine ⟨(w.reads.map Prod.fst).reverse, ?_⟩
  rw [hlooked, ← List.map_reverse, List.map_map, List.append_assoc]
  show (w.reads.map fun r => Event.pteLoad r.1).reverse ++ (translating va s).trace = _
  rw [← List.map_reverse]
  rfl

/-- An entry that is found has a size. -/
theorem found_sized {e : TLBEntry} (h : lookUp s va = .found e) : e.pagesize.bytes ≠ 0 := by
  have hbytes : ∀ p : PageSize, p ≠ .invalid → p.bytes ≠ 0 := by
    intro p hp
    cases p with
    | invalid => exact absurd rfl hp
    | _ => decide
  unfold lookUp at h
  split at h
  · split at h
    · split at h
      · unfold walkLookup at h
        split at h
        · cases h
        · cases h
        · cases h
          exact hbytes _ (sizeOfLevel_ne _)
      · cases h
    · rename_i i hhits
      cases h
      refine hbytes _ fun hinvalid => ?_
      have hhit : i ∈ hits s.mmu (Satp.asid s.core.satp) va := hhits ▸ List.mem_cons_self
      exact not_covers_of_invalid hinvalid (Satp.asid s.core.satp, va) (mem_hits.mp hhit)
    · cases h
  · cases h

end Lookup

/-! ## One path -/

/-- An access path. -/
structure Path (β ρ : Type) where
  beginAddr : BitVec 64
  size : Nat
  /-- Whether the access is not translated. -/
  direct : RV64Core → Bool
  /-- The access then. -/
  bare : Emu β ρ
  crossPage : ρ
  noEntry : ρ
  refuse : RV64Core → TLBEntry → Option ρ
  act : Addr → Emu β ρ

namespace Path

variable {ρ : Type}

def run (p : Path β ρ) : Emu β ρ := do
  let c ← getCore
  if p.direct c then p.bare
  else pagedAccess p.beginAddr p.size p.crossPage p.noEntry p.refuse p.act

/-- What a path does. -/
theorem run_eq (p : Path β ρ) (s : Machine β) : p.run s =
    if p.direct s.core then p.bare s
    else if crossesPage p.beginAddr p.size then .ok p.crossPage s
    else match lookUp s p.beginAddr with
      | .stops a => .error a (looked s p.beginAddr)
      | .absent => .ok p.noEntry (looked s p.beginAddr)
      | .found e => match p.refuse s.core e with
        | some code => .ok code (looked s p.beginAddr)
        | none => p.act (e.ppa + p.beginAddr % e.pagesize.bytes) (looked s p.beginAddr) := by
  unfold run
  rw [bind_of_ok (getCore_run s)]
  by_cases hd : p.direct s.core = true
  · rw [if_pos hd, if_pos hd]
  rw [if_neg hd, if_neg hd]
  unfold pagedAccess
  by_cases hcross : crossesPage p.beginAddr p.size = true
  · rw [if_pos hcross, if_pos hcross]
    rfl
  rw [if_neg hcross, if_neg hcross]
  rw [run_bind, (getTLBEntry_lookUp s p.beginAddr).2]
  cases hl : lookUp s p.beginAddr with
  | stops a => rfl
  | absent => rfl
  | found e =>
    show (do let c ← getCore; match p.refuse c e with
      | some code => pure code
      | none => do assertThat _ _; p.act _) (looked s p.beginAddr) = _
    rw [bind_of_ok (getCore_run _), looked_core]
    dsimp only
    cases p.refuse s.core e with
    | some code => rfl
    | none => exact assert_bind (found_sized hl)

variable {p : Path β ρ} {s : Machine β} {e : TLBEntry}

/-- A path that is not translated. -/
theorem run_direct (hd : p.direct s.core = true) : p.run s = p.bare s := by
  rw [run_eq, if_pos hd]

theorem run_crossing (hd : p.direct s.core = false)
    (hcross : crossesPage p.beginAddr p.size = true) : p.run s = .ok p.crossPage s := by
  rw [run_eq, if_neg (Bool.eq_false_iff.mp hd), if_pos hcross]

/-- One that is, by what the lookup answers. -/
theorem run_lookUp (hd : p.direct s.core = false)
    (hcross : crossesPage p.beginAddr p.size = false) : p.run s =
    match lookUp s p.beginAddr with
    | .stops a => .error a (looked s p.beginAddr)
    | .absent => .ok p.noEntry (looked s p.beginAddr)
    | .found e => match p.refuse s.core e with
      | some code => .ok code (looked s p.beginAddr)
      | none => p.act (e.ppa + p.beginAddr % e.pagesize.bytes) (looked s p.beginAddr) := by
  rw [run_eq, if_neg (Bool.eq_false_iff.mp hd), if_neg (Bool.eq_false_iff.mp hcross)]

end Path

/-! ## The data accesses -/

theorem physRead_run (pa : Addr) (n : Nat) (t : Machine β) : physRead pa n t =
    .ok (if (SlaveIOI.load t.bus pa n).1.1 = .success then .accessOk else .accessFault,
        (SlaveIOI.load t.bus pa n).1.2)
      { t with bus := (SlaveIOI.load t.bus pa n).2, trace := .load pa n :: t.trace } := rfl

theorem amoLoad_run {n : Nat} (hn : n = 4 ∨ n = 8) (pa : Addr) (t : Machine β) : amoLoad pa n t =
    .ok ((SlaveIOI.load t.bus pa n).1.1, (SlaveIOI.load t.bus pa n).1.2.signExtend 64)
      { t with bus := (SlaveIOI.load t.bus pa n).2, trace := .load pa n :: t.trace } := by
  rcases hn with rfl | rfl
  · rfl
  · show EStateM.Result.ok (_, (SlaveIOI.load t.bus pa 8).1.2) _ = _
    rw [BitVec.signExtend_eq]

/-- The operations of an AMO have a result. -/
theorem amoResult_some {op : AMOFunct} (hlr : op ≠ .lr) (hsc : op ≠ .sc) (src res : BitVec 64) :
    ∃ w, amoResult op src res = some w := by
  cases op with
  | lr => exact absurd rfl hlr
  | sc => exact absurd rfl hsc
  | _ => exact ⟨_, rfl⟩

/-- A call of one of the five data paths. -/
inductive DataAccess
  | read (va : BitVec 64) (size : Nat)
  | write (va : BitVec 64) (size : Nat) (data : BitVec (8 * size))
  | loadReserved (va : BitVec 64) (size : Nat)
  | storeConditional (va : BitVec 64) (size : Nat) (data : BitVec (8 * size))
  | amo (va : BitVec 64) (size : Nat) (op : AMOFunct) (src : BitVec 64)

namespace DataAccess

def beginAddr : DataAccess → BitVec 64
  | read va _ | write va _ _ | loadReserved va _ | storeConditional va _ _ | amo va _ _ _ => va

def size : DataAccess → Nat
  | read _ n | write _ n _ | loadReserved _ n | storeConditional _ n _ | amo _ n _ _ => n

/-- What the call returns. -/
abbrev Answer : DataAccess → Type
  | read _ n => VAddrFeedback × BitVec (8 * n)
  | write _ _ _ => VAddrFeedback
  | loadReserved _ n => BitVec 63 × BitVec (8 * n)
  | storeConditional _ _ _ => BitVec 63 × Bool
  | amo _ _ _ _ => BitVec 63 × BitVec 64

def run : (a : DataAccess) → Emu β a.Answer
  | read va n => vaddrReadBufferMMUAPI va n
  | write va n data => vaddrWriteBufferMMUAPI va n data
  | loadReserved va n => vaddrLoadReserved va n
  | storeConditional va n data => vaddrStoreConditional va n data
  | amo va n op src => vaddrAtomicMemOperation va n op src

/-- The exceptions of the atomic operations as codes of the other paths. -/
def excFeedback (e : BitVec 63) : Option VAddrFeedback :=
  if e = Exec.ok then some .accessOk
  else if e = Exec.storeAccFault then some .accessFault
  else if e = Exec.storePgfault then some .pageFault
  else if e = Exec.storeMisalign then some .misAlign
  else none

/-- The result code, when it is one of those that the path defines. -/
def code : (a : DataAccess) → a.Answer → Option VAddrFeedback
  | read _ _, r => some r.1
  | write _ _ _, r => some r
  | loadReserved _ _, r | storeConditional _ _ _, r | amo _ _ _ _, r => excFeedback r.1

/-- The access at a physical address, behind a translation. -/
def act : (a : DataAccess) → Addr → Emu β a.Answer
  | read _ n => fun pa => physRead pa n
  | write _ n data => fun pa => physWrite .accessOk .pageFault pa n data
  | loadReserved _ n => fun pa => physLoadReserved pa n
  | storeConditional _ n data => fun pa => physStoreConditional Exec.storePgfault pa n data
  | amo _ n op src => fun pa => physAmo pa n op src

/-- The access at the address itself, without one. -/
def bare : (a : DataAccess) → Emu β a.Answer
  | read va n => physRead va n
  | write va n data => physWrite .accessOk .accessFault va n data
  | loadReserved va n => physLoadReserved va n
  | storeConditional va n data => physStoreConditional Exec.storeAccFault va n data
  | amo va n op src => physAmo va n op src

/-- The paths that look at R and X; the others look at W and D. -/
def loads : DataAccess → Bool
  | read _ _ | loadReserved _ _ => true
  | _ => false

def refuse : (a : DataAccess) → RV64Core → TLBEntry → Option a.Answer
  | read _ _ => readRefusal (.pageFault, 0) (.accessFault, 0)
  | write _ _ _ => writeRefusal .pageFault
  | loadReserved _ _ => readRefusal (Exec.storePgfault, 0) (Exec.storeAccFault, 0)
  | storeConditional _ _ _ => writeRefusal (Exec.storePgfault, false)
  | amo _ _ _ _ => writeRefusal (Exec.storePgfault, 0)

def path (β : Type) [SlaveAtomicIOI β] (a : DataAccess) : Path β a.Answer where
  beginAddr := a.beginAddr
  size := a.size
  direct := RV64Core.dataBare
  bare := a.bare
  crossPage := match a with
    | read _ _ => (.misAlign, 0)
    | write _ _ _ => .misAlign
    | loadReserved _ _ => (Exec.storeMisalign, 0)
    | storeConditional _ _ _ => (Exec.storeMisalign, false)
    | amo _ _ _ _ => (Exec.storeMisalign, 0)
  noEntry := match a with
    | read _ _ => (.pageFault, 0)
    | write _ _ _ => .pageFault
    | loadReserved _ _ => (Exec.storePgfault, 0)
    | storeConditional _ _ _ => (Exec.storePgfault, false)
    | amo _ _ _ _ => (Exec.storePgfault, 0)
  refuse := a.refuse
  act := a.act

/-- The sizes that the assertion of the AMOs allows. -/
def Sized : DataAccess → Prop
  | amo _ n _ _ => n = 4 ∨ n = 8
  | _ => True

theorem run_path {a : DataAccess} (h : a.Sized) (s : Machine β) : a.run s = (a.path β).run s := by
  cases a with
  | amo va n op src => exact assert_bind h
  | _ => rfl

theorem run_unsized {a : DataAccess} (h : ¬ a.Sized) (s : Machine β) :
    a.run s = .error .amoSize s := by
  cases a with
  | amo va n op src =>
    have hn : ¬ (n = 4 ∨ n = 8) := h
    show vaddrAtomicMemOperation va n op src s = _
    unfold vaddrAtomicMemOperation assertThat
    rw [if_neg hn]
    rfl
  | _ => exact absurd trivial h

end DataAccess

end NextEmu.Simple.DataPaths
