import NextEmu.Simple.State

/-!
# The Sv39 MMU

`rv64_sv39.cpp`. The three access paths of this file and the three of
`rv64_amo.cpp` share one shape once translation is on: refuse an access that
leaves the page, look the page up, refuse by the flags of the entry, then act on
the physical address. `pagedAccess` is that shape; what each path refuses and
with which code is its own table.
-/

namespace NextEmu.Simple

open NextEmu.Lib.BitField NextEmu.Sdk

/-- `VAddr_RW_Feedback`. The `INST_*` names of the source are the same numbers. -/
inductive VAddrFeedback
  | accessOk
  | accessFault
  | pageFault
  | misAlign
  deriving DecidableEq, Repr

/-! `SV39_PageTableEntry_t`. -/

namespace PTE

def v (pte : BitVec 64) : Bool := pte.getLsbD 0
def r (pte : BitVec 64) : Bool := pte.getLsbD 1
def w (pte : BitVec 64) : Bool := pte.getLsbD 2
def x (pte : BitVec 64) : Bool := pte.getLsbD 3
def u (pte : BitVec 64) : Bool := pte.getLsbD 4
def g (pte : BitVec 64) : Bool := pte.getLsbD 5
def a (pte : BitVec 64) : Bool := pte.getLsbD 6
def d (pte : BitVec 64) : Bool := pte.getLsbD 7
def ppn0 (pte : BitVec 64) : BitVec 9 := field pte 10 9
def ppn1 (pte : BitVec 64) : BitVec 9 := field pte 19 9
def ppn2 (pte : BitVec 64) : BitVec 26 := field pte 28 26
def reserved (pte : BitVec 64) : BitVec 7 := field pte 54 7
def pbmt (pte : BitVec 64) : BitVec 2 := field pte 61 2

/-- The page or table that an entry points to. -/
def paddr (pte : BitVec 64) : BitVec 64 :=
  ((ppn2 pte).setWidth 64 <<< 18 ||| (ppn1 pte).setWidth 64 <<< 9 ||| (ppn0 pte).setWidth 64) <<< 12

/-- The second way the source computes `paddr`, to assert that it is the same. -/
def paddrCheck (pte : BitVec 64) : BitVec 64 :=
  (((ppn2 pte).setWidth 64 <<< 9 ||| (ppn1 pte).setWidth 64) <<< 9 |||
    (ppn0 pte).setWidth 64) <<< 12

end PTE

/-- `isValidDirPTE`. -/
def isValidDirPTE (pte : BitVec 64) : Bool :=
  PTE.v pte && !(PTE.r pte || PTE.w pte || PTE.x pte) && PTE.reserved pte == 0 && PTE.pbmt pte == 0

/-- `isValidLeafPTE`. -/
def isValidLeafPTE (pte : BitVec 64) : Bool :=
  PTE.v pte && !(PTE.w pte && !PTE.r pte) && !(!PTE.r pte && !PTE.w pte && !PTE.x pte) &&
    PTE.reserved pte == 0 && PTE.pbmt pte == 0

/-! `SV39_VAddr_t`. -/

namespace VAddr

def vpn0 (va : BitVec 64) : BitVec 9 := field va 12 9
def vpn1 (va : BitVec 64) : BitVec 9 := field va 21 9
def vpn2 (va : BitVec 64) : BitVec 9 := field va 30 9
def blank (va : BitVec 64) : BitVec 25 := field va 39 25

end VAddr

def pageAddrMask4K : BitVec 64 := -(1#64 <<< 12)
def pageAddrMask2M : BitVec 64 := -(1#64 <<< 21)
def pageAddrMask1G : BitVec 64 := -(1#64 <<< 30)

/-- The mask that the lookup takes for an entry; zero for an invalid one. -/
def PageSize.mask : PageSize → BitVec 64
  | .page4K => pageAddrMask4K
  | .page2M => pageAddrMask2M
  | .page1G => pageAddrMask1G
  | .invalid => 0

/-- The size that the access paths take for an entry; zero for an invalid one. -/
def PageSize.bytes : PageSize → BitVec 64
  | .page4K => 1#64 <<< 12
  | .page2M => 1#64 <<< 21
  | .page1G => 1#64 <<< 30
  | .invalid => 0

/-- The match test of the lookup loop. -/
def TLBEntry.hits (e : TLBEntry) (asid : BitVec 16) (va : BitVec 64) : Bool :=
  (e.asid == asid || e.g) && e.pagesize.mask != 0 && va &&& e.pagesize.mask == e.vpa

/-- Whether `sfence.vma` drops the entry. -/
def TLBEntry.flushedBy (e : TLBEntry) (vaddr asid : BitVec 64) : Bool :=
  (e.asid.setWidth 64 == asid || asid == 0) &&
    (vaddr == 0 ||
      e.pagesize != .invalid && e.vpa &&& e.pagesize.mask == vaddr &&& e.pagesize.mask)

/-- `SV39_FlushTLB_sfence_vma` on the TLB. -/
def MMU.flush (m : MMU) (vaddr asid : BitVec 64) : MMU :=
  { m with
    tlb := fun i => if (m.tlb i).flushedBy vaddr asid then { m.tlb i with pagesize := .invalid }
      else m.tlb i }

variable {β : Type}

def sv39FlushTLBSfenceVma (vaddr asid : BitVec 64) : Emu β Unit := fun s =>
  .ok () { s with mmu := s.mmu.flush vaddr asid }

/-- `getTLBIndexToSwapOut`. -/
def getTLBIndexToSwapOut : Emu β (Fin 32) := fun s =>
  .ok s.mmu.lastSwappedIndex
    { s with mmu := { s.mmu with lastSwappedIndex := s.mmu.lastSwappedIndex + 1 } }

def setTLB (i : Fin 32) (e : TLBEntry) : Emu β Unit := fun s =>
  .ok () { s with mmu := { s.mmu with tlb := fun j => if j = i then e else s.mmu.tlb j } }

/-- The entry that `writeTLB` makes of a leaf. -/
def TLBEntry.ofLeaf (leafPte vpa : BitVec 64) (pagesize : PageSize) (asid : BitVec 16) :
    TLBEntry where
  ppa := PTE.paddr leafPte
  vpa := vpa
  asid := asid
  pagesize := pagesize
  r := PTE.r leafPte
  w := PTE.w leafPte
  x := PTE.x leafPte
  u := PTE.u leafPte
  g := PTE.g leafPte
  a := PTE.a leafPte
  d := PTE.d leafPte

/-- `writeTLB`. -/
def writeTLB (leafPte pageSize vaddr : BitVec 64) : Emu β TLBEntry := do
  let i ← getTLBIndexToSwapOut
  assertThat (PTE.paddr leafPte = PTE.paddrCheck leafPte) .tlbFields
  let mask := if pageSize = 1#64 <<< 12 then pageAddrMask4K
    else if pageSize = 1#64 <<< 21 then pageAddrMask2M
    else if pageSize = 1#64 <<< 30 then pageAddrMask1G
    else 0
  assertThat (mask ≠ 0) .tlbFields
  let vpa := vaddr &&& mask
  assertThat (vpa = if pageSize = 1#64 <<< 12 then vaddr - vaddr % (1#64 <<< 12)
    else if pageSize = 1#64 <<< 21 then vaddr - vaddr % (1#64 <<< 21)
    else vaddr - vaddr % (1#64 <<< 30)) .tlbFields
  let pagesize := if pageSize = 1#64 <<< 12 then PageSize.page4K
    else if pageSize = 1#64 <<< 21 then PageSize.page2M
    else if pageSize = 1#64 <<< 30 then PageSize.page1G
    else PageSize.invalid
  assertThat (pagesize ≠ .invalid) .tlbFields
  let c ← getCore
  let entry := TLBEntry.ofLeaf leafPte vpa pagesize (Satp.asid c.satp)
  setTLB i entry
  return entry

/-- The lookup loop over the entries still to be looked at. -/
def lookupLoop (vaddr : BitVec 64) : List (Fin 32) → Option (Fin 32) → Emu β (Option (Fin 32))
  | [], found => pure found
  | i :: rest, found => do
    let s ← get
    if (s.mmu.tlb i).hits (Satp.asid s.core.satp) vaddr then
      assertThat (found = none) .duplicateMatch
      lookupLoop vaddr rest (some i)
    else lookupLoop vaddr rest found

/-- The `assert` on entry to `getTLBEntry`: the blank bits repeat the highest bit
of the last virtual page number. -/
def canonicalCheck (vaddr : BitVec 64) : Bool :=
  VAddr.blank vaddr == 0b1111111111111111111111111 && VAddr.vpn2 vaddr >>> 8 != 0 ||
    VAddr.blank vaddr == 0 && VAddr.vpn2 vaddr >>> 8 == 0

variable [SlaveAtomicIOI β]

/-- One page table entry, read over the bus. -/
def loadPTE (paddr : Addr) : Emu β (BitVec 64) := do
  let (feedback, pte) ← doLoadAs (.pteLoad paddr) paddr 8
  assertThat (feedback = .success) .pteLoadOk
  return pte

/-- The part of `getTLBEntry` behind a miss. -/
def walkTables (vaddr : BitVec 64) : Emu β (Option TLBEntry) := do
  let c ← getCore
  if Satp.mode c.satp ≠ 8 then
    return none
  let pageTableAddr := (Satp.ppn c.satp).setWidth 64 <<< 12
  let l2Pte ← loadPTE (pageTableAddr + (VAddr.vpn2 vaddr).setWidth 64 * 8)
  if isValidLeafPTE l2Pte then
    return some (← writeTLB l2Pte (1#64 <<< 30) vaddr)
  if !isValidDirPTE l2Pte then
    return none
  assertThat (PTE.paddr l2Pte = PTE.paddrCheck l2Pte) .tableAddr
  let l1Pte ← loadPTE (PTE.paddr l2Pte + (VAddr.vpn1 vaddr).setWidth 64 * 8)
  if isValidLeafPTE l1Pte then
    return some (← writeTLB l1Pte (1#64 <<< 21) vaddr)
  if !isValidDirPTE l1Pte then
    return none
  assertThat (PTE.paddr l1Pte = PTE.paddrCheck l1Pte) .tableAddr
  let l0Pte ← loadPTE (PTE.paddr l1Pte + (VAddr.vpn0 vaddr).setWidth 64 * 8)
  if isValidLeafPTE l0Pte then
    return some (← writeTLB l0Pte (1#64 <<< 12) vaddr)
  return none

/-- `getTLBEntry`. The pointer it returns is read at once, so the entry stands for it. -/
def getTLBEntry (vaddr : BitVec 64) : Emu β (Option TLBEntry) := do
  let s ← get
  emit (.translate vaddr s.mmu s.core.satp s.bus)
  assertThat (canonicalCheck vaddr = true) .canonical
  let found ← lookupLoop vaddr (List.finRange 32) none
  match found with
  | some i => return some (s.mmu.tlb i)
  | none => walkTables vaddr

/-- The access leaves the 4 KiB page of its first byte. -/
def crossesPage (beginAddr : BitVec 64) (size : Nat) : Bool :=
  beginAddr >>> 12 != (beginAddr + BitVec.ofNat 64 size - 1) >>> 12

/-- A translated access: `refuse` is what the path checks on the entry, `act` what
it does at the physical address. -/
def pagedAccess {ρ : Type} (beginAddr : BitVec 64) (size : Nat) (crossPage noEntry : ρ)
    (refuse : RV64Core → TLBEntry → Option ρ) (act : Addr → Emu β ρ) : Emu β ρ := do
  if crossesPage beginAddr size then
    return crossPage
  match ← getTLBEntry beginAddr with
  | none => return noEntry
  | some entry =>
    let c ← getCore
    match refuse c entry with
    | some code => return code
    | none =>
      assertThat (entry.pagesize.bytes ≠ 0) .pageSize
      act (entry.ppa + beginAddr % entry.pagesize.bytes)

/-- No translation for data: M mode not lent to another mode by MPRV, or no paging. -/
def RV64Core.dataBare (c : RV64Core) : Bool :=
  c.currentPrivMode == .mMode &&
      (!c.status.getLsbD MStatus.mprv || field c.status MStatus.mpp 2 == PrivMode.mMode.toBits) ||
    Satp.mode c.satp == 0

/-- `priv` of the access paths: the mode that a data access is checked for. -/
def RV64Core.dataPriv (c : RV64Core) : PrivMode :=
  if c.status.getLsbD MStatus.mprv && c.currentPrivMode == .mMode then
    PrivMode.ofBits (field c.status MStatus.mpp 2)
  else c.currentPrivMode

/-- The checks of the read path. The SUM check looks at the current mode, not at `priv`. -/
def readRefusal {ρ : Type} (pageFault accessFault : ρ) (c : RV64Core) (e : TLBEntry) : Option ρ :=
  if !e.a || !e.r && !(c.status.getLsbD MStatus.mxr && !e.x) then some pageFault
  else if c.dataPriv == .uMode && !e.u then some pageFault
  else if !c.status.getLsbD MStatus.sum && c.currentPrivMode == .sMode && e.u then some accessFault
  else none

/-- The checks of the write path, which SC and the AMOs repeat. -/
def writeRefusal {ρ : Type} (pageFault : ρ) (c : RV64Core) (e : TLBEntry) : Option ρ :=
  if !e.a || !e.d || !e.w then some pageFault
  else if c.dataPriv == .uMode && !e.u then some pageFault
  else if !c.status.getLsbD MStatus.sum && c.dataPriv == .sMode && e.u then some pageFault
  else none

/-- The checks of the fetch path. -/
def fetchRefusal {ρ : Type} (pageFault : ρ) (c : RV64Core) (e : TLBEntry) : Option ρ :=
  if !e.a || !e.x then some pageFault
  else if c.currentPrivMode == .uMode && !e.u || c.currentPrivMode == .sMode && e.u then
    some pageFault
  else none

/-- `doLoad` with the code for a bus error. -/
def physRead (beginAddr : Addr) (size : Nat) : Emu β (VAddrFeedback × BitVec (8 * size)) := do
  let (feedback, data) ← doLoad beginAddr size
  return (if feedback = .success then .accessOk else .accessFault, data)

/-- `doStore` with the code for a bus error, which differs between the two paths. -/
def physWrite {ρ : Type} (ok fault : ρ) (beginAddr : Addr) (size : Nat)
    (data : BitVec (8 * size)) : Emu β ρ := do
  let feedback ← doStore beginAddr size data
  return if feedback = .success then ok else fault

/-- `VAddr_ReadBuffer_MMU_API`. -/
def vaddrReadBufferMMUAPI (beginAddr : BitVec 64) (size : Nat) :
    Emu β (VAddrFeedback × BitVec (8 * size)) := do
  let c ← getCore
  if c.dataBare then
    physRead beginAddr size
  else
    pagedAccess beginAddr size (.misAlign, 0) (.pageFault, 0)
      (readRefusal (.pageFault, 0) (.accessFault, 0)) (fun paddr => physRead paddr size)

/-- `VAddr_InstFetch_MMU_API` of bytes that it does not split. -/
def instFetchPart (beginAddr : BitVec 64) (size : Nat) :
    Emu β (VAddrFeedback × BitVec (8 * size)) := do
  assertThat (beginAddr % 2 = 0) .fetchAlign
  let c ← getCore
  if c.currentPrivMode = .mMode ∨ Satp.mode c.satp = 0 then
    physRead beginAddr size
  else
    pagedAccess beginAddr size (.misAlign, 0) (.pageFault, 0)
      (fetchRefusal (.pageFault, 0)) (fun paddr => physRead paddr size)

/-- `VAddr_InstFetch_MMU_API`. Four bytes that start between two words are fetched
as two halves, which may lie on two pages. -/
def vaddrInstFetchMMUAPI (beginAddr : BitVec 64) (size : Nat) :
    Emu β (VAddrFeedback × BitVec (8 * size)) := do
  assertThat (beginAddr % 2 = 0) .fetchAlign
  if size = 4 ∧ beginAddr % 4 = 2 then
    let (fb1, low) ← instFetchPart beginAddr 2
    if fb1 ≠ .accessOk then
      return (fb1, 0)
    let (fb2, high) ← instFetchPart (beginAddr + 2) 2
    if fb2 ≠ .accessOk then
      return (fb2, 0)
    return (.accessOk, (high ++ low).setWidth _)
  else
    instFetchPart beginAddr size

/-- `VAddr_WriteBuffer_MMU_API`. A bus error is an access fault without translation
and a page fault with it. -/
def vaddrWriteBufferMMUAPI (beginAddr : BitVec 64) (size : Nat) (data : BitVec (8 * size)) :
    Emu β VAddrFeedback := do
  let c ← getCore
  if c.dataBare then
    physWrite .accessOk .accessFault beginAddr size data
  else
    pagedAccess beginAddr size .misAlign .pageFault (writeRefusal .pageFault)
      (fun paddr => physWrite .accessOk .pageFault paddr size data)

end NextEmu.Simple
