import NextEmu.Lib.BlockCache
import NextEmu.Lib.RadixWalk
import NextEmu.Sdk.AddrBus
import NextEmu.Simple.Sv39

/-!
# What a translation computes

The tables of Sv39 are a radix tree over the bus, and the entries that the TLB
keeps are caches of its blocks. The results of this module say what each function
of the MMU does, outcome by outcome: the walk follows the tree, a refill fills one
slot, and `getTLBEntry` answers from the one entry that matches, or walks.
-/

namespace NextEmu.Simple.Translation

open NextEmu.Lib NextEmu.Lib.AbortState NextEmu.Lib.BitField NextEmu.Lib.RadixWalk NextEmu.Sdk

/-! ## Blocks of virtual addresses -/

/-- The index of a virtual address into the table at a level. -/
def vpn (level : Nat) (va : BitVec 64) : BitVec 9 :=
  match level with
  | 0 => VAddr.vpn0 va
  | 1 => VAddr.vpn1 va
  | _ => VAddr.vpn2 va

/-- The page size of a leaf at a level. -/
def sizeOfLevel : Nat → PageSize
  | 0 => .page4K
  | 1 => .page2M
  | _ => .page1G

/-- How many low bits an address inside a page has. -/
def offsetBits : PageSize → Nat
  | .page4K => 12
  | .page2M => 21
  | .page1G => 30
  | .invalid => 64

theorem mask_eq {p : PageSize} (hp : p ≠ .invalid) : p.mask = -(1#64 <<< offsetBits p) := by
  cases p with
  | invalid => exact absurd rfl hp
  | _ => rfl

theorem bytes_eq {p : PageSize} (hp : p ≠ .invalid) : p.bytes = 1#64 <<< offsetBits p := by
  cases p with
  | invalid => exact absurd rfl hp
  | _ => rfl

theorem sizeOfLevel_ne (l : Nat) : sizeOfLevel l ≠ .invalid := by
  unfold sizeOfLevel
  split <;> exact PageSize.noConfusion

theorem mask_ne_zero {p : PageSize} : p.mask ≠ 0 ↔ p ≠ .invalid := by
  cases p <;> decide

/-- Two addresses with the same masked bits have the same bits above the mask. -/
theorem getLsbD_of_mask {p : PageSize} (hp : p ≠ .invalid) {va va' : BitVec 64}
    (h : va &&& p.mask = va' &&& p.mask) {i : Nat} (hi : offsetBits p ≤ i) :
    va.getLsbD i = va'.getLsbD i := by
  by_cases hlt : i < 64
  · have hbit := congrArg (BitVec.getLsbD · i) h
    simpa only [mask_eq hp, BitVec.getLsbD_and, getLsbD_highMask, hi, hlt, decide_true,
      Bool.and_true] using hbit
  · rw [BitVec.getLsbD_of_ge _ _ (by omega), BitVec.getLsbD_of_ge _ _ (by omega)]

theorem field_of_mask {p : PageSize} (hp : p ≠ .invalid) {va va' : BitVec 64}
    (h : va &&& p.mask = va' &&& p.mask) {lo w : Nat} (hlo : offsetBits p ≤ lo) :
    field va lo w = field va' lo w := by
  refine BitVec.eq_of_getLsbD_eq fun i hi => ?_
  simp only [BitVec.getLsbD_extractLsb', hi, decide_true, Bool.true_and]
  exact getLsbD_of_mask hp h (by omega)

/-! ## The tree behind the bus -/

variable {β : Type} [SlaveAtomicIOI β]

/-- The page tables of Sv39 as a tree over the bus. -/
def sv39 : Scheme β Addr (BitVec 64) (BitVec 64) where
  read b a :=
    let r := SlaveIOI.load b a 8
    (if r.1.1 = .success then some r.1.2 else none, r.2)
  slot level table va := table + (vpn level va).setWidth 64 * 8
  kind pte :=
    if isValidLeafPTE pte then .leaf
    else if isValidDirPTE pte then .dir (PTE.paddr pte)
    else .invalid

theorem sv39_slot (l : Nat) (table : Addr) (va : BitVec 64) :
    (sv39 (β := β)).slot l table va = table + (vpn l va).setWidth 64 * 8 := rfl

theorem sv39_kind (pte : BitVec 64) :
    (sv39 (β := β)).kind pte =
      if isValidLeafPTE pte then .leaf
      else if isValidDirPTE pte then .dir (PTE.paddr pte)
      else .invalid := rfl

/-- The address of the top table. -/
def rootOf (satp : BitVec 64) : Addr := (Satp.ppn satp).setWidth 64 <<< 12

/-- The walk that `satp` and the bus give for an address. -/
def pageWalk (satp : BitVec 64) (b : β) (va : BitVec 64) : Walked β Addr (BitVec 64) :=
  walk sv39 2 (rootOf satp) va b

/-- Addresses in the page of a leaf are in its block. -/
theorem sameBlock_of_mask {l : Nat} {va va' : BitVec 64}
    (h : va &&& (sizeOfLevel l).mask = va' &&& (sizeOfLevel l).mask) :
    SameBlock (sv39 (β := β)) 2 l va va' := by
  intro j hlj hj2 t
  have hv : vpn j va = vpn j va' := by
    have hp := sizeOfLevel_ne l
    match j, l with
    | 0, 0 => exact field_of_mask hp h (Nat.le_refl _)
    | 1, 0 | 1, 1 => exact field_of_mask hp h (by decide)
    | 2, 0 | 2, 1 | 2, 2 => exact field_of_mask hp h (by decide)
    | j + 3, _ => omega
    | 0, _ + 1 => omega
    | 1, _ + 2 => omega
    | 2, _ + 3 => omega
  simp only [sv39, hv]

/-- The entry that a refill makes of the leaf of an address. -/
def leafEntry (asid : BitVec 16) (va : BitVec 64) (level : Nat) (pte : BitVec 64) : TLBEntry :=
  TLBEntry.ofLeaf pte (va &&& (sizeOfLevel level).mask) (sizeOfLevel level) asid

/-! ## The functions of the MMU -/

/-- A refill: the slot that is next in turn takes the entry. -/
def refilled (m : MMU) (e : TLBEntry) : MMU where
  tlb := BlockCache.put m.tlb m.lastSwappedIndex e
  lastSwappedIndex := m.lastSwappedIndex + 1

theorem paddrCheck_eq (pte : BitVec 64) : PTE.paddr pte = PTE.paddrCheck pte := by
  have h : (PTE.ppn2 pte).setWidth 64 <<< 18 ||| (PTE.ppn1 pte).setWidth 64 <<< 9 =
      ((PTE.ppn2 pte).setWidth 64 <<< 9 ||| (PTE.ppn1 pte).setWidth 64) <<< 9 := by
    rw [BitVec.shiftLeft_or_distrib, ← BitVec.shiftLeft_add]
  unfold PTE.paddr PTE.paddrCheck
  rw [h]

section Emu

variable {β : Type} {s : Machine β}

theorem getTLBIndexToSwapOut_run (s : Machine β) :
    getTLBIndexToSwapOut s = .ok s.mmu.lastSwappedIndex
      { s with mmu := { s.mmu with lastSwappedIndex := s.mmu.lastSwappedIndex + 1 } } := rfl

/-- None of the assertions of `writeTLB` fails on a page size. -/
theorem writeTLB_eq {p : PageSize} (hp : p ≠ .invalid) (pte va : BitVec 64) (s : Machine β) :
    writeTLB pte p.bytes va s =
      let e := TLBEntry.ofLeaf pte (va &&& p.mask) p (Satp.asid s.core.satp)
      .ok e { s with mmu := refilled s.mmu e } := by
  have hmask : (if p.bytes = 1#64 <<< 12 then pageAddrMask4K
      else if p.bytes = 1#64 <<< 21 then pageAddrMask2M
      else if p.bytes = 1#64 <<< 30 then pageAddrMask1G else 0) = p.mask := by
    cases p <;> rfl
  have hsize : (if p.bytes = 1#64 <<< 12 then PageSize.page4K
      else if p.bytes = 1#64 <<< 21 then PageSize.page2M
      else if p.bytes = 1#64 <<< 30 then PageSize.page1G else PageSize.invalid) = p := by
    cases p <;> rfl
  have hvpa : va &&& p.mask = (if p.bytes = 1#64 <<< 12 then va - va % (1#64 <<< 12)
      else if p.bytes = 1#64 <<< 21 then va - va % (1#64 <<< 21)
      else va - va % (1#64 <<< 30)) := by
    rw [mask_eq hp]
    cases p with
    | invalid => exact absurd rfl hp
    | page4K => exact and_highMask (by decide) va
    | page2M => exact and_highMask (by decide) va
    | page1G => exact and_highMask (by decide) va
  unfold writeTLB
  rw [bind_of_ok (getTLBIndexToSwapOut_run s), assert_bind (paddrCheck_eq pte), assert_bind,
    assert_bind, assert_bind]
  · simp only [hmask, hsize]
    rfl
  · rw [hsize]
    exact hp
  · rw [hmask]
    exact hvpa
  · rw [hmask]
    exact mask_ne_zero.mpr hp

end Emu

/-- The machine behind a walk. -/
def readTables (s : Machine β) (w : Walked β Addr (BitVec 64)) : Machine β :=
  { s with bus := w.state, trace := (w.reads.map (fun r => Event.pteLoad r.1)).reverse ++ s.trace }

/-- What the code makes of a walk: a leaf is put into the TLB and handed out. -/
def finish (va : BitVec 64) (s : Machine β) (w : Walked β Addr (BitVec 64)) :
    EStateM.Result Assertion (Machine β) (Option TLBEntry) :=
  match w.result with
  | .unreadable => .error .pteLoadOk (readTables s w)
  | .fault => .ok none (readTables s w)
  | .leaf l pte =>
    let e := leafEntry (Satp.asid s.core.satp) va l pte
    .ok (some e) { readTables s w with mmu := refilled s.mmu e }

section Walk

variable {va : BitVec 64} {s : Machine β}

omit [SlaveAtomicIOI β] in
theorem finish_after (r : Addr × Option (BitVec 64)) (b : β) (w : Walked β Addr (BitVec 64)) :
    finish va s (w.after r) =
      finish va { s with bus := b, trace := .pteLoad r.1 :: s.trace } w := by
  simp only [finish, readTables, Walked.after, List.map_cons, List.reverse_cons, List.append_assoc,
    List.cons_append, List.nil_append]

theorem loadPTE_run (a : Addr) (s : Machine β) :
    loadPTE a s =
      let r := sv39.read s.bus a
      let t := { s with bus := r.2, trace := Event.pteLoad a :: s.trace }
      match r.1 with
      | some pte => .ok pte t
      | none => .error .pteLoadOk t := by
  unfold loadPTE
  rw [run_bind, doLoadAs_run]
  simp only [sv39]
  by_cases h : (SlaveIOI.load s.bus a 8).1.1 = .success
  · rw [assert_bind h]
    simp only [h, if_true]
    rfl
  · simp only [h, if_false, assertThat]
    rfl

/-- One level of `walkTables`, of which `rest` is the code behind the test for a leaf. -/
theorem level_run {l : Nat} {table : Addr} {rest : BitVec 64 → Emu β (Option TLBEntry)}
    {below : Addr → β → Walked β Addr (BitVec 64)}
    (hrest : ∀ pte t, isValidLeafPTE pte = false → rest pte t =
      match isValidDirPTE pte with
      | true => finish va t (below (PTE.paddr pte) t.bus)
      | false => .ok none t) :
    (do
      let pte ← loadPTE (table + (vpn l va).setWidth 64 * 8)
      if isValidLeafPTE pte then do
        let e ← writeTLB pte (sizeOfLevel l).bytes va
        pure (some e)
      else rest pte) s = finish va s (visit sv39 l table va s.bus below) := by
  rw [run_bind, loadPTE_run]
  unfold visit
  rcases hr : sv39.read s.bus (table + (vpn l va).setWidth 64 * 8) with ⟨_ | pte, b⟩
  · simp only [sv39_slot, hr, finish_after _ b, Option.map_none]
    rfl
  · simp only [sv39_slot, sv39_kind, hr, finish_after _ b, Option.map_some]
    cases hleaf : isValidLeafPTE pte with
    | true =>
      simp only [if_true]
      rw [bind_of_ok (writeTLB_eq (sizeOfLevel_ne l) pte va _)]
      rfl
    | false =>
      simp only [Bool.false_eq_true, if_false]
      rw [hrest _ _ hleaf]
      cases isValidDirPTE pte with
      | true => rfl
      | false => rfl

omit [SlaveAtomicIOI β] in
theorem dir_run {pte : BitVec 64} {t : Machine β} {lower : Emu β (Option TLBEntry)}
    {w : Walked β Addr (BitVec 64)} (h : lower t = finish va t w) :
    (if (!isValidDirPTE pte) = true then pure none
      else do
        assertThat (PTE.paddr pte = PTE.paddrCheck pte) .tableAddr
        lower) t =
      match isValidDirPTE pte with
      | true => finish va t w
      | false => .ok none t := by
  cases hd : isValidDirPTE pte with
  | false => rfl
  | true =>
    simp only [Bool.not_true, Bool.false_eq_true, if_false]
    rw [assert_bind (paddrCheck_eq pte), h]

/-- Behind a miss the code is a walk of the tables. -/
theorem walkTables_eq (va : BitVec 64) (s : Machine β) (hmode : Satp.mode s.core.satp = 8) :
    walkTables va s = finish va s (pageWalk s.core.satp s.bus va) := by
  unfold walkTables
  rw [bind_of_ok (getCore_run s)]
  simp only [hmode, ne_eq, not_true, if_false]
  refine level_run (l := 2) fun l2Pte t2 _ => ?_
  refine dir_run (level_run (l := 1) fun l1Pte t1 _ => ?_)
  refine dir_run (level_run (l := 0) fun l0Pte t0 _ => ?_)
  cases isValidDirPTE l0Pte <;> rfl

end Walk

/-! ## The lookup -/

/-- The entries among `slots` that match, in the order of the loop. -/
def hitsIn (m : MMU) (asid : BitVec 16) (va : BitVec 64) (slots : List (Fin 32)) :
    List (Fin 32) := slots.filter (fun i => (m.tlb i).hits asid va)

/-- What the loop makes of the entries that match. -/
def answerOf (s : Machine β) : List (Fin 32) →
    EStateM.Result Assertion (Machine β) (Option (Fin 32))
  | [] => .ok none s
  | [i] => .ok (some i) s
  | _ :: _ :: _ => .error .duplicateMatch s

section Lookup

variable {β : Type} {va : BitVec 64} {s : Machine β}

/-- The loop stops at the second match, so its answer only depends on the matches. -/
theorem lookupLoop_eq (slots : List (Fin 32)) : ∀ found : Option (Fin 32),
    lookupLoop va slots found s =
      answerOf s (found.toList ++ hitsIn s.mmu (Satp.asid s.core.satp) va slots) := by
  induction slots with
  | nil =>
    intro found
    cases found <;> rfl
  | cons i rest ih =>
    intro found
    unfold lookupLoop
    rw [bind_of_ok (run_get s)]
    cases hhit : (s.mmu.tlb i).hits (Satp.asid s.core.satp) va with
    | false =>
      have hrest : hitsIn s.mmu (Satp.asid s.core.satp) va (i :: rest) =
          hitsIn s.mmu (Satp.asid s.core.satp) va rest := by
        simp only [hitsIn, List.filter_cons, hhit, Bool.false_eq_true, if_false]
      simp only [Bool.false_eq_true, if_false]
      rw [ih, hrest]
    | true =>
      have hcons : hitsIn s.mmu (Satp.asid s.core.satp) va (i :: rest) =
          i :: hitsIn s.mmu (Satp.asid s.core.satp) va rest := by
        simp only [hitsIn, List.filter_cons, hhit, if_true]
      simp only [if_true]
      rw [hcons]
      cases found with
      | none =>
        rw [assert_bind rfl, ih]
        rfl
      | some j => rfl

/-- The matches in the whole TLB. -/
def hits (m : MMU) (asid : BitVec 16) (va : BitVec 64) : List (Fin 32) :=
  hitsIn m asid va (List.finRange 32)

theorem mem_hits {m : MMU} {asid : BitVec 16} {i : Fin 32} :
    i ∈ hits m asid va ↔ (m.tlb i).hits asid va = true := by
  simp only [hits, hitsIn, List.mem_filter, List.mem_finRange, true_and]

theorem hits_nodup (m : MMU) (asid : BitVec 16) (va : BitVec 64) : (hits m asid va).Nodup := by
  unfold hits hitsIn
  exact (List.nodup_finRange 32).filter _

end Lookup

/-- The keys of the TLB are an address space and an address; an entry covers those it matches. -/
def covers (e : TLBEntry) (k : BitVec 16 × BitVec 64) : Prop := e.hits k.1 k.2 = true

theorem not_covers_of_invalid {e : TLBEntry} (h : e.pagesize = .invalid)
    (k : BitVec 16 × BitVec 64) : ¬ covers e k := by
  simp only [covers, TLBEntry.hits, h, PageSize.mask, bne_self_eq_false, Bool.and_false,
    Bool.false_and, Bool.false_eq_true, not_false_eq_true]

theorem hits_eq_nil {m : MMU} {asid : BitVec 16} {va : BitVec 64} :
    hits m asid va = [] ↔ ∀ i, ¬ covers (m.tlb i) (asid, va) := by
  simp only [List.eq_nil_iff_forall_not_mem, mem_hits]
  rfl

/-- Two matches are two slots that cover one key. -/
theorem hits_two {m : MMU} {asid : BitVec 16} {va : BitVec 64} {i j : Fin 32}
    {rest : List (Fin 32)} (h : hits m asid va = i :: j :: rest) :
    i ≠ j ∧ covers (m.tlb i) (asid, va) ∧ covers (m.tlb j) (asid, va) := by
  have hnd := hits_nodup m asid va
  rw [h] at hnd
  have hi : i ∈ hits m asid va := by rw [h]; exact List.mem_cons_self
  have hj : j ∈ hits m asid va := by rw [h]; exact List.mem_cons_of_mem _ List.mem_cons_self
  refine ⟨?_, mem_hits.mp hi, mem_hits.mp hj⟩
  intro hij
  exact (List.nodup_cons.mp hnd).1 (hij ▸ List.mem_cons_self)

/-- A TLB without a valid entry. -/
def AllInvalid (m : MMU) : Prop := ∀ i, (m.tlb i).pagesize = .invalid

theorem AllInvalid.hits_eq {m : MMU} (h : AllInvalid m) (asid : BitVec 16) (va : BitVec 64) :
    hits m asid va = [] :=
  hits_eq_nil.mpr fun i => not_covers_of_invalid (h i) _

/-- `sfence.vma` only drops entries. -/
theorem flush_dropped (m : MMU) (vaddr asid : BitVec 64) :
    BlockCache.Dropped covers m.tlb (m.flush vaddr asid).tlb := by
  intro i
  simp only [MMU.flush]
  split
  · exact .inr (not_covers_of_invalid rfl)
  · exact .inl rfl

/-- With both operands zero it drops all of them. -/
theorem flush_zero (m : MMU) : AllInvalid (m.flush 0 0) := by
  intro i
  simp [MMU.flush, TLBEntry.flushedBy]

/-- The machine that the lookup works on: the call is noted. -/
def translating (va : BitVec 64) (s : Machine β) : Machine β :=
  { s with trace := .translate va s.mmu s.core.satp s.bus :: s.trace }

/-- What `getTLBEntry` does: it answers from the one match, or walks, or aborts. -/
theorem getTLBEntry_eq (va : BitVec 64) (s : Machine β) :
    getTLBEntry va s =
      if canonicalCheck va then
        match hits s.mmu (Satp.asid s.core.satp) va with
        | [] => walkTables va (translating va s)
        | [i] => .ok (some (s.mmu.tlb i)) (translating va s)
        | _ :: _ :: _ => .error .duplicateMatch (translating va s)
      else .error .canonical (translating va s) := by
  unfold getTLBEntry
  rw [bind_of_ok (run_get s), bind_of_ok (emit_run _ s)]
  cases hc : canonicalCheck va with
  | false => rfl
  | true =>
    rw [assert_bind rfl, run_bind, lookupLoop_eq]
    simp only [if_true]
    have hl : (none : Option (Fin 32)).toList ++
        hitsIn s.mmu (Satp.asid s.core.satp) va (List.finRange 32) =
          hits s.mmu (Satp.asid s.core.satp) va := rfl
    rw [hl]
    rcases hits s.mmu (Satp.asid s.core.satp) va with _ | ⟨i, _ | ⟨j, rest⟩⟩ <;> rfl

/-- The rule of the lookup: an abort, a walk where nothing matches, or the one match. -/
theorem wp_getTLBEntry {va : BitVec 64} {s : Machine β}
    {Q : Option TLBEntry → Machine β → Prop} {E : Assertion → Machine β → Prop}
    (hcanonical : E .canonical (translating va s))
    (hmiss : hits s.mmu (Satp.asid s.core.satp) va = [] →
      wp (walkTables va) Q E (translating va s))
    (hone : ∀ i, hits s.mmu (Satp.asid s.core.satp) va = [i] →
      Q (some (s.mmu.tlb i)) (translating va s))
    (htwo : ∀ i j rest, hits s.mmu (Satp.asid s.core.satp) va = i :: j :: rest →
      E .duplicateMatch (translating va s)) :
    wp (getTLBEntry va) Q E s := by
  unfold wp
  rw [getTLBEntry_eq]
  by_cases hc : canonicalCheck va = true
  · rw [if_pos hc]
    rcases hh : hits s.mmu (Satp.asid s.core.satp) va with _ | ⟨i, _ | ⟨j, rest⟩⟩
    · exact hmiss hh
    · exact hone i hh
    · exact htwo i j rest hh
  · rw [if_neg hc]
    exact hcanonical

/-! ## A small table -/

/-- One gigapage at `0x80000000`, read, written and executed, behind a root table there. -/
def gigapage : Nat → BitVec 8 := fun a => if a = 16 then 0xcf else if a = 19 then 0x20 else 0

/-- A bus with this memory at `0x80000000` and no devices. -/
def memoryBus (mem : Nat → BitVec 8) : AddrBus Empty :=
  AddrBus.empty.setMem 0x80000000 0x10000 mem

/-- A machine in S mode whose `satp` names that table. -/
def gigapageMachine : Machine (AddrBus Empty) :=
  Machine.start { (default : RV64Core) with
    currentPrivMode := .sMode, satp := 0x8000000000080000 } (memoryBus gigapage)

end NextEmu.Simple.Translation
