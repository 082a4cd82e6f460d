import NextEmu.Simple.Privilege
import NextEmu.Simple.Translation

/-!
# The TLB is transparent under a fencing discipline

As long as the tables that the walks read stay as they are, each address space
keeps its root, and no leaf is global, the valid entries are blocks of one partial
function of address space and address. Then a translation answers as it would
with an empty TLB, wherever the replacement has put its entries. A full flush
starts this over, with new tables and new roots.
-/

namespace NextEmu.Simple.Transparency

open NextEmu.Lib NextEmu.Lib.AbortState NextEmu.Lib.BlockCache NextEmu.Lib.RadixWalk NextEmu.Sdk
open Translation

variable {β : Type} [SlaveAtomicIOI β]

/-! ## The function that the TLB caches -/

/-- The entry for a key: the leaf that its address space has for it, in the tables `m`. -/
def answer (β : Type) [SlaveAtomicIOI β] (m : Addr → BitVec 64) (root : BitVec 16 → BitVec 44)
    (k : BitVec 16 × BitVec 64) : Option TLBEntry :=
  match lookup (sv39 (β := β)) m 2 ((root k.1).setWidth 64 <<< 12) k.2 with
  | .leaf l pte => if PTE.g pte then none else some (leafEntry k.1 k.2 l pte)
  | _ => none

section Answer

variable {m : Addr → BitVec 64} {root : BitVec 16 → BitVec 44} {k : BitVec 16 × BitVec 64}
  {e : TLBEntry}

theorem answer_some (h : answer β m root k = some e) : ∃ l pte,
    lookup (sv39 (β := β)) m 2 ((root k.1).setWidth 64 <<< 12) k.2 = .leaf l pte ∧
      PTE.g pte = false ∧ e = leafEntry k.1 k.2 l pte := by
  unfold answer at h
  split at h
  · rename_i l pte hl
    split at h
    · cases h
    · rename_i hg
      exact ⟨l, pte, hl, by simpa using hg, (Option.some.inj h).symm⟩
  · cases h

theorem covers_leafEntry {asid : BitVec 16} {va : BitVec 64} {l : Nat} {pte : BitVec 64}
    {k' : BitVec 16 × BitVec 64} (hg : PTE.g pte = false) :
    covers (leafEntry asid va l pte) k' ↔
      asid = k'.1 ∧ k'.2 &&& (sizeOfLevel l).mask = va &&& (sizeOfLevel l).mask := by
  have hm : (sizeOfLevel l).mask ≠ 0#64 := mask_ne_zero.mpr (sizeOfLevel_ne l)
  simp [covers, TLBEntry.hits, leafEntry, TLBEntry.ofLeaf, hg]
  exact fun _ _ => hm

/-- Constant tables without global leaves partition the keys. -/
theorem answer_blocks (m : Addr → BitVec 64) (root : BitVec 16 → BitVec 44) :
    Blocks covers (answer β m root) where
  own := by
    intro k e h
    obtain ⟨l, pte, -, hg, rfl⟩ := answer_some h
    exact (covers_leafEntry hg).mpr ⟨rfl, rfl⟩
  same := by
    rintro ⟨asid, va⟩ e ⟨asid', va'⟩ h hc
    obtain ⟨l, pte, hl, hg, rfl⟩ := answer_some h
    obtain ⟨rfl, hmask⟩ := (covers_leafEntry hg).mp hc
    have hl' := lookup_sameBlock hl (sameBlock_of_mask hmask.symm)
    simp only [answer, hl', hg, Bool.false_eq_true, if_false, leafEntry] at hmask ⊢
    rw [hmask]

end Answer

/-! ## One translation -/

/-- What the discipline asks of a translation: a canonical address, paging on, the root of
the address space, tables that hold what `m` says, and a leaf that is not global. -/
structure Undisturbed (m : Addr → BitVec 64) (root : BitVec 16 → BitVec 44) (va : BitVec 64)
    (s : Machine β) : Prop where
  canonical : canonicalCheck va = true
  paging : Satp.mode s.core.satp = 8
  ownRoot : Satp.ppn s.core.satp = root (Satp.asid s.core.satp)
  tables : Agrees m (pageWalk s.core.satp s.bus va)
  notGlobal : (pageWalk s.core.satp s.bus va).result.Leaf (PTE.g · = false)

instance (m : Addr → BitVec 64) (root : BitVec 16 → BitVec 44) (va : BitVec 64) (s : Machine β) :
    Decidable (Undisturbed m root va s) :=
  decidable_of_iff (canonicalCheck va = true ∧ Satp.mode s.core.satp = 8 ∧
      Satp.ppn s.core.satp = root (Satp.asid s.core.satp) ∧
      Agrees m (pageWalk s.core.satp s.bus va) ∧
      (pageWalk s.core.satp s.bus va).result.Leaf (PTE.g · = false))
    ⟨fun ⟨h1, h2, h3, h4, h5⟩ => ⟨h1, h2, h3, h4, h5⟩,
      fun ⟨h1, h2, h3, h4, h5⟩ => ⟨h1, h2, h3, h4, h5⟩⟩

/-- The invariant between two flushes. -/
structure Coherent (β : Type) [SlaveAtomicIOI β] (m : Addr → BitVec 64)
    (root : BitVec 16 → BitVec 44) (mmu : MMU) : Prop where
  fits : Fits covers (answer β m root) mmu.tlb
  single : Single covers mmu.tlb

theorem coherent_of_empty {m : Addr → BitVec 64} {root : BitVec 16 → BitVec 44} {mmu : MMU}
    (h : AllInvalid mmu) : Coherent β m root mmu where
  fits := fits_of_empty fun i => not_covers_of_invalid (h i)
  single := single_of_empty fun i => not_covers_of_invalid (h i)

section Translate

variable {m : Addr → BitVec 64} {root : BitVec 16 → BitVec 44} {va : BitVec 64} {s : Machine β}

/-- The walk of a translation is the lookup that `answer` makes. -/
theorem Undisturbed.walk_eq (h : Undisturbed m root va s) :
    (pageWalk s.core.satp s.bus va).result =
      lookup (sv39 (β := β)) m 2 ((root (Satp.asid s.core.satp)).setWidth 64 <<< 12) va := by
  rw [← h.ownRoot]
  exact walk_eq_lookup h.tables

/-- On a miss the code answers with `answer`, and only a leaf changes the TLB. -/
theorem Undisturbed.miss (h : Undisturbed m root va s)
    (hmiss : hits s.mmu (Satp.asid s.core.satp) va = []) :
    ∃ t, getTLBEntry va s = .ok (answer β m root (Satp.asid s.core.satp, va)) t ∧
      t.mmu = match answer β m root (Satp.asid s.core.satp, va) with
        | some e => refilled s.mmu e
        | none => s.mmu := by
  have hw := h.walk_eq
  have hwalk : getTLBEntry va s =
      finish va (translating va s) (pageWalk s.core.satp s.bus va) := by
    rw [getTLBEntry_eq, hmiss, if_pos h.canonical]
    exact walkTables_eq va (translating va s) h.paging
  rw [hwalk]
  unfold answer finish
  rw [← hw]
  cases hr : (pageWalk s.core.satp s.bus va).result with
  | unreadable => exact absurd (hw.symm.trans hr) lookup_readable
  | fault => exact ⟨_, rfl, rfl⟩
  | leaf l pte =>
    simp only [h.notGlobal l pte hr, Bool.false_eq_true, if_false]
    exact ⟨_, rfl, rfl⟩

/-- A translation answers with `answer`, from the TLB or from the tables. -/
theorem Coherent.translate (hi : Coherent β m root s.mmu) (h : Undisturbed m root va s) :
    ∃ t, getTLBEntry va s = .ok (answer β m root (Satp.asid s.core.satp, va)) t ∧
      Coherent β m root t.mmu := by
  rcases hh : hits s.mmu (Satp.asid s.core.satp) va with _ | ⟨i, _ | ⟨j, rest⟩⟩
  · obtain ⟨t, ht, hmmu⟩ := h.miss hh
    refine ⟨t, ht, ?_⟩
    rw [hmmu]
    cases ha : answer β m root (Satp.asid s.core.satp, va) with
    | none => exact hi
    | some e =>
      obtain ⟨hf, hs⟩ := refill hi.fits hi.single (answer_blocks m root) ha (hits_eq_nil.mp hh)
      exact ⟨hf, hs⟩
  · have hc : covers (s.mmu.tlb i) (Satp.asid s.core.satp, va) :=
      mem_hits.mp (hh ▸ List.mem_cons_self)
    refine ⟨translating va s, ?_, hi⟩
    rw [getTLBEntry_eq, hh, if_pos h.canonical, hi.fits i _ hc]
  · obtain ⟨hne, hci, hcj⟩ := hits_two hh
    exact absurd (hi.single i j _ hci hcj) hne

end Translate

/-! ## Runs -/

/-- What may happen to the MMU and behind it: translations, writes to `satp`, full
flushes, and changes of the bus by stores and by other masters. -/
inductive TlbOp (β : Type)
  | translate (va : BitVec 64)
  | writeSatp (value : BitVec 64)
  | flush
  | bus (b : β)

def writeSatp (value : BitVec 64) (s : Machine β) : Machine β :=
  { s with core := { s.core with satp := legalSatp value } }

def fullFlush (s : Machine β) : Machine β := { s with mmu := s.mmu.flush 0 0 }

/-- The discipline, for the tables and roots in force since the last full flush. -/
def Disciplined : List (TlbOp β) → (Addr → BitVec 64) → (BitVec 16 → BitVec 44) → Machine β → Prop
  | [], _, _, _ => True
  | .translate va :: ops, m, root, s =>
    Undisturbed m root va s ∧ Disciplined ops m root (final (getTLBEntry va) s)
  | .writeSatp value :: ops, m, root, s => Disciplined ops m root (writeSatp value s)
  | .flush :: ops, _, _, s => ∃ m' root', Disciplined ops m' root' (fullFlush s)
  | .bus b :: ops, m, root, s => Disciplined ops m root { s with bus := b }

/-- Every translation of the run returns, with what it returns when the TLB is empty. -/
def Transparent : List (TlbOp β) → Machine β → Prop
  | [], _ => True
  | .translate va :: ops, s =>
    (∃ r t, getTLBEntry va s = .ok r t ∧
      ∀ mmu, AllInvalid mmu → ∃ t', getTLBEntry va { s with mmu := mmu } = .ok r t') ∧
    Transparent ops (final (getTLBEntry va) s)
  | .writeSatp value :: ops, s => Transparent ops (writeSatp value s)
  | .flush :: ops, s =>
    sv39FlushTLBSfenceVma 0 0 s = .ok () (fullFlush s) ∧ Transparent ops (fullFlush s)
  | .bus b :: ops, s => Transparent ops { s with bus := b }

theorem Coherent.transparent (ops : List (TlbOp β)) : ∀ (m : Addr → BitVec 64)
    (root : BitVec 16 → BitVec 44) (s : Machine β),
    Coherent β m root s.mmu → Disciplined ops m root s → Transparent ops s := by
  induction ops with
  | nil => exact fun _ _ _ _ _ => trivial
  | cons op ops ih =>
    intro m root s hi hd
    cases op with
    | translate va =>
      obtain ⟨hu, hrest⟩ := hd
      obtain ⟨t, ht, hit⟩ := hi.translate hu
      have hnext : final (getTLBEntry va) s = t := final_of_ok ht
      rw [hnext] at hrest
      refine ⟨⟨_, t, ht, ?_⟩, hnext ▸ ih m root t hit hrest⟩
      intro mmu hempty
      have hu' : Undisturbed m root va { s with mmu := mmu } := ⟨hu.1, hu.2, hu.3, hu.4, hu.5⟩
      obtain ⟨t', ht', -⟩ := hu'.miss (hempty.hits_eq _ _)
      exact ⟨t', ht'⟩
    | writeSatp value => exact ih m root _ hi hd
    | flush =>
      obtain ⟨m', root', hrest⟩ := hd
      exact ⟨rfl, ih m' root' _ (coherent_of_empty (flush_zero s.mmu)) hrest⟩
    | bus b => exact ih m root _ hi hd

/-- From an empty TLB on, the TLB cannot be told from none. -/
theorem transparent_of_disciplined (ops : List (TlbOp β)) (s : Machine β)
    (hempty : AllInvalid s.mmu) (m : Addr → BitVec 64) (root : BitVec 16 → BitVec 44)
    (h : Disciplined ops m root s) : Transparent ops s :=
  Coherent.transparent ops m root s (coherent_of_empty hempty) h

/-- The table with a byte of the page behind it changed. -/
def gigapageStored : Nat → BitVec 8 := fun a => if a = 0x5678 then 1 else gigapage a

/-- A miss, a store behind the table, a hit, a fault, a flush and a miss again. -/
def gigapageRun : List (TlbOp (AddrBus Empty)) :=
  [.writeSatp 0x8000100000080000, .translate 0x80001234, .bus (memoryBus gigapageStored),
    .translate 0x80005678, .translate 0x40000000, .flush, .translate 0x80005678]

theorem transparent_gigapage :
    Transparent gigapageRun (Machine.start default (memoryBus gigapage)) := by
  let table : Addr → BitVec 64 := fun a => if a = 0x80000010 then 0x200000cf else 0
  refine transparent_of_disciplined gigapageRun _ (fun _ => rfl) table (fun _ => 0x80000)
    ⟨?_, ?_, ?_, table, fun _ => 0x80000, ?_, trivial⟩
  all_goals decide +kernel

end NextEmu.Simple.Transparency
