import NextEmu.Lib.Sv39
import NextEmu.Simple.Isolation

/-!
# The walk and the manual

The walk of the core takes an entry for a leaf or a pointer where the manual does, but
for three things that it does not look at: bit 63, the D, A and U bits of a pointer, and
the low page numbers of a superpage.
-/

namespace NextEmu.Simple.WalkConformance

open NextEmu.Lib NextEmu.Lib.AbortState NextEmu.Lib.BitField NextEmu.Lib.RadixWalk NextEmu.Sdk
open Translation

section Entries

variable {pte : BitVec 64} {rd : Sv39.Reserved}

theorem leaf_iff : isValidLeafPTE pte = true ↔
    (Sv39.Reserved.mk false false).faults pte = false ∧
      (Sv39.Entry.r pte || Sv39.Entry.x pte) = true := by
  simp only [isValidLeafPTE, Sv39.Reserved.faults, Sv39.Reserved.uses, PTE.v, PTE.r, PTE.w, PTE.x,
    PTE.reserved, PTE.pbmt, Sv39.Entry.v, Sv39.Entry.r, Sv39.Entry.w, Sv39.Entry.x,
    Sv39.Entry.reserved, Sv39.Entry.pbmt]
  grind

theorem dir_iff : isValidDirPTE pte = true ↔
    (Sv39.Reserved.mk false false).faults pte = false ∧
      (Sv39.Entry.r pte || Sv39.Entry.x pte) = false := by
  simp only [isValidDirPTE, Sv39.Reserved.faults, Sv39.Reserved.uses, PTE.v, PTE.r, PTE.w, PTE.x,
    PTE.reserved, PTE.pbmt, Sv39.Entry.v, Sv39.Entry.r, Sv39.Entry.w, Sv39.Entry.x,
    Sv39.Entry.reserved, Sv39.Entry.pbmt]
  grind

theorem faults_eq (rd : Sv39.Reserved) (pte : BitVec 64) :
    rd.faults pte = ((Sv39.Reserved.mk false false).faults pte || rd.uses pte) := by
  simp only [Sv39.Reserved.faults, Sv39.Reserved.uses]
  grind

end Entries

variable {β : Type} [SlaveAtomicIOI β]

/-- The walk of the core in a memory. -/
def tableWalk (β : Type) [SlaveAtomicIOI β] (m : Addr → BitVec 64) (satp va : BitVec 64) :
    Walked Unit Addr (BitVec 64) := walk ((sv39 (β := β)).ofMap m) 2 (rootOf satp) va ()

/-- The encodings in the entries that a walk has read are those of the manual. -/
def Clean (rd : Sv39.Reserved) (w : Walked Unit Addr (BitVec 64)) : Prop :=
  ∀ r ∈ w.reads, ∀ pte, r.2 = some pte → rd.uses pte = false

section Walk

variable {rd : Sv39.Reserved} {m : Addr → BitVec 64} {va : BitVec 64}

/-- What the manual makes of a walk of the core. -/
def Matches (rd : Sv39.Reserved) (w : Walked Unit Addr (BitVec 64)) (leaf : Option Sv39.Leaf) :
    Prop :=
  ∀ found : Sv39.Leaf, leaf = some found ↔
    w.result = .leaf found.level found.pte ∧ found.aligned = true ∧ Clean rd w

omit [SlaveAtomicIOI β] in
theorem clean_after {a : Addr} {pte : BitVec 64} {w : Walked Unit Addr (BitVec 64)} :
    Clean rd (w.after (a, some pte)) ↔ rd.uses pte = false ∧ Clean rd w := by
  constructor
  · intro h
    refine ⟨h _ List.mem_cons_self pte rfl, fun r hr => ?_⟩
    exact h r (List.mem_cons_of_mem _ hr)
  · rintro ⟨huses, hclean⟩ r hr e he
    rcases List.mem_cons.mp hr with rfl | hr
    · cases he
      exact huses
    · exact hclean r hr e he

omit [SlaveAtomicIOI β] in
/-- A walk that ends without a leaf, where the manual has a page fault. -/
theorem matches_none {w : Walked Unit Addr (BitVec 64)} (h : ∀ l pte, w.result ≠ .leaf l pte) :
    Matches rd w none :=
  fun _ => ⟨nofun, fun hf => absurd hf.1 (h _ _)⟩

omit [SlaveAtomicIOI β] in
/-- One that ends in a leaf at once. -/
theorem matches_leaf {i : Nat} {pte : BitVec 64} :
    Matches rd ⟨.leaf i pte, (), []⟩
      (if Sv39.Leaf.aligned ⟨i, pte⟩ then some ⟨i, pte⟩ else none) := by
  have hclean : Clean rd (⟨.leaf i pte, (), []⟩ : Walked Unit Addr (BitVec 64)) := nofun
  intro found
  constructor
  · intro h
    split at h
    · rename_i hal
      cases h
      exact ⟨rfl, hal, hclean⟩
    · cases h
  · rintro ⟨hresult, hal, -⟩
    cases hresult
    rw [if_pos hal]

omit [SlaveAtomicIOI β] in
theorem matches_after {a : Addr} {pte : BitVec 64} {w : Walked Unit Addr (BitVec 64)}
    {leaf : Option Sv39.Leaf} (h : Matches rd w leaf) :
    Matches rd (w.after (a, some pte)) (if rd.uses pte then none else leaf) := by
  intro found
  rw [clean_after]
  cases huses : rd.uses pte with
  | true => exact ⟨nofun, fun hf => absurd hf.2.2.1 nofun⟩
  | false =>
    simp only [Bool.false_eq_true, if_false, true_and]
    exact h found

theorem vpn_eq {i : Nat} (hi : i ≤ 2) (va : BitVec 64) : Sv39.vpn i va = vpn i va := by
  match i, hi with
  | 0, _ => rfl
  | 1, _ => rfl
  | 2, _ => rfl

theorem ppn_eq (pte : BitVec 64) :
    (Sv39.Entry.ppn pte).setWidth 64 <<< 12 = PTE.paddr pte := (Isolation.paddr_eq pte).symm

/-- One table: the core goes on where the manual does, and ends where it ends, unless the entry
uses an encoding that the core does not look at. -/
theorem visit_matches {i : Nat} (hi : i ≤ 2) {a : Addr}
    {below : Addr → Unit → Walked Unit Addr (BitVec 64)} {next : BitVec 64 → Option Sv39.Leaf}
    (hb : ∀ t, Matches rd (below t ()) (next t)) :
    Matches rd (visit ((sv39 (β := β)).ofMap m) i a va () below) (Sv39.visit rd m va i a next) := by
  have hvisit : ∀ pte, pte = m (a + (vpn i va).setWidth 64 * 8) →
      Sv39.visit rd m va i a next = if rd.uses pte then none
        else if (Sv39.Reserved.mk false false).faults pte then none
        else if Sv39.Entry.r pte || Sv39.Entry.x pte then
          if Sv39.Leaf.aligned ⟨i, pte⟩ then some ⟨i, pte⟩ else none
        else next (PTE.paddr pte) := by
    intro pte hpte
    unfold Sv39.visit
    rw [vpn_eq hi, ← hpte]
    dsimp only
    rw [faults_eq, ppn_eq]
    cases rd.uses pte <;> simp
  rw [hvisit _ rfl]
  unfold visit
  simp only [Scheme.ofMap, sv39_slot, sv39_kind, Option.map_some]
  generalize m (a + (vpn i va).setWidth 64 * 8) = pte
  refine matches_after ?_
  cases hleaf : isValidLeafPTE pte with
  | true =>
    obtain ⟨hf, hrx⟩ := leaf_iff.mp hleaf
    simp only [hf, hrx, if_true, Bool.false_eq_true, if_false]
    exact matches_leaf
  | false =>
    cases hdir : isValidDirPTE pte with
    | true =>
      obtain ⟨hf, hrx⟩ := dir_iff.mp hdir
      simp only [hf, hrx, if_true, Bool.false_eq_true, if_false]
      exact hb _
    | false =>
      have hf : (Sv39.Reserved.mk false false).faults pte = true := by
        cases hf : (Sv39.Reserved.mk false false).faults pte with
        | true => rfl
        | false =>
          cases hrx : Sv39.Entry.r pte || Sv39.Entry.x pte with
          | true => exact absurd (leaf_iff.mpr ⟨hf, hrx⟩) (hleaf ▸ Bool.false_ne_true)
          | false => exact absurd (dir_iff.mpr ⟨hf, hrx⟩) (hdir ▸ Bool.false_ne_true)
      simp only [hf, if_true, Bool.false_eq_true, if_false]
      exact matches_none fun _ _ heq => by cases heq

/-- The walk of the manual ends in the leaf of the walk of the core, when that is aligned and no
entry on the way uses an encoding that the core does not look at; otherwise it faults. -/
theorem walk_matches : ∀ {i : Nat}, i ≤ 2 → ∀ a : Addr,
    Matches rd (walk ((sv39 (β := β)).ofMap m) i a va ()) (Sv39.walk rd m va i a) := by
  intro i
  induction i with
  | zero =>
    intro hi a
    exact visit_matches hi fun t => matches_none nofun
  | succ i ih =>
    intro hi a
    exact visit_matches hi fun t => ih (by omega) t

end Walk

/-! ## The physical address -/

section PhysAddr

/-- The access paths compute the address that an aligned leaf gives. -/
theorem physAddr_eq {leaf : Sv39.Leaf} (hl : leaf.level ≤ 2) (hal : leaf.aligned = true)
    (va : BitVec 64) : PTE.paddr leaf.pte + va % (sizeOfLevel leaf.level).bytes =
      leaf.physAddr va := by
  obtain ⟨level, pte⟩ := leaf
  have hp := pte.isLt
  have hzero : pte.toNat / 2 ^ 10 % 2 ^ (9 * level) = 0 := by
    have h := congrArg BitVec.toNat (beq_iff_eq.mp hal)
    rw [toNat_field] at h
    exact h
  refine BitVec.eq_of_toNat_eq ?_
  rw [BitVec.toNat_add, BitVec.toNat_umod, Isolation.bytes_toNat (sizeOfLevel_ne level),
    Isolation.paddr_eq]
  match level, hl with
  | 0, _ =>
    simp only [Sv39.Leaf.physAddr, sizeOfLevel, offsetBits, BitVec.toNat_shiftLeft,
      BitVec.toNat_setWidth, toNat_field, toNat_append, Nat.shiftLeft_eq]
    omega
  | 1, _ =>
    simp only [Sv39.Leaf.physAddr, sizeOfLevel, offsetBits, BitVec.toNat_shiftLeft,
      BitVec.toNat_setWidth, toNat_field, toNat_append, Nat.shiftLeft_eq] at hzero ⊢
    omega
  | 2, _ =>
    simp only [Sv39.Leaf.physAddr, sizeOfLevel, offsetBits, BitVec.toNat_shiftLeft,
      BitVec.toNat_setWidth, toNat_field, toNat_append, Nat.shiftLeft_eq] at hzero ⊢
    omega

/-- The canonical addresses are those that pass the assertion of the lookup. -/
theorem canonical_iff (va : BitVec 64) : canonicalCheck va = true ↔ Sv39.Canonical va := by
  have hhigh : ∀ i, (VAddr.blank va).getLsbD i = (decide (i < 25) && va.getLsbD (39 + i)) :=
    BitVec.getLsbD_extractLsb' 39 25 va
  have htop : (VAddr.vpn2 va >>> 8 = 0) ↔ va.getLsbD 38 = false := by
    constructor
    · intro h
      have hbit := congrArg (·.getLsbD 0) h
      simpa [VAddr.vpn2] using hbit
    · intro h
      refine BitVec.eq_of_getLsbD_eq fun i hi => ?_
      by_cases h0 : i = 0
      · simpa [VAddr.vpn2, h0] using h
      · simp [VAddr.vpn2]
        omega
  have hlit : ∀ b i, (if b then BitVec.allOnes 25 else 0).getLsbD i = (decide (i < 25) && b) := by
    intro b i
    cases b with
    | true => rw [if_pos rfl, BitVec.getLsbD_allOnes, Bool.and_true]
    | false => simp
  have hall : ∀ b, VAddr.blank va = (if b then BitVec.allOnes 25 else 0) ↔
      ∀ i, 39 ≤ i → i < 64 → va.getLsbD i = b := by
    intro b
    constructor
    · intro h i hlo hhi
      have hbit := hhigh (i - 39)
      rw [h, hlit] at hbit
      have hsub : 39 + (i - 39) = i := by omega
      have hlt : i - 39 < 25 := by omega
      simpa [hlt, hsub] using hbit.symm
    · intro h
      refine BitVec.eq_of_getLsbD_eq fun i hi => ?_
      rw [hhigh, hlit, h (39 + i) (by omega) (by omega)]
  have hones : (0b1111111111111111111111111 : BitVec 25) = BitVec.allOnes 25 := by decide
  have htrue := hall true
  have hfalse := hall false
  simp only [if_true, Bool.false_eq_true, if_false] at htrue hfalse
  unfold canonicalCheck Sv39.Canonical
  rw [hones, Bool.or_eq_true, Bool.and_eq_true, Bool.and_eq_true, beq_iff_eq, beq_iff_eq,
    beq_iff_eq, bne_iff_ne, htrue, hfalse, ne_eq, htop]
  cases va.getLsbD 38 <;> simp

end PhysAddr

/-! ## The translation -/

/-- The translation of the core gives the leaf and the address that the manual gives. -/
def Translates (rd : Sv39.Reserved) (m : Addr → BitVec 64) (s : Machine β) (va : BitVec 64) :
    Prop :=
  match getTLBEntry va s, Sv39.leafOf rd m (Satp.ppn s.core.satp) va with
  | .ok (some e) _, some leaf => e.ppa + va % e.pagesize.bytes = leaf.physAddr va
  | .ok none _, none => True
  | _, _ => False

/-- A walk that ends in a leaf ends in an aligned one, and has read no encoding that the core does
not look at. -/
def Regular (rd : Sv39.Reserved) (w : Walked Unit Addr (BitVec 64)) : Prop :=
  ∀ l pte, w.result = .leaf l pte → (Sv39.Leaf.mk l pte).aligned = true ∧ Clean rd w

section Translate

variable {rd : Sv39.Reserved} {m : Addr → BitVec 64} {s : Machine β} {va : BitVec 64}

theorem leafOf_matches (rd : Sv39.Reserved) (m : Addr → BitVec 64) (satp va : BitVec 64) :
    Matches rd (tableWalk β m satp va) (Sv39.leafOf rd m (Satp.ppn satp) va) :=
  walk_matches (Nat.le_refl 2) _

/-- From an empty TLB the lookup is the walk. -/
theorem getTLBEntry_empty (hempty : AllInvalid s.mmu) (hmode : Satp.mode s.core.satp = 8)
    (hcanon : Sv39.Canonical va) :
    getTLBEntry va s =
      finish va (translating va s) (pageWalk s.core.satp s.bus va) := by
  rw [getTLBEntry_eq, if_pos ((canonical_iff va).mpr hcanon), hempty.hits_eq]
  exact walkTables_eq va (translating va s) hmode

/-- From an empty TLB, and where the bus answers from a memory, the core translates a canonical
address as the manual does exactly when the walk is regular. -/
theorem translation_conforms (rd : Sv39.Reserved) (m : Addr → BitVec 64) (s : Machine β)
    (va : BitVec 64) (hempty : AllInvalid s.mmu) (hmode : Satp.mode s.core.satp = 8)
    (hcanon : Sv39.Canonical va) (hmem : Agrees m (pageWalk s.core.satp s.bus va)) :
    Translates rd m s va ↔ Regular rd (tableWalk β m s.core.satp va) := by
  have hresult : (pageWalk s.core.satp s.bus va).result =
      (tableWalk β m s.core.satp va).result := walk_eq_lookup hmem
  have hmatch := leafOf_matches (β := β) rd m s.core.satp va
  unfold Translates Regular
  rw [getTLBEntry_empty hempty hmode hcanon, finish, hresult]
  cases hw : (tableWalk β m s.core.satp va).result with
  | unreadable => exact absurd hw lookup_readable
  | fault =>
    have hnone : Sv39.leafOf rd m (Satp.ppn s.core.satp) va = none := by
      refine Option.eq_none_iff_forall_ne_some.mpr fun leaf hleaf => ?_
      have hfound := ((hmatch leaf).mp hleaf).1
      rw [hw] at hfound
      cases hfound
    rw [hnone]
    refine ⟨fun _ l pte hleaf => ?_, fun _ => trivial⟩
    cases hleaf
  | leaf l pte =>
    have hlevel : l ≤ 2 := walk_leaf_level hw
    constructor
    · intro h l' pte' hleaf
      cases hleaf
      cases hfound : Sv39.leafOf rd m (Satp.ppn s.core.satp) va with
      | none =>
        rw [hfound] at h
        cases h
      | some leaf =>
        obtain ⟨hres, hal, hclean⟩ := (hmatch leaf).mp hfound
        rw [hw] at hres
        cases hres
        exact ⟨hal, hclean⟩
    · intro h
      obtain ⟨hal, hclean⟩ := h l pte rfl
      rw [(hmatch ⟨l, pte⟩).mpr ⟨hw, hal, hclean⟩]
      exact physAddr_eq hlevel hal va

end Translate

/-- The words of a memory at `0x80000000`. -/
def wordsOf (mem : Nat → BitVec 8) (a : Addr) : BitVec 64 :=
  readBytes mem (a - 0x80000000).toNat 8

theorem translation_conforms_gigapage :
    Translates ⟨true, true⟩ (wordsOf gigapage) gigapageMachine 0x80001234 ↔
      Regular ⟨true, true⟩ (tableWalk (AddrBus Empty) (wordsOf gigapage)
        gigapageMachine.core.satp 0x80001234) :=
  translation_conforms ⟨true, true⟩ (wordsOf gigapage) gigapageMachine 0x80001234 (fun _ => rfl)
    (by decide) ((canonical_iff _).mp (by decide)) (by decide +kernel)

/-- The gigapage with its lowest page number bit set. -/
def skewed : Nat → BitVec 8 := fun a => if a = 17 then 0x04 else gigapage a

def hasEntry : EStateM.Result Assertion (Machine β) (Option TLBEntry) → Bool
  | .ok (some _) _ => true
  | _ => false

/-- The core hands out an entry for a misaligned superpage. -/
theorem skewed_translated :
    ¬ ∀ (m : Addr → BitVec 64) (s : Machine (AddrBus Empty)) (va : BitVec 64),
      AllInvalid s.mmu → Satp.mode s.core.satp = 8 → Sv39.Canonical va →
      Agrees m (pageWalk s.core.satp s.bus va) → Translates ⟨false, false⟩ m s va := by
  intro hall
  have hcore : hasEntry (getTLBEntry 0x80000000
      { gigapageMachine with bus := memoryBus skewed }) = true := by
    decide +kernel
  have hmanual : Sv39.leafOf ⟨false, false⟩ (wordsOf skewed)
      (Satp.ppn gigapageMachine.core.satp) 0x80000000 = none := by
    decide +kernel
  have h := hall (wordsOf skewed) { gigapageMachine with bus := memoryBus skewed } 0x80000000
    (fun _ => rfl) (by decide) ((canonical_iff _).mp (by decide)) (by decide +kernel)
  unfold Translates at h
  rw [hmanual] at h
  unfold hasEntry at hcore
  split at hcore
  · rename_i hentry
    rw [hentry] at h
    exact h
  · cases hcore

end NextEmu.Simple.WalkConformance
