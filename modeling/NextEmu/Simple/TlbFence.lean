import NextEmu.Simple.Translation

/-!
# What `sfence.vma` drops

The flush compares the page of an entry with the page of its operand under the mask of the entry,
as the lookup does. So it leaves no entry behind that a lookup of the operand could find, and none
but these are dropped. What the fence does not reach are global entries of other address spaces.
-/

namespace NextEmu.Simple.TlbFence

open NextEmu.Lib.BitField NextEmu.Lib.RadixWalk NextEmu.Sdk Translation

/-! ## Pages -/

/-- The address lies in the page of the entry. -/
def InPage (e : TLBEntry) (va : BitVec 64) : Prop :=
  va.toNat / 2 ^ offsetBits e.pagesize = e.vpa.toNat / 2 ^ offsetBits e.pagesize

/-- Addresses agree under the mask of a page size exactly when they lie in one page. -/
theorem mask_eq_iff {p : PageSize} (hp : p ≠ .invalid) (x y : BitVec 64) :
    x &&& p.mask = y &&& p.mask ↔
      x.toNat / 2 ^ offsetBits p = y.toNat / 2 ^ offsetBits p := by
  constructor
  · intro h
    apply Nat.eq_of_testBit_eq
    intro i
    rw [Nat.testBit_div_two_pow, Nat.testBit_div_two_pow, BitVec.testBit_toNat,
      BitVec.testBit_toNat]
    exact getLsbD_of_mask hp h (by omega)
  · intro h
    apply BitVec.eq_of_getLsbD_eq
    intro i _
    rw [BitVec.getLsbD_and, BitVec.getLsbD_and, mask_eq hp, getLsbD_highMask]
    by_cases hi : offsetBits p ≤ i
    · have hbit := congrArg (Nat.testBit · (i - offsetBits p)) h
      simp only [Nat.testBit_div_two_pow, BitVec.testBit_toNat] at hbit
      rw [Nat.sub_add_cancel hi] at hbit
      rw [hbit]
    · rw [decide_eq_false hi, Bool.false_and, Bool.and_false, Bool.and_false]

section Entry

variable {e : TLBEntry} {v a va : BitVec 64} {asid : BitVec 16}

theorem flushedBy_iff (hvalid : e.pagesize ≠ .invalid) : e.flushedBy v a = true ↔
    (a = 0 ∨ e.asid.setWidth 64 = a) ∧ (v = 0 ∨ InPage e v) := by
  have hpage : e.vpa &&& e.pagesize.mask = v &&& e.pagesize.mask ↔ InPage e v :=
    (mask_eq_iff hvalid _ _).trans eq_comm
  unfold TLBEntry.flushedBy
  rw [Bool.and_eq_true, Bool.or_eq_true, Bool.or_eq_true, Bool.and_eq_true, beq_iff_eq, beq_iff_eq,
    beq_iff_eq, beq_iff_eq, bne_iff_ne, hpage]
  constructor
  · rintro ⟨hasid, hvaddr⟩
    exact ⟨hasid.symm, hvaddr.imp_right And.right⟩
  · rintro ⟨hasid, hvaddr⟩
    exact ⟨hasid.symm, hvaddr.imp_right fun hin => ⟨hvalid, hin⟩⟩

/-- What a lookup finds has the address in its page. -/
theorem hits_inPage (h : e.hits asid va = true) :
    (e.asid = asid ∨ e.g = true) ∧ e.pagesize ≠ .invalid ∧ InPage e va := by
  unfold TLBEntry.hits at h
  rw [Bool.and_eq_true, Bool.and_eq_true, Bool.or_eq_true, beq_iff_eq, beq_iff_eq, bne_iff_ne] at h
  obtain ⟨⟨hspace, hmask⟩, hpage⟩ := h
  have hvalid := mask_ne_zero.mp hmask
  refine ⟨hspace, hvalid, (mask_eq_iff hvalid _ _).mp ?_⟩
  rw [← hpage, BitVec.and_assoc, BitVec.and_self]

end Entry

/-! ## The fence -/

variable {β : Type}

/-- The fence is for all address spaces, or for the current one while no valid entry of another
one is global. -/
def Reaches (s : Machine β) (a : BitVec 64) : Prop :=
  a = 0 ∨ a = (Satp.asid s.core.satp).setWidth 64 ∧
    ∀ i, (s.mmu.tlb i).pagesize ≠ .invalid → (s.mmu.tlb i).asid ≠ Satp.asid s.core.satp →
      (s.mmu.tlb i).g = false

/-- Nothing is left that a lookup of the operand finds; without an operand, of any address. -/
theorem no_hits_after {s : Machine β} {v a w : BitVec 64} (h : Reaches s a) (hw : v = 0 ∨ w = v) :
    hits (s.mmu.flush v a) (Satp.asid s.core.satp) w = [] := by
  apply hits_eq_nil.mpr
  intro i
  cases hflush : (s.mmu.tlb i).flushedBy v a with
  | true =>
    apply not_covers_of_invalid
    unfold MMU.flush
    dsimp only
    rw [if_pos hflush]
  | false =>
    have hsame : (s.mmu.flush v a).tlb i = s.mmu.tlb i := by
      unfold MMU.flush
      dsimp only
      rw [if_neg (by rw [hflush]; decide)]
    rw [hsame]
    intro hcovers
    obtain ⟨hspace, hvalid, hin⟩ := hits_inPage hcovers
    have hasid : a = 0 ∨ (s.mmu.tlb i).asid.setWidth 64 = a := by
      rcases h with hall | ⟨hown, hlocal⟩
      · exact .inl hall
      · right
        by_cases heq : (s.mmu.tlb i).asid = Satp.asid s.core.satp
        · rw [heq, hown]
        · have hglobal := hspace.resolve_left heq
          rw [hlocal i hvalid heq] at hglobal
          cases hglobal
    have hvaddr : v = 0 ∨ InPage (s.mmu.tlb i) v := by
      rcases hw with hzero | rfl
      · exact .inl hzero
      · exact .inr hin
    have htrue := (flushedBy_iff hvalid).mpr ⟨hasid, hvaddr⟩
    rw [hflush] at htrue
    cases htrue

variable [SlaveAtomicIOI β]

/-- The entry that the tables hold for an address, in the current address space. -/
def entryInTables (s : Machine β) (va : BitVec 64) : Option TLBEntry :=
  match (pageWalk s.core.satp s.bus va).result with
  | .leaf l pte => some (leafEntry (Satp.asid s.core.satp) va l pte)
  | _ => none

/-- A fence with the operands `v` and `a` took `s` to `t`. -/
structure Fenced (s t : Machine β) (v a : BitVec 64) : Prop where
  fresh : Reaches s a → ∀ w, (v = 0 ∨ w = v) → canonicalCheck w = true →
    (pageWalk s.core.satp s.bus w).result ≠ .unreadable →
    ∃ u, getTLBEntry w t = .ok (entryInTables s w) u
  kept : ∀ i, (s.mmu.tlb i).pagesize ≠ .invalid →
    (a ≠ 0 ∧ (s.mmu.tlb i).asid.setWidth 64 ≠ a ∨ v ≠ 0 ∧ ¬ InPage (s.mmu.tlb i) v) →
    t.mmu.tlb i = s.mmu.tlb i

/-- Whatever the TLB holds, behind the fence a lookup walks the tables, and no other entry is
dropped. -/
theorem sfence_forces_walk (s : Machine β) (v a : BitVec 64) (hmode : Satp.mode s.core.satp = 8) :
    ∃ t, sv39FlushTLBSfenceVma v a s = .ok () t ∧ Fenced s t v a := by
  refine ⟨{ s with mmu := s.mmu.flush v a }, rfl, ?_⟩
  constructor
  · intro hreaches w hw hcanonical hreadable
    have hwalk : getTLBEntry w { s with mmu := s.mmu.flush v a } =
        finish w (translating w { s with mmu := s.mmu.flush v a })
          (pageWalk s.core.satp s.bus w) := by
      rw [getTLBEntry_eq, if_pos hcanonical]
      have hmiss := no_hits_after hreaches hw
      dsimp only
      rw [hmiss]
      exact walkTables_eq w _ hmode
    rw [hwalk]
    unfold finish entryInTables
    cases hresult : (pageWalk s.core.satp s.bus w).result with
    | unreadable => exact absurd hresult hreadable
    | fault => exact ⟨_, rfl⟩
    | leaf l pte => exact ⟨_, rfl⟩
  · intro i hvalid hother
    have hflush : ¬ (s.mmu.tlb i).flushedBy v a = true := by
      rw [flushedBy_iff hvalid]
      rintro ⟨hasid, hvaddr⟩
      rcases hother with ⟨hne, hspace⟩ | ⟨hne, hpage⟩
      · exact hasid.elim hne hspace
      · exact hvaddr.elim hne hpage
    show (s.mmu.flush v a).tlb i = _
    unfold MMU.flush
    dsimp only
    rw [if_neg hflush]

/-- A machine of which every entry of the TLB is an old one for the gigapage at `0x80000000`. -/
def staleMachine : Machine (AddrBus Empty) :=
  { gigapageMachine with
    mmu := { gigapageMachine.mmu with
      tlb := fun _ => leafEntry 0 0x80000000 2 0x400000cf } }

theorem sfence_forces_walk_stale : ∃ t u,
    sv39FlushTLBSfenceVma 0x80001234 0 staleMachine = .ok () t ∧
      getTLBEntry 0x80001234 t = .ok (entryInTables staleMachine 0x80001234) u := by
  obtain ⟨t, hfence, hfenced⟩ := sfence_forces_walk staleMachine 0x80001234 0 (by decide)
  obtain ⟨u, hlookup⟩ := hfenced.fresh (.inl rfl) 0x80001234 (.inr rfl) (by decide)
    (by decide +kernel)
  exact ⟨t, u, hfence, hlookup⟩

end NextEmu.Simple.TlbFence
