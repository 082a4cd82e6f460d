import NextEmu.Simple.Runs
import NextEmu.Simple.Translation
import NextEmu.Simple.Traversal

/-!
# At most one entry of the TLB matches

Two valid entries match one address of one address space as soon as their pages meet
and one of them is global or both have the same address space. A refill after a miss
looks for neither, so the guest can bring such a pair about, and the next lookup
fails its assertion. It is the only way: in every run whose refills overlap no entry
that stays, there is at most one match and the assertion holds.
-/

namespace NextEmu.Simple.SingleMatch

open NextEmu.Lib NextEmu.Lib.AbortState NextEmu.Lib.BlockCache NextEmu.Lib.RadixWalk NextEmu.Sdk
open Translation Traversal

/-! ## Entries that overlap -/

/-- The two entries are for one address space and their pages meet. -/
def overlaps (e f : TLBEntry) : Bool :=
  (e.asid == f.asid || e.g || f.g) && e.pagesize != .invalid && f.pagesize != .invalid &&
    e.vpa &&& f.pagesize.mask == f.vpa &&& e.pagesize.mask

section Overlaps

variable {e f : TLBEntry} {k : BitVec 16 × BitVec 64}

theorem covers_iff : covers e k ↔
    (e.asid = k.1 ∨ e.g = true) ∧ e.pagesize ≠ .invalid ∧ k.2 &&& e.pagesize.mask = e.vpa := by
  simp only [covers, TLBEntry.hits, Bool.and_eq_true, Bool.or_eq_true, beq_iff_eq, bne_iff_ne,
    mask_ne_zero, and_assoc]

theorem overlaps_iff : overlaps e f = true ↔
    (e.asid = f.asid ∨ e.g = true ∨ f.g = true) ∧ e.pagesize ≠ .invalid ∧
      f.pagesize ≠ .invalid ∧ e.vpa &&& f.pagesize.mask = f.vpa &&& e.pagesize.mask := by
  simp only [overlaps, Bool.and_eq_true, Bool.or_eq_true, beq_iff_eq, bne_iff_ne, and_assoc,
    or_assoc]

/-- Entries that match one key overlap. -/
theorem overlaps_of_covers (he : covers e k) (hf : covers f k) : overlaps e f = true := by
  obtain ⟨heasid, hevalid, hevpa⟩ := covers_iff.mp he
  obtain ⟨hfasid, hfvalid, hfvpa⟩ := covers_iff.mp hf
  refine overlaps_iff.mpr ⟨?_, hevalid, hfvalid, ?_⟩
  · rcases heasid with he | he
    · rcases hfasid with hf | hf
      · exact .inl (he.trans hf.symm)
      · exact .inr (.inr hf)
    · exact .inr (.inl he)
  · rw [← hevpa, ← hfvpa, BitVec.and_assoc, BitVec.and_assoc,
      BitVec.and_comm e.pagesize.mask f.pagesize.mask]

/-- Aligned entries that overlap match one key: the first address of the smaller page. -/
theorem covers_of_overlaps (he : e.vpa &&& e.pagesize.mask = e.vpa)
    (hf : f.vpa &&& f.pagesize.mask = f.vpa) (h : overlaps e f = true) :
    ∃ k, covers e k ∧ covers f k := by
  obtain ⟨hasid, hevalid, hfvalid, hmeet⟩ := overlaps_iff.mp h
  obtain ⟨asid, heasid, hfasid⟩ : ∃ asid, (e.asid = asid ∨ e.g = true) ∧
      (f.asid = asid ∨ f.g = true) := by
    rcases hasid with h | h | h
    · exact ⟨e.asid, .inl rfl, .inl h.symm⟩
    · exact ⟨f.asid, .inr h, .inl rfl⟩
    · exact ⟨e.asid, .inl rfl, .inr h⟩
  have hnested : f.pagesize.mask &&& e.pagesize.mask = f.pagesize.mask ∨
      f.pagesize.mask &&& e.pagesize.mask = e.pagesize.mask := by
    cases e.pagesize <;> cases f.pagesize <;> decide
  rcases hnested with hn | hn
  · refine ⟨(asid, e.vpa), covers_iff.mpr ⟨heasid, hevalid, he⟩,
      covers_iff.mpr ⟨hfasid, hfvalid, ?_⟩⟩
    calc e.vpa &&& f.pagesize.mask
        = f.vpa &&& f.pagesize.mask &&& e.pagesize.mask := by rw [hmeet, hf]
      _ = f.vpa := by rw [BitVec.and_assoc, hn, hf]
  · refine ⟨(asid, f.vpa), covers_iff.mpr ⟨heasid, hevalid, ?_⟩,
      covers_iff.mpr ⟨hfasid, hfvalid, hf⟩⟩
    calc f.vpa &&& e.pagesize.mask
        = e.vpa &&& e.pagesize.mask &&& f.pagesize.mask := by rw [← hmeet, he]
      _ = e.vpa := by
          rw [BitVec.and_assoc, BitVec.and_comm e.pagesize.mask, hn, he]

end Overlaps

/-! ## Refills -/

variable {β : Type} [SlaveAtomicIOI β]

/-- Should this translation miss and its walk end in a leaf, then the new entry overlaps none
that stays. -/
def refillClear (va : BitVec 64) (m : MMU) (satp : BitVec 64) (b : β) : Bool :=
  match hits m (Satp.asid satp) va, (pageWalk satp b va).result with
  | [], .leaf l pte =>
    (List.finRange 32).all fun j =>
      j == m.lastSwappedIndex || !overlaps (leafEntry (Satp.asid satp) va l pte) (m.tlb j)
  | _, _ => true

/-- All translations of a trace refill like that. -/
def refillsClear (tr : List (Event β)) : Bool :=
  tr.all fun e => match e with
    | .translate va m satp b => refillClear va m satp b
    | _ => true

/-- No two entries of the TLB match one key. -/
abbrev AtMostOne (m : MMU) : Prop := Single covers m.tlb

section Refill

variable {m : MMU} {va satp : BitVec 64} {b : β} {l : Nat} {pte : BitVec 64}

theorem refill_single (h : AtMostOne m) (hmiss : hits m (Satp.asid satp) va = [])
    (hleaf : (pageWalk satp b va).result = .leaf l pte) (hclear : refillClear va m satp b = true) :
    AtMostOne (refilled m (leafEntry (Satp.asid satp) va l pte)) := by
  refine Single.put h fun j hj k hnew hold => ?_
  simp only [refillClear, hmiss, hleaf, List.all_eq_true] at hclear
  have hj' := hclear j (List.mem_finRange j)
  rw [overlaps_of_covers hnew hold] at hj'
  simp [hj] at hj'

/-- An entry of a leaf is aligned. -/
theorem leafEntry_aligned (asid : BitVec 16) (va : BitVec 64) (l : Nat) (pte : BitVec 64) :
    (leafEntry asid va l pte).vpa &&& (leafEntry asid va l pte).pagesize.mask =
      (leafEntry asid va l pte).vpa := by
  simp only [leafEntry, TLBEntry.ofLeaf, BitVec.and_assoc, BitVec.and_self]

/-- The valid entries are aligned. -/
def Aligned (m : MMU) : Prop :=
  ∀ j, (m.tlb j).pagesize ≠ .invalid → (m.tlb j).vpa &&& (m.tlb j).pagesize.mask = (m.tlb j).vpa

/-- Among aligned entries a refill that is not clear makes a second match. -/
theorem refill_not_single (haligned : Aligned m) (hclear : refillClear va m satp b = false) :
    ∃ l pte, (pageWalk satp b va).result = .leaf l pte ∧
      ¬ AtMostOne (refilled m (leafEntry (Satp.asid satp) va l pte)) := by
  unfold refillClear at hclear
  split at hclear
  · rename_i l pte _ hleaf
    refine ⟨l, pte, hleaf, fun hsingle => ?_⟩
    obtain ⟨j, -, hj⟩ := List.all_eq_false.mp hclear
    simp only [Bool.or_eq_true, beq_iff_eq, Bool.not_eq_true', not_or, Bool.not_eq_false] at hj
    have hvalid := (overlaps_iff.mp hj.2).2.2.1
    obtain ⟨k, hnew, hold⟩ :=
      covers_of_overlaps (leafEntry_aligned _ va l pte) (haligned j hvalid) hj.2
    refine hj.1 (hsingle j m.lastSwappedIndex k ?_ ?_)
    · simpa only [refilled, put, hj.1, if_false] using hold
    · simpa only [refilled, put, if_true] using hnew
  · cases hclear

end Refill

/-! ## One translation -/

/-- A translation leaves the TLB as it is, or puts the leaf of a miss into it. -/
inductive Translated (va : BitVec 64) (s t : Machine β) : Prop
  | same (mmu : t.mmu = s.mmu)
  | refill (l : Nat) (pte : BitVec 64) (miss : hits s.mmu (Satp.asid s.core.satp) va = [])
      (leaf : (pageWalk s.core.satp s.bus va).result = .leaf l pte)
      (mmu : t.mmu = refilled s.mmu (leafEntry (Satp.asid s.core.satp) va l pte))

section Translate

variable {va : BitVec 64} {s : Machine β}

/-- The events of a translation: it is noted, and page table entries are read. -/
def Noted (va : BitVec 64) (s t : Machine β) : Prop :=
  ∃ evs, t.trace = evs ++ s.trace ∧ .translate va s.mmu s.core.satp s.bus ∈ evs

omit [SlaveAtomicIOI β] in
theorem translating_noted (va : BitVec 64) (s : Machine β) : Noted va s (translating va s) :=
  ⟨[_], rfl, List.mem_cons_self⟩

omit [SlaveAtomicIOI β] in
theorem readTables_noted (w : Walked β Addr (BitVec 64)) :
    Noted va s (readTables (translating va s) w) := by
  refine ⟨(w.reads.map fun r => Event.pteLoad r.1).reverse ++
    [.translate va s.mmu s.core.satp s.bus], ?_, List.mem_append_right _ List.mem_cons_self⟩
  rw [List.append_assoc]
  rfl

theorem walkTables_translated (hmiss : hits s.mmu (Satp.asid s.core.satp) va = []) :
    wp (walkTables va) (fun _ t => Translated va s t ∧ Noted va s t)
      (fun e t => (Translated va s t ∧ Noted va s t) ∧ e ≠ .duplicateMatch)
      (translating va s) := by
  unfold wp
  by_cases hmode : Satp.mode s.core.satp = 8
  · rw [walkTables_eq va (translating va s) hmode, finish]
    have hread : Noted va s (readTables (translating va s)
        (pageWalk (translating va s).core.satp (translating va s).bus va)) := readTables_noted _
    cases hr : (pageWalk (translating va s).core.satp (translating va s).bus va).result with
    | unreadable => exact ⟨⟨.same rfl, hread⟩, by decide⟩
    | fault => exact ⟨.same rfl, hread⟩
    | leaf l pte => exact ⟨.refill l pte hmiss hr rfl, hread⟩
  · have hrun : walkTables va (translating va s) = .ok none (translating va s) := by
      have hoff : Satp.mode (translating va s).core.satp ≠ 8 := hmode
      unfold walkTables
      rw [bind_of_ok (getCore_run _), if_pos hoff]
      rfl
    rw [hrun]
    exact ⟨.same rfl, translating_noted va s⟩

/-- The assertion of the lookup fails only where two entries match. -/
theorem getTLBEntry_translated (va : BitVec 64) (s : Machine β) :
    wp (getTLBEntry va) (fun _ t => Translated va s t ∧ Noted va s t)
      (fun e t => (Translated va s t ∧ Noted va s t) ∧
        (e = .duplicateMatch → ¬ AtMostOne t.mmu)) s := by
  have hsame : Translated va s (translating va s) ∧ Noted va s (translating va s) :=
    ⟨.same rfl, translating_noted va s⟩
  refine wp_getTLBEntry ⟨hsame, nofun⟩ (fun hmiss => ?_) (fun _ _ => hsame)
    (fun i j rest htwo => ⟨hsame, fun _ hsingle => ?_⟩)
  · exact wp_mono (walkTables_translated hmiss) (fun _ _ h => h)
      (fun _ _ h => ⟨h.1, fun he => absurd he h.2⟩)
  · obtain ⟨hne, hi, hj⟩ := hits_two htwo
    exact hne (hsingle i j _ hi hj)

end Translate

/-! ## One step -/

/-- With clear refills, at most one match stays at most one match. -/
def KeepsSingle (s t : Machine β) : Prop :=
  ∃ evs, t.trace = evs ++ s.trace ∧
    (refillsClear evs = true → AtMostOne s.mmu → AtMostOne t.mmu)

def KeepsAligned (s t : Machine β) : Prop := Aligned s.mmu → Aligned t.mmu

section Keeps

theorem keepsSingle_translated {va : BitVec 64} {s t : Machine β} (h : Translated va s t)
    (hn : Noted va s t) : KeepsSingle s t := by
  obtain ⟨evs, htrace, hmem⟩ := hn
  refine ⟨evs, htrace, fun hclear hsingle => ?_⟩
  cases h with
  | same mmu => rwa [mmu]
  | refill l pte miss leaf mmu =>
    rw [mmu]
    unfold refillsClear at hclear
    exact refill_single hsingle miss leaf (List.all_eq_true.mp hclear _ hmem)

theorem keepsSingle_kept :
    Kept (β := β) KeepsSingle (fun a t => a = .duplicateMatch → ¬ AtMostOne t.mmu) where
  refl s := ⟨[], rfl, fun _ h => h⟩
  trans s t u := by
    rintro ⟨evs, ht, h⟩ ⟨evs', hu, h'⟩
    refine ⟨evs' ++ evs, by rw [hu, ht, List.append_assoc], fun hclear hsingle => ?_⟩
    unfold refillsClear at hclear
    rw [List.all_append, Bool.and_eq_true] at hclear
    exact h' hclear.1 (h hclear.2 hsingle)
  core s c := ⟨[], rfl, fun _ h => h⟩
  event s b e _ := ⟨[e], rfl, fun _ h => h⟩
  flush s va asid := ⟨[], rfl, fun _ h => h.dropped (flush_dropped s.mmu va asid)⟩
  translate va s := wp_mono (getTLBEntry_translated va s)
    (fun _ _ h => keepsSingle_translated h.1 h.2)
    (fun _ _ h => ⟨keepsSingle_translated h.1.1 h.1.2, h.2⟩)
  abort a s ha h := absurd h ha

theorem keepsAligned_kept : Kept (β := β) KeepsAligned (fun _ _ => True) where
  refl s h := h
  trans s t u h h' := fun hs => h' (h hs)
  core s c h := h
  event s b e _ h := h
  flush s va asid h := by
    intro j hj
    simp only [MMU.flush] at hj ⊢
    split
    · rename_i hf
      rw [if_pos hf] at hj
      exact absurd rfl hj
    · rename_i hf
      rw [if_neg hf] at hj
      exact h j hj
  translate va s := by
    have hkeep : ∀ t, Translated va s t → KeepsAligned s t := by
      intro t ht h
      cases ht with
      | same mmu => rwa [mmu]
      | refill l pte miss leaf mmu =>
        rw [mmu]
        intro j hj
        simp only [refilled, put] at hj ⊢
        split
        · exact leafEntry_aligned _ va l pte
        · rename_i hne
          rw [if_neg hne] at hj
          exact h j hj
    exact wp_mono (getTLBEntry_translated va s) (fun _ t h => hkeep t h.1)
      (fun _ t h => ⟨hkeep t h.1.1, trivial⟩)
  abort _ _ _ := trivial

end Keeps

/-! ## Runs -/

section Runs

variable {ok : List (Event β) → Prop} {s : Machine β}

theorem reached_aligned (h : Reached ok s) : Aligned s.mmu := by
  induction h with
  | initial h => exact fun j hj => absurd (h.tlb j) hj
  | environment h intStatus bus ih => exact ih
  | step h hstep hok ih => exact keepsAligned_kept.step.ok hstep ih

theorem step_single {t : Machine β} (hs : AtMostOne s.mmu)
    (hstep : step { s with trace := [] } = .ok () t) (hok : refillsClear t.trace = true) :
    AtMostOne t.mmu := by
  obtain ⟨evs, htrace, hkeep⟩ := keepsSingle_kept.step.ok hstep
  rw [List.append_nil] at htrace
  exact hkeep (htrace ▸ hok) hs

/-- In a run with clear refills at most one entry matches, whatever the address and the address
space, and no step with clear refills stops at the assertion of the lookup. -/
theorem single_match (h : Reached (fun tr => refillsClear tr = true) s) :
    (∀ asid va i j, (s.mmu.tlb i).hits asid va = true → (s.mmu.tlb j).hits asid va = true →
      i = j) ∧
    ∀ t, step { s with trace := [] } = .error .duplicateMatch t → refillsClear t.trace = false := by
  have hsingle : AtMostOne s.mmu := by
    induction h with
    | initial h => exact single_of_empty fun i => not_covers_of_invalid (h.tlb i)
    | environment h intStatus bus ih => exact ih
    | step h hstep hok ih => exact step_single ih hstep hok
  refine ⟨fun asid va i j => hsingle i j (asid, va), fun t hstep => ?_⟩
  obtain ⟨⟨evs, htrace, hkeep⟩, habort⟩ := keepsSingle_kept.step.error hstep
  rw [List.append_nil] at htrace
  rw [htrace]
  cases hclear : refillsClear evs with
  | false => rfl
  | true => exact absurd (hkeep hclear hsingle) (habort rfl)

end Runs

/-! ## Two address spaces that share an address -/

/-- M mode code that loads from address 0 as S mode (MPRV), with a `satp` of address space 1,
then with one of address space 2, then with the first again. Both map address 0 by a gigapage
to `0x80000000`; that of address space 2 is global. -/
def sharedMemory : List (Nat × BitVec 64) :=
  -- auipc x1, 0; ld x2, 0x100(x1); ld x3, 0x108(x1); ld x4, 0x110(x1)
  [(0x00, 0x1000b10300000097), (0x08, 0x1100b2031080b183),
   -- csrw mstatus, x4; csrw satp, x2; lb x5, 0(x0); csrw satp, x3; lb x5, 0(x0)
   (0x10, 0x1801107330021073), (0x18, 0x1801907300000283),
   -- csrw satp, x2; lb x5, 0(x0)
   (0x20, 0x1801107300000283), (0x28, 0x00000283),
   -- the two values of satp, then that of mstatus
   (0x100, 0x8000100000080001), (0x108, 0x8000200000080002), (0x110, 0x20800),
   -- the two root tables
   (0x1000, 0x20000043), (0x2000, 0x20000063)]

def sharedMachine : Machine (AddrBus Empty) :=
  Machine.start (RV64Core.reset { (default : RV64Core) with currentProgramCounter := 0x80000000 })
    (memoryBus fun a => match sharedMemory.find? fun p => p.1 ≤ a && a < p.1 + 8 with
      | some p => p.2.extractLsb' (8 * (a - p.1)) 8
      | none => 0)

theorem sharedMachine_initial : sharedMachine.Initial := ⟨⟨_, rfl⟩, fun _ => rfl, rfl⟩

/-- After ten steps two entries match address 0 in address space 1, and the next step fails the
assertion of the lookup. -/
theorem shared_twice :
    Reached (fun _ => True) (after sharedMachine 10) ∧
    ((after sharedMachine 10).mmu.tlb 0).hits 1 0 = true ∧
    ((after sharedMachine 10).mmu.tlb 1).hits 1 0 = true ∧
    ∃ t, step { after sharedMachine 10 with trace := [] } = .error .duplicateMatch t := by
  have hrun : ∀ i, i < 10 →
      returns step { after sharedMachine i with trace := [] } = true ∧ True := by
    decide +kernel
  have habort : aborted step { after sharedMachine 10 with trace := [] } =
      some .duplicateMatch := by
    decide +kernel
  exact ⟨reached_after (.initial sharedMachine_initial) 10 hrun, by decide +kernel,
    by decide +kernel, _, eq_aborted habort⟩

/-- After the first load of address 0 there is one match, and no refill has overlapped. -/
theorem single_match_shared :
    (∀ asid va i j, ((after sharedMachine 7).mmu.tlb i).hits asid va = true →
      ((after sharedMachine 7).mmu.tlb j).hits asid va = true → i = j) ∧
    ∀ t, step { after sharedMachine 7 with trace := [] } = .error .duplicateMatch t →
      refillsClear t.trace = false :=
  single_match (reached_after (.initial sharedMachine_initial) 7 (by decide +kernel))

end NextEmu.Simple.SingleMatch
