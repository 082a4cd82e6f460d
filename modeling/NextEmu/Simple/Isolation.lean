import NextEmu.Simple.Amo
import NextEmu.Simple.Translation

/-!
# Memory isolation of U and S mode

The six access paths are run from an empty TLB and an empty trace, so that the
trace holds the events of the call. However the call ends, every byte that it
touched lies in the page of a leaf that a walk of this call reaches for the
virtual address of the byte, and the leaf permits the access.

One argument serves the six paths: what `pagedAccess` hands to its last argument
is an address in such a page. A path contributes its own table of refusals, and
that the rest of it touches nothing else.
-/

namespace NextEmu.Simple.Isolation

open NextEmu.Lib NextEmu.Lib.AbortState NextEmu.Lib.BitField NextEmu.Lib.RadixWalk NextEmu.Sdk
open Translation

variable {β : Type} [SlaveAtomicIOI β]

/-! ## What an access may touch -/

inductive Access
  | load
  | store
  | fetch
  deriving DecidableEq

/-- What a leaf must say to permit an access by a core. -/
structure Permits (c : RV64Core) (acc : Access) (pte : BitVec 64) : Prop where
  valid : PTE.v pte = true
  accessed : PTE.a pte = true
  user : c.currentPrivMode = .uMode → PTE.u pte = true
  supervisor : c.currentPrivMode = .sMode →
    PTE.u pte = false ∨ acc ≠ .fetch ∧ c.status.getLsbD MStatus.sum = true
  readable : acc = .load → PTE.r pte = true
  writable : acc = .store → PTE.w pte = true ∧ PTE.d pte = true
  executable : acc = .fetch → PTE.x pte = true

/-- The bytes that an event touches, page table reads aside. -/
def touches : Event β → Option (Addr × Nat)
  | .load a n | .store a n | .reserve a n | .check a n => some (a, n)
  | _ => none

/-- A translation of this trace began with the bus in this state. -/
def TranslatedAt (tr : List (Event β)) (b : β) : Prop :=
  ∃ va mmu satp, Event.translate va mmu satp b ∈ tr

/-- The entry is that of a leaf which a walk of this trace reaches for the address. -/
def Found (c : RV64Core) (tr : List (Event β)) (va : BitVec 64) (e : TLBEntry) : Prop :=
  ∃ b l pte, TranslatedAt tr b ∧ (pageWalk c.satp b va).result = .leaf l pte ∧
    e = leafEntry (Satp.asid c.satp) va l pte

/-- The byte at `pa` may be touched for the virtual address `va`. -/
def ByteAllowed (c : RV64Core) (acc : Access) (tr : List (Event β)) (va : BitVec 64) (pa : Addr) :
    Prop :=
  ∃ b l pte, TranslatedAt tr b ∧ (pageWalk c.satp b va).result = .leaf l pte ∧
    (PTE.paddr pte).toNat ≤ pa.toNat ∧
    pa.toNat < (PTE.paddr pte).toNat + (sizeOfLevel l).bytes.toNat ∧ Permits c acc pte

/-- Every byte that the trace touches is allowed for a byte of the access. -/
def Isolated (c : RV64Core) (acc : Access) (va : BitVec 64) (size : Nat) (tr : List (Event β)) :
    Prop :=
  ∀ e ∈ tr, ∀ pa n, touches e = some (pa, n) → ∃ off, off + n ≤ size ∧
    ∀ k, k < n → ByteAllowed c acc tr (va + BitVec.ofNat 64 (off + k)) (pa + BitVec.ofNat 64 k)

section Traces

variable {c : RV64Core} {acc : Access} {va : BitVec 64} {size : Nat} {tr evs : List (Event β)}

omit [SlaveAtomicIOI β] in
theorem TranslatedAt.append {b : β} (h : TranslatedAt tr b) : TranslatedAt (evs ++ tr) b := by
  obtain ⟨va, mmu, satp, hm⟩ := h
  exact ⟨va, mmu, satp, List.mem_append_right _ hm⟩

theorem Found.append {e : TLBEntry} (h : Found c tr va e) : Found c (evs ++ tr) va e := by
  obtain ⟨b, l, pte, hb, hw⟩ := h
  exact ⟨b, l, pte, hb.append, hw⟩

theorem ByteAllowed.append {pa : Addr} (h : ByteAllowed c acc tr va pa) :
    ByteAllowed c acc (evs ++ tr) va pa := by
  obtain ⟨b, l, pte, hb, hw⟩ := h
  exact ⟨b, l, pte, hb.append, hw⟩

/-- Events that touch nothing, or `n` allowed bytes from `pa` on, keep a trace isolated. -/
theorem Isolated.append (h : Isolated c acc va size tr)
    (he : ∀ e ∈ evs, ∀ pa n, touches e = some (pa, n) → ∃ off, off + n ≤ size ∧
      ∀ k, k < n → ByteAllowed c acc tr (va + BitVec.ofNat 64 (off + k))
        (pa + BitVec.ofNat 64 k)) : Isolated c acc va size (evs ++ tr) := by
  intro e hm pa n ht
  rcases List.mem_append.mp hm with hm | hm
  · obtain ⟨off, hoff, hk⟩ := he e hm pa n ht
    exact ⟨off, hoff, fun k hkn => (hk k hkn).append⟩
  · obtain ⟨off, hoff, hk⟩ := h e hm pa n ht
    exact ⟨off, hoff, fun k hkn => (hk k hkn).append⟩

end Traces

/-! ## The invariant of a call -/

/-- Between two commands of a call: the core is as it was, what was touched was allowed,
and every valid entry of the TLB comes from a walk of this call. -/
structure Inv (c : RV64Core) (acc : Access) (va : BitVec 64) (size : Nat) (s : Machine β) :
    Prop where
  core : s.core = c
  isolated : Isolated c acc va size s.trace
  sourced : ∀ i, (s.mmu.tlb i).pagesize ≠ .invalid → ∃ va', Found c s.trace va' (s.mmu.tlb i)

section Translate

variable {c : RV64Core} {acc : Access} {va₀ va : BitVec 64} {size : Nat} {s : Machine β}

/-- The leaf of a walk is a valid leaf entry. -/
theorem pageWalk_leaf_valid {satp : BitVec 64} {b : β} {l : Nat} {pte : BitVec 64}
    (h : (pageWalk satp b va).result = .leaf l pte) : isValidLeafPTE pte = true := by
  have hk := walk_leaf_kind h
  rw [sv39_kind] at hk
  split at hk
  · assumption
  · split at hk <;> cases hk

/-- An entry that matches an address was found for it. -/
theorem Found.of_hits {tr : List (Event β)} {va' : BitVec 64} {e : TLBEntry} {asid : BitVec 16}
    (h : Found c tr va' e) (hh : e.hits asid va = true) : Found c tr va e := by
  obtain ⟨b, l, pte, hb, hw, rfl⟩ := h
  have hmask : va &&& (sizeOfLevel l).mask = va' &&& (sizeOfLevel l).mask := by
    simp only [TLBEntry.hits, leafEntry, TLBEntry.ofLeaf, Bool.and_eq_true, beq_iff_eq] at hh
    exact hh.2
  refine ⟨b, l, pte, hb, ?_, ?_⟩
  · rw [pageWalk, walk_sameBlock hw (sameBlock_of_mask hmask.symm)]
    exact hw
  · simp only [leafEntry, hmask]

theorem Inv.quiet (h : Inv c acc va₀ size s) (evs : List (Event β))
    (he : ∀ e ∈ evs, touches e = none) {b : β} :
    Inv c acc va₀ size { s with bus := b, trace := evs ++ s.trace } where
  core := h.core
  isolated := h.isolated.append fun e hm pa n ht => by rw [he e hm] at ht; cases ht
  sourced i hi := by
    obtain ⟨va', hf⟩ := h.sourced i hi
    exact ⟨va', hf.append⟩

/-- The same for a walk, of which the leaf goes into the TLB. -/
theorem Inv.finish (h : Inv c acc va₀ size s) (hmode : Satp.mode c.satp = 8)
    (hat : TranslatedAt s.trace s.bus) :
    wp (walkTables va)
      (fun r t => Inv c acc va₀ size t ∧ ∀ e, r = some e → Found c t.trace va e)
      (fun _ t => Inv c acc va₀ size t) s := by
  obtain ⟨rfl, -, -⟩ := id h
  have hread : ∀ w, Inv s.core acc va₀ size (readTables s w) := fun w =>
    h.quiet _ fun e hm => by
      obtain ⟨r, -, rfl⟩ := List.mem_map.mp (List.mem_reverse.mp hm)
      rfl
  unfold wp
  rw [walkTables_eq va s hmode, finish]
  cases hr : (pageWalk s.core.satp s.bus va).result with
  | unreadable => exact hread _
  | fault => exact ⟨hread _, fun _ he => absurd he (Option.some_ne_none _).symm⟩
  | leaf l pte =>
    have hf : Found s.core (readTables s (pageWalk s.core.satp s.bus va)).trace va
        (leafEntry (Satp.asid s.core.satp) va l pte) := ⟨s.bus, l, pte, hat.append, hr, rfl⟩
    refine ⟨⟨rfl, (hread _).isolated, fun i hi => ?_⟩, fun e he => Option.some.inj he ▸ hf⟩
    by_cases hslot : i = s.mmu.lastSwappedIndex
    · simp only [refilled, BlockCache.put, hslot, if_true]
      exact ⟨va, hf⟩
    · simp only [refilled, BlockCache.put, hslot, if_false] at hi ⊢
      exact (hread _).sourced i hi

/-- A translation keeps the invariant, and hands out an entry found for its address. -/
theorem Inv.getTLBEntry (h : Inv c acc va₀ size s) (hmode : Satp.mode c.satp = 8)
    (va : BitVec 64) :
    wp (getTLBEntry va)
      (fun r t => Inv c acc va₀ size t ∧ ∀ e, r = some e → Found c t.trace va e)
      (fun _ t => Inv c acc va₀ size t) s := by
  have ht : Inv c acc va₀ size (translating va s) :=
    h.quiet [.translate va s.mmu s.core.satp s.bus] fun e he => by
      rw [List.mem_singleton.mp he]
      rfl
  have hat : TranslatedAt (translating va s).trace s.bus := ⟨_, _, _, List.mem_cons_self⟩
  refine wp_getTLBEntry ht (fun _ => ht.finish hmode hat) (fun i hone => ?_) (fun _ _ _ _ => ht)
  have hhit : (s.mmu.tlb i).hits (Satp.asid s.core.satp) va = true :=
    mem_hits.mp (hone ▸ List.mem_cons_self)
  have hvalid : (s.mmu.tlb i).pagesize ≠ .invalid := fun hi =>
    not_covers_of_invalid hi (Satp.asid s.core.satp, va) hhit
  obtain ⟨va', hf⟩ := ht.sourced i hvalid
  refine ⟨ht, fun e he => ?_⟩
  cases he
  exact hf.of_hits hhit

end Translate

/-! ## The bytes of an access -/

theorem paddr_eq (pte : BitVec 64) : PTE.paddr pte = (field pte 10 44).setWidth 64 <<< 12 := by
  unfold PTE.paddr PTE.ppn2 PTE.ppn1 PTE.ppn0
  congr 1
  refine BitVec.eq_of_getLsbD_eq fun i hi => ?_
  simp only [BitVec.getLsbD_or, BitVec.getLsbD_shiftLeft, BitVec.getLsbD_setWidth,
    BitVec.getLsbD_extractLsb']
  grind

theorem paddr_lt (pte : BitVec 64) : (PTE.paddr pte).toNat < 2 ^ 56 := by
  rw [paddr_eq]
  have h := (field pte 10 44).isLt
  simp only [BitVec.toNat_shiftLeft, BitVec.toNat_setWidth, Nat.shiftLeft_eq]
  omega

theorem bytes_toNat {p : PageSize} (hp : p ≠ .invalid) : p.bytes.toNat = 2 ^ offsetBits p := by
  cases p with
  | invalid => exact absurd rfl hp
  | _ => rfl

/-- The bytes of an access that stays in a page share the bits above the page offset. -/
theorem same_page {va : BitVec 64} {len k : Nat} (hcross : crossesPage va len = false)
    (hlen : len ≤ 8) (hk : k < len) :
    va.toNat + k < 2 ^ 64 ∧ (va.toNat + k) / 2 ^ 12 = va.toNat / 2 ^ 12 := by
  simp only [crossesPage, bne_eq_false_iff_eq] at hcross
  have h := congrArg BitVec.toNat hcross
  have hv := va.isLt
  have h1 : (1 : BitVec 64).toNat = 1 := rfl
  simp only [BitVec.toNat_ushiftRight, BitVec.toNat_sub, BitVec.toNat_add, BitVec.toNat_ofNat,
    Nat.shiftRight_eq_div_pow, h1] at h
  omega

theorem offset_add {va : BitVec 64} {k : Nat} {p : PageSize} (hp : p ≠ .invalid)
    (hpage : (va.toNat + k) / 2 ^ 12 = va.toNat / 2 ^ 12) :
    (va.toNat + k) % 2 ^ offsetBits p = va.toNat % 2 ^ offsetBits p + k := by
  cases p with
  | invalid => exact absurd rfl hp
  | _ => simp only [offsetBits] at *; omega

theorem mask_add {va : BitVec 64} {k : Nat} {p : PageSize} (hp : p ≠ .invalid)
    (hw : va.toNat + k < 2 ^ 64) (hpage : (va.toNat + k) / 2 ^ 12 = va.toNat / 2 ^ 12) :
    va &&& p.mask = (va + BitVec.ofNat 64 k) &&& p.mask := by
  have hb : offsetBits p < 64 := by
    cases p with
    | invalid => exact absurd rfl hp
    | _ => decide
  have hoff := offset_add hp hpage
  have hadd : (va + BitVec.ofNat 64 k).toNat = va.toNat + k := by
    rw [BitVec.toNat_add, BitVec.toNat_ofNat]
    omega
  have hpow := bytes_toNat hp
  rw [mask_eq hp, and_highMask hb, and_highMask hb]
  rw [bytes_eq hp] at hpow
  refine BitVec.eq_of_toNat_eq ?_
  have hle : ∀ x : BitVec 64, x % (1#64 <<< offsetBits p) ≤ x := fun x => by
    rw [BitVec.le_def, BitVec.toNat_umod]
    exact Nat.mod_le _ _
  rw [BitVec.toNat_sub_of_le (hle _), BitVec.toNat_sub_of_le (hle _), BitVec.toNat_umod,
    BitVec.toNat_umod, hpow, hadd, hoff]
  omega

theorem byte_in_page {va : BitVec 64} {k : Nat} {p : PageSize} (hp : p ≠ .invalid)
    (hpage : (va.toNat + k) / 2 ^ 12 = va.toNat / 2 ^ 12)
    (pte : BitVec 64) :
    (PTE.paddr pte).toNat ≤ (PTE.paddr pte + va % p.bytes + BitVec.ofNat 64 k).toNat ∧
    (PTE.paddr pte + va % p.bytes + BitVec.ofNat 64 k).toNat <
      (PTE.paddr pte).toNat + p.bytes.toNat := by
  have hoff := offset_add hp hpage
  have hpa := paddr_lt pte
  have hlt : (va.toNat + k) % 2 ^ offsetBits p < 2 ^ offsetBits p :=
    Nat.mod_lt _ (Nat.two_pow_pos _)
  have hb : 2 ^ offsetBits p ≤ 2 ^ 30 := by
    cases p with
    | invalid => exact absurd rfl hp
    | _ => decide
  have hsum : (PTE.paddr pte + va % p.bytes + BitVec.ofNat 64 k).toNat =
      (PTE.paddr pte).toNat + va.toNat % 2 ^ offsetBits p + k := by
    rw [BitVec.toNat_add, BitVec.toNat_add, BitVec.toNat_umod, bytes_toNat hp, BitVec.toNat_ofNat]
    omega
  rw [hsum, bytes_toNat hp]
  omega

/-! ## The access paths -/

/-- The code at a physical address changes the bus alone and touches `n` bytes from `pa` on. -/
def Accessed (pa : Addr) (n : Nat) (s t : Machine β) : Prop :=
  t.core = s.core ∧ t.mmu = s.mmu ∧
    ∃ evs, t.trace = evs ++ s.trace ∧ ∀ e ∈ evs, touches e = some (pa, n)

section Paths

variable {c : RV64Core} {acc : Access} {va₀ : BitVec 64} {size off len : Nat} {ρ : Type}

theorem Inv.accessed {s t : Machine β} {pa : Addr} (h : Inv c acc va₀ size s)
    (hoff : off + len ≤ size) (ha : Accessed pa len s t)
    (hb : ∀ k, k < len →
      ByteAllowed c acc s.trace (va₀ + BitVec.ofNat 64 (off + k)) (pa + BitVec.ofNat 64 k)) :
    Inv c acc va₀ size t := by
  obtain ⟨hcore, hmmu, evs, htrace, hevs⟩ := ha
  refine ⟨hcore.trans h.core, ?_, ?_⟩
  · rw [htrace]
    refine h.isolated.append fun e he pa' n ht => ?_
    rw [hevs e he] at ht
    cases ht
    exact ⟨off, hoff, hb⟩
  · intro i hi
    rw [hmmu] at hi ⊢
    obtain ⟨va', hf⟩ := h.sourced i hi
    exact ⟨va', htrace ▸ hf.append⟩

/-- A path through `pagedAccess` keeps the invariant, when its refusals leave only leaves that
permit the access and its end touches no more than its bytes. -/
theorem Inv.pagedAccess {s : Machine β} (h : Inv c acc va₀ size s) (hmode : Satp.mode c.satp = 8)
    {va : BitVec 64} (hva : va = va₀ + BitVec.ofNat 64 off) (hoff : off + len ≤ size)
    (hlen : len ≤ 8) {crossPage noEntry : ρ}
    {refuse : RV64Core → TLBEntry → Option ρ} {act : Addr → Emu β ρ}
    (hrefuse : ∀ pte vpa p asid, isValidLeafPTE pte = true →
      refuse c (TLBEntry.ofLeaf pte vpa p asid) = none → Permits c acc pte)
    (hact : ∀ pa, Tracks (Accessed pa len) (fun _ _ => True) (act pa)) :
    wp (Simple.pagedAccess va len crossPage noEntry refuse act)
      (fun _ t => Inv c acc va₀ size t) (fun _ t => Inv c acc va₀ size t) s := by
  subst hva
  unfold Simple.pagedAccess
  rw [wp_ite]
  refine ⟨fun _ => h, fun hcross => ?_⟩
  rw [wp_bind]
  refine wp_mono (h.getTLBEntry hmode (va₀ + BitVec.ofNat 64 off)) ?_ (fun _ _ ht => ht)
  intro r t ⟨ht, hfound⟩
  cases r with
  | none => exact ht
  | some e =>
    obtain ⟨b, l, pte, hat, hw, rfl⟩ := hfound e rfl
    simp only [wp_bind, wp_getCore, ht.core]
    cases hr : refuse c (leafEntry (Satp.asid c.satp) (va₀ + BitVec.ofNat 64 off) l pte) with
    | some code => exact ht
    | none =>
      rw [wp_bind, wp_assertThat]
      refine ⟨fun _ => ?_, fun _ => ht⟩
      have hperm := hrefuse pte _ _ _ (pageWalk_leaf_valid hw) hr
      have hp := sizeOfLevel_ne l
      have hbytes : ∀ k, k < len → ByteAllowed c acc t.trace (va₀ + BitVec.ofNat 64 (off + k))
          (PTE.paddr pte + (va₀ + BitVec.ofNat 64 off) % (sizeOfLevel l).bytes +
            BitVec.ofNat 64 k) := by
        intro k hk
        obtain ⟨hnowrap, hpage⟩ := same_page (by simpa using hcross) hlen hk
        have hmask := mask_add hp hnowrap hpage
        obtain ⟨hlo, hhi⟩ := byte_in_page hp hpage pte
        rw [BitVec.ofNat_add, ← BitVec.add_assoc]
        refine ⟨b, l, pte, hat, ?_, hlo, hhi, hperm⟩
        rw [pageWalk, walk_sameBlock hw (sameBlock_of_mask hmask)]
        exact hw
      exact wp_mono (hact _ t) (fun _ u hu => ht.accessed hoff hu hbytes)
        (fun _ u hu => ht.accessed hoff hu.1 hbytes)

/-! What each table of refusals leaves. -/

theorem dataPriv_eq (h : c.currentPrivMode ≠ .mMode) : c.dataPriv = c.currentPrivMode := by
  simp [RV64Core.dataPriv, h]

theorem readRefusal_permits {pf af : ρ} {pte vpa : BitVec 64} {p : PageSize} {asid : BitVec 16}
    (hpriv : c.currentPrivMode ≠ .mMode) (hleaf : isValidLeafPTE pte = true)
    (h : readRefusal pf af c (TLBEntry.ofLeaf pte vpa p asid) = none) : Permits c .load pte := by
  simp only [isValidLeafPTE, Bool.and_eq_true] at hleaf
  simp only [readRefusal, TLBEntry.ofLeaf, dataPriv_eq hpriv] at h
  constructor <;> grind

theorem writeRefusal_permits {pf : ρ} {pte vpa : BitVec 64} {p : PageSize} {asid : BitVec 16}
    (hpriv : c.currentPrivMode ≠ .mMode) (hleaf : isValidLeafPTE pte = true)
    (h : writeRefusal pf c (TLBEntry.ofLeaf pte vpa p asid) = none) : Permits c .store pte := by
  simp only [isValidLeafPTE, Bool.and_eq_true] at hleaf
  simp only [writeRefusal, TLBEntry.ofLeaf, dataPriv_eq hpriv] at h
  constructor <;> grind

theorem fetchRefusal_permits {pf : ρ} {pte vpa : BitVec 64} {p : PageSize} {asid : BitVec 16}
    (hleaf : isValidLeafPTE pte = true)
    (h : fetchRefusal pf c (TLBEntry.ofLeaf pte vpa p asid) = none) : Permits c .fetch pte := by
  simp only [isValidLeafPTE, Bool.and_eq_true] at hleaf
  simp only [fetchRefusal, TLBEntry.ofLeaf] at h
  constructor <;> grind

end Paths

/-! What the code at a physical address touches. -/

section Acts

variable {pa : Addr} {n : Nat}

omit [SlaveAtomicIOI β] in
theorem Accessed.refl (s : Machine β) : Accessed pa n s s := ⟨rfl, rfl, [], rfl, by simp⟩

omit [SlaveAtomicIOI β] in
theorem Accessed.trans (s t u : Machine β) (h : Accessed pa n s t) (h' : Accessed pa n t u) :
    Accessed pa n s u := by
  obtain ⟨hc, hm, evs, ht, he⟩ := h
  obtain ⟨hc', hm', evs', ht', he'⟩ := h'
  refine ⟨hc'.trans hc, hm'.trans hm, evs' ++ evs, by rw [ht', ht, List.append_assoc], ?_⟩
  intro e hmem
  rcases List.mem_append.mp hmem with hmem | hmem
  · exact he' e hmem
  · exact he e hmem

/-- Commands that touch `n` bytes from `pa` on, in any order, with whatever abort. -/
abbrev Confined (pa : Addr) (n : Nat) {α : Type} (x : Emu β α) : Prop :=
  Tracks (Accessed pa n) (fun _ _ => True) x

omit [SlaveAtomicIOI β] in
theorem confined_pure {α : Type} (a : α) : Confined (β := β) pa n (pure a) :=
  Tracks.pure Accessed.refl a

omit [SlaveAtomicIOI β] in
theorem confined_bind {α γ : Type} {x : Emu β α} {f : α → Emu β γ} (hx : Confined pa n x)
    (hf : ∀ a, Confined pa n (f a)) : Confined pa n (x >>= f) :=
  Tracks.bind Accessed.trans hx hf

theorem confined_doLoad (pa : Addr) (n : Nat) : Confined (β := β) pa n (doLoad pa n) :=
  fun _ => ⟨rfl, rfl, [.load pa n], rfl, by simp [touches]⟩

theorem confined_doStore (pa : Addr) (n : Nat) (data : BitVec (8 * n)) :
    Confined (β := β) pa n (doStore pa n data) :=
  fun _ => ⟨rfl, rfl, [.store pa n], rfl, by simp [touches]⟩

theorem confined_doReserve (pa : Addr) (n : Nat) : Confined (β := β) pa n (doReserve pa n) :=
  fun _ => ⟨rfl, rfl, [.reserve pa n], rfl, by simp [touches]⟩

theorem confined_doCheck (pa : Addr) (n : Nat) : Confined (β := β) pa n (doCheck pa n) :=
  fun _ => ⟨rfl, rfl, [.check pa n], rfl, by simp [touches]⟩

theorem confined_physRead (pa : Addr) (n : Nat) : Confined (β := β) pa n (physRead pa n) :=
  confined_bind (confined_doLoad pa n) fun _ => confined_pure _

theorem confined_physWrite {ρ : Type} (ok fault : ρ) (pa : Addr) (n : Nat)
    (data : BitVec (8 * n)) : Confined (β := β) pa n (physWrite ok fault pa n data) :=
  confined_bind (confined_doStore pa n data) fun _ => confined_pure _

theorem confined_physLoadReserved (pa : Addr) (n : Nat) :
    Confined (β := β) pa n (physLoadReserved pa n) :=
  confined_bind (confined_doReserve pa n) fun _ =>
    confined_bind (confined_doLoad pa n) fun _ => confined_pure _

theorem confined_physStoreConditional (fault : BitVec 63) (pa : Addr) (n : Nat)
    (data : BitVec (8 * n)) : Confined (β := β) pa n (physStoreConditional fault pa n data) :=
  confined_bind (confined_doCheck pa n) fun _ =>
    Tracks.ite (confined_pure _)
      (confined_bind (confined_doStore pa n data) fun _ => confined_pure _)

theorem confined_amoLoad (hn : n = 4 ∨ n = 8) : Confined (β := β) pa n (amoLoad pa n) := by
  unfold amoLoad
  rcases hn with rfl | rfl
  · exact confined_bind (confined_doLoad pa 4) fun _ => confined_pure _
  · exact confined_bind (confined_doLoad pa 8) fun _ => confined_pure _

theorem confined_physAmo (hn : n = 4 ∨ n = 8) (op : AMOFunct) (src : BitVec 64) :
    Confined (β := β) pa n (physAmo pa n op src) := by
  refine confined_bind (confined_bind (confined_amoLoad hn) fun r => ?_) fun _ => confined_pure _
  refine Tracks.ite (confined_pure _) ?_
  cases amoResult op src r.2 with
  | none => exact Tracks.throw Accessed.refl fun _ => trivial
  | some toWrite => exact confined_bind (confined_doStore pa n _) fun _ => confined_pure _

end Acts

/-! ## The six paths -/

/-- A call of one of the access paths. -/
inductive PathCall
  | read (size : Nat)
  | write (size : Nat) (data : BitVec (8 * size))
  | fetch (size : Nat)
  | loadReserved (size : Nat)
  | storeConditional (size : Nat) (data : BitVec (8 * size))
  | amo (size : Nat) (op : AMOFunct) (src : BitVec 64)

namespace PathCall

def size : PathCall → Nat
  | read n | write n _ | fetch n | loadReserved n | storeConditional n _ | amo n _ _ => n

/-- What a leaf must permit for the call. -/
def access : PathCall → Access
  | read _ | loadReserved _ => .load
  | write _ _ | storeConditional _ _ | amo _ _ _ => .store
  | fetch _ => .fetch

/-- The call at a virtual address, for what it does. -/
def run (va : BitVec 64) : PathCall → Emu β Unit
  | read n => do let _ ← vaddrReadBufferMMUAPI va n
  | write n data => do let _ ← vaddrWriteBufferMMUAPI va n data
  | fetch n => do let _ ← vaddrInstFetchMMUAPI va n
  | loadReserved n => do let _ ← vaddrLoadReserved va n
  | storeConditional n data => do let _ ← vaddrStoreConditional va n data
  | amo n op src => do let _ ← vaddrAtomicMemOperation va n op src

end PathCall

section Calls

variable {c : RV64Core} {va : BitVec 64} {size : Nat} {s : Machine β}

theorem Inv.instFetchPart (h : Inv c .fetch va size s) (hmode : Satp.mode c.satp = 8)
    (hpriv : c.currentPrivMode ≠ .mMode) {off len : Nat} {va' : BitVec 64}
    (hva : va' = va + BitVec.ofNat 64 off) (hoff : off + len ≤ size) (hlen : len ≤ 8) :
    wp (Simple.instFetchPart va' len)
      (fun _ t => Inv c .fetch va size t) (fun _ t => Inv c .fetch va size t) s := by
  have hbare : ¬ (c.currentPrivMode = .mMode ∨ Satp.mode c.satp = 0) := by
    rw [hmode]
    simp [hpriv]
  unfold Simple.instFetchPart
  simp only [wp_bind, wp_assertThat, wp_getCore, h.core, hbare, if_false]
  refine ⟨fun _ => ?_, fun _ => h⟩
  exact h.pagedAccess hmode hva hoff hlen (fun pte vpa p asid => fetchRefusal_permits)
    (fun pa => confined_physRead pa len)

/-- A fetch is one part, or two parts of which the second starts two bytes on. -/
theorem Inv.instFetch {n : Nat} (h : Inv c .fetch va n s) (hmode : Satp.mode c.satp = 8)
    (hpriv : c.currentPrivMode ≠ .mMode) (hn : n ≤ 8) :
    wp (vaddrInstFetchMMUAPI va n)
      (fun _ t => Inv c .fetch va n t) (fun _ t => Inv c .fetch va n t) s := by
  have hva : va = va + BitVec.ofNat 64 0 := (BitVec.add_zero va).symm
  unfold vaddrInstFetchMMUAPI
  simp only [wp_bind, wp_assertThat]
  refine ⟨fun _ => ?_, fun _ => h⟩
  by_cases hsplit : n = 4 ∧ va % 4 = 2
  · obtain ⟨rfl, -⟩ := id hsplit
    rw [if_pos hsplit, wp_bind]
    refine wp_mono (h.instFetchPart hmode hpriv hva (by decide) (by decide))
      (fun r t ht => ?_) (fun _ _ ht => ht)
    rw [wp_ite]
    refine ⟨fun _ => ht, fun _ => ?_⟩
    have hva2 : va + 2 = va + BitVec.ofNat 64 2 := rfl
    rw [wp_bind]
    refine wp_mono (ht.instFetchPart hmode hpriv hva2 (by decide) (by decide))
      (fun r' u hu => ?_) (fun _ _ hu => hu)
    rw [wp_ite]
    exact ⟨fun _ => hu, fun _ => hu⟩
  · rw [if_neg hsplit]
    exact h.instFetchPart hmode hpriv hva (by omega) hn

/-- The data paths when translation is on. -/
theorem Inv.dataPath {ρ : Type} {acc : Access} {n : Nat} (h : Inv c acc va n s)
    (hmode : Satp.mode c.satp = 8) (hpriv : c.currentPrivMode ≠ .mMode) (hn : n ≤ 8)
    {bare : Emu β ρ} {crossPage noEntry : ρ} {refuse : RV64Core → TLBEntry → Option ρ}
    {act : Addr → Emu β ρ}
    (hrefuse : ∀ pte vpa p asid, isValidLeafPTE pte = true →
      refuse c (TLBEntry.ofLeaf pte vpa p asid) = none → Permits c acc pte)
    (hact : ∀ pa, Confined pa n (act pa)) :
    wp (do
      let c ← getCore
      if c.dataBare then bare else Simple.pagedAccess va n crossPage noEntry refuse act)
      (fun _ t => Inv c acc va n t) (fun _ t => Inv c acc va n t) s := by
  have hbare : c.dataBare = false := by
    simp [RV64Core.dataBare, hmode, hpriv]
  have hva : va = va + BitVec.ofNat 64 0 := (BitVec.add_zero va).symm
  simp only [wp_bind, wp_getCore, h.core, hbare, Bool.false_eq_true, if_false]
  exact h.pagedAccess hmode hva (by omega) hn hrefuse hact

/-- **Isolation.** In U and S mode under paging, from an empty TLB, a call of any path
touches only bytes that a leaf of the tables permits, also when it is refused or aborts. -/
theorem isolated (call : PathCall) (va : BitVec 64) (s : Machine β)
    (hsize : call.size = 1 ∨ call.size = 2 ∨ call.size = 4 ∨ call.size = 8)
    (hempty : AllInvalid s.mmu) (hmode : Satp.mode s.core.satp = 8)
    (hpriv : s.core.currentPrivMode = .uMode ∨ s.core.currentPrivMode = .sMode) :
    wp (call.run va)
      (fun _ t => Isolated s.core call.access va call.size t.trace)
      (fun _ t => Isolated s.core call.access va call.size t.trace)
      { s with trace := [] } := by
  have hm : s.core.currentPrivMode ≠ .mMode := by
    rcases hpriv with h | h <;> simp [h]
  have hn : call.size ≤ 8 := by omega
  have hinv : Inv s.core call.access va call.size { s with trace := [] } :=
    ⟨rfl, by simp [Isolated], fun i hi => absurd (hempty i) hi⟩
  suffices hrun : wp (call.run va) (fun _ t => Inv s.core call.access va call.size t)
      (fun _ t => Inv s.core call.access va call.size t) { s with trace := [] } from
    wp_mono hrun (fun _ _ ht => ht.isolated) (fun _ _ ht => ht.isolated)
  cases call with
  | read n =>
    simp only [PathCall.run, wp_bind]
    exact hinv.dataPath hmode hm hn (fun _ _ _ _ => readRefusal_permits hm)
      (fun pa => confined_physRead pa n)
  | write n data =>
    simp only [PathCall.run, wp_bind]
    exact hinv.dataPath hmode hm hn (fun _ _ _ _ => writeRefusal_permits hm)
      (fun pa => confined_physWrite _ _ pa n data)
  | fetch n =>
    simp only [PathCall.run, wp_bind]
    exact hinv.instFetch hmode hm hn
  | loadReserved n =>
    simp only [PathCall.run, wp_bind]
    exact hinv.dataPath hmode hm hn (fun _ _ _ _ => readRefusal_permits hm)
      (fun pa => confined_physLoadReserved pa n)
  | storeConditional n data =>
    simp only [PathCall.run, wp_bind]
    exact hinv.dataPath hmode hm hn (fun _ _ _ _ => writeRefusal_permits hm)
      (fun pa => confined_physStoreConditional _ pa n data)
  | amo n op src =>
    simp only [PathCall.run, wp_bind, vaddrAtomicMemOperation, wp_assertThat]
    refine ⟨fun hn48 => ?_, fun _ => hinv⟩
    exact hinv.dataPath hmode hm hn (fun _ _ _ _ => writeRefusal_permits hm)
      (fun pa => confined_physAmo hn48 op src)

end Calls

/-- A read of S mode in the gigapage, which reaches the bus. -/
theorem isolated_gigapage :
    wp ((PathCall.read 8).run 0x80001238)
      (fun _ t => Isolated gigapageMachine.core .load 0x80001238 8 t.trace)
      (fun _ t => Isolated gigapageMachine.core .load 0x80001238 8 t.trace) gigapageMachine ∧
    (final ((PathCall.read 8).run 0x80001238) gigapageMachine).trace.head?.bind touches =
      some (0x80001238, 8) :=
  ⟨isolated (.read 8) 0x80001238 gigapageMachine (by decide) (fun _ => rfl) (by decide)
    (by decide), by decide +kernel⟩

end NextEmu.Simple.Isolation
