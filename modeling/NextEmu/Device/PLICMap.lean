import NextEmu.Device.PLICRegions

/-!
# The register map of the interrupt controller

The offsets of the registers are those of the manual. Three of the four regions find
theirs; the enable bits of a context are indexed with a byte offset where the pending
bits are indexed with the number of a word. So only the first enable word of a context
is where it belongs, and only the first 32 sources can be enabled.
-/

namespace NextEmu.Device.PLICMap

open NextEmu.Sdk PLIC PLICClaims PLICRegions

/-- A register that a guest can name. -/
inductive Register
  | priority (i : Nat)
  | pending (w : Nat)
  | enable (c w : Nat)
  | threshold (c : Nat)
  | claim (c : Nat)
  deriving DecidableEq, Repr

namespace Register

/-- Where the manual puts it. -/
def offset : Register → Nat
  | priority i => 4 * i
  | pending w => 0x1000 + 4 * w
  | enable c w => 0x2000 + 0x80 * c + 4 * w
  | threshold c => 0x200000 + 0x1000 * c
  | claim c => 0x200000 + 0x1000 * c + 4

/-- The address of that offset. -/
def addr (r : Register) : BitVec 64 := BitVec.ofNat 64 r.offset

/-- The controller has it, and the manual has an offset for it. -/
def Standard (nrSource nrContext : Nat) : Register → Prop
  | priority i => 1 ≤ i ∧ i ≤ nrSource ∧ i < 1024
  | pending w => w < words nrSource ∧ w < 32
  | enable c w => c < nrContext ∧ c < 15872 ∧ w < words nrSource ∧ w < 32
  | threshold c => c < nrContext ∧ c < 15872
  | claim c => c < nrContext ∧ c < 15872

/-- A guest can write it. -/
def Writable : Register → Prop
  | priority _ | enable _ _ | threshold _ => True
  | pending _ | claim _ => False

section Access

variable {nrSource nrContext : Nat}

/-- Its word; none if the controller has no such register. -/
def read (p : PLIC nrSource nrContext) : Register → Option (BitVec 32)
  | priority i => p.priority[i]?
  | pending w => p.pending[w]?
  | enable c w => p.enable[c]?.bind (·[w]?)
  | threshold c => p.threshold[c]?
  | claim c => p.claim[c]?

/-- `q` is `p` with `v` in the register and everything else as it was. -/
structure Replaces (r : Register) (p : PLIC nrSource nrContext) (v : BitVec 32)
    (q : PLIC nrSource nrContext) : Prop where
  written : r.read q = some v
  others : ∀ r' : Register, r' ≠ r → r'.read q = r'.read p
  claimed : q.claimed = p.claimed
  lines : q.intContexts = p.intContexts

end Access

/-- Four-byte loads at the offset of the register read it, and stores write it and no other. -/
def Mapped (nrSource nrContext : Nat) (r : Register) : Prop :=
  ∀ p : PLIC nrSource nrContext, p.load r.addr 4 = .ok ((.success, r.read p), p) ∧
    (r.Writable → ∀ v, ∃ q, p.store r.addr 4 v = .ok (.success, q) ∧ r.Replaces p v q)

end Register

/-! ## What is where it belongs -/

section Map

variable {nrSource nrContext : Nat}

theorem standard_offset {r : Register} (h : r.Standard nrSource nrContext) :
    PLICRegions.offset r.addr = r.offset := by
  have hlt : r.offset < 0x4000000 := by
    cases r <;> simp only [Register.Standard, Register.offset] at * <;> omega
  unfold PLICRegions.offset Register.addr
  rw [BitVec.toNat_ofNat]
  omega

theorem mapped_priority {i : Nat} (h : (Register.priority i).Standard nrSource nrContext) :
    (Register.priority i).Mapped nrSource nrContext := by
  intro p
  have hoff : PLICRegions.offset (Register.priority i).addr = 4 * i := standard_offset h
  obtain ⟨hlo, hle, hhi⟩ := h
  have hdiv : 4 * i / 4 = i := by omega
  have hend : PLICRegions.offset (Register.priority i).addr + 4 ≤ 0x1000 := by omega
  have hne : PLICRegions.offset (Register.priority i).addr ≠ 0 := by omega
  have hin : PLICRegions.offset (Register.priority i).addr ≤ 4 * nrSource := by omega
  constructor
  · rw [load_priority hend hne hin, hoff, hdiv]
    rfl
  · intro _ v
    have hindex : PLICRegions.offset (Register.priority i).addr / 4 < nrSource + 1 := by omega
    refine ⟨_, store_priority hend hne hin hindex, ?_⟩
    have hread : ∀ j, (p.priority.set (PLICRegions.offset (Register.priority i).addr / 4) v
        hindex)[j]? = if j = i then some v else p.priority[j]? := by
      intro j
      rw [Vector.getElem?_set]
      simp only [hoff, hdiv, eq_comm]
    refine ⟨(hread i).trans (if_pos rfl), fun r hr => ?_, rfl, rfl⟩
    cases r with
    | priority j =>
      have hne : j ≠ i := fun hji => hr (congrArg _ hji)
      exact (hread j).trans (if_neg hne)
    | pending | enable | threshold | claim => rfl

theorem mapped_pending {w : Nat} (h : (Register.pending w).Standard nrSource nrContext) :
    (Register.pending w).Mapped nrSource nrContext := by
  intro p
  have hoff : PLICRegions.offset (Register.pending w).addr = 0x1000 + 4 * w := standard_offset h
  obtain ⟨hw, hhi⟩ := h
  have hdiv : (0x1000 + 4 * w - 0x1000) / 4 = w := by omega
  refine ⟨?_, nofun⟩
  rw [load_pending (by omega) (by omega) (by rwa [hoff, hdiv]), hoff, hdiv]
  rfl

theorem mapped_threshold {c : Nat} (h : (Register.threshold c).Standard nrSource nrContext) :
    (Register.threshold c).Mapped nrSource nrContext := by
  intro p
  have hoff : PLICRegions.offset (Register.threshold c).addr = 0x200000 + 0x1000 * c :=
    standard_offset h
  obtain ⟨hc, -⟩ := h
  have hmod : (0x200000 + 0x1000 * c) % 0x1000 = 0 := by omega
  have hctx : ((Register.threshold c).addr % 0x4000000 - 0x200000).toNat / 0x1000 = c := by
    have hsub : ((Register.threshold c).addr % 0x4000000 - 0x200000).toNat =
        PLICRegions.offset (Register.threshold c).addr - 0x200000 :=
      toNat_sub_base (by rw [hoff]; exact Nat.le_add_right _ _)
    rw [hsub, hoff]
    omega
  have hin : ¬ c > nrContext := by omega
  constructor
  · rw [load_context (by omega) hctx, if_neg hin, hoff, if_pos hmod, readAt_eq hc,
      except_ok_bind]
    show _ = Except.ok ((Feedback.success, p.threshold[c]?), p)
    rw [Vector.getElem?_eq_getElem hc]
    rfl
  · intro _ v
    refine ⟨{ p with threshold := p.threshold.set c v hc }, ?_, ?_⟩
    · rw [store_context (by omega) hctx, if_neg hin, hoff, if_pos hmod, writeAt_eq hc]
      rfl
    have hread : ∀ j, (p.threshold.set c v hc)[j]? =
        if j = c then some v else p.threshold[j]? := by
      intro j
      rw [Vector.getElem?_set]
      simp only [eq_comm]
    refine ⟨(hread c).trans (if_pos rfl), fun r hr => ?_, rfl, rfl⟩
    cases r with
    | threshold j =>
      have hne : j ≠ c := fun hjc => hr (congrArg _ hjc)
      exact (hread j).trans (if_neg hne)
    | priority | pending | enable | claim => rfl

/-- Where the access to an enable word goes: the offset of the word in its context, in bytes. -/
theorem enable_offset {c w : Nat} (h : (Register.enable c w).Standard nrSource nrContext) :
    PLICRegions.offset (Register.enable c w).addr = 0x2000 + 0x80 * c + 4 * w ∧ 4 * w < 0x80 ∧
      PLICRegions.offset (Register.enable c w).addr + 4 ≤ 0x200000 ∧ c < nrContext := by
  have hoff : PLICRegions.offset (Register.enable c w).addr = 0x2000 + 0x80 * c + 4 * w :=
    standard_offset h
  obtain ⟨hc, hchi, hw, hwhi⟩ := h
  exact ⟨hoff, by omega, by omega, hc⟩

theorem read_setEnable (p : PLIC nrSource nrContext) {c w : Nat} (v : BitVec 32)
    (hc : c < nrContext) (hw : w < words nrSource) (c' w' : Nat) :
    (Register.enable c' w').read
        { p with enable := p.enable.set c (p.enable[c].set w v hw) hc } =
      if c' = c ∧ w' = w then some v else (Register.enable c' w').read p := by
  simp only [Register.read]
  rw [Vector.getElem?_set]
  by_cases hcc : c = c'
  · subst hcc
    rw [if_pos rfl, Option.bind_some, Vector.getElem?_set, Vector.getElem?_eq_getElem hc,
      Option.bind_some]
    simp only [true_and, eq_comm]
  · rw [if_neg hcc, if_neg fun h => hcc h.1.symm]

/-- The first word of a context is where it belongs. -/
theorem mapped_enable {c : Nat} (h : (Register.enable c 0).Standard nrSource nrContext) :
    (Register.enable c 0).Mapped nrSource nrContext := by
  intro p
  obtain ⟨hoff, hpos, hend, hc⟩ := enable_offset h
  have hw : 4 * 0 < words nrSource := words_pos nrSource
  refine ⟨load_enable hoff hpos hend hc hw, fun _ v => ⟨_, store_enable hoff hpos hend hc hw, ?_⟩⟩
  have hread := read_setEnable p v hc hw
  refine ⟨(hread c 0).trans (if_pos ⟨rfl, rfl⟩), fun r hr => ?_, rfl, rfl⟩
  cases r with
  | enable c' w' =>
    have hne : ¬ (c' = c ∧ w' = 4 * 0) := fun heq => hr (by rw [heq.1, heq.2])
    exact (hread c' w').trans (if_neg hne)
  | priority | pending | threshold | claim => rfl

/-- A store to a later word leaves the array, or is done in another word. -/
theorem store_other_word {c w : Nat} (h : (Register.enable c w).Standard nrSource nrContext)
    (hw : w ≠ 0) (p : PLIC nrSource nrContext) (v : BitVec 32) :
    Returns (fun r => (Register.enable c w).read r.2 = (Register.enable c w).read p)
      (p.store (Register.enable c w).addr 4 v) := by
  obtain ⟨hoff, hpos, hend, hc⟩ := enable_offset h
  have hle := le_of_lt_words h.2.2.1
  by_cases hin : 4 * w < words nrSource
  · rw [store_enable hoff hpos hend hc hin]
    refine returns_ok ((read_setEnable p v hc hin c w).trans (if_neg fun heq => ?_))
    omega
  · rw [store_enable_leaves hoff hpos hend hc (by omega) (Nat.le_of_not_lt hin)]
    exact returns_error _

/-- A register is where it belongs unless it is an enable word behind the first of its context. -/
theorem mapped_iff {r : Register} (h : r.Standard nrSource nrContext) (hr : ∀ c, r ≠ .claim c) :
    r.Mapped nrSource nrContext ↔ ∀ c w, r = .enable c w → w = 0 := by
  constructor
  · rintro hmapped c w rfl
    refine Decidable.byContradiction fun hw => ?_
    obtain ⟨q, hstore, hq⟩ := (hmapped (PLIC.init nrSource nrContext)).2 trivial 1
    have hsame : (Register.enable c w).read q =
        (Register.enable c w).read (PLIC.init nrSource nrContext) :=
      store_other_word h hw _ 1 _ hstore
    obtain ⟨hc, -, hlt, -⟩ := h
    have hzero : (Register.enable c w).read (PLIC.init nrSource nrContext) = some 0 := by
      simp only [Register.read, PLIC.init]
      rw [Vector.getElem?_replicate, if_pos hc, Option.bind_some, Vector.getElem?_replicate,
        if_pos hlt]
    rw [hq.written, hzero] at hsame
    exact absurd hsame (by decide)
  · intro hfirst
    cases r with
    | priority i => exact mapped_priority h
    | pending w => exact mapped_pending h
    | enable c w =>
      obtain rfl := hfirst c w rfl
      exact mapped_enable h
    | threshold c => exact mapped_threshold h
    | claim c => exact absurd rfl (hr c)

end Map

/-! ## What the arbitration can see -/

section Visible

variable {nrSource nrContext : Nat} {p : PLIC nrSource nrContext} {c : Fin nrContext} {i : Nat}

/-- The source that `get_int` selects, 0 for none. -/
def selected (p : PLIC nrSource nrContext) (c : Fin nrContext) : Nat :=
  ((List.range' 1 nrSource).foldl (p.arbitrate c) (0, 0)).2

/-- With these enable bits there is a state in which `get_int` selects the source. -/
def VisibleTo (p : PLIC nrSource nrContext) (c : Fin nrContext) (i : Nat) : Prop :=
  ∃ q : PLIC nrSource nrContext, q.enable = p.enable ∧ selected q c = i

/-- What is selected is ready. -/
theorem arbitrate_ready (l : List Nat) (best : BitVec 32 × Nat)
    (h : best.2 = 0 ∨ p.ready c best.2 = true) :
    (l.foldl (p.arbitrate c) best).2 = 0 ∨
      p.ready c (l.foldl (p.arbitrate c) best).2 = true := by
  induction l generalizing best with
  | nil => exact h
  | cons j l ih =>
    refine ih _ ?_
    unfold arbitrate
    split
    · rename_i hready
      split
      · exact .inr hready
      · exact h
    · exact h

/-- A source that is ready and the only one with a priority is selected. -/
theorem arbitrate_only (hready : p.ready c i = true) (hpos : 0 < p.priority[i]?.getD 0)
    (honly : ∀ j, j ≠ i → p.priority[j]?.getD 0 = 0) (l : List Nat) (best : BitVec 32 × Nat)
    (h : best = (0, 0) ∨ best = (p.priority[i]?.getD 0, i)) :
    (i ∈ l ∨ best = (p.priority[i]?.getD 0, i)) →
      l.foldl (p.arbitrate c) best = (p.priority[i]?.getD 0, i) := by
  induction l generalizing best with
  | nil => exact fun hi => hi.resolve_left List.not_mem_nil
  | cons j l ih =>
    intro hi
    by_cases hj : j = i
    · have hturn : p.arbitrate c best j = (p.priority[i]?.getD 0, i) := by
        unfold arbitrate
        rw [hj, if_pos hready]
        rcases h with rfl | rfl
        · rw [if_pos hpos]
        · rw [if_neg (BitVec.lt_irrefl _)]
      rw [List.foldl_cons, hturn]
      exact ih _ (.inr rfl) (.inr rfl)
    · have hturn : p.arbitrate c best j = best := by
        have hnot : ¬ best.1 < 0 := BitVec.not_lt_zero
        unfold arbitrate
        rw [honly j hj, if_neg hnot]
        split <;> rfl
      rw [List.foldl_cons, hturn]
      refine ih _ h (hi.imp_left fun hmem => ?_)
      rcases List.mem_cons.mp hmem with hmem | hmem
      · exact absurd hmem.symm hj
      · exact hmem

/-- A source is visible to a context exactly when its enable bit is set. -/
theorem visibleTo_iff (hpos : 1 ≤ i) (hle : i ≤ nrSource) :
    VisibleTo p c i ↔ bitOf (p.enable.get c) i = true := by
  constructor
  · rintro ⟨q, henable, hsel⟩
    rcases arbitrate_ready (p := q) (c := c) (List.range' 1 nrSource) (0, 0) (.inl rfl)
      with hnone | hready
    · have hzero : i = 0 := hsel.symm.trans hnone
      omega
    · have hq : q.ready c i = true := hsel ▸ hready
      unfold ready at hq
      rw [henable] at hq
      simp only [Bool.and_eq_true] at hq
      exact hq.1.2
  · intro hbit
    have hword : i / 32 < words nrSource := by
      unfold words
      omega
    have hlt : i < nrSource + 1 := Nat.lt_succ_of_le hle
    have hmod : i % 32 < 32 := Nat.mod_lt _ (by decide)
    let q : PLIC nrSource nrContext :=
      { p with
        priority := (Vector.replicate _ 0).set i 1 hlt
        pending := .replicate _ (BitVec.allOnes 32)
        threshold := .replicate _ 0
        claimed := .replicate _ 0 }
    have hprio : ∀ j, q.priority[j]?.getD 0 = if j = i then 1 else 0 := by
      intro j
      show ((Vector.replicate _ 0).set i 1 hlt)[j]?.getD 0 = _
      rw [Vector.getElem?_set, Vector.getElem?_replicate]
      by_cases hj : i = j
      · rw [if_pos hj, if_pos hj.symm]
        rfl
      · rw [if_neg hj, if_neg (Ne.symm hj)]
        split <;> rfl
    have hpending : bitOf q.pending i = true := by
      show bitOf (Vector.replicate _ (BitVec.allOnes 32)) i = true
      unfold bitOf
      rw [Vector.getElem?_replicate, if_pos hword, Option.getD_some, BitVec.getLsbD_allOnes]
      exact decide_eq_true hmod
    have hclaimed : bitOf q.claimed i = false := by
      show bitOf (Vector.replicate _ 0) i = false
      unfold bitOf
      rw [Vector.getElem?_replicate, if_pos hword]
      simp
    have hthreshold : q.threshold.get c ≤ q.priority[i]?.getD 0 := by
      show (Vector.replicate _ 0)[c] ≤ _
      rw [Fin.getElem_fin, Vector.getElem_replicate]
      exact BitVec.le_def.mpr (Nat.zero_le _)
    have hready : q.ready c i = true := by
      have hbit' : bitOf (q.enable.get c) i = true := hbit
      unfold ready
      rw [hpending, hclaimed, hbit', decide_eq_true hthreshold]
      rfl
    refine ⟨q, rfl, ?_⟩
    have hfold := arbitrate_only hready (by rw [hprio, if_pos rfl]; decide)
      (fun j hj => by rw [hprio, if_neg hj]) (List.range' 1 nrSource) (0, 0) (.inl rfl)
      (.inl (List.mem_range'_1.mpr ⟨hpos, by omega⟩))
    exact congrArg Prod.snd hfold

theorem read_enable (p : PLIC nrSource nrContext) (c : Fin nrContext) (w : Nat) :
    (Register.enable c w).read p = (p.enable.get c)[w]? := by
  show p.enable[c.val]?.bind (·[w]?) = _
  rw [Vector.getElem?_eq_getElem c.isLt]
  rfl

/-- The bit of a source is in the enable word of its number. -/
theorem bitOf_read (p : PLIC nrSource nrContext) (c : Fin nrContext) (i : Nat) :
    bitOf (p.enable.get c) i =
      (((Register.enable c (i / 32)).read p).getD 0).getLsbD (i % 32) := by
  rw [read_enable]
  rfl

/-- Setting the bit of the source in the word that the manual has for it makes the source visible
to the context and no other. -/
def EnablesExactly (nrSource : Nat) {nrContext : Nat} (c : Fin nrContext) (i : Nat) : Prop :=
  ∀ p : PLIC nrSource nrContext, ∃ v q,
    p.load (Register.enable c (i / 32)).addr 4 = .ok ((.success, some v), p) ∧
    p.store (Register.enable c (i / 32)).addr 4 (v ||| 1#32 <<< (i % 32)) = .ok (.success, q) ∧
    ∀ j, 1 ≤ j → j ≤ nrSource → (VisibleTo q c j ↔ j = i ∨ VisibleTo p c j)

theorem standard_enable (hle : i ≤ nrSource) (hi : i < 1024) (hc : c.val < 15872) :
    (Register.enable c (i / 32)).Standard nrSource nrContext := by
  refine ⟨c.isLt, hc, ?_, ?_⟩
  · unfold words
    omega
  · omega

theorem enables_low (hle : i ≤ nrSource) (hi : i < 32) (hc : c.val < 15872) :
    EnablesExactly nrSource c i := by
  have hfirst : i / 32 = 0 := by omega
  have hstandard := standard_enable hle (by omega) hc
  unfold EnablesExactly
  rw [hfirst] at hstandard ⊢
  intro p
  obtain ⟨hload, hstore⟩ := mapped_enable hstandard p
  obtain ⟨v, hread⟩ : ∃ v, (Register.enable c 0).read p = some v :=
    ⟨_, (read_enable p c 0).trans (Vector.getElem?_eq_getElem (words_pos nrSource))⟩
  obtain ⟨q, hq, hreplaces⟩ := hstore trivial (v ||| 1#32 <<< (i % 32))
  refine ⟨v, q, by rw [hload, hread], hq, fun j hj hjle => ?_⟩
  rw [visibleTo_iff hj hjle, visibleTo_iff hj hjle, bitOf_read, bitOf_read]
  by_cases hw : j / 32 = 0
  · have hmod : i % 32 < 32 := Nat.mod_lt _ (by decide)
    have hji : j % 32 = i % 32 ↔ j = i := by omega
    rw [hw, hreplaces.written, hread, Option.getD_some, Option.getD_some, BitVec.getLsbD_or,
      ← BitVec.twoPow_eq, BitVec.getLsbD_twoPow]
    simp only [hmod, decide_true, Bool.true_and, Bool.or_eq_true, decide_eq_true_eq,
      eq_comm (a := i % 32), hji]
    exact or_comm
  · have hne : Register.enable c (j / 32) ≠ Register.enable c 0 := by
      intro heq
      injection heq with _ hzero
      exact hw hzero
    have hji : j ≠ i := by omega
    rw [hreplaces.others _ hne, or_iff_right hji]

/-- A source from 32 on cannot be enabled. -/
theorem enables_not_high (hpos : 32 ≤ i) (hle : i ≤ nrSource) (hi : i < 1024)
    (hc : c.val < 15872) : ¬ EnablesExactly nrSource c i := by
  intro h
  have hstandard := standard_enable (c := c) hle hi hc
  obtain ⟨v, q, -, hstore, hvisible⟩ := h (PLIC.init nrSource nrContext)
  have hsame : (Register.enable c (i / 32)).read q =
      (Register.enable c (i / 32)).read (PLIC.init nrSource nrContext) :=
    store_other_word hstandard (by omega) _ _ _ hstore
  have hset := (visibleTo_iff (by omega) hle).mp ((hvisible i (by omega) hle).mpr (.inl rfl))
  have hzero : (Register.enable c (i / 32)).read (PLIC.init nrSource nrContext) = some 0 := by
    obtain ⟨hlt, -, hw, -⟩ := hstandard
    simp only [Register.read, PLIC.init]
    rw [Vector.getElem?_replicate, if_pos hlt, Option.bind_some, Vector.getElem?_replicate,
      if_pos hw]
  rw [bitOf_read, hsame, hzero] at hset
  simp at hset

end Visible

/-- For each register that the manual has an offset for: it is where it belongs unless it is an
enable word behind the first of its context, and a source can be enabled alone when its number is
below 32. -/
theorem register_map (nrSource nrContext : Nat) :
    (∀ r : Register, r.Standard nrSource nrContext → (∀ c, r ≠ .claim c) →
      (r.Mapped nrSource nrContext ↔ ∀ c w, r = .enable c w → w = 0)) ∧
    ∀ (c : Fin nrContext) i, c.val < 15872 → 1 ≤ i → i ≤ nrSource → i < 1024 →
      (EnablesExactly nrSource c i ↔ i < 32) := by
  refine ⟨fun r h hr => mapped_iff h hr, fun c i hc hpos hle hi => ⟨fun h => ?_, fun hlow => ?_⟩⟩
  · exact Nat.lt_of_not_le fun hhigh => enables_not_high hhigh hle hi hc h
  · exact enables_low hle hlow hc

/-- With 40 sources, source 32 is not enabled by setting bit 0 of the second enable word. -/
theorem source_32_unreachable :
    ¬ ∀ (nrSource nrContext : Nat) (c : Fin nrContext) i, 1 ≤ nrSource → c.val < 15872 → 1 ≤ i →
      i ≤ nrSource → i < 1024 → EnablesExactly nrSource c i := by
  intro hall
  have h := hall 40 1 0 32 (by decide) (by decide) (by decide) (by decide) (by decide)
  exact enables_not_high (by decide) (by decide) (by decide) (by decide) h

end NextEmu.Device.PLICMap
