import NextEmu.Device.PLICMap

/-!
# What the interrupt controller rejects

The two gaps of the map are answered with `FB_OUT_OF_RANGE`. The other addresses without
a register get `return false`, which is the code of success, or are taken for one of the
registers around them, and some of the registers lead out of their array.
-/

namespace NextEmu.Device.PLICRejects

open NextEmu.Sdk PLIC PLICClaims PLICMap PLICRegions

/-- An access of four bytes. -/
inductive Access
  | load
  | store (v : BitVec 32)
  deriving DecidableEq, Repr

variable {nrSource nrContext : Nat}

/-- The code that an access returns, and the controller after it. -/
def perform (p : PLIC nrSource nrContext) (a : BitVec 64) :
    Access → Except Fault (Feedback × PLIC nrSource nrContext)
  | .load => (p.load a 4).map fun r => (r.1.1, r.2)
  | .store v => p.store a 4 v

/-- The controller has the register at the place `x` of the map. -/
def RegisterAt (nrSource nrContext x : Nat) (r : Register) : Prop :=
  r.Standard nrSource nrContext ∧ x = r.offset

/-- The access stays in the arrays. If there is no register at `x`, it is answered with another
code than that of success and changes nothing. -/
def Handled (p : PLIC nrSource nrContext) (a : BitVec 64) (x : Nat) (access : Access) : Prop :=
  ∃ fb q, perform p a access = .ok (fb, q) ∧
    ((∀ r, ¬ RegisterAt nrSource nrContext x r) → fb ≠ .success ∧ q = p)

/-- The addresses that the code answers with `FB_OUT_OF_RANGE`: the gap between the pending and
the enable bits, and what is not used in the page of a context, one page behind the last
included. -/
def Refused (nrContext : Nat) (a : BitVec 64) : Prop :=
  0x1080 < offset a + 4 ∧ offset a + 4 ≤ 0x2000 ∨
    0x200000 ≤ offset a ∧ (offset a - 0x200000) / 0x1000 ≤ nrContext ∧
      offset a % 0x1000 ≠ 0 ∧ offset a % 0x1000 ≠ 4

/-- The index that the code computes for the register is inside its array. -/
def InArrays (nrSource : Nat) : Access → Register → Prop
  | _, .enable _ w => 4 * w < words nrSource
  | .store v, .claim _ => idWord v < words nrSource
  | _, _ => True

/-- What the claim registers cache has a word to be marked in. -/
def CachedInside (p : PLIC nrSource nrContext) : Prop :=
  ∀ (c : Nat) (v : BitVec 32), p.claim[c]? = some v → idWord v < words nrSource

/-! ## The claim registers -/

section Cached

variable {p q : PLIC nrSource nrContext} {a : BitVec 64} {v : BitVec 32}

/-- The arbitration selects one of its sources. -/
theorem arbitrate_mem {c : Fin nrContext} (l : List Nat) (best : BitVec 32 × Nat) :
    (l.foldl (p.arbitrate c) best).2 = best.2 ∨ (l.foldl (p.arbitrate c) best).2 ∈ l := by
  induction l generalizing best with
  | nil => exact .inl rfl
  | cons i l ih =>
    rw [List.foldl_cons]
    rcases ih (p.arbitrate c best i) with h | h
    · rw [h]
      unfold arbitrate
      split
      · split
        · exact .inr List.mem_cons_self
        · exact .inl rfl
      · exact .inl rfl
    · exact .inr (List.mem_cons_of_mem _ h)

/-- What `get_int` caches is a source. -/
theorem getInt_cached {c : Fin nrContext} (h : CachedInside p) :
    CachedInside (p.getInt c).2 := by
  intro i v hv
  have hset : (p.getInt c).2.claim = p.claim.set c (if selected p c ≠ 0 then
    BitVec.ofNat 32 (selected p c) else 0) := rfl
  rw [hset, Vector.getElem?_set] at hv
  split at hv
  · cases hv
    have hle : selected p c ≤ nrSource := by
      rcases arbitrate_mem (p := p) (c := c) (List.range' 1 nrSource) (0, 0) with hzero | hmem
      · exact Nat.le_trans (Nat.le_of_eq hzero) (Nat.zero_le _)
      · have hlt := (List.mem_range'_1.mp hmem).2
        exact Nat.le_of_lt_succ (by rwa [Nat.add_comm] at hlt)
    have hmod : selected p c % 2 ^ 32 ≤ selected p c := Nat.mod_le _ _
    split
    · unfold idWord words
      rw [BitVec.toNat_ofNat]
      omega
    · exact words_pos nrSource
  · exact h i v hv

theorem tick_cached (h : CachedInside p) : CachedInside p.tick := by
  unfold PLIC.tick
  induction List.finRange nrContext generalizing p with
  | nil => exact h
  | cons c rest ih => exact ih fun i v hv => getInt_cached (c := c) h i v hv

theorem apply_cached {op : PlicOp} (h : CachedInside p) (hop : apply p op = .ok q) :
    CachedInside q := by
  have hkeep : q.claim = p.claim → CachedInside q := fun heq c v hv => h c v (heq ▸ hv)
  cases op with
  | setInt sourceId fired => exact hkeep (setInt_frame sourceId fired q hop).1
  | tick =>
    cases hop
    exact tick_cached h
  | load a =>
    obtain ⟨r, hload, rfl⟩ := except_map_ok hop
    exact hkeep (load_frame p a r hload).1
  | store a data =>
    obtain ⟨r, hstore, rfl⟩ := except_map_ok hop
    exact hkeep (store_frame p a data r hstore).1

theorem fold_cached {ops : List PlicOp} (h : CachedInside p) (hrun : ops.foldlM apply p = .ok q) :
    CachedInside q := by
  induction ops generalizing p with
  | nil =>
    cases hrun
    exact h
  | cons op ops ih =>
    rw [List.foldlM_cons] at hrun
    obtain ⟨p₁, h₁, hrest⟩ := except_bind_ok hrun
    exact ih (apply_cached h h₁) hrest

theorem run_cached {ops : List PlicOp} (h : run nrSource nrContext ops = .ok p) :
    CachedInside p := by
  refine fold_cached (fun c v hv => ?_) h
  simp only [PLIC.init, Vector.getElem?_replicate] at hv
  split at hv <;> cases hv
  exact words_pos nrSource

end Cached

/-! ## The answers -/

section Answers

variable {p : PLIC nrSource nrContext} {a : BitVec 64} {access : Access}

theorem returns_map {α γ : Type} {post : γ → Prop} {f : α → γ} {x : Except Fault α}
    (h : Returns (fun r => post (f r)) x) : Returns post (x.map f) := by
  intro b hb
  obtain ⟨r, hr, rfl⟩ := except_map_ok hb
  exact h r hr

theorem perform_success (h : offset a + 4 ≤ 0x1080 ∨
    0x2000 < offset a + 4 ∧ offset a + 4 ≤ 0x200000) :
    Returns (fun r => r.1 = .success) (perform p a access) := by
  cases access with
  | load => exact returns_map (load_success h)
  | store v => exact store_success h

theorem perform_gap (hlo : 0x1080 < offset a + 4) (hhi : offset a + 4 ≤ 0x2000) :
    perform p a access = .ok (.outOfRange, p) := by
  cases access with
  | load =>
    unfold perform
    rw [load_gap hlo hhi]
    rfl
  | store v => exact store_gap hlo hhi

/-- Of a context that the code looks for, the registers are answered with `FB_SUCCESS`. -/
theorem perform_context_success (hend : 0x200000 < offset a + 4)
    (h : (a % 0x4000000 - 0x200000).toNat / 0x1000 > nrContext ∨ offset a % 0x1000 = 0 ∨
      offset a % 0x1000 = 4) :
    Returns (fun r => r.1 = .success) (perform p a access) := by
  cases access with
  | load =>
    refine returns_map ?_
    rw [load_context hend rfl]
    refine returns_ite (fun _ => returns_ok rfl) fun hctx => ?_
    refine returns_ite (fun _ => returns_bind fun v => returns_ok rfl) fun h0 => ?_
    refine returns_ite (fun _ => ?_) fun h4 => ?_
    · exact returns_bind fun v => returns_bind fun w => returns_bind fun claimed => returns_ok rfl
    · rcases h with h | h | h
      · exact absurd h hctx
      · exact absurd h h0
      · exact absurd h h4
  | store v =>
    show Returns _ (p.store a 4 v)
    rw [store_context hend rfl]
    refine returns_ite (fun _ => returns_ok rfl) fun hctx => ?_
    refine returns_ite (fun _ => returns_bind fun threshold => returns_ok rfl) fun h0 => ?_
    refine returns_ite (fun _ => ?_) fun h4 => ?_
    · exact returns_bind fun w => returns_bind fun claimed => returns_bind fun u =>
        returns_bind fun pending => returns_ok rfl
    · rcases h with h | h | h
      · exact absurd h hctx
      · exact absurd h h0
      · exact absurd h h4

theorem perform_context_gap (hbase : 0x200000 ≤ offset a)
    (hctx : (offset a - 0x200000) / 0x1000 ≤ nrContext) (h0 : offset a % 0x1000 ≠ 0)
    (h4 : offset a % 0x1000 ≠ 4) : perform p a access = .ok (.outOfRange, p) := by
  have hend : 0x200000 < offset a + 4 := by omega
  have hsub : (a % 0x4000000 - 0x200000).toNat / 0x1000 = (offset a - 0x200000) / 0x1000 :=
    congrArg (· / 0x1000) (toNat_sub_base hbase)
  have hnot : ¬ (offset a - 0x200000) / 0x1000 > nrContext := Nat.not_lt.mpr hctx
  cases access with
  | load =>
    unfold perform
    rw [load_context hend hsub, if_neg hnot, if_neg h0, if_neg h4]
    rfl
  | store v =>
    show p.store a 4 v = _
    rw [store_context hend hsub, if_neg hnot, if_neg h0, if_neg h4]

theorem refused_handled (h : Refused nrContext a) (x : Nat) : Handled p a x access := by
  rcases h with ⟨hlo, hhi⟩ | ⟨hbase, hctx, h0, h4⟩
  · exact ⟨_, _, perform_gap hlo hhi, fun _ => ⟨by decide, rfl⟩⟩
  · exact ⟨_, _, perform_context_gap hbase hctx h0 h4, fun _ => ⟨by decide, rfl⟩⟩

/-- Everything else that returns answers `FB_SUCCESS`. -/
theorem refused_of_rejected (hc : nrContext < 2 ^ 31) {fb : Feedback}
    {q : PLIC nrSource nrContext} (h : perform p a access = .ok (fb, q)) (hfb : fb ≠ .success) :
    Refused nrContext a := by
  by_cases hlow : offset a + 4 ≤ 0x1080 ∨ 0x2000 < offset a + 4 ∧ offset a + 4 ≤ 0x200000
  · exact absurd (perform_success hlow _ h) hfb
  by_cases hgap : offset a + 4 ≤ 0x2000
  · exact .inl ⟨by omega, hgap⟩
  have hend : 0x200000 < offset a + 4 := by omega
  have hcontext : ¬ ((a % 0x4000000 - 0x200000).toNat / 0x1000 > nrContext ∨
      offset a % 0x1000 = 0 ∨ offset a % 0x1000 = 4) :=
    fun hs => hfb (perform_context_success hend hs _ h)
  rw [not_or, not_or, Nat.not_lt] at hcontext
  obtain ⟨hctx, h0, h4⟩ := hcontext
  have hbase : 0x200000 ≤ offset a := by
    refine Nat.le_of_not_lt fun hlt => ?_
    have hwraps : (a % 0x4000000 - 0x200000).toNat = offset a + 2 ^ 64 - 0x200000 :=
      toNat_sub_wraps hlt
    rw [hwraps] at hctx
    omega
  have hsub : (a % 0x4000000 - 0x200000).toNat = offset a - 0x200000 := toNat_sub_base hbase
  rw [hsub] at hctx
  exact .inr ⟨hbase, hctx, h0, h4⟩

/-- The answer depends on the place of the address only. -/
theorem perform_congr {b : BitVec 64} (h : offset a = offset b) :
    perform p a access = perform p b access := by
  have hstart : a % 0x4000000 = b % 0x4000000 := by
    refine BitVec.eq_of_toNat_eq ?_
    rw [toNat_start, toNat_start, h]
  cases access with
  | load =>
    unfold perform PLIC.load
    rw [hstart]
  | store v =>
    unfold perform PLIC.store
    rw [hstart]

end Answers

/-! ## The registers -/

section Registers

variable {p : PLIC nrSource nrContext} {access : Access}

/-- What is where it belongs can be accessed. -/
theorem mapped_returns {r : Register} (h : r.Mapped nrSource nrContext)
    (hwritable : access = .load ∨ r.Writable) :
    ∃ y, perform p r.addr access = .ok y := by
  cases access with
  | load =>
    refine ⟨(.success, p), ?_⟩
    unfold perform
    rw [(h p).1]
    rfl
  | store v =>
    obtain ⟨q, hstore, -⟩ := (h p).2 (hwritable.resolve_left nofun) v
    exact ⟨_, hstore⟩

theorem pending_returns {w : Nat} (h : (Register.pending w).Standard nrSource nrContext) :
    ∃ y, perform p (Register.pending w).addr access = .ok y := by
  cases access with
  | load => exact mapped_returns (mapped_pending h) (.inl rfl)
  | store v =>
    have hoff : offset (Register.pending w).addr = 0x1000 + 4 * w := standard_offset h
    obtain ⟨-, hhi⟩ := h
    exact ⟨_, store_pending (by omega) (by omega)⟩

/-- The number of an enable word is taken for its byte offset. -/
theorem enable_returns {c w : Nat} (h : (Register.enable c w).Standard nrSource nrContext) :
    (∃ y, perform p (Register.enable c w).addr access = .ok y) ↔ 4 * w < words nrSource := by
  obtain ⟨hoff, hpos, hend, hc⟩ := enable_offset h
  have hle := le_of_lt_words h.2.2.1
  by_cases hw : 4 * w < words nrSource
  · refine iff_of_true ?_ hw
    cases access with
    | load =>
      refine ⟨(.success, p), ?_⟩
      unfold perform
      rw [load_enable hoff hpos hend hc hw]
      rfl
    | store v => exact ⟨_, store_enable hoff hpos hend hc hw⟩
  · refine iff_of_false ?_ hw
    have hin : 4 * w ≤ nrSource := by omega
    rintro ⟨y, hy⟩
    cases access with
    | load =>
      unfold perform at hy
      rw [load_enable_leaves hoff hpos hend hc hin (Nat.le_of_not_lt hw)] at hy
      cases hy
    | store v =>
      have hstore : p.store (Register.enable c w).addr 4 v = .ok y := hy
      rw [store_enable_leaves hoff hpos hend hc hin (Nat.le_of_not_lt hw)] at hstore
      cases hstore

/-- A claim finds the word of what is cached; a complete only that of an id that has one. -/
theorem claim_returns {c : Nat} (h : (Register.claim c).Standard nrSource nrContext)
    (hcached : CachedInside p) :
    (∃ y, perform p (Register.claim c).addr access = .ok y) ↔
      InArrays nrSource access (.claim c) := by
  have hoff : offset (Register.claim c).addr = 0x200000 + 0x1000 * c + 4 := standard_offset h
  obtain ⟨hc, -⟩ := h
  have hend : 0x200000 < offset (Register.claim c).addr + 4 := by omega
  have hsub : ((Register.claim c).addr % 0x4000000 - 0x200000).toNat =
      offset (Register.claim c).addr - 0x200000 := by
    refine toNat_sub_base ?_
    show 0x200000 ≤ _
    omega
  have hctx : ((Register.claim c).addr % 0x4000000 - 0x200000).toNat / 0x1000 = c := by
    rw [hsub, hoff]
    omega
  have hnot : ¬ c > nrContext := by omega
  have h0 : ¬ offset (Register.claim c).addr % 0x1000 = 0 := by omega
  have h4 : offset (Register.claim c).addr % 0x1000 = 4 := by omega
  cases access with
  | load =>
    refine iff_of_true ?_ trivial
    have hword : idWord p.claim[c] < words nrSource :=
      hcached c _ (Vector.getElem?_eq_getElem hc)
    unfold perform
    rw [load_context hend hctx, if_neg hnot, if_neg h0, if_pos h4, readAt_eq hc, except_ok_bind,
      readAt_eq hword, except_ok_bind, writeAt_eq hword, except_ok_bind]
    exact ⟨_, rfl⟩
  | store v =>
    show (∃ y, p.store _ 4 v = .ok y) ↔ idWord v < words nrSource
    rw [store_context hend hctx, if_neg hnot, if_neg h0, if_pos h4]
    by_cases hword : idWord v < words nrSource
    · refine iff_of_true ?_ hword
      rw [readAt_eq hword, except_ok_bind, writeAt_eq hword, except_ok_bind, readAt_eq hword,
        except_ok_bind, writeAt_eq hword, except_ok_bind]
      exact ⟨_, rfl⟩
    · refine iff_of_false ?_ hword
      rintro ⟨y, hy⟩
      obtain ⟨w, hw, -⟩ := except_bind_ok hy
      exact hword (readAt_ok hw).1

theorem register_returns {r : Register} (h : r.Standard nrSource nrContext)
    (hcached : CachedInside p) :
    (∃ y, perform p r.addr access = .ok y) ↔ InArrays nrSource access r := by
  have htrue : access = .load ∨ r.Writable → r.Mapped nrSource nrContext →
      ∃ y, perform p r.addr access = .ok y := fun hw hm => mapped_returns hm hw
  cases r with
  | priority i =>
    refine iff_of_true (htrue (.inr trivial) (mapped_priority h)) ?_
    cases access <;> trivial
  | pending w =>
    refine iff_of_true (pending_returns h) ?_
    cases access <;> trivial
  | enable c w =>
    refine (enable_returns h).trans ?_
    cases access <;> rfl
  | threshold c =>
    refine iff_of_true (htrue (.inr trivial) (mapped_threshold h)) ?_
    cases access <;> trivial
  | claim c => exact claim_returns h hcached

end Registers

/-- After any run an access is handled exactly when the code refuses the address, or finds the
register there inside its array. The place of an address is the address or, as the device
repeats every `0x4000000` bytes, what is left of it. -/
theorem rejects_iff {ops : List PlicOp} {p : PLIC nrSource nrContext}
    (h : run nrSource nrContext ops = .ok p) (hc : nrContext < 2 ^ 31) (a : BitVec 64) {x : Nat}
    (hx : x = a.toNat ∨ x = offset a) (access : Access) :
    Handled p a x access ↔ Refused nrContext a ∨
      ∃ r, RegisterAt nrSource nrContext x r ∧ InArrays nrSource access r := by
  have hreturns : ∀ r, RegisterAt nrSource nrContext x r →
      ((∃ y, perform p a access = .ok y) ↔ InArrays nrSource access r) := by
    rintro r ⟨hstandard, rfl⟩
    have hoff := standard_offset hstandard
    have hplace : offset a = offset r.addr := by
      have hlt := offset_lt r.addr
      rcases hx with hx | hx
      · rw [hoff] at hlt ⊢
        unfold offset
        rw [← hx, Nat.mod_eq_of_lt hlt]
      · rw [hoff, hx]
    rw [perform_congr hplace]
    exact register_returns hstandard (run_cached h)
  constructor
  · rintro ⟨fb, q, hperform, hrejects⟩
    by_cases hexists : ∃ r, RegisterAt nrSource nrContext x r
    · obtain ⟨r, hr⟩ := hexists
      exact .inr ⟨r, hr, (hreturns r hr).mp ⟨_, hperform⟩⟩
    · have hnone : ∀ r, ¬ RegisterAt nrSource nrContext x r := fun r hr => hexists ⟨r, hr⟩
      exact .inl (refused_of_rejected hc hperform (hrejects hnone).1)
  · rintro (hrefused | ⟨r, hr, hin⟩)
    · exact refused_handled hrefused x
    · obtain ⟨⟨fb, q⟩, hperform⟩ := (hreturns r hr).mpr hin
      exact ⟨fb, q, hperform, fun hnone => absurd hr (hnone r)⟩

/-- Of four sources and four contexts, a load between the pending and the enable bits. -/
theorem rejects_iff_gap : Handled (PLIC.init 4 4) 0x1100 0x1100 .load :=
  have hrun : run 4 4 [] = .ok (PLIC.init 4 4) := rfl
  (rejects_iff hrun (by decide) 0x1100 (.inl rfl) .load).mpr (.inl (.inl ⟨by decide, by decide⟩))

/-- A load of source 0, which has no priority, is answered with success. -/
theorem source_0_answered : ¬ ∀ (nrSource nrContext : Nat) (a : BitVec 64) (access : Access),
    Handled (PLIC.init nrSource nrContext) a a.toNat access := by
  intro hall
  obtain ⟨fb, q, hperform, hrejects⟩ := hall 4 4 0 .load
  have hnone : ∀ r, ¬ RegisterAt 4 4 (0 : BitVec 64).toNat r := by
    rintro r ⟨hstandard, hoff⟩
    have hzero : (0 : BitVec 64).toNat = 0 := rfl
    rw [hzero] at hoff
    cases r <;> simp only [Register.Standard, Register.offset] at hstandard hoff <;> omega
  refine (hrejects hnone).1 ?_
  have hload : perform (PLIC.init 4 4) 0 .load = .ok (.success, PLIC.init 4 4) := rfl
  rw [hload] at hperform
  cases hperform
  rfl

end NextEmu.Device.PLICRejects
