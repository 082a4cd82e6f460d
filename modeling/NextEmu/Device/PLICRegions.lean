import NextEmu.Device.PLICClaims

/-!
# The regions of the interrupt controller

`load` and `store` take an address modulo `0x4000000` and look for its region by where
the access ends. What they do in each region is said here once, at the offsets where
the subtraction of the region's base does not wrap.
-/

namespace NextEmu.Device.PLICRegions

open NextEmu.Sdk PLIC PLICClaims

/-- `start_addr % 0x4000000`. -/
def offset (a : BitVec 64) : Nat := a.toNat % 0x4000000

/-! ## Addresses as numbers -/

section Numbers

variable {a base : BitVec 64}

theorem offset_lt (a : BitVec 64) : offset a < 0x4000000 := Nat.mod_lt _ (by decide)

theorem toNat_start (a : BitVec 64) : (a % 0x4000000).toNat = offset a := BitVec.toNat_umod

theorem toNat_stop (a : BitVec 64) : (a % 0x4000000 + 4).toNat = offset a + 4 := by
  have hlt := offset_lt a
  have hfour : BitVec.toNat (4 : BitVec 64) = 4 := rfl
  rw [BitVec.toNat_add, toNat_start, hfour, Nat.mod_eq_of_lt (by omega)]

theorem toNat_sub_base (h : base.toNat ≤ offset a) :
    (a % 0x4000000 - base).toNat = offset a - base.toNat := by
  have hlt := offset_lt a
  rw [BitVec.toNat_sub, toNat_start]
  omega

/-- Below the base the difference is close to 2^64. -/
theorem toNat_sub_wraps (h : offset a < base.toNat) :
    (a % 0x4000000 - base).toNat = offset a + 2 ^ 64 - base.toNat := by
  have hlt := offset_lt a
  have hbase := base.isLt
  rw [BitVec.toNat_sub, toNat_start]
  omega

theorem words_pos (nrSource : Nat) : 0 < words nrSource := by
  unfold words
  omega

/-- A word of the controller has the sources of 32 bits. -/
theorem le_of_lt_words {nrSource w : Nat} (h : w < words nrSource) : 32 * w ≤ nrSource := by
  unfold words at h
  omega

end Numbers

section Regions

variable {nrSource nrContext : Nat} {p : PLIC nrSource nrContext} {a : BitVec 64} {v : BitVec 32}

/-! ## Loads -/

/-- Of the registers below the contexts' a load that returns always answers `FB_SUCCESS`. -/
theorem load_success (h : offset a + 4 ≤ 0x1080 ∨
    0x2000 < offset a + 4 ∧ offset a + 4 ≤ 0x200000) :
    Returns (fun r => r.1.1 = .success) (p.load a 4) := by
  unfold PLIC.load
  dsimp only
  rw [toNat_stop]
  refine returns_ite (fun _ => returns_error _) fun _ => ?_
  refine returns_ite (fun _ => ?_) fun _ => ?_
  · refine returns_ite (fun _ => returns_ok rfl) fun _ => ?_
    refine returns_ite (fun _ => returns_ok rfl) fun _ => ?_
    exact returns_bind fun v => returns_ok rfl
  refine returns_ite (fun _ => ?_) fun h2 => ?_
  · refine returns_ite (fun _ => returns_ok rfl) fun _ => ?_
    exact returns_bind fun v => returns_ok rfl
  refine returns_ite (fun h3 => ?_) fun _ => ?_
  · rcases h with h | h
    · exact absurd h h2
    · exact absurd h3 (Nat.not_le.mpr h.1)
  refine returns_ite (fun _ => ?_) fun h4 => ?_
  · refine returns_ite (fun _ => returns_ok rfl) fun _ => ?_
    refine returns_ite (fun _ => returns_ok rfl) fun _ => ?_
    exact returns_bind fun row => returns_bind fun v => returns_ok rfl
  · rcases h with h | h
    · exact absurd h h2
    · exact absurd h.2 h4

theorem load_priority (hend : offset a + 4 ≤ 0x1000) (hpos : offset a ≠ 0)
    (hle : offset a ≤ 4 * nrSource) :
    p.load a 4 = .ok ((.success, p.priority[offset a / 4]?), p) := by
  have hindex : offset a / 4 < nrSource + 1 := by omega
  have hin : ¬ (offset a > 4 * nrSource ∨ offset a + 4 > 4 * (nrSource + 1)) := by omega
  unfold PLIC.load
  dsimp only
  rw [toNat_stop, toNat_start, if_neg fun h => h rfl, if_pos hend, if_neg hpos, if_neg hin,
    readAt_eq hindex, Vector.getElem?_eq_getElem hindex]
  rfl

theorem load_pending (hbase : 0x1000 ≤ offset a) (hend : offset a + 4 ≤ 0x1080)
    (hw : (offset a - 0x1000) / 4 < words nrSource) :
    p.load a 4 = .ok ((.success, p.pending[(offset a - 0x1000) / 4]?), p) := by
  have hle := le_of_lt_words hw
  have hnot : ¬ offset a + 4 ≤ 0x1000 := by omega
  have hin : ¬ (offset a - 0x1000) / 4 > nrSource := by omega
  have hsub : (a % 0x4000000 - 0x1000).toNat = offset a - 0x1000 := toNat_sub_base hbase
  unfold PLIC.load
  dsimp only
  rw [toNat_stop, hsub, if_neg fun h => h rfl, if_neg hnot, if_pos hend, if_neg hin,
    readAt_eq hw, Vector.getElem?_eq_getElem hw]
  rfl

theorem load_gap (hlo : 0x1080 < offset a + 4) (hhi : offset a + 4 ≤ 0x2000) :
    p.load a 4 = .ok ((.outOfRange, none), p) := by
  have h1 : ¬ offset a + 4 ≤ 0x1000 := by omega
  have h2 : ¬ offset a + 4 ≤ 0x1080 := by omega
  unfold PLIC.load
  dsimp only
  rw [toNat_stop, if_neg fun h => h rfl, if_neg h1, if_neg h2, if_pos hhi]
  rfl

/-- The enable bits of a context, at a byte offset. -/
theorem load_row {c pos : Nat} (hoff : offset a = 0x2000 + 0x80 * c + pos) (hpos : pos < 0x80)
    (hend : offset a + 4 ≤ 0x200000) (hc : c < nrContext) :
    p.load a 4 = if pos > nrSource then .ok ((.success, none), p) else do
      let row ← readAt p.enable c (.enable c pos)
      let v ← readAt row pos (.enable c pos)
      return ((.success, some v), p) := by
  have hsub : (a % 0x4000000 - 0x2000).toNat = offset a - 0x2000 :=
    toNat_sub_base (by rw [hoff]; exact Nat.le_trans (Nat.le_add_right _ _) (Nat.le_add_right _ _))
  have hctx : (offset a - 0x2000) / 0x80 = c := by omega
  have hmod : offset a % 0x80 = pos := by omega
  have h1 : ¬ offset a + 4 ≤ 0x1000 := by omega
  have h2 : ¬ offset a + 4 ≤ 0x1080 := by omega
  have h3 : ¬ offset a + 4 ≤ 0x2000 := by omega
  unfold PLIC.load
  dsimp only
  rw [toNat_stop, toNat_start, hsub, hctx, hmod, if_neg fun h => h rfl, if_neg h1, if_neg h2,
    if_neg h3, if_pos hend, if_neg (Nat.not_le.mpr hc)]
  rfl

theorem load_enable {c pos : Nat} (hoff : offset a = 0x2000 + 0x80 * c + pos) (hpos : pos < 0x80)
    (hend : offset a + 4 ≤ 0x200000) (hc : c < nrContext) (hw : pos < words nrSource) :
    p.load a 4 = .ok ((.success, p.enable[c]?.bind (·[pos]?)), p) := by
  have hle := le_of_lt_words hw
  have hin : ¬ pos > nrSource := by omega
  rw [load_row hoff hpos hend hc, if_neg hin, readAt_eq hc, except_ok_bind, readAt_eq hw,
    except_ok_bind, Vector.getElem?_eq_getElem hc, Option.bind_some,
    Vector.getElem?_eq_getElem hw]
  rfl

theorem load_enable_leaves {c pos : Nat} (hoff : offset a = 0x2000 + 0x80 * c + pos)
    (hpos : pos < 0x80) (hend : offset a + 4 ≤ 0x200000) (hc : c < nrContext)
    (hin : pos ≤ nrSource) (hw : words nrSource ≤ pos) :
    p.load a 4 = .error (.enable c pos) := by
  have hout : ¬ pos < words nrSource := Nat.not_lt.mpr hw
  rw [load_row hoff hpos hend hc, if_neg (Nat.not_lt.mpr hin), readAt_eq hc, except_ok_bind]
  unfold readAt
  rw [dif_neg hout]
  rfl

/-- The threshold and claim registers. -/
theorem load_context (hend : 0x200000 < offset a + 4) {c : Nat}
    (hc : (a % 0x4000000 - 0x200000).toNat / 0x1000 = c) :
    p.load a 4 = if c > nrContext then .ok ((.success, none), p)
      else if offset a % 0x1000 = 0 then do
        let v ← readAt p.threshold c (.threshold c)
        return ((.success, some v), p)
      else if offset a % 0x1000 = 4 then do
        let v ← readAt p.claim c (.claim c)
        let w ← readAt p.claimed (idWord v) (.claimed (idWord v))
        let claimed ← writeAt p.claimed (idWord v) (w ||| idBit v) (.claimed (idWord v))
        return ((.success, some v), { p with claimed := claimed })
      else .ok ((.outOfRange, none), p) := by
  have h1 : ¬ offset a + 4 ≤ 0x1000 := by omega
  have h2 : ¬ offset a + 4 ≤ 0x1080 := by omega
  have h3 : ¬ offset a + 4 ≤ 0x2000 := by omega
  have h4 : ¬ offset a + 4 ≤ 0x200000 := by omega
  unfold PLIC.load
  dsimp only
  rw [toNat_stop, toNat_start, hc, if_neg fun h => h rfl, if_neg h1, if_neg h2, if_neg h3,
    if_neg h4]
  rfl

/-! ## Stores -/

theorem store_success (h : offset a + 4 ≤ 0x1080 ∨
    0x2000 < offset a + 4 ∧ offset a + 4 ≤ 0x200000) :
    Returns (fun r => r.1 = .success) (p.store a 4 v) := by
  unfold PLIC.store
  dsimp only
  rw [toNat_stop]
  refine returns_ite (fun _ => ?_) fun _ => ?_
  · refine returns_ite (fun _ => returns_ok rfl) fun _ => ?_
    refine returns_ite (fun _ => returns_ok rfl) fun _ => ?_
    exact returns_bind fun priority => returns_ok rfl
  refine returns_ite (fun _ => returns_ok rfl) fun h2 => ?_
  refine returns_ite (fun h3 => ?_) fun _ => ?_
  · rcases h with h | h
    · exact absurd h h2
    · exact absurd h3 (Nat.not_le.mpr h.1)
  refine returns_ite (fun _ => ?_) fun h4 => ?_
  · refine returns_ite (fun _ => returns_ok rfl) fun _ => ?_
    refine returns_ite (fun _ => returns_ok rfl) fun _ => ?_
    exact returns_bind fun row => returns_bind fun row' => returns_bind fun enable =>
      returns_ok rfl
  · rcases h with h | h
    · exact absurd h h2
    · exact absurd h.2 h4

theorem store_priority (hend : offset a + 4 ≤ 0x1000) (hpos : offset a ≠ 0)
    (hle : offset a ≤ 4 * nrSource) (hindex : offset a / 4 < nrSource + 1) :
    p.store a 4 v =
      .ok (.success, { p with priority := p.priority.set (offset a / 4) v hindex }) := by
  have hin : ¬ (offset a > 4 * nrSource ∨ offset a + 4 > 4 * (nrSource + 1)) := by omega
  unfold PLIC.store
  dsimp only
  rw [toNat_stop, toNat_start, if_pos hend, if_neg hpos, if_neg hin, writeAt_eq hindex]
  rfl

/-- Pending bits are not written. -/
theorem store_pending (hlo : 0x1000 < offset a + 4) (hhi : offset a + 4 ≤ 0x1080) :
    p.store a 4 v = .ok (.success, p) := by
  unfold PLIC.store
  dsimp only
  rw [toNat_stop, if_neg (Nat.not_le.mpr hlo), if_pos hhi]
  rfl

theorem store_gap (hlo : 0x1080 < offset a + 4) (hhi : offset a + 4 ≤ 0x2000) :
    p.store a 4 v = .ok (.outOfRange, p) := by
  have h1 : ¬ offset a + 4 ≤ 0x1000 := by omega
  have h2 : ¬ offset a + 4 ≤ 0x1080 := by omega
  unfold PLIC.store
  dsimp only
  rw [toNat_stop, if_neg h1, if_neg h2, if_pos hhi]
  rfl

theorem store_row {c pos : Nat} (hoff : offset a = 0x2000 + 0x80 * c + pos) (hpos : pos < 0x80)
    (hend : offset a + 4 ≤ 0x200000) (hc : c < nrContext) :
    p.store a 4 v = if pos > nrSource then .ok (.success, p) else do
      let row ← readAt p.enable c (.enable c pos)
      let row ← writeAt row pos v (.enable c pos)
      let enable ← writeAt p.enable c row (.enable c pos)
      return (.success, { p with enable := enable }) := by
  have hsub : (a % 0x4000000 - 0x2000).toNat = offset a - 0x2000 :=
    toNat_sub_base (by rw [hoff]; exact Nat.le_trans (Nat.le_add_right _ _) (Nat.le_add_right _ _))
  have hctx : (offset a - 0x2000) / 0x80 = c := by omega
  have hmod : offset a % 0x80 = pos := by omega
  have h1 : ¬ offset a + 4 ≤ 0x1000 := by omega
  have h2 : ¬ offset a + 4 ≤ 0x1080 := by omega
  have h3 : ¬ offset a + 4 ≤ 0x2000 := by omega
  unfold PLIC.store
  dsimp only
  rw [toNat_stop, toNat_start, hsub, hctx, hmod, if_neg h1, if_neg h2, if_neg h3, if_pos hend,
    if_neg (Nat.not_le.mpr hc)]
  rfl

theorem store_enable {c pos : Nat} (hoff : offset a = 0x2000 + 0x80 * c + pos) (hpos : pos < 0x80)
    (hend : offset a + 4 ≤ 0x200000) (hc : c < nrContext) (hw : pos < words nrSource) :
    p.store a 4 v =
      .ok (.success, { p with enable := p.enable.set c (p.enable[c].set pos v hw) hc }) := by
  have hle := le_of_lt_words hw
  have hin : ¬ pos > nrSource := by omega
  rw [store_row hoff hpos hend hc, if_neg hin, readAt_eq hc, except_ok_bind, writeAt_eq hw,
    except_ok_bind, writeAt_eq hc, except_ok_bind]
  rfl

theorem store_enable_leaves {c pos : Nat} (hoff : offset a = 0x2000 + 0x80 * c + pos)
    (hpos : pos < 0x80) (hend : offset a + 4 ≤ 0x200000) (hc : c < nrContext)
    (hin : pos ≤ nrSource) (hw : words nrSource ≤ pos) :
    p.store a 4 v = .error (.enable c pos) := by
  have hout : ¬ pos < words nrSource := Nat.not_lt.mpr hw
  rw [store_row hoff hpos hend hc, if_neg (Nat.not_lt.mpr hin), readAt_eq hc, except_ok_bind]
  unfold writeAt
  rw [dif_neg hout]
  rfl

theorem store_context (hend : 0x200000 < offset a + 4) {c : Nat}
    (hc : (a % 0x4000000 - 0x200000).toNat / 0x1000 = c) :
    p.store a 4 v = if c > nrContext then .ok (.success, p)
      else if offset a % 0x1000 = 0 then do
        let threshold ← writeAt p.threshold c v (.threshold c)
        return (.success, { p with threshold := threshold })
      else if offset a % 0x1000 = 4 then do
        let w ← readAt p.claimed (idWord v) (.claimed (idWord v))
        let claimed ← writeAt p.claimed (idWord v) (w &&& ~~~ idBit v) (.claimed (idWord v))
        let u ← readAt p.pending (idWord v) (.pending (idWord v))
        let pending ← writeAt p.pending (idWord v) (u &&& ~~~ idBit v) (.pending (idWord v))
        return (.success, { p with claimed := claimed, pending := pending })
      else .ok (.outOfRange, p) := by
  have h1 : ¬ offset a + 4 ≤ 0x1000 := by omega
  have h2 : ¬ offset a + 4 ≤ 0x1080 := by omega
  have h3 : ¬ offset a + 4 ≤ 0x2000 := by omega
  have h4 : ¬ offset a + 4 ≤ 0x200000 := by omega
  unfold PLIC.store
  dsimp only
  rw [toNat_stop, toNat_start, hc, if_neg h1, if_neg h2, if_neg h3, if_neg h4]
  rfl

end Regions

end NextEmu.Device.PLICRegions
