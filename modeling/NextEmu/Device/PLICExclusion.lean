import NextEmu.Device.PLICArbitration
import NextEmu.Device.PLICClaims

/-!
# Exclusive claims of the interrupt controller

A load of a claim register returns what `get_int` has chosen for the context at the last tick, and
`get_int` passes over the sources that are claimed. So a source is returned again without a
completion only by two loads behind one tick, of contexts for which that tick has chosen the same
source: of one context twice, or of two. A tick between any two loads keeps the claims exclusive.
-/

namespace NextEmu.Device.PLICExclusion

open NextEmu.Lib.Arbiter NextEmu.Sdk
open PLIC PLICArbitration PLICClaims

variable {nrSource nrContext : Nat} {ops : List PlicOp}

/-! ## Loads and ticks -/

/-- Call `k` is a load of the claim register of a context. -/
def LoadsClaim (ops : List PlicOp) (k : Nat) (c : Fin nrContext) : Prop :=
  ∃ addr, ops[k]? = some (.load addr) ∧ claimContext nrContext addr = some c.val

/-- The last tick before call `k` is call `t`. -/
def Sees (ops : List PlicOp) (t k : Nat) : Prop :=
  t < k ∧ ops[t]? = some .tick ∧ ∀ l, t < l → l < k → ops[l]? ≠ some .tick

/-- When call `t` comes, source `i` is the first one with the greatest priority that passes for the
context. -/
def ChosenAt (nrSource : Nat) (ops : List PlicOp) (t : Nat) (c : Fin nrContext) (i : Nat) : Prop :=
  ∃ p : PLIC nrSource nrContext, run nrSource nrContext (ops.take t) = .ok p ∧
    First (Passes p c) (rank p) i

/-- Where two claim registers are loaded behind one tick, which found the same source for both, that
source is completed between the loads. -/
def Separate (nrSource nrContext : Nat) (ops : List PlicOp) : Prop :=
  ∀ (t j k i : Nat) (c d : Fin nrContext), j < k → Sees ops t j → Sees ops t k →
    LoadsClaim ops j c → LoadsClaim ops k d → (∃ q, run nrSource nrContext (ops.take k) = .ok q) →
    ChosenAt nrSource ops t c i → ChosenAt nrSource ops t d i →
    ∃ l, j < l ∧ l < k ∧ CompletesAt nrContext ops l (BitVec.ofNat 32 i)

/-! ## What a claim register caches -/

section Caches

variable {p q : PLIC nrSource nrContext} {a b t k i : Nat} {c : Fin nrContext}

/-- Only a tick renews the caches. -/
theorem apply_claim {op : PlicOp} (hop : op ≠ .tick) (h : apply p op = .ok q) :
    q.claim = p.claim := by
  cases op with
  | tick => exact absurd rfl hop
  | setInt sourceId fired => exact (setInt_frame sourceId fired q h).1
  | load addr =>
    obtain ⟨r, hload, rfl⟩ := except_map_ok h
    exact (load_frame p addr r hload).1
  | store addr data =>
    obtain ⟨r, hstore, rfl⟩ := except_map_ok h
    exact (store_frame p addr data r hstore).1

theorem claim_kept (hab : a ≤ b) (hno : ∀ l, a ≤ l → l < b → ops[l]? ≠ some .tick)
    (ha : run nrSource nrContext (ops.take a) = .ok p)
    (hb : run nrSource nrContext (ops.take b) = .ok q) : q.claim = p.claim := by
  induction b, hab using Nat.le_induction generalizing q with
  | base =>
    rw [ha] at hb
    cases hb
    rfl
  | succ b hab ih =>
    have hbefore : ∀ l, a ≤ l → l < b → ops[l]? ≠ some .tick := fun l hal hlb =>
      hno l hal (Nat.lt_succ_of_lt hlb)
    cases hop : ops[b]? with
    | none =>
      rw [take_succ_none hop] at hb
      exact ih hbefore hb
    | some op =>
      rw [run_succ hop] at hb
      obtain ⟨q', hq', happly⟩ := except_bind_ok hb
      have hne : op ≠ .tick := by
        rintro rfl
        exact hno b hab (Nat.lt_succ_self b) hop
      rw [apply_claim hne happly, ih hbefore hq']

/-- A run that has come to a call has come to every call before it. -/
theorem run_before (hab : a ≤ b) (hb : run nrSource nrContext (ops.take b) = .ok q) :
    ∃ p, run nrSource nrContext (ops.take a) = .ok p := by
  induction b, hab using Nat.le_induction generalizing q with
  | base => exact ⟨q, hb⟩
  | succ b hab ih =>
    cases hop : ops[b]? with
    | none =>
      rw [take_succ_none hop] at hb
      exact ih hb
    | some op =>
      rw [run_succ hop] at hb
      obtain ⟨q', hq', -⟩ := except_bind_ok hb
      exact ih hq'

/-- The caches are those that the last tick has left. -/
theorem claim_of_sees (hsees : Sees ops t k)
    (ht : run nrSource nrContext (ops.take t) = .ok p)
    (hk : run nrSource nrContext (ops.take k) = .ok q) : q.claim = p.tick.claim := by
  obtain ⟨htk, htick, hno⟩ := hsees
  have hrun : run nrSource nrContext (ops.take (t + 1)) = .ok p.tick := by
    rw [run_succ htick, ht]
    rfl
  exact claim_kept htk (fun l hl hlk => hno l hl hlk) hrun hk

/-- Either no tick has come yet or there is a last one. -/
theorem sees_or_none (ops : List PlicOp) (k : Nat) :
    (∃ t, Sees ops t k) ∨ ∀ l, l < k → ops[l]? ≠ some .tick := by
  induction k with
  | zero => exact .inr fun l hl => absurd hl (Nat.not_lt_zero l)
  | succ k ih =>
    by_cases htick : ops[k]? = some .tick
    · exact .inl ⟨k, Nat.lt_succ_self k, htick, fun l hl hlk => by omega⟩
    · have hlast : ∀ {l}, ¬ l < k → l < k + 1 → ops[l]? ≠ some .tick := by
        intro l hge hlt
        have heq : l = k := by omega
        exact heq ▸ htick
      rcases ih with ⟨t, htk, ht, hno⟩ | hno
      · refine .inl ⟨t, by omega, ht, fun l hl hlk => ?_⟩
        by_cases hlt : l < k
        · exact hno l hl hlt
        · exact hlast hlt hlk
      · refine .inr fun l hlk => ?_
        by_cases hlt : l < k
        · exact hno l hlt
        · exact hlast hlt hlk

/-- A tick caches the source that it chooses, and nothing where none passes. -/
theorem tick_cache (p : PLIC nrSource nrContext) (c : Fin nrContext) (hsource : nrSource < 2 ^ 31)
    (hi : First (Passes p c) (rank p) i) : p.tick.claim.get c = BitVec.ofNat 32 i := by
  rw [tick_eq, ((foldl_drive _ p c).1 (List.mem_finRange c)).2]
  rcases getInt_cases p c hsource with ⟨hnone, -, -⟩ | ⟨j, hj, -, hclaim⟩
  · exact absurd hi.asking (hnone i)
  · rw [hclaim, hj.unique hi]

theorem tick_chooses (p : PLIC nrSource nrContext) (c : Fin nrContext) (hsource : nrSource < 2 ^ 31)
    (hne : p.tick.claim.get c ≠ 0) :
    ∃ i, First (Passes p c) (rank p) i ∧ p.tick.claim.get c = BitVec.ofNat 32 i := by
  rw [tick_eq, ((foldl_drive _ p c).1 (List.mem_finRange c)).2] at hne ⊢
  rcases getInt_cases p c hsource with ⟨-, -, hzero⟩ | ⟨j, hj, -, hclaim⟩
  · exact absurd hzero hne
  · exact ⟨j, hj, hclaim⟩

/-- The number of a source, as the caches hold it. -/
theorem source_toNat (hsource : nrSource < 2 ^ 31) (hi : Passes p c i) :
    (BitVec.ofNat 32 i).toNat = i := by
  have hle := hi.1.le
  rw [BitVec.toNat_ofNat, Nat.mod_eq_of_lt (by omega)]

end Caches

/-! ## Claims -/

section Claims

variable {p q : PLIC nrSource nrContext} {j t k i : Nat} {v : BitVec 32} {c : Fin nrContext}

/-- A load that returns a source has found it in the cache of its context. -/
theorem claimsAt_cache (h : ClaimsAt nrSource nrContext ops k v) : ∃ (c : Fin nrContext)
    (q : PLIC nrSource nrContext), LoadsClaim ops k c ∧
      run nrSource nrContext (ops.take k) = .ok q ∧ q.claim.get c = v := by
  obtain ⟨addr, q, q', hop, hsome, hrun, hload⟩ := h
  obtain ⟨contextId, hctx⟩ := Option.isSome_iff_exists.mp hsome
  obtain ⟨w, hw, hr, -⟩ := load_claim_ok hctx hload
  cases hr
  obtain ⟨hlt, hget⟩ := Vector.getElem?_eq_some_iff.mp hw
  exact ⟨⟨contextId, hlt⟩, q, ⟨addr, hop, hctx⟩, hrun, hget⟩

/-- A load returns what its context has in the cache, if that is a source. -/
theorem claimsAt_of_cache (hload : LoadsClaim ops k c)
    (hrun : run nrSource nrContext (ops.take k) = .ok q) (hcache : q.claim.get c = v)
    (hle : v.toNat ≤ nrSource) : ClaimsAt nrSource nrContext ops k v := by
  obtain ⟨addr, hop, hctx⟩ := hload
  have hn : idWord v < words nrSource := by
    unfold idWord words
    omega
  have hget : q.claim[c.val]? = some v := hcache ▸ Vector.getElem?_eq_getElem c.isLt
  obtain ⟨q', hq'⟩ := load_claim_returns hctx hget hn
  exact ⟨addr, q, q', hop, by rw [hctx]; rfl, hrun, hq'⟩

/-- What is returned was chosen for its context at the last tick. -/
theorem claimsAt_chosen (hsource : nrSource < 2 ^ 31) (hsees : Sees ops t k)
    (hne : v ≠ 0) (h : ClaimsAt nrSource nrContext ops k v) : ∃ (c : Fin nrContext) (i : Nat),
      LoadsClaim ops k c ∧ ChosenAt nrSource ops t c i ∧ v = BitVec.ofNat 32 i ∧
        v.toNat = i := by
  obtain ⟨c, q, hload, hrun, hcache⟩ := claimsAt_cache h
  obtain ⟨p, hp⟩ := run_before (Nat.le_of_lt hsees.1) hrun
  rw [claim_of_sees hsees hp hrun] at hcache
  obtain ⟨i, hi, hclaim⟩ := tick_chooses p c hsource (hcache ▸ hne)
  have hv : v = BitVec.ofNat 32 i := hcache.symm.trans hclaim
  exact ⟨c, i, hload, ⟨p, hp, hi⟩, hv, hv ▸ source_toNat hsource hi.asking⟩

theorem chosen_claimsAt (hsource : nrSource < 2 ^ 31) (hsees : Sees ops t k)
    (hload : LoadsClaim ops k c) (hrun : run nrSource nrContext (ops.take k) = .ok q)
    (h : ChosenAt nrSource ops t c i) :
    ClaimsAt nrSource nrContext ops k (BitVec.ofNat 32 i) := by
  obtain ⟨p, hp, hi⟩ := h
  refine claimsAt_of_cache hload hrun ?_ ?_
  · rw [claim_of_sees hsees hp hrun]
    exact tick_cache p c hsource hi
  · rw [source_toNat hsource hi.asking]
    exact hi.asking.1.le

/-- Before the first tick there is nothing to return. -/
theorem claims_after_tick (hne : v ≠ 0) (h : ClaimsAt nrSource nrContext ops k v) :
    ∃ t, Sees ops t k := by
  rcases sees_or_none ops k with hsees | hno
  · exact hsees
  · obtain ⟨c, q, -, hrun, hcache⟩ := claimsAt_cache h
    have hinit : run nrSource nrContext (ops.take 0) = .ok (PLIC.init nrSource nrContext) := rfl
    have hclaim := claim_kept (Nat.zero_le k) (fun l _ hlk => hno l hlk) hinit hrun
    rw [hclaim] at hcache
    have hzero : (PLIC.init nrSource nrContext).claim.get c = 0 := Vector.getElem_replicate c.isLt
    exact absurd (hcache.symm.trans hzero) hne

/-- A source that is held when a tick comes is not chosen. -/
theorem held_not_chosen (hsource : nrSource < 2 ^ 31)
    (hheld : Held nrSource nrContext ops t (BitVec.ofNat 32 i)) :
    ¬ ChosenAt nrSource ops t c i := by
  rintro ⟨p, hp, hi⟩
  have hmark := (claimed_iff_held hp (BitVec.ofNat 32 i)).mpr hheld
  rw [source_toNat hsource hi.asking, hi.asking.1.unclaimed] at hmark
  exact Bool.false_ne_true hmark

/-- A tick between any two loads of claim registers keeps them separate. -/
theorem separate_of_ticks (h : ∀ (j k : Nat) (c d : Fin nrContext), j < k → LoadsClaim ops j c →
    LoadsClaim ops k d → ∃ l, j < l ∧ l < k ∧ ops[l]? = some .tick) :
    Separate nrSource nrContext ops := by
  intro t j k i c d hjk hj hk hloadj hloadk _ _ _
  obtain ⟨l, hjl, hlk, htick⟩ := h j k c d hjk hloadj hloadk
  exact absurd htick (hk.2.2 l (by have := hj.1; omega) hlk)

end Claims

/-- Source 1 is pending and enabled in context 0, which reads its claim register, lets a tick pass
and reads it again. -/
def claimAgain : List PlicOp :=
  [.setInt 1 true, .store 0x4 1, .store 0x2000 2, .tick, .load 0x200004, .tick, .load 0x200004]

end NextEmu.Device.PLICExclusion
