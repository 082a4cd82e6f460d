import NextEmu.Device.PLIC

/-!
# Claims of the interrupt controller

Runs of the calls, the loads that claim a source and the stores that complete it. The mask of the
controller marks the sources that a load of a claim register has returned and that no store has
completed since. A load returns what the register of the context caches, marked or not, so two
loads may return one source.
-/

namespace NextEmu.Device.PLICClaims

open NextEmu.Sdk PLIC

/-- One call on the controller; the guest accesses are those of four bytes. -/
inductive PlicOp
  | setInt (sourceId : BitVec 32) (fired : Bool)
  | tick
  | load (addr : BitVec 64)
  | store (addr : BitVec 64) (data : BitVec 32)

variable {nrSource nrContext : Nat}

def apply (p : PLIC nrSource nrContext) : PlicOp → Except Fault (PLIC nrSource nrContext)
  | .setInt sourceId fired => p.setInt sourceId fired
  | .tick => .ok p.tick
  | .load addr => (p.load addr 4).map (·.2)
  | .store addr data => (p.store addr 4 data).map (·.2)

/-- A run from the constructor on. It stops at a call that leaves an array. -/
def run (nrSource nrContext : Nat) (ops : List PlicOp) : Except Fault (PLIC nrSource nrContext) :=
  ops.foldlM apply (PLIC.init nrSource nrContext)

/-- The context whose claim/complete register `load` and `store` find at an address. Both compare
with `>`, so they find one for context `nr_context` too, which has none. -/
def claimContext (nrContext : Nat) (startAddr : BitVec 64) : Option Nat :=
  let startAddr := startAddr % 0x4000000
  let contextId := (startAddr - 0x200000).toNat / 0x1000
  if 0x200000 < (startAddr + 4).toNat ∧ contextId ≤ nrContext ∧ startAddr.toNat % 0x1000 = 4 then
    some contextId
  else none

/-- Call `k` of the run is a load of a claim register that returns `i`. -/
def ClaimsAt (nrSource nrContext : Nat) (ops : List PlicOp) (k : Nat) (i : BitVec 32) : Prop :=
  ∃ addr p q, ops[k]? = some (.load addr) ∧ (claimContext nrContext addr).isSome = true ∧
    run nrSource nrContext (ops.take k) = .ok p ∧ p.load addr 4 = .ok ((.success, some i), q)

/-- Call `k` of the run is a store of `i` to a claim/complete register. -/
def CompletesAt (nrContext : Nat) (ops : List PlicOp) (k : Nat) (i : BitVec 32) : Prop :=
  ∃ addr, ops[k]? = some (.store addr i) ∧ (claimContext nrContext addr).isSome = true

/-- No source is returned twice without a completion of it between. -/
def Exclusive (nrSource nrContext : Nat) (ops : List PlicOp) : Prop :=
  ∀ j k i, j < k → i ≠ 0 → ClaimsAt nrSource nrContext ops j i →
    ClaimsAt nrSource nrContext ops k i → ∃ l, j < l ∧ l < k ∧ CompletesAt nrContext ops l i

/-! ## Accesses that return -/

section Access

variable {α γ : Type} {n : Nat}

theorem except_bind_ok {x : Except Fault α} {f : α → Except Fault γ} {b : γ}
    (h : (x >>= f) = .ok b) : ∃ a, x = .ok a ∧ f a = .ok b := by
  cases x with
  | error e => cases h
  | ok a => exact ⟨a, rfl, h⟩

theorem except_map_ok {x : Except Fault α} {f : α → γ} {b : γ} (h : x.map f = .ok b) :
    ∃ a, x = .ok a ∧ f a = b := by
  cases x with
  | error e => cases h
  | ok a =>
    cases h
    exact ⟨a, rfl, rfl⟩

/-- Whatever a call returns has the property. -/
def Returns (post : α → Prop) (x : Except Fault α) : Prop := ∀ a, x = .ok a → post a

theorem returns_ok {post : α → Prop} {a : α} (h : post a) : Returns post (.ok a) := by
  intro b hb
  cases hb
  exact h

theorem returns_error {post : α → Prop} (f : Fault) : Returns post (.error f) := by
  intro b hb
  cases hb

theorem returns_bind {post : γ → Prop} {x : Except Fault α} {f : α → Except Fault γ}
    (h : ∀ a, Returns post (f a)) : Returns post (x >>= f) := by
  intro b hb
  obtain ⟨a, -, ha⟩ := except_bind_ok hb
  exact h a b ha

theorem returns_ite {post : α → Prop} {c : Prop} [Decidable c] {x y : Except Fault α}
    (hx : c → Returns post x) (hy : ¬ c → Returns post y) :
    Returns post (if c then x else y) := by
  by_cases hc : c
  · rw [if_pos hc]
    exact hx hc
  · rw [if_neg hc]
    exact hy hc

theorem except_ok_bind (a : α) (f : α → Except Fault γ) : (Except.ok a >>= f) = f a := rfl

theorem readAt_eq {a : Vector α n} {i : Nat} (hi : i < n) (f : Fault) :
    readAt a i f = .ok a[i] := by
  unfold readAt
  rw [dif_pos hi]

theorem writeAt_eq {a : Vector α n} {i : Nat} (hi : i < n) (x : α) (f : Fault) :
    writeAt a i x f = .ok (a.set i x hi) := by
  unfold writeAt
  rw [dif_pos hi]

theorem readAt_ok {a : Vector α n} {i : Nat} {f : Fault} {x : α} (h : readAt a i f = .ok x) :
    ∃ hi : i < n, a[i] = x := by
  unfold readAt at h
  split at h
  · rename_i hi
    cases h
    exact ⟨hi, rfl⟩
  · cases h

theorem writeAt_ok {a a' : Vector α n} {i : Nat} {f : Fault} {x : α}
    (h : writeAt a i x f = .ok a') : ∃ hi : i < n, a.set i x hi = a' := by
  unfold writeAt at h
  split at h
  · rename_i hi
    cases h
    exact ⟨hi, rfl⟩
  · cases h

end Access

/-! ## Bits of the masks -/

section Bits

variable {n : Nat}

theorem idBit_getLsbD (v : BitVec 32) (j : Nat) :
    (idBit v).getLsbD j = decide (j = v.toNat % 32) := by
  have hlt : v.toNat % 32 < 32 := Nat.mod_lt _ (by decide)
  unfold idBit
  rw [← BitVec.twoPow_eq, BitVec.getLsbD_twoPow]
  simp only [hlt, decide_true, Bool.true_and]
  exact decide_eq_decide.mpr eq_comm

/-- Two ids with one word and one bit are the same. -/
theorem id_eq_iff {i v : BitVec 32} :
    i = v ↔ idWord i = idWord v ∧ i.toNat % 32 = v.toNat % 32 := by
  unfold idWord
  rw [← BitVec.toNat_inj]
  omega

theorem bitOf_set (a : Vector (BitVec 32) n) {v : BitVec 32} (h : idWord v < n) (x : BitVec 32)
    (i : BitVec 32) : bitOf (a.set (idWord v) x h) i.toNat =
      if idWord i = idWord v then x.getLsbD (i.toNat % 32) else bitOf a i.toNat := by
  unfold bitOf
  rw [Vector.getElem?_set]
  by_cases hi : idWord v = idWord i
  · have hi' : idWord v = i.toNat / 32 := hi
    rw [if_pos hi', if_pos hi.symm]
    rfl
  · have hi' : ¬ idWord v = i.toNat / 32 := hi
    rw [if_neg hi', if_neg (Ne.symm hi)]

/-- The bit of an id whose word is that of `v`. -/
theorem bitOf_word (a : Vector (BitVec 32) n) {i v : BitVec 32} (h : idWord v < n)
    (hw : idWord i = idWord v) : bitOf a i.toNat = a[idWord v].getLsbD (i.toNat % 32) := by
  have hdiv : i.toNat / 32 = idWord v := hw
  unfold bitOf
  rw [hdiv, Vector.getElem?_eq_getElem h]
  rfl

theorem beq_of_word {i v : BitVec 32} (hw : idWord i = idWord v) :
    (i == v) = decide (i.toNat % 32 = v.toNat % 32) := by
  rw [Bool.eq_iff_iff, beq_iff_eq, decide_eq_true_iff]
  exact id_eq_iff.trans (and_iff_right hw)

theorem bne_of_word {i v : BitVec 32} (hw : idWord i ≠ idWord v) : (i == v) = false :=
  beq_eq_false_iff_ne.mpr fun h => hw (by rw [h])

/-- Marking an id. -/
theorem bitOf_mark (a : Vector (BitVec 32) n) {v : BitVec 32} (h : idWord v < n) (i : BitVec 32) :
    bitOf (a.set (idWord v) (a[idWord v] ||| idBit v) h) i.toNat =
      (i == v || bitOf a i.toNat) := by
  rw [bitOf_set]
  split
  · rename_i hw
    rw [BitVec.getLsbD_or, idBit_getLsbD, bitOf_word a h hw, beq_of_word hw, Bool.or_comm]
  · rename_i hw
    rw [bne_of_word hw, Bool.false_or]

/-- Unmarking it. -/
theorem bitOf_unmark (a : Vector (BitVec 32) n) {v : BitVec 32} (h : idWord v < n)
    (i : BitVec 32) : bitOf (a.set (idWord v) (a[idWord v] &&& ~~~ idBit v) h) i.toNat =
      (i != v && bitOf a i.toNat) := by
  have hlt : i.toNat % 32 < 32 := Nat.mod_lt _ (by decide)
  rw [bitOf_set]
  split
  · rename_i hw
    rw [BitVec.getLsbD_and, BitVec.getLsbD_not, idBit_getLsbD, bitOf_word a h hw, bne,
      beq_of_word hw, Bool.and_comm]
    simp only [hlt, decide_true, Bool.true_and]
  · rename_i hw
    rw [bne, bne_of_word hw, Bool.not_false, Bool.true_and]

end Bits

/-! ## The calls -/

section Calls

variable {p q : PLIC nrSource nrContext} {addr : BitVec 64}

theorem claimContext_some {contextId : Nat} (h : claimContext nrContext addr = some contextId) :
    (addr % 0x4000000 - 0x200000).toNat / 0x1000 = contextId ∧
    ¬ (addr % 0x4000000 + 4).toNat ≤ 0x200000 ∧ ¬ contextId > nrContext ∧
    (addr % 0x4000000).toNat % 0x1000 = 4 := by
  unfold claimContext at h
  dsimp only at h
  split at h
  · rename_i hc
    cases h
    exact ⟨rfl, by omega, by omega, hc.2.2⟩
  · cases h

/-- A load of a claim register. -/
theorem load_claim {contextId : Nat} (h : claimContext nrContext addr = some contextId) :
    p.load addr 4 = (do
      let v ← readAt p.claim contextId (.claim contextId)
      let w ← readAt p.claimed (idWord v) (.claimed (idWord v))
      let claimed ← writeAt p.claimed (idWord v) (w ||| idBit v) (.claimed (idWord v))
      return ((.success, some v), { p with claimed := claimed })) := by
  obtain ⟨hctx, hstop, hle, hoff⟩ := claimContext_some h
  have h1 : ¬ (addr % 0x4000000 + 4).toNat ≤ 0x1000 := by omega
  have h2 : ¬ (addr % 0x4000000 + 4).toNat ≤ 0x1080 := by omega
  have h3 : ¬ (addr % 0x4000000 + 4).toNat ≤ 0x2000 := by omega
  have hsize : ¬ (4 : BitVec 64) ≠ 4 := fun h => h rfl
  have hne : ¬ (4 : Nat) = 0 := by decide
  unfold PLIC.load
  dsimp only
  rw [if_neg hsize, if_neg h1, if_neg h2, if_neg h3, if_neg hstop, hctx, if_neg hle, hoff,
    if_neg hne, if_pos rfl]

/-- What such a load returns, and what it marks. -/
theorem load_claim_ok {contextId : Nat} (h : claimContext nrContext addr = some contextId)
    {r : Feedback × Option (BitVec 32)} (hload : p.load addr 4 = .ok (r, q)) :
    ∃ v, p.claim[contextId]? = some v ∧ r = (.success, some v) ∧
      ∀ i : BitVec 32, bitOf q.claimed i.toNat = (i == v || bitOf p.claimed i.toNat) := by
  rw [load_claim h] at hload
  obtain ⟨v, hv, hload⟩ := except_bind_ok hload
  obtain ⟨w, hw, hload⟩ := except_bind_ok hload
  obtain ⟨claimed, hclaimed, hload⟩ := except_bind_ok hload
  cases hload
  obtain ⟨hc, rfl⟩ := readAt_ok hv
  obtain ⟨hn, rfl⟩ := readAt_ok hw
  obtain ⟨-, rfl⟩ := writeAt_ok hclaimed
  exact ⟨_, Vector.getElem?_eq_getElem hc, rfl, bitOf_mark p.claimed hn⟩

/-- A load returns when there is a word to mark what it caches in. -/
theorem load_claim_returns {contextId : Nat} (h : claimContext nrContext addr = some contextId)
    {v : BitVec 32} (hv : p.claim[contextId]? = some v) (hn : idWord v < words nrSource) :
    ∃ q, p.load addr 4 = .ok ((.success, some v), q) := by
  obtain ⟨hc, rfl⟩ := Vector.getElem?_eq_some_iff.mp hv
  rw [load_claim h, readAt_eq hc, except_ok_bind, readAt_eq hn, except_ok_bind, writeAt_eq hn,
    except_ok_bind]
  exact ⟨_, rfl⟩

theorem not_claimContext (h : claimContext nrContext addr = none)
    (hstop : ¬ (addr % 0x4000000 + 4).toNat ≤ 0x200000)
    (hctx : ¬ (addr % 0x4000000 - 0x200000).toNat / 0x1000 > nrContext)
    (hoff : (addr % 0x4000000).toNat % 0x1000 = 4) : False := by
  unfold claimContext at h
  dsimp only at h
  rw [if_pos ⟨by omega, by omega, hoff⟩] at h
  cases h

/-- What a load leaves alone. -/
theorem load_frame (p : PLIC nrSource nrContext) (addr : BitVec 64) :
    Returns (fun r => r.2.claim = p.claim ∧ (claimContext nrContext addr = none → r.2 = p))
      (p.load addr 4) := by
  have hsame : ∀ {v : Feedback × Option (BitVec 32)}, Returns (fun r => r.2.claim = p.claim ∧
      (claimContext nrContext addr = none → r.2 = p)) (.ok (v, p)) :=
    returns_ok ⟨rfl, fun _ => rfl⟩
  unfold PLIC.load
  dsimp only
  refine returns_ite (fun _ => returns_error _) fun _ => ?_
  refine returns_ite (fun _ => ?_) fun _ => ?_
  · refine returns_ite (fun _ => hsame) fun _ => ?_
    refine returns_ite (fun _ => hsame) fun _ => ?_
    exact returns_bind fun v => hsame
  refine returns_ite (fun _ => ?_) fun _ => ?_
  · refine returns_ite (fun _ => hsame) fun _ => ?_
    exact returns_bind fun v => hsame
  refine returns_ite (fun _ => hsame) fun _ => ?_
  refine returns_ite (fun _ => ?_) fun hstop => ?_
  · refine returns_ite (fun _ => hsame) fun _ => ?_
    refine returns_ite (fun _ => hsame) fun _ => ?_
    exact returns_bind fun row => returns_bind fun v => hsame
  refine returns_ite (fun _ => hsame) fun hctx => ?_
  refine returns_ite (fun _ => returns_bind fun v => hsame) fun _ => ?_
  refine returns_ite (fun hoff => ?_) fun _ => hsame
  refine returns_bind fun v => returns_bind fun w => returns_bind fun claimed => ?_
  exact returns_ok ⟨rfl, fun h => (not_claimContext h hstop hctx hoff).elim⟩

/-- A store to a claim/complete register unmarks what is stored. -/
theorem store_claim_ok {contextId : Nat} (h : claimContext nrContext addr = some contextId)
    {data : BitVec 32} {r : Feedback} (hstore : p.store addr 4 data = .ok (r, q)) (i : BitVec 32) :
    bitOf q.claimed i.toNat = (i != data && bitOf p.claimed i.toNat) := by
  obtain ⟨hctx, hstop, hle, hoff⟩ := claimContext_some h
  have h1 : ¬ (addr % 0x4000000 + 4).toNat ≤ 0x1000 := by omega
  have h2 : ¬ (addr % 0x4000000 + 4).toNat ≤ 0x1080 := by omega
  have h3 : ¬ (addr % 0x4000000 + 4).toNat ≤ 0x2000 := by omega
  have hne : ¬ (4 : Nat) = 0 := by decide
  unfold PLIC.store at hstore
  dsimp only at hstore
  rw [if_neg h1, if_neg h2, if_neg h3, if_neg hstop, hctx, if_neg hle, hoff, if_neg hne,
    if_pos rfl] at hstore
  obtain ⟨w, hw, hstore⟩ := except_bind_ok hstore
  obtain ⟨claimed, hclaimed, hstore⟩ := except_bind_ok hstore
  obtain ⟨u, -, hstore⟩ := except_bind_ok hstore
  obtain ⟨pending, -, hstore⟩ := except_bind_ok hstore
  cases hstore
  obtain ⟨hn, rfl⟩ := readAt_ok hw
  obtain ⟨-, rfl⟩ := writeAt_ok hclaimed
  exact bitOf_unmark p.claimed hn i

/-- What a store leaves alone. -/
theorem store_frame (p : PLIC nrSource nrContext) (addr : BitVec 64) (data : BitVec 32) :
    Returns (fun r => r.2.claim = p.claim ∧
      (claimContext nrContext addr = none → r.2.claimed = p.claimed)) (p.store addr 4 data) := by
  unfold PLIC.store
  dsimp only
  refine returns_ite (fun _ => ?_) fun _ => ?_
  · refine returns_ite (fun _ => returns_ok ⟨rfl, fun _ => rfl⟩) fun _ => ?_
    refine returns_ite (fun _ => returns_ok ⟨rfl, fun _ => rfl⟩) fun _ => ?_
    exact returns_bind fun priority => returns_ok ⟨rfl, fun _ => rfl⟩
  refine returns_ite (fun _ => returns_ok ⟨rfl, fun _ => rfl⟩) fun _ => ?_
  refine returns_ite (fun _ => returns_ok ⟨rfl, fun _ => rfl⟩) fun _ => ?_
  refine returns_ite (fun _ => ?_) fun hstop => ?_
  · refine returns_ite (fun _ => returns_ok ⟨rfl, fun _ => rfl⟩) fun _ => ?_
    refine returns_ite (fun _ => returns_ok ⟨rfl, fun _ => rfl⟩) fun _ => ?_
    exact returns_bind fun row => returns_bind fun row' => returns_bind fun enable =>
      returns_ok ⟨rfl, fun _ => rfl⟩
  refine returns_ite (fun _ => returns_ok ⟨rfl, fun _ => rfl⟩) fun hctx => ?_
  refine returns_ite (fun _ => ?_) fun _ => ?_
  · exact returns_bind fun threshold => returns_ok ⟨rfl, fun _ => rfl⟩
  refine returns_ite (fun hoff => ?_) fun _ => returns_ok ⟨rfl, fun _ => rfl⟩
  refine returns_bind fun w => returns_bind fun claimed => returns_bind fun u =>
    returns_bind fun pending => ?_
  exact returns_ok ⟨rfl, fun h => (not_claimContext h hstop hctx hoff).elim⟩

theorem setInt_frame (sourceId : BitVec 32) (fired : Bool) :
    Returns (fun q => q.claim = p.claim ∧ q.claimed = p.claimed) (p.setInt sourceId fired) := by
  unfold PLIC.setInt
  refine returns_ite (fun _ => ?_) fun _ => returns_ok ⟨rfl, rfl⟩
  exact returns_bind fun w => returns_bind fun pending => returns_ok ⟨rfl, rfl⟩

theorem tick_claimed (p : PLIC nrSource nrContext) : p.tick.claimed = p.claimed := by
  unfold PLIC.tick
  induction List.finRange nrContext generalizing p with
  | nil => rfl
  | cons i rest ih =>
    rw [List.foldl_cons, ih]
    rfl

end Calls

/-! ## Runs -/

section Runs

variable {ops : List PlicOp} {k : Nat}

theorem run_succ {op : PlicOp} (hop : ops[k]? = some op) :
    run nrSource nrContext (ops.take (k + 1)) =
      (do let p ← run nrSource nrContext (ops.take k); apply p op) := by
  unfold run
  rw [List.take_add_one, hop, List.foldlM_append]
  congr
  funext p
  simp

theorem take_succ_none (hop : ops[k]? = none) : ops.take (k + 1) = ops.take k := by
  rw [List.take_add_one, hop]
  simp

/-- The source has been returned and not completed since. -/
def Held (nrSource nrContext : Nat) (ops : List PlicOp) (k : Nat) (i : BitVec 32) : Prop :=
  ∃ j, j < k ∧ ClaimsAt nrSource nrContext ops j i ∧
    ∀ l, j < l → l < k → ¬ CompletesAt nrContext ops l i

/-- What call `k` does to what is held: a load makes the source held, a completion ends it. -/
theorem held_succ {i : BitVec 32} : Held nrSource nrContext ops (k + 1) i ↔
    ClaimsAt nrSource nrContext ops k i ∨
      Held nrSource nrContext ops k i ∧ ¬ CompletesAt nrContext ops k i := by
  constructor
  · rintro ⟨j, hj, hclaim, hopen⟩
    rcases Nat.lt_or_ge j k with hjk | hjk
    · exact .inr ⟨⟨j, hjk, hclaim, fun l hl hlk => hopen l hl (by omega)⟩,
        hopen k hjk (Nat.lt_succ_self k)⟩
    · have heq : j = k := by omega
      exact .inl (heq ▸ hclaim)
  · rintro (hclaim | ⟨⟨j, hj, hclaim, hopen⟩, hk⟩)
    · exact ⟨k, Nat.lt_succ_self k, hclaim, fun l hl hlk => by omega⟩
    · refine ⟨j, by omega, hclaim, fun l hl hlk => ?_⟩
      rcases Nat.lt_or_ge l k with hlt | hge
      · exact hopen l hl hlt
      · have heq : l = k := by omega
        rw [heq]
        exact hk

/-- A call that finds no claim register claims nothing. -/
theorem not_claimsAt {i : BitVec 32} (h : ∀ addr, ops[k]? = some (.load addr) →
    claimContext nrContext addr = none) : ¬ ClaimsAt nrSource nrContext ops k i := by
  rintro ⟨addr, _, _, hop, hsome, -⟩
  rw [h addr hop] at hsome
  cases hsome

theorem not_completesAt {i : BitVec 32} (h : ∀ addr data, ops[k]? = some (.store addr data) →
    claimContext nrContext addr = none) : ¬ CompletesAt nrContext ops k i := by
  rintro ⟨addr, hop, hsome⟩
  rw [h addr i hop] at hsome
  cases hsome

/-- A load of a claim register claims what it returns. -/
theorem claimsAt_load {addr : Addr} {contextId : Nat} {p q : PLIC nrSource nrContext}
    {v i : BitVec 32} (hop : ops[k]? = some (.load addr))
    (hctx : claimContext nrContext addr = some contextId)
    (hrun : run nrSource nrContext (ops.take k) = .ok p)
    (hload : p.load addr 4 = .ok ((.success, some v), q)) :
    ClaimsAt nrSource nrContext ops k i ↔ i = v := by
  constructor
  · rintro ⟨addr', p', q', hop', -, hrun', hload'⟩
    rw [hop] at hop'
    cases hop'
    rw [hrun] at hrun'
    cases hrun'
    rw [hload'] at hload
    cases hload
    rfl
  · rintro rfl
    exact ⟨addr, p, q, hop, by rw [hctx]; rfl, hrun, hload⟩

/-- A store to a claim register completes what it stores. -/
theorem completesAt_store {addr : Addr} {contextId : Nat} {data i : BitVec 32}
    (hop : ops[k]? = some (.store addr data))
    (hctx : claimContext nrContext addr = some contextId) :
    CompletesAt nrContext ops k i ↔ i = data := by
  constructor
  · rintro ⟨addr', hop', -⟩
    rw [hop] at hop'
    cases hop'
    rfl
  · rintro rfl
    exact ⟨addr, hop, by rw [hctx]; rfl⟩

/-- What call `k` does to the mark of a source. -/
theorem claimed_succ {p p' : PLIC nrSource nrContext} {op : PlicOp} (hop : ops[k]? = some op)
    (hrun : run nrSource nrContext (ops.take k) = .ok p') (happly : apply p' op = .ok p)
    (i : BitVec 32) :
    bitOf p.claimed i.toNat = true ↔ ClaimsAt nrSource nrContext ops k i ∨
      bitOf p'.claimed i.toNat = true ∧ ¬ CompletesAt nrContext ops k i := by
  -- a call that is no access to a claim/complete register
  have hkeep : p.claimed = p'.claimed → ¬ ClaimsAt nrSource nrContext ops k i →
      ¬ CompletesAt nrContext ops k i →
      (bitOf p.claimed i.toNat = true ↔ ClaimsAt nrSource nrContext ops k i ∨
        bitOf p'.claimed i.toNat = true ∧ ¬ CompletesAt nrContext ops k i) := by
    intro hsame hclaim hcomplete
    rw [hsame]
    exact ⟨fun hbit => .inr ⟨hbit, hcomplete⟩, fun h => h.elim (absurd · hclaim) (·.1)⟩
  cases op with
  | setInt sourceId fired =>
    refine hkeep (setInt_frame sourceId fired _ happly).2 (not_claimsAt ?_) (not_completesAt ?_)
    · rw [hop]
      exact nofun
    · rw [hop]
      exact nofun
  | tick =>
    cases happly
    refine hkeep (tick_claimed p') (not_claimsAt ?_) (not_completesAt ?_)
    · rw [hop]
      exact nofun
    · rw [hop]
      exact nofun
  | load addr =>
    obtain ⟨r, hload, rfl⟩ := except_map_ok happly
    have hcomplete : ¬ CompletesAt nrContext ops k i := not_completesAt (by
      rw [hop]
      exact nofun)
    cases hctx : claimContext nrContext addr with
    | none =>
      have hsame := (load_frame p' addr _ hload).2 hctx
      refine hkeep (congrArg _ hsame) (not_claimsAt fun addr' hop' => ?_) hcomplete
      rw [hop] at hop'
      cases hop'
      exact hctx
    | some contextId =>
      obtain ⟨v, -, hr, hbit⟩ := load_claim_ok hctx hload
      have hclaim : ClaimsAt nrSource nrContext ops k i ↔ i = v :=
        claimsAt_load (q := r.2) hop hctx hrun (hr ▸ hload)
      rw [hbit, Bool.or_eq_true, beq_iff_eq, hclaim, and_iff_left hcomplete]
  | store addr data =>
    obtain ⟨r, hstore, rfl⟩ := except_map_ok happly
    have hclaim : ¬ ClaimsAt nrSource nrContext ops k i := not_claimsAt (by
      rw [hop]
      exact nofun)
    cases hctx : claimContext nrContext addr with
    | none =>
      have hsame := (store_frame p' addr data _ hstore).2 hctx
      refine hkeep hsame hclaim (not_completesAt fun addr' data' hop' => ?_)
      rw [hop] at hop'
      cases hop'
      exact hctx
    | some contextId =>
      have hcomplete : CompletesAt nrContext ops k i ↔ i = data := completesAt_store hop hctx
      rw [store_claim_ok hctx hstore, Bool.and_eq_true, bne_iff_ne, hcomplete,
        or_iff_right hclaim, and_comm]

/-- The marks of the controller are the sources that are held. -/
theorem claimed_iff_held {p : PLIC nrSource nrContext}
    (h : run nrSource nrContext (ops.take k) = .ok p) (i : BitVec 32) :
    bitOf p.claimed i.toNat = true ↔ Held nrSource nrContext ops k i := by
  induction k generalizing p with
  | zero =>
    cases h
    constructor
    · intro hbit
      unfold bitOf PLIC.init at hbit
      rw [Vector.getElem?_replicate] at hbit
      split at hbit <;> simp at hbit
    · rintro ⟨j, hj, -⟩
      exact absurd hj (Nat.not_lt_zero j)
  | succ k ih =>
    rw [held_succ]
    cases hop : ops[k]? with
    | none =>
      rw [take_succ_none hop] at h
      have hclaim : ¬ ClaimsAt nrSource nrContext ops k i := not_claimsAt (by
        rw [hop]
        exact nofun)
      have hcomplete : ¬ CompletesAt nrContext ops k i := not_completesAt (by
        rw [hop]
        exact nofun)
      rw [ih h, or_iff_right hclaim, and_iff_left hcomplete]
    | some op =>
      rw [run_succ hop] at h
      obtain ⟨p', hp', happly⟩ := except_bind_ok h
      rw [claimed_succ hop hp' happly, ih hp']

end Runs

/-- Source 1 is pending and enabled in context 0, which reads its claim register twice. -/
def claimTwice : List PlicOp :=
  [.setInt 1 true, .store 0x4 1, .store 0x2000 2, .tick, .load 0x200004, .load 0x200004]

end NextEmu.Device.PLICClaims
