import NextEmu.Device.CLInt

/-!
# The registers of the core local interruptor

What a guest sees of the three arrays is a byte at each address of three ranges, with what was
stored there last. The range tests of `do_read` and `do_write` let through exactly the accesses
that stay in one range, for as many harts as fit between the ranges.
-/

namespace NextEmu.Device.CLIntRegisters

open NextEmu.Sdk NextEmu.Simple CLInt

/-- A byte for each address. -/
abbrev Registers := Nat → BitVec 8

/-- `l` bytes at `a` lie in `msip`, in `mtimecmp` or in `mtime`. -/
def Inside (nrHart a l : Nat) : Prop :=
  a + l ≤ 4 * nrHart ∨ (0x4000 ≤ a ∧ a + l ≤ 0x4000 + 8 * nrHart) ∨ (0xbff8 ≤ a ∧ a + l ≤ 0xc000)

instance (nrHart a l : Nat) : Decidable (Inside nrHart a l) := inferInstanceAs (Decidable (_ ∨ _))

/-- What a store leaves of a byte: of the bytes of `msip`, bit 0 of the words. -/
def kept (nrHart a : Nat) (x : BitVec 8) : BitVec 8 :=
  if a < 4 * nrHart then (if a % 4 = 0 then x &&& 1 else 0) else x

namespace Registers

def store (nrHart : Nat) (m : Registers) (a l : Nat) (x : BitVec (8 * l)) : Registers :=
  fun b => if a ≤ b ∧ b < a + l then kept nrHart b (x.extractLsb' (8 * (b - a)) 8) else m b

/-- `mtime` advances by one. -/
def tick (m : Registers) : Registers := writeBytes m 0xbff8 8 (readBytes m 0xbff8 8 + 1)

def apply (nrHart : Nat) (m : Registers) : Op → Registers
  | .load _ _ => m
  | .store beginAddr len buffer =>
    let a := beginAddr.toNat % 0x10000
    if Inside nrHart a len then m.store nrHart a len buffer else m
  | .tick => m.tick

/-- The bytes after some operations on a new device. -/
def after (nrHart : Nat) (ops : List Op) : Registers :=
  ops.foldl (Registers.apply nrHart) fun _ => 0

end Registers

/-- A device with these registers. -/
structure Represents {nrHart : Nat} (c : CLInt nrHart) (m : Registers) : Prop where
  msip : ∀ k, k < 4 * nrHart → bytesOf (w := 4) c.msip k = m k
  mtimecmp : ∀ k, k < 8 * nrHart → bytesOf (w := 8) c.mtimecmp k = m (0x4000 + k)
  mtime : ∀ k, k < 8 → bytesOf (w := 8) #v[c.mtime] k = m (0xbff8 + k)
  masked : c.msip.map (· &&& 1) = c.msip

/-- How a device with these registers answers the accesses of up to 8 bytes. -/
structure Answers {nrHart : Nat} (c : CLInt nrHart) (m : Registers) : Prop where
  load : ∀ beginAddr len buffer, 1 ≤ len → len ≤ 8 →
    c.load beginAddr len buffer = .ok
      (if Inside nrHart (beginAddr.toNat % 0x10000) len then
        (.success, readBytes m (beginAddr.toNat % 0x10000) len)
      else (.outOfRange, buffer))
  stored : ∀ beginAddr len buffer, 1 ≤ len → len ≤ 8 →
    Inside nrHart (beginAddr.toNat % 0x10000) len →
    ∃ c', c.store beginAddr len buffer = .ok (.success, c')
  refused : ∀ beginAddr len buffer, 1 ≤ len → len ≤ 8 →
    ¬ Inside nrHart (beginAddr.toNat % 0x10000) len →
    c.store beginAddr len buffer = .ok (.outOfRange, c)
  msip : ∀ i (h : i < nrHart), c.msip[i] = 0 ∨ c.msip[i] = 1

/-- An access of 1 to 8 bytes, or a tick. -/
def Small : Op → Prop
  | .load _ len => 1 ≤ len ∧ len ≤ 8
  | .store _ len _ => 1 ≤ len ∧ len ≤ 8
  | .tick => True

/-! ## The bytes of the arrays -/

section Words

variable {n : Nat}

/-- The loop of `do_write` over the words of `msip`, on their bytes. -/
theorem bytesOf_masked (v : Vector (BitVec 32) n) {k : Nat} (hk : k < 4 * n) :
    bytesOf (w := 4) (v.map (· &&& 1)) k = kept n k (bytesOf (w := 4) v k) := by
  have hdiv : k / 4 < n := by omega
  have hmod : k % 4 < 4 := Nat.mod_lt _ (by decide)
  have hone : ∀ j < 4, (1 : BitVec 32).extractLsb' (8 * j) 8 = if j = 0 then 1 else 0 := by decide
  unfold bytesOf kept
  rw [if_pos hk, Vector.getElem?_eq_getElem hdiv, Vector.getElem?_eq_getElem hdiv,
    Vector.getElem_map]
  show (v[k / 4] &&& 1).extractLsb' (8 * (k % 4)) 8 = _
  rw [BitVec.extractLsb'_and, hone _ hmod]
  by_cases hlow : k % 4 = 0
  · rw [if_pos hlow, if_pos hlow]
    rfl
  · rw [if_neg hlow, if_neg hlow]
    exact BitVec.and_zero

theorem bytesOf_one (t : BitVec 64) {k : Nat} (hk : k < 8) :
    bytesOf (w := 8) #v[t] k = t.extractLsb' (8 * k) 8 := by
  have hdiv : k / 8 = 0 := by omega
  have hmod : k % 8 = k := by omega
  unfold bytesOf
  rw [hdiv, hmod]
  rfl

theorem readBytes_one (t : BitVec 64) : readBytes (bytesOf (w := 8) #v[t]) 0 8 = t := by
  apply BitVec.eq_of_getLsbD_eq
  intro i hi
  have hlow : i % 8 < 8 := Nat.mod_lt _ (by decide)
  have hsum : 8 * (i / 8) + i % 8 = i := by omega
  have hk : 0 + i / 8 < 8 := by omega
  rw [getLsbD_readBytes, bytesOf_one _ hk, Nat.zero_add, BitVec.getLsbD_extractLsb', hsum,
    decide_eq_true hlow, decide_eq_true hi, Bool.true_and, Bool.true_and]

theorem and_one_cases (x : BitVec 32) : x &&& 1 = 0 ∨ x &&& 1 = 1 := by
  have hbit : x &&& 1 = bif x.getLsbD 0 then 1 else 0 := by
    show x &&& BitVec.twoPow 32 0 = _
    rw [BitVec.and_twoPow]
    cases x.getLsbD 0 <;> rfl
  cases hx : x.getLsbD 0 with
  | false =>
    left
    rw [hbit, hx]
    rfl
  | true =>
    right
    rw [hbit, hx]
    rfl

end Words

/-! ## One operation -/

section Step

variable {nrHart : Nat} {c : CLInt nrHart} {m : Registers} {a : BitVec 64} {l : Nat}

namespace Represents

theorem copy_mtime (h : Represents c m) (hlo : 0xbff8 ≤ a.toNat) (hhi : a.toNat + l ≤ 0xc000) :
    copyFrom (w := 8) #v[c.mtime] (a.toNat - 0xbff8) l = .ok (readBytes m a.toNat l) := by
  unfold copyFrom
  rw [if_pos (by omega)]
  congr 1
  apply readBytes_moved
  intro k hk
  rw [h.mtime _ (by omega)]
  congr 1
  omega

theorem copy_mtimecmp (h : Represents c m) (hlo : 0x4000 ≤ a.toNat)
    (hhi : a.toNat + l ≤ 0x4000 + 8 * nrHart) :
    copyFrom (w := 8) c.mtimecmp (a.toNat - 0x4000) l = .ok (readBytes m a.toNat l) := by
  unfold copyFrom
  rw [if_pos (by omega)]
  congr 1
  apply readBytes_moved
  intro k hk
  rw [h.mtimecmp _ (by omega)]
  congr 1
  omega

theorem copy_msip (h : Represents c m) (hhi : a.toNat + l ≤ 4 * nrHart) :
    copyFrom (w := 4) c.msip a.toNat l = .ok (readBytes m a.toNat l) := by
  unfold copyFrom
  rw [if_pos hhi]
  congr 1
  apply readBytes_moved
  intro k hk
  exact h.msip _ (by omega)

/-- A store that does not reach an address. -/
theorem store_beside (x : BitVec (8 * l)) {b : Nat} (h : b < a.toNat ∨ a.toNat + l ≤ b) :
    m.store nrHart a.toNat l x b = m b := by
  unfold Registers.store
  rw [if_neg (by omega)]

/-- The bytes of an array behind a `memcpy` to it, at their addresses. -/
theorem copied_byte (nrHart : Nat) {f : Nat → BitVec 8} {base k : Nat} (x : BitVec (8 * l))
    (hbase : base ≤ a.toNat) (hbyte : f k = m (base + k)) :
    kept nrHart (base + k) (writeBytes f (a.toNat - base) l x k) =
      if a.toNat ≤ base + k ∧ base + k < a.toNat + l then m.store nrHart a.toNat l x (base + k)
      else kept nrHart (base + k) (m (base + k)) := by
  unfold writeBytes
  by_cases hin : a.toNat ≤ base + k ∧ base + k < a.toNat + l
  · have hoff : k - (a.toNat - base) = base + k - a.toNat := by omega
    rw [if_pos (by omega), if_pos hin, hoff]
    unfold Registers.store
    rw [if_pos hin]
  · rw [if_neg (by omega), if_neg hin, hbyte]

/-- Above `msip` a store keeps all. -/
theorem kept_above {b : Nat} (h : 4 * nrHart ≤ b) (x : BitVec 8) : kept nrHart b x = x := by
  unfold kept
  rw [if_neg (by omega)]

theorem copied_above {f : Nat → BitVec 8} {base k : Nat} (x : BitVec (8 * l))
    (hbase : base ≤ a.toNat) (hbyte : f k = m (base + k)) (habove : 4 * nrHart ≤ base + k) :
    writeBytes f (a.toNat - base) l x k = m.store nrHart a.toNat l x (base + k) := by
  have hcopied := copied_byte nrHart x hbase hbyte
  rw [kept_above habove, kept_above habove] at hcopied
  rw [hcopied]
  by_cases hin : a.toNat ≤ base + k ∧ base + k < a.toNat + l
  · rw [if_pos hin]
  · rw [if_neg hin, store_beside x (by omega)]

theorem store_mtime (h : Represents c m) (hharts : nrHart ≤ 4095) (hlo : 0xbff8 ≤ a.toNat)
    (hhi : a.toNat + l ≤ 0xc000) (x : BitVec (8 * l)) :
    ∃ v, copyTo (w := 8) #v[c.mtime] (a.toNat - 0xbff8) l x = .ok v ∧
      Represents { c with mtime := v[0] } (m.store nrHart a.toNat l x) := by
  unfold copyTo
  rw [if_pos (by omega)]
  refine ⟨_, rfl, ?_⟩
  constructor
  · intro k hk
    rw [store_beside x (by omega)]
    exact h.msip k hk
  · intro k hk
    rw [store_beside x (by omega)]
    exact h.mtimecmp k hk
  · intro k hk
    have hone : ∀ v : Vector (BitVec (8 * 8)) 1, #v[v[0]] = v := by
      intro v
      apply Vector.ext
      intro i hi
      have hz : i = 0 := by omega
      subst hz
      rfl
    rw [← copied_above x hlo (h.mtime k hk) (by omega)]
    show bytesOf (w := 8) #v[_] k = _
    rw [hone]
    exact bytesOf_ofBytes _ (by omega)
  · exact h.masked

theorem store_mtimecmp (h : Represents c m) (hharts : nrHart ≤ 4095) (hlo : 0x4000 ≤ a.toNat)
    (hhi : a.toNat + l ≤ 0x4000 + 8 * nrHart) (x : BitVec (8 * l)) :
    ∃ v, copyTo (w := 8) c.mtimecmp (a.toNat - 0x4000) l x = .ok v ∧
      Represents { c with mtimecmp := v } (m.store nrHart a.toNat l x) := by
  unfold copyTo
  rw [if_pos (by omega)]
  refine ⟨_, rfl, ?_⟩
  constructor
  · intro k hk
    rw [store_beside x (by omega)]
    exact h.msip k hk
  · intro k hk
    rw [← copied_above x hlo (h.mtimecmp k hk) (by omega)]
    exact bytesOf_ofBytes _ hk
  · intro k hk
    rw [store_beside x (by omega)]
    exact h.mtime k hk
  · exact h.masked

/-- The words of `msip` that the store leaves alone are masked already. -/
theorem store_msip (h : Represents c m) (hharts : nrHart ≤ 4095)
    (hhi : a.toNat + l ≤ 4 * nrHart) (x : BitVec (8 * l)) :
    ∃ v, copyTo (w := 4) c.msip a.toNat l x = .ok v ∧
      Represents { c with msip := v.map (· &&& 1) } (m.store nrHart a.toNat l x) := by
  unfold copyTo
  rw [if_pos hhi]
  refine ⟨_, rfl, ?_⟩
  constructor
  · intro k hk
    have hcopied := copied_byte nrHart (a := a) x (Nat.zero_le _)
      ((h.msip k hk).trans (congrArg m (Nat.zero_add k).symm))
    have hkept : kept nrHart k (m k) = m k := by
      rw [← h.msip k hk, ← bytesOf_masked c.msip hk, h.masked]
    rw [Nat.zero_add, Nat.sub_zero] at hcopied
    rw [bytesOf_masked _ hk, bytesOf_ofBytes _ hk, hcopied]
    by_cases hin : a.toNat ≤ k ∧ k < a.toNat + l
    · rw [if_pos hin]
    · rw [if_neg hin, store_beside x (by omega)]
      exact hkept
  · intro k hk
    rw [store_beside x (by omega)]
    exact h.mtimecmp k hk
  · intro k hk
    rw [store_beside x (by omega)]
    exact h.mtime k hk
  · show ((_ : Vector (BitVec 32) nrHart).map (· &&& 1)).map (· &&& 1) = _
    apply Vector.ext
    intro i hi
    rw [Vector.getElem_map, Vector.getElem_map, BitVec.and_assoc, BitVec.and_self]

/-- The word at the addresses of `mtime`. -/
theorem readBytes_mtime (h : Represents c m) : readBytes m 0xbff8 8 = c.mtime := by
  rw [← readBytes_one c.mtime]
  apply readBytes_moved
  intro k hk
  rw [Nat.zero_add]
  exact (h.mtime k hk).symm

/-- A tick, seen at the addresses of `mtime`. -/
theorem tick (h : Represents c m) (hharts : nrHart ≤ 4095) : Represents c.tick m.tick := by
  have hbeside : ∀ b, b < 0xbff8 → m.tick b = m b := by
    intro b hb
    unfold Registers.tick writeBytes
    rw [if_neg (by omega)]
  obtain ⟨contexts, heq⟩ := c.tick_eq
  rw [heq]
  constructor
  · intro k hk
    rw [hbeside _ (by omega)]
    exact h.msip k hk
  · intro k hk
    rw [hbeside _ (by omega)]
    exact h.mtimecmp k hk
  · intro k hk
    have hoff : 0xbff8 + k - 0xbff8 = k := by omega
    unfold Registers.tick writeBytes
    rw [if_pos (by omega), h.readBytes_mtime, hoff]
    exact bytesOf_one _ hk
  · exact h.masked

end Represents

/-- The range tests of `do_read`. -/
theorem doRead_eq (h : Represents c m) (hharts : nrHart ≤ 4095) (haddr : a.toNat < 0x10000)
    (hlen : l ≤ 8) (buffer : BitVec (8 * l)) :
    c.doRead a l buffer = .ok (if Inside nrHart a.toNat l then (true, readBytes m a.toNat l)
      else (false, buffer)) := by
  have hstop : (a + BitVec.ofNat 64 l).toNat = a.toNat + l := by
    rw [BitVec.toNat_add, BitVec.toNat_ofNat]
    omega
  have hmsip : msipEnd nrHart = 4 * nrHart := Nat.mod_eq_of_lt (by omega)
  have hmtimecmp : mtimecmpEnd nrHart = 0x4000 + 8 * nrHart := Nat.mod_eq_of_lt (by omega)
  unfold doRead
  rw [hstop, hmsip, hmtimecmp]
  dsimp only
  by_cases hhigh : a.toNat ≥ 0x4000
  · rw [if_pos hhigh]
    by_cases htime : a.toNat ≥ 0xbff8 ∧ a.toNat + l ≤ 0xc000
    · rw [if_pos htime, if_pos (.inr (.inr htime)), h.copy_mtime htime.1 htime.2]
      rfl
    · rw [if_neg htime]
      by_cases hcmp : a.toNat ≥ 0x4000 ∧ a.toNat + l ≤ 0x4000 + 8 * nrHart
      · rw [if_pos hcmp, if_pos (.inr (.inl hcmp)), h.copy_mtimecmp hcmp.1 hcmp.2]
        rfl
      · have hout : ¬ Inside nrHart a.toNat l := by
          unfold Inside
          omega
        rw [if_neg hcmp, if_neg hout]
        rfl
  · rw [if_neg hhigh]
    by_cases hlow : a.toNat + l ≤ 4 * nrHart
    · rw [if_pos hlow, if_pos (.inl hlow), h.copy_msip hlow]
      rfl
    · have hout : ¬ Inside nrHart a.toNat l := by
        unfold Inside
        omega
      rw [if_neg hlow, if_neg hout]
      rfl

/-- The range tests of `do_write`. -/
theorem doWrite_eq (h : Represents c m) (hharts : nrHart ≤ 4095) (haddr : a.toNat < 0x10000)
    (hlen : l ≤ 8) (buffer : BitVec (8 * l)) :
    (Inside nrHart a.toNat l ∧ ∃ c', c.doWrite a l buffer = .ok (true, c') ∧
      Represents c' (m.store nrHart a.toNat l buffer)) ∨
    (¬ Inside nrHart a.toNat l ∧ c.doWrite a l buffer = .ok (false, c)) := by
  have hstop : (a + BitVec.ofNat 64 l).toNat = a.toNat + l := by
    rw [BitVec.toNat_add, BitVec.toNat_ofNat]
    omega
  have hmsip : msipEnd nrHart = 4 * nrHart := Nat.mod_eq_of_lt (by omega)
  have hmtimecmp : mtimecmpEnd nrHart = 0x4000 + 8 * nrHart := Nat.mod_eq_of_lt (by omega)
  unfold doWrite
  rw [hstop, hmsip, hmtimecmp]
  dsimp only
  by_cases hhigh : a.toNat ≥ 0x4000
  · rw [if_pos hhigh]
    by_cases htime : a.toNat ≥ 0xbff8 ∧ a.toNat + l ≤ 0xc000
    · obtain ⟨v, hcopy, hrep⟩ := h.store_mtime hharts htime.1 htime.2 buffer
      rw [if_pos htime, hcopy]
      exact .inl ⟨.inr (.inr htime), _, rfl, hrep⟩
    · rw [if_neg htime]
      by_cases hcmp : a.toNat ≥ 0x4000 ∧ a.toNat + l ≤ 0x4000 + 8 * nrHart
      · obtain ⟨v, hcopy, hrep⟩ := h.store_mtimecmp hharts hcmp.1 hcmp.2 buffer
        rw [if_pos hcmp, hcopy]
        exact .inl ⟨.inr (.inl hcmp), _, rfl, hrep⟩
      · have hout : ¬ Inside nrHart a.toNat l := by
          unfold Inside
          omega
        rw [if_neg hcmp]
        exact .inr ⟨hout, rfl⟩
  · rw [if_neg hhigh]
    by_cases hlow : a.toNat + l ≤ 4 * nrHart
    · obtain ⟨v, hcopy, hrep⟩ := h.store_msip hharts hlow buffer
      rw [if_pos hlow, hcopy]
      exact .inl ⟨.inl hlow, _, rfl, hrep⟩
    · have hout : ¬ Inside nrHart a.toNat l := by
        unfold Inside
        omega
      rw [if_neg hlow]
      exact .inr ⟨hout, rfl⟩

theorem Represents.answers (h : Represents c m) (hharts : nrHart ≤ 4095) : Answers c m := by
  have hmod : ∀ b : Addr, (b % 0x10000).toNat = b.toNat % 0x10000 := fun b => BitVec.toNat_umod
  have haddr : ∀ b : Addr, (b % 0x10000).toNat < 0x10000 := fun b => by
    rw [hmod]
    exact Nat.mod_lt _ (by decide)
  constructor
  · intro b l buffer _ hlen
    unfold CLInt.load
    rw [doRead_eq h hharts (haddr b) hlen, hmod]
    by_cases hin : Inside nrHart (b.toNat % 0x10000) l
    · rw [if_pos hin, if_pos hin]
      rfl
    · rw [if_neg hin, if_neg hin]
      rfl
  · intro b l buffer _ hlen hin
    rw [← hmod] at hin
    rcases doWrite_eq h hharts (haddr b) hlen buffer with ⟨-, c', heq, -⟩ | ⟨hout, -⟩
    · unfold CLInt.store
      rw [heq]
      exact ⟨c', rfl⟩
    · exact absurd hin hout
  · intro b l buffer _ hlen hout
    rw [← hmod] at hout
    rcases doWrite_eq h hharts (haddr b) hlen buffer with ⟨hin, -⟩ | ⟨-, heq⟩
    · exact absurd hin hout
    · unfold CLInt.store
      rw [heq]
      rfl
  · intro i hi
    have hword : c.msip[i] &&& 1 = c.msip[i] := by
      have hmap := congrArg (fun v : Vector (BitVec 32) nrHart => v[i]) h.masked
      rwa [Vector.getElem_map] at hmap
    rw [← hword]
    exact and_one_cases _

/-- One operation on the device is one on its registers. -/
theorem Represents.apply (h : Represents c m) (hharts : nrHart ≤ 4095) {op : Op}
    (hsmall : Small op) : ∃ c', c.apply op = .ok c' ∧ Represents c' (m.apply nrHart op) := by
  have hmod : ∀ b : Addr, (b % 0x10000).toNat = b.toNat % 0x10000 := fun b => BitVec.toNat_umod
  cases op with
  | load b l =>
    refine ⟨c, ?_, h⟩
    unfold CLInt.apply
    dsimp only
    rw [(h.answers hharts).load b l 0 hsmall.1 hsmall.2]
    rfl
  | store b l buffer =>
    have haddr : (b % 0x10000).toNat < 0x10000 := by
      rw [hmod]
      exact Nat.mod_lt _ (by decide)
    unfold CLInt.apply CLInt.store Registers.apply
    dsimp only
    rw [← hmod]
    rcases doWrite_eq h hharts haddr hsmall.2 buffer with ⟨hin, c', heq, hrep⟩ | ⟨hout, heq⟩
    · rw [heq, if_pos hin]
      exact ⟨c', rfl, hrep⟩
    · rw [heq, if_neg hout]
      exact ⟨c, rfl, h⟩
  | tick => exact ⟨c.tick, rfl, h.tick hharts⟩

end Step

variable {nrHart : Nat}

/-- A new device has zeros. -/
theorem represents_init (contexts : Vector IntStatus nrHart) :
    Represents (init contexts) fun _ => 0 := by
  have hzero : ∀ w n k : Nat,
      bytesOf (Vector.replicate n (0 : BitVec (8 * w))) k = 0 := by
    intro w n k
    have hword : ((Vector.replicate n (0 : BitVec (8 * w)))[k / w]?).getD 0 = 0 := by
      by_cases hin : k / w < n
      · rw [Vector.getElem?_eq_getElem hin, Vector.getElem_replicate]
        rfl
      · rw [Vector.getElem?_eq_none (Nat.le_of_not_lt hin)]
        rfl
    unfold bytesOf
    rw [hword]
    exact BitVec.extractLsb'_zero
  constructor
  · intro k _
    exact hzero 4 nrHart k
  · intro k _
    exact hzero 8 nrHart k
  · intro k _
    exact hzero 8 1 k
  · apply Vector.ext
    intro i hi
    show ((Vector.replicate nrHart (0 : BitVec 32)).map (· &&& 1))[i] =
      (Vector.replicate nrHart (0 : BitVec 32))[i]
    rw [Vector.getElem_map, Vector.getElem_replicate]
    rfl

theorem run_represents {c : CLInt nrHart} {m : Registers} (h : Represents c m)
    (hharts : nrHart ≤ 4095) {ops : List Op} (hsmall : ∀ op ∈ ops, Small op) :
    ∃ c', c.run ops = .ok c' ∧ Represents c' (ops.foldl (Registers.apply nrHart) m) := by
  induction ops generalizing c m with
  | nil => exact ⟨c, rfl, h⟩
  | cons op ops ih =>
    obtain ⟨c₁, hop, hrep⟩ := h.apply hharts (hsmall op List.mem_cons_self)
    obtain ⟨c', hrun, hrep'⟩ := ih hrep fun o ho => hsmall o (List.mem_cons_of_mem op ho)
    refine ⟨c', ?_, hrep'⟩
    unfold CLInt.run
    rw [hop]
    exact hrun

/-- After any accesses of 1 to 8 bytes and ticks, the accesses that stay in one of the three ranges
succeed, a load with the last bytes stored there, and the others change nothing. -/
theorem registers_of_run (contexts : Vector IntStatus nrHart) (hharts : nrHart ≤ 4095)
    (ops : List Op) (hsmall : ∀ op ∈ ops, Small op) :
    ∃ c, (init contexts).run ops = .ok c ∧ Answers c (Registers.after nrHart ops) := by
  obtain ⟨c, hrun, hrep⟩ := run_represents (represents_init contexts) hharts hsmall
  exact ⟨c, hrun, hrep.answers hharts⟩

/-- A store of two bytes to the end of a word of `msip`, and a tick. -/
theorem registers_of_run_straddling :
    ∃ c, (init #v[default, default]).run [.store 3 2 0xffff, .tick] = .ok c ∧
      Answers c (Registers.after 2 [.store 3 2 0xffff, .tick]) := by
  apply registers_of_run #v[default, default] (by decide)
  intro op hop
  rcases List.mem_cons.mp hop with rfl | hop
  · exact ⟨by decide, by decide⟩
  · rw [List.mem_singleton.mp hop]
    trivial

end NextEmu.Device.CLIntRegisters
