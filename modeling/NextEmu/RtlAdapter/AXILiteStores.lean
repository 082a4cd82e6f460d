import NextEmu.Lib.ByteMemory
import NextEmu.RtlAdapter.AXILiteAdapter

/-!
# The bytes of a store

A store as the transactions that it issues, to a slave that answers each of them OKAY.
The whole words land where they belong. The strobe of the tail has the number of its
bytes for a mask, which is right for one byte; and a bus of 32 bits has no address behind
the first 4 GiB.
-/

namespace NextEmu.RtlAdapter.AXILiteStores

open NextEmu.Lib.ByteMemory NextEmu.Sdk

/-- What a slave sees of one write. -/
structure Transaction (w : BitWidth) where
  awaddr : w.Word
  wstrb : BitVec 8
  wdata : w.Word

/-- The lanes whose strobe bit is set, from the address on. -/
def Transaction.beat {w : BitWidth} (t : Transaction w) : Beat 64 where
  addr := t.awaddr.setWidth 64
  len := w.byteSize
  value := t.wdata
  strobe := t.wstrb.setWidth _

/-- The response to the last of some transactions. -/
abbrev Responses (w : BitWidth) := List (Transaction w) → BitVec 8

/-- `axiliteStore4B` and `axiliteStore8B` as one transaction. -/
def issue {w : BitWidth} (slave : Responses w) (addr : w.Word) (wstrb : BitVec 8) (val : w.Word) :
    StateM (List (Transaction w)) (BitVec 8) := fun done =>
  let done := done ++ [{ awaddr := addr, wstrb := wstrb, wdata := val }]
  (slave done, done)

/-- The transactions of a store. -/
def issued {w : BitWidth} (slave : Responses w) (beginAddr : Addr) (len : Nat)
    (buffer : Nat → BitVec 8) : List (Transaction w) :=
  (store w (issue slave) beginAddr len buffer []).2

/-- The memory behind some transactions. -/
def written {w : BitWidth} (m : Memory 64) (txs : List (Transaction w)) : Memory 64 :=
  txs.foldl (fun m t => t.beat.apply m) m

/-- They write the bytes of the buffer and no other. -/
def WritesExactly {w : BitWidth} (txs : List (Transaction w)) (beginAddr : Addr) (len : Nat)
    (buffer : Nat → BitVec 8) : Prop :=
  ∀ m : Memory 64, written m txs = lay m beginAddr buffer len

/-- The bus has an address for each of the bytes. -/
def Reaches (w : BitWidth) (beginAddr : Addr) (len : Nat) : Prop :=
  w = .w64 ∨ len = 0 ∨ beginAddr.toNat + len ≤ 2 ^ 32

instance (w : BitWidth) (beginAddr : Addr) (len : Nat) : Decidable (Reaches w beginAddr len) :=
  inferInstanceAs (Decidable (_ ∨ _ ∨ _))

/-! ## The transactions -/

section Issued

variable {w : BitWidth} {slave : Responses w} {beginAddr : Addr} {buffer : Nat → BitVec 8}

def wordAt (w : BitWidth) (beginAddr : Addr) (buffer : Nat → BitVec 8) (off : Nat) :
    Transaction w where
  awaddr := (beginAddr + BitVec.ofNat 64 off).setWidth _
  wstrb := w.fullStrobe
  wdata := readBytes buffer off w.byteSize

def wordsAt (w : BitWidth) (beginAddr : Addr) (buffer : Nat → BitVec 8) :
    Nat → Nat → List (Transaction w)
  | 0, _ => []
  | n + 1, off => wordAt w beginAddr buffer off :: wordsAt w beginAddr buffer n (off + w.byteSize)

def tailAt (w : BitWidth) (beginAddr : Addr) (buffer : Nat → BitVec 8) (off left : Nat) :
    Transaction w where
  awaddr := (beginAddr + BitVec.ofNat 64 off).setWidth _
  wstrb := BitVec.ofNat 8 left
  wdata := (readBytes buffer off left).setWidth _

theorem issue_bind {ρ : Type} (addr : w.Word) (wstrb : BitVec 8) (val : w.Word)
    (f : BitVec 8 → StateM (List (Transaction w)) ρ) (done : List (Transaction w)) :
    (issue slave addr wstrb val >>= f) done =
      f (slave (done ++ [⟨addr, wstrb, val⟩])) (done ++ [⟨addr, wstrb, val⟩]) := rfl

theorem storeWords_okay (beginAddr : Addr) (buffer : Nat → BitVec 8)
    (hokay : ∀ done, slave done = axiWriteFbSuccess) (n off : Nat) (done : List (Transaction w)) :
    storeWords w (issue slave) beginAddr buffer n off done =
      (none, done ++ wordsAt w beginAddr buffer n off) := by
  induction n generalizing off done with
  | zero => exact congrArg (Prod.mk none) (List.append_nil done).symm
  | succ n ih =>
    have hrest := ih (off + w.byteSize) (done ++ [wordAt w beginAddr buffer off])
    rw [List.append_assoc] at hrest
    rw [storeWords, issue_bind, hokay]
    exact hrest

/-- The transactions of a store that no response ends. -/
theorem issued_okay (hokay : ∀ done, slave done = axiWriteFbSuccess) (len : Nat) :
    issued slave beginAddr len buffer =
      wordsAt w beginAddr buffer ((len - len % w.byteSize) / w.byteSize) 0 ++
        [tailAt w beginAddr buffer (len - len % w.byteSize) (len % w.byteSize)] := by
  have hwords := storeWords_okay beginAddr buffer hokay
    ((len - len % w.byteSize) / w.byteSize) 0 []
  have hbind : ∀ (f : Option Feedback → StateM (List (Transaction w)) Feedback),
      (storeWords w (issue slave) beginAddr buffer ((len - len % w.byteSize) / w.byteSize) 0 >>= f)
        [] = f none (wordsAt w beginAddr buffer ((len - len % w.byteSize) / w.byteSize) 0) :=
    fun f => congrArg (fun r : Option Feedback × List (Transaction w) => f r.1 r.2) hwords
  unfold issued store
  dsimp only
  rw [hbind]
  rfl

end Issued

/-! ## The memory behind them -/

section Memory

variable {w : BitWidth} {beginAddr : Addr} {buffer : Nat → BitVec 8} {m : Memory 64}
  {len off left n : Nat}

theorem byteSize_pos (w : BitWidth) : 0 < w.byteSize := by
  cases w <;> decide

theorem byteSize_le (w : BitWidth) : w.byteSize ≤ 8 := by
  cases w <;> decide

/-- An address that the bus has is not cut off. -/
theorem awaddr_eq {a : Addr} (h : w = .w64 ∨ a.toNat < 2 ^ 32) :
    (a.setWidth (8 * w.byteSize)).setWidth 64 = a := by
  refine BitVec.eq_of_toNat_eq ?_
  rw [BitVec.toNat_setWidth, BitVec.toNat_setWidth]
  have hlt := a.isLt
  cases w with
  | w32 =>
    have h32 : a.toNat < 2 ^ 32 := h.resolve_left (by decide)
    have hsize : 8 * BitWidth.w32.byteSize = 32 := rfl
    rw [hsize]
    omega
  | w64 =>
    have hsize : 8 * BitWidth.w64.byteSize = 64 := rfl
    rw [hsize]
    omega

theorem addr_reached (hreach : Reaches w beginAddr len) (hoff : off < len) :
    w = .w64 ∨ (beginAddr + BitVec.ofNat 64 off).toNat < 2 ^ 32 := by
  rcases hreach with h | h | h
  · exact .inl h
  · omega
  · refine .inr ?_
    rw [BitVec.toNat_add, BitVec.toNat_ofNat]
    omega

theorem fullStrobe_bit (w : BitWidth) (j : Nat) :
    (w.fullStrobe.setWidth w.byteSize).getLsbD j = decide (j < w.byteSize) := by
  by_cases hj : j < w.byteSize
  · rw [decide_eq_true hj]
    have hall : ∀ j < w.byteSize, (w.fullStrobe.setWidth w.byteSize).getLsbD j = true := by
      cases w <;> decide
    exact hall j hj
  · rw [decide_eq_false hj]
    exact BitVec.getLsbD_of_ge _ _ (Nat.le_of_not_lt hj)

/-- The word behind the bytes that are there. -/
theorem wordAt_lays (haddr : w = .w64 ∨ (beginAddr + BitVec.ofNat 64 off).toNat < 2 ^ 32)
    (hfit : off + w.byteSize ≤ 2 ^ 64) :
    (wordAt w beginAddr buffer off).beat.apply (lay m beginAddr buffer off) =
      lay m beginAddr buffer (off + w.byteSize) :=
  Beat.apply_lay (awaddr_eq haddr) hfit (fullStrobe_bit w) fun _ hj => byte_readBytes hj

theorem written_wordsAt (m : Memory 64) (buffer : Nat → BitVec 8) (off n : Nat)
    (hreach : Reaches w beginAddr len) (hlen : len < 2 ^ 64) (h : off + n * w.byteSize ≤ len) :
    written (lay m beginAddr buffer off) (wordsAt w beginAddr buffer n off) =
      lay m beginAddr buffer (off + n * w.byteSize) := by
  induction n generalizing m off with
  | zero => rw [Nat.zero_mul, Nat.add_zero]; rfl
  | succ n ih =>
    have hpos := byteSize_pos w
    have hsum : off + (n + 1) * w.byteSize = off + w.byteSize + n * w.byteSize := by
      rw [Nat.succ_mul]
      omega
    rw [hsum] at h ⊢
    refine Eq.trans ?_ (ih m _ h)
    show written ((wordAt w beginAddr buffer off).beat.apply (lay m beginAddr buffer off)) _ = _
    rw [wordAt_lays (addr_reached hreach (by omega)) (by omega)]

theorem aligned_mul (w : BitWidth) (len : Nat) :
    (len - len % w.byteSize) / w.byteSize * w.byteSize = len - len % w.byteSize :=
  Nat.div_mul_cancel (Nat.dvd_sub_mod len)

/-- Before the tail, the whole words are where they belong. -/
theorem written_issued {slave : Responses w} (hokay : ∀ done, slave done = axiWriteFbSuccess)
    (hreach : Reaches w beginAddr len) (hlen : len < 2 ^ 64) :
    written m (issued slave beginAddr len buffer) =
      (tailAt w beginAddr buffer (len - len % w.byteSize) (len % w.byteSize)).beat.apply
        (lay m beginAddr buffer (len - len % w.byteSize)) := by
  have hwords := written_wordsAt m buffer 0 ((len - len % w.byteSize) / w.byteSize) hreach hlen (by
      rw [aligned_mul]
      omega)
  rw [Nat.zero_add, aligned_mul] at hwords
  have hempty : lay m beginAddr buffer 0 = m := funext fun _ => if_neg (Nat.not_lt_zero _)
  rw [hempty] at hwords
  rw [issued_okay hokay, written, List.foldl_append]
  show (tailAt w beginAddr buffer _ _).beat.apply (written m _) = _
  rw [hwords]

theorem tailStrobe_bit (left j : Nat) (hj : j < w.byteSize) :
    ((BitVec.ofNat 8 left).setWidth w.byteSize).getLsbD j = left.testBit j := by
  have h8 : j < 8 := Nat.lt_of_lt_of_le hj (byteSize_le w)
  rw [BitVec.getLsbD_setWidth, BitVec.getLsbD_ofNat]
  simp only [hj, h8, decide_true, Bool.true_and]

/-- The strobe of no byte and of one is the right mask. -/
theorem tailStrobe_low (h : left ≤ 1) (j : Nat) :
    ((BitVec.ofNat 8 left).setWidth w.byteSize).getLsbD j = decide (j < left) := by
  by_cases hj : j < w.byteSize
  · rw [tailStrobe_bit left j hj]
    have hall : ∀ left ≤ 1, ∀ j < 8, left.testBit j = decide (j < left) := by decide
    exact hall left h j (Nat.lt_of_lt_of_le hj (byteSize_le w))
  · rw [BitVec.getLsbD_of_ge _ _ (Nat.le_of_not_lt hj)]
    have hpos := byteSize_pos w
    exact (decide_eq_false (by omega)).symm

/-- That of more misses one of them. -/
theorem tailStrobe_misses (h : 1 < left) (hlt : left < w.byteSize) :
    ∃ j, j < left ∧ left.testBit j = false := by
  have hall : ∀ left < 8, 1 < left → ∃ j, j < left ∧ left.testBit j = false := by decide
  exact hall left (Nat.lt_of_lt_of_le hlt (byteSize_le w)) h

theorem byte_tail {j : Nat} (hj : j < left) (hlt : left < w.byteSize) :
    ((readBytes buffer off left).setWidth (8 * w.byteSize)).extractLsb' (8 * j) 8 =
      buffer (off + j) := by
  refine Eq.trans (BitVec.eq_of_getLsbD_eq fun i hi => ?_) (byte_readBytes hj)
  have hin : 8 * j + i < 8 * w.byteSize := by omega
  simp only [BitVec.getLsbD_extractLsb', BitVec.getLsbD_setWidth, hi, hin, decide_true,
    Bool.true_and]

/-- A tail of at most one byte. -/
theorem tailAt_lays (hreach : Reaches w beginAddr (off + left)) (hlen : off + left < 2 ^ 64)
    (hlt : left < w.byteSize) (h : left ≤ 1) :
    (tailAt w beginAddr buffer off left).beat.apply (lay m beginAddr buffer off) =
      lay m beginAddr buffer (off + left) := by
  rcases Nat.eq_zero_or_pos left with rfl | hpos
  · have hnone : ∀ j, (tailAt w beginAddr buffer off 0).beat.strobe.getLsbD j = false := by
      intro j
      exact (tailStrobe_low h j).trans (decide_eq_false (Nat.not_lt_zero j))
    exact Beat.apply_strobeless hnone _
  · exact Beat.apply_lay (awaddr_eq (addr_reached hreach (by omega))) (by omega)
      (tailStrobe_low h) fun j hj => byte_tail hj hlt

/-- A tail of more. -/
theorem tailAt_misses (buffer : Nat → BitVec 8) (hreach : Reaches w beginAddr (off + left))
    (hlen : off + left < 2 ^ 64) (hlt : left < w.byteSize) (h : 1 < left) :
    ∃ j, j < left ∧ ∀ m : Memory 64, (tailAt w beginAddr buffer off left).beat.apply m
      (beginAddr + BitVec.ofNat 64 (off + j)) = m (beginAddr + BitVec.ofNat 64 (off + j)) := by
  obtain ⟨j, hj, hbit⟩ := tailStrobe_misses h hlt
  refine ⟨j, hj, fun m => Beat.apply_uncovered ?_ m⟩
  have haddr : (tailAt w beginAddr buffer off left).beat.addr = beginAddr + BitVec.ofNat 64 off :=
    awaddr_eq (addr_reached hreach (by omega))
  have hsum : beginAddr + BitVec.ofNat 64 (off + j) =
      beginAddr + BitVec.ofNat 64 off + BitVec.ofNat 64 j := by
    rw [BitVec.ofNat_add, BitVec.add_assoc]
  have hdist : (beginAddr + BitVec.ofNat 64 (off + j) -
      (tailAt w beginAddr buffer off left).beat.addr).toNat = j := by
    rw [haddr, hsum, toNat_behind _ (by omega)]
  have hstrobe : (tailAt w beginAddr buffer off left).beat.strobe.getLsbD j = false :=
    (tailStrobe_bit left j (by omega)).trans hbit
  rw [Beat.Covers, hdist, hstrobe]
  exact Bool.false_ne_true

/-! ### Addresses that the bus does not have -/

/-- No transaction with an aligned address reaches behind the bus. -/
theorem beat_below {t : Transaction .w32} (halign : t.awaddr.toNat % 4 = 0) {a : Addr}
    (ha : 2 ^ 32 ≤ a.toNat) : t.beat.apply m a = m a := by
  refine Beat.apply_uncovered ?_ m
  have hword : t.awaddr.toNat < 2 ^ 32 := t.awaddr.isLt
  have haddr : t.beat.addr.toNat = t.awaddr.toNat := by
    refine (BitVec.toNat_setWidth ..).trans (Nat.mod_eq_of_lt ?_)
    omega
  have hdist : 4 ≤ (a - t.beat.addr).toNat := by
    rw [BitVec.toNat_sub, haddr]
    have hlt := a.isLt
    omega
  have hstrobe : t.beat.strobe.getLsbD (a - t.beat.addr).toNat = false :=
    BitVec.getLsbD_of_ge _ _ hdist
  rw [Beat.Covers, hstrobe]
  exact Bool.false_ne_true

theorem written_below {txs : List (Transaction .w32)}
    (halign : ∀ t ∈ txs, t.awaddr.toNat % 4 = 0) {a : Addr} (ha : 2 ^ 32 ≤ a.toNat) :
    written m txs a = m a := by
  induction txs generalizing m with
  | nil => rfl
  | cons t txs ih =>
    have hrest := ih (m := t.beat.apply m) fun t ht => halign t (List.mem_cons_of_mem _ ht)
    exact hrest.trans (beat_below (halign t List.mem_cons_self) ha)

theorem awaddr_aligned (hbegin : beginAddr.toNat % 4 = 0) (hoff : off % 4 = 0) :
    ((beginAddr + BitVec.ofNat 64 off).setWidth (8 * BitWidth.w32.byteSize)).toNat % 4 = 0 := by
  have hsize : 8 * BitWidth.w32.byteSize = 32 := rfl
  rw [BitVec.toNat_setWidth, BitVec.toNat_add, BitVec.toNat_ofNat, hsize]
  omega

theorem wordsAt_aligned (hbegin : beginAddr.toNat % 4 = 0) (hoff : off % 4 = 0) :
    ∀ t ∈ wordsAt .w32 beginAddr buffer n off, t.awaddr.toNat % 4 = 0 := by
  induction n generalizing off with
  | zero => exact fun t ht => absurd ht (List.not_mem_nil)
  | succ n ih =>
    intro t ht
    rcases List.mem_cons.mp ht with rfl | ht
    · exact awaddr_aligned hbegin hoff
    · have hsize : BitWidth.w32.byteSize = 4 := rfl
      rw [hsize] at ht
      exact ih (Nat.add_mod_right off 4 ▸ hoff) t ht

theorem issued_aligned {slave : Responses .w32} (hokay : ∀ done, slave done = axiWriteFbSuccess)
    (hbegin : beginAddr.toNat % 4 = 0) :
    ∀ t ∈ issued slave beginAddr len buffer, t.awaddr.toNat % 4 = 0 := by
  intro t ht
  rw [issued_okay hokay] at ht
  have hsize : BitWidth.w32.byteSize = 4 := rfl
  rcases List.mem_append.mp ht with ht | ht
  · exact wordsAt_aligned hbegin rfl t ht
  · rw [List.mem_singleton.mp ht]
    exact awaddr_aligned hbegin (by rw [hsize]; omega)

/-- A byte that the bus does not reach. -/
theorem exists_behind (h : ¬ Reaches .w32 beginAddr len) :
    ∃ k, k < len ∧ 2 ^ 32 ≤ (beginAddr + BitVec.ofNat 64 k).toNat := by
  have hlen : ¬ len = 0 := fun h0 => h (.inr (.inl h0))
  have hend : ¬ beginAddr.toNat + len ≤ 2 ^ 32 := fun hle => h (.inr (.inr hle))
  by_cases hbegin : 2 ^ 32 ≤ beginAddr.toNat
  · refine ⟨0, by omega, ?_⟩
    rw [BitVec.add_zero]
    exact hbegin
  · refine ⟨2 ^ 32 - beginAddr.toNat, by omega, ?_⟩
    rw [BitVec.toNat_add, BitVec.toNat_ofNat]
    omega

end Memory

/-- A byte of the buffer that no transaction writes. -/
theorem not_exactly {w : BitWidth} {txs : List (Transaction w)} {beginAddr : Addr} {len k : Nat}
    {buffer : Nat → BitVec 8} (hlen : len < 2 ^ 64) (hk : k < len)
    (h : ∀ m : Memory 64, written m txs (beginAddr + BitVec.ofNat 64 k) =
      lay m beginAddr buffer k (beginAddr + BitVec.ofNat 64 k)) :
    ¬ WritesExactly txs beginAddr len buffer := by
  intro hexact
  have hbyte := congrFun (hexact fun _ => buffer k + 1) (beginAddr + BitVec.ofNat 64 k)
  rw [h, lay_behind _ (by omega), if_neg (Nat.lt_irrefl k), lay_behind _ (by omega),
    if_pos hk] at hbyte
  have hsucc := congrArg BitVec.toNat hbyte
  rw [BitVec.toNat_add] at hsucc
  have hlt := (buffer k).isLt
  have hone : (1 : BitVec 8).toNat = 1 := rfl
  omega

/-- The transactions write exactly the requested bytes when the tail has at most one byte and the
bus has all the addresses, and only then. -/
theorem stores_exact (w : BitWidth) (slave : Responses w)
    (hokay : ∀ done, slave done = axiWriteFbSuccess) (beginAddr : Addr)
    (halign : beginAddr.toNat % w.byteSize = 0) (len : Nat) (hlen : len < 2 ^ 64)
    (buffer : Nat → BitVec 8) :
    WritesExactly (issued slave beginAddr len buffer) beginAddr len buffer ↔
      len % w.byteSize ≤ 1 ∧ Reaches w beginAddr len := by
  have hlt : len % w.byteSize < w.byteSize := Nat.mod_lt _ (byteSize_pos w)
  have hsum : len - len % w.byteSize + len % w.byteSize = len :=
    Nat.sub_add_cancel (Nat.mod_le ..)
  have hle := Nat.mod_le len w.byteSize
  constructor
  · intro hexact
    have hreach : Reaches w beginAddr len := by
      refine Decidable.byContradiction fun hno => ?_
      cases w with
      | w64 => exact hno (.inl rfl)
      | w32 =>
        obtain ⟨k, hk, hfar⟩ := exists_behind hno
        refine not_exactly hlen hk (fun m => ?_) hexact
        rw [written_below (issued_aligned hokay halign) hfar, lay_behind _ (by omega),
          if_neg (Nat.lt_irrefl k)]
    refine ⟨Decidable.byContradiction fun hmore => ?_, hreach⟩
    obtain ⟨j, hj, hmiss⟩ := tailAt_misses buffer (hsum.symm ▸ hreach) (by omega) hlt
      (Nat.lt_of_not_le hmore)
    refine not_exactly (k := len - len % w.byteSize + j) hlen (by omega) (fun m => ?_) hexact
    rw [written_issued hokay hreach hlen, hmiss, lay_behind _ (by omega), if_neg (by omega),
      lay_behind _ (by omega), if_neg (Nat.lt_irrefl _)]
  · rintro ⟨hleft, hreach⟩ m
    rw [written_issued hokay hreach hlen,
      tailAt_lays (hsum.symm ▸ hreach) (by omega) hlt hleft, hsum]

/-- Two bytes on a bus of four: the strobe is 0b10. -/
theorem two_bytes_dropped :
    ¬ ∀ (w : BitWidth) (slave : Responses w), (∀ done, slave done = axiWriteFbSuccess) →
      ∀ beginAddr : Addr, beginAddr.toNat % w.byteSize = 0 → ∀ len < 2 ^ 64,
      ∀ buffer : Nat → BitVec 8,
      WritesExactly (issued slave beginAddr len buffer) beginAddr len buffer := by
  intro hall
  have hexact := hall .w32 (fun _ => axiWriteFbSuccess) (fun _ => rfl) 0 rfl 2 (by decide)
    (fun _ => 0xff)
  exact absurd (congrFun (hexact fun _ => 0) 0) (by decide)

/-- Five bytes. -/
theorem stores_exact_five :
    WritesExactly (issued (w := .w32) (fun _ => axiWriteFbSuccess) 0x80000000 5
      (BitVec.ofNat 8)) 0x80000000 5 (BitVec.ofNat 8) :=
  (stores_exact .w32 (fun _ => axiWriteFbSuccess) (fun _ => rfl) 0x80000000 rfl 5 (by decide)
    (BitVec.ofNat 8)).mpr (by decide)

end NextEmu.RtlAdapter.AXILiteStores
