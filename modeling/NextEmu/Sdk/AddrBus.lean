import NextEmu.Sdk.Interface

/-!
# The address bus

`sdk/base/AddrBus.hpp`. Main memory is checked before the devices, with the two
address comparisons of the source and no look at the length. Host memory from
the first byte of the array on is a total function, so that a copy that leaves
the array is still a value; `memSize` says where the array ends.
-/

namespace NextEmu.Sdk

/-- The `len` bytes from `off` on, little-endian. -/
def readBytes (m : Nat → BitVec 8) (off : Nat) : (len : Nat) → BitVec (8 * len)
  | 0 => 0#0
  | len + 1 => readBytes m (off + 1) len ++ m off

/-- The `len` bytes from `off` on replaced by those of `x`. -/
def writeBytes (m : Nat → BitVec 8) (off len : Nat) (x : BitVec (8 * len)) : Nat → BitVec 8 :=
  fun a => if off ≤ a ∧ a < off + len then x.extractLsb' (8 * (a - off)) 8 else m a

theorem getLsbD_readBytes (m : Nat → BitVec 8) (off len i : Nat) :
    (readBytes m off len).getLsbD i =
      (decide (i < 8 * len) && (m (off + i / 8)).getLsbD (i % 8)) := by
  induction len generalizing off i with
  | zero => simp [readBytes]
  | succ len ih =>
    have happ : (readBytes m off (len + 1)).getLsbD i =
        if i < 8 then (m off).getLsbD i else (readBytes m (off + 1) len).getLsbD (i - 8) :=
      BitVec.getLsbD_append
    rw [happ]
    split
    · rename_i hi
      have hlt : i < 8 * (len + 1) := by omega
      have hdiv : i / 8 = 0 := by omega
      have hmod : i % 8 = i := by omega
      simp only [hlt, decide_true, Bool.true_and, hdiv, hmod, Nat.add_zero]
    · rename_i hi
      have hiff : i - 8 < 8 * len ↔ i < 8 * (len + 1) := by omega
      have hdiv : off + 1 + (i - 8) / 8 = off + i / 8 := by omega
      have hmod : (i - 8) % 8 = i % 8 := by omega
      rw [ih, hdiv, hmod, decide_eq_decide.mpr hiff]

/-- The bytes of the word that some bytes spell. -/
theorem byte_readBytes {m : Nat → BitVec 8} {off len k : Nat} (hk : k < len) :
    (readBytes m off len).extractLsb' (8 * k) 8 = m (off + k) := by
  refine BitVec.eq_of_getLsbD_eq fun i hi => ?_
  have hin : 8 * k + i < 8 * len := by omega
  have hdiv : (8 * k + i) / 8 = k := by omega
  have hmod : (8 * k + i) % 8 = i := by omega
  rw [BitVec.getLsbD_extractLsb', getLsbD_readBytes, hdiv, hmod]
  simp only [hi, hin, decide_true, Bool.true_and]

/-- Bytes that agree spell the same word, also at another place. -/
theorem readBytes_moved {m m' : Nat → BitVec 8} {off off' len : Nat}
    (h : ∀ k, k < len → m (off + k) = m' (off' + k)) :
    readBytes m off len = readBytes m' off' len := by
  refine BitVec.eq_of_getLsbD_eq fun i hi => ?_
  rw [getLsbD_readBytes, getLsbD_readBytes, h (i / 8) (by omega)]

theorem readBytes_congr {m m' : Nat → BitVec 8} {off len : Nat}
    (h : ∀ a, off ≤ a → a < off + len → m a = m' a) :
    readBytes m off len = readBytes m' off len := by
  apply readBytes_moved
  intro k hk
  exact h (off + k) (by omega) (by omega)

/-- Words that agree have the same bytes. -/
theorem readBytes_inj {m m' : Nat → BitVec 8} {off len : Nat}
    (h : readBytes m off len = readBytes m' off len) {a : Nat} (hlo : off ≤ a)
    (hhi : a < off + len) : m a = m' a := by
  refine BitVec.eq_of_getLsbD_eq fun i hi => ?_
  have hbit := congrArg (·.getLsbD (8 * (a - off) + i)) h
  have hlt : 8 * (a - off) + i < 8 * len := by omega
  have hdiv : off + (8 * (a - off) + i) / 8 = a := by omega
  have hmod : (8 * (a - off) + i) % 8 = i := by omega
  simpa only [getLsbD_readBytes, hlt, decide_true, Bool.true_and, hdiv, hmod] using hbit

theorem readBytes_writeBytes (m : Nat → BitVec 8) (off len : Nat) (x : BitVec (8 * len)) :
    readBytes (writeBytes m off len x) off len = x := by
  refine BitVec.eq_of_getLsbD_eq fun i hi => ?_
  have hin : off ≤ off + i / 8 ∧ off + i / 8 < off + len := by omega
  have hmod : i % 8 < 8 := Nat.mod_lt _ (by decide)
  have hsum : 8 * (off + i / 8 - off) + i % 8 = i := by omega
  rw [getLsbD_readBytes, writeBytes, if_pos hin, BitVec.getLsbD_extractLsb', hsum]
  simp only [hi, hmod, decide_true, Bool.true_and]

/-- A read beside a write. -/
theorem readBytes_writeBytes_of_disjoint (m : Nat → BitVec 8) {off len off' len' : Nat}
    (x : BitVec (8 * len)) (h : off' + len' ≤ off ∨ off + len ≤ off') :
    readBytes (writeBytes m off len x) off' len' = readBytes m off' len' := by
  refine readBytes_congr fun a hlo hhi => ?_
  have hout : ¬ (off ≤ a ∧ a < off + len) := by omega
  rw [writeBytes, if_neg hout]

/-- `AddrBus`, with `std::map` as its list of entries in key order. -/
structure AddrBus (δ : Type) extends SlaveAtomic where
  mainMem : Option (Nat → BitVec 8)
  memBeginAddr : Addr
  memEndAddr : Addr
  devices : List (Addr × δ)
  keyOrder : devices.Pairwise (fun a b => a.1 < b.1)

namespace AddrBus

variable {δ : Type}

/-- A bus as constructed: no main memory, no device, no reservation. -/
def empty : AddrBus δ where
  mainMem := none
  memBeginAddr := 0
  memEndAddr := 0
  devices := []
  keyOrder := .nil

/-- `AddrBus::setMem`, with the initial contents of the array. -/
def setMem (b : AddrBus δ) (beginAddr : Addr) (memSize : BitVec 64) (m : Nat → BitVec 8) :
    AddrBus δ :=
  { b with mainMem := some m, memBeginAddr := beginAddr, memEndAddr := beginAddr + memSize }

/-- The main memory branch is taken: there is main memory and the first address
lies between its two ends, both included. -/
def inMainMem (b : AddrBus δ) (beginAddr : Addr) : Bool :=
  b.mainMem.isSome && b.memBeginAddr ≤ beginAddr && beginAddr ≤ b.memEndAddr

/-- `upper_bound` and one step back: the entry with the greatest key not above `addr`. -/
def findDev (b : AddrBus δ) (addr : Addr) : Option (Addr × δ) :=
  (b.devices.filter (fun d => d.1 ≤ addr)).getLast?

/-- The device registered at `key` has gone from its state to `d`. -/
def putDev (b : AddrBus δ) (key : Addr) (d : δ) : AddrBus δ :=
  { b with
    devices := b.devices.map (fun e => if e.1 = key then (e.1, d) else e)
    keyOrder := by
      refine List.pairwise_map.mpr (b.keyOrder.imp ?_)
      intro x y hxy
      split <;> split <;> exact hxy }

/-- What a store does to the reservation before anything else. -/
def breakReservation (b : AddrBus δ) (beginAddr : Addr) (len : BitVec 64) : AddrBus δ :=
  if b.reservationValid then
    if beginAddr ≤ b.reserveBeginAddr ∧ b.reserveBeginAddr + b.reserveLen ≤ beginAddr + len then
      { b with reservationValid := false }
    else b
  else b

theorem breakReservation_memory (b : AddrBus δ) (beginAddr : Addr) (len : BitVec 64) :
    (b.breakReservation beginAddr len).mainMem = b.mainMem ∧
      (b.breakReservation beginAddr len).memBeginAddr = b.memBeginAddr ∧
      (b.breakReservation beginAddr len).memEndAddr = b.memEndAddr ∧
      (b.breakReservation beginAddr len).devices = b.devices := by
  unfold breakReservation
  split
  · split <;> exact ⟨rfl, rfl, rfl, rfl⟩
  · exact ⟨rfl, rfl, rfl, rfl⟩

variable [SlaveIOI δ]

/-- `AddrBus::load`. -/
def load (b : AddrBus δ) (beginAddr : Addr) (len : Nat) :
    (Feedback × BitVec (8 * len)) × AddrBus δ :=
  if b.inMainMem beginAddr then
    let m := b.mainMem.getD (fun _ => 0)
    ((.success, readBytes m (beginAddr - b.memBeginAddr).toNat len), b)
  else
    match b.findDev beginAddr with
    | none => ((.devNotFound, 0), b)
    | some (key, d) =>
      let r := SlaveIOI.load d (beginAddr - key) len
      (r.1, b.putDev key r.2)

/-- `AddrBus::store` once the reservation has been looked at. -/
def storeRouted (b : AddrBus δ) (beginAddr : Addr) (len : Nat) (x : BitVec (8 * len)) :
    Feedback × AddrBus δ :=
  if b.inMainMem beginAddr then
    let m := b.mainMem.getD (fun _ => 0)
    (.success, { b with mainMem := some (writeBytes m (beginAddr - b.memBeginAddr).toNat len x) })
  else
    match b.findDev beginAddr with
    | none => (.devNotFound, b)
    | some (key, d) =>
      let r := SlaveIOI.store d (beginAddr - key) len x
      (r.1, b.putDev key r.2)

/-- `AddrBus::store`. -/
def store (b : AddrBus δ) (beginAddr : Addr) (len : Nat) (x : BitVec (8 * len)) :
    Feedback × AddrBus δ :=
  (b.breakReservation beginAddr (BitVec.ofNat 64 len)).storeRouted beginAddr len x

/-- The reservation that the bus inherits from `SlaveAtomic_I`. -/
def reserve (b : AddrBus δ) (beginAddr : Addr) (len hartId : BitVec 64) : AddrBus δ :=
  { b with toSlaveAtomic := b.toSlaveAtomic.reserve beginAddr len hartId }

def check (b : AddrBus δ) (beginAddr : Addr) (len hartId : BitVec 64) : Bool × AddrBus δ :=
  let r := b.toSlaveAtomic.check beginAddr len hartId
  (r.1, { b with toSlaveAtomic := r.2 })

instance : SlaveAtomicIOI (AddrBus δ) where
  load := load
  store := store
  reserve b a len h := b.reserve a (BitVec.ofNat 64 len) h
  check b a len h := b.check a (BitVec.ofNat 64 len) h

end AddrBus

/-- The devices of a bus that has none. -/
instance : SlaveIOI Empty where
  load d := nomatch d
  store d := nomatch d

end NextEmu.Sdk
