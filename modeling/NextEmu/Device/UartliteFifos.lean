import NextEmu.Device.Uartlite
import NextEmu.Lib.Mutex

/-!
# The two queues of the UART

Each queue has a mutex, and a store takes both. What a queue still owes depends on where the
owner of its mutex is: a store has written the byte before it queues it, `tick` has taken one out
before it hands it over, a load has copied the front before it removes it. With that counted
nothing is lost, doubled or overtaken, however the calls interleave.
-/

namespace NextEmu.Device.UartliteFifos

open NextEmu.Sdk NextEmu.Lib.Mutex Uartlite

/-! ## Accesses to the registers -/

section Registers

variable {b : Addr} {len off : Nat} {x : BitVec (8 * len)} {u : Uartlite}

/-- The access has at least one byte and all of them in the registers. -/
def InRange (b : Addr) (len : Nat) : Prop := 1 ≤ len ∧ b.toNat + len ≤ regSize

instance : Decidable (InRange b len) := inferInstanceAs (Decidable (_ ∧ _))

/-- The byte of the buffer that is for the first byte of the field at `off`. -/
def byteFor (b : Addr) {len : Nat} (x : BitVec (8 * len)) (off : Nat) : BitVec 8 :=
  x.extractLsb' (8 * (off - b.toNat)) 8

/-- The store sets one of the reset bits. -/
def Resets (b : Addr) (len : Nat) (x : BitVec (8 * len)) : Prop :=
  accessed b len control = true ∧
    byteFor b x control &&& (CTRL_RST_TX ||| CTRL_RST_RX).setWidth 8 ≠ 0

instance : Decidable (Resets b len x) := inferInstanceAs (Decidable (_ ∧ _))

theorem toNat_end (h : InRange b len) : (b + BitVec.ofNat 64 len).toNat = b.toNat + len := by
  obtain ⟨-, hhi⟩ := h
  unfold regSize at hhi
  rw [BitVec.toNat_add, BitVec.toNat_ofNat]
  omega

theorem inside_of_inRange (h : InRange b len) : outside b len = false := by
  have hhi := h.2
  unfold outside
  rw [toNat_end h]
  exact decide_eq_false (Nat.not_lt.mpr hhi)

theorem accessed_iff (h : InRange b len) (hoff : off < regSize) :
    accessed b len off = true ↔ b.toNat ≤ off ∧ off < b.toNat + len := by
  have hend := toNat_end h
  obtain ⟨hlo, hhi⟩ := h
  unfold regSize at hhi hoff
  have hone : BitVec.toNat (1 : BitVec 64) = 1 := rfl
  have hlast : (b + BitVec.ofNat 64 len - 1).toNat = b.toNat + len - 1 := by
    rw [BitVec.toNat_sub, hend, hone]
    omega
  unfold accessed
  rw [Bool.and_eq_true, decide_eq_true_iff, decide_eq_true_iff, BitVec.le_def, BitVec.le_def,
    hlast, BitVec.toNat_ofNat]
  omega

/-- Of the registers only an access at offset 0 has the receive queue. -/
theorem accessed_rxFifo (h : InRange b len) : accessed b len rxFifo = true ↔ b = 0 := by
  have hlo := h.1
  rw [accessed_iff h (by decide)]
  unfold rxFifo
  rw [BitVec.toNat_eq]
  show _ ↔ b.toNat = 0
  omega

theorem setWidth_readBytes (m : Nat → BitVec 8) (off : Nat) {len : Nat} (h : 1 ≤ len) :
    (readBytes m off len).setWidth 8 = m off := by
  refine BitVec.eq_of_getLsbD_eq fun i hi => ?_
  have hlt : i < 8 * len := by omega
  have hdiv : off + i / 8 = off := by omega
  have hmod : i % 8 = i := by omega
  rw [BitVec.getLsbD_setWidth, getLsbD_readBytes, hdiv, hmod, decide_eq_true hi,
    decide_eq_true hlt, Bool.true_and, Bool.true_and]

theorem writeBytes_covered (m : Nat → BitVec 8) (h : b.toNat ≤ off ∧ off < b.toNat + len) :
    writeBytes m b.toNat len x off = byteFor b x off := if_pos h

/-- What the store has written is in the registers. -/
def Holds (u : Uartlite) (b : Addr) (len : Nat) (x : BitVec (8 * len)) : Prop :=
  ∀ off, off < regSize → accessed b len off = true → u.regs off = byteFor b x off

theorem getLsbD_reg (off i : Nat) (hi : i < 8) :
    (u.reg off).getLsbD i = (u.regs off).getLsbD i := by
  have hlt : i < 8 * 4 := by omega
  have hdiv : off + i / 8 = off := by omega
  have hmod : i % 8 = i := by omega
  unfold reg
  rw [getLsbD_readBytes, hdiv, hmod, decide_eq_true hlt, Bool.true_and]

/-- Without a reset bit the queues stay. -/
theorem reset_eq (hholds : Holds u b len x) (hacc : accessed b len control = true)
    (h : ¬ Resets b len x) : u.reset = u := by
  have hbyte : u.regs control &&& (CTRL_RST_TX ||| CTRL_RST_RX).setWidth 8 = 0 := by
    rw [hholds control (by decide) hacc]
    exact Decidable.not_not.mp fun hne => h ⟨hacc, hne⟩
  have hbits : ∀ y : BitVec 8, y &&& (CTRL_RST_TX ||| CTRL_RST_RX).setWidth 8 = 0 →
      y.getLsbD 0 = false ∧ y.getLsbD 1 = false := by decide
  obtain ⟨h0, h1⟩ := hbits _ hbyte
  have htx : u.reg control &&& CTRL_RST_TX = 0 := by
    show u.reg control &&& BitVec.twoPow 32 0 = 0
    rw [BitVec.and_twoPow, getLsbD_reg control 0 (by decide), h0]
    rfl
  have hrx : u.reg control &&& CTRL_RST_RX = 0 := by
    show u.reg control &&& BitVec.twoPow 32 1 = 0
    rw [BitVec.and_twoPow, getLsbD_reg control 1 (by decide), h1]
    rfl
  unfold reset
  simp only [htx, hrx, ne_eq, not_true_eq_false, if_false]

theorem latch_queues (u : Uartlite) :
    u.latch.devSize = u.devSize ∧ u.latch.tx = u.tx ∧ u.latch.rx = u.rx := by
  unfold latch
  split <;> exact ⟨rfl, rfl, rfl⟩

/-- A load finds the front of the queue in the register. -/
theorem latch_front {c : BitVec 8} {rest : List (BitVec 8)} (h : u.rx = c :: rest) :
    u.latch.regs rxFifo = c := by
  have hcovered : rxFifo ≤ rxFifo ∧ rxFifo < rxFifo + 4 := by decide
  have hregs : u.latch.regs rxFifo = (c.setWidth 32).extractLsb' (8 * 0) 8 := by
    unfold latch
    rw [h]
    dsimp only [setReg, writeBytes]
    rw [if_pos hcovered]
    rfl
  have hlow : ∀ y : BitVec 8, (y.setWidth 32).extractLsb' (8 * 0) 8 = y := by decide
  exact hregs.trans (hlow c)

end Registers

/-! ## The critical sections -/

/-- The points at which a thread has `txMutex`. -/
def insideTx : Point → Bool
  | .store .txLocked _ _ _ | .store .locked _ _ _ | .store .copied _ _ _
  | .store .pushed _ _ _ | .store .done _ _ _ => true
  | .tick .asking | .tick (.answered _) | .tick .locked | .tick (.popped _) => true
  | _ => false

/-- The points at which a thread has `rxMutex`. -/
def insideRx : Point → Bool
  | .load .locked _ _ | .load .latched _ _ | .load .copied _ _ | .load .done _ _ => true
  | .store .locked _ _ _ | .store .copied _ _ _ | .store .pushed _ _ _ | .store .done _ _ _
  | .store .txUnlocked _ _ _ => true
  | .readInput .locked _ | .readInput .pushed _ => true
  | _ => false

/-- What has been stored and not handed over, when the owner of `txMutex` is at the point. -/
def outgoing (tx : List (BitVec 8)) : Option Point → List (BitVec 8)
  | some (.store .copied b len x) =>
    if accessed b len txFifo then tx ++ [byteFor b x txFifo] else tx
  | some (.tick (.popped c)) => c :: tx
  | _ => tx

/-- What has been pushed and not returned, when the owner of `rxMutex` is at the point. -/
def incoming (rx : List (BitVec 8)) : Option Point → List (BitVec 8)
  | some (.load .copied b len) => if accessed b len rxFifo then rx.tail else rx
  | _ => rx

/-- The accesses that a call makes are in range and set no reset bit. -/
def Allowed : Point → Prop
  | .load _ b len => InRange b len
  | .store _ b len x => InRange b len ∧ ¬ Resets b len x
  | _ => True

/-- What a thread at the point relies on. -/
def Sees (u : Uartlite) : Point → Prop
  | .load .latched _ _ => ∀ c rest, u.rx = c :: rest → u.regs rxFifo = c
  | .store .copied b len x | .store .pushed b len x => Holds u b len x
  | _ => True

/-- Only who has `rxMutex` relies on anything. -/
theorem sees_outside {u : Uartlite} {p : Point} (h : insideRx p = false) : Sees u p := by
  unfold Sees
  split <;> first | exact trivial | cases h

section Copies

variable {ι : Type} {w : World ι}

/-- A load that copies the front of the queue returns it. -/
theorem copyOut_owes {b : Addr} {len : Nat} (h : InRange b len)
    (hsees : ∀ c rest, w.dev.rx = c :: rest → w.dev.regs rxFifo = c) :
    w.returned ++ w.dev.rx = (w.copyOut b len).returned ++
      if accessed b len rxFifo then w.dev.rx.tail else w.dev.rx := by
  unfold World.copyOut
  cases hacc : accessed b len rxFifo with
  | false => rfl
  | true =>
    cases hrx : w.dev.rx with
    | nil => rfl
    | cons c rest =>
      obtain rfl := (accessed_rxFifo h).mp hacc
      have hfront : (readBytes w.dev.regs (0 : Addr).toNat len).setWidth 8 = c :=
        (setWidth_readBytes _ _ h.1).trans (hsees c rest hrx)
      show w.returned ++ c :: rest = w.returned ++ [_] ++ rest
      rw [hfront, List.append_assoc]
      rfl

/-- A store that writes `tx_fifo` owes its byte from then on. -/
theorem copyIn_owes {b : Addr} {len : Nat} {x : BitVec (8 * len)}
    (h : w.stored = w.handed ++ w.dev.tx) :
    (w.copyIn b len x).stored = w.handed ++
      if accessed b len txFifo then w.dev.tx ++ [byteFor b x txFifo] else w.dev.tx := by
  unfold World.copyIn
  cases accessed b len txFifo with
  | false => exact h
  | true =>
    show w.stored ++ [byteFor b x txFifo] = w.handed ++ (w.dev.tx ++ [byteFor b x txFifo])
    rw [← List.append_assoc]
    exact congrArg (· ++ _) h

end Copies

section Steps

variable {ι : Type} [DecidableEq ι] {devSize : BitVec 64} {w w' : World ι} {t : ι}
  {p q : Point}

/-- What the stores have written has been handed over or is still owed. -/
def OwesTx (w : World ι) (q : Option Point) : Prop :=
  w.stored = w.handed ++ outgoing w.dev.tx q

/-- What has been pushed has been returned or is still owed. -/
def OwesRx (w : World ι) (q : Option Point) : Prop :=
  w.pushed = w.returned ++ incoming w.dev.rx q

structure Inv (devSize : BitVec 64) (w : World ι) : Prop where
  size : w.dev.devSize = devSize
  tx : Protects insideTx (OwesTx w) w.txMutex w.point
  rx : Protects insideRx (OwesRx w) w.rxMutex w.point
  allowed : ∀ t, Allowed (w.point t)
  sees : ∀ t, Sees w.dev (w.point t)

theorem lockTx_some (h : w.lockTx t p = some w') :
    w.txMutex = none ∧ w' = { w.goto t p with txMutex := some t } := by
  unfold World.lockTx at h
  split at h
  · rename_i hfree
    exact ⟨Option.isNone_iff_eq_none.mp hfree, (Option.some.inj h).symm⟩
  · cases h

theorem lockRx_some (h : w.lockRx t p = some w') :
    w.rxMutex = none ∧ w' = { w.goto t p with rxMutex := some t } := by
  unfold World.lockRx at h
  split at h
  · rename_i hfree
    exact ⟨Option.isNone_iff_eq_none.mp hfree, (Option.some.inj h).symm⟩
  · cases h

namespace Inv

theorem allowed_goto (h : Inv devSize w) (hp : Allowed p) (u : ι) :
    Allowed (Function.update w.point t p u) :=
  (Function.forall_update_iff w.point fun _ q => Allowed q).mpr ⟨hp, fun u _ => h.allowed u⟩ u

/-- The registers and the receive queue change only under `rxMutex`. -/
theorem sees_goto (h : Inv devSize w) {u : Uartlite} (ht : w.point t = q) (hp : Sees u p)
    (hu : insideRx q = true ∨ u.regs = w.dev.regs ∧ u.rx = w.dev.rx) (v : ι) :
    Sees u (Function.update w.point t p v) := by
  refine (Function.forall_update_iff w.point fun _ q => Sees u q).mpr ⟨hp, fun v hv => ?_⟩ v
  rcases hu with hq | ⟨hregs, hrx⟩
  · refine sees_outside (Bool.eq_false_iff.mpr fun hin => ?_)
    exact hv (h.rx.guards.exclusive hin (ht ▸ hq))
  · have hsees := h.sees v
    unfold Sees Holds at hsees ⊢
    rwa [hregs, hrx]

theorem load {i : LoadAt} {b : Addr} {len : Nat} (h : Inv devSize w)
    (hp : w.point t = .load i b len) (hstep : w.next t = some w') : Inv devSize w' := by
  have hin : InRange b len := by
    have hallowed := h.allowed t
    rwa [hp] at hallowed
  have hsees := h.sees t
  rw [hp] at hsees
  unfold World.next at hstep
  rw [hp] at hstep
  cases i with
  | entered =>
    obtain ⟨hfree, rfl⟩ := lockRx_some hstep
    exact {
      size := h.size
      tx := h.tx.other hp rfl rfl fun _ howes => howes
      rx := h.rx.acquire hfree rfl fun howes => howes
      allowed := h.allowed_goto hin
      sees := h.sees_goto hp trivial (.inr ⟨rfl, rfl⟩) }
  | locked =>
    simp only [inside_of_inRange hin, Bool.false_eq_true, if_false, Option.some.injEq] at hstep
    subst hstep
    obtain ⟨hsize, htx, hrx⟩ := latch_queues w.dev
    refine {
      size := hsize.trans h.size
      tx := h.tx.other hp rfl rfl fun _ howes => ?_
      rx := h.rx.proceed hp rfl rfl fun howes => ?_
      allowed := h.allowed_goto hin
      sees := h.sees_goto hp (fun c rest hc => latch_front (hrx ▸ hc)) (.inl rfl) }
    · exact howes.trans (congrArg (fun q => w.handed ++ outgoing q _) htx.symm)
    · exact howes.trans (congrArg (w.returned ++ ·) hrx.symm)
  | latched =>
    cases hstep
    refine {
      size := h.size
      tx := h.tx.other hp rfl rfl fun _ howes => howes
      rx := h.rx.proceed hp rfl rfl fun howes => ?_
      allowed := h.allowed_goto hin
      sees := h.sees_goto hp trivial (.inl rfl) }
    exact howes.trans (copyOut_owes hin hsees)
  | copied =>
    cases hstep
    exact {
      size := h.size
      tx := h.tx.other hp rfl rfl fun _ howes => howes
      rx := h.rx.proceed hp rfl rfl fun howes => howes
      allowed := h.allowed_goto hin
      sees := h.sees_goto hp trivial (.inl rfl) }
  | done =>
    cases hstep
    exact {
      size := h.size
      tx := h.tx.other hp rfl rfl fun _ howes => howes
      rx := h.rx.release hp rfl rfl fun howes => howes
      allowed := h.allowed_goto trivial
      sees := h.sees_goto hp trivial (.inl rfl) }

theorem store {i : StoreAt} {b : Addr} {len : Nat} {x : BitVec (8 * len)} (h : Inv devSize w)
    (hp : w.point t = .store i b len x) (hstep : w.next t = some w') : Inv devSize w' := by
  have hallowed : InRange b len ∧ ¬ Resets b len x := by
    have hallowed := h.allowed t
    rwa [hp] at hallowed
  have hin := hallowed.1
  have hsees := h.sees t
  rw [hp] at hsees
  unfold World.next at hstep
  rw [hp] at hstep
  cases i with
  | entered =>
    obtain ⟨hfree, rfl⟩ := lockTx_some hstep
    exact {
      size := h.size
      tx := h.tx.acquire hfree rfl fun howes => howes
      rx := h.rx.other hp rfl rfl fun _ howes => howes
      allowed := h.allowed_goto hallowed
      sees := h.sees_goto hp trivial (.inr ⟨rfl, rfl⟩) }
  | txLocked =>
    obtain ⟨hfree, rfl⟩ := lockRx_some hstep
    exact {
      size := h.size
      tx := h.tx.proceed hp rfl rfl fun howes => howes
      rx := h.rx.acquire hfree rfl fun howes => howes
      allowed := h.allowed_goto hallowed
      sees := h.sees_goto hp trivial (.inr ⟨rfl, rfl⟩) }
  | locked =>
    simp only [inside_of_inRange hin, Bool.false_eq_true, if_false, Option.some.injEq] at hstep
    subst hstep
    refine {
      size := h.size
      tx := h.tx.proceed hp rfl rfl fun howes => ?_
      rx := h.rx.proceed hp rfl rfl fun howes => howes
      allowed := h.allowed_goto hallowed
      sees := h.sees_goto hp (fun off hoff hacc => ?_) (.inl rfl) }
    · exact copyIn_owes howes
    · exact writeBytes_covered _ ((accessed_iff hin hoff).mp hacc)
  | copied =>
    cases hstep
    refine {
      size := h.size
      tx := h.tx.proceed hp rfl rfl fun howes => ?_
      rx := h.rx.proceed hp rfl rfl fun howes => howes
      allowed := h.allowed_goto hallowed
      sees := h.sees_goto hp hsees (.inl rfl) }
    have hpush : (if accessed b len txFifo then w.dev.tx ++ [byteFor b x txFifo]
        else w.dev.tx) = if accessed b len txFifo then
          w.dev.tx ++ [(w.dev.reg txFifo).setWidth 8] else w.dev.tx := by
      split
      · rename_i hacc
        have hbyte : (w.dev.reg txFifo).setWidth 8 = byteFor b x txFifo :=
          (setWidth_readBytes _ _ (by decide)).trans (hsees txFifo (by decide) hacc)
        rw [hbyte]
      · rfl
    exact howes.trans (congrArg (w.handed ++ ·) hpush)
  | pushed =>
    cases hstep
    have hdev : (if accessed b len control then w.dev.reset else w.dev) = w.dev := by
      split
      · exact reset_eq hsees ‹_› hallowed.2
      · rfl
    rw [hdev]
    exact {
      size := h.size
      tx := h.tx.proceed hp rfl rfl fun howes => howes
      rx := h.rx.proceed hp rfl rfl fun howes => howes
      allowed := h.allowed_goto hallowed
      sees := h.sees_goto hp trivial (.inl rfl) }
  | done =>
    cases hstep
    exact {
      size := h.size
      tx := h.tx.release hp rfl rfl fun howes => howes
      rx := h.rx.proceed hp rfl rfl fun howes => howes
      allowed := h.allowed_goto hallowed
      sees := h.sees_goto hp trivial (.inl rfl) }
  | txUnlocked =>
    cases hstep
    exact {
      size := h.size
      tx := h.tx.other hp rfl rfl fun _ howes => howes
      rx := h.rx.release hp rfl rfl fun howes => howes
      allowed := h.allowed_goto trivial
      sees := h.sees_goto hp trivial (.inl rfl) }

theorem tick {i : TickAt} (h : Inv devSize w) (hp : w.point t = .tick i)
    (hstep : w.next t = some w') : Inv devSize w' := by
  unfold World.next at hstep
  rw [hp] at hstep
  cases i with
  | entered =>
    obtain ⟨hfree, rfl⟩ := lockTx_some hstep
    exact {
      size := h.size
      tx := h.tx.acquire hfree rfl fun howes => howes
      rx := h.rx.other hp rfl rfl fun _ howes => howes
      allowed := h.allowed_goto trivial
      sees := h.sees_goto hp trivial (.inr ⟨rfl, rfl⟩) }
  | asking =>
    cases hstep
    exact {
      size := h.size
      tx := h.tx.proceed hp rfl rfl fun howes => howes
      rx := h.rx.other hp rfl rfl fun _ howes => howes
      allowed := h.allowed_goto trivial
      sees := h.sees_goto hp trivial (.inr ⟨rfl, rfl⟩) }
  | answered irq =>
    cases hstep
    exact {
      size := h.size
      tx := h.tx.release hp rfl rfl fun howes => howes
      rx := h.rx.other hp rfl rfl fun _ howes => howes
      allowed := h.allowed_goto trivial
      sees := h.sees_goto hp trivial (.inr ⟨rfl, rfl⟩) }
  | asked irq =>
    cases hstep
    exact {
      size := h.size
      tx := h.tx.other hp rfl rfl fun _ howes => howes
      rx := h.rx.other hp rfl rfl fun _ howes => howes
      allowed := h.allowed_goto trivial
      sees := h.sees_goto hp trivial (.inr ⟨rfl, rfl⟩) }
  | draining =>
    obtain ⟨hfree, rfl⟩ := lockTx_some hstep
    exact {
      size := h.size
      tx := h.tx.acquire hfree rfl fun howes => howes
      rx := h.rx.other hp rfl rfl fun _ howes => howes
      allowed := h.allowed_goto trivial
      sees := h.sees_goto hp trivial (.inr ⟨rfl, rfl⟩) }
  | locked =>
    cases htx : w.dev.tx with
    | nil =>
      simp only [htx] at hstep
      cases hstep
      exact {
        size := h.size
        tx := h.tx.release hp rfl rfl fun howes => howes
        rx := h.rx.other hp rfl rfl fun _ howes => howes
        allowed := h.allowed_goto trivial
        sees := h.sees_goto hp trivial (.inr ⟨rfl, rfl⟩) }
    | cons c tx =>
      simp only [htx] at hstep
      cases hstep
      refine {
        size := h.size
        tx := h.tx.proceed hp rfl rfl fun howes => ?_
        rx := h.rx.other hp rfl rfl fun _ howes => howes
        allowed := h.allowed_goto trivial
        sees := h.sees_goto hp trivial (.inr ⟨rfl, rfl⟩) }
      exact howes.trans (congrArg (w.handed ++ ·) htx)
  | popped c =>
    cases hstep
    refine {
      size := h.size
      tx := h.tx.proceed hp rfl rfl fun howes => ?_
      rx := h.rx.other hp rfl rfl fun _ howes => howes
      allowed := h.allowed_goto trivial
      sees := h.sees_goto hp trivial (.inr ⟨rfl, rfl⟩) }
    exact howes.trans (List.append_cons w.handed c w.dev.tx)

theorem readInput {i : InputAt} {c : BitVec 8} (h : Inv devSize w) (hp : w.point t = .readInput i c)
    (hstep : w.next t = some w') : Inv devSize w' := by
  unfold World.next at hstep
  rw [hp] at hstep
  cases i with
  | got =>
    obtain ⟨hfree, rfl⟩ := lockRx_some hstep
    exact {
      size := h.size
      tx := h.tx.other hp rfl rfl fun _ howes => howes
      rx := h.rx.acquire hfree rfl fun howes => howes
      allowed := h.allowed_goto trivial
      sees := h.sees_goto hp trivial (.inr ⟨rfl, rfl⟩) }
  | locked =>
    cases hstep
    refine {
      size := h.size
      tx := h.tx.other hp rfl rfl fun _ howes => howes
      rx := h.rx.proceed hp rfl rfl fun howes => ?_
      allowed := h.allowed_goto trivial
      sees := h.sees_goto hp trivial (.inl rfl) }
    exact (congrArg (· ++ [c]) howes).trans (List.append_assoc w.returned w.dev.rx [c])
  | pushed =>
    cases hstep
    exact {
      size := h.size
      tx := h.tx.other hp rfl rfl fun _ howes => howes
      rx := h.rx.release hp rfl rfl fun howes => howes
      allowed := h.allowed_goto trivial
      sees := h.sees_goto hp trivial (.inl rfl) }

theorem next (h : Inv devSize w) (hstep : w.next t = some w') : Inv devSize w' := by
  cases hp : w.point t with
  | idle =>
    unfold World.next at hstep
    rw [hp] at hstep
    cases hstep
  | load i b len => exact h.load hp hstep
  | store i b len x => exact h.store hp hstep
  | tick i => exact h.tick hp hstep
  | readInput i c => exact h.readInput hp hstep

end Inv

/-! ## Runs -/

/-- A call whose accesses are in range and set no reset bit, if the action begins one. -/
def AllowedAction (devSize : BitVec 64) : World.Action ι → Prop
  | .call _ (.load a len) => InRange (a % devSize) len
  | .call _ (.store a len x) => InRange (a % devSize) len ∧ ¬ Resets (a % devSize) len x
  | _ => True

omit [DecidableEq ι] in
theorem inv_init (devSize : BitVec 64) (intc : Bool) :
    Inv devSize (World.init (ι := ι) devSize intc) where
  size := rfl
  tx := ⟨guards_free fun _ => rfl, rfl⟩
  rx := ⟨guards_free fun _ => rfl, rfl⟩
  allowed _ := trivial
  sees _ := trivial

theorem enter_outside (u : Uartlite) (c : Call) :
    insideTx (u.enter c) = false ∧ insideRx (u.enter c) = false := by
  cases c with
  | load | store | readInput => exact ⟨rfl, rfl⟩
  | tick => cases hintc : u.intc <;> simp [enter, hintc, insideTx, insideRx]

theorem inv_act {a : World.Action ι} (h : Inv devSize w) (ha : AllowedAction devSize a)
    (hstep : w.act a = some w') : Inv devSize w' := by
  cases a with
  | next t => exact h.next hstep
  | call t c =>
    simp only [World.act] at hstep
    split at hstep
    · rename_i hp
      obtain ⟨htx, hrx⟩ := enter_outside w.dev c
      have hallowed : Allowed (w.dev.enter c) := by
        cases c with
        | load | store =>
          unfold enter
          rw [h.size]
          exact ha
        | tick | readInput => trivial
      cases hstep
      exact {
        size := h.size
        tx := h.tx.other hp rfl htx fun _ howes => howes
        rx := h.rx.other hp rfl hrx fun _ howes => howes
        allowed := h.allowed_goto hallowed
        sees := h.sees_goto hp (sees_outside hrx) (.inr ⟨rfl, rfl⟩) }
    · cases hstep

theorem inv_run {actions : List (World.Action ι)} (h : Inv devSize w)
    (hallowed : ∀ a ∈ actions, AllowedAction devSize a) (hrun : w.run actions = some w') :
    Inv devSize w' := by
  have hboth := interleaving_keeps
    (R := fun w actions => Inv devSize w ∧ ∀ a ∈ actions, AllowedAction devSize a)
    (fun _ a _ _ h hact => ⟨inv_act h.1 (h.2 a List.mem_cons_self) hact,
      fun a' ha' => h.2 a' (List.mem_cons_of_mem a ha')⟩) ⟨h, hallowed⟩ hrun
  exact hboth.1

/-- A load of other registers takes nothing out of a queue. -/
theorem load_keeps {i : LoadAt} {b : Addr} {len : Nat} (h : Inv devSize w)
    (hp : w.point t = .load i b len) (hb : b ≠ 0) (hstep : w.next t = some w') :
    w'.dev.tx = w.dev.tx ∧ w'.dev.rx = w.dev.rx := by
  have hin : InRange b len := by
    have hallowed := h.allowed t
    rwa [hp] at hallowed
  have hacc : accessed b len rxFifo = false :=
    Bool.eq_false_iff.mpr fun hacc => hb ((accessed_rxFifo hin).mp hacc)
  unfold World.next at hstep
  rw [hp] at hstep
  cases i with
  | entered =>
    obtain ⟨-, rfl⟩ := lockRx_some hstep
    exact ⟨rfl, rfl⟩
  | locked =>
    simp only [inside_of_inRange hin, Bool.false_eq_true, if_false, Option.some.injEq] at hstep
    subst hstep
    exact (latch_queues w.dev).2
  | copied =>
    simp only [hacc, Bool.false_eq_true, if_false] at hstep
    cases hstep
    exact ⟨rfl, rfl⟩
  | latched | done =>
    cases hstep
    exact ⟨rfl, rfl⟩

/-- After any interleaving of calls in range that reset nothing: what has been handed to the
stream is what has been stored, in order, up to what is still queued or on its way; what loads
have returned is what has been pushed, in the same sense; and a step of a load of other registers
leaves both queues alone. While nobody has its mutex all that a queue owes is in the queue. -/
theorem lossless {devSize : BitVec 64} {intc : Bool} {actions : List (World.Action ι)}
    {w : World ι} (hrun : (World.init devSize intc).run actions = some w)
    (hallowed : ∀ a ∈ actions, AllowedAction devSize a) :
    w.stored = w.handed ++ outgoing w.dev.tx (user w.txMutex w.point) ∧
    w.pushed = w.returned ++ incoming w.dev.rx (user w.rxMutex w.point) ∧
    (w.txMutex = none → w.stored = w.handed ++ w.dev.tx) ∧
    (w.rxMutex = none → w.pushed = w.returned ++ w.dev.rx) ∧
    ∀ t i b len w', w.point t = .load i b len → b ≠ 0 → w.next t = some w' →
      w'.dev.tx = w.dev.tx ∧ w'.dev.rx = w.dev.rx := by
  have h := inv_run (inv_init devSize intc) hallowed hrun
  refine ⟨h.tx.holds, h.rx.holds, fun hfree => ?_, fun hfree => ?_,
    fun t i b len w' => load_keeps h⟩
  · have howes := h.tx.holds
    rw [hfree] at howes
    exact howes
  · have howes := h.rx.holds
    rw [hfree] at howes
    exact howes

end Steps

/-- One thread stores a byte. Another takes it out of the queue while the first still has the
other mutex. -/
def storeAndDrain : List (World.Action Bool) :=
  [.call false (.store 4 1 0x41), .next false, .next false, .next false, .next false, .next false,
    .next false, .call true .tick, .next true, .next true, .next false, .next true]

theorem storeAndDrain_allowed : ∀ a ∈ storeAndDrain, AllowedAction 0x100000 a := by
  have hstore : InRange (4 % 0x100000) 1 ∧ ¬ Resets (4 % 0x100000) 1 0x41 := by decide
  simpa [storeAndDrain, AllowedAction] using hstore

theorem lossless_drained : ∃ w, (World.init 0x100000 false).run storeAndDrain = some w ∧
    w.handed = [0x41] ∧
    w.stored = w.handed ++ outgoing w.dev.tx (user w.txMutex w.point) := by
  refine ⟨_, rfl, rfl, ?_⟩
  have hrun : (World.init 0x100000 false).run storeAndDrain = some _ := rfl
  exact (lossless hrun storeAndDrain_allowed).1

end NextEmu.Device.UartliteFifos
