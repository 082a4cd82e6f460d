import NextEmu.Device.UartliteCalls
import NextEmu.Lib.BitField

/-!
# The status register of the UART

A load computes the receive bit of the status register anew, on top of what the register image
holds. The transmit bit is set by the constructor and by nothing else, and stores write to the
image like to any other register.
-/

namespace NextEmu.Device.UartliteStatus

open NextEmu.Sdk NextEmu.Lib.AbortState NextEmu.Lib.BitField
open Uartlite UartliteFifos UartliteCalls

/-- The range covers the status register and lies in the registers. -/
def Covers (b : Addr) (len : Nat) : Prop :=
  b.toNat ≤ status ∧ status + 4 ≤ b.toNat + len ∧ b.toNat + len ≤ regSize

/-- The status register in the buffer of a load. -/
def statusOf (b : Addr) {len : Nat} (buffer : BitVec (8 * len)) : BitVec 32 :=
  buffer.extractLsb' (8 * (status - b.toNat)) 32

/-- A call on a device of which a store leaves the status register alone. -/
def shielded : Call → M (Option Feedback)
  | .store beginAddr len buffer => do
    let image := (← get).dev.reg status
    let feedback ← call (.store beginAddr len buffer)
    modify fun s => s.setDev (s.dev.setReg status image)
    return feedback
  | c => call c

/-- The load reports the two queues, and the same as on the device that is shielded. -/
structure Reports (s shield : State) (beginAddr : Addr) (len : Nat) : Prop where
  report : ∃ x y t u, load beginAddr len s = .ok (.success, x) t ∧
    load beginAddr len shield = .ok (.success, y) u ∧
    (statusOf (beginAddr % s.dev.devSize) x &&& RX_FIFO_VALID_DATA ≠ 0 ↔ s.dev.rx ≠ []) ∧
    (statusOf (beginAddr % s.dev.devSize) x &&& TX_FIFO_EMPTY ≠ 0 ↔ s.dev.tx = []) ∧
    statusOf (beginAddr % s.dev.devSize) x = statusOf (beginAddr % s.dev.devSize) y

/-- In a run of calls every load that covers the status register reports the queues. -/
def Truthful (s shield : State) : List Call → Prop
  | [] => True
  | c :: cs =>
    (∀ beginAddr len, c = .load beginAddr len → Covers (beginAddr % s.dev.devSize) len →
      Reports s shield beginAddr len) ∧
    ∀ a t b u, call c s = .ok a t → shielded c shield = .ok b u → Truthful t u cs

/-- Nothing is to be sent, and the image of the status register is that of the constructor but for
the receive bit. -/
def Untouched (u : Uartlite) : Prop :=
  u.tx = [] ∧ u.reg status &&& ~~~ RX_FIFO_VALID_DATA = TX_FIFO_EMPTY

/-- In a run of calls every load that covers the status register finds it untouched. -/
def ReadUntouched (s : State) : List Call → Prop
  | [] => True
  | c :: cs =>
    (∀ beginAddr len, c = .load beginAddr len → Covers (beginAddr % s.dev.devSize) len →
      Untouched s.dev) ∧
    ∀ a t, call c s = .ok a t → ReadUntouched t cs

/-! ## One load -/

section Load

variable {u v : Uartlite} {s : State} {b : Addr} {len : Nat}

theorem reg_setReg_same (u : Uartlite) (off : Nat) (x : BitVec 32) : (u.setReg off x).reg off = x :=
  readBytes_writeBytes _ _ _ _

/-- What a load sees as the status register. -/
theorem latch_status (u : Uartlite) : u.latch.reg status =
    if u.rx = [] then u.reg status &&& ~~~ RX_FIFO_VALID_DATA
    else u.reg status ||| RX_FIFO_VALID_DATA := by
  unfold latch
  cases hrx : u.rx with
  | nil =>
    rw [if_pos rfl]
    exact reg_setReg_same _ _ _
  | cons c rest =>
    rw [if_neg (List.cons_ne_nil c rest)]
    have hbeside : ∀ (w : Uartlite) (x : BitVec 32),
        (w.setReg rxFifo x).reg status = w.reg status := fun w x =>
      readBytes_writeBytes_of_disjoint _ _ (.inr (by decide))
    exact (hbeside _ _).trans (reg_setReg_same _ _ _)

theorem statusOf_readBytes (h : Covers b len) (m : Nat → BitVec 8) :
    statusOf b (readBytes m b.toNat len) = readBytes m status 4 := by
  obtain ⟨hlo, hhi, -⟩ := h
  unfold statusOf
  apply BitVec.eq_of_getLsbD_eq
  intro i hi
  have hbit : 8 * (status - b.toNat) + i < 8 * len := by omega
  have hdiv : b.toNat + (8 * (status - b.toNat) + i) / 8 = status + i / 8 := by omega
  have hmod : (8 * (status - b.toNat) + i) % 8 = i % 8 := by omega
  rw [BitVec.getLsbD_extractLsb', getLsbD_readBytes, getLsbD_readBytes, hdiv, hmod,
    decide_eq_true hi, decide_eq_true hbit, Bool.true_and]

/-- The receive bit is always right. -/
theorem receive_bit (u : Uartlite) : u.latch.reg status &&& RX_FIFO_VALID_DATA ≠ 0 ↔ u.rx ≠ [] := by
  rw [latch_status]
  by_cases hrx : u.rx = []
  · rw [if_pos hrx, and_not_and]
    exact iff_of_false (fun h => h rfl) fun h => h hrx
  · rw [if_neg hrx, or_and_self]
    exact iff_of_true (by decide) hrx

/-- The other bits are those of the image. -/
theorem latch_clear (u : Uartlite) : u.latch.reg status &&& ~~~ RX_FIFO_VALID_DATA =
    u.reg status &&& ~~~ RX_FIFO_VALID_DATA := by
  rw [latch_status]
  split
  · rw [BitVec.and_assoc, BitVec.and_self]
  · exact or_and_not _ _

/-- Loads that find the same receive queue report the same when the images are the same but for
the receive bit. -/
theorem latch_eq_iff (hrx : v.rx = u.rx) : u.latch.reg status = v.latch.reg status ↔
    u.reg status &&& ~~~ RX_FIFO_VALID_DATA = v.reg status &&& ~~~ RX_FIFO_VALID_DATA := by
  constructor
  · intro heq
    rw [← latch_clear u, ← latch_clear v, heq]
  · intro hclear
    rw [latch_status, latch_status, hrx]
    by_cases hempty : u.rx = []
    · rw [if_pos hempty, if_pos hempty, hclear]
    · rw [if_neg hempty, if_neg hempty, ← and_not_or, hclear, and_not_or]

/-- An image without the receive bit that is that of the constructor has the transmit bit. -/
theorem transmit_bit {x : BitVec 32} (h : x &&& ~~~ RX_FIFO_VALID_DATA = TX_FIFO_EMPTY) :
    x &&& TX_FIFO_EMPTY ≠ 0 := by
  have hmask : TX_FIFO_EMPTY = ~~~ RX_FIFO_VALID_DATA &&& TX_FIFO_EMPTY := by decide
  rw [hmask, ← BitVec.and_assoc, h]
  decide

end Load

/-! ## The shielded device beside the device -/

/-- All but the image of the status register is the same. -/
structure Agree (u v : Uartlite) : Prop where
  regs : ∀ off, off < status ∨ status + 4 ≤ off → v.regs off = u.regs off
  devSize : v.devSize = u.devSize
  tx : v.tx = u.tx
  rx : v.rx = u.rx
  waitACK : v.waitACK = u.waitACK
  intc : v.intc = u.intc

section Agree

variable {u v : Uartlite} {b : Addr} {len : Nat}

theorem Agree.reg (h : Agree u v) {off : Nat} (hoff : off + 4 ≤ status ∨ status + 4 ≤ off) :
    v.reg off = u.reg off := by
  apply readBytes_congr
  intro a hlo hhi
  exact h.regs a (by omega)

/-- A store of the status register is seen nowhere else. -/
theorem setStatus_regs (u : Uartlite) (x : BitVec 32) {off : Nat}
    (hoff : off < status ∨ status + 4 ≤ off) : (u.setReg status x).regs off = u.regs off := by
  have hout : ¬ (status ≤ off ∧ off < status + 4) := by omega
  show writeBytes u.regs status 4 x off = u.regs off
  unfold writeBytes
  rw [if_neg hout]

theorem Agree.setStatus (h : Agree u v) (x y : BitVec 32) :
    Agree (u.setReg status x) (v.setReg status y) := by
  constructor
  · intro off hoff
    rw [setStatus_regs u x hoff, setStatus_regs v y hoff]
    exact h.regs off hoff
  · exact h.devSize
  · exact h.tx
  · exact h.rx
  · exact h.waitACK
  · exact h.intc

theorem Agree.shield (h : Agree u v) (y : BitVec 32) : Agree u (v.setReg status y) := by
  constructor
  · intro off hoff
    rw [setStatus_regs v y hoff]
    exact h.regs off hoff
  · exact h.devSize
  · exact h.tx
  · exact h.rx
  · exact h.waitACK
  · exact h.intc

theorem Agree.write (h : Agree u v) (off n : Nat) (x : BitVec (8 * n)) :
    Agree { u with regs := writeBytes u.regs off n x }
      { v with regs := writeBytes v.regs off n x } := by
  constructor
  · intro a ha
    show writeBytes v.regs off n x a = writeBytes u.regs off n x a
    unfold writeBytes
    by_cases hin : off ≤ a ∧ a < off + n
    · rw [if_pos hin, if_pos hin]
    · rw [if_neg hin, if_neg hin]
      exact h.regs a ha
  · exact h.devSize
  · exact h.tx
  · exact h.rx
  · exact h.waitACK
  · exact h.intc

theorem Agree.latch (h : Agree u v) : Agree u.latch v.latch := by
  unfold Uartlite.latch
  rw [h.rx]
  cases u.rx with
  | nil => exact h.setStatus _ _
  | cons c rest => exact (h.setStatus _ _).write rxFifo 4 _

theorem Agree.loaded (h : Agree u v) : Agree (loaded u b len) (loaded v b len) := by
  have hlatch := h.latch
  constructor
  · exact hlatch.regs
  · exact hlatch.devSize
  · exact hlatch.tx
  · show (if _ then v.rx.tail else v.rx) = if _ then u.rx.tail else u.rx
    rw [h.rx]
  · rfl
  · exact hlatch.intc

/-- The two branches of `reset`, one after the other. -/
theorem Agree.reset (h : Agree u v) : Agree u.reset v.reset := by
  have hafter : status + 4 ≤ Uartlite.control := Nat.le_refl _
  have htx : ∀ {u v : Uartlite}, Agree u v →
      Agree (if u.reg Uartlite.control &&& CTRL_RST_TX ≠ 0 then { u with tx := [] } else u)
        (if v.reg Uartlite.control &&& CTRL_RST_TX ≠ 0 then { v with tx := [] } else v) := by
    intro u v h
    rw [h.reg (.inr hafter)]
    split
    · exact ⟨h.regs, h.devSize, rfl, h.rx, h.waitACK, h.intc⟩
    · exact h
  have hrx : ∀ {u v : Uartlite}, Agree u v →
      Agree (if u.reg Uartlite.control &&& CTRL_RST_RX ≠ 0 then { u with rx := [] } else u)
        (if v.reg Uartlite.control &&& CTRL_RST_RX ≠ 0 then { v with rx := [] } else v) := by
    intro u v h
    rw [h.reg (.inr hafter)]
    split
    · exact ⟨h.regs, h.devSize, h.tx, rfl, h.waitACK, h.intc⟩
    · exact h
  exact hrx (htx h)

theorem Agree.written (h : Agree u v) (x : BitVec (8 * len)) :
    Agree (written u b len x) (written v b len x) := by
  have hwrite := h.write b.toNat len x
  have hbefore : txFifo + 4 ≤ status := Nat.le_refl _
  have hpush : Agree
      { u with
        regs := writeBytes u.regs b.toNat len x
        tx := if accessed b len txFifo then
            u.tx ++
              [(Uartlite.reg { u with regs := writeBytes u.regs b.toNat len x } txFifo).setWidth 8]
          else u.tx }
      { v with
        regs := writeBytes v.regs b.toNat len x
        tx := if accessed b len txFifo then
            v.tx ++
              [(Uartlite.reg { v with regs := writeBytes v.regs b.toNat len x } txFifo).setWidth 8]
          else v.tx } := by
    constructor
    · exact hwrite.regs
    · exact h.devSize
    · show (if _ then v.tx ++ [_] else v.tx) = if _ then u.tx ++ [_] else u.tx
      rw [hwrite.reg (.inl hbefore), h.tx]
    · exact h.rx
    · exact h.waitACK
    · exact h.intc
  unfold UartliteCalls.written
  dsimp only
  split
  · exact hpush.reset
  · exact hpush

end Agree

/-- A device and the one that is shielded, between two calls. -/
structure Twins (s shield : State) : Prop where
  free : Free s
  shieldFree : Free shield
  agree : Agree s.dev shield.dev
  image : shield.dev.reg status &&& ~~~ RX_FIFO_VALID_DATA = TX_FIFO_EMPTY

section Run

variable {s shield t u : State} {c : Call} {a b : Option Feedback}

theorem twins_init (devSize : BitVec 64) (intc : Bool) :
    Twins (State.init devSize intc) (State.init devSize intc) where
  free := ⟨rfl, rfl⟩
  shieldFree := ⟨rfl, rfl⟩
  agree := ⟨fun _ _ => rfl, rfl, rfl, rfl, rfl, rfl⟩
  image := by
    have hreg : (State.init devSize intc).dev.reg status = TX_FIFO_EMPTY :=
      readBytes_writeBytes _ _ _ _
    rw [hreg]
    decide

/-- What a load that covers the status register returns. -/
theorem load_status (hfree : Free s) (hsize : s.dev.devSize ≠ 0) {beginAddr : Addr} {len : Nat}
    (hcovers : Covers (beginAddr % s.dev.devSize) len) :
    ∃ x t, load beginAddr len s = .ok (.success, x) t ∧
      statusOf (beginAddr % s.dev.devSize) x = s.dev.latch.reg status := by
  have hfits := hcovers.2.2
  exact ⟨_, _, load_inside hfree hsize (outside_of_fits hfits) hfits,
    statusOf_readBytes hcovers _⟩

/-- A load reports the queues exactly when the register is untouched. -/
theorem reports_iff (h : Twins s shield) (hsize : s.dev.devSize ≠ 0) {beginAddr : Addr}
    {len : Nat} (hcovers : Covers (beginAddr % s.dev.devSize) len) :
    Reports s shield beginAddr len ↔ Untouched s.dev := by
  have hdev := h.agree.devSize
  obtain ⟨x, t, hload, hx⟩ := load_status h.free hsize hcovers
  obtain ⟨y, u, hshield, hy⟩ := load_status h.shieldFree (by rwa [hdev]) (by rwa [hdev])
  rw [hdev] at hy
  have hclear := latch_clear s.dev
  have hsame := latch_eq_iff h.agree.rx
  rw [h.image] at hsame
  constructor
  · rintro ⟨x', y', t', u', hload', hshield', -, hempty, heq⟩
    rw [hload] at hload'
    cases hload'
    rw [hshield] at hshield'
    cases hshield'
    rw [hx, hy] at heq
    have himage := hsame.mp heq
    have hbit := transmit_bit (hclear.trans himage)
    rw [← hx] at hbit
    exact ⟨hempty.mp hbit, himage⟩
  · rintro ⟨hempty, himage⟩
    refine ⟨x, y, t, u, hload, hshield, ?_, ?_, ?_⟩
    · rw [hx]
      exact receive_bit s.dev
    · rw [hx]
      exact iff_of_true (transmit_bit (hclear.trans himage)) hempty
    · rw [hx, hy]
      exact hsame.mpr himage

/-- The shielded device behind a call that returns. -/
def shieldedAfter (s : State) : Call → State
  | .store beginAddr len x =>
    let t := after s (.store beginAddr len x)
    t.setDev (t.dev.setReg status (s.dev.reg status))
  | c => after s c

theorem shielded_returns (hfree : Free s) (hsize : s.dev.devSize ≠ 0)
    (h : Handled s.dev.devSize c) : ∃ b, shielded c s = .ok b (shieldedAfter s c) := by
  obtain ⟨b, hcall, -⟩ := call_returns hfree hsize h
  cases c with
  | store beginAddr len x =>
    unfold shielded
    dsimp only
    rw [bind_of_ok (run_get s), bind_of_ok hcall, bind_of_ok (run_modify _ _)]
    exact ⟨b, rfl⟩
  | load beginAddr len => exact ⟨b, hcall⟩
  | tick => exact ⟨b, hcall⟩
  | readInput c => exact ⟨b, hcall⟩

/-- A call keeps the two devices together. -/
theorem twins_after (h : Twins s shield) (c : Call) :
    Twins (after s c) (shieldedAfter shield c) := by
  have hagree := h.agree
  cases c with
  | load beginAddr len =>
    unfold shieldedAfter after
    dsimp only
    rw [hagree.devSize]
    by_cases hfits : (beginAddr % s.dev.devSize).toNat + len ≤ regSize
    · rw [if_pos hfits, if_pos hfits]
      constructor
      · exact ⟨h.free.tx, h.free.rx⟩
      · exact ⟨h.shieldFree.tx, h.shieldFree.rx⟩
      · exact hagree.loaded
      · exact (latch_clear shield.dev).trans h.image
    · rw [if_neg hfits, if_neg hfits]
      exact h
  | store beginAddr len x =>
    unfold shieldedAfter after
    dsimp only
    rw [hagree.devSize]
    constructor
    · exact ⟨h.free.tx, h.free.rx⟩
    · exact ⟨h.shieldFree.tx, h.shieldFree.rx⟩
    · exact (hagree.written x).shield _
    · show (Uartlite.setReg _ status _).reg status &&& _ = _
      rw [reg_setReg_same]
      exact h.image
  | tick =>
    constructor
    · exact ⟨h.free.tx, h.free.rx⟩
    · exact ⟨h.shieldFree.tx, h.shieldFree.rx⟩
    · refine ⟨hagree.regs, hagree.devSize, rfl, hagree.rx, ?_, hagree.intc⟩
      show (!shield.dev.tx.isEmpty || shield.dev.waitACK) = (!s.dev.tx.isEmpty || s.dev.waitACK)
      rw [hagree.tx, hagree.waitACK]
    · exact h.image
  | readInput c =>
    constructor
    · exact ⟨h.free.tx, h.free.rx⟩
    · exact ⟨h.shieldFree.tx, h.shieldFree.rx⟩
    · refine ⟨hagree.regs, hagree.devSize, hagree.tx, ?_, hagree.waitACK, hagree.intc⟩
      show shield.dev.rx ++ [c] = s.dev.rx ++ [c]
      rw [hagree.rx]
    · exact h.image

theorem truthful_iff (h : Twins s shield) (hsize : s.dev.devSize ≠ 0) (cs : List Call) :
    Truthful s shield cs ↔ ReadUntouched s cs := by
  induction cs generalizing s shield with
  | nil => exact Iff.rfl
  | cons c cs ih =>
    apply and_congr
    · apply forall_congr'
      intro beginAddr
      apply forall_congr'
      intro len
      apply forall_congr'
      intro _
      apply forall_congr'
      intro hcovers
      exact reports_iff h hsize hcovers
    · by_cases hc : Handled s.dev.devSize c
      · obtain ⟨a, hcall, -⟩ := call_returns h.free hsize hc
        obtain ⟨b, hshield⟩ := shielded_returns (c := c) h.shieldFree
          (by rwa [h.agree.devSize]) (by rwa [h.agree.devSize])
        have hrest := ih (twins_after h c) (by rwa [after_devSize])
        constructor
        · intro htruthful a' t hcall'
          rw [hcall] at hcall'
          cases hcall'
          exact hrest.mp (htruthful a _ b _ hcall hshield)
        · intro huntouched a' t b' u hcall' hshield'
          rw [hcall] at hcall'
          cases hcall'
          rw [hshield] at hshield'
          cases hshield'
          exact hrest.mpr (huntouched a _ hcall)
      -- a call that stops ends the run
      · obtain ⟨-, e, t, hstop⟩ := call_stops h.free hsize hc
        apply iff_of_true
        · intro a' t' b' u hcall'
          rw [hstop] at hcall'
          cases hcall'
        · intro a' t' hcall'
          rw [hstop] at hcall'
          cases hcall'

end Run

/-- In every run of calls on a new device the loads of the status register report the queues, and
not what has been stored there, exactly when each finds it untouched. -/
theorem truthful_iff_untouched (devSize : BitVec 64) (intc : Bool) (hsize : devSize ≠ 0)
    (cs : List Call) :
    Truthful (State.init devSize intc) (State.init devSize intc) cs ↔
      ReadUntouched (State.init devSize intc) cs :=
  truthful_iff (twins_init devSize intc) hsize cs

/-- A byte is to be sent while a load reports an empty queue. -/
theorem transmit_bit_stale :
    ¬ Truthful (State.init 0x100000 false) (State.init 0x100000 false)
      [.store 4 1 0x61, .load 8 4] := by
  intro htruthful
  have hfree : Free (State.init 0x100000 false) := ⟨rfl, rfl⟩
  have huntouched := (truthful_iff (twins_init 0x100000 false) (by decide) _).mp htruthful
  obtain ⟨a, hcall, -⟩ := call_returns (c := .store 4 1 0x61) hfree (by decide)
    (by unfold Handled; decide)
  obtain ⟨hempty, -⟩ := (huntouched.2 a _ hcall).1 8 4 rfl (by unfold Covers; decide)
  exact absurd hempty (by decide)

/-- A load of a new device, and one behind a received byte. -/
theorem truthful_receiving :
    (0x100000 : BitVec 64) ≠ 0 ∧
      (Truthful (State.init 0x100000 false) (State.init 0x100000 false)
          [.load 8 4, .readInput 0x61, .load 8 4] ↔
        ReadUntouched (State.init 0x100000 false) [.load 8 4, .readInput 0x61, .load 8 4]) :=
  ⟨by decide, truthful_iff_untouched 0x100000 false (by decide) _⟩

end NextEmu.Device.UartliteStatus
