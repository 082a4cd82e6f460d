import NextEmu.Device.UartliteFifos
import NextEmu.Lib.AbortState

/-!
# The calls of the UART one after another

`Uartlite.hpp` again, as one thread sees it: what each call returns, and what it leaves of the
device and of the two mutexes. A lock that is held stays held, since nobody else is there to
release it. `UartliteAlone` relates the calls to those of a thread of `Uartlite`.
-/

namespace NextEmu.Device.UartliteCalls

open NextEmu.Sdk NextEmu.Lib.AbortState Uartlite UartliteFifos

/-- Why a call does not return: `begin_addr %= 0`, a lock that is held, `assert(false)`, and a
`memcpy` that leaves the registers. -/
inductive Stop
  | division
  | blocked
  | assertion
  | outside
  deriving DecidableEq, Repr

structure State where
  dev : Uartlite
  txMutex : Bool
  rxMutex : Bool
  /-- What `setInt` has been called with. -/
  irqs : List Bool
  /-- What the stream has been given. -/
  handed : List (BitVec 8)

/-- A new device. -/
def State.init (devSize : BitVec 64) (intc : Bool) : State where
  dev := Uartlite.init devSize intc
  txMutex := false
  rxMutex := false
  irqs := []
  handed := []

def State.setDev (s : State) (u : Uartlite) : State := { s with dev := u }

abbrev M := EStateM Stop State

def lockTx : M Unit := do
  if (← get).txMutex then throw .blocked
  modify fun s => { s with txMutex := true }

def lockRx : M Unit := do
  if (← get).rxMutex then throw .blocked
  modify fun s => { s with rxMutex := true }

def unlockTx : M Unit := modify fun s => { s with txMutex := false }

def unlockRx : M Unit := modify fun s => { s with rxMutex := false }

/-- `begin_addr %= devSize`. -/
def reduce (beginAddr : Addr) : M Addr := do
  let s ← get
  if s.dev.devSize = 0 then throw .division
  return beginAddr % s.dev.devSize

/-- `memcpy` from the registers. -/
def copyOut (beginAddr : Addr) (len : Nat) : M (BitVec (8 * len)) := do
  if regSize < beginAddr.toNat + len then throw .outside
  return readBytes (← get).dev.regs beginAddr.toNat len

/-- `memcpy` to the registers. -/
def copyIn (beginAddr : Addr) (len : Nat) (buffer : BitVec (8 * len)) : M Unit := do
  if regSize < beginAddr.toNat + len then throw .outside
  modify fun s =>
    s.setDev { s.dev with regs := writeBytes s.dev.regs beginAddr.toNat len buffer }

/-- `load`. -/
def load (beginAddr : Addr) (len : Nat) : M (Feedback × BitVec (8 * len)) := do
  let beginAddr ← reduce beginAddr
  lockRx
  if outside beginAddr len then
    -- the guard unlocks on the way out
    unlockRx
    return (.outOfRange, 0)
  else
    modify fun s => s.setDev s.dev.latch
    let buffer ← copyOut beginAddr len
    modify fun s => s.setDev { s.dev with waitACK := false }
    modify fun s => s.setDev
      { s.dev with rx := if accessed beginAddr len rxFifo then s.dev.rx.tail else s.dev.rx }
    unlockRx
    return (.success, buffer)

/-- `store`. -/
def store (beginAddr : Addr) (len : Nat) (buffer : BitVec (8 * len)) : M Feedback := do
  let beginAddr ← reduce beginAddr
  lockTx
  lockRx
  if outside beginAddr len then throw .assertion
  else
    copyIn beginAddr len buffer
    modify fun s => s.setDev
      { s.dev with
        tx := if accessed beginAddr len txFifo then s.dev.tx ++ [(s.dev.reg txFifo).setWidth 8]
          else s.dev.tx }
    modify fun s => s.setDev (if accessed beginAddr len control then s.dev.reset else s.dev)
    unlockTx
    unlockRx
    return .success

/-- `hasIRQ`. -/
def hasIRQ : M Bool := do
  lockTx
  let irq := (← get).dev.hasIRQ
  unlockTx
  return irq

/-- What `tick` does first. -/
def ask : M Unit := do
  if (← get).dev.intc then
    let irq ← hasIRQ
    modify fun s => { s with irqs := s.irqs ++ [irq] }

/-- The loop of `tick`, on what is queued. -/
def drain : List (BitVec 8) → M Unit
  | [] => pure ()
  | c :: tx => do
    modify fun s =>
      { s with
        dev := { s.dev with tx := tx, waitACK := tx.isEmpty || s.dev.waitACK }
        handed := s.handed ++ [c] }
    drain tx

/-- `tick`. -/
def tick : M Unit := do
  ask
  lockTx
  drain (← get).dev.tx
  unlockTx

/-- One turn of `readInput`. -/
def readInput (c : BitVec 8) : M Unit := do
  lockRx
  modify fun s => s.setDev { s.dev with rx := s.dev.rx ++ [c] }
  unlockRx

/-- A call, with the feedback of an access. -/
def call : Call → M (Option Feedback)
  | .load beginAddr len => do
    let (feedback, _) ← load beginAddr len
    return some feedback
  | .store beginAddr len buffer => some <$> store beginAddr len buffer
  | .tick => do
    tick
    return none
  | .readInput c => do
    readInput c
    return none

/-! ## What a call does when both mutexes are free -/

/-- Nobody is in a call. -/
structure Free (s : State) : Prop where
  tx : s.txMutex = false
  rx : s.rxMutex = false

/-- The device behind a load in the registers. -/
def loaded (u : Uartlite) (b : Addr) (len : Nat) : Uartlite :=
  { u.latch with
    waitACK := false
    rx := if accessed b len rxFifo then u.rx.tail else u.rx }

/-- The device behind a store in the registers. -/
def written (u : Uartlite) (b : Addr) (len : Nat) (x : BitVec (8 * len)) : Uartlite :=
  let u := { u with regs := writeBytes u.regs b.toNat len x }
  let u := { u with
    tx := if accessed b len txFifo then u.tx ++ [(u.reg txFifo).setWidth 8] else u.tx }
  if accessed b len control then u.reset else u

/-- The state behind a tick. -/
def ticked (s : State) : State :=
  { s with
    dev := { s.dev with tx := [], waitACK := !s.dev.tx.isEmpty || s.dev.waitACK }
    irqs := if s.dev.intc then s.irqs ++ [s.dev.hasIRQ] else s.irqs
    handed := s.handed ++ s.dev.tx }

/-- The device with one more byte received. -/
def received (u : Uartlite) (c : BitVec 8) : Uartlite := { u with rx := u.rx ++ [c] }

section Calls

variable {s : State} {b : Addr} {len : Nat} {x : BitVec (8 * len)}

theorem reduce_ok (h : s.dev.devSize ≠ 0) (a : Addr) : reduce a s = .ok (a % s.dev.devSize) s := by
  unfold reduce
  rw [run_bind, run_get]
  dsimp only
  rw [if_neg h]
  rfl

theorem lockTx_ok (h : s.txMutex = false) : lockTx s = .ok () { s with txMutex := true } := by
  unfold lockTx
  rw [run_bind, run_get]
  dsimp only
  rw [h]
  rfl

theorem lockRx_ok (h : s.rxMutex = false) : lockRx s = .ok () { s with rxMutex := true } := by
  unfold lockRx
  rw [run_bind, run_get]
  dsimp only
  rw [h]
  rfl

theorem Free.setDev_rx (h : Free s) (u : Uartlite) :
    { s with dev := u, rxMutex := false } = s.setDev u := by
  unfold State.setDev
  rw [h.rx]

theorem latch_rx (u : Uartlite) : u.latch.rx = u.rx := (latch_queues u).2.2

/-- A load that the check keeps out. -/
theorem load_outside (hfree : Free s) (hsize : s.dev.devSize ≠ 0) {a : Addr}
    (hout : outside (a % s.dev.devSize) len = true) : load a len s = .ok (.outOfRange, 0) s := by
  unfold load
  rw [bind_of_ok (reduce_ok hsize a), bind_of_ok (lockRx_ok hfree.rx), if_pos hout]
  show EStateM.Result.ok _ { s with rxMutex := false } = _
  rw [← hfree.rx]

theorem load_inside (hfree : Free s) (hsize : s.dev.devSize ≠ 0) {a : Addr}
    (hin : outside (a % s.dev.devSize) len = false)
    (hfits : (a % s.dev.devSize).toNat + len ≤ regSize) :
    load a len s = .ok
      (.success, readBytes s.dev.latch.regs (a % s.dev.devSize).toNat len)
      (s.setDev (loaded s.dev (a % s.dev.devSize) len)) := by
  have hcopy : ∀ t : State, copyOut (a % s.dev.devSize) len t =
      .ok (readBytes t.dev.regs (a % s.dev.devSize).toNat len) t := by
    intro t
    unfold copyOut
    rw [if_neg (Nat.not_lt.mpr hfits)]
    rfl
  unfold load
  rw [bind_of_ok (reduce_ok hsize a), bind_of_ok (lockRx_ok hfree.rx), if_neg (by rw [hin]; decide),
    bind_of_ok (run_modify _ _), bind_of_ok (hcopy _)]
  show EStateM.Result.ok (Feedback.success, readBytes s.dev.latch.regs _ len) { s with
    dev := { s.dev.latch with
      waitACK := false
      rx := if accessed (a % s.dev.devSize) len rxFifo then s.dev.latch.rx.tail
        else s.dev.latch.rx }
    rxMutex := false } = _
  rw [hfree.setDev_rx, latch_rx]
  rfl

/-- A load that the check lets through although it ends behind the registers. -/
theorem load_beyond (hfree : Free s) (hsize : s.dev.devSize ≠ 0) {a : Addr}
    (hin : outside (a % s.dev.devSize) len = false)
    (hbeyond : regSize < (a % s.dev.devSize).toNat + len) :
    ∃ t, load a len s = .error .outside t := by
  have hcopy : ∀ t : State, copyOut (a % s.dev.devSize) len t = .error .outside t := by
    intro t
    unfold copyOut
    rw [if_pos hbeyond]
    rfl
  unfold load
  rw [bind_of_ok (reduce_ok hsize a), bind_of_ok (lockRx_ok hfree.rx), if_neg (by rw [hin]; decide),
    bind_of_ok (run_modify _ _), bind_of_error (hcopy _)]
  exact ⟨_, rfl⟩

/-- A store that the check keeps out stops with both mutexes held. -/
theorem store_outside (hfree : Free s) (hsize : s.dev.devSize ≠ 0) {a : Addr}
    (hout : outside (a % s.dev.devSize) len = true) :
    store a len x s = .error .assertion { s with txMutex := true, rxMutex := true } := by
  unfold store
  rw [bind_of_ok (reduce_ok hsize a), bind_of_ok (lockTx_ok hfree.tx),
    bind_of_ok (lockRx_ok (s := { s with txMutex := true }) hfree.rx), if_pos hout]
  rfl

theorem store_inside (hfree : Free s) (hsize : s.dev.devSize ≠ 0) {a : Addr}
    (hin : outside (a % s.dev.devSize) len = false)
    (hfits : (a % s.dev.devSize).toNat + len ≤ regSize) :
    store a len x s = .ok .success (s.setDev (written s.dev (a % s.dev.devSize) len x)) := by
  have hcopy : ∀ t : State, copyIn (a % s.dev.devSize) len x t = .ok ()
      (t.setDev { t.dev with
        regs := writeBytes t.dev.regs (a % s.dev.devSize).toNat len x }) := by
    intro t
    unfold copyIn
    rw [if_neg (Nat.not_lt.mpr hfits)]
    rfl
  unfold store
  rw [bind_of_ok (reduce_ok hsize a), bind_of_ok (lockTx_ok hfree.tx),
    bind_of_ok (lockRx_ok (s := { s with txMutex := true }) hfree.rx),
    if_neg (by rw [hin]; decide), bind_of_ok (hcopy _)]
  show EStateM.Result.ok _ { s with
    dev := written s.dev (a % s.dev.devSize) len x
    txMutex := false
    rxMutex := false } = _
  unfold State.setDev
  rw [hfree.tx, hfree.rx]

theorem store_beyond (hfree : Free s) (hsize : s.dev.devSize ≠ 0) {a : Addr}
    (hin : outside (a % s.dev.devSize) len = false)
    (hbeyond : regSize < (a % s.dev.devSize).toNat + len) :
    ∃ t, store a len x s = .error .outside t := by
  have hcopy : ∀ t : State, copyIn (a % s.dev.devSize) len x t = .error .outside t := by
    intro t
    unfold copyIn
    rw [if_pos hbeyond]
    rfl
  unfold store
  rw [bind_of_ok (reduce_ok hsize a), bind_of_ok (lockTx_ok hfree.tx),
    bind_of_ok (lockRx_ok (s := { s with txMutex := true }) hfree.rx),
    if_neg (by rw [hin]; decide), bind_of_error (hcopy _)]
  exact ⟨_, rfl⟩

theorem drain_ok (tx : List (BitVec 8)) (s : State) (h : s.dev.tx = tx) :
    drain tx s = .ok () { s with
      dev := { s.dev with tx := [], waitACK := !tx.isEmpty || s.dev.waitACK }
      handed := s.handed ++ tx } := by
  induction tx generalizing s with
  | nil =>
    show EStateM.Result.ok () s = _
    have hsame : { s.dev with tx := [] } = s.dev := by rw [← h]
    show EStateM.Result.ok () s = .ok () { s with
      dev := { s.dev with tx := [] }, handed := s.handed ++ [] }
    rw [hsame, List.append_nil]
  | cons c tx ih =>
    unfold drain
    rw [bind_of_ok (run_modify _ _), ih _ rfl]
    show EStateM.Result.ok () { s with
      dev := { s.dev with tx := [], waitACK := !tx.isEmpty || (tx.isEmpty || s.dev.waitACK) }
      handed := s.handed ++ [c] ++ tx } = _
    rw [List.append_assoc]
    cases tx <;> rfl

theorem hasIRQ_ok (hfree : Free s) : hasIRQ s = .ok s.dev.hasIRQ s := by
  unfold hasIRQ
  rw [bind_of_ok (lockTx_ok hfree.tx)]
  show EStateM.Result.ok s.dev.hasIRQ { s with txMutex := false } = _
  rw [← hfree.tx]

/-- A tick asks for an interrupt, if there is a controller, and hands over what is queued. -/
theorem tick_ok (hfree : Free s) : tick s = .ok () (ticked s) := by
  have hask : ask s = .ok ()
      { s with irqs := if s.dev.intc then s.irqs ++ [s.dev.hasIRQ] else s.irqs } := by
    unfold ask
    rw [bind_of_ok (run_get s)]
    by_cases hintc : s.dev.intc = true
    · rw [if_pos hintc, if_pos hintc, bind_of_ok (hasIRQ_ok hfree)]
      rfl
    · rw [if_neg hintc, if_neg hintc]
      rfl
  have hlock : ∀ irqs, lockTx { s with irqs := irqs } =
      .ok () { s with irqs := irqs, txMutex := true } := fun irqs =>
    lockTx_ok (s := { s with irqs := irqs }) hfree.tx
  unfold tick
  rw [bind_of_ok hask, bind_of_ok (hlock _),
    bind_of_ok (run_get _), bind_of_ok (drain_ok _ _ rfl)]
  show EStateM.Result.ok () { s with
    dev := { s.dev with tx := [], waitACK := !s.dev.tx.isEmpty || s.dev.waitACK }
    txMutex := false
    irqs := if s.dev.intc then s.irqs ++ [s.dev.hasIRQ] else s.irqs
    handed := s.handed ++ s.dev.tx } = _
  unfold ticked
  rw [hfree.tx]

theorem readInput_ok (hfree : Free s) (c : BitVec 8) :
    readInput c s = .ok () (s.setDev (received s.dev c)) := by
  unfold readInput
  rw [bind_of_ok (lockRx_ok hfree.rx)]
  show EStateM.Result.ok () { s with
    dev := { s.dev with rx := s.dev.rx ++ [c] }
    rxMutex := false } = _
  rw [hfree.setDev_rx]
  rfl

theorem loaded_devSize (u : Uartlite) (b : Addr) (len : Nat) :
    (loaded u b len).devSize = u.devSize := (latch_queues u).1

theorem reset_devSize (u : Uartlite) : u.reset.devSize = u.devSize := by
  unfold reset
  dsimp only
  split <;> split <;> rfl

theorem written_devSize (u : Uartlite) (b : Addr) (x : BitVec (8 * len)) :
    (written u b len x).devSize = u.devSize := by
  unfold written
  dsimp only
  split
  · exact reset_devSize _
  · rfl

/-- An access in the registers passes the check. -/
theorem outside_of_fits (h : b.toNat + len ≤ regSize) : outside b len = false := by
  have hend : (b + BitVec.ofNat 64 len).toNat = b.toNat + len := by
    unfold regSize at h
    rw [BitVec.toNat_add, BitVec.toNat_ofNat]
    omega
  unfold outside
  rw [hend]
  exact decide_eq_false (Nat.not_lt.mpr h)

end Calls

/-! ## One call -/

/-- The range of the access does not lie in the registers. -/
def OutOfRange (devSize : BitVec 64) : Call → Prop
  | .load beginAddr len => regSize < (beginAddr % devSize).toNat + len
  | .store beginAddr len _ => regSize < (beginAddr % devSize).toNat + len
  | .tick => False
  | .readInput _ => False

/-- A store is in range. A load that is not is seen by the check, which adds modulo 2^64. -/
def Handled (devSize : BitVec 64) : Call → Prop
  | .load beginAddr len =>
    regSize < (beginAddr % devSize).toNat + len → outside (beginAddr % devSize) len = true
  | .store beginAddr len _ => (beginAddr % devSize).toNat + len ≤ regSize
  | .tick => True
  | .readInput _ => True

/-- The state behind a call that returns. -/
def after (s : State) : Call → State
  | .load beginAddr len =>
    if (beginAddr % s.dev.devSize).toNat + len ≤ regSize then
      s.setDev (loaded s.dev (beginAddr % s.dev.devSize) len)
    else s
  | .store beginAddr len buffer =>
    s.setDev (written s.dev (beginAddr % s.dev.devSize) len buffer)
  | .tick => ticked s
  | .readInput c => s.setDev (received s.dev c)

theorem after_free {s : State} (h : Free s) (c : Call) : Free (after s c) := by
  cases c with
  | load beginAddr len =>
    unfold after
    dsimp only
    split
    · exact ⟨h.tx, h.rx⟩
    · exact h
  | store beginAddr len x => exact ⟨h.tx, h.rx⟩
  | tick => exact ⟨h.tx, h.rx⟩
  | readInput c => exact ⟨h.tx, h.rx⟩

theorem after_devSize (s : State) (c : Call) : (after s c).dev.devSize = s.dev.devSize := by
  cases c with
  | load beginAddr len =>
    unfold after
    dsimp only
    split
    · exact loaded_devSize _ _ _
    · rfl
  | store beginAddr len x => exact written_devSize _ _ _
  | tick => rfl
  | readInput c => rfl

section Call

variable {s : State} {c : Call}

/-- How a call returns. -/
theorem call_returns (hfree : Free s) (hsize : s.dev.devSize ≠ 0)
    (h : Handled s.dev.devSize c) :
    ∃ a, call c s = .ok a (after s c) ∧
      (OutOfRange s.dev.devSize c → a = some .outOfRange ∧ after s c = s) := by
  cases c with
  | load beginAddr len =>
    unfold call after
    dsimp only
    by_cases hfits : (beginAddr % s.dev.devSize).toNat + len ≤ regSize
    · rw [bind_of_ok (load_inside hfree hsize (outside_of_fits hfits) hfits), if_pos hfits]
      exact ⟨some .success, rfl, fun hout => absurd hfits (Nat.not_le_of_lt hout)⟩
    · rw [bind_of_ok (load_outside hfree hsize (h (Nat.lt_of_not_le hfits))), if_neg hfits]
      exact ⟨some .outOfRange, rfl, fun _ => ⟨rfl, rfl⟩⟩
  | store beginAddr len x =>
    unfold call
    dsimp only
    rw [map_eq_pure_bind, bind_of_ok (store_inside hfree hsize (outside_of_fits h) h)]
    exact ⟨some .success, rfl, fun hout => absurd h (Nat.not_le_of_lt hout)⟩
  | tick =>
    unfold call
    dsimp only
    rw [bind_of_ok (tick_ok hfree)]
    exact ⟨none, rfl, fun hout => hout.elim⟩
  | readInput c =>
    unfold call
    dsimp only
    rw [bind_of_ok (readInput_ok hfree c)]
    exact ⟨none, rfl, fun hout => hout.elim⟩

/-- A call that is not handled does not return. -/
theorem call_stops (hfree : Free s) (hsize : s.dev.devSize ≠ 0)
    (h : ¬ Handled s.dev.devSize c) :
    OutOfRange s.dev.devSize c ∧ ∃ e t, call c s = .error e t := by
  cases c with
  | load beginAddr len =>
    obtain ⟨hout, hcheck⟩ := Classical.not_imp.mp h
    obtain ⟨t, hload⟩ := load_beyond hfree hsize (Bool.eq_false_iff.mpr hcheck) hout
    refine ⟨hout, .outside, t, ?_⟩
    unfold call
    dsimp only
    rw [bind_of_error hload]
  | store beginAddr len x =>
    have hout := Nat.lt_of_not_le h
    constructor
    · exact hout
    · unfold call
      dsimp only
      rw [map_eq_pure_bind]
      by_cases hcheck : outside (beginAddr % s.dev.devSize) len = true
      · rw [bind_of_error (store_outside hfree hsize hcheck)]
        exact ⟨_, _, rfl⟩
      · obtain ⟨t, hstore⟩ :=
          store_beyond (x := x) hfree hsize (Bool.eq_false_iff.mpr hcheck) hout
        rw [bind_of_error hstore]
        exact ⟨_, _, rfl⟩
  | tick => exact absurd trivial h
  | readInput c => exact absurd trivial h

end Call

end NextEmu.Device.UartliteCalls
