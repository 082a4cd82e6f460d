import NextEmu.Device.CLInt
import NextEmu.Device.PLIC
import NextEmu.Device.UartliteCalls

/-!
# The devices of the full system

`example/simple_full_sys.cpp` puts a CLINT, a PLIC and the UART of the guests behind one bus. Here
each of them is a slave of that bus. A call that stops the program, or that has no defined result,
leaves a device that is `halted`.

The thread that reads the input of the UART runs beside the others. It takes the mutex of the
receive queue for each byte, so what it does can only be seen by the next call of the device: the
UART comes with the bytes that are pushed before each of its calls. The calls of a device, those
of the thread too, are kept in a log.
-/

namespace NextEmu.FullSys

open NextEmu.Sdk NextEmu.Device

/-- A call of a device by the bus. -/
inductive DevCall
  | load (addr : Addr) (len : Nat)
  | store (addr : Addr) (len : Nat) (data : BitVec (8 * len))

/-- `CLInt<2>`. -/
structure ClintPort where
  clint : CLInt 2
  log : List CLInt.Op

/-- `PLIC<4,4>`. -/
structure PlicPort where
  plic : PLIC 4 4
  log : List DevCall
  /-- What the buffers of its calls hold where a load does not write and a store does not fill
  them. -/
  unwritten : List (BitVec 32)

/-- `Uartlite(nullptr, plic)`. -/
structure UartPort where
  state : UartliteCalls.State
  log : List Uartlite.Call
  /-- What the input thread pushes before each of the next calls. -/
  coming : List (List (BitVec 8))

/-- Some turns of the loop of `readInput`. -/
def readInputs : List (BitVec 8) → UartliteCalls.M Unit
  | [] => pure ()
  | c :: cs => do
    UartliteCalls.readInput c
    readInputs cs

/-- Those that end before the next call. -/
def UartPort.arrive (u : UartPort) : Option UartPort :=
  match readInputs (u.coming.headD []) u.state with
  | .ok _ s => some {
      state := s
      log := u.log ++ (u.coming.headD []).map .readInput
      coming := u.coming.tail }
  | .error _ _ => none

/-- A call of the UART, with its code. -/
def UartPort.call {α : Type} (u : UartPort) (c : Uartlite.Call) (code : UartliteCalls.M α) :
    Option (α × UartPort) :=
  match u.arrive with
  | some u => match code u.state with
    | .ok a s => some (a, { u with state := s, log := u.log ++ [c] })
    | .error _ _ => none
  | none => none

inductive Dev
  | clint (c : ClintPort)
  | plic (p : PlicPort)
  | uart (u : UartPort)
  | halted

namespace Dev

/-- The answer of a call that has none. -/
def stopped (len : Nat) : (Feedback × BitVec (8 * len)) × Dev := ((.unknownErr, 0), .halted)

def load (d : Dev) (addr : Addr) (len : Nat) : (Feedback × BitVec (8 * len)) × Dev :=
  match d with
  | clint c => match c.clint.load addr len 0 with
    | .ok r => (r, clint { c with log := c.log ++ [.load addr len] })
    | .error _ => stopped len
  | plic p => match p.plic.load addr (BitVec.ofNat 64 len) with
    | .ok r =>
      ((r.1.1, (r.1.2.getD (p.unwritten.headD 0)).setWidth (8 * len)),
        plic { plic := r.2, log := p.log ++ [.load addr len], unwritten := p.unwritten.tail })
    | .error _ => stopped len
  | uart u => match u.call (.load addr len) (UartliteCalls.load addr len) with
    | some r => (r.1, uart r.2)
    | none => stopped len
  | halted => stopped len

/-- The word that `PLIC::store` reads at its buffer, of which `len` bytes are the data. -/
def wordAt (len : Nat) (data : BitVec (8 * len)) (beyond : BitVec 32) : BitVec 32 :=
  beyond <<< (8 * len) ||| data.setWidth 32

def store (d : Dev) (addr : Addr) (len : Nat) (data : BitVec (8 * len)) : Feedback × Dev :=
  match d with
  | clint c => match c.clint.store addr len data with
    | .ok r => (r.1, clint { clint := r.2, log := c.log ++ [.store addr len data] })
    | .error _ => (.unknownErr, halted)
  | plic p =>
    match p.plic.store addr (BitVec.ofNat 64 len) (wordAt len data (p.unwritten.headD 0)) with
    | .ok r =>
      (r.1, plic {
        plic := r.2
        log := p.log ++ [.store addr len data]
        unwritten := p.unwritten.tail })
    | .error _ => (.unknownErr, halted)
  | uart u => match u.call (.store addr len data) (UartliteCalls.store addr len data) with
    | some r => (r.1, uart r.2)
    | none => (.unknownErr, halted)
  | halted => (.unknownErr, halted)

instance : SlaveIOI Dev where
  load := load
  store := store

end Dev

/-! ## The UART and its log -/

section Uart

open UartliteCalls

variable {u u' : UartPort} {α : Type}

/-- The UART is the one that the calls of its log leave of a new one. -/
structure Logged (u : UartPort) : Prop where
  free : Free u.state
  size : u.state.dev.devSize = 0x100000
  intc : u.state.dev.intc = true
  handled : ∀ c ∈ u.log, Handled 0x100000 c
  state : u.state = u.log.foldl after (State.init 0x100000 true)

/-- Code that does what the call does, when it returns. -/
def Does (code : M α) (c : Uartlite.Call) : Prop :=
  ∀ s a t, Free s → s.dev.devSize = 0x100000 → code s = .ok a t →
    Handled 0x100000 c ∧ t = after s c

theorem call_ok {s t : State} {a : Option Feedback} (hfree : Free s)
    (hsize : s.dev.devSize = 0x100000) {c : Uartlite.Call} (h : call c s = .ok a t) :
    Handled 0x100000 c ∧ t = after s c := by
  have hne : s.dev.devSize ≠ 0 := by
    rw [hsize]
    decide
  rw [← hsize]
  by_cases hc : Handled s.dev.devSize c
  · obtain ⟨a', hrun, -⟩ := call_returns hfree hne hc
    rw [hrun] at h
    cases h
    exact ⟨hc, rfl⟩
  · obtain ⟨-, e, t', hrun⟩ := call_stops hfree hne hc
    rw [hrun] at h
    cases h

theorem does_load (addr : Addr) (len : Nat) :
    Does (UartliteCalls.load addr len) (.load addr len) := by
  intro s a t hfree hsize h
  apply call_ok (a := some a.1) hfree hsize
  unfold call
  dsimp only
  rw [Lib.AbortState.bind_of_ok h]
  rfl

theorem does_store (addr : Addr) (len : Nat) (data : BitVec (8 * len)) :
    Does (UartliteCalls.store addr len data) (.store addr len data) := by
  intro s a t hfree hsize h
  apply call_ok (a := some a) hfree hsize
  unfold call
  dsimp only
  rw [map_eq_pure_bind, Lib.AbortState.bind_of_ok h]
  rfl

theorem does_tick : Does UartliteCalls.tick .tick := by
  intro s a t hfree hsize h
  apply call_ok (a := none) hfree hsize
  unfold call
  dsimp only
  rw [Lib.AbortState.bind_of_ok h]
  rfl

/-- The turns of the input thread are calls like the others. -/
theorem readInputs_ok (cs : List (BitVec 8)) {s : State} (hfree : Free s) :
    readInputs cs s = .ok () ((cs.map Uartlite.Call.readInput).foldl after s) := by
  induction cs generalizing s with
  | nil => rfl
  | cons c cs ih =>
    unfold readInputs
    rw [Lib.AbortState.bind_of_ok (readInput_ok hfree c)]
    exact ih ⟨hfree.tx, hfree.rx⟩

theorem reset_intc (d : Uartlite) : d.reset.intc = d.intc := by
  unfold Uartlite.reset
  dsimp only
  split <;> split <;> rfl

theorem after_intc (s : State) (c : Uartlite.Call) : (after s c).dev.intc = s.dev.intc := by
  cases c with
  | load addr len =>
    unfold after loaded Uartlite.latch
    dsimp only
    split
    · cases s.dev.rx <;> rfl
    · rfl
  | store addr len x =>
    unfold after written
    dsimp only
    split
    · exact reset_intc _
    · rfl
  | tick => rfl
  | readInput c => rfl

theorem foldl_after (cs : List Uartlite.Call) {s : State} (hfree : Free s)
    (hsize : s.dev.devSize = 0x100000) :
    Free (cs.foldl after s) ∧ (cs.foldl after s).dev.devSize = 0x100000 ∧
      (cs.foldl after s).dev.intc = s.dev.intc := by
  induction cs generalizing s with
  | nil => exact ⟨hfree, hsize, rfl⟩
  | cons c cs ih =>
    rw [List.foldl_cons, ← after_intc s c]
    apply ih (after_free hfree c)
    rw [after_devSize, hsize]

/-- Calls that are logged. -/
theorem Logged.append (h : Logged u) (cs : List Uartlite.Call)
    (hcs : ∀ c ∈ cs, Handled 0x100000 c) (coming : List (List (BitVec 8))) :
    Logged { state := cs.foldl after u.state, log := u.log ++ cs, coming := coming } where
  free := (foldl_after cs h.free h.size).1
  size := (foldl_after cs h.free h.size).2.1
  intc := (foldl_after cs h.free h.size).2.2.trans h.intc
  handled c hc := (List.mem_append.mp hc).elim (h.handled c) (hcs c)
  state := by rw [List.foldl_append, ← h.state]

/-- What a call of the port has done to the device. -/
theorem call_logged {c : Uartlite.Call} {code : M α} (hcode : Does code c) (h : Logged u)
    {a : α} (hcall : u.call c code = some (a, u')) :
    Logged u' ∧ u'.coming = u.coming.tail ∧
      u'.log = u.log ++ ((u.coming.headD []).map .readInput ++ [c]) := by
  have harrive : u.arrive = some {
      state := ((u.coming.headD []).map Uartlite.Call.readInput).foldl after u.state
      log := u.log ++ (u.coming.headD []).map .readInput
      coming := u.coming.tail } := by
    unfold UartPort.arrive
    rw [readInputs_ok _ h.free]
  have hthread : Logged _ :=
    h.append ((u.coming.headD []).map .readInput) (by simp [Handled]) u.coming.tail
  unfold UartPort.call at hcall
  rw [harrive] at hcall
  dsimp only at hcall
  split at hcall
  · rename_i a' s hrun
    obtain ⟨hc, hs⟩ := hcode _ _ _ hthread.free hthread.size hrun
    simp only [Option.some.injEq, Prod.mk.injEq] at hcall
    obtain ⟨-, rfl⟩ := hcall
    refine ⟨?_, rfl, List.append_assoc _ _ _⟩
    have hlast := hthread.append [c] (by simpa using hc) u.coming.tail
    rw [hs]
    exact hlast
  · cases hcall

end Uart

end NextEmu.FullSys
