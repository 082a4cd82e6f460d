import NextEmu.FullSys.Devices
import NextEmu.Simple.BusCalls

/-!
# The full system

The loop of `simple_full_sys`: the devices tick, the CLINT and the PLIC drive the interrupt lines
of the core, and the core makes a step. A turn has no result when an assertion fails or a device
has stopped the program. However the guest behaves, its steps reach a device only by that device's
own calls, so the devices of a run are those that their own calls leave.
-/

namespace NextEmu.FullSys

open NextEmu.Sdk NextEmu.Device NextEmu.Simple NextEmu.Simple.BusCalls

def clintBase : Addr := 0x2000000
def plicBase : Addr := 0xc000000
def uartBase : Addr := 0x60100000
def memBase : Addr := 0x80000000

/-- `1024l * 1024l * 1024l * 4`. -/
def memSize : BitVec 64 := 0x100000000

/-- The bus of `simple_full_sys` with what main memory holds at first, and what comes from the
input thread and from outside the buffers. -/
def newBus (mem : Nat → BitVec 8) (coming : List (List (BitVec 8)))
    (unwritten : List (BitVec 32)) : AddrBus Dev where
  mainMem := some mem
  memBeginAddr := memBase
  memEndAddr := memBase + memSize
  devices := [
    (clintBase, .clint { clint := CLInt.init (.replicate 2 {}), log := [] }),
    (plicBase, .plic { plic := PLIC.init 4 4, log := [], unwritten := unwritten }),
    (uartBase, .uart {
      state := UartliteCalls.State.init 0x100000 true
      log := []
      coming := coming })]
  keyOrder := by simp [clintBase, plicBase, uartBase]

/-- The machine that `simple_full_sys` sets up. -/
def powerOn (c : RV64Core) (mem : Nat → BitVec 8) (coming : List (List (BitVec 8)))
    (unwritten : List (BitVec 32)) : Machine (AddrBus Dev) :=
  .start ({ RV64Core.reset c with currentProgramCounter := 0x80000000 }.setGPR 10 0)
    (newBus mem coming unwritten)

/-- The device at a key. -/
def devAt (b : AddrBus Dev) (key : Addr) : Option Dev :=
  (b.devices.find? (·.1 = key)).map Prod.snd

/-- The CLINT of the system. -/
def clintOf (s : Machine (AddrBus Dev)) : Option ClintPort :=
  match devAt s.bus clintBase with
  | some (.clint c) => some c
  | _ => none

/-- The PLIC. -/
def plicOf (s : Machine (AddrBus Dev)) : Option PlicPort :=
  match devAt s.bus plicBase with
  | some (.plic p) => some p
  | _ => none

/-- The UART. -/
def uartOf (s : Machine (AddrBus Dev)) : Option UartPort :=
  match devAt s.bus uartBase with
  | some (.uart u) => some u
  | _ => none

variable {s t : Machine (AddrBus Dev)}

/-- `clint->tick(0)`, which drives two lines of the core. -/
def tickClint (s : Machine (AddrBus Dev)) : Option (Machine (AddrBus Dev)) :=
  match devAt s.bus clintBase with
  | some (.clint c) =>
    let clint := c.clint.tick
    let status := clint.intContexts.get 0
    some { s with
      core := { s.core with
        intStatus := { s.core.intStatus with msip := status.msip, mtip := status.mtip } }
      bus := s.bus.putDev clintBase (.clint { clint := clint, log := c.log ++ [.tick] }) }
  | _ => none

/-- `plic->tick(0)`, which drives the other two. -/
def tickPlic (s : Machine (AddrBus Dev)) : Option (Machine (AddrBus Dev)) :=
  match devAt s.bus plicBase with
  | some (.plic p) =>
    let plic := p.plic.tick
    some { s with
      core := { s.core with
        intStatus := { s.core.intStatus with
          meip := plic.intContexts.get 0
          seip := plic.intContexts.get 1 } }
      bus := s.bus.putDev plicBase (.plic { p with plic := plic }) }
  | _ => none

/-- `uart->tick(0)`, which calls `setInt` of the PLIC. -/
def tickUart (s : Machine (AddrBus Dev)) : Option (Machine (AddrBus Dev)) :=
  match devAt s.bus uartBase, devAt s.bus plicBase with
  | some (.uart u), some (.plic p) =>
    match u.call .tick UartliteCalls.tick with
    | some (_, u) =>
      match p.plic.setInt 1 (u.state.irqs.getLastD false) with
      | .ok plic => some { s with
          bus := (s.bus.putDev plicBase (.plic { p with plic := plic })).putDev uartBase (.uart u) }
      | .error _ => none
    | none => none
  | _, _ => none

/-- No device has stopped the program. -/
def running (b : AddrBus Dev) : Bool :=
  b.devices.all fun e => match e.2 with
    | .halted => false
    | _ => true

/-- `core->step()`. -/
def stepCore (s : Machine (AddrBus Dev)) : Option (Machine (AddrBus Dev)) :=
  match step { s with trace := [] } with
  | .ok () t => if running t.bus then some t else none
  | .error _ _ => none

/-- The ticks of a turn. -/
def ticks (s : Machine (AddrBus Dev)) : Option (Machine (AddrBus Dev)) :=
  ((tickClint s).bind tickPlic).bind tickUart

/-- One turn of the loop. -/
def turn (s : Machine (AddrBus Dev)) : Option (Machine (AddrBus Dev)) := (ticks s).bind stepCore

/-- `n` turns. -/
def turns : Nat → Machine (AddrBus Dev) → Option (Machine (AddrBus Dev))
  | 0, s => some s
  | n + 1, s => (turns n s).bind turn

/-! ## The wires -/

/-- The bus has these devices, beside its main memory. -/
structure Wired (b : AddrBus Dev) (c : Dev) (p : Dev) (u : Dev) : Prop where
  devices : b.devices = [(clintBase, c), (plicBase, p), (uartBase, u)]
  memory : b.mainMem.isSome = true
  memBegin : b.memBeginAddr = memBase
  memEnd : b.memEndAddr = memBase + memSize

/-- Where the bus sends an access, and the address that it gives to a device. -/
inductive Route
  | memory
  | clint (addr : Addr)
  | plic (addr : Addr)
  | uart (addr : Addr)
  | nowhere
  deriving DecidableEq, Repr

def route (addr : Addr) : Route :=
  if memBase ≤ addr ∧ addr ≤ memBase + memSize then .memory
  else if uartBase ≤ addr then .uart (addr - uartBase)
  else if plicBase ≤ addr then .plic (addr - plicBase)
  else if clintBase ≤ addr then .clint (addr - clintBase)
  else .nowhere

namespace Wired

variable {b : AddrBus Dev} {c p u : Dev}

theorem putClint (h : Wired b c p u) (c' : Dev) : Wired (b.putDev clintBase c') c' p u :=
  ⟨by simp [AddrBus.putDev, h.devices, clintBase, plicBase, uartBase], h.memory, h.memBegin,
    h.memEnd⟩

theorem putPlic (h : Wired b c p u) (p' : Dev) : Wired (b.putDev plicBase p') c p' u :=
  ⟨by simp [AddrBus.putDev, h.devices, clintBase, plicBase, uartBase], h.memory, h.memBegin,
    h.memEnd⟩

theorem putUart (h : Wired b c p u) (u' : Dev) : Wired (b.putDev uartBase u') c p u' :=
  ⟨by simp [AddrBus.putDev, h.devices, clintBase, plicBase, uartBase], h.memory, h.memBegin,
    h.memEnd⟩

theorem devAt_clint (h : Wired b c p u) : devAt b clintBase = some c := by
  simp [devAt, h.devices]

theorem devAt_plic (h : Wired b c p u) : devAt b plicBase = some p := by
  simp [devAt, h.devices, clintBase, plicBase]

theorem devAt_uart (h : Wired b c p u) : devAt b uartBase = some u := by
  simp [devAt, h.devices, clintBase, plicBase, uartBase]

theorem clintOf {c : ClintPort} (h : Wired s.bus (.clint c) p u) : clintOf s = some c := by
  unfold FullSys.clintOf
  rw [h.devAt_clint]

theorem plicOf {p : PlicPort} (h : Wired s.bus c (.plic p) u) : plicOf s = some p := by
  unfold FullSys.plicOf
  rw [h.devAt_plic]

theorem uartOf {u : UartPort} (h : Wired s.bus c p (.uart u)) : uartOf s = some u := by
  unfold FullSys.uartOf
  rw [h.devAt_uart]

theorem inMainMem_iff (h : Wired b c p u) (addr : Addr) :
    b.inMainMem addr = true ↔ memBase ≤ addr ∧ addr ≤ memBase + memSize := by
  simp [AddrBus.inMainMem, h.memory, h.memBegin, h.memEnd]

/-- The device that the bus finds for an address. -/
theorem findDev_eq (h : Wired b c p u) (addr : Addr) : b.findDev addr =
    if uartBase ≤ addr then some (uartBase, u)
    else if plicBase ≤ addr then some (plicBase, p)
    else if clintBase ≤ addr then some (clintBase, c)
    else none := by
  have hcp : clintBase ≤ plicBase := by decide
  have hpu : plicBase ≤ uartBase := by decide
  unfold AddrBus.findDev
  rw [h.devices]
  by_cases hu : uartBase ≤ addr
  · have hp : plicBase ≤ addr := BitVec.le_trans hpu hu
    have hc : clintBase ≤ addr := BitVec.le_trans hcp hp
    simp [hu, hp, hc]
  · by_cases hp : plicBase ≤ addr
    · have hc : clintBase ≤ addr := BitVec.le_trans hcp hp
      simp [hu, hp, hc]
    · by_cases hc : clintBase ≤ addr
      · simp [hu, hp, hc]
      · simp [hu, hp, hc]

end Wired

/-! ## What the bus sends to a device -/

def Dev.after (d : Dev) : DevCall → Dev
  | .load addr len => (d.load addr len).2
  | .store addr len data => (d.store addr len data).2

namespace Route

def toClint : Route → Option Addr
  | clint addr => some addr
  | _ => none

def toPlic : Route → Option Addr
  | plic addr => some addr
  | _ => none

def toUart : Route → Option Addr
  | uart addr => some addr
  | _ => none

end Route

/-- What the bus makes of a call for the device that `dest` is for. -/
def sent (dest : Route → Option Addr) : BusCall → Option DevCall
  | .load addr len => (dest (route addr)).map (.load · len)
  | .store addr len data => (dest (route addr)).map (.store · len data)
  | .pteLoad addr => (dest (route addr)).map (.load · 8)
  | .reserve _ _ | .check _ _ => none

/-- The device behind the calls of a list that are for it. -/
def Dev.behind (dest : Route → Option Addr) (d : Dev) (cs : List BusCall) : Dev :=
  (cs.filterMap (sent dest)).foldl Dev.after d

namespace Wired

variable {b : AddrBus Dev} {c p u : Dev}

/-- The wires are not of what a store does to the reservation and to main memory. -/
theorem of_devices {b' : AddrBus Dev} (h : Wired b c p u) (hdev : b'.devices = b.devices)
    (hmem : b'.mainMem.isSome = b.mainMem.isSome) (hbegin : b'.memBeginAddr = b.memBeginAddr)
    (hend : b'.memEndAddr = b.memEndAddr) : Wired b' c p u :=
  ⟨hdev.trans h.devices, hmem.trans h.memory, hbegin.trans h.memBegin, hend.trans h.memEnd⟩

theorem load (h : Wired b c p u) (addr : Addr) (len : Nat) : Wired (b.load addr len).2
    (((route addr).toClint.map (DevCall.load · len)).elim c c.after)
    (((route addr).toPlic.map (DevCall.load · len)).elim p p.after)
    (((route addr).toUart.map (DevCall.load · len)).elim u u.after) := by
  unfold AddrBus.load route
  by_cases hmem : memBase ≤ addr ∧ addr ≤ memBase + memSize
  · simp only [if_pos ((h.inMainMem_iff addr).mpr hmem), if_pos hmem]
    exact h
  simp only [if_neg (mt (h.inMainMem_iff addr).mp hmem), if_neg hmem, h.findDev_eq addr]
  by_cases hu : uartBase ≤ addr
  · simp only [if_pos hu]
    exact h.putUart _
  by_cases hp : plicBase ≤ addr
  · simp only [if_neg hu, if_pos hp]
    exact h.putPlic _
  by_cases hc : clintBase ≤ addr
  · simp only [if_neg hu, if_neg hp, if_pos hc]
    exact h.putClint _
  · simp only [if_neg hu, if_neg hp, if_neg hc]
    exact h

theorem store (h : Wired b c p u) (addr : Addr) (len : Nat) (data : BitVec (8 * len)) :
    Wired (b.store addr len data).2
      (((route addr).toClint.map (DevCall.store · len data)).elim c c.after)
      (((route addr).toPlic.map (DevCall.store · len data)).elim p p.after)
      (((route addr).toUart.map (DevCall.store · len data)).elim u u.after) := by
  have hbroken : Wired (b.breakReservation addr (BitVec.ofNat 64 len)) c p u := by
    obtain ⟨hmem, hbegin, hend, hdev⟩ := b.breakReservation_memory addr (BitVec.ofNat 64 len)
    exact h.of_devices hdev (congrArg Option.isSome hmem) hbegin hend
  unfold AddrBus.store AddrBus.storeRouted route
  by_cases hmem : memBase ≤ addr ∧ addr ≤ memBase + memSize
  · simp only [if_pos ((hbroken.inMainMem_iff addr).mpr hmem), if_pos hmem]
    exact hbroken.of_devices rfl hbroken.memory.symm rfl rfl
  simp only [if_neg (mt (hbroken.inMainMem_iff addr).mp hmem), if_neg hmem,
    hbroken.findDev_eq addr]
  by_cases hu : uartBase ≤ addr
  · simp only [if_pos hu]
    exact hbroken.putUart _
  by_cases hp : plicBase ≤ addr
  · simp only [if_neg hu, if_pos hp]
    exact hbroken.putPlic _
  by_cases hc : clintBase ≤ addr
  · simp only [if_neg hu, if_neg hp, if_pos hc]
    exact hbroken.putClint _
  · simp only [if_neg hu, if_neg hp, if_neg hc]
    exact hbroken

/-- A call of the bus is at most a call of one device. -/
theorem apply (h : Wired b c p u) (hartId : BitVec 64) (call : BusCall) :
    Wired (call.apply hartId b) (c.behind Route.toClint [call]) (p.behind Route.toPlic [call])
      (u.behind Route.toUart [call]) := by
  have hone : ∀ (dest : Route → Option Addr) (d : Dev),
      d.behind dest [call] = (sent dest call).elim d d.after := by
    intro dest d
    unfold Dev.behind
    cases hs : sent dest call <;> simp [hs]
  simp only [hone]
  cases call with
  | load addr len => exact h.load addr len
  | store addr len data => exact h.store addr len data
  | pteLoad addr => exact h.load addr 8
  | reserve addr len => exact h.of_devices rfl rfl rfl rfl
  | check addr len => exact h.of_devices rfl rfl rfl rfl

/-- Each device is the one behind those calls that are for it. -/
theorem calls (h : Wired b c p u) (hartId : BitVec 64) (cs : List BusCall) :
    Wired (cs.foldl (BusCall.apply hartId) b) (c.behind Route.toClint cs)
      (p.behind Route.toPlic cs) (u.behind Route.toUart cs) := by
  induction cs generalizing b c p u with
  | nil => exact h
  | cons call cs ih =>
    have hbehind : ∀ (dest : Route → Option Addr) (d : Dev),
        d.behind dest (call :: cs) = (d.behind dest [call]).behind dest cs := by
      intro dest d
      unfold Dev.behind
      rw [← List.foldl_append, ← List.filterMap_append]
      rfl
    simp only [hbehind]
    exact ih (h.apply hartId call)

end Wired

/-- What each call keeps. -/
theorem behind_keeps {P : Dev → Prop} (hP : ∀ d call, P d → P (d.after call))
    (dest : Route → Option Addr) {d : Dev} (hd : P d) (cs : List BusCall) :
    P (d.behind dest cs) := by
  have hall : ∀ (ds : List DevCall) (d : Dev), P d → P (ds.foldl Dev.after d) := by
    intro ds
    induction ds with
    | nil => exact fun _ h => h
    | cons call ds ih => exact fun d h => ih _ (hP d call h)
  exact hall _ d hd

/-- A device of one kind stays of that kind, or has stopped the program. -/
theorem behind_made {α : Type} {make : α → Dev}
    (hmake : ∀ a call, (make a).after call = .halted ∨ ∃ a', (make a).after call = make a')
    (dest : Route → Option Addr) (a : α) (cs : List BusCall) :
    (make a).behind dest cs = .halted ∨ ∃ a', (make a).behind dest cs = make a' := by
  apply behind_keeps (P := fun d => d = .halted ∨ ∃ a, d = make a)
  · rintro d call (rfl | ⟨a, rfl⟩)
    · cases call <;> exact .inl rfl
    · exact hmake a call
  · exact .inr ⟨a, rfl⟩

theorem clint_behind (c : ClintPort) (dest : Route → Option Addr) (cs : List BusCall) :
    (Dev.clint c).behind dest cs = .halted ∨ ∃ c', (Dev.clint c).behind dest cs = .clint c' := by
  apply behind_made
  rintro c (_ | _)
  all_goals
    simp only [Dev.after, Dev.load, Dev.store, Dev.stopped]
    split <;> first | exact .inl rfl | exact .inr ⟨_, rfl⟩

theorem plic_behind (p : PlicPort) (dest : Route → Option Addr) (cs : List BusCall) :
    (Dev.plic p).behind dest cs = .halted ∨ ∃ p', (Dev.plic p).behind dest cs = .plic p' := by
  apply behind_made
  rintro p (_ | _)
  all_goals
    simp only [Dev.after, Dev.load, Dev.store, Dev.stopped]
    split <;> first | exact .inl rfl | exact .inr ⟨_, rfl⟩

theorem uart_behind (u : UartPort) (dest : Route → Option Addr) (cs : List BusCall) :
    (Dev.uart u).behind dest cs = .halted ∨ ∃ u', (Dev.uart u).behind dest cs = .uart u' := by
  apply behind_made
  rintro u (_ | _)
  all_goals
    simp only [Dev.after, Dev.load, Dev.store, Dev.stopped]
    split <;> first | exact .inl rfl | exact .inr ⟨_, rfl⟩

theorem Wired.running {b : AddrBus Dev} {c p u : Dev} (h : Wired b c p u)
    (hrun : running b = true) : c ≠ .halted ∧ p ≠ .halted ∧ u ≠ .halted := by
  unfold FullSys.running at hrun
  rw [h.devices] at hrun
  refine ⟨?_, ?_, ?_⟩ <;> rintro rfl <;> simp at hrun

/-! ## A turn -/

/-- The lines that the CLINT and the PLIC drive. -/
def lines (c : CLInt 2) (p : PLIC 4 4) : IntStatus where
  msip := (c.intContexts.get 0).msip
  mtip := (c.intContexts.get 0).mtip
  meip := p.intContexts.get 0
  seip := p.intContexts.get 1

section Turn

variable {c : ClintPort} {p : PlicPort} {u : UartPort}

/-- The CLINT behind its tick. -/
def ClintPort.ticked (c : ClintPort) : ClintPort where
  clint := c.clint.tick
  log := c.log ++ [.tick]

theorem tickClint_eq {p' u' : Dev} (h : Wired s.bus (.clint c) p' u') :
    ∃ s', tickClint s = some s' ∧ Wired s'.bus (.clint c.ticked) p' u' ∧ s'.mmu = s.mmu ∧
      s'.core = { s.core with
        intStatus := { s.core.intStatus with
          msip := (c.clint.tick.intContexts.get 0).msip
          mtip := (c.clint.tick.intContexts.get 0).mtip } } := by
  unfold tickClint
  rw [h.devAt_clint]
  exact ⟨_, rfl, h.putClint _, rfl, rfl⟩

theorem tickPlic_eq {c' u' : Dev} (h : Wired s.bus c' (.plic p) u') :
    ∃ s', tickPlic s = some s' ∧ Wired s'.bus c' (.plic { p with plic := p.plic.tick }) u' ∧
      s'.mmu = s.mmu ∧
      s'.core = { s.core with
        intStatus := { s.core.intStatus with
          meip := p.plic.tick.intContexts.get 0
          seip := p.plic.tick.intContexts.get 1 } } := by
  unfold tickPlic
  rw [h.devAt_plic]
  exact ⟨_, rfl, h.putPlic _, rfl, rfl⟩

theorem tickUart_eq {c' : Dev} (h : Wired s.bus c' (.plic p) (.uart u))
    (ht : tickUart s = some t) :
    ∃ u' plic', u.call .tick UartliteCalls.tick = some ((), u') ∧
      p.plic.setInt 1 (u'.state.irqs.getLastD false) = .ok plic' ∧
      Wired t.bus c' (.plic { p with plic := plic' }) (.uart u') ∧ t.core = s.core ∧
      t.mmu = s.mmu := by
  unfold tickUart at ht
  rw [h.devAt_plic, h.devAt_uart] at ht
  dsimp only at ht
  split at ht
  · rename_i r u' hcall
    split at ht
    · rename_i plic' hset
      cases ht
      exact ⟨u', plic', hcall, hset, (h.putPlic _).putUart _, rfl, rfl⟩
    · cases ht
  · cases ht

theorem stepCore_eq (ht : stepCore s = some t) :
    step { s with trace := [] } = .ok () t ∧ running t.bus = true := by
  unfold stepCore at ht
  split at ht
  · rename_i u hstep
    split at ht
    · rename_i hrunning
      cases ht
      exact ⟨hstep, hrunning⟩
    · cases ht
  · cases ht

/-- What the ticks of a turn do. -/
theorem ticks_eq (h : Wired s.bus (.clint c) (.plic p) (.uart u)) (ht : ticks s = some t) :
    ∃ (u' : UartPort) (plic' : PLIC 4 4), u.call .tick UartliteCalls.tick = some ((), u') ∧
      p.plic.tick.setInt 1 (u'.state.irqs.getLastD false) = .ok plic' ∧
      Wired t.bus (.clint c.ticked) (.plic { p with plic := plic' }) (.uart u') ∧
      t.core = { s.core with intStatus := lines c.clint.tick p.plic.tick } ∧ t.mmu = s.mmu := by
  obtain ⟨s₁, h₁, hwired₁, hmmu₁, hcore₁⟩ := tickClint_eq h
  obtain ⟨s₂, h₂, hwired₂, hmmu₂, hcore₂⟩ := tickPlic_eq hwired₁
  unfold ticks at ht
  rw [h₁, Option.bind_some, h₂, Option.bind_some] at ht
  obtain ⟨u', plic', hcall, hset, hwired₃, hcore₃, hmmu₃⟩ := tickUart_eq hwired₂ ht
  refine ⟨u', plic', hcall, hset, hwired₃, ?_, ?_⟩
  · rw [hcore₃, hcore₂, hcore₁]
    rfl
  · rw [hmmu₃, hmmu₂, hmmu₁]

/-- A turn ticks, and then the core makes a step. -/
theorem turn_some (ht : turn s = some t) :
    ∃ m, ticks s = some m ∧ step { m with trace := [] } = .ok () t ∧ running t.bus = true := by
  obtain ⟨m, hm, hstep⟩ := Option.bind_eq_some_iff.mp ht
  exact ⟨m, hm, stepCore_eq hstep⟩

/-- The devices behind a step of the core, none of which has stopped the program. -/
theorem step_devices (h : Wired s.bus (.clint c) (.plic p) (.uart u))
    (hstep : step { s with trace := [] } = .ok () t) (hrunning : running t.bus = true) :
    ∃ cs c' p' u', StepCalls cs ∧ (Dev.clint c).behind Route.toClint cs = .clint c' ∧
      (Dev.plic p).behind Route.toPlic cs = .plic p' ∧
      (Dev.uart u).behind Route.toUart cs = .uart u' ∧
      Wired t.bus (.clint c') (.plic p') (.uart u') := by
  obtain ⟨cs, hcs, hperf⟩ := step_performs { s with trace := [] }
  have hbus := hperf.bus
  rw [Lib.AbortState.final_of_ok hstep] at hbus
  have hwired := h.calls s.core.rvHartID cs
  rw [← hbus] at hwired
  obtain ⟨hc, hp, hu⟩ := hwired.running hrunning
  obtain ⟨c', hc'⟩ := (clint_behind _ _ _).resolve_left hc
  obtain ⟨p', hp'⟩ := (plic_behind _ _ _).resolve_left hp
  obtain ⟨u', hu'⟩ := (uart_behind _ _ _).resolve_left hu
  rw [hc', hp', hu'] at hwired
  exact ⟨cs, c', p', u', hcs, hc', hp', hu', hwired⟩

end Turn

end NextEmu.FullSys
