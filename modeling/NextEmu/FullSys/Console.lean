import NextEmu.FullSys.System

/-!
# What a guest shows on the console

A byte that a guest stores to the transmit register waits for the next tick of the UART, which
hands all that wait to the console. A step stores at most once and begins with nothing waiting, so
that also a store that resets the queue drops nothing: the console shows all that the guest has
stored, once and in order.
-/

namespace NextEmu.FullSys

open NextEmu.Sdk NextEmu.Device NextEmu.Simple NextEmu.Simple.BusCalls
open Uartlite UartliteCalls UartliteFifos

/-- What `putchar` has been called with. -/
def console (s : Machine (AddrBus Dev)) : List (BitVec 8) :=
  ((uartOf s).map (·.state.handed)).getD []

/-- What waits for the next tick. -/
def waiting (s : Machine (AddrBus Dev)) : List (BitVec 8) :=
  ((uartOf s).map (·.state.dev.tx)).getD []

/-- The byte that a call stores to the transmit register. -/
def sentByte : Call → Option (BitVec 8)
  | .store addr len data =>
    let addr := addr % 0x100000
    if accessed addr len txFifo then some (byteFor addr data txFifo) else none
  | _ => none

/-- The bytes that the guest has stored to the transmit register. -/
def stored (s : Machine (AddrBus Dev)) : List (BitVec 8) :=
  ((uartOf s).map (·.log.filterMap sentByte)).getD []

/-! ## The transmit queue -/

section Queue

variable {u u' : UartPort} {s : State}

/-- What has been stored has been handed over or waits. -/
def Kept (u : UartPort) : Prop :=
  u.state.handed ++ u.state.dev.tx = u.log.filterMap sentByte

/-- A load and a turn of the input thread leave the transmit queue alone. -/
theorem after_queue {c : Call} (hc : ∀ addr len data, c ≠ .store addr len data) (ht : c ≠ .tick) :
    (after s c).dev.tx = s.dev.tx ∧ (after s c).handed = s.handed ∧ sentByte c = none := by
  cases c with
  | load addr len =>
    unfold UartliteCalls.after
    dsimp only
    split
    · exact ⟨(latch_queues s.dev).2.1, rfl, rfl⟩
    · exact ⟨rfl, rfl, rfl⟩
  | store addr len data => exact absurd rfl (hc addr len data)
  | tick => exact absurd rfl ht
  | readInput c => exact ⟨rfl, rfl, rfl⟩

/-- A store of at most eight bytes cannot both send a byte and reset the queue. -/
theorem control_apart {b : Addr} {len : Nat} (h : InRange b len) (hlen : len ≤ 8)
    (hsend : accessed b len txFifo = true) : accessed b len Uartlite.control = false := by
  apply Bool.eq_false_iff.mpr
  intro hcontrol
  have htx := (accessed_iff h (by decide)).mp hsend
  have hctl := (accessed_iff h (by decide)).mp hcontrol
  unfold txFifo Uartlite.control at *
  omega

theorem reset_tx (u : Uartlite) (h : u.tx = []) : u.reset.tx = [] := by
  unfold reset
  dsimp only
  split <;> split <;> first | rfl | exact h

/-- A store with nothing waiting leaves the byte that it sends, if it sends one. -/
theorem written_tx {u : Uartlite} (htx : u.tx = []) {b : Addr} {len : Nat} {x : BitVec (8 * len)}
    (h : InRange b len) (hlen : len ≤ 8) : (written u b len x).tx =
      if accessed b len txFifo then [byteFor b x txFifo] else [] := by
  unfold written
  dsimp only
  by_cases hsend : accessed b len txFifo = true
  · have hbyte : ({ u with regs := writeBytes u.regs b.toNat len x }.reg txFifo).setWidth 8 =
        byteFor b x txFifo := by
      unfold reg
      rw [setWidth_readBytes _ _ (by decide)]
      exact writeBytes_covered _ ((accessed_iff h (by decide)).mp hsend)
    rw [control_apart h hlen hsend, if_neg Bool.false_ne_true]
    simp only [if_pos hsend]
    rw [hbyte, htx]
    rfl
  · simp only [if_neg hsend]
    split
    · exact reset_tx _ htx
    · exact htx

/-- A store of at most eight bytes with nothing waiting. -/
theorem after_store (htx : s.dev.tx = []) (hsize : s.dev.devSize = 0x100000) {addr : Addr}
    {len : Nat} {data : BitVec (8 * len)} (hlen : 1 ≤ len ∧ len ≤ 8)
    (h : Handled 0x100000 (.store addr len data)) :
    (after s (.store addr len data)).dev.tx = (sentByte (.store addr len data)).toList ∧
      (after s (.store addr len data)).handed = s.handed := by
  refine ⟨?_, rfl⟩
  show (written s.dev (addr % s.dev.devSize) len data).tx = _
  rw [hsize, written_tx htx ⟨hlen.1, h⟩ hlen.2]
  unfold sentByte
  dsimp only
  split <;> rfl

/-- The input thread leaves the transmit queue alone. -/
theorem inputs_queue (cs : List (BitVec 8)) (s : State) :
    ((cs.map Call.readInput).foldl after s).dev.tx = s.dev.tx ∧
      ((cs.map Call.readInput).foldl after s).handed = s.handed := by
  induction cs generalizing s with
  | nil => exact ⟨rfl, rfl⟩
  | cons c cs ih => exact ih (after s (.readInput c))

theorem sentByte_inputs (cs : List (BitVec 8)) :
    (cs.map Call.readInput).filterMap sentByte = [] := by
  simp [List.filterMap_map, sentByte]

end Queue

/-! ## The port -/

section Port

variable {u : UartPort}

/-- The call of the device that a call of the bus is. -/
def callOf : DevCall → Call
  | .load addr len => .load addr len
  | .store addr len data => .store addr len data

/-- A call by the bus stops the program or is one more call of the log. -/
theorem uart_after (h : Logged u) (d : DevCall) : (Dev.uart u).after d = .halted ∨
    ∃ u', (Dev.uart u).after d = .uart u' ∧ Logged u' ∧
      u'.log = u.log ++ ((u.coming.headD []).map .readInput ++ [callOf d]) := by
  cases d with
  | load addr len =>
    unfold Dev.after Dev.load
    dsimp only
    cases hcall : u.call (.load addr len) (UartliteCalls.load addr len) with
    | none => exact .inl rfl
    | some r =>
      obtain ⟨hlogged, -, hlog⟩ := call_logged (does_load addr len) h hcall
      exact .inr ⟨r.2, rfl, hlogged, hlog⟩
  | store addr len data =>
    unfold Dev.after Dev.store
    dsimp only
    cases hcall : u.call (.store addr len data) (UartliteCalls.store addr len data) with
    | none => exact .inl rfl
    | some r =>
      obtain ⟨hlogged, -, hlog⟩ := call_logged (does_store addr len data) h hcall
      exact .inr ⟨r.2, rfl, hlogged, hlog⟩

/-- The queue and the console behind calls of which the last is `c`. -/
theorem Logged.queue {u' : UartPort} (h : Logged u) (h' : Logged u') {c : Call}
    {cs : List (BitVec 8)} (hlog : u'.log = u.log ++ (cs.map .readInput ++ [c])) :
    ∃ s, s.dev.tx = u.state.dev.tx ∧ s.handed = u.state.handed ∧ s.dev.devSize = 0x100000 ∧
      u'.state = after s c ∧
      u'.log.filterMap sentByte = u.log.filterMap sentByte ++ (sentByte c).toList := by
  obtain ⟨htx, hhanded⟩ := inputs_queue cs u.state
  refine ⟨(cs.map Call.readInput).foldl after u.state, htx, hhanded,
    (foldl_after _ h.free h.size).2.1, ?_, ?_⟩
  · rw [h'.state, hlog, List.foldl_append, List.foldl_append, ← h.state]
    rfl
  · rw [hlog, List.filterMap_append, List.filterMap_append, sentByte_inputs, List.nil_append]
    cases hc : sentByte c <;> simp [hc]

/-- A load keeps what is waiting. -/
theorem load_kept (h : Logged u) (hkept : Kept u) (addr : Addr) (len : Nat) :
    (Dev.uart u).after (.load addr len) = .halted ∨
      ∃ u', (Dev.uart u).after (.load addr len) = .uart u' ∧ Logged u' ∧ Kept u' ∧
        u'.state.dev.tx = u.state.dev.tx ∧ u'.state.handed = u.state.handed := by
  rcases uart_after h (.load addr len) with hhalt | ⟨u', hu', hlogged, hlog⟩
  · exact .inl hhalt
  obtain ⟨s, htx, hhanded, -, hstate, hsent⟩ := h.queue hlogged hlog
  obtain ⟨htx', hhanded', hnone⟩ :=
    after_queue (s := s) (c := callOf (.load addr len)) nofun nofun
  have hsame : u'.state.dev.tx = u.state.dev.tx ∧ u'.state.handed = u.state.handed := by
    rw [hstate, htx', hhanded', htx, hhanded]
    exact ⟨rfl, rfl⟩
  refine .inr ⟨u', hu', hlogged, ?_, hsame⟩
  unfold Kept at *
  rw [hsent, hnone, hsame.1, hsame.2, hkept]
  exact (List.append_nil _).symm

/-- A store with nothing waiting sends what it stores. -/
theorem store_kept (h : Logged u) (hkept : Kept u) (hnone : u.state.dev.tx = []) (addr : Addr)
    {len : Nat} (hlen : 1 ≤ len ∧ len ≤ 8) (data : BitVec (8 * len)) :
    (Dev.uart u).after (.store addr len data) = .halted ∨
      ∃ u', (Dev.uart u).after (.store addr len data) = .uart u' ∧ Logged u' ∧ Kept u' ∧
        u'.state.handed = u.state.handed := by
  rcases uart_after h (.store addr len data) with hhalt | ⟨u', hu', hlogged, hlog⟩
  · exact .inl hhalt
  obtain ⟨s, htx, hhanded, hsize, hstate, hsent⟩ := h.queue hlogged hlog
  have hhandled : Handled 0x100000 (.store addr len data) := by
    apply hlogged.handled
    rw [hlog]
    simp [callOf]
  obtain ⟨htx', hhanded'⟩ := after_store (htx.trans hnone) hsize hlen hhandled
  have hstate' : u'.state = after s (.store addr len data) := hstate
  refine .inr ⟨u', hu', hlogged, ?_, ?_⟩
  · unfold Kept at *
    rw [hnone, List.append_nil] at hkept
    rw [hsent, hstate', htx', hhanded', hhanded, hkept]
    rfl
  · rw [hstate', hhanded', hhanded]

end Port

/-! ## A step -/

section Step

variable {u : UartPort} {dest : Route → Option Addr}

theorem halted_behind (cs : List BusCall) : Dev.halted.behind dest cs = .halted := by
  have hafter : ∀ ds : List DevCall, ds.foldl Dev.after .halted = .halted := by
    intro ds
    induction ds with
    | nil => rfl
    | cons d ds ih => cases d <;> exact ih
  exact hafter _

theorem behind_append (d : Dev) (cs cs' : List BusCall) :
    d.behind dest (cs ++ cs') = (d.behind dest cs).behind dest cs' := by
  unfold Dev.behind
  rw [List.filterMap_append, List.foldl_append]

/-- Calls without a store keep what is waiting. -/
theorem storeless_kept {cs : List BusCall} (hcs : Storeless cs) (h : Logged u) (hkept : Kept u) :
    (Dev.uart u).behind dest cs = .halted ∨
      ∃ u', (Dev.uart u).behind dest cs = .uart u' ∧ Logged u' ∧ Kept u' ∧
        u'.state.dev.tx = u.state.dev.tx ∧ u'.state.handed = u.state.handed := by
  induction cs generalizing u with
  | nil => exact .inr ⟨u, rfl, h, hkept, rfl, rfl⟩
  | cons call cs ih =>
    have hrest : Storeless cs := fun a n data hmem => hcs a n data (List.mem_cons_of_mem _ hmem)
    have hsplit := @behind_append dest (.uart u) [call] cs
    rw [List.singleton_append] at hsplit
    rw [hsplit]
    cases hsent : sent dest call with
    | none =>
      have hsame : (Dev.uart u).behind dest [call] = .uart u := by simp [Dev.behind, hsent]
      rw [hsame]
      exact ih hrest h hkept
    | some d =>
      have hone : (Dev.uart u).behind dest [call] = (Dev.uart u).after d := by
        simp [Dev.behind, hsent]
      rw [hone]
      cases d with
      | store addr len data =>
        -- only a store is sent as one
        cases call <;> simp [sent] at hsent
        exact absurd List.mem_cons_self (hcs _ _ _)
      | load addr len =>
        rcases load_kept h hkept addr len with hhalt | ⟨u', hu', hlogged, hkept', htx, hhanded⟩
        · rw [hhalt]
          exact .inl (halted_behind cs)
        · rw [hu']
          rcases ih hrest hlogged hkept' with hhalt | ⟨v, hv, hlv, hkv, htv, hhv⟩
          · exact .inl hhalt
          · exact .inr ⟨v, hv, hlv, hkv, htv.trans htx, hhv.trans hhanded⟩

/-- A step of the core with nothing waiting. -/
theorem step_kept {cs : List BusCall} (hcs : StepCalls cs) (h : Logged u) (hkept : Kept u)
    (hnone : u.state.dev.tx = []) : (Dev.uart u).behind dest cs = .halted ∨
      ∃ u', (Dev.uart u).behind dest cs = .uart u' ∧ Logged u' ∧ Kept u' ∧
        u'.state.handed = u.state.handed := by
  rcases hcs.store_last with hstoreless | ⟨before, a, n, data, rfl, hbefore, hn⟩
  · rcases @storeless_kept u dest _ hstoreless h hkept with hhalt | ⟨u', hu', hl, hk, -, hh⟩
    · exact .inl hhalt
    · exact .inr ⟨u', hu', hl, hk, hh⟩
  rw [behind_append]
  rcases @storeless_kept u dest _ hbefore h hkept with hhalt | ⟨u', hu', hl, hk, htx, hh⟩
  · rw [hhalt]
    exact .inl (halted_behind _)
  rw [hu']
  cases hroute : dest (route a) with
  | none =>
    have hsame : (Dev.uart u').behind dest [.store a n data] = .uart u' := by
      simp [Dev.behind, sent, hroute]
    exact .inr ⟨u', hsame, hl, hk, hh⟩
  | some addr =>
    have hone : (Dev.uart u').behind dest [.store a n data] =
        (Dev.uart u').after (.store addr n data) := by
      simp [Dev.behind, sent, hroute]
    have hlen : 1 ≤ n ∧ n ≤ 8 := by
      unfold SingleAccess.Sizes at hn
      omega
    rw [hone]
    rcases store_kept hl hk (htx.trans hnone) addr hlen data with hhalt | ⟨v, hv, hlv, hkv, hhv⟩
    · exact .inl hhalt
    · exact .inr ⟨v, hv, hlv, hkv, hhv.trans hh⟩

end Step

/-! ## The system -/

section System

variable {s t : Machine (AddrBus Dev)} {u : UartPort}

/-- The devices are wired, and the UART has kept all that was stored. -/
structure Showing (s : Machine (AddrBus Dev)) (u : UartPort) : Prop where
  wired : ∃ c p, Wired s.bus (.clint c) (.plic p) (.uart u)
  logged : Logged u
  kept : Kept u

theorem Showing.uartOf (h : Showing s u) : uartOf s = some u := by
  obtain ⟨c, p, hwired⟩ := h.wired
  exact hwired.uartOf

/-- A tick hands over all that waits. -/
theorem tick_kept {u' : UartPort} (h : Logged u) (hkept : Kept u)
    (hcall : u.call .tick UartliteCalls.tick = some ((), u')) :
    Logged u' ∧ Kept u' ∧ u'.state.dev.tx = [] ∧
      u'.state.handed = u.log.filterMap sentByte := by
  obtain ⟨hlogged, -, hlog⟩ := call_logged does_tick h hcall
  obtain ⟨s, htx, hhanded, -, hstate, hsent⟩ := h.queue hlogged hlog
  have htx' : u'.state.dev.tx = [] := congrArg (·.dev.tx) hstate
  have hhanded' : u'.state.handed = u.log.filterMap sentByte := by
    have hticked : u'.state.handed = s.handed ++ s.dev.tx := congrArg (·.handed) hstate
    rw [hticked, htx, hhanded, hkept]
  refine ⟨hlogged, ?_, htx', hhanded'⟩
  unfold Kept
  rw [htx', hhanded', hsent]
  rfl

/-- A turn shows what had been stored before it. -/
theorem turn_shows (h : Showing s u) (ht : turn s = some t) :
    ∃ u', Showing t u' ∧ u'.state.handed = u.log.filterMap sentByte := by
  obtain ⟨c, p, hwired⟩ := h.wired
  obtain ⟨m, hm, hstep, hrunning⟩ := turn_some ht
  obtain ⟨u₁, plic', hcall, -, hwired', -, -⟩ := ticks_eq hwired hm
  obtain ⟨hlogged, hkept, hnone, hhanded⟩ := tick_kept h.logged h.kept hcall
  obtain ⟨cs, c', p', v, hcs, -, -, hv, hwired''⟩ := step_devices hwired' hstep hrunning
  have hkeeps := @step_kept _ Route.toUart _ hcs hlogged hkept hnone
  rw [hv] at hkeeps
  obtain ⟨u', hu', hl, hk, hh⟩ := hkeeps.resolve_left nofun
  cases hu'
  exact ⟨v, ⟨⟨c', p', hwired''⟩, hl, hk⟩, hh.trans hhanded⟩

theorem powerOn_shows (c : RV64Core) (mem : Nat → BitVec 8) (coming : List (List (BitVec 8)))
    (unwritten : List (BitVec 32)) : ∃ u, Showing (powerOn c mem coming unwritten) u :=
  ⟨_, ⟨_, _, rfl, rfl, rfl, rfl⟩, ⟨⟨rfl, rfl⟩, rfl, rfl, by simp, rfl⟩, rfl⟩

theorem turns_show {c : RV64Core} {mem : Nat → BitVec 8} {coming : List (List (BitVec 8))}
    {unwritten : List (BitVec 32)} {n : Nat}
    (h : turns n (powerOn c mem coming unwritten) = some s) : ∃ u, Showing s u := by
  induction n generalizing s with
  | zero =>
    cases h
    exact powerOn_shows c mem coming unwritten
  | succ n ih =>
    obtain ⟨m, hm, hturn⟩ := Option.bind_eq_some_iff.mp h
    obtain ⟨u, hu⟩ := ih hm
    obtain ⟨u', hu', -⟩ := turn_shows hu hturn
    exact ⟨u', hu'⟩

/-- In every run of the system, whatever the guest does and whatever comes in meanwhile, a turn
leaves on the console all that the guest had stored to the transmit register before that turn,
each byte once and in order; what is stored in the turn itself waits for the next. -/
theorem console_shows {c : RV64Core} {mem : Nat → BitVec 8} {coming : List (List (BitVec 8))}
    {unwritten : List (BitVec 32)} {n : Nat}
    (hrun : turns n (powerOn c mem coming unwritten) = some s) (hturn : turn s = some t) :
    console t = stored s ∧ console t ++ waiting t = stored t := by
  obtain ⟨u, hu⟩ := turns_show hrun
  obtain ⟨u', hu', hhanded⟩ := turn_shows hu hturn
  have hkept := hu'.kept
  unfold console waiting stored
  rw [hu.uartOf, hu'.uartOf]
  exact ⟨hhanded, hkept⟩

end System

/-- A program that stores a letter: `lui x5, 0x60100`, `addi x6, x0, 0x41`, `sb x6, 4(x5)`. -/
def printing : Nat → BitVec 8 := writeBytes (fun _ => 0) 0 16 0x000000130062822304100313601002b7

theorem console_shows_letter : ∃ s t, turns 3 (powerOn default printing [] []) = some s ∧
    turn s = some t ∧ stored s = [0x41] ∧ console t = [0x41] := by
  have hrun : (turns 4 (powerOn default printing [] [])).map console = some [0x41] := by
    decide +kernel
  obtain ⟨t, ht, hshown⟩ := Option.map_eq_some_iff.mp hrun
  obtain ⟨s, hs, hturn⟩ := Option.bind_eq_some_iff.mp ht
  obtain ⟨hstored, -⟩ := console_shows hs hturn
  exact ⟨s, t, hs, hturn, hstored.symm.trans hshown, hshown⟩

end NextEmu.FullSys
