import NextEmu.Device.UartRoundTrip
import NextEmu.Device.UartliteCalls

/-!
# The UART with its receiver in RTL

`uartlite_rtl/include/UartliteRtl.h` and `uartlite_rtl/src/uart_rtl.cpp`. The registers, the queues
and the mutexes are those of `Uartlite`; what is put into the receive queue comes from the module
of `UartRx.v`, which each second tick gives a rising edge. Here an encoder drives the wire, one
tick of it in front of each rising edge, and guests load and store between any two ticks: what
they have read of the receive queue, with what waits in it, is what the receiver has announced.
-/

namespace NextEmu.Device

open NextEmu.Sdk NextEmu.Lib.AbortState Uartlite UartliteFifos UartliteCalls UartRoundTrip

structure UartRTL (p : UartRx.Params) where
  /-- The registers, the two queues and the two mutexes. -/
  queues : UartliteCalls.State
  uartRx : UartRx p
  /-- `IO_Clk_I`. -/
  clk : Bool

namespace UartRTL

variable {p : UartRx.Params} {α : Type}

/-- The constructor, which resets the receiver and leaves its clock low. -/
def init (devSize : BitVec 64) (intc : Bool) : UartRTL p where
  queues := State.init devSize intc
  uartRx := UartRx.reset
  clk := false

abbrev M (p : UartRx.Params) := EStateM Stop (UartRTL p)

/-- Code that leaves the receiver alone. -/
def onQueues (x : UartliteCalls.M α) : M p α := fun u =>
  match x u.queues with
  | .ok a q => .ok a { u with queues := q }
  | .error e q => .error e { u with queues := q }

/-- `load`. Unlike the one of `Uartlite` it stops at `assert(false)` outside the registers. -/
def loadQueue (beginAddr : Addr) (len : Nat) : UartliteCalls.M (Feedback × BitVec (8 * len)) := do
  let beginAddr ← reduce beginAddr
  lockRx
  if outside beginAddr len then throw .assertion
  else
    modify fun s => s.setDev s.dev.latch
    let buffer ← copyOut beginAddr len
    modify fun s => s.setDev { s.dev with waitACK := false }
    modify fun s => s.setDev
      { s.dev with rx := if accessed beginAddr len rxFifo then s.dev.rx.tail else s.dev.rx }
    unlockRx
    return (.success, buffer)

def load (beginAddr : Addr) (len : Nat) : M p (Feedback × BitVec (8 * len)) :=
  onQueues (loadQueue beginAddr len)

/-- `store`, which is word for word that of `Uartlite`. -/
def store (beginAddr : Addr) (len : Nat) (buffer : BitVec (8 * len)) : M p Feedback :=
  onQueues (UartliteCalls.store beginAddr len buffer)

/-- `IO_Clk_I` changes, with `level` on the wire. The registers take new values at a rising edge
alone. -/
def eval (u : UartRTL p) (level : Bool) : UartRTL p :=
  { u with
    clk := !u.clk
    uartRx := if u.clk then u.uartRx else u.uartRx.clock level }

/-- The byte that `tick` finds announced, as a `char`. -/
def announces (u : UartRTL p) : Option (BitVec 8) :=
  if u.uartRx.rxDone && u.clk then some (u.uartRx.rxData.setWidth 8) else none

/-- `tick`. -/
def tick (level : Bool) : M p Unit := do
  onQueues ask
  onQueues lockTx
  onQueues (do drain (← get).dev.tx)
  modify fun u => u.eval level
  if let some ch := (← get).announces then
    onQueues (UartliteCalls.readInput ch)
  onQueues unlockTx

/-! ## What a call does when both mutexes are free -/

/-- The queues behind a tick. -/
def collected (u : UartRTL p) (s : UartliteCalls.State) : UartliteCalls.State :=
  s.setDev { s.dev with rx := s.dev.rx ++ u.announces.toList }

/-- The state behind a tick. -/
def ticked (u : UartRTL p) (level : Bool) : UartRTL p :=
  { u.eval level with queues := collected (u.eval level) (UartliteCalls.ticked u.queues) }

/-! ## The encoder on the wire -/

/-- The device with the encoder that drives its wire. -/
structure Bench where
  enc : UartEncoder
  dev : UartRTL {}
  /-- What loads of `rx_fifo` have returned while there was something to read. -/
  loaded : List (BitVec 8)

inductive Act
  | tick
  | load (beginAddr : Addr) (len : Nat)
  | store (beginAddr : Addr) (len : Nat) (buffer : BitVec (8 * len))

namespace Bench

/-- The encoder `e` and a new device. -/
def init (e : UartEncoder) (devSize : BitVec 64) (intc : Bool) : Bench where
  enc := e
  dev := UartRTL.init devSize intc
  loaded := []

/-- `none` where a call does not return. -/
def act (b : Bench) : Act → Option Bench
  | .tick => do
    let enc ← if b.dev.clk then some b.enc else b.enc.tick.toOption
    match tick enc.currentLogicVal b.dev with
    | .ok _ dev => some { b with enc := enc, dev := dev }
    | .error _ _ => none
  | .load beginAddr len =>
    let u := b.dev.queues.dev
    match load beginAddr len b.dev with
    | .ok (_, buffer) dev =>
      let loaded := if accessed (beginAddr % u.devSize) len rxFifo && !u.rx.isEmpty then
        b.loaded ++ [buffer.setWidth 8] else b.loaded
      some { b with dev := dev, loaded := loaded }
    | .error _ _ => none
  | .store beginAddr len buffer =>
    match store beginAddr len buffer b.dev with
    | .ok _ dev => some { b with dev := dev }
    | .error _ _ => none

def run (b : Bench) (acts : List Act) : Option Bench := acts.foldlM act b

end Bench

section Calls

variable {u : UartRTL p} {b : Addr} {len : Nat} {x : BitVec (8 * len)}

theorem onQueues_ok {x : UartliteCalls.M α} {a : α} {q : UartliteCalls.State}
    (h : x u.queues = .ok a q) : onQueues x u = .ok a { u with queues := q } := by
  simp only [onQueues, h]

/-- In the registers the two loads are the same code. -/
theorem loadQueue_inside {s : UartliteCalls.State} (hfree : Free s) (hsize : s.dev.devSize ≠ 0)
    (hin : InRange (b % s.dev.devSize) len) :
    loadQueue b len s = UartliteCalls.load b len s := by
  have hinside := inside_of_inRange hin
  unfold loadQueue UartliteCalls.load
  rw [bind_of_ok (reduce_ok hsize b), bind_of_ok (reduce_ok hsize b),
    bind_of_ok (lockRx_ok hfree.rx), bind_of_ok (lockRx_ok hfree.rx), if_neg (by simp [hinside]),
    if_neg (by simp [hinside])]

theorem load_ok (hfree : Free u.queues) (hsize : u.queues.dev.devSize ≠ 0)
    (hin : InRange (b % u.queues.dev.devSize) len) :
    load b len u = .ok
      (.success, readBytes u.queues.dev.latch.regs (b % u.queues.dev.devSize).toNat len)
      { u with queues :=
          u.queues.setDev (loaded u.queues.dev (b % u.queues.dev.devSize) len) } := by
  apply onQueues_ok
  rw [loadQueue_inside hfree hsize hin]
  exact load_inside hfree hsize (inside_of_inRange hin) hin.2

theorem store_ok (hfree : Free u.queues) (hsize : u.queues.dev.devSize ≠ 0)
    (hin : InRange (b % u.queues.dev.devSize) len) :
    store b len x u = .ok .success
      { u with queues :=
          u.queues.setDev (written u.queues.dev (b % u.queues.dev.devSize) len x) } := by
  apply onQueues_ok
  exact store_inside hfree hsize (inside_of_inRange hin) hin.2

/-- The queue of the receiver needs only its own mutex. -/
theorem readInput_locked {s : UartliteCalls.State} (h : s.rxMutex = false) (c : BitVec 8) :
    UartliteCalls.readInput c s = .ok () (s.setDev (received s.dev c)) := by
  unfold UartliteCalls.readInput
  rw [bind_of_ok (lockRx_ok h)]
  simp only [State.setDev, h]
  rfl

theorem tick_ok (hfree : Free u.queues) (level : Bool) :
    tick level u = .ok () (u.ticked level) := by
  -- the four statements of the other device's tick, one by one
  obtain ⟨⟨⟩, s₁, hask, hrest⟩ := bind_ok (UartliteCalls.tick_ok hfree)
  obtain ⟨⟨⟩, s₂, hlock, hrest⟩ := bind_ok hrest
  rw [bind_of_ok (run_get s₂)] at hrest
  obtain ⟨⟨⟩, s₃, hdrain, hunlock⟩ := bind_ok hrest
  have hloop : (do drain (← get).dev.tx : UartliteCalls.M Unit) s₂ = .ok () s₃ := by
    rw [bind_of_ok (run_get s₂)]
    exact hdrain
  have hback : { s₃ with txMutex := false } = UartliteCalls.ticked u.queues := by
    injection hunlock
  have hrx : s₃.rxMutex = false := (congrArg State.rxMutex hback).trans hfree.rx
  unfold tick
  rw [bind_of_ok (onQueues_ok hask), bind_of_ok (onQueues_ok hlock),
    bind_of_ok (onQueues_ok hloop), bind_of_ok (run_modify _ _), bind_of_ok (run_get _)]
  have hsame : ∀ q, (eval { u with queues := q } level).announces = (u.eval level).announces :=
    fun _ => rfl
  rw [hsame]
  cases h : (u.eval level).announces with
  | none =>
    simp only [ticked, collected, h, ← hback, Option.toList_none, List.append_nil]
    rfl
  | some ch =>
    have hinput : onQueues (UartliteCalls.readInput ch) (eval { u with queues := s₃ } level) =
        .ok () { u.eval level with queues := s₃.setDev (received s₃.dev ch) } :=
      onQueues_ok (readInput_locked hrx ch)
    simp only [ticked, collected, h, ← hback, Option.toList_some]
    rw [bind_of_ok hinput]
    rfl

end Calls

/-! ## Runs -/

/-- An access is to the registers, and a store sets no reset bit. -/
def Proper (devSize : BitVec 64) : Act → Prop
  | .tick => True
  | .load beginAddr len => InRange (beginAddr % devSize) len
  | .store beginAddr len x =>
    InRange (beginAddr % devSize) len ∧ ¬ Resets (beginAddr % devSize) len x

/-- The ticks among the calls. -/
def ticks : List Act → Nat
  | [] => 0
  | .tick :: acts => ticks acts + 1
  | _ :: acts => ticks acts

/-- Behind `n` ticks the receiver is where `link` has it, and what it has announced has been loaded
or waits. -/
structure Linked (e : UartEncoder) (devSize : BitVec 64) (n : Nat) (b : Bench) : Prop where
  free : Free b.dev.queues
  size : b.dev.queues.dev.devSize = devSize
  clk : b.dev.clk = decide (n % 2 = 1)
  link : link {} e ((n + 1) / 2) = .ok ⟨b.enc, b.dev.uartRx, b.loaded ++ b.dev.queues.dev.rx⟩

namespace Linked

variable {e : UartEncoder} {devSize : BitVec 64} {n : Nat} {b : Bench}

theorem init (e : UartEncoder) (devSize : BitVec 64) (intc : Bool) :
    Linked e devSize 0 (Bench.init e devSize intc) :=
  ⟨⟨rfl, rfl⟩, rfl, rfl, rfl⟩

/-- A falling edge announces nothing. -/
theorem tick_low (h : Linked e devSize n b) (hclk : b.dev.clk = true) :
    ∃ b', b.act .tick = some b' ∧ Linked e devSize (n + 1) b' := by
  have hodd : n % 2 = 1 := of_decide_eq_true (h.clk.symm.trans hclk)
  have hnone : ∀ level, (b.dev.eval level).announces = none := by
    intro level
    simp [announces, eval, hclk]
  have hkept : ∀ level, (b.dev.eval level).uartRx = b.dev.uartRx := by
    intro level
    simp [eval, hclk]
  refine ⟨{ b with dev := b.dev.ticked b.enc.currentLogicVal }, ?_, ?_⟩
  · simp only [Bench.act, hclk, if_true, Option.bind_eq_bind, Option.bind_some,
      tick_ok h.free b.enc.currentLogicVal]
  · constructor
    · exact ⟨h.free.tx, h.free.rx⟩
    · exact h.size
    · simp only [ticked, eval, hclk]
      have : (n + 1) % 2 ≠ 1 := by omega
      simp [this]
    · have hhalf : (n + 1 + 1) / 2 = (n + 1) / 2 := by omega
      rw [hhalf, h.link]
      simp only [ticked, collected, hnone, hkept, Option.toList_none, List.append_nil]
      rfl

/-- A rising edge queues what the receiver announces behind it. -/
theorem rising_queues (u : UartRTL {}) (hclk : u.clk = false) (level : Bool) :
    (u.ticked level).queues.dev.rx = u.queues.dev.rx ++
      if (u.uartRx.clock level).rxDone then [(u.uartRx.clock level).rxData] else [] := by
  have hannounces : (u.eval level).announces =
      if (u.uartRx.clock level).rxDone then some (u.uartRx.clock level).rxData else none := by
    simp [announces, eval, hclk]
  show u.queues.dev.rx ++ (u.eval level).announces.toList = _
  rw [hannounces]
  split <;> rfl

/-- A rising edge with the next level of the encoder. -/
theorem tick_high (hruns : ∀ t, ∃ s, UartRoundTrip.link {} e t = .ok s) (h : Linked e devSize n b)
    (hclk : b.dev.clk = false) : ∃ b', b.act .tick = some b' ∧ Linked e devSize (n + 1) b' := by
  have heven : n % 2 ≠ 1 := of_decide_eq_false (h.clk.symm.trans hclk)
  have hhalf : (n + 1 + 1) / 2 = (n + 1) / 2 + 1 := by omega
  obtain ⟨s, hs⟩ := hruns ((n + 1) / 2 + 1)
  rw [UartRoundTrip.link, h.link] at hs
  cases htick : b.enc.tick with
  | error f =>
    simp only [bind, Except.bind, htick] at hs
    cases hs
  | ok enc =>
    refine ⟨{ b with enc := enc, dev := b.dev.ticked enc.currentLogicVal }, ?_, ?_⟩
    · simp only [Bench.act, hclk, htick, Except.toOption, Bool.false_eq_true, if_false,
        Option.bind_eq_bind, Option.bind_some, tick_ok h.free enc.currentLogicVal]
    · constructor
      · exact ⟨h.free.tx, h.free.rx⟩
      · exact h.size
      · have hodd : (n + 1) % 2 = 1 := by omega
        simp [ticked, eval, hclk, hodd]
      · rw [hhalf, UartRoundTrip.link, h.link]
        simp only [bind, Except.bind, htick]
        rw [rising_queues b.dev hclk, ← List.append_assoc]
        simp only [ticked, eval, hclk]
        rfl

/-- What a load has returned and what it leaves are what was there. -/
theorem loaded_queue (u : Uartlite) {a : Addr} {len : Nat} (hin : InRange a len)
    (earlier : List (BitVec 8)) :
    (if accessed a len rxFifo && !u.rx.isEmpty then
        earlier ++ [(readBytes u.latch.regs a.toNat len).setWidth 8] else earlier) ++
      (loaded u a len).rx = earlier ++ u.rx := by
  cases hacc : accessed a len rxFifo with
  | false => simp [loaded, hacc]
  | true =>
    have hzero : a.toNat = rxFifo := by
      rw [(accessed_rxFifo hin).mp hacc]
      rfl
    cases hrx : u.rx with
    | nil => simp [loaded, hrx]
    | cons c rest =>
      have hfront : (readBytes u.latch.regs a.toNat len).setWidth 8 = c := by
        rw [setWidth_readBytes _ _ hin.1, hzero, latch_front hrx]
      simp [loaded, hacc, hrx, hfront]

/-- A store without a reset bit leaves the receive queue. -/
theorem written_queue (u : Uartlite) {a : Addr} {len : Nat} {x : BitVec (8 * len)}
    (hin : InRange a len) (hresets : ¬ Resets a len x) : (written u a len x).rx = u.rx := by
  unfold written
  dsimp only
  split
  · rw [reset_eq ?_ ‹_› hresets]
    intro off hoff hacc
    exact writeBytes_covered _ ((accessed_iff hin hoff).mp hacc)
  · rfl

theorem load (hsize : devSize ≠ 0) (h : Linked e devSize n b) {beginAddr : Addr} {len : Nat}
    (hin : InRange (beginAddr % devSize) len) :
    ∃ b', b.act (.load beginAddr len) = some b' ∧ Linked e devSize n b' := by
  rw [← h.size] at hsize hin
  simp only [Bench.act, load_ok h.free hsize hin]
  refine ⟨_, rfl, ⟨h.free.tx, h.free.rx⟩, (loaded_devSize _ _ _).trans h.size, h.clk, ?_⟩
  rw [h.link, ← loaded_queue b.dev.queues.dev hin b.loaded]
  rfl

theorem store (hsize : devSize ≠ 0) (h : Linked e devSize n b) {beginAddr : Addr} {len : Nat}
    {x : BitVec (8 * len)} (hin : InRange (beginAddr % devSize) len)
    (hresets : ¬ Resets (beginAddr % devSize) len x) :
    ∃ b', b.act (.store beginAddr len x) = some b' ∧ Linked e devSize n b' := by
  rw [← h.size] at hsize hin hresets
  simp only [Bench.act, store_ok h.free hsize hin]
  refine ⟨_, rfl, ⟨h.free.tx, h.free.rx⟩, (written_devSize _ _ _).trans h.size, h.clk, ?_⟩
  rw [h.link, ← written_queue b.dev.queues.dev hin hresets]
  rfl

/-- One call more. -/
theorem act (hruns : ∀ t, ∃ s, UartRoundTrip.link {} e t = .ok s) (hsize : devSize ≠ 0)
    (h : Linked e devSize n b) {a : Act} (ha : Proper devSize a) :
    ∃ b', b.act a = some b' ∧ Linked e devSize (n + ticks [a]) b' := by
  cases a with
  | tick =>
    cases hclk : b.dev.clk with
    | false => exact h.tick_high hruns hclk
    | true => exact h.tick_low hclk
  | load beginAddr len => exact h.load hsize ha
  | store beginAddr len x => exact h.store hsize ha.1 ha.2

theorem run (hruns : ∀ t, ∃ s, UartRoundTrip.link {} e t = .ok s) (hsize : devSize ≠ 0)
    {acts : List Act} (h : Linked e devSize n b) (hacts : ∀ a ∈ acts, Proper devSize a) :
    ∃ b', b.run acts = some b' ∧ Linked e devSize (n + ticks acts) b' := by
  induction acts generalizing n b with
  | nil => exact ⟨b, rfl, h⟩
  | cons a acts ih =>
    obtain ⟨b₁, hact, h₁⟩ := h.act hruns hsize (hacts a List.mem_cons_self)
    obtain ⟨b', hrun, h'⟩ := ih h₁ fun a' ha' => hacts a' (List.mem_cons_of_mem _ ha')
    have hticks : n + ticks (a :: acts) = n + ticks [a] + ticks acts := by
      cases a <;> simp [ticks, Nat.add_assoc, Nat.add_comm]
    refine ⟨b', ?_, hticks ▸ h'⟩
    simp only [Bench.run, List.foldlM_cons, hact, Option.bind_eq_bind, Option.bind_some]
    exact hrun

end Linked

/-! ## What guests have read -/

/-- The rising edges among the ticks. -/
def edges (acts : List Act) : Nat := (ticks acts + 1) / 2

section Default

variable {data : List (BitVec 8)} {rest : Nat → BitVec 8} {cur : BitVec 8}

/-- What the receiver has announced after `t` edges, a frame being 1144 of them. -/
theorem link_takes (hlen : 1144 * data.length < 2 ^ 64) (t : Nat) :
    ∃ s, UartRoundTrip.link {} (encoder data rest cur) t = .ok s ∧
      s.received = data.take ((t + 39) / 1144) := by
  have hbits : data.length * 8 < 2 ^ 64 := by omega
  have hsends : UartRoundTrip.Sends (encoder data rest cur) 8 data.length := by
    apply encoder_sends
    · exact fun j hj => (more_iff hbits (Nat.le_of_lt hj)).mpr hj
    · exact fun hmore => absurd ((more_iff hbits (Nat.le_refl _)).mp hmore) (Nat.lt_irrefl _)
  obtain ⟨enc, hlink, htakes⟩ := link_received (p := {}) encoder_runs hsends
    (encoder_spells hbits) rfl (by decide)
    (by change 104 * (11 * data.length) + 1 ≤ 2 ^ 64; omega) t
  have hpast : ∀ j, j ≤ (t + 39) / 1144 → UartReception.announced {} j ≤ t := by
    intro j hj
    cases j with
    | zero => exact Nat.zero_le t
    | succ j =>
      rw [announced_eq]
      omega
  refine ⟨_, hlink, ?_⟩
  rcases Nat.lt_or_ge ((t + 39) / 1144) data.length with hmore | hall
  · apply htakes _ (Nat.le_of_lt hmore) (hpast _ (Nat.le_refl _))
    intro _
    rw [announced_eq]
    omega
  · rw [List.take_of_length_le hall,
      htakes data.length (Nat.le_refl _) (hpast _ hall) fun h => absurd h (Nat.lt_irrefl _)]
    exact List.take_length

end Default

/-- However guests access the registers meanwhile, what they have read of the receive queue is the
start of `data`, in order, and what waits there is the rest of what has arrived: a byte each 1144
clocks. -/
theorem rtl_delivers (data : List (BitVec 8)) (rest : Nat → BitVec 8) (cur : BitVec 8)
    (devSize : BitVec 64) (intc : Bool) (acts : List Act) (hlen : 1144 * data.length < 2 ^ 64)
    (hsize : devSize ≠ 0) (hacts : ∀ a ∈ acts, Proper devSize a) :
    ∃ b : Bench, (Bench.init (encoder data rest cur) devSize intc).run acts = some b ∧
      b.loaded ++ b.dev.queues.dev.rx = data.take ((edges acts + 39) / 1144) := by
  have hruns : ∀ t, ∃ s, UartRoundTrip.link {} (encoder data rest cur) t = .ok s := fun t =>
    (link_takes hlen t).imp fun _ h => h.1
  obtain ⟨b, hrun, h⟩ := (Linked.init _ devSize intc).run hruns hsize hacts
  have hlink := h.link
  obtain ⟨s, hs, htakes⟩ := @link_takes data rest cur hlen (edges acts)
  rw [Nat.zero_add] at hlink
  obtain rfl := Except.ok.inj (hs.symm.trans hlink)
  exact ⟨b, hrun, htakes⟩

/-- A guest that loads the receive register behind the first frame. -/
def polling : List Act := List.replicate 2210 .tick ++ [.load 0 4]

theorem edges_polling : edges polling = 1105 := by
  have hticks : ∀ n, ticks (List.replicate n .tick ++ [.load 0 4]) = n := by
    intro n
    induction n with
    | zero => rfl
    | succ n ih =>
      rw [List.replicate_succ, List.cons_append]
      unfold ticks
      rw [ih]
  unfold edges polling
  rw [hticks]

theorem rtl_delivers_polling :
    ∃ b : Bench, (Bench.init (encoder [0x68, 0x69] (fun _ => 0) 0) 0x100000 true).run
        polling = some b ∧ b.loaded ++ b.dev.queues.dev.rx = [0x68] := by
  have hproper : ∀ a ∈ polling, Proper 0x100000 a := by
    intro a ha
    rcases List.mem_append.mp ha with htick | hload
    · rw [List.eq_of_mem_replicate htick]
      trivial
    · rw [List.mem_singleton.mp hload]
      exact (by decide : InRange ((0 : Addr) % 0x100000) 4)
  obtain ⟨b, hrun, htaken⟩ := rtl_delivers [0x68, 0x69] (fun _ => 0) 0 0x100000 true polling
    (by decide) (by decide) hproper
  refine ⟨b, hrun, ?_⟩
  rw [htaken, edges_polling]
  rfl

end UartRTL

end NextEmu.Device
