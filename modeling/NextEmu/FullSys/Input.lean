import NextEmu.Device.PLICArbitration
import NextEmu.Device.PLICClaims
import NextEmu.FullSys.Console
import NextEmu.FullSys.Interrupts

/-!
# The interrupt of the UART

In each turn the UART tells the PLIC whether it asks for its interrupt: a received byte waits, or
all bytes have been sent and no register was loaded since. What it has told stays pending until the
guest completes it, and the PLIC has no other source. A core that waits for the external interrupt
is thus in its handler as soon as the PLIC lets the source through, with the number of the source
to be claimed, and is never interrupted before the UART has asked.
-/

namespace NextEmu.FullSys

open NextEmu.Sdk NextEmu.Device NextEmu.Simple NextEmu.Simple.BusCalls
open PLIC PLICArbitration PLICClaims

/-- The UART asks for its interrupt when it is ticked next. -/
def UartPort.asks (u : UartPort) : Bool := (u.arrive.map (·.state.dev.hasIRQ)).getD false

/-- It does so in the turn from here. -/
def asks (s : Machine (AddrBus Dev)) : Bool := ((uartOf s).map UartPort.asks).getD false

/-- A store to a claim/complete register. -/
def completes : DevCall → Bool
  | .store addr len _ =>
    let startAddr := addr % 0x4000000
    0x200000 < (startAddr + BitVec.ofNat 64 len).toNat && startAddr.toNat % 0x1000 = 4
  | .load _ _ => false

/-- Context 0 has the source of the UART enabled, at a priority that its threshold lets through,
and has not claimed it. -/
structure Heard (p : PLIC 4 4) : Prop where
  enabled : bitOf (p.enable.get 0) 1 = true
  unclaimed : bitOf p.claimed 1 = false
  threshold : (p.threshold.get 0).toNat ≤ rank p 1
  priority : 0 < rank p 1

/-! ## The controller -/

section Controller

variable {p q : PLIC 4 4} {addr size : BitVec 64} {v : BitVec 32}

/-- What a load leaves alone. -/
theorem load_keeps (p : PLIC 4 4) (addr size : BitVec 64) :
    Returns (fun r => r.2.claim = p.claim ∧ r.2.pending = p.pending) (p.load addr size) := by
  have hsame : ∀ {a : Feedback × Option (BitVec 32)},
      Returns (fun r => r.2.claim = p.claim ∧ r.2.pending = p.pending) (.ok (a, p)) :=
    returns_ok ⟨rfl, rfl⟩
  unfold PLIC.load
  dsimp only
  refine returns_ite (fun _ => returns_error _) fun _ => ?_
  refine returns_ite (fun _ => ?_) fun _ => ?_
  · refine returns_ite (fun _ => hsame) fun _ => ?_
    refine returns_ite (fun _ => hsame) fun _ => ?_
    exact returns_bind fun v => hsame
  refine returns_ite (fun _ => ?_) fun _ => ?_
  · refine returns_ite (fun _ => hsame) fun _ => ?_
    exact returns_bind fun v => hsame
  refine returns_ite (fun _ => hsame) fun _ => ?_
  refine returns_ite (fun _ => ?_) fun _ => ?_
  · refine returns_ite (fun _ => hsame) fun _ => ?_
    refine returns_ite (fun _ => hsame) fun _ => ?_
    exact returns_bind fun row => returns_bind fun v => hsame
  refine returns_ite (fun _ => hsame) fun _ => ?_
  refine returns_ite (fun _ => returns_bind fun v => hsame) fun _ => ?_
  refine returns_ite (fun _ => ?_) fun _ => hsame
  exact returns_bind fun v => returns_bind fun w => returns_bind fun claimed =>
    returns_ok ⟨rfl, rfl⟩

/-- A store clears pending bits at most, and only with a claim/complete register. -/
structure Clears (addr size : BitVec 64) (p q : PLIC 4 4) : Prop where
  claim : q.claim = p.claim
  fewer : ∀ i : BitVec 32, bitOf q.pending i.toNat = true → bitOf p.pending i.toNat = true
  kept : ¬ (0x200000 < (addr % 0x4000000 + size).toNat ∧ (addr % 0x4000000).toNat % 0x1000 = 4) →
    q.pending = p.pending

theorem clears_same (hclaim : q.claim = p.claim) (hpending : q.pending = p.pending) :
    Clears addr size p q :=
  ⟨hclaim, fun _ hi => hpending ▸ hi, fun _ => hpending⟩

theorem store_clears (p : PLIC 4 4) (addr size : BitVec 64) (v : BitVec 32) :
    Returns (fun r => Clears addr size p r.2) (p.store addr size v) := by
  unfold PLIC.store
  dsimp only
  refine returns_ite (fun _ => ?_) fun _ => ?_
  · refine returns_ite (fun _ => returns_ok (clears_same rfl rfl)) fun _ => ?_
    refine returns_ite (fun _ => returns_ok (clears_same rfl rfl)) fun _ => ?_
    exact returns_bind fun priority => returns_ok (clears_same rfl rfl)
  refine returns_ite (fun _ => returns_ok (clears_same rfl rfl)) fun _ => ?_
  refine returns_ite (fun _ => returns_ok (clears_same rfl rfl)) fun _ => ?_
  refine returns_ite (fun _ => ?_) fun hstop => ?_
  · refine returns_ite (fun _ => returns_ok (clears_same rfl rfl)) fun _ => ?_
    refine returns_ite (fun _ => returns_ok (clears_same rfl rfl)) fun _ => ?_
    exact returns_bind fun row => returns_bind fun row' => returns_bind fun enable =>
      returns_ok (clears_same rfl rfl)
  refine returns_ite (fun _ => returns_ok (clears_same rfl rfl)) fun _ => ?_
  refine returns_ite (fun _ => ?_) fun _ => ?_
  · exact returns_bind fun threshold => returns_ok (clears_same rfl rfl)
  refine returns_ite (fun hoff => ?_) fun _ => returns_ok (clears_same rfl rfl)
  -- the claim/complete register
  intro r hr
  obtain ⟨w, -, hr⟩ := except_bind_ok hr
  obtain ⟨claimed, -, hr⟩ := except_bind_ok hr
  obtain ⟨u, hu, hr⟩ := except_bind_ok hr
  obtain ⟨pending, hpending, hr⟩ := except_bind_ok hr
  cases hr
  obtain ⟨hn, rfl⟩ := readAt_ok hu
  obtain ⟨-, rfl⟩ := writeAt_ok hpending
  refine ⟨rfl, fun i hi => ?_, fun hnot => absurd ⟨Nat.lt_of_not_le hstop, hoff⟩ hnot⟩
  rw [bitOf_unmark p.pending hn i, Bool.and_eq_true] at hi
  exact hi.2

/-- What `setInt` does for the source of the UART. -/
theorem setInt_uart {fired : Bool} (h : p.setInt 1 fired = .ok q) (i : BitVec 32) :
    q.claim = p.claim ∧
      bitOf q.pending i.toNat = (fired && i == 1 || bitOf p.pending i.toNat) := by
  unfold PLIC.setInt at h
  cases fired with
  | false =>
    cases h
    exact ⟨rfl, rfl⟩
  | true =>
    rw [if_pos rfl] at h
    obtain ⟨w, hw, h⟩ := except_bind_ok h
    obtain ⟨pending, hpending, h⟩ := except_bind_ok h
    cases h
    obtain ⟨hn, rfl⟩ := readAt_ok hw
    obtain ⟨-, rfl⟩ := writeAt_ok hpending
    exact ⟨rfl, bitOf_mark p.pending hn i⟩

end Controller

/-! ## The calls of a step -/

section Calls

variable {p p' q : PlicPort} {u u' : UartPort} {dest : Route → Option Addr}

/-- What calls by the bus do to the PLIC. -/
structure Follows (p q : PlicPort) (ds : List DevCall) : Prop where
  log : q.log = p.log ++ ds
  claim : q.plic.claim = p.plic.claim
  fewer : ∀ i : BitVec 32, bitOf q.plic.pending i.toNat = true →
    bitOf p.plic.pending i.toNat = true
  kept : (∀ d ∈ ds, completes d = false) → q.plic.pending = p.plic.pending

theorem Follows.trans {ds ds' : List DevCall} (h : Follows p q ds) (h' : Follows q p' ds') :
    Follows p p' (ds ++ ds') where
  log := by rw [h'.log, h.log, List.append_assoc]
  claim := h'.claim.trans h.claim
  fewer i hi := h.fewer i (h'.fewer i hi)
  kept hnone := (h'.kept fun d hd => hnone d (List.mem_append_right _ hd)).trans
    (h.kept fun d hd => hnone d (List.mem_append_left _ hd))

theorem plic_after (p : PlicPort) (d : DevCall) : (Dev.plic p).after d = .halted ∨
    ∃ q, (Dev.plic p).after d = .plic q ∧ Follows p q [d] := by
  cases d with
  | load addr len =>
    simp only [Dev.after, Dev.load]
    cases hload : p.plic.load addr (BitVec.ofNat 64 len) with
    | error e => exact .inl rfl
    | ok r =>
      obtain ⟨hclaim, hpending⟩ := load_keeps p.plic addr _ r hload
      exact .inr ⟨_, rfl, rfl, hclaim, fun _ hi => hpending ▸ hi, fun _ => hpending⟩
  | store addr len data =>
    simp only [Dev.after, Dev.store]
    cases hstore : p.plic.store addr (BitVec.ofNat 64 len)
        (Dev.wordAt len data (p.unwritten.headD 0)) with
    | error e => exact .inl rfl
    | ok r =>
      have hclears := store_clears p.plic addr _ _ r hstore
      refine .inr ⟨_, rfl, rfl, hclears.claim, hclears.fewer, fun hnone => ?_⟩
      apply hclears.kept
      simpa [completes] using hnone

theorem plic_follows {cs : List BusCall} (h : (Dev.plic p).behind dest cs = .plic q) :
    ∃ ds, Follows p q ds := by
  have hkeeps : (Dev.plic p).behind dest cs = .halted ∨
      ∃ q, (Dev.plic p).behind dest cs = .plic q ∧ ∃ ds, Follows p q ds := by
    apply behind_keeps (P := fun d => d = .halted ∨ ∃ q, d = .plic q ∧ ∃ ds, Follows p q ds)
    · rintro d call (rfl | ⟨q, rfl, ds, hds⟩)
      · cases call <;> exact .inl rfl
      · rcases plic_after q call with hhalt | ⟨q', hq', hcall⟩
        · exact .inl hhalt
        · exact .inr ⟨q', hq', _, hds.trans hcall⟩
    · exact .inr ⟨p, rfl, [], (List.append_nil _).symm, rfl, fun _ hi => hi, fun _ => rfl⟩
  rw [h] at hkeeps
  obtain ⟨q', hq', hds⟩ := hkeeps.resolve_left nofun
  cases hq'
  exact hds

theorem uart_logged {cs : List BusCall} (hlogged : Logged u)
    (h : (Dev.uart u).behind dest cs = .uart u') : Logged u' := by
  have hkeeps : (Dev.uart u).behind dest cs = .halted ∨
      ∃ v, (Dev.uart u).behind dest cs = .uart v ∧ Logged v := by
    apply behind_keeps (P := fun d => d = .halted ∨ ∃ v, d = .uart v ∧ Logged v)
    · rintro d call (rfl | ⟨v, rfl, hv⟩)
      · cases call <;> exact .inl rfl
      · rcases uart_after hv call with hhalt | ⟨v', hv', hl, -⟩
        · exact .inl hhalt
        · exact .inr ⟨v', hv', hl⟩
    · exact .inr ⟨u, rfl, hlogged⟩
  rw [h] at hkeeps
  obtain ⟨v, hv, hl⟩ := hkeeps.resolve_left nofun
  cases hv
  exact hl

/-- A tick of the UART answers whether it asks. -/
theorem tick_asks (h : Logged u) (hcall : u.call .tick UartliteCalls.tick = some ((), u')) :
    Logged u' ∧ u'.state.irqs.getLastD false = u.asks := by
  obtain ⟨hlogged, -, hlog⟩ := call_logged does_tick h hcall
  refine ⟨hlogged, ?_⟩
  have harrive : u.asks =
      (((u.coming.headD []).map Uartlite.Call.readInput).foldl UartliteCalls.after
        u.state).dev.hasIRQ := by
    unfold UartPort.asks UartPort.arrive
    rw [readInputs_ok _ h.free]
    rfl
  have hintc := (foldl_after ((u.coming.headD []).map .readInput) h.free h.size).2.2
  rw [h.intc] at hintc
  have hirqs := congrArg (·.irqs) hlogged.state
  rw [hlog, List.foldl_append, List.foldl_append, ← h.state] at hirqs
  dsimp only [List.foldl_cons, List.foldl_nil, UartliteCalls.after, UartliteCalls.ticked] at hirqs
  rw [hintc, if_pos rfl] at hirqs
  rw [hirqs, harrive, List.getLastD_concat]

end Calls

/-! ## The runs -/

section Runs

variable {s t : Machine (AddrBus Dev)} {p : PlicPort} {u : UartPort} {n : Nat}

/-- The devices are wired, and the UART is the one of its log. -/
structure Listening (s : Machine (AddrBus Dev)) (p : PlicPort) (u : UartPort) : Prop where
  wired : ∃ c, Wired s.bus (.clint c) (.plic p) (.uart u)
  logged : Logged u

theorem Listening.plicOf (h : Listening s p u) : plicOf s = some p := by
  obtain ⟨c, hwired⟩ := h.wired
  exact hwired.plicOf

theorem Listening.asks (h : Listening s p u) : asks s = u.asks := by
  obtain ⟨c, hwired⟩ := h.wired
  unfold FullSys.asks
  rw [hwired.uartOf]
  rfl

/-- What a turn from `s` makes of the PLIC. -/
structure PlicTurn (s : Machine (AddrBus Dev)) (p q : PlicPort) (ds : List DevCall) : Prop where
  log : q.log = p.log ++ ds
  claim : q.plic.claim = p.plic.tick.claim
  fewer : ∀ i : BitVec 32, bitOf q.plic.pending i.toNat = true →
    i = 1 ∧ asks s = true ∨ bitOf p.plic.pending i.toNat = true
  kept : (∀ d ∈ ds, completes d = false) →
    bitOf q.plic.pending 1 = (asks s || bitOf p.plic.pending 1)

theorem turn_plic (h : Listening s p u) (ht : turn s = some t) :
    ∃ q u' ds, Listening t q u' ∧ PlicTurn s p q ds := by
  obtain ⟨c, hwired⟩ := h.wired
  obtain ⟨m, hm, hstep, hrunning⟩ := turn_some ht
  obtain ⟨u₁, plic', hcall, hset, hwired', -, -⟩ := ticks_eq hwired hm
  obtain ⟨hlogged, hasks⟩ := tick_asks h.logged hcall
  rw [hasks, ← h.asks] at hset
  obtain ⟨cs, c', q, u', -, -, hq, hu', hwired''⟩ := step_devices hwired' hstep hrunning
  obtain ⟨ds, hds⟩ := plic_follows hq
  have hpending : ∀ i : BitVec 32, bitOf plic'.pending i.toNat =
      (asks s && i == 1 || bitOf p.plic.pending i.toNat) := by
    intro i
    rw [(setInt_uart hset i).2, tick_pending]
  refine ⟨q, u', ds, ⟨⟨c', hwired''⟩, uart_logged hlogged hu'⟩, hds.log, ?_, ?_, ?_⟩
  · rw [hds.claim]
    exact (setInt_uart hset 0).1
  · intro i hi
    have hbit := hds.fewer i hi
    dsimp only at hbit
    rw [hpending i, Bool.or_eq_true, Bool.and_eq_true, beq_iff_eq] at hbit
    exact hbit.imp_left fun hfired => ⟨hfired.2, hfired.1⟩
  · intro hnone
    have hone := hpending 1
    rw [hds.kept hnone]
    simpa using hone

variable {core : RV64Core} {mem : Nat → BitVec 8} {coming : List (List (BitVec 8))}
  {unwritten : List (BitVec 32)}

/-- The UART has asked before turn `n` of the run. -/
def AskedBefore (start : Machine (AddrBus Dev)) (n : Nat) : Prop :=
  ∃ m s, m < n ∧ turns m start = some s ∧ asks s = true

/-- In a run only the source of the UART is ever pending, and only when the UART has asked. -/
theorem turns_pending (h : turns n (powerOn core mem coming unwritten) = some s) :
    ∃ p u, Listening s p u ∧ ∀ i : BitVec 32, bitOf p.plic.pending i.toNat = true →
      i = 1 ∧ AskedBefore (powerOn core mem coming unwritten) n := by
  induction n generalizing s with
  | zero =>
    cases h
    refine ⟨_, _, ⟨⟨_, rfl, rfl, rfl, rfl⟩, ⟨rfl, rfl⟩, rfl, rfl, by simp, rfl⟩, fun i hi => ?_⟩
    have hzero : bitOf (PLIC.init 4 4).pending i.toNat = false := by
      unfold bitOf PLIC.init
      rw [Vector.getElem?_replicate]
      split <;> simp
    rw [hzero] at hi
    cases hi
  | succ n ih =>
    obtain ⟨m, hm, hturn⟩ := Option.bind_eq_some_iff.mp h
    obtain ⟨p, u, hlistening, honly⟩ := ih hm
    obtain ⟨q, u', ds, hlistening', hplic⟩ := turn_plic hlistening hturn
    refine ⟨q, u', hlistening', fun i hi => ?_⟩
    rcases hplic.fewer i hi with ⟨hone, hasks⟩ | hbefore
    · exact ⟨hone, n, m, Nat.lt_succ_self n, hm, hasks⟩
    · obtain ⟨hone, k, v, hk, hv, hasks⟩ := honly i hbefore
      exact ⟨hone, k, v, Nat.lt_succ_of_lt hk, hv, hasks⟩

/-- What is pending stays so through turns without a completion. -/
theorem turns_keep (h : Listening s p u) (ht : turns n s = some t) :
    ∃ q u' ds, Listening t q u' ∧ q.log = p.log ++ ds ∧
      ((∀ d ∈ ds, completes d = false) → bitOf p.plic.pending 1 = true →
        bitOf q.plic.pending 1 = true) := by
  induction n generalizing t with
  | zero =>
    cases ht
    exact ⟨p, u, [], h, (List.append_nil _).symm, fun _ hbit => hbit⟩
  | succ n ih =>
    obtain ⟨m, hm, hturn⟩ := Option.bind_eq_some_iff.mp ht
    obtain ⟨q, u', ds, hlistening, hlog, hkeep⟩ := ih hm
    obtain ⟨r, v, ds', hlistening', hplic⟩ := turn_plic hlistening hturn
    refine ⟨r, v, ds ++ ds', hlistening', ?_, fun hnone hbit => ?_⟩
    · rw [hplic.log, hlog, List.append_assoc]
    · rw [hplic.kept fun d hd => hnone d (List.mem_append_right _ hd),
        hkeep (fun d hd => hnone d (List.mem_append_left _ hd)) hbit, Bool.or_true]

theorem turns_add {k : Nat} : turns (n + k) s = (turns n s).bind (turns k) := by
  induction k with
  | zero => simp [turns]
  | succ k ih =>
    rw [← Nat.add_assoc, turns, ih, Option.bind_assoc]
    rfl

/-- The UART has asked before turn `n` of the run, and the guest has completed nothing since. -/
def Outstanding (start : Machine (AddrBus Dev)) (n : Nat) (p : PlicPort) : Prop :=
  ∃ m s q, m < n ∧ turns m start = some s ∧ asks s = true ∧ plicOf s = some q ∧
    ∀ d ∈ p.log.drop q.log.length, completes d = false

/-- What is outstanding is pending. -/
theorem outstanding_pending (hrun : turns n (powerOn core mem coming unwritten) = some s)
    (hp : plicOf s = some p) (h : Outstanding (powerOn core mem coming unwritten) n p) :
    bitOf p.plic.pending 1 = true := by
  obtain ⟨m, a, q, hlt, ha, hasks, hq, hnone⟩ := h
  obtain ⟨q', u, hlistening, -⟩ := turns_pending ha
  have hqq := Option.some.inj (hq.symm.trans hlistening.plicOf)
  subst hqq
  -- the turn in which it asks, and those behind
  obtain ⟨k, rfl⟩ := Nat.exists_eq_add_of_lt hlt
  have hrest : turns (m + (1 + k)) (powerOn core mem coming unwritten) = some s := by
    rw [← Nat.add_assoc, Nat.add_right_comm]
    exact hrun
  rw [turns_add, ha, Option.bind_some, turns_add] at hrest
  obtain ⟨b, hb, hrest⟩ := Option.bind_eq_some_iff.mp hrest
  have hturn : turn a = some b := hb
  obtain ⟨r, u', ds, hlistening', hplic⟩ := turn_plic hlistening hturn
  obtain ⟨r', u'', ds', hlistening'', hlog, hkeep⟩ := turns_keep hlistening' hrest
  have hpp := Option.some.inj (hp.symm.trans hlistening''.plicOf)
  subst hpp
  rw [hlog, hplic.log, List.append_assoc, List.drop_left] at hnone
  apply hkeep fun d hd => hnone d (List.mem_append_right _ hd)
  rw [hplic.kept fun d hd => hnone d (List.mem_append_left _ hd), hasks, Bool.true_or]

/-- With nothing else pending, the line of context 0 is that of the source of the UART. -/
theorem passes_iff {c : PLIC 4 4}
    (honly : ∀ i : BitVec 32, bitOf c.pending i.toNat = true → i = 1) :
    (∃ j, Passes c 0 j) ↔ bitOf c.pending 1 = true ∧ Heard c := by
  constructor
  · rintro ⟨j, hwait, hthreshold, hpriority⟩
    have hle := hwait.le
    have hval : (BitVec.ofNat 32 j).toNat = j := by
      rw [BitVec.toNat_ofNat]
      omega
    have hone : j = 1 := by
      rw [← hval, honly (BitVec.ofNat 32 j) (by rw [hval]; exact hwait.pending)]
      rfl
    subst hone
    exact ⟨hwait.pending, hwait.enabled, hwait.unclaimed, hthreshold, hpriority⟩
  · rintro ⟨hbit, h⟩
    exact ⟨1, ⟨Nat.le_refl 1, by decide, hbit, h.enabled, h.unclaimed⟩, h.threshold, h.priority⟩

/-- In every run of the system, in a turn of a core that waits for the external interrupt: when
the UART has asked and the guest has completed nothing since, the core is in its handler behind
the turn and finds the source of the UART to be claimed, provided that the PLIC is set up to let
it through. It is interrupted in no turn in which the PLIC is not, or before the UART has asked. -/
theorem input_interrupts (hrun : turns n (powerOn core mem coming unwritten) = some s)
    (hturn : turn s = some t) (hp : plicOf s = some p) (hawaits : Awaits s.core .mExt) :
    (Outstanding (powerOn core mem coming unwritten) n p → Heard p.plic →
      Entered s.core t.core .mExt ∧ ∃ q, plicOf t = some q ∧ q.plic.claim.get 0 = 1) ∧
    (¬ (AskedBefore (powerOn core mem coming unwritten) n ∧ Heard p.plic) → Undisturbed s) := by
  obtain ⟨p', u, hlistening, honly⟩ := turns_pending hrun
  have hpp := Option.some.inj (hp.symm.trans hlistening.plicOf)
  subst hpp
  obtain ⟨c, hwired⟩ := hlistening.wired
  have hpasses := passes_iff fun i hi => (honly i hi).1
  have hline : driven (lines c.clint.tick p.plic.tick) .mExt =
      some (p.plic.tick.intContexts.get 0) := rfl
  have hup := tick_line p.plic 0 (by decide)
  have hdecided := turn_awaits hwired hawaits hline hturn
  constructor
  · intro hout hheard
    have hpass := hpasses.mpr ⟨outstanding_pending hrun hp hout, hheard⟩
    rw [hup.mpr hpass, if_pos rfl] at hdecided
    obtain ⟨q, u', ds, hlistening', hplic⟩ := turn_plic hlistening hturn
    refine ⟨hdecided, q, hlistening'.plicOf, ?_⟩
    obtain ⟨j, hj⟩ := hpass
    obtain ⟨j', hj', hclaim⟩ := tick_claim p.plic 0 (by decide) hj
    rw [hplic.claim, hclaim]
    have hle := hj'.1.le
    have hval : (BitVec.ofNat 32 j').toNat = j' := by
      rw [BitVec.toNat_ofNat]
      omega
    exact (honly _ (by rw [hval]; exact hj'.1.pending)).1
  · intro hnot
    have hdown : p.plic.tick.intContexts.get 0 = false := by
      apply Bool.eq_false_iff.mpr
      intro htrue
      obtain ⟨hbit, hheard⟩ := hpasses.mp (hup.mp htrue)
      exact hnot ⟨(honly 1 hbit).2, hheard⟩
    rw [hdown, if_neg Bool.false_ne_true] at hdecided
    exact hdecided

end Runs

/-- A program that waits for the input: `lui x5, 0xc000`, `addi x6, x0, 1`, `sw x6, 4(x5)`,
`addi x6, x0, 2`, `lui x7, 0xc002`, `sw x6, 0(x7)`, `lui x8, 1`, `addi x8, x8, -0x800`,
`csrrw x0, mie, x8`, `csrrsi x0, mstatus, 8` and `jal x0, 0`. -/
def listening : Nat → BitVec 8 :=
  writeBytes (fun _ => 0) 0 44
    0x6f300460733044107380040413000014370063a0230c0023b7002003130062a223001003130c0002b7

theorem input_interrupts_letter : ∃ s t,
    turns 10 (powerOn default listening [[0x41]] []) = some s ∧ turn s = some t ∧
      Entered s.core t.core .mExt := by
  have hrun : (turns 11 (powerOn default listening [[0x41]] [])).isSome = true := by
    decide +kernel
  obtain ⟨t, ht⟩ := Option.isSome_iff_exists.mp hrun
  obtain ⟨s, hs, hturn⟩ := Option.bind_eq_some_iff.mp ht
  have hcore : (turns 10 (powerOn default listening [[0x41]] [])).map (fun s =>
      (s.core.csrIntEnable, s.core.csrMIntDelegation, s.core.nextPrivMode,
        s.core.status.getLsbD MStatus.mie)) = some (0x800, 0, .mMode, true) := by
    decide +kernel
  have hplic : ((turns 10 (powerOn default listening [[0x41]] [])).bind plicOf).map (fun p =>
      (p.log.all (!completes ·), bitOf (p.plic.enable.get 0) 1, bitOf p.plic.claimed 1,
        p.plic.threshold.get 0, rank p.plic 1)) = some (true, true, false, 0, 1) := by
    decide +kernel
  have hasks : asks (powerOn default listening [[0x41]] []) = true := by decide +kernel
  rw [hs] at hcore hplic
  simp only [Option.map_some, Option.some.injEq, Prod.mk.injEq] at hcore
  obtain ⟨henable, hdeleg, hmode, hmie⟩ := hcore
  obtain ⟨p, hp, hobs⟩ := Option.map_eq_some_iff.mp hplic
  simp only [Prod.mk.injEq] at hobs
  obtain ⟨hnone, henabled, hclaimed, hthreshold, hrank⟩ := hobs
  have hawaits : Awaits s.core .mExt :=
    ⟨henable, by simp [hdeleg], .inr (.inr ⟨hmode, hmie⟩)⟩
  have hheard : Heard p.plic := ⟨henabled, hclaimed, by simp [hthreshold], by simp [hrank]⟩
  have hout : Outstanding (powerOn default listening [[0x41]] []) 10 p := by
    refine ⟨0, _, _, by decide, rfl, hasks, rfl, fun d hd => ?_⟩
    have hall := List.all_eq_true.mp hnone d (List.mem_of_mem_drop hd)
    simpa using hall
  exact ⟨s, t, hs, hturn, ((input_interrupts hs hturn hp hawaits).1 hout hheard).1⟩

end NextEmu.FullSys
