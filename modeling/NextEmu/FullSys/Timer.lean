import NextEmu.FullSys.Interrupts

/-!
# The timer of the full system

Every turn ticks the CLINT once, so its time is the number of the turn, until the guest sets it.
The line that it drives is sampled by the step of the same turn: a guest that waits for the timer
alone is interrupted in the first turn in which the time has passed the compare register, and in
none before.
-/

namespace NextEmu.FullSys

open NextEmu.Sdk NextEmu.Device NextEmu.Simple NextEmu.Simple.BusCalls
open NextEmu.Lib.BitField

/-- A store that the CLINT takes for one to the time register. -/
def setsTime : CLInt.Op → Bool
  | .store addr len _ =>
    let startAddr := addr % 0x10000
    0xbff8 ≤ startAddr.toNat && (startAddr + BitVec.ofNat 64 len).toNat ≤ 0xc000
  | _ => false

def isTick : CLInt.Op → Bool
  | .tick => true
  | _ => false

/-! ## The time -/

section Time

variable {c : ClintPort} {n : Nat}

theorem doWrite_time {c c' : CLInt 2} {addr : Addr} {len : Nat} {data : BitVec (8 * len)}
    {ok : Bool} (hnot : ¬ (addr.toNat ≥ 0xbff8 ∧ (addr + BitVec.ofNat 64 len).toNat ≤ 0xc000))
    (h : c.doWrite addr len data = .ok (ok, c')) : c'.mtime = c.mtime := by
  unfold CLInt.doWrite at h
  dsimp only at h
  rw [if_neg hnot] at h
  -- a copy to another array, or nothing
  split at h
  · split at h
    · cases hcopy : CLInt.copyTo (w := 8) c.mtimecmp (addr.toNat - 0x4000) len data <;>
        rw [hcopy] at h <;> cases h
      rfl
    · cases h
      rfl
  · split at h
    · cases hcopy : CLInt.copyTo (w := 4) c.msip addr.toNat len data <;>
        rw [hcopy] at h <;> cases h
      rfl
    · cases h
      rfl

theorem store_time {c : CLInt 2} {addr : Addr} {len : Nat} {data : BitVec (8 * len)}
    {r : Feedback × CLInt 2} (h : c.store addr len data = .ok r)
    (hbefore : setsTime (.store addr len data) = false) : r.2.mtime = c.mtime := by
  have hnot : ¬ ((addr % 0x10000).toNat ≥ 0xbff8 ∧
      (addr % 0x10000 + BitVec.ofNat 64 len).toNat ≤ 0xc000) := by
    rintro ⟨hlow, hhigh⟩
    have hsets : setsTime (.store addr len data) = true :=
      Bool.and_eq_true_iff.mpr ⟨decide_eq_true hlow, decide_eq_true hhigh⟩
    rw [hsets] at hbefore
    cases hbefore
  unfold CLInt.store at h
  cases hwrite : c.doWrite (addr % 0x10000) len data with
  | error e =>
    rw [hwrite] at h
    cases h
  | ok w =>
    rw [hwrite] at h
    cases h
    exact doWrite_time hnot hwrite

/-- The CLINT after `n` ticks. -/
structure Timed (c : ClintPort) (n : Nat) : Prop where
  ticks : c.log.countP isTick = n
  time : (∀ op ∈ c.log, setsTime op = false) → c.clint.mtime = BitVec.ofNat 64 n

theorem Timed.append (h : Timed c n) {op : CLInt.Op} {clint : CLInt 2} (hop : isTick op = false)
    (htime : setsTime op = false → clint.mtime = c.clint.mtime) :
    Timed { clint := clint, log := c.log ++ [op] } n where
  ticks := by
    rw [List.countP_append, h.ticks]
    simp [hop]
  time hall := by
    have hbefore : ∀ op ∈ c.log, setsTime op = false := fun op hop =>
      hall op (List.mem_append_left _ hop)
    have hlast : setsTime op = false := hall op (by simp)
    exact (htime hlast).trans (h.time hbefore)

/-- The calls of the bus are no ticks. -/
theorem timed_behind (h : Timed c n) (dest : Route → Option Addr) (cs : List BusCall)
    {c' : ClintPort} (hc : (Dev.clint c).behind dest cs = .clint c') : Timed c' n := by
  have hkeeps : (Dev.clint c).behind dest cs = .halted ∨
      ∃ c', (Dev.clint c).behind dest cs = .clint c' ∧ Timed c' n := by
    apply behind_keeps (P := fun d => d = .halted ∨ ∃ c, d = .clint c ∧ Timed c n)
    · rintro d call (rfl | ⟨c, rfl, hc⟩)
      · cases call <;> exact .inl rfl
      cases call with
      | load addr len =>
        simp only [Dev.after, Dev.load]
        split
        · exact .inr ⟨_, rfl, hc.append rfl fun _ => rfl⟩
        · exact .inl rfl
      | store addr len data =>
        simp only [Dev.after, Dev.store]
        split
        · rename_i r hstore
          exact .inr ⟨_, rfl, hc.append rfl (store_time hstore)⟩
        · exact .inl rfl
    · exact .inr ⟨c, rfl, h⟩
  rcases hkeeps with hhalt | ⟨c'', hc'', htimed⟩
  · rw [hhalt] at hc
    cases hc
  · rw [hc''] at hc
    cases hc
    exact htimed

theorem timed_ticked (h : Timed c n) : Timed c.ticked (n + 1) where
  ticks := by
    unfold ClintPort.ticked
    rw [List.countP_append, h.ticks]
    rfl
  time hall := by
    have hbefore : ∀ op ∈ c.log, setsTime op = false := fun op hop =>
      hall op (List.mem_append_left _ hop)
    obtain ⟨contexts, htick⟩ := CLInt.tick_eq c.clint
    show c.clint.tick.mtime = _
    rw [htick, BitVec.ofNat_add, ← h.time hbefore]
    rfl

end Time

/-! ## The runs -/

section Runs

variable {s t : Machine (AddrBus Dev)} {c : ClintPort} {n : Nat}

/-- The devices are wired, and the CLINT has ticked `n` times. -/
structure Ticking (s : Machine (AddrBus Dev)) (c : ClintPort) (n : Nat) : Prop where
  wired : ∃ p u, Wired s.bus (.clint c) (.plic p) (.uart u)
  timed : Timed c n

theorem turn_ticks (h : Ticking s c n) (ht : turn s = some t) : ∃ c', Ticking t c' (n + 1) := by
  obtain ⟨p, u, hwired⟩ := h.wired
  obtain ⟨m, hm, hstep, hrunning⟩ := turn_some ht
  obtain ⟨u₁, plic', hcall, -, hwired', -, -⟩ := ticks_eq hwired hm
  obtain ⟨cs, c', p', u', -, hc', -, -, hwired''⟩ := step_devices hwired' hstep hrunning
  exact ⟨c', ⟨p', u', hwired''⟩, timed_behind (timed_ticked h.timed) _ cs hc'⟩

theorem turns_tick {core : RV64Core} {mem : Nat → BitVec 8} {coming : List (List (BitVec 8))}
    {unwritten : List (BitVec 32)} (h : turns n (powerOn core mem coming unwritten) = some s) :
    ∃ c, Ticking s c n := by
  induction n generalizing s with
  | zero =>
    cases h
    exact ⟨_, ⟨_, _, rfl, rfl, rfl, rfl⟩, rfl, fun _ => rfl⟩
  | succ n ih =>
    obtain ⟨m, hm, hturn⟩ := Option.bind_eq_some_iff.mp h
    obtain ⟨c, hc⟩ := ih hm
    exact turn_ticks hc hturn

/-- In every run of the system whose guest has left the time alone, a core that waits for the
timer is in its handler behind the turn when the compare register of the hart is below the number
of turns before, and in every other turn takes no interrupt. -/
theorem timer_on_time {core : RV64Core} {mem : Nat → BitVec 8} {coming : List (List (BitVec 8))}
    {unwritten : List (BitVec 32)} (hrun : turns n (powerOn core mem coming unwritten) = some s)
    (hturn : turn s = some t) (hc : clintOf s = some c)
    (htime : ∀ op ∈ c.log, setsTime op = false) (hawaits : Awaits s.core .mTimer) :
    if c.clint.mtimecmp.get 0 < BitVec.ofNat 64 n then Entered s.core t.core .mTimer
    else Undisturbed s := by
  obtain ⟨c', hticking⟩ := turns_tick hrun
  obtain ⟨p, u, hwired⟩ := hticking.wired
  have heq : c = c' := Option.some.inj (hc.symm.trans hwired.clintOf)
  subst heq
  have hline : driven (lines c.clint.tick p.plic.tick) .mTimer =
      some (decide (c.clint.mtimecmp.get 0 < BitVec.ofNat 64 n)) := by
    rw [← hticking.timed.time htime]
    exact congrArg some (CLInt.tick_mtip c.clint 0)
  have hdecided := turn_awaits hwired hawaits hline hturn
  simpa using hdecided

end Runs

/-- A program that waits for the time 8: `lui x5, 0x2004`, `addi x6, x0, 8`, `sd x6, 0(x5)`,
`addi x7, x0, 0x80`, `csrrw x0, mie, x7`, `csrrsi x0, mstatus, 8` and `jal x0, 0`. -/
def waiting8 : Nat → BitVec 8 :=
  writeBytes (fun _ => 0) 0 28 0x0000006f3004607330439073080003930062b02300800313020042b7

theorem timer_on_time_8 : ∃ s t, turns 9 (powerOn default waiting8 [] []) = some s ∧
    turn s = some t ∧ Entered s.core t.core .mTimer := by
  have hrun : (turns 10 (powerOn default waiting8 [] [])).isSome = true := by decide +kernel
  obtain ⟨t, ht⟩ := Option.isSome_iff_exists.mp hrun
  obtain ⟨s, hs, hturn⟩ := Option.bind_eq_some_iff.mp ht
  have hcore : (turns 9 (powerOn default waiting8 [] [])).map (fun s =>
      (s.core.csrIntEnable, s.core.csrMIntDelegation, s.core.nextPrivMode,
        s.core.status.getLsbD MStatus.mie)) = some (0x80, 0, .mMode, true) := by
    decide +kernel
  have hclint : ((turns 9 (powerOn default waiting8 [] [])).bind clintOf).map (fun c =>
      (c.log.all (!setsTime ·), c.clint.mtimecmp.get 0)) = some (true, 8) := by
    decide +kernel
  rw [hs] at hcore hclint
  simp only [Option.map_some, Option.some.injEq, Prod.mk.injEq] at hcore
  obtain ⟨henable, hdeleg, hmode, hmie⟩ := hcore
  obtain ⟨c, hc, hlog⟩ := Option.map_eq_some_iff.mp hclint
  obtain ⟨hall, hcmp⟩ := Prod.mk.inj hlog
  have htime : ∀ op ∈ c.log, setsTime op = false := by simpa using hall
  have hawaits : Awaits s.core .mTimer :=
    ⟨henable, by simp [hdeleg], .inr (.inr ⟨hmode, hmie⟩)⟩
  have hentered := timer_on_time hs hturn hc htime hawaits
  rw [hcmp] at hentered
  exact ⟨s, t, hs, hturn, hentered⟩

end NextEmu.FullSys
