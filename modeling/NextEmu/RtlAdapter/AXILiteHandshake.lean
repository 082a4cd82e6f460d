import NextEmu.Lib.Polling
import NextEmu.RtlAdapter.AXILiteSlave

/-!
# The handshake of a write

`axiliteStore4B` and `axiliteStore8B` against the slave. The adapter waits for AWREADY
before it raises WVALID, and the slave raises AWREADY only for an address that comes with
its data. Where AWREADY is up all the same, the adapter takes AWVALID down before the
slave has seen both, and no response follows.
-/

namespace NextEmu.RtlAdapter.AXILiteHandshake

open NextEmu.Lib.Polling NextEmu.Sdk

variable {w : BitWidth} {n : Nat}

/-- Code that drives the module, with none for code that has not ended. -/
abbrev Drive (w : BitWidth) (n : Nat) := StateT (Top w n) Option

def setPorts (f : Ports w → Ports w) : Drive w n Unit :=
  modify fun t => { t with ports := f t.ports }

/-- `while (!out) axiClkCycle();` -/
def waitFor (fuel : Nat) (out : Slave w n → Bool) : Drive w n Unit := fun t =>
  (poll (fun t => out t.slave) Top.axiClkCycle fuel t).map fun t => ((), t)

def axiliteStore (fuel : Nat) (addr : w.Word) (wstrb : BitVec 8) (val : w.Word) :
    Drive w n (BitVec 8) := do
  -- Transmit Address
  setPorts fun p => { p with awaddr := addr, awvalid := true }
  modify Top.eval
  waitFor fuel (·.axiAwready)
  setPorts fun p => { p with awvalid := false }
  -- Transmit Data
  setPorts fun p => { p with wdata := val, wstrb := wstrb, wvalid := true }
  modify Top.eval
  waitFor fuel (·.axiWready)
  setPorts fun p => { p with wvalid := false }
  -- Get Write Response
  waitFor fuel (·.axiBvalid)
  let resp := (← get).slave.axiBresp.setWidth 8
  setPorts fun p => { p with bready := true }
  modify Top.axiClkCycle
  return resp

def axiliteStore4B : Nat → BitVec 32 → BitVec 8 → BitVec 32 → Drive .w32 n (BitVec 8) :=
  axiliteStore (w := .w32)

def axiliteStore8B : Nat → BitVec 64 → BitVec 8 → BitVec 64 → Drive .w64 n (BitVec 8) :=
  axiliteStore (w := .w64)

/-- The three loops end and the store returns, with one write. -/
def Completes (t : Top .w32 n) (addr : BitVec 32) (wstrb : BitVec 8) (val : BitVec 32) : Prop :=
  ∃ fuel resp t', axiliteStore4B fuel addr wstrb val t = some (resp, t') ∧
    t'.writes = t.writes + 1

/-! ## Edges -/

section Edges

variable {t : Top w n}

theorem eval_ports (t : Top w n) : t.eval.ports = t.ports := by
  unfold Top.eval
  split <;> rfl

theorem eval_lastClk (t : Top w n) : t.eval.lastClk = t.ports.aclk := by
  unfold Top.eval
  split <;> rfl

/-- Without an edge the slave keeps its registers. -/
theorem eval_level (h : t.lastClk = t.ports.aclk) : t.eval.slave = t.slave := by
  unfold Top.eval
  rw [h, Bool.and_not_self]
  rfl

theorem eval_edge (hclk : t.ports.aclk = true) (hlast : t.lastClk = false) :
    t.eval.slave = t.slave.posedge t.ports := by
  unfold Top.eval
  rw [hclk, hlast]
  rfl

/-- A cycle has one edge, with the clock up. -/
theorem cycle_slave (t : Top w n) :
    t.axiClkCycle.slave = t.slave.posedge { t.ports with aclk := true } := by
  have hlow : (t.setClk false).eval.slave = t.slave := by
    unfold Top.eval
    rfl
  have hlast : ((t.setClk false).eval.setClk true).lastClk = false := eval_lastClk _
  unfold Top.axiClkCycle
  rw [eval_edge rfl hlast]
  unfold Top.setClk at hlow ⊢
  rw [hlow, eval_ports]

theorem cycle_ports (t : Top w n) : t.axiClkCycle.ports = { t.ports with aclk := true } := by
  unfold Top.axiClkCycle
  rw [eval_ports]
  unfold Top.setClk
  rw [eval_ports]

/-- A response needs AWREADY and AWVALID at the edge. -/
theorem bvalid_kept {p : Ports w} {s : Slave w n} (hreset : p.aresetn = true)
    (hbvalid : s.axiBvalid = false) (h : s.axiAwready = false ∨ p.awvalid = false) :
    (s.posedge p).axiBvalid = false := by
  have hboth : (s.axiAwready && p.awvalid) = false := by
    rcases h with h | h
    · rw [h, Bool.false_and]
    · rw [h, Bool.and_false]
  unfold Slave.posedge
  rw [hreset, if_neg (by decide)]
  simp only [hboth, hbvalid, Bool.false_and, Bool.and_false, Bool.false_eq_true, if_false]

end Edges

/-! ## The loops -/

section Loops

/-- No response, out of reset. -/
structure Unanswered (t : Top w n) : Prop where
  aresetn : t.ports.aresetn = true
  bvalid : t.slave.axiBvalid = false

/-- Nor can there be one. -/
structure Withdrawn (t : Top w n) : Prop extends Unanswered t where
  awvalid : t.ports.awvalid = false

theorem Unanswered.cycle {t : Top w n} (h : Unanswered t)
    (hno : t.slave.axiAwready = false ∨ t.ports.awvalid = false) :
    Unanswered t.axiClkCycle where
  aresetn := by
    rw [cycle_ports]
    exact h.aresetn
  bvalid := by
    rw [cycle_slave]
    exact bvalid_kept h.aresetn h.bvalid hno

theorem Unanswered.eval {t : Top w n} (h : Unanswered t) (hclk : t.lastClk = t.ports.aclk) :
    Unanswered t.eval where
  aresetn := by
    rw [eval_ports]
    exact h.aresetn
  bvalid := by
    rw [eval_level hclk]
    exact h.bvalid

theorem Withdrawn.eval {t : Top w n} (h : Withdrawn t) : Withdrawn t.eval where
  aresetn := by
    rw [eval_ports]
    exact h.aresetn
  bvalid := by
    unfold Top.eval
    split
    · exact bvalid_kept h.aresetn h.bvalid (.inr h.awvalid)
    · exact h.bvalid
  awvalid := by
    rw [eval_ports]
    exact h.awvalid

theorem Withdrawn.cycle {t : Top w n} (h : Withdrawn t) : Withdrawn t.axiClkCycle where
  toUnanswered := h.toUnanswered.cycle (.inr h.awvalid)
  awvalid := by
    rw [cycle_ports]
    exact h.awvalid

/-- The first loop ends without a response. -/
theorem waitFor_awready {t t' : Top w n} {fuel : Nat} (ht : Unanswered t)
    (h : waitFor fuel (·.axiAwready) t = some ((), t')) : Unanswered t' := by
  obtain ⟨u, hpoll, hu⟩ := Option.map_eq_some_iff.mp h
  cases hu
  exact (poll_some (fun s hs hstop => hs.cycle (.inl hstop)) ht hpoll).1

/-- So does the second, with the address withdrawn. -/
theorem waitFor_wready {t t' : Top w n} {fuel : Nat} (ht : Withdrawn t)
    (h : waitFor fuel (·.axiWready) t = some ((), t')) : Withdrawn t' := by
  obtain ⟨u, hpoll, hu⟩ := Option.map_eq_some_iff.mp h
  cases hu
  exact (poll_some (fun s hs _ => hs.cycle) ht hpoll).1

/-- The third never ends. -/
theorem waitFor_bvalid {t : Top w n} (ht : Withdrawn t) (fuel : Nat) :
    waitFor fuel (·.axiBvalid) t = none := by
  have hpoll : poll (fun t : Top w n => t.slave.axiBvalid) Top.axiClkCycle fuel t = none :=
    poll_none (fun s hs => Withdrawn.cycle hs) (fun s hs => hs.bvalid) ht fuel
  exact congrArg (Option.map fun t => ((), t)) hpoll

/-- Where AWREADY and WVALID are down it is the first loop that never ends. -/
theorem waitFor_awready_down {t : Top w n} (hreset : t.ports.aresetn = true)
    (hwvalid : t.ports.wvalid = false) (hawready : t.slave.axiAwready = false) (fuel : Nat) :
    waitFor fuel (·.axiAwready) t = none := by
  have hstep : ∀ s : Top w n,
      (s.ports.aresetn = true ∧ s.ports.wvalid = false ∧ s.slave.axiAwready = false) →
      s.axiClkCycle.ports.aresetn = true ∧ s.axiClkCycle.ports.wvalid = false ∧
        s.axiClkCycle.slave.axiAwready = false := by
    rintro s ⟨hr, hw, -⟩
    rw [cycle_ports, cycle_slave]
    refine ⟨hr, hw, ?_⟩
    unfold Slave.posedge
    rw [hr, if_neg (by decide)]
    simp only [hw, Bool.and_false, Bool.false_and]
  have hpoll : poll (fun t : Top w n => t.slave.axiAwready) Top.axiClkCycle fuel t = none :=
    poll_none hstep (fun s hs => hs.2.2) ⟨hreset, hwvalid, hawready⟩ fuel
  exact congrArg (Option.map fun t => ((), t)) hpoll

theorem bind_none {α ρ : Type} {x : Drive w n α} {f : α → Drive w n ρ} {t : Top w n}
    (h : ∀ a t', x t = some (a, t') → f a t' = none) : (x >>= f) t = none := by
  show (x t).bind (fun r => f r.1 r.2) = none
  cases hx : x t with
  | none => rfl
  | some r => exact h r.1 r.2 hx

theorem setPorts_some {f : Ports w → Ports w} {t t' : Top w n}
    (h : setPorts f t = some ((), t')) : t' = { t with ports := f t.ports } :=
  (congrArg Prod.snd (Option.some.inj h)).symm

theorem eval_some {t t' : Top w n} (h : (modify Top.eval : Drive w n Unit) t = some ((), t')) :
    t' = t.eval :=
  (congrArg Prod.snd (Option.some.inj h)).symm

/-- A store against a slave that has no response outstanding never returns. -/
theorem axiliteStore_none {t : Top w n} (ht : Unanswered t) (hclk : t.lastClk = t.ports.aclk)
    (fuel : Nat) (addr : w.Word) (wstrb : BitVec 8) (val : w.Word) :
    axiliteStore fuel addr wstrb val t = none := by
  unfold axiliteStore
  refine bind_none fun _ _ h => ?_
  obtain rfl := setPorts_some h
  refine bind_none fun _ _ h => ?_
  obtain rfl := eval_some h
  refine bind_none fun _ t₁ h => ?_
  -- no edge has passed since the address was put there, and none of the loop is answered
  have ht₀ : Unanswered { t with ports := { t.ports with awaddr := addr, awvalid := true } } :=
    ⟨ht.aresetn, ht.bvalid⟩
  have ht₁ : Unanswered t₁ := waitFor_awready (ht₀.eval hclk) h
  refine bind_none fun _ _ h => ?_
  obtain rfl := setPorts_some h
  refine bind_none fun _ _ h => ?_
  obtain rfl := setPorts_some h
  refine bind_none fun _ _ h => ?_
  obtain rfl := eval_some h
  refine bind_none fun _ t₂ h => ?_
  have htaken : Withdrawn { t₁ with
      ports := { t₁.ports with awvalid := false, wdata := val, wstrb := wstrb, wvalid := true } } :=
    ⟨⟨ht₁.aresetn, ht₁.bvalid⟩, rfl⟩
  have ht₂ : Withdrawn t₂ := waitFor_wready htaken.eval h
  refine bind_none fun _ _ h => ?_
  obtain rfl := setPorts_some h
  refine bind_none fun _ _ h => ?_
  have htail : Withdrawn { t₂ with ports := { t₂.ports with wvalid := false } } :=
    ⟨⟨ht₂.aresetn, ht₂.bvalid⟩, ht₂.awvalid⟩
  cases (waitFor_bvalid htail fuel).symm.trans h

/-- Nor does a call of `store`, which issues a transaction for every length. -/
theorem store_none {t : Top w n} (ht : Unanswered t) (hclk : t.lastClk = t.ports.aclk)
    (fuel : Nat) (beginAddr : Addr) (len : Nat) (buffer : Nat → BitVec 8) :
    store w (axiliteStore fuel) beginAddr len buffer t = none := by
  have hno : ∀ addr wstrb val r t', axiliteStore fuel addr wstrb val t ≠ some (r, t') := by
    intro addr wstrb val r t' h
    rw [axiliteStore_none ht hclk] at h
    cases h
  unfold store
  cases (len - len % w.byteSize) / w.byteSize with
  | zero =>
    refine bind_none fun _ _ h => ?_
    cases h
    exact bind_none fun _ _ h => absurd h (hno _ _ _ _ _)
  | succ k =>
    refine bind_none fun _ _ h => ?_
    have hfirst : storeWords w (axiliteStore fuel) beginAddr buffer (k + 1) 0 t = none :=
      bind_none fun _ _ h => absurd h (hno _ _ _ _ _)
    rw [hfirst] at h
    cases h

end Loops

/-! ## Reachable states -/

section Reachable

/-- Out of reset, with no edge to come. -/
theorem reachable_settled {t : Top w n} (h : t.Reachable) :
    t.ports.aresetn = true ∧ t.lastClk = t.ports.aclk := by
  cases h with
  | reset hreset hclk hedge => exact ⟨rfl, eval_lastClk _⟩
  | eval h p hp =>
    rw [eval_ports, eval_lastClk]
    exact ⟨hp, rfl⟩

/-- No store completes: in no reachable state without a response outstanding does one return, nor
does any call of the adapter. -/
theorem handshake_never_completes (t : Top .w32 n) (h : t.Reachable)
    (hidle : t.slave.axiBvalid = false) :
    (∀ addr wstrb val, ¬ Completes t addr wstrb val) ∧
      ∀ fuel beginAddr len buffer,
        store .w32 (axiliteStore4B fuel) beginAddr len buffer t = none := by
  obtain ⟨hreset, hclk⟩ := reachable_settled h
  constructor
  · rintro addr wstrb val ⟨fuel, resp, t', hrun, -⟩
    have hnone := axiliteStore_none ⟨hreset, hidle⟩ hclk fuel addr wstrb val
    unfold axiliteStore4B at hrun
    rw [hnone] at hrun
    cases hrun
  · exact fun fuel beginAddr len buffer => store_none ⟨hreset, hidle⟩ hclk fuel beginAddr len buffer

end Reachable

/-- The module behind a reset. -/
def resetTop : Top .w32 4 :=
  { ports := ⟨true, true, 0, false, 0, 0, false, false⟩, slave := Slave.cleared, lastClk := true
    writes := 0 }

theorem reachable_resetTop : resetTop.Reachable :=
  Top.Reachable.reset (t := { resetTop with
    ports := { resetTop.ports with aresetn := false }, lastClk := false }) rfl rfl rfl

/-- Storing there does not return. -/
theorem reset_store_hangs :
    ¬ ∀ t : Top .w32 4, t.Reachable → t.slave.axiBvalid = false →
      ∀ addr wstrb val, Completes t addr wstrb val := by
  intro hall
  obtain ⟨fuel, resp, t', hrun, -⟩ := hall resetTop reachable_resetTop rfl 0 0b1111 0
  have hnone : axiliteStore4B fuel 0 0b1111 0 resetTop = none :=
    axiliteStore_none ⟨rfl, rfl⟩ rfl fuel 0 0b1111 0
  rw [hnone] at hrun
  cases hrun

theorem handshake_never_completes_reset : ¬ Completes resetTop 0 0b1111 0 :=
  (handshake_never_completes resetTop reachable_resetTop rfl).1 0 0b1111 0

end NextEmu.RtlAdapter.AXILiteHandshake
