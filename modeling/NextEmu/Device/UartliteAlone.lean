import NextEmu.Device.UartliteCalls

/-!
# A thread alone in the UART

A thread that no other thread disturbs goes through the points of its call, and the device is then
the one that the call leaves when it is run at once.
-/

namespace NextEmu.Device.UartliteAlone

open NextEmu.Sdk Uartlite UartliteCalls

variable {ι : Type} [DecidableEq ι] {w v : World ι} {t : ι} {s : State}

/-- The device of a world that one thread has for itself, between two calls. -/
structure Alone (w : World ι) (t : ι) (s : State) : Prop where
  idle : w.point t = .idle
  txMutex : w.txMutex = none
  rxMutex : w.rxMutex = none
  dev : w.dev = s.dev
  irqs : w.irqs = s.irqs
  handed : w.handed = s.handed

/-- The thread goes on until it is out of its call, which has left `s`. -/
def Ends (w : World ι) (t : ι) (s : State) : Prop :=
  ∃ n v, w.run (List.replicate n (.next t)) = some v ∧ Alone v t s

theorem Ends.next (h : w.next t = some v) (h' : Ends v t s) : Ends w t s := by
  obtain ⟨n, v', hrun, halone⟩ := h'
  refine ⟨n + 1, v', ?_, halone⟩
  rw [List.replicate_succ]
  show (w.next t).bind _ = _
  rw [h]
  exact hrun

theorem Alone.ends (h : Alone w t s) : Ends w t s := ⟨0, w, rfl, h⟩

theorem goto_point (w : World ι) (t : ι) (p : Point) : (w.goto t p).point t = p :=
  Function.update_self _ _ _

theorem lockTx_free (h : w.txMutex = none) (p : Point) :
    w.lockTx t p = some { w.goto t p with txMutex := some t } := by
  unfold World.lockTx
  rw [h]
  rfl

theorem lockRx_free (h : w.rxMutex = none) (p : Point) :
    w.lockRx t p = some { w.goto t p with rxMutex := some t } := by
  unfold World.lockRx
  rw [h]
  rfl

/-! ## The calls, point by point -/

/-- The load of a lone thread. -/
theorem ends_load (h : Alone w t s) {b : Addr} {len : Nat} (hin : outside b len = false) :
    Ends (w.goto t (.load .entered b len)) t (s.setDev (loaded s.dev b len)) := by
  apply Ends.next
  · unfold World.next
    simp only [goto_point]
    apply lockRx_free
    exact h.rxMutex
  apply Ends.next
  · unfold World.next
    simp only [goto_point, hin]
    rfl
  apply Ends.next
  · unfold World.next
    simp only [goto_point]
    rfl
  apply Ends.next
  · unfold World.next
    simp only [goto_point]
    rfl
  apply Ends.next
  · unfold World.next
    simp only [goto_point]
    rfl
  apply Alone.ends
  constructor
  · exact goto_point _ _ _
  · exact h.txMutex
  · rfl
  · show _ = loaded s.dev b len
    unfold loaded
    rw [← h.dev, ← latch_rx w.dev]
    rfl
  · exact h.irqs
  · exact h.handed

theorem ends_load_outside (h : Alone w t s) {b : Addr} {len : Nat} (hout : outside b len = true) :
    Ends (w.goto t (.load .entered b len)) t s := by
  apply Ends.next
  · unfold World.next
    simp only [goto_point]
    apply lockRx_free
    exact h.rxMutex
  apply Ends.next
  · unfold World.next
    simp only [goto_point, hout]
    rfl
  apply Ends.next
  · unfold World.next
    simp only [goto_point]
    rfl
  exact Alone.ends ⟨goto_point _ _ _, h.txMutex, rfl, h.dev, h.irqs, h.handed⟩

/-- The store of a lone thread. -/
theorem ends_store (h : Alone w t s) {b : Addr} {len : Nat} (x : BitVec (8 * len))
    (hin : outside b len = false) :
    Ends (w.goto t (.store .entered b len x)) t (s.setDev (written s.dev b len x)) := by
  apply Ends.next
  · unfold World.next
    simp only [goto_point]
    apply lockTx_free
    exact h.txMutex
  apply Ends.next
  · unfold World.next
    simp only [goto_point]
    apply lockRx_free
    exact h.rxMutex
  apply Ends.next
  · unfold World.next
    simp only [goto_point, hin]
    rfl
  apply Ends.next
  · unfold World.next
    simp only [goto_point]
    rfl
  apply Ends.next
  · unfold World.next
    simp only [goto_point]
    rfl
  apply Ends.next
  · unfold World.next
    simp only [goto_point]
    rfl
  apply Ends.next
  · unfold World.next
    simp only [goto_point]
    rfl
  apply Alone.ends
  constructor
  · exact goto_point _ _ _
  · rfl
  · rfl
  · show _ = written s.dev b len x
    rw [← h.dev]
    rfl
  · exact h.irqs
  · exact h.handed

/-- The loop of a tick of a lone thread, from any queue. -/
theorem ends_drain (tx : List (BitVec 8)) (hw : w.point t = .tick .locked) (hrx : w.rxMutex = none)
    (htx : w.dev.tx = tx)
    (hdev : s.dev = { w.dev with tx := [], waitACK := !tx.isEmpty || w.dev.waitACK })
    (hirqs : s.irqs = w.irqs) (hhanded : s.handed = w.handed ++ tx) : Ends w t s := by
  induction tx generalizing w with
  | nil =>
    apply Ends.next
    · unfold World.next
      simp only [hw, htx]
      rfl
    apply Alone.ends
    constructor
    · exact goto_point _ _ _
    · rfl
    · exact hrx
    · have hsame : { w.dev with tx := [] } = w.dev := by rw [← htx]
      exact (hdev.trans hsame).symm
    · exact hirqs.symm
    · show w.handed = s.handed
      rw [hhanded, List.append_nil]
  | cons c tx ih =>
    apply Ends.next
    · unfold World.next
      simp only [hw, htx]
      rfl
    apply Ends.next
    · unfold World.next
      simp only [goto_point]
      rfl
    apply ih
    · exact goto_point _ _ _
    · exact hrx
    · rfl
    · rw [hdev]
      cases tx <;> rfl
    · exact hirqs
    · rw [hhanded]
      exact (List.append_assoc w.handed [c] tx).symm

/-- The second half of a tick. -/
theorem ends_draining (hw : w.point t = .tick .draining) (htx : w.txMutex = none)
    (hrx : w.rxMutex = none)
    (hdev : s.dev = { w.dev with tx := [], waitACK := !w.dev.tx.isEmpty || w.dev.waitACK })
    (hirqs : s.irqs = w.irqs) (hhanded : s.handed = w.handed ++ w.dev.tx) : Ends w t s := by
  apply Ends.next
  · unfold World.next
    simp only [hw]
    apply lockTx_free
    exact htx
  · exact ends_drain w.dev.tx (goto_point _ _ _) hrx rfl hdev hirqs hhanded

/-- The tick of a lone thread, with the question for an interrupt or without. -/
theorem ends_tick (h : Alone w t s) :
    Ends (w.goto t (.tick (if w.dev.intc then .entered else .draining))) t (ticked s) := by
  have hhanded : (ticked s).handed = w.handed ++ w.dev.tx := by
    rw [h.handed, h.dev]
    rfl
  cases hintc : w.dev.intc with
  | false =>
    apply ends_draining
    · exact goto_point _ _ _
    · exact h.txMutex
    · exact h.rxMutex
    · unfold ticked
      rw [← h.dev]
      rfl
    · unfold ticked
      rw [← h.dev, hintc, ← h.irqs]
      rfl
    · exact hhanded
  | true =>
    apply Ends.next
    · unfold World.next
      simp only [goto_point]
      apply lockTx_free
      exact h.txMutex
    apply Ends.next
    · unfold World.next
      simp only [goto_point]
      rfl
    apply Ends.next
    · unfold World.next
      simp only [goto_point]
      rfl
    apply Ends.next
    · unfold World.next
      simp only [goto_point]
      rfl
    apply ends_draining
    · exact goto_point _ _ _
    · rfl
    · exact h.rxMutex
    · unfold ticked
      rw [← h.dev]
      rfl
    · unfold ticked
      rw [← h.dev, hintc, ← h.irqs]
      rfl
    · exact hhanded

theorem ends_readInput (h : Alone w t s) (c : BitVec 8) :
    Ends (w.goto t (.readInput .got c)) t (s.setDev (received s.dev c)) := by
  apply Ends.next
  · unfold World.next
    simp only [goto_point]
    apply lockRx_free
    exact h.rxMutex
  apply Ends.next
  · unfold World.next
    simp only [goto_point]
    rfl
  apply Ends.next
  · unfold World.next
    simp only [goto_point]
    rfl
  apply Alone.ends
  constructor
  · exact goto_point _ _ _
  · exact h.txMutex
  · rfl
  · show _ = received s.dev c
    rw [← h.dev]
    rfl
  · exact h.irqs
  · exact h.handed

/-! ## A call, and calls one after another -/

/-- A call of a lone thread takes it to the state behind that call. -/
theorem alone_call (h : Alone w t s) {c : Call} (hc : Handled s.dev.devSize c) :
    ∃ n v, w.run (.call t c :: List.replicate n (.next t)) = some v ∧ Alone v t (after s c) := by
  have hends : Ends (w.goto t (w.dev.enter c)) t (after s c) := by
    rw [← h.dev] at hc
    cases c with
    | load beginAddr len =>
      unfold enter after
      dsimp only
      rw [← h.dev]
      by_cases hfits : (beginAddr % w.dev.devSize).toNat + len ≤ regSize
      · rw [if_pos hfits, h.dev]
        exact ends_load h (outside_of_fits (h.dev ▸ hfits))
      · rw [if_neg hfits]
        exact ends_load_outside h (hc (Nat.lt_of_not_le hfits))
    | store beginAddr len x =>
      unfold enter after
      dsimp only
      rw [← h.dev, h.dev]
      exact ends_store h x (outside_of_fits (h.dev ▸ hc))
    | tick => exact ends_tick h
    | readInput c => exact ends_readInput h c
  obtain ⟨n, v, hrun, halone⟩ := hends
  refine ⟨n, v, ?_, halone⟩
  have hact : w.act (.call t c) = some (w.goto t (w.dev.enter c)) := by
    simp only [World.act, h.idle]
  show (w.act (.call t c)).bind _ = _
  rw [hact]
  exact hrun

/-- Calls one after another. -/
theorem alone_calls (cs : List Call) (h : Alone w t s)
    (hcs : ∀ c ∈ cs, Handled s.dev.devSize c) :
    ∃ actions v, w.run actions = some v ∧ Alone v t (cs.foldl after s) := by
  induction cs generalizing w s with
  | nil => exact ⟨[], w, rfl, h⟩
  | cons c cs ih =>
    obtain ⟨n, u, hfirst, hu⟩ := alone_call h (hcs c List.mem_cons_self)
    have hrest : ∀ c' ∈ cs, Handled (after s c).dev.devSize c' := by
      rw [after_devSize]
      exact fun c' hc' => hcs c' (List.mem_cons_of_mem c hc')
    obtain ⟨actions, v, hrun, hv⟩ := ih hu hrest
    refine ⟨.call t c :: List.replicate n (.next t) ++ actions, v, ?_, hv⟩
    unfold World.run at hfirst hrun ⊢
    rw [List.foldlM_append, hfirst]
    exact hrun

/-- The same from a new device. -/
theorem alone_run (t : ι) (devSize : BitVec 64) (intc : Bool) (cs : List Call)
    (hcs : ∀ c ∈ cs, Handled devSize c) :
    ∃ actions v, (World.init devSize intc).run actions = some v ∧
      Alone v t (cs.foldl after (State.init devSize intc)) :=
  alone_calls cs ⟨rfl, rfl, rfl, rfl, rfl, rfl⟩ hcs

end NextEmu.Device.UartliteAlone
