import NextEmu.Device.UartliteRelation

/-!
# The calls of the UART take effect one at a time

Each step of a thread is answered by the steps of the calls that have their effect there. That is
the one of the thread itself, or none, but where a tick sets the flag: a load that still has to
take its byte comes first.
-/

namespace NextEmu.Device.UartliteLinear

open NextEmu.Sdk NextEmu.Lib.Mutex NextEmu.Lib.Histories Uartlite UartliteFifos UartliteCalls
  UartliteAtomic UartliteRelation

section Steps

variable {ι : Type} [DecidableEq ι] {devSize : BitVec 64} {w : Watched ι} {s : Atomic ι}
  {world : World ι} {t v : ι} {p q : Point} {k : Task}

/-- The step of `t` to `world` is answered. -/
def Follows (devSize : BitVec 64) (w : Watched ι) (s : Atomic ι) (t : ι) (world : World ι) : Prop :=
  ∃ s', Runs Atomic.Step s (w.shown world (.next t)).toList s' ∧
    Sim devSize ⟨world, w.noted (.next t)⟩ s'

/-- Whether a thread is in a call. -/
def busy : Point → Bool
  | .idle => false
  | _ => true

omit [DecidableEq ι] in
theorem shown_busy (hpoint : busy (world.point t) = true) : w.shown world (.next t) = none := by
  unfold Watched.shown
  dsimp only
  split
  · rename_i hidle
    rw [hidle] at hpoint
    cases hpoint
  · rfl

theorem stays (hpoint : world.point = Function.update w.world.point t p) (hp : busy p = true)
    (h : Sim devSize ⟨world, w.noted (.next t)⟩ s) : Follows devSize w s t world := by
  refine ⟨s, ?_, h⟩
  rw [shown_busy (by rw [hpoint, Function.update_self, hp])]
  exact .refl s

theorem performs {state : State} (hpoint : world.point = Function.update w.world.point t p)
    (hp : busy p = true) (hperform : (s.task t).perform s.state = .ok k state)
    (h : Sim devSize ⟨world, w.noted (.next t)⟩
      { state := state, task := Function.update s.task t k }) : Follows devSize w s t world := by
  refine ⟨_, ?_, h⟩
  rw [shown_busy (by rw [hpoint, Function.update_self, hp])]
  exact (Runs.refl s).silent (.perform hperform)

/-- A step that takes or gives back a mutex and leaves what it protects alone. -/
theorem moves (h : Sim devSize w s) (hq : w.world.point t = q) (hp : busy p = true)
    {tx rx : Option ι}
    (htx : Protects insideTx (TxRel w.world.dev w.world.handed s.state) tx
      (Function.update w.world.point t p))
    (hrx : Protects insideRx (RxRel w.world.dev s.state.dev) rx (Function.update w.world.point t p))
    (hself : TaskRel devSize w.world.dev (w.noted (.next t) t) p (s.task t)) :
    Follows devSize w s t { w.world with
      txMutex := tx, rxMutex := rx, point := Function.update w.world.point t p } :=
  stays rfl hp {
    size := h.size
    size' := h.size'
    intc := h.intc
    free := h.free
    irqs := h.irqs
    tx := htx
    rx := hrx
    tasks := h.tasks_goto hq (fun _ => noted_other) (fun _ _ => rfl) (.inr (.refl _)) (.inr rfl)
      hself }

theorem returns (h : Sim devSize w s) (hq : w.world.point t = q)
    (hdone : s.task t = .done (w.answer t)) {tx rx : Option ι}
    (htx : Protects insideTx (TxRel w.world.dev w.world.handed s.state) tx
      (Function.update w.world.point t .idle))
    (hrx : Protects insideRx (RxRel w.world.dev s.state.dev) rx
      (Function.update w.world.point t .idle)) :
    Follows devSize w s t { w.world with
      txMutex := tx, rxMutex := rx, point := Function.update w.world.point t .idle } := by
  refine ⟨{ s with task := Function.update s.task t .idle }, ?_, {
    size := h.size
    size' := h.size'
    intc := h.intc
    free := h.free
    irqs := h.irqs
    tx := htx
    rx := hrx
    tasks := h.tasks_goto hq (fun _ => noted_other) (fun v hv => Function.update_of_ne hv _ _)
      (.inr (.refl _)) (.inr rfl) (Function.update_self _ _ _) }⟩
  have hshown : w.shown { w.world with
      txMutex := tx, rxMutex := rx, point := Function.update w.world.point t .idle }
      (.next t) = some (.ret t (w.answer t)) := by
    simp [Watched.shown]
  rw [hshown]
  exact (Runs.refl s).shown (.ret hdone)

/-! ## A load -/

theorem sim_load (hsize : devSize ≠ 0) (h : Sim devSize w s) {i : LoadAt} {b : Addr} {len : Nat}
    (hq : w.world.point t = .load i b len) (hstep : w.world.next t = some world) :
    Follows devSize w s t world := by
  have htask := h.tasks t
  have hdev := h.size'
  subst hdev
  rw [hq] at htask
  unfold World.next at hstep
  rw [hq] at hstep
  cases i with
  | entered =>
    obtain ⟨hfree, rfl⟩ := lockRx_some hstep
    exact moves h hq rfl
      (h.tx.other hq rfl rfl fun _ hx => hx)
      (h.rx.acquire hfree rfl fun hx => hx) htask
  | locked =>
    obtain ⟨a, hk, rfl, hhandled⟩ := htask
    by_cases hout : outside (a % s.state.dev.devSize) len = true
    · simp only [hout, if_true, Option.some.injEq] at hstep
      subst hstep
      have hperform := perform_outside h.free hsize hout
      rw [← hk] at hperform
      refine performs rfl rfl hperform {
        size := h.size
        size' := rfl
        intc := h.intc
        free := h.free
        irqs := h.irqs
        tx := h.tx.other hq rfl rfl fun _ hx => hx
        rx := h.rx.proceed hq rfl rfl fun hx => hx
        tasks := h.tasks_goto hq (fun _ => noted_other) (fun v hv => Function.update_of_ne hv _ _)
          (.inl rfl) (.inr rfl) ?_ }
      simp [TaskRel, Watched.noted, hq, hout]
    · have hin := Bool.eq_false_iff.mpr hout
      simp only [hin, Bool.false_eq_true, if_false, Option.some.injEq] at hstep
      subst hstep
      obtain ⟨hdevSize, htx, -⟩ := latch_queues w.world.dev
      refine stays rfl rfl {
        size := hdevSize.trans h.size
        size' := rfl
        intc := h.intc.trans (latch_const w.world.dev).2.symm
        free := h.free
        irqs := h.irqs
        tx := h.tx_other hq rfl rfl rfl htx rfl rfl
        rx := h.rx.proceed hq rfl rfl fun hx => SameRx.latch hx
        tasks := h.tasks_goto hq (fun _ => noted_other) (fun _ _ => rfl) (.inl rfl) (.inr htx) ?_ }
      exact ⟨⟨a, hk, rfl, hhandled⟩, hin⟩
  | latched =>
    obtain ⟨⟨a, hk, rfl, hhandled⟩, hin⟩ := htask
    cases hstep
    have hsame : SameRx w.world.dev s.state.dev.latch := h.rx.holds_inside hq rfl
    by_cases hlate : late { w.world.dev with waitACK := false } (a % s.state.dev.devSize) len = true
    · refine stays rfl rfl {
        size := h.size
        size' := rfl
        intc := h.intc
        free := h.free
        irqs := h.irqs
        tx := h.tx_other hq rfl rfl rfl rfl rfl rfl
        rx := h.rx.proceed hq rfl rfl fun hx => ?_
        tasks := h.tasks_goto hq (fun _ => noted_other) (fun _ _ => rfl) (.inl rfl) (.inr rfl) ?_ }
      · exact (rxRel_late hlate).mpr ⟨hsame.regs, hsame.rx.trans (latch_rx _)⟩
      · exact (taskRel_late hlate).mpr ⟨⟨a, hk, rfl, hhandled⟩, hin, by simp [Watched.noted, hq]⟩
    · have hperform := perform_load h.free hsize hin hhandled
      rw [← hk] at hperform
      refine performs rfl rfl hperform {
        size := h.size
        size' := loaded_devSize _ _ _
        intc := (latch_const s.state.dev).2.trans h.intc
        free := ⟨h.free.tx, h.free.rx⟩
        irqs := h.irqs
        tx := h.tx_other hq rfl rfl rfl rfl (latch_queues s.state.dev).2.1 rfl
        rx := h.rx.proceed hq rfl rfl fun hx => ?_
        tasks := h.tasks_goto hq (fun _ => noted_other) (fun v hv => Function.update_of_ne hv _ _)
          (.inl rfl) (.inr rfl) ?_ }
      · refine (rxRel_taken hlate).mpr ⟨hsame.regs, ?_, rfl⟩
        simp only [State.setDev, loaded, hsame.rx, latch_rx]
      · refine (taskRel_taken hlate).mpr ?_
        simp [Watched.noted, hq, hsame.regs]
  | copied =>
    cases hstep
    have hrel : RxRel w.world.dev s.state.dev (some (.load .copied b len)) :=
      h.rx.holds_inside hq rfl
    by_cases hlate : late w.world.dev b len = true
    · rw [rxRel_late hlate] at hrel
      rw [taskRel_late hlate] at htask
      obtain ⟨⟨a, hk, rfl, hhandled⟩, hin, hr⟩ := htask
      have hperform := perform_load h.free hsize hin hhandled
      rw [← hk] at hperform
      have hacc : accessed (a % s.state.dev.devSize) len rxFifo = true ∧
          w.world.dev.waitACK = false := by
        simp only [late, Bool.and_eq_true, Bool.not_eq_true'] at hlate
        exact ⟨hlate.1.1, hlate.2⟩
      refine performs rfl rfl hperform {
        size := h.size
        size' := loaded_devSize _ _ _
        intc := (latch_const s.state.dev).2.trans h.intc
        free := ⟨h.free.tx, h.free.rx⟩
        irqs := h.irqs
        tx := h.tx_other hq rfl rfl rfl rfl (latch_queues s.state.dev).2.1 rfl
        rx := h.rx.proceed hq rfl rfl fun hx => ?_
        tasks := h.tasks_goto hq (fun _ => noted_other) (fun v hv => Function.update_of_ne hv _ _)
          (.inl rfl) (.inr rfl) ?_ }
      · refine ⟨hrel.1, ?_, hacc.2⟩
        simp only [State.setDev, loaded, hrel.2]
        rfl
      · simp [TaskRel, Watched.noted, hq, hr, hrel.1]
    · rw [rxRel_taken hlate] at hrel
      rw [taskRel_taken hlate] at htask
      refine stays rfl rfl {
        size := h.size
        size' := rfl
        intc := h.intc
        free := h.free
        irqs := h.irqs
        tx := h.tx_other hq rfl rfl rfl rfl rfl rfl
        rx := h.rx.proceed hq rfl rfl fun hx => hrel
        tasks := h.tasks_goto hq (fun _ => noted_other) (fun _ _ => rfl) (.inl rfl) (.inr rfl) ?_ }
      simp [TaskRel, Watched.noted, hq, htask]
  | done =>
    cases hstep
    have hdone : s.task t = .done (w.answer t) := htask
    exact returns h hq hdone
      (h.tx_other hq rfl rfl rfl rfl rfl rfl)
      (h.rx.release hq rfl rfl fun hx => hx)

/-! ## A store -/

/-- What a store has still to do when it has pushed its byte. -/
theorem written_rest {u v : Uartlite} {b : Addr} {len : Nat} {x : BitVec (8 * len)}
    (hsize : u.devSize = v.devSize) (hintc : v.intc = u.intc)
    (hsame : SameRx u { v with regs := writeBytes v.regs b.toNat len x })
    (htx : u.tx = if accessed b len txFifo then v.tx ++ [(u.reg txFifo).setWidth 8] else v.tx) :
    (if accessed b len control then u.reset else u) = written v b len x := by
  obtain ⟨hregs, hrx, hflag⟩ := hsame
  have heq : u = { v with
      regs := writeBytes v.regs b.toNat len x
      tx := if accessed b len txFifo then
        v.tx ++ [(({ v with regs := writeBytes v.regs b.toNat len x } : Uartlite).reg
          txFifo).setWidth 8] else v.tx } := by
    cases u
    cases v
    simp only [reg] at hregs hrx hflag htx hsize hintc ⊢
    simp only [hregs, hrx, hflag, htx, hsize, hintc]
  rw [heq]
  rfl

theorem sim_store (hsize : devSize ≠ 0) (h : Sim devSize w s) {i : StoreAt} {b : Addr} {len : Nat}
    {x : BitVec (8 * len)} (hq : w.world.point t = .store i b len x)
    (hstep : w.world.next t = some world) : Follows devSize w s t world := by
  have htask := h.tasks t
  have hdev := h.size'
  subst hdev
  have hanswer : w.noted (.next t) t = w.answer t := by simp only [Watched.noted, hq]
  rw [hq, ← hanswer] at htask
  unfold World.next at hstep
  rw [hq] at hstep
  cases i with
  | entered =>
    obtain ⟨hfree, rfl⟩ := lockTx_some hstep
    exact moves h hq rfl
      (h.tx.acquire hfree rfl fun hx => hx)
      (h.rx.other hq rfl rfl fun _ hx => hx) htask
  | txLocked =>
    obtain ⟨hfree, rfl⟩ := lockRx_some hstep
    exact moves h hq rfl
      (h.tx.proceed hq rfl rfl fun hx => hx)
      (h.rx.acquire hfree rfl fun hx => hx) htask
  | locked =>
    obtain ⟨hr, a, hk, rfl, hhandled⟩ := htask
    simp only [outside_of_fits hhandled, Bool.false_eq_true, if_false, Option.some.injEq] at hstep
    subst hstep
    exact stays rfl rfl {
      size := h.size
      size' := rfl
      intc := h.intc
      free := h.free
      irqs := h.irqs
      tx := h.tx.proceed hq rfl rfl fun hx => hx
      rx := h.rx.proceed hq rfl rfl fun hx => ⟨by rw [← hx.regs]; rfl, hx.rx, hx.waitACK⟩
      tasks := h.tasks_goto hq (fun _ => noted_other) (fun _ _ => rfl) (.inl rfl) (.inl rfl)
        ⟨hr, a, hk, rfl, hhandled⟩ }
  | copied =>
    cases hstep
    refine stays rfl rfl {
      size := h.size
      size' := rfl
      intc := h.intc
      free := h.free
      irqs := h.irqs
      tx := h.tx.proceed hq rfl rfl fun hx => ⟨hx.1, ?_⟩
      rx := h.rx.proceed hq rfl rfl fun hx => ⟨hx.regs, hx.rx, hx.waitACK⟩
      tasks := h.tasks_goto hq (fun _ => noted_other) (fun _ _ => rfl) (.inl rfl) (.inl rfl) htask }
    rw [← hx.2]
    rfl
  | pushed =>
    obtain ⟨hr, a, hk, rfl, hhandled⟩ := htask
    cases hstep
    have hsame : SameRx w.world.dev _ := h.rx.holds_inside hq rfl
    obtain ⟨hhanded, htx⟩ := h.tx.holds_inside hq rfl
    have hwritten := written_rest h.size h.intc hsame htx
    rw [hwritten]
    have hperform := perform_store (x := x) h.free hsize hhandled
    rw [← hk] at hperform
    refine performs rfl rfl hperform {
      size := written_devSize _ _ _
      size' := written_devSize _ _ _
      intc := rfl
      free := ⟨h.free.tx, h.free.rx⟩
      irqs := h.irqs
      tx := h.tx.proceed hq rfl rfl fun _ => ⟨hhanded, rfl⟩
      rx := h.rx.proceed hq rfl rfl fun _ => .refl _
      tasks := h.tasks_goto hq (fun _ => noted_other) (fun v hv => Function.update_of_ne hv _ _)
        (.inl rfl) (.inl rfl) ?_ }
    simp [TaskRel, hr]
  | done =>
    cases hstep
    exact moves h hq rfl
      (h.tx.release hq rfl rfl fun hx => hx)
      (h.rx.proceed hq rfl rfl fun hx => hx) htask
  | txUnlocked =>
    cases hstep
    rw [hanswer] at htask
    exact returns h hq htask
      (h.tx_other hq rfl rfl rfl rfl rfl rfl)
      (h.rx.release hq rfl rfl fun hx => hx)

/-! ## A tick -/

/-- A load that is late counts as done, so that the flag can be set. -/
theorem help (hsize : devSize ≠ 0) (h : Sim devSize w s) :
    ∃ s₁ : Atomic ι, Runs Atomic.Step s [] s₁ ∧
      Sim devSize { w with world := { w.world with dev := flagged w.world.dev } }
        { s₁ with state := s₁.state.setDev (flagged s₁.state.dev) } := by
  by_cases hlate : ∃ v b len, w.world.point v = .load .copied b len ∧
      late w.world.dev b len = true
  · obtain ⟨v, b, len, hv, hlate⟩ := hlate
    have hdev := h.size'
    subst hdev
    have htask := h.tasks v
    rw [hv, taskRel_late hlate] at htask
    obtain ⟨⟨a, hk, rfl, hhandled⟩, hin, hr⟩ := htask
    obtain ⟨hregs, hrx⟩ := (rxRel_late hlate).mp (h.rx.holds_inside hv rfl)
    have hperform := perform_load h.free hsize hin hhandled
    rw [← hk] at hperform
    refine ⟨_, (Runs.refl s).silent (.perform hperform), {
      size := h.size
      size' := loaded_devSize s.state.dev (a % s.state.dev.devSize) len
      intc := (latch_const s.state.dev).2.trans h.intc
      free := ⟨h.free.tx, h.free.rx⟩
      irqs := h.irqs
      tx := ⟨h.tx.guards, txRel_congr (h.tx_alone hv rfl rfl) rfl (latch_queues s.state.dev).2.1 rfl
        h.tx.holds⟩
      rx := ⟨h.rx.guards, ?_⟩
      tasks := fun v' => ?_ }⟩
    · rw [h.rx.guards.user_eq (by rw [hv]; rfl), hv]
      refine (rxRel_taken (not_late_flagged _ _ _)).mpr ⟨hregs, ?_, rfl⟩
      simp only [UartliteRelation.flagged, State.setDev, loaded, hrx]
    · show TaskRel _ (flagged w.world.dev) (w.answer v') (w.world.point v')
        (Function.update s.task v _ v')
      by_cases hv' : v' = v
      · subst hv'
        rw [hv, taskRel_taken (not_late_flagged _ _ _), hr, hregs]
        exact Function.update_self _ _ _
      · rw [Function.update_of_ne hv']
        refine taskRel_flagged (fun b' len' hp => ?_) (h.tasks v')
        refine absurd (h.rx.guards.exclusive ?_ ?_) hv'
        · rw [hp]
          rfl
        · rw [hv]
          rfl
  · have hnone : ∀ v b len, w.world.point v = .load .copied b len →
        ¬ late w.world.dev b len = true := fun v b len hv hl => hlate ⟨v, b, len, hv, hl⟩
    refine ⟨s, .refl s, {
      size := h.size
      size' := h.size'
      intc := h.intc
      free := ⟨h.free.tx, h.free.rx⟩
      irqs := h.irqs
      tx := ⟨h.tx.guards, txRel_flagged h.tx.holds⟩
      rx := ⟨h.rx.guards, rxRel_flagged (fun b len hx => ?_) h.rx.holds⟩
      tasks := fun v => taskRel_flagged (hnone v) (h.tasks v) }⟩
    obtain ⟨v, -, hv⟩ := Option.map_eq_some_iff.mp hx
    exact hnone v b len hv

theorem sim_tick (hsize : devSize ≠ 0) (h : Sim devSize w s) {i : TickAt}
    (hq : w.world.point t = .tick i) (hstep : w.world.next t = some world) :
    Follows devSize w s t world := by
  have htask := h.tasks t
  have hanswer : w.noted (.next t) t = w.answer t := by simp only [Watched.noted, hq]
  rw [hq, ← hanswer] at htask
  unfold World.next at hstep
  rw [hq] at hstep
  cases i with
  | entered =>
    obtain ⟨hfree, rfl⟩ := lockTx_some hstep
    exact moves h hq rfl
      (h.tx.acquire hfree rfl fun hx => hx)
      (h.rx.other hq rfl rfl fun _ hx => hx) htask
  | asking =>
    obtain ⟨hr, hk⟩ := htask
    cases hstep
    have hperform := perform_ask h.free
    rw [← hk, ← hasIRQ_eq h.rx.holds] at hperform
    refine performs rfl rfl hperform {
      size := h.size
      size' := h.size'
      intc := h.intc
      free := h.free
      irqs := h.irqs
      tx := h.tx.proceed hq rfl rfl fun hx => hx
      rx := h.rx.other hq rfl rfl fun _ hx => hx
      tasks := h.tasks_goto hq (fun _ => noted_other) (fun v hv => Function.update_of_ne hv _ _)
        (.inr (.refl _)) (.inr rfl) ?_ }
    simp [TaskRel, hr]
  | answered irq =>
    cases hstep
    exact moves h hq rfl
      (h.tx.release hq rfl rfl fun hx => hx)
      (h.rx.other hq rfl rfl fun _ hx => hx) htask
  | asked irq =>
    obtain ⟨hr, hk⟩ := htask
    cases hstep
    have hperform : (s.task t).perform s.state =
        .ok .drain { s.state with irqs := s.state.irqs ++ [irq] } := by
      rw [hk]
      rfl
    refine performs rfl rfl hperform {
      size := h.size
      size' := h.size'
      intc := h.intc
      free := ⟨h.free.tx, h.free.rx⟩
      irqs := congrArg (· ++ [irq]) h.irqs
      tx := h.tx.other hq rfl rfl fun _ hx => hx
      rx := h.rx.other hq rfl rfl fun _ hx => hx
      tasks := h.tasks_goto hq (fun _ => noted_other) (fun v hv => Function.update_of_ne hv _ _)
        (.inr (.refl _)) (.inr rfl) ?_ }
    simp [TaskRel, hr]
  | draining =>
    obtain ⟨hr, hk⟩ := htask
    obtain ⟨hfree, rfl⟩ := lockTx_some hstep
    have hrel : s.state.handed = w.world.handed ∧ w.world.dev.tx = s.state.dev.tx := by
      have hholds := h.tx.holds
      rw [hfree] at hholds
      exact hholds
    by_cases hempty : w.world.dev.tx = []
    · -- there is nothing to drain, and the thread does not look again
      have hperform := perform_drain h.free
      rw [← hk, emptied_nil (hrel.2.symm.trans hempty)] at hperform
      refine performs rfl rfl hperform {
        size := h.size
        size' := h.size'
        intc := h.intc
        free := h.free
        irqs := h.irqs
        tx := h.tx.acquire hfree rfl fun _ => drains_start hrel.1 hrel.2
        rx := h.rx.other hq rfl rfl fun _ hx => hx
        tasks := h.tasks_goto hq (fun _ => noted_other) (fun v hv => Function.update_of_ne hv _ _)
          (.inr (.refl _)) (.inr rfl) ?_ }
      exact ⟨hr, (Function.update_self _ _ _).trans (if_pos hempty).symm⟩
    · exact moves h hq rfl
        (h.tx.acquire hfree rfl fun _ => drains_start hrel.1 hrel.2)
        (h.rx.other hq rfl rfl fun _ hx => hx) ⟨hr, hk.trans (if_neg hempty).symm⟩
  | locked =>
    obtain ⟨hr, hk⟩ := htask
    have hrel : Drains w.world.dev.tx w.world.handed [] s.state := h.tx.holds_inside hq rfl
    cases htx : w.world.dev.tx with
    | nil =>
      simp only [htx] at hstep
      cases hstep
      rw [htx] at hk hrel
      have hdone : s.task t = .done (w.answer t) := by
        rw [hk, ← hanswer, hr]
        rfl
      exact returns h hq hdone
        (h.tx.release hq rfl rfl fun _ => ⟨hrel.finished.1, htx.trans hrel.finished.2⟩)
        (h.rx.other hq rfl rfl fun _ hx => hx)
    | cons c tx =>
      simp only [htx] at hstep
      cases hstep
      rw [htx] at hrel
      cases tx with
      | cons c' tx =>
        rw [htx] at hk
        refine stays rfl rfl {
          size := h.size
          size' := h.size'
          intc := h.intc
          free := h.free
          irqs := h.irqs
          tx := h.tx.proceed hq rfl rfl fun _ => hrel.pop (List.cons_ne_nil c' tx)
          rx := h.rx.other hq rfl rfl fun _ hx => ?_
          tasks := h.tasks_goto hq (fun _ => noted_other) (fun _ _ => rfl) (.inr ⟨rfl, rfl, rfl⟩)
            (.inl rfl) ⟨hr, hk⟩ }
        exact rxRel_congr (u := w.world.dev) ⟨rfl, rfl, rfl⟩ (.refl s.state.dev) hx
      | nil =>
        -- the queue is empty now, so this is where the flag is set
        obtain ⟨s₁, hruns, h₁⟩ := help hsize h
        have htask₁ : TaskRel devSize (flagged w.world.dev) (w.answer t) (w.world.point t)
            (s₁.task t) := h₁.tasks t
        rw [hq] at htask₁
        have hk₁ : s₁.task t = .drain := by
          rw [htask₁.2, show (flagged w.world.dev).tx = [c] from htx]
          rfl
        have hrel₁ : Drains (flagged w.world.dev).tx w.world.handed []
            (s₁.state.setDev (flagged s₁.state.dev)) := h₁.tx.holds_inside hq rfl
        rw [show (flagged w.world.dev).tx = [c] from htx] at hrel₁
        obtain ⟨hhanded, hqueued⟩ := hrel₁.last
        have hperform := perform_drain (s := s₁.state) ⟨h₁.free.tx, h₁.free.rx⟩
        rw [← hk₁] at hperform
        have hset : (emptied s₁.state).dev.waitACK = true := by
          show (!s₁.state.dev.tx.isEmpty || _) = true
          rw [show s₁.state.dev.tx.isEmpty = false from hqueued]
          rfl
        refine ⟨{
          state := emptied s₁.state
          task := Function.update s₁.task t (.done .void) }, ?_, {
          size := h.size
          size' := h₁.size'
          intc := h₁.intc
          free := ⟨h₁.free.tx, h₁.free.rx⟩
          irqs := h₁.irqs
          tx := h₁.tx.proceed hq rfl rfl fun _ => ⟨rfl, hhanded⟩
          rx := h₁.rx.other hq rfl rfl fun _ hx => ?_
          tasks := h₁.tasks_goto hq (fun _ => noted_other)
            (fun v hv => Function.update_of_ne hv _ _) (.inr ⟨rfl, rfl, rfl⟩) (.inl rfl) ?_ }⟩
        · rw [shown_busy (by simp [World.goto, busy])]
          exact hruns.silent (.perform hperform)
        · exact rxRel_congr (u := flagged w.world.dev) (v := flagged s₁.state.dev)
            ⟨rfl, rfl, rfl⟩ ⟨rfl, rfl, hset.symm⟩ hx
        · exact ⟨hr, (Function.update_self _ _ _).trans (if_pos rfl).symm⟩
  | popped c =>
    cases hstep
    exact stays rfl rfl {
      size := h.size
      size' := h.size'
      intc := h.intc
      free := h.free
      irqs := h.irqs
      tx := h.tx.proceed hq rfl rfl fun hx => hx.hand
      rx := h.rx.other hq rfl rfl fun _ hx => hx
      tasks := h.tasks_goto hq (fun _ => noted_other) (fun _ _ => rfl) (.inr (.refl _)) (.inr rfl)
        htask }

/-! ## Input -/

theorem sim_readInput (h : Sim devSize w s) {i : InputAt} {c : BitVec 8}
    (hq : w.world.point t = .readInput i c) (hstep : w.world.next t = some world) :
    Follows devSize w s t world := by
  have htask := h.tasks t
  have hanswer : w.noted (.next t) t = w.answer t := by simp only [Watched.noted, hq]
  rw [hq, ← hanswer] at htask
  unfold World.next at hstep
  rw [hq] at hstep
  cases i with
  | got =>
    obtain ⟨hfree, rfl⟩ := lockRx_some hstep
    exact moves h hq rfl
      (h.tx.other hq rfl rfl fun _ hx => hx)
      (h.rx.acquire hfree rfl fun hx => hx) htask
  | locked =>
    obtain ⟨hr, hk⟩ := htask
    cases hstep
    have hperform := perform_readInput h.free c
    rw [← hk] at hperform
    refine performs rfl rfl hperform {
      size := h.size
      size' := h.size'
      intc := h.intc
      free := ⟨h.free.tx, h.free.rx⟩
      irqs := h.irqs
      tx := h.tx_other hq rfl rfl rfl rfl rfl rfl
      rx := h.rx.proceed hq rfl rfl fun hx => ⟨hx.regs, congrArg (· ++ [c]) hx.rx, hx.waitACK⟩
      tasks := h.tasks_goto hq (fun _ => noted_other) (fun v hv => Function.update_of_ne hv _ _)
        (.inl rfl) (.inr rfl) ?_ }
    simp [TaskRel, hr]
  | pushed =>
    cases hstep
    rw [hanswer] at htask
    exact returns h hq htask
      (h.tx_other hq rfl rfl rfl rfl rfl rfl)
      (h.rx.release hq rfl rfl fun hx => hx)

/-! ## All steps -/

theorem sim_call (h : Sim devSize w s) (hq : w.world.point t = .idle) {c : Call}
    (hhandled : Handled devSize c) :
    Sim devSize ⟨w.world.goto t (w.world.dev.enter c), w.noted (.call t c)⟩
      { s with task := Function.update s.task t (.enter s.state.dev.intc c) } := by
  obtain ⟨houtTx, houtRx⟩ := enter_outside w.world.dev c
  refine {
    size := h.size
    size' := h.size'
    intc := h.intc
    free := h.free
    irqs := h.irqs
    tx := h.tx.other hq rfl houtTx fun _ hx => hx
    rx := h.rx.other hq rfl houtRx fun _ hx => hx
    tasks := h.tasks_goto hq (fun v hv => ?_) (fun v hv => Function.update_of_ne hv _ _)
      (.inr (.refl _)) (.inr rfl) ?_ }
  · cases c <;> exact Function.update_of_ne hv _ _
  · show TaskRel devSize w.world.dev _ _ (Function.update s.task t (.enter s.state.dev.intc c) t)
    rw [Function.update_self, h.intc]
    cases c with
    | load a len => exact ⟨a, rfl, by rw [h.size], hhandled⟩
    | store a len x => exact ⟨Function.update_self _ _ _, a, rfl, by rw [h.size], hhandled⟩
    | tick =>
      have hanswer : w.noted (.call t .tick) t = .void := Function.update_self _ _ _
      cases hintc : w.world.dev.intc <;> simp [Uartlite.enter, Task.enter, hintc, TaskRel, hanswer]
    | readInput c => exact ⟨Function.update_self _ _ _, rfl⟩

/-- Every step of the threads is answered by calls that are single steps. -/
theorem simulates (hsize : devSize ≠ 0) :
    Simulates (Watched.Step (ι := ι) devSize) Atomic.Step (Sim devSize) := by
  rintro w e w' s h ⟨a, hact, hhandled⟩
  obtain ⟨world, hworld, hw'⟩ := Option.bind_eq_some_iff.mp hact
  cases hw'
  cases a with
  | call t c =>
    unfold World.act at hworld
    dsimp only at hworld
    split at hworld
    · rename_i hq
      cases hworld
      have hidle : s.task t = .idle := by
        have htask := h.tasks t
        rwa [hq] at htask
      exact ⟨_, (Runs.refl s).shown (.call c hidle), sim_call h hq (hhandled t c rfl)⟩
    · cases hworld
  | next t =>
    have hnext : w.world.next t = some world := hworld
    cases hq : w.world.point t with
    | idle =>
      unfold World.next at hnext
      rw [hq] at hnext
      cases hnext
    | load i b len => exact sim_load hsize h hq hnext
    | store i b len x => exact sim_store hsize h hq hnext
    | tick i => exact sim_tick hsize h hq hnext
    | readInput i c => exact sim_readInput h hq hnext

end Steps

/-! ## Interleavings -/

section Interleavings

variable {ι : Type} [DecidableEq ι] {devSize : BitVec 64} {actions : List (World.Action ι)}
  {w w' : Watched ι} {es : List (Event ι)}

theorem runs_of_run (hrun : w.run actions = some (w', es))
    (hhandled : ∀ t c, .call t c ∈ actions → Handled devSize c) :
    Runs (Watched.Step devSize) w es w' := by
  induction actions generalizing w es with
  | nil =>
    cases hrun
    exact .refl _
  | cons a actions ih =>
    obtain ⟨⟨w₁, e⟩, hact, hrun⟩ := Option.bind_eq_some_iff.mp hrun
    obtain ⟨⟨w₂, es₂⟩, hrest, hlast⟩ := Option.bind_eq_some_iff.mp hrun
    cases hlast
    have hstep : Watched.Step devSize w e w₁ :=
      ⟨a, hact, fun t c ha => hhandled t c (ha ▸ List.mem_cons_self ..)⟩
    exact (Runs.single hstep).trans
      (ih hrest fun t c hc => hhandled t c (List.mem_cons_of_mem a hc))

/-- Let the threads interleave in any way, with the stores in the registers and no load beyond them
that is not seen to be. The calls and what they give back, in the order in which they begin and
return, are also what calls show that run each critical section in a single step, with the same
calls of `setInt`. Once no thread is in a call the device is the same, and so is what the stream
has been given. -/
theorem linearizes {world : World ι} {intc : Bool} (hsize : devSize ≠ 0)
    (hhandled : ∀ t c, .call t c ∈ actions → Handled devSize c)
    (hrun : (World.init devSize intc).run actions = some world) :
    ∃ answer es, (Watched.init devSize intc).run actions = some (⟨world, answer⟩, es) ∧
      ∃ s : Atomic ι, Runs Atomic.Step (.init devSize intc) es s ∧ s.state.irqs = world.irqs ∧
        ((∀ t, world.point t = .idle) →
          s.state.dev = world.dev ∧ s.state.handed = world.handed ∧ ∀ t, s.task t = .idle) := by
  obtain ⟨answer, es, hwatched⟩ := watched_run (w := Watched.init devSize intc) hrun
  obtain ⟨s, hruns, hsim⟩ :=
    (simulates hsize).runs (sim_init devSize intc) (runs_of_run hwatched hhandled)
  exact ⟨answer, es, hwatched, s, hruns, hsim.irqs, hsim.device⟩

/-- One thread reads the byte that another has put into the queue. While it has copied the byte
and not yet taken it, a tick asks and finds it. -/
def askedInBetween : List (World.Action Bool) :=
  [.call true (.readInput 0x41), .next true, .next true, .next true,
    .call false (.load 0 1), .next false, .next false, .next false,
    .call true .tick, .next true, .next true, .next true, .next true, .next true, .next true,
    .next false, .next false]

/-- The tick returns before the load. -/
def shownInBetween : List (Event Bool) :=
  [.call true (.readInput 0x41), .ret true .void, .call false (.load 0 1), .call true .tick,
    .ret true .void, .ret false (.loaded 1 0x41)]

theorem linearizes_asked : ∃ s : Atomic Bool,
    Runs Atomic.Step (.init 0x100000 true) shownInBetween s ∧
      s.state.irqs = [true] ∧ s.state.dev.rx = [] ∧ ∀ t, s.task t = .idle := by
  have hhandled : ∀ t c, .call t c ∈ askedInBetween → Handled 0x100000 c := by
    intro t c hc
    simp only [askedInBetween, List.mem_cons, World.Action.call.injEq, reduceCtorEq, false_or,
      List.not_mem_nil, or_false] at hc
    obtain ⟨-, rfl⟩ | ⟨-, rfl⟩ | ⟨-, rfl⟩ := hc
    · trivial
    · exact fun hbeyond => absurd hbeyond (by decide)
    · trivial
  obtain ⟨answer, es, hwatched, s, hruns, hirqs, hidle⟩ :=
    @linearizes Bool _ 0x100000 askedInBetween _ true (by decide) hhandled rfl
  have hes : es = shownInBetween := congrArg Prod.snd (Option.some.inj (hwatched.symm.trans rfl))
  subst hes
  obtain ⟨hdev, -, htasks⟩ := hidle fun t => by cases t <;> rfl
  exact ⟨s, hruns, hirqs, congrArg Uartlite.rx hdev, htasks⟩

end Interleavings

end NextEmu.Device.UartliteLinear
