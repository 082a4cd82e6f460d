import NextEmu.Device.UartliteAtomic

/-!
# What the threads have in common with the single steps

At each point of a thread its call has had its effect or not, and the device is behind the one of
the single steps by what the owners of the mutexes have begun. Both change only where a thread is
inside a mutex, so that what another thread relies on stays.
-/

namespace NextEmu.Device.UartliteRelation

open NextEmu.Sdk NextEmu.Lib.Mutex Uartlite UartliteFifos UartliteCalls UartliteAtomic

/-- The registers, the receive queue and the flag are the same. -/
structure SameRx (u v : Uartlite) : Prop where
  regs : u.regs = v.regs
  rx : u.rx = v.rx
  waitACK : u.waitACK = v.waitACK

section

variable {u v : Uartlite}

theorem SameRx.refl (u : Uartlite) : SameRx u u := ⟨rfl, rfl, rfl⟩

theorem SameRx.symm (h : SameRx u v) : SameRx v u := ⟨h.regs.symm, h.rx.symm, h.waitACK.symm⟩

theorem SameRx.trans {e : Uartlite} (h : SameRx u v) (h' : SameRx v e) : SameRx u e :=
  ⟨h.regs.trans h'.regs, h.rx.trans h'.rx, h.waitACK.trans h'.waitACK⟩

theorem SameRx.latch (h : SameRx u v) : SameRx u.latch v.latch := by
  obtain ⟨hregs, hrx, hflag⟩ := h
  unfold Uartlite.latch
  rw [hrx]
  split <;> exact ⟨by simp [setReg, reg, hregs], hrx, hflag⟩

end

/-- The load has copied a byte that it still has to take, and no tick has set the flag since. -/
def late (u : Uartlite) (b : Addr) (len : Nat) : Bool :=
  accessed b len rxFifo && !u.rx.isEmpty && !u.waitACK

/-- What is under `rxMutex`, with the owner where it is. -/
def RxRel (u v : Uartlite) : Option Point → Prop
  | some (.load .latched _ _) => SameRx u v.latch
  | some (.load .copied b len) =>
    if late u b len then u.regs = v.latch.regs ∧ u.rx = v.rx
    else SameRx { u with rx := if accessed b len rxFifo then u.rx.tail else u.rx } v
  | some (.store .copied b len x) | some (.store .pushed b len x) =>
    SameRx u { v with regs := writeBytes v.regs b.toNat len x }
  | _ => SameRx u v

/-- A tick has `pending` in its hand. It counts as done when it has taken the last byte. -/
def Drains (tx handed pending : List (BitVec 8)) (s : State) : Prop :=
  if tx = [] then s.dev.tx = [] ∧ s.handed = handed ++ pending
  else ∃ before, handed = s.handed ++ before ∧ s.dev.tx = before ++ (pending ++ tx)

/-- What is under `txMutex`, with the owner where it is. -/
def TxRel (u : Uartlite) (handed : List (BitVec 8)) (s : State) : Option Point → Prop
  | some (.tick .locked) => Drains u.tx handed [] s
  | some (.tick (.popped c)) => Drains u.tx handed [c] s
  | some (.store .pushed b len _) => s.handed = handed ∧
    u.tx = if accessed b len txFifo then s.dev.tx ++ [(u.reg txFifo).setWidth 8] else s.dev.tx
  | _ => s.handed = handed ∧ u.tx = s.dev.tx

/-- The task is the load or the store that a thread is in. -/
def Loads (devSize : BitVec 64) (b : Addr) (len : Nat) (k : Task) : Prop :=
  ∃ a, k = .load a len ∧ b = a % devSize ∧ Handled devSize (.load a len)

def Stores (devSize : BitVec 64) (b : Addr) (len : Nat) (x : BitVec (8 * len)) (k : Task) : Prop :=
  ∃ a, k = .store a len x ∧ b = a % devSize ∧ Handled devSize (.store a len x)

/-- What a thread at the point has still to do, and what it will give back. -/
def TaskRel (devSize : BitVec 64) (u : Uartlite) (r : Answer) : Point → Task → Prop
  | .idle, k => k = .idle
  | .load .entered b len, k | .load .locked b len, k => Loads devSize b len k
  | .load .latched b len, k => Loads devSize b len k ∧ outside b len = false
  | .load .copied b len, k =>
    if late u b len then Loads devSize b len k ∧ outside b len = false ∧
      r = .loaded len (readBytes u.regs b.toNat len)
    else k = .done r
  | .load .done _ _, k => k = .done r
  | .store .done _ _ _, k | .store .txUnlocked _ _ _, k => k = .done r
  | .store _ b len x, k => r = .feedback .success ∧ Stores devSize b len x k
  | .tick .entered, k | .tick .asking, k => r = .void ∧ k = .ask
  | .tick (.answered irq), k | .tick (.asked irq), k => r = .void ∧ k = .setInt irq
  | .tick .draining, k => r = .void ∧ k = .drain
  | .tick .locked, k | .tick (.popped _), k =>
    r = .void ∧ k = if u.tx = [] then .done .void else .drain
  | .readInput .pushed _, k => k = .done r
  | .readInput _ c, k => r = .void ∧ k = .readInput c

structure Sim {ι : Type} (devSize : BitVec 64) (w : Watched ι) (s : Atomic ι) : Prop where
  size : w.world.dev.devSize = devSize
  size' : s.state.dev.devSize = devSize
  intc : s.state.dev.intc = w.world.dev.intc
  free : Free s.state
  irqs : s.state.irqs = w.world.irqs
  tx : Protects insideTx (TxRel w.world.dev w.world.handed s.state) w.world.txMutex w.world.point
  rx : Protects insideRx (RxRel w.world.dev s.state.dev) w.world.rxMutex w.world.point
  tasks : ∀ t, TaskRel devSize w.world.dev (w.answer t) (w.world.point t) (s.task t)

/-! ## What threads rely on -/

section Steps

variable {ι : Type} [DecidableEq ι] {devSize : BitVec 64} {w : Watched ι} {s : Atomic ι}
  {t v : ι} {p q : Point} {k : Task}

/-- A thread relies on what its mutexes protect, and on nothing else. -/
theorem taskRel_congr {u u' : Uartlite} {r : Answer} (h : TaskRel devSize u r p k)
    (hrx : insideRx p = true → SameRx u' u) (htx : insideTx p = true → u'.tx = u.tx) :
    TaskRel devSize u' r p k := by
  cases p with
  | load i b len =>
    cases i with
    | copied =>
      obtain ⟨hregs, hqueue, hflag⟩ := hrx rfl
      have hlate : late u' b len = late u b len := by simp only [late, hqueue, hflag]
      simpa only [TaskRel, hlate, hregs] using h
    | entered | locked | latched | done => exact h
  | store i b len x => cases i <;> exact h
  | tick i =>
    cases i with
    | locked | popped c => simpa only [TaskRel, htx rfl] using h
    | entered | asking | answered irq | asked irq | draining => exact h
  | readInput i c => cases i <;> exact h
  | idle => exact h

theorem noted_other (hv : v ≠ t) : w.noted (.next t) v = w.answer v := by
  cases hp : w.world.point t with
  | load i b len =>
    cases i with
    | locked =>
      simp only [Watched.noted, hp]
      split <;> simp [hv]
    | latched => simp [Watched.noted, hp, hv]
    | entered | copied | done => simp only [Watched.noted, hp]
  | idle | store | tick | readInput => simp only [Watched.noted, hp]

/-- A step of `t` leaves the others where they are with what they have to do. -/
theorem Sim.tasks_goto (h : Sim devSize w s) (hq : w.world.point t = q) {u : Uartlite}
    {answer : ι → Answer} {task : ι → Task} (hanswer : ∀ v, v ≠ t → answer v = w.answer v)
    (htask : ∀ v, v ≠ t → task v = s.task v) (hrx : insideRx q = true ∨ SameRx u w.world.dev)
    (htx : insideTx q = true ∨ u.tx = w.world.dev.tx)
    (hself : TaskRel devSize u (answer t) p (task t)) (v : ι) :
    TaskRel devSize u (answer v) (Function.update w.world.point t p v) (task v) := by
  by_cases hv : v = t
  · subst hv
    rwa [Function.update_self]
  · rw [Function.update_of_ne hv, hanswer v hv, htask v hv]
    apply taskRel_congr (h.tasks v)
    · intro hin
      exact hrx.resolve_left fun hq' => hv (h.rx.guards.exclusive hin (hq ▸ hq'))
    · intro hin
      exact htx.resolve_left fun hq' => hv (h.tx.guards.exclusive hin (hq ▸ hq'))

section Congr

variable {u u' v v' : Uartlite} {handed : List (BitVec 8)} {x : Option Point}

theorem latch_const (u : Uartlite) :
    u.latch.waitACK = u.waitACK ∧ u.latch.intc = u.intc := by
  unfold Uartlite.latch
  split <;> exact ⟨rfl, rfl⟩

theorem rxRel_congr (hu : SameRx u' u) (hv : SameRx v v') (h : RxRel u v x) : RxRel u' v' x := by
  have hsame : SameRx u v → SameRx u' v' := fun h => (hu.trans h).trans hv
  obtain ⟨hregs, hrx, hflag⟩ := hu
  cases x with
  | none => exact hsame h
  | some p =>
    cases p with
    | load i b len =>
      cases i with
      | latched => exact (SameRx.trans ⟨hregs, hrx, hflag⟩ h).trans hv.latch
      | copied =>
        have hlate : late u' b len = late u b len := by simp only [late, hrx, hflag]
        unfold RxRel at h ⊢
        dsimp only at h ⊢
        rw [hlate]
        split
        · rename_i hcase
          rw [if_pos hcase] at h
          exact ⟨(hregs.trans h.1).trans hv.latch.regs, (hrx.trans h.2).trans hv.rx⟩
        · rename_i hcase
          rw [if_neg hcase] at h
          have hboth := h.trans hv
          refine ⟨hregs.trans hboth.regs, ?_, hflag.trans hboth.waitACK⟩
          rw [← hboth.rx]
          simp only [hrx]
      | entered | locked | done => exact hsame h
    | store i b len y =>
      cases i with
      | copied | pushed =>
        exact ⟨by rw [hregs, h.regs, hv.regs], (hrx.trans h.rx).trans hv.rx,
          (hflag.trans h.waitACK).trans hv.waitACK⟩
      | entered | txLocked | locked | done | txUnlocked => exact hsame h
    | idle | tick | readInput => exact hsame h

/-- Only a store that has pushed its byte has a register in what it relies on of the queue. -/
theorem txRel_congr {s s' : State} (hx : ∀ p, x = some p → insideRx p = false)
    (hu : u'.tx = u.tx) (htx : s'.dev.tx = s.dev.tx) (hhanded : s'.handed = s.handed)
    (h : TxRel u handed s x) : TxRel u' handed s' x := by
  have hsame : s.handed = handed ∧ u.tx = s.dev.tx → s'.handed = handed ∧ u'.tx = s'.dev.tx := by
    intro h
    rw [hu, htx, hhanded]
    exact h
  cases x with
  | none => exact hsame h
  | some p =>
    cases p with
    | tick i =>
      cases i with
      | locked | popped c => simpa only [TxRel, Drains, hu, htx, hhanded] using h
      | entered | asking | answered irq | asked irq | draining => exact hsame h
    | store i b len y =>
      cases i with
      | pushed => exact absurd (hx _ rfl) Bool.true_eq_false.mp
      | entered | txLocked | locked | copied | done | txUnlocked => exact hsame h
    | idle | load | readInput => exact hsame h

end Congr

omit [DecidableEq ι] in
/-- Who has the other mutex alone while `t` is under `rxMutex`. -/
theorem Sim.tx_alone (h : Sim devSize w s) (hq : w.world.point t = q) (hrx : insideRx q = true)
    (htx : insideTx q = false) (p : Point) (hp : user w.world.txMutex w.world.point = some p) :
    insideRx p = false := by
  obtain ⟨v, hv, rfl⟩ := Option.map_eq_some_iff.mp hp
  have hin := (h.tx.guards v).mpr hv
  refine Bool.eq_false_iff.mpr fun hin' => ?_
  have heq := h.rx.guards.exclusive hin' (hq ▸ hrx)
  subst heq
  rw [hq, htx] at hin
  cases hin

/-- What is under `txMutex` when a thread under `rxMutex` alone moves. -/
theorem Sim.tx_other (h : Sim devSize w s) (hq : w.world.point t = q) (hrx : insideRx q = true)
    (htx : insideTx q = false) (hp : insideTx p = false) {u : Uartlite} {s' : State}
    (hu : u.tx = w.world.dev.tx) (hs : s'.dev.tx = s.state.dev.tx)
    (hhanded : s'.handed = s.state.handed) :
    Protects insideTx (TxRel u w.world.handed s') w.world.txMutex
      (Function.update w.world.point t p) where
  guards := h.tx.guards.move (by rw [hq, hp, htx])
  holds := by
    rw [h.tx.guards.user_outside (hq ▸ htx)]
    exact txRel_congr (h.tx_alone hq hrx htx) hu hs hhanded h.tx.holds

/-! ## The ends of a run -/

omit [DecidableEq ι] in
theorem sim_init (devSize : BitVec 64) (intc : Bool) :
    Sim devSize (Watched.init (ι := ι) devSize intc) (Atomic.init devSize intc) where
  size := rfl
  size' := rfl
  intc := rfl
  free := ⟨rfl, rfl⟩
  irqs := rfl
  tx := ⟨guards_free fun _ => rfl, ⟨rfl, rfl⟩⟩
  rx := ⟨guards_free fun _ => rfl, .refl _⟩
  tasks _ := rfl

omit [DecidableEq ι] in
/-- While no thread is in a call both have the same device. -/
theorem Sim.device (h : Sim devSize w s) (hidle : ∀ t, w.world.point t = .idle) :
    s.state.dev = w.world.dev ∧ s.state.handed = w.world.handed ∧ ∀ t, s.task t = .idle := by
  have hfree : ∀ {inside : Point → Bool} {R : Option Point → Prop} {owner : Option ι},
      inside .idle = false → Protects inside R owner w.world.point → R none := by
    intro inside R owner hout hprotects
    cases owner with
    | none => exact hprotects.holds
    | some t =>
      have hin := (hprotects.guards t).mpr rfl
      rw [hidle t, hout] at hin
      cases hin
  obtain ⟨hhanded, htx⟩ := hfree rfl h.tx
  obtain ⟨hregs, hrx, hflag⟩ := hfree rfl h.rx
  refine ⟨?_, hhanded, fun t => ?_⟩
  · have hsize := h.size'.trans h.size.symm
    have hintc := h.intc
    generalize s.state.dev = u at *
    generalize w.world.dev = v at *
    cases u
    cases v
    simp only at hregs hrx hflag htx hsize hintc
    simp only [hregs, hrx, hflag, htx, hsize, hintc]
  · have htask := h.tasks t
    rwa [hidle t] at htask

/-! ## A load that has copied its byte -/

section Late

variable {u u' : Uartlite} {b : Addr} {len : Nat} {r : Answer}

theorem rxRel_late (h : late u b len = true) : RxRel u u' (some (.load .copied b len)) ↔
    u.regs = u'.latch.regs ∧ u.rx = u'.rx := by
  simp only [RxRel, h, if_true]

theorem rxRel_taken (h : ¬ late u b len = true) : RxRel u u' (some (.load .copied b len)) ↔
    SameRx { u with rx := if accessed b len rxFifo then u.rx.tail else u.rx } u' := by
  simp only [RxRel, h, if_false, Bool.false_eq_true]

theorem taskRel_late (h : late u b len = true) : TaskRel devSize u r (.load .copied b len) k ↔
    Loads devSize b len k ∧ outside b len = false ∧
      r = .loaded len (readBytes u.regs b.toNat len) := by
  simp only [TaskRel, h, if_true]

theorem taskRel_taken (h : ¬ late u b len = true) :
    TaskRel devSize u r (.load .copied b len) k ↔ k = .done r := by
  simp only [TaskRel, h, if_false, Bool.false_eq_true]

end Late

/-! ## The flag -/

def flagged (u : Uartlite) : Uartlite := { u with waitACK := true }

section Flag

variable {u u' : Uartlite} {x : Option Point}

theorem latch_flagged (u : Uartlite) : (flagged u).latch = flagged u.latch := by
  unfold Uartlite.latch flagged
  dsimp only
  split <;> rfl

theorem SameRx.flagged (h : SameRx u u') : SameRx (flagged u) (flagged u') := ⟨h.regs, h.rx, rfl⟩

theorem not_late_flagged (u : Uartlite) (b : Addr) (len : Nat) :
    ¬ late (flagged u) b len = true := by
  simp [late, UartliteRelation.flagged]

theorem rxRel_flagged (hlate : ∀ b len, x = some (.load .copied b len) → ¬ late u b len = true)
    (h : RxRel u u' x) : RxRel (flagged u) (flagged u') x := by
  cases x with
  | none => exact SameRx.flagged h
  | some p =>
    cases p with
    | load i b len =>
      cases i with
      | latched =>
        have hlatched : SameRx (flagged u) (flagged u').latch := by
          rw [latch_flagged]
          exact SameRx.flagged h
        exact hlatched
      | copied =>
        rw [rxRel_taken (hlate b len rfl)] at h
        exact (rxRel_taken (not_late_flagged u b len)).mpr ⟨h.regs, h.rx, rfl⟩
      | entered | locked | done => exact SameRx.flagged h
    | store i b len y =>
      cases i with
      | copied | pushed => exact ⟨h.regs, h.rx, rfl⟩
      | entered | txLocked | locked | done | txUnlocked => exact SameRx.flagged h
    | idle | tick | readInput => exact SameRx.flagged h

theorem txRel_flagged {handed : List (BitVec 8)} {s : State} (h : TxRel u handed s x) :
    TxRel (flagged u) handed (s.setDev (flagged s.dev)) x := by
  cases x with
  | none => exact h
  | some p =>
    cases p with
    | tick i => cases i <;> exact h
    | store i b len y => cases i <;> exact h
    | idle | load | readInput => exact h

theorem taskRel_flagged {r : Answer}
    (hlate : ∀ b len, p = .load .copied b len → ¬ late u b len = true)
    (h : TaskRel devSize u r p k) : TaskRel devSize (flagged u) r p k := by
  cases p with
  | load i b len =>
    cases i with
    | copied =>
      rw [taskRel_taken (hlate b len rfl)] at h
      exact (taskRel_taken (not_late_flagged u b len)).mpr h
    | entered | locked | latched | done => exact h
  | store i b len x => cases i <;> exact h
  | tick i => cases i <;> exact h
  | readInput i c => cases i <;> exact h
  | idle => exact h

/-- The threads and the device agree on whether to ask, wherever a load is. -/
theorem hasIRQ_eq (h : RxRel u u' x) : u.hasIRQ = u'.hasIRQ := by
  have hsame : ∀ v : Uartlite, SameRx u v → u.hasIRQ = v.hasIRQ := by
    intro v h
    simp only [Uartlite.hasIRQ, h.rx, h.waitACK]
  cases x with
  | none => exact hsame _ h
  | some p =>
    cases p with
    | load i b len =>
      cases i with
      | latched =>
        have hlatched := hsame _ h
        simpa only [Uartlite.hasIRQ, latch_rx, (latch_const u').1] using hlatched
      | copied =>
        by_cases hlate : late u b len = true
        · -- the byte that the load will take is still there
          obtain ⟨-, hrx⟩ := (rxRel_late hlate).mp h
          simp only [late, Bool.and_eq_true] at hlate
          simp only [Uartlite.hasIRQ, ← hrx, hlate.1.2, Bool.true_or]
        · obtain ⟨-, hrx, hflag⟩ := (rxRel_taken hlate).mp h
          simp only [Uartlite.hasIRQ, ← hrx, ← hflag]
          cases hacc : accessed b len rxFifo with
          | false => simp
          | true =>
            cases hqueue : u.rx with
            | nil => simp
            | cons c rest =>
              have hset : u.waitACK = true := by simpa [late, hacc, hqueue] using hlate
              simp [hset]
      | entered | locked | done => exact hsame _ h
    | store i b len y =>
      cases i with
      | copied | pushed => simp only [Uartlite.hasIRQ, h.rx, h.waitACK]
      | entered | txLocked | locked | done | txUnlocked => exact hsame _ h
    | idle | tick | readInput => exact hsame _ h

end Flag

end Steps

/-! ## The queue of a tick -/

section Drains

variable {tx handed : List (BitVec 8)} {c : BitVec 8} {s : State}

theorem drains_start (hhanded : s.handed = handed) (htx : tx = s.dev.tx) :
    Drains tx handed [] s := by
  unfold Drains
  split
  · rename_i hempty
    exact ⟨htx.symm.trans hempty, by rw [hhanded, List.append_nil]⟩
  · exact ⟨[], by rw [hhanded, List.append_nil], htx.symm⟩

theorem Drains.pop (h : Drains (c :: tx) handed [] s) (hne : tx ≠ []) : Drains tx handed [c] s := by
  unfold Drains at h ⊢
  rw [if_neg (List.cons_ne_nil c tx)] at h
  rw [if_neg hne]
  exact h

/-- With the last byte the whole queue has been taken. -/
theorem Drains.last (h : Drains [c] handed [] s) :
    s.handed ++ s.dev.tx = handed ++ [c] ∧ s.dev.tx.isEmpty = false := by
  unfold Drains at h
  rw [if_neg (List.cons_ne_nil c [])] at h
  obtain ⟨before, hhanded, htx⟩ := h
  rw [htx, hhanded]
  exact ⟨(List.append_assoc _ _ _).symm, by simp⟩

theorem Drains.hand (h : Drains tx handed [c] s) : Drains tx (handed ++ [c]) [] s := by
  unfold Drains at h ⊢
  split
  · rename_i hempty
    rw [if_pos hempty] at h
    exact ⟨h.1, by rw [h.2, List.append_nil]⟩
  · rename_i hne
    rw [if_neg hne] at h
    obtain ⟨before, hhanded, htx⟩ := h
    refine ⟨before ++ [c], ?_, ?_⟩
    · rw [hhanded, List.append_assoc]
    · rw [htx]
      exact (List.append_assoc before [c] tx).symm

theorem Drains.finished (h : Drains [] handed [] s) : s.handed = handed ∧ [] = s.dev.tx := by
  obtain ⟨htx, hhanded⟩ := (if_pos rfl).mp h
  exact ⟨hhanded.trans (List.append_nil handed), htx.symm⟩

theorem emptied_nil (h : s.dev.tx = []) : emptied s = s := by
  obtain ⟨⟨regs, size, tx, rx, flag, intc⟩, txMutex, rxMutex, irqs, handed⟩ := s
  cases h
  simp [emptied]

end Drains

end NextEmu.Device.UartliteRelation
