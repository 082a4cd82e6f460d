import NextEmu.Device.UartliteCalls
import NextEmu.Lib.Histories

/-!
# The calls of the UART as single steps

The threads of `Uartlite` come in between each other at each of its points. What their callers can
see of that is no more than if every critical section were one step that runs the code of
`UartliteCalls`: a load, a store and a turn of `readInput` are one step each, and `tick` is three,
since it asks under the mutex, calls `setInt` without it, and drains under it again.

Most calls have their effect at one of their own points. A load that takes a byte out of the queue
has not: it clears `waitACK` before it takes the byte, a tick of another thread can set the flag in
between, and one that only asks still finds the byte. Such a load counts as done when the tick sets
the flag, and without one when it takes the byte.
-/

namespace NextEmu.Device.UartliteAtomic

open NextEmu.Sdk NextEmu.Lib.AbortState NextEmu.Lib.Mutex NextEmu.Lib.Histories Uartlite
  UartliteFifos UartliteCalls

/-- What a call gives back. -/
inductive Answer
  | void
  | feedback (fb : Feedback)
  | loaded (len : Nat) (buffer : BitVec (8 * len))

/-- What callers see. -/
inductive Event (ι : Type)
  | call (t : ι) (c : Call)
  | ret (t : ι) (a : Answer)

/-! ## The threads -/

/-- The threads, with what their calls will give back as far as it is known. -/
structure Watched (ι : Type) where
  world : World ι
  answer : ι → Answer

namespace Watched

variable {ι : Type}

def init (devSize : BitVec 64) (intc : Bool) : Watched ι where
  world := World.init devSize intc
  answer _ := .void

variable [DecidableEq ι]

/-- A load outside the registers gives back its feedback, one in them what its `memcpy` copies. -/
def noted (w : Watched ι) : World.Action ι → ι → Answer
  | .call t (.store _ _ _) => Function.update w.answer t (.feedback .success)
  | .call t _ => Function.update w.answer t .void
  | .next t =>
    match w.world.point t with
    | .load .locked b len =>
      if outside b len then Function.update w.answer t (.feedback .outOfRange) else w.answer
    | .load .latched b len =>
      Function.update w.answer t (.loaded len (readBytes w.world.dev.regs b.toNat len))
    | _ => w.answer

/-- The step of a thread that leaves it in no call is a return. -/
def shown (w : Watched ι) (world : World ι) : World.Action ι → Option (Event ι)
  | .call t c => some (.call t c)
  | .next t =>
    match world.point t with
    | .idle => some (.ret t (w.answer t))
    | _ => none

def act (w : Watched ι) (a : World.Action ι) : Option (Watched ι × Option (Event ι)) := do
  let world ← w.world.act a
  return ({ world := world, answer := w.noted a }, w.shown world a)

/-- An interleaving, with what it shows. -/
def run (w : Watched ι) : List (World.Action ι) → Option (Watched ι × List (Event ι))
  | [] => some (w, [])
  | a :: actions => do
    let (w, e) ← w.act a
    let (w, es) ← w.run actions
    return (w, e.toList ++ es)

/-- A step in which no call begins that is out of range without being seen to be. -/
def Step (devSize : BitVec 64) (w : Watched ι) (e : Option (Event ι)) (w' : Watched ι) : Prop :=
  ∃ a, w.act a = some (w', e) ∧ ∀ t c, a = .call t c → Handled devSize c

end Watched

/-! ## The calls as single steps -/

/-- What a thread does next. -/
inductive Task
  | idle
  | load (beginAddr : Addr) (len : Nat)
  | store (beginAddr : Addr) (len : Nat) (buffer : BitVec (8 * len))
  | readInput (c : BitVec 8)
  | ask
  | setInt (irq : Bool)
  | drain
  | done (a : Answer)

namespace Task

/-- Where a call begins. -/
def enter (intc : Bool) : Call → Task
  | .load beginAddr len => .load beginAddr len
  | .store beginAddr len buffer => .store beginAddr len buffer
  | .tick => if intc then .ask else .drain
  | .readInput c => .readInput c

/-- The whole of a critical section, and what comes behind it. -/
def perform : Task → M Task
  | .idle => return .idle
  | .load beginAddr len => do
    let (fb, buffer) ← UartliteCalls.load beginAddr len
    return .done (if fb = .success then .loaded len buffer else .feedback fb)
  | .store beginAddr len buffer => do
    let fb ← UartliteCalls.store beginAddr len buffer
    return .done (.feedback fb)
  | .readInput c => do
    UartliteCalls.readInput c
    return .done .void
  | .ask => do
    let irq ← UartliteCalls.hasIRQ
    return .setInt irq
  | .setInt irq => do
    modify fun s => { s with irqs := s.irqs ++ [irq] }
    return .drain
  | .drain => do
    lockTx
    UartliteCalls.drain (← get).dev.tx
    unlockTx
    return .done .void
  | .done a => return .done a

end Task

structure Atomic (ι : Type) where
  state : State
  task : ι → Task

namespace Atomic

variable {ι : Type}

def init (devSize : BitVec 64) (intc : Bool) : Atomic ι where
  state := State.init devSize intc
  task _ := .idle

variable [DecidableEq ι]

inductive Step : Atomic ι → Option (Event ι) → Atomic ι → Prop
  | call {s : Atomic ι} {t : ι} (c : Call) (h : s.task t = .idle) :
    Step s (some (.call t c))
      { s with task := Function.update s.task t (.enter s.state.dev.intc c) }
  | perform {s : Atomic ι} {t : ι} {k : Task} {state : State}
      (h : (s.task t).perform s.state = .ok k state) :
    Step s none { state := state, task := Function.update s.task t k }
  | ret {s : Atomic ι} {t : ι} {a : Answer} (h : s.task t = .done a) :
    Step s (some (.ret t a)) { s with task := Function.update s.task t .idle }

end Atomic

/-- Every interleaving can be watched. -/
theorem watched_run {ι : Type} [DecidableEq ι] {actions : List (World.Action ι)} {w : Watched ι}
    {world : World ι} (hrun : w.world.run actions = some world) :
    ∃ answer es, w.run actions = some (⟨world, answer⟩, es) := by
  induction actions generalizing w with
  | nil =>
    cases hrun
    exact ⟨w.answer, [], rfl⟩
  | cons a actions ih =>
    unfold World.run at hrun
    rw [List.foldlM_cons] at hrun
    obtain ⟨world₁, hact, hrest⟩ := Option.bind_eq_some_iff.mp hrun
    obtain ⟨answer, es, hwatched⟩ := ih (w := ⟨world₁, w.noted a⟩) hrest
    refine ⟨answer, (w.shown world₁ a).toList ++ es, ?_⟩
    simp [Watched.run, Watched.act, hact, hwatched]

/-! ## The critical sections as single steps -/

section Perform

variable {s : State} {a : Addr} {len : Nat} {x : BitVec (8 * len)}

theorem perform_load (hfree : Free s) (hsize : s.dev.devSize ≠ 0)
    (hin : outside (a % s.dev.devSize) len = false)
    (hhandled : Handled s.dev.devSize (.load a len)) :
    (Task.load a len).perform s = .ok
      (.done (.loaded len (readBytes s.dev.latch.regs (a % s.dev.devSize).toNat len)))
      (s.setDev (loaded s.dev (a % s.dev.devSize) len)) := by
  have hfits : (a % s.dev.devSize).toNat + len ≤ regSize := by
    by_contra hbeyond
    exact Bool.false_ne_true (hin.symm.trans (hhandled (Nat.lt_of_not_le hbeyond)))
  simp only [Task.perform]
  rw [bind_of_ok (load_inside hfree hsize hin hfits)]
  rfl

theorem perform_outside (hfree : Free s) (hsize : s.dev.devSize ≠ 0)
    (hout : outside (a % s.dev.devSize) len = true) :
    (Task.load a len).perform s = .ok (.done (.feedback .outOfRange)) s := by
  simp only [Task.perform]
  rw [bind_of_ok (load_outside hfree hsize hout)]
  rfl

theorem perform_store (hfree : Free s) (hsize : s.dev.devSize ≠ 0)
    (hhandled : Handled s.dev.devSize (.store a len x)) :
    (Task.store a len x).perform s = .ok (.done (.feedback .success))
      (s.setDev (written s.dev (a % s.dev.devSize) len x)) := by
  simp only [Task.perform]
  rw [bind_of_ok (store_inside hfree hsize (outside_of_fits hhandled) hhandled)]
  rfl

theorem perform_readInput (hfree : Free s) (c : BitVec 8) :
    (Task.readInput c).perform s = .ok (.done .void) (s.setDev (received s.dev c)) := by
  simp only [Task.perform]
  rw [bind_of_ok (readInput_ok hfree c)]
  rfl

theorem perform_ask (hfree : Free s) : Task.ask.perform s = .ok (.setInt s.dev.hasIRQ) s := by
  simp only [Task.perform]
  rw [bind_of_ok (hasIRQ_ok hfree)]
  rfl

/-- The device behind a drain. -/
def emptied (s : State) : State :=
  { s with
    dev := { s.dev with tx := [], waitACK := !s.dev.tx.isEmpty || s.dev.waitACK }
    handed := s.handed ++ s.dev.tx }

theorem perform_drain (hfree : Free s) : Task.drain.perform s = .ok (.done .void) (emptied s) := by
  simp only [Task.perform]
  rw [bind_of_ok (lockTx_ok hfree.tx), bind_of_ok (run_get _), bind_of_ok (drain_ok _ _ rfl)]
  show EStateM.Result.ok _ { s with
    dev := { s.dev with tx := [], waitACK := !s.dev.tx.isEmpty || s.dev.waitACK }
    txMutex := false
    handed := s.handed ++ s.dev.tx } = _
  unfold emptied
  rw [hfree.tx]

end Perform

end NextEmu.Device.UartliteAtomic
