import Mathlib.Algebra.Order.Ring.Int

/-!
# The thread pool

`sdk/base/ThreadPool.h`. Every worker has a thread, and any number of threads call
`asyncRunTask`. Tasks are numbered in the order in which they are assigned. A condition variable
wakes who sleeps in it and nobody else, and may wake without being asked; `try_lock` may fail
without a reason. Destruction is left out, so `exit` stays false.
-/

namespace NextEmu.Sdk

namespace ThreadPool

/-- Points of a worker's thread: the next it does is
* `locking`: take `runMutex`,
* `testing`: evaluate the predicate of `wait`,
* `parking`: release `runMutex` and sleep, in one step,
* `asleep`: nothing until it is woken,
* `woken`: take `runMutex` again,
* `ready`: run the task,
* `ran`: clear `start`,
* `cleared`: unlock `ownershipMutex`,
* `leaving`: release `runMutex` at the end of the turn. -/
inductive WorkerAt
  | locking
  | testing
  | parking
  | asleep
  | woken
  | ready
  | ran
  | cleared
  | leaving
  deriving DecidableEq, Repr

structure Worker where
  ownershipMutex : Bool
  start : Bool
  runMutex : Bool
  task : Option Nat
  point : WorkerAt
  deriving DecidableEq, Repr

namespace Worker

/-- The constructor, with the thread that it starts. -/
def init : Worker where
  ownershipMutex := false
  start := false
  runMutex := false
  task := none
  point := .locking

/-- `runCond.wait` has been told to go on. -/
def notify (x : Worker) : Worker := if x.point = .asleep then { x with point := .woken } else x

/-- The next step of the worker's thread. -/
def next (x : Worker) : Option Worker :=
  match x.point with
  | .locking | .woken =>
    if x.runMutex then none else some { x with runMutex := true, point := .testing }
  | .testing => some { x with point := if x.start then .ready else .parking }
  | .parking => some { x with runMutex := false, point := .asleep }
  | .asleep => none
  | .ready => if x.task.isSome then some { x with point := .ran } else none
  | .ran => some { x with start := false, point := .cleared }
  | .cleared => some { x with ownershipMutex := false, point := .leaving }
  | .leaving => some { x with runMutex := false, point := .locking }

end Worker

/-- Points of `asyncRunTask`. After `finding` the worker is acquired; then its task is assigned,
`start` is checked by the assertion and set, and the worker is notified. -/
inductive CallerAt (poolSize : Nat)
  | idle
  | entered
  | finding (workerIdx : BitVec 64)
  | acquired (i : Fin poolSize)
  | assigned (i : Fin poolSize)
  | checked (i : Fin poolSize)
  | started (i : Fin poolSize)
  | notified (i : Fin poolSize)
  deriving DecidableEq

end ThreadPool

open ThreadPool in
/-- The pool with its workers and the threads `ι` that call it. -/
structure ThreadPool (poolSize : Nat) (ι : Type) where
  poolMutex : Option ι
  pool : Fin poolSize → Worker
  caller : ι → CallerAt poolSize
  /-- How many tasks have been assigned. -/
  assigned : Nat
  /-- The tasks that have run. -/
  ran : List Nat

namespace ThreadPool

variable {poolSize : Nat} {ι : Type}

def init (poolSize : Nat) (ι : Type) : ThreadPool poolSize ι where
  poolMutex := none
  pool _ := .init
  caller _ := .idle
  assigned := 0
  ran := []

def setWorker (w : ThreadPool poolSize ι) (i : Fin poolSize) (x : Worker) :
    ThreadPool poolSize ι :=
  { w with pool := Function.update w.pool i x }

variable [DecidableEq ι]

def goto (w : ThreadPool poolSize ι) (c : ι) (p : CallerAt poolSize) : ThreadPool poolSize ι :=
  { w with caller := Function.update w.caller c p }

variable [NeZero poolSize]

/-- `pool[worker_idx % pool_size]`. -/
def slot (poolSize : Nat) [NeZero poolSize] (workerIdx : BitVec 64) : Fin poolSize :=
  Fin.ofNat poolSize workerIdx.toNat

/-- The next step of a thread in `asyncRunTask`; one that is not in it calls it. -/
def nextCaller (w : ThreadPool poolSize ι) (c : ι) : Option (ThreadPool poolSize ι) :=
  match w.caller c with
  | .idle => some (w.goto c .entered)
  | .entered =>
    if w.poolMutex.isNone then some { w.goto c (.finding 0) with poolMutex := some c } else none
  | .finding workerIdx =>
    let i := slot poolSize workerIdx
    if (w.pool i).ownershipMutex then some (w.goto c (.finding (workerIdx + 1)))
    else some ((w.setWorker i { w.pool i with ownershipMutex := true }).goto c (.acquired i))
  | .acquired i =>
    some { (w.setWorker i { w.pool i with task := some w.assigned }).goto c (.assigned i) with
      assigned := w.assigned + 1 }
  | .assigned i => if (w.pool i).start then none else some (w.goto c (.checked i))
  | .checked i => some ((w.setWorker i { w.pool i with start := true }).goto c (.started i))
  | .started i => some ((w.setWorker i (w.pool i).notify).goto c (.notified i))
  | .notified _ => some { w.goto c .idle with poolMutex := none }

/-- The next step of a worker's thread. -/
def nextWorker (w : ThreadPool poolSize ι) (i : Fin poolSize) : Option (ThreadPool poolSize ι) :=
  (w.pool i).next.map fun x =>
    { w.setWorker i x with
      ran := if (w.pool i).point = .ready then w.ran ++ (w.pool i).task.toList else w.ran }

/-- What happens next. -/
inductive Action (poolSize : Nat) (ι : Type)
  | caller (c : ι)
  | worker (i : Fin poolSize)
  | wake (i : Fin poolSize)
  | refuse (c : ι)
  deriving DecidableEq

def act (w : ThreadPool poolSize ι) : Action poolSize ι → Option (ThreadPool poolSize ι)
  | .caller c => w.nextCaller c
  | .worker i => w.nextWorker i
  | .wake i => some (w.setWorker i (w.pool i).notify)
  | .refuse c =>
    match w.caller c with
    | .finding workerIdx => some (w.goto c (.finding (workerIdx + 1)))
    | _ => none

/-- An interleaving. -/
def run (w : ThreadPool poolSize ι) (actions : List (Action poolSize ι)) :
    Option (ThreadPool poolSize ι) := actions.foldlM act w

end ThreadPool

end NextEmu.Sdk
