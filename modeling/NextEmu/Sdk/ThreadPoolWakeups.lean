import NextEmu.Sdk.ThreadPool
import NextEmu.Lib.Mutex

/-!
# Tasks and wake-ups of the thread pool

`poolMutex` leaves one caller that can do anything to a worker, so where its owner is and where
the thread of the worker is say together who has the worker and whether its task is still to run.
No task is run twice or overwritten, in any interleaving. But a caller sets `start` and notifies
without `runMutex`: if it notifies between the predicate, which was false, and the sleep, nobody
wakes the worker.
-/

namespace NextEmu.Sdk.ThreadPool

open NextEmu.Lib.Mutex

/-- The points of a caller at which it has `poolMutex`. -/
def inPool {poolSize : Nat} : CallerAt poolSize → Bool
  | .idle | .entered => false
  | _ => true

/-- What the owner of `poolMutex` is doing with a worker: it has acquired it, it has assigned its
task, or it has yet to notify it. -/
inductive Hold
  | none
  | taken
  | loaded
  | notifying
  deriving DecidableEq, Repr

section Holds

variable {poolSize : Nat}

def holdOf (i : Fin poolSize) : Option (CallerAt poolSize) → Hold
  | some (.acquired j) => if j = i then .taken else .none
  | some (.assigned j) | some (.checked j) => if j = i then .loaded else .none
  | some (.started j) => if j = i then .notifying else .none
  | _ => .none

/-- The worker's task has been assigned and not run. -/
def toRun (d : Hold) (x : Worker) : Bool :=
  d == .loaded || (x.start && x.point != .ran)

/-- A worker beside what the owner of `poolMutex` does with it. -/
structure Fits (d : Hold) (x : Worker) : Prop where
  owned : x.ownershipMutex =
    (d == .taken || d == .loaded || x.start || x.point == .cleared)
  before : d = .taken ∨ d = .loaded → x.start = false ∧ x.point ≠ .cleared
  running : x.point = .ready ∨ x.point = .ran → x.start = true
  stopped : x.point = .cleared → x.start = false

/-- The tasks of the pool. -/
structure Tasks (pool : Fin poolSize → Worker) (assigned : Nat) (ran : List Nat)
    (q : Option (CallerAt poolSize)) : Prop where
  fits : ∀ i, Fits (holdOf i q) (pool i)
  once : ran.Nodup
  bound : ∀ k ∈ ran, k < assigned
  below : ∀ i k, (pool i).task = some k → k < assigned
  apart : ∀ i j k, (pool i).task = some k → (pool j).task = some k → i = j
  kept : ∀ k, k < assigned → k ∈ ran ∨ ∃ i, (pool i).task = some k
  toRun : ∀ i, toRun (holdOf i q) (pool i) = true → ∃ k, (pool i).task = some k ∧ k ∉ ran
  done : ∀ i, ThreadPool.toRun (holdOf i q) (pool i) = false →
    ∀ k, (pool i).task = some k → k ∈ ran

/-- The worker's thread sleeps or is about to, whatever happens to `start`. -/
def Parked (x : Worker) : Prop := x.point = .parking ∨ x.point = .asleep

/-- Who is parked with `start` set is still to be notified. -/
def Awake (pool : Fin poolSize → Worker) (q : Option (CallerAt poolSize)) : Prop :=
  ∀ i, Parked (pool i) → (pool i).start = true → holdOf i q = .notifying

end Holds

/-! ## One worker changes -/

section Change

variable {poolSize : Nat} {pool : Fin poolSize → Worker} {assigned : Nat} {ran : List Nat}
  {q q' : Option (CallerAt poolSize)} {i : Fin poolSize} {x : Worker}

/-- A step that assigns and runs nothing. -/
theorem Tasks.change (h : Tasks pool assigned ran q)
    (hhold : ∀ j, j ≠ i → holdOf j q' = holdOf j q) (htask : x.task = (pool i).task)
    (hfits : Fits (holdOf i q') x) (hrun : ThreadPool.toRun (holdOf i q') x =
      ThreadPool.toRun (holdOf i q) (pool i)) :
    Tasks (Function.update pool i x) assigned ran q' := by
  have htasks : ∀ j, (Function.update pool i x j).task = (pool j).task := by
    intro j
    by_cases hj : j = i
    · subst hj
      rw [Function.update_self, htask]
    · rw [Function.update_of_ne hj]
  have hruns : ∀ j, ThreadPool.toRun (holdOf j q') (Function.update pool i x j) =
      ThreadPool.toRun (holdOf j q) (pool j) := by
    intro j
    by_cases hj : j = i
    · subst hj
      rw [Function.update_self, hrun]
    · rw [Function.update_of_ne hj, hhold j hj]
  refine {
    fits := fun j => ?_
    once := h.once
    bound := h.bound
    below := fun j k hk => h.below j k (htasks j ▸ hk)
    apart := fun j l k hj hl => h.apart j l k (htasks j ▸ hj) (htasks l ▸ hl)
    kept := fun k hk => (h.kept k hk).imp_right fun ⟨j, hj⟩ => ⟨j, (htasks j).trans hj⟩
    toRun := fun j hj => ?_
    done := fun j hj k hk => h.done j (hruns j ▸ hj) k (htasks j ▸ hk) }
  · by_cases hj : j = i
    · subst hj
      rwa [Function.update_self]
    · rw [Function.update_of_ne hj, hhold j hj]
      exact h.fits j
  · rw [htasks j]
    exact h.toRun j (hruns j ▸ hj)

/-- A step of the owner of `poolMutex` that changes no worker. -/
theorem Tasks.move (h : Tasks pool assigned ran q) (hhold : ∀ j, holdOf j q' = holdOf j q) :
    Tasks pool assigned ran q' := by
  refine { h with fits := fun j => ?_, toRun := fun j hj => ?_, done := fun j hj => ?_ }
  · rw [hhold j]
    exact h.fits j
  · exact h.toRun j (hhold j ▸ hj)
  · exact h.done j (hhold j ▸ hj)

theorem holdOf_ne {j : Fin poolSize} (h : j ≠ i) :
    holdOf j (some (.acquired i)) = .none ∧ holdOf j (some (.started i)) = .none ∧
      holdOf j (some (.checked i)) = .none :=
  ⟨if_neg (Ne.symm h), if_neg (Ne.symm h), if_neg (Ne.symm h)⟩

theorem holdOf_self (i : Fin poolSize) :
    holdOf i (some (.acquired i)) = .taken ∧ holdOf i (some (.started i)) = .notifying ∧
      holdOf i (some (.checked i)) = .loaded :=
  ⟨if_pos rfl, if_pos rfl, if_pos rfl⟩

/-- Only who has set `start` is to notify. -/
theorem holdOf_notifying (h : holdOf i q = .notifying) : q = some (.started i) := by
  unfold holdOf at h
  split at h
  · split at h <;> cases h
  · split at h <;> cases h
  · split at h <;> cases h
  · split at h
    · rename_i hji
      rw [hji]
    · cases h
  · cases h

theorem Tasks.acquire {workerIdx : BitVec 64}
    (h : Tasks pool assigned ran (some (.finding workerIdx)))
    (hfree : (pool i).ownershipMutex = false) :
    Tasks (Function.update pool i { pool i with ownershipMutex := true }) assigned ran
      (some (.acquired i)) := by
  have hfits : Fits .none (pool i) := h.fits i
  have howned := hfits.owned
  rw [hfree] at howned
  have hidle : (pool i).start = false ∧ (pool i).point ≠ .cleared := by simpa using howned.symm
  refine h.change (fun j hj => (holdOf_ne hj).1) rfl ?_ ?_
  · rw [(holdOf_self i).1]
    exact { owned := rfl, before := fun _ => hidle, running := hfits.running,
            stopped := hfits.stopped }
  · rw [(holdOf_self i).1]
    rfl

theorem Tasks.start (h : Tasks pool assigned ran (some (.checked i))) :
    Tasks (Function.update pool i { pool i with start := true }) assigned ran
      (some (.started i)) := by
  have hfits := h.fits i
  rw [(holdOf_self i).2.2] at hfits
  obtain ⟨hstart, hcleared⟩ := hfits.before (.inr rfl)
  have hran : (pool i).point ≠ .ran := fun hp =>
    Bool.false_ne_true (hstart.symm.trans (hfits.running (.inr hp)))
  refine h.change (fun j hj => (holdOf_ne hj).2.1.trans (holdOf_ne hj).2.2.symm) rfl ?_ ?_
  · rw [(holdOf_self i).2.1]
    refine { owned := ?_, before := ?_, running := fun _ => rfl,
             stopped := fun hp => absurd hp hcleared }
    · rw [hfits.owned]
      rfl
    · rintro (hd | hd) <;> cases hd
  · rw [(holdOf_self i).2.1, (holdOf_self i).2.2]
    unfold ThreadPool.toRun
    rw [bne_iff_ne.mpr hran]
    rfl

/-- The next task is assigned to a worker that has none to run. -/
theorem Tasks.assign (h : Tasks pool assigned ran (some (.acquired i))) :
    Tasks (Function.update pool i { pool i with task := some assigned }) (assigned + 1) ran
      (some (.assigned i)) := by
  have htaken : holdOf i (some (.acquired i)) = .taken := if_pos rfl
  have hloaded : holdOf i (some (.assigned i)) = .loaded := if_pos rfl
  have hother : ∀ j, j ≠ i → holdOf j (some (CallerAt.acquired i)) = .none ∧
      holdOf j (some (CallerAt.assigned i)) = .none :=
    fun j hj => ⟨if_neg (Ne.symm hj), if_neg (Ne.symm hj)⟩
  have hfits := h.fits i
  rw [htaken] at hfits
  obtain ⟨hstart, hpoint⟩ := hfits.before (.inl rfl)
  have hidle : ThreadPool.toRun (holdOf i (some (.acquired i))) (pool i) = false := by
    rw [htaken]
    unfold ThreadPool.toRun
    rw [hstart]
    rfl
  refine {
    fits := fun j => ?_
    once := h.once
    bound := fun k hk => Nat.lt_succ_of_lt (h.bound k hk)
    below := fun j k hk => ?_
    apart := fun j l k hj hl => ?_
    kept := fun k hk => ?_
    toRun := fun j hj => ?_
    done := fun j hj k hk => ?_ }
  · by_cases hj : j = i
    · subst hj
      rw [Function.update_self, hloaded]
      exact { owned := hfits.owned, before := fun _ => ⟨hstart, hpoint⟩,
              running := hfits.running, stopped := hfits.stopped }
    · have hj' := h.fits j
      rw [(hother j hj).1] at hj'
      rwa [Function.update_of_ne hj, (hother j hj).2]
  · by_cases hj : j = i
    · subst hj
      rw [Function.update_self] at hk
      cases hk
      exact Nat.lt_succ_self _
    · rw [Function.update_of_ne hj] at hk
      exact Nat.lt_succ_of_lt (h.below j k hk)
  · -- the new number is above those of all tasks so far
    by_cases hji : j = i
    · by_cases hli : l = i
      · rw [hji, hli]
      · subst hji
        rw [Function.update_self] at hj
        rw [Function.update_of_ne hli] at hl
        cases hj
        exact absurd (h.below l _ hl) (Nat.lt_irrefl _)
    · rw [Function.update_of_ne hji] at hj
      by_cases hli : l = i
      · subst hli
        rw [Function.update_self] at hl
        cases hl
        exact absurd (h.below j _ hj) (Nat.lt_irrefl _)
      · rw [Function.update_of_ne hli] at hl
        exact h.apart j l k hj hl
  · rcases Nat.lt_succ_iff_lt_or_eq.mp hk with hlt | rfl
    · rcases h.kept k hlt with hran | ⟨j, hj⟩
      · exact .inl hran
      · by_cases hji : j = i
        · subst hji
          exact .inl (h.done j hidle k hj)
        · exact .inr ⟨j, by rw [Function.update_of_ne hji]; exact hj⟩
    · exact .inr ⟨i, by rw [Function.update_self]⟩
  · by_cases hji : j = i
    · subst hji
      refine ⟨assigned, by rw [Function.update_self], fun hran => ?_⟩
      exact Nat.lt_irrefl _ (h.bound assigned hran)
    · rw [Function.update_of_ne hji, (hother j hji).2] at hj
      rw [Function.update_of_ne hji]
      exact h.toRun j (by rw [(hother j hji).1]; exact hj)
  · by_cases hji : j = i
    · subst hji
      rw [hloaded] at hj
      cases hj
    · rw [Function.update_of_ne hji, (hother j hji).2] at hj
      rw [Function.update_of_ne hji] at hk
      exact h.done j (by rw [(hother j hji).1]; exact hj) k hk

/-- A worker runs its task. -/
theorem Tasks.runTask {k : Nat} (h : Tasks pool assigned ran q) (hpoint : (pool i).point = .ready)
    (htask : (pool i).task = some k) :
    Tasks (Function.update pool i { pool i with point := .ran }) assigned (ran ++ [k]) q := by
  have hfits := h.fits i
  have hstart := hfits.running (.inl hpoint)
  have hhold : holdOf i q ≠ .taken ∧ holdOf i q ≠ .loaded := by
    refine ⟨fun hd => ?_, fun hd => ?_⟩
    · exact Bool.false_ne_true ((hfits.before (.inl hd)).1.symm.trans hstart)
    · exact Bool.false_ne_true ((hfits.before (.inr hd)).1.symm.trans hstart)
  have hdue : ThreadPool.toRun (holdOf i q) (pool i) = true := by
    unfold ThreadPool.toRun
    rw [hstart, hpoint]
    exact Bool.or_true _
  have hnew : k ∉ ran := by
    obtain ⟨k', hk', hran⟩ := h.toRun i hdue
    cases htask.symm.trans hk'
    exact hran
  have htasks : ∀ j, (Function.update pool i { pool i with point := .ran } j).task =
      (pool j).task := by
    intro j
    by_cases hj : j = i
    · subst hj
      rw [Function.update_self]
    · rw [Function.update_of_ne hj]
  refine {
    fits := fun j => ?_
    once := List.nodup_append.mpr ⟨h.once, List.pairwise_singleton _ k, fun a ha b hb => ?_⟩
    bound := fun k' hk' => ?_
    below := fun j k' hk' => h.below j k' (htasks j ▸ hk')
    apart := fun j l k' hj hl => h.apart j l k' (htasks j ▸ hj) (htasks l ▸ hl)
    kept := fun k' hk' => ?_
    toRun := fun j hj => ?_
    done := fun j hj k' hk' => ?_ }
  · by_cases hj : j = i
    · subst hj
      rw [Function.update_self]
      refine { owned := ?_, before := fun hd => ?_, running := fun _ => hstart, stopped := nofun }
      · rw [hfits.owned, hstart, hpoint]
        simp
      · exact absurd hd (not_or.mpr hhold)
    · rw [Function.update_of_ne hj]
      exact h.fits j
  · rw [List.mem_singleton] at hb
    rintro rfl
    exact hnew (hb ▸ ha)
  · rcases List.mem_append.mp hk' with hk' | hk'
    · exact h.bound k' hk'
    · rw [List.mem_singleton] at hk'
      exact hk' ▸ h.below i k htask
  · rcases h.kept k' hk' with hran | ⟨j, hj⟩
    · exact .inl (List.mem_append_left _ hran)
    · exact .inr ⟨j, (htasks j).trans hj⟩
  · by_cases hji : j = i
    · subst hji
      rw [Function.update_self] at hj
      unfold ThreadPool.toRun at hj
      simp [hhold.2] at hj
    · rw [Function.update_of_ne hji] at hj ⊢
      obtain ⟨k', hk', hran⟩ := h.toRun j hj
      refine ⟨k', hk', fun hmem => ?_⟩
      rcases List.mem_append.mp hmem with hmem | hmem
      · exact hran hmem
      · rw [List.mem_singleton] at hmem
        exact hji (h.apart j i k' hk' (hmem ▸ htask))
  · rw [htasks j] at hk'
    by_cases hji : j = i
    · subst hji
      cases htask.symm.trans hk'
      exact List.mem_append_right _ (List.mem_singleton_self _)
    · rw [Function.update_of_ne hji] at hj
      exact List.mem_append_left _ (h.done j hj k' hk')

theorem Awake.change (h : Awake pool q)
    (hhold : ∀ j, j ≠ i → holdOf j q = .notifying → holdOf j q' = .notifying)
    (hx : Parked x → x.start = true → holdOf i q' = .notifying) :
    Awake (Function.update pool i x) q' := by
  intro j
  by_cases hj : j = i
  · subst hj
    rw [Function.update_self]
    exact hx
  · rw [Function.update_of_ne hj]
    exact fun hparked hstart => hhold j hj (h j hparked hstart)

theorem Awake.move (h : Awake pool q)
    (hhold : ∀ j, holdOf j q = .notifying → holdOf j q' = .notifying) : Awake pool q' :=
  fun j hparked hstart => hhold j (h j hparked hstart)

end Change

/-! ## The thread of a worker -/

section Worker

variable {poolSize : Nat} {pool : Fin poolSize → Worker} {assigned : Nat} {ran : List Nat}
  {q : Option (CallerAt poolSize)} {i : Fin poolSize} {x : Worker}

/-- What a step of the thread can be. -/
theorem next_cases {y : Worker} (h : x.next = some y) :
    (x.point = .locking ∨ x.point = .woken) ∧ y = { x with runMutex := true, point := .testing } ∨
    x.point = .testing ∧ y = { x with point := if x.start then .ready else .parking } ∨
    x.point = .parking ∧ y = { x with runMutex := false, point := .asleep } ∨
    (x.point = .ready ∧ ∃ k, x.task = some k ∧ y = { x with point := .ran }) ∨
    x.point = .ran ∧ y = { x with start := false, point := .cleared } ∨
    x.point = .cleared ∧ y = { x with ownershipMutex := false, point := .leaving } ∨
    x.point = .leaving ∧ y = { x with runMutex := false, point := .locking } := by
  unfold Worker.next at h
  cases hp : x.point with
  | locking | woken =>
    simp only [hp] at h
    split at h
    · cases h
    · cases h
      simp
  | testing | parking | ran | cleared | leaving =>
    simp only [hp] at h
    cases h
    simp
  | asleep =>
    simp only [hp] at h
    cases h
  | ready =>
    simp only [hp] at h
    cases htask : x.task with
    | none =>
      rw [htask] at h
      cases h
    | some k =>
      rw [htask] at h
      cases h
      simp

/-- A thread that goes on and leaves its task and `start` alone. -/
theorem Fits.goto {d : Hold} (h : Fits d x) (runMutex : Bool) (point : WorkerAt)
    (hcleared : x.point ≠ .cleared) (hran : x.point ≠ .ran)
    (hpoint : point ≠ .cleared ∧ point ≠ .ran) (hready : point = .ready → x.start = true) :
    Fits d { x with runMutex := runMutex, point := point } ∧
      ThreadPool.toRun d { x with runMutex := runMutex, point := point } =
        ThreadPool.toRun d x := by
  refine ⟨{ owned := ?_, before := fun hd => ⟨(h.before hd).1, hpoint.1⟩,
            running := fun hr => hready (hr.resolve_right hpoint.2),
            stopped := fun hs => absurd hs hpoint.1 }, ?_⟩
  · rw [h.owned, beq_eq_false_iff_ne.mpr hcleared, beq_eq_false_iff_ne.mpr hpoint.1]
  · unfold ThreadPool.toRun
    rw [bne_iff_ne.mpr hran, bne_iff_ne.mpr hpoint.2]

theorem Tasks.nextWorker (h : Tasks pool assigned ran q) (hnext : (pool i).next = some x) :
    Tasks (Function.update pool i x) assigned
      (if (pool i).point = .ready then ran ++ (pool i).task.toList else ran) q := by
  have hfits := h.fits i
  have hkeep : ∀ j, j ≠ i → holdOf j q = holdOf j q := fun _ _ => rfl
  have hgoto : ∀ runMutex point, (pool i).point ≠ .cleared → (pool i).point ≠ .ran →
      (pool i).point ≠ .ready → point ≠ .cleared ∧ point ≠ .ran →
      (point = .ready → (pool i).start = true) →
      Tasks (Function.update pool i { pool i with runMutex := runMutex, point := point }) assigned
        (if (pool i).point = .ready then ran ++ (pool i).task.toList else ran) q := by
    intro runMutex point hcleared hran hnot hpoint hready
    obtain ⟨hfits', hrun⟩ := hfits.goto runMutex point hcleared hran hpoint hready
    rw [if_neg hnot]
    exact h.change hkeep rfl hfits' hrun
  rcases next_cases hnext with ⟨hp, rfl⟩ | ⟨hp, rfl⟩ | ⟨hp, rfl⟩ | ⟨hp, k, htask, rfl⟩ |
    ⟨hp, rfl⟩ | ⟨hp, rfl⟩ | ⟨hp, rfl⟩
  · have hnot : (pool i).point ≠ .cleared ∧ (pool i).point ≠ .ran ∧ (pool i).point ≠ .ready := by
      rcases hp with hp | hp <;> rw [hp] <;> decide
    exact hgoto true .testing hnot.1 hnot.2.1 hnot.2.2 (by decide) nofun
  · refine hgoto _ _ (by rw [hp]; decide) (by rw [hp]; decide) (by rw [hp]; decide) ?_ ?_
    · split <;> decide
    · intro hready
      split at hready
      · assumption
      · cases hready
  · exact hgoto false .asleep (by rw [hp]; decide) (by rw [hp]; decide) (by rw [hp]; decide)
      (by decide) nofun
  · have hran : (pool i).task.toList = [k] := by rw [htask, Option.toList_some]
    rw [if_pos hp, hran]
    exact h.runTask hp htask
  · have hstart := hfits.running (.inr hp)
    have hhold : ¬ (holdOf i q = .taken ∨ holdOf i q = .loaded) := fun hd =>
      Bool.false_ne_true ((hfits.before hd).1.symm.trans hstart)
    have hnot : (pool i).point ≠ .ready := by
      rw [hp]
      decide
    rw [if_neg hnot]
    refine h.change hkeep rfl { owned := ?_, before := fun hd => absurd hd hhold,
                                running := ?_, stopped := fun _ => rfl } ?_
    · rw [hfits.owned, hstart]
      simp
    · rintro (hr | hr) <;> cases hr
    · unfold ThreadPool.toRun
      simp [hp]
  · have hstart := hfits.stopped hp
    have hhold : ¬ (holdOf i q = .taken ∨ holdOf i q = .loaded) := fun hd =>
      (hfits.before hd).2 hp
    have hnot : (pool i).point ≠ .ready := by
      rw [hp]
      decide
    rw [if_neg hnot]
    refine h.change hkeep rfl { owned := ?_, before := fun hd => absurd hd hhold,
                                running := ?_, stopped := nofun } ?_
    · rw [not_or] at hhold
      rw [beq_eq_false_iff_ne.mpr hhold.1, beq_eq_false_iff_ne.mpr hhold.2, hstart]
      rfl
    · rintro (hr | hr) <;> cases hr
    · unfold ThreadPool.toRun
      rw [hstart]
      rfl
  · exact hgoto false .locking (by rw [hp]; decide) (by rw [hp]; decide) (by rw [hp]; decide)
      (by decide) nofun

/-- A wake-up, asked for or not. -/
theorem Tasks.notify {q' : Option (CallerAt poolSize)} (h : Tasks pool assigned ran q)
    (hhold : ∀ j, j ≠ i → holdOf j q' = holdOf j q)
    (hi : holdOf i q' = holdOf i q ∨ holdOf i q' = .none ∧ holdOf i q = .notifying) :
    Tasks (Function.update pool i (pool i).notify) assigned ran q' := by
  have hfits := h.fits i
  have hsame : (holdOf i q' = .taken ↔ holdOf i q = .taken) ∧
      (holdOf i q' = .loaded ↔ holdOf i q = .loaded) := by
    rcases hi with hi | ⟨hi, hi'⟩
    · rw [hi]
      exact ⟨Iff.rfl, Iff.rfl⟩
    · rw [hi, hi']
      decide
  have hfits' : Fits (holdOf i q') (pool i) := by
    refine { owned := ?_, before := fun hd => hfits.before (hd.imp hsame.1.mp hsame.2.mp),
             running := hfits.running, stopped := hfits.stopped }
    rw [hfits.owned, Bool.eq_iff_iff]
    simp [hsame]
  have hrun' : ThreadPool.toRun (holdOf i q') (pool i) =
      ThreadPool.toRun (holdOf i q) (pool i) := by
    unfold ThreadPool.toRun
    rw [Bool.eq_iff_iff]
    simp [hsame]
  unfold Worker.notify
  split
  · rename_i hp
    obtain ⟨hfits'', hrun⟩ := hfits'.goto (pool i).runMutex .woken
      (by rw [hp]; decide) (by rw [hp]; decide) (by decide) nofun
    exact h.change hhold rfl hfits'' (hrun.trans hrun')
  · exact h.change hhold rfl hfits' hrun'

theorem Awake.nextWorker (h : Awake pool q) (hnext : (pool i).next = some x) :
    Awake (Function.update pool i x) q := by
  refine h.change (fun _ _ hd => hd) fun hparked hstart => ?_
  rcases next_cases hnext with ⟨-, rfl⟩ | ⟨-, rfl⟩ | ⟨hp, rfl⟩ | ⟨-, k, -, rfl⟩ |
    ⟨-, rfl⟩ | ⟨-, rfl⟩ | ⟨-, rfl⟩
  · rcases hparked with hparked | hparked <;> cases hparked
  · -- the predicate was false
    have hready : (pool i).start = true := hstart
    rw [if_pos hready] at hparked
    rcases hparked with hparked | hparked <;> cases hparked
  · exact h i (.inl hp) hstart
  · rcases hparked with hparked | hparked <;> cases hparked
  · cases hstart
  · rcases hparked with hparked | hparked <;> cases hparked
  · rcases hparked with hparked | hparked <;> cases hparked

end Worker

/-! ## Runs -/

section Runs

variable {poolSize : Nat} [NeZero poolSize] {ι : Type} [DecidableEq ι]
  {w w' : ThreadPool poolSize ι} {c : ι} {i : Fin poolSize}

/-- The tasks, under `poolMutex`. -/
def TasksOk (w : ThreadPool poolSize ι) : Prop :=
  Protects inPool (Tasks w.pool w.assigned w.ran) w.poolMutex w.caller

theorem tasksOk_caller (h : TasksOk w) (hstep : w.nextCaller c = some w') : TasksOk w' := by
  unfold nextCaller at hstep
  cases hp : w.caller c with
  | idle =>
    simp only [hp] at hstep
    cases hstep
    exact h.other hp rfl rfl fun _ htasks => htasks
  | entered =>
    simp only [hp] at hstep
    split at hstep
    · rename_i hfree
      cases hstep
      exact h.acquire (Option.isNone_iff_eq_none.mp hfree) rfl fun htasks =>
        htasks.move fun _ => rfl
    · cases hstep
  | finding workerIdx =>
    simp only [hp] at hstep
    split at hstep
    · cases hstep
      refine h.proceed hp rfl rfl fun htasks => ?_
      exact htasks.move fun _ => rfl
    · rename_i hfree
      cases hstep
      refine h.proceed hp rfl rfl fun htasks => ?_
      exact htasks.acquire (Bool.not_eq_true _ ▸ hfree)
  | acquired i =>
    simp only [hp] at hstep
    cases hstep
    refine h.proceed hp rfl rfl fun htasks => ?_
    exact htasks.assign
  | assigned i =>
    simp only [hp] at hstep
    split at hstep
    · cases hstep
    · cases hstep
      refine h.proceed hp rfl rfl fun htasks => ?_
      exact htasks.move fun _ => rfl
  | checked i =>
    simp only [hp] at hstep
    cases hstep
    refine h.proceed hp rfl rfl fun htasks => ?_
    exact htasks.start
  | started i =>
    simp only [hp] at hstep
    cases hstep
    refine h.proceed hp rfl rfl fun htasks => ?_
    exact htasks.notify (fun j hj => (holdOf_ne hj).2.1.symm) (.inr ⟨rfl, (holdOf_self i).2.1⟩)
  | notified i =>
    simp only [hp] at hstep
    cases hstep
    refine h.release hp rfl rfl fun htasks => ?_
    exact htasks.move fun _ => rfl

theorem tasksOk_act {a : Action poolSize ι} (h : TasksOk w) (hstep : w.act a = some w') :
    TasksOk w' := by
  cases a with
  | caller c => exact tasksOk_caller h hstep
  | worker i =>
    obtain ⟨x, hnext, rfl⟩ := Option.map_eq_some_iff.mp hstep
    exact ⟨h.guards, h.holds.nextWorker hnext⟩
  | wake i =>
    cases hstep
    exact ⟨h.guards, h.holds.notify (fun _ _ => rfl) (.inl rfl)⟩
  | refuse c =>
    simp only [act] at hstep
    split at hstep
    · rename_i workerIdx hp
      cases hstep
      refine h.proceed hp rfl rfl fun htasks => ?_
      exact htasks.move fun _ => rfl
    · cases hstep

omit [DecidableEq ι] [NeZero poolSize] in
theorem tasksOk_init : TasksOk (init poolSize ι) where
  guards := guards_free fun _ => rfl
  holds := {
    fits := fun _ => { owned := rfl, before := nofun, running := nofun, stopped := nofun }
    once := List.Pairwise.nil
    bound := fun _ hk => absurd hk List.not_mem_nil
    below := nofun
    apart := nofun
    kept := fun _ hk => absurd hk (Nat.not_lt_zero _)
    toRun := nofun
    done := nofun }

theorem tasksOk_run {actions : List (Action poolSize ι)} (h : TasksOk w)
    (hrun : w.run actions = some w') : TasksOk w' :=
  interleaving_keeps (R := fun w _ => TasksOk w) (fun _ _ _ _ h hact => tasksOk_act h hact) h hrun

/-! ### Wake-ups -/

/-- The worker sleeps, its task is not run, and nobody is going to notify it. -/
def Lost (w : ThreadPool poolSize ι) (i : Fin poolSize) : Prop :=
  (w.pool i).point = .asleep ∧ (w.pool i).start = true ∧ ∀ c, w.caller c ≠ .started i

/-- If the step notifies a worker whose `start` is set, it does not do so between the predicate and
the sleep. -/
def Heard (w : ThreadPool poolSize ι) (a : Action poolSize ι) : Prop :=
  ∀ c i, a = .caller c → w.caller c = .started i →
    ¬ ((w.pool i).point = .parking ∧ (w.pool i).start = true)

/-- All steps of the run are of that kind. -/
def HeardRun (w : ThreadPool poolSize ι) : List (Action poolSize ι) → Prop
  | [] => True
  | a :: actions => Heard w a ∧ ∀ w', w.act a = some w' → HeardRun w' actions

def AwakeOk (w : ThreadPool poolSize ι) : Prop :=
  Protects inPool (Awake w.pool) w.poolMutex w.caller

theorem awakeOk_caller (h : AwakeOk w) (hheard : Heard w (.caller c))
    (hstep : w.nextCaller c = some w') : AwakeOk w' := by
  unfold nextCaller at hstep
  cases hp : w.caller c with
  | idle =>
    simp only [hp] at hstep
    cases hstep
    exact h.other hp rfl rfl fun _ hawake => hawake
  | entered =>
    simp only [hp] at hstep
    split at hstep
    · rename_i hfree
      cases hstep
      exact h.acquire (Option.isNone_iff_eq_none.mp hfree) rfl fun hawake =>
        hawake.move fun _ hd => nomatch hd
    · cases hstep
  | finding workerIdx =>
    simp only [hp] at hstep
    split at hstep
    · cases hstep
      refine h.proceed hp rfl rfl fun hawake => ?_
      exact hawake.move fun _ hd => nomatch hd
    · cases hstep
      refine h.proceed hp rfl rfl fun hawake => ?_
      exact hawake.change (fun _ _ hd => nomatch hd) fun hparked hstart =>
        nomatch hawake _ hparked hstart
  | acquired i =>
    simp only [hp] at hstep
    cases hstep
    refine h.proceed hp rfl rfl fun hawake => ?_
    exact hawake.change (fun _ _ hd => nomatch holdOf_notifying hd) fun hparked hstart =>
      nomatch holdOf_notifying (hawake _ hparked hstart)
  | assigned i =>
    simp only [hp] at hstep
    split at hstep
    · cases hstep
    · cases hstep
      refine h.proceed hp rfl rfl fun hawake => ?_
      exact hawake.move fun _ hd => hd
  | checked i =>
    simp only [hp] at hstep
    cases hstep
    refine h.proceed hp rfl rfl fun hawake => ?_
    refine hawake.change (fun j hj hd => ?_) fun _ _ => (holdOf_self i).2.1
    rw [(holdOf_ne hj).2.2] at hd
    cases hd
  | started i =>
    simp only [hp] at hstep
    cases hstep
    refine h.proceed hp rfl rfl fun hawake => ?_
    refine hawake.change (fun j hj hd => ?_) fun hparked hstart => ?_
    · rw [(holdOf_ne hj).2.1] at hd
      cases hd
    · -- who was asleep is woken, and who is parking has nothing to run
      have hsafe := hheard c i rfl hp
      unfold Worker.notify at hparked hstart
      split at hparked
      · rcases hparked with hparked | hparked <;> cases hparked
      · rename_i hawake'
        rw [if_neg hawake'] at hstart
        exact absurd ⟨hparked.resolve_right hawake', hstart⟩ hsafe
  | notified i =>
    simp only [hp] at hstep
    cases hstep
    refine h.release hp rfl rfl fun hawake => ?_
    exact hawake.move fun _ hd => nomatch hd

theorem awakeOk_act {a : Action poolSize ι} (h : AwakeOk w) (hheard : Heard w a)
    (hstep : w.act a = some w') : AwakeOk w' := by
  cases a with
  | caller c => exact awakeOk_caller h hheard hstep
  | worker i =>
    obtain ⟨x, hnext, rfl⟩ := Option.map_eq_some_iff.mp hstep
    exact ⟨h.guards, h.holds.nextWorker hnext⟩
  | wake i =>
    cases hstep
    refine ⟨h.guards, h.holds.change (fun _ _ hd => hd) fun hparked hstart => ?_⟩
    unfold Worker.notify at hparked hstart
    split at hparked
    · rcases hparked with hparked | hparked <;> cases hparked
    · rename_i hawake
      rw [if_neg hawake] at hstart
      exact h.holds i hparked hstart
  | refuse c =>
    simp only [act] at hstep
    split at hstep
    · rename_i workerIdx hp
      cases hstep
      refine h.proceed hp rfl rfl fun hawake => ?_
      exact hawake.move fun _ hd => nomatch hd
    · cases hstep

theorem awakeOk_run {actions : List (Action poolSize ι)} (h : AwakeOk w)
    (hheard : HeardRun w actions) (hrun : w.run actions = some w') : AwakeOk w' := by
  have hboth := interleaving_keeps (R := fun w actions => AwakeOk w ∧ HeardRun w actions)
    (fun _ _ _ w₁ h hact => ⟨awakeOk_act h.1 h.2.1 hact, h.2.2 w₁ hact⟩) ⟨h, hheard⟩ hrun
  exact hboth.1

omit [NeZero poolSize] [DecidableEq ι] in
theorem not_lost (h : AwakeOk w) (i : Fin poolSize) : ¬ Lost w i := by
  rintro ⟨hasleep, hstart, hnobody⟩
  have hholds := holdOf_notifying (h.holds i (.inr hasleep) hstart)
  obtain ⟨c, -, hc⟩ := Option.map_eq_some_iff.mp hholds
  exact hnobody c hc

/-- A step of the other kind loses the task as soon as the worker goes on. -/
theorem lost_of_unheard (h : TasksOk w) (hp : w.caller c = .started i)
    (hparking : (w.pool i).point = .parking) (hstart : (w.pool i).start = true) :
    ∃ w', w.run [.caller c, .worker i] = some w' ∧ Lost w' i := by
  have hnotify : (w.pool i).notify = w.pool i := by
    unfold Worker.notify
    rw [if_neg (by rw [hparking]; decide)]
  have hsame : w.setWorker i (w.pool i) = w := by
    unfold setWorker
    rw [Function.update_eq_self]
  have hcaller : w.act (.caller c) = some (w.goto c (.notified i)) := by
    unfold act nextCaller
    simp only [hp, hnotify, hsame]
  have hworker : (w.goto c (.notified i)).act (.worker i) =
      some ((w.goto c (.notified i)).setWorker i
        { w.pool i with runMutex := false, point := .asleep }) := by
    unfold act nextWorker Worker.next
    have hpoint : ((w.goto c (.notified i)).pool i).point = .parking := hparking
    simp only [hpoint, Option.map_some]
    rfl
  have hrun : w.run [.caller c, .worker i] = some ((w.goto c (.notified i)).setWorker i
      { w.pool i with runMutex := false, point := .asleep }) := by
    show (w.act (.caller c) >>= fun w₁ => w₁.act (.worker i) >>= pure) = _
    rw [hcaller]
    exact congrArg (· >>= pure) hworker
  refine ⟨_, hrun, ?_, ?_, fun c' hc' => ?_⟩
  · show (Function.update w.pool i _ i).point = _
    rw [Function.update_self]
  · show (Function.update w.pool i _ i).start = _
    rw [Function.update_self]
    exact hstart
  · -- of the callers only the owner of the mutex was at a worker
    have hc' : Function.update w.caller c (.notified i) c' = .started i := hc'
    by_cases hcc : c' = c
    · subst hcc
      rw [Function.update_self] at hc'
      cases hc'
    · rw [Function.update_of_ne hcc] at hc'
      exact hcc (h.guards.exclusive (by rw [hc']; rfl) (by rw [hp]; rfl))

/-- In every interleaving no task runs twice, and each that has been assigned has run or is still
the task of its worker. While no worker is notified between the predicate and the sleep with its
`start` set, none is left asleep with a task; a worker that is so notified is. -/
theorem tasks_and_wakeups {actions : List (Action poolSize ι)}
    (hrun : (init poolSize ι).run actions = some w) :
    (w.ran.Nodup ∧ ∀ k, k < w.assigned → k ∈ w.ran ∨ ∃ i, (w.pool i).task = some k) ∧
    (HeardRun (init poolSize ι) actions → ∀ i, ¬ Lost w i) ∧
    ∀ c i, w.caller c = .started i → (w.pool i).point = .parking → (w.pool i).start = true →
      ∃ w', w.run [.caller c, .worker i] = some w' ∧ Lost w' i := by
  have htasks := tasksOk_run tasksOk_init hrun
  have hinit : AwakeOk (init poolSize ι) := ⟨guards_free fun _ => rfl, nofun⟩
  exact ⟨⟨htasks.holds.once, htasks.holds.kept⟩,
    fun hheard i => not_lost (awakeOk_run hinit hheard hrun) i,
    fun c i hp hparking hstart => lost_of_unheard htasks hp hparking hstart⟩

end Runs

/-- The worker sleeps when it is notified. -/
def notifyAsleep : List (Action 1 Unit) :=
  .replicate 3 (.worker 0) ++ .replicate 7 (.caller ()) ++ .replicate 3 (.worker 0)

theorem tasks_and_wakeups_asleep : ∃ w, (init 1 Unit).run notifyAsleep = some w ∧
    w.ran = [0] ∧ w.ran.Nodup := by
  refine ⟨_, rfl, rfl, ?_⟩
  have hrun : (init 1 Unit).run notifyAsleep = some _ := rfl
  exact (tasks_and_wakeups hrun).1.1

/-- The worker has found `start` unset when it is notified, and goes to sleep. -/
def notifyParking : List (Action 1 Unit) :=
  .replicate 2 (.worker 0) ++ .replicate 8 (.caller ()) ++ [.worker 0]

theorem wakeup_lost : ¬ ∀ (poolSize : Nat) [NeZero poolSize] (ι : Type) [DecidableEq ι]
    (actions : List (Action poolSize ι)) (w : ThreadPool poolSize ι),
    (init poolSize ι).run actions = some w → ∀ i, ¬ Lost w i := by
  intro hall
  have hrun : (init 1 Unit).run notifyParking = some _ := rfl
  exact hall 1 Unit notifyParking _ hrun 0 ⟨rfl, rfl, fun _ hc => nomatch hc⟩

end NextEmu.Sdk.ThreadPool
