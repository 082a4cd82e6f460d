import NextEmu.GdbStub.Calls

/-!
# Continuing

The loop of `cmd_Continue` tests for a watchpoint in front of its first step. From anywhere else it
runs to the first state whose program counter is watched; at a watchpoint it stays, and once it has
stopped at one it stops there again.
-/

namespace NextEmu.GdbStub.Continue

open NextEmu.Lib.AbortState
open Calls Commands Replies

variable {κ : Type}

/-- After some steps the program counter is that of a watchpoint. -/
def Hits (host : Host κ) (w : World (κ × List Call)) (n : Nat) : Prop :=
  pcAfter host.core w.core.1 n ∈ w.watchPointPCs

instance (host : Host κ) (w : World (κ × List Call)) (n : Nat) : Decidable (Hits host w n) :=
  inferInstanceAs (Decidable (_ ∈ _))

/-- A `c`, for some turns of its loop. -/
def continued (host : Host κ) (fuel : Nat) : Stub (κ × List Call) Unit :=
  perform (recorded host) fuel (Command.text .continueHere)

/-- The loop has not come to an end, and nothing is sent. -/
def RunsOn (host : Host κ) (fuel : Nat) (w : World (κ × List Call)) : Prop :=
  ∃ u, continued host fuel w = .error .running u ∧ replies u = replies w

/-- A `c` ends in a world, once it has turns enough, and has sent nothing before. -/
structure Ends (host : Host κ) (w t : World (κ × List Call)) : Prop where
  enough : ∃ turns, ∀ fuel ≥ turns, continued host fuel w = .ok () t
  early : ∀ fuel, continued host fuel w = .ok () t ∨ RunsOn host fuel w

/-- A `c` makes a step, and goes on to the first state behind it that is at a watchpoint; there it
answers. Where there is none, it runs on. -/
structure Continues (host : Host κ) (w : World (κ × List Call)) : Prop where
  stops : ∀ n, 1 ≤ n → Hits host w n → (∀ k, 1 ≤ k → k < n → ¬ Hits host w k) →
    ∃ t, Ends host w t ∧ calls t = calls w ++ List.replicate n .step ∧
      t.core.1 = (host.core.dumpProgramCounter ((turn host.core)^[n] w.core.1)).2 ∧
      t.watchPointPCs = w.watchPointPCs ∧ replies t = replies w ++ [s05]
  runsOn : (∀ n, 1 ≤ n → ¬ Hits host w n) → ∀ fuel, RunsOn host fuel w

/-- So does each of some `c` in a row, from where the one before has stopped. -/
def Visits (host : Host κ) : Nat → World (κ × List Call) → Prop
  | 0, _ => True
  | k + 1, w => Continues host w ∧ ∀ t, Ends host w t → Visits host k t

/-- None of some `c` in a row starts at a watchpoint. -/
def Clear (host : Host κ) : Nat → World (κ × List Call) → Prop
  | 0, _ => True
  | k + 1, w => ¬ Hits host w 0 ∧ ∀ t, Ends host w t → Clear host k t

/-! ## The loop -/

section Loop

variable {host : Host κ} {w : World (κ × List Call)} {n fuel : Nat}

/-- The world after some turns of the loop, the last of which finds a watchpoint. -/
def stopped (host : Host κ) (w : World (κ × List Call)) (n : Nat) : World (κ × List Call) :=
  { w with core := ((host.core.dumpProgramCounter ((turn host.core)^[n] w.core.1)).2,
      w.core.2 ++ List.replicate n .step) }

/-- The world after a turn that finds none. -/
def stepped (host : Host κ) (w : World (κ × List Call)) : World (κ × List Call) :=
  { w with core := (turn host.core w.core.1, w.core.2 ++ [.step]) }

/-- One turn. -/
theorem loop_succ (host : Host κ) (fuel : Nat) (w : World (κ × List Call)) :
    runToWatchPoint (recorded host) (fuel + 1) w =
      if Hits host w 0 then .ok () (stopped host w 0)
      else runToWatchPoint (recorded host) fuel (stepped host w) := by
  have hhits : hitsWatchPoint (recorded host) w = .ok (decide (Hits host w 0))
      { w with core := ((host.core.dumpProgramCounter w.core.1).2, w.core.2) } := rfl
  rw [runToWatchPoint, bind_of_ok hhits]
  by_cases h : Hits host w 0
  · rw [if_pos (decide_eq_true h), if_pos h, stopped, List.replicate_zero, List.append_nil]
    rfl
  · rw [if_neg (by rw [decide_eq_false h]; exact Bool.false_ne_true), if_neg h]
    rfl

theorem stopped_stepped (host : Host κ) (w : World (κ × List Call)) (n : Nat) :
    stopped host (stepped host w) n = stopped host w (n + 1) := by
  unfold stopped stepped
  rw [List.append_assoc]
  rfl

theorem loop_stops (hn : Hits host w n) (hfirst : ∀ k < n, ¬ Hits host w k) (hfuel : n < fuel) :
    runToWatchPoint (recorded host) fuel w = .ok () (stopped host w n) := by
  induction n generalizing w fuel with
  | zero =>
    obtain ⟨fuel, rfl⟩ : ∃ f, fuel = f + 1 := ⟨fuel - 1, by omega⟩
    rw [loop_succ, if_pos hn]
  | succ n ih =>
    obtain ⟨fuel, rfl⟩ : ∃ f, fuel = f + 1 := ⟨fuel - 1, by omega⟩
    rw [loop_succ, if_neg (hfirst 0 (Nat.succ_pos n)),
      ih (w := stepped host w) hn (fun k hk => hfirst (k + 1) (Nat.succ_lt_succ hk)) (by omega),
      stopped_stepped]

theorem loop_runs (hnone : ∀ k < fuel, ¬ Hits host w k) :
    ∃ u, runToWatchPoint (recorded host) fuel w = .error .running u ∧ u.trace = w.trace := by
  induction fuel generalizing w with
  | zero => exact ⟨w, rfl, rfl⟩
  | succ fuel ih =>
    rw [loop_succ, if_neg (hnone 0 (Nat.succ_pos fuel))]
    exact ih (w := stepped host w) fun k hk => hnone (k + 1) (Nat.succ_lt_succ hk)

end Loop

/-! ## One packet -/

section Packet

variable {host : Host κ} {w : World (κ × List Call)} {n fuel : Nat}

/-- The packet is the loop, and the answer when it ends. -/
theorem continued_eq (host : Host κ) (fuel : Nat) (w : World (κ × List Call)) :
    continued host fuel w = (do
      runToWatchPoint (recorded host) fuel
      packingAndSend (recorded host) s05) (begun w (Command.text .continueHere)) :=
  perform_text (c := .continueHere) (by decide) rfl

/-- As long as there is no watchpoint in sight, the packet runs on. -/
theorem runs_on (hnone : ∀ k < fuel, ¬ Hits host w k) : RunsOn host fuel w := by
  obtain ⟨u, hu, htrace⟩ := loop_runs (w := begun w (Command.text .continueHere)) hnone
  refine ⟨u, ?_, ?_⟩
  · rw [continued_eq]
    exact bind_of_error hu
  · unfold replies
    rw [htrace]
    exact (silent_begun w _).2

/-- A packet ends at the first state, the one it starts from included, that is at a watchpoint. -/
theorem ends_first (hn : Hits host w n) (hfirst : ∀ k < n, ¬ Hits host w k) :
    ∃ t, Ends host w t ∧ calls t = calls w ++ List.replicate n .step ∧
      t.core.1 = (host.core.dumpProgramCounter ((turn host.core)^[n] w.core.1)).2 ∧
      t.watchPointPCs = w.watchPointPCs ∧ replies t = replies w ++ [s05] := by
  let w' := begun w (Command.text .continueHere)
  have hroom : s05.length + 5 ≤ (recorded host).room := room_of_length (recorded host) (by decide)
  obtain ⟨t, ht, ⟨hcore, hpoints⟩, hsent⟩ := packingAndSend_run (w := stopped host w' n) hroom
  have hok : ∀ fuel > n, continued host fuel w = .ok () t := by
    intro fuel hfuel
    rw [continued_eq, bind_of_ok (loop_stops (w := w') hn hfirst hfuel)]
    exact ht
  have hends : Ends host w t := by
    refine ⟨⟨n + 1, hok⟩, fun fuel => ?_⟩
    rcases Nat.lt_or_ge n fuel with hfuel | hfuel
    · exact .inl (hok fuel hfuel)
    · exact .inr (runs_on fun k hk => hfirst k (by omega))
  refine ⟨t, hends, congrArg Prod.snd hcore, congrArg Prod.fst hcore, hpoints, ?_⟩
  rw [hsent, ← (silent_begun w (Command.text .continueHere)).2]
  rfl

theorem Ends.unique {t t' : World (κ × List Call)} (h : Ends host w t) (h' : Ends host w t') :
    t = t' := by
  obtain ⟨turns, hturns⟩ := h.enough
  obtain ⟨turns', hturns'⟩ := h'.enough
  have hrun := hturns (max turns turns') (Nat.le_max_left _ _)
  rw [hturns' (max turns turns') (Nat.le_max_right _ _)] at hrun
  cases hrun
  rfl

theorem not_runsOn {t : World (κ × List Call)} (h : Ends host w t) :
    ¬ ∀ fuel, RunsOn host fuel w := by
  intro hruns
  obtain ⟨turns, hturns⟩ := h.enough
  obtain ⟨u, hu, -⟩ := hruns turns
  rw [hturns turns (Nat.le_refl _)] at hu
  cases hu

/-- A packet continues exactly when it does not start at a watchpoint. -/
theorem continues_iff (host : Host κ) (w : World (κ × List Call)) :
    Continues host w ↔ ¬ Hits host w 0 := by
  constructor
  · intro h hhit
    obtain ⟨t, hends, hcalls, -⟩ := ends_first hhit fun k hk => absurd hk (Nat.not_lt_zero k)
    by_cases hlater : ∃ n, 1 ≤ n ∧ Hits host w n
    · obtain ⟨hpos, hn⟩ := Nat.find_spec hlater
      obtain ⟨t', hends', hcalls', -⟩ := h.stops _ hpos hn
        fun k hk hlt hkit => Nat.find_min hlater hlt ⟨hk, hkit⟩
      rw [hends.unique hends', hcalls'] at hcalls
      have hsteps := congrArg List.length (List.append_cancel_left hcalls)
      rw [List.length_replicate, List.length_replicate] at hsteps
      omega
    · exact not_runsOn hends (h.runsOn fun n hpos hn => hlater ⟨n, hpos, hn⟩)
  · intro hclear
    have hbefore : ∀ {n}, (∀ k, 1 ≤ k → k < n → ¬ Hits host w k) → ∀ k < n, ¬ Hits host w k := by
      intro n hfirst k hk
      rcases Nat.eq_zero_or_pos k with rfl | hpos
      · exact hclear
      · exact hfirst k hpos hk
    refine ⟨fun n _ hn hfirst => ends_first hn (hbefore hfirst), fun hnone fuel => ?_⟩
    exact runs_on (hbefore fun k hpos _ => hnone k hpos)

end Packet

/-! ## Packets in a row -/

section Row

variable {host : Host κ} {w t : World (κ × List Call)}

/-- A core that is read stays as it is, so that the stub stops at a watchpoint. -/
theorem stopped_hits (hread : ∀ c, (host.core.dumpProgramCounter c).2 = c) (h : Ends host w t) :
    Hits host t 0 := by
  have hsome : ∃ n, Hits host w n := by
    by_contra hnone
    exact not_runsOn h fun fuel => runs_on fun k _ hk => hnone ⟨k, hk⟩
  obtain ⟨t', hends, -, hcore, hpoints, -⟩ := ends_first (Nat.find_spec hsome)
    fun k hk => Nat.find_min hsome hk
  rw [h.unique hends]
  unfold Hits pcAfter
  rw [hpoints, Function.iterate_zero_apply, hcore, hread]
  exact Nat.find_spec hsome

/-- Of two packets in a row both continue only where there is no watchpoint at all. -/
theorem clear_iff (hread : ∀ c, (host.core.dumpProgramCounter c).2 = c) (k : Nat) :
    Clear host (k + 2) w ↔ ∀ n, ¬ Hits host w n := by
  constructor
  · rintro ⟨-, hnext⟩
    by_contra hsome
    obtain ⟨n, hn⟩ := not_forall.mp hsome
    have hsome : ∃ n, Hits host w n := ⟨n, not_not.mp hn⟩
    obtain ⟨t, hends, -⟩ := ends_first (Nat.find_spec hsome) fun k hk => Nat.find_min hsome hk
    exact (hnext t hends).1 (stopped_hits hread hends)
  · intro hnone
    refine ⟨hnone 0, fun t hends => ?_⟩
    exact absurd (fun fuel => runs_on fun k _ => hnone k) (not_runsOn hends)

/-- Packets in a row visit one watchpoint after the other exactly when none of them starts at
one. -/
theorem visits_iff (host : Host κ) (k : Nat) (w : World (κ × List Call)) :
    Visits host k w ↔ Clear host k w := by
  induction k generalizing w with
  | zero => exact Iff.rfl
  | succ k ih =>
    unfold Visits Clear
    rw [continues_iff]
    exact and_congr_right fun _ => forall₂_congr fun t _ => ih t

/-- A core that stays at a watchpoint. -/
theorem watchpoint_left : ¬ ∀ (k : Nat) (w : World (Unit × List Call)), Visits idleHost k w := by
  intro h
  let w : World (Unit × List Call) :=
    { core := ((), []), watchPointPCs := {0}, input := [], acks := [], trace := [] }
  have hclear := (continues_iff idleHost w).mp (h 1 w).1
  exact hclear (Finset.mem_singleton_self 0)

end Row

end NextEmu.GdbStub.Continue
