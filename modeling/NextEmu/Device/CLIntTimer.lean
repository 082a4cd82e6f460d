import NextEmu.Device.CLIntRegisters

/-!
# The timer interrupt

The timer line of a hart is due while the time that a guest reads has reached the compare value
of the hart. `tick` compares with `>` and before it advances the time, so the line it leaves is
that of a compare value which is two ticks behind.
-/

namespace NextEmu.Device.CLIntTimer

open NextEmu.Sdk NextEmu.Simple CLInt CLIntRegisters

variable {nrHart : Nat}

/-- What a load of `mtime` returns. -/
def guestTime (c : CLInt nrHart) : Option (BitVec 64) :=
  match c.load 0xbff8 8 0 with
  | .ok (.success, t) => some t
  | _ => none

/-- The timer lines are those for the time that a guest reads. -/
def Level (c : CLInt nrHart) : Prop :=
  ∀ i : Fin nrHart, (c.intContexts.get i).mtip = true ↔
    ∃ t, guestTime c = some t ∧ c.mtimecmp.get i ≤ t

/-- The compare value is neither the time nor the next one; before the time wraps to 0, it is 0 or
the time. -/
def Apart (mtime mtimecmp : BitVec 64) : Prop :=
  if mtime = -1 then mtimecmp = 0 ∨ mtimecmp = -1 else mtimecmp ≠ mtime ∧ mtimecmp ≠ mtime + 1

/-- At each tick of a run a relation between the device before and behind it. -/
def EveryTick (R : CLInt nrHart → CLInt nrHart → Prop) (c : CLInt nrHart) : List Op → Prop
  | [] => True
  | op :: ops =>
    (op = .tick → R c c.tick) ∧ ∀ c', c.apply op = .ok c' → EveryTick R c' ops

section Tick

variable {c : CLInt nrHart}

theorem guestTime_eq (c : CLInt nrHart) : guestTime c = some c.mtime := by
  have hcopy : copyFrom (w := 8) #v[c.mtime] 0 8 = .ok c.mtime := by
    unfold copyFrom
    rw [if_pos (by decide), readBytes_one]
  have hread : c.doRead (0xbff8 % 0x10000) 8 0 = .ok (true, c.mtime) := by
    unfold doRead
    dsimp only
    rw [if_pos (by decide), if_pos (by decide)]
    show (do return (true, ← copyFrom (w := 8) #v[c.mtime] 0 8)) = _
    rw [hcopy]
    rfl
  unfold guestTime load
  rw [hread]
  rfl

/-- Where the comparison of `tick` is the one that is due behind it. -/
theorem less_iff_apart (t cmp : BitVec 64) : (cmp < t ↔ cmp ≤ t + 1) ↔ Apart t cmp := by
  have hone : (1 : BitVec 64).toNat = 1 := rfl
  have htop : (-1 : BitVec 64).toNat = 2 ^ 64 - 1 := by decide
  have hzero : (0 : BitVec 64).toNat = 0 := rfl
  have ht := t.isLt
  have hc := cmp.isLt
  unfold Apart
  rw [BitVec.lt_def, BitVec.le_def, BitVec.toNat_add, hone]
  by_cases hlast : t = -1
  · rw [if_pos hlast, ← BitVec.toNat_inj, ← BitVec.toNat_inj, hlast, htop, hzero]
    omega
  · have hne : t.toNat ≠ 2 ^ 64 - 1 := fun h => hlast (BitVec.eq_of_toNat_eq (h.trans htop.symm))
    rw [if_neg hlast, Ne, Ne, ← BitVec.toNat_inj, ← BitVec.toNat_inj, BitVec.toNat_add, hone]
    omega

theorem level_tick_iff (c : CLInt nrHart) :
    Level c.tick ↔ ∀ i : Fin nrHart, Apart c.mtime (c.mtimecmp.get i) := by
  obtain ⟨contexts, htick⟩ := c.tick_eq
  have htime : c.tick.mtime = c.mtime + 1 := by rw [htick]
  have hcmp : c.tick.mtimecmp = c.mtimecmp := by rw [htick]
  apply forall_congr'
  intro i
  rw [← less_iff_apart, tick_mtip, guestTime_eq, htime, hcmp]
  unfold mTIrq
  rw [decide_eq_true_iff]
  apply iff_congr Iff.rfl
  constructor
  · rintro ⟨t, htime, hle⟩
    cases htime
    exact hle
  · intro hle
    exact ⟨_, rfl, hle⟩

end Tick

/-- In a run the timer lines are right behind every tick exactly when at each the compare values
are apart from the time. -/
theorem level_everyTick_iff (c : CLInt nrHart) (ops : List Op) :
    EveryTick (fun _ after => Level after) c ops ↔
      EveryTick (fun before _ => ∀ i : Fin nrHart, Apart before.mtime (before.mtimecmp.get i))
        c ops := by
  induction ops generalizing c with
  | nil => exact Iff.rfl
  | cons op ops ih =>
    apply and_congr
    · apply forall_congr'
      intro _
      exact level_tick_iff c
    · apply forall_congr'
      intro c'
      apply forall_congr'
      intro _
      exact ih c'

/-- The first tick of a new device, whose hart is due at once. -/
theorem first_tick_late :
    ¬ EveryTick (fun _ after => Level after) (init #v[default]) [.tick] := by
  intro h
  have hlevel := (level_tick_iff _).mp (h.1 rfl) 0
  unfold Apart at hlevel
  exact absurd hlevel (by decide)

end NextEmu.Device.CLIntTimer
