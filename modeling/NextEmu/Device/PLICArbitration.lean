import NextEmu.Device.PLIC
import NextEmu.Lib.Arbiter

/-!
# The arbitration of the interrupt controller

What `get_int` caches for a context. A source whose priority is above the threshold of the
context is due, and of these the first one with the greatest priority. The code also lets a
source through whose priority is the threshold itself, which shows when no source is above it.
-/

namespace NextEmu.Device.PLICArbitration

open PLIC NextEmu.Lib.Arbiter

variable {nrSource nrContext : Nat}

def rank (p : PLIC nrSource nrContext) (i : Nat) : Nat := (p.priority[i]?.getD 0).toNat

/-- A source that is pending, enabled for the context and not claimed. -/
structure Waiting (p : PLIC nrSource nrContext) (contextId : Fin nrContext) (i : Nat) : Prop where
  pos : 1 ≤ i
  le : i ≤ nrSource
  pending : bitOf p.pending i = true
  enabled : bitOf (p.enable.get contextId) i = true
  unclaimed : bitOf p.claimed i = false

/-- A source that the context is due. -/
def Due (p : PLIC nrSource nrContext) (contextId : Fin nrContext) (i : Nat) : Prop :=
  Waiting p contextId i ∧ (p.threshold.get contextId).toNat < rank p i

/-- The answer and the cache of `get_int` are those of what is due. -/
structure Arbitrates (p : PLIC nrSource nrContext) (contextId : Fin nrContext)
    (r : Bool × PLIC nrSource nrContext) : Prop where
  raised : r.1 = true ↔ ∃ i, Due p contextId i
  chosen : ∀ i, First (Due p contextId) (rank p) i → r.2.claim.get contextId = BitVec.ofNat 32 i
  idle : (¬ ∃ i, Due p contextId i) → r.2.claim.get contextId = 0

/-- A source waits at the threshold, which is not 0, and none above it. -/
def AtThreshold (p : PLIC nrSource nrContext) (contextId : Fin nrContext) : Prop :=
  (∃ i, Waiting p contextId i ∧ rank p i = (p.threshold.get contextId).toNat ∧ rank p i ≠ 0) ∧
    ∀ i, Waiting p contextId i → rank p i ≤ (p.threshold.get contextId).toNat

section Loop

variable {p : PLIC nrSource nrContext} {contextId : Fin nrContext} {i n : Nat}

/-- A source that the loop takes when nothing better is there. -/
def Passes (p : PLIC nrSource nrContext) (contextId : Fin nrContext) (i : Nat) : Prop :=
  Waiting p contextId i ∧ (p.threshold.get contextId).toNat ≤ rank p i ∧ 0 < rank p i

theorem ready_iff (p : PLIC nrSource nrContext) (contextId : Fin nrContext) (hpos : 1 ≤ i)
    (hle : i ≤ nrSource) :
    p.ready contextId i = true ↔
      Waiting p contextId i ∧ (p.threshold.get contextId).toNat ≤ rank p i := by
  unfold ready rank
  simp only [Bool.and_eq_true, Bool.not_eq_true', decide_eq_true_eq, BitVec.le_def]
  constructor
  · rintro ⟨⟨⟨hthreshold, hpending⟩, henabled⟩, hclaimed⟩
    exact ⟨⟨hpos, hle, hpending, henabled, hclaimed⟩, hthreshold⟩
  · rintro ⟨⟨-, -, hpending, henabled, hclaimed⟩, hthreshold⟩
    exact ⟨⟨⟨hthreshold, hpending⟩, henabled⟩, hclaimed⟩

/-- What the loop knows after some sources: none passes, or which of them is the first best. -/
def Scanned (p : PLIC nrSource nrContext) (contextId : Fin nrContext) (n : Nat)
    (best : BitVec 32 × Nat) : Prop :=
  (best = (0, 0) ∧ ∀ j, ¬ UpTo (Passes p contextId) n j) ∨
    best.1.toNat = rank p best.2 ∧ First (UpTo (Passes p contextId) n) (rank p) best.2

/-- The next source does not pass, or is no better. -/
theorem scanned_keep {best : BitVec 32 × Nat} (h : Scanned p contextId n best)
    (hnext : Passes p contextId (n + 1) → rank p (n + 1) ≤ best.1.toNat) :
    Scanned p contextId (n + 1) best := by
  rcases h with ⟨hzero, hnone⟩ | ⟨hval, hfirst⟩
  · left
    refine ⟨hzero, fun j hj => ?_⟩
    rcases upTo_succ hj with ⟨-, hpass⟩ | hj
    · have hle := hnext hpass
      have hpos := hpass.2.2
      rw [hzero] at hle
      exact Nat.not_le_of_lt hpos hle
    · exact hnone j hj
  · right
    exact ⟨hval, hfirst.keep fun hpass => hval ▸ hnext hpass⟩

/-- One turn of the loop. -/
theorem scanned_succ {best : BitVec 32 × Nat} (hle : n + 1 ≤ nrSource)
    (h : Scanned p contextId n best) :
    Scanned p contextId (n + 1) (p.arbitrate contextId best (n + 1)) := by
  have hready := ready_iff p contextId (Nat.succ_pos n) hle
  have hless : best.1 < p.priority[n + 1]?.getD 0 ↔ best.1.toNat < rank p (n + 1) := BitVec.lt_def
  unfold arbitrate
  by_cases hpass : p.ready contextId (n + 1) = true
  · rw [if_pos hpass]
    by_cases hlt : best.1 < p.priority[n + 1]?.getD 0
    · rw [if_pos hlt]
      obtain ⟨hwait, hthreshold⟩ := hready.mp hpass
      have hgreater := hless.mp hlt
      have hpasses : Passes p contextId (n + 1) := ⟨hwait, hthreshold, by omega⟩
      right
      refine ⟨rfl, First.next hpasses fun j hj => ?_⟩
      rcases h with ⟨-, hnone⟩ | ⟨hval, hfirst⟩
      · exact absurd hj (hnone j)
      · have hmax := hfirst.greatest j hj
        omega
    · rw [if_neg hlt]
      exact scanned_keep h fun _ => Nat.le_of_not_lt (hlt ∘ hless.mpr)
  · rw [if_neg hpass]
    exact scanned_keep h fun hnext => absurd (hready.mpr ⟨hnext.1, hnext.2.1⟩) hpass

/-- The loop, over the first sources. -/
theorem scanned (p : PLIC nrSource nrContext) (contextId : Fin nrContext) (hle : n ≤ nrSource) :
    Scanned p contextId n ((List.range' 1 n).foldl (p.arbitrate contextId) (0, 0)) := by
  induction n with
  | zero =>
    left
    refine ⟨rfl, fun j hj => ?_⟩
    have hpos := hj.2.1.pos
    have hzero := hj.1
    omega
  | succ n ih =>
    rw [List.range'_1_concat, List.foldl_append, Nat.add_comm 1 n]
    exact scanned_succ hle (ih (Nat.le_of_succ_le hle))

/-- What `get_int` leaves: nothing when no source passes, or the first best one that does. -/
theorem getInt_cases (p : PLIC nrSource nrContext) (contextId : Fin nrContext)
    (hsource : nrSource < 2 ^ 31) :
    ((∀ i, ¬ Passes p contextId i) ∧ (p.getInt contextId).1 = false ∧
      (p.getInt contextId).2.claim.get contextId = 0) ∨
    ∃ i, First (Passes p contextId) (rank p) i ∧ (p.getInt contextId).1 = true ∧
      (p.getInt contextId).2.claim.get contextId = BitVec.ofNat 32 i := by
  have hall : ∀ {j}, Passes p contextId j → UpTo (Passes p contextId) nrSource j :=
    fun hj => ⟨hj.1.le, hj⟩
  have hclaim : ∀ v : BitVec 32, (p.claim.set contextId v).get contextId = v := fun v =>
    Vector.getElem_set_self _
  unfold getInt
  rcases scanned p contextId (Nat.le_refl nrSource) with
    ⟨hzero, hnone⟩ | ⟨-, hfirst⟩
  · left
    refine ⟨fun i hi => hnone i (hall hi), ?_, ?_⟩
    · rw [hzero]
      rfl
    · rw [hzero]
      exact hclaim 0
  · right
    have hpos := hfirst.asking.2.1.pos
    have hle := hfirst.asking.2.1.le
    refine ⟨_, hfirst.restrict hfirst.asking.2 fun j hj => hall hj, ?_, ?_⟩
    · have hne : BitVec.ofNat 32
          ((List.range' 1 nrSource).foldl (p.arbitrate contextId) (0, 0)).2 ≠ 0 := by
        intro heq
        have hval := congrArg BitVec.toNat heq
        rw [BitVec.toNat_ofNat, Nat.mod_eq_of_lt (by omega)] at hval
        have hz : (0 : BitVec 32).toNat = 0 := rfl
        omega
      dsimp only
      rw [if_pos (by omega)]
      exact bne_iff_ne.mpr hne
    · dsimp only
      rw [if_pos (by omega)]
      exact hclaim _

/-- What is due passes. -/
theorem Due.passes (h : Due p contextId i) : Passes p contextId i :=
  ⟨h.1, Nat.le_of_lt h.2, Nat.lt_of_le_of_lt (Nat.zero_le _) h.2⟩

/-- Nothing passes: nothing is due. -/
theorem arbitrates_of_none (hnone : ∀ i, ¬ Passes p contextId i)
    {r : Bool × PLIC nrSource nrContext} (hfalse : r.1 = false)
    (hclaim : r.2.claim.get contextId = 0) :
    Arbitrates p contextId r := by
  constructor
  · rw [hfalse]
    constructor
    · intro habs
      cases habs
    · rintro ⟨i, hi⟩
      exact absurd hi.passes (hnone i)
  · intro i hi
    exact absurd hi.asking.passes (hnone i)
  · intro _
    exact hclaim

/-- The first best source that passes is above the threshold: it is the one that is due. -/
theorem arbitrates_of_above (hfirst : First (Passes p contextId) (rank p) i)
    (habove : (p.threshold.get contextId).toNat < rank p i) {r : Bool × PLIC nrSource nrContext}
    (htrue : r.1 = true) (hclaim : r.2.claim.get contextId = BitVec.ofNat 32 i) :
    Arbitrates p contextId r := by
  have hdue : First (Due p contextId) (rank p) i :=
    hfirst.restrict ⟨hfirst.asking.1, habove⟩ fun j hj => hj.passes
  constructor
  · constructor
    · intro _
      exact ⟨i, hdue.asking⟩
    · intro _
      exact htrue
  · intro j hj
    rw [hj.unique hdue]
    exact hclaim
  · intro hidle
    exact absurd ⟨i, hdue.asking⟩ hidle

end Loop

/-! ## The lines -/

section Lines

/-- One turn of the loop of `tick`. -/
def drive (p : PLIC nrSource nrContext) (i : Fin nrContext) : PLIC nrSource nrContext :=
  let r := p.getInt i
  { r.2 with intContexts := r.2.intContexts.set i r.1 i.isLt }

theorem tick_eq (p : PLIC nrSource nrContext) :
    p.tick = (List.finRange nrContext).foldl drive p := rfl

theorem drive_line (p : PLIC nrSource nrContext) (i j : Fin nrContext) :
    (drive p j).intContexts.get i = if i = j then (p.getInt i).1 else p.intContexts.get i := by
  show (p.intContexts.set j _)[i.val] = _
  by_cases heq : i = j
  · subst heq
    rw [if_pos rfl, Vector.getElem_set_self]
  · have hne : (j : Nat) ≠ i := fun h => heq (Fin.ext h.symm)
    rw [if_neg heq, Vector.getElem_set_ne _ _ hne]
    rfl

theorem drive_claim (p : PLIC nrSource nrContext) (i j : Fin nrContext) :
    (drive p j).claim.get i =
      if i = j then (p.getInt i).2.claim.get i else p.claim.get i := by
  by_cases heq : i = j
  · subst heq
    rw [if_pos rfl]
    rfl
  · have hne : (j : Nat) ≠ i := fun h => heq (Fin.ext h.symm)
    rw [if_neg heq]
    show (p.claim.set j _)[i.val] = _
    rw [Vector.getElem_set_ne _ _ hne]
    rfl

/-- The loop answers for each context as `get_int` does before it. -/
theorem foldl_drive (is : List (Fin nrContext)) (p : PLIC nrSource nrContext)
    (i : Fin nrContext) :
    (i ∈ is → (is.foldl drive p).intContexts.get i = (p.getInt i).1 ∧
      (is.foldl drive p).claim.get i = (p.getInt i).2.claim.get i) ∧
    (i ∉ is → (is.foldl drive p).intContexts.get i = p.intContexts.get i ∧
      (is.foldl drive p).claim.get i = p.claim.get i) := by
  induction is generalizing p with
  | nil => exact ⟨fun hmem => absurd hmem List.not_mem_nil, fun _ => ⟨rfl, rfl⟩⟩
  | cons j is ih =>
    obtain ⟨hin, hout⟩ := ih (drive p j)
    -- `get_int` looks at none of what the turn has written
    have hanswer : ((drive p j).getInt i).1 = (p.getInt i).1 := rfl
    have hcache : ((drive p j).getInt i).2.claim.get i = (p.getInt i).2.claim.get i := by
      show ((drive p j).claim.set i _)[i.val] = (p.claim.set i _)[i.val]
      rw [Vector.getElem_set_self, Vector.getElem_set_self]
      rfl
    rw [hanswer, hcache] at hin
    rw [drive_line, drive_claim] at hout
    rw [List.foldl_cons, List.mem_cons]
    by_cases hrest : i ∈ is
    · exact ⟨fun _ => hin hrest, fun hnone => absurd (.inr hrest) hnone⟩
    · by_cases heq : i = j
      · rw [if_pos heq, if_pos heq] at hout
        exact ⟨fun _ => hout hrest, fun hnone => absurd (.inl heq) hnone⟩
      · rw [if_neg heq, if_neg heq] at hout
        exact ⟨fun hmem => absurd hmem (by simp [heq, hrest]), fun _ => hout hrest⟩

/-- The line of a context is up exactly when a source passes. -/
theorem tick_line (p : PLIC nrSource nrContext) (i : Fin nrContext) (hsource : nrSource < 2 ^ 31) :
    p.tick.intContexts.get i = true ↔ ∃ j, Passes p i j := by
  rw [tick_eq, ((foldl_drive _ p i).1 (List.mem_finRange i)).1]
  rcases getInt_cases p i hsource with ⟨hnone, hfalse, -⟩ | ⟨j, hfirst, htrue, -⟩
  · rw [hfalse]
    exact iff_of_false Bool.false_ne_true fun ⟨j, hj⟩ => hnone j hj
  · rw [htrue]
    exact iff_of_true rfl ⟨j, hfirst.asking⟩

/-- The claim register caches a source that passes, if there is one. -/
theorem tick_claim (p : PLIC nrSource nrContext) (i : Fin nrContext) (hsource : nrSource < 2 ^ 31)
    {j : Nat} (hj : Passes p i j) :
    ∃ j, Passes p i j ∧ p.tick.claim.get i = BitVec.ofNat 32 j := by
  rw [tick_eq, ((foldl_drive _ p i).1 (List.mem_finRange i)).2]
  rcases getInt_cases p i hsource with ⟨hnone, -, -⟩ | ⟨j, hfirst, -, hclaim⟩
  · exact absurd hj (hnone j)
  · exact ⟨j, hfirst.asking, hclaim⟩

theorem tick_pending (p : PLIC nrSource nrContext) : p.tick.pending = p.pending := by
  rw [tick_eq]
  induction List.finRange nrContext generalizing p with
  | nil => rfl
  | cons i is ih => exact ih (drive p i)

end Lines

/-- `get_int` arbitrates as it should exactly when no source waits at the threshold with none above
it. -/
theorem arbitrates_iff (p : PLIC nrSource nrContext) (contextId : Fin nrContext)
    (hsource : nrSource < 2 ^ 31) :
    Arbitrates p contextId (p.getInt contextId) ↔ ¬ AtThreshold p contextId := by
  rcases getInt_cases p contextId hsource with
    ⟨hnone, hfalse, hclaim⟩ | ⟨i, hfirst, htrue, hclaim⟩
  · apply iff_of_true (arbitrates_of_none hnone hfalse hclaim)
    rintro ⟨⟨j, hwait, hrank, hne⟩, -⟩
    exact hnone j ⟨hwait, by omega, by omega⟩
  · obtain ⟨hwait, hle, hpos⟩ := hfirst.asking
    by_cases habove : (p.threshold.get contextId).toNat < rank p i
    · apply iff_of_true (arbitrates_of_above hfirst habove htrue hclaim)
      rintro ⟨-, hmost⟩
      have hbelow := hmost i hwait
      omega
    -- the best one that passes is at the threshold, so nothing is due
    · have hat : rank p i = (p.threshold.get contextId).toNat := by omega
      apply iff_of_false
      · intro harb
        obtain ⟨j, hdue⟩ := harb.raised.mp htrue
        have hbest := hfirst.greatest j hdue.passes
        have hover := hdue.2
        omega
      · intro hnot
        apply hnot
        constructor
        · exact ⟨i, hwait, hat, by omega⟩
        · intro j hj
          by_cases hover : (p.threshold.get contextId).toNat < rank p j
          · have hbest := hfirst.greatest j (Due.passes ⟨hj, hover⟩)
            omega
          · omega

/-- Source 1 has the priority 1, is pending and enabled, and the threshold is 1. -/
def equalToThreshold : PLIC 1 1 where
  priority := #v[0, 1]
  pending := #v[2]
  enable := #v[#v[2]]
  threshold := #v[1]
  claim := #v[0]
  claimed := #v[0]
  intContexts := #v[false]

/-- The context is raised for a source whose priority is not above the threshold. -/
theorem equalToThreshold_raised : ¬ Arbitrates equalToThreshold 0 (equalToThreshold.getInt 0) := by
  intro harb
  obtain ⟨i, hwait, hover⟩ := harb.raised.mp (by decide)
  have hone : i = 1 := Nat.le_antisymm hwait.le hwait.pos
  subst hone
  exact absurd hover (by decide)

/-- The same with the threshold 0. -/
def overThreshold : PLIC 1 1 := { equalToThreshold with threshold := #v[0] }

theorem overThreshold_arbitrates :
    1 < 2 ^ 31 ∧ Arbitrates overThreshold 0 (overThreshold.getInt 0) := by
  constructor
  · decide
  · apply (arbitrates_iff overThreshold 0 (by decide)).mpr
    rintro ⟨⟨i, -, hrank, hne⟩, -⟩
    exact hne hrank

end NextEmu.Device.PLICArbitration
