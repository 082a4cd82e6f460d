import Mathlib.Data.List.Induction
import Mathlib.Tactic.ByContra
import NextEmu.Sdk.AddrBus

/-!
# Reservations against stores

A run of one `AddrBus` is a list of calls in the order in which the bus served
them, by whatever hart or other master. The reservation is atomic when a check
that succeeds has seen no store into its bytes since they were reserved. The bus
ends a reservation only on a store that covers it from end to end, so a store
into some of its bytes is missed; `atomic_iff_covering` says that this is the
only way to lose atomicity.
-/

namespace NextEmu.Sdk.Reservation

/-- One call on the bus. -/
inductive BusOp
  | reserve (beginAddr : Addr) (len hartId : BitVec 64)
  | check (beginAddr : Addr) (len hartId : BitVec 64)
  | load (beginAddr : Addr) (len : Nat)
  | store (beginAddr : Addr) (len : Nat) (data : BitVec (8 * len))

variable {δ : Type}

/-- The reservation that `check a n h` would find. -/
def Live (b : AddrBus δ) (a : Addr) (n h : BitVec 64) : Prop :=
  b.reservationValid = true ∧ b.reserveBeginAddr = a ∧ b.reserveLen = n ∧ b.reserveForHart = h

theorem check_iff_live (b : AddrBus δ) (a : Addr) (n h : BitVec 64) :
    (b.check a n h).1 = true ↔ Live b a n h := by
  unfold AddrBus.check SlaveAtomic.check Live
  cases hv : b.reservationValid
  · simp
  · simp only [↓reduceIte, Bool.and_eq_true, beq_iff_eq, true_and]
    constructor
    · rintro ⟨⟨rfl, rfl⟩, rfl⟩
      exact ⟨rfl, rfl, rfl⟩
    · rintro ⟨rfl, rfl, rfl⟩
      exact ⟨⟨rfl, rfl⟩, rfl⟩

theorem live_of_reservation_eq {b c : AddrBus δ} (hbc : b.toSlaveAtomic = c.toSlaveAtomic)
    {a : Addr} {n h : BitVec 64} : Live b a n h ↔ Live c a n h := by
  unfold Live
  rw [hbc]

/-- After a check nothing is reserved. -/
theorem check_not_live (b : AddrBus δ) (a : Addr) (n h : BitVec 64) (a' : Addr)
    (n' h' : BitVec 64) : ¬ Live (b.check a' n' h').2 a n h := by
  unfold Live AddrBus.check SlaveAtomic.check
  cases hv : b.reservationValid <;> simp [hv]

variable [SlaveIOI δ]

def apply (b : AddrBus δ) : BusOp → AddrBus δ
  | .reserve a n h => b.reserve a n h
  | .check a n h => (b.check a n h).2
  | .load a n => (b.load a n).2
  | .store a n x => (b.store a n x).2

def run (b : AddrBus δ) (ops : List BusOp) : AddrBus δ := ops.foldl apply b

/-- Some byte address lies in `[s, s + m)` and in `[a, a + n)`. -/
def Overlaps (s : Addr) (m : Nat) (a : Addr) (n : BitVec 64) : Prop :=
  max s.toNat a.toNat < min (s.toNat + m) (a.toNat + n.toNat)

instance (s : Addr) (m : Nat) (a : Addr) (n : BitVec 64) : Decidable (Overlaps s m a n) :=
  inferInstanceAs (Decidable (_ < _))

theorem overlaps_iff {s : Addr} {m : Nat} {a : Addr} {n : BitVec 64} :
    Overlaps s m a n ↔ ∃ x : Nat,
      (s.toNat ≤ x ∧ x < s.toNat + m) ∧ (a.toNat ≤ x ∧ x < a.toNat + n.toNat) := by
  unfold Overlaps
  constructor
  · intro h
    exact ⟨max s.toNat a.toNat, by omega⟩
  · rintro ⟨x, h⟩
    omega

/-- The stores of a run since its last `reserve a n h`, oldest first. -/
def storesSince (a : Addr) (n h : BitVec 64) : List BusOp → List (Addr × Nat) :=
  List.foldl (fun acc op =>
    match op with
    | .reserve a' n' h' => if a' = a ∧ n' = n ∧ h' = h then [] else acc
    | .store s m _ => acc ++ [(s, m)]
    | .check .. => acc
    | .load .. => acc) []

/-- A successful `check a n h` after the run has missed no store. -/
def AtomicAt (b : AddrBus δ) (ops : List BusOp) (a : Addr) (n h : BitVec 64) : Prop :=
  ((run b ops).check a n h).1 = true →
    ∀ st ∈ storesSince a n h ops, ¬ Overlaps st.1 st.2 a n

/-- Atomicity at every point of the run, for every reservation. -/
def Atomic (b : AddrBus δ) (ops : List BusOp) : Prop :=
  ∀ p, p <+: ops → ∀ a n h, AtomicAt b p a n h

/-- A store into bytes under a live reservation reaches from before their first to
behind their last one, by the comparison that the bus makes. -/
def Covering (b : AddrBus δ) : BusOp → Prop
  | .store s m _ => b.reservationValid = true → Overlaps s m b.reserveBeginAddr b.reserveLen →
      s ≤ b.reserveBeginAddr ∧
        b.reserveBeginAddr + b.reserveLen ≤ s + BitVec.ofNat 64 m
  | _ => True

/-- Every call of the run is covering in the state it is made in. -/
def RunCovering (b : AddrBus δ) (ops : List BusOp) : Prop :=
  ∀ p op, p ++ [op] <+: ops → Covering (run b p) op

/-! ## What one call does to the reservation -/

@[simp] theorem run_snoc (b : AddrBus δ) (p : List BusOp) (op : BusOp) :
    run b (p ++ [op]) = apply (run b p) op := by simp [run]

theorem load_reservation (b : AddrBus δ) (a : Addr) (n : Nat) :
    (b.load a n).2.toSlaveAtomic = b.toSlaveAtomic := by
  unfold AddrBus.load
  split
  · rfl
  · split <;> rfl

theorem storeRouted_reservation (b : AddrBus δ) (a : Addr) (n : Nat) (x : BitVec (8 * n)) :
    (b.storeRouted a n x).2.toSlaveAtomic = b.toSlaveAtomic := by
  unfold AddrBus.storeRouted
  split
  · rfl
  · split <;> rfl

theorem store_reservation (b : AddrBus δ) (a : Addr) (n : Nat) (x : BitVec (8 * n)) :
    (b.store a n x).2.toSlaveAtomic =
      (b.breakReservation a (BitVec.ofNat 64 n)).toSlaveAtomic :=
  storeRouted_reservation _ _ _ _

/-- A reservation that outlives a store was live before it, and the store was not
one of those that the bus ends a reservation for. -/
theorem live_store {b : AddrBus δ} {a : Addr} {n h : BitVec 64} {s : Addr} {m : Nat}
    {x : BitVec (8 * m)} : Live (b.store s m x).2 a n h ↔
      Live b a n h ∧ ¬ (s ≤ a ∧ a + n ≤ s + BitVec.ofNat 64 m) := by
  rw [live_of_reservation_eq (c := b.breakReservation s (BitVec.ofNat 64 m))
    (store_reservation b s m x)]
  unfold AddrBus.breakReservation
  by_cases hv : b.reservationValid = true
  · by_cases hc : s ≤ b.reserveBeginAddr ∧
        b.reserveBeginAddr + b.reserveLen ≤ s + BitVec.ofNat 64 m
    · simp only [hv, hc, and_self, ↓reduceIte]
      constructor
      · rintro ⟨h0, -⟩
        cases h0
      · rintro ⟨⟨-, rfl, rfl, -⟩, hn⟩
        exact absurd hc hn
    · simp only [hv, hc, ↓reduceIte]
      constructor
      · intro hl
        refine ⟨hl, ?_⟩
        obtain ⟨-, rfl, rfl, -⟩ := hl
        exact hc
      · exact fun hl => hl.1
  · simp [hv, Live]

theorem storesSince_snoc (a : Addr) (n h : BitVec 64) (p : List BusOp) (op : BusOp) :
    storesSince a n h (p ++ [op]) =
      match op with
      | .reserve a' n' h' => if a' = a ∧ n' = n ∧ h' = h then [] else storesSince a n h p
      | .store s m _ => storesSince a n h p ++ [(s, m)]
      | .check .. => storesSince a n h p
      | .load .. => storesSince a n h p := by
  unfold storesSince
  rw [List.foldl_append]
  cases op <;> rfl

/-! ## Whole runs -/

/-- A live reservation has seen no store since it was made. -/
def Unstored (b : AddrBus δ) (ops : List BusOp) (a : Addr) (n h : BitVec 64) : Prop :=
  Live (run b ops) a n h → ∀ st ∈ storesSince a n h ops, ¬ Overlaps st.1 st.2 a n

theorem atomicAt_iff (b : AddrBus δ) (ops : List BusOp) (a : Addr) (n h : BitVec 64) :
    AtomicAt b ops a n h ↔ Unstored b ops a n h := by
  unfold AtomicAt Unstored
  rw [check_iff_live]

/-- One covering call keeps the reservation honest. -/
theorem unstored_snoc {b : AddrBus δ} {p : List BusOp} {op : BusOp} {a : Addr} {n h : BitVec 64}
    (hp : Unstored b p a n h) (hc : Covering (run b p) op) : Unstored b (p ++ [op]) a n h := by
  unfold Unstored at hp ⊢
  rw [run_snoc, storesSince_snoc]
  intro hl
  cases op with
  | reserve a' n' h' =>
    simp only [apply, AddrBus.reserve, SlaveAtomic.reserve, Live] at hl
    obtain ⟨-, rfl, rfl, rfl⟩ := hl
    simp
  | check a' n' h' => exact absurd hl (check_not_live _ _ _ _ _ _ _)
  | load a' n' => exact hp ((live_of_reservation_eq (load_reservation _ _ _)).mp hl)
  | store s m x =>
    obtain ⟨hlive, hn⟩ := live_store.mp hl
    intro st hst
    rcases List.mem_append.mp hst with hold | hnew
    · exact hp hlive st hold
    · simp only [List.mem_singleton] at hnew
      subst hnew
      intro ho
      obtain ⟨hv, rfl, rfl, -⟩ := hlive
      exact hn (hc hv ho)

theorem unstored_of_covering {b : AddrBus δ} {a : Addr} {n h : BitVec 64} (ops : List BusOp)
    (hc : RunCovering b ops) : Unstored b ops a n h := by
  induction ops using List.reverseRecOn with
  | nil => intro _ st hst; simp [storesSince] at hst
  | append_singleton p op ih =>
    have hp : RunCovering b p :=
      fun q o hq => hc q o (hq.trans (List.prefix_append p [op]))
    exact unstored_snoc (ih hp) (hc p op (List.prefix_refl _))

/-- Atomicity holds throughout a run exactly when every store into bytes under a
live reservation covers them. -/
theorem atomic_iff_covering (b : AddrBus δ) (ops : List BusOp) :
    Atomic b ops ↔ RunCovering b ops := by
  constructor
  · intro ha p op hp
    cases op with
    | store s m x =>
      intro hv ho
      by_contra hn
      have hlive : Live (run b p) (run b p).reserveBeginAddr (run b p).reserveLen
          (run b p).reserveForHart := ⟨hv, rfl, rfl, rfl⟩
      have hafter := live_store (x := x).mpr ⟨hlive, hn⟩
      rw [← check_iff_live] at hafter
      refine ha _ hp _ _ _ (by rwa [run_snoc]) (s, m) ?_ ho
      rw [storesSince_snoc]
      simp
    | reserve => trivial
    | check => trivial
    | load => trivial
  · intro hc p hp a n h
    rw [atomicAt_iff]
    exact unstored_of_covering p (fun q o hq => hc q o (hq.trans hp))

/-- A doubleword is reserved, its low word stored, and the check still succeeds. -/
theorem partial_store_missed :
    ¬ ∀ (b : AddrBus Empty) (ops : List BusOp), Atomic b ops := by
  intro hall
  have h := hall AddrBus.empty [.reserve 0x80000000 8 0, .store 0x80000000 4 0xdeadbeef]
    _ (List.prefix_refl _) 0x80000000 8 0
  exact absurd (h (by decide) (0x80000000, 4) (by decide)) (by decide)

/-! ## Ownership

The same runs, seen from the harts: which call of the run a successful check
owes its success to.
-/

/-- Call `j` of the run is a check that returns true. -/
def Wins (b : AddrBus δ) (ops : List BusOp) (j : Nat) (a : Addr) (n h : BitVec 64) : Prop :=
  ops[j]? = some (.check a n h) ∧ ((run b (ops.take j)).check a n h).1 = true

/-- Calls `i < k < j` are loads and stores. -/
def OnlyTransfers (ops : List BusOp) (i j : Nat) : Prop :=
  ∀ k, i < k → k < j → ∀ op, ops[k]? = some op →
    (∃ a n, op = .load a n) ∨ ∃ a n x, op = .store a n x

/-- Call `i` is the most recent reserve before call `j`, and no check has come after it. -/
def Grants (ops : List BusOp) (i j : Nat) (a : Addr) (n h : BitVec 64) : Prop :=
  i < j ∧ ops[i]? = some (.reserve a n h) ∧ OnlyTransfers ops i j

/-- Call `i` is the most recent reserve before call `j`. -/
def LastReserve (ops : List BusOp) (i j : Nat) : Prop :=
  i < j ∧ (∃ a n h, ops[i]? = some (.reserve a n h)) ∧
    ∀ k, i < k → k < j → ∀ a n h, ops[k]? ≠ some (.reserve a n h)

theorem take_succ_run (b : AddrBus δ) {ops : List BusOp} {j : Nat} {op : BusOp}
    (hop : ops[j]? = some op) : run b (ops.take (j + 1)) = apply (run b (ops.take j)) op := by
  rw [List.take_add_one, hop]
  exact run_snoc b (ops.take j) op

theorem Grants.succ {ops : List BusOp} {i j : Nat} {a : Addr} {n h : BitVec 64}
    (hg : Grants ops i j a n h)
    (hj : ∀ op, ops[j]? = some op → (∃ a n, op = .load a n) ∨ ∃ a n x, op = .store a n x) :
    Grants ops i (j + 1) a n h := by
  obtain ⟨hlt, hres, honly⟩ := hg
  refine ⟨by omega, hres, ?_⟩
  intro k hik hkj op hop
  rcases Nat.lt_or_ge k j with hk | hk
  · exact honly k hik hk op hop
  · have hkj' : k = j := by omega
    rw [hkj'] at hop
    exact hj op hop

/-- A live reservation was made by the most recent reserve, unchecked since. -/
theorem live_granted {b : AddrBus δ} (hb : b.reservationValid = false) (ops : List BusOp)
    (j : Nat) (a : Addr) (n h : BitVec 64) (hl : Live (run b (ops.take j)) a n h) :
    ∃ i, Grants ops i j a n h := by
  induction j with
  | zero =>
    rw [List.take_zero] at hl
    exact absurd hl.1 (by simp [run, hb])
  | succ j ih =>
    cases hop : ops[j]? with
    | none =>
      have htake : ops.take (j + 1) = ops.take j := by
        rw [List.take_add_one, hop]
        simp
      rw [htake] at hl
      obtain ⟨i, hg⟩ := ih hl
      exact ⟨i, hg.succ (fun op h => by rw [hop] at h; cases h)⟩
    | some op =>
      rw [take_succ_run b hop] at hl
      cases op with
      | reserve a' n' h' =>
        obtain ⟨-, rfl, rfl, rfl⟩ := hl
        exact ⟨j, by omega, hop, fun k hk hkj => by omega⟩
      | check a' n' h' => exact absurd hl (check_not_live _ _ _ _ _ _ _)
      | load a' n' =>
        obtain ⟨i, hg⟩ := ih ((live_of_reservation_eq (load_reservation _ _ _)).mp hl)
        refine ⟨i, hg.succ ?_⟩
        intro op h
        rw [hop] at h
        exact .inl ⟨a', n', (Option.some.inj h).symm⟩
      | store s m x =>
        obtain ⟨i, hg⟩ := ih (live_store.mp hl).1
        refine ⟨i, hg.succ ?_⟩
        intro op h
        rw [hop] at h
        exact .inr ⟨s, m, x, (Option.some.inj h).symm⟩

theorem Wins.granted {b : AddrBus δ} (hb : b.reservationValid = false) {ops : List BusOp}
    {j : Nat} {a : Addr} {n h : BitVec 64} (hw : Wins b ops j a n h) :
    ∃ i, Grants ops i j a n h :=
  live_granted hb ops j a n h ((check_iff_live _ _ _ _).mp hw.2)

/-- Between two successful checks the later winner has reserved. -/
theorem Wins.reserved_between {b : AddrBus δ} (hb : b.reservationValid = false)
    {ops : List BusOp} {j k : Nat} {a a' : Addr} {n h n' h' : BitVec 64}
    (hj : Wins b ops j a n h) (hk : Wins b ops k a' n' h') (hjk : j < k) :
    ∃ i, j < i ∧ Grants ops i k a' n' h' := by
  obtain ⟨i, hg⟩ := hk.granted hb
  refine ⟨i, ?_, hg⟩
  obtain ⟨-, hres, honly⟩ := hg
  rcases Nat.lt_trichotomy i j with hij | hij | hij
  · rcases honly j hij hjk _ hj.1 with ⟨_, _, ho⟩ | ⟨_, _, _, ho⟩ <;> cases ho
  · rw [hij, hj.1] at hres
    cases hres
  · exact hij

/-- A check that succeeds is answered by the most recent reserve of all harts, which was
the same reservation by the same hart and has not been checked since; of two successful
checks the later has a reserve of its own after the earlier; and no reserve answers two. -/
theorem reservation_owned (b : AddrBus δ) (hb : b.reservationValid = false) (ops : List BusOp) :
    (∀ j a n h, Wins b ops j a n h → ∃ i, Grants ops i j a n h) ∧
    (∀ j k a n h a' n' h', j < k → Wins b ops j a n h → Wins b ops k a' n' h' →
      ∃ i, j < i ∧ i < k ∧ ops[i]? = some (.reserve a' n' h')) ∧
    (∀ i j k a n h a' n' h', LastReserve ops i j → LastReserve ops i k →
      Wins b ops j a n h → Wins b ops k a' n' h' → j = k) := by
  have hbetween : ∀ j k a n h a' n' h', j < k → Wins b ops j a n h → Wins b ops k a' n' h' →
      ∃ i, j < i ∧ i < k ∧ ops[i]? = some (.reserve a' n' h') := by
    intro j k a n h a' n' h' hjk hj hk
    obtain ⟨i, hji, hik, hres, -⟩ := hj.reserved_between hb hk hjk
    exact ⟨i, hji, hik, hres⟩
  have hone : ∀ i j k a n h a' n' h', LastReserve ops i j → LastReserve ops i k →
      Wins b ops j a n h → Wins b ops k a' n' h' → ¬ j < k := by
    intro i j k a n h a' n' h' hi hik hj hk hlt
    obtain ⟨m, hjm, hmk, hres⟩ := hbetween _ _ _ _ _ _ _ _ hlt hj hk
    exact hik.2.2 m (by have := hi.1; omega) hmk _ _ _ hres
  refine ⟨fun j a n h hw => hw.granted hb, hbetween, ?_⟩
  intro i j k a n h a' n' h' hi hik hj hk
  have h1 := hone _ _ _ _ _ _ _ _ _ hi hik hj hk
  have h2 := hone _ _ _ _ _ _ _ _ _ hik hi hk hj
  omega

theorem reservation_owned_two_harts :
    (AddrBus.empty (δ := Empty)).reservationValid = false ∧
    ∃ i, Grants [.reserve 0x80000000 8 0, .reserve 0x80000008 4 1, .load 0x80000000 8,
      .check 0x80000008 4 1] i 3 0x80000008 4 1 :=
  ⟨rfl, (reservation_owned (AddrBus.empty (δ := Empty)) rfl _).1 3 _ _ _ ⟨rfl, by decide⟩⟩

end NextEmu.Sdk.Reservation
