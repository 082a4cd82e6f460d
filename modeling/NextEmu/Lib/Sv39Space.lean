import NextEmu.Lib.MappedMemory
import NextEmu.Lib.RiscVMachine
import NextEmu.Lib.Sv39

/-!
# Address spaces of Sv39

What a program of U or S mode has for its memory when its addresses are translated: the bytes
of main memory that leaves of its tables give to canonical addresses, for the accesses that
the leaves permit. Leaves that are global, and what MXR adds, are left aside.
-/

namespace NextEmu.Lib.Sv39

open NextEmu.Lib.BitField NextEmu.Lib.MappedMemory NextEmu.Lib.RiscV

def Entry.g (pte : BitVec 64) : Bool := pte.getLsbD 5

inductive Access
  | load
  | store
  | fetch
  deriving DecidableEq, Repr

/-- What a leaf permits to a program of U mode, or of S mode under SUM. -/
def Leaf.allows (leaf : Leaf) (user sum : Bool) : Access → Bool
  | .load => leaf.permits user sum false false
  | .store => leaf.permits user sum false true
  | .fetch => Entry.a leaf.pte && Entry.x leaf.pte && (Entry.u leaf.pte == user)

instance (va : BitVec 64) : Decidable (Canonical va) :=
  decidable_of_iff (∀ i : Fin 64, 39 ≤ i.val → va.getLsbD i.val = va.getLsbD 38)
    ⟨fun h i hlo hhi => h ⟨i, hhi⟩ hlo, fun h i hlo => h i.val hlo i.isLt⟩

/-- The entries that a walk reads, from the table at `a` of level `i`. -/
def entries (m : BitVec 64 → BitVec 64) (va : BitVec 64) :
    (i : Nat) → (a : BitVec 64) → List (BitVec 64)
  | 0, a => [a + (vpn 0 va).setWidth 64 * 8]
  | i + 1, a =>
    let pte := m (a + (vpn (i + 1) va).setWidth 64 * 8)
    (a + (vpn (i + 1) va).setWidth 64 * 8) ::
      if Entry.r pte || Entry.x pte then []
      else entries m va i ((Entry.ppn pte).setWidth 64 <<< 12)

/-- The tables of a program, what they hold, its mode and SUM, and main memory. -/
structure Paging where
  rd : Reserved
  tables : BitVec 64 → BitVec 64
  root : BitVec 44
  user : Bool
  sum : Bool
  main : MainMemory

namespace Paging

variable (g : Paging)

/-- The leaf that the program has for an address. -/
def leaf (va : BitVec 64) : Option Leaf :=
  if Canonical va then (leafOf g.rd g.tables g.root va).filter fun leaf => !Entry.g leaf.pte
  else none

/-- Where an access finds its bytes, if the program may have it. -/
def target (acc : Access) (va : BitVec 64) (n : Nat) : Option (BitVec 64) :=
  (g.leaf va).bind fun leaf =>
    if leaf.allows g.user g.sum acc ∧ g.main.Has (leaf.physAddr va) n then some (leaf.physAddr va)
    else none

/-- The places of the bytes that the program uses. -/
def used : Placement 64 64 := fun va =>
  [Access.load, .store, .fetch].findSome? fun acc => g.target acc va 1

/-- A word is fetched by its halves. -/
def space : AddressSpace where
  loads va n := (g.target .load va n).isSome
  stores va n := (g.target .store va n).isSome
  fetches va := (g.target .fetch va 2).isSome && (g.target .fetch (va + 2) 2).isSome

/-- The entries that are read for an address. -/
def entriesOf (va : BitVec 64) : List (BitVec 64) :=
  entries g.tables va 2 (g.root.setWidth 64 <<< 12)

/-- The program can write neither a byte that it uses by another address nor an entry of its
tables, and these are in main memory. -/
structure Separate : Prop where
  own : ∀ va va' pa, g.target .store va 1 = some pa → g.used va' = some pa → va' = va
  backed : ∀ va pa, g.used va = some pa → ∀ e ∈ g.entriesOf va, g.main.Has e 8
  beside : ∀ va va' pa pa', g.target .store va 1 = some pa → g.used va' = some pa' →
    ∀ e ∈ g.entriesOf va', ∀ k, k < 8 → e + BitVec.ofNat 64 k ≠ pa

end Paging

/-! ## The bytes of an access -/

/-- The bytes lie in the page of the first one. -/
def Inside (va : BitVec 64) (n : Nat) : Prop := va.toNat % 2 ^ 12 + n ≤ 2 ^ 12

section Pages

variable {va : BitVec 64} {n k : Nat}

theorem Inside.toNat_add (h : Inside va n) (hk : k < n) :
    (va + BitVec.ofNat 64 k).toNat = va.toNat + k ∧
      (va + BitVec.ofNat 64 k).toNat / 2 ^ 12 = va.toNat / 2 ^ 12 := by
  unfold Inside at h
  have hlt := va.isLt
  have hadd : (va + BitVec.ofNat 64 k).toNat = va.toNat + k := by
    rw [BitVec.toNat_add, BitVec.toNat_ofNat]
    omega
  rw [hadd]
  exact ⟨rfl, by omega⟩

/-- The bits above the offset are those of the page. -/
theorem getLsbD_page {va va' : BitVec 64} (h : va'.toNat / 2 ^ 12 = va.toNat / 2 ^ 12) {i : Nat}
    (hi : 12 ≤ i) : va'.getLsbD i = va.getLsbD i := by
  have hshift : va' >>> 12 = va >>> 12 := by
    refine BitVec.eq_of_toNat_eq ?_
    rw [BitVec.toNat_ushiftRight, BitVec.toNat_ushiftRight, Nat.shiftRight_eq_div_pow,
      Nat.shiftRight_eq_div_pow, h]
  have hbit := congrArg (·.getLsbD (i - 12)) hshift
  simp only [BitVec.getLsbD_ushiftRight] at hbit
  rw [Nat.add_sub_cancel' hi] at hbit
  exact hbit

theorem vpn_page {va va' : BitVec 64} (h : va'.toNat / 2 ^ 12 = va.toNat / 2 ^ 12) (i : Nat) :
    vpn i va' = vpn i va := by
  refine BitVec.eq_of_getLsbD_eq fun j hj => ?_
  simp only [vpn, BitVec.getLsbD_extractLsb']
  rw [getLsbD_page h (by omega)]

theorem canonical_page {va va' : BitVec 64} (h : va'.toNat / 2 ^ 12 = va.toNat / 2 ^ 12) :
    Canonical va' ↔ Canonical va := by
  have htop := getLsbD_page h (i := 38) (by decide)
  constructor
  · intro hc i hlo hhi
    rw [← htop, ← getLsbD_page h (by omega)]
    exact hc i hlo hhi
  · intro hc i hlo hhi
    rw [htop, getLsbD_page h (by omega)]
    exact hc i hlo hhi

theorem walk_page {rd : Reserved} {m : BitVec 64 → BitVec 64} {va va' : BitVec 64}
    (h : va'.toNat / 2 ^ 12 = va.toNat / 2 ^ 12) : ∀ (i : Nat) (a : BitVec 64),
    walk rd m va' i a = walk rd m va i a := by
  intro i
  induction i with
  | zero =>
    intro a
    unfold walk visit
    rw [vpn_page h]
  | succ i ih =>
    intro a
    unfold walk visit
    rw [vpn_page h, funext ih]

/-- Addresses of one page have one leaf. -/
theorem Paging.leaf_page (g : Paging) {va va' : BitVec 64}
    (h : va'.toNat / 2 ^ 12 = va.toNat / 2 ^ 12) : g.leaf va' = g.leaf va := by
  unfold Paging.leaf leafOf
  rw [walk_page h]
  simp only [canonical_page h]

/-- The places of a page are in its order. -/
theorem Leaf.physAddr_add (leaf : Leaf) (h : Inside va n) (hk : k < n) :
    leaf.physAddr (va + BitVec.ofNat 64 k) = leaf.physAddr va + BitVec.ofNat 64 k := by
  have hadd := (h.toNat_add hk).1
  unfold Inside at h
  refine BitVec.eq_of_toNat_eq ?_
  unfold Leaf.physAddr
  have h0 := (field leaf.pte 10 44).isLt
  have h1 := (field leaf.pte 19 35).isLt
  have h2 := (field leaf.pte 28 26).isLt
  split
  all_goals
    simp only [BitVec.toNat_add, BitVec.toNat_setWidth, toNat_append, BitVec.toNat_ofNat]
    rw [toNat_field _ 0, toNat_field _ 0, hadd]
    omega

theorem has_byte {r : MainMemory} {a : BitVec 64} (h : r.Has a n) (hk : k < n) :
    r.Has (a + BitVec.ofNat 64 k) 1 := by
  have hfirst := h.1
  have hlast := h.2
  have hlt := r.last.isLt
  unfold MainMemory.Has
  rw [BitVec.toNat_add, BitVec.toNat_ofNat]
  omega

end Pages

section Targets

variable {g : Paging} {acc : Access} {va pa : BitVec 64} {n k : Nat}

theorem target_some (h : g.target acc va n = some pa) : ∃ leaf, g.leaf va = some leaf ∧
    leaf.allows g.user g.sum acc = true ∧ g.main.Has pa n ∧ leaf.physAddr va = pa := by
  obtain ⟨leaf, hleaf, htarget⟩ := Option.bind_eq_some_iff.mp h
  obtain ⟨⟨hallows, hhas⟩, hpa⟩ := Option.ite_none_right_eq_some.mp htarget
  cases hpa
  exact ⟨leaf, hleaf, hallows, hhas, rfl⟩

theorem target_of {leaf : Leaf} (hleaf : g.leaf va = some leaf)
    (hallows : leaf.allows g.user g.sum acc = true) (hhas : g.main.Has (leaf.physAddr va) n) :
    g.target acc va n = some (leaf.physAddr va) := by
  unfold Paging.target
  rw [hleaf, Option.bind_some, if_pos ⟨hallows, hhas⟩]

/-- Each byte of an access is one that the program may have by itself. -/
theorem target_byte (h : g.target acc va n = some pa) (hin : Inside va n) (hk : k < n) :
    g.target acc (va + BitVec.ofNat 64 k) 1 = some (pa + BitVec.ofNat 64 k) := by
  obtain ⟨leaf, hleaf, hallows, hhas, rfl⟩ := target_some h
  have hphys := leaf.physAddr_add hin hk
  rw [← hphys]
  refine target_of ?_ hallows ?_
  · rw [g.leaf_page (hin.toNat_add hk).2]
    exact hleaf
  · rw [hphys]
    exact has_byte hhas hk

/-- An address has one place, whatever the access. -/
theorem target_used (h : g.target acc va 1 = some pa) : g.used va = some pa := by
  have hsame : ∀ acc' pa', g.target acc' va 1 = some pa' → pa' = pa := by
    intro acc' pa' h'
    obtain ⟨leaf, hleaf, -, -, rfl⟩ := target_some h
    obtain ⟨leaf', hleaf', -, -, rfl⟩ := target_some h'
    rw [hleaf] at hleaf'
    cases hleaf'
    rfl
  cases hused : g.used va with
  | none =>
    have hnone := List.findSome?_eq_none_iff.mp hused acc (by cases acc <;> decide)
    rw [h] at hnone
    cases hnone
  | some pa' =>
    obtain ⟨acc', -, h'⟩ := List.exists_of_findSome?_eq_some hused
    rw [hsame acc' pa' h']

theorem used_target (h : g.used va = some pa) : ∃ acc, g.target acc va 1 = some pa := by
  obtain ⟨acc, -, hacc⟩ := List.exists_of_findSome?_eq_some h
  exact ⟨acc, hacc⟩

theorem target_placed (h : g.target acc va n = some pa) (hin : Inside va n) :
    Placed g.used va pa n := fun _ hk => target_used (target_byte h hin hk)

/-- Two halves of a word that lie in one page. -/
theorem target_word {high : BitVec 64} (hlow : g.target acc va 2 = some pa)
    (hhigh : g.target acc (va + 2) 2 = some high) (hin : Inside va 4) :
    g.target acc va 4 = some pa := by
  obtain ⟨leaf, hleaf, hallows, hhas, rfl⟩ := target_some hlow
  obtain ⟨leaf', hleaf', -, hhas', rfl⟩ := target_some hhigh
  have hpage := (hin.toNat_add (k := 2) (by decide)).2
  have hsame := g.leaf_page hpage
  have hphys := leaf.physAddr_add hin (k := 2) (by decide)
  change g.leaf (va + 2) = _ at hsame
  change leaf.physAddr (va + 2) = leaf.physAddr va + 2 at hphys
  rw [hsame, hleaf] at hleaf'
  cases hleaf'
  refine target_of hleaf hallows ⟨hhas.1, ?_⟩
  have hend := hhas'.2
  have hfits := hhas.2
  have hlast := g.main.last.isLt
  have htwo : (2 : BitVec 64).toNat = 2 := rfl
  rw [hphys, BitVec.toNat_add, htwo] at hend
  omega

end Targets

end NextEmu.Lib.Sv39
