import NextEmu.Lib.BitField

/-!
# The address translation of the manual

Sv39 of the privileged manual: which leaf the tables in a memory hold for a virtual
address, which physical address the leaf gives, and which accesses it permits. The
walk is the numbered process of the manual up to the test for a misaligned
superpage, as a function of the words in the memory.

The manual reserves some encodings for extensions, and an implementation that does
not have the extension faults on them. `Reserved` says which of those it looks at
besides bits 60 to 54 and PBMT.
-/

namespace NextEmu.Lib.Sv39

open NextEmu.Lib.BitField

/-- Bits 63 to 39 repeat bit 38. -/
def Canonical (va : BitVec 64) : Prop := ∀ i, 39 ≤ i → i < 64 → va.getLsbD i = va.getLsbD 38

/-- `va.vpn[i]`. -/
def vpn (i : Nat) (va : BitVec 64) : BitVec 9 := field va (12 + 9 * i) 9

/-! The fields of a page table entry. -/

namespace Entry

def v (pte : BitVec 64) : Bool := pte.getLsbD 0
def r (pte : BitVec 64) : Bool := pte.getLsbD 1
def w (pte : BitVec 64) : Bool := pte.getLsbD 2
def x (pte : BitVec 64) : Bool := pte.getLsbD 3
def u (pte : BitVec 64) : Bool := pte.getLsbD 4
def a (pte : BitVec 64) : Bool := pte.getLsbD 6
def d (pte : BitVec 64) : Bool := pte.getLsbD 7
def ppn (pte : BitVec 64) : BitVec 44 := field pte 10 44
def reserved (pte : BitVec 64) : BitVec 7 := field pte 54 7
def pbmt (pte : BitVec 64) : BitVec 2 := field pte 61 2
def n (pte : BitVec 64) : Bool := pte.getLsbD 63

end Entry

/-- The encodings that are reserved besides bits 60 to 54 and PBMT. -/
structure Reserved where
  /-- Bit 63, without Svnapot. -/
  napot : Bool
  /-- D, A and U of a pointer to the next table. -/
  pointer : Bool

/-- An entry uses one of them. -/
def Reserved.uses (rd : Reserved) (pte : BitVec 64) : Bool :=
  rd.napot && Entry.n pte ||
    rd.pointer && !(Entry.r pte || Entry.x pte) && (Entry.d pte || Entry.a pte || Entry.u pte)

/-- The entry is not valid, or uses a reserved encoding. -/
def Reserved.faults (rd : Reserved) (pte : BitVec 64) : Bool :=
  !Entry.v pte || !Entry.r pte && Entry.w pte || Entry.reserved pte != 0 || Entry.pbmt pte != 0 ||
    rd.uses pte

structure Leaf where
  level : Nat
  pte : BitVec 64
  deriving DecidableEq

/-- The page numbers below the level of a superpage are zero. -/
def Leaf.aligned (leaf : Leaf) : Bool := field leaf.pte 10 (9 * leaf.level) == 0

/-- One table of the walk; `next` is the walk from the table that the entry points to. -/
def visit (rd : Reserved) (m : BitVec 64 → BitVec 64) (va : BitVec 64) (i : Nat) (a : BitVec 64)
    (next : BitVec 64 → Option Leaf) : Option Leaf :=
  let pte := m (a + (vpn i va).setWidth 64 * 8)
  if rd.faults pte then none
  else if Entry.r pte || Entry.x pte then
    if Leaf.aligned ⟨i, pte⟩ then some ⟨i, pte⟩ else none
  else next ((Entry.ppn pte).setWidth 64 <<< 12)

/-- The leaf of an address, from the table at `a` of level `i`; none for a page fault. -/
def walk (rd : Reserved) (m : BitVec 64 → BitVec 64) (va : BitVec 64) :
    (i : Nat) → (a : BitVec 64) → Option Leaf
  | 0, a => visit rd m va 0 a fun _ => none
  | i + 1, a => visit rd m va (i + 1) a fun next => walk rd m va i next

/-- The leaf of an address in the tables of a root. -/
def leafOf (rd : Reserved) (m : BitVec 64 → BitVec 64) (root : BitVec 44) (va : BitVec 64) :
    Option Leaf := walk rd m va 2 (root.setWidth 64 <<< 12)

/-- The physical address: the offset and the page numbers below the level are those of `va`. -/
def Leaf.physAddr (leaf : Leaf) (va : BitVec 64) : BitVec 64 :=
  match leaf.level with
  | 0 => (field leaf.pte 10 44 ++ field va 0 12).setWidth 64
  | 1 => (field leaf.pte 19 35 ++ field va 0 21).setWidth 64
  | _ => (field leaf.pte 28 26 ++ field va 0 30).setWidth 64

/-- The leaf permits a load or a store by U or S mode, under SUM and MXR. -/
def Leaf.permits (leaf : Leaf) (user sum mxr store : Bool) : Bool :=
  Entry.a leaf.pte &&
    (if user then Entry.u leaf.pte else !Entry.u leaf.pte || sum) &&
    (if store then Entry.w leaf.pte && Entry.d leaf.pte
      else Entry.r leaf.pte || mxr && Entry.x leaf.pte)

end NextEmu.Lib.Sv39
