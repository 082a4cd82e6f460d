import Mathlib.Algebra.Order.Ring.Int

/-!
# The bus interface

`sdk/interface/dev_if.h`: what a slave answers, the plain slave `SlaveIO_I`, and
the slave with reservations `SlaveAtomicIO_I` that a core is attached to. A slave
is its state with one function for each virtual method. A buffer of `len` bytes
is the little-endian word of `8 * len` bits that those bytes spell; the data of a
failed load means nothing.
-/

namespace NextEmu.Sdk

/-- `addr_t`. -/
abbrev Addr := BitVec 64

/-- The `FB_*` codes. -/
inductive Feedback
  | success
  | outOfRange
  | devNotFound
  | misaligned
  | unknownErr
  deriving DecidableEq, Repr

/-- `SlaveIO_I`. -/
class SlaveIOI (δ : Type) where
  load : δ → Addr → (len : Nat) → (Feedback × BitVec (8 * len)) × δ
  store : δ → Addr → (len : Nat) → BitVec (8 * len) → Feedback × δ

/-- `SlaveAtomicIO_I`: a slave that also keeps the reservation of LR and SC. -/
class SlaveAtomicIOI (β : Type) extends SlaveIOI β where
  reserve : β → Addr → (len : Nat) → (hartId : BitVec 64) → β
  check : β → Addr → (len : Nat) → (hartId : BitVec 64) → Bool × β

/-- The fields of `SlaveAtomic_I`. -/
structure SlaveAtomic where
  reservationValid : Bool := false
  reserveForHart : BitVec 64 := 0
  reserveBeginAddr : Addr := 0
  reserveLen : BitVec 64 := 0

namespace SlaveAtomic

/-- `SlaveAtomic_I::reserve`. -/
def reserve (_ : SlaveAtomic) (beginAddr : Addr) (len hartId : BitVec 64) : SlaveAtomic where
  reserveBeginAddr := beginAddr
  reserveLen := len
  reserveForHart := hartId
  reservationValid := true

/-- `SlaveAtomic_I::check`. Any check ends the reservation, also one that fails. -/
def check (r : SlaveAtomic) (beginAddr : Addr) (len hartId : BitVec 64) : Bool × SlaveAtomic :=
  if r.reservationValid then
    (beginAddr == r.reserveBeginAddr && hartId == r.reserveForHart && len == r.reserveLen,
      { r with reservationValid := false })
  else (false, r)

end SlaveAtomic

end NextEmu.Sdk
