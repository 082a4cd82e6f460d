import NextEmu.Lib.BitField
import NextEmu.RtlAdapter.AXILiteAdapter

/-!
# The AXI-Lite slave

The write channels of `Slave.v`, one clock edge at a time, and the module around them as
the adapter drives it: it sets inputs and calls `eval`, which runs the clocked blocks when
the clock has risen since the last call. The read channel shares no register with them
that it writes.
-/

namespace NextEmu.RtlAdapter

open NextEmu.Lib.BitField

/-- The inputs of the slave. -/
structure Ports (w : BitWidth) where
  aclk : Bool
  aresetn : Bool
  awaddr : w.Word
  awvalid : Bool
  wdata : w.Word
  wstrb : BitVec 8
  wvalid : Bool
  bready : Bool

/-- The registers, with addresses of `n` bits. -/
structure Slave (w : BitWidth) (n : Nat) where
  axiAwaddr : BitVec n
  axiAwready : Bool
  axiWready : Bool
  axiBresp : BitVec 2
  axiBvalid : Bool
  awEn : Bool
  slvReg : BitVec 2 → w.Word

namespace Slave

variable {w : BitWidth} {n : Nat}

def addrLsb (w : BitWidth) : Nat := 8 * w.byteSize / 32 + 1

/-- The registers behind an edge in reset. -/
def cleared : Slave w n :=
  { axiAwaddr := 0, axiAwready := false, axiWready := false, axiBresp := 0, axiBvalid := false
    awEn := true, slvReg := fun _ => 0 }

/-- The bytes of `old` whose strobe bit is set replaced by those of `new`. -/
def strobed {k : Nat} (wstrb : BitVec 8) (old new : BitVec (8 * k)) : BitVec (8 * k) :=
  (List.range k).foldl (fun r i =>
    if wstrb.getLsbD i then setField r (8 * i) (field new (8 * i) 8) else r) old

def slvRegWren (p : Ports w) (s : Slave w n) : Bool :=
  s.axiWready && p.wvalid && s.axiAwready && p.awvalid

/-- `always @(posedge S_AXI_ACLK)`; the right sides are those before the edge. -/
def posedge (p : Ports w) (s : Slave w n) : Slave w n :=
  if p.aresetn = false then cleared
  else
    { axiAwready := !s.axiAwready && p.awvalid && p.wvalid && s.awEn
      awEn :=
        if !s.axiAwready && p.awvalid && p.wvalid && s.awEn then false
        else if p.bready && s.axiBvalid then true
        else s.awEn
      axiAwaddr :=
        if !s.axiAwready && p.awvalid && p.wvalid && s.awEn then p.awaddr.setWidth n
        else s.axiAwaddr
      axiWready := !s.axiWready && p.wvalid && p.awvalid && s.awEn
      slvReg := fun r =>
        if slvRegWren p s ∧ r = field s.axiAwaddr (addrLsb w) 2 then
          strobed p.wstrb (s.slvReg r) p.wdata
        else s.slvReg r
      axiBvalid :=
        if s.axiAwready && p.awvalid && !s.axiBvalid && s.axiWready && p.wvalid then true
        else if p.bready && s.axiBvalid then false
        else s.axiBvalid
      axiBresp :=
        if s.axiAwready && p.awvalid && !s.axiBvalid && s.axiWready && p.wvalid then 0
        else s.axiBresp }

end Slave

/-- The module. `lastClk` is the clock at the last `eval`; `writes` counts the edges at which a
register is written. -/
structure Top (w : BitWidth) (n : Nat) where
  ports : Ports w
  slave : Slave w n
  lastClk : Bool
  writes : Nat

namespace Top

variable {w : BitWidth} {n : Nat}

def eval (t : Top w n) : Top w n :=
  if t.ports.aclk && !t.lastClk then
    { t with
      slave := t.slave.posedge t.ports
      lastClk := t.ports.aclk
      writes :=
        if t.ports.aresetn && Slave.slvRegWren t.ports t.slave then t.writes + 1 else t.writes }
  else { t with lastClk := t.ports.aclk }

def setClk (b : Bool) (t : Top w n) : Top w n :=
  { t with ports := { t.ports with aclk := b } }

/-- `AXILiteAdapter::axiClkCycle`. -/
def axiClkCycle (t : Top w n) : Top w n := eval (setClk true (eval (setClk false t)))

/-- The states after a reset, whatever the inputs are then. -/
inductive Reachable : Top w n → Prop
  | reset {t : Top w n} (hreset : t.ports.aresetn = false) (hclk : t.ports.aclk = true)
      (hedge : t.lastClk = false) :
      Reachable { t.eval with ports := { t.ports with aresetn := true } }
  | eval {t : Top w n} (h : Reachable t) (p : Ports w) (hp : p.aresetn = true) :
      Reachable (eval { t with ports := p })

end Top

end NextEmu.RtlAdapter
