import NextEmu.RtlAdapter.AXILiteSlave

/-!
# The whole AXI-Lite slave

The read channel of `Slave.v`, beside its write channels, one clock edge at a time. It latches an
address in the cycle before it is ready for it, and answers with the register that the address
selects when the answer before has been taken.
-/

namespace NextEmu.RtlAdapter

open NextEmu.Lib.BitField

/-- The inputs of the read channel. -/
structure ReadPorts (w : BitWidth) where
  araddr : w.Word
  arvalid : Bool
  rready : Bool

/-- Its registers. -/
structure ReadChannel (w : BitWidth) (n : Nat) where
  axiAraddr : BitVec n
  axiArready : Bool
  axiRdata : w.Word
  axiRresp : BitVec 2
  axiRvalid : Bool

namespace ReadChannel

variable {w : BitWidth} {n : Nat}

def cleared : ReadChannel w n :=
  { axiAraddr := 0, axiArready := false, axiRdata := 0, axiRresp := 0, axiRvalid := false }

def regDataOut (s : Slave w n) (r : ReadChannel w n) : w.Word :=
  s.slvReg (field r.axiAraddr (Slave.addrLsb w) 2)

def slvRegRden (q : ReadPorts w) (r : ReadChannel w n) : Bool :=
  r.axiArready && q.arvalid && !r.axiRvalid

/-- `always @(posedge S_AXI_ACLK)`, with the reset of the other ports. -/
def posedge (p : Ports w) (q : ReadPorts w) (s : Slave w n) (r : ReadChannel w n) :
    ReadChannel w n :=
  if p.aresetn = false then cleared
  else
    { axiArready := !r.axiArready && q.arvalid
      axiAraddr := if !r.axiArready && q.arvalid then q.araddr.setWidth n else r.axiAraddr
      axiRvalid :=
        if r.axiArready && q.arvalid && !r.axiRvalid then true
        else if r.axiRvalid && q.rready then false
        else r.axiRvalid
      axiRresp := if r.axiArready && q.arvalid && !r.axiRvalid then 0 else r.axiRresp
      axiRdata := if slvRegRden q r then regDataOut s r else r.axiRdata }

end ReadChannel

/-- The inputs at a rising edge. -/
structure Edge (w : BitWidth) where
  write : Ports w
  read : ReadPorts w

/-- `test_axi4lite_v1_0_S00_AXI`. -/
structure S00AXI (w : BitWidth) (n : Nat) where
  slave : Slave w n
  reads : ReadChannel w n

namespace S00AXI

variable {w : BitWidth} {n : Nat}

/-- The registers behind an edge in reset. -/
def cleared : S00AXI w n := { slave := .cleared, reads := .cleared }

def posedge (m : S00AXI w n) (e : Edge w) : S00AXI w n where
  slave := m.slave.posedge e.write
  reads := m.reads.posedge e.write e.read m.slave

/-- The registers behind some edges. -/
def run (m : S00AXI w n) (es : List (Edge w)) : S00AXI w n := es.foldl posedge m

end S00AXI

end NextEmu.RtlAdapter
