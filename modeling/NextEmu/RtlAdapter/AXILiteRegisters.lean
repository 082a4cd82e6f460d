import NextEmu.RtlAdapter.AXILiteReads

/-!
# The registers behind the AXI-Lite slave

What a master sees of the slave, whatever it sends and when: the handshakes of the five channels.
For a master that keeps to the protocol they are those of four registers. Each address that is
written comes with its data and is answered once; each read is answered once, with what has been
written before it. A read that is accepted while an answer waits has none of its own.
-/

namespace NextEmu.RtlAdapter.AXILiteRegisters

open NextEmu.Lib.BitField

variable {w : BitWidth} {n : Nat}

/-- A handshake. -/
inductive Event (w : BitWidth)
  | writeAddr (addr : w.Word)
  | writeData (strobe : BitVec 8) (data : w.Word)
  | writeResp (resp : BitVec 2)
  | readAddr (addr : w.Word)
  /-- The address of a read that is accepted while an answer waits. -/
  | readLate (addr : w.Word)
  | readData (data : w.Word) (resp : BitVec 2)

/-! ## The abstract registers -/

/-- Four registers, and what is under way. -/
structure File (w : BitWidth) where
  regs : BitVec 2 → w.Word
  /-- An address without its data. -/
  addr : Option w.Word
  /-- A write without its response. -/
  owed : Bool
  /-- A read without its answer, and what it has read. -/
  due : Option w.Word

/-- The register of an address of `n` bits. -/
def select (n : Nat) (addr : w.Word) : BitVec 2 := field (addr.setWidth n) (Slave.addrLsb w) 2

namespace File

def empty : File w := { regs := fun _ => 0, addr := none, owed := false, due := none }

/-- The registers with the strobed bytes of one replaced. -/
def stored (f : File w) (r : BitVec 2) (strobe : BitVec 8) (data : w.Word) :
    BitVec 2 → w.Word :=
  fun r' => if r' = r then Slave.strobed strobe (f.regs r') data else f.regs r'

/-- What the handshakes do, and which of them can be next. -/
def step (n : Nat) (f : File w) : Event w → Option (File w)
  | .writeAddr addr =>
    if f.addr.isNone && !f.owed then some { f with addr := some addr } else none
  | .writeData strobe data =>
    f.addr.map fun addr =>
      { f with regs := f.stored (select n addr) strobe data, addr := none, owed := true }
  | .writeResp resp => if f.owed && resp == 0 then some { f with owed := false } else none
  | .readAddr addr =>
    if f.due.isNone then some { f with due := some (f.regs (select n addr)) } else none
  | .readLate _ => if f.due.isSome then some f else none
  | .readData data resp =>
    if f.due = some data ∧ resp = 0 then some { f with due := none } else none

/-- The registers behind a history, when it is one of theirs. -/
def replay (n : Nat) (f : File w) (events : List (Event w)) : Option (File w) :=
  events.foldlM (step n) f

end File

/-! ## The handshakes of the slave -/

/-- The handshakes of the read channels at an edge. -/
def readEvents (m : S00AXI w n) (e : Edge w) : List (Event w) :=
  (if m.reads.axiArready && e.read.arvalid then
    [if m.reads.axiRvalid then .readLate e.read.araddr else .readAddr e.read.araddr] else []) ++
  (if m.reads.axiRvalid && e.read.rready then
    [.readData m.reads.axiRdata m.reads.axiRresp] else [])

/-- Those of the write channels. -/
def writeEvents (m : S00AXI w n) (e : Edge w) : List (Event w) :=
  (if m.slave.axiBvalid && e.write.bready then [.writeResp m.slave.axiBresp] else []) ++
  (if m.slave.axiAwready && e.write.awvalid then [.writeAddr e.write.awaddr] else []) ++
  (if m.slave.axiWready && e.write.wvalid then [.writeData e.write.wstrb e.write.wdata] else [])

/-- The handshakes of some edges. -/
def history (m : S00AXI w n) : List (Edge w) → List (Event w)
  | [] => []
  | e :: es => readEvents m e ++ writeEvents m e ++ history (m.posedge e) es

/-- What the protocol asks of a master between two edges: an announcement that the slave has not
been ready for stays as it is. -/
structure Keeps (m : S00AXI w n) (e e' : Edge w) : Prop where
  writeAddr : e.write.awvalid = true → m.slave.axiAwready = false →
    e'.write.awvalid = true ∧ e'.write.awaddr = e.write.awaddr
  writeData : e.write.wvalid = true → m.slave.axiWready = false →
    e'.write.wvalid = true ∧ e'.write.wdata = e.write.wdata ∧ e'.write.wstrb = e.write.wstrb
  readAddr : e.read.arvalid = true → m.reads.axiArready = false →
    e'.read.arvalid = true ∧ e'.read.araddr = e.read.araddr

/-- The inputs are those of a master that keeps to the protocol, out of reset. -/
def Conforming (m : S00AXI w n) : List (Edge w) → Prop
  | [] => True
  | e :: es => e.write.aresetn = true ∧ (∀ e' ∈ es.head?, Keeps m e e') ∧
    Conforming (m.posedge e) es

/-- What the slave stands for between two edges. -/
def fileOf (m : S00AXI w n) : File w where
  regs := m.slave.slvReg
  addr := none
  owed := m.slave.axiBvalid
  due := if m.reads.axiRvalid then some m.reads.axiRdata else none

/-! ## One edge -/

section Edge

variable {m : S00AXI w n} {e e' : Edge w}

/-- What the registers of the channels have to do with each other. -/
structure Sound (m : S00AXI w n) : Prop where
  wready : m.slave.axiWready = m.slave.axiAwready
  idle : m.slave.awEn = true → m.slave.axiAwready = false ∧ m.slave.axiBvalid = false
  busy : m.slave.awEn = false → m.slave.axiAwready = !m.slave.axiBvalid
  bresp : m.slave.axiBresp = 0
  rresp : m.reads.axiRresp = 0

/-- The master still announces what the slave is ready for. -/
structure Held (m : S00AXI w n) (e : Edge w) : Prop where
  write : m.slave.axiAwready = true → e.write.awvalid = true ∧ e.write.wvalid = true ∧
    e.write.awaddr.setWidth n = m.slave.axiAwaddr
  read : m.reads.axiArready = true → e.read.arvalid = true ∧
    e.read.araddr.setWidth n = m.reads.axiAraddr

theorem sound_cleared : Sound (S00AXI.cleared : S00AXI w n) :=
  ⟨rfl, fun _ => ⟨rfl, rfl⟩, nofun, rfl, rfl⟩

theorem held_cleared (e : Edge w) : Held (S00AXI.cleared : S00AXI w n) e := ⟨nofun, nofun⟩

/-- A read answers with the registers before the edge. -/
theorem reads_replay (h : Sound m) (hheld : Held m e) (hreset : e.write.aresetn = true) :
    (fileOf m).replay n (readEvents m e) =
      some { fileOf m with due := (fileOf (m.posedge e)).due } := by
  have hread : ReadChannel.regDataOut m.slave m.reads =
      m.slave.slvReg (field m.reads.axiAraddr (Slave.addrLsb w) 2) := rfl
  cases hready : m.reads.axiArready with
  | false =>
    cases hvalid : m.reads.axiRvalid <;> cases htaken : e.read.rready <;>
      simp [File.replay, readEvents, fileOf, S00AXI.posedge, ReadChannel.posedge, File.step,
        ReadChannel.slvRegRden, hready, hvalid, htaken, hreset, h.rresp]
  | true =>
    obtain ⟨harvalid, haddr⟩ := hheld.read hready
    cases hvalid : m.reads.axiRvalid <;> cases htaken : e.read.rready <;>
      simp [File.replay, readEvents, fileOf, S00AXI.posedge, ReadChannel.posedge, File.step,
        ReadChannel.slvRegRden, select, hread, hready, hvalid, htaken, hreset, harvalid, haddr,
        h.rresp]

/-- A write changes them, and nothing of a read. -/
theorem writes_replay (h : Sound m) (hheld : Held m e) (hreset : e.write.aresetn = true)
    (due : Option w.Word) :
    File.replay n { fileOf m with due := due } (writeEvents m e) =
      some { fileOf (m.posedge e) with due := due } := by
  have hwready := h.wready
  cases hready : m.slave.axiAwready with
  | false =>
    rw [hready] at hwready
    cases hvalid : m.slave.axiBvalid <;> cases htaken : e.write.bready <;>
      simp [File.replay, writeEvents, fileOf, S00AXI.posedge, Slave.posedge, File.step,
        Slave.slvRegWren, hready, hwready, hvalid, htaken, hreset, h.bresp]
  | true =>
    obtain ⟨hawvalid, hwvalid, haddr⟩ := hheld.write hready
    have hvalid : m.slave.axiBvalid = false := by
      cases hen : m.slave.awEn with
      | true => exact (h.idle hen).2
      | false =>
        have hbusy := h.busy hen
        rw [hready] at hbusy
        simpa using hbusy.symm
    rw [hready] at hwready
    simp [File.replay, writeEvents, fileOf, S00AXI.posedge, Slave.posedge, File.step,
      Slave.slvRegWren, select, hready, hwready, hvalid, hreset, hawvalid, hwvalid, haddr]
    rfl

/-- A response waits, or the slave is about to give one: then it takes no other address. -/
theorem Sound.busy_cases (h : Sound m) (hen : m.slave.awEn = false) :
    m.slave.axiAwready = true ∧ m.slave.axiBvalid = false ∨
      m.slave.axiAwready = false ∧ m.slave.axiBvalid = true := by
  have hbusy := h.busy hen
  cases hvalid : m.slave.axiBvalid <;> simp [hvalid] at hbusy <;> simp [hbusy]

theorem Sound.posedge (h : Sound m) (hheld : Held m e) (hreset : e.write.aresetn = true) :
    Sound (m.posedge e) := by
  have hwready := h.wready
  have hbresp := h.bresp
  have hrresp := h.rresp
  cases hen : m.slave.awEn with
  | true =>
    obtain ⟨hready, hvalid⟩ := h.idle hen
    rw [hready] at hwready
    cases haw : e.write.awvalid <;> cases hwv : e.write.wvalid <;> constructor <;>
      simp [S00AXI.posedge, Slave.posedge, ReadChannel.posedge, *]
  | false =>
    rcases h.busy_cases hen with ⟨hready, hvalid⟩ | ⟨hready, hvalid⟩
    · obtain ⟨haw, hwv, -⟩ := hheld.write hready
      rw [hready] at hwready
      constructor <;> simp [S00AXI.posedge, Slave.posedge, ReadChannel.posedge, *]
    · rw [hready] at hwready
      cases hb : e.write.bready <;> constructor <;>
        simp [S00AXI.posedge, Slave.posedge, ReadChannel.posedge, *]

/-- What the slave becomes ready for was announced, and is held. -/
theorem Keeps.held (h : Sound m) (hkeeps : Keeps m e e') (hreset : e.write.aresetn = true) :
    Held (m.posedge e) e' := by
  constructor
  · intro hready
    have hraised : m.slave.axiAwready = false ∧ e.write.awvalid = true ∧
        e.write.wvalid = true ∧ m.slave.awEn = true := by
      simpa [S00AXI.posedge, Slave.posedge, hreset, and_assoc] using hready
    obtain ⟨hdown, haw, hwv, hen⟩ := hraised
    obtain ⟨haw', haddr⟩ := hkeeps.writeAddr haw hdown
    obtain ⟨hwv', -, -⟩ := hkeeps.writeData hwv (h.wready.trans hdown)
    refine ⟨haw', hwv', ?_⟩
    rw [haddr]
    simp [S00AXI.posedge, Slave.posedge, hreset, hdown, haw, hwv, hen]
  · intro hready
    have hraised : m.reads.axiArready = false ∧ e.read.arvalid = true := by
      simpa [S00AXI.posedge, ReadChannel.posedge, hreset] using hready
    obtain ⟨hdown, har⟩ := hraised
    obtain ⟨har', haddr⟩ := hkeeps.readAddr har hdown
    refine ⟨har', ?_⟩
    rw [haddr]
    simp [S00AXI.posedge, ReadChannel.posedge, hreset, hdown, har]

/-- The handshakes of an edge are handshakes of the registers. -/
theorem edge_replay (h : Sound m) (hheld : Held m e) (hreset : e.write.aresetn = true) :
    (fileOf m).replay n (readEvents m e ++ writeEvents m e) = some (fileOf (m.posedge e)) := by
  have hreads := reads_replay h hheld hreset
  unfold File.replay at hreads ⊢
  rw [List.foldlM_append, hreads]
  exact writes_replay h hheld hreset _

end Edge

/-! ## The runs -/

section Runs

variable {m : S00AXI w n} {es : List (Edge w)}

theorem replay_append (f : File w) (xs ys : List (Event w)) :
    f.replay n (xs ++ ys) = (f.replay n xs).bind (File.replay n · ys) :=
  List.foldlM_append

/-- From any state that the protocol comes to. -/
theorem history_replay (h : Sound m) (hheld : ∀ e ∈ es.head?, Held m e) (hes : Conforming m es) :
    (fileOf m).replay n (history m es) = some (fileOf (m.run es)) ∧ Sound (m.run es) := by
  induction es generalizing m with
  | nil => exact ⟨rfl, h⟩
  | cons e es ih =>
    obtain ⟨hreset, hkeeps, hrest⟩ := hes
    have hedge := hheld e rfl
    obtain ⟨hreplay, hsound⟩ := ih (h.posedge hedge hreset)
      (fun e' he' => (hkeeps e' he').held h hreset) hrest
    refine ⟨?_, hsound⟩
    unfold history
    rw [replay_append, edge_replay h hedge hreset]
    exact hreplay

/-- For every master that keeps to the protocol, whatever it sends and at which edges, the
handshakes of the slave from its reset on are a history of the four registers: no write without
its data, each answered once and at its turn, and each read answered once with what its register
held when it was accepted, unless an answer was waiting then. -/
theorem slave_serves (es : List (Edge w)) (hes : Conforming (S00AXI.cleared : S00AXI w n) es) :
    File.empty.replay n (history (S00AXI.cleared : S00AXI w n) es) =
      some (fileOf (S00AXI.cleared.run es : S00AXI w n)) :=
  (history_replay sound_cleared (fun e _ => held_cleared e) hes).1

/-- Behind the first of some edges the protocol goes on. -/
theorem conforming_append {es' : List (Edge w)} (h : Sound m)
    (hheld : ∀ e ∈ (es ++ es').head?, Held m e) (hes : Conforming m (es ++ es')) :
    Sound (m.run es) ∧ (∀ e ∈ es'.head?, Held (m.run es) e) ∧ Conforming (m.run es) es' := by
  induction es generalizing m with
  | nil => exact ⟨h, hheld, hes⟩
  | cons e es ih =>
    obtain ⟨hreset, hkeeps, hrest⟩ := hes
    have hedge := hheld e rfl
    exact ih (h.posedge hedge hreset) (fun e' he' => (hkeeps e' he').held h hreset) hrest

theorem conforming_replicate (m : S00AXI w n) {e : Edge w} (hreset : e.write.aresetn = true)
    (k : Nat) : Conforming m (List.replicate k e) := by
  induction k generalizing m with
  | zero => trivial
  | succ k ih =>
    refine ⟨hreset, fun e' he' => ?_, ih _⟩
    have heq : e' = e := by
      cases k with
      | zero => cases he'
      | succ k => exact (Option.some.inj he').symm
    subst heq
    exact ⟨fun h _ => ⟨h, rfl⟩, fun h _ => ⟨h, rfl, rfl⟩, fun h _ => ⟨h, rfl⟩⟩

end Runs

/-! ## How long a master waits -/

section Progress

variable {m : S00AXI w n} {e : Edge w}

/-- The inputs hold a write, and take its response. -/
structure Writes (e : Edge w) : Prop where
  aresetn : e.write.aresetn = true
  awvalid : e.write.awvalid = true
  wvalid : e.write.wvalid = true
  bready : e.write.bready = true

/-- The inputs hold a read, and take its answer. -/
structure Reads (e : Edge w) : Prop where
  aresetn : e.write.aresetn = true
  arvalid : e.read.arvalid = true
  rready : e.read.rready = true

theorem write_accepted (hready : m.slave.axiWready = true) (he : Writes e) :
    Event.writeData e.write.wstrb e.write.wdata ∈ writeEvents m e := by
  simp [writeEvents, hready, he.wvalid]

theorem write_raised (h : Sound m) (hen : m.slave.awEn = true) (he : Writes e) :
    (m.posedge e).slave.axiWready = true := by
  obtain ⟨hdown, -⟩ := h.idle hen
  have hwready := h.wready.trans hdown
  simp [S00AXI.posedge, Slave.posedge, he.aresetn, he.awvalid, he.wvalid, hwready, hen]

/-- The response is taken, and the next address can come. -/
theorem write_freed (hdown : m.slave.axiAwready = false) (hvalid : m.slave.axiBvalid = true)
    (hen : m.slave.awEn = false) (he : Writes e) : (m.posedge e).slave.awEn = true := by
  simp [S00AXI.posedge, Slave.posedge, he.aresetn, he.bready, hdown, hvalid, hen]

/-- A write that is held through three edges is accepted at one of them. -/
theorem write_within {e₁ e₂ e₃ : Edge w} (h : Sound m) (hheld : Held m e₁)
    (hes : ∀ e ∈ [e₁, e₂, e₃], Writes e) :
    ∃ strobe data, Event.writeData strobe data ∈ history m [e₁, e₂, e₃] := by
  have h₁ : Writes e₁ := hes e₁ (by simp)
  have h₂ : Writes e₂ := hes e₂ (by simp)
  have h₃ : Writes e₃ := hes e₃ (by simp)
  have hsound := h.posedge hheld h₁.aresetn
  have hfirst : m.slave.axiWready = true →
      ∃ strobe data, Event.writeData strobe data ∈ history m [e₁, e₂, e₃] := fun hready =>
    ⟨e₁.write.wstrb, e₁.write.wdata, by simp [history, write_accepted hready h₁]⟩
  have hsecond : (m.posedge e₁).slave.axiWready = true →
      ∃ strobe data, Event.writeData strobe data ∈ history m [e₁, e₂, e₃] := fun hready =>
    ⟨e₂.write.wstrb, e₂.write.wdata, by simp [history, write_accepted hready h₂]⟩
  cases hen : m.slave.awEn with
  | true => exact hsecond (write_raised h hen h₁)
  | false =>
    rcases h.busy_cases hen with ⟨hready, -⟩ | ⟨hdown, hvalid⟩
    · exact hfirst (h.wready.trans hready)
    · have hthird := write_raised hsound (write_freed hdown hvalid hen h₁) h₂
      exact ⟨e₃.write.wstrb, e₃.write.wdata, by simp [history, write_accepted hthird h₃]⟩

theorem read_accepted (hready : m.reads.axiArready = true) (hvalid : m.reads.axiRvalid = false)
    (he : Reads e) : Event.readAddr e.read.araddr ∈ readEvents m e := by
  simp [readEvents, hready, hvalid, he.arvalid]

theorem read_raised (hdown : m.reads.axiArready = false) (he : Reads e) :
    (m.posedge e).reads.axiArready = true ∧ (m.posedge e).reads.axiRvalid = false := by
  simp [S00AXI.posedge, ReadChannel.posedge, he.aresetn, he.arvalid, he.rready, hdown]

/-- So is a read, which may come too late once before. -/
theorem read_within {e₁ e₂ e₃ : Edge w} (hes : ∀ e ∈ [e₁, e₂, e₃], Reads e) :
    ∃ addr, Event.readAddr addr ∈ history m [e₁, e₂, e₃] := by
  have h₁ : Reads e₁ := hes e₁ (by simp)
  have h₂ : Reads e₂ := hes e₂ (by simp)
  have h₃ : Reads e₃ := hes e₃ (by simp)
  cases hready : m.reads.axiArready with
  | false =>
    obtain ⟨hup, hnone⟩ := read_raised hready h₁
    exact ⟨e₂.read.araddr, by simp [history, read_accepted hup hnone h₂]⟩
  | true =>
    cases hvalid : m.reads.axiRvalid with
    | false => exact ⟨e₁.read.araddr, by simp [history, read_accepted hready hvalid h₁]⟩
    | true =>
      have hdown : (m.posedge e₁).reads.axiArready = false := by
        simp [S00AXI.posedge, ReadChannel.posedge, h₁.aresetn, hready]
      obtain ⟨hup, hnone⟩ := read_raised hdown h₂
      exact ⟨e₃.read.araddr, by simp [history, read_accepted hup hnone h₃]⟩

/-- The slave never keeps a master waiting: whatever came before, a write or a read that is held
through three edges, with its response or answer taken, is accepted at one of them, and the read
at one at which no answer waits. -/
theorem accepted_within_three (es : List (Edge w)) (e₁ e₂ e₃ : Edge w)
    (hes : Conforming (S00AXI.cleared : S00AXI w n) (es ++ [e₁, e₂, e₃])) :
    ((∀ e ∈ [e₁, e₂, e₃], Writes e) → ∃ strobe data, Event.writeData strobe data ∈
      history (S00AXI.cleared.run es : S00AXI w n) [e₁, e₂, e₃]) ∧
    ((∀ e ∈ [e₁, e₂, e₃], Reads e) → ∃ addr, Event.readAddr addr ∈
      history (S00AXI.cleared.run es : S00AXI w n) [e₁, e₂, e₃]) := by
  obtain ⟨hsound, hheld, -⟩ :=
    conforming_append sound_cleared (fun e _ => held_cleared e) hes
  exact ⟨write_within hsound (hheld e₁ rfl), read_within⟩

end Progress

/-- A master that writes and reads register 1 all the time. -/
def busyEdge : Edge .w32 where
  write := {
    aclk := true, aresetn := true, awaddr := 4, awvalid := true, wdata := 0xdeadbeef
    wstrb := 0b1111, wvalid := true, bready := true }
  read := { araddr := 4, arvalid := true, rready := true }

theorem slave_serves_busy :
    File.empty.replay 4 (history (S00AXI.cleared : S00AXI .w32 4) (List.replicate 8 busyEdge)) =
      some (fileOf (S00AXI.cleared.run (List.replicate 8 busyEdge) : S00AXI .w32 4)) :=
  slave_serves _ (conforming_replicate _ rfl 8)

theorem accepted_within_three_busy : ∃ strobe data, Event.writeData strobe data ∈
    history (S00AXI.cleared.run (List.replicate 5 busyEdge) : S00AXI .w32 4)
      [busyEdge, busyEdge, busyEdge] := by
  have hes : Conforming (S00AXI.cleared : S00AXI .w32 4)
      (List.replicate 5 busyEdge ++ [busyEdge, busyEdge, busyEdge]) :=
    conforming_replicate _ rfl 8
  apply (accepted_within_three _ _ _ _ hes).1
  intro e he
  have heq : e = busyEdge := by simpa using he
  subst heq
  exact ⟨rfl, rfl, rfl, rfl⟩

end NextEmu.RtlAdapter.AXILiteRegisters
