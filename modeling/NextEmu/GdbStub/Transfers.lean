import NextEmu.GdbStub.Calls
import NextEmu.GdbStub.Digits
import NextEmu.Simple.DebugRegisters
import NextEmu.Simple.LoadStore

/-!
# Registers and memory of a core through the stub

The stub in front of an `RV64Core`. The registers that it sends and takes back are the same, and
bytes that are written to main memory are read from there. Both sides of a transfer print the lowest
byte first and its high digit in front.
-/

namespace NextEmu.GdbStub.Transfers

open NextEmu.Lib.AbortState NextEmu.Lib.ByteMemory NextEmu.Sdk
open NextEmu.Simple (Machine RV64Core memReadCoreDebugAPI memWriteCoreDebugAPI)
open NextEmu.Simple.DebugRegisters (writeAllRegisterCoreAPI)
open NextEmu.Simple.LoadStore (Contains contents)
open Calls Commands Digits

/-! ## The requests -/

/-- `DumpRegister_CoreAPI`: the 32 registers in order, then the program counter. -/
def dumpRegisterCoreAPI (c : RV64Core) : List RegisterItem :=
  (List.range 32).map (fun i => { regId := i, size := 8, val := c.gpr (BitVec.ofNat 5 i) }) ++
    [{ regId := 32, size := 8, val := c.currentProgramCounter }]

/-- The codes that the stub does not compare with are one. -/
def feedbackOf : Simple.FuncReturnFeedback → FuncReturnFeedback
  | .memuOk => .memuOk
  | .memuInvalidParam | .memuUnknown => .memuUnknown

/-- A core for the stub that passes its requests to an `RV64Core`. -/
structure Passes {β : Type} [SlaveAtomicIOI β] (core : Debuggable (Machine β)) : Prop where
  isaBitLen : core.isaBitLen = 64
  dumpAllRegister : ∀ s, core.dumpAllRegister s = (dumpRegisterCoreAPI s.core, s)
  writeAllRegister : ∀ regs s r t, writeAllRegisterCoreAPI (regs.map (·.val)) s = .ok r t →
    core.writeAllRegister regs s = (feedbackOf r, t)
  memRead : ∀ addr len s r t, memReadCoreDebugAPI addr len.toNat s = .ok r t →
    (core.memRead addr len s).1.1 = feedbackOf r.1 ∧ (core.memRead addr len s).2 = t ∧
      (r.1 = .memuOk → ∀ i < len.toNat,
        (core.memRead addr len s).1.2 i = r.2.extractLsb' (8 * i) 8)
  memWrite : ∀ addr len bytes s r t, memWriteCoreDebugAPI addr len.toNat
      (readBytes (fun i => bytes.getD i 0) 0 len.toNat) s = .ok r t →
    core.memWrite addr len bytes s = (feedbackOf r, t)

/-- The command returns, and has sent some packets. -/
structure Runs {κ : Type} (host : Host κ) (c : Command) (w t : World κ)
    (sent : List (List Byte)) : Prop where
  returns : ∀ fuel, perform host fuel c.text w = .ok () t
  replies : replies t = replies w ++ sent

section Statement

variable {δ : Type} [SlaveIOI δ]

/-- What is transferred comes back. -/
structure RoundTrips (host : Host (Machine (AddrBus δ))) (w : World (Machine (AddrBus δ))) :
    Prop where
  /-- The registers, sent and taken back. -/
  dumped : ∃ (regs : Hex) (t u : World _), Runs host .regReadAll w t [regs.1] ∧
    Runs host (.regWriteAll regs) t u [] ∧ u.core = w.core
  /-- Registers taken and sent, all but `x0`. -/
  written : ∀ data : Hex, data.1.length = 528 → ∃ (regs : List Byte) (t u : World _),
    Runs host (.regWriteAll data) w t [] ∧ Runs host .regReadAll t u [regs] ∧
      SameDigits (regs.drop 16) (data.1.drop 16)
  /-- Bytes of main memory, in M mode without a lent mode. -/
  memory : w.core.core.currentPrivMode = .mMode →
    w.core.core.status.getLsbD Simple.MStatus.mprv = false → ∀ addr len data : Hex,
    value addr < 2 ^ 63 → 1 ≤ value len → data.1.length = 2 * value len →
    (Command.memWrite addr len data).text.length ≤ bufferSize →
    Contains w.core.bus (BitVec.ofNat 64 (value addr)) (value len) →
    ∃ (bytes : List Byte) (t u : World _), Runs host (.memWrite addr len data) w t [] ∧
      Runs host (.memRead addr len) t u [bytes] ∧ SameDigits bytes data.1 ∧
      ∀ a, ¬ (a - BitVec.ofNat 64 (value addr)).toNat < value len →
        contents u.core.bus a = contents w.core.bus a

end Statement

/-! ## Registers -/

section Registers

/-- The values that are dumped. -/
def registers (c : RV64Core) : List (BitVec 64) := (dumpRegisterCoreAPI c).map (·.val)

/-- The core behind a write of its registers. -/
def written (c : RV64Core) (vals : List (BitVec 64)) : RV64Core :=
  { c with
    gpr := fun r => vals.getD r.toNat 0
    currentProgramCounter := vals.getD 32 0 }

variable {c : RV64Core} {vals : List (BitVec 64)}

theorem registers_length : (registers c).length = 33 := rfl

theorem registers_eq (c : RV64Core) : registers c =
    (List.range 32).map (fun i => c.gpr (BitVec.ofNat 5 i)) ++ [c.currentProgramCounter] := by
  unfold registers dumpRegisterCoreAPI
  rw [List.map_append, List.map_map]
  rfl

theorem registers_written (h : vals.length = 33) : registers (written c vals) = vals := by
  have hindex : ∀ i ∈ List.range 32,
      (written c vals).gpr (BitVec.ofNat 5 i) = vals.getD i 0 := by
    intro i hi
    have hlt : i < 2 ^ 5 := List.mem_range.mp hi
    show vals.getD (BitVec.ofNat 5 i).toNat 0 = vals.getD i 0
    rw [BitVec.toNat_ofNat, Nat.mod_eq_of_lt hlt]
  have hall : registers (written c vals) = (List.range 33).map (vals.getD · 0) := by
    rw [registers_eq, List.map_congr_left hindex, List.range_succ, List.map_append]
    rfl
  rw [hall, ← h]
  exact map_getD_range vals 0

theorem written_registers (c : RV64Core) : written c (registers c) = c := by
  have hgpr : (fun r : BitVec 5 => (registers c).getD r.toNat 0) = c.gpr := by
    funext r
    have hr : r.toNat < 32 := r.isLt
    rw [registers_eq, List.getD_append _ _ _ _ (by rwa [List.length_map, List.length_range]),
      List.getD_eq_getElem?_getD, List.getElem?_map, List.getElem?_range hr]
    show c.gpr (BitVec.ofNat 5 r.toNat) = c.gpr r
    rw [BitVec.ofNat_toNat, BitVec.setWidth_eq]
  unfold written
  rw [hgpr]
  rfl

/-- Every register is dumped with its eight bytes. -/
theorem dump_bytes (c : RV64Core) :
    (dumpRegisterCoreAPI c).flatMap registerBytes = (registers c).flatMap bytesOf := by
  unfold registers dumpRegisterCoreAPI
  rw [List.flatMap_append, List.map_append, List.flatMap_append, List.map_map, List.flatMap_map,
    List.flatMap_map]
  rfl

theorem writeAll_run {β : Type} (regs : List RegisterItem) (s : Machine β)
    (h : regs.length = 33) : writeAllRegisterCoreAPI (regs.map (·.val)) s =
      .ok .memuOk { s with core := written s.core (regs.map (·.val)) } := by
  unfold writeAllRegisterCoreAPI
  rw [if_neg (by rw [List.length_map, h]; exact fun hne => hne rfl)]
  rfl

end Registers

/-! ## The commands -/

/-- A command is what is run for its text. -/
theorem runs_of_text {κ : Type} {host : Host κ} {w t : World κ} {c : Command}
    {command : Stub κ Unit} {sent : List (List Byte)} (hfit : c.text.length ≤ bufferSize)
    (hdispatch : ∀ fuel, dispatch host fuel ⟨c.packetType, c.found⟩ = some command)
    (hrun : command (begun w c.text) = .ok () t)
    (hsent : replies t = replies (begun w c.text) ++ sent) : Runs host c w t sent := by
  refine ⟨fun fuel => (perform_text hfit (hdispatch fuel)).trans hrun, ?_⟩
  rw [hsent, (silent_begun w c.text).2]

/-- The two writes behind their checks, when the core accepts. -/
theorem write_run {κ : Type} {host : Host κ} {w : World κ} {n : Nat} {s : List Byte} {c : κ}
    {f : List Byte → κ → FuncReturnFeedback × κ} (hroom : n ≤ host.room)
    (heven : s.length % 2 = 0) (hcall : f (byteStream s) w.core = (.memuOk, c)) :
    (do
      alloca host n
      let bytes ← parseByteStreamStr s
      let feedback ← onCore (f bytes)
      if feedback ≠ .memuOk then packingAndSend host e01 : Stub κ Unit) w =
        .ok () { w with core := c } := by
  have hbytes : (parseByteStreamStr s : Stub κ (List Byte)) w = .ok (byteStream s) w :=
    bind_of_ok (congrFun (if_pos heven) w)
  rw [bind_of_ok (Replies.alloca_ok hroom), bind_of_ok hbytes, bind_of_ok (onCore_run hcall)]
  rfl

section Transfer

variable {β : Type} [SlaveAtomicIOI β] {host : Host (Machine β)} {w : World (Machine β)}

/-- A dump sends the registers and leaves the core. -/
theorem runs_readAll (h : Passes host.core) (w : World (Machine β)) : ∃ t,
    Runs host .regReadAll w t [printed ((registers w.core.core).flatMap bytesOf)] ∧
      t.core = w.core := by
  let regs := printed ((registers w.core.core).flatMap bytesOf)
  let w' := begun w (Command.text .regReadAll)
  have hlen : regs.length = 528 := by
    rw [printed_length, flatMap_bytesOf_length, registers_length]
  have hroom : regs.length + 5 ≤ host.room := room_of_length host (by rw [hlen]; decide)
  have hdump : dumpString (dumpRegisterCoreAPI w.core.core) = regs := by
    rw [dumpString_printed, dump_bytes]
  obtain ⟨t, ht, hcore, hsent⟩ := packingAndSend_run (w := w') hroom
  refine ⟨t, runs_of_text (by decide) (fun _ => rfl) ?_ hsent, hcore.1⟩
  have hcall : onCore host.core.dumpAllRegister w' = .ok (dumpRegisterCoreAPI w.core.core) w' :=
    onCore_run (h.dumpAllRegister w'.core)
  have halloca : alloca host (regs.length + 1) w' = .ok () w' :=
    Replies.alloca_ok (by omega)
  show cmdReadAllRegister host w' = _
  unfold cmdReadAllRegister
  rw [bind_of_ok hcall, hdump]
  exact (bind_of_ok halloca).trans ht

/-- 528 digits are taken as 33 registers, without a reply. -/
theorem runs_writeAll (h : Passes host.core) (w : World (Machine β)) {data : Hex}
    (hlen : data.1.length = 528) : ∃ t, Runs host (.regWriteAll data) w t [] ∧
      t.core = { w.core with core := written w.core.core (words 33 (byteStream data.1)) } := by
  let w' := begun w (Command.text (.regWriteAll data))
  let vals := words 33 (byteStream data.1)
  have hfit : (Command.text (.regWriteAll data)).length ≤ bufferSize := by
    show data.1.length + 1 ≤ bufferSize
    rw [hlen]
    decide
  have hwrite := writeAll_run (registerItems 33 8 (byteStream data.1)) w.core rfl
  have hcall := h.writeAllRegister _ _ _ _ hwrite
  rw [registerItems_words] at hcall
  let t : World (Machine β) := { w' with core := { w.core with core := written w.core.core vals } }
  refine ⟨t, runs_of_text hfit (fun _ => rfl) ?_ (List.append_nil _).symm, rfl⟩
  have hwhole : ¬ data.1.length % (host.core.isaBitLen / 4) ≠ 0 := by
    rw [h.isaBitLen, hlen]
    decide
  have hnum : data.1.length / (host.core.isaBitLen / 4) = 33 := by
    rw [h.isaBitLen, hlen]
  have hsize : host.core.isaBitLen / 8 = 8 := by
    rw [h.isaBitLen]
  have hroom : 33 * 8 ≤ host.room := by
    have hlarge := room_of_length host (show 264 ≤ bufferSize by decide)
    omega
  show (if data.1.length % (host.core.isaBitLen / 4) ≠ 0 then packingAndSend host []
    else do
      alloca host (data.1.length / (host.core.isaBitLen / 4) * (host.core.isaBitLen / 8))
      let bytes ← parseByteStreamStr data.1
      let feedback ← onCore (host.core.writeAllRegister (registerItems
        (data.1.length / (host.core.isaBitLen / 4)) (host.core.isaBitLen / 8) bytes))
      if feedback ≠ .memuOk then packingAndSend host e01) w' = _
  rw [if_neg hwhole, hnum, hsize]
  exact write_run hroom (by rw [hlen]) hcall

/-- Registers that are sent are the ones that are taken back. -/
theorem dumped_back (h : Passes host.core) (w : World (Machine β)) :
    ∃ (regs : Hex) (t u : World _), Runs host .regReadAll w t [regs.1] ∧
      Runs host (.regWriteAll regs) t u [] ∧ u.core = w.core := by
  obtain ⟨t, hread, hcore⟩ := runs_readAll h w
  let bytes := (registers w.core.core).flatMap bytesOf
  have hlen : (printed bytes).length = 528 := by
    rw [printed_length, flatMap_bytesOf_length, registers_length]
  have hne : printed bytes ≠ [] := List.ne_nil_of_length_eq_add_one hlen
  let regs : Hex := ⟨printed bytes, hne, printed_hex _⟩
  have hregs : regs.1.length = 528 := hlen
  obtain ⟨u, hwrite, hback⟩ := runs_writeAll h t hregs
  have hread' : byteStream regs.1 = bytes := byteStream_printed bytes
  refine ⟨regs, t, u, hread, hwrite, ?_⟩
  have hwords : words 33 bytes = registers w.core.core := words_bytes (registers w.core.core)
  rw [hback, hread', hcore, hwords, written_registers]

/-- Registers that are taken are sent with the same digits. -/
theorem written_back (h : Passes host.core) (w : World (Machine β)) {data : Hex}
    (hlen : data.1.length = 528) : ∃ (regs : List Byte) (t u : World _),
      Runs host (.regWriteAll data) w t [] ∧ Runs host .regReadAll t u [regs] ∧
        SameDigits regs data.1 := by
  obtain ⟨t, hwrite, hcore⟩ := runs_writeAll h w hlen
  obtain ⟨u, hread, -⟩ := runs_readAll h t
  have hbytes : (byteStream data.1).length = 33 * 8 := by
    rw [byteStream_length, hlen]
  have hregs : (registers t.core.core).flatMap bytesOf = byteStream data.1 := by
    rw [hcore, registers_written (words_length _ _), bytes_words hbytes]
  rw [hregs] at hread
  exact ⟨_, t, u, hwrite, hread, printed_byteStream data.2.2 (by rw [hlen])⟩

end Transfer

/-! ## The commands on memory -/

section Memory

variable {δ : Type} [SlaveIOI δ] {host : Host (Machine (AddrBus δ))} {addr len data : Hex}

/-- The machine behind a write of memory. -/
def stored (s : Machine (AddrBus δ)) (a : Addr) (n : Nat) (x : BitVec (8 * n)) :
    Machine (AddrBus δ) :=
  { s with bus := (s.bus.store a n x).2, trace := .store a n :: s.trace }

theorem memWrite_run {s : Machine (AddrBus δ)} {a : Addr} {n : Nat}
    (hbare : s.core.dataBare = true) (hin : Contains s.bus a n) (x : BitVec (8 * n)) :
    memWriteCoreDebugAPI a n x s = .ok .memuOk (stored s a n x) := by
  unfold memWriteCoreDebugAPI
  rw [bind_of_ok (Simple.LoadStore.vaddrWrite_contained hbare hin x)]
  rfl

theorem memRead_run {s : Machine (AddrBus δ)} {a : Addr} {n : Nat}
    (hbare : s.core.dataBare = true) (hin : Contains s.bus a n) :
    memReadCoreDebugAPI a n s =
      .ok (.memuOk, word (contents s.bus) a n) { s with trace := .load a n :: s.trace } := by
  unfold memReadCoreDebugAPI
  rw [bind_of_ok (Simple.LoadStore.vaddrRead_contained hbare hin)]
  rfl

/-- The word of the bytes in some digits. -/
def wordIn (data : Hex) (n : Nat) : BitVec (8 * n) :=
  readBytes (fun i => (byteStream data.1).getD i 0) 0 n

/-- As many bytes as announced are written, without a reply. -/
theorem runs_memWrite (h : Passes host.core) (w : World (Machine (AddrBus δ)))
    (hbare : w.core.core.dataBare = true)
    (hin : Contains w.core.bus (strtoll addr.1) (strtoll len.1).toNat)
    (hlen : data.1.length = 2 * (strtoll len.1).toNat)
    (hfit : (Command.memWrite addr len data).text.length ≤ bufferSize) :
    ∃ t, Runs host (.memWrite addr len data) w t [] ∧ t.core = stored w.core (strtoll addr.1)
      (strtoll len.1).toNat (wordIn data (strtoll len.1).toNat) := by
  let w' := begun w (Command.memWrite addr len data).text
  have hcall := h.memWrite _ _ _ _ _ _ (memWrite_run hbare hin (wordIn data _))
  refine ⟨{ w' with core := stored w.core (strtoll addr.1) (strtoll len.1).toNat (wordIn data _) },
    runs_of_text hfit (fun _ => rfl) ?_ (List.append_nil _).symm, rfl⟩
  have htwice : 2 * strtoll len.1 = BitVec.ofNat 64 data.1.length := by
    rw [hlen, BitVec.ofNat_mul, BitVec.ofNat_toNat, BitVec.setWidth_eq]
    rfl
  have hroom : (strtoll len.1).toNat ≤ host.room := by
    have hroom := room_of_length host hfit
    simp only [Command.text, List.length_append, List.length_cons] at hroom
    omega
  show (if 2 * strtoll len.1 ≠ BitVec.ofNat 64 data.1.length then packingAndSend host []
    else do
      alloca host (strtoll len.1).toNat
      let bytes ← parseByteStreamStr data.1
      let feedback ← onCore (host.core.memWrite (strtoll addr.1) (strtoll len.1) bytes)
      if feedback ≠ .memuOk then packingAndSend host e01) w' = _
  rw [if_neg (not_not_intro htwice)]
  exact write_run hroom (by omega) hcall

/-- The digits of main memory are sent, which stays as it is. -/
theorem runs_memRead (h : Passes host.core) (w : World (Machine (AddrBus δ)))
    (hbare : w.core.core.dataBare = true)
    (hin : Contains w.core.bus (strtoll addr.1) (strtoll len.1).toNat)
    (hlen : 2 * (strtoll len.1).toNat ≤ bufferSize)
    (hfit : (Command.memRead addr len).text.length ≤ bufferSize) :
    ∃ t, Runs host (.memRead addr len) w t [printed ((List.range (strtoll len.1).toNat).map
        fun i => (word (contents w.core.bus) (strtoll addr.1) (strtoll len.1).toNat).extractLsb'
          (8 * i) 8)] ∧ t.core.bus = w.core.bus := by
  let w' := begun w (Command.memRead addr len).text
  let bytes := (List.range (strtoll len.1).toNat).map fun i =>
    (word (contents w.core.bus) (strtoll addr.1) (strtoll len.1).toNat).extractLsb' (8 * i) 8
  have hroom : (printed bytes).length + 5 ≤ host.room := by
    refine room_of_length host ?_
    rwa [printed_length, List.length_map, List.length_range]
  have hdigits : (printed bytes).length = 2 * (strtoll len.1).toNat := by
    rw [printed_length, List.length_map, List.length_range]
  obtain ⟨hok, hcore, hdata⟩ := h.memRead _ _ _ _ _ (memRead_run hbare hin)
  let s : Machine (AddrBus δ) :=
    { w.core with trace := .load (strtoll addr.1) (strtoll len.1).toNat :: w.core.trace }
  let v : World (Machine (AddrBus δ)) := { w' with core := s }
  obtain ⟨t, ht, hsame, hsent⟩ := packingAndSend_run (w := v) hroom
  have hbus : t.core.bus = v.core.bus := congrArg Machine.bus hsame.1
  refine ⟨t, runs_of_text hfit (fun _ => rfl) ?_ hsent, hbus⟩
  let r := host.core.memRead (strtoll addr.1) (strtoll len.1) w.core
  have haccepted : r.1.1 = .memuOk := hok
  have hcall : onCore (host.core.memRead (strtoll addr.1) (strtoll len.1)) w' = .ok r.1 v :=
    onCore_run (Prod.ext rfl hcore)
  have hprinted : ((List.range (strtoll len.1).toNat).flatMap fun i => sprintfHex (r.1.2 i)) =
      printed bytes := by
    unfold printed
    rw [List.flatMap_map]
    refine List.flatMap_congr fun i hi => ?_
    rw [hdata rfl i (List.mem_range.mp hi)]
  have hlong : BitVec.ofNat 64 (strtoll len.1).toNat = strtoll len.1 := by
    rw [BitVec.ofNat_toNat, BitVec.setWidth_eq]
  show (do
    alloca host (strtoll len.1).toNat
    let answer ← onCore (host.core.memRead (strtoll addr.1)
      (BitVec.ofNat 64 (strtoll len.1).toNat))
    if answer.1 = FuncReturnFeedback.memuOk then do
      alloca host (2 * (strtoll len.1).toNat + 1)
      packingAndSend host
        ((List.range (strtoll len.1).toNat).flatMap fun i => sprintfHex (answer.2 i))
    else packingAndSend host e01) w' = _
  rw [hlong, bind_of_ok (Replies.alloca_ok (by omega)), bind_of_ok hcall]
  show (if r.1.1 = FuncReturnFeedback.memuOk then do
      alloca host (2 * (strtoll len.1).toNat + 1)
      packingAndSend host
        ((List.range (strtoll len.1).toNat).flatMap fun i => sprintfHex (r.1.2 i))
    else packingAndSend host e01) v = _
  rw [if_pos haccepted, bind_of_ok (Replies.alloca_ok (by omega)), hprinted]
  exact ht

/-- Bytes that are written are read from there, and nothing beside them is changed. -/
theorem memory_back (h : Passes host.core) (w : World (Machine (AddrBus δ)))
    (hbare : w.core.core.dataBare = true) (haddr : value addr < 2 ^ 63)
    (hdata : data.1.length = 2 * value len)
    (hfit : (Command.memWrite addr len data).text.length ≤ bufferSize)
    (hin : Contains w.core.bus (BitVec.ofNat 64 (value addr)) (value len)) :
    ∃ (bytes : List Byte) (t u : World _), Runs host (.memWrite addr len data) w t [] ∧
      Runs host (.memRead addr len) t u [bytes] ∧ SameDigits bytes data.1 ∧
      ∀ a, ¬ (a - BitVec.ofNat 64 (value addr)).toNat < value len →
        contents u.core.bus a = contents w.core.bus a := by
  have hsize : addr.1.length + len.1.length + data.1.length + 3 ≤ bufferSize := by
    simp only [Command.text, List.length_append, List.length_cons] at hfit
    omega
  have hlen : (strtoll len.1).toNat = value len := by
    rw [strtoll_value]
    unfold bufferSize at hsize
    omega
  rw [← strtoll_small haddr, ← hlen] at hin
  obtain ⟨t, hwrite, hcore⟩ := runs_memWrite h w hbare hin (by rw [hlen, hdata]) hfit
  obtain ⟨hinside, hword⟩ := Simple.LoadStore.load_stored hin (wordIn data (strtoll len.1).toNat)
  have hmemory := (Simple.LoadStore.store_contained hin (wordIn data (strtoll len.1).toNat)).2
  have hfit' : (Command.memRead addr len).text.length ≤ bufferSize := by
    simp only [Command.text, List.length_append, List.length_cons]
    omega
  obtain ⟨u, hread, hbus⟩ := runs_memRead h t (by rw [hcore]; exact hbare)
    (by rw [hcore]; exact hinside) (by rw [hlen]; omega) hfit'
  have hbytes : ((List.range (strtoll len.1).toNat).map fun i =>
      (word (contents t.core.bus) (strtoll addr.1) (strtoll len.1).toNat).extractLsb'
        (8 * i) 8) = byteStream data.1 := by
    have hloaded : word (contents t.core.bus) (strtoll addr.1) (strtoll len.1).toNat =
        wordIn data (strtoll len.1).toNat := by
      rw [hcore]
      exact hword
    have hcount : (byteStream data.1).length = (strtoll len.1).toNat := by
      rw [byteStream_length, hlen]
      omega
    rw [hloaded, ← map_getD_range (byteStream data.1) 0, hcount]
    refine List.map_congr_left fun i hi => ?_
    rw [wordIn, byte_readBytes (List.mem_range.mp hi), Nat.zero_add]
  rw [hbytes] at hread
  refine ⟨_, t, u, hwrite, hread, printed_byteStream data.2.2 (by omega), fun a ha => ?_⟩
  rw [hbus, hcore]
  refine (congrFun hmemory a).trans (if_neg ?_)
  rw [← strtoll_small haddr, ← hlen] at ha
  exact ha

end Memory

/-- Registers and memory come back through the stub as they went. -/
theorem round_trips {δ : Type} [SlaveIOI δ] (host : Host (Machine (AddrBus δ)))
    (h : Passes host.core) (w : World (Machine (AddrBus δ))) : RoundTrips host w := by
  refine ⟨dumped_back h w, fun data hlen => ?_, ?_⟩
  · obtain ⟨regs, t, u, hwrite, hread, hsame⟩ := written_back h w hlen
    exact ⟨regs, t, u, hwrite, hread, hsame.drop 16⟩
  · intro hmode hmprv addr len data haddr _ hdata hfit hin
    have hbare : w.core.core.dataBare = true := by
      unfold Simple.RV64Core.dataBare
      rw [hmode, hmprv]
      rfl
    exact memory_back h w hbare haddr hdata hfit hin

/-! ## A core for the stub -/

section Core

variable {β : Type} [SlaveAtomicIOI β]

/-- The requests, passed on. A failed assertion, which ends the program, leaves the machine where it
stopped. -/
def rv64Core : Debuggable (Machine β) where
  dumpAllRegister s := (dumpRegisterCoreAPI s.core, s)
  writeAllRegister regs s :=
    match writeAllRegisterCoreAPI (regs.map (·.val)) s with
    | .ok r t => (feedbackOf r, t)
    | .error _ t => (.memuUnknown, t)
  memRead addr len s :=
    match memReadCoreDebugAPI addr len.toNat s with
    | .ok r t => ((feedbackOf r.1, fun i => r.2.extractLsb' (8 * i) 8), t)
    | .error _ t => ((.memuUnknown, fun _ => 0), t)
  memWrite addr len bytes s :=
    match memWriteCoreDebugAPI addr len.toNat
      (readBytes (fun i => bytes.getD i 0) 0 len.toNat) s with
    | .ok r t => (feedbackOf r, t)
    | .error _ t => (.memuUnknown, t)
  dumpProgramCounter s := (s.core.currentProgramCounter, s)
  step s := final Simple.step s
  isaBitLen := 64
  isaBitLen_eq := rv64_width

theorem rv64Core_passes : Passes (rv64Core : Debuggable (Machine β)) := by
  refine ⟨rfl, fun _ => rfl, fun regs s r t hrun => ?_, fun addr len s r t hrun => ?_,
    fun addr len bytes s r t hrun => ?_⟩
  · unfold rv64Core
    dsimp only
    rw [hrun]
  · unfold rv64Core
    dsimp only
    rw [hrun]
    exact ⟨rfl, rfl, fun _ _ _ => rfl⟩
  · unfold rv64Core
    dsimp only
    rw [hrun]

end Core

def rv64Host : Host (Machine (AddrBus Empty)) := { idleHost with core := rv64Core }

/-- A core behind reset with some memory. -/
def rv64World : World (Machine (AddrBus Empty)) :=
  { core := Simple.DebugRegisters.copyMachine, watchPointPCs := ∅, input := [],
    acks := [ascii '+'], trace := [] }

theorem round_trips_reset : RoundTrips rv64Host rv64World :=
  round_trips rv64Host rv64Core_passes rv64World

end NextEmu.GdbStub.Transfers
