import NextEmu.GdbStub.Commands
import NextEmu.GdbStub.Replies

/-!
# What is asked of the core

The stub on a core that writes down how its memory is called and when it steps. The stub on the
core itself does the same, so that what is shown of the one holds of the other.
-/

namespace NextEmu.GdbStub.Calls

open NextEmu.Lib NextEmu.Lib.AbortState NextEmu.GdbStub.Commands

variable {κ ρ : Type}

inductive Call
  | memRead (addr len : BitVec 64)
  | memWrite (addr len : BitVec 64) (bytes : List Byte)
  | step
  deriving DecidableEq

/-- A request that leaves no call behind. -/
def quiet (f : κ → ρ × κ) (c : κ × List Call) : ρ × κ × List Call :=
  ((f c.1).1, (f c.1).2, c.2)

def called (f : κ → ρ × κ) (call : Call) (c : κ × List Call) : ρ × κ × List Call :=
  ((f c.1).1, (f c.1).2, c.2 ++ [call])

def recordedCore (core : Debuggable κ) : Debuggable (κ × List Call) where
  dumpAllRegister := quiet core.dumpAllRegister
  writeAllRegister regs := quiet (core.writeAllRegister regs)
  memRead addr len := called (core.memRead addr len) (.memRead addr len)
  memWrite addr len bytes := called (core.memWrite addr len bytes) (.memWrite addr len bytes)
  dumpProgramCounter := quiet core.dumpProgramCounter
  step c := (core.step c.1, c.2 ++ [.step])
  isaBitLen := core.isaBitLen
  isaBitLen_eq := core.isaBitLen_eq

def recorded (host : Host κ) : Host (κ × List Call) where
  core := recordedCore host.core
  room := host.room
  room_large := host.room_large
  room_small := host.room_small
  stale := host.stale

/-- The world without the calls. -/
def unrecorded (w : World (κ × List Call)) : World κ := { w with core := w.core.1 }

/-- The calls so far. -/
def calls (w : World (κ × List Call)) : List Call := w.core.2

/-! ## The calls change nothing -/

/-- The stub does to a core what it does to the core that writes down. -/
abbrev Unseen (x : Stub (κ × List Call) ρ) (y : Stub κ ρ) : Prop := Mirrors unrecorded x y

section Unseen

variable {α : Type} {host : Host κ}

theorem unseen_then {x : Stub (κ × List Call) Unit} {y : Stub κ Unit}
    {x' : Stub (κ × List Call) ρ} {y' : Stub κ ρ} (h : Unseen x y) (h' : Unseen x' y') :
    Unseen (do x; x') (do y; y') := Mirrors.bind h fun _ => h'

theorem unseen_emit (e : Event) : Unseen (emit e : Stub (κ × List Call) Unit) (emit e) :=
  fun _ => rfl

theorem unseen_assertThat (p : Prop) [Decidable p] :
    Unseen (assertThat p : Stub (κ × List Call) Unit) (assertThat p) :=
  Mirrors.ite (Mirrors.pure ()) (Mirrors.throw _)

theorem unseen_alloca (n : Nat) : Unseen (alloca (recorded host) n) (alloca host n) :=
  Mirrors.ite (Mirrors.pure ()) (Mirrors.throw _)

theorem unseen_quiet (f : κ → ρ × κ) : Unseen (onCore (quiet f)) (onCore f) := fun _ => rfl

theorem unseen_called (f : κ → ρ × κ) (call : Call) : Unseen (onCore (called f call)) (onCore f) :=
  fun _ => rfl

theorem unseen_receive : Unseen (receive (recorded host)) (receive host) := by
  intro w
  obtain ⟨core, watchPointPCs, input, acks, trace⟩ := w
  cases input with
  | nil => rfl
  | cons text input =>
    unfold receive
    rw [bind_of_ok (run_get _), bind_of_ok (run_get _)]
    dsimp only [unrecorded, recorded]
    cases recvAndCheck host.stale text with
    | none => rfl
    | some r => rfl

theorem unseen_retry (err : FuncReturnFeedback) (left : Nat)
    (r : FuncReturnFeedback × List Byte) :
    Unseen (retry (recorded host) err left r) (retry host err left r) := by
  induction left generalizing r with
  | zero => exact Mirrors.ite (Mirrors.throw _) (Mirrors.pure _)
  | succ left ih =>
    exact Mirrors.ite (unseen_then (unseen_emit _) (Mirrors.bind unseen_receive fun r => ih r))
      (Mirrors.pure _)

theorem unseen_recvPacket : Unseen (recvPacket (recorded host)) (recvPacket host) :=
  Mirrors.bind unseen_receive fun _ => Mirrors.bind (unseen_retry _ _ _) fun _ =>
    Mirrors.bind (unseen_retry _ _ _) fun _ => unseen_then (unseen_emit _) (Mirrors.pure _)

theorem unseen_readAck (ack : Byte) :
    Unseen (readAck ack : Stub (κ × List Call) Byte) (readAck ack) := by
  intro w
  obtain ⟨core, watchPointPCs, input, acks, trace⟩ := w
  cases acks with
  | nil => rfl
  | cons a acks => rfl

theorem unseen_resend (data : List Byte) (left : Nat) (ack : Byte) :
    Unseen (resend data left ack : Stub (κ × List Call) Unit) (resend data left ack) := by
  induction left generalizing ack with
  | zero => exact Mirrors.pure ()
  | succ left ih =>
    exact Mirrors.ite
      (unseen_then (unseen_emit _) (Mirrors.bind (unseen_readAck _) fun a => ih a))
      (Mirrors.pure ())

theorem unseen_packingAndSend (data : List Byte) :
    Unseen (packingAndSend (recorded host) data) (packingAndSend host data) :=
  unseen_then (unseen_alloca _) (unseen_then (unseen_emit _) (unseen_then (unseen_alloca _)
    (Mirrors.bind (unseen_readAck _) fun a => unseen_resend data 10 a)))

theorem unseen_cmdReadAllRegister :
    Unseen (cmdReadAllRegister (recorded host)) (cmdReadAllRegister host) :=
  Mirrors.bind (unseen_quiet _) fun _ => unseen_then (unseen_alloca _) (unseen_packingAndSend _)

theorem unseen_parseByteStreamStr (s : List Byte) :
    Unseen (parseByteStreamStr s : Stub (κ × List Call) (List Byte)) (parseByteStreamStr s) :=
  unseen_then (unseen_assertThat _) (Mirrors.pure _)

theorem unseen_cmdWriteAllRegister (packet : Packet) :
    Unseen (cmdWriteAllRegister (recorded host) packet) (cmdWriteAllRegister host packet) := by
  refine unseen_then (unseen_assertThat _) ?_
  obtain ⟨type, params⟩ := packet
  rcases params with _ | ⟨data, _ | ⟨s, params⟩⟩
  · exact unseen_packingAndSend _
  · refine Mirrors.ite (unseen_packingAndSend _) (unseen_then (unseen_alloca _) ?_)
    refine Mirrors.bind (unseen_parseByteStreamStr _) fun bytes => ?_
    exact Mirrors.bind (unseen_quiet _) fun _ =>
      Mirrors.ite (unseen_packingAndSend _) (Mirrors.pure ())
  · exact unseen_packingAndSend _

theorem unseen_cmdMemRead (packet : Packet) :
    Unseen (cmdMemRead (recorded host) packet) (cmdMemRead host packet) := by
  refine unseen_then (unseen_assertThat _) ?_
  obtain ⟨type, params⟩ := packet
  rcases params with _ | ⟨addr, _ | ⟨len, _ | ⟨s, params⟩⟩⟩
  · exact unseen_packingAndSend _
  · exact unseen_packingAndSend _
  · refine unseen_then (unseen_alloca _) (Mirrors.bind (unseen_called _ _) fun r => ?_)
    exact Mirrors.ite (unseen_then (unseen_alloca _) (unseen_packingAndSend _))
      (unseen_packingAndSend _)
  · exact unseen_packingAndSend _

theorem unseen_cmdMemWrite (packet : Packet) :
    Unseen (cmdMemWrite (recorded host) packet) (cmdMemWrite host packet) := by
  refine unseen_then (unseen_assertThat _) ?_
  obtain ⟨type, params⟩ := packet
  rcases params with _ | ⟨addr, _ | ⟨len, _ | ⟨data, _ | ⟨s, params⟩⟩⟩⟩
  · exact unseen_packingAndSend _
  · exact unseen_packingAndSend _
  · exact unseen_packingAndSend _
  · refine Mirrors.ite (unseen_packingAndSend _) (unseen_then (unseen_alloca _) ?_)
    refine Mirrors.bind (unseen_parseByteStreamStr _) fun bytes => ?_
    exact Mirrors.bind (unseen_called _ _) fun _ =>
      Mirrors.ite (unseen_packingAndSend _) (Mirrors.pure ())
  · exact unseen_packingAndSend _

theorem unseen_cmdBreakpoint (type : PacketType)
    (change : Finset (BitVec 64) → BitVec 64 → Finset (BitVec 64)) (packet : Packet) :
    Unseen (cmdBreakpoint (recorded host) type change packet)
      (cmdBreakpoint host type change packet) := by
  refine unseen_then (unseen_assertThat _) ?_
  obtain ⟨type', params⟩ := packet
  rcases params with _ | ⟨s, _ | ⟨addr, _ | ⟨kind, _ | ⟨s', params⟩⟩⟩⟩
  · exact unseen_packingAndSend _
  · exact unseen_packingAndSend _
  · exact unseen_packingAndSend _
  · exact Mirrors.ite (unseen_packingAndSend _)
      (unseen_then (fun _ => rfl) (unseen_packingAndSend _))
  · exact unseen_packingAndSend _

theorem unseen_runToWatchPoint (fuel : Nat) :
    Unseen (runToWatchPoint (recorded host) fuel) (runToWatchPoint host fuel) := by
  induction fuel with
  | zero => exact Mirrors.throw _
  | succ fuel ih =>
    have hhits : Unseen (hitsWatchPoint (recorded host)) (hitsWatchPoint host) := fun _ => rfl
    exact Mirrors.bind hhits fun _ =>
      Mirrors.ite (Mirrors.pure ()) (unseen_then (fun _ => rfl) ih)

theorem unseen_cmdContinue (fuel : Nat) (packet : Packet) :
    Unseen (cmdContinue (recorded host) fuel packet) (cmdContinue host fuel packet) :=
  unseen_then (unseen_assertThat _) (Mirrors.ite (unseen_packingAndSend _)
    (unseen_then (unseen_runToWatchPoint fuel) (unseen_packingAndSend _)))

theorem unseen_perform (fuel : Nat) (data : List Byte) :
    Unseen (perform (recorded host) fuel data) (perform host fuel data) := by
  refine unseen_then (unseen_alloca _) ?_
  obtain ⟨type, params⟩ := parsePacket data
  have hcommand : ∀ {x : Stub (κ × List Call) Unit} {y : Stub κ Unit}, Unseen x y →
      Unseen (do emit (.dispatched data); sendACK; x) (do emit (.dispatched data); sendACK; y) :=
    fun h => unseen_then (unseen_emit _) (unseen_then (unseen_emit _) h)
  cases type with
  | cmdQueryHaltReason => exact hcommand (unseen_packingAndSend _)
  | cmdRegReadAll => exact hcommand unseen_cmdReadAllRegister
  | cmdRegWriteAll => exact hcommand (unseen_cmdWriteAllRegister _)
  | cmdQSupported =>
    exact hcommand (unseen_then (unseen_alloca _) (unseen_packingAndSend _))
  | cmdMemRead => exact hcommand (unseen_cmdMemRead _)
  | cmdMemWrite => exact hcommand (unseen_cmdMemWrite _)
  | cmdInsertBreakpoint => exact hcommand (unseen_cmdBreakpoint _ _ _)
  | cmdRemoveBreakpoint => exact hcommand (unseen_cmdBreakpoint _ _ _)
  | cmdContinue => exact hcommand (unseen_cmdContinue fuel _)
  | emptyPacket => exact hcommand (Mirrors.pure ())
  | cmdUnknown => exact hcommand (unseen_packingAndSend _)
  | cmdRegReadIndex | cmdRegWriteIndex | cmdQTraceStatus | cmdSingleStep | cmdSpecifyThreadForG
  | cmdSpecifyThreadForC | cmdQAttached | cmdQThreadInfo => exact Mirrors.throw _

theorem unseen_round (fuel : Nat) : Unseen (round (recorded host) fuel) (round host fuel) :=
  Mirrors.bind unseen_recvPacket fun _ => Mirrors.ite (Mirrors.throw _) (unseen_perform fuel _)

/-- Writing down what is asked changes nothing else. -/
theorem unseen_debugGDBStub (fuel turns : Nat) :
    Unseen (debugGDBStub (recorded host) fuel turns) (debugGDBStub host fuel turns) := by
  induction turns with
  | zero => exact Mirrors.throw _
  | succ turns ih => exact unseen_then (unseen_round fuel) ih

end Unseen

/-! ## Replies -/

def replyOf : Event → Option (List Byte)
  | .packet data => some data
  | .received _ | .plus | .minus | .dispatched _ | .resent _ => none

/-- The packets that were sent, each written once. -/
def replies (w : World κ) : List (List Byte) := w.trace.filterMap replyOf

/-- The core and the watchpoints are the same. -/
def SameCore (s t : World κ) : Prop := t.core = s.core ∧ t.watchPointPCs = s.watchPointPCs

/-- And nothing new is sent. -/
def Silent (s t : World κ) : Prop := SameCore s t ∧ replies t = replies s

section Sending

variable {host : Host κ} {w : World κ} {data : List Byte}

theorem SameCore.refl (s : World κ) : SameCore s s := ⟨rfl, rfl⟩

theorem SameCore.trans (s t u : World κ) (h : SameCore s t) (h' : SameCore t u) : SameCore s u :=
  ⟨h'.1.trans h.1, h'.2.trans h.2⟩

theorem Silent.refl (s : World κ) : Silent s s := ⟨SameCore.refl s, rfl⟩

theorem Silent.trans (s t u : World κ) (h : Silent s t) (h' : Silent t u) : Silent s u :=
  ⟨SameCore.trans s t u h.1 h'.1, h'.2.trans h.2⟩

theorem replies_emit (e : Event) (w : World κ) :
    replies { w with trace := w.trace ++ [e] } = replies w ++ (replyOf e).toList := by
  unfold replies
  rw [List.filterMap_append]
  cases e <;> rfl

theorem onCore_run {f : κ → ρ × κ} {r : ρ} {c : κ} (h : f w.core = (r, c)) :
    onCore f w = .ok r { w with core := c } := by
  show EStateM.Result.ok (f w.core).1 _ = _
  rw [h]

theorem silent_emit {e : Event} (he : replyOf e = none) :
    Tracks Silent (fun _ _ => True) (emit e : Stub κ Unit) := by
  refine fun w => ⟨⟨rfl, rfl⟩, (replies_emit e w).trans ?_⟩
  rw [he]
  exact List.append_nil _

theorem silent_readAck (ack : Byte) :
    Tracks Silent (fun _ _ => True) (readAck ack : Stub κ Byte) := by
  intro w
  obtain ⟨core, watchPointPCs, input, acks, trace⟩ := w
  cases acks with
  | nil => exact Silent.refl _
  | cons a acks => exact ⟨⟨rfl, rfl⟩, rfl⟩

theorem silent_alloca (n : Nat) : Tracks Silent (fun _ _ => True) (alloca host n) :=
  Tracks.ite (Tracks.pure Silent.refl ()) (Tracks.throw Silent.refl fun _ => trivial)

theorem sameCore_alloca (n : Nat) : Tracks SameCore (fun _ _ => True) (alloca host n) :=
  (silent_alloca n).mono fun _ _ h => h.1

theorem silent_resend (data : List Byte) (left : Nat) (ack : Byte) :
    Tracks Silent (fun _ _ => True) (resend data left ack : Stub κ Unit) := by
  induction left generalizing ack with
  | zero => exact Tracks.pure Silent.refl ()
  | succ left ih =>
    refine Tracks.ite ?_ (Tracks.pure Silent.refl ())
    exact Tracks.bind Silent.trans (silent_emit rfl) fun _ =>
      Tracks.bind Silent.trans (silent_readAck _) fun a => ih a

/-- Sending asks nothing of the core, whether it fits or not. -/
theorem sameCore_packingAndSend (data : List Byte) :
    Tracks SameCore (fun _ _ => True) (packingAndSend host data) := by
  refine Tracks.bind SameCore.trans (sameCore_alloca _) fun _ => ?_
  refine Tracks.bind SameCore.trans (fun _ => ⟨rfl, rfl⟩) fun _ => ?_
  refine Tracks.bind SameCore.trans (sameCore_alloca _) fun _ => ?_
  refine Tracks.bind SameCore.trans ((silent_readAck _).mono fun _ _ h => h.1) fun a => ?_
  exact (silent_resend data 10 a).mono fun _ _ h => h.1

/-- What fits is sent. -/
theorem packingAndSend_run (h : data.length + 5 ≤ host.room) :
    ∃ t, packingAndSend host data w = .ok () t ∧ SameCore w t ∧
      replies t = replies w ++ [data] := by
  obtain ⟨t, ht, -⟩ := Replies.replied_packingAndSend.mpr h
  refine ⟨t, ht, (sameCore_packingAndSend data).ok ht, ?_⟩
  let w' : World κ := { w with trace := w.trace ++ [.packet data] }
  have hrest : (do
      alloca host (data.length + 5)
      let ack ← readAck (ascii '-')
      resend data 10 ack : Stub κ Unit) w' = .ok () t := by
    rw [← ht]
    refine Eq.symm ((bind_of_ok (Replies.alloca_ok h)).trans ?_)
    exact bind_of_ok (rfl : emit (.packet data) w = .ok () w')
  have hsilent := (Tracks.bind Silent.trans (silent_alloca (data.length + 5)) fun _ =>
    Tracks.bind Silent.trans (silent_readAck (ascii '-')) fun a => silent_resend data 10 a).ok hrest
  exact hsilent.2.trans (replies_emit (.packet data) w)

/-- The world of the command that a packet has. -/
def begun (w : World κ) (data : List Byte) : World κ :=
  { w with trace := w.trace ++ [.dispatched data] ++ [.plus] }

theorem silent_begun (w : World κ) (data : List Byte) : Silent w (begun w data) := by
  refine ⟨⟨rfl, rfl⟩, ?_⟩
  show replies { w with trace := w.trace ++ [.dispatched data] ++ [.plus] } = replies w
  unfold replies
  rw [List.filterMap_append, List.filterMap_append]
  exact (List.append_nil _).trans (List.append_nil _)

theorem room_of_length (host : Host κ) {n : Nat} (h : n ≤ bufferSize) : n + 5 ≤ host.room := by
  have hlarge := host.room_large
  unfold bufferSize at h hlarge
  omega

/-- The text of a command is performed as the command. -/
theorem perform_text {c : Command} {fuel : Nat} {command : Stub κ Unit}
    (hfit : c.text.length ≤ bufferSize)
    (h : dispatch host fuel ⟨c.packetType, c.found⟩ = some command) :
    perform host fuel c.text w = command (begun w c.text) := by
  have hroom : c.text.length + 1 ≤ host.room :=
    (Nat.add_le_add_left (by decide) _).trans (room_of_length host hfit)
  unfold perform
  rw [bind_of_ok (Replies.alloca_ok hroom), parsePacket_text c (takeWhile_text c), h]
  rfl

end Sending

end NextEmu.GdbStub.Calls
