import NextEmu.GdbStub.Stub

/-!
# The trace of the stub

What was seen stays seen: all code of the stub adds to its trace. A packet adds one event
and the ones for sending it again.
-/

namespace NextEmu.GdbStub

open NextEmu.Lib NextEmu.Lib.AbortState

/-- The trace goes on. -/
def Longer {κ : Type} (s t : World κ) : Prop := ∃ events, t.trace = s.trace ++ events

/-- Code that adds to the trace, whichever way it ends. -/
def Grows {κ ρ : Type} (x : Stub κ ρ) : Prop := Tracks Longer (fun _ _ => True) x

section Grows

variable {κ ρ α : Type} {host : Host κ}

theorem Longer.refl (s : World κ) : Longer s s := ⟨[], (List.append_nil _).symm⟩

theorem Longer.trans (s t u : World κ) : Longer s t → Longer t u → Longer s u := by
  rintro ⟨es, hs⟩ ⟨fs, ht⟩
  exact ⟨es ++ fs, by rw [ht, hs, List.append_assoc]⟩

theorem longer_of_eq {s t : World κ} (h : t.trace = s.trace) : Longer s t :=
  ⟨[], by rw [h, List.append_nil]⟩

theorem grows_pure (r : ρ) : Grows (pure r : Stub κ ρ) := Tracks.pure Longer.refl r

theorem grows_throw (e : Stop) : Grows (throw e : Stub κ ρ) :=
  Tracks.throw Longer.refl fun _ => trivial

theorem grows_bind {x : Stub κ α} {f : α → Stub κ ρ} (hx : Grows x) (hf : ∀ a, Grows (f a)) :
    Grows (x >>= f) := Tracks.bind Longer.trans hx hf

theorem grows_then {x : Stub κ Unit} {y : Stub κ ρ} (hx : Grows x) (hy : Grows y) :
    Grows (do x; y) := grows_bind hx fun _ => hy

theorem grows_ite {p : Prop} [Decidable p] {x y : Stub κ ρ} (hx : Grows x) (hy : Grows y) :
    Grows (if p then x else y) := Tracks.ite hx hy

theorem Grows.final {x : Stub κ ρ} (h : Grows x) (s : World κ) :
    ∃ events, (final x s).trace = s.trace ++ events := Tracks.final h s

theorem grows_emit (e : Event) : Grows (emit e : Stub κ Unit) := fun _ => ⟨[e], rfl⟩

theorem grows_assertThat (p : Prop) [Decidable p] : Grows (assertThat p : Stub κ Unit) :=
  grows_ite (grows_pure ()) (grows_throw _)

theorem grows_alloca (n : Nat) : Grows (alloca host n) := grows_ite (grows_pure ()) (grows_throw _)

theorem grows_onCore (f : κ → ρ × κ) : Grows (onCore f) := fun _ => longer_of_eq rfl

theorem grows_modify {f : World κ → World κ} (h : ∀ w, (f w).trace = w.trace) :
    Grows (modify f : Stub κ Unit) := fun w => longer_of_eq (h w)

theorem grows_receive : Grows (receive host) := by
  refine grows_bind (fun w => Longer.refl w) fun w => ?_
  cases w.input with
  | nil => exact grows_throw _
  | cons text input =>
    refine grows_then (grows_modify fun _ => rfl) (grows_then (grows_emit _) ?_)
    cases recvAndCheck host.stale text with
    | none => exact grows_throw _
    | some r => exact grows_pure _

theorem grows_retry (err : FuncReturnFeedback) (left : Nat) (r : FuncReturnFeedback × List Byte) :
    Grows (retry host err left r) := by
  induction left generalizing r with
  | zero => exact grows_ite (grows_throw _) (grows_pure _)
  | succ left ih =>
    exact grows_ite (grows_then (grows_emit _) (grows_bind grows_receive fun r => ih r))
      (grows_pure _)

theorem grows_recvPacket : Grows (recvPacket host) :=
  grows_bind grows_receive fun _ => grows_bind (grows_retry _ _ _) fun _ =>
    grows_bind (grows_retry _ _ _) fun _ => grows_then (grows_emit _) (grows_pure _)

theorem grows_readAck (ack : Byte) : Grows (readAck ack : Stub κ Byte) := by
  intro w
  cases h : w.acks with
  | nil => exact longer_of_eq (by simp only [h])
  | cons a acks => exact longer_of_eq (by simp only [h])

theorem grows_resend (data : List Byte) (left : Nat) (ack : Byte) :
    Grows (resend data left ack : Stub κ Unit) := by
  induction left generalizing ack with
  | zero => exact grows_pure ()
  | succ left ih =>
    exact grows_ite (grows_then (grows_emit _) (grows_bind (grows_readAck _) fun a => ih a))
      (grows_pure ())

theorem grows_packingAndSend (data : List Byte) : Grows (packingAndSend host data) :=
  grows_then (grows_alloca _) (grows_then (grows_emit _) (grows_then (grows_alloca _)
    (grows_bind (grows_readAck _) fun a => grows_resend data 10 a)))

/-! ## The commands and the loop -/

theorem grows_cmdReadAllRegister : Grows (cmdReadAllRegister host) :=
  grows_bind (grows_onCore _) fun _ => grows_then (grows_alloca _) (grows_packingAndSend _)

theorem grows_parseByteStreamStr (s : List Byte) :
    Grows (parseByteStreamStr s : Stub κ (List Byte)) :=
  grows_then (grows_assertThat _) (grows_pure _)

/-- What the two writes do behind their checks. -/
theorem grows_write (n : Nat) (s : List Byte) (f : List Byte → κ → FuncReturnFeedback × κ) :
    Grows (do
      alloca host n
      let bytes ← parseByteStreamStr s
      let feedback ← onCore (f bytes)
      if feedback ≠ .memuOk then packingAndSend host e01) := by
  refine grows_then (grows_alloca _) (grows_bind (grows_parseByteStreamStr _) fun bytes => ?_)
  exact grows_bind (grows_onCore _) fun _ => grows_ite (grows_packingAndSend _) (grows_pure ())

theorem grows_cmdWriteAllRegister (packet : Packet) :
    Grows (cmdWriteAllRegister host packet) := by
  refine grows_then (grows_assertThat _) ?_
  split
  · exact grows_ite (grows_packingAndSend _) (grows_write _ _ _)
  · exact grows_packingAndSend _

theorem grows_cmdMemRead (packet : Packet) : Grows (cmdMemRead host packet) := by
  refine grows_then (grows_assertThat _) ?_
  split
  · refine grows_then (grows_alloca _) (grows_bind (grows_onCore _) fun _ => ?_)
    exact grows_ite (grows_then (grows_alloca _) (grows_packingAndSend _))
      (grows_packingAndSend _)
  · exact grows_packingAndSend _

theorem grows_cmdMemWrite (packet : Packet) : Grows (cmdMemWrite host packet) := by
  refine grows_then (grows_assertThat _) ?_
  split
  · exact grows_ite (grows_packingAndSend _) (grows_write _ _ _)
  · exact grows_packingAndSend _

theorem grows_cmdBreakpoint (type : PacketType)
    (change : Finset (BitVec 64) → BitVec 64 → Finset (BitVec 64)) (packet : Packet) :
    Grows (cmdBreakpoint host type change packet) := by
  refine grows_then (grows_assertThat _) ?_
  split
  · exact grows_ite (grows_packingAndSend _)
      (grows_then (grows_modify fun _ => rfl) (grows_packingAndSend _))
  · exact grows_packingAndSend _

theorem grows_runToWatchPoint (fuel : Nat) : Grows (runToWatchPoint host fuel) := by
  induction fuel with
  | zero => exact grows_throw _
  | succ fuel ih =>
    have hhits : Grows (hitsWatchPoint host) :=
      grows_bind (grows_onCore _) fun _ => grows_bind (fun w => Longer.refl w) fun _ =>
        grows_pure _
    exact grows_bind hhits fun _ =>
      grows_ite (grows_pure ()) (grows_then (grows_modify fun _ => rfl) ih)

theorem grows_cmdContinue (fuel : Nat) (packet : Packet) :
    Grows (cmdContinue host fuel packet) :=
  grows_then (grows_assertThat _) (grows_ite (grows_packingAndSend _)
    (grows_then (grows_runToWatchPoint fuel) (grows_packingAndSend _)))

theorem grows_dispatch {fuel : Nat} {packet : Packet} {command : Stub κ Unit}
    (h : dispatch host fuel packet = some command) : Grows command := by
  unfold dispatch at h
  split at h <;> cases h
  · exact grows_packingAndSend _
  · exact grows_cmdReadAllRegister
  · exact grows_cmdWriteAllRegister packet
  · exact grows_then (grows_alloca _) (grows_packingAndSend _)
  · exact grows_cmdMemRead packet
  · exact grows_cmdMemWrite packet
  · exact grows_cmdBreakpoint _ _ packet
  · exact grows_cmdBreakpoint _ _ packet
  · exact grows_cmdContinue fuel packet
  · exact grows_pure ()
  · exact grows_packingAndSend _

theorem grows_perform (fuel : Nat) (data : List Byte) : Grows (perform host fuel data) := by
  refine grows_then (grows_alloca _) ?_
  cases h : dispatch host fuel (parsePacket data) with
  | none => exact grows_throw _
  | some command =>
    exact grows_then (grows_emit _) (grows_then (grows_emit _) (grows_dispatch h))

theorem grows_round (fuel : Nat) : Grows (round host fuel) :=
  grows_bind grows_recvPacket fun _ => grows_ite (grows_throw _) (grows_perform fuel _)

theorem grows_debugGDBStub (fuel turns : Nat) : Grows (debugGDBStub host fuel turns) := by
  induction turns with
  | zero => exact grows_throw _
  | succ turns ih => exact grows_then (grows_round fuel) ih

end Grows

end NextEmu.GdbStub
