import NextEmu.GdbStub.Frames
import NextEmu.GdbStub.Trace

/-!
# The acknowledgement of frames

A session is the loop of the stub on a sequence of frames, until it waits for another. Each
frame that is not valid is answered by one `-`, as long as checksum errors come before
malformed frames; the second loop of `recvPacket` ends at a checksum error as it does at a
valid frame, and acknowledges it. A valid frame is acknowledged by `recvPacket` and again
by the command.
-/

namespace NextEmu.GdbStub.Acknowledgement

open NextEmu.Lib.AbortState

/-- What is due for a frame. -/
def ackOf (f : Frame) : Event :=
  match f.kind with
  | .valid _ => .plus
  | .wrongSum | .malformed => .minus

def payloadOf (f : Frame) : Option (List Byte) :=
  match f.kind with
  | .valid data => some data
  | .wrongSum | .malformed => none

def isLink : Event → Bool
  | .received _ | .plus | .minus => true
  | .dispatched _ | .packet _ | .resent _ => false

def dispatchedData : Event → Option (List Byte)
  | .dispatched data => some data
  | _ => none

/-- Some frames, with one answer to each. -/
def due (fs : List Frame) : List Event := fs.flatMap fun f => [.received f.text, ackOf f]

/-- Each frame is received and then answered once, and the valid ones are dispatched. -/
structure Disciplined (fs : List Frame) (events : List Event) : Prop where
  acks : events.filter isLink = due fs
  dispatched : events.filterMap dispatchedData = fs.filterMap payloadOf

/-- There are at most `left` more frames that are not valid before the next valid one, and at most
ten after that. -/
def WithinRetries : Nat → List Frame → Prop
  | _, [] => True
  | left, f :: fs =>
    if (payloadOf f).isSome then WithinRetries 10 fs
    else match left with
      | 0 => False
      | left + 1 => WithinRetries left fs

/-- No frame is valid, and no checksum error comes after a malformed frame. -/
def Ordered (fs : List Frame) : Prop :=
  ∃ cs ms, fs = cs ++ ms ∧ (∀ f ∈ cs, f.kind = .wrongSum) ∧ ∀ f ∈ ms, f.kind = .malformed

section Session

variable {κ : Type} (host : Host κ) (fuel : Nat) (w : World κ)

/-- The world with other input and another trace. -/
def linked (input : List (List Byte)) (trace : List Event) : World κ :=
  { w with input := input, trace := trace }

/-- The events of a session. -/
def events (fs : List Frame) : List Event :=
  (final (debugGDBStub host fuel (fs.length + 1)) (linked w (fs.map Frame.text) [])).trace

end Session

/-! ## The loops of `recvPacket` -/

section Loops

variable {κ : Type} {host : Host κ} {w : World κ} {f : Frame} {fs : List Frame}
  {more : List (List Byte)} {trace : List Event} {left : Nat} {err : FuncReturnFeedback}

/-- A text is read, and its packet is returned. -/
theorem receive_run {text : List Byte} {r : Received} (hin : w.input = text :: more)
    (hrecv : recvAndCheck host.stale text = some r) :
    receive host w =
      .ok (r.feedback, r.packet) (linked w more (w.trace ++ [.received text])) := by
  unfold receive
  rw [bind_of_ok (run_get _), hin]
  dsimp only
  rw [hrecv]
  rfl

theorem receive_text :
    receive host (linked w (f.text :: more) trace) =
      .ok f.kind.result (linked w more (trace ++ [.received f.text])) :=
  receive_run rfl (recvAndCheck_text host.stale f)

theorem receive_blocked :
    receive host (linked w [] trace) = .error .blocked (linked w [] trace) := rfl

theorem retry_done {r : FuncReturnFeedback × List Byte} (h : r.1 ≠ err) :
    retry host err left r w = .ok (left, r) w := by
  cases left with
  | zero => exact congrFun (if_neg h) w
  | succ left => exact congrFun (if_neg h) w

theorem retry_again {r : FuncReturnFeedback × List Byte} (h : r.1 = err) :
    retry host err (left + 1) r (linked w more trace) =
      (receive host >>= retry host err left) (linked w more (trace ++ [.minus])) :=
  congrFun (if_pos h) _

/-- The events of some frames that are answered by `-` before the first of them and between
them. -/
def again (fs : List Frame) : List Event := fs.flatMap fun f => [.minus, .received f.text]

/-- The answers to some frames that are not valid. -/
def heard (fs : List Frame) : List Event := fs.flatMap fun f => [.received f.text, .minus]

theorem again_heard (f : Frame) (fs : List Frame) :
    .received f.text :: (again fs ++ [.minus]) = heard (f :: fs) := by
  suffices hshift : again fs ++ [.minus] = .minus :: heard fs by
    rw [hshift]
    rfl
  induction fs with
  | nil => rfl
  | cons g gs ih =>
    show .minus :: .received g.text :: (again gs ++ [.minus]) = _
    rw [ih]
    rfl

/-- Frames of one kind of error keep their loop going. -/
theorem retry_many {r : FuncReturnFeedback × List Byte} (hr : r.1 = err)
    (hfs : ∀ f ∈ fs, f.kind.result = r) :
    retry host err (left + 1 + fs.length) r (linked w (fs.map Frame.text ++ more) trace) =
      (receive host >>= retry host err left)
        (linked w more (trace ++ (again fs ++ [.minus]))) := by
  induction fs generalizing trace with
  | nil => exact retry_again hr
  | cons f fs ih =>
    have hfirst : f.kind.result = r := hfs f List.mem_cons_self
    rw [List.length_cons, ← Nat.add_assoc, List.map_cons, List.cons_append, retry_again hr]
    refine (bind_of_ok receive_text).trans ?_
    rw [hfirst, ih fun g hg => hfs g (List.mem_cons_of_mem _ hg), List.append_assoc,
      List.append_assoc]
    rfl

/-- The second loop and what is behind it. -/
def settle (host : Host κ) (left : Nat) (r : FuncReturnFeedback × List Byte) :
    Stub κ (FuncReturnFeedback × List Byte) :=
  retry host .memuProtocolErr left r >>= fun q => sendACK >>= fun _ => pure q.2

/-- The first loop and what is behind it. -/
def check (host : Host κ) (left : Nat) (r : FuncReturnFeedback × List Byte) :
    Stub κ (FuncReturnFeedback × List Byte) :=
  retry host .memuChksumErr left r >>= fun q => settle host q.1 q.2

theorem recvPacket_eq : recvPacket host = (receive host >>= check host 10) := rfl

theorem settle_done {r : FuncReturnFeedback × List Byte} (h : r.1 ≠ .memuProtocolErr) :
    settle host left r (linked w more trace) =
      .ok r (linked w more (trace ++ [.plus])) := by
  unfold settle
  rw [bind_of_ok (retry_done h)]
  rfl

theorem check_done {r : FuncReturnFeedback × List Byte} (h : r.1 ≠ .memuChksumErr) :
    check host left r w = settle host left r w := by
  unfold check
  rw [bind_of_ok (retry_done h)]

/-- Checksum errors are answered by the first loop. -/
theorem recvPacket_wrong (hfs : ∀ f ∈ fs, f.kind = .wrongSum) (hlen : fs.length ≤ 10) :
    recvPacket host (linked w (fs.map Frame.text ++ more) trace) =
      (receive host >>= check host (10 - fs.length)) (linked w more (trace ++ heard fs)) := by
  rw [recvPacket_eq]
  cases fs with
  | nil =>
    show _ = (receive host >>= _) (linked w more (trace ++ []))
    rw [List.append_nil]
    rfl
  | cons f fs =>
    obtain ⟨k, hk⟩ : ∃ k, 10 = k + 1 + fs.length := by
      rw [List.length_cons] at hlen
      exact ⟨9 - fs.length, by omega⟩
    have hleft : 10 - (f :: fs).length = k := by
      rw [List.length_cons]
      omega
    have hresult : ∀ g ∈ f :: fs, g.kind.result = (.memuChksumErr, []) := fun g hg => by
      rw [hfs g hg]
      rfl
    rw [List.map_cons, List.cons_append]
    refine (bind_of_ok receive_text).trans ?_
    rw [hleft, hk, hresult f List.mem_cons_self]
    unfold check
    refine (bind_congr_run (retry_many rfl
      fun g hg => hresult g (List.mem_cons_of_mem _ hg))).trans ?_
    rw [bind_assoc, List.append_assoc, List.singleton_append, again_heard]

/-- Malformed frames behind them are answered by the second. -/
theorem recvPacket_malformed {cs ms : List Frame} (hcs : ∀ f ∈ cs, f.kind = .wrongSum)
    (hms : ∀ f ∈ ms, f.kind = .malformed) (hne : ms ≠ []) (hlen : (cs ++ ms).length ≤ 10) :
    recvPacket host (linked w ((cs ++ ms).map Frame.text ++ more) trace) =
      (receive host >>= settle host (10 - (cs ++ ms).length))
        (linked w more (trace ++ heard (cs ++ ms))) := by
  rw [List.length_append] at hlen
  rw [List.map_append, List.append_assoc, recvPacket_wrong hcs (by omega)]
  cases ms with
  | nil => exact absurd rfl hne
  | cons f fs =>
    obtain ⟨k, hk⟩ : ∃ k, 10 - cs.length = k + 1 + fs.length := by
      rw [List.length_cons] at hlen
      exact ⟨9 - cs.length - fs.length, by omega⟩
    have hleft : 10 - (cs ++ f :: fs).length = k := by
      rw [List.length_append, List.length_cons]
      omega
    have hresult : ∀ g ∈ f :: fs, g.kind.result = (.memuProtocolErr, []) := fun g hg => by
      rw [hms g hg]
      rfl
    rw [List.map_cons, List.cons_append]
    refine (bind_of_ok receive_text).trans ?_
    rw [hleft, hk, hresult f List.mem_cons_self, check_done (by decide)]
    unfold settle
    refine (bind_congr_run (retry_many rfl
      fun g hg => hresult g (List.mem_cons_of_mem _ hg))).trans ?_
    rw [bind_assoc, List.append_assoc, List.append_assoc, List.singleton_append, again_heard]
    unfold heard
    rw [List.flatMap_append]

/-- Frames in order are all answered, and the stub waits for the next one. -/
theorem recvPacket_ordered (h : Ordered fs) (hlen : fs.length ≤ 10) :
    recvPacket host (linked w (fs.map Frame.text) trace) =
      .error .blocked (linked w [] (trace ++ heard fs)) := by
  obtain ⟨cs, ms, rfl, hcs, hms⟩ := h
  rw [← List.append_nil (List.map Frame.text (cs ++ ms))]
  by_cases hne : ms = []
  · subst hne
    rw [List.append_nil] at hlen
    rw [List.append_nil cs, recvPacket_wrong hcs hlen]
    exact bind_of_error receive_blocked
  · rw [recvPacket_malformed hcs hms hne hlen]
    exact bind_of_error receive_blocked

/-- A valid frame, or a checksum error behind a malformed frame, ends the loops. -/
theorem recvPacket_ends {cs ms : List Frame} {x : Frame} (hcs : ∀ f ∈ cs, f.kind = .wrongSum)
    (hms : ∀ f ∈ ms, f.kind = .malformed) (hlen : (cs ++ ms).length ≤ 10)
    (hx : (∃ data, x.kind = .valid data) ∨ x.kind = .wrongSum ∧ ms ≠ []) :
    recvPacket host (linked w ((cs ++ ms).map Frame.text ++ x.text :: more) trace) =
      .ok x.kind.result
        (linked w more (trace ++ heard (cs ++ ms) ++ [.received x.text] ++ [.plus])) := by
  have hprotocol : x.kind.result.1 ≠ .memuProtocolErr := by
    rcases hx with ⟨data, hx⟩ | ⟨hx, -⟩ <;> rw [hx] <;> nofun
  by_cases hne : ms = []
  · obtain ⟨data, hvalid⟩ := hx.resolve_right fun h => h.2 hne
    have hchksum : x.kind.result.1 ≠ .memuChksumErr := by
      rw [hvalid]
      nofun
    subst hne
    rw [List.append_nil] at hlen ⊢
    rw [recvPacket_wrong hcs hlen]
    refine (bind_of_ok receive_text).trans ?_
    rw [check_done hchksum, settle_done hprotocol]
  · rw [recvPacket_malformed hcs hms hne hlen]
    refine (bind_of_ok receive_text).trans ?_
    rw [settle_done hprotocol]

end Loops

/-! ## Sequences of frames -/

section Sequences

variable {fs : List Frame}

/-- Frames are all malformed, or there is a first one that is not. -/
theorem malformed_or (fs : List Frame) :
    (∀ f ∈ fs, f.kind = .malformed) ∨ ∃ ms x rest, fs = ms ++ x :: rest ∧
      (∀ f ∈ ms, f.kind = .malformed) ∧ x.kind ≠ .malformed := by
  induction fs with
  | nil => exact .inl fun f hf => absurd hf List.not_mem_nil
  | cons f fs ih =>
    by_cases hf : f.kind = .malformed
    · rcases ih with hall | ⟨ms, x, rest, rfl, hms, hx⟩
      · exact .inl (List.forall_mem_cons.mpr ⟨hf, hall⟩)
      · exact .inr ⟨f :: ms, x, rest, rfl, List.forall_mem_cons.mpr ⟨hf, hms⟩, hx⟩
    · exact .inr ⟨[], f, fs, rfl, fun g hg => absurd hg List.not_mem_nil, hf⟩

/-- Frames are in order, or there is a first one that ends the loops. -/
theorem ordered_or (fs : List Frame) : Ordered fs ∨
    ∃ cs ms x rest, fs = cs ++ ms ++ x :: rest ∧ (∀ f ∈ cs, f.kind = .wrongSum) ∧
      (∀ f ∈ ms, f.kind = .malformed) ∧
      ((∃ data, x.kind = .valid data) ∨ x.kind = .wrongSum ∧ ms ≠ []) := by
  have hnone : ∀ k, ∀ f ∈ ([] : List Frame), f.kind = k := fun k f hf =>
    absurd hf List.not_mem_nil
  induction fs with
  | nil => exact .inl ⟨[], [], rfl, hnone _, hnone _⟩
  | cons f fs ih =>
    cases hf : f.kind with
    | valid data => exact .inr ⟨[], [], f, fs, rfl, hnone _, hnone _, .inl ⟨data, hf⟩⟩
    | wrongSum =>
      rcases ih with ⟨cs, ms, rfl, hcs, hms⟩ | ⟨cs, ms, x, rest, rfl, hcs, hms, hx⟩
      · exact .inl ⟨f :: cs, ms, rfl, List.forall_mem_cons.mpr ⟨hf, hcs⟩, hms⟩
      · exact .inr ⟨f :: cs, ms, x, rest, rfl, List.forall_mem_cons.mpr ⟨hf, hcs⟩, hms, hx⟩
    | malformed =>
      rcases malformed_or fs with hall | ⟨ms, x, rest, rfl, hms, hx⟩
      · exact .inl ⟨[], f :: fs, rfl, hnone _, List.forall_mem_cons.mpr ⟨hf, hall⟩⟩
      · refine .inr ⟨[], f :: ms, x, rest, rfl, hnone _, List.forall_mem_cons.mpr ⟨hf, hms⟩, ?_⟩
        cases hk : x.kind with
        | valid data => exact .inl ⟨data, rfl⟩
        | wrongSum => exact .inr ⟨rfl, List.cons_ne_nil _ _⟩
        | malformed => exact absurd hk hx

theorem payloadOf_isSome {f : Frame} : (payloadOf f).isSome ↔ ∃ data, f.kind = .valid data := by
  unfold payloadOf
  cases f.kind with
  | valid data => exact ⟨fun _ => ⟨data, rfl⟩, fun _ => rfl⟩
  | wrongSum | malformed => exact ⟨fun h => (Bool.false_ne_true h).elim, fun ⟨_, h⟩ => nomatch h⟩

/-- The retries bound the frames before the first valid one. -/
theorem withinRetries_length {bads rest : List Frame} {left : Nat}
    (hbads : ∀ f ∈ bads, ¬ ∃ data, f.kind = .valid data)
    (h : WithinRetries left (bads ++ rest)) : bads.length ≤ left := by
  induction bads generalizing left with
  | nil => exact Nat.zero_le _
  | cons f fs ih =>
    have hf : ¬ (payloadOf f).isSome = true :=
      fun hs => hbads f List.mem_cons_self (payloadOf_isSome.mp hs)
    rw [List.cons_append] at h
    unfold WithinRetries at h
    rw [if_neg hf] at h
    cases left with
    | zero => exact h.elim
    | succ left => exact Nat.succ_le_succ (ih (fun g hg => hbads g (List.mem_cons_of_mem _ hg)) h)

theorem heard_links (fs : List Frame) : (heard fs).filter isLink = heard fs := by
  refine List.filter_eq_self.mpr fun e he => ?_
  obtain ⟨f, -, hf⟩ := List.mem_flatMap.mp he
  rcases List.mem_pair.mp hf with rfl | rfl <;> rfl

theorem heard_silent (fs : List Frame) : (heard fs).filterMap dispatchedData = [] := by
  refine List.filterMap_eq_nil_iff.mpr fun e he => ?_
  obtain ⟨f, -, hf⟩ := List.mem_flatMap.mp he
  rcases List.mem_pair.mp hf with rfl | rfl <;> rfl

theorem heard_due (h : ∀ f ∈ fs, ¬ ∃ data, f.kind = .valid data) :
    heard fs = due fs := by
  induction fs with
  | nil => rfl
  | cons f fs ih =>
    have hack : ackOf f = .minus := by
      unfold ackOf
      cases hk : f.kind with
      | valid data => exact absurd ⟨data, hk⟩ (h f List.mem_cons_self)
      | wrongSum | malformed => rfl
    rw [due, List.flatMap_cons, hack, ← due, ← ih fun g hg => h g (List.mem_cons_of_mem _ hg)]
    rfl

end Sequences

/-! ## Sessions -/

section Sessions

variable {κ : Type} {host : Host κ} {fuel : Nat} {w : World κ} {fs : List Frame}

theorem not_valid {cs ms : List Frame} (hcs : ∀ f ∈ cs, f.kind = .wrongSum)
    (hms : ∀ f ∈ ms, f.kind = .malformed) : ∀ f ∈ cs ++ ms, ¬ ∃ data, f.kind = .valid data := by
  rintro f hf ⟨data, hdata⟩
  rcases List.mem_append.mp hf with hf | hf
  · rw [hcs f hf] at hdata
    cases hdata
  · rw [hms f hf] at hdata
    cases hdata

theorem events_ordered (h : Ordered fs) (hlen : fs.length ≤ 10) :
    events host fuel w fs = heard fs := by
  have hround : round host fuel (linked w (fs.map Frame.text) []) =
      .error .blocked (linked w [] ([] ++ heard fs)) :=
    bind_of_error (recvPacket_ordered h hlen)
  have hrun : debugGDBStub host fuel (fs.length + 1) (linked w (fs.map Frame.text) []) =
      .error .blocked (linked w [] ([] ++ heard fs)) := bind_of_error hround
  unfold events final
  rw [hrun]
  rfl

theorem room_of_valid (host : Host κ) {x : Frame} {data : List Byte} (h : x.kind = .valid data) :
    data.length + 1 ≤ host.room := by
  have hbody : behindBegin x.body = some data := by
    unfold Frame.kind at h
    split at h
    · cases h
    · rename_i data' hdata
      split at h
      · cases h
        exact hdata
      · cases h
  have hlen := behindBegin_length hbody
  have hfits := x.fits
  have hroom := host.room_large
  omega

/-- A valid frame stops the stub, or it is acknowledged once more. -/
theorem perform_valid (host : Host κ) (fuel : Nat) (w : World κ) {x : Frame} {data : List Byte}
    (h : x.kind = .valid data) :
    perform host fuel data w = .error .assertion w ∨
      ∃ command, Grows command ∧ perform host fuel data w =
        command { w with trace := w.trace ++ [.dispatched data] ++ [.plus] } := by
  have hroom : alloca host (data.length + 1) w = .ok () w :=
    congrFun (if_pos (room_of_valid host h)) w
  unfold perform
  rw [bind_of_ok hroom]
  cases hcommand : dispatch host fuel (parsePacket data) with
  | none => exact .inl rfl
  | some command => exact .inr ⟨command, grows_dispatch hcommand, rfl⟩

/-- The session ends at a frame that ends the loops, or acknowledges it once more. -/
theorem events_ends (host : Host κ) (fuel : Nat) (w : World κ) {cs ms : List Frame} {x : Frame}
    (rest : List Frame) (hcs : ∀ f ∈ cs, f.kind = .wrongSum)
    (hms : ∀ f ∈ ms, f.kind = .malformed) (hlen : (cs ++ ms).length ≤ 10)
    (hx : (∃ data, x.kind = .valid data) ∨ x.kind = .wrongSum ∧ ms ≠ []) :
    ∃ tail, events host fuel w (cs ++ ms ++ x :: rest) =
        heard (cs ++ ms) ++ [.received x.text] ++ [.plus] ++ tail ∧
      (tail = [] ∨ ∃ data events, tail = .dispatched data :: .plus :: events) := by
  have hrecv : recvPacket host
      (linked w ((cs ++ ms).map Frame.text ++ x.text :: rest.map Frame.text) []) =
        .ok x.kind.result (linked w (rest.map Frame.text)
          (heard (cs ++ ms) ++ [.received x.text] ++ [.plus])) :=
    recvPacket_ends hcs hms hlen hx
  unfold events
  rw [List.map_append, List.map_cons, debugGDBStub]
  rcases hx with ⟨data, hdata⟩ | ⟨hwrong, -⟩
  · rw [hdata] at hrecv
    have hround := bind_of_ok (f := fun r : FuncReturnFeedback × List Byte =>
      if r.1 ≠ .memuOk then throw .exit else perform host fuel r.2) hrecv
    rcases perform_valid host fuel (linked w (rest.map Frame.text)
      (heard (cs ++ ms) ++ [.received x.text] ++ [.plus])) hdata with
      hstop | ⟨command, hgrows, hrun⟩
    · have hend : round host fuel
          (linked w ((cs ++ ms).map Frame.text ++ x.text :: rest.map Frame.text) []) =
            .error .assertion (linked w (rest.map Frame.text)
              (heard (cs ++ ms) ++ [.received x.text] ++ [.plus])) := hround.trans hstop
      rw [final_of_error (bind_of_error hend)]
      exact ⟨[], (List.append_nil _).symm, .inl rfl⟩
    · obtain ⟨events, hevents⟩ := (grows_then hgrows (grows_debugGDBStub fuel _)).final _
      refine ⟨.dispatched data :: .plus :: events, ?_, .inr ⟨data, events, rfl⟩⟩
      have hgoes : round host fuel
          (linked w ((cs ++ ms).map Frame.text ++ x.text :: rest.map Frame.text) []) =
            command _ := hround.trans hrun
      rw [final_congr (bind_congr_run hgoes)]
      refine hevents.trans ?_
      simp only [linked, List.append_assoc, List.cons_append, List.nil_append]
  · rw [hwrong] at hrecv
    have hend : round host fuel
        (linked w ((cs ++ ms).map Frame.text ++ x.text :: rest.map Frame.text) []) =
          .error .exit (linked w (rest.map Frame.text)
            (heard (cs ++ ms) ++ [.received x.text] ++ [.plus])) := bind_of_ok hrecv
    rw [final_of_error (bind_of_error hend)]
    exact ⟨[], (List.append_nil _).symm, .inl rfl⟩

theorem due_append (fs gs : List Frame) : due (fs ++ gs) = due fs ++ due gs := List.flatMap_append

/-- Where the loops end, the discipline is broken: there is one `+` too many, or a valid frame is
not dispatched. -/
theorem not_disciplined {cs ms : List Frame} {x : Frame} {rest : List Frame}
    (hcs : ∀ f ∈ cs, f.kind = .wrongSum) (hms : ∀ f ∈ ms, f.kind = .malformed)
    {tail : List Event}
    (htail : tail = [] ∨ ∃ data events, tail = .dispatched data :: .plus :: events) :
    ¬ Disciplined (cs ++ ms ++ x :: rest)
      (heard (cs ++ ms) ++ [.received x.text] ++ [.plus] ++ tail) := by
  rintro ⟨hacks, hdispatched⟩
  have hbads := not_valid hcs hms
  have hlinks : Event.plus :: tail.filter isLink = ackOf x :: due rest := by
    rw [List.filter_append, List.filter_append, List.filter_append, heard_links,
      heard_due hbads, due_append (cs ++ ms), List.append_assoc, List.append_assoc] at hacks
    exact (List.cons.inj (List.append_cancel_left hacks)).2
  obtain ⟨hack, hrest⟩ := List.cons.inj hlinks
  obtain ⟨data, hdata⟩ : ∃ data, x.kind = .valid data := by
    unfold ackOf at hack
    cases hk : x.kind with
    | valid data => exact ⟨data, rfl⟩
    | wrongSum | malformed =>
      rw [hk] at hack
      cases hack
  rcases htail with rfl | ⟨data', events, rfl⟩
  · have hmem : data ∈ (cs ++ ms ++ x :: rest).filterMap payloadOf := by
      refine List.mem_filterMap.mpr ⟨x, List.mem_append_right _ List.mem_cons_self, ?_⟩
      unfold payloadOf
      rw [hdata]
    rw [← hdispatched, List.append_nil, List.filterMap_append, List.filterMap_append,
      heard_silent] at hmem
    exact List.not_mem_nil hmem
  · cases rest with
    | nil => cases hrest
    | cons y ys => cases hrest

/-- A session keeps the discipline of acknowledgements exactly when no frame is valid and no
checksum error comes after a malformed frame. -/
theorem acknowledged_once (host : Host κ) (fuel : Nat) (w : World κ) (fs : List Frame)
    (hretry : WithinRetries 10 fs) : Disciplined fs (events host fuel w fs) ↔ Ordered fs := by
  constructor
  · intro hd
    refine (ordered_or fs).resolve_right ?_
    rintro ⟨cs, ms, x, rest, rfl, hcs, hms, hx⟩
    have hlen := withinRetries_length (not_valid hcs hms) hretry
    obtain ⟨tail, hevents, htail⟩ := events_ends host fuel w rest hcs hms hlen hx
    rw [hevents] at hd
    exact not_disciplined hcs hms htail hd
  · intro h
    have hbads : ∀ f ∈ fs, ¬ ∃ data, f.kind = .valid data := by
      obtain ⟨cs, ms, rfl, hcs, hms⟩ := h
      exact not_valid hcs hms
    have hlen : fs.length ≤ 10 := by
      rw [← List.append_nil fs] at hretry
      exact withinRetries_length hbads hretry
    rw [events_ordered h hlen]
    constructor
    · rw [heard_links, heard_due hbads]
    · rw [heard_silent]
      refine (List.filterMap_eq_nil_iff.mpr fun f hf => ?_).symm
      exact Option.not_isSome_iff_eq_none.mp fun hs => hbads f hf (payloadOf_isSome.mp hs)

end Sessions

/-- `?` with its sum. -/
def haltFrame : Frame where
  body := [packetBeginChar, ascii '?']
  digits := (ascii '3', ascii 'f')
  endless := by decide
  fits := by decide
  hex := by decide

/-- `?` with another. -/
def wrongFrame : Frame :=
  { haltFrame with digits := (ascii '0', ascii '0'), hex := by decide }

/-- A valid frame is acknowledged twice. -/
theorem valid_acknowledged_twice :
    ¬ ∀ fs : List Frame, WithinRetries 10 fs →
      Disciplined fs (events idleHost 0 (idleWorld []) fs) := by
  intro hall
  have hnone : ∀ k, ∀ f ∈ ([] : List Frame), f.kind = k := fun k f hf =>
    absurd hf List.not_mem_nil
  have hvalid : haltFrame.kind = .valid [ascii '?'] := by decide
  have hretry : WithinRetries 10 [haltFrame] := trivial
  have hd := hall ([] ++ [] ++ [haltFrame]) hretry
  obtain ⟨tail, hevents, htail⟩ := events_ends idleHost 0 (idleWorld []) []
    (hnone _) (hnone _) (by decide) (.inl ⟨_, hvalid⟩)
  rw [hevents] at hd
  exact not_disciplined (hnone _) (hnone _) htail hd

/-- `?` without the character that begins a packet. -/
def bareFrame : Frame where
  body := [ascii '?']
  digits := (ascii '3', ascii 'f')
  endless := by decide
  fits := by decide
  hex := by decide

theorem acknowledged_once_refused : Disciplined [wrongFrame, bareFrame]
    (events idleHost 0 (idleWorld []) [wrongFrame, bareFrame]) := by
  have hwrong : wrongFrame.kind = .wrongSum := by decide
  have hbare : bareFrame.kind = .malformed := by decide
  have hretry : WithinRetries 10 [wrongFrame, bareFrame] := trivial
  refine (acknowledged_once idleHost 0 (idleWorld []) _ hretry).mpr
    ⟨[wrongFrame], [bareFrame], rfl, ?_, ?_⟩
  · intro f hf
    rw [List.mem_singleton.mp hf]
    exact hwrong
  · intro f hf
    rw [List.mem_singleton.mp hf]
    exact hbare

end NextEmu.GdbStub.Acknowledgement
