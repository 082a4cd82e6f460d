import NextEmu.GdbStub.Calls
import NextEmu.GdbStub.Digits

/-!
# The addresses of a debugger

An address has up to sixteen digits, and `strtoll` gives a `long long`: what is below its greatest
value is taken as it is, and the upper half of the addresses all stand for that value.
-/

namespace NextEmu.GdbStub.Addresses

open NextEmu.Lib.AbortState
open Calls Commands Digits

variable {κ : Type}

/-- A 64-bit address, as one to sixteen digits. -/
def Address : Type := { s : Hex // s.1.length ≤ 16 }

def Address.pc (a : Address) : BitVec 64 := BitVec.ofNat 64 (value a.1)

/-- The stub with a packet of the buffer in front of it. -/
def after (host : Host κ) (fuel : Nat) (c : Command) (w : World (κ × List Call)) :
    World (κ × List Call) := final (perform (recorded host) fuel c.text) w

/-- The stub calls the memory and changes the watchpoints at `a`: unless the bytes that are read do
not fit on its stack, the bytes that are written are not as many as announced, or the type of the
watchpoint is none that it knows. -/
structure Exact (host : Host κ) (a : Address) (w : World (κ × List Call)) : Prop where
  memRead : ∀ fuel len, (Command.memRead a.1 len).text.length ≤ bufferSize →
    calls (after host fuel (.memRead a.1 len) w) = calls w ++
      if value len ≤ host.room then [.memRead a.pc (BitVec.ofNat 64 (value len))] else []
  memWrite : ∀ fuel len data, (Command.memWrite a.1 len data).text.length ≤ bufferSize →
    calls (after host fuel (.memWrite a.1 len data) w) = calls w ++
      if 2 * value len = data.1.length then
        [.memWrite a.pc (BitVec.ofNat 64 (value len)) (byteStream data.1)]
      else []
  insertBreakpoint : ∀ fuel type kind,
    (Command.insertBreakpoint type a.1 kind).text.length ≤ bufferSize →
    (after host fuel (.insertBreakpoint type a.1 kind) w).watchPointPCs =
      if watchpointType type.1 = 0 ∨ watchpointType type.1 = 1 then insert a.pc w.watchPointPCs
      else w.watchPointPCs
  removeBreakpoint : ∀ fuel type kind,
    (Command.removeBreakpoint type a.1 kind).text.length ≤ bufferSize →
    (after host fuel (.removeBreakpoint type a.1 kind) w).watchPointPCs =
      if watchpointType type.1 = 0 ∨ watchpointType type.1 = 1 then w.watchPointPCs.erase a.pc
      else w.watchPointPCs

/-- Two addresses are taken as they are, and two watchpoints of them are two. -/
structure Full (host : Host κ) (a b : Address) (w : World (κ × List Call)) : Prop where
  left : Exact host a w
  right : Exact host b w
  apart : a.pc ≠ b.pc → ∀ fuel type kind type' kind',
    (Command.insertBreakpoint type a.1 kind).text.length ≤ bufferSize →
    (Command.removeBreakpoint type' b.1 kind').text.length ≤ bufferSize →
    watchpointType type.1 = 0 ∨ watchpointType type.1 = 1 →
    a.pc ∈ (after host fuel (.removeBreakpoint type' b.1 kind')
      (after host fuel (.insertBreakpoint type a.1 kind) w)).watchPointPCs

/-! ## The values of digits -/

section Digits

theorem digits_lt (s : List Byte) (v : Nat) :
    s.foldl (fun v c => 16 * v + (hexVal c).getD 0) v < 16 ^ s.length * (v + 1) := by
  induction s generalizing v with
  | nil =>
    rw [List.length_nil, pow_zero, one_mul]
    exact Nat.lt_succ_self v
  | cons c s ih =>
    have hdigit := hexVal_getD_lt c
    calc s.foldl (fun v c => 16 * v + (hexVal c).getD 0) (16 * v + (hexVal c).getD 0)
        < 16 ^ s.length * (16 * v + (hexVal c).getD 0 + 1) := ih _
      _ ≤ 16 ^ s.length * (16 * (v + 1)) := Nat.mul_le_mul_left _ (by omega)
      _ = 16 ^ (c :: s).length * (v + 1) := by rw [List.length_cons, pow_succ, mul_assoc]

theorem value_lt (a : Address) : value a.1 < 2 ^ 64 :=
  calc value a.1 < 16 ^ a.1.1.length * (0 + 1) := digits_lt a.1.1 0
    _ = 16 ^ a.1.1.length := by rw [zero_add, mul_one]
    _ ≤ 16 ^ 16 := Nat.pow_le_pow_right (Nat.succ_pos 15) a.2

/-- An address is taken as it is when it fits a `long long`. -/
theorem strtoll_eq_iff (a : Address) : strtoll a.1.1 = a.pc ↔ value a.1 < 2 ^ 63 := by
  refine ⟨fun h => ?_, strtoll_small⟩
  have hlt := value_lt a
  have hnat := congrArg BitVec.toNat h
  rw [strtoll_value, Address.pc, BitVec.toNat_ofNat, Nat.mod_eq_of_lt hlt] at hnat
  omega

end Digits

/-! ## The four commands -/

section Packets

variable {host : Host κ} {w : World (κ × List Call)} {fuel : Nat}

theorem after_text {c : Command} {command : Stub (κ × List Call) Unit}
    (hfit : c.text.length ≤ bufferSize)
    (h : dispatch (recorded host) fuel ⟨c.packetType, c.found⟩ = some command) :
    after host fuel c w = final command (begun w c.text) := final_congr (perform_text hfit h)

theorem calls_of_core {s t : World (κ × List Call)} (h : SameCore s t) : calls t = calls s :=
  congrArg Prod.snd h.1

variable (w) in
theorem calls_begun (data : List Byte) : calls (begun w data) = calls w := rfl

/-- A call is written down, and what follows it calls no more. -/
theorem calls_called {ρ : Type} {f : κ → ρ × κ} {call : Call}
    {g : ρ → Stub (κ × List Call) Unit} (hg : ∀ r, Tracks SameCore (fun _ _ => True) (g r)) :
    calls (final (onCore (called f call) >>= g) w) = calls w ++ [call] := by
  have hrun : (onCore (called f call) : Stub (κ × List Call) ρ) w =
      .ok (f w.core.1).1 { w with core := ((f w.core.1).2, w.core.2 ++ [call]) } := rfl
  rw [final_congr (bind_of_ok hrun), calls_of_core ((hg _).final _)]
  rfl

/-- A reading calls the core when its bytes fit on the stack. -/
theorem calls_memRead {addr len : Hex}
    (hfit : (Command.memRead addr len).text.length ≤ bufferSize) :
    calls (after host fuel (.memRead addr len) w) = calls w ++
      if value len ≤ host.room then [.memRead (strtoll addr.1) (BitVec.ofNat 64 (value len))]
      else [] := by
  have hsmall := host.room_small
  have hlen := strtoll_value len
  rw [after_text hfit rfl, ← calls_begun w (Command.memRead addr len).text]
  generalize begun w (Command.memRead addr len).text = w'
  show calls (final (do
    alloca (recorded host) (strtoll len.1).toNat
    let answer ← onCore (called (host.core.memRead (strtoll addr.1)
      (BitVec.ofNat 64 (strtoll len.1).toNat)) (.memRead (strtoll addr.1)
        (BitVec.ofNat 64 (strtoll len.1).toNat)))
    if answer.1 = .memuOk then do
      alloca (recorded host) (2 * (strtoll len.1).toNat + 1)
      packingAndSend (recorded host)
        ((List.range (strtoll len.1).toNat).flatMap fun i => sprintfHex (answer.2 i))
    else packingAndSend (recorded host) e01) w') = _
  by_cases hroom : value len ≤ host.room
  · have halloca : alloca (recorded host) (strtoll len.1).toNat w' = .ok () w' :=
      Replies.alloca_ok (show _ ≤ host.room by omega)
    have hvalue : BitVec.ofNat 64 (strtoll len.1).toNat = BitVec.ofNat 64 (value len) := by
      rw [hlen]
      congr 1
      omega
    rw [if_pos hroom, ← hvalue, final_congr (bind_of_ok halloca)]
    refine calls_called fun r => ?_
    refine Tracks.ite ?_ (sameCore_packingAndSend _)
    exact Tracks.bind SameCore.trans (sameCore_alloca _) fun _ => sameCore_packingAndSend _
  · have halloca : alloca (recorded host) (strtoll len.1).toNat w' = .error .overflow w' :=
      congrFun (if_neg (show ¬ _ ≤ host.room by omega)) w'
    rw [if_neg hroom, List.append_nil, final_of_error (bind_of_error halloca)]

/-- The check of the announced length, on the values. -/
theorem half_iff {len data : Hex} (hfit : data.1.length ≤ bufferSize) :
    2 * strtoll len.1 = BitVec.ofNat 64 data.1.length ↔ 2 * value len = data.1.length := by
  have hlen := strtoll_value len
  unfold bufferSize at hfit
  constructor
  · intro h
    have htwice := Replies.strtoll_half h hfit
    omega
  · intro h
    rw [strtoll_small (by omega), ← h]
    exact (BitVec.ofNat_mul 2 (value len)).symm

/-- A writing calls the core when there are as many bytes as announced. -/
theorem calls_memWrite {addr len data : Hex}
    (hfit : (Command.memWrite addr len data).text.length ≤ bufferSize) :
    calls (after host fuel (.memWrite addr len data) w) = calls w ++
      if 2 * value len = data.1.length then
        [.memWrite (strtoll addr.1) (BitVec.ofNat 64 (value len)) (byteStream data.1)]
      else [] := by
  have hdata : data.1.length ≤ bufferSize := by
    refine le_trans ?_ hfit
    simp only [Command.text, List.length_append, List.length_cons]
    omega
  have hlarge := host.room_large
  unfold bufferSize at hlarge
  rw [after_text hfit rfl, ← calls_begun w (Command.memWrite addr len data).text]
  generalize begun w (Command.memWrite addr len data).text = w'
  show calls (final (if 2 * strtoll len.1 ≠ BitVec.ofNat 64 data.1.length then
      packingAndSend (recorded host) []
    else do
      alloca (recorded host) (strtoll len.1).toNat
      let bytes ← parseByteStreamStr data.1
      let feedback ← onCore (called (host.core.memWrite (strtoll addr.1) (strtoll len.1) bytes)
        (.memWrite (strtoll addr.1) (strtoll len.1) bytes))
      if feedback ≠ .memuOk then packingAndSend (recorded host) e01) w') = _
  by_cases hhalf : 2 * value len = data.1.length
  · have hlen := strtoll_value len
    have hroom : alloca (recorded host) (strtoll len.1).toNat w' = .ok () w' :=
      Replies.alloca_ok (show _ ≤ host.room by unfold bufferSize at hdata; omega)
    have hbytes : (parseByteStreamStr data.1 : Stub (κ × List Call) (List Byte)) w' =
        .ok (byteStream data.1) w' :=
      bind_of_ok (congrFun (if_pos (show data.1.length % 2 = 0 by omega)) w')
    rw [if_neg (not_not.mpr ((half_iff hdata).mpr hhalf)), if_pos hhalf,
      final_congr (bind_of_ok hroom), final_congr (bind_of_ok hbytes),
      ← strtoll_small (show value len < 2 ^ 63 by unfold bufferSize at hdata; omega)]
    refine calls_called fun _ => ?_
    exact Tracks.ite (sameCore_packingAndSend _) (Tracks.pure SameCore.refl ())
  · rw [if_pos (mt (half_iff hdata).mp hhalf), if_neg hhalf, List.append_nil]
    exact calls_of_core ((sameCore_packingAndSend _).final _)

/-- Both requests for a watchpoint: the set changes at what `strtoll` gives. -/
theorem points_after {c : Command} {type addr kind : Hex}
    (change : Finset (BitVec 64) → BitVec 64 → Finset (BitVec 64))
    (hfit : c.text.length ≤ bufferSize)
    (h : dispatch (recorded host) fuel ⟨c.packetType, c.found⟩ = some
      (cmdBreakpoint (recorded host) c.packetType change
        ⟨c.packetType, [type.1, addr.1, kind.1]⟩)) :
    (after host fuel c w).watchPointPCs =
      if watchpointType type.1 = 0 ∨ watchpointType type.1 = 1 then
        change w.watchPointPCs (strtoll addr.1)
      else w.watchPointPCs := by
  rw [after_text hfit h]
  show (final (cmdBreakpoint _ _ _ _) (begun w c.text)).watchPointPCs =
    if _ then change (begun w c.text).watchPointPCs _ else (begun w c.text).watchPointPCs
  generalize begun w c.text = w'
  have hassert : (assertThat (c.packetType = c.packetType) : Stub (κ × List Call) Unit) w' =
      .ok () w' := congrFun (if_pos rfl) w'
  unfold cmdBreakpoint
  rw [final_congr (bind_of_ok hassert)]
  dsimp only
  by_cases htype : watchpointType type.1 = 0 ∨ watchpointType type.1 = 1
  · rw [if_neg (by tauto), if_pos htype]
    exact ((sameCore_packingAndSend _).final _).2
  · rw [if_pos (not_or.mp htype), if_neg htype]
    exact ((sameCore_packingAndSend _).final w').2

theorem points_insert {type addr kind : Hex}
    (hfit : (Command.insertBreakpoint type addr kind).text.length ≤ bufferSize) :
    (after host fuel (.insertBreakpoint type addr kind) w).watchPointPCs =
      if watchpointType type.1 = 0 ∨ watchpointType type.1 = 1 then
        insert (strtoll addr.1) w.watchPointPCs
      else w.watchPointPCs :=
  points_after (fun s pc => insert pc s) hfit rfl

theorem points_remove {type addr kind : Hex}
    (hfit : (Command.removeBreakpoint type addr kind).text.length ≤ bufferSize) :
    (after host fuel (.removeBreakpoint type addr kind) w).watchPointPCs =
      if watchpointType type.1 = 0 ∨ watchpointType type.1 = 1 then
        w.watchPointPCs.erase (strtoll addr.1)
      else w.watchPointPCs :=
  points_after (fun s pc => s.erase pc) hfit rfl

end Packets

/-! ## The lower half -/

section Half

variable {host : Host κ} {w : World (κ × List Call)} {a b : Address}

theorem exact_of_small (h : value a.1 < 2 ^ 63) : Exact host a w := by
  have haddr : a.pc = strtoll a.1.1 := ((strtoll_eq_iff a).mpr h).symm
  constructor
  · intro fuel len hfit
    rw [haddr]
    exact calls_memRead hfit
  · intro fuel len data hfit
    rw [haddr]
    exact calls_memWrite hfit
  · intro fuel type kind hfit
    rw [haddr]
    exact points_insert hfit
  · intro fuel type kind hfit
    rw [haddr]
    exact points_remove hfit

def oneDigit : Hex := ⟨[ascii '1'], by decide, by decide⟩

/-- One byte is enough to see where the stub reads. -/
theorem small_of_exact (h : Exact host a w) : value a.1 < 2 ^ 63 := by
  have hlen := a.2
  have hfit : (Command.memRead a.1 oneDigit).text.length ≤ bufferSize := by
    have hdigit : oneDigit.1.length = 1 := rfl
    simp only [Command.text, List.length_append, List.length_cons, hdigit, bufferSize]
    omega
  have hroom : value oneDigit ≤ host.room := by
    have hlarge := host.room_large
    unfold bufferSize at hlarge
    exact le_trans (by decide) hlarge
  have hcalls : calls w ++ _ = calls w ++ _ :=
    (calls_memRead hfit).symm.trans (h.memRead 0 oneDigit hfit)
  rw [if_pos hroom, if_pos hroom] at hcalls
  have hcall := (List.cons.inj (List.append_cancel_left hcalls)).1
  exact (strtoll_eq_iff a).mp (Call.memRead.inj hcall).1

theorem apart_of_small (ha : value a.1 < 2 ^ 63) (hb : value b.1 < 2 ^ 63) (hne : a.pc ≠ b.pc)
    {fuel : Nat} {type kind type' kind' : Hex}
    (hfit : (Command.insertBreakpoint type a.1 kind).text.length ≤ bufferSize)
    (hfit' : (Command.removeBreakpoint type' b.1 kind').text.length ≤ bufferSize)
    (htype : watchpointType type.1 = 0 ∨ watchpointType type.1 = 1) :
    a.pc ∈ (after host fuel (.removeBreakpoint type' b.1 kind')
      (after host fuel (.insertBreakpoint type a.1 kind) w)).watchPointPCs := by
  have hin : a.pc ∈ (after host fuel (.insertBreakpoint type a.1 kind) w).watchPointPCs := by
    rw [points_insert hfit, if_pos htype, (strtoll_eq_iff a).mpr ha]
    exact Finset.mem_insert_self _ _
  rw [points_remove hfit', (strtoll_eq_iff b).mpr hb]
  split
  · exact Finset.mem_erase.mpr ⟨hne, hin⟩
  · exact hin

/-- Two addresses are taken as they are exactly when both are below `2 ^ 63`. -/
theorem full_iff (host : Host κ) (a b : Address) (w : World (κ × List Call)) :
    Full host a b w ↔ value a.1 < 2 ^ 63 ∧ value b.1 < 2 ^ 63 := by
  constructor
  · intro h
    exact ⟨small_of_exact h.left, small_of_exact h.right⟩
  · rintro ⟨ha, hb⟩
    refine ⟨exact_of_small ha, exact_of_small hb, fun hne => ?_⟩
    intro fuel type kind type' kind' hfit hfit' htype
    exact apart_of_small ha hb hne hfit hfit' htype

/-- Where a guest kernel is linked. -/
def kernelAddress : Address :=
  ⟨⟨"ffffffff80000000".toList.map ascii, by decide, by decide⟩, by decide⟩

/-- The address of a kernel is none that the stub reads at. -/
theorem kernel_moved : ¬ ∀ a b : Address, ∀ w : World (Unit × List Call), Full idleHost a b w := by
  intro h
  let w : World (Unit × List Call) :=
    { core := ((), []), watchPointPCs := ∅, input := [], acks := [], trace := [] }
  have hsmall := small_of_exact (h kernelAddress kernelAddress w).left
  exact absurd hsmall (by decide)

end Half

end NextEmu.GdbStub.Addresses
