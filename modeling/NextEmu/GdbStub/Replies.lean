import Mathlib.Algebra.Order.BigOperators.Group.List
import Mathlib.Algebra.Order.Group.Nat
import Mathlib.Logic.Function.Iterate
import NextEmu.GdbStub.Acknowledgement
import NextEmu.GdbStub.RoundTrip

/-!
# The reply to a packet

One turn of the loop of the stub on a packet with a correct sum. Each command but two sends
one reply, whatever its parameters are: the writes of registers and of memory send nothing
when the core accepts them. The reading of one register is a packet that the parser tells
and the `switch` does not list. What else can stop the stub is a reply longer than one
`alloca` can have, to a reading of memory or of all registers.
-/

namespace NextEmu.GdbStub.Replies

open NextEmu.Lib.AbortState NextEmu.GdbStub.Acknowledgement NextEmu.GdbStub.RoundTrip

variable {κ : Type}

def isResponse : Event → Bool
  | .packet _ => true
  | .received _ | .plus | .minus | .dispatched _ | .resent _ => false

/-- The packets that were sent, each counted once. -/
def responses (w : World κ) : Nat := w.trace.countP isResponse

/-- A turn of the loop of `cmd_Continue`. -/
def turn (core : Debuggable κ) (c : κ) : κ := core.step (core.dumpProgramCounter c).2

/-- The program counter that the loop finds after some turns. -/
def pcAfter (core : Debuggable κ) (c : κ) (turns : Nat) : BitVec 64 :=
  (core.dumpProgramCounter ((turn core)^[turns] c)).1

/-- `c` without an address. -/
def BareContinue (packet : Packet) : Prop :=
  packet.packetType = .cmdContinue ∧ packet.paramList = []

/-- A continue that reaches no breakpoint. -/
def RunsOn (core : Debuggable κ) (packet : Packet) (w : World κ) : Prop :=
  BareContinue packet ∧ ∀ n, pcAfter core w.core n ∉ w.watchPointPCs

/-- Whatever number of turns the loops may take, nothing stops the code but that number, and it
returns with one response more; some number is enough, or the core runs on. -/
structure RepliesOnce (run : Nat → Stub κ Unit) (runsOn : Prop) (w : World κ) : Prop where
  alive : ∀ fuel e t, run fuel w = .error e t → e = .running
  once : ∀ fuel t, run fuel w = .ok () t → responses t = responses w + 1
  ends : (∃ fuel t, run fuel w = .ok () t) ∨ runsOn

/-- When a packet is answered: what the core does with it, and what one `alloca` can have. -/
def Answers (host : Host κ) (packet : Packet) (c : κ) : Prop :=
  match packet.packetType, packet.paramList with
  | .cmdRegReadIndex, _ => False
  | .cmdRegReadAll, _ => (dumpString (host.core.dumpAllRegister c).1).length + 5 ≤ host.room
  | .cmdRegWriteAll, [data] =>
    data.length % (host.core.isaBitLen / 4) ≠ 0 ∨
      (host.core.writeAllRegister (registerItems (data.length / (host.core.isaBitLen / 4))
        (host.core.isaBitLen / 8) (byteStream data)) c).1 ≠ .memuOk
  | .cmdMemRead, [addr, len] =>
    (strtoll len).toNat ≤ host.room ∧
      ((host.core.memRead (strtoll addr) (strtoll len) c).1.1 = .memuOk →
        2 * (strtoll len).toNat + 5 ≤ host.room)
  | .cmdMemWrite, [addr, len, data] =>
    2 * strtoll len ≠ BitVec.ofNat 64 data.length ∨
      (host.core.memWrite (strtoll addr) (strtoll len) (byteStream data) c).1 ≠ .memuOk
  | _, _ => True

/-! ## Code that replies -/

/-- The code returns, with one response more. -/
def Replied (x : Stub κ Unit) (w : World κ) : Prop :=
  ∃ t, x w = .ok () t ∧ responses t = responses w + 1

section Replied

variable {ρ : Type} {host : Host κ} {w : World κ} {data : List Byte} {n : Nat}

theorem responses_of_trace {w t : World κ} (h : t.trace = w.trace) :
    responses t = responses w := by
  unfold responses
  rw [h]

theorem responses_emit (e : Event) (w : World κ) :
    responses { w with trace := w.trace ++ [e] } =
      responses w + if isResponse e then 1 else 0 := by
  unfold responses
  rw [List.countP_append, List.countP_singleton]

theorem replied_of_run {x y : Stub κ Unit} {t : World κ} (h : x w = y t)
    (ht : responses t = responses w) : Replied x w ↔ Replied y t := by
  unfold Replied
  rw [h, ht]

theorem not_replied {x : Stub κ Unit} {e : Stop} {t : World κ} (h : x w = .error e t) :
    ¬ Replied x w := by
  rintro ⟨u, hu, -⟩
  rw [h] at hu
  cases hu

theorem replied_pure : ¬ Replied (pure () : Stub κ Unit) w := by
  rintro ⟨t, ht, hcount⟩
  cases ht
  exact Nat.succ_ne_self _ hcount.symm

theorem replied_ite {p : Prop} [Decidable p] {x y : Stub κ Unit} :
    Replied (if p then x else y) w ↔ (p → Replied x w) ∧ (¬ p → Replied y w) := by
  by_cases h : p
  · rw [if_pos h]
    exact ⟨fun hx => ⟨fun _ => hx, fun hn => absurd h hn⟩, fun hx => hx.1 h⟩
  · rw [if_neg h]
    exact ⟨fun hy => ⟨fun hp => absurd hp h, fun _ => hy⟩, fun hy => hy.2 h⟩

theorem replied_assertThat {p : Prop} [Decidable p] {x : Stub κ Unit} :
    Replied (do assertThat p; x) w ↔ p ∧ Replied x w := by
  by_cases h : p
  · have hrun : (assertThat p : Stub κ Unit) w = .ok () w := congrFun (if_pos h) w
    exact (replied_of_run (bind_of_ok hrun) rfl).trans ⟨fun hx => ⟨h, hx⟩, And.right⟩
  · have hrun : (assertThat p : Stub κ Unit) w = .error .assertion w := congrFun (if_neg h) w
    exact ⟨fun hx => absurd hx (not_replied (bind_of_error hrun)), fun hx => absurd hx.1 h⟩

theorem alloca_ok (h : n ≤ host.room) : alloca host n w = .ok () w := congrFun (if_pos h) w

theorem replied_alloca {x : Stub κ Unit} :
    Replied (do alloca host n; x) w ↔ n ≤ host.room ∧ Replied x w := by
  by_cases h : n ≤ host.room
  · exact (replied_of_run (bind_of_ok (alloca_ok h)) rfl).trans ⟨fun hx => ⟨h, hx⟩, And.right⟩
  · have hrun : alloca host n w = .error .overflow w := congrFun (if_neg h) w
    exact ⟨fun hx => absurd hx (not_replied (bind_of_error hrun)), fun hx => absurd hx.1 h⟩

theorem replied_onCore {f : κ → ρ × κ} {g : ρ → Stub κ Unit} :
    Replied (onCore f >>= g) w ↔ Replied (g (f w.core).1) { w with core := (f w.core).2 } :=
  replied_of_run (bind_of_ok rfl) rfl

/-! ## Sending -/

theorem readAck_run (ack : Byte) (w : World κ) :
    ∃ a t, readAck ack w = .ok a t ∧ t.trace = w.trace := by
  refine ⟨_, _, rfl, ?_⟩
  cases h : w.acks with
  | nil => rfl
  | cons a acks => rfl

/-- Sending again ends, and is no new response. -/
theorem resend_run (data : List Byte) (left : Nat) (ack : Byte) (w : World κ) :
    ∃ t, resend data left ack w = .ok () t ∧ responses t = responses w := by
  induction left generalizing ack w with
  | zero => exact ⟨w, rfl, rfl⟩
  | succ left ih =>
    unfold resend
    by_cases h : ack ≠ ascii '+'
    · obtain ⟨a, t, hread, htrace⟩ :=
        readAck_run ack { w with trace := w.trace ++ [.resent data] }
      obtain ⟨u, hrun, hcount⟩ := ih a t
      refine ⟨u, ?_, ?_⟩
      · rw [if_pos h]
        exact (bind_of_ok hread).trans hrun
      · rw [hcount, responses_of_trace htrace, responses_emit]
        rfl
    · rw [if_neg h]
      exact ⟨w, rfl, rfl⟩

theorem replied_packingAndSend : Replied (packingAndSend host data) w ↔
    data.length + 5 ≤ host.room := by
  refine replied_alloca.trans ⟨And.left, fun h => ⟨h, ?_⟩⟩
  obtain ⟨a, t, hread, htrace⟩ :=
    readAck_run (ascii '-') { w with trace := w.trace ++ [.packet data] }
  obtain ⟨u, hrun, hcount⟩ := resend_run data 10 a t
  refine ⟨u, ?_, ?_⟩
  · refine (bind_of_ok (rfl : emit (.packet data) w = .ok () _)).trans ?_
    exact (bind_of_ok (alloca_ok h)).trans ((bind_of_ok hread).trans hrun)
  · rw [hcount, responses_of_trace htrace, responses_emit]
    rfl

/-- A short reply fits. -/
theorem replied_short (h : data.length ≤ 2 * bufferSize) :
    Replied (packingAndSend host data) w := by
  have hlarge := host.room_large
  unfold bufferSize at h hlarge
  exact replied_packingAndSend.mpr (by omega)

end Replied

/-! ## What the parser gives -/

/-- What an expression finds is no longer than what it takes. -/
def Bounded (regex : ParamRegex) : Prop :=
  ∀ s found rest, regex s = some (found, rest) → found.length + rest.length ≤ s.length

/-- A type of the table, or none of them, and parameters out of one buffer. -/
structure Parsed (packet : Packet) : Prop where
  kind : packet.packetType ∈ .cmdUnknown :: packetTypeRegexStr.map Prod.fst
  params : (packet.paramList.map List.length).sum ≤ bufferSize

section Parsing

theorem takeWhile_dropWhile (p : Byte → Bool) (s : List Byte) :
    (s.takeWhile p).length + (s.dropWhile p).length = s.length := by
  rw [← List.length_append, List.takeWhile_append_dropWhile]

theorem bounded_hexParam : Bounded hexParam := by
  intro s found rest h
  unfold hexParam at h
  dsimp only at h
  split at h
  · cases h
  · cases h
    exact (takeWhile_dropWhile _ s).le

theorem bounded_continueParam : Bounded continueParam := by
  intro s found rest h
  cases s with
  | nil => cases h
  | cons c s =>
    unfold continueParam at h
    dsimp only at h
    by_cases hc : c = 0x0a ∨ c = 0x0d
    · rw [if_pos hc] at h
      cases h
    · rw [if_neg hc] at h
      obtain ⟨⟨digits, rest'⟩, hhex, heq⟩ := Option.map_eq_some_iff.mp h
      cases heq
      have hlen := bounded_hexParam _ _ _ hhex
      rw [List.length_cons, List.length_cons, Nat.add_right_comm]
      exact Nat.succ_le_succ hlen

theorem bounded_featureParam : Bounded featureParam := by
  intro s found rest h
  unfold featureParam at h
  dsimp only at h
  split at h
  · cases h
    exact (takeWhile_dropWhile _ s).le
  · cases h

theorem bounded_params : ∀ p ∈ packetTypeRegexStr, ∀ regex ∈ p.2.2, Bounded regex := by
  unfold packetTypeRegexStr
  simp only [List.forall_mem_cons, Option.mem_def, Option.some.injEq, forall_eq', reduceCtorEq,
    false_imp_iff, implies_true, true_and, List.not_mem_nil]
  exact ⟨bounded_hexParam, bounded_hexParam, bounded_hexParam, bounded_hexParam,
    bounded_hexParam, bounded_hexParam, bounded_continueParam, bounded_featureParam, trivial⟩

theorem findAll_length {regex : ParamRegex} (h : Bounded regex) (n : Nat) (s : List Byte) :
    ((findAll regex n s).map List.length).sum ≤ s.length := by
  induction n generalizing s with
  | zero => exact Nat.zero_le _
  | succ n ih =>
    unfold findAll
    cases hfound : regex s with
    | some r =>
      obtain ⟨found, rest⟩ := r
      have hlen := h _ _ _ hfound
      have hrest := ih rest
      simp only [List.map_cons, List.sum_cons]
      omega
    | none =>
      cases s with
      | nil => exact Nat.zero_le _
      | cons c s => exact (ih s).trans (Nat.le_succ _)

theorem parsePacket_parsed {data : List Byte} (hfit : data.length ≤ bufferSize) :
    Parsed (parsePacket data) := by
  have hstr : (data.takeWhile (· != 0)).length ≤ bufferSize := by
    have hlen := takeWhile_dropWhile (· != 0) data
    omega
  unfold parsePacket
  dsimp only
  cases hfind : packetTypeRegexStr.find? fun p =>
      p.2.1.rmatch (data.takeWhile (· != 0)) with
  | none => exact ⟨List.mem_cons_self, Nat.zero_le _⟩
  | some p =>
    obtain ⟨type, regex, param⟩ := p
    have hmem := List.mem_of_find?_eq_some hfind
    have hkind : type ∈ packetTypeRegexStr.map Prod.fst := List.mem_map_of_mem hmem
    refine ⟨List.mem_cons_of_mem _ hkind, ?_⟩
    cases param with
    | none => exact Nat.zero_le _
    | some param => exact (findAll_length (bounded_params _ hmem _ rfl) _ _).trans hstr

theorem Parsed.param_le {packet : Packet} (h : Parsed packet) {s : List Byte}
    (hs : s ∈ packet.paramList) : s.length ≤ bufferSize :=
  (List.single_le_sum (fun _ _ => Nat.zero_le _) _ (List.mem_map_of_mem hs)).trans h.params

end Parsing

/-! ## The commands -/

section Commands

variable {host : Host κ} {w : World κ} {params : List (List Byte)}
  {s data : List Byte}

theorem strtoll_lt (s : List Byte) : (strtoll s).toNat < 2 ^ 63 := by
  unfold strtoll
  rw [BitVec.toNat_ofNat]
  exact (Nat.mod_le _ _).trans_lt (by omega)

/-- The check of `M` does not wrap. -/
theorem strtoll_half (h : 2 * strtoll s = BitVec.ofNat 64 data.length)
    (hfit : data.length ≤ bufferSize) : 2 * (strtoll s).toNat = data.length := by
  have hlt := strtoll_lt s
  have hval := congrArg BitVec.toNat h
  unfold bufferSize at hfit
  have htwo : (2 : BitVec 64).toNat = 2 := rfl
  rw [BitVec.toNat_mul, htwo, BitVec.toNat_ofNat] at hval
  omega

theorem hexes_length (len : Nat) (data : Nat → Byte) :
    ((List.range len).flatMap fun i => sprintfHex (data i)).length = 2 * len := by
  induction len with
  | zero => rfl
  | succ len ih =>
    rw [List.range_succ, List.flatMap_append, List.length_append, ih, List.flatMap_singleton]
    rfl

/-- The answer to `qSupported` is at most twice as long as what it answers. -/
theorem supportedString_length (features : List (List Byte)) :
    (supportedString features).length ≤ 2 * (features.map List.length).sum := by
  induction features with
  | nil => exact Nat.le_refl _
  | cons str strs ih =>
    have hone : (if str = hwbreak then hwbreak ++ [ascii '+'] else []).length ≤
        2 * str.length := by
      by_cases h : str = hwbreak
      · rw [if_pos h, h]
        decide
      · rw [if_neg h]
        exact Nat.zero_le _
    rw [supportedString, List.flatMap_cons, List.length_append, List.map_cons, List.sum_cons,
      Nat.mul_add]
    exact Nat.add_le_add hone ih

theorem replied_empty : Replied (packingAndSend host []) w := replied_short (Nat.zero_le _)

theorem replied_e01 : Replied (packingAndSend host e01) w := replied_short (by decide)

theorem replied_s05 : Replied (packingAndSend host s05) w := replied_short (by decide)

theorem replied_cmdReadAllRegister : Replied (cmdReadAllRegister host) w ↔
    (dumpString (host.core.dumpAllRegister w.core).1).length + 5 ≤ host.room := by
  unfold cmdReadAllRegister
  rw [replied_onCore, replied_alloca, replied_packingAndSend]
  omega

theorem replied_parseByteStreamStr {f : List Byte → Stub κ Unit} (h : s.length % 2 = 0) :
    Replied (parseByteStreamStr s >>= f) w ↔ Replied (f (byteStream s)) w := by
  have hrun : (parseByteStreamStr s : Stub κ (List Byte)) w = .ok (byteStream s) w :=
    bind_of_ok (congrFun (if_pos h) w)
  exact replied_of_run (bind_of_ok hrun) rfl

/-- The two writes behind their checks: a reply when the core refuses, none when it accepts. -/
theorem replied_write {n : Nat} {f : List Byte → κ → FuncReturnFeedback × κ}
    (hroom : n ≤ host.room) (heven : s.length % 2 = 0) :
    Replied (do
      alloca host n
      let bytes ← parseByteStreamStr s
      let feedback ← onCore (f bytes)
      if feedback ≠ .memuOk then packingAndSend host e01) w ↔
      (f (byteStream s) w.core).1 ≠ .memuOk := by
  rw [replied_alloca, replied_parseByteStreamStr heven, replied_onCore, replied_ite]
  constructor
  · rintro ⟨-, -, haccepted⟩ hok
    exact replied_pure (haccepted fun hne => hne hok)
  · intro hne
    exact ⟨hroom, fun _ => replied_e01, fun hok => absurd hne hok⟩

/-- The bytes of whole registers fit, and have two digits each. -/
theorem registers_fit (core : Debuggable κ) (hlen : s.length % (core.isaBitLen / 4) = 0) :
    s.length / (core.isaBitLen / 4) * (core.isaBitLen / 8) ≤ s.length ∧ s.length % 2 = 0 := by
  rcases core.isaBitLen_eq with h | h
  · rw [h] at hlen ⊢
    omega
  · rw [h] at hlen ⊢
    omega

theorem replied_cmdWriteAllRegister (hlen : ∀ s ∈ params, s.length ≤ bufferSize) :
    Replied (cmdWriteAllRegister host ⟨.cmdRegWriteAll, params⟩) w ↔
      Answers host ⟨.cmdRegWriteAll, params⟩ w.core := by
  unfold cmdWriteAllRegister Answers
  rw [replied_assertThat]
  rcases params with _ | ⟨s, _ | ⟨s', params⟩⟩
  · exact ⟨fun _ => trivial, fun _ => ⟨rfl, replied_empty⟩⟩
  · dsimp only
    have hs := hlen s List.mem_cons_self
    have hlarge := host.room_large
    rw [replied_ite]
    by_cases hmod : s.length % (host.core.isaBitLen / 4) = 0
    · obtain ⟨hfits, heven⟩ := registers_fit host.core hmod
      have hroom : s.length / (host.core.isaBitLen / 4) * (host.core.isaBitLen / 8) ≤
          host.room := by omega
      rw [replied_write hroom heven]
      constructor
      · rintro ⟨-, -, h⟩
        exact .inr (h fun hne => hne hmod)
      · intro h
        exact ⟨rfl, fun hne => absurd hmod hne, fun _ => h.resolve_left fun hne => hne hmod⟩
    · exact ⟨fun _ => .inl hmod, fun _ => ⟨rfl, fun _ => replied_empty, fun hn => absurd hmod hn⟩⟩
  · exact ⟨fun _ => trivial, fun _ => ⟨rfl, replied_empty⟩⟩

theorem replied_cmdMemRead : Replied (cmdMemRead host ⟨.cmdMemRead, params⟩) w ↔
    Answers host ⟨.cmdMemRead, params⟩ w.core := by
  unfold cmdMemRead Answers
  rw [replied_assertThat]
  rcases params with _ | ⟨addr, _ | ⟨len, _ | ⟨s, params⟩⟩⟩
  · exact ⟨fun _ => trivial, fun _ => ⟨rfl, replied_empty⟩⟩
  · exact ⟨fun _ => trivial, fun _ => ⟨rfl, replied_empty⟩⟩
  · dsimp only
    have hlen : BitVec.ofNat 64 (strtoll len).toNat = strtoll len := by
      rw [BitVec.ofNat_toNat, BitVec.setWidth_eq]
    rw [replied_alloca, replied_onCore, hlen, replied_ite, replied_alloca,
      replied_packingAndSend, hexes_length]
    constructor
    · rintro ⟨-, hroom, hok, -⟩
      exact ⟨hroom, fun h => (hok h).2⟩
    · rintro ⟨hroom, hok⟩
      exact ⟨rfl, hroom, fun h => ⟨by have := hok h; omega, hok h⟩, fun _ => replied_e01⟩
  · exact ⟨fun _ => trivial, fun _ => ⟨rfl, replied_empty⟩⟩

theorem replied_cmdMemWrite (hlen : ∀ s ∈ params, s.length ≤ bufferSize) :
    Replied (cmdMemWrite host ⟨.cmdMemWrite, params⟩) w ↔
      Answers host ⟨.cmdMemWrite, params⟩ w.core := by
  unfold cmdMemWrite Answers
  rw [replied_assertThat]
  rcases params with _ | ⟨addr, _ | ⟨len, _ | ⟨s, _ | ⟨s', params⟩⟩⟩⟩
  · exact ⟨fun _ => trivial, fun _ => ⟨rfl, replied_empty⟩⟩
  · exact ⟨fun _ => trivial, fun _ => ⟨rfl, replied_empty⟩⟩
  · exact ⟨fun _ => trivial, fun _ => ⟨rfl, replied_empty⟩⟩
  · dsimp only
    have hs : s.length ≤ bufferSize :=
      hlen s (List.mem_cons_of_mem _ (List.mem_cons_of_mem _ List.mem_cons_self))
    have hlarge := host.room_large
    rw [replied_ite]
    by_cases hhalf : 2 * strtoll len = BitVec.ofNat 64 s.length
    · have htwice := strtoll_half hhalf hs
      have heven : s.length % 2 = 0 := by omega
      have hroom : (strtoll len).toNat ≤ host.room := by omega
      rw [replied_write hroom heven]
      constructor
      · rintro ⟨-, -, h⟩
        exact .inr (h fun hne => hne hhalf)
      · intro h
        exact ⟨rfl, fun hne => absurd hhalf hne, fun _ => h.resolve_left fun hne => hne hhalf⟩
    · exact ⟨fun _ => .inl hhalf, fun _ => ⟨rfl, fun _ => replied_empty,
        fun hn => absurd hhalf hn⟩⟩
  · exact ⟨fun _ => trivial, fun _ => ⟨rfl, replied_empty⟩⟩

theorem replied_cmdQSupported (hlen : (params.map List.length).sum ≤ bufferSize)
    (kind : PacketType) : Replied (cmdQSupported host ⟨kind, params⟩) w := by
  have hstr := supportedString_length params
  have hlarge := host.room_large
  unfold cmdQSupported
  unfold bufferSize at hlen hlarge
  exact replied_alloca.mpr ⟨by dsimp only; omega, replied_packingAndSend.mpr (by
    dsimp only; omega)⟩

theorem replied_cmdBreakpoint (kind : PacketType)
    (change : Finset (BitVec 64) → BitVec 64 → Finset (BitVec 64)) :
    Replied (cmdBreakpoint host kind change ⟨kind, params⟩) w := by
  refine replied_assertThat.mpr ⟨rfl, ?_⟩
  rcases params with _ | ⟨type, _ | ⟨addr, _ | ⟨s, _ | ⟨s', params⟩⟩⟩⟩
  · exact replied_empty
  · exact replied_empty
  · exact replied_empty
  · refine replied_ite.mpr ⟨fun _ => replied_empty, fun _ => ?_⟩
    exact (replied_of_run (bind_of_ok rfl) rfl).mpr (replied_short (by decide))
  · exact replied_empty

end Commands

/-! ## A turn of the stub -/

section Turn

variable {host : Host κ} {w t : World κ} {run run' : Nat → Stub κ Unit} {p : Prop}

theorem repliesOnce_congr (h : ∀ fuel, run fuel w = run' fuel t)
    (ht : responses t = responses w) : RepliesOnce run p w ↔ RepliesOnce run' p t := by
  constructor
  · rintro ⟨halive, honce, hends⟩
    simp only [h, ← ht] at halive honce hends
    exact ⟨halive, honce, hends⟩
  · rintro ⟨halive, honce, hends⟩
    simp only [← h, ht] at halive honce hends
    exact ⟨halive, honce, hends⟩

theorem repliesOnce_of_replied (h : ∀ fuel, Replied (run fuel) w) : RepliesOnce run p w := by
  refine ⟨fun fuel e u hu => ?_, fun fuel u hu => ?_, ?_⟩
  · exact absurd (h fuel) (not_replied hu)
  · obtain ⟨t, ht, hcount⟩ := h fuel
    rw [ht] at hu
    cases hu
    exact hcount
  · obtain ⟨t, ht, -⟩ := h 0
    exact .inl ⟨0, t, ht⟩

/-- Code without loops replies once when it replies. -/
theorem repliesOnce_iff {x : Stub κ Unit} (hp : ¬ p) :
    RepliesOnce (fun _ => x) p w ↔ Replied x w := by
  refine ⟨?_, fun h => repliesOnce_of_replied fun _ => h⟩
  rintro ⟨-, honce, hends⟩
  obtain ⟨fuel, t, ht⟩ := hends.resolve_right hp
  exact ⟨t, ht, honce fuel t ht⟩

theorem not_repliesOnce {e : Stop} (h : run 0 w = .error e t) (he : e ≠ .running) :
    ¬ RepliesOnce run p w := fun hr => he (hr.alive 0 e t h)

/-- The loop of `cmd_Continue` stops at the first breakpoint it finds. -/
theorem runToWatchPoint_run (host : Host κ) (fuel : Nat) (w : World κ) :
    (∃ t, runToWatchPoint host fuel w = .ok () t ∧ t.trace = w.trace) ∨
      (∃ t, runToWatchPoint host fuel w = .error .running t) ∧
        ∀ n < fuel, pcAfter host.core w.core n ∉ w.watchPointPCs := by
  induction fuel generalizing w with
  | zero => exact .inr ⟨⟨w, rfl⟩, fun n hn => absurd hn (Nat.not_lt_zero n)⟩
  | succ fuel ih =>
    have hhits : hitsWatchPoint host w =
        .ok (decide (pcAfter host.core w.core 0 ∈ w.watchPointPCs))
          { w with core := (host.core.dumpProgramCounter w.core).2 } := rfl
    unfold runToWatchPoint
    rw [bind_of_ok hhits]
    by_cases h : pcAfter host.core w.core 0 ∈ w.watchPointPCs
    · rw [if_pos (decide_eq_true h)]
      exact .inl ⟨_, rfl, rfl⟩
    · rw [if_neg (by rw [decide_eq_false h]; exact Bool.false_ne_true)]
      have hstep : (modify fun w : World κ => { w with core := host.core.step w.core } :
          Stub κ Unit) { w with core := (host.core.dumpProgramCounter w.core).2 } =
            .ok () { w with core := turn host.core w.core } := rfl
      rw [bind_of_ok hstep]
      rcases ih { w with core := turn host.core w.core } with hok | ⟨hrun, hnone⟩
      · exact .inl hok
      · refine .inr ⟨hrun, fun n hn => ?_⟩
        cases n with
        | zero => exact h
        | succ n => exact hnone n (Nat.lt_of_succ_lt_succ hn)

theorem repliesOnce_cmdContinue (params : List (List Byte)) (w : World κ) :
    RepliesOnce (fun fuel => cmdContinue host fuel ⟨.cmdContinue, params⟩)
      (RunsOn host.core ⟨.cmdContinue, params⟩ w) w := by
  cases params with
  | cons s params =>
    exact repliesOnce_of_replied fun fuel => replied_assertThat.mpr ⟨rfl, replied_empty⟩
  | nil =>
    have hcmd : ∀ fuel, cmdContinue host fuel ⟨.cmdContinue, []⟩ w =
        (runToWatchPoint host fuel >>= fun _ => packingAndSend host s05) w := fun _ => rfl
    have hok : ∀ {fuel t}, runToWatchPoint host fuel w = .ok () t → t.trace = w.trace →
        ∃ u, cmdContinue host fuel ⟨.cmdContinue, []⟩ w = .ok () u ∧
          responses u = responses w + 1 := by
      intro fuel t hrun htrace
      obtain ⟨u, hu, hcount⟩ : Replied (packingAndSend host s05) t := replied_s05
      rw [responses_of_trace htrace] at hcount
      exact ⟨u, (hcmd fuel).trans ((bind_of_ok hrun).trans hu), hcount⟩
    have herror : ∀ {fuel t}, runToWatchPoint host fuel w = .error .running t →
        cmdContinue host fuel ⟨.cmdContinue, []⟩ w = .error .running t := by
      intro fuel t hrun
      exact (hcmd fuel).trans (bind_of_error hrun)
    constructor
    · intro fuel e u hu
      rcases runToWatchPoint_run host fuel w with ⟨t, hrun, htrace⟩ | ⟨⟨t, hrun⟩, -⟩
      · obtain ⟨u', hu', -⟩ := hok hrun htrace
        rw [hu'] at hu
        cases hu
      · rw [herror hrun] at hu
        cases hu
        rfl
    · intro fuel u hu
      rcases runToWatchPoint_run host fuel w with ⟨t, hrun, htrace⟩ | ⟨⟨t, hrun⟩, -⟩
      · obtain ⟨u', hu', hcount⟩ := hok hrun htrace
        rw [hu'] at hu
        cases hu
        exact hcount
      · rw [herror hrun] at hu
        cases hu
    · by_cases hhit : ∀ n, pcAfter host.core w.core n ∉ w.watchPointPCs
      · exact .inr ⟨⟨rfl, rfl⟩, hhit⟩
      · obtain ⟨n, hn⟩ := not_forall.mp hhit
        rcases runToWatchPoint_run host (n + 1) w with ⟨t, hrun, htrace⟩ | ⟨-, hnone⟩
        · obtain ⟨u, hu, -⟩ := hok hrun htrace
          exact .inl ⟨n + 1, u, hu⟩
        · exact absurd (hnone n (Nat.lt_succ_self n)) hn

/-- The cases of the `switch` for what the parser gives: none, or code that replies once exactly
when the packet is answered. -/
theorem dispatch_cases (host : Host κ) {packet : Packet} (h : Parsed packet) :
    ((∀ fuel, dispatch host fuel packet = none) ∧ ∀ c, ¬ Answers host packet c) ∨
      ∃ commands : Nat → Stub κ Unit,
        (∀ fuel, dispatch host fuel packet = some (commands fuel)) ∧
        ∀ w : World κ, RepliesOnce commands (RunsOn host.core packet w) w ↔
          Answers host packet w.core := by
  have hlen : ∀ s ∈ packet.paramList, s.length ≤ bufferSize := fun s hs => h.param_le hs
  obtain ⟨type, params⟩ := packet
  have hkind : type ∈ .cmdUnknown :: packetTypeRegexStr.map Prod.fst := h.kind
  have halways : ∀ {run : Nat → Stub κ Unit} {w : World κ} {p q : Prop}, q →
      (∀ fuel, Replied (run fuel) w) → (RepliesOnce run p w ↔ q) := fun hq hall =>
    iff_of_true (repliesOnce_of_replied hall) hq
  have hbare : ∀ {w : World κ}, type ≠ .cmdContinue → ¬ RunsOn host.core ⟨type, params⟩ w :=
    fun hne hr => hne hr.1.1
  cases type with
  | cmdRegReadIndex => exact .inl ⟨fun _ => rfl, fun _ => id⟩
  | cmdQueryHaltReason =>
    exact .inr ⟨_, fun _ => rfl, fun _ => halways trivial fun _ => replied_s05⟩
  | cmdRegReadAll =>
    refine .inr ⟨_, fun _ => rfl, fun w => ?_⟩
    exact (repliesOnce_iff (hbare nofun)).trans replied_cmdReadAllRegister
  | cmdRegWriteAll =>
    refine .inr ⟨_, fun _ => rfl, fun w => ?_⟩
    exact (repliesOnce_iff (hbare nofun)).trans (replied_cmdWriteAllRegister hlen)
  | cmdQSupported =>
    exact .inr ⟨_, fun _ => rfl, fun _ => halways trivial fun _ => replied_cmdQSupported h.params _⟩
  | cmdMemRead =>
    refine .inr ⟨_, fun _ => rfl, fun w => ?_⟩
    exact (repliesOnce_iff (hbare nofun)).trans replied_cmdMemRead
  | cmdMemWrite =>
    refine .inr ⟨_, fun _ => rfl, fun w => ?_⟩
    exact (repliesOnce_iff (hbare nofun)).trans (replied_cmdMemWrite hlen)
  | cmdInsertBreakpoint =>
    exact .inr ⟨_, fun _ => rfl, fun _ => halways trivial fun _ => replied_cmdBreakpoint _ _⟩
  | cmdRemoveBreakpoint =>
    exact .inr ⟨_, fun _ => rfl, fun _ => halways trivial fun _ => replied_cmdBreakpoint _ _⟩
  | cmdContinue =>
    exact .inr ⟨_, fun _ => rfl, fun w =>
      iff_of_true (repliesOnce_cmdContinue params w) trivial⟩
  | cmdUnknown => exact .inr ⟨_, fun _ => rfl, fun _ => halways trivial fun _ => replied_empty⟩
  -- the types without an expression
  | cmdRegWriteIndex | cmdQTraceStatus | cmdSingleStep | cmdSpecifyThreadForG
  | cmdSpecifyThreadForC | cmdQAttached | cmdQThreadInfo | emptyPacket =>
    exact absurd hkind (by decide)

/-- A packet with a correct sum is received and acknowledged. -/
theorem recvPacket_packet {text data : List Byte} {more : List (List Byte)}
    (hin : w.input = text :: more)
    (htext : recvAndCheck host.stale text = some ⟨.memuOk, data, []⟩) :
    recvPacket host w = .ok (.memuOk, data)
      (linked w more (w.trace ++ [.received text] ++ [.plus])) := by
  have hreceive : receive host w =
      .ok (.memuOk, data) (linked w more (w.trace ++ [.received text])) := receive_run hin htext
  have hchksum : FuncReturnFeedback.memuOk ≠ .memuChksumErr := nofun
  have hprotocol : FuncReturnFeedback.memuOk ≠ .memuProtocolErr := nofun
  rw [recvPacket_eq, bind_of_ok hreceive, check_done hchksum, settle_done hprotocol]

/-- The world of the command, after a packet was received and acknowledged twice. -/
def dispatched (w : World κ) (text data : List Byte) (more : List (List Byte)) : World κ :=
  linked w more (w.trace ++ [.received text] ++ [.plus] ++ [.dispatched data] ++ [.plus])

theorem responses_dispatched (w : World κ) (text data : List Byte) (more : List (List Byte)) :
    responses (dispatched w text data more) = responses w := by
  unfold responses dispatched linked
  simp only [List.countP_append, List.countP_singleton, isResponse]
  rfl

/-- A turn on a packet of the buffer is the case of the `switch`. -/
theorem round_packet {text data : List Byte} {more : List (List Byte)} (fuel : Nat)
    (hin : w.input = text :: more)
    (htext : recvAndCheck host.stale text = some ⟨.memuOk, data, []⟩)
    (hfit : data.length ≤ bufferSize) :
    round host fuel w = match dispatch host fuel (parsePacket data) with
      | some command => command (dispatched w text data more)
      | none => .error .assertion (linked w more (w.trace ++ [.received text] ++ [.plus])) := by
  have hroom : data.length + 1 ≤ host.room := by
    have hlarge := host.room_large
    unfold bufferSize at hfit hlarge
    omega
  unfold round
  rw [bind_of_ok (recvPacket_packet hin htext)]
  show perform host fuel data _ = _
  unfold perform
  rw [bind_of_ok (alloca_ok hroom)]
  cases dispatch host fuel (parsePacket data) with
  | none => rfl
  | some command => rfl

/-- One turn on a packet with a correct sum replies once exactly when the packet is answered. -/
theorem replies_once (host : Host κ) (w : World κ) (pre data : List Byte) (d₀ d₁ : Byte)
    (v v' : Nat) (more : List (List Byte)) (hpre : Plain pre) (hdata : Plain data)
    (hfit : pre.length + data.length + 2 ≤ bufferSize) (h₀ : hexVal d₀ = some v)
    (h₁ : hexVal d₁ = some v') (hsum : 16 * v + v' = (calCheckSum data).toNat)
    (hin : w.input =
      (pre ++ packetBeginChar :: (data ++ [packetEndChar, d₀, d₁])) :: more) :
    RepliesOnce (round host) (RunsOn host.core (parsePacket data) w) w ↔
      Answers host (parsePacket data) w.core := by
  have htotal : BitVec.ofNat 8 (16 * v + v') = NextEmu.Lib.SumCheck.total data := by
    rw [hsum, BitVec.ofNat_toNat, BitVec.setWidth_eq, calCheckSum_total]
  have hrecv := recvAndCheck_packet host.stale [] hpre hdata hfit h₀ h₁
  rw [if_pos htotal] at hrecv
  obtain ⟨text, hin, htext⟩ : ∃ text, w.input = text :: more ∧
      recvAndCheck host.stale text = some ⟨.memuOk, data, []⟩ := ⟨_, hin, hrecv⟩
  have hlen : data.length ≤ bufferSize := by omega
  rcases dispatch_cases host (parsePacket_parsed hlen) with ⟨hnone, hrefused⟩ | ⟨run, hsome, hiff⟩
  · have hround := round_packet 0 hin htext hlen
    rw [hnone] at hround
    exact iff_of_false (not_repliesOnce hround nofun) (hrefused _)
  · have hround : ∀ fuel, round host fuel w = run fuel (dispatched w text data more) := by
      intro fuel
      rw [round_packet fuel hin htext hlen, hsome]
    have hcount := responses_dispatched w text data more
    exact (repliesOnce_congr hround hcount).trans (hiff (dispatched w text data more))

end Turn

/-! ## Two packets -/

/-- The stub with one packet in its input. -/
def packetWorld (data : List Byte) : World Unit := idleWorld [packing data]

/-- `?` is answered once. -/
theorem replies_once_halt :
    RepliesOnce (round idleHost)
      (RunsOn idleCore (parsePacket [ascii '?']) (packetWorld [ascii '?']))
      (packetWorld [ascii '?']) := by
  have hparse : parsePacket [ascii '?'] = ⟨.cmdQueryHaltReason, []⟩ := by decide +kernel
  refine (replies_once idleHost (packetWorld [ascii '?']) [] [ascii '?'] (ascii '3') (ascii 'f')
    3 15 [] (by decide) (by decide) (by decide) (by decide) (by decide) (by decide) rfl).mpr ?_
  rw [hparse]
  trivial

/-- A request for one register stops the stub. -/
theorem register_request_stops :
    ¬ ∀ data : List Byte, Plain data → data.length + 2 ≤ bufferSize →
      RepliesOnce (round idleHost) (RunsOn idleCore (parsePacket data) (packetWorld data))
        (packetWorld data) := by
  intro hall
  have hparse : parsePacket [ascii 'p', ascii '0'] = ⟨.cmdRegReadIndex, [[ascii '0']]⟩ := by
    decide +kernel
  have htext : recvAndCheck 0 (packing [ascii 'p', ascii '0']) =
      some ⟨.memuOk, [ascii 'p', ascii '0'], []⟩ := by decide
  have hin : (packetWorld [ascii 'p', ascii '0']).input =
      [packing [ascii 'p', ascii '0']] := rfl
  have hround : round idleHost 0 (packetWorld [ascii 'p', ascii '0']) = _ :=
    round_packet 0 hin htext (by decide)
  rw [hparse] at hround
  exact not_repliesOnce hround nofun (hall _ (by decide) (by decide))

end NextEmu.GdbStub.Replies
