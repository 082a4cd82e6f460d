import NextEmu.GdbStub.Framing

/-!
# Frames

What a debugger sends at once: bytes up to `#` and two digits. A frame is malformed when it
has no `$`; else its packet starts behind the last one, and it is valid when the digits
spell the sum of the packet. The reader tells these three apart.
-/

namespace NextEmu.GdbStub

open NextEmu.Lib.SumCheck

/-- A frame that the buffer holds. -/
structure Frame where
  body : List Byte
  digits : Byte × Byte
  endless : packetEndChar ∉ body
  fits : body.length < bufferSize
  hex : (hexVal digits.1).isSome ∧ (hexVal digits.2).isSome

namespace Frame

def text (f : Frame) : List Byte := f.body ++ packetEndChar :: [f.digits.1, f.digits.2]

/-- The number that the digits spell. -/
def sum (f : Frame) : Nat := 16 * (hexVal f.digits.1).getD 0 + (hexVal f.digits.2).getD 0

inductive Kind
  | valid (data : List Byte)
  | wrongSum
  | malformed
  deriving DecidableEq

end Frame

/-- What is behind the last `$`. -/
def behindBegin : List Byte → Option (List Byte)
  | [] => none
  | c :: cs =>
    match behindBegin cs with
    | some data => some data
    | none => if c = packetBeginChar then some cs else none

def Frame.kind (f : Frame) : Frame.Kind :=
  match behindBegin f.body with
  | none => .malformed
  | some data => if BitVec.ofNat 8 f.sum = total data then .valid data else .wrongSum

/-- What the reader returns for each kind. -/
def Frame.Kind.result : Frame.Kind → FuncReturnFeedback × List Byte
  | .valid data => (.memuOk, data)
  | .wrongSum => (.memuChksumErr, [])
  | .malformed => (.memuProtocolErr, [])

section Reading

variable {xs rest : List Byte} {n off : Nat} {start : Option Nat}

theorem behindBegin_length {data : List Byte} (h : behindBegin xs = some data) :
    data.length < xs.length := by
  induction xs with
  | nil => cases h
  | cons c cs ih =>
    rw [behindBegin] at h
    cases hcs : behindBegin cs with
    | some data' =>
      rw [hcs] at h
      cases h
      exact Nat.lt_succ_of_lt (ih hcs)
    | none =>
      rw [hcs] at h
      dsimp only at h
      split at h
      · cases h
        exact Nat.lt_succ_self _
      · cases h

/-- The index that the loop leaves, when it starts with `off` bytes in the buffer. -/
def lastBegin (off : Nat) (start : Option Nat) : List Byte → Option Nat
  | [] => start
  | c :: cs => lastBegin (off + 1) (if c = packetBeginChar then some (off + 1) else start) cs

theorem recvLoop_body {buffer : List Byte} (h : packetEndChar ∉ xs) (hfit : xs.length < n) :
    recvLoop n buffer start (xs ++ packetEndChar :: rest) =
      some (buffer ++ xs ++ [packetEndChar], lastBegin buffer.length start xs, rest) := by
  induction xs generalizing n buffer start with
  | nil =>
    cases n with
    | zero => exact absurd hfit (Nat.not_lt_zero _)
    | succ n =>
      rw [List.nil_append, recvLoop, getc, List.append_nil]
      rfl
  | cons c cs ih =>
    cases n with
    | zero => exact absurd hfit (Nat.not_lt_zero _)
    | succ n =>
      have hc : ¬ c = packetEndChar := fun heq => h (heq ▸ List.mem_cons_self)
      rw [List.cons_append, recvLoop, getc]
      simp only [hc, if_false]
      rw [ih (fun hm => h (List.mem_cons_of_mem _ hm)) (Nat.lt_of_succ_lt_succ hfit),
        List.length_append, List.length_singleton, List.append_assoc, List.append_assoc,
        List.append_assoc]
      rfl

/-- The index is that of what is behind the last `$`. -/
theorem lastBegin_eq (xs : List Byte) (off : Nat) (start : Option Nat) :
    (behindBegin xs = none ∧ lastBegin off start xs = start) ∨
      ∃ data k, behindBegin xs = some data ∧ lastBegin off start xs = some (off + k) ∧
        xs.drop k = data ∧ k ≤ xs.length := by
  induction xs generalizing off start with
  | nil => exact .inl ⟨rfl, rfl⟩
  | cons c cs ih =>
    rcases ih (off + 1) (if c = packetBeginChar then some (off + 1) else start) with
      ⟨hnone, hlast⟩ | ⟨data, k, hsome, hlast, hdrop, hk⟩
    · by_cases hc : c = packetBeginChar
      · refine .inr ⟨cs, 1, ?_, ?_, rfl, ?_⟩
        · rw [behindBegin, hnone]
          exact if_pos hc
        · rw [lastBegin, hlast, if_pos hc]
        · rw [List.length_cons]
          omega
      · refine .inl ⟨?_, ?_⟩
        · rw [behindBegin, hnone]
          exact if_neg hc
        · rw [lastBegin, hlast, if_neg hc]
    · refine .inr ⟨data, k + 1, ?_, ?_, hdrop, ?_⟩
      · rw [behindBegin, hsome]
      · rw [lastBegin, hlast, Nat.add_assoc, Nat.add_comm 1]
      · rw [List.length_cons]
        omega

/-- The reader takes what is behind the last `$`, when the digits spell its sum. -/
theorem recvAndCheck_body (stale : Byte) (rest : List Byte) (h : packetEndChar ∉ xs)
    (hfit : xs.length < bufferSize) {d₀ d₁ : Byte} {v v' : Nat} (h₀ : hexVal d₀ = some v)
    (h₁ : hexVal d₁ = some v') :
    recvAndCheck stale (xs ++ packetEndChar :: d₀ :: d₁ :: rest) =
      match behindBegin xs with
      | none => some ⟨.memuProtocolErr, [], rest⟩
      | some data =>
        if BitVec.ofNat 8 (16 * v + v') = total data then some ⟨.memuOk, data, rest⟩
        else some ⟨.memuChksumErr, [], rest⟩ := by
  unfold recvAndCheck
  rw [recvLoop_body h hfit]
  rcases lastBegin_eq xs 0 none with ⟨hnone, hlast⟩ | ⟨data, k, hsome, hlast, hdrop, hk⟩
  · simp only [List.length_nil, hlast, hnone, getc]
  · have hbuffer : ([] ++ xs ++ [packetEndChar]).drop (0 + k) = data ++ [packetEndChar] := by
      rw [List.nil_append, Nat.zero_add, List.drop_append_of_le_length hk, hdrop]
    have hsize : ([] ++ xs ++ [packetEndChar]).length - 1 - (0 + k) = data.length := by
      rw [List.nil_append, List.length_append, List.length_singleton, ← hdrop, List.length_drop]
      omega
    simp only [List.length_nil, hlast, hsome, getc, hbuffer, hsize, List.take_left,
      sscanfHex_digits h₀ h₁, Option.map_some, Option.getD_some, calCheckSum_total, ne_eq,
      ite_not]

/-- The reader returns what is due for the kind of the frame. -/
theorem recvAndCheck_text (stale : Byte) (f : Frame) :
    recvAndCheck stale f.text = some ⟨f.kind.result.1, f.kind.result.2, []⟩ := by
  obtain ⟨v, hv⟩ := Option.isSome_iff_exists.mp f.hex.1
  obtain ⟨v', hv'⟩ := Option.isSome_iff_exists.mp f.hex.2
  have hsum : f.sum = 16 * v + v' := by
    unfold Frame.sum
    rw [hv, hv']
    rfl
  have hrecv := recvAndCheck_body stale [] f.endless f.fits hv hv'
  unfold Frame.text Frame.kind
  rw [hrecv, hsum]
  cases behindBegin f.body with
  | none => rfl
  | some data =>
    dsimp only
    by_cases heq : BitVec.ofNat 8 (16 * v + v') = total data
    · rw [if_pos heq, if_pos heq]
      rfl
    · rw [if_neg heq, if_neg heq]
      rfl

/-! A packet without `$` in it is what is behind the last one. -/

theorem behindBegin_none {data : List Byte} (h : packetBeginChar ∉ data) :
    behindBegin data = none := by
  induction data with
  | nil => rfl
  | cons c cs ih =>
    have hc : ¬ c = packetBeginChar := fun heq => h (heq ▸ List.mem_cons_self)
    rw [behindBegin, ih fun hm => h (List.mem_cons_of_mem _ hm)]
    exact if_neg hc

theorem behindBegin_packet {data : List Byte} (pre : List Byte) (h : packetBeginChar ∉ data) :
    behindBegin (pre ++ packetBeginChar :: data) = some data := by
  induction pre with
  | nil =>
    rw [List.nil_append, behindBegin, behindBegin_none h]
    exact if_pos rfl
  | cons c cs ih => rw [List.cons_append, behindBegin, ih]

end Reading

end NextEmu.GdbStub
