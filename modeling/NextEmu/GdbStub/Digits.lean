import Mathlib.Data.List.GetD
import NextEmu.GdbStub.Commands
import NextEmu.GdbStub.RoundTrip
import NextEmu.GdbStub.Stub

/-!
# Digits, bytes and registers

What the stub prints it reads back, two digits for a byte and eight bytes for a register. What it
reads and prints again has the same digits, up to their case.
-/

namespace NextEmu.GdbStub.Digits

open NextEmu.GdbStub.Commands

/-! ## Numbers -/

/-- What digits spell. -/
def value (s : Hex) : Nat := s.1.foldl (fun v c => 16 * v + (hexVal c).getD 0) 0

theorem hexVal_getD_lt (c : Byte) : (hexVal c).getD 0 < 16 := by
  cases h : hexVal c with
  | none => exact Nat.succ_pos 15
  | some v => exact RoundTrip.hexVal_lt h

theorem strtoll_value (s : Hex) : (strtoll s.1).toNat = min (value s) (2 ^ 63 - 1) := by
  show (BitVec.ofNat 64 (min (value s) (2 ^ 63 - 1))).toNat = _
  rw [BitVec.toNat_ofNat]
  omega

theorem strtoll_small {s : Hex} (h : value s < 2 ^ 63) :
    strtoll s.1 = BitVec.ofNat 64 (value s) := by
  apply BitVec.eq_of_toNat_eq
  rw [strtoll_value, BitVec.toNat_ofNat]
  omega

/-! ## Bytes -/

/-- The digits of some bytes. -/
def printed (bytes : List Byte) : List Byte := bytes.flatMap sprintfHex

/-- Up to case. -/
def SameDigits (s t : List Byte) : Prop := s.map hexVal = t.map hexVal

section Bytes

variable {s t bytes : List Byte}

theorem SameDigits.drop (h : SameDigits s t) (n : Nat) : SameDigits (s.drop n) (t.drop n) := by
  unfold SameDigits
  rw [List.map_drop, List.map_drop, h]

theorem printed_cons (b : Byte) (bytes : List Byte) :
    printed (b :: bytes) = hexDigit (b.toNat / 16) :: hexDigit (b.toNat % 16) :: printed bytes :=
  rfl

theorem nibbles (b : Byte) : hexVal (hexDigit (b.toNat / 16)) = some (b.toNat / 16) ∧
    hexVal (hexDigit (b.toNat % 16)) = some (b.toNat % 16) := by
  have hb := b.isLt
  exact ⟨hexVal_hexDigit (by omega), hexVal_hexDigit (by omega)⟩

theorem printed_hex (bytes : List Byte) : ∀ c ∈ printed bytes, isHexDigit c = true := by
  intro c hc
  obtain ⟨b, -, hb⟩ := List.mem_flatMap.mp hc
  obtain ⟨hhigh, hlow⟩ := nibbles b
  unfold isHexDigit
  rcases List.mem_cons.mp hb with rfl | hb
  · rw [hhigh]
    rfl
  · rw [List.mem_singleton.mp hb, hlow]
    rfl

theorem printed_length (bytes : List Byte) : (printed bytes).length = 2 * bytes.length := by
  induction bytes with
  | nil => rfl
  | cons b bytes ih =>
    rw [printed_cons, List.length_cons, List.length_cons, List.length_cons, ih]
    omega

/-- Printed bytes are read back. -/
theorem byteStream_printed (bytes : List Byte) : byteStream (printed bytes) = bytes := by
  induction bytes with
  | nil => rfl
  | cons b bytes ih =>
    obtain ⟨hhigh, hlow⟩ := nibbles b
    rw [printed_cons]
    unfold byteStream
    rw [hhigh, hlow, ih]
    exact congrArg (· :: bytes) (RoundTrip.ofNat_digits b)

theorem byteStream_length (s : List Byte) : (byteStream s).length = s.length / 2 := by
  fun_induction byteStream s with
  | case1 c₀ c₁ s ih =>
    rw [List.length_cons, List.length_cons, List.length_cons, ih]
    omega
  | case2 s h =>
    rcases s with _ | ⟨c, _ | ⟨c', s⟩⟩
    · rfl
    · rw [List.length_singleton]
      rfl
    · exact absurd rfl (h c c' s)

/-- The digits of a byte that was read. -/
theorem nibbles_read {c₀ c₁ : Byte} (h₀ : isHexDigit c₀ = true) (h₁ : isHexDigit c₁ = true) :
    SameDigits (sprintfHex (BitVec.ofNat 8 (16 * (hexVal c₀).getD 0 + (hexVal c₁).getD 0)))
      [c₀, c₁] := by
  obtain ⟨v₀, hv₀⟩ := Option.isSome_iff_exists.mp h₀
  obtain ⟨v₁, hv₁⟩ := Option.isSome_iff_exists.mp h₁
  have hlt₀ := RoundTrip.hexVal_lt hv₀
  have hlt₁ := RoundTrip.hexVal_lt hv₁
  rw [hv₀, hv₁, Option.getD_some, Option.getD_some]
  obtain ⟨hhigh, hlow⟩ := nibbles (BitVec.ofNat 8 (16 * v₀ + v₁))
  have hnat : (BitVec.ofNat 8 (16 * v₀ + v₁)).toNat = 16 * v₀ + v₁ := by
    rw [BitVec.toNat_ofNat]
    omega
  have hdiv : (16 * v₀ + v₁) / 16 = v₀ := by omega
  have hmod : (16 * v₀ + v₁) % 16 = v₁ := by omega
  rw [hnat] at hhigh hlow
  show [hexVal _, hexVal _] = [hexVal c₀, hexVal c₁]
  rw [hnat, hhigh, hlow, hv₀, hv₁, hdiv, hmod]

/-- Digits that are read and printed again are the same. -/
theorem printed_byteStream (hhex : ∀ c ∈ s, isHexDigit c = true) (heven : s.length % 2 = 0) :
    SameDigits (printed (byteStream s)) s := by
  fun_induction byteStream s with
  | case1 c₀ c₁ s ih =>
    obtain ⟨h₀, h₁, hs⟩ : isHexDigit c₀ = true ∧ isHexDigit c₁ = true ∧
        ∀ c ∈ s, isHexDigit c = true := by simpa using hhex
    rw [List.length_cons, List.length_cons] at heven
    have hrest := ih hs (by omega)
    have hfirst := nibbles_read h₀ h₁
    unfold SameDigits at hrest hfirst ⊢
    rw [printed, List.flatMap_cons, List.map_append, hfirst]
    exact congrArg (hexVal c₀ :: hexVal c₁ :: ·) hrest
  | case2 s h =>
    rcases s with _ | ⟨c, _ | ⟨c', s⟩⟩
    · rfl
    · exact absurd heven Nat.one_ne_zero
    · exact absurd rfl (h c c' s)

end Bytes

/-! ## Registers -/

section Registers

variable {f : Nat → Byte} {bytes : List Byte}

/-- The bytes of a register, the lowest first. -/
def registerBytes (reg : RegisterItem) : List Byte :=
  (List.range reg.size).map fun i => reg.val.extractLsb' (8 * i) 8

theorem dumpString_printed (regs : List RegisterItem) :
    dumpString regs = printed (regs.flatMap registerBytes) := by
  unfold dumpString printed registerBytes
  rw [List.flatMap_assoc]
  simp only [List.flatMap_map]

/-- The bits of a word that is put together from its highest byte on. -/
theorem getLsbD_foldr (f : Nat → Byte) (s n i : Nat) (hi : i < 64) :
    ((List.range' s n).foldr (fun k (v : BitVec 64) =>
      v <<< 8 ||| (f k).setWidth 64) 0#64).getLsbD i =
      (decide (i < 8 * n) && (f (s + i / 8)).getLsbD (i % 8)) := by
  induction n generalizing s i with
  | zero => simp
  | succ n ih =>
    rw [List.range'_succ, List.foldr_cons, BitVec.getLsbD_or, BitVec.getLsbD_shiftLeft,
      BitVec.getLsbD_setWidth]
    by_cases hlow : i < 8
    · have hdiv : i / 8 = 0 := by omega
      have hmod : i % 8 = i := by omega
      have hin : i < 8 * (n + 1) := by omega
      simp only [hi, hlow, hdiv, hmod, hin, decide_true, Bool.not_true, Bool.and_false,
        Bool.false_and, Bool.false_or, Bool.true_and, Nat.add_zero]
    · have hdiv : s + 1 + (i - 8) / 8 = s + i / 8 := by omega
      have hmod : (i - 8) % 8 = i % 8 := by omega
      have hin : decide (i - 8 < 8 * n) = decide (i < 8 * (n + 1)) :=
        decide_eq_decide.mpr (by omega)
      have hhigh : (f s).getLsbD i = false := BitVec.getLsbD_of_ge _ _ (by omega)
      rw [ih (s + 1) (i - 8) (by omega), hdiv, hmod, hhigh, hin]
      simp only [hi, hlow, decide_true, decide_false, Bool.not_false, Bool.and_true,
        Bool.true_and, Bool.and_false, Bool.or_false]

/-- The word of eight bytes. -/
def wordOf (f : Nat → Byte) : BitVec 64 :=
  (List.range 8).foldr (fun k (v : BitVec 64) => v <<< 8 ||| (f k).setWidth 64) 0#64

theorem getLsbD_wordOf (f : Nat → Byte) {i : Nat} (hi : i < 64) :
    (wordOf f).getLsbD i = (f (i / 8)).getLsbD (i % 8) := by
  have hbits := getLsbD_foldr f 0 8 i hi
  have hin : i < 8 * 8 := hi
  rw [← List.range_eq_range', Nat.zero_add, decide_eq_true hin, Bool.true_and] at hbits
  exact hbits

theorem byte_wordOf (f : Nat → Byte) {k : Nat} (hk : k < 8) :
    (wordOf f).extractLsb' (8 * k) 8 = f k := by
  refine BitVec.eq_of_getLsbD_eq fun i hi => ?_
  have hdiv : (8 * k + i) / 8 = k := by omega
  have hmod : (8 * k + i) % 8 = i := by omega
  rw [BitVec.getLsbD_extractLsb', getLsbD_wordOf f (by omega), hdiv, hmod, decide_eq_true hi,
    Bool.true_and]

theorem wordOf_bytes (v : BitVec 64) : wordOf (fun k => v.extractLsb' (8 * k) 8) = v := by
  refine BitVec.eq_of_getLsbD_eq fun i hi => ?_
  have hmod : i % 8 < 8 := Nat.mod_lt _ (by decide)
  have hsum : 8 * (i / 8) + i % 8 = i := by omega
  rw [getLsbD_wordOf _ hi, BitVec.getLsbD_extractLsb', decide_eq_true hmod, Bool.true_and, hsum]

theorem wordOf_congr {g : Nat → Byte} (h : ∀ k < 8, f k = g k) : wordOf f = wordOf g := by
  refine BitVec.eq_of_getLsbD_eq fun i hi => ?_
  rw [getLsbD_wordOf f hi, getLsbD_wordOf g hi, h (i / 8) (by omega)]

theorem map_getD_range {α : Type} (l : List α) (d : α) :
    (List.range l.length).map (l.getD · d) = l := by
  refine List.ext_getElem (by rw [List.length_map, List.length_range]) fun i hi hi' => ?_
  rw [List.getElem_map, List.getElem_range, List.getD_eq_getElem _ _ hi']

/-- Items of one length, one behind the other. -/
theorem getD_flatMap {α β : Type} {g : α → List β} {m : Nat} (hg : ∀ a, (g a).length = m)
    (l : List α) (d : β) {i k : Nat} (hi : i < l.length) (hk : k < m) :
    (l.flatMap g).getD (i * m + k) d = (g l[i]).getD k d := by
  induction l generalizing i with
  | nil => exact absurd hi (Nat.not_lt_zero i)
  | cons a l ih =>
    rw [List.flatMap_cons]
    cases i with
    | zero =>
      have hin : k < (g a).length := by
        rw [hg]
        exact hk
      rw [Nat.zero_mul, Nat.zero_add, List.getD_append _ _ _ _ hin]
      rfl
    | succ i =>
      have hoff : (i + 1) * m + k - (g a).length = i * m + k := by
        rw [hg, Nat.succ_mul]
        omega
      have hout : (g a).length ≤ (i + 1) * m + k := by
        rw [hg, Nat.succ_mul]
        omega
      rw [List.getD_append_right _ _ _ _ hout, hoff]
      exact ih (Nat.lt_of_succ_lt_succ hi)

/-- The bytes of a word, the lowest first. -/
def bytesOf (v : BitVec 64) : List Byte := (List.range 8).map fun k => v.extractLsb' (8 * k) 8

theorem bytesOf_length (v : BitVec 64) : (bytesOf v).length = 8 := rfl

theorem getD_bytesOf (v : BitVec 64) {k : Nat} (hk : k < 8) :
    (bytesOf v).getD k 0 = v.extractLsb' (8 * k) 8 := by
  unfold bytesOf
  rw [List.getD_eq_getElem?_getD, List.getElem?_map, List.getElem?_range hk]
  rfl

theorem flatMap_bytesOf_length (vals : List (BitVec 64)) :
    (vals.flatMap bytesOf).length = vals.length * 8 := by
  induction vals with
  | nil => rfl
  | cons v vals ih =>
    rw [List.flatMap_cons, List.length_append, ih, bytesOf_length, List.length_cons]
    omega

/-- The words that some bytes are cut into. -/
def words (n : Nat) (bytes : List Byte) : List (BitVec 64) :=
  (List.range n).map fun i => wordOf fun k => bytes.getD (i * 8 + k) 0

theorem words_length (n : Nat) (bytes : List Byte) : (words n bytes).length = n := by
  rw [words, List.length_map, List.length_range]

theorem getElem_words {n i : Nat} (hi : i < (words n bytes).length) :
    (words n bytes)[i] = wordOf fun k => bytes.getD (i * 8 + k) 0 := by
  simp only [words, List.getElem_map, List.getElem_range]

theorem registerItems_words (n : Nat) (bytes : List Byte) :
    (registerItems n 8 bytes).map (·.val) = words n bytes := by
  unfold registerItems words
  rw [List.map_map]
  rfl

/-- Bytes that are cut into words are those of the words. -/
theorem bytes_words {n : Nat} (h : bytes.length = n * 8) :
    (words n bytes).flatMap bytesOf = bytes := by
  have hlen : ((words n bytes).flatMap bytesOf).length = bytes.length := by
    rw [flatMap_bytesOf_length, words_length, h]
  refine List.ext_getElem hlen fun j hj hj' => ?_
  have hi : j / 8 < (words n bytes).length := by
    rw [words_length]
    omega
  have hk : j % 8 < 8 := Nat.mod_lt _ (by decide)
  have hsum : j / 8 * 8 + j % 8 = j := by omega
  have hbyte := getD_flatMap bytesOf_length (words n bytes) 0 hi hk
  rw [hsum, getD_bytesOf _ hk, getElem_words hi, byte_wordOf _ hk, hsum] at hbyte
  rwa [List.getD_eq_getElem _ _ hj, List.getD_eq_getElem _ _ hj'] at hbyte

/-- And words that are printed are cut from their bytes again. -/
theorem words_bytes (vals : List (BitVec 64)) :
    words vals.length (vals.flatMap bytesOf) = vals := by
  refine List.ext_getElem (words_length _ _) fun i hi hi' => ?_
  rw [getElem_words hi]
  refine Eq.trans (wordOf_congr fun k hk => ?_) (wordOf_bytes vals[i])
  rw [getD_flatMap bytesOf_length vals 0 hi' hk, getD_bytesOf _ hk]

end Registers

end NextEmu.GdbStub.Digits
