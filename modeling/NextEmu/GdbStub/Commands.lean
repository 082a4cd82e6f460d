import Mathlib.Data.List.TakeWhile
import NextEmu.GdbStub.Packets

/-!
# Commands and their texts

The commands that the table of the stub knows, as the texts of a debugger. The expressions of
the table begin with different characters, so that at most one of them matches a text; what it
finds in it are the arguments, but for a `c` with an address, where it finds the whole text.
-/

namespace NextEmu.GdbStub.Commands

open RegularExpression

/-- An argument. -/
def Hex : Type := { s : List Byte // s ≠ [] ∧ ∀ c ∈ s, isHexDigit c = true }

inductive Command
  | queryHaltReason
  | regReadAll
  | regWriteAll (data : Hex)
  | regReadIndex (n : Hex)
  | memRead (addr len : Hex)
  | memWrite (addr len data : Hex)
  | insertBreakpoint (type addr kind : Hex)
  | removeBreakpoint (type addr kind : Hex)
  | continueHere
  | continueAt (addr : Hex)

namespace Command

def packetType : Command → PacketType
  | queryHaltReason => .cmdQueryHaltReason
  | regReadAll => .cmdRegReadAll
  | regWriteAll _ => .cmdRegWriteAll
  | regReadIndex _ => .cmdRegReadIndex
  | memRead _ _ => .cmdMemRead
  | memWrite _ _ _ => .cmdMemWrite
  | insertBreakpoint _ _ _ => .cmdInsertBreakpoint
  | removeBreakpoint _ _ _ => .cmdRemoveBreakpoint
  | continueHere => .cmdContinue
  | continueAt _ => .cmdContinue

def text : Command → List Byte
  | queryHaltReason => [ascii '?']
  | regReadAll => [ascii 'g']
  | regWriteAll data => ascii 'G' :: data.1
  | regReadIndex n => ascii 'p' :: n.1
  | memRead addr len => ascii 'm' :: addr.1 ++ ascii ',' :: len.1
  | memWrite addr len data => ascii 'M' :: addr.1 ++ ascii ',' :: len.1 ++ ascii ':' :: data.1
  | insertBreakpoint type addr kind =>
    ascii 'Z' :: type.1 ++ ascii ',' :: addr.1 ++ ascii ',' :: kind.1
  | removeBreakpoint type addr kind =>
    ascii 'z' :: type.1 ++ ascii ',' :: addr.1 ++ ascii ',' :: kind.1
  | continueHere => [ascii 'c']
  | continueAt addr => ascii 'c' :: addr.1

def args : Command → List (List Byte)
  | queryHaltReason => []
  | regReadAll => []
  | regWriteAll data => [data.1]
  | regReadIndex n => [n.1]
  | memRead addr len => [addr.1, len.1]
  | memWrite addr len data => [addr.1, len.1, data.1]
  | insertBreakpoint type addr kind => [type.1, addr.1, kind.1]
  | removeBreakpoint type addr kind => [type.1, addr.1, kind.1]
  | continueHere => []
  | continueAt addr => [addr.1]

/-- The expression that its entry looks for parameters with. -/
def param : Command → Option ParamRegex
  | queryHaltReason => none
  | regReadAll => none
  | continueHere => some continueParam
  | continueAt _ => some continueParam
  | _ => some hexParam

end Command

def qSupported : List Byte := ['q', 'S', 'u', 'p', 'p', 'o', 'r', 't', 'e', 'd', ':'].map ascii

/-! ## What the expressions match -/

theorem oneOf_rmatch (cs s : List Byte) : (oneOf cs).rmatch s = true ↔ ∃ c ∈ cs, s = [c] := by
  unfold oneOf
  induction cs with
  | nil =>
    rw [List.map_nil, List.foldr_nil, zero_rmatch]
    exact iff_of_false Bool.false_ne_true (fun ⟨_, hmem, _⟩ => List.not_mem_nil hmem)
  | cons c cs ih =>
    rw [List.map_cons, List.foldr_cons, add_rmatch_iff, char_rmatch_iff, ih]
    simp only [List.mem_cons, exists_eq_or_imp]

/-- One or more of the same kind. -/
theorem plus_rmatch {r : RegularExpression Byte} {p : Byte → Bool}
    (h : ∀ s, r.rmatch s = true ↔ ∃ c, p c = true ∧ s = [c]) (s : List Byte) :
    (r * star r).rmatch s = true ↔ s ≠ [] ∧ ∀ c ∈ s, p c = true := by
  have hstar : ∀ s, (star r).rmatch s = true ↔ ∀ c ∈ s, p c = true := by
    intro s
    rw [star_rmatch_iff]
    constructor
    · rintro ⟨parts, rfl, hparts⟩ c hc
      obtain ⟨t, ht, hct⟩ := List.mem_flatten.mp hc
      obtain ⟨c', hp, rfl⟩ := (h t).mp (hparts t ht).2
      rw [List.mem_singleton.mp hct]
      exact hp
    · intro hall
      refine ⟨s.map ([·]), ?_, fun t ht => ?_⟩
      · induction s with
        | nil => rfl
        | cons c s ih =>
          have hrest := ih fun c' hc' => hall c' (List.mem_cons_of_mem _ hc')
          rw [List.map_cons, List.flatten_cons, ← hrest]
          rfl
      · obtain ⟨c, hc, rfl⟩ := List.mem_map.mp ht
        exact ⟨List.cons_ne_nil _ _, (h _).mpr ⟨c, hall c hc, rfl⟩⟩
  rw [mul_rmatch_iff]
  constructor
  · rintro ⟨t, u, rfl, ht, hu⟩
    obtain ⟨c, hp, rfl⟩ := (h t).mp ht
    refine ⟨List.cons_ne_nil _ _, fun c' hc' => ?_⟩
    rcases List.mem_cons.mp hc' with rfl | hc'
    · exact hp
    · exact (hstar u).mp hu c' hc'
  · rintro ⟨hne, hall⟩
    cases s with
    | nil => exact absurd rfl hne
    | cons c s =>
      refine ⟨[c], s, rfl, (h _).mpr ⟨c, hall c List.mem_cons_self, rfl⟩, (hstar s).mpr ?_⟩
      exact fun c' hc' => hall c' (List.mem_cons_of_mem _ hc')

theorem hexDigits_rmatch (s : List Byte) :
    hexDigits.rmatch s = true ↔ ∃ arg : Hex, s = arg.1 := by
  have hdigit : ∀ s, (oneOf <| ['0', '1', '2', '3', '4', '5', '6', '7', '8', '9', 'A', 'B', 'C',
      'D', 'E', 'F', 'a', 'b', 'c', 'd', 'e', 'f'].map ascii).rmatch s = true ↔
        ∃ c, isHexDigit c = true ∧ s = [c] := by
    intro s
    rw [oneOf_rmatch]
    have hmem : ∀ c : Byte, c ∈ ['0', '1', '2', '3', '4', '5', '6', '7', '8', '9', 'A', 'B', 'C',
        'D', 'E', 'F', 'a', 'b', 'c', 'd', 'e', 'f'].map ascii ↔ isHexDigit c = true := by
      decide +kernel
    simp only [hmem]
  have hplus := plus_rmatch hdigit s
  constructor
  · intro h
    exact ⟨⟨s, hplus.mp h⟩, rfl⟩
  · rintro ⟨arg, rfl⟩
    exact hplus.mpr arg.2

theorem one_arg {c : Byte} (s : List Byte) :
    (char c * hexDigits).rmatch s = true ↔ ∃ arg : Hex, s = c :: arg.1 := by
  rw [mul_rmatch_iff]
  constructor
  · rintro ⟨t, u, rfl, ht, hu⟩
    obtain ⟨arg, rfl⟩ := (hexDigits_rmatch u).mp hu
    rw [(char_rmatch_iff c t).mp ht]
    exact ⟨arg, rfl⟩
  · rintro ⟨arg, rfl⟩
    exact ⟨[c], arg.1, rfl, (char_rmatch_iff _ _).mpr rfl, (hexDigits_rmatch _).mpr ⟨arg, rfl⟩⟩

theorem next_arg {r : RegularExpression Byte} {c : Byte} (s : List Byte) :
    (r * char c * hexDigits).rmatch s = true ↔
      ∃ t, r.rmatch t = true ∧ ∃ arg : Hex, s = t ++ c :: arg.1 := by
  rw [mul_rmatch_iff]
  constructor
  · rintro ⟨t', u, rfl, ht', hu⟩
    obtain ⟨t, v, rfl, ht, hv⟩ := (mul_rmatch_iff _ _ _).mp ht'
    obtain ⟨arg, rfl⟩ := (hexDigits_rmatch u).mp hu
    rw [(char_rmatch_iff c v).mp hv]
    exact ⟨t, ht, arg, (List.append_cons ..).symm⟩
  · rintro ⟨t, ht, arg, rfl⟩
    refine ⟨t ++ [c], arg.1, List.append_cons .., ?_, (hexDigits_rmatch _).mpr ⟨arg, rfl⟩⟩
    exact (mul_rmatch_iff _ _ _).mpr ⟨t, [c], rfl, ht, (char_rmatch_iff _ _).mpr rfl⟩

theorem prefix_rmatch {r : RegularExpression Byte} (cs s : List Byte) :
    ((cs.map char).foldr (· * ·) r).rmatch s = true ↔ ∃ u, s = cs ++ u ∧ r.rmatch u = true := by
  induction cs generalizing s with
  | nil =>
    constructor
    · exact fun h => ⟨s, rfl, h⟩
    · rintro ⟨u, rfl, h⟩
      exact h
  | cons c cs ih =>
    rw [List.map_cons, List.foldr_cons, mul_rmatch_iff]
    constructor
    · rintro ⟨t, u, rfl, ht, hu⟩
      obtain ⟨v, rfl, hv⟩ := (ih u).mp hu
      rw [(char_rmatch_iff c t).mp ht]
      exact ⟨v, rfl, hv⟩
    · rintro ⟨u, rfl, hu⟩
      exact ⟨[c], cs ++ u, rfl, (char_rmatch_iff _ _).mpr rfl, (ih _).mpr ⟨u, rfl, hu⟩⟩

theorem qSupported_prefix {s : List Byte} (h : qSupportedRegex.rmatch s = true) :
    qSupported <+: s := by
  have hregex : qSupportedRegex = (qSupported.map char).foldr (· * ·) (star anyChar) := rfl
  rw [hregex, prefix_rmatch] at h
  obtain ⟨u, rfl, -⟩ := h
  exact ⟨u, rfl⟩

/-! ## The table -/

section Table

variable {p : PacketType × RegularExpression Byte × Option ParamRegex} {s : List Byte}

/-- An entry matches texts of its commands only. -/
theorem entry_text (hp : p ∈ packetTypeRegexStr) (hq : p.1 ≠ .cmdQSupported)
    (h : p.2.1.rmatch s = true) : ∃ c : Command, c.packetType = p.1 ∧ s = c.text := by
  simp only [packetTypeRegexStr, List.mem_cons, List.not_mem_nil, or_false] at hp
  rcases hp with rfl | rfl | rfl | rfl | rfl | rfl | rfl | rfl | rfl | rfl
  · obtain ⟨t, ht, len, rfl⟩ := (next_arg _).mp h
    obtain ⟨addr, rfl⟩ := (one_arg _).mp ht
    exact ⟨.memRead addr len, rfl, rfl⟩
  · obtain ⟨u, hu, data, rfl⟩ := (next_arg _).mp h
    obtain ⟨t, ht, len, rfl⟩ := (next_arg _).mp hu
    obtain ⟨addr, rfl⟩ := (one_arg _).mp ht
    exact ⟨.memWrite addr len data, rfl, rfl⟩
  · obtain ⟨n, rfl⟩ := (one_arg _).mp h
    exact ⟨.regReadIndex n, rfl, rfl⟩
  · exact ⟨.regReadAll, rfl, (char_rmatch_iff _ _).mp h⟩
  · obtain ⟨data, rfl⟩ := (one_arg _).mp h
    exact ⟨.regWriteAll data, rfl, rfl⟩
  · exact ⟨.queryHaltReason, rfl, (char_rmatch_iff _ _).mp h⟩
  · obtain ⟨u, hu, kind, rfl⟩ := (next_arg _).mp h
    obtain ⟨t, ht, addr, rfl⟩ := (next_arg _).mp hu
    obtain ⟨type, rfl⟩ := (one_arg _).mp ht
    exact ⟨.insertBreakpoint type addr kind, rfl, rfl⟩
  · obtain ⟨u, hu, kind, rfl⟩ := (next_arg _).mp h
    obtain ⟨t, ht, addr, rfl⟩ := (next_arg _).mp hu
    obtain ⟨type, rfl⟩ := (one_arg _).mp ht
    exact ⟨.removeBreakpoint type addr kind, rfl, rfl⟩
  · rcases (add_rmatch_iff _ _ _).mp h with h | h
    · obtain ⟨addr, rfl⟩ := (one_arg _).mp h
      exact ⟨.continueAt addr, rfl, rfl⟩
    · exact ⟨.continueHere, rfl, (char_rmatch_iff _ _).mp h⟩
  · exact absurd rfl hq

/-- And every command has an entry. -/
theorem text_entry (c : Command) : ∃ p ∈ packetTypeRegexStr,
    p.1 = c.packetType ∧ p.2.2 = c.param ∧ p.2.1.rmatch c.text = true := by
  cases c with
  | queryHaltReason =>
    exact ⟨packetTypeRegexStr[5], List.getElem_mem _, rfl, rfl, (char_rmatch_iff _ _).mpr rfl⟩
  | regReadAll =>
    exact ⟨packetTypeRegexStr[3], List.getElem_mem _, rfl, rfl, (char_rmatch_iff _ _).mpr rfl⟩
  | regWriteAll data =>
    exact ⟨packetTypeRegexStr[4], List.getElem_mem _, rfl, rfl, (one_arg _).mpr ⟨data, rfl⟩⟩
  | regReadIndex n =>
    exact ⟨packetTypeRegexStr[2], List.getElem_mem _, rfl, rfl, (one_arg _).mpr ⟨n, rfl⟩⟩
  | memRead addr len =>
    exact ⟨packetTypeRegexStr[0], List.getElem_mem _, rfl, rfl,
      (next_arg _).mpr ⟨_, (one_arg _).mpr ⟨addr, rfl⟩, len, rfl⟩⟩
  | memWrite addr len data =>
    have hlen : (char (ascii 'M') * hexDigits * char (ascii ',') * hexDigits).rmatch
        (ascii 'M' :: addr.1 ++ ascii ',' :: len.1) = true :=
      (next_arg _).mpr ⟨_, (one_arg _).mpr ⟨addr, rfl⟩, len, rfl⟩
    exact ⟨packetTypeRegexStr[1], List.getElem_mem _, rfl, rfl,
      (next_arg _).mpr ⟨_, hlen, data, rfl⟩⟩
  | insertBreakpoint type addr kind =>
    have haddr : (char (ascii 'Z') * hexDigits * char (ascii ',') * hexDigits).rmatch
        (ascii 'Z' :: type.1 ++ ascii ',' :: addr.1) = true :=
      (next_arg _).mpr ⟨_, (one_arg _).mpr ⟨type, rfl⟩, addr, rfl⟩
    exact ⟨packetTypeRegexStr[6], List.getElem_mem _, rfl, rfl,
      (next_arg _).mpr ⟨_, haddr, kind, rfl⟩⟩
  | removeBreakpoint type addr kind =>
    have haddr : (char (ascii 'z') * hexDigits * char (ascii ',') * hexDigits).rmatch
        (ascii 'z' :: type.1 ++ ascii ',' :: addr.1) = true :=
      (next_arg _).mpr ⟨_, (one_arg _).mpr ⟨type, rfl⟩, addr, rfl⟩
    exact ⟨packetTypeRegexStr[7], List.getElem_mem _, rfl, rfl,
      (next_arg _).mpr ⟨_, haddr, kind, rfl⟩⟩
  | continueHere =>
    exact ⟨packetTypeRegexStr[8], List.getElem_mem _, rfl, rfl,
      (add_rmatch_iff _ _ _).mpr (.inr ((char_rmatch_iff _ _).mpr rfl))⟩
  | continueAt addr =>
    exact ⟨packetTypeRegexStr[8], List.getElem_mem _, rfl, rfl,
      (add_rmatch_iff _ _ _).mpr (.inl ((one_arg _).mpr ⟨addr, rfl⟩))⟩

/-- The character that the texts of a type begin with. -/
def firstByte : PacketType → Byte
  | .cmdQueryHaltReason => ascii '?'
  | .cmdRegReadAll => ascii 'g'
  | .cmdRegWriteAll => ascii 'G'
  | .cmdRegReadIndex => ascii 'p'
  | .cmdMemRead => ascii 'm'
  | .cmdMemWrite => ascii 'M'
  | .cmdInsertBreakpoint => ascii 'Z'
  | .cmdRemoveBreakpoint => ascii 'z'
  | .cmdContinue => ascii 'c'
  | .cmdQSupported => ascii 'q'
  | _ => 0

theorem head_text (c : Command) : c.text.head? = some (firstByte c.packetType) := by
  cases c <;> rfl

theorem head_entry (hp : p ∈ packetTypeRegexStr) (h : p.2.1.rmatch s = true) :
    s.head? = some (firstByte p.1) := by
  by_cases hq : p.1 = .cmdQSupported
  · simp only [packetTypeRegexStr, List.mem_cons, List.not_mem_nil, or_false] at hp
    rcases hp with rfl | rfl | rfl | rfl | rfl | rfl | rfl | rfl | rfl | rfl
    all_goals try cases hq
    obtain ⟨u, rfl⟩ := qSupported_prefix h
    rfl
  · obtain ⟨c, htype, rfl⟩ := entry_text hp hq h
    rw [← htype]
    exact head_text c

theorem entry_unique {q : PacketType × RegularExpression Byte × Option ParamRegex}
    (hp : p ∈ packetTypeRegexStr) (hq : q ∈ packetTypeRegexStr) (h : p.2.1.rmatch s = true)
    (h' : q.2.1.rmatch s = true) : p = q := by
  have hnodup : (packetTypeRegexStr.map fun p => firstByte p.1).Nodup := by decide
  have hfirst := (head_entry hp h).symm.trans (head_entry hq h')
  exact List.inj_on_of_nodup_map hnodup hp hq (Option.some.inj hfirst)

theorem find_entry (hp : p ∈ packetTypeRegexStr) (h : p.2.1.rmatch s = true) :
    packetTypeRegexStr.find? (fun p => p.2.1.rmatch s) = some p := by
  cases hfind : packetTypeRegexStr.find? fun p => p.2.1.rmatch s with
  | none => exact absurd h (List.find?_eq_none.mp hfind p hp)
  | some q =>
    have hmatch : q.2.1.rmatch s = true :=
      List.find?_some (p := fun q : PacketType × RegularExpression Byte × Option ParamRegex =>
        q.2.1.rmatch s) hfind
    rw [entry_unique hp (List.mem_of_find?_eq_some hfind) h hmatch]

end Table

/-! ## What is found in a text -/

section Found

variable {n : Nat} {c : Byte} {s : List Byte}

theorem findAll_some {regex : ParamRegex} {found rest : List Byte}
    (h : regex s = some (found, rest)) :
    findAll regex (n + 1) s = found :: findAll regex n rest := by
  simp only [findAll, h]

theorem findAll_skip {regex : ParamRegex} (h : regex (c :: s) = none) :
    findAll regex (n + 1) (c :: s) = findAll regex n s := by
  simp only [findAll, h]

theorem findAll_nil {regex : ParamRegex} (h : regex [] = none) : findAll regex n [] = [] := by
  cases n with
  | zero => rfl
  | succ n => simp only [findAll, h]

theorem hexParam_nonhex (hc : isHexDigit c = false) : hexParam (c :: s) = none := by
  unfold hexParam
  rw [List.takeWhile_cons, hc]
  rfl

/-- An argument that something else follows. -/
theorem hexParam_arg (arg : Hex) (hc : isHexDigit c = false) :
    hexParam (arg.1 ++ c :: s) = some (arg.1, c :: s) := by
  have htake : (arg.1 ++ c :: s).takeWhile isHexDigit = arg.1 := by
    rw [List.takeWhile_append_of_pos arg.2.2, List.takeWhile_cons, hc]
    exact List.append_nil _
  have hdrop : (arg.1 ++ c :: s).dropWhile isHexDigit = c :: s := by
    rw [List.dropWhile_append_of_pos arg.2.2, List.dropWhile_cons, hc]
    rfl
  unfold hexParam
  rw [htake, hdrop]
  exact if_neg arg.2.1

/-- And at the end of the text. -/
theorem hexParam_last (arg : Hex) : hexParam arg.1 = some (arg.1, []) := by
  unfold hexParam
  rw [List.takeWhile_eq_self_iff.mpr arg.2.2, List.dropWhile_eq_nil_iff.mpr arg.2.2]
  exact if_neg arg.2.1

theorem findAll_arg (arg : Hex) (hc : isHexDigit c = false) :
    findAll hexParam (n + 2) (arg.1 ++ c :: s) = arg.1 :: findAll hexParam n s := by
  rw [findAll_some (hexParam_arg arg hc), findAll_skip (hexParam_nonhex hc)]

theorem findAll_last (arg : Hex) : findAll hexParam (n + 1) arg.1 = [arg.1] := by
  rw [findAll_some (hexParam_last arg), findAll_nil rfl]

theorem findAll_one (a : Hex) (hc : isHexDigit c = false) (hn : 2 ≤ n) :
    findAll hexParam n (c :: a.1) = [a.1] := by
  obtain ⟨k, rfl⟩ : ∃ k, n = k + 2 := ⟨n - 2, by omega⟩
  rw [findAll_skip (hexParam_nonhex hc), findAll_last]

theorem findAll_two {d : Byte} (a b : Hex) (hc : isHexDigit c = false)
    (hd : isHexDigit d = false) (hn : 4 ≤ n) :
    findAll hexParam n (c :: a.1 ++ d :: b.1) = [a.1, b.1] := by
  obtain ⟨k, rfl⟩ : ∃ k, n = k + 4 := ⟨n - 4, by omega⟩
  rw [List.cons_append, findAll_skip (hexParam_nonhex hc), findAll_arg a hd, findAll_last]

theorem findAll_three {d e : Byte} (a b x : Hex) (hc : isHexDigit c = false)
    (hd : isHexDigit d = false) (he : isHexDigit e = false) (hn : 6 ≤ n) :
    findAll hexParam n (c :: a.1 ++ d :: b.1 ++ e :: x.1) = [a.1, b.1, x.1] := by
  obtain ⟨k, rfl⟩ : ∃ k, n = k + 6 := ⟨n - 6, by omega⟩
  rw [List.append_assoc, List.cons_append, List.cons_append,
    findAll_skip (hexParam_nonhex hc), findAll_arg a hd, findAll_arg b he, findAll_last]

/-- The workaround for the missing look-behind finds the `c` too. -/
theorem findAll_continue (a : Hex) (hn : 0 < n) :
    findAll continueParam n (ascii 'c' :: a.1) = [ascii 'c' :: a.1] := by
  have hline : ¬ (ascii 'c' = 0x0a ∨ ascii 'c' = 0x0d) := by decide
  have hparam : continueParam (ascii 'c' :: a.1) = some (ascii 'c' :: a.1, []) := by
    unfold continueParam
    dsimp only
    rw [if_neg hline, hexParam_last]
    rfl
  obtain ⟨k, rfl⟩ : ∃ k, n = k + 1 := ⟨n - 1, by omega⟩
  rw [findAll_some hparam, findAll_nil rfl]

/-- What is found in the text of a command. -/
def Command.found : Command → List (List Byte)
  | .continueAt addr => [ascii 'c' :: addr.1]
  | c => c.args

theorem findAll_text (c : Command) :
    (match c.param with
      | some regex => findAll regex (c.text.length + 1) c.text
      | none => []) = c.found := by
  have hpos : ∀ arg : Hex, 0 < arg.1.length := fun arg => List.length_pos_iff.mpr arg.2.1
  cases c with
  | queryHaltReason => rfl
  | regReadAll => rfl
  | regWriteAll data =>
    refine findAll_one data rfl ?_
    simp only [Command.text, List.length_cons]
    omega
  | regReadIndex n =>
    refine findAll_one n rfl ?_
    simp only [Command.text, List.length_cons]
    omega
  | memRead addr len =>
    refine findAll_two addr len rfl rfl ?_
    have haddr := hpos addr
    simp only [Command.text, List.length_append, List.length_cons]
    omega
  | memWrite addr len data =>
    refine findAll_three addr len data rfl rfl rfl ?_
    have haddr := hpos addr
    have hlen := hpos len
    simp only [Command.text, List.length_append, List.length_cons]
    omega
  | insertBreakpoint type addr kind =>
    refine findAll_three type addr kind rfl rfl rfl ?_
    have htype := hpos type
    have haddr := hpos addr
    simp only [Command.text, List.length_append, List.length_cons]
    omega
  | removeBreakpoint type addr kind =>
    refine findAll_three type addr kind rfl rfl rfl ?_
    have htype := hpos type
    have haddr := hpos addr
    simp only [Command.text, List.length_append, List.length_cons]
    omega
  | continueHere => rfl
  | continueAt addr => exact findAll_continue addr (Nat.succ_pos _)

end Found

/-! ## Parsing -/

section Parsing

variable {data : List Byte}

theorem isHexDigit_ne_zero {c : Byte} (h : isHexDigit c = true) : c ≠ 0 := by
  rintro rfl
  exact absurd h (by decide)

/-- Texts are C strings. -/
theorem text_ne_zero (c : Command) : ∀ b ∈ c.text, (b != 0) = true := by
  have harg : ∀ arg : Hex, ∀ b ∈ arg.1, (b != 0) = true := fun arg b hb =>
    bne_iff_ne.mpr (isHexDigit_ne_zero (arg.2.2 b hb))
  cases c <;>
    simp only [Command.text, List.forall_mem_append, List.forall_mem_cons, List.cons_append]
  case queryHaltReason => decide
  case regReadAll => decide
  case continueHere => decide
  case regWriteAll data => exact ⟨by decide, harg data⟩
  case regReadIndex n => exact ⟨by decide, harg n⟩
  case continueAt addr => exact ⟨by decide, harg addr⟩
  case memRead addr len => exact ⟨by decide, harg addr, by decide, harg len⟩
  case memWrite addr len data =>
    exact ⟨by decide, ⟨harg addr, by decide, harg len⟩, by decide, harg data⟩
  case insertBreakpoint type addr kind =>
    exact ⟨by decide, ⟨harg type, by decide, harg addr⟩, by decide, harg kind⟩
  case removeBreakpoint type addr kind =>
    exact ⟨by decide, ⟨harg type, by decide, harg addr⟩, by decide, harg kind⟩

/-- A packet whose C string is the text of a command. -/
theorem parsePacket_text (c : Command) (h : data.takeWhile (· != 0) = c.text) :
    parsePacket data = ⟨c.packetType, c.found⟩ := by
  obtain ⟨p, hp, htype, hparam, hmatch⟩ := text_entry c
  have hfind := find_entry hp hmatch
  unfold parsePacket
  dsimp only
  rw [h, hfind]
  dsimp only
  rw [htype, hparam]
  refine congrArg (Packet.mk c.packetType) (Eq.trans ?_ (findAll_text c))
  cases c.param with
  | none => rfl
  | some regex => rfl

/-- Any other packet is unknown, or one of `qSupported`. -/
theorem parsePacket_other (h : ∀ c : Command, data.takeWhile (· != 0) ≠ c.text)
    (hq : ¬ qSupported <+: data) : parsePacket data = ⟨.cmdUnknown, []⟩ := by
  have hnone : packetTypeRegexStr.find? (fun p => p.2.1.rmatch (data.takeWhile (· != 0))) =
      none := by
    refine List.find?_eq_none.mpr fun p hp hmatch => ?_
    by_cases hsupported : p.1 = .cmdQSupported
    · have hpre : qSupported <+: data.takeWhile (· != 0) := by
        refine qSupported_prefix ?_
        simp only [packetTypeRegexStr, List.mem_cons, List.not_mem_nil, or_false] at hp
        rcases hp with rfl | rfl | rfl | rfl | rfl | rfl | rfl | rfl | rfl | rfl
        all_goals try cases hsupported
        exact hmatch
      exact hq (hpre.trans (List.takeWhile_prefix _))
    · obtain ⟨c, -, htext⟩ := entry_text hp hsupported hmatch
      exact h c htext
  unfold parsePacket
  dsimp only
  rw [hnone]

end Parsing

/-! ## Inverting the texts -/

/-- The text of a command gives its type and arguments, the empty packet is told from the others,
and what is no text of a command is unknown. -/
structure Inverts (data : List Byte) : Prop where
  command : ∀ c : Command, data = c.text → parsePacket data = ⟨c.packetType, c.args⟩
  empty : data = [] → (parsePacket data).packetType = .emptyPacket
  unknown : (∀ c : Command, data ≠ c.text) → data ≠ [] → ¬ qSupported <+: data →
    (parsePacket data).packetType = .cmdUnknown

theorem takeWhile_text (c : Command) : c.text.takeWhile (· != 0) = c.text :=
  List.takeWhile_eq_self_iff.mpr (text_ne_zero c)

theorem text_ne_nil (c : Command) : c.text ≠ [] := by
  intro h
  have hhead := head_text c
  rw [h] at hhead
  cases hhead

theorem packetType_ne (c : Command) :
    c.packetType ≠ .cmdUnknown ∧ c.packetType ≠ .cmdQSupported := by
  cases c <;> exact ⟨nofun, nofun⟩

theorem firstByte_qSupported {type : PacketType} (h : firstByte type = ascii 'q') :
    type = .cmdQSupported := by
  revert h
  cases type <;> decide

/-- No text of a command begins like `qSupported`. -/
theorem prefix_not_supported {c : Command} {data : List Byte} (hpre : c.text <+: data) :
    ¬ qSupported <+: data := by
  rintro ⟨u, rfl⟩
  have hfirst : [firstByte c.packetType] <+: qSupported ++ u :=
    (List.singleton_prefix_iff_head?_eq_some.mpr (head_text c)).trans hpre
  have hq := List.singleton_prefix_iff_head?_eq_some.mp hfirst
  exact (packetType_ne c).2 (firstByte_qSupported (Option.some.inj hq).symm)

/-- Everything but the address of a `c` is found as it is. -/
theorem found_eq_args {c : Command} (h : ∀ addr : Hex, c ≠ .continueAt addr) :
    c.found = c.args := by
  cases c with
  | continueAt addr => exact absurd rfl (h addr)
  | _ => rfl

/-- A packet is parsed right exactly when it is not empty, is no `c` with an address, and has no
NUL behind the text of a command. -/
theorem inverts_iff (data : List Byte) : Inverts data ↔
    data ≠ [] ∧ (∀ addr : Hex, data ≠ ascii 'c' :: addr.1) ∧
      ∀ c : Command, data.takeWhile (· != 0) = c.text → data = c.text := by
  constructor
  · intro h
    refine ⟨fun hempty => ?_, fun addr heq => ?_, fun c htext => ?_⟩
    · have hnil := h.empty hempty
      subst hempty
      have hother : ∀ c : Command, [].takeWhile (· != 0) ≠ c.text := fun c => (text_ne_nil c).symm
      rw [parsePacket_other hother (fun hpre => nomatch List.prefix_nil.mp hpre)] at hnil
      cases hnil
    · have hparsed := h.command (.continueAt addr) heq
      have htext : data.takeWhile (· != 0) = (Command.continueAt addr).text := by
        rw [heq]
        exact takeWhile_text (.continueAt addr)
      rw [parsePacket_text _ htext] at hparsed
      have hargs : [ascii 'c' :: addr.1] = [addr.1] := congrArg Packet.paramList hparsed
      have hlen := congrArg List.length (List.cons.inj hargs).1
      rw [List.length_cons] at hlen
      omega
    · by_contra hne
      -- the packet goes on behind the text, and still has its type
      have hother : ∀ c' : Command, data ≠ c'.text := by
        rintro c' rfl
        exact hne ((takeWhile_text c').symm.trans htext)
      have hpre : c.text <+: data := htext ▸ List.takeWhile_prefix _
      have hnil : data ≠ [] := by
        rintro rfl
        exact text_ne_nil c (List.prefix_nil.mp hpre)
      have hunknown := h.unknown hother hnil (prefix_not_supported hpre)
      rw [parsePacket_text c htext] at hunknown
      exact (packetType_ne c).1 hunknown
  · rintro ⟨hnil, hcontinue, hbehind⟩
    refine ⟨fun c htext => ?_, fun hempty => absurd hempty hnil, fun hother _ hq => ?_⟩
    · have hc : data.takeWhile (· != 0) = c.text := by
        rw [htext]
        exact takeWhile_text c
      rw [parsePacket_text c hc, found_eq_args]
      rintro addr rfl
      exact hcontinue addr htext
    · rw [parsePacket_other (fun c hc => hother c (hbehind c hc)) hq]

/-- The type of the empty packet is overwritten. -/
theorem empty_unknown : ¬ ∀ data, Inverts data := by
  intro h
  have hempty := (h []).empty rfl
  exact absurd hempty (by decide +kernel)

end NextEmu.GdbStub.Commands
