import NextEmu.Simple.EvenJumps
import NextEmu.Simple.Unaborted

/-!
# The fetch of a compressed instruction

The core fetches four bytes for every instruction: at once when the PC is a multiple of
four, and else in two halves, of which each may be on a page of its own. An instruction
of two bytes is executed only when the other two can be fetched as well, and a fault of
the second half is reported with the address of the first.
-/

namespace NextEmu.Simple.CompressedFetch

open NextEmu.Lib.AbortState NextEmu.Lib.BitField NextEmu.Sdk
open Conformance DataPaths Outcomes Translation Unaborted

variable {β : Type} [SlaveAtomicIOI β]

/-! ## Bytes that can be fetched -/

/-- Where a fetch looks for the bytes at an address: the machine behind the translation and the
physical address; none when the translation refuses. -/
def place (m : Machine β) (va : BitVec 64) : Option (Machine β × Addr) :=
  if m.core.currentPrivMode = .mMode ∨ Satp.mode m.core.satp = 0 then some (m, va)
  else
    match lookUp m va with
    | .found e =>
      match fetchRefusal () m.core e with
      | none => some (looked m va, e.ppa + va % e.pagesize.bytes)
      | some () => none
    | .absent | .stops _ => none

/-- The translation gives a place, and the bus answers there. -/
def Fetchable (m : Machine β) (va : BitVec 64) (n : Nat) : Prop :=
  ∃ u pa, place m va = some (u, pa) ∧ (SlaveIOI.load u.bus pa n).1.1 = .success

/-- The machine behind a load for a fetch. -/
def loaded (u : Machine β) (pa : Addr) (n : Nat) : Machine β :=
  { u with bus := (SlaveIOI.load u.bus pa n).2, trace := .load pa n :: u.trace }

/-- The two bytes at an address are `low`, also when a fetch of four reads them. -/
def HalfAt (m : Machine β) (va : BitVec 64) (low : BitVec 16) : Prop :=
  ∃ u pa, place m va = some (u, pa) ∧ (SlaveIOI.load u.bus pa 2).1 = (.success, low) ∧
    (va % 4 = 0 → (SlaveIOI.load u.bus pa 4).1.1 = .success →
      (SlaveIOI.load u.bus pa 4).1.2.setWidth 16 = low)

/-- The two bytes behind those at `va` can be fetched after them; for a multiple of four, all four
at once. -/
def RestFetchable (m : Machine β) (va : BitVec 64) : Prop :=
  if va % 4 = 2 then ∃ u pa, place m va = some (u, pa) ∧ Fetchable (loaded u pa 2) (va + 2) 2
  else Fetchable m va 4

section Parts

variable {m u : Machine β} {va : BitVec 64} {pa : Addr} {n : Nat}

/-- Refusing does not depend on the code that is handed out. -/
theorem fetchRefusal_code {ρ : Type} (code : ρ) (c : RV64Core) (e : TLBEntry) :
    fetchRefusal code c e = (fetchRefusal () c e).map fun _ => code := by
  unfold fetchRefusal
  split
  · rfl
  · split <;> rfl

theorem whole_part {n : Nat} (heven : va % 2 = 0) (h : n = 2 ∨ n = 4 ∧ va % 4 = 0) :
    crossesPage va n = false := by
  have h2 := EvenJumps.even_iff.mp heven
  have hlt := va.isLt
  have h4 : va % 4 = 0 → va.toNat % 4 = 0 := fun h => by
    have := congrArg BitVec.toNat h
    simpa [BitVec.toNat_umod] using this
  unfold crossesPage
  rw [bne_eq_false_iff_eq]
  refine BitVec.eq_of_toNat_eq ?_
  have hone : (1 : BitVec 64).toNat = 1 := rfl
  rw [BitVec.toNat_ushiftRight, BitVec.toNat_ushiftRight, BitVec.toNat_sub, BitVec.toNat_add,
    BitVec.toNat_ofNat, hone, Nat.shiftRight_eq_div_pow, Nat.shiftRight_eq_div_pow]
  rcases h with rfl | ⟨rfl, hva⟩
  · omega
  · have := h4 hva
    omega

/-- A fetch of bytes on one page reads them at their place; where they have none, it is a page
fault, or the lookup aborts. -/
theorem part_run (heven : va % 2 = 0) (hpage : crossesPage va n = false) :
    (∃ u pa, place m va = some (u, pa) ∧ instFetchPart va n m = physRead pa n u) ∨
      place m va = none ∧ ((∃ e t, instFetchPart va n m = .error e t) ∨
        ∃ t, instFetchPart va n m = .ok (.pageFault, 0) t) := by
  rw [instFetchPart_path heven]
  unfold place
  by_cases hd : m.core.currentPrivMode = .mMode ∨ Satp.mode m.core.satp = 0
  · rw [if_pos hd]
    exact .inl ⟨m, va, rfl, Path.run_direct (p := fetchPath β va n) (decide_eq_true hd)⟩
  rw [if_neg hd, Path.run_lookUp (p := fetchPath β va n) (decide_eq_false hd) hpage]
  simp only [fetchPath]
  cases lookUp m va with
  | absent => exact .inr ⟨rfl, .inr ⟨_, rfl⟩⟩
  | stops a => exact .inr ⟨rfl, .inl ⟨a, _, rfl⟩⟩
  | found e =>
    dsimp only
    rw [fetchRefusal_code (VAddrFeedback.pageFault, (0 : BitVec (8 * n)))]
    cases fetchRefusal () m.core e with
    | some code => exact .inr ⟨rfl, .inr ⟨_, rfl⟩⟩
    | none => exact .inl ⟨_, _, rfl, rfl⟩

theorem part_placed (heven : va % 2 = 0) (hpage : crossesPage va n = false)
    (h : place m va = some (u, pa)) :
    instFetchPart va n m = .ok
      (if (SlaveIOI.load u.bus pa n).1.1 = .success then .accessOk else .accessFault,
        (SlaveIOI.load u.bus pa n).1.2) (loaded u pa n) := by
  rcases part_run (m := m) (n := n) heven hpage with ⟨u', pa', hp, hrun⟩ | ⟨hp, -⟩
  · rw [h] at hp
    cases hp
    exact hrun
  · rw [h] at hp
    cases hp

/-- The fetch of a part succeeds for bytes that can be fetched, and only for these. -/
theorem part_fetchable (heven : va % 2 = 0) (hpage : crossesPage va n = false) :
    (∃ v t, instFetchPart va n m = .ok (.accessOk, v) t) ↔ Fetchable m va n := by
  constructor
  · rintro ⟨v, t, hrun⟩
    rcases part_run (m := m) (n := n) heven hpage with ⟨u, pa, hp, -⟩ | ⟨-, ⟨e, t', hx⟩ | ⟨t', hx⟩⟩
    · refine ⟨u, pa, hp, ?_⟩
      rw [part_placed heven hpage hp] at hrun
      injection hrun with hr
      injection hr with hcode
      by_cases hs : (SlaveIOI.load u.bus pa n).1.1 = .success
      · exact hs
      · rw [if_neg hs] at hcode
        cases hcode
    · rw [hx] at hrun
      cases hrun
    · rw [hx] at hrun
      cases hrun
  · rintro ⟨u, pa, hp, hs⟩
    refine ⟨(SlaveIOI.load u.bus pa n).1.2, loaded u pa n, ?_⟩
    rw [part_placed heven hpage hp, if_pos hs]

end Parts

/-! ## The fetch of a step -/

section Whole

variable {m : Machine β} {va : BitVec 64} {low : BitVec 16}

theorem quarter_cases (heven : va % 2 = 0) : va % 4 = 0 ∨ va % 4 = 2 := by
  have h2 := EvenJumps.even_iff.mp heven
  have hcase : va.toNat % 4 = 0 ∨ va.toNat % 4 = 2 := by omega
  rcases hcase with h | h
  · exact .inl (BitVec.eq_of_toNat_eq ((BitVec.toNat_umod ..).trans h))
  · exact .inr (BitVec.eq_of_toNat_eq ((BitVec.toNat_umod ..).trans h))

theorem even_next (heven : va % 2 = 0) : (va + 2) % 2 = 0 := EvenJumps.even_add heven rfl

/-- A fetch at a multiple of four. -/
theorem fetch_at_word (heven : va % 2 = 0) (h : va % 4 = 0) :
    vaddrInstFetchMMUAPI va 4 m = instFetchPart va 4 m := by
  have hwhole : ¬ ((4 : Nat) = 4 ∧ va % 4 = 2) := fun hc => by
    rw [h] at hc
    exact absurd hc.2 (by decide)
  unfold vaddrInstFetchMMUAPI
  rw [assert_bind heven, if_neg hwhole]

/-- One between two words, whose first half can be fetched. -/
theorem fetch_between (heven : va % 2 = 0) (h : va % 4 = 2) {u : Machine β} {pa : Addr}
    {v : BitVec 16} (hp : place m va = some (u, pa))
    (hload : (SlaveIOI.load u.bus pa 2).1 = (.success, v)) :
    vaddrInstFetchMMUAPI va 4 m =
      match instFetchPart (va + 2) 2 (loaded u pa 2) with
      | .ok (fb, high) t =>
        if fb = .accessOk then .ok (.accessOk, (high ++ v).setWidth _) t else .ok (fb, 0) t
      | .error e t => .error e t := by
  have hfirst : instFetchPart va 2 m = .ok (.accessOk, v) (loaded u pa 2) := by
    rw [part_placed heven (whole_part heven (.inl rfl)) hp, hload]
    rfl
  have hok : ¬ VAddrFeedback.accessOk ≠ .accessOk := fun hne => hne rfl
  unfold vaddrInstFetchMMUAPI
  rw [assert_bind heven, if_pos ⟨rfl, h⟩, bind_of_ok hfirst]
  dsimp only
  rw [if_neg hok, run_bind]
  cases instFetchPart (va + 2) 2 (loaded u pa 2) with
  | error e t => rfl
  | ok r t =>
    obtain ⟨fb, high⟩ := r
    by_cases hfb : fb = .accessOk
    · simp only [hfb, ne_eq, not_true, if_false, if_true]
      rfl
    · simp only [hfb, ne_eq, not_false_eq_true, if_true, if_false]
      rfl

/-- A whole word between two quarters is its second half in front of its first. -/
theorem between_ok (heven : va % 2 = 0) (h : va % 4 = 2) {u : Machine β} {pa : Addr}
    {v : BitVec 16} (hp : place m va = some (u, pa))
    (hload : (SlaveIOI.load u.bus pa 2).1 = (.success, v)) {w : BitVec 32} {t : Machine β}
    (hrun : vaddrInstFetchMMUAPI va 4 m = .ok (.accessOk, w) t) :
    ∃ high, instFetchPart (va + 2) 2 (loaded u pa 2) = .ok (.accessOk, high) t ∧
      (high ++ v).setWidth _ = w := by
  rw [fetch_between heven h hp hload] at hrun
  cases hx : instFetchPart (va + 2) 2 (loaded u pa 2) with
  | error e t' =>
    rw [hx] at hrun
    cases hrun
  | ok r t' =>
    obtain ⟨fb, high⟩ := r
    rw [hx] at hrun
    by_cases hfb : fb = .accessOk
    · simp only [hfb, if_true] at hrun
      injection hrun with hr ht
      injection hr with hcode hvalue
      exact ⟨high, by rw [hfb, ht], hvalue⟩
    · simp only [hfb, if_false] at hrun
      injection hrun with hr
      injection hr with hcode
      exact absurd hcode hfb

/-- The fetch succeeds when the rest can be fetched, and only then; the low half of its word is the
one at the address. -/
theorem fetch_rest (heven : va % 2 = 0) (hlow : HalfAt m va low) :
    (∃ w t, vaddrInstFetchMMUAPI va 4 m = .ok (.accessOk, w) t) ↔ RestFetchable m va := by
  obtain ⟨u, pa, hp, hload, -⟩ := hlow
  unfold RestFetchable
  rcases quarter_cases heven with h | h
  · have hne : ¬ va % 4 = 2 := fun hc => by
      rw [h] at hc
      exact absurd hc (by decide)
    rw [if_neg hne, fetch_at_word heven h]
    exact part_fetchable heven (whole_part heven (.inr ⟨rfl, h⟩))
  · rw [if_pos h]
    have hpart := part_fetchable (m := loaded u pa 2) (n := 2) (even_next heven)
      (whole_part (even_next heven) (.inl rfl))
    constructor
    · rintro ⟨w, t, hrun⟩
      obtain ⟨high, hhigh, -⟩ := between_ok heven h hp hload hrun
      exact ⟨u, pa, hp, hpart.mp ⟨high, t, hhigh⟩⟩
    · rintro ⟨u', pa', hp', hrest⟩
      rw [hp] at hp'
      cases hp'
      obtain ⟨high, t, hrun⟩ := hpart.mpr hrest
      refine ⟨(high ++ low).setWidth _, t, ?_⟩
      rw [fetch_between heven h hp hload, hrun]
      rfl

theorem fetch_low (heven : va % 2 = 0) (hlow : HalfAt m va low) {w : BitVec 32} {t : Machine β}
    (hrun : vaddrInstFetchMMUAPI va 4 m = .ok (.accessOk, w) t) : w.setWidth 16 = low := by
  obtain ⟨u, pa, hp, hload, hword⟩ := hlow
  rcases quarter_cases heven with h | h
  · rw [fetch_at_word heven h, part_placed heven (whole_part heven (.inr ⟨rfl, h⟩)) hp] at hrun
    injection hrun with hr
    injection hr with hcode hvalue
    by_cases hs : (SlaveIOI.load u.bus pa 4).1.1 = .success
    · rw [← hvalue]
      exact hword h hs
    · rw [if_neg hs] at hcode
      cases hcode
  · obtain ⟨high, -, hvalue⟩ := between_ok heven h hp hload hrun
    rw [← hvalue]
    refine BitVec.eq_of_getLsbD_eq fun i hi => ?_
    have h32 : i < 32 := by omega
    simp only [BitVec.getLsbD_setWidth, BitVec.getLsbD_append, hi, h32, decide_true,
      Bool.true_and, if_true]

end Whole

/-! ## Code that raises no exception of a fetch -/

/-- The exceptions of a fetch. -/
def FetchFault (cause : Cause) : Prop :=
  cause = exception Exec.instrPgfault ∨ cause = exception Exec.instrAccFault

instance (cause : Cause) : Decidable (FetchFault cause) :=
  inferInstanceAs (Decidable (_ ∨ _))

/-- None was added. -/
def Unfaulted (s t : Machine β) : Prop :=
  ∀ cause tval, FetchFault cause → (cause, tval) ∈ traps t.trace → (cause, tval) ∈ traps s.trace

/-- Code that adds none. -/
def Faultless {ρ : Type} (x : Emu β ρ) : Prop :=
  ∀ s, wp x (fun _ t => Unfaulted s t) (fun _ _ => True) s

section Faultless

variable {ρ α : Type} {s t u : Machine β} {inst : BitVec 32}

omit [SlaveAtomicIOI β] in
theorem unfaulted_of_log (h : log t.trace = log s.trace) : Unfaulted s t := by
  intro cause tval _ hmem
  rw [mem_traps, h] at hmem
  exact mem_traps.mpr hmem

omit [SlaveAtomicIOI β] in
theorem faultless_pure (r : ρ) : Faultless (β := β) (pure r) := fun _ => unfaulted_of_log rfl

omit [SlaveAtomicIOI β] in
theorem faultless_bind {x : Emu β α} {f : α → Emu β ρ} (hx : Faultless x)
    (hf : ∀ a, Faultless (f a)) : Faultless (x >>= f) := by
  intro s
  rw [wp_bind]
  refine wp_mono (hx s) (fun a t ht => ?_) (fun _ _ _ => trivial)
  exact wp_mono (hf a t)
    (fun _ u hu cause tval hf hmem => ht cause tval hf (hu cause tval hf hmem))
    (fun _ _ _ => trivial)

omit [SlaveAtomicIOI β] in
theorem faultless_then {x : Emu β α} (hx : Faultless x) (r : ρ) :
    Faultless (do let _ ← x; return r) := faultless_bind hx fun _ => faultless_pure r

omit [SlaveAtomicIOI β] in
theorem faultless_getCore {f : RV64Core → Emu β ρ} (hf : ∀ c, Faultless (f c)) :
    Faultless (getCore >>= f) := fun s => hf s.core s

omit [SlaveAtomicIOI β] in
theorem faultless_ite {p : Prop} [Decidable p] {x y : Emu β ρ} (hx : Faultless x)
    (hy : Faultless y) : Faultless (if p then x else y) := by
  split
  · exact hx
  · exact hy

omit [SlaveAtomicIOI β] in
theorem faultless_assertThat (p : Prop) [Decidable p] (a : Assertion) :
    Faultless (β := β) (assertThat p a) := faultless_ite (faultless_pure ()) fun _ => trivial

omit [SlaveAtomicIOI β] in
theorem faultless_modifyCore (f : RV64Core → RV64Core) : Faultless (β := β) (modifyCore f) :=
  fun _ => unfaulted_of_log rfl

omit [SlaveAtomicIOI β] in
theorem faultless_setGPR (rd : BitVec 5) (value : BitVec 64) :
    Faultless (β := β) (setGPR rd value) := faultless_modifyCore _

theorem faultless_careful {ok : ρ → Prop} {x : Emu β ρ} (hx : Careful ok x) : Faultless x :=
  fun s => wp_mono (hx s) (fun _ _ ht => unfaulted_of_log ht.1.log) (fun _ _ _ => trivial)

/-- A trap for another cause. -/
theorem faultless_raiseTrap {cause : Cause} (h : ¬ FetchFault cause) (tval : BitVec 64) :
    Faultless (β := β) (raiseTrap cause tval) := by
  intro s
  refine wp_mono (raiseTrap_trapped cause tval s) (fun _ t ht => ?_) (fun _ _ _ => trivial)
  intro cause' tval' hfault hmem
  rw [mem_traps, ht.log, List.mem_cons] at hmem
  rcases hmem with heq | hmem
  · cases heq
    exact absurd hfault h
  · exact mem_traps.mpr hmem

/-- The exceptions of a data access are not those of a fetch. -/
theorem memException_other {a m p : BitVec 63} (ha : ¬ FetchFault (exception a))
    (hm : ¬ FetchFault (exception m)) (hp : ¬ FetchFault (exception p)) (fb : VAddrFeedback) :
    ¬ FetchFault (exception (fb.memException a m p)) := by
  cases fb with
  | accessOk => exact (by decide : ¬ FetchFault (exception Exec.ok))
  | accessFault => exact ha
  | misAlign => exact hm
  | pageFault => exact hp

theorem faultless_memRead (va : BitVec 64) (n : Nat) : Faultless (β := β) (memRead va n) := by
  refine faultless_ite (faultless_then (faultless_raiseTrap (by decide) _) _) ?_
  refine faultless_bind (faultless_careful (silent_read va n)) fun r => ?_
  refine faultless_ite (faultless_pure _) (faultless_bind (faultless_assertThat _ _) fun _ => ?_)
  have hcause := memException_other (a := Exec.loadAccFault) (m := Exec.loadMisalign)
    (p := Exec.loadPgfault) (by decide) (by decide) (by decide) r.1
  exact faultless_then (faultless_raiseTrap hcause _) _

theorem faultless_memWrite (va : BitVec 64) (n : Nat) (src : BitVec 64) :
    Faultless (β := β) (memWrite va n src) := by
  refine faultless_ite (faultless_then (faultless_raiseTrap (by decide) _) _) ?_
  refine faultless_bind (faultless_careful (careful_write va n _)) fun fb => ?_
  refine faultless_ite (faultless_pure _) (faultless_bind (faultless_assertThat _ _) fun _ => ?_)
  exact faultless_raiseTrap (memException_other (by decide) (by decide) (by decide) fb) _

theorem faultless_jumpTo (npc : BitVec 64) (link : Option (BitVec 5 × BitVec 64)) :
    Faultless (β := β) (jumpTo npc link) := by
  have hset : Faultless (β := β) (do
      modifyCore fun c => { c with currentProgramCounter := npc }
      return newPCSet) := faultless_then (faultless_modifyCore _) _
  refine faultless_ite (faultless_then (faultless_raiseTrap (by decide) _) _) ?_
  cases link with
  | none => exact hset
  | some l => exact faultless_bind (faultless_setGPR _ _) fun _ => hset

theorem faultless_loadGPR (va : BitVec 64) (n : Nat) (ext : BitVec (8 * n) → BitVec 64)
    (rd : BitVec 5) : Faultless (β := β) (loadGPR va n ext rd) := by
  refine faultless_bind (faultless_memRead va n) fun r => ?_
  cases r with
  | some buf => exact faultless_then (faultless_setGPR _ _) _
  | none => exact faultless_pure _

omit [SlaveAtomicIOI β] in
theorem faultless_cAlu (rd : BitVec 5) (b : BitVec 64) (op : ALUOp) (op32 : Bool) :
    Faultless (β := β) (cAlu rd b op op32) := by
  refine faultless_getCore fun c => ?_
  unfold aluGPR aluExec
  cases aluValue (c.gpr rd) b op op32 with
  | some result => exact faultless_then (faultless_setGPR rd result) _
  | none => exact fun _ => trivial

theorem faultless_cLoad (base : BitVec 5) (imm : BitVec 64) (n : Nat) (rd : BitVec 5) :
    Faultless (β := β) (cLoad base imm n rd) :=
  faultless_getCore fun _ => faultless_loadGPR _ _ _ _

theorem faultless_cStore (base : BitVec 5) (imm : BitVec 64) (n : Nat) (rs2 : BitVec 5) :
    Faultless (β := β) (cStore base imm n rs2) :=
  faultless_getCore fun _ => faultless_then (faultless_memWrite _ _ _) _

omit [SlaveAtomicIOI β] in
theorem faultless_cJump (imm : BitVec 64) : Faultless (β := β) (cJump imm) :=
  faultless_then (faultless_modifyCore _) _

omit [SlaveAtomicIOI β] in
theorem faultless_execCAlu : Faultless (β := β) (execCAlu inst) := by
  refine faultless_getCore fun c => faultless_ite ?_ (faultless_ite (faultless_cAlu _ _ _ _) ?_)
  · exact faultless_ite (faultless_cAlu _ _ _ _) (faultless_pure _)
  · dsimp only
    split
    · exact faultless_cAlu _ _ _ _
    · exact faultless_cAlu _ _ _ _
    · exact faultless_ite (faultless_pure _) (faultless_cAlu _ _ _ _)
    · exact faultless_ite (faultless_pure _) (faultless_cAlu _ _ _ _)

omit [SlaveAtomicIOI β] in
theorem faultless_execCAddi16spLui : Faultless (β := β) (execCAddi16spLui inst) := by
  refine faultless_getCore fun c => ?_
  dsimp only
  split
  · exact faultless_ite (faultless_then (faultless_setGPR _ _) _) (faultless_pure _)
  · exact faultless_ite (faultless_then (faultless_setGPR _ _) _) (faultless_pure _)

theorem faultless_execCJrMvEbJalrAdd : Faultless (β := β) (execCJrMvEbJalrAdd inst) := by
  refine faultless_getCore fun c =>
    faultless_ite (faultless_ite (faultless_ite ?_ (faultless_jumpTo _ _)) ?_) ?_
  · exact faultless_then (faultless_raiseTrap (by decide) _) _
  · exact faultless_cAlu _ _ _ _
  · exact faultless_ite (faultless_ite (faultless_pure _) (faultless_jumpTo _ _))
      (faultless_then (faultless_setGPR _ _) _)

theorem faultless_execRvc (inst : BitVec 32) : Faultless (β := β) (execRvc inst) := by
  unfold execRvc
  split
  · exact faultless_getCore fun c =>
      faultless_ite (faultless_then (faultless_setGPR _ _) _) (faultless_pure _)
  · exact faultless_cLoad _ _ _ _
  · exact faultless_cLoad _ _ _ _
  · exact faultless_cStore _ _ _ _
  · exact faultless_cStore _ _ _ _
  · exact faultless_ite (faultless_cAlu _ _ _ _) (faultless_pure _)
  · exact faultless_cAlu _ _ _ _
  · exact faultless_then (faultless_setGPR _ _) _
  · exact faultless_execCAddi16spLui
  · exact faultless_execCAlu
  · exact faultless_cJump _
  · exact faultless_getCore fun c => faultless_ite (faultless_cJump _) (faultless_pure _)
  · exact faultless_getCore fun c => faultless_ite (faultless_cJump _) (faultless_pure _)
  · exact faultless_ite (faultless_cAlu _ _ _ _) (faultless_pure _)
  · exact faultless_cLoad _ _ _ _
  · exact faultless_cLoad _ _ _ _
  · exact faultless_execCJrMvEbJalrAdd
  · exact faultless_cStore _ _ _ _
  · exact faultless_cStore _ _ _ _
  · exact faultless_pure _

theorem faultless_endStep (l : StepLocals) : Faultless (β := β) (endStep l) := by
  have hend : Faultless (β := β) (do
      modifyCore (·.advancePC l)
      modifyCore (·.retire)
      let c ← getCore
      assertThat (statusBlankZero c.status = true) .statusBlank) :=
    faultless_bind (faultless_modifyCore _) fun _ => faultless_bind (faultless_modifyCore _)
      fun _ => faultless_getCore fun _ => faultless_assertThat _ _
  unfold endStep
  dsimp only
  exact faultless_ite (faultless_bind (faultless_raiseTrap (by decide) _) fun _ => hend) hend

/-- A step that decodes a compressed word raises no exception of a fetch. -/
theorem step_unfaulted {w : BitVec 32} (h : fetchedWord s = some w)
    (hc : isCompressed w = true) : wp step (fun _ t => Unfaulted s t) (fun _ _ => True) s := by
  have hcode : Faultless (β := β) (do
      let flags ← execute w
      endStep { inst := w, isCompressedInst := isCompressed w, flags := flags }) := by
    refine faultless_bind ?_ fun flags => faultless_endStep _
    unfold execute
    rw [if_pos hc]
    exact faultless_execRvc w
  refine wp_congr (step_eq h) (wp_mono (hcode _) (fun _ t ht => ?_) (fun _ _ _ => trivial))
  intro cause tval hfault hmem
  have hmem := mem_traps.mp (ht cause tval hfault hmem)
  rw [decoding_log h, List.mem_cons] at hmem
  rcases hmem with heq | hmem
  · cases heq
  · exact mem_traps.mpr hmem

end Faultless

/-! ## The step -/

section Step

variable {s : Machine β} {low : BitVec 16}

/-- The machine when the step fetches. -/
def fetching (s : Machine β) : Machine β := { s with core := s.core.sampled }

/-- The step runs the code of the instruction of two bytes, from the machine that the fetch has
left. -/
structure ExecutesHalf (s : Machine β) (low : BitVec 16) : Prop where
  runs : ∃ w, fetchedWord s = some w ∧ w.setWidth 16 = low ∧ step s = (do
    let flags ← execRvc w
    endStep { inst := w, isCompressedInst := true, flags := flags }) (decoding s w)
  unfaulted : ∀ t, step s = .ok () t → Unfaulted s t

/-- The step raises one exception, of a fetch, for the address of the second half. -/
def ReportsRest (s : Machine β) : Prop :=
  ∃ t, step s = .ok () t ∧ ∃ cause, FetchFault cause ∧
    traps t.trace = (cause, s.core.currentProgramCounter + 2) :: traps s.trace

/-- The length of an instruction is told by its low half. -/
theorem isCompressed_low (w : BitVec 32) :
    isCompressed ((w.setWidth 16).setWidth 32) = isCompressed w := by
  have hop : RVInst.opcode ((w.setWidth 16).setWidth 32) = RVInst.opcode w := by
    refine BitVec.eq_of_getLsbD_eq fun i hi => ?_
    have h16 : i < 16 := by omega
    have h32 : i < 32 := by omega
    simp only [RVInst.opcode, BitVec.getLsbD_extractLsb', BitVec.getLsbD_setWidth, hi, h16, h32,
      Nat.zero_add, decide_true, Bool.true_and]
  unfold isCompressed
  rw [hop]

/-- A word is fetched when no interrupt is taken and the rest can be fetched. -/
theorem fetchedWord_rest (hint : s.core.sampled.intToRaise = none)
    (heven : s.core.currentProgramCounter % 2 = 0)
    (hlow : HalfAt (fetching s) s.core.currentProgramCounter low)
    (h : RestFetchable (fetching s) s.core.currentProgramCounter) :
    ∃ w, fetchedWord s = some w ∧ w.setWidth 16 = low := by
  obtain ⟨w, t, hrun⟩ := (fetch_rest heven hlow).mpr h
  have hfetch : fetch s = .ok (.accessOk, w) t := hrun
  refine ⟨w, ?_, fetch_low heven hlow hrun⟩
  unfold fetchedWord
  rw [hint, hfetch]

/-- A step that fetches no word for another reason raises its exception for the PC. -/
theorem unfetched_pc (hint : s.core.sampled.intToRaise = none)
    (heven : s.core.currentProgramCounter % 2 = 0) (h : fetchedWord s = none) :
    wp step (fun _ t => ∃ cause,
      log t.trace = .trap cause s.core.currentProgramCounter :: log s.trace)
      (fun _ _ => True) s := by
  have hclear : ¬ s.core.sampled.needTrap = true := Bool.false_ne_true
  have hodd : ¬ s.core.sampled.currentProgramCounter % 2 ≠ 0 := fun hne => hne heven
  unfold step preExec
  simp only [wp_bind, wp_modifyCore, wp_getCore, hint, wp_pure, if_neg hclear]
  unfold fetchDecodeExec
  simp only [wp_bind, wp_getCore, if_neg hodd]
  refine wp_mono (wp_and ((silent_instFetch _ 4).wp _) (wp_run _ _)) (fun r t ht => ?_)
    (fun _ _ _ => trivial)
  obtain ⟨hsilent, hfetch⟩ := ht
  have hfail : r.1 ≠ .accessOk := by
    intro hok
    obtain ⟨fb, w⟩ := r
    have hok : fb = .accessOk := hok
    subst hok
    have hword : fetch s = .ok (.accessOk, w) t := hfetch
    unfold fetchedWord at h
    rw [hint, hword] at h
    cases h
  rw [if_pos hfail]
  simp only [wp_bind, wp_assertThat, wp_pure]
  refine ⟨fun _ => ?_, fun _ => trivial⟩
  refine wp_mono (raiseTrap_after hsilent _ _) (fun _ u hu => ?_) (fun _ _ _ => trivial)
  refine wp_mono (endStep_trapped rfl hu) (fun _ v hv => ?_) (fun _ _ _ => trivial)
  subst hv
  exact ⟨_, hu.log⟩

/-- A fault of the second half is never reported with its address. -/
theorem not_reportsRest (hint : s.core.sampled.intToRaise = none)
    (heven : s.core.currentProgramCounter % 2 = 0) (h : fetchedWord s = none) :
    ¬ ReportsRest s := by
  rintro ⟨t, hstep, cause, -, htraps⟩
  obtain ⟨cause', hlog⟩ := wp_ok (unfetched_pc hint heven h) hstep
  rw [← traps_log, hlog, ← traps_log s.trace] at htraps
  have heq : (cause', s.core.currentProgramCounter) =
      (cause, s.core.currentProgramCounter + 2) := (List.cons.inj htraps).1
  have hpc := congrArg BitVec.toNat (Prod.mk.inj heq).2
  rw [BitVec.toNat_add] at hpc
  have htwo : (2 : BitVec 64).toNat = 2 := rfl
  have hlt := s.core.currentProgramCounter.isLt
  omega

/-- An instruction of two bytes at an even PC is executed, and one of four whose second half faults
reports the address of that half, exactly when the two bytes behind the first can be fetched. -/
theorem own_bytes_suffice (s : Machine β) (low : BitVec 16)
    (hint : s.core.sampled.intToRaise = none) (heven : s.core.currentProgramCounter % 2 = 0)
    (hlow : HalfAt (fetching s) s.core.currentProgramCounter low) :
    ((isCompressed (low.setWidth 32) = true → ExecutesHalf s low) ∧
      (isCompressed (low.setWidth 32) = false →
        ¬ RestFetchable (fetching s) s.core.currentProgramCounter → ReportsRest s)) ↔
      RestFetchable (fetching s) s.core.currentProgramCounter := by
  have hnone : ¬ RestFetchable (fetching s) s.core.currentProgramCounter →
      fetchedWord s = none := by
    intro hrest
    cases hw : fetchedWord s with
    | none => rfl
    | some w =>
      obtain ⟨-, t, hfetch⟩ := fetchedWord_some hw
      exact absurd ((fetch_rest heven hlow).mp ⟨w, t, hfetch⟩) hrest
  constructor
  · rintro ⟨hhalf, hwhole⟩
    refine Classical.byContradiction fun hrest => ?_
    cases hc : isCompressed (low.setWidth 32) with
    | true =>
      obtain ⟨w, hw, -⟩ := (hhalf hc).runs
      rw [hnone hrest] at hw
      cases hw
    | false => exact not_reportsRest hint heven (hnone hrest) (hwhole hc hrest)
  · intro hrest
    refine ⟨fun hc => ?_, fun _ hfault => absurd hrest hfault⟩
    obtain ⟨w, hw, hlow⟩ := fetchedWord_rest hint heven hlow hrest
    rw [← hlow, isCompressed_low] at hc
    have hstep := step_eq hw
    unfold execute at hstep
    rw [hc] at hstep
    refine ⟨⟨w, hw, hlow, hstep⟩, fun t hstep => ?_⟩
    exact wp_ok (Q := fun _ t => Unfaulted s t) (step_unfaulted hw hc) hstep

end Step

/-- C.NOP in S mode near the end of the gigapage, which is the last page that is mapped. -/
def nopMachine (pc : BitVec 64) : Machine (AddrBus Empty) :=
  Machine.start { (default : RV64Core) with
    currentProgramCounter := pc, nextPrivMode := .sMode, satp := 0x8000000000080000 }
    (AddrBus.empty.setMem 0x80000000 0x40000000
      fun a => if a = 0x3ffffffa ∨ a = 0x3ffffffe then 0x01 else gigapage a)

/-- The half at an address between two words. -/
theorem halfAt_of_load {m : Machine β} {va : BitVec 64} {low : BitVec 16} (hva : va % 4 ≠ 0)
    (h : (place m va).map (fun p => (SlaveIOI.load p.1.bus p.2 2).1) = some (.success, low)) :
    HalfAt m va low := by
  obtain ⟨⟨u, pa⟩, hp, hload⟩ := Option.map_eq_some_iff.mp h
  exact ⟨u, pa, hp, hload, fun hzero => absurd hzero hva⟩

/-- In the last two bytes of the page it is not executed: the step raises an instruction page
fault. -/
theorem last_half_faults :
    ¬ ∀ (s : Machine (AddrBus Empty)) (low : BitVec 16), s.core.sampled.intToRaise = none →
      s.core.currentProgramCounter % 2 = 0 →
      HalfAt (fetching s) s.core.currentProgramCounter low →
      isCompressed (low.setWidth 32) = true → ExecutesHalf s low := by
  intro hall
  have hhalf : HalfAt (fetching (nopMachine 0xbffffffe)) 0xbffffffe 1 :=
    halfAt_of_load (by decide) (by decide +kernel)
  obtain ⟨w, hw, -⟩ := (hall (nopMachine 0xbffffffe) 1 (by decide +kernel) (by decide) hhalf
    (by decide)).runs
  have hnone : fetchedWord (nopMachine 0xbffffffe) = none := by decide +kernel
  rw [hnone] at hw
  cases hw

/-- Four bytes before it is. -/
theorem own_bytes_suffice_inside : ExecutesHalf (nopMachine 0xbffffffa) 1 := by
  have hhalf : HalfAt (fetching (nopMachine 0xbffffffa)) 0xbffffffa 1 :=
    halfAt_of_load (by decide) (by decide +kernel)
  have hrest : (place (fetching (nopMachine 0xbffffffa)) 0xbffffffa).bind (fun p =>
      (place (loaded p.1 p.2 2) 0xbffffffc).map
        fun q => (SlaveIOI.load q.1.bus q.2 2).1.1) = some .success := by
    decide +kernel
  obtain ⟨⟨u, pa⟩, hp, hnext⟩ := Option.bind_eq_some_iff.mp hrest
  obtain ⟨⟨u', pa'⟩, hp', hload⟩ := Option.map_eq_some_iff.mp hnext
  refine ((own_bytes_suffice (nopMachine 0xbffffffa) 1 (by decide +kernel) (by decide)
    hhalf).mpr ?_).1 (by decide)
  unfold RestFetchable
  rw [if_pos (by decide)]
  exact ⟨u, pa, hp, u', pa', hp', hload⟩

end NextEmu.Simple.CompressedFetch
