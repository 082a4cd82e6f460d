import NextEmu.Simple.Encodings
import NextEmu.Simple.Unaborted

/-!
# Which words the decoder refuses

The code of an instruction either calls it illegal at once, with the machine as it was, or
never does: then no trap that it raises is for an illegal instruction, whichever way it
ends. `Accepts` is the condition on the word and the core that decides between the two.
-/

namespace NextEmu.Simple.Refusal

open NextEmu.Lib.AbortState NextEmu.Lib.BitField NextEmu.Lib.RadixWalk NextEmu.Lib.RiscV
open NextEmu.Sdk
open Conformance DataPaths Encodings Isolation Outcomes Translation Unaborted

variable {β : Type} [SlaveAtomicIOI β]

/-! ## Code that raises no trap for an illegal instruction -/

/-- The traps for illegal instructions in a trace, newest first, by their values. -/
def illegals (tr : List (Event β)) : List (BitVec 64) :=
  (traps tr).filterMap fun t => if t.1 = exception Exec.illegalInstr then some t.2 else none

/-- None was added. -/
def Lawful (s t : Machine β) : Prop := illegals t.trace = illegals s.trace

/-- Code that adds none, whichever way it ends. -/
abbrev Harmless {α : Type} (x : Emu β α) : Prop := Tracks Lawful (fun _ _ => True) x

section Harmless

variable {α ρ : Type} {s t u : Machine β}

omit [SlaveAtomicIOI β]

theorem illegals_append (evs : List (Event β)) {tr : List (Event β)}
    (h : ∀ e ∈ evs, ∀ tval, e ≠ .trap (exception Exec.illegalInstr) tval) :
    illegals (evs ++ tr) = illegals tr := by
  induction evs with
  | nil => rfl
  | cons e rest ih =>
    have hrest := ih fun e' he' => h e' (List.mem_cons_of_mem _ he')
    have hne := h e List.mem_cons_self
    show illegals (e :: (rest ++ tr)) = _
    rw [← hrest]
    cases e with
    | trap cause tval =>
      have hcause : cause ≠ exception Exec.illegalInstr := by
        rintro rfl
        exact hne tval rfl
      simp only [illegals, traps, List.filterMap_cons, if_neg hcause]
    | _ => rfl

theorem Lawful.refl (s : Machine β) : Lawful s s := rfl

theorem Lawful.trans (s t u : Machine β) (h : Lawful s t) (h' : Lawful t u) : Lawful s u :=
  Eq.trans h' h

/-- A log without such a trap. -/
theorem lawful_of_log (h : log t.trace = log s.trace) : Lawful s t := by
  unfold Lawful illegals
  rw [← traps_log t.trace, h, traps_log]

/-- A trace to which events were added that are not notable. -/
theorem log_append_quiet (evs : List (Event β)) {tr tr' : List (Event β)} (h : tr' = evs ++ tr)
    (hevs : ∀ e ∈ evs, notable e = false) : log tr' = log tr := by
  rw [h, log, List.filter_append, List.filter_eq_nil_iff.mpr fun e he => by
    rw [hevs e he]
    exact Bool.false_ne_true]
  rfl

theorem lawful_of_events (evs : List (Event β)) (h : t.trace = evs ++ s.trace)
    (hevs : ∀ e ∈ evs, notable e = false) : Lawful s t :=
  lawful_of_log (log_append_quiet evs h hevs)

theorem harmless_pure (a : α) : Harmless (β := β) (pure a) := Tracks.pure Lawful.refl a

theorem harmless_throw (e : Assertion) : Harmless (α := α) (β := β) (throw e) :=
  Tracks.throw Lawful.refl fun _ => trivial

theorem harmless_bind {x : Emu β α} {f : α → Emu β ρ} (hx : Harmless x)
    (hf : ∀ a, Harmless (f a)) : Harmless (x >>= f) := Tracks.bind Lawful.trans hx hf

theorem harmless_getCore : Harmless (β := β) getCore := Lawful.refl

theorem harmless_modifyCore (f : RV64Core → RV64Core) : Harmless (β := β) (modifyCore f) :=
  fun _ => rfl

theorem harmless_setGPR (rd : BitVec 5) (value : BitVec 64) :
    Harmless (β := β) (setGPR rd value) := harmless_modifyCore _

theorem harmless_assertThat (p : Prop) [Decidable p] (a : Assertion) :
    Harmless (β := β) (assertThat p a) := Tracks.ite (harmless_pure ()) (harmless_throw a)

/-- A trap for another cause. -/
theorem harmless_raiseTrap {cause : Cause} (h : cause ≠ exception Exec.illegalInstr)
    (tval : BitVec 64) : Harmless (β := β) (raiseTrap cause tval) := by
  have hemit : Harmless (β := β) (emit (.trap cause tval)) := fun s =>
    illegals_append [.trap cause tval] fun e he tval' heq => by
      rw [List.mem_singleton.mp he] at heq
      exact h (Event.trap.inj heq).1
  refine harmless_bind hemit fun _ => harmless_bind harmless_getCore fun _ => ?_
  refine harmless_bind (harmless_assertThat _ _) fun _ => ?_
  refine harmless_bind (harmless_assertThat _ _) fun _ => ?_
  refine harmless_bind (harmless_modifyCore _) fun _ => harmless_bind harmless_getCore fun _ => ?_
  exact harmless_assertThat _ _

end Harmless

/-! ## The data paths -/

section Paths

variable {ρ : Type} {s : Machine β}

/-- A lookup loads tables and changes the TLB; neither is notable. -/
theorem looked_log (s : Machine β) (va : BitVec 64) :
    log (looked s va).trace = log s.trace := by
  obtain ⟨reads, htrace⟩ := looked_trace s va
  refine log_append_quiet _ htrace fun e he => ?_
  rcases List.mem_append.mp he with he | he
  · obtain ⟨a, -, rfl⟩ := List.mem_map.mp he
    rfl
  · rw [List.mem_singleton.mp he]
    rfl

theorem looked_lawful (s : Machine β) (va : BitVec 64) : Lawful s (looked s va) :=
  lawful_of_log (looked_log s va)

omit [SlaveAtomicIOI β] in
theorem lawful_of_accessed {t : Machine β} {pa : Addr} {n : Nat} (h : Accessed pa n s t) :
    Lawful s t := by
  obtain ⟨-, -, evs, htrace, htouch⟩ := h
  refine lawful_of_events evs htrace fun e he => ?_
  have hte := htouch e he
  cases e with
  | trap cause tval => cases hte
  | fetched inst => cases hte
  | _ => rfl

omit [SlaveAtomicIOI β] in
/-- Confined code that returns a code of its path. -/
theorem lawful_of_coded {code : ρ → Option VAddrFeedback} {x : Emu β ρ} {pa : Addr} {n : Nat}
    (hcoded : Coded code x) (hx : Confined pa n x) (s : Machine β) :
    wp x (fun r t => Lawful s t ∧ ∃ k, code r = some k) (fun _ t => Lawful s t) s := by
  obtain ⟨r, t, k, hrun, hk⟩ := hcoded s
  have hlawful : Lawful s t := lawful_of_accessed (hx.ok hrun)
  unfold wp
  rw [hrun]
  exact ⟨hlawful, k, hk⟩

theorem confined_act {a : DataAccess} (h : a.Sized) (pa : Addr) :
    Confined (β := β) pa a.size (a.act pa) := by
  cases a with
  | read va n => exact confined_physRead pa n
  | write va n data => exact confined_physWrite _ _ pa n data
  | loadReserved va n => exact confined_physLoadReserved pa n
  | storeConditional va n data => exact confined_physStoreConditional _ pa n data
  | amo va n op src => exact confined_physAmo h op src

theorem confined_bare {a : DataAccess} (h : a.Sized) :
    Confined (β := β) a.beginAddr a.size a.bare := by
  cases a with
  | read va n => exact confined_physRead va n
  | write va n data => exact confined_physWrite _ _ va n data
  | loadReserved va n => exact confined_physLoadReserved va n
  | storeConditional va n data => exact confined_physStoreConditional _ va n data
  | amo va n op src => exact confined_physAmo h op src

/-- A path of such code adds no such trap, and returns one of its codes when it returns. -/
theorem path_lawful {p : Path β ρ} {code : ρ → Option VAddrFeedback} (hp : CodedPath code p)
    (hbare : Confined p.beginAddr p.size p.bare)
    (hact : ∀ pa, Confined pa p.size (p.act pa)) (s : Machine β) :
    wp p.run (fun r t => Lawful s t ∧ ∃ k, code r = some k) (fun _ t => Lawful s t) s := by
  have hlooked := looked_lawful s p.beginAddr
  cases hd : p.direct s.core with
  | true => exact wp_congr (Path.run_direct hd) (lawful_of_coded hp.bare hbare s)
  | false =>
    cases hcross : crossesPage p.beginAddr p.size with
    | true =>
      unfold wp
      rw [Path.run_crossing hd hcross]
      exact ⟨Lawful.refl s, _, hp.crossPage⟩
    | false =>
      unfold wp
      rw [Path.run_lookUp hd hcross]
      cases hl : lookUp s p.beginAddr with
      | stops e => exact hlooked
      | absent => exact ⟨hlooked, _, hp.noEntry⟩
      | found e =>
        dsimp only
        cases hr : p.refuse s.core e with
        | some r => exact ⟨hlooked, hp.refuse _ _ _ hr⟩
        | none =>
          exact wp_mono (lawful_of_coded (hp.act _) (hact _) (looked s p.beginAddr))
            (fun r t h => ⟨hlooked.trans _ _ _ h.1, h.2⟩) (fun _ t h => hlooked.trans _ _ _ h)

theorem data_lawful {a : DataAccess} (h : Callable a) (s : Machine β) :
    wp a.run (fun r t => Lawful s t ∧ ∃ k, a.code r = some k) (fun _ t => Lawful s t) s :=
  wp_congr (DataAccess.run_path h.sized s)
    (path_lawful (data_coded h) (confined_bare h.sized) (confined_act h.sized) s)

theorem harmless_data {a : DataAccess} (h : Callable a) : Harmless (β := β) a.run := fun s =>
  wp_mono (data_lawful h s) (fun _ _ ht => ht.1) (fun _ _ ht => ⟨ht, trivial⟩)

end Paths

/-! ## Accepted and refused instructions -/

/-- Code that does not call its instruction illegal, nor raises a trap as if it did. -/
def Accepted (x : Emu β ExecFlags) (s : Machine β) : Prop :=
  wp x (fun flags t => flags.isInstrIllegal = false ∧ Lawful s t) (fun _ t => Lawful s t) s

/-- Code that calls its instruction illegal, and does nothing else. -/
def Refused (x : Emu β ExecFlags) (s : Machine β) : Prop := x s = .ok instrIllegal s

/-- Code that accepts its instruction on a condition, and refuses it otherwise. -/
structure Decides (p : Prop) (x : Emu β ExecFlags) (s : Machine β) : Prop where
  accepted : p → Accepted x s
  refused : ¬ p → Refused x s

/-- Code that is accepted from every machine. -/
abbrev Proceeds (x : Emu β ExecFlags) : Prop := ∀ s, Accepted x s

section Proceeds

variable {α : Type} {s : Machine β} {p : Prop}

omit [SlaveAtomicIOI β]

theorem proceeds_pure {flags : ExecFlags} (h : flags.isInstrIllegal = false) :
    Proceeds (β := β) (pure flags) := fun s => ⟨h, Lawful.refl s⟩

/-- The end of an instruction behind code that adds no such trap. -/
theorem accepted_bind {x : Emu β α} {f : α → Emu β ExecFlags}
    (hx : wp x (fun a t => Lawful s t ∧ Accepted (f a) t) (fun _ t => Lawful s t) s) :
    Accepted (x >>= f) s := by
  unfold Accepted
  rw [wp_bind]
  refine wp_mono hx (fun a t ht => ?_) (fun _ _ ht => ht)
  exact wp_mono ht.2 (fun _ u hu => ⟨hu.1, ht.1.trans _ _ _ hu.2⟩)
    (fun _ u hu => ht.1.trans _ _ _ hu)

theorem proceeds_bind {x : Emu β α} {f : α → Emu β ExecFlags} (hx : Harmless x)
    (hf : ∀ a, Proceeds (f a)) : Proceeds (x >>= f) := fun s =>
  accepted_bind (wp_mono (hx s) (fun a t ht => ⟨ht, hf a t⟩) (fun _ _ ht => ht.1))

theorem proceeds_ite {c : Prop} [Decidable c] {x y : Emu β ExecFlags} (hx : Proceeds x)
    (hy : Proceeds y) : Proceeds (if c then x else y) := by
  split
  · exact hx
  · exact hy

theorem proceeds_raiseTrap {cause : Cause} (h : cause ≠ exception Exec.illegalInstr)
    (tval : BitVec 64) {flags : ExecFlags} (hf : flags.isInstrIllegal = false) :
    Proceeds (β := β) (do raiseTrap cause tval; return flags) :=
  proceeds_bind (harmless_raiseTrap h tval) fun _ => proceeds_pure hf

theorem proceeds_setGPR (rd : BitVec 5) (value : BitVec 64) :
    Proceeds (β := β) (do setGPR rd value; return retired) :=
  proceeds_bind (harmless_setGPR rd value) fun _ => proceeds_pure rfl

theorem decides_true {x : Emu β ExecFlags} (h : Proceeds x) (hp : p) : Decides p x s :=
  ⟨fun _ => h s, fun hn => absurd hp hn⟩

theorem decides_illegal (hp : ¬ p) : Decides p (pure instrIllegal) s :=
  ⟨fun h => absurd h hp, fun _ => rfl⟩

theorem decides_iff {q : Prop} {x : Emu β ExecFlags} (hpq : p ↔ q) (h : Decides p x s) :
    Decides q x s :=
  ⟨fun hq => h.accepted (hpq.mpr hq), fun hq => h.refused fun hp => hq (hpq.mp hp)⟩

theorem decides_congr {x y : Emu β ExecFlags} (h : x s = y s) (hy : Decides p y s) :
    Decides p x s :=
  ⟨fun hp => wp_congr h (hy.accepted hp), fun hp => h.trans (hy.refused hp)⟩

end Proceeds

/-! ## Jumps, loads and stores -/

section Memory

variable {inst : BitVec 32} {s : Machine β}

omit [SlaveAtomicIOI β] in
theorem proceeds_jumpTo (npc : BitVec 64) (link : Option (BitVec 5 × BitVec 64)) :
    Proceeds (β := β) (jumpTo npc link) := by
  refine proceeds_ite (proceeds_raiseTrap (by decide) _ rfl) ?_
  cases link with
  | none => exact proceeds_bind (harmless_modifyCore _) fun _ => proceeds_pure rfl
  | some l =>
    refine proceeds_bind (harmless_setGPR _ _) fun _ => ?_
    exact proceeds_bind (harmless_modifyCore _) fun _ => proceeds_pure rfl

omit [SlaveAtomicIOI β] in
theorem proceeds_jalr : Proceeds (β := β) (execJalr inst) := by
  refine proceeds_bind harmless_getCore fun c => ?_
  exact proceeds_bind (harmless_assertThat _ _) fun _ => proceeds_jumpTo _ _

/-- The exceptions of a data access are not that for an illegal instruction. -/
theorem memException_ne {a m p : BitVec 63} (ha : a ≠ Exec.illegalInstr)
    (hm : m ≠ Exec.illegalInstr) (hp : p ≠ Exec.illegalInstr) (fb : VAddrFeedback) :
    exception (fb.memException a m p) ≠ exception Exec.illegalInstr := by
  have hok : Exec.ok ≠ Exec.illegalInstr := by decide
  intro h
  have hcause := congrArg Cause.cause h
  cases fb with
  | accessOk => exact hok hcause
  | accessFault => exact ha hcause
  | misAlign => exact hm hcause
  | pageFault => exact hp hcause

theorem harmless_memRead (va : BitVec 64) (n : Nat) : Harmless (β := β) (memRead va n) := by
  refine Tracks.ite (harmless_bind (harmless_raiseTrap (by decide) _) fun _ => harmless_pure _) ?_
  refine harmless_bind (harmless_data (a := .read va n) trivial) fun r => ?_
  refine Tracks.ite (harmless_pure _) (harmless_bind (harmless_assertThat _ _) fun _ => ?_)
  have hcause := memException_ne (a := Exec.loadAccFault) (m := Exec.loadMisalign)
    (p := Exec.loadPgfault) (by decide) (by decide) (by decide) r.1
  exact harmless_bind (harmless_raiseTrap hcause _) fun _ => harmless_pure _

theorem harmless_memWrite (va : BitVec 64) (n : Nat) (src : BitVec 64) :
    Harmless (β := β) (memWrite va n src) := by
  refine Tracks.ite (harmless_bind (harmless_raiseTrap (by decide) _) fun _ => harmless_pure _) ?_
  refine harmless_bind (harmless_data (a := .write va n _) trivial) fun fb => ?_
  refine Tracks.ite (harmless_pure _) (harmless_bind (harmless_assertThat _ _) fun _ => ?_)
  exact harmless_raiseTrap (memException_ne (by decide) (by decide) (by decide) fb) _

theorem proceeds_loadGPR (va : BitVec 64) (n : Nat) (ext : BitVec (8 * n) → BitVec 64)
    (rd : BitVec 5) : Proceeds (β := β) (loadGPR va n ext rd) := by
  refine proceeds_bind (harmless_memRead va n) fun r => ?_
  cases r with
  | some buf => exact proceeds_setGPR rd (ext buf)
  | none => exact proceeds_bind (harmless_pure ()) fun _ => proceeds_pure rfl

theorem proceeds_memWrite (va : BitVec 64) (n : Nat) (src : BitVec 64) :
    Proceeds (β := β) (do memWrite va n src; return retired) :=
  proceeds_bind (harmless_memWrite va n src) fun _ => proceeds_pure rfl

theorem decides_load (s : Machine β) :
    Decides (RVInst.funct3 inst ≠ 0b111) (execLoad inst) s := by
  refine decides_congr (bind_of_ok (getCore_run s)) ?_
  split
  case h_8 h0 h1 h2 h3 h4 h5 h6 =>
    refine decides_illegal fun hne => hne ?_
    revert h0 h1 h2 h3 h4 h5 h6
    generalize RVInst.funct3 inst = f
    revert f
    decide
  all_goals
    rename_i hf3
    exact decides_true (proceeds_loadGPR _ _ _ _) (by rw [hf3]; decide)

theorem decides_store (s : Machine β) :
    Decides (RVInst.funct3 inst < 0b100) (execStore inst) s := by
  refine decides_congr (bind_of_ok (getCore_run s)) ?_
  split
  case h_5 h0 h1 h2 h3 =>
    refine decides_illegal ?_
    revert h0 h1 h2 h3
    generalize RVInst.funct3 inst = f
    revert f
    decide
  all_goals
    rename_i hf3
    exact decides_true (proceeds_memWrite _ _ _) (by rw [hf3]; decide)

omit [SlaveAtomicIOI β] in
theorem decides_branch (s : Machine β) :
    Decides (RVInst.funct3 inst ≠ 0b010 ∧ RVInst.funct3 inst ≠ 0b011) (execBranch inst) s := by
  have hnone : ∀ f : BitVec 3, ∀ a b : BitVec 64,
      branchTaken f a b = none → ¬ (f ≠ 0b010 ∧ f ≠ 0b011) := by
    intro f a b h
    unfold branchTaken at h
    split at h
    case h_7 h0 h1 h4 h5 h6 h7 =>
      revert h0 h1 h4 h5 h6 h7
      clear h
      revert f
      decide
    all_goals cases h
  have hsome : ∀ f : BitVec 3, ∀ a b : BitVec 64, ∀ taken : Bool,
      branchTaken f a b = some taken → f ≠ 0b010 ∧ f ≠ 0b011 := by
    intro f a b taken h
    unfold branchTaken at h
    split at h
    case h_7 => cases h
    all_goals decide
  refine decides_congr (bind_of_ok (getCore_run s)) ?_
  dsimp only
  split
  case h_1 h => exact decides_illegal (hnone _ _ _ h)
  case h_2 h => exact decides_true (proceeds_pure rfl) (hsome _ _ _ _ h)
  case h_3 h =>
    refine decides_true (proceeds_ite ?_ ?_) (hsome _ _ _ _ h)
    · exact proceeds_raiseTrap (by decide) _ rfl
    · exact proceeds_bind (harmless_modifyCore _) fun _ => proceeds_pure rfl

end Memory

/-! ## Arithmetic and atomic instructions -/

section Arithmetic

variable {inst : BitVec 32} {s : Machine β}

omit [SlaveAtomicIOI β] in
theorem proceeds_aluGPR (rd : BitVec 5) (a b : BitVec 64) (op : ALUOp) (op32 : Bool) :
    Proceeds (β := β) (aluGPR rd a b op op32) := by
  unfold aluGPR aluExec
  cases aluValue a b op op32 with
  | some result => exact proceeds_bind (harmless_pure result) fun _ => proceeds_setGPR rd _
  | none => exact proceeds_bind (harmless_throw _) fun _ => proceeds_setGPR rd _

omit [SlaveAtomicIOI β] in
theorem decides_imm (decoded : Option (ALUOp × BitVec 64)) (op32 : Bool) (s : Machine β) :
    Decides (decoded ≠ none) (execImm decoded op32 inst) s := by
  cases decoded with
  | none => exact decides_illegal fun h => h rfl
  | some d =>
    refine decides_true ?_ (Option.some_ne_none d)
    exact proceeds_bind harmless_getCore fun c => proceeds_aluGPR _ _ _ _ _

omit [SlaveAtomicIOI β] in
theorem decides_reg (decoded : Option ALUOp) (op32 : Bool) (s : Machine β) :
    Decides (decoded ≠ none) (execReg decoded op32 inst) s := by
  cases decoded with
  | none => exact decides_illegal fun h => h rfl
  | some op =>
    refine decides_true ?_ (Option.some_ne_none op)
    exact proceeds_bind harmless_getCore fun c => proceeds_aluGPR _ _ _ _ _

omit [SlaveAtomicIOI β] in
/-- The end of an atomic instruction behind a path with its codes. -/
theorem proceeds_amoEnd {ρ : Type} {x : Emu β (BitVec 63 × ρ)}
    (hx : ∀ s, wp x (fun r t => Lawful s t ∧ ∃ k, DataAccess.excFeedback r.1 = some k)
      (fun _ t => Lawful s t) s)
    (addr : BitVec 64) (rd : BitVec 5) (result : ρ → BitVec 64) :
    Proceeds (do
      let r ← x
      amoEnd r.1 addr rd (result r.2)) := by
  intro s
  refine accepted_bind (wp_mono (hx s) (fun r t ht => ⟨ht.1, ?_⟩) (fun _ _ ht => ht))
  obtain ⟨-, k, hk⟩ := ht
  have hne : exception r.1 ≠ exception Exec.illegalInstr := by
    intro h
    have hcode : r.1 = Exec.illegalInstr := congrArg Cause.cause h
    have hnone : DataAccess.excFeedback Exec.illegalInstr = none := by decide
    rw [hcode, hnone] at hk
    cases hk
  exact proceeds_ite (proceeds_setGPR rd _) (proceeds_raiseTrap hne addr rfl) t

theorem decides_amo (s : Machine β) : Decides (Fits inst .amo) (execAmo inst) s := by
  unfold execAmo
  dsimp only
  by_cases hf3 : RVInst.funct3 inst ≠ 0b010 ∧ RVInst.funct3 inst ≠ 0b011
  · rw [if_pos hf3]
    exact decides_illegal fun h => h.1.elim hf3.1 hf3.2
  have hf3' : RVInst.funct3 inst = 0b010 ∨ RVInst.funct3 inst = 0b011 := by
    by_cases h : RVInst.funct3 inst = 0b010
    · exact .inl h
    · exact .inr (Decidable.of_not_not fun h' => hf3 ⟨h, h'⟩)
  rw [if_neg hf3]
  refine decides_congr (bind_of_ok (getCore_run s)) ?_
  have hsize : 1 <<< (RVInst.funct3 inst).toNat = 4 ∨ 1 <<< (RVInst.funct3 inst).toNat = 8 := by
    rcases hf3' with h | h <;> rw [h] <;> decide
  split
  case h_1 hop =>
    refine decides_illegal fun h => ?_
    obtain ⟨op, hop', -⟩ := h.2
    rw [hop] at hop'
    cases hop'
  case h_2 hop =>
    by_cases hrs2 : RVInst.rs2 inst ≠ 0
    · rw [if_pos hrs2]
      refine decides_illegal fun h => ?_
      obtain ⟨op, hop', hlr⟩ := h.2
      rw [hop] at hop'
      cases hop'
      exact hrs2 (hlr rfl)
    · rw [if_neg hrs2]
      refine decides_true (proceeds_amoEnd (data_lawful (a := .loadReserved _ _) trivial) _ _
        fun result => result.signExtend 64) ⟨hf3', .lr, hop, fun _ => Decidable.of_not_not hrs2⟩
  case h_3 hop =>
    exact decides_true (proceeds_amoEnd (data_lawful (a := .storeConditional _ _ _) trivial) _ _
      fun scFail => if scFail then 1 else 0) ⟨hf3', .sc, hop, nofun⟩
  case h_4 op hlr hsc hop =>
    exact decides_true (proceeds_amoEnd (data_lawful (a := .amo _ _ _ _) ⟨hsize, hlr, hsc⟩) _ _
      fun result => result) ⟨hf3', op, hop, fun h => absurd h hlr⟩

end Arithmetic

/-! ## System instructions -/

/-- The access of a CSR instruction is permitted, and neither refused by the read nor by the write
that it makes. -/
def CsrAllowed (c : RV64Core) (op : CsrOp) (operand : BitVec 5) (number : BitVec 12) : Prop :=
  c.csrOpPermissionCheck number (op.writes operand) = true ∧
    ∃ old, c.csrRead (CSRAddr.ofNumber number) = some old ∧
      (op.writes operand = true →
        c.csrWrite (op.newValue old (op.source c.gpr operand)) (CSRAddr.ofNumber number) ≠
          .ok none)

/-- SFENCE.VMA is for S mode, unless TVM is set, and the modes above it. -/
def SfenceAllowed (c : RV64Core) : Prop :=
  ¬ c.currentPrivMode.level < PrivMode.sMode.level ∧
    ¬ (c.currentPrivMode = .sMode ∧ c.status.getLsbD MStatus.tvm = true)

/-- What the core asks of an SRET: TSR stops it in every mode. -/
def SretDone (c : RV64Core) : Prop :=
  ¬ c.currentPrivMode.level < PrivMode.sMode.level ∧ ¬ c.status.getLsbD MStatus.tsr = true

/-- Neither register field names a register. -/
def NoRegs (w : BitVec 32) : Prop := RVInst.rs1 w = 0 ∧ RVInst.rd w = 0

/-- What the core accepts under `FUNCT3_PRIV`. -/
def PrivAccepts (c : RV64Core) (w : BitVec 32) : Prop :=
  RVInst.funct7 w = 0b0000000 ∧ NoRegs w ∧ (RVInst.rs2 w = 0 ∨ RVInst.rs2 w = 1) ∨
  -- other words than SRET and WFI are no instruction, and do nothing
  RVInst.funct7 w = 0b0001000 ∧
    (NoRegs w → RVInst.rs2 w = 0b00010 ∧ SretDone c ∨ RVInst.rs2 w = 0b00101) ∨
  RVInst.funct7 w = 0b0011000 ∧ (RVInst.rs2 w = 0b00010 ∧ NoRegs w) ∧
    c.currentPrivMode = .mMode ∨
  RVInst.funct7 w = 0b0001001 ∧ SfenceAllowed c

section System

variable {inst : BitVec 32} {s : Machine β}

omit [SlaveAtomicIOI β]

theorem proceeds_ecall : Proceeds (β := β) (do ecall; return retired) := by
  have hcause : ∀ p : PrivMode,
      exception (BitVec.ofNat 63 (p.level + 8)) ≠ exception Exec.illegalInstr := by
    intro p
    cases p <;> decide
  refine proceeds_bind (harmless_bind harmless_getCore fun c => ?_) fun _ => proceeds_pure rfl
  exact harmless_raiseTrap (hcause c.currentPrivMode) 0

theorem decides_mret (s : Machine β) : Decides (s.core.currentPrivMode = .mMode)
    (do return { isInstrIllegal := !(← mret) }) s := by
  by_cases hm : s.core.currentPrivMode = .mMode
  · refine ⟨fun _ => ?_, fun hn => absurd hm hn⟩
    unfold Accepted mret
    simp only [wp_bind, wp_getCore, wp_ite, wp_pure, wp_modifyCore]
    exact ⟨fun hn => absurd hm hn, fun _ => ⟨rfl, rfl⟩⟩
  · refine ⟨fun h => absurd h hm, fun _ => ?_⟩
    have hrun : mret s = .ok false s := by
      unfold mret
      rw [bind_of_ok (getCore_run s), if_pos hm]
      rfl
    exact bind_of_ok hrun

theorem decides_sret (s : Machine β) : Decides (SretDone s.core)
    (do return { isInstrIllegal := !(← sret) }) s := by
  have hrun : ¬ SretDone s.core → sret s = .ok false s := by
    intro hn
    unfold sret
    rw [bind_of_ok (getCore_run s)]
    by_cases hlevel : s.core.currentPrivMode.level < PrivMode.sMode.level
    · rw [if_pos hlevel]
      rfl
    · have htsr : s.core.status.getLsbD MStatus.tsr = true :=
        Decidable.of_not_not fun h => hn ⟨hlevel, h⟩
      rw [if_neg hlevel, htsr]
      rfl
  refine ⟨fun h => ?_, fun hn => bind_of_ok (hrun hn)⟩
  unfold Accepted sret
  simp only [wp_bind, wp_getCore, wp_ite, wp_pure, wp_modifyCore]
  exact ⟨fun hl => absurd hl h.1, fun _ => ⟨fun ht => absurd ht h.2, fun _ => ⟨rfl, rfl⟩⟩⟩

theorem decides_sfenceVma (va asid : BitVec 64) (s : Machine β) : Decides (SfenceAllowed s.core)
    (do return { isInstrIllegal := !(← sfenceVma va asid) }) s := by
  have hcond : (s.core.currentPrivMode.level < PrivMode.sMode.level ||
      s.core.currentPrivMode == .sMode && s.core.status.getLsbD MStatus.tvm) = true ↔
      ¬ SfenceAllowed s.core := by
    simp only [SfenceAllowed, Bool.or_eq_true, Bool.and_eq_true, decide_eq_true_eq, beq_iff_eq]
    by_cases h1 : s.core.currentPrivMode.level < PrivMode.sMode.level <;> simp [h1]
  refine ⟨fun h => ?_, fun hn => ?_⟩
  · unfold Accepted sfenceVma
    simp only [wp_bind, wp_getCore, wp_ite, wp_pure]
    exact ⟨fun hc => absurd h (hcond.mp hc), fun _ => ⟨rfl, rfl⟩⟩
  · have hrun : sfenceVma va asid s = .ok false s := by
      unfold sfenceVma
      rw [bind_of_ok (getCore_run s), if_pos (hcond.mpr hn)]
      rfl
    exact bind_of_ok hrun

theorem decides_priv (s : Machine β) : Decides (PrivAccepts s.core inst) (execPriv inst) s := by
  unfold execPriv
  dsimp only
  split
  case h_1 hf7 =>
    have hiff : NoRegs inst ∧ (RVInst.rs2 inst = 0 ∨ RVInst.rs2 inst = 1) ↔
        PrivAccepts s.core inst := by simp [PrivAccepts, hf7]
    refine decides_iff hiff ?_
    by_cases hregs : RVInst.rs1 inst = 0 ∧ RVInst.rd inst = 0
    · rw [if_pos hregs]
      split
      case h_1 hrs2 =>
        exact decides_true proceeds_ecall ⟨hregs, .inl hrs2⟩
      case h_2 hrs2 =>
        exact decides_true (proceeds_raiseTrap (by decide) 0 rfl) ⟨hregs, .inr hrs2⟩
      case h_3 h0 h1 => exact decides_illegal fun h => h.2.elim h0 h1
    · rw [if_neg hregs]
      exact decides_illegal fun h => hregs h.1
  case h_2 hf7 =>
    have hiff : (NoRegs inst → RVInst.rs2 inst = 0b00010 ∧ SretDone s.core ∨
        RVInst.rs2 inst = 0b00101) ↔ PrivAccepts s.core inst := by simp [PrivAccepts, hf7]
    refine decides_iff hiff ?_
    by_cases hregs : RVInst.rs1 inst = 0 ∧ RVInst.rd inst = 0
    · rw [if_pos hregs]
      split
      case h_1 hrs2 =>
        have hdone : SretDone s.core ↔ (NoRegs inst → RVInst.rs2 inst = 0b00010 ∧
            SretDone s.core ∨ RVInst.rs2 inst = 0b00101) := by simp [NoRegs, hregs, hrs2]
        exact decides_iff hdone (decides_sret s)
      case h_2 hrs2 => exact decides_true (proceeds_pure rfl) fun _ => .inr hrs2
      case h_3 h2 h5 =>
        exact decides_illegal fun h => (h hregs).elim (fun h => h2 h.1) h5
    · rw [if_neg hregs]
      exact decides_true (proceeds_pure rfl) fun h => absurd h hregs
  case h_3 hf7 =>
    have hiff : (RVInst.rs2 inst = 0b00010 ∧ NoRegs inst) ∧ s.core.currentPrivMode = .mMode ↔
        PrivAccepts s.core inst := by simp [PrivAccepts, hf7]
    refine decides_iff hiff ?_
    by_cases hword : RVInst.rs2 inst = 0b00010 ∧ RVInst.rs1 inst = 0 ∧ RVInst.rd inst = 0
    · rw [if_pos hword]
      exact decides_iff ⟨fun h => ⟨hword, h⟩, fun h => h.2⟩ (decides_mret s)
    · rw [if_neg hword]
      exact decides_illegal fun h => hword h.1
  case h_4 hf7 =>
    have hiff : SfenceAllowed s.core ↔ PrivAccepts s.core inst := by simp [PrivAccepts, hf7]
    refine decides_iff hiff (decides_congr (bind_of_ok (getCore_run s)) ?_)
    exact decides_sfenceVma _ _ s
  case h_5 h0 h8 h24 h9 =>
    refine decides_illegal fun h => ?_
    rcases h with h | h | h | h
    · exact h0 h.1
    · exact h8 h.1
    · exact h24 h.1
    · exact h9 h.1

theorem decides_csrInstr {write : Bool} {newValue : BitVec 64 → Option (BitVec 64)}
    (s : Machine β) : Decides (s.core.csrOpPermissionCheck (field inst 20 12) write = true ∧
      ∃ old, s.core.csrRead (CSRAddr.ofNumber (field inst 20 12)) = some old ∧
        ∀ data, newValue old = some data →
          s.core.csrWrite data (CSRAddr.ofNumber (field inst 20 12)) ≠ .ok none)
    (csrInstr inst write newValue) s := by
  unfold csrInstr
  refine decides_congr (bind_of_ok (getCore_run s)) ?_
  cases hperm : s.core.csrOpPermissionCheck (field inst 20 12) write with
  | false => exact decides_illegal fun h => Bool.false_ne_true h.1
  | true =>
    cases hread : s.core.csrRead (CSRAddr.ofNumber (field inst 20 12)) with
    | none =>
      refine decides_illegal fun h => ?_
      obtain ⟨old, hold, -⟩ := h.2
      cases hold
    | some old =>
      dsimp only
      cases hval : newValue old with
      | none =>
        refine decides_true (proceeds_setGPR _ old) ⟨rfl, old, rfl, fun data hdata => ?_⟩
        rw [hval] at hdata
        cases hdata
      | some data =>
        dsimp only
        have hdata : ∀ data', newValue old = some data' → data' = data := fun data' h =>
          (Option.some.inj (hval.symm.trans h)).symm
        rcases hw : s.core.csrWrite data (CSRAddr.ofNumber (field inst 20 12)) with a | _ | c'
        · refine decides_true (fun s => rfl) ⟨rfl, old, rfl, fun data' h => ?_⟩
          rw [hdata data' h, hw]
          intro heq
          cases heq
        · refine decides_illegal fun h => ?_
          obtain ⟨old', hold, hwrite⟩ := h.2
          cases hold
          exact hwrite data hval hw
        · refine decides_true ?_ ⟨rfl, old, rfl, fun data' h => ?_⟩
          · exact proceeds_bind (harmless_modifyCore _) fun _ => proceeds_setGPR _ old
          · rw [hdata data' h, hw]
            intro heq
            cases heq

/-- What a CSR instruction hands to the common code. -/
def csrValue (c : RV64Core) (inst : BitVec 32) (op : CsrOp) (old : BitVec 64) :
    Option (BitVec 64) :=
  if op.writes (RVInst.rs1 inst) then some (op.newValue old (op.source c.gpr (RVInst.rs1 inst)))
  else none

/-- The CSR instruction of each `funct3`. -/
def execCsr (inst : BitVec 32) : CsrOp → Emu β ExecFlags
  | .rw => execCsrrw inst
  | .rs => execCsrrs inst
  | .rc => execCsrrc inst
  | .rwi => execCsrrwi inst
  | .rsi => execCsrrsi inst
  | .rci => execCsrrci inst

theorem execCsr_eq (op : CsrOp) (s : Machine β) : execCsr inst op s =
    csrInstr inst (op.writes (RVInst.rs1 inst)) (csrValue s.core inst op) s := by
  have hmask : ∀ g : BitVec 64 → BitVec 64,
      (fun v => if RVInst.rs1 inst ≠ 0 then some (g v) else none) =
        fun v => if (RVInst.rs1 inst != 0) = true then some (g v) else none := by
    intro g
    simp only [bne_iff_ne]
  cases op with
  | rw => rfl
  | rwi => rfl
  | rs =>
    show csrInstr inst _ (fun v => if RVInst.rs1 inst ≠ 0 then some _ else none) s = _
    rw [hmask fun v => v ||| s.core.gpr (RVInst.rs1 inst)]
    rfl
  | rc =>
    show csrInstr inst _ (fun v => if RVInst.rs1 inst ≠ 0 then some _ else none) s = _
    rw [hmask fun v => v &&& ~~~ s.core.gpr (RVInst.rs1 inst)]
    rfl
  | rsi =>
    show csrInstr inst _ (fun v => if RVInst.rs1 inst ≠ 0 then some _ else none) s = _
    rw [hmask fun v => v ||| (RVInst.rs1 inst).setWidth 64]
    rfl
  | rci =>
    show csrInstr inst _ (fun v => if RVInst.rs1 inst ≠ 0 then some _ else none) s = _
    rw [hmask fun v => v &&& ~~~ (RVInst.rs1 inst).setWidth 64]
    rfl

theorem decides_csr (op : CsrOp) (s : Machine β) :
    Decides (CsrAllowed s.core op (RVInst.rs1 inst) (field inst 20 12)) (execCsr inst op) s := by
  refine decides_congr (execCsr_eq op s) (decides_iff ?_ (decides_csrInstr s))
  refine and_congr_right fun _ => exists_congr fun old => and_congr_right fun _ => ?_
  unfold csrValue
  cases op.writes (RVInst.rs1 inst) with
  | false => exact ⟨fun _ => nofun, fun _ => nofun⟩
  | true => exact ⟨fun h _ => h _ rfl, fun h data hd => Option.some.inj hd ▸ h rfl⟩

/-- What the core accepts under SYSTEM. -/
def SystemAccepts (c : RV64Core) (w : BitVec 32) : Prop :=
  RVInst.funct3 w = 0b000 ∧ PrivAccepts c w ∨
    ∃ op, csrOpOf (RVInst.funct3 w) = some op ∧ CsrAllowed c op (RVInst.rs1 w) (field w 20 12)

theorem decides_system (s : Machine β) :
    Decides (SystemAccepts s.core inst) (execSystem inst) s := by
  have hcsr : ∀ op : CsrOp, RVInst.funct3 inst = op.funct3 →
      Decides (SystemAccepts s.core inst) (execCsr inst op) s := by
    intro op hf3
    have hne : op.funct3 ≠ 0b000 := by cases op <;> decide
    refine decides_iff ⟨fun h => .inr ⟨op, ?_, h⟩, fun h => ?_⟩ (decides_csr op s)
    · rw [hf3, csrOpOf_funct3]
    · rcases h with h | ⟨op', hop, h⟩
      · exact absurd (hf3.symm.trans h.1) hne
      · rw [hf3, csrOpOf_funct3] at hop
        cases hop
        exact h
  unfold execSystem
  split
  case h_1 hf3 =>
    refine decides_iff ⟨fun h => .inl ⟨hf3, h⟩, fun h => ?_⟩ (decides_priv s)
    rcases h with h | ⟨op, hop, -⟩
    · exact h.2
    · rw [hf3] at hop
      cases hop
  case h_2 hf3 => exact hcsr .rw hf3
  case h_3 hf3 => exact hcsr .rs hf3
  case h_4 hf3 => exact hcsr .rc hf3
  case h_5 hf3 => exact hcsr .rwi hf3
  case h_6 hf3 => exact hcsr .rsi hf3
  case h_7 hf3 => exact hcsr .rci hf3
  case h_8 h0 h1 h2 h3 h5 h6 h7 =>
    refine decides_illegal fun h => ?_
    rcases h with h | ⟨op, hop, -⟩
    · exact h0 h.1
    · have hf3 := funct3_csrOpOf hop
      cases op with
      | rw => exact h1 hf3.symm
      | rs => exact h2 hf3.symm
      | rc => exact h3 hf3.symm
      | rwi => exact h5 hf3.symm
      | rsi => exact h6 hf3.symm
      | rci => exact h7 hf3.symm

end System

/-! ## All opcodes -/

/-- The opcodes of which the words are looked at here. -/
def majors : List OpCode :=
  [.jalr, .load, .store, .branch, .op, .op32, .opImm, .opImm32, .amo, .system]

/-- What the core accepts: every JALR, and the shifts that its decoder takes. -/
def Accepts (c : RV64Core) (w : BitVec 32) : OpCode → Prop
  | .jalr => True
  | .opImm => decodeOpImm w ≠ none
  | .system => SystemAccepts c w
  | k => Fits w k

theorem decides_exec32 {inst : BitVec 32} {k : OpCode}
    (hop : OpCode.ofBits (RVInst.opcode inst) = some k) (hk : k ∈ majors) (s : Machine β) :
    Decides (Accepts s.core inst k) (exec32 inst) s := by
  unfold exec32
  rw [hop]
  cases k with
  | lui => exact absurd hk (by decide)
  | auipc => exact absurd hk (by decide)
  | jal => exact absurd hk (by decide)
  | fence => exact absurd hk (by decide)
  | jalr => exact decides_true proceeds_jalr trivial
  | branch => exact decides_branch s
  | load => exact decides_load s
  | store => exact decides_store s
  | opImm => exact decides_imm _ _ s
  | opImm32 => exact decides_imm _ _ s
  | op => exact decides_reg _ _ s
  | op32 => exact decides_reg _ _ s
  | amo => exact decides_amo s
  | system => exact decides_system s

end NextEmu.Simple.Refusal
