import NextEmu.Simple.Step

/-!
# What an instruction can do

Every instruction that returns has had one of three outcomes: it raised a trap
before it changed anything, it is illegal and has changed nothing, or it is done
and had one of a few effects on the core. Nothing has changed means that the core
is as it was and that the bus has seen no store that succeeded. `step` is taken
apart in the same way. What a trap keeps, what may change the mode and what each
mode can write to are read off these outcomes.
-/

namespace NextEmu.Simple.Outcomes

open NextEmu.Lib.AbortState NextEmu.Lib.BitField NextEmu.Sdk

variable {β : Type} [SlaveAtomicIOI β]

/-! ## Runs without a successful store -/

/-- The bus after loads, reservations, checks and stores that failed. -/
inductive Quiet : β → β → Prop
  | refl (b : β) : Quiet b b
  | load {b c : β} (h : Quiet b c) (a : Addr) (n : Nat) : Quiet b (SlaveIOI.load c a n).2
  | failedStore {b c : β} (h : Quiet b c) (a : Addr) (n : Nat) (x : BitVec (8 * n))
      (hf : (SlaveIOI.store c a n x).1 ≠ .success) : Quiet b (SlaveIOI.store c a n x).2
  | reserve {b c : β} (h : Quiet b c) (a : Addr) (n : Nat) (hart : BitVec 64) :
      Quiet b (SlaveAtomicIOI.reserve c a n hart)
  | check {b c : β} (h : Quiet b c) (a : Addr) (n : Nat) (hart : BitVec 64) :
      Quiet b (SlaveAtomicIOI.check c a n hart).2

theorem Quiet.trans {b c d : β} (h : Quiet b c) (h' : Quiet c d) : Quiet b d := by
  induction h' with
  | refl => exact h
  | load _ a n ih => exact .load ih a n
  | failedStore _ a n x hf ih => exact .failedStore ih a n x hf
  | reserve _ a n hart ih => exact .reserve ih a n hart
  | check _ a n hart ih => exact .check ih a n hart

/-- The events that say what was fetched and which traps were raised. -/
def notable : Event β → Bool
  | .fetched _ | .trap _ _ => true
  | _ => false

def log (tr : List (Event β)) : List (Event β) := tr.filter notable

/-- The traps of a trace and the words it fetched. -/
def traps (tr : List (Event β)) : List (Cause × BitVec 64) :=
  tr.filterMap fun e => match e with
    | .trap cause tval => some (cause, tval)
    | _ => none

def fetches (tr : List (Event β)) : List (BitVec 32) :=
  tr.filterMap fun e => match e with
    | .fetched inst => some inst
    | _ => none

/-- Nothing notable, and the core as it was. -/
structure Stored (s t : Machine β) : Prop where
  core : t.core = s.core
  log : log t.trace = log s.trace

/-- The same without a successful store. -/
structure Silent (s t : Machine β) : Prop extends Stored s t where
  bus : Quiet s.bus t.bus

/-- One trap, and nothing else. -/
structure Trapped (s t : Machine β) (cause : Cause) (tval : BitVec 64) : Prop where
  core : t.core = s.core.trapped cause tval
  log : log t.trace = .trap cause tval :: log s.trace
  bus : Quiet s.bus t.bus

section Log

variable {tr : List (Event β)}

omit [SlaveAtomicIOI β] in
theorem mem_traps {cause : Cause} {tval : BitVec 64} :
    (cause, tval) ∈ traps tr ↔ .trap cause tval ∈ log tr := by
  simp only [traps, log, List.mem_filterMap, List.mem_filter]
  constructor
  · rintro ⟨e, he, hs⟩
    cases e <;> cases hs
    exact ⟨he, rfl⟩
  · rintro ⟨he, -⟩
    exact ⟨_, he, rfl⟩

omit [SlaveAtomicIOI β] in
theorem mem_fetches {inst : BitVec 32} : inst ∈ fetches tr ↔ .fetched inst ∈ log tr := by
  simp only [fetches, log, List.mem_filterMap, List.mem_filter]
  constructor
  · rintro ⟨e, he, hs⟩
    cases e <;> cases hs
    exact ⟨he, rfl⟩
  · rintro ⟨he, -⟩
    exact ⟨_, he, rfl⟩

omit [SlaveAtomicIOI β] in
/-- The log of a trace has the traps of the trace, and its fetches. -/
theorem traps_log (tr : List (Event β)) : traps (log tr) = traps tr := by
  unfold traps log
  rw [List.filterMap_filter]
  refine congrArg (List.filterMap · tr) (funext fun e => ?_)
  cases e <;> rfl

omit [SlaveAtomicIOI β] in
theorem fetches_log (tr : List (Event β)) : fetches (log tr) = fetches tr := by
  unfold fetches log
  rw [List.filterMap_filter]
  refine congrArg (List.filterMap · tr) (funext fun e => ?_)
  cases e <;> rfl

end Log

section Relations

variable {s t u : Machine β}

theorem Silent.refl (s : Machine β) : Silent s s := ⟨⟨rfl, rfl⟩, .refl _⟩

theorem Silent.trans (h : Silent s t) (h' : Silent t u) : Silent s u :=
  ⟨⟨h'.core.trans h.core, h'.log.trans h.log⟩, h.bus.trans h'.bus⟩

theorem Silent.stored (h : Silent s t) (h' : Stored t u) : Stored s u :=
  ⟨h'.core.trans h.core, h'.log.trans h.log⟩

theorem Trapped.raised {cause : Cause} {tval : BitVec 64} (h : Trapped s t cause tval) :
    (cause, tval) ∈ traps t.trace := by
  rw [mem_traps, h.log]
  exact List.mem_cons_self

theorem Silent.trapped {cause : Cause} {tval : BitVec 64} (h : Silent s t)
    (h' : Trapped t u cause tval) : Trapped s u cause tval :=
  ⟨by rw [h'.core, h.core], by rw [h'.log, h.log], h.bus.trans h'.bus⟩

end Relations

/-! ## The commands under an instruction -/

/-- A command that is silent unless it ends with an answer that is `ok`. -/
def Careful {ρ : Type} (ok : ρ → Prop) (x : Emu β ρ) : Prop :=
  ∀ s, wp x (fun r t => Stored s t ∧ (¬ ok r → Silent s t)) (fun _ _ => True) s

/-- A command that is silent whatever it ends with. -/
abbrev IsSilent {ρ : Type} (x : Emu β ρ) : Prop := Careful (fun _ => False) x

section Rules

variable {ρ α : Type} {ok : ρ → Prop}

theorem isSilent_of {x : Emu β ρ} (h : ∀ s, wp x (fun _ t => Silent s t) (fun _ _ => True) s) :
    IsSilent x :=
  fun s => wp_mono (h s) (fun _ _ ht => ⟨ht.toStored, fun _ => ht⟩) (fun _ _ _ => trivial)

theorem IsSilent.wp {x : Emu β ρ} (h : IsSilent x) (s : Machine β) :
    wp x (fun _ t => Silent s t) (fun _ _ => True) s :=
  wp_mono (h s) (fun _ _ ht => ht.2 id) (fun _ _ _ => trivial)

theorem IsSilent.careful {x : Emu β ρ} (h : IsSilent x) : Careful ok x :=
  fun s => wp_mono (h.wp s) (fun _ _ ht => ⟨ht.toStored, fun _ => ht⟩) (fun _ _ _ => trivial)

theorem careful_pure (r : ρ) : Careful (β := β) ok (pure r) :=
  fun s => ⟨⟨rfl, rfl⟩, fun _ => Silent.refl s⟩

theorem careful_bind {x : Emu β α} {f : α → Emu β ρ} (hx : IsSilent x)
    (hf : ∀ a, Careful ok (f a)) : Careful ok (x >>= f) := by
  intro s
  rw [wp_bind]
  refine wp_mono (hx.wp s) (fun a t ht => ?_) (fun _ _ _ => trivial)
  exact wp_mono (hf a t) (fun r u hu => ⟨ht.stored hu.1, fun hr => ht.trans (hu.2 hr)⟩)
    (fun _ _ _ => trivial)

theorem careful_ite {c : Prop} [Decidable c] {x y : Emu β ρ} (hx : Careful ok x)
    (hy : Careful ok y) : Careful ok (if c then x else y) := by
  split
  · exact hx
  · exact hy

theorem careful_throw (e : Assertion) : Careful (β := β) ok (throw e) := fun _ => trivial

theorem silent_getCore : IsSilent (β := β) getCore := isSilent_of Silent.refl

theorem silent_get : IsSilent (β := β) get := isSilent_of Silent.refl

theorem silent_assertThat (p : Prop) [Decidable p] (a : Assertion) :
    IsSilent (β := β) (assertThat p a) := careful_ite (careful_pure ()) (careful_throw a)

theorem silent_doLoadAs {e : Event β} (he : notable e = false) (a : Addr) (n : Nat) :
    IsSilent (doLoadAs e a n) := by
  refine isSilent_of fun s => ⟨⟨rfl, ?_⟩, .load (.refl _) a n⟩
  exact List.filter_cons_of_neg (by simp [he])

theorem silent_doLoad (a : Addr) (n : Nat) : IsSilent (β := β) (doLoad a n) :=
  silent_doLoadAs rfl a n

theorem silent_doReserve (a : Addr) (n : Nat) : IsSilent (β := β) (doReserve a n) :=
  isSilent_of fun _ => ⟨⟨rfl, rfl⟩, .reserve (.refl _) a n _⟩

theorem silent_doCheck (a : Addr) (n : Nat) : IsSilent (β := β) (doCheck a n) :=
  isSilent_of fun _ => ⟨⟨rfl, rfl⟩, .check (.refl _) a n _⟩

/-- A careful command and an end that keeps its answer. -/
theorem careful_map {ok' : α → Prop} {x : Emu β α} {f : α → Emu β ρ} (hx : Careful ok' x)
    (hf : ∀ a s, wp (f a) (fun r t => t = s ∧ (¬ ok r → ¬ ok' a)) (fun _ _ => True) s) :
    Careful ok (x >>= f) := by
  intro s
  rw [wp_bind]
  refine wp_mono (hx s) (fun a t ht => ?_) (fun _ _ _ => trivial)
  refine wp_mono (hf a t) (fun r u hu => ?_) (fun _ _ _ => trivial)
  obtain ⟨rfl, hr⟩ := hu
  exact ⟨ht.1, fun h => ht.2 (hr h)⟩

/-- A store of which the answer tells whether it succeeded. -/
theorem careful_store (a : Addr) (n : Nat) (data : BitVec (8 * n)) {f : Feedback → ρ}
    (hf : ∀ fb, ¬ ok (f fb) → fb ≠ .success) :
    Careful (β := β) ok (do return f (← doStore a n data)) := by
  intro s
  rw [wp_bind, wp_doStore]
  exact ⟨⟨rfl, rfl⟩, fun hr => ⟨⟨rfl, rfl⟩, .failedStore (.refl _) a n data (hf _ hr)⟩⟩

end Rules

/-! ## Translation and the access paths -/

section Paths

variable {ρ : Type} {ok : ρ → Prop}

theorem silent_lookupLoop (va : BitVec 64) (slots : List (Fin 32)) :
    ∀ found, IsSilent (β := β) (lookupLoop va slots found) := by
  induction slots with
  | nil => exact fun found => careful_pure found
  | cons i rest ih =>
    intro found
    refine careful_bind silent_get fun s => careful_ite ?_ (ih found)
    exact careful_bind (silent_assertThat _ _) fun _ => ih (some i)

theorem silent_getTLBIndexToSwapOut : IsSilent (β := β) getTLBIndexToSwapOut :=
  isSilent_of fun _ => ⟨⟨rfl, rfl⟩, .refl _⟩

theorem silent_setTLB (i : Fin 32) (e : TLBEntry) : IsSilent (β := β) (setTLB i e) :=
  isSilent_of fun _ => ⟨⟨rfl, rfl⟩, .refl _⟩

-- the rules take a program apart by its syntax, and need not run it
attribute [local irreducible] wp in
theorem silent_writeTLB (pte pageSize va : BitVec 64) :
    IsSilent (β := β) (writeTLB pte pageSize va) := by
  refine careful_bind silent_getTLBIndexToSwapOut fun i => ?_
  refine careful_bind (silent_assertThat _ _) fun _ => ?_
  refine careful_bind (silent_assertThat _ _) fun _ => ?_
  refine careful_bind (silent_assertThat _ _) fun _ => ?_
  refine careful_bind (silent_assertThat _ _) fun _ => careful_bind silent_getCore fun c => ?_
  exact careful_bind (silent_setTLB _ _) fun _ => careful_pure _

theorem silent_loadPTE (a : Addr) : IsSilent (β := β) (loadPTE a) :=
  careful_bind (silent_doLoadAs rfl a 8) fun _ =>
    careful_bind (silent_assertThat _ _) fun _ => careful_pure _

attribute [local irreducible] wp in
theorem silent_walkTables (va : BitVec 64) : IsSilent (β := β) (walkTables va) := by
  have hleaf : ∀ pte size, IsSilent (β := β) (do return some (← writeTLB pte size va)) :=
    fun pte size => careful_bind (silent_writeTLB pte size va) fun _ => careful_pure _
  refine careful_bind silent_getCore fun c => careful_ite (careful_pure _) ?_
  refine careful_bind (silent_loadPTE _) fun l2Pte => careful_ite (hleaf _ _) ?_
  refine careful_ite (careful_pure _) (careful_bind (silent_assertThat _ _) fun _ => ?_)
  refine careful_bind (silent_loadPTE _) fun l1Pte => careful_ite (hleaf _ _) ?_
  refine careful_ite (careful_pure _) (careful_bind (silent_assertThat _ _) fun _ => ?_)
  exact careful_bind (silent_loadPTE _) fun l0Pte => careful_ite (hleaf _ _) (careful_pure _)

theorem silent_getTLBEntry (va : BitVec 64) : IsSilent (β := β) (getTLBEntry va) := by
  have hemit : ∀ s : Machine β, IsSilent (emit (.translate va s.mmu s.core.satp s.bus)) :=
    fun _ => isSilent_of fun _ => ⟨⟨rfl, rfl⟩, .refl _⟩
  refine careful_bind silent_get fun s => careful_bind (hemit s) fun _ => ?_
  refine careful_bind (silent_assertThat _ _) fun _ => ?_
  refine careful_bind (silent_lookupLoop va _ none) fun found => ?_
  cases found with
  | some i => exact careful_pure _
  | none => exact silent_walkTables va

theorem careful_pagedAccess {va : BitVec 64} {n : Nat} {crossPage noEntry : ρ}
    {refuse : RV64Core → TLBEntry → Option ρ} {act : Addr → Emu β ρ}
    (hact : ∀ pa, Careful ok (act pa)) :
    Careful ok (pagedAccess va n crossPage noEntry refuse act) := by
  refine careful_ite (careful_pure _) (careful_bind (silent_getTLBEntry va) fun found => ?_)
  cases found with
  | none => exact careful_pure _
  | some e =>
    refine careful_bind silent_getCore fun c => ?_
    cases refuse c e with
    | some code => exact careful_pure _
    | none => exact careful_bind (silent_assertThat _ _) fun _ => hact _

theorem silent_physRead (pa : Addr) (n : Nat) : IsSilent (β := β) (physRead pa n) :=
  careful_bind (silent_doLoad pa n) fun _ => careful_pure _

theorem silent_read (va : BitVec 64) (n : Nat) :
    IsSilent (β := β) (vaddrReadBufferMMUAPI va n) :=
  careful_bind silent_getCore fun _ =>
    careful_ite (silent_physRead va n) (careful_pagedAccess fun pa => silent_physRead pa n)

theorem silent_instFetchPart (va : BitVec 64) (n : Nat) :
    IsSilent (β := β) (instFetchPart va n) :=
  careful_bind (silent_assertThat _ _) fun _ => careful_bind silent_getCore fun _ =>
    careful_ite (silent_physRead va n) (careful_pagedAccess fun pa => silent_physRead pa n)

theorem silent_instFetch (va : BitVec 64) (n : Nat) :
    IsSilent (β := β) (vaddrInstFetchMMUAPI va n) := by
  refine careful_bind (silent_assertThat _ _) fun _ => careful_ite ?_ (silent_instFetchPart va n)
  refine careful_bind (silent_instFetchPart va 2) fun low => careful_ite (careful_pure _) ?_
  exact careful_bind (silent_instFetchPart (va + 2) 2) fun high =>
    careful_ite (careful_pure _) (careful_pure _)

theorem careful_physWrite {okFb fault : ρ} (hok : ok okFb)
    (pa : Addr) (n : Nat) (data : BitVec (8 * n)) :
    Careful (β := β) ok (physWrite okFb fault pa n data) := by
  refine careful_store pa n data fun fb hr hs => hr ?_
  rwa [if_pos hs]

theorem careful_write (va : BitVec 64) (n : Nat) (data : BitVec (8 * n)) :
    Careful (β := β) (· = .accessOk) (vaddrWriteBufferMMUAPI va n data) := by
  refine careful_bind silent_getCore fun _ => careful_ite (careful_physWrite (by rfl) va n data) ?_
  refine careful_pagedAccess fun pa => ?_
  exact careful_physWrite (by rfl) pa n data

theorem silent_physLoadReserved (pa : Addr) (n : Nat) :
    IsSilent (β := β) (physLoadReserved pa n) :=
  careful_bind (silent_doReserve pa n) fun _ =>
    careful_bind (silent_doLoad pa n) fun _ => careful_pure _

theorem silent_loadReserved (va : BitVec 64) (n : Nat) :
    IsSilent (β := β) (vaddrLoadReserved va n) :=
  careful_bind silent_getCore fun _ =>
    careful_ite (silent_physLoadReserved va n)
      (careful_pagedAccess fun pa => silent_physLoadReserved pa n)

theorem careful_physStoreConditional (fault : BitVec 63) (pa : Addr) (n : Nat)
    (data : BitVec (8 * n)) :
    Careful (β := β) (·.1 = Exec.ok) (physStoreConditional fault pa n data) := by
  refine careful_bind (silent_doCheck pa n) fun _ => careful_ite (careful_pure _) ?_
  refine careful_store pa n data fun fb hr hs => hr ?_
  rw [if_pos hs]

theorem careful_storeConditional (va : BitVec 64) (n : Nat) (data : BitVec (8 * n)) :
    Careful (β := β) (·.1 = Exec.ok) (vaddrStoreConditional va n data) :=
  careful_bind silent_getCore fun _ =>
    careful_ite (careful_physStoreConditional _ va n data)
      (careful_pagedAccess fun pa => careful_physStoreConditional _ pa n data)

theorem silent_amoLoad (pa : Addr) (n : Nat) : IsSilent (β := β) (amoLoad pa n) :=
  careful_ite (careful_bind (silent_doLoad pa 4) fun _ => careful_pure _)
    (careful_bind (silent_doLoad pa 8) fun _ => careful_pure _)

theorem careful_paAmoOp (pa : Addr) (n : Nat) (op : AMOFunct) (src : BitVec 64) :
    Careful (β := β) (·.1 = true) (paAmoOp pa n op src) := by
  refine careful_bind (silent_amoLoad pa n) fun r => careful_ite (careful_pure _) ?_
  cases amoResult op src r.2 with
  | none => exact careful_throw _
  | some toWrite => exact careful_store pa n _ fun fb hr hs => hr (decide_eq_true hs)

theorem careful_physAmo (pa : Addr) (n : Nat) (op : AMOFunct) (src : BitVec 64) :
    Careful (β := β) (·.1 = Exec.ok) (physAmo pa n op src) := by
  refine careful_map (careful_paAmoOp pa n op src) fun r s => ⟨rfl, fun hr hok => hr ?_⟩
  rw [if_pos hok]

theorem careful_amo (va : BitVec 64) (n : Nat) (op : AMOFunct) (src : BitVec 64) :
    Careful (β := β) (·.1 = Exec.ok) (vaddrAtomicMemOperation va n op src) :=
  careful_bind (silent_assertThat _ _) fun _ => careful_bind silent_getCore fun _ =>
    careful_ite (careful_physAmo va n op src)
      (careful_pagedAccess fun pa => careful_physAmo pa n op src)

end Paths

/-! ## Traps and memory instructions -/

section Traps

variable {s : Machine β}

theorem raiseTrap_trapped (cause : Cause) (tval : BitVec 64) (s : Machine β) :
    wp (raiseTrap cause tval) (fun _ t => Trapped s t cause tval) (fun _ _ => True) s := by
  unfold raiseTrap
  simp only [wp_bind, wp_emit, wp_getCore, wp_assertThat, wp_modifyCore, implies_true, and_true]
  exact fun _ _ _ => ⟨rfl, rfl, .refl _⟩

omit [SlaveAtomicIOI β] in
/-- A trap that no assertion stops. -/
theorem raiseTrap_run {cause : Cause} (hn : s.core.needTrap = false) (hok : cause.cause ≠ Exec.ok)
    (hfetch : cause.cause ≠ Exec.instrPgfault) (tval : BitVec 64) :
    raiseTrap cause tval s = .ok ()
      { s with core := s.core.trapped cause tval, trace := .trap cause tval :: s.trace } := by
  unfold raiseTrap
  rw [bind_of_ok (emit_run _ _), bind_of_ok (getCore_run _), assert_bind hn, assert_bind hok,
    bind_of_ok (modifyCore_run _ _), bind_of_ok (getCore_run _)]
  unfold assertThat
  rw [if_pos fun h => hfetch h.1]
  rfl

/-- The same after a silent prefix. -/
theorem raiseTrap_after {t : Machine β} (h : Silent s t) (cause : Cause) (tval : BitVec 64) :
    wp (raiseTrap cause tval) (fun _ u => Trapped s u cause tval) (fun _ _ => True) t :=
  wp_mono (raiseTrap_trapped cause tval t) (fun _ _ hu => h.trapped hu) (fun _ _ _ => trivial)

/-- A read hands out a value or has raised a trap. -/
theorem memRead_outcome (va : BitVec 64) (n : Nat) (s : Machine β) :
    wp (memRead va n) (fun r t => match r with
      | some _ => Silent s t
      | none => ∃ cause tval, Trapped s t cause tval) (fun _ _ => True) s := by
  unfold memRead
  rw [wp_ite]
  refine ⟨fun _ => ?_, fun _ => ?_⟩
  · rw [wp_bind]
    exact wp_mono (raiseTrap_trapped _ va s) (fun _ t ht => ⟨_, _, ht⟩) (fun _ _ _ => trivial)
  · rw [wp_bind]
    refine wp_mono ((silent_read va n).wp s) (fun r t ht => ?_) (fun _ _ _ => trivial)
    simp only [wp_ite, wp_pure, wp_bind, wp_assertThat]
    refine ⟨fun _ => ht, fun _ => ⟨fun _ => ?_, fun _ => trivial⟩⟩
    exact wp_mono (raiseTrap_after ht _ va) (fun _ u hu => ⟨_, _, hu⟩) (fun _ _ _ => trivial)

/-- A write is done or has raised a trap. -/
theorem memWrite_outcome (va : BitVec 64) (n : Nat) (src : BitVec 64) (s : Machine β) :
    wp (memWrite va n src) (fun _ t => Stored s t ∨ ∃ cause tval, Trapped s t cause tval)
      (fun _ _ => True) s := by
  unfold memWrite
  rw [wp_ite]
  refine ⟨fun _ => ?_, fun _ => ?_⟩
  · rw [wp_bind]
    exact wp_mono (raiseTrap_trapped _ va s) (fun _ t ht => .inr ⟨_, _, ht⟩) (fun _ _ _ => trivial)
  · rw [wp_bind]
    refine wp_mono (careful_write va n _ s) (fun r t ht => ?_) (fun _ _ _ => trivial)
    simp only [wp_ite, wp_pure, wp_bind, wp_assertThat]
    refine ⟨fun _ => .inl ht.1, fun hr => ⟨fun _ => ?_, fun _ => trivial⟩⟩
    exact wp_mono (raiseTrap_after (ht.2 hr) _ va) (fun _ u hu => .inr ⟨_, _, hu⟩)
      (fun _ _ _ => trivial)

end Traps

/-! ## Instructions -/

/-- What an instruction that is done has done to the core. -/
inductive Effect (inst : BitVec 32) (c : RV64Core) : RV64Core → Prop
  | gpr (rd : BitVec 5) (value : BitVec 64) : Effect inst c (c.setGPR rd value)
  | jump (rd : BitVec 5) (value pc : BitVec 64) :
      Effect inst c { c.setGPR rd value with currentProgramCounter := pc }
  | csr (n : BitVec 12) (data : BitVec 64) (c' : RV64Core) (rd : BitVec 5) (value : BitVec 64)
      (permitted : c.csrOpPermissionCheck n true = true)
      (written : c.csrWrite data (CSRAddr.ofNumber n) = .ok (some c')) :
      Effect inst c (c'.setGPR rd value)
  | mret (hinst : inst = 0x30200073) (hmode : c.currentPrivMode = .mMode) :
      Effect inst c c.returnedM
  | sret (hinst : inst = 0x10200073)
      (hmode : PrivMode.sMode.level ≤ c.currentPrivMode.level) : Effect inst c c.returnedS

/-- The three outcomes of an instruction. -/
inductive Outcome (inst : BitVec 32) (s : Machine β) (flags : ExecFlags) (t : Machine β) : Prop
  | trapped (cause : Cause) (tval : BitVec 64) (trap : Trapped s t cause tval)
      (legal : flags.isInstrIllegal = false)
  | illegal (silent : Silent s t) (illegal : flags.isInstrIllegal = true)
  | done (effect : Effect inst s.core t.core) (log : log t.trace = log s.trace)
      (legal : flags.isInstrIllegal = false)

/-- An instruction of which every run that returns has one of the outcomes. -/
def Executes (inst : BitVec 32) (x : Emu β ExecFlags) : Prop :=
  ∀ s, wp x (Outcome inst s) (fun _ _ => True) s

/-- The effects that are not those of a SYSTEM instruction. -/
inductive PlainEffect (c : RV64Core) : RV64Core → Prop
  | gpr (rd : BitVec 5) (value : BitVec 64) : PlainEffect c (c.setGPR rd value)
  | jump (rd : BitVec 5) (value pc : BitVec 64) :
      PlainEffect c { c.setGPR rd value with currentProgramCounter := pc }

inductive PlainOutcome (s : Machine β) (flags : ExecFlags) (t : Machine β) : Prop
  | trapped (cause : Cause) (tval : BitVec 64) (trap : Trapped s t cause tval)
      (legal : flags.isInstrIllegal = false)
  | illegal (silent : Silent s t) (illegal : flags.isInstrIllegal = true)
  | done (effect : PlainEffect s.core t.core) (log : log t.trace = log s.trace)
      (legal : flags.isInstrIllegal = false)

/-- An instruction that writes no more than a register and the PC. -/
def Plain (x : Emu β ExecFlags) : Prop :=
  ∀ s, wp x (PlainOutcome s) (fun _ _ => True) s

/-- What a CSR instruction hands to `csrWrite`: none when it only reads, or the read fails. -/
def csrWritten (c : RV64Core) (inst : BitVec 32) : Option (BitVec 64) :=
  let rs1 := RVInst.rs1 inst
  match c.csrRead (CSRAddr.ofNumber (field inst 20 12)) with
  | none => none
  | some v =>
    match RVInst.funct3 inst with
    | 0b001 => some (c.gpr rs1)
    | 0b010 => if rs1 ≠ 0 then some (v ||| c.gpr rs1) else none
    | 0b011 => if rs1 ≠ 0 then some (v &&& ~~~ c.gpr rs1) else none
    | 0b101 => some (rs1.setWidth 64)
    | 0b110 => if rs1 ≠ 0 then some (v ||| rs1.setWidth 64) else none
    | 0b111 => if rs1 ≠ 0 then some (v &&& ~~~ rs1.setWidth 64) else none
    | _ => none

/-- The effects of a SYSTEM instruction. -/
inductive SystemEffect (inst : BitVec 32) (c : RV64Core) : RV64Core → Prop
  | plain {c' : RV64Core} (effect : PlainEffect c c') : SystemEffect inst c c'
  | csr (data : BitVec 64) (c' : RV64Core) (value : BitVec 64)
      (permitted : c.csrOpPermissionCheck (field inst 20 12) true = true)
      (data_eq : csrWritten c inst = some data)
      (written : c.csrWrite data (CSRAddr.ofNumber (field inst 20 12)) = .ok (some c')) :
      SystemEffect inst c (c'.setGPR (RVInst.rd inst) value)
  | mret (hinst : inst = 0x30200073) (hmode : c.currentPrivMode = .mMode) :
      SystemEffect inst c c.returnedM
  | sret (hinst : inst = 0x10200073)
      (hmode : PrivMode.sMode.level ≤ c.currentPrivMode.level) : SystemEffect inst c c.returnedS

inductive SystemOutcome (inst : BitVec 32) (s : Machine β) (flags : ExecFlags) (t : Machine β) :
    Prop
  | trapped (cause : Cause) (tval : BitVec 64) (trap : Trapped s t cause tval)
      (legal : flags.isInstrIllegal = false)
  | illegal (silent : Silent s t) (illegal : flags.isInstrIllegal = true)
  | done (effect : SystemEffect inst s.core t.core) (log : log t.trace = log s.trace)
      (legal : flags.isInstrIllegal = false)

def System (inst : BitVec 32) (x : Emu β ExecFlags) : Prop :=
  ∀ s, wp x (SystemOutcome inst s) (fun _ _ => True) s

section Instructions

variable {inst : BitVec 32} {s : Machine β}

theorem setGPR_zero (c : RV64Core) (value : BitVec 64) : c.setGPR 0 value = c := rfl

theorem setGPR_needTrap (c : RV64Core) (rd : BitVec 5) (value : BitVec 64) :
    (c.setGPR rd value).needTrap = c.needTrap := by
  unfold RV64Core.setGPR
  split <;> rfl

/-- Nothing to be done. -/
theorem PlainEffect.keep (c : RV64Core) : PlainEffect c c := .gpr 0 0

theorem PlainEffect.effect {c c' : RV64Core} (h : PlainEffect c c') : Effect inst c c' := by
  cases h with
  | gpr rd value => exact .gpr rd value
  | jump rd value pc => exact .jump rd value pc

theorem SystemEffect.effect {c c' : RV64Core} (h : SystemEffect inst c c') :
    Effect inst c c' := by
  cases h with
  | plain effect => exact effect.effect
  | csr data c' value permitted data_eq written => exact .csr _ data c' _ value permitted written
  | mret hinst hmode => exact .mret hinst hmode
  | sret hinst hmode => exact .sret hinst hmode

theorem Plain.executes {x : Emu β ExecFlags} (h : Plain x) : Executes inst x := by
  refine fun s => wp_mono (h s) (fun flags t ho => ?_) (fun _ _ _ => trivial)
  cases ho with
  | trapped cause tval trap legal => exact .trapped cause tval trap legal
  | illegal silent hf => exact .illegal silent hf
  | done effect hlog legal => exact .done effect.effect hlog legal

theorem Plain.system {x : Emu β ExecFlags} (h : Plain x) : System inst x := by
  refine fun s => wp_mono (h s) (fun flags t ho => ?_) (fun _ _ _ => trivial)
  cases ho with
  | trapped cause tval trap legal => exact .trapped cause tval trap legal
  | illegal silent hf => exact .illegal silent hf
  | done effect hlog legal => exact .done (.plain effect) hlog legal

theorem System.executes {x : Emu β ExecFlags} (h : System inst x) : Executes inst x := by
  refine fun s => wp_mono (h s) (fun flags t ho => ?_) (fun _ _ _ => trivial)
  cases ho with
  | trapped cause tval trap legal => exact .trapped cause tval trap legal
  | illegal silent hf => exact .illegal silent hf
  | done effect hlog legal => exact .done effect.effect hlog legal

theorem plain_retired : Plain (β := β) (pure retired) :=
  fun s => .done (.keep s.core) rfl rfl

theorem plain_illegal : Plain (β := β) (pure instrIllegal) :=
  fun s => .illegal (.refl s) rfl

theorem plain_bind_getCore {f : RV64Core → Emu β ExecFlags}
    (h : ∀ c, Plain (f c)) : Plain (getCore >>= f) :=
  fun s => h s.core s

theorem plain_ite {p : Prop} [Decidable p] {x y : Emu β ExecFlags} (hx : Plain x)
    (hy : Plain y) : Plain (if p then x else y) := by
  split
  · exact hx
  · exact hy

theorem plain_assert {p : Prop} [Decidable p] {a : Assertion} {f : Unit → Emu β ExecFlags}
    (h : Plain (f ())) : Plain (assertThat p a >>= f) := by
  intro s
  rw [wp_bind, wp_assertThat]
  exact ⟨fun _ => h s, fun _ => trivial⟩

theorem plain_setGPR (rd : BitVec 5) (value : BitVec 64) :
    Plain (β := β) (do setGPR rd value; return retired) :=
  fun _ => .done (.gpr rd value) rfl rfl

theorem plain_raiseTrap (cause : Cause) (tval : BitVec 64) {flags : ExecFlags}
    (hf : flags.isInstrIllegal = false) :
    Plain (β := β) (do raiseTrap cause tval; return flags) := by
  intro s
  rw [wp_bind]
  exact wp_mono (raiseTrap_trapped cause tval s) (fun _ t ht => .trapped cause tval ht hf)
    (fun _ _ _ => trivial)

/-- The end of an instruction behind a silent prefix. -/
theorem PlainOutcome.after {flags : ExecFlags} {t u : Machine β} (h : Silent s t)
    (ho : PlainOutcome t flags u) : PlainOutcome s flags u := by
  cases ho with
  | trapped cause tval trap legal => exact .trapped cause tval (h.trapped trap) legal
  | illegal silent hf => exact .illegal (h.trans silent) hf
  | done effect hlog legal => exact .done (h.core ▸ effect) (hlog.trans h.log) legal

theorem plain_jumpTo (npc : BitVec 64) (link : Option (BitVec 5 × BitVec 64)) :
    Plain (β := β) (jumpTo npc link) := by
  refine plain_ite (plain_raiseTrap _ npc rfl) fun s => ?_
  cases link with
  | none => exact .done (.jump 0 0 npc) rfl rfl
  | some l => exact .done (.jump l.1 l.2 npc) rfl rfl

theorem plain_loadGPR (va : BitVec 64) (n : Nat) (ext : BitVec (8 * n) → BitVec 64)
    (rd : BitVec 5) : Plain (β := β) (loadGPR va n ext rd) := by
  intro s
  unfold loadGPR
  rw [wp_bind]
  refine wp_mono (memRead_outcome va n s) (fun r t ht => ?_) (fun _ _ _ => trivial)
  cases r with
  | some buf => exact .after ht (.done (.gpr rd (ext buf)) rfl rfl)
  | none =>
    obtain ⟨cause, tval, htrap⟩ := ht
    exact .trapped cause tval htrap rfl

theorem plain_memWrite (va : BitVec 64) (n : Nat) (src : BitVec 64) :
    Plain (β := β) (do memWrite va n src; return retired) := by
  intro s
  rw [wp_bind]
  refine wp_mono (memWrite_outcome va n src s) (fun _ t ht => ?_) (fun _ _ _ => trivial)
  rcases ht with ht | ⟨cause, tval, htrap⟩
  · exact .done (ht.core ▸ .keep t.core) ht.log rfl
  · exact .trapped cause tval htrap rfl

theorem plain_aluGPR (rd : BitVec 5) (a b : BitVec 64) (op : ALUOp) (op32 : Bool) :
    Plain (β := β) (aluGPR rd a b op op32) := by
  unfold aluGPR aluExec
  cases aluValue a b op op32 with
  | some result => exact plain_setGPR rd result
  | none => exact fun _ => trivial

/-- The end of an atomic instruction behind a path that stores only when it succeeds. -/
theorem plain_amoEnd {ρ : Type} {x : Emu β (BitVec 63 × ρ)} (hx : Careful (·.1 = Exec.ok) x)
    (addr : BitVec 64) (rd : BitVec 5) (result : ρ → BitVec 64) :
    Plain (do
      let r ← x
      amoEnd r.1 addr rd (result r.2)) := by
  intro s
  rw [wp_bind]
  refine wp_mono (hx s) (fun r t ht => ?_) (fun _ _ _ => trivial)
  unfold amoEnd
  dsimp only
  rw [wp_ite]
  refine ⟨fun _ => ?_, fun hr => ?_⟩
  · exact .done (ht.1.core ▸ .gpr rd (result r.2)) ht.1.log rfl
  · rw [wp_bind]
    exact wp_mono (raiseTrap_after (ht.2 hr) _ addr) (fun _ u hu => .trapped _ _ hu rfl)
      (fun _ _ _ => trivial)

/-! The 32-bit instructions. -/

theorem plain_execJalr : Plain (β := β) (execJalr inst) := by
  refine plain_bind_getCore fun c => ?_
  exact plain_assert (plain_jumpTo _ _)

theorem plain_execBranch : Plain (β := β) (execBranch inst) := by
  refine plain_bind_getCore fun c => ?_
  split
  · exact plain_illegal
  · exact plain_retired
  · exact plain_ite (plain_raiseTrap _ _ rfl) fun s => .done (.jump 0 0 _) rfl rfl

theorem plain_execLoad : Plain (β := β) (execLoad inst) := by
  refine plain_bind_getCore fun c => ?_
  dsimp only
  split
  case h_8 => exact plain_illegal
  all_goals exact plain_loadGPR _ _ _ _

theorem plain_execStore : Plain (β := β) (execStore inst) := by
  refine plain_bind_getCore fun c => ?_
  dsimp only
  split
  case h_5 => exact plain_illegal
  all_goals exact plain_memWrite _ _ _

theorem plain_execImm (decoded : Option (ALUOp × BitVec 64)) (op32 : Bool) :
    Plain (β := β) (execImm decoded op32 inst) := by
  cases decoded with
  | none => exact plain_illegal
  | some d => exact plain_bind_getCore fun c => plain_aluGPR _ _ _ _ _

theorem plain_execReg (decoded : Option ALUOp) (op32 : Bool) :
    Plain (β := β) (execReg decoded op32 inst) := by
  cases decoded with
  | none => exact plain_illegal
  | some op => exact plain_bind_getCore fun c => plain_aluGPR _ _ _ _ _

theorem plain_execAmo : Plain (β := β) (execAmo inst) := by
  refine plain_ite plain_illegal (plain_bind_getCore fun c => ?_)
  split
  · exact plain_illegal
  · refine plain_ite plain_illegal ?_
    exact plain_amoEnd (silent_loadReserved _ _).careful _ _ fun result => result.signExtend 64
  · exact plain_amoEnd (careful_storeConditional _ _ _) _ _ fun scFail => if scFail then 1 else 0
  · exact plain_amoEnd (careful_amo _ _ _ _) _ _ fun result => result

theorem plain_ecall : Plain (β := β) (do ecall; return retired) := by
  intro s
  unfold ecall
  rw [wp_bind, wp_bind, wp_getCore]
  exact wp_mono (raiseTrap_trapped _ _ s) (fun _ t ht => .trapped _ _ ht rfl) (fun _ _ _ => trivial)

/-! The SYSTEM instructions. -/

theorem system_mret (hinst : inst = 0x30200073) :
    System (β := β) inst (do return { isInstrIllegal := !(← mret) }) := by
  intro s
  unfold mret
  simp only [wp_bind, wp_getCore, wp_ite, wp_pure, wp_modifyCore]
  refine ⟨fun _ => .illegal (.refl s) rfl, fun hm => .done (.mret hinst ?_) rfl rfl⟩
  exact Decidable.of_not_not hm

theorem system_sret (hinst : inst = 0x10200073) :
    System (β := β) inst (do return { isInstrIllegal := !(← sret) }) := by
  intro s
  unfold sret
  simp only [wp_bind, wp_getCore, wp_ite, wp_pure, wp_modifyCore]
  refine ⟨fun _ => .illegal (.refl s) rfl, fun hm => ⟨fun _ => .illegal (.refl s) rfl, fun _ => ?_⟩⟩
  exact .done (.sret hinst (Nat.le_of_not_lt hm)) rfl rfl

theorem system_sfenceVma (va asid : BitVec 64) :
    System (β := β) inst (do return { isInstrIllegal := !(← sfenceVma va asid) }) := by
  intro s
  unfold sfenceVma
  simp only [wp_bind, wp_getCore, wp_ite, wp_pure]
  exact ⟨fun _ => .illegal (.refl s) rfl, fun _ => .done (.plain (.keep s.core)) rfl rfl⟩

/-- What no write of a CSR changes. -/
structure Unwritten (c c' : RV64Core) : Prop where
  gpr : c'.gpr = c.gpr
  pc : c'.currentProgramCounter = c.currentProgramCounter
  minstret : c'.minstret = c.minstret
  needTrap : c'.needTrap = c.needTrap
  currentPrivMode : c'.currentPrivMode = c.currentPrivMode
  nextPrivMode : c'.nextPrivMode = c.nextPrivMode

theorem csrWrite_unwritten {c c' : RV64Core} {data : BitVec 64} {a : Option CSRAddr}
    (h : c.csrWrite data a = .ok (some c')) : Unwritten c c' := by
  unfold RV64Core.csrWrite at h
  split at h
  all_goals
    first
    | (cases h; done)
    | (cases h; exact ⟨rfl, rfl, rfl, rfl, rfl, rfl⟩)
    | (split at h <;> cases h; exact ⟨rfl, rfl, rfl, rfl, rfl, rfl⟩)

/-- A CSR instruction writes only what the permission check allows: whenever it has a value to
write, it has announced the write to the check. -/
theorem csrInstr_outcome {write : Bool} {newValue : BitVec 64 → Option (BitVec 64)}
    (hw : ∀ v data, newValue v = some data → write = true)
    (hnew : ∀ v, s.core.csrRead (CSRAddr.ofNumber (field inst 20 12)) = some v →
      csrWritten s.core inst = newValue v) :
    wp (csrInstr inst write newValue) (SystemOutcome inst s) (fun _ _ => True) s := by
  unfold csrInstr
  simp only [wp_bind, wp_getCore, wp_ite, wp_pure]
  refine ⟨fun _ => .illegal (.refl s) rfl, fun hperm => ?_⟩
  cases hread : s.core.csrRead (CSRAddr.ofNumber (field inst 20 12)) with
  | none => exact .illegal (.refl s) rfl
  | some csrResult =>
    cases hval : newValue csrResult with
    | none =>
      simp only [hval]
      exact .done (.plain (.gpr _ csrResult)) rfl rfl
    | some data =>
      simp only [hval]
      rcases hc : s.core.csrWrite data (CSRAddr.ofNumber (field inst 20 12)) with a | _ | c'
      · trivial
      · exact .illegal (.refl s) rfl
      · have hperm' : s.core.csrOpPermissionCheck (field inst 20 12) true = true := by
          simpa [hw _ _ hval] using hperm
        exact .done (.csr data c' csrResult hperm' ((hnew _ hread).trans hval) hc) rfl rfl

/-- The set and clear instructions announce a write when their operand is not `x0`. -/
theorem mask_announced {operand : BitVec 5} {g : BitVec 64 → BitVec 64} (v data : BitVec 64)
    (hv : (if operand ≠ 0 then some (g v) else none) = some data) : (operand != 0) = true := by
  by_cases h : operand = 0
  · simp [h] at hv
  · simpa using h

theorem system_execPriv (hop : RVInst.opcode inst = 0b1110011) (hf3 : RVInst.funct3 inst = 0) :
    System (β := β) inst (execPriv inst) := by
  unfold execPriv
  dsimp only
  split
  · split
    · split
      · exact plain_ecall.system
      · exact (plain_raiseTrap _ _ rfl).system
      · exact plain_illegal.system
    · exact plain_illegal.system
  · rename_i hf7
    split
    · rename_i hregs
      split
      · rename_i hrs2
        have hword := RVInst.eq_fields inst
        rw [hf7, hrs2, hregs.1, hf3, hregs.2, hop] at hword
        exact system_sret hword
      · exact plain_retired.system
      · exact plain_illegal.system
    · exact plain_retired.system
  · rename_i hf7
    split
    · rename_i h
      have hword := RVInst.eq_fields inst
      rw [hf7, h.1, h.2.1, hf3, h.2.2, hop] at hword
      exact system_mret hword
    · exact plain_illegal.system
  · intro s
    rw [wp_bind, wp_getCore]
    exact system_sfenceVma (s.core.gpr (RVInst.rs1 inst))
      (s.core.gpr (RVInst.rs2 inst) &&& 0xffff) s
  · exact plain_illegal.system

omit [SlaveAtomicIOI β] in
/-- Of the other SYSTEM instructions six are CSR instructions, each with an operand of its own, and
the seventh is illegal. -/
theorem execSystem_csr (hf3 : RVInst.funct3 inst ≠ 0) (s : Machine β) :
    csrWritten s.core inst = none ∧ execSystem inst s = .ok instrIllegal s ∨
    ∃ write newValue, (∀ v data, newValue v = some data → write = true) ∧
      (∀ v, s.core.csrRead (CSRAddr.ofNumber (field inst 20 12)) = some v →
        csrWritten s.core inst = newValue v) ∧
      execSystem inst s = csrInstr inst write newValue s := by
  have hcases : ∀ f : BitVec 3, f = 0 ∨ f = 1 ∨ f = 2 ∨ f = 3 ∨ f = 4 ∨ f = 5 ∨ f = 6 ∨ f = 7 := by
    decide
  unfold execSystem csrWritten
  rcases hcases (RVInst.funct3 inst) with h | h | h | h | h | h | h | h
  · exact absurd h hf3
  · rw [h]
    refine .inr ⟨true, fun _ => some (s.core.gpr (RVInst.rs1 inst)), fun _ _ _ => rfl,
      fun v hread => ?_, rfl⟩
    rw [hread]
    rfl
  · rw [h]
    refine .inr ⟨_, _, mask_announced, fun v hread => ?_, rfl⟩
    rw [hread]
    rfl
  · rw [h]
    refine .inr ⟨_, _, mask_announced, fun v hread => ?_, rfl⟩
    rw [hread]
    rfl
  · rw [h]
    refine .inl ⟨?_, rfl⟩
    cases s.core.csrRead (CSRAddr.ofNumber (field inst 20 12)) <;> rfl
  · rw [h]
    refine .inr ⟨true, fun _ => some ((RVInst.rs1 inst).setWidth 64), fun _ _ _ => rfl,
      fun v hread => ?_, rfl⟩
    rw [hread]
    rfl
  · rw [h]
    refine .inr ⟨_, _, mask_announced, fun v hread => ?_, rfl⟩
    rw [hread]
    rfl
  · rw [h]
    refine .inr ⟨_, _, mask_announced, fun v hread => ?_, rfl⟩
    rw [hread]
    rfl

theorem system_execSystem (hop : RVInst.opcode inst = 0b1110011) :
    System (β := β) inst (execSystem inst) := by
  by_cases hf3 : RVInst.funct3 inst = 0
  · have hpriv : execSystem (β := β) inst = execPriv inst := by
      unfold execSystem
      rw [hf3]
      rfl
    rw [hpriv]
    exact system_execPriv hop hf3
  · intro s
    rcases execSystem_csr hf3 s with ⟨-, hill⟩ | ⟨write, newValue, hw, hnew, hcsr⟩
    · exact wp_congr (y := pure instrIllegal) hill (plain_illegal.system s)
    · exact wp_congr hcsr (csrInstr_outcome hw hnew)

theorem opcode_system {op : BitVec 7} (h : OpCode.ofBits op = some .system) : op = 0b1110011 := by
  revert h
  unfold OpCode.ofBits
  split <;> simp

theorem plain_exec32 (inst : BitVec 32)
    (hop : OpCode.ofBits (RVInst.opcode inst) ≠ some .system) : Plain (β := β) (exec32 inst) := by
  unfold exec32
  split
  · exact plain_setGPR _ _
  · exact plain_bind_getCore fun c => plain_setGPR _ _
  · exact plain_bind_getCore fun c => plain_jumpTo _ _
  · exact plain_execJalr
  · exact plain_execBranch
  · exact plain_execLoad
  · exact plain_execStore
  · exact plain_execImm _ _
  · exact plain_execImm _ _
  · exact plain_execReg _ _
  · exact plain_execReg _ _
  · exact plain_execAmo
  · exact plain_retired
  · rename_i h
    exact absurd h hop
  · exact plain_illegal

theorem exec32_system (hop : OpCode.ofBits (RVInst.opcode inst) = some .system) :
    exec32 (β := β) inst = execSystem inst := by
  unfold exec32
  rw [hop]

theorem executes_exec32 (inst : BitVec 32) : Executes (β := β) inst (exec32 inst) := by
  by_cases hop : OpCode.ofBits (RVInst.opcode inst) = some .system
  · rw [exec32_system hop]
    exact (system_execSystem (opcode_system hop)).executes
  · exact (plain_exec32 inst hop).executes

/-! The compressed instructions. -/

theorem plain_cAlu (rd : BitVec 5) (b : BitVec 64) (op : ALUOp) (op32 : Bool) :
    Plain (β := β) (cAlu rd b op op32) :=
  plain_bind_getCore fun _ => plain_aluGPR _ _ _ _ _

theorem plain_cLoad (base : BitVec 5) (imm : BitVec 64) (n : Nat) (rd : BitVec 5) :
    Plain (β := β) (cLoad base imm n rd) :=
  plain_bind_getCore fun _ => plain_loadGPR _ _ _ _

theorem plain_cStore (base : BitVec 5) (imm : BitVec 64) (n : Nat) (rs2 : BitVec 5) :
    Plain (β := β) (cStore base imm n rs2) :=
  plain_bind_getCore fun _ => plain_memWrite _ _ _

theorem plain_cJump (imm : BitVec 64) : Plain (β := β) (cJump imm) :=
  fun _ => .done (.jump 0 0 _) rfl rfl

theorem plain_execCAddi16spLui : Plain (β := β) (execCAddi16spLui inst) := by
  refine plain_bind_getCore fun c => ?_
  dsimp only
  split
  · split
    · exact plain_setGPR _ _
    · exact plain_retired
  · split
    · exact plain_setGPR _ _
    · exact plain_retired

theorem plain_execCAlu : Plain (β := β) (execCAlu inst) := by
  refine plain_bind_getCore fun c => plain_ite ?_ (plain_ite ?_ ?_)
  · exact plain_ite (plain_cAlu _ _ _ _) plain_retired
  · exact plain_cAlu _ _ _ _
  · dsimp only
    split
    · exact plain_cAlu _ _ _ _
    · exact plain_cAlu _ _ _ _
    · exact plain_ite plain_illegal (plain_cAlu _ _ _ _)
    · exact plain_ite plain_illegal (plain_cAlu _ _ _ _)

theorem plain_execCJrMvEbJalrAdd : Plain (β := β) (execCJrMvEbJalrAdd inst) := by
  refine plain_bind_getCore fun c => plain_ite ?_ ?_
  · refine plain_ite (plain_ite ?_ (plain_jumpTo _ _)) (plain_cAlu _ _ _ _)
    exact plain_raiseTrap _ _ rfl
  · exact plain_ite (plain_ite plain_illegal (plain_jumpTo _ _)) (plain_setGPR _ _)

theorem plain_execRvc (inst : BitVec 32) : Plain (β := β) (execRvc inst) := by
  unfold execRvc
  split
  · exact plain_bind_getCore fun c => plain_ite (plain_setGPR _ _) plain_illegal
  · exact plain_cLoad _ _ _ _
  · exact plain_cLoad _ _ _ _
  · exact plain_cStore _ _ _ _
  · exact plain_cStore _ _ _ _
  · exact plain_ite (plain_cAlu _ _ _ _) plain_retired
  · exact plain_cAlu _ _ _ _
  · exact plain_setGPR _ _
  · exact plain_execCAddi16spLui
  · exact plain_execCAlu
  · exact plain_cJump _
  · exact plain_bind_getCore fun c => plain_ite (plain_cJump _) plain_retired
  · exact plain_bind_getCore fun c => plain_ite (plain_cJump _) plain_retired
  · exact plain_ite (plain_cAlu _ _ _ _) plain_retired
  · exact plain_cLoad _ _ _ _
  · exact plain_cLoad _ _ _ _
  · exact plain_execCJrMvEbJalrAdd
  · exact plain_cStore _ _ _ _
  · exact plain_cStore _ _ _ _
  · exact plain_illegal

end Instructions

/-! ## One step -/

/-- The core at the end of a step that trapped. -/
def trapEnd (c : RV64Core) : RV64Core :=
  { c with currentProgramCounter := c.trapProgramCounter, needTrap := false }

/-- The outcomes of a step, from its start with the interrupts sampled. -/
inductive StepOutcome (s t : Machine β) : Prop
  | trapped (cause : Cause) (tval : BitVec 64)
      (core : t.core = trapEnd (s.core.sampled.trapped cause tval))
      (bus : Quiet s.bus t.bus)
      (log : ∃ fetched : List (BitVec 32),
        log t.trace = .trap cause tval :: (fetched.map .fetched ++ log s.trace))
  | done (inst : BitVec 32) (c : RV64Core) (l : StepLocals)
      (effect : Effect inst s.core.sampled c) (core : t.core = (c.advancePC l).retire)
      (log : log t.trace = .fetched inst :: log s.trace)

/-- From the fetch to the label `exception`: a trap, or an instruction with an outcome. -/
inductive FetchOutcome (s : Machine β) (l : StepLocals) (t : Machine β) : Prop
  | trapped (cause : Cause) (tval : BitVec 64) (trap : Trapped s t cause tval)
      (legal : l.flags.isInstrIllegal = false)
  | executed (inst : BitVec 32) (s' : Machine β) (silent : Silent s s')
      (outcome : Outcome inst { s' with trace := .fetched inst :: s'.trace } l.flags t)

section Step

variable {s t : Machine β}

theorem decodeExec_outcome (inst : BitVec 32) (s : Machine β) :
    wp (decodeExec inst)
      (fun l t => Outcome inst { s with trace := .fetched inst :: s.trace } l.flags t)
      (fun _ _ => True) s := by
  unfold decodeExec
  rw [wp_bind, wp_emit, wp_ite]
  refine ⟨fun _ => ?_, fun _ => ?_⟩
  · rw [wp_bind]
    exact wp_mono ((plain_execRvc inst).executes _) (fun _ _ h => h) (fun _ _ _ => trivial)
  · rw [wp_bind]
    exact wp_mono (executes_exec32 inst _) (fun _ _ h => h) (fun _ _ _ => trivial)

theorem fetchDecodeExec_outcome (s : Machine β) :
    wp fetchDecodeExec (FetchOutcome s) (fun _ _ => True) s := by
  unfold fetchDecodeExec
  rw [wp_bind, wp_getCore, wp_ite]
  refine ⟨fun _ => ?_, fun _ => ?_⟩
  · rw [wp_bind]
    exact wp_mono (raiseTrap_trapped _ _ s) (fun _ t ht => .trapped _ _ ht rfl)
      (fun _ _ _ => trivial)
  · rw [wp_bind]
    refine wp_mono ((silent_instFetch _ 4).wp s) (fun r t ht => ?_) (fun _ _ _ => trivial)
    dsimp only
    rw [wp_ite]
    refine ⟨fun _ => ?_, fun _ => ?_⟩
    · rw [wp_bind, wp_assertThat]
      refine ⟨fun _ => ?_, fun _ => trivial⟩
      rw [wp_bind]
      exact wp_mono (raiseTrap_after ht _ _) (fun _ u hu => .trapped _ _ hu rfl)
        (fun _ _ _ => trivial)
    · exact wp_mono (decodeExec_outcome r.2 t) (fun l u hu => .executed r.2 t ht hu)
        (fun _ _ _ => trivial)

theorem trapped_needTrap (c : RV64Core) (cause : Cause) (tval : BitVec 64) :
    (c.trapped cause tval).needTrap = true := by
  unfold RV64Core.trapped
  dsimp only
  split <;> rfl

theorem trapEnd_eq {c : RV64Core} (h : c.needTrap = true) (l : StepLocals) :
    (c.advancePC l).retire = trapEnd c := by
  simp [RV64Core.advancePC, RV64Core.retire, trapEnd, h]

omit [SlaveAtomicIOI β] in
/-- The end of a step behind a legal instruction. -/
theorem endStep_legal {l : StepLocals} (hl : l.flags.isInstrIllegal = false) (s : Machine β) :
    wp (endStep l) (fun _ t => t = { s with core := (s.core.advancePC l).retire })
      (fun _ _ => True) s := by
  unfold endStep
  simp only [hl, Bool.false_eq_true, if_false, wp_bind, wp_modifyCore, wp_getCore, wp_assertThat,
    implies_true, and_true]

/-- The end of a step behind a trap. -/
theorem endStep_trapped {l : StepLocals} (hl : l.flags.isInstrIllegal = false) {cause : Cause}
    {tval : BitVec 64} (h : Trapped s t cause tval) :
    wp (endStep l) (fun _ u => u = { t with core := trapEnd t.core }) (fun _ _ => True) t := by
  have hn : t.core.needTrap = true := by
    rw [h.core]
    exact trapped_needTrap _ _ _
  refine wp_mono (endStep_legal hl t) (fun _ u hu => ?_) (fun _ _ _ => trivial)
  rw [hu, trapEnd_eq hn]

/-- The end of a step behind an illegal one, which is trapped there. -/
theorem endStep_illegal {l : StepLocals} (hl : l.flags.isInstrIllegal = true) (s : Machine β) :
    wp (endStep l) (fun _ t => ∃ u cause tval, Trapped s u cause tval ∧
      t = { u with core := trapEnd u.core }) (fun _ _ => True) s := by
  unfold endStep
  simp only [hl, if_true, wp_bind, wp_modifyCore, wp_getCore, wp_assertThat, implies_true, and_true]
  refine wp_mono (raiseTrap_trapped _ _ s) (fun _ u hu _ => ?_) (fun _ _ _ => trivial)
  refine ⟨u, _, _, hu, ?_⟩
  rw [trapEnd_eq]
  rw [hu.core]
  exact trapped_needTrap _ _ _

/-- A trapped machine at the end of its step. -/
theorem StepOutcome.of_trapped {s' : Machine β} {cause : Cause} {tval : BitVec 64}
    (h : Trapped s' t cause tval) (hc : s'.core = s.core.sampled) (hb : Quiet s.bus s'.bus)
    (fetched : List (BitVec 32)) (hl : log s'.trace = fetched.map .fetched ++ log s.trace) :
    StepOutcome s { t with core := trapEnd t.core } :=
  .trapped cause tval (by rw [h.core, hc]) (hb.trans h.bus) ⟨fetched, by rw [← hl]; exact h.log⟩

/-- What follows `preExec` when it has not trapped. -/
theorem fetched_outcome (s : Machine β) :
    wp (do
      let l ← fetchDecodeExec
      endStep l) (fun _ t => StepOutcome s t) (fun _ _ => True)
      { s with core := s.core.sampled } := by
  rw [wp_bind]
  refine wp_mono (fetchDecodeExec_outcome _) (fun l t ho => ?_) (fun _ _ _ => trivial)
  cases ho with
  | trapped cause tval trap legal =>
    refine wp_mono (endStep_trapped legal trap) (fun _ u hu => ?_) (fun _ _ _ => trivial)
    subst hu
    exact .of_trapped trap rfl (.refl _) [] rfl
  | executed inst s' silent outcome =>
    have hlog : log (Event.fetched inst :: s'.trace) = .fetched inst :: log s.trace :=
      congrArg (Event.fetched inst :: ·) silent.log
    cases outcome with
    | trapped cause tval trap legal =>
      refine wp_mono (endStep_trapped legal trap) (fun _ u hu => ?_) (fun _ _ _ => trivial)
      subst hu
      exact .of_trapped trap silent.core silent.bus [inst] hlog
    | illegal hsilent hill =>
      refine wp_mono (endStep_illegal hill t) (fun _ u hu => ?_) (fun _ _ _ => trivial)
      obtain ⟨u', cause, tval, htrap, rfl⟩ := hu
      exact .of_trapped (hsilent.trapped htrap) silent.core silent.bus [inst] hlog
    | done effect hl legal =>
      refine wp_mono (endStep_legal legal t) (fun _ u hu => ?_) (fun _ _ _ => trivial)
      subst hu
      have he : Effect inst s'.core t.core := effect
      rw [silent.core] at he
      exact .done inst t.core l he rfl (hl.trans hlog)

/-- Every step that returns has one of the two outcomes. -/
theorem step_outcome (s : Machine β) :
    wp step (fun _ t => StepOutcome s t) (fun _ _ => True) s := by
  unfold step preExec
  simp only [wp_bind, wp_modifyCore, wp_getCore]
  have hclear : s.core.sampled.needTrap = false := rfl
  cases s.core.sampled.intToRaise with
  | none =>
    simp only [wp_pure, hclear, Bool.false_eq_true, if_false]
    exact fetched_outcome s
  | some bits =>
    refine wp_mono (raiseTrap_trapped _ 0 _) (fun _ t ht => ?_) (fun _ _ _ => trivial)
    have hn : t.core.needTrap = true := by
      rw [ht.core]
      exact trapped_needTrap _ _ _
    simp only [hn, if_true]
    refine wp_mono (endStep_trapped rfl ht) (fun _ u hu => ?_) (fun _ _ _ => trivial)
    subst hu
    exact .of_trapped ht rfl (.refl _) [] rfl

end Step

end NextEmu.Simple.Outcomes
