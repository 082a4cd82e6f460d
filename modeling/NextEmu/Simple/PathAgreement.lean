import NextEmu.Simple.DataPaths
import NextEmu.Simple.Isolation

/-!
# The copied access paths agree

Five functions repeat one bypass test, one page-crossing test, one lookup and one address
computation. Where a call goes is a function of its address, its size, and of whether it is
checked as a load or as a store; what a call does there begins with one event of its own,
and touches nothing else.
-/

namespace NextEmu.Simple.PathAgreement

open NextEmu.Lib NextEmu.Lib.AbortState NextEmu.Sdk
open DataPaths Isolation Translation

variable {β : Type}

/-! ## What a run notes -/

/-- The event is noted by the run, however the run ends. -/
def Emits {ρ : Type} (e : Event β) (x : Emu β ρ) (s : Machine β) : Prop :=
  ∃ evs, (final x s).trace = evs ++ s.trace ∧ e ∈ evs

/-- What is behind the end of the old trace is one list. -/
theorem emits_iff {ρ : Type} {e : Event β} {x : Emu β ρ} {s : Machine β} {evs : List (Event β)}
    (h : (final x s).trace = evs ++ s.trace) : Emits e x s ↔ e ∈ evs := by
  constructor
  · intro hemits
    obtain ⟨evs', h', hmem⟩ := hemits
    have hsame : evs' = evs := List.append_cancel_right (h'.symm.trans h)
    rwa [hsame] at hmem
  · intro hmem
    exact ⟨evs, h, hmem⟩

/-- Code that notes `evs` whatever the bus answers, and touches `n` bytes from `pa` on alone. -/
def Notes (evs : List (Event β)) (pa : Addr) (n : Nat) {ρ : Type} (x : Emu β ρ) : Prop :=
  ∀ t, ∃ all, (final x t).trace = all ++ t.trace ∧ (∀ e ∈ evs, e ∈ all) ∧
    ∀ e ∈ all, touches e = some (pa, n)

section Notes

variable {evs : List (Event β)} {pa : Addr} {n : Nat} {α ρ : Type}

/-- Code that notes these and no others. -/
theorem notes_exactly {x : Emu β α} (htouch : ∀ e ∈ evs, touches e = some (pa, n))
    (h : ∀ t, (final x t).trace = evs ++ t.trace) : Notes evs pa n x :=
  fun t => ⟨evs, h t, fun _ he => he, htouch⟩

/-- What follows may touch the same bytes. -/
theorem notes_bind {x : Emu β α} {f : α → Emu β ρ} (hx : Notes evs pa n x)
    (hf : ∀ a, Confined pa n (f a)) : Notes evs pa n (x >>= f) := by
  intro t
  obtain ⟨all, htrace, hmem, htouch⟩ := hx t
  cases hrun : x t with
  | error a u =>
    rw [final_of_error hrun] at htrace
    rw [final_of_error (bind_of_error hrun)]
    exact ⟨all, htrace, hmem, htouch⟩
  | ok a u =>
    rw [final_of_ok hrun] at htrace
    have hrest : Accessed pa n u (final (f a) u) := by
      cases hfa : f a u with
      | ok r v =>
        rw [final_of_ok hfa]
        exact (hf a).ok hfa
      | error b v =>
        rw [final_of_error hfa]
        exact ((hf a).error hfa).1
    obtain ⟨-, -, rest, htrace', htouch'⟩ := hrest
    have hbind : final (x >>= f) t = final (f a) u := final_congr (bind_of_ok hrun)
    refine ⟨rest ++ all, ?_, fun e he => List.mem_append_right rest (hmem e he), ?_⟩
    · rw [hbind, htrace', htrace, List.append_assoc]
    · intro e he
      rcases List.mem_append.mp he with he | he
      · exact htouch' e he
      · exact htouch e he

end Notes

/-! ## What a path does at a physical address -/

variable [SlaveAtomicIOI β]

/-- The events that the access of a path begins with, newest first. -/
def opening (pa : Addr) : DataAccess → List (Event β)
  | .read _ n => [.load pa n]
  | .write _ n _ => [.store pa n]
  | .loadReserved _ n => [.load pa n, .reserve pa n]
  | .storeConditional _ n _ => [.check pa n]
  | .amo _ n _ _ => [.load pa n]

omit [SlaveAtomicIOI β] in
theorem opening_touches (pa : Addr) (a : DataAccess) :
    ∀ e ∈ opening (β := β) pa a, touches e = some (pa, a.size) := by
  intro e he
  cases a with
  | loadReserved va n =>
    rcases List.mem_cons.mp he with rfl | he
    · rfl
    · rw [List.mem_singleton.mp he]
      rfl
  | _ =>
    rw [List.mem_singleton.mp he]
    rfl

section Acts

variable {pa : Addr}

/-- SC checks, and whatever it does next is in the same bytes. -/
theorem notes_storeConditional (fault : BitVec 63) (n : Nat) (data : BitVec (8 * n)) :
    Notes (β := β) [.check pa n] pa n (physStoreConditional fault pa n data) := by
  refine notes_bind (notes_exactly (opening_touches pa (.storeConditional 0 n data))
    fun t => rfl) fun checked => ?_
  exact Tracks.ite (confined_pure _)
    (confined_bind (confined_doStore pa n data) fun _ => confined_pure _)

/-- An AMO loads, and whatever it does next is in the same bytes. -/
theorem notes_amo {n : Nat} (hn : n = 4 ∨ n = 8) (op : AMOFunct) (src : BitVec 64) :
    Notes (β := β) [.load pa n] pa n (physAmo pa n op src) := by
  have hload : Notes (β := β) [.load pa n] pa n (amoLoad pa n) :=
    notes_exactly (opening_touches pa (.amo 0 n op src)) fun t => by
      rw [final_of_ok (amoLoad_run hn pa t)]
      rfl
  refine notes_bind (notes_bind hload fun r => ?_) fun _ => confined_pure _
  refine Tracks.ite (confined_pure _) ?_
  cases amoResult op src r.2 with
  | none => exact Tracks.throw Accessed.refl fun _ => trivial
  | some toWrite => exact confined_bind (confined_doStore pa n _) fun _ => confined_pure _

/-- The access of a path, with a translation or without. -/
theorem notes_act {a : DataAccess} (h : a.Sized) (pa : Addr) :
    Notes (β := β) (opening pa a) pa a.size (a.act pa) := by
  cases a with
  | storeConditional va n data => exact notes_storeConditional _ n data
  | amo va n op src => exact notes_amo h op src
  | _ => exact notes_exactly (opening_touches pa _) fun t => rfl

theorem notes_bare {a : DataAccess} (h : a.Sized) :
    Notes (β := β) (opening a.beginAddr a) a.beginAddr a.size a.bare := by
  cases a with
  | storeConditional va n data => exact notes_storeConditional _ n data
  | amo va n op src => exact notes_amo h op src
  | _ => exact notes_exactly (opening_touches _ _) fun t => rfl

end Acts

/-! ## Where a path goes -/

/-- The physical address that a call accesses, if it comes to an access. -/
def target (a : DataAccess) (s : Machine β) : Option Addr :=
  if s.core.dataBare then some a.beginAddr
  else if crossesPage a.beginAddr a.size then none
  else match lookUp s a.beginAddr with
    | .found e =>
      if (a.refuse s.core e).isNone then some (e.ppa + a.beginAddr % e.pagesize.bytes) else none
    | .absent | .stops _ => none

section Target

variable {a a' : DataAccess} {s : Machine β}

/-- A refusal depends on whether the path checks a load or a store. -/
theorem refuse_isNone (hl : a.loads = a'.loads) (c : RV64Core) (e : TLBEntry) :
    (a.refuse c e).isNone = (a'.refuse c e).isNone := by
  have hread : ∀ {ρ ρ' : Type} (p f : ρ) (p' f' : ρ'),
      (readRefusal p f c e).isNone = (readRefusal p' f' c e).isNone := by
    intro ρ ρ' p f p' f'
    unfold readRefusal
    split
    · rfl
    · split
      · rfl
      · split <;> rfl
  have hwrite : ∀ {ρ ρ' : Type} (p : ρ) (p' : ρ'),
      (writeRefusal p c e).isNone = (writeRefusal p' c e).isNone := by
    intro ρ ρ' p p'
    unfold writeRefusal
    split
    · rfl
    · split
      · rfl
      · split <;> rfl
  cases a <;> cases a' <;> first | exact hread .. | exact hwrite .. | cases hl

theorem target_congr (haddr : a.beginAddr = a'.beginAddr) (hsize : a.size = a'.size)
    (hl : a.loads = a'.loads) : target a s = target a' s := by
  unfold target
  rw [haddr, hsize]
  cases lookUp s a'.beginAddr with
  | found e => simp only [refuse_isNone hl s.core e]
  | _ => rfl

/-- A call that comes to an access has no translation or an entry for its address. -/
theorem target_some {pa : Addr} (h : target a s = some pa) :
    s.core.dataBare = true ∧ pa = a.beginAddr ∨
      s.core.dataBare = false ∧ ∃ e, lookUp s a.beginAddr = .found e ∧
        pa = e.ppa + a.beginAddr % e.pagesize.bytes := by
  unfold target at h
  split at h
  · rename_i hd
    cases h
    exact .inl ⟨hd, rfl⟩
  · rename_i hd
    right
    refine ⟨Bool.eq_false_iff.mpr hd, ?_⟩
    split at h
    · cases h
    · split at h
      · rename_i e hfound
        split at h
        · cases h
          exact ⟨e, hfound, rfl⟩
        · cases h
      · cases h
      · cases h

/-- The address is the same for loads and for stores. -/
theorem target_address (haddr : a.beginAddr = a'.beginAddr) {pa pa' : Addr}
    (h : target a s = some pa) (h' : target a' s = some pa') : pa = pa' := by
  rcases target_some h with ⟨hd, hpa⟩ | ⟨hd, e, hfound, hpa⟩
  · rcases target_some h' with ⟨-, hpa'⟩ | ⟨hd', -⟩
    · rw [hpa, hpa', haddr]
    · exact absurd (hd.symm.trans hd') nofun
  · rcases target_some h' with ⟨hd', -⟩ | ⟨-, e', hfound', hpa'⟩
    · exact absurd (hd'.symm.trans hd) nofun
    · rw [← haddr, hfound] at hfound'
      cases hfound'
      rw [hpa, hpa', haddr]

end Target

/-! ## What a call touches -/

section Runs

variable {a : DataAccess} {s : Machine β}

/-- A lookup touches nothing. -/
theorem looked_quiet (s : Machine β) (va : BitVec 64) : ∃ evs,
    (looked s va).trace = evs ++ s.trace ∧ ∀ e ∈ evs, touches e = none := by
  obtain ⟨reads, htrace⟩ := looked_trace s va
  refine ⟨_, htrace, fun e he => ?_⟩
  rcases List.mem_append.mp he with he | he
  · obtain ⟨pte, -, rfl⟩ := List.mem_map.mp he
    rfl
  · rw [List.mem_singleton.mp he]
    rfl

/-- A call without a target touches nothing. -/
theorem run_targetless (h : a.Sized) (ht : target a s = none) : ∃ evs,
    (final a.run s).trace = evs ++ s.trace ∧ ∀ e ∈ evs, touches e = none := by
  rw [final_congr (DataAccess.run_path h s)]
  obtain ⟨evs, htrace, htouch⟩ := looked_quiet s a.beginAddr
  cases hd : s.core.dataBare with
  | true =>
    simp only [target, hd, if_true] at ht
    cases ht
  | false =>
    cases hcross : crossesPage a.beginAddr a.size with
    | true =>
      rw [final_of_ok (Path.run_crossing (p := a.path β) hd hcross)]
      exact ⟨[], rfl, nofun⟩
    | false =>
      have hrun := Path.run_lookUp (p := a.path β) (s := s) hd hcross
      simp only [target, hd, hcross, Bool.false_eq_true, if_false] at ht
      -- each of these runs ends where the lookup does
      suffices hends : final (a.path β).run s = looked s a.beginAddr by
        rw [hends]
        exact ⟨evs, htrace, htouch⟩
      cases hfound : lookUp s (a.path β).beginAddr with
      | stops x =>
        rw [hfound] at hrun
        exact final_of_error hrun
      | absent =>
        rw [hfound] at hrun
        exact final_of_ok hrun
      | found e =>
        have hentry : lookUp s a.beginAddr = .found e := hfound
        have hrefused : ¬ (a.refuse s.core e).isNone = true := by
          intro hnone
          rw [hentry] at ht
          simp only [hnone, if_true] at ht
          cases ht
        obtain ⟨code, hcode⟩ := Option.ne_none_iff_exists'.mp (mt Option.isNone_iff_eq_none.mpr
          hrefused)
        have hcode' : (a.path β).refuse s.core e = some code := hcode
        rw [hfound] at hrun
        simp only [hcode'] at hrun
        exact final_of_ok hrun

/-- One with a target makes its access there. -/
theorem run_targeted (h : a.Sized) {pa : Addr} (ht : target a s = some pa) : ∃ evs,
    (final a.run s).trace = evs ++ s.trace ∧ (∀ e ∈ opening pa a, e ∈ evs) ∧
      ∀ e ∈ evs, touches e = none ∨ touches e = some (pa, a.size) := by
  rw [final_congr (DataAccess.run_path h s)]
  cases hd : s.core.dataBare with
  | true =>
    simp only [target, hd, if_true, Option.some.injEq] at ht
    subst ht
    rw [final_congr (Path.run_direct (p := a.path β) hd)]
    obtain ⟨evs, htrace, hmem, htouch⟩ := notes_bare (β := β) h s
    exact ⟨evs, htrace, hmem, fun e he => .inr (htouch e he)⟩
  | false =>
    cases hcross : crossesPage a.beginAddr a.size with
    | true =>
      simp only [target, hd, hcross, Bool.false_eq_true, if_false, if_true] at ht
      cases ht
    | false =>
      rcases target_some ht with ⟨hd', -⟩ | ⟨-, e, hfound, hpa⟩
      · exact absurd (hd'.symm.trans hd) nofun
      have hnone : a.refuse s.core e = none := by
        simp only [target, hd, hcross, Bool.false_eq_true, if_false, hfound] at ht
        split at ht
        · exact Option.isNone_iff_eq_none.mp ‹_›
        · cases ht
      have hfound' : lookUp s (a.path β).beginAddr = .found e := hfound
      have hnone' : (a.path β).refuse s.core e = none := hnone
      have hrun := Path.run_lookUp (p := a.path β) (s := s) hd hcross
      rw [hfound'] at hrun
      simp only [hnone'] at hrun
      have hact : final (a.path β).run s = final (a.act pa) (looked s a.beginAddr) := by
        rw [hpa]
        exact final_congr hrun
      obtain ⟨before, htrace, hquiet⟩ := looked_quiet s a.beginAddr
      obtain ⟨evs, htrace', hmem, htouch⟩ := notes_act (β := β) h pa (looked s a.beginAddr)
      rw [hact]
      refine ⟨evs ++ before, ?_, fun e he => List.mem_append_left before (hmem e he), ?_⟩
      · rw [htrace', htrace, List.append_assoc]
      · intro e he
        rcases List.mem_append.mp he with he | he
        · exact .inr (htouch e he)
        · exact .inl (hquiet e he)

/-- What a call touches are its bytes at the target. -/
theorem emits_touching (h : a.Sized) {e : Event β} {x : Addr × Nat} (hemits : Emits e a.run s)
    (hx : touches e = some x) : ∃ pa, target a s = some pa ∧ x = (pa, a.size) := by
  cases ht : target a s with
  | none =>
    obtain ⟨evs, htrace, htouch⟩ := run_targetless h ht
    have hnone := htouch e ((emits_iff htrace).mp hemits)
    exact absurd (hx.symm.trans hnone) nofun
  | some pa =>
    obtain ⟨evs, htrace, -, htouch⟩ := run_targeted h ht
    rcases htouch e ((emits_iff htrace).mp hemits) with hnone | hsome
    · exact absurd (hx.symm.trans hnone) nofun
    · exact ⟨pa, rfl, Option.some.inj (hx.symm.trans hsome)⟩

/-- A call makes its access at the target, and nowhere else. -/
theorem emits_opening (h : a.Sized) {pa : Addr} {e : Event β} (he : e ∈ opening pa a) :
    Emits e a.run s ↔ target a s = some pa := by
  constructor
  · intro hemits
    obtain ⟨pa', ht, hx⟩ := emits_touching h hemits (opening_touches pa a e he)
    have hpa : pa = pa' := congrArg Prod.fst hx
    rw [ht, hpa]
  · intro ht
    obtain ⟨evs, htrace, hmem, -⟩ := run_targeted h ht
    exact (emits_iff htrace).mpr (hmem e he)

/-- Two calls for one address, of one size, that are both checked as loads or both as stores:
they come to their accesses in the same machines, at the same address. -/
theorem emits_agree {b : DataAccess} (h : a.Sized) (h' : b.Sized)
    (haddr : a.beginAddr = b.beginAddr) (hsize : a.size = b.size) (hl : a.loads = b.loads)
    {pa : Addr} {e e' : Event β} (he : e ∈ opening pa a) (he' : e' ∈ opening pa b) :
    Emits e a.run s ↔ Emits e' b.run s := by
  rw [emits_opening h he, emits_opening h' he', target_congr haddr hsize hl]

/-- The copied paths agree: SC checks its reservation, and an AMO loads its word, where a store
of the same size is made, if it is made; LR reserves and loads where a load of this size is.
All of them touch the same bytes. -/
theorem paths_agree (s : Machine β) (va : BitVec 64) (size : Nat) (hsize : size = 4 ∨ size = 8) :
    (∀ (pa : Addr) (stored data : BitVec (8 * size)) (op : AMOFunct) (src : BitVec 64),
      (Emits (.check pa size) (vaddrStoreConditional va size data) s ↔
        Emits (.store pa size) (vaddrWriteBufferMMUAPI va size stored) s) ∧
      (Emits (.load pa size) (vaddrAtomicMemOperation va size op src) s ↔
        Emits (.store pa size) (vaddrWriteBufferMMUAPI va size stored) s)) ∧
    (∀ pa : Addr,
      (Emits (.reserve pa size) (vaddrLoadReserved va size) s ↔
        Emits (.load pa size) (vaddrReadBufferMMUAPI va size) s) ∧
      (Emits (.load pa size) (vaddrLoadReserved va size) s ↔
        Emits (.load pa size) (vaddrReadBufferMMUAPI va size) s)) ∧
    ∀ a a' : DataAccess, a.beginAddr = va → a'.beginAddr = va → a.size = size → a'.size = size →
      ∀ e e' x x', Emits e a.run s → Emits e' a'.run s → touches e = some x →
        touches e' = some x' → x = x' := by
  have hsized : ∀ a : DataAccess, a.size = size → a.Sized := by
    intro a ha
    cases a with
    | amo va n op src =>
      rw [← ha] at hsize
      exact hsize
    | _ => trivial
  refine ⟨fun pa stored data op src => ⟨?_, ?_⟩, fun pa => ⟨?_, ?_⟩, ?_⟩
  · exact emits_agree (a := .storeConditional va size data) (b := .write va size stored)
      trivial trivial rfl rfl rfl (List.mem_singleton_self _) (List.mem_singleton_self _)
  · exact emits_agree (a := .amo va size op src) (b := .write va size stored)
      hsize trivial rfl rfl rfl (List.mem_singleton_self _) (List.mem_singleton_self _)
  · exact emits_agree (a := .loadReserved va size) (b := .read va size)
      trivial trivial rfl rfl rfl (List.mem_cons_of_mem _ (List.mem_singleton_self _))
      (List.mem_singleton_self _)
  · exact emits_agree (a := .loadReserved va size) (b := .read va size)
      trivial trivial rfl rfl rfl List.mem_cons_self (List.mem_singleton_self _)
  · intro a a' haddr haddr' hn hn' e e' x x' hemits hemits' hx hx'
    obtain ⟨pa, ht, hpa⟩ := emits_touching (hsized a hn) hemits hx
    obtain ⟨pa', ht', hpa'⟩ := emits_touching (hsized a' hn') hemits' hx'
    rw [hpa, hpa', hn, hn', target_address (haddr.trans haddr'.symm) ht ht']

end Runs

/-- An SC and an AMO of S mode in the gigapage, where a store is. -/
theorem paths_agree_gigapage :
    Emits (.check 0x80001234 4) (vaddrStoreConditional 0x80001234 4 7) gigapageMachine ∧
      Emits (.load 0x80001234 4) (vaddrAtomicMemOperation 0x80001234 4 .add 7) gigapageMachine := by
  have hstore : Emits (.store 0x80001234 4) (vaddrWriteBufferMMUAPI 0x80001234 4 0)
      gigapageMachine :=
    (emits_opening (a := .write 0x80001234 4 0) trivial (List.mem_singleton_self _)).mpr
      (by decide +kernel)
  obtain ⟨hcheck, hload⟩ := (paths_agree gigapageMachine 0x80001234 4 (.inl rfl)).1
    0x80001234 0 7 .add 7
  exact ⟨hcheck.mpr hstore, hload.mpr hstore⟩

end NextEmu.Simple.PathAgreement
