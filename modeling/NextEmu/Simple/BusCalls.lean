import NextEmu.Simple.SingleAccess
import NextEmu.Simple.Unaborted

/-!
# The bus calls of a step

What a core asks of its bus, as a list. A step first walks the tables and loads for its fetch, in
one part or two, and then walks them once more and makes the calls of one access, and either half
may end early. The bus is left as these calls leave it.
-/

namespace NextEmu.Simple.BusCalls

open NextEmu.Lib NextEmu.Lib.AbortState NextEmu.Lib.BitField NextEmu.Sdk
open CompressedFetch DataPaths Permitted SingleAccess Translation Unaborted

/-- A call of the bus. The last kind is a load too, of a page table entry. -/
inductive BusCall
  | load (addr : Addr) (len : Nat)
  | store (addr : Addr) (len : Nat) (data : BitVec (8 * len))
  | reserve (addr : Addr) (len : Nat)
  | check (addr : Addr) (len : Nat)
  | pteLoad (addr : Addr)

namespace BusCall

variable {β : Type}

/-- What the trace says of the call. -/
def event : BusCall → Event β
  | load a n => .load a n
  | store a n _ => .store a n
  | reserve a n => .reserve a n
  | check a n => .check a n
  | pteLoad a => .pteLoad a

/-- The bus behind a call by a hart. -/
def apply [SlaveAtomicIOI β] (hartId : BitVec 64) (b : β) : BusCall → β
  | load a n => (SlaveIOI.load b a n).2
  | store a n data => (SlaveIOI.store b a n data).2
  | reserve a n => SlaveAtomicIOI.reserve b a n hartId
  | check a n => (SlaveAtomicIOI.check b a n hartId).2
  | pteLoad a => (SlaveIOI.load b a 8).2

end BusCall

variable {β : Type}

/-- The calls of the bus in a trace, newest first. -/
def busEvents (tr : List (Event β)) : List (Event β) := tr.filter onBus

/-- The calls of a walk. -/
def walkCalls (ptes : List Addr) : List BusCall := ptes.map .pteLoad

/-- What an access at a physical address may ask for, each time up to some point. -/
inductive AccessCalls (pa : Addr) (n : Nat) : List BusCall → Prop
  | none : AccessCalls pa n []
  | load : AccessCalls pa n [.load pa n]
  | store (data : BitVec (8 * n)) : AccessCalls pa n [.store pa n data]
  | reserved : AccessCalls pa n [.reserve pa n]
  | loadReserved : AccessCalls pa n [.reserve pa n, .load pa n]
  | checked : AccessCalls pa n [.check pa n]
  | storeConditional (data : BitVec (8 * n)) : AccessCalls pa n [.check pa n, .store pa n data]
  | amo (data : BitVec (8 * n)) : AccessCalls pa n [.load pa n, .store pa n data]

/-- An access by a path: what a walk reads, and the access. -/
def PathCalls (access : List BusCall → Prop) (cs : List BusCall) : Prop :=
  ∃ ptes rest, cs = walkCalls ptes ++ rest ∧ ptes.length ≤ 3 ∧ access rest

/-- A fetch of `n` bytes at a physical address. -/
def LoadCalls (n : Nat) (cs : List BusCall) : Prop := cs = [] ∨ ∃ pa, cs = [.load pa n]

/-- The fetch of a step: of one word, or of one half and then perhaps of the other. -/
inductive FetchCalls : List BusCall → Prop
  | none : FetchCalls []
  | word {cs : List BusCall} (h : PathCalls (LoadCalls 4) cs) : FetchCalls cs
  | half {cs : List BusCall} (h : PathCalls (LoadCalls 2) cs) : FetchCalls cs
  | halves {low high : List BusCall} (hlow : PathCalls (LoadCalls 2) low)
    (hhigh : PathCalls (LoadCalls 2) high) : FetchCalls (low ++ high)

/-- The data access of a step. -/
def DataCalls (cs : List BusCall) : Prop :=
  cs = [] ∨ ∃ pa n, Sizes n ∧ PathCalls (AccessCalls pa n) cs

/-- The calls of a step. -/
def StepCalls (cs : List BusCall) : Prop :=
  ∃ fetch data, cs = fetch ++ data ∧ FetchCalls fetch ∧ DataCalls data

/-! ## Stores -/

section Stores

/-- The calls without a store. -/
def Storeless (cs : List BusCall) : Prop := ∀ a n data, BusCall.store a n data ∉ cs

theorem storeless_nil : Storeless [] := fun _ _ _ => List.not_mem_nil

theorem Storeless.append {cs cs' : List BusCall} (h : Storeless cs) (h' : Storeless cs') :
    Storeless (cs ++ cs') := by
  intro a n data hmem
  exact (List.mem_append.mp hmem).elim (h a n data) (h' a n data)

theorem storeless_walk (ptes : List Addr) : Storeless (walkCalls ptes) := by
  simp [Storeless, walkCalls]

theorem PathCalls.storeless {access : List BusCall → Prop} {cs : List BusCall}
    (h : PathCalls access cs) (haccess : ∀ rest, access rest → Storeless rest) :
    Storeless cs := by
  obtain ⟨ptes, rest, rfl, -, hrest⟩ := h
  exact (storeless_walk ptes).append (haccess rest hrest)

theorem FetchCalls.storeless {cs : List BusCall} (h : FetchCalls cs) : Storeless cs := by
  have hload : ∀ n rest, LoadCalls n rest → Storeless rest := by
    rintro n rest (rfl | ⟨pa, rfl⟩)
    · exact storeless_nil
    · simp [Storeless]
  cases h with
  | none => exact storeless_nil
  | word h => exact h.storeless (hload 4)
  | half h => exact h.storeless (hload 2)
  | halves hlow hhigh => exact (hlow.storeless (hload 2)).append (hhigh.storeless (hload 2))

/-- The calls of a step store at most once, and then last. -/
theorem StepCalls.store_last {cs : List BusCall} (h : StepCalls cs) :
    Storeless cs ∨ ∃ before a n data, cs = before ++ [.store a n data] ∧ Storeless before ∧
      Sizes n := by
  obtain ⟨fetch, data, rfl, hfetch, hdata⟩ := h
  have hf := hfetch.storeless
  rcases hdata with rfl | ⟨pa, n, hn, ptes, rest, rfl, -, haccess⟩
  · exact .inl (hf.append storeless_nil)
  have hw := hf.append (storeless_walk ptes)
  have hnone : Storeless rest → Storeless (fetch ++ (walkCalls ptes ++ rest)) := fun hrest =>
    hf.append ((storeless_walk ptes).append hrest)
  cases haccess with
  | none | load | reserved | loadReserved | checked => exact .inl (hnone (by simp [Storeless]))
  | store x => exact .inr ⟨fetch ++ walkCalls ptes, pa, n, x, by simp, hw, hn⟩
  | storeConditional x =>
    exact .inr ⟨fetch ++ walkCalls ptes ++ [.check pa n], pa, n, x, by simp,
      hw.append (by simp [Storeless]), hn⟩
  | amo x =>
    exact .inr ⟨fetch ++ walkCalls ptes ++ [.load pa n], pa, n, x, by simp,
      hw.append (by simp [Storeless]), hn⟩

end Stores

section Traces

theorem busEvents_append (a b : List (Event β)) :
    busEvents (a ++ b) = busEvents a ++ busEvents b := List.filter_append ..

theorem busEvents_quiet {evs : List (Event β)} (h : ∀ e ∈ evs, onBus e = false) :
    busEvents evs = [] := by
  apply List.filter_eq_nil_iff.mpr
  intro e he
  simp [h e he]

/-- The calls of a list are all of them uses of the bus. -/
theorem busEvents_calls (cs : List BusCall) :
    busEvents (cs.map BusCall.event).reverse = (cs.map (BusCall.event (β := β))).reverse := by
  apply List.filter_eq_self.mpr
  intro e he
  simp only [List.mem_reverse, List.mem_map] at he
  obtain ⟨c, -, rfl⟩ := he
  cases c <;> rfl

end Traces

section Performs

variable [SlaveAtomicIOI β] {cs cs' : List BusCall} {s t u : Machine β}

/-- From one machine to the other the bus was called so. -/
structure Performs (cs : List BusCall) (s t : Machine β) : Prop where
  bus : t.bus = cs.foldl (BusCall.apply s.core.rvHartID) s.bus
  events : busEvents t.trace = (cs.map BusCall.event).reverse ++ busEvents s.trace

namespace Performs

theorem trans (h : Performs cs s t) (hart : t.core.rvHartID = s.core.rvHartID)
    (h' : Performs cs' t u) : Performs (cs ++ cs') s u where
  bus := by rw [List.foldl_append, h'.bus, h.bus, hart]
  events := by
    rw [h'.events, h.events, List.map_append, List.reverse_append, List.append_assoc]

theorem of_internal (h : Internal s t) : Performs [] s t where
  bus := h.bus
  events := by
    obtain ⟨evs, htrace, hevs⟩ := h.events
    rw [htrace, busEvents_append, busEvents_quiet hevs]
    rfl

theorem refl (s : Machine β) : Performs [] s s := of_internal (.refl s)

end Performs

/-! ## A lookup -/

/-- No more than a walk from one machine to the other. -/
def Walks (s t : Machine β) : Prop :=
  ∃ ptes : List Addr, ptes.length ≤ 3 ∧ Performs (walkCalls ptes) s t

theorem walks_translating (s : Machine β) (va : BitVec 64) : Walks s (translating va s) :=
  ⟨[], Nat.zero_le 3, .of_internal ⟨rfl, rfl, rfl, [.translate va s.mmu s.core.satp s.bus], rfl, by
    simp [onBus]⟩⟩

/-- The reads of a walk are its calls. -/
theorem walks_readTables (s : Machine β) (va : BitVec 64) (m : MMU) :
    Walks s { readTables (translating va s) (pageWalk s.core.satp s.bus va) with mmu := m } := by
  refine ⟨(pageWalk s.core.satp s.bus va).reads.map Prod.fst, ?_, ?_, ?_⟩
  · rw [List.length_map]
    exact RadixWalk.walk_reads_length
  · unfold walkCalls
    rw [List.foldl_map]
    exact RadixWalk.walk_state fun _ _ => rfl
  · have hevents : (readTables (translating va s) (pageWalk s.core.satp s.bus va)).trace =
        ((walkCalls ((pageWalk s.core.satp s.bus va).reads.map Prod.fst)).map
          BusCall.event).reverse ++ (translating va s).trace := by
      simp [readTables, walkCalls, BusCall.event, Function.comp_def]
    show busEvents (readTables _ _).trace = _
    rw [hevents, busEvents_append, busEvents_calls]
    rfl

theorem looked_walks (s : Machine β) (va : BitVec 64) : Walks s (looked s va) := by
  have hnone := walks_translating s va
  unfold looked final
  rw [getTLBEntry_eq]
  by_cases hc : canonicalCheck va = true
  · simp only [if_pos hc]
    rcases hits s.mmu (Satp.asid s.core.satp) va with _ | ⟨i, _ | ⟨j, rest⟩⟩
    · by_cases hmode : Satp.mode s.core.satp = 8
      · have hsame : pageWalk (translating va s).core.satp (translating va s).bus va =
            pageWalk s.core.satp s.bus va := rfl
        have hread := walks_readTables s va
        simp only [walkTables_eq va (translating va s) hmode, finish, hsame]
        cases (pageWalk s.core.satp s.bus va).result with
        | unreadable | fault => exact hread s.mmu
        | leaf l pte => exact hread _
      · simp only [walkTables_absent (s := translating va s) hmode]
        exact hnone
    · exact hnone
    · exact hnone
  · simp only [if_neg hc]
    exact hnone

/-! ## An access -/

variable {α ρ : Type} {P Q R : List BusCall → Prop}

/-- Code that leaves the core alone and makes such calls, however it ends. -/
def Uses (P : List BusCall → Prop) (x : Emu β α) : Prop :=
  ∀ s, ∃ cs, P cs ∧ Performs cs s (final x s) ∧ (final x s).core = s.core

/-- Code that makes no call. -/
abbrev Silent (x : Emu β α) : Prop := Uses (· = []) x

theorem Uses.mono {x : Emu β α} (h : Uses P x) (hPQ : ∀ cs, P cs → Q cs) : Uses Q x := by
  intro s
  obtain ⟨cs, hcs, hperf⟩ := h s
  exact ⟨cs, hPQ cs hcs, hperf⟩

/-- The second half is left out when the first aborts. -/
theorem uses_bind {x : Emu β α} {f : α → Emu β ρ} (hx : Uses P x) (hf : ∀ a, Uses Q (f a))
    (hfirst : ∀ cs, P cs → R cs) (hboth : ∀ cs cs', P cs → Q cs' → R (cs ++ cs')) :
    Uses R (x >>= f) := by
  intro s
  obtain ⟨cs, hcs, hperf, hcore⟩ := hx s
  cases hrun : x s with
  | error e t =>
    rw [final_of_error hrun] at hperf hcore
    rw [final_of_error (bind_of_error hrun)]
    exact ⟨cs, hfirst cs hcs, hperf, hcore⟩
  | ok a t =>
    rw [final_of_ok hrun] at hperf hcore
    obtain ⟨cs', hcs', hperf', hcore'⟩ := hf a t
    rw [final_congr (bind_of_ok hrun)]
    refine ⟨cs ++ cs', hboth cs cs' hcs hcs', hperf.trans ?_ hperf', hcore'.trans hcore⟩
    rw [hcore]

theorem uses_ite {c : Prop} [Decidable c] {x y : Emu β α} (hx : Uses P x) (hy : Uses P y) :
    Uses P (if c then x else y) := by
  split
  · exact hx
  · exact hy

theorem silent_pure (a : α) : Silent (β := β) (pure a) := fun s => ⟨[], rfl, .refl s, rfl⟩

theorem silent_throw (e : Assertion) : Silent (β := β) (throw e : Emu β α) :=
  fun s => ⟨[], rfl, .refl s, rfl⟩

/-- What follows makes no call. -/
theorem uses_silent {x : Emu β α} {f : α → Emu β ρ} (hx : Uses P x) (hf : ∀ a, Silent (f a)) :
    Uses P (x >>= f) := by
  apply uses_bind hx hf
  · exact fun _ hcs => hcs
  · rintro cs _ hcs rfl
    simpa using hcs

section Acts

variable (pa : Addr) (n : Nat)

theorem uses_doLoad : Uses (· = [.load pa n]) (doLoad (β := β) pa n) :=
  fun _ => ⟨_, rfl, ⟨rfl, rfl⟩, rfl⟩

theorem uses_doStore (data : BitVec (8 * n)) :
    Uses (· = [.store pa n data]) (doStore (β := β) pa n data) :=
  fun _ => ⟨_, rfl, ⟨rfl, rfl⟩, rfl⟩

theorem uses_doReserve : Uses (· = [.reserve pa n]) (doReserve (β := β) pa n) :=
  fun _ => ⟨_, rfl, ⟨rfl, rfl⟩, rfl⟩

theorem uses_doCheck : Uses (· = [.check pa n]) (doCheck (β := β) pa n) :=
  fun _ => ⟨_, rfl, ⟨rfl, rfl⟩, rfl⟩

theorem uses_amoLoad {n : Nat} (hn : n = 4 ∨ n = 8) :
    Uses (· = [.load pa n]) (amoLoad (β := β) pa n) := by
  intro s
  rw [final_of_ok (amoLoad_run hn pa s)]
  exact ⟨_, rfl, ⟨rfl, rfl⟩, rfl⟩

theorem uses_physRead : Uses (· = [.load pa n]) (physRead (β := β) pa n) :=
  uses_silent (uses_doLoad pa n) fun _ => silent_pure _

theorem uses_physWrite (ok fault : ρ) (data : BitVec (8 * n)) :
    Uses (· = [.store pa n data]) (physWrite (β := β) ok fault pa n data) :=
  uses_silent (uses_doStore pa n data) fun _ => silent_pure _

theorem uses_physLoadReserved :
    Uses (AccessCalls pa n) (physLoadReserved (β := β) pa n) := by
  apply uses_bind (uses_doReserve pa n)
  · exact fun _ => uses_silent (uses_doLoad pa n) fun _ => silent_pure _
  · rintro _ rfl
    exact .reserved
  · rintro _ _ rfl rfl
    exact .loadReserved

/-- SC stores only when the check answers yes. -/
theorem uses_physStoreConditional (fault : BitVec 63) (data : BitVec (8 * n)) :
    Uses (AccessCalls pa n) (physStoreConditional (β := β) fault pa n data) := by
  apply uses_bind (Q := fun cs => cs = [] ∨ cs = [.store pa n data]) (uses_doCheck pa n)
  · intro checked
    apply uses_ite
    · exact (silent_pure _).mono fun _ => .inl
    · exact (uses_silent (uses_doStore pa n data) fun _ => silent_pure _).mono fun _ => .inr
  · rintro _ rfl
    exact .checked
  · rintro _ _ rfl (rfl | rfl)
    · exact .checked
    · exact .storeConditional data

/-- An AMO stores only when the load succeeds. -/
theorem uses_physAmo {n : Nat} (hn : n = 4 ∨ n = 8) (op : AMOFunct) (src : BitVec 64) :
    Uses (AccessCalls pa n) (physAmo (β := β) pa n op src) := by
  apply uses_silent (f := fun _ => pure _)
  · apply uses_bind (Q := fun cs => cs = [] ∨ ∃ data, cs = [.store pa n data])
      (uses_amoLoad pa hn)
    · intro r
      apply uses_ite
      · exact (silent_pure _).mono fun _ => .inl
      · cases amoResult op src r.2 with
        | none => exact (silent_throw _).mono fun _ => .inl
        | some toWrite =>
          exact (uses_silent (uses_doStore pa n _) fun _ => silent_pure _).mono
            fun _ hcs => .inr ⟨_, hcs⟩
    · rintro _ rfl
      exact .load
    · rintro _ _ rfl (rfl | ⟨data, rfl⟩)
      · exact .load
      · exact .amo data
  · exact fun _ => silent_pure _

/-- The access of a path at a physical address. -/
theorem uses_act {a : DataAccess} (h : WellFormed a) :
    Uses (β := β) (AccessCalls pa a.size) (a.act pa) := by
  cases a with
  | read va n =>
    apply (uses_physRead pa n).mono
    rintro _ rfl
    exact .load
  | write va n data =>
    apply (uses_physWrite pa n _ _ data).mono
    rintro _ rfl
    exact .store data
  | loadReserved va n => exact uses_physLoadReserved pa n
  | storeConditional va n data => exact uses_physStoreConditional pa n _ data
  | amo va n op src => exact uses_physAmo pa h.1 op src

theorem uses_bare {a : DataAccess} (h : WellFormed a) :
    Uses (β := β) (AccessCalls a.beginAddr a.size) a.bare := by
  cases a with
  | read va n =>
    apply (uses_physRead va n).mono
    rintro _ rfl
    exact .load
  | write va n data =>
    apply (uses_physWrite va n _ _ data).mono
    rintro _ rfl
    exact .store data
  | loadReserved va n => exact uses_physLoadReserved va n
  | storeConditional va n data => exact uses_physStoreConditional va n _ data
  | amo va n op src => exact uses_physAmo va h.1 op src

end Acts

/-! ## A path -/

section Path

variable {p : Path β ρ} {access : Addr → List BusCall → Prop}

/-- A path walks the tables and makes its access, or ends before. -/
theorem uses_path {pa : Addr} (hbare : Uses (access pa) p.bare)
    (hact : ∀ pa, Uses (access pa) (p.act pa)) (hnil : ∀ pa, access pa []) (s : Machine β) :
    ∃ pa cs, PathCalls (access pa) cs ∧ Performs cs s (final p.run s) ∧
      (final p.run s).core = s.core := by
  by_cases hd : p.direct s.core = true
  · obtain ⟨cs, hcs, hperf⟩ := hbare s
    rw [final_congr (Path.run_direct hd)]
    exact ⟨pa, cs, ⟨[], cs, rfl, Nat.zero_le 3, hcs⟩, hperf⟩
  have hd' := Bool.eq_false_iff.mpr hd
  by_cases hcross : crossesPage p.beginAddr p.size = true
  · rw [final_of_ok (Path.run_crossing hd' hcross)]
    exact ⟨pa, [], ⟨[], [], rfl, Nat.zero_le 3, hnil pa⟩, .refl s, rfl⟩
  have hrun := Path.run_lookUp (s := s) hd' (Bool.eq_false_iff.mpr hcross)
  obtain ⟨ptes, hlen, hwalk⟩ := looked_walks s p.beginAddr
  have hcore := looked_core s p.beginAddr
  have hends : PathCalls (access pa) (walkCalls ptes) :=
    ⟨ptes, [], (List.append_nil _).symm, hlen, hnil pa⟩
  cases hl : lookUp s p.beginAddr with
  | stops e =>
    rw [hl] at hrun
    rw [final_of_error hrun]
    exact ⟨pa, _, hends, hwalk, hcore⟩
  | absent =>
    rw [hl] at hrun
    rw [final_of_ok hrun]
    exact ⟨pa, _, hends, hwalk, hcore⟩
  | found e =>
    rw [hl] at hrun
    cases hrefuse : p.refuse s.core e with
    | some code =>
      simp only [hrefuse] at hrun
      rw [final_of_ok hrun]
      exact ⟨pa, _, hends, hwalk, hcore⟩
    | none =>
      simp only [hrefuse] at hrun
      rw [final_congr hrun]
      obtain ⟨cs, hcs, hperf, hcore'⟩ :=
        hact (e.ppa + p.beginAddr % e.pagesize.bytes) (looked s p.beginAddr)
      refine ⟨_, walkCalls ptes ++ cs, ⟨ptes, cs, rfl, hlen, hcs⟩, ?_, hcore'.trans hcore⟩
      apply hwalk.trans _ hperf
      rw [hcore]

end Path

/-- A call of a data path. -/
theorem uses_access {a : DataAccess} (h : WellFormed a) (s : Machine β) :
    ∃ pa cs, PathCalls (AccessCalls pa a.size) cs ∧ Performs cs s (final a.run s) ∧
      (final a.run s).core = s.core := by
  have hsized : a.Sized := by
    cases a with
    | amo va n op src => exact h.1
    | _ => trivial
  rw [final_congr (DataAccess.run_path hsized s)]
  exact @uses_path β _ _ (a.path β) (fun pa => AccessCalls pa a.size) _ (uses_bare h)
    (fun pa => uses_act pa h) (fun _ => .none) s

/-! ## The step -/

theorem uses_part {va : BitVec 64} (n : Nat) :
    Uses (β := β) (PathCalls (LoadCalls n)) (instFetchPart va n) := by
  have hread : ∀ pa, Uses (β := β) (LoadCalls n) (physRead pa n) := by
    intro pa
    exact (uses_physRead pa n).mono fun _ hcs => .inr ⟨pa, hcs⟩
  by_cases heven : va % 2 = 0
  · intro s
    rw [final_congr (instFetchPart_path heven s)]
    obtain ⟨-, hpath⟩ := @uses_path β _ _ (fetchPath β va n) (fun _ => LoadCalls n) va
      (hread va) hread (fun _ => .inl rfl) s
    exact hpath
  · intro s
    have hodd : instFetchPart va n s = .error .fetchAlign s := by
      unfold instFetchPart assertThat
      rw [if_neg heven]
      rfl
    rw [final_of_error hodd]
    exact ⟨[], ⟨[], [], rfl, Nat.zero_le 3, .inl rfl⟩, .refl s, rfl⟩

/-- The fetch of a step. -/
theorem uses_fetch (va : BitVec 64) : Uses (β := β) FetchCalls (vaddrInstFetchMMUAPI va 4) := by
  have hassert : Silent (β := β) (assertThat (va % 2 = 0) .fetchAlign) :=
    uses_ite (silent_pure ()) (silent_throw _)
  apply uses_bind hassert (Q := FetchCalls)
  · intro _
    apply uses_ite
    · apply uses_bind (uses_part 2) (Q := fun cs => cs = [] ∨ PathCalls (LoadCalls 2) cs)
      · intro low
        apply uses_ite
        · exact (silent_pure _).mono fun _ => .inl
        · apply Uses.mono _ fun _ => .inr
          apply uses_silent (uses_part 2)
          exact fun high => uses_ite (silent_pure _) (silent_pure _)
      · exact fun _ => .half
      · rintro cs _ hlow (rfl | hhigh)
        · simpa using FetchCalls.half hlow
        · exact .halves hlow hhigh
    · exact (uses_part 4).mono fun _ => .word
  · rintro _ rfl
    exact .none
  · rintro _ cs rfl hcs
    exact hcs

theorem called_performs (h : Called s t) : ∃ cs, DataCalls cs ∧ Performs cs s t := by
  cases h with
  | none => exact ⟨[], .inl rfl, .refl s⟩
  | fence va asid => exact ⟨[], .inl rfl, rfl, rfl⟩
  | access a hform =>
    obtain ⟨pa, cs, hcs, hperf, -⟩ := uses_access hform s
    refine ⟨cs, .inr ⟨pa, a.size, ?_, hcs⟩, hperf⟩
    cases a with
    | read | write => exact hform
    | loadReserved | storeConditional => exact .inr (.inr hform)
    | amo => exact .inr (.inr hform.1)

theorem fetches_performs (h : Fetches s t) : ∃ cs, FetchCalls cs ∧ Performs cs s t ∧
    t.core.rvHartID = s.core.rvHartID := by
  cases h with
  | none => exact ⟨[], .none, ⟨rfl, rfl⟩, rfl⟩
  | fetch =>
    obtain ⟨cs, hcs, hperf, hcore⟩ := uses_fetch s.core.currentProgramCounter (fetching s)
    refine ⟨cs, hcs, ⟨hperf.bus, hperf.events⟩, ?_⟩
    rw [hcore]
    rfl

/-- However a step ends, the bus has been called as a step calls it, and is left as these calls
leave it. -/
theorem step_performs (s : Machine β) : ∃ cs, StepCalls cs ∧ Performs cs s (final step s) := by
  obtain ⟨m, m', u, hfetch, hdecode, -, hcall, hend⟩ := step_called s
  obtain ⟨fetch, hfetches, hm, hart⟩ := fetches_performs hfetch
  obtain ⟨data, hdata, hu⟩ := called_performs hcall
  have hm' : Performs fetch s m' := by
    simpa using hm.trans hart (.of_internal hdecode)
  have hu' : Performs (fetch ++ data) s u := hm'.trans (hdecode.hart.trans hart) hu
  obtain ⟨evs, htrace, hevs⟩ := hend.events
  refine ⟨fetch ++ data, ⟨fetch, data, rfl, hfetches, hdata⟩, hend.bus.trans hu'.bus, ?_⟩
  rw [htrace, busEvents_append, busEvents_quiet hevs, List.nil_append, hu'.events]

end Performs

end NextEmu.Simple.BusCalls
