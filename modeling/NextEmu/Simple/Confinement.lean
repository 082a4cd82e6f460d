import NextEmu.Simple.Boundary
import NextEmu.Simple.SingleAccess
import NextEmu.Simple.VirtualRuns

/-!
# What a program of U mode can reach

A program whose tables keep their own entries out of its reach stays behind them: as long as it
does not trap, whatever it executes, its accesses go to bytes that leaves of its tables open to it,
no other byte of main memory changes, and neither do the registers that belong to S and M mode.
The TLB cannot let it out, because its entries stay those of the tables.
-/

namespace NextEmu.Simple.Confinement

open NextEmu.Lib NextEmu.Lib.AbortState NextEmu.Lib.BitField NextEmu.Lib.BlockCache
open NextEmu.Lib.ByteMemory NextEmu.Lib.RadixWalk NextEmu.Sdk
open CompressedFetch DataPaths Isolation LoadStore Outcomes Permitted SingleAccess Translation
open Transparency
open Unaborted VirtualRuns WalkConformance

/-! ## Domains -/

/-- The address space of a program: `satp`, and what its tables hold. -/
structure Domain where
  satp : BitVec 64
  tables : Addr → BitVec 64

/-- The event is a store. -/
def isStore {β : Type} : Event β → Bool
  | .store _ _ => true
  | _ => false

namespace Domain

variable (d : Domain)

/-- The leaf that the tables hold for an address. -/
def LeafAt (va : BitVec 64) (l : Nat) (pte : BitVec 64) : Prop :=
  canonicalCheck va = true ∧
    (tableWalk (AddrBus Empty) d.tables d.satp va).result = .leaf l pte

/-- The byte lies in a page that a leaf opens to U mode for the access. -/
def Gives (acc : Sv39.Access) (pa : Addr) : Prop :=
  ∃ va l pte, d.LeafAt va l pte ∧ Sv39.Leaf.allows ⟨l, pte⟩ true false acc = true ∧
    (PTE.paddr pte).toNat ≤ pa.toNat ∧
    pa.toNat < (PTE.paddr pte).toNat + (sizeOfLevel l).bytes.toNat

/-- The entries that are read for an address. -/
def entriesOf (va : BitVec 64) : List Addr :=
  (tableWalk (AddrBus Empty) d.tables d.satp va).reads.map Prod.fst

/-- No leaf is global, and none opens an entry of the tables for stores. -/
structure Sealed : Prop where
  paging : Satp.mode d.satp = 8
  notGlobal : ∀ va l pte, d.LeafAt va l pte → PTE.g pte = false
  tables : ∀ va, canonicalCheck va = true → ∀ e ∈ d.entriesOf va, ∀ k, k < 8 →
    ¬ d.Gives .store (e + BitVec.ofNat 64 k)

/-- The event touches bytes that are given for one kind of access, for stores if it is one. -/
def Admits {β : Type} (e : Event β) : Prop :=
  ∀ pa n, touches e = some (pa, n) → ∃ acc, (isStore e = true → acc = .store) ∧
    ∀ k, k < n → d.Gives acc (pa + BitVec.ofNat 64 k)

/-- Main memory is where it was, and the same but for bytes that are given for stores. -/
structure Spares {δ : Type} (b c : AddrBus δ) : Prop where
  attached : c.mainMem.isSome = b.mainMem.isSome
  begins : c.memBeginAddr = b.memBeginAddr
  ends : c.memEndAddr = b.memEndAddr
  memory : ∀ a, ¬ d.Gives .store a → contents c a = contents b a

end Domain

theorem Domain.LeafAt.valid {d : Domain} {va : BitVec 64} {l : Nat} {pte : BitVec 64}
    (h : d.LeafAt va l pte) : isValidLeafPTE pte = true := by
  have hkind : ((sv39 (β := AddrBus Empty)).ofMap d.tables).kind pte = .leaf :=
    walk_leaf_kind h.2
  change (sv39 (β := AddrBus Empty)).kind pte = .leaf at hkind
  rw [sv39_kind] at hkind
  split at hkind
  · assumption
  · split at hkind <;> cases hkind

section Spares

variable {δ : Type} {d : Domain} {b c e : AddrBus δ}

theorem Domain.Spares.of_region (h : region c = region b) : d.Spares b c where
  attached := congrArg (fun r => r.1.isSome) h
  begins := congrArg (fun r => r.2.1) h
  ends := congrArg (fun r => r.2.2) h
  memory a _ := congrFun (congrArg contentsOf h) a

theorem Domain.Spares.trans (h : d.Spares b c) (h' : d.Spares c e) : d.Spares b e where
  attached := h'.attached.trans h.attached
  begins := h'.begins.trans h.begins
  ends := h'.ends.trans h.ends
  memory a ha := (h'.memory a ha).trans (h.memory a ha)

theorem Domain.Spares.contains (h : d.Spares b c) {a : Addr} {n : Nat} (hin : Contains b a n) :
    Contains c a n :=
  ⟨h.attached.trans hin.attached, h.begins ▸ hin.begins, h.ends ▸ hin.ends⟩

/-- Words none of whose bytes are given for stores. -/
theorem Domain.Spares.word (h : d.Spares b c) {a : Addr} {n : Nat}
    (hout : ∀ k, k < n → ¬ d.Gives .store (a + BitVec.ofNat 64 k)) :
    word (contents c) a n = word (contents b) a n := by
  induction n generalizing a with
  | zero => rfl
  | succ n ih =>
    have hfirst := hout 0 (Nat.succ_pos n)
    rw [BitVec.add_zero] at hfirst
    unfold ByteMemory.word
    have hrest : ∀ k, k < n → ¬ d.Gives .store (a + 1 + BitVec.ofNat 64 k) := by
      intro k hk
      rw [MappedMemory.ofNat_succ]
      exact hout (k + 1) (Nat.succ_lt_succ hk)
    rw [ih hrest, h.memory a hfirst]

end Spares

/-! ## Accesses at physical addresses -/

section Frame

variable {δ : Type} [SlaveIOI δ] {s t u : Machine (AddrBus δ)} {w : Bool} {pa : Addr} {n : Nat}

omit [SlaveIOI δ] in
/-- A copy leaves alone what is not among its bytes, also where it leaves the array. -/
theorem writeBytes_beside (m : Nat → BitVec 8) (first a c : Addr) (x : BitVec (8 * n))
    (hc : n ≤ (c - a).toNat) :
    writeBytes m (a - first).toNat n x (c - first).toNat = m (c - first).toNat := by
  refine if_neg fun hrange => ?_
  rw [BitVec.toNat_sub] at hc
  rw [BitVec.toNat_sub, BitVec.toNat_sub] at hrange
  have hfirst := first.isLt
  have ha := a.isLt
  omega

/-- A store changes no bytes of main memory but its own. -/
theorem store_frame (b : AddrBus δ) (a : Addr) (n : Nat) (x : BitVec (8 * n)) :
    (b.store a n x).2.mainMem.isSome = b.mainMem.isSome ∧
      (b.store a n x).2.memBeginAddr = b.memBeginAddr ∧
      (b.store a n x).2.memEndAddr = b.memEndAddr ∧
      ∀ c, n ≤ (c - a).toNat → contents (b.store a n x).2 c = contents b c := by
  obtain ⟨hmain, hbegin, hend, -⟩ := b.breakReservation_memory a (BitVec.ofNat 64 n)
  have hsame : ∀ c : AddrBus δ, region c = region (b.breakReservation a (BitVec.ofNat 64 n)) →
      c.mainMem.isSome = b.mainMem.isSome ∧ c.memBeginAddr = b.memBeginAddr ∧
        c.memEndAddr = b.memEndAddr ∧ ∀ i, n ≤ (i - a).toNat → contents c i = contents b i := by
    intro c hc
    have hregion := hc.trans (region_congr hmain hbegin hend)
    exact ⟨congrArg (fun r => r.1.isSome) hregion, congrArg (fun r => r.2.1) hregion,
      congrArg (fun r => r.2.2) hregion, fun i _ => congrFun (congrArg contentsOf hregion) i⟩
  unfold AddrBus.store AddrBus.storeRouted
  split
  · rename_i hin
    refine ⟨?_, hbegin, hend, fun c hc => ?_⟩
    · simp only [AddrBus.inMainMem, Bool.and_eq_true] at hin
      rw [← hmain, hin.1.1]
      rfl
    · have hbeside := writeBytes_beside (b.mainMem.getD fun _ => 0) b.memBeginAddr a c x hc
      rw [← hmain, ← hbegin] at hbeside
      exact hbeside.trans (by rw [hmain, hbegin]; rfl)
  · split
    · exact hsame _ rfl
    · exact hsame _ rfl

/-- Nothing was touched but `n` bytes from `pa` on, and if `w` is false none were stored. -/
structure Alters (w : Bool) (pa : Addr) (n : Nat) (s t : Machine (AddrBus δ)) : Prop where
  core : t.core = s.core
  mmu : t.mmu = s.mmu
  attached : t.bus.mainMem.isSome = s.bus.mainMem.isSome
  begins : t.bus.memBeginAddr = s.bus.memBeginAddr
  ends : t.bus.memEndAddr = s.bus.memEndAddr
  memory : ∀ a, (w = true → n ≤ (a - pa).toNat) → contents t.bus a = contents s.bus a
  events : ∃ evs, t.trace = evs ++ s.trace ∧
    ∀ e ∈ evs, touches e = some (pa, n) ∧ (isStore e = true → w = true)

omit [SlaveIOI δ] in
theorem Alters.refl (s : Machine (AddrBus δ)) : Alters w pa n s s :=
  ⟨rfl, rfl, rfl, rfl, rfl, fun _ _ => rfl, [], rfl, fun _ h => absurd h List.not_mem_nil⟩

omit [SlaveIOI δ] in
theorem Alters.trans (s t u : Machine (AddrBus δ)) (h : Alters w pa n s t)
    (h' : Alters w pa n t u) : Alters w pa n s u := by
  obtain ⟨evs, htrace, hevs⟩ := h.events
  obtain ⟨evs', htrace', hevs'⟩ := h'.events
  refine ⟨h'.core.trans h.core, h'.mmu.trans h.mmu, h'.attached.trans h.attached,
    h'.begins.trans h.begins, h'.ends.trans h.ends,
    fun a ha => (h'.memory a ha).trans (h.memory a ha), evs' ++ evs, ?_, fun e he => ?_⟩
  · rw [htrace', htrace, List.append_assoc]
  · rcases List.mem_append.mp he with he | he
    · exact hevs' e he
    · exact hevs e he

/-- Commands that do no more, whichever way they end. -/
abbrev Altering (w : Bool) (pa : Addr) (n : Nat) {α : Type} (x : Emu (AddrBus δ) α) : Prop :=
  Tracks (Alters w pa n) (fun _ _ => True) x

omit [SlaveIOI δ] in
theorem alters_pure {α : Type} (a : α) : Altering (δ := δ) w pa n (pure a) :=
  Tracks.pure Alters.refl a

omit [SlaveIOI δ] in
theorem alters_bind {α γ : Type} {x : Emu (AddrBus δ) α} {f : α → Emu (AddrBus δ) γ}
    (hx : Altering w pa n x) (hf : ∀ a, Altering w pa n (f a)) : Altering w pa n (x >>= f) :=
  Tracks.bind Alters.trans hx hf

omit [SlaveIOI δ] in
/-- A use of the bus that leaves main memory alone. -/
theorem alters_region {b : AddrBus δ} (hb : region b = region s.bus) {e : Event (AddrBus δ)}
    (ht : touches e = some (pa, n)) (hs : isStore e = false) :
    Alters w pa n s { s with bus := b, trace := e :: s.trace } := by
  refine ⟨rfl, rfl, congrArg (fun r => r.1.isSome) hb, congrArg (fun r => r.2.1) hb,
    congrArg (fun r => r.2.2) hb, fun a _ => congrFun (congrArg contentsOf hb) a, [e], rfl, ?_⟩
  intro e' he
  rw [List.mem_singleton.mp he]
  exact ⟨ht, fun hstore => absurd (hs.symm.trans hstore) Bool.false_ne_true⟩

theorem alters_doLoad : Altering (δ := δ) w pa n (doLoad pa n) :=
  fun s => alters_region (region_view.load s.bus pa n) rfl rfl

theorem alters_doReserve : Altering (δ := δ) w pa n (doReserve pa n) :=
  fun s => alters_region (region_view.reserve s.bus pa n s.core.rvHartID) rfl rfl

theorem alters_doCheck : Altering (δ := δ) w pa n (doCheck pa n) :=
  fun s => alters_region (region_view.check s.bus pa n s.core.rvHartID) rfl rfl

theorem alters_doStore (x : BitVec (8 * n)) : Altering (δ := δ) true pa n (doStore pa n x) := by
  intro s
  obtain ⟨hmain, hbegin, hend, hbytes⟩ := store_frame s.bus pa n x
  refine ⟨rfl, rfl, hmain, hbegin, hend, fun a ha => hbytes a (ha rfl), [.store pa n], rfl, ?_⟩
  intro e he
  rw [List.mem_singleton.mp he]
  exact ⟨rfl, fun _ => rfl⟩

theorem alters_physRead : Altering (δ := δ) w pa n (physRead pa n) :=
  alters_bind alters_doLoad fun _ => alters_pure _

theorem alters_physAmo (hn : n = 4 ∨ n = 8) (op : AMOFunct) (src : BitVec 64) :
    Altering (δ := δ) true pa n (physAmo pa n op src) := by
  have hload : Altering (δ := δ) true pa n (amoLoad pa n) := by
    unfold amoLoad
    rcases hn with rfl | rfl
    · exact alters_bind alters_doLoad fun _ => alters_pure _
    · exact alters_bind alters_doLoad fun _ => alters_pure _
  refine alters_bind (alters_bind hload fun r => Tracks.ite (alters_pure _) ?_) fun _ =>
    alters_pure _
  cases amoResult op src r.2 with
  | none => exact Tracks.throw Alters.refl fun _ => trivial
  | some toWrite => exact alters_bind (alters_doStore _) fun _ => alters_pure _

/-- The end of a data path. -/
theorem alters_act {a : DataAccess} (h : a.Sized) (pa : Addr) :
    Altering (δ := δ) (!a.loads) pa a.size (a.act pa) := by
  cases a with
  | read va n => exact alters_physRead
  | write va n data => exact alters_bind (alters_doStore data) fun _ => alters_pure _
  | loadReserved va n =>
    exact alters_bind alters_doReserve fun _ => alters_bind alters_doLoad fun _ => alters_pure _
  | storeConditional va n data =>
    exact alters_bind alters_doCheck fun _ => Tracks.ite (alters_pure _)
      (alters_bind (alters_doStore data) fun _ => alters_pure _)
  | amo va n op src => exact alters_physAmo h op src

end Frame

/-! ## The MMU of a domain -/

section Secure

variable {δ : Type} [SlaveIOI δ] {d : Domain} {roots : BitVec 16 → BitVec 44}
  {s t u : Machine (AddrBus δ)} {va : BitVec 64}

/-- Main memory holds the tables of the domain, and the TLB nothing but what they say. -/
structure Secure (d : Domain) (roots : BitVec 16 → BitVec 44) (s : Machine (AddrBus δ)) :
    Prop where
  held : ∀ va, canonicalCheck va = true → ∀ e ∈ d.entriesOf va,
    Contains s.bus e 8 ∧ word (contents s.bus) e 8 = d.tables e
  cached : Coherent (AddrBus δ) d.tables roots s.mmu

/-- The core is in U mode, in the domain. -/
structure Within (d : Domain) (roots : BitVec 16 → BitVec 44) (c : RV64Core) : Prop where
  mode : c.currentPrivMode = .uMode
  satp : c.satp = d.satp
  own : Satp.ppn d.satp = roots (Satp.asid d.satp)

/-- What the code of a program may do to the rest of the machine. -/
structure Kept (d : Domain) (s t : Machine (AddrBus δ)) : Prop where
  spares : d.Spares s.bus t.bus
  events : ∃ evs, t.trace = evs ++ s.trace ∧ ∀ e ∈ evs, d.Admits e

omit [SlaveIOI δ] in
theorem Kept.refl (s : Machine (AddrBus δ)) : Kept d s s :=
  ⟨Domain.Spares.of_region rfl, [], rfl, fun _ h => absurd h List.not_mem_nil⟩

omit [SlaveIOI δ] in
theorem Kept.trans (h : Kept d s t) (h' : Kept d t u) : Kept d s u := by
  obtain ⟨evs, htrace, hevs⟩ := h.events
  obtain ⟨evs', htrace', hevs'⟩ := h'.events
  refine ⟨h.spares.trans h'.spares, evs' ++ evs, ?_, fun e he => ?_⟩
  · rw [htrace', htrace, List.append_assoc]
  · rcases List.mem_append.mp he with he | he
    · exact hevs' e he
    · exact hevs e he

/-- The tables are out of reach, so they stay. -/
theorem Secure.kept (hd : d.Sealed) (hs : Secure d roots s) (h : d.Spares s.bus t.bus)
    (hcached : Coherent (AddrBus δ) d.tables roots t.mmu) : Secure d roots t := by
  refine ⟨fun va hva e he => ?_, hcached⟩
  obtain ⟨hin, hword⟩ := hs.held va hva e he
  exact ⟨h.contains hin, (h.word (hd.tables va hva e he)).trans hword⟩

/-- Behind code of a program: no more than that, and the core and the MMU as they should be. -/
structure After (d : Domain) (roots : BitVec 16 → BitVec 44) (s t : Machine (AddrBus δ)) :
    Prop where
  kept : Kept d s t
  core : t.core = s.core
  secure : Secure d roots t

theorem After.refl (hs : Secure d roots s) : After d roots s s := ⟨.refl s, rfl, hs⟩

theorem After.trans (h : After d roots s t) (h' : After d roots t u) : After d roots s u :=
  ⟨h.kept.trans h'.kept, h'.core.trans h.core, h'.secure⟩

/-- Code that keeps to it, whichever way it ends. -/
def Safe (d : Domain) (roots : BitVec 16 → BitVec 44) {α : Type} (x : Emu (AddrBus δ) α) :
    Prop := ∀ s, Secure d roots s → Within d roots s.core →
      wp x (fun _ t => After d roots s t) (fun _ t => After d roots s t) s

theorem safe_pure {α : Type} (a : α) : Safe (δ := δ) d roots (pure a) := fun _ hs _ => .refl hs

theorem safe_throw {α : Type} (e : Assertion) : Safe (δ := δ) d roots (throw e : Emu _ α) :=
  fun _ hs _ => .refl hs

theorem safe_bind {α ρ : Type} {x : Emu (AddrBus δ) α} {f : α → Emu (AddrBus δ) ρ}
    (hx : Safe d roots x) (hf : ∀ a, Safe d roots (f a)) : Safe d roots (x >>= f) := by
  intro s hs hin
  rw [wp_bind]
  refine wp_mono (hx s hs hin) (fun a t ht => ?_) (fun _ _ ht => ht)
  have hin' : Within d roots t.core := by
    rw [ht.core]
    exact hin
  exact wp_mono (hf a t ht.secure hin') (fun _ _ hu => ht.trans hu) (fun _ _ hu => ht.trans hu)

theorem safe_ite {p : Prop} [Decidable p] {α : Type} {x y : Emu (AddrBus δ) α}
    (hx : p → Safe d roots x) (hy : ¬ p → Safe d roots y) :
    Safe d roots (if p then x else y) := by
  by_cases h : p
  · rw [if_pos h]
    exact hx h
  · rw [if_neg h]
    exact hy h

theorem safe_assertThat (p : Prop) [Decidable p] (a : Assertion) :
    Safe (δ := δ) d roots (assertThat p a) :=
  safe_ite (fun _ => safe_pure ()) fun _ => safe_throw a

/-! ### The lookup -/

/-- The walk of an address reads what the tables hold. -/
theorem Secure.agrees (hs : Secure d roots s) (hcanon : canonicalCheck va = true) :
    Agrees d.tables (pageWalk d.satp s.bus va) := by
  refine agrees_of_reads fun r hr => ?_
  obtain ⟨hin, hword⟩ := hs.held va hcanon r.1 (List.mem_map_of_mem hr)
  have hload : (sv39 (β := AddrBus δ)).read s.bus r.1 =
      (if (s.bus.load r.1 8).1.1 = .success then some (s.bus.load r.1 8).1.2 else none,
        (s.bus.load r.1 8).2) := rfl
  rw [hload, load_contained hin, hword]
  rfl

/-- A lookup of the program answers with leaves of its tables only. -/
theorem looked_after (hd : d.Sealed) (hs : Secure d roots s) (hin : Within d roots s.core)
    (va : BitVec 64) : After d roots s (looked s va) ∧
      ∀ e, lookUp s va = .found e → ∃ l pte, d.LeafAt va l pte ∧
        e = leafEntry (Satp.asid d.satp) va l pte := by
  have hafter : Quiet s.bus (looked s va).bus →
      Coherent (AddrBus δ) d.tables roots (looked s va).mmu → After d roots s (looked s va) := by
    intro hquiet hcached
    have hspares : d.Spares s.bus (looked s va).bus := .of_region (region_view.quiet hquiet)
    obtain ⟨reads, htrace⟩ := looked_trace s va
    refine ⟨⟨hspares, _, htrace, fun e he pa n ht => ?_⟩, looked_core s va,
      hs.kept hd hspares hcached⟩
    rcases List.mem_append.mp he with he | he
    · obtain ⟨a, -, rfl⟩ := List.mem_map.mp he
      cases ht
    · rw [List.mem_singleton.mp he] at ht
      cases ht
  by_cases hcanon : canonicalCheck va = true
  · have hwalk : (pageWalk d.satp s.bus va).result =
        (tableWalk (AddrBus Empty) d.tables d.satp va).result := walk_eq_lookup (hs.agrees hcanon)
    have hcalm : Undisturbed d.tables roots va s := by
      refine ⟨hcanon, ?_, ?_, ?_, ?_⟩
      · rw [hin.satp]
        exact hd.paging
      · rw [hin.satp]
        exact hin.own
      · rw [hin.satp]
        exact hs.agrees hcanon
      · rw [hin.satp, hwalk]
        exact fun l pte hleaf => hd.notGlobal va l pte ⟨hcanon, hleaf⟩
    obtain ⟨t, hget, ht⟩ := hs.cached.translate hcalm
    have hlooked : looked s va = t := final_of_ok hget
    have hquiet := (wp_ok (silent_getTLBEntry va s) hget).2 not_false
    rw [hlooked] at hafter
    refine ⟨hlooked ▸ hafter hquiet.bus ht, fun e hfound => ?_⟩
    have hrun := (getTLBEntry_lookUp s va).2
    rw [hget, hfound] at hrun
    have hanswer : answer (AddrBus δ) d.tables roots (Satp.asid s.core.satp, va) = some e :=
      (EStateM.Result.ok.inj hrun).1
    obtain ⟨l, pte, hl, -, rfl⟩ := answer_some hanswer
    refine ⟨l, pte, ⟨hcanon, ?_⟩, by rw [hin.satp]⟩
    rw [hin.satp] at hl
    dsimp only at hl
    rw [← hin.own] at hl
    exact hl
  · have hget : getTLBEntry va s = .error .canonical (translating va s) := by
      rw [getTLBEntry_eq, if_neg hcanon]
    have hlooked : looked s va = translating va s := final_of_error hget
    rw [hlooked] at hafter
    refine ⟨hlooked ▸ hafter (.refl _) hs.cached, fun e hfound => ?_⟩
    unfold lookUp at hfound
    rw [if_neg hcanon] at hfound
    cases hfound

/-! ### The paths -/

/-- Bytes of an access that the leaf of its first byte opens. -/
theorem gives_bytes {l : Nat} {pte : BitVec 64} {acc : Sv39.Access} {n k : Nat}
    (hleaf : d.LeafAt va l pte) (hallows : Sv39.Leaf.allows ⟨l, pte⟩ true false acc = true)
    (hcross : crossesPage va n = false) (hn : n ≤ 8) (hk : k < n) :
    d.Gives acc (PTE.paddr pte + va % (sizeOfLevel l).bytes + BitVec.ofNat 64 k) := by
  obtain ⟨-, hpage⟩ := same_page hcross hn hk
  obtain ⟨hlo, hhi⟩ := byte_in_page (sizeOfLevel_ne l) hpage pte
  exact ⟨va, l, pte, hleaf, hallows, hlo, hhi⟩

/-- An access to bytes that are given keeps what there is to keep. -/
theorem After.altered (hd : d.Sealed) {acc : Sv39.Access} {pa : Addr} {n : Nat}
    (h : After d roots s t) (halter : Alters (decide (acc = .store)) pa n t u)
    (hgives : ∀ k, k < n → d.Gives acc (pa + BitVec.ofNat 64 k)) : After d roots s u := by
  have hmemory : ∀ a, ¬ d.Gives .store a → contents u.bus a = contents t.bus a := by
    intro a ha
    refine halter.memory a fun hw => Nat.le_of_not_lt fun hlt => ha ?_
    have hbyte : pa + BitVec.ofNat 64 (a - pa).toNat = a := by
      rw [BitVec.ofNat_toNat, BitVec.setWidth_eq, BitVec.add_comm, BitVec.sub_add_cancel]
    have hgiven := hgives (a - pa).toNat hlt
    rw [hbyte, of_decide_eq_true hw] at hgiven
    exact hgiven
  have hspares : d.Spares t.bus u.bus := ⟨halter.attached, halter.begins, halter.ends, hmemory⟩
  obtain ⟨evs, htrace, hevs⟩ := halter.events
  refine ⟨h.kept.trans ⟨hspares, evs, htrace, fun e he pa' n' ht => ?_⟩,
    halter.core.trans h.core, h.secure.kept hd hspares (halter.mmu ▸ h.secure.cached)⟩
  obtain ⟨htouch, hstore⟩ := hevs e he
  rw [ht] at htouch
  cases htouch
  exact ⟨acc, fun hs => of_decide_eq_true (hstore hs), hgives⟩

/-- A path whose refusals leave leaves that open the access, and whose end touches its bytes. -/
theorem safe_path (hd : d.Sealed) {ρ : Type} {p : Path (AddrBus δ) ρ} (acc : Sv39.Access)
    (hdirect : ∀ c, Within d roots c → p.direct c = false) (hsize : p.size ≤ 8)
    (hrefuse : ∀ c pte vpa size asid l, Within d roots c → isValidLeafPTE pte = true →
      p.refuse c (TLBEntry.ofLeaf pte vpa size asid) = none →
      Sv39.Leaf.allows ⟨l, pte⟩ true false acc = true)
    (hact : ∀ pa, Altering (decide (acc = .store)) pa p.size (p.act pa)) : Safe d roots p.run := by
  intro s hs hin
  cases hcross : crossesPage p.beginAddr p.size with
  | true => exact wp_congr (Path.run_crossing (hdirect _ hin) hcross) (safe_pure _ s hs hin)
  | false =>
    obtain ⟨hafter, hfound⟩ := looked_after hd hs hin p.beginAddr
    have hrun := Path.run_lookUp (s := s) (hdirect _ hin) hcross
    unfold wp
    rw [hrun]
    cases hl : lookUp s p.beginAddr with
    | stops e => exact hafter
    | absent => exact hafter
    | found e =>
      dsimp only
      cases hr : p.refuse s.core e with
      | some code => exact hafter
      | none =>
        obtain ⟨l, pte, hleaf, rfl⟩ := hfound e hl
        have hallows := hrefuse _ pte _ _ _ l hin hleaf.valid hr
        have hbytes : ∀ k, k < p.size → d.Gives acc
            (PTE.paddr pte + p.beginAddr % (sizeOfLevel l).bytes + BitVec.ofNat 64 k) :=
          fun k hk => gives_bytes hleaf hallows hcross hsize hk
        exact wp_mono (hact _ (looked s p.beginAddr))
          (fun _ _ hu => hafter.altered hd hu hbytes)
          (fun _ _ hu => hafter.altered hd hu.1 hbytes)

/-- The kinds of access, as in the manual. -/
def kindOf : Access → Sv39.Access
  | .load => .load
  | .store => .store
  | .fetch => .fetch

/-- What the checks of the core leave to U mode are leaves that the manual opens to it. -/
theorem allows_of_permits {c : RV64Core} (hmode : c.currentPrivMode = .uMode) {acc : Access}
    {pte : BitVec 64} (h : Permits c acc pte) (l : Nat) :
    Sv39.Leaf.allows ⟨l, pte⟩ true false (kindOf acc) = true := by
  have ha : Sv39.Entry.a pte = true := h.accessed
  have hu : Sv39.Entry.u pte = true := h.user hmode
  cases acc with
  | load =>
    have hr : Sv39.Entry.r pte = true := h.readable rfl
    simp [kindOf, Sv39.Leaf.allows, Sv39.Leaf.permits, ha, hu, hr]
  | store =>
    have hw : Sv39.Entry.w pte = true := (h.writable rfl).1
    have hdirty : Sv39.Entry.d pte = true := (h.writable rfl).2
    simp [kindOf, Sv39.Leaf.allows, Sv39.Leaf.permits, ha, hu, hw, hdirty]
  | fetch =>
    have hx : Sv39.Entry.x pte = true := h.executable rfl
    simp [kindOf, Sv39.Leaf.allows, ha, hu, hx]

theorem wellFormed_size {a : DataAccess} (h : WellFormed a) : a.size ≤ 8 := by
  have hsizes : ∀ n, Sizes n → n ≤ 8 := by
    rintro n (rfl | rfl | rfl | rfl) <;> decide
  cases a with
  | read va n | write va n data => exact hsizes n h
  | loadReserved va n | storeConditional va n data => exact hsizes n (.inr (.inr h))
  | amo va n op src => exact hsizes n (.inr (.inr h.1))

theorem safe_access (hd : d.Sealed) {a : DataAccess} (h : WellFormed a) :
    Safe (δ := δ) d roots a.run := by
  have hstore : decide ((if a.loads then Sv39.Access.load else .store) = .store) = !a.loads := by
    cases a.loads <;> rfl
  have hpath : Safe (δ := δ) d roots (a.path (AddrBus δ)).run := by
    refine safe_path hd (if a.loads then .load else .store) (fun c hc => ?_)
      (wellFormed_size h) (fun c pte vpa size asid l hc hvalid hr => ?_) fun pa => ?_
    · show c.dataBare = false
      unfold RV64Core.dataBare
      rw [hc.mode, hc.satp, hd.paging]
      rfl
    · have hpriv : c.currentPrivMode ≠ .mMode := by
        rw [hc.mode]
        exact PrivMode.noConfusion
      cases a with
      | read | loadReserved =>
        exact allows_of_permits hc.mode (readRefusal_permits hpriv hvalid hr) l
      | write | storeConditional | amo =>
        exact allows_of_permits hc.mode (writeRefusal_permits hpriv hvalid hr) l
    · rw [hstore]
      exact alters_act h.sized pa
  intro s hs hin
  exact wp_congr (DataAccess.run_path h.sized s) (hpath s hs hin)

theorem safe_part (hd : d.Sealed) (va : BitVec 64) {n : Nat} (hn : n ≤ 8) :
    Safe (δ := δ) d roots (instFetchPart va n) := by
  have hpath : Safe (δ := δ) d roots (fetchPath (AddrBus δ) va n).run := by
    refine safe_path hd .fetch (fun c hc => ?_) hn
      (fun c pte vpa size asid l hc hvalid hr => ?_) fun pa => alters_physRead
    · refine decide_eq_false fun hdirect => ?_
      rw [hc.mode, hc.satp, hd.paging] at hdirect
      exact absurd hdirect (by decide)
    · exact allows_of_permits hc.mode (fetchRefusal_permits hvalid hr) l
  intro s hs hin
  by_cases heven : va % 2 = 0
  · exact wp_congr (instFetchPart_path heven s) (hpath s hs hin)
  · unfold instFetchPart
    rw [wp_bind, wp_assertThat]
    exact ⟨fun h => absurd h heven, fun _ => .refl hs⟩

theorem safe_fetch (hd : d.Sealed) (va : BitVec 64) :
    Safe (δ := δ) d roots (vaddrInstFetchMMUAPI va 4) := by
  refine safe_bind (safe_assertThat _ _) fun _ => safe_ite (fun _ => ?_) fun _ =>
    safe_part hd va (by decide)
  refine safe_bind (safe_part hd va (by decide)) fun low =>
    safe_ite (fun _ => safe_pure _) fun _ => ?_
  exact safe_bind (safe_part hd _ (by decide)) fun high =>
    safe_ite (fun _ => safe_pure _) fun _ => safe_pure _

/-! ### The step -/

/-- A fence drops entries, and no more. -/
theorem Secure.fence (hs : Secure d roots s) (va asid : BitVec 64) :
    Secure d roots { s with mmu := s.mmu.flush va asid } where
  held := hs.held
  cached := by
    have hdropped := flush_dropped s.mmu va asid
    exact ⟨hs.cached.fits.dropped hdropped, hs.cached.single.dropped hdropped⟩

omit [SlaveIOI δ] in
theorem Kept.of_internal (h : Internal s t) : Kept d s t := by
  obtain ⟨evs, htrace, hevs⟩ := h.events
  refine ⟨.of_region (by rw [h.bus]), evs, htrace, fun e he pa n ht => ?_⟩
  rw [touches_none (hevs e he)] at ht
  cases ht

theorem Secure.of_internal (hs : Secure d roots s) (h : Internal s t) : Secure d roots t := by
  obtain ⟨hheld, hcached⟩ := hs
  rw [← h.bus] at hheld
  rw [← h.mmu] at hcached
  exact ⟨hheld, hcached⟩

/-- However code that keeps to it ends. -/
theorem Safe.final {α : Type} {x : Emu (AddrBus δ) α} (h : Safe d roots x)
    (hs : Secure d roots s) (hin : Within d roots s.core) : After d roots s (final x s) := by
  have hx := h s hs hin
  unfold wp at hx
  unfold AbortState.final
  cases hr : x s with
  | ok a t =>
    rw [hr] at hx
    exact hx
  | error e t =>
    rw [hr] at hx
    exact hx

/-- A step that starts in U mode keeps what there is to keep, however it ends. -/
theorem step_kept (hd : d.Sealed) (hs : Secure d roots s) (hmode : s.core.nextPrivMode = .uMode)
    (hsatp : s.core.satp = d.satp) (hown : Satp.ppn d.satp = roots (Satp.asid d.satp)) :
    Kept d s (final step s) ∧ Secure d roots (final step s) := by
  obtain ⟨m, m', u, hfetch, hdecode, hcore, hcall, hend⟩ := step_called s
  have hin : Within d roots (fetching s).core := ⟨hmode, hsatp, hown⟩
  have hstart : Secure d roots (fetching s) := ⟨hs.held, hs.cached⟩
  have hm : After d roots (fetching s) m := by
    cases hfetch with
    | none => exact .refl hstart
    | fetch => exact (safe_fetch hd _).final hstart hin
  have hm' : Secure d roots m' := hm.secure.of_internal hdecode
  have hin' : Within d roots m'.core := by
    rw [hcore, hm.core]
    exact hin
  have hu : Kept d m' u ∧ Secure d roots u := by
    cases hcall with
    | none => exact ⟨.refl m', hm'⟩
    | fence va asid =>
      exact ⟨⟨.of_region rfl, [], rfl, fun _ h => absurd h List.not_mem_nil⟩, hm'.fence va asid⟩
    | access a h =>
      have hafter := (safe_access hd h).final hm' hin'
      exact ⟨hafter.kept, hafter.secure⟩
  have hbegin : Kept d s m := ⟨hm.kept.spares, hm.kept.events⟩
  exact ⟨((hbegin.trans (.of_internal hdecode)).trans hu.1).trans (.of_internal hend),
    hu.2.of_internal hend⟩

end Secure

/-! ## The core -/

section Core

variable {c c' : RV64Core} {inst : BitVec 32}

/-- The core without what a program of U mode works on: the registers, the PC, the counters, and
what is noted anew in each step. -/
def controlOf (c : RV64Core) : RV64Core :=
  { c with
    intStatus := {}
    gpr := fun _ => 0
    csrMCycleNum := 0
    minstret := 0
    csrIntPending := 0
    currentProgramCounter := 0
    needTrap := false
    currentPrivMode := .uMode }

/-- No CSR may be written from U mode. -/
theorem user_csr {n : BitVec 12} (hmode : c.currentPrivMode = .uMode)
    (permitted : c.csrOpPermissionCheck n true = true) : CSRAddr.ofNumber n = none := by
  have hn : (n >>> 8 &&& 3).toNat ≤ 0 ∧ (n >>> 10 &&& 3 == 3) = false := by
    unfold RV64Core.csrOpPermissionCheck at permitted
    split at permitted
    · cases permitted
    · split at permitted
      · cases permitted
      · rename_i hl hw
        rw [hmode] at hl
        exact ⟨Nat.le_of_not_lt hl, by simpa using hw⟩
  unfold CSRAddr.ofNumber
  split
  all_goals
    first
    | rfl
    | exact absurd hn (by decide)

theorem controlOf_setGPR (c : RV64Core) (rd : BitVec 5) (value : BitVec 64) :
    controlOf (c.setGPR rd value) = controlOf c := by
  unfold RV64Core.setGPR
  split <;> rfl

theorem controlOf_retire (c : RV64Core) (l : StepLocals) :
    controlOf (c.advancePC l).retire = controlOf c := by
  unfold RV64Core.advancePC
  split
  · rfl
  · split <;> rfl

theorem Effect.control (hmode : c.currentPrivMode = .uMode) (h : Effect inst c c') :
    controlOf c' = controlOf c := by
  cases h with
  | gpr rd value => exact controlOf_setGPR c rd value
  | jump rd value pc => exact controlOf_setGPR c rd value
  | csr n data c'' rd value permitted written =>
    rw [user_csr hmode permitted] at written
    cases written
  | mret hinst hprev =>
    rw [hmode] at hprev
    cases hprev
  | sret hinst hprev =>
    rw [hmode] at hprev
    exact absurd hprev (by decide)

variable {δ : Type} [SlaveIOI δ] {s t : Machine (AddrBus δ)}

/-- A step of U mode that raises no trap. -/
theorem step_control (hmode : s.core.nextPrivMode = .uMode) (hstep : step s = .ok () t)
    (htraps : traps t.trace = []) : controlOf t.core = controlOf s.core := by
  have houtcome := wp_ok (step_outcome s) hstep
  cases houtcome with
  | trapped cause tval core bus hlog =>
    obtain ⟨fetched, hlog⟩ := hlog
    have hmem : (cause, tval) ∈ traps t.trace := by
      rw [mem_traps, hlog]
      exact List.mem_cons_self
    rw [htraps] at hmem
    exact absurd hmem List.not_mem_nil
  | done inst c l effect core hlog =>
    have hsampled : s.core.sampled.currentPrivMode = .uMode := hmode
    rw [core, controlOf_retire, Effect.control hsampled effect]
    rfl

end Core

/-! ## Runs -/

section Runs

variable {δ : Type} [SlaveIOI δ] {d : Domain} {s t : Machine (AddrBus δ)}

/-- The program is to run in the domain. -/
structure InDomain (d : Domain) (s : Machine (AddrBus δ)) : Prop where
  mode : s.core.nextPrivMode = .uMode
  satp : s.core.satp = d.satp
  held : ∀ va, canonicalCheck va = true → ∀ e ∈ d.entriesOf va,
    Contains s.bus e 8 ∧ word (contents s.bus) e 8 = d.tables e
  cached : ∃ roots, Satp.ppn d.satp = roots (Satp.asid d.satp) ∧
    Coherent (AddrBus δ) d.tables roots s.mmu

/-- Runs of steps that raise no trap. Between two of them the interrupt inputs and the devices may
change, main memory does not. -/
inductive UserRuns (s : Machine (AddrBus δ)) : Machine (AddrBus δ) → Prop
  | start : UserRuns s s
  | environment {t : Machine (AddrBus δ)} (hrun : UserRuns s t) (intStatus : IntStatus)
      (bus : AddrBus δ) (kept : region bus = region t.bus) :
      UserRuns s { t with core := { t.core with intStatus := intStatus }, bus := bus }
  | step {t u : Machine (AddrBus δ)} (hrun : UserRuns s t)
      (hstep : step { t with trace := [] } = .ok () u) (htraps : traps u.trace = []) :
      UserRuns s u

/-- A step from such a machine, whether it traps or not. -/
theorem confined_step (hd : d.Sealed) (hs : InDomain d s) :
    d.Spares s.bus (final step { s with trace := [] }).bus ∧
      (∀ e ∈ (final step { s with trace := [] }).trace, d.Admits e) ∧
      ∃ roots, Satp.ppn d.satp = roots (Satp.asid d.satp) ∧
        Secure d roots (final step { s with trace := [] }) := by
  obtain ⟨roots, hown, hcached⟩ := hs.cached
  obtain ⟨hkept, hsecure⟩ := step_kept (s := { s with trace := [] }) hd ⟨hs.held, hcached⟩
    hs.mode hs.satp hown
  obtain ⟨evs, htrace, hevs⟩ := hkept.events
  rw [List.append_nil] at htrace
  exact ⟨hkept.spares, htrace ▸ hevs, roots, hown, hsecure⟩

/-- What the steps of a run keep. -/
theorem userRuns_confined (hd : d.Sealed) (hs : InDomain d s) (hrun : UserRuns s t) :
    InDomain d t ∧ controlOf t.core = controlOf s.core ∧ d.Spares s.bus t.bus := by
  induction hrun with
  | start => exact ⟨hs, rfl, .of_region rfl⟩
  | @environment t _ intStatus bus kept ih =>
    obtain ⟨ht, hcontrol, hspares⟩ := ih
    have hbus : d.Spares t.bus bus := .of_region kept
    refine ⟨⟨ht.mode, ht.satp, fun va hva e he => ?_, ht.cached⟩, hcontrol, hspares.trans hbus⟩
    obtain ⟨hin, hword⟩ := ht.held va hva e he
    exact ⟨hin.congr kept, (hbus.word (hd.tables va hva e he)).trans hword⟩
  | @step t u _ hstep htraps ih =>
    obtain ⟨ht, hcontrol, hspares⟩ := ih
    obtain ⟨hkept, -, roots, hown, hsecure⟩ := confined_step hd ht
    have hfinal : final step { t with trace := [] } = u := final_of_ok hstep
    rw [hfinal] at hkept hsecure
    have hsame : controlOf u.core = controlOf t.core :=
      step_control (s := { t with trace := [] }) ht.mode hstep htraps
    have hmode : (controlOf u.core).nextPrivMode = (controlOf t.core).nextPrivMode := by rw [hsame]
    have hsatp : (controlOf u.core).satp = (controlOf t.core).satp := by rw [hsame]
    exact ⟨⟨hmode.trans ht.mode, hsatp.trans ht.satp, hsecure.held, roots, hown, hsecure.cached⟩,
      hsame.trans hcontrol, hspares.trans hkept⟩

end Runs

/-! ## A program in one gigapage -/

/-- The domain of the program of the sum. -/
def userDomain : Domain where
  satp := 0x8000000000080000
  tables := userPaging.tables

/-- The walk of an address: the leaf of the first slot, or a zero. -/
theorem user_walk (va : BitVec 64) :
    tableWalk (AddrBus Empty) userDomain.tables userDomain.satp va =
      if Sv39.vpn 2 va = 0 then ⟨.leaf 2 0x300000df, (), [(0x80000000, some 0x300000df)]⟩
      else ⟨.fault, (), [(0x80000000 + (Sv39.vpn 2 va).setWidth 64 * 8, some 0)]⟩ := by
  have hroot : rootOf userDomain.satp = 0x80000000 := by decide
  have hentry := user_slot va
  rw [vpn_eq (Nat.le_refl 2)] at hentry ⊢
  unfold tableWalk
  rw [hroot]
  unfold RadixWalk.walk visit
  simp only [Scheme.ofMap, sv39_slot, sv39_kind, Walked.after, Option.map_some]
  have htables : userDomain.tables = userPaging.tables := rfl
  rw [htables, hentry]
  by_cases hv : vpn 2 va = 0
  · rw [if_pos hv, if_pos hv, hv]
    rfl
  · rw [if_neg hv, if_neg hv]
    rfl

theorem user_leafAt {va : BitVec 64} {l : Nat} {pte : BitVec 64}
    (h : userDomain.LeafAt va l pte) : l = 2 ∧ pte = 0x300000df := by
  have hwalk := h.2
  rw [user_walk] at hwalk
  split at hwalk <;> cases hwalk
  exact ⟨rfl, rfl⟩

/-- What it gives lies behind `0xc0000000`. -/
theorem user_gives {acc : Sv39.Access} {pa : Addr} (h : userDomain.Gives acc pa) :
    0xc0000000 ≤ pa.toNat := by
  obtain ⟨va, l, pte, hleaf, -, hlo, -⟩ := h
  obtain ⟨-, rfl⟩ := user_leafAt hleaf
  have hpaddr : (PTE.paddr 0x300000df).toNat = 0xc0000000 := by decide
  omega

theorem user_entry {va : BitVec 64} {e : Addr} (h : e ∈ userDomain.entriesOf va) :
    e = 0x80000000 + (Sv39.vpn 2 va).setWidth 64 * 8 ∧
      0x80000000 ≤ e.toNat ∧ e.toNat + 8 ≤ 0x80001000 := by
  have heq : e = 0x80000000 + (Sv39.vpn 2 va).setWidth 64 * 8 := by
    unfold Domain.entriesOf at h
    rw [user_walk] at h
    split at h
    · rename_i hv
      rw [hv]
      exact List.mem_singleton.mp h
    · exact List.mem_singleton.mp h
  have hlt := (Sv39.vpn 2 va).isLt
  have hfirst : (0x80000000 : BitVec 64).toNat = 0x80000000 := rfl
  have height : (8 : BitVec 64).toNat = 8 := rfl
  refine ⟨heq, ?_⟩
  rw [heq, BitVec.toNat_add, BitVec.toNat_mul, BitVec.toNat_setWidth, hfirst, height]
  omega

theorem user_sealed : userDomain.Sealed where
  paging := by decide
  notGlobal va l pte h := by
    obtain ⟨-, rfl⟩ := user_leafAt h
    decide
  tables va _ e he k hk hgives := by
    obtain ⟨-, hlo, hhi⟩ := user_entry he
    have hgiven := user_gives hgives
    rw [BitVec.toNat_add, BitVec.toNat_ofNat] at hgiven
    omega

theorem user_inDomain : InDomain userDomain userMachine where
  mode := rfl
  satp := rfl
  held va _ e he := by
    obtain ⟨heq, hlo, hhi⟩ := user_entry he
    have hin : Contains userMachine.bus e 8 := ⟨rfl, hlo, Nat.le_trans hhi (by decide)⟩
    refine ⟨hin, ?_⟩
    by_cases hv : Sv39.vpn 2 va = 0
    · rw [heq, hv]
      decide +kernel
    · have hentry := user_slot va
      rw [← heq, if_neg hv] at hentry
      have hpos : 0 < (Sv39.vpn 2 va).toNat :=
        Nat.pos_of_ne_zero fun hz => hv (BitVec.eq_of_toNat_eq hz)
      have height : (8 : BitVec 64).toNat = 8 := rfl
      have hlt := (Sv39.vpn 2 va).isLt
      have hbehind : 8 ≤ (e - 0x80000000).toNat ∧ (e - 0x80000000).toNat + 8 ≤ 0x1000 := by
        rw [heq, BitVec.add_comm, BitVec.add_sub_cancel, BitVec.toNat_mul, BitVec.toNat_setWidth,
          height]
        omega
      have hzeros : readBytes userMemory (e - 0x80000000).toNat 8 =
          readBytes (fun _ => 0) 0 8 := by
        refine readBytes_moved fun k hk => ?_
        unfold userMemory
        rw [if_neg (by omega), if_pos (by omega)]
      rw [word_contents hin]
      exact hzeros.trans hentry.symm
  cached := ⟨fun _ => 0x80000, rfl, coherent_of_empty fun _ => rfl⟩

end NextEmu.Simple.Confinement
