import NextEmu.Lib.Sv39Space
import NextEmu.Simple.HartRuns
import NextEmu.Simple.Permitted
import NextEmu.Simple.Transparency

/-!
# Runs of translated programs

A program of U or S mode whose tables stay as they are runs like the machine of the manual
in its own address space, whatever the TLB holds of it: the MMU serves the address space from
the bytes of main memory where the tables place them.
-/

namespace NextEmu.Simple.VirtualRuns

open NextEmu.Lib NextEmu.Lib.AbortState NextEmu.Lib.BitField NextEmu.Lib.ByteMemory
open NextEmu.Lib.MappedMemory NextEmu.Lib.RadixWalk NextEmu.Lib.RiscV NextEmu.Sdk
open CompressedFetch DataPaths HartRuns LoadStore Outcomes Permitted Translation Transparency
open WalkConformance

/-! ## The tables of a program -/

section Tables

variable {β : Type} [SlaveAtomicIOI β] {tables : Addr → BitVec 64} {va : BitVec 64}

/-- The walk of the core reads no entries but those of the manual. -/
theorem reads_entries : ∀ {i : Nat}, i ≤ 2 → ∀ {a : Addr},
    ∀ r ∈ (walk ((sv39 (β := β)).ofMap tables) i a va ()).reads,
      r.1 ∈ Sv39.entries tables va i a := by
  intro i
  induction i with
  | zero =>
    intro hi a r hr
    unfold RadixWalk.walk visit at hr
    simp only [Scheme.ofMap, sv39_slot, Walked.after, Option.map_some] at hr
    unfold Sv39.entries
    rw [vpn_eq hi]
    rcases List.mem_cons.mp hr with rfl | hr
    · exact List.mem_singleton.mpr rfl
    · split at hr <;> exact absurd hr List.not_mem_nil
  | succ i ih =>
    intro hi a r hr
    unfold RadixWalk.walk visit at hr
    simp only [Scheme.ofMap, sv39_slot, sv39_kind, Walked.after, Option.map_some] at hr
    unfold Sv39.entries
    rw [vpn_eq hi]
    rcases List.mem_cons.mp hr with rfl | hr
    · exact List.mem_cons_self
    refine List.mem_cons_of_mem _ ?_
    cases hleaf : isValidLeafPTE (tables (a + (vpn (i + 1) va).setWidth 64 * 8)) with
    | true =>
      rw [if_pos hleaf] at hr
      exact absurd hr List.not_mem_nil
    | false =>
      rw [if_neg (Bool.eq_false_iff.mp hleaf)] at hr
      cases hdir : isValidDirPTE (tables (a + (vpn (i + 1) va).setWidth 64 * 8)) with
      | true =>
        rw [if_pos hdir] at hr
        rw [if_neg (Bool.eq_false_iff.mp (dir_iff.mp hdir).2), ppn_eq]
        exact ih (Nat.le_of_succ_le hi) r hr
      | false =>
        rw [if_neg (Bool.eq_false_iff.mp hdir)] at hr
        exact absurd hr List.not_mem_nil

end Tables

section Memory

variable {δ : Type} [SlaveIOI δ] {s t : Machine (AddrBus δ)} {g : Sv39.Paging} {m : Memory 64}
  {va pa : BitVec 64} {leaf : Sv39.Leaf} {acc : Sv39.Access} {n : Nat}

/-- The mode of the program. -/
def modeOf (g : Sv39.Paging) : PrivMode := if g.user then .uMode else .sMode

/-- The program sees `m`: main memory has it at its places, and holds the tables; `satp` names
them, and the TLB has nothing else in it. -/
structure PagedMemory (g : Sv39.Paging) (s : Machine (AddrBus δ)) (m : Memory 64) : Prop where
  holds : Holds g.main s.bus (contents s.bus)
  intact : ∀ va pa, g.used va = some pa → ∀ e ∈ g.entriesOf va,
    word (contents s.bus) e 8 = g.tables e
  view : View g.used (contents s.bus) m
  mode : s.core.nextPrivMode = modeOf g
  sum : s.core.status.getLsbD MStatus.sum = g.sum
  paging : Satp.mode s.core.satp = 8
  root : Satp.ppn s.core.satp = g.root
  cached : ∃ roots, roots (Satp.asid s.core.satp) = g.root ∧
    Coherent (AddrBus δ) g.tables roots s.mmu

omit [SlaveIOI δ] in
theorem modeOf_cases (g : Sv39.Paging) :
    (modeOf g = .uMode ∨ modeOf g = .sMode) ∧ (modeOf g == .uMode) = g.user := by
  unfold modeOf
  cases g.user with
  | true => exact ⟨.inl rfl, rfl⟩
  | false => exact ⟨.inr rfl, rfl⟩

theorem PagedMemory.congr (hp : PagedMemory g s m) (hbus : region t.bus = region s.bus)
    (hview : SameView s.core t.core)
    (hcached : ∃ roots, roots (Satp.asid s.core.satp) = g.root ∧
      Coherent (AddrBus δ) g.tables roots t.mmu) : PagedMemory g t m := by
  have hcontents : contents t.bus = contents s.bus := congrArg contentsOf hbus
  have hholds := hp.holds.congr hbus
  refine ⟨?_, ?_, ?_, hview.nextPrivMode.trans hp.mode, ?_, ?_, ?_, ?_⟩
  · rw [hcontents]
    exact hholds
  · rw [hcontents]
    exact hp.intact
  · rw [hcontents]
    exact hp.view
  · rw [hview.status]
    exact hp.sum
  · rw [hview.satp]
    exact hp.paging
  · rw [hview.satp]
    exact hp.root
  · rw [hview.satp]
    exact hcached

omit [SlaveIOI δ] in
theorem leaf_some (h : g.leaf va = some leaf) : Sv39.Canonical va ∧
    Sv39.leafOf g.rd g.tables g.root va = some leaf ∧ PTE.g leaf.pte = false := by
  obtain ⟨hcanon, hfilter⟩ := Option.ite_none_right_eq_some.mp h
  obtain ⟨hleaf, hglobal⟩ := Option.filter_eq_some_iff.mp hfilter
  have hg : Sv39.Entry.g leaf.pte = false := by simpa using hglobal
  exact ⟨hcanon, hleaf, hg⟩

/-! ## The lookup of an address that is used -/

/-- What the lookup of an address comes to: its leaf, from the TLB or from the tables. -/
theorem lookUp_used (hsep : g.Separate) (hp : PagedMemory g s m) (hleaf : g.leaf va = some leaf)
    (hused : g.used va = some pa) :
    lookUp s va = .found (leafEntry (Satp.asid s.core.satp) va leaf.level leaf.pte) ∧
      (leaf.level ≤ 2 ∧ leaf.aligned = true) ∧ PagedMemory g (looked s va) m ∧
      traps (looked s va).trace = traps s.trace := by
  obtain ⟨roots, hroot, hcoherent⟩ := hp.cached
  obtain ⟨hcanon, hof, hglobal⟩ := leaf_some hleaf
  have hrootOf : rootOf s.core.satp = g.root.setWidth 64 <<< 12 := by
    unfold rootOf
    rw [hp.root]
  have hmatch := leafOf_matches (β := AddrBus δ) g.rd g.tables s.core.satp va leaf
  rw [hp.root] at hmatch
  obtain ⟨hwalk, haligned, -⟩ := hmatch.mp hof
  have hreads : Agrees g.tables (pageWalk s.core.satp s.bus va) := by
    refine agrees_of_reads fun r hr => ?_
    have hentry := reads_entries (Nat.le_refl 2) r hr
    rw [hrootOf] at hentry
    have hload : (sv39 (β := AddrBus δ)).read s.bus r.1 =
        (if (s.bus.load r.1 8).1.1 = .success then some (s.bus.load r.1 8).1.2 else none,
          (s.bus.load r.1 8).2) := rfl
    rw [hload, load_contained (hp.holds.contains (hsep.backed va pa hused r.1 hentry)),
      hp.intact va pa hused r.1 hentry]
    rfl
  have hresult : (pageWalk s.core.satp s.bus va).result = .leaf leaf.level leaf.pte :=
    (walk_eq_lookup hreads).trans hwalk
  have hcalm : Undisturbed g.tables roots va s := by
    refine ⟨(canonical_iff va).mpr hcanon, hp.paging, hp.root.trans hroot.symm, hreads, ?_⟩
    rw [hresult]
    rintro l e heq
    cases heq
    exact hglobal
  obtain ⟨t, hget, ht⟩ := hcoherent.translate hcalm
  have hanswer : answer (AddrBus δ) g.tables roots (Satp.asid s.core.satp, va) =
      some (leafEntry (Satp.asid s.core.satp) va leaf.level leaf.pte) := by
    have hown : lookup (sv39 (β := AddrBus δ)) g.tables 2
        ((roots (Satp.asid s.core.satp)).setWidth 64 <<< 12) va = .leaf leaf.level leaf.pte := by
      rw [hroot, ← hrootOf]
      exact hwalk
    unfold answer
    rw [hown]
    dsimp only
    rw [if_neg (Bool.eq_false_iff.mp hglobal)]
  rw [hanswer] at hget
  have hlooked : looked s va = t := final_of_ok hget
  have hsilent := silent_getTLBEntry va s
  unfold wp at hsilent
  rw [hget] at hsilent
  obtain ⟨hstored, hquiet⟩ := hsilent
  have hbus : region t.bus = region s.bus := region_view.quiet (hquiet not_false).bus
  have hview : SameView s.core t.core := by
    rw [hstored.core]
    exact ⟨rfl, rfl, rfl⟩
  have hfound : lookUp s va =
      .found (leafEntry (Satp.asid s.core.satp) va leaf.level leaf.pte) := by
    have hrun := (getTLBEntry_lookUp s va).2
    rw [hget] at hrun
    cases hl : lookUp s va with
    | found e =>
      rw [hl] at hrun
      cases hrun
      rfl
    | absent =>
      rw [hl] at hrun
      cases hrun
    | stops a =>
      rw [hl] at hrun
      cases hrun
  refine ⟨hfound, ⟨walk_leaf_level hwalk, haligned⟩, ?_, ?_⟩
  · rw [hlooked]
    exact hp.congr hbus hview ⟨roots, hroot, ht⟩
  · rw [hlooked, ← traps_log, hstored.log, traps_log]

/-! ## The accesses -/

omit [SlaveIOI δ] in
theorem whole_inside (hin : Sv39.Inside va n) (hpos : 0 < n) : crossesPage va n = false :=
  InPage.not_crosses (a := .read va n) hin hpos

/-- An access of the program: what the lookup finds, and where that puts the bytes. -/
theorem access_placed (hsep : g.Separate) (hp : PagedMemory g s m)
    (htarget : g.target acc va n = some pa) (hin : Sv39.Inside va n) (hpos : 0 < n) :
    ∃ leaf : Sv39.Leaf, leaf.allows g.user g.sum acc = true ∧
      lookUp s va = .found (leafEntry (Satp.asid s.core.satp) va leaf.level leaf.pte) ∧
      PTE.paddr leaf.pte + va % (sizeOfLevel leaf.level).bytes = pa ∧
      PagedMemory g (looked s va) m ∧ traps (looked s va).trace = traps s.trace ∧
      Contains (looked s va).bus pa n ∧
      word (contents (looked s va).bus) pa n = word m va n := by
  obtain ⟨leaf, hleaf, hallows, hhas, rfl⟩ := Sv39.target_some htarget
  have hplaced := Sv39.target_placed htarget hin
  have hfirst := hplaced 0 hpos
  rw [BitVec.add_zero] at hfirst
  obtain ⟨hfound, ⟨hlevel, haligned⟩, hlooked, htraps⟩ := lookUp_used hsep hp hleaf hfirst
  exact ⟨leaf, hallows, hfound, physAddr_eq hlevel haligned va, hlooked, htraps,
    hlooked.holds.contains hhas, hlooked.view.word hplaced⟩

theorem not_bare (hp : PagedMemory g s m) (hmode : s.core.currentPrivMode = s.core.nextPrivMode) :
    s.core.currentPrivMode = modeOf g ∧ s.core.currentPrivMode ≠ .mMode ∧
      s.core.dataBare = false := by
  have hpriv : s.core.currentPrivMode = modeOf g := hmode.trans hp.mode
  have hne : s.core.currentPrivMode ≠ .mMode := by
    rw [hpriv]
    rcases (modeOf_cases g).1 with h | h <;> rw [h] <;> exact PrivMode.noConfusion
  refine ⟨hpriv, hne, ?_⟩
  simp [RV64Core.dataBare, hp.paging, hne]

/-- What the manual permits is permitted under the status of the core. -/
theorem permitsIn_of (hp : PagedMemory g s m)
    (hmode : s.core.currentPrivMode = s.core.nextPrivMode) {store : Bool}
    (h : leaf.permits g.user g.sum false store = true) :
    PermitsIn s.core leaf store ∧ (store = false → PTE.r leaf.pte = true) := by
  have huser : (s.core.currentPrivMode == .uMode) = g.user := by
    rw [(not_bare hp hmode).1]
    exact (modeOf_cases g).2
  unfold PermitsIn
  rw [huser, hp.sum]
  simp only [Sv39.Leaf.permits, Bool.and_eq_true] at h ⊢
  obtain ⟨⟨ha, hu⟩, hrw⟩ := h
  cases store with
  | true => exact ⟨⟨⟨ha, hu⟩, hrw⟩, fun hs => absurd hs Bool.noConfusion⟩
  | false =>
    have hr : Sv39.Entry.r leaf.pte = true := by simpa using hrw
    exact ⟨⟨⟨ha, hu⟩, by simp [hr]⟩, fun _ => hr⟩

/-- A data path whose lookup finds an entry that is not refused. -/
theorem path_acts {a : DataAccess} {e : TLBEntry} (hsized : a.Sized)
    (hbare : s.core.dataBare = false) (hpage : crossesPage a.beginAddr a.size = false)
    (hfound : lookUp s a.beginAddr = .found e) (hrefuse : a.refuse s.core e = none) :
    a.run s = a.act (e.ppa + a.beginAddr % e.pagesize.bytes) (looked s a.beginAddr) := by
  have hrun := (DataAccess.run_path hsized s).trans
    (Path.run_lookUp (p := a.path (AddrBus δ)) hbare hpage)
  have hfound' : lookUp s (a.path (AddrBus δ)).beginAddr = .found e := hfound
  have hrefuse' : (a.path (AddrBus δ)).refuse s.core e = none := hrefuse
  rw [hfound'] at hrun
  dsimp only at hrun
  rw [hrefuse'] at hrun
  exact hrun

theorem read_placed (hsep : g.Separate) (hp : PagedMemory g s m)
    (hmode : s.core.currentPrivMode = s.core.nextPrivMode)
    (htarget : g.target .load va n = some pa) (hin : Sv39.Inside va n) (hpos : 0 < n) :
    ∃ t, vaddrReadBufferMMUAPI va n s = .ok (.accessOk, word m va n) t ∧ PagedMemory g t m ∧
      t.core = s.core ∧ traps t.trace = traps s.trace := by
  obtain ⟨leaf, hallows, hfound, hpa, hlooked, htraps, hinside, hword⟩ :=
    access_placed hsep hp htarget hin hpos
  obtain ⟨hpriv, -, hbare⟩ := not_bare hp hmode
  obtain ⟨hpermits, hr⟩ := permitsIn_of hp hmode hallows
  have hrefuse : (DataAccess.read va n).refuse s.core
      (leafEntry (Satp.asid s.core.satp) va leaf.level leaf.pte) = none :=
    readRefusal_permitted hpermits (hpriv ▸ (modeOf_cases g).1) (hr rfl) _ _
  have hload : SlaveIOI.load (looked s va).bus pa n =
      ((.success, word (contents (looked s va).bus) pa n), (looked s va).bus) :=
    load_contained hinside
  refine ⟨{ looked s va with trace := .load pa n :: (looked s va).trace }, ?_, ?_,
    looked_core s va, htraps⟩
  · refine (path_acts (a := .read va n) trivial hbare (whole_inside hin hpos) hfound
      hrefuse).trans ?_
    show physRead (PTE.paddr leaf.pte + va % (sizeOfLevel leaf.level).bytes) n (looked s va) = _
    rw [hpa, physRead_run, hload, hword]
    rfl
  · exact hlooked.congr rfl ⟨rfl, rfl, rfl⟩ hlooked.cached

theorem write_placed (hsep : g.Separate) (hp : PagedMemory g s m)
    (hmode : s.core.currentPrivMode = s.core.nextPrivMode)
    (htarget : g.target .store va n = some pa) (hin : Sv39.Inside va n) (hpos : 0 < n)
    (x : BitVec (8 * n)) :
    ∃ t, vaddrWriteBufferMMUAPI va n x s = .ok .accessOk t ∧
      PagedMemory g t (Write.apply ⟨va, n, x⟩ m) ∧ t.core = s.core ∧
      traps t.trace = traps s.trace := by
  obtain ⟨leaf, hallows, hfound, hpa, hlooked, htraps, hinside, -⟩ :=
    access_placed hsep hp htarget hin hpos
  obtain ⟨hpriv, -, hbare⟩ := not_bare hp hmode
  have hrefuse : (DataAccess.write va n x).refuse s.core
      (leafEntry (Satp.asid s.core.satp) va leaf.level leaf.pte) = none :=
    writeRefusal_permitted (permitsIn_of hp hmode hallows).1 (hpriv ▸ (modeOf_cases g).1) _
  have hplaced := Sv39.target_placed htarget hin
  have hpage : n ≤ 2 ^ 12 := Nat.le_trans (Nat.le_add_left _ _) hin
  have hsmall : n ≤ 2 ^ 64 := Nat.le_trans hpage (by decide)
  obtain ⟨hok, hcontents⟩ := store_contained hinside x
  obtain ⟨-, -, hhas, -⟩ := (Sv39.target_some htarget).choose_spec
  refine ⟨{ looked s va with
    bus := ((looked s va).bus.store pa n x).2
    trace := .store pa n :: (looked s va).trace }, ?_, ?_, looked_core s va, htraps⟩
  · refine (path_acts (a := .write va n x) trivial hbare (whole_inside hin hpos) hfound
      hrefuse).trans ?_
    show physWrite VAddrFeedback.accessOk .pageFault
      (PTE.paddr leaf.pte + va % (sizeOfLevel leaf.level).bytes) n x (looked s va) = _
    rw [hpa]
    show EStateM.Result.ok (if _ then VAddrFeedback.accessOk else .pageFault) _ = _
    have hok' : (SlaveIOI.store (looked s va).bus pa n x).1 = .success := hok
    rw [if_pos hok']
    rfl
  · refine ⟨?_, ?_, ?_, hlooked.mode, hlooked.sum, hlooked.paging, hlooked.root, hlooked.cached⟩
    · dsimp only
      rw [hcontents]
      exact hlooked.holds.store hhas x
    · intro va' pa' hused' e he
      dsimp only
      rw [hcontents, word_apply_beside, hlooked.intact va' pa' hused' e he]
      intro k hk hcovers
      -- the byte of the entry would be one that the program stores
      have hj : (e + BitVec.ofNat 64 k - pa).toNat < n := hcovers
      have hbyte : pa + BitVec.ofNat 64 (e + BitVec.ofNat 64 k - pa).toNat =
          e + BitVec.ofNat 64 k := by
        rw [BitVec.ofNat_toNat, BitVec.setWidth_eq, BitVec.add_comm, BitVec.sub_add_cancel]
      exact hsep.beside _ va' _ pa' (Sv39.target_byte htarget hin hj) hused' e he k hk hbyte.symm
    · dsimp only
      rw [hcontents]
      refine hlooked.view.store hplaced hsmall hsmall ?_ x
      intro c k hk hc
      exact hsep.own _ c _ (Sv39.target_byte htarget hin hk) hc

/-- A part of a fetch. -/
theorem part_fetched (hsep : g.Separate) (hp : PagedMemory g s m)
    (hmode : s.core.currentPrivMode = s.core.nextPrivMode)
    (htarget : g.target .fetch va n = some pa) (hin : Sv39.Inside va n) (hpos : 0 < n)
    (heven : va % 2 = 0) :
    place s va = some (looked s va, pa) ∧
      SlaveIOI.load (looked s va).bus pa n = ((.success, word m va n), (looked s va).bus) ∧
      instFetchPart va n s = .ok (.accessOk, word m va n) (loaded (looked s va) pa n) ∧
      PagedMemory g (loaded (looked s va) pa n) m := by
  obtain ⟨leaf, hallows, hfound, hpa, hlooked, -, hinside, hword⟩ :=
    access_placed hsep hp htarget hin hpos
  obtain ⟨hpriv, hne, -⟩ := not_bare hp hmode
  have hdirect : ¬ (s.core.currentPrivMode = .mMode ∨ Satp.mode s.core.satp = 0) := by
    rw [hp.paging]
    simp [hne]
  have hrefuse : fetchRefusal () s.core
      (leafEntry (Satp.asid s.core.satp) va leaf.level leaf.pte) = none := by
    have hx : Sv39.Entry.a leaf.pte = true ∧ Sv39.Entry.x leaf.pte = true ∧
        Sv39.Entry.u leaf.pte = g.user := by
      simpa [Sv39.Leaf.allows, and_assoc] using hallows
    have ha : PTE.a leaf.pte = true := hx.1
    have hxx : PTE.x leaf.pte = true := hx.2.1
    have hu : PTE.u leaf.pte = g.user := hx.2.2
    unfold fetchRefusal leafEntry TLBEntry.ofLeaf
    simp only [ha, hxx, hu, hpriv, modeOf]
    cases g.user <;> rfl
  have hplace : place s va = some (looked s va, pa) := by
    unfold place
    rw [if_neg hdirect, hfound]
    dsimp only
    rw [hrefuse]
    exact congrArg (fun a => some (looked s va, a)) hpa
  have hload : SlaveIOI.load (looked s va).bus pa n =
      ((.success, word m va n), (looked s va).bus) :=
    (load_contained hinside).trans (by rw [hword])
  refine ⟨hplace, hload, ?_, ?_⟩
  · rw [part_placed heven (whole_inside hin hpos) hplace, hload]
    rfl
  · refine hlooked.congr ?_ ⟨rfl, rfl, rfl⟩ hlooked.cached
    unfold loaded
    rw [hload]

end Memory

/-! ## The address space is served -/

section Served

variable {δ : Type} [SlaveIOI δ] {g : Sv39.Paging}

theorem aligned_inside {va : BitVec 64} {width : Width} (h : va.toNat % width.bytes = 0) :
    Sv39.Inside va width.bytes ∧ 0 < width.bytes := by
  unfold Sv39.Inside
  cases width <;> simp only [Width.bytes] at h ⊢ <;> omega

theorem even_inside {va : BitVec 64} (h : va % 2 = 0) : Sv39.Inside va 2 := by
  have heven := EvenJumps.even_iff.mp h
  unfold Sv39.Inside
  omega

theorem quarter_inside {va : BitVec 64} (h : va % 4 = 0) : Sv39.Inside va 4 := by
  have hquarter : va.toNat % 4 = 0 := by
    have := congrArg BitVec.toNat h
    simpa [BitVec.toNat_umod] using this
  unfold Sv39.Inside
  omega

theorem paged_serves (hsep : g.Separate) :
    Serves g.space (PagedMemory g : Machine (AddrBus δ) → Memory 64 → Prop) where
  congr s m c tr hp hview := hp.congr rfl hview hp.cached
  bus s m b hp hregion := hp.congr hregion ⟨rfl, rfl, rfl⟩ hp.cached
  fetch s m pc hp hmode heven ha := by
    obtain ⟨hlow, hhigh⟩ := Bool.and_eq_true_iff.mp ha
    obtain ⟨low, hlow⟩ := Option.isSome_iff_exists.mp hlow
    obtain ⟨high, hhigh⟩ := Option.isSome_iff_exists.mp hhigh
    rcases quarter_cases heven with hquarter | hquarter
    · have hin := quarter_inside hquarter
      obtain ⟨-, -, hrun, hmem⟩ := part_fetched hsep hp hmode (Sv39.target_word hlow hhigh hin) hin
        (Nat.succ_pos 3) heven
      rw [fetch_at_word heven hquarter]
      exact ⟨_, hrun, hmem⟩
    · obtain ⟨hplace, hload, -, hmem⟩ := part_fetched hsep hp hmode hlow (even_inside heven)
        (Nat.succ_pos 1) heven
      have hcore : (loaded (looked s pc) low 2).core = s.core := looked_core s pc
      have hmode' : (loaded (looked s pc) low 2).core.currentPrivMode =
          (loaded (looked s pc) low 2).core.nextPrivMode := by
        rw [hcore]
        exact hmode
      obtain ⟨-, -, hrun, hmem'⟩ := part_fetched hsep hmem hmode' hhigh
        (even_inside (even_next heven)) (Nat.succ_pos 1) (even_next heven)
      rw [fetch_between heven hquarter hplace (congrArg Prod.fst hload), hrun, word_halves]
      exact ⟨_, rfl, hmem'⟩
  load s m va width hp hmode ha halign := by
    obtain ⟨pa, htarget⟩ := Option.isSome_iff_exists.mp ha
    obtain ⟨hin, hpos⟩ := aligned_inside halign
    obtain ⟨t, hread, ht, hcore, htraps⟩ := read_placed hsep hp hmode htarget hin hpos
    refine ⟨t, ?_, ht, hcore, htraps⟩
    unfold memRead
    rw [if_neg (not_not_intro ((aligned_iff va width).mpr halign)), bind_of_ok hread]
    rfl
  store s m va width data hp hmode ha halign := by
    obtain ⟨pa, htarget⟩ := Option.isSome_iff_exists.mp ha
    obtain ⟨hin, hpos⟩ := aligned_inside halign
    obtain ⟨t, hwrite, ht, hcore, htraps⟩ := write_placed hsep hp hmode htarget hin hpos
      (data.setWidth (8 * width.bytes))
    refine ⟨t, ?_, ht, hcore, htraps⟩
    unfold memWrite
    rw [if_neg (not_not_intro ((aligned_iff va width).mpr halign)), bind_of_ok hwrite]
    rfl

end Served

/-- A page table of one entry, which places the first gigapage at `0xc0000000` for U mode. -/
def userPaging : Sv39.Paging where
  rd := ⟨true, true⟩
  tables := fun a => if a = 0x80000000 then 0x300000df else 0
  root := 0x80000
  user := true
  sum := false
  main := ⟨0x80000000, 0xc0010000⟩

/-- That table, and the program of the sum in the page. -/
def userMemory : Nat → BitVec 8 := fun a =>
  if a < 4 then (0x300000df#32).extractLsb' (8 * a) 8
  else if a < 0x40000000 then 0
  else sumProgram.extractLsb' (8 * (a - 0x40000000)) 8

def userMachine : Machine (AddrBus Empty) :=
  Machine.start { RV64Core.reset default with
    satp := 0x8000000000080000
    currentPrivMode := .uMode
    nextPrivMode := .uMode } (AddrBus.empty.setMem 0x80000000 0x40010000 userMemory)

def userHart : Hart where
  x := fun _ => 0
  pc := 0
  mem := fun a => sumProgram.extractLsb' (8 * a.toNat) 8

/-- A canonical address with the first index is in the first gigapage. -/
theorem first_gigapage {va : BitVec 64} (hv : Sv39.vpn 2 va = 0) (hcanon : Sv39.Canonical va) :
    va.toNat < 2 ^ 30 := by
  have hbits : ∀ i, 30 ≤ i → i < 39 → va.getLsbD i = false := by
    intro i hlo hhi
    have hbit := congrArg (·.getLsbD (i - 30)) hv
    have hsub : 12 + 9 * 2 + (i - 30) = i := by omega
    have hlt : i - 30 < 9 := by omega
    simpa [Sv39.vpn, BitVec.getLsbD_extractLsb', hsub, hlt] using hbit
  refine Nat.lt_pow_two_of_testBit va.toNat fun i hi => ?_
  rw [BitVec.testBit_toNat]
  by_cases hmid : i < 39
  · exact hbits i hi hmid
  · by_cases hwide : i < 64
    · rw [hcanon i (by omega) hwide]
      exact hbits 38 (by decide) (by decide)
    · exact BitVec.getLsbD_of_ge _ _ (by omega)

/-- The table has its entry in the first slot, and zeros behind it. -/
theorem user_slot (va : BitVec 64) :
    userPaging.tables (0x80000000 + (Sv39.vpn 2 va).setWidth 64 * 8) =
      if Sv39.vpn 2 va = 0 then 0x300000df else 0 := by
  have hslot : (0x80000000 + (Sv39.vpn 2 va).setWidth 64 * 8 : BitVec 64) = 0x80000000 ↔
      Sv39.vpn 2 va = 0 := by
    constructor
    · intro hs
      have hlt := (Sv39.vpn 2 va).isLt
      have hnat := congrArg BitVec.toNat (BitVec.add_right_eq_self.mp hs)
      have height : (8 : BitVec 64).toNat = 8 := rfl
      have hnone : (0#64).toNat = 0 := rfl
      rw [BitVec.toNat_mul, BitVec.toNat_setWidth, height, hnone] at hnat
      refine BitVec.eq_of_toNat_eq ?_
      show (Sv39.vpn 2 va).toNat = 0
      omega
    · intro hv
      rw [hv]
      rfl
  unfold userPaging
  simp only [hslot]

/-- The one leaf of the table. -/
theorem user_leaf {leaf : Sv39.Leaf} {va : BitVec 64} (h : userPaging.leaf va = some leaf) :
    Sv39.vpn 2 va = 0 ∧ va.toNat < 2 ^ 30 ∧ leaf = ⟨2, 0x300000df⟩ := by
  obtain ⟨hcanon, hof, -⟩ := leaf_some h
  have hroot : userPaging.root.setWidth 64 <<< 12 = 0x80000000 := by decide
  unfold Sv39.leafOf Sv39.walk Sv39.visit at hof
  rw [hroot, user_slot] at hof
  by_cases hv : Sv39.vpn 2 va = 0
  · rw [if_pos hv] at hof
    exact ⟨hv, first_gigapage hv hcanon, (Option.some.inj hof).symm⟩
  · rw [if_neg hv] at hof
    exact absurd hof.symm (Option.some_ne_none leaf)

/-- The addresses that it has for the program, and their places. -/
theorem user_target {acc : Sv39.Access} {va pa : BitVec 64} {n : Nat}
    (h : userPaging.target acc va n = some pa) : Sv39.vpn 2 va = 0 ∧ va.toNat < 2 ^ 30 ∧
      pa.toNat = 3 * 2 ^ 30 + va.toNat := by
  obtain ⟨leaf, hleaf, -, -, rfl⟩ := Sv39.target_some h
  obtain ⟨hv, hsmall, rfl⟩ := user_leaf hleaf
  have hhigh : (field (0x300000df : BitVec 64) 28 26).toNat = 3 := by decide
  refine ⟨hv, hsmall, ?_⟩
  unfold Sv39.Leaf.physAddr
  simp only [BitVec.toNat_setWidth, toNat_append]
  rw [hhigh, toNat_field]
  omega

theorem user_entries {va : BitVec 64} (h : Sv39.vpn 2 va = 0) :
    userPaging.entriesOf va = [0x80000000] := by
  unfold Sv39.Paging.entriesOf Sv39.entries
  rw [h]
  rfl

theorem user_separate : userPaging.Separate where
  own va va' pa h h' := by
    obtain ⟨acc, h'⟩ := Sv39.used_target h'
    obtain ⟨-, -, hpa⟩ := user_target h
    obtain ⟨-, -, hpa'⟩ := user_target h'
    exact BitVec.eq_of_toNat_eq (by omega)
  backed va pa h e he := by
    obtain ⟨acc, h⟩ := Sv39.used_target h
    rw [user_entries (user_target h).1, List.mem_singleton] at he
    subst he
    decide
  beside va va' pa pa' h h' e he k hk heq := by
    obtain ⟨acc, h'⟩ := Sv39.used_target h'
    obtain ⟨-, -, hpa⟩ := user_target h
    rw [user_entries (user_target h').1, List.mem_singleton] at he
    subst he heq
    have hfirst : (0x80000000 : BitVec 64).toNat = 0x80000000 := rfl
    rw [BitVec.toNat_add, BitVec.toNat_ofNat, hfirst] at hpa
    omega

theorem user_shows : Shows (PagedMemory userPaging) userMachine userHart where
  x := rfl
  pc := rfl
  mem := by
    refine ⟨⟨rfl, rfl, rfl, rfl⟩, ?_, ?_, rfl, rfl, rfl, rfl, fun _ => 0x80000, rfl,
      coherent_of_empty fun _ => rfl⟩
    · intro va pa h e he
      obtain ⟨acc, h⟩ := Sv39.used_target h
      rw [user_entries (user_target h).1, List.mem_singleton] at he
      subst he
      decide +kernel
    · intro va pa h
      obtain ⟨acc, h⟩ := Sv39.used_target h
      obtain ⟨-, hva, hpa⟩ := user_target h
      have hfirst : (0x80000000 : BitVec 64).toNat = 0x80000000 := rfl
      have hoff : (pa - 0x80000000).toNat = 0x40000000 + va.toNat := by
        rw [BitVec.toNat_sub, hfirst]
        omega
      show userMemory (pa - 0x80000000).toNat = sumProgram.extractLsb' (8 * va.toNat) 8
      unfold userMemory
      rw [hoff, if_neg (by omega), if_neg (by omega), Nat.add_sub_cancel_left]

/-- A core without enabled interrupts. -/
theorem undisturbed_disabled {c : RV64Core} (henable : c.csrIntEnable = 0)
    (hblank : statusBlankZero c.status = true) : HartRuns.Undisturbed c := by
  refine ⟨fun pending => ?_, hblank⟩
  have hbits : pending &&& 0 = 0 := BitVec.and_zero
  unfold RV64Core.intToRaise RV64Core.intBits
  dsimp only
  rw [henable, hbits]
  rfl

end NextEmu.Simple.VirtualRuns
