import NextEmu.Sdk.AddrBus

/-!
# Main memory and its ends

`Mem.h`, and what the range checks of `Mem` and of `AddrBus` keep out. The bus compares
the first address of an access with the two ends of main memory, the second one included,
and does not look at the length; `Mem` computes the last address modulo 2^64. An access
that passes either check is copied from or to the host array as it is.
-/

namespace NextEmu.Device

open NextEmu.Sdk

/-- `Mem`. The array is a total function, as that of the bus is. -/
structure Mem where
  mem : Nat → BitVec 8
  memSize : BitVec 64

namespace Mem

/-- `Mem::load`. -/
def load (d : Mem) (beginAddr : Addr) (len : Nat) : Feedback × BitVec (8 * len) :=
  if beginAddr + BitVec.ofNat 64 len - 1 < d.memSize then
    (.success, readBytes d.mem beginAddr.toNat len)
  else (.outOfRange, 0)

/-- `Mem::store`. -/
def store (d : Mem) (beginAddr : Addr) (len : Nat) (x : BitVec (8 * len)) : Feedback × Mem :=
  if beginAddr + BitVec.ofNat 64 len - 1 < d.memSize then
    (.success, { d with mem := writeBytes d.mem beginAddr.toNat len x })
  else (.outOfRange, d)

instance : SlaveIOI Mem where
  load d a len := (d.load a len, d)
  store := store

end Mem

/-! ## The accesses of a bus -/

section Bus

variable {δ : Type} [SlaveIOI δ]

/-- The range `[a, a + l)` lies in `[b, b + n)` and does not wrap. -/
def Inside (b : Addr) (n : BitVec 64) (a : Addr) (l : Nat) : Prop :=
  b.toNat ≤ a.toNat ∧ a.toNat + l ≤ b.toNat + n.toNat ∧ a.toNat + l ≤ 2 ^ 64

instance (b : Addr) (n : BitVec 64) (a : Addr) (l : Nat) : Decidable (Inside b n a l) :=
  inferInstanceAs (Decidable (_ ∧ _))

/-- What a load answers depends on the main memory. -/
def LoadTouches (bus : AddrBus δ) (a : Addr) (l : Nat) : Prop :=
  ∃ m m', ({ bus with mainMem := some m }.load a l).1 ≠ ({ bus with mainMem := some m' }.load a l).1

/-- A store can change it. -/
def StoreTouches (bus : AddrBus δ) (a : Addr) (l : Nat) (x : BitVec (8 * l)) : Prop :=
  ∃ m, ({ bus with mainMem := some m }.store a l x).2.mainMem ≠ some m

/-- The access leaves main memory alone, and either fails with no device changed or is one of a
device at its own address. -/
def Routed {ρ : Type} (bus bus' : AddrBus δ) (a : Addr) (failed : ρ → Prop) (answer : ρ)
    (ofDevice : δ → Addr → ρ × δ) : Prop :=
  bus'.mainMem = bus.mainMem ∧
    ((failed answer ∧ bus'.devices = bus.devices) ∨
      ∃ key d, (key, d) ∈ bus.devices ∧ answer = (ofDevice d (a - key)).1 ∧
        bus'.devices = (bus.putDev key (ofDevice d (a - key)).2).devices)

/-- Accesses of `l` bytes at `a`, by a bus with `n` bytes of main memory at `b`: those that touch
main memory stay in it, the others go elsewhere. -/
structure Contained (bus : AddrBus δ) (b : Addr) (n : BitVec 64) (a : Addr) (l : Nat) : Prop where
  load : LoadTouches bus a l → Inside b n a l
  store : ∀ x, StoreTouches bus a l x → Inside b n a l
  loadElsewhere : ¬ LoadTouches bus a l →
    Routed bus (bus.load a l).2 a (fun r => r.1 ≠ .success) (bus.load a l).1
      (fun d a => SlaveIOI.load d a l)
  storeElsewhere : ∀ x, ¬ StoreTouches bus a l x →
    Routed bus (bus.store a l x).2 a (fun r => r ≠ .success) (bus.store a l x).1
      (fun d a => SlaveIOI.store d a l x)

variable {bus : AddrBus δ} {b : Addr} {n : BitVec 64} {a : Addr} {l : Nat}

omit [SlaveIOI δ] in
theorem findDev_mem {key : Addr} {d : δ} (h : bus.findDev a = some (key, d)) :
    (key, d) ∈ bus.devices := (List.mem_filter.mp (List.mem_of_getLast? h)).1

/-- The first address passes the check of the bus, and the end is past that of main memory. -/
def PastEnd (b : Addr) (n : BitVec 64) (a : Addr) (l : Nat) : Prop :=
  b.toNat + n.toNat < 2 ^ 64 ∧ b.toNat ≤ a.toNat ∧ a.toNat ≤ b.toNat + n.toNat ∧
    b.toNat + n.toNat < a.toNat + l

omit [SlaveIOI δ] in
/-- The check passes no address when main memory ends at 2^64 or beyond. -/
theorem inMainMem_iff (bus : AddrBus δ) (b : Addr) (n : BitVec 64) (m : Nat → BitVec 8)
    (a : Addr) : (bus.setMem b n m).inMainMem a = true ↔
      b.toNat + n.toNat < 2 ^ 64 ∧ b.toNat ≤ a.toNat ∧ a.toNat ≤ b.toNat + n.toNat := by
  have hb := b.isLt
  have hn := n.isLt
  show (true && decide (b ≤ a) && decide (a ≤ b + n)) = true ↔ _
  rw [Bool.true_and, Bool.and_eq_true, decide_eq_true_eq, decide_eq_true_eq, BitVec.le_def,
    BitVec.le_def, BitVec.toNat_add]
  omega

omit [SlaveIOI δ] in
theorem inside_iff {m : Nat → BitVec 8} (h : (bus.setMem b n m).inMainMem a = true) :
    Inside b n a l ↔ ¬ PastEnd b n a l := by
  have hin := (inMainMem_iff bus b n m a).mp h
  unfold Inside PastEnd
  omega

theorem load_inMainMem (h : bus.inMainMem a = true) : bus.load a l =
    ((.success, readBytes (bus.mainMem.getD fun _ => 0) (a - bus.memBeginAddr).toNat l), bus) := by
  unfold AddrBus.load
  rw [if_pos h]

theorem store_inMainMem (h : bus.inMainMem a = true) (x : BitVec (8 * l)) :
    (bus.store a l x).1 = .success ∧ (bus.store a l x).2.mainMem =
      some (writeBytes (bus.mainMem.getD fun _ => 0) (a - bus.memBeginAddr).toNat l x) := by
  obtain ⟨hmem, hbegin, hend, -⟩ := bus.breakReservation_memory a (BitVec.ofNat 64 l)
  have hin : (bus.breakReservation a (BitVec.ofNat 64 l)).inMainMem a = true := by
    unfold AddrBus.inMainMem at h ⊢
    rw [hmem, hbegin, hend]
    exact h
  unfold AddrBus.store AddrBus.storeRouted
  rw [if_pos hin, hmem, hbegin]
  exact ⟨rfl, rfl⟩

/-- An access that does not pass the check goes to a device or fails. -/
theorem load_routed (h : bus.inMainMem a = false) :
    Routed bus (bus.load a l).2 a (fun r => r.1 ≠ .success) (bus.load a l).1
      (fun d a => SlaveIOI.load d a l) := by
  unfold AddrBus.load
  rw [if_neg (Bool.eq_false_iff.mp h)]
  cases hd : bus.findDev a with
  | none => exact ⟨rfl, .inl ⟨Feedback.noConfusion, rfl⟩⟩
  | some e => exact ⟨rfl, .inr ⟨e.1, e.2, findDev_mem hd, rfl, rfl⟩⟩

theorem store_routed (h : bus.inMainMem a = false) (x : BitVec (8 * l)) :
    Routed bus (bus.store a l x).2 a (fun r => r ≠ .success) (bus.store a l x).1
      (fun d a => SlaveIOI.store d a l x) := by
  obtain ⟨hmem, hbegin, hend, hdev⟩ := bus.breakReservation_memory a (BitVec.ofNat 64 l)
  have hin : (bus.breakReservation a (BitVec.ofNat 64 l)).inMainMem a = false := by
    unfold AddrBus.inMainMem at h ⊢
    rw [hmem, hbegin, hend]
    exact h
  unfold AddrBus.store AddrBus.storeRouted
  rw [if_neg (Bool.eq_false_iff.mp hin)]
  cases hd : (bus.breakReservation a (BitVec.ofNat 64 l)).findDev a with
  | none => exact ⟨hmem, .inl ⟨Feedback.noConfusion, hdev⟩⟩
  | some e =>
    exact ⟨hmem, .inr ⟨e.1, e.2, hdev ▸ findDev_mem hd, rfl, congrArg (List.map _) hdev⟩⟩

omit [SlaveIOI δ] in
/-- What passes the check does not depend on the contents. -/
theorem inMainMem_with (hmem : bus.mainMem.isSome = true) (m : Nat → BitVec 8) :
    { bus with mainMem := some m }.inMainMem a = bus.inMainMem a := by
  unfold AddrBus.inMainMem
  rw [hmem]
  rfl

/-- A load touches main memory exactly when it passes the check. -/
theorem loadTouches_iff (hl : 1 ≤ l) (hmem : bus.mainMem.isSome = true) :
    LoadTouches bus a l ↔ bus.inMainMem a = true := by
  have hwith := inMainMem_with (a := a) hmem
  constructor
  · rintro ⟨m, m', hne⟩
    refine Classical.byContradiction fun hout => hne ?_
    unfold AddrBus.load
    rw [if_neg ((hwith m).symm ▸ hout), if_neg ((hwith m').symm ▸ hout)]
    have hfind : { bus with mainMem := some m }.findDev a =
        { bus with mainMem := some m' }.findDev a := rfl
    rw [hfind]
    cases { bus with mainMem := some m' }.findDev a <;> rfl
  · intro hin
    refine ⟨fun _ => 0, fun _ => 1, fun heq => ?_⟩
    rw [load_inMainMem ((hwith _).trans hin), load_inMainMem ((hwith _).trans hin)] at heq
    have hbit := congrArg (fun r => r.2.getLsbD 0) heq
    have hlt : 0 < 8 * l := by omega
    simp only [getLsbD_readBytes, hlt, Option.getD_some] at hbit
    exact absurd hbit (by decide)

/-- So does a store, whatever it stores. -/
theorem storeTouches_iff (hl : 1 ≤ l) (hmem : bus.mainMem.isSome = true) (x : BitVec (8 * l)) :
    StoreTouches bus a l x ↔ bus.inMainMem a = true := by
  have hwith := inMainMem_with (a := a) hmem
  constructor
  · rintro ⟨m, hne⟩
    refine Classical.byContradiction fun hout => hne ?_
    exact (store_routed ((hwith m).trans (Bool.eq_false_iff.mpr hout)) x).1
  · intro hin
    refine ⟨fun _ => ~~~ x.extractLsb' 0 8, fun heq => ?_⟩
    rw [(store_inMainMem ((hwith _).trans hin) x).2] at heq
    have hbyte := congrFun (Option.some.inj heq) (a - bus.memBeginAddr).toNat
    unfold writeBytes at hbyte
    rw [if_pos ⟨Nat.le_refl _, Nat.lt_add_of_pos_right hl⟩, Nat.sub_self] at hbyte
    have hbit := congrArg (fun y => y.getLsbD 0) hbyte
    simp at hbit

/-- The accesses of a bus stay in its main memory or out of it exactly when they do not start in
it, or just behind it, and end past its end. -/
theorem contained_iff (bus : AddrBus δ) (b : Addr) (n : BitVec 64) (m : Nat → BitVec 8) (a : Addr)
    (hl : 1 ≤ l) : Contained (bus.setMem b n m) b n a l ↔ ¬ PastEnd b n a l := by
  have hmem : (bus.setMem b n m).mainMem.isSome = true := rfl
  constructor
  · intro h hpast
    have hin := (inMainMem_iff bus b n m a).mpr ⟨hpast.1, hpast.2.1, hpast.2.2.1⟩
    exact (inside_iff hin).mp (h.load ((loadTouches_iff hl hmem).mpr hin)) hpast
  · intro h
    constructor
    case load => exact fun ht => (inside_iff ((loadTouches_iff hl hmem).mp ht)).mpr h
    case store => exact fun x ht => (inside_iff ((storeTouches_iff hl hmem x).mp ht)).mpr h
    case loadElsewhere =>
      intro ht
      exact load_routed (Bool.eq_false_iff.mpr fun hin => ht ((loadTouches_iff hl hmem).mpr hin))
    case storeElsewhere =>
      intro x ht
      exact store_routed
        (Bool.eq_false_iff.mpr fun hin => ht ((storeTouches_iff hl hmem x).mpr hin)) x

end Bus

/-! ## The accesses of `Mem` -/

section Mem

variable {d : Mem} {a : Addr} {l : Nat}

/-- Accesses of `l` bytes at `a`: those that succeed end in the array. -/
structure MemContained (d : Mem) (a : Addr) (l : Nat) : Prop where
  load : (d.load a l).1 = .success → a.toNat + l ≤ d.memSize.toNat
  store : ∀ x, (d.store a l x).1 = .success → a.toNat + l ≤ d.memSize.toNat

/-- The access wraps, and the sum of the check is an address in the array. -/
def Wraps (d : Mem) (a : Addr) (l : Nat) : Prop :=
  2 ^ 64 < a.toNat + l ∧ a.toNat + l - 2 ^ 64 ≤ d.memSize.toNat

theorem check_iff (hl : 1 ≤ l) (hl64 : l < 2 ^ 64) :
    a + BitVec.ofNat 64 l - 1 < d.memSize ↔ a.toNat + l ≤ d.memSize.toNat ∨ Wraps d a l := by
  have ha := a.isLt
  have hsize := d.memSize.isLt
  have hone : (1 : BitVec 64).toNat = 1 := rfl
  unfold Wraps
  rw [BitVec.lt_def, BitVec.toNat_sub, BitVec.toNat_add, BitVec.toNat_ofNat, hone]
  omega

theorem load_success : (d.load a l).1 = .success ↔ a + BitVec.ofNat 64 l - 1 < d.memSize := by
  unfold Mem.load
  split
  · exact ⟨fun _ => by assumption, fun _ => rfl⟩
  · exact ⟨nofun, fun h => absurd h (by assumption)⟩

theorem store_success (x : BitVec (8 * l)) :
    (d.store a l x).1 = .success ↔ a + BitVec.ofNat 64 l - 1 < d.memSize := by
  unfold Mem.store
  split
  · exact ⟨fun _ => by assumption, fun _ => rfl⟩
  · exact ⟨nofun, fun h => absurd h (by assumption)⟩

/-- The accesses that succeed end in the array exactly when the sum of the check does not wrap
into it. -/
theorem memContained_iff (hl : 1 ≤ l) (hl64 : l < 2 ^ 64) :
    MemContained d a l ↔ ¬ Wraps d a l := by
  have hcheck := check_iff (d := d) (a := a) hl hl64
  have hsize := d.memSize.isLt
  constructor
  · intro h hwraps
    have hin := h.load (load_success.mpr (hcheck.mpr (.inr hwraps)))
    have hover := hwraps.1
    omega
  · intro h
    constructor
    case load => exact fun hok => (hcheck.mp (load_success.mp hok)).resolve_right h
    case store => exact fun x hok => (hcheck.mp ((store_success x).mp hok)).resolve_right h

end Mem

/-- Accesses of the bus and of `Mem` stay in their memory exactly when they do not end past its end
behind a start that the bus lets through, and do not wrap into it. -/
theorem accesses_contained {δ : Type} [SlaveIOI δ] (bus : AddrBus δ) (b : Addr) (n : BitVec 64)
    (m : Nat → BitVec 8) (d : Mem) (a : Addr) (l : Nat) (hl : 1 ≤ l) (hl64 : l < 2 ^ 64) :
    (Contained (bus.setMem b n m) b n a l ↔ ¬ PastEnd b n a l) ∧
      (MemContained d a l ↔ ¬ Wraps d a l) :=
  ⟨contained_iff bus b n m a hl, memContained_iff hl hl64⟩

/-- Eight bytes in the middle of a memory. -/
theorem accesses_contained_middle :
    (Contained ((AddrBus.empty : AddrBus Mem).setMem 0x80000000 0x10000 fun _ => 0) 0x80000000
        0x10000 0x80001000 8 ↔ ¬ PastEnd 0x80000000 0x10000 0x80001000 8) ∧
      (MemContained ⟨fun _ => 0, 0x10000⟩ 0x80001000 8 ↔
        ¬ Wraps ⟨fun _ => 0, 0x10000⟩ 0x80001000 8) :=
  accesses_contained (AddrBus.empty : AddrBus Mem) 0x80000000 0x10000 (fun _ => 0)
    ⟨fun _ => 0, 0x10000⟩ 0x80001000 8 (by decide) (by decide)

/-- A load of the first byte behind main memory touches it, and `Mem` lets two bytes through that
wrap. -/
theorem end_touched :
    ¬ (∀ (bus : AddrBus Mem) (b : Addr) (n : BitVec 64) (m : Nat → BitVec 8) (a : Addr) (l : Nat),
      1 ≤ l → l < 2 ^ 64 → Contained (bus.setMem b n m) b n a l) ∧
    ¬ (∀ (d : Mem) (a : Addr) (l : Nat), 1 ≤ l → l < 2 ^ 64 → MemContained d a l) := by
  constructor
  · intro hall
    have h := hall AddrBus.empty 0x80000000 0x10000 (fun _ => 0) 0x80010000 1 (by decide)
      (by decide)
    have htouches : LoadTouches ((AddrBus.empty : AddrBus Mem).setMem 0x80000000 0x10000
        fun _ => 0) 0x80010000 1 := ⟨fun _ => 0, fun _ => 1, by decide +kernel⟩
    exact absurd (h.load htouches) (by decide)
  · intro hall
    have h := hall ⟨fun _ => 0, 0x10000⟩ (-1) 2 (by decide) (by decide)
    exact absurd (h.load (by decide)) (by decide)

end NextEmu.Device
