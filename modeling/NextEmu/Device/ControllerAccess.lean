import NextEmu.Device.Mem
import NextEmu.Device.MiniCPUMemController

/-!
# The accesses that a bus forwards to the memory controller

The bus knows no size of a device. It forwards every width, and every address up to the
next registered one, and the controller asserts a length of eight and copies from
wherever the offset points. So only the words inside its register structure can be
accessed.
-/

namespace NextEmu.Device.ControllerAccess

open NextEmu.Sdk MiniCPUMemController

/-- A controller that has broken off an access stays there. -/
abbrev Controller := Except Fault MiniCPUMemController

/-- What is registered at a bus: the controller, or a device of another kind. -/
abbrev Registered (δ : Type) := Controller ⊕ δ

instance : SlaveIOI Controller where
  load d a len :=
    match d with
    | .error f => ((.unknownErr, 0), .error f)
    | .ok c =>
      match c.load a len with
      | .error f => ((.unknownErr, 0), .error f)
      | .ok (fb, x) => ((fb, x.setWidth (8 * len)), .ok c)
  store d a len x :=
    match d with
    | .error f => (.unknownErr, .error f)
    | .ok c =>
      match c.store a len x with
      | .error f => (.unknownErr, .error f)
      | .ok (fb, c') => (fb, .ok c')

instance {δ : Type} [SlaveIOI δ] : SlaveIOI (Registered δ) where
  load d a len :=
    match d with
    | .inl c => let r := SlaveIOI.load c a len; (r.1, .inl r.2)
    | .inr o => let r := SlaveIOI.load o a len; (r.1, .inr r.2)
  store d a len x :=
    match d with
    | .inl c => let r := SlaveIOI.store c a len x; (r.1, .inl r.2)
    | .inr o => let r := SlaveIOI.store o a len x; (r.1, .inr r.2)

/-- The range `[off, off + len)` lies in the register structure. -/
def InRegs (off : Addr) (len : Nat) : Prop := off.toNat + len ≤ InnerState.size

instance (off : Addr) (len : Nat) : Decidable (InRegs off len) :=
  inferInstanceAs (Decidable (_ ≤ _))

section Bus

variable {δ : Type} [SlaveIOI δ]

/-- The bus forwards an access at `a` to the controller `c`, which is registered at `b`. -/
structure Forwards (bus : AddrBus (Registered δ)) (a b : Addr) (c : MiniCPUMemController) :
    Prop where
  mem : bus.inMainMem a = false
  dev : bus.findDev a = some (b, .inl (.ok c))

/-- A controller is registered at `b` and has broken off nothing. -/
def Alive (bus : AddrBus (Registered δ)) (a b : Addr) : Prop :=
  ∃ c, bus.findDev a = some (b, .inl (.ok c))

/-- Loads and stores of `len` bytes at `a` end in the controller, which is still there, and answer
an error when the range is not in its registers. -/
structure Survives (bus : AddrBus (Registered δ)) (a b : Addr) (len : Nat) : Prop where
  load : Alive (bus.load a len).2 a b ∧
    (¬ InRegs (a - b) len → (bus.load a len).1.1 ≠ .success)
  store : ∀ x, Alive (bus.store a len x).2 a b ∧
    (¬ InRegs (a - b) len → (bus.store a len x).1 ≠ .success)

/-! ## Routing -/

theorem findDev_putDev {δ : Type} {bus : AddrBus δ} {a key : Addr} {d : δ}
    (h : bus.findDev a = some (key, d)) (d' : δ) :
    (bus.putDev key d').findDev a = some (key, d') := by
  have hkeep : ((fun e : Addr × δ => decide (e.1 ≤ a)) ∘
      fun e => if e.1 = key then (e.1, d') else e) = fun e => decide (e.1 ≤ a) := by
    funext e
    simp only [Function.comp]
    split <;> rfl
  unfold AddrBus.findDev at h ⊢
  unfold AddrBus.putDev
  rw [List.filter_map, hkeep, List.getLast?_map, h]
  exact congrArg some (if_pos rfl)

variable {bus : AddrBus (Registered δ)} {a b : Addr} {c : MiniCPUMemController}

theorem load_forwarded (h : Forwards bus a b c) (len : Nat) :
    bus.load a len =
      ((SlaveIOI.load (Except.ok c : Controller) (a - b) len).1,
        bus.putDev b (.inl (SlaveIOI.load (Except.ok c : Controller) (a - b) len).2)) := by
  unfold AddrBus.load
  rw [h.mem, h.dev]
  rfl

theorem store_forwarded (h : Forwards bus a b c) (len : Nat) (x : BitVec (8 * len)) :
    ∃ bus' : AddrBus (Registered δ), bus'.findDev a = some (b, .inl (.ok c)) ∧ bus.store a len x =
      ((SlaveIOI.store (Except.ok c : Controller) (a - b) len x).1,
        bus'.putDev b (.inl (SlaveIOI.store (Except.ok c : Controller) (a - b) len x).2)) := by
  obtain ⟨hmain, hbegin, hend, hdevices⟩ := bus.breakReservation_memory a (BitVec.ofNat 64 len)
  have hmem : (bus.breakReservation a (BitVec.ofNat 64 len)).inMainMem a = false := by
    unfold AddrBus.inMainMem
    rw [hmain, hbegin, hend]
    exact h.mem
  have hdev : (bus.breakReservation a (BitVec.ofNat 64 len)).findDev a =
      some (b, .inl (.ok c)) := by
    unfold AddrBus.findDev
    rw [hdevices]
    exact h.dev
  refine ⟨_, hdev, ?_⟩
  unfold AddrBus.store AddrBus.storeRouted
  rw [hmem, hdev]
  rfl

/-! ## The controller -/

theorem load_inside (c : MiniCPUMemController) {off : Addr} (h : InRegs off 8) :
    c.load off 8 = .ok (.success, c.word off.toNat) := by
  have hout : ¬ off.toNat + 8 > InnerState.size := Nat.not_lt.mpr h
  unfold MiniCPUMemController.load
  rw [if_neg (by decide), if_neg hout]
  rfl

theorem load_outside (c : MiniCPUMemController) {off : Addr} {len : Nat}
    (h : ¬ (len = 8 ∧ InRegs off len)) : ∃ f, c.load off len = .error f := by
  unfold MiniCPUMemController.load
  by_cases hlen : len = 8
  · have hout : off.toNat + 8 > InnerState.size :=
      Nat.not_le.mp fun hle => h ⟨hlen, hlen ▸ hle⟩
    rw [if_neg (not_not_intro hlen), if_pos hout]
    exact ⟨_, rfl⟩
  · rw [if_pos hlen]
    exact ⟨_, rfl⟩

theorem store_inside (c : MiniCPUMemController) {off : Addr} (h : InRegs off 8)
    (x : BitVec (8 * 8)) : ∃ c', c.store off 8 x = .ok (.success, c') := by
  have hout : ¬ off.toNat + 8 > InnerState.size := Nat.not_lt.mpr h
  unfold MiniCPUMemController.store
  rw [if_neg (by decide), if_neg hout]
  by_cases hrd : off = 0x10
  · exact ⟨_, if_pos hrd⟩
  · by_cases hwr : off = 0x18
    · exact ⟨_, (if_neg hrd).trans (if_pos hwr)⟩
    · exact ⟨_, (if_neg hrd).trans (if_neg hwr)⟩

/-- The accesses that the controller survives are those of a word in its registers. -/
theorem survives_iff (bus : AddrBus (Registered δ)) (a b : Addr) (c : MiniCPUMemController)
    (len : Nat) (h : Forwards bus a b c) :
    Survives bus a b len ↔ len = 8 ∧ InRegs (a - b) len := by
  constructor
  · rintro ⟨⟨⟨c', halive⟩, -⟩, -⟩
    refine Decidable.by_contra fun hout => ?_
    obtain ⟨f, hf⟩ := load_outside c hout
    have hload : (SlaveIOI.load (Except.ok c : Controller) (a - b) len).2 = .error f := by
      simp only [SlaveIOI.load, hf]
    rw [load_forwarded h, hload, findDev_putDev h.dev] at halive
    cases halive
  · rintro ⟨rfl, hin⟩
    refine ⟨⟨⟨c, ?_⟩, fun hout => absurd hin hout⟩, fun x => ⟨?_, fun hout => absurd hin hout⟩⟩
    · have hload : (SlaveIOI.load (Except.ok c : Controller) (a - b) 8).2 = .ok c := by
        simp only [SlaveIOI.load, load_inside c hin]
      rw [load_forwarded h, hload]
      exact findDev_putDev h.dev _
    · obtain ⟨c', hc'⟩ := store_inside c hin x
      obtain ⟨bus', hdev, hbus⟩ := store_forwarded h 8 x
      have hstore : (SlaveIOI.store (Except.ok c : Controller) (a - b) 8 x).2 = .ok c' := by
        simp only [SlaveIOI.store, hc']
      refine ⟨c', ?_⟩
      rw [hbus, hstore]
      exact findDev_putDev hdev _

end Bus

/-- A bus with nothing but a controller at `0x10000000`. -/
def controllerBus : AddrBus (Registered Empty) :=
  { (AddrBus.empty : AddrBus (Registered Empty)) with
    devices := [(0x10000000, .inl (.ok ⟨fun _ => 0, []⟩))]
    keyOrder := List.pairwise_singleton _ _ }

theorem controllerBus_forwards :
    Forwards controllerBus 0x10000010 0x10000000 ⟨fun _ => 0, []⟩ := ⟨rfl, rfl⟩

/-- A load of four bytes of the pending register stops at the assertion. -/
theorem narrow_load_stops :
    ¬ ∀ (bus : AddrBus (Registered Empty)) a b c len, 1 ≤ len → len ≤ 8 →
      Forwards bus a b c → Survives bus a b len := by
  intro hall
  obtain ⟨c, halive⟩ :=
    (hall _ _ _ _ 4 (by decide) (by decide) controllerBus_forwards).load.1
  have hstopped : (controllerBus.load 0x10000010 4).2.findDev 0x10000010 =
      some (0x10000000, .inl (.error .len)) := by rfl
  rw [hstopped] at halive
  cases halive

theorem survives_iff_pending :
    Survives controllerBus 0x10000010 0x10000000 8 ↔
      8 = 8 ∧ InRegs (0x10000010 - 0x10000000) 8 :=
  survives_iff _ _ _ _ _ controllerBus_forwards

end NextEmu.Device.ControllerAccess
