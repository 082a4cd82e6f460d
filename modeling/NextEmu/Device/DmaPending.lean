import NextEmu.Device.MiniCPUMemController

/-!
# The pending bits of the memory controller

A store to a pending register writes the stored word over the register before it looks
for channels to start. So the bits of the channels that were pending and are not
stored are lost, and the stored ones are started whether they were pending or not, of
the read channels only the first. The first half says when a store starts exactly the
new channels all the same, the second when the bits of a whole run are those of the
transfers that have been started and not completed.
-/

namespace NextEmu.Device.DmaPending

open NextEmu.Sdk MiniCPUMemController

/-- The pending register of a direction. -/
def pendingOff : EventType → Nat
  | .asyncRead => InnerState.rdPendingChnBits
  | .asyncWrite => InnerState.wrPendingChnBits

/-- The address of it, as `store` compares it. -/
def pendingAddr : EventType → Addr
  | .asyncRead => 0x10
  | .asyncWrite => 0x18

def pending (c : MiniCPUMemController) (dir : EventType) : BitVec 64 := c.word (pendingOff dir)

def descs : EventType → Nat
  | .asyncRead => InnerState.rdChnDescs
  | .asyncWrite => InnerState.wrChnDescs

/-! ## One store to a pending register -/

/-- The store of `v` starts each channel of `v` that is not pending once, no other, and adds
them to the register. -/
def StartsNew (c : MiniCPUMemController) (dir : EventType) (v : BitVec 64) : Prop :=
  ∃ c' evs, c.store (pendingAddr dir) 8 v = .ok (.success, c') ∧
    pending c' dir = pending c dir ||| v ∧ c'.eventQueue = c.eventQueue ++ evs ∧
    (∀ e ∈ evs, e.type = dir ∧ e.chnID.toNat < 64) ∧
    ∀ i, i < 64 → evs.countP (fun e => e.type = dir ∧ e.chnID = BitVec.ofNat 64 i) =
      if v.getLsbD i ∧ ¬ (pending c dir).getLsbD i then 1 else 0

/-- The first channel of a word. -/
def firstChn (v : BitVec 64) : Option Nat := (List.range nrChn).find? (v.getLsbD ·)

/-- The word without its first channel. -/
def withoutFirst (v : BitVec 64) : BitVec 64 :=
  match firstChn v with
  | none => v
  | some i => v &&& ~~~ (1#64 <<< i)

/-- The pending channels that a store of `v` does no harm to. -/
def mayBePending (dir : EventType) (v : BitVec 64) : BitVec 64 :=
  match dir with
  | .asyncRead => withoutFirst v
  | .asyncWrite => 0

/-- The channels that `store` starts for a word. -/
def started (dir : EventType) (v : BitVec 64) : List Nat :=
  match dir with
  | .asyncRead => (firstChn v).toList
  | .asyncWrite => (List.range nrChn).filter (v.getLsbD ·)

section Store

variable {c : MiniCPUMemController} {dir : EventType} {v : BitVec 64}

theorem word_setWord (c : MiniCPUMemController) (off : Nat) (x : BitVec 64) :
    (c.setWord off x).word off = x := readBytes_writeBytes _ _ _ _

theorem word_setWord_of_disjoint (c : MiniCPUMemController) {off off' : Nat} (x : BitVec 64)
    (h : off' + 8 ≤ off ∨ off + 8 ≤ off') : (c.setWord off x).word off' = c.word off' :=
  readBytes_writeBytes_of_disjoint _ _ h

theorem startRead_eq (v : BitVec 64) (l : List Nat) (c : MiniCPUMemController) :
    startRead v l c = { c with eventQueue := c.eventQueue ++
      (l.find? (v.getLsbD ·)).toList.map (c.chnEvent .asyncRead InnerState.rdChnDescs) } := by
  induction l with
  | nil => simp [startRead]
  | cons i rest ih =>
    unfold startRead
    cases hi : v.getLsbD i with
    | true =>
      rw [List.find?_cons_of_pos hi]
      rfl
    | false =>
      rw [List.find?_cons_of_neg (by rw [hi]; decide), ← ih]
      rfl

theorem startWrite_eq (v : BitVec 64) (l : List Nat) (c : MiniCPUMemController) :
    startWrite v l c = { c with eventQueue := c.eventQueue ++
      (l.filter (v.getLsbD ·)).map (c.chnEvent .asyncWrite InnerState.wrChnDescs) } := by
  induction l generalizing c with
  | nil => simp [startWrite]
  | cons i rest ih =>
    unfold startWrite
    cases hi : v.getLsbD i with
    | true =>
      rw [List.filter_cons_of_pos hi, if_pos rfl, ih]
      simp only [emitEvent, List.map_cons, List.append_assoc, List.singleton_append]
      rfl
    | false =>
      rw [List.filter_cons_of_neg (by rw [hi]; decide), if_neg Bool.false_ne_true, ih]

/-- A register that holds the stored word already has no channel to claim but all of them. -/
theorem claimChannels_eq {off : Nat} (h : c.word off = v) :
    c.claimChannels off v = (v, c.setWord off v) := by
  have hand : v &&& ~~~ v = 0 := BitVec.and_not_self v
  unfold claimChannels
  simp only [h, hand]
  congr
  · exact BitVec.zero_xor
  · exact BitVec.or_zero

theorem chnEvent_setWord (c : MiniCPUMemController) {off descs : Nat} (x : BitVec 64)
    (h : off + 8 ≤ descs) (type : EventType) (i : Nat) :
    (c.setWord off x).chnEvent type descs i = c.chnEvent type descs i := by
  unfold chnEvent
  rw [word_setWord_of_disjoint c x (.inr (by omega)),
    word_setWord_of_disjoint c x (.inr (by omega))]

/-- A store to a pending register leaves the stored word in it and starts its channels. -/
theorem store_pending (c : MiniCPUMemController) (dir : EventType) (v : BitVec 64) :
    ∃ c', c.store (pendingAddr dir) 8 v = .ok (.success, c') ∧
      (∀ off, off + 8 ≤ pendingOff dir ∨ pendingOff dir + 8 ≤ off → c'.word off = c.word off) ∧
      pending c' dir = v ∧
      c'.eventQueue = c.eventQueue ++ (started dir v).map (c.chnEvent dir (descs dir)) := by
  have hword : ∀ off, off + 8 ≤ pendingOff dir ∨ pendingOff dir + 8 ≤ off →
      ((c.setWord (pendingOff dir) v).setWord (pendingOff dir) v).word off = c.word off := by
    intro off hoff
    rw [word_setWord_of_disjoint _ v hoff, word_setWord_of_disjoint _ v hoff]
  have hevent : ∀ i, ((c.setWord (pendingOff dir) v).setWord (pendingOff dir) v).chnEvent dir
      (descs dir) i = c.chnEvent dir (descs dir) i := by
    intro i
    have hlow : pendingOff dir + 8 ≤ descs dir := by cases dir <;> decide
    rw [chnEvent_setWord _ v hlow, chnEvent_setWord _ v hlow]
  have hpending := word_setWord (c.setWord (pendingOff dir) v) (pendingOff dir) v
  have hclaim := claimChannels_eq (word_setWord c (pendingOff dir) v)
  cases dir with
  | asyncRead =>
    have hstore : c.store (pendingAddr .asyncRead) 8 v = .ok (.success,
        startRead ((c.setWord (pendingOff .asyncRead) v).claimChannels (pendingOff .asyncRead) v).1
          (List.range nrChn)
          ((c.setWord (pendingOff .asyncRead) v).claimChannels (pendingOff .asyncRead) v).2) := rfl
    rw [hclaim, startRead_eq] at hstore
    exact ⟨_, hstore, hword, hpending,
      congrArg _ (List.map_congr_left fun i _ => hevent i)⟩
  | asyncWrite =>
    have hstore : c.store (pendingAddr .asyncWrite) 8 v = .ok (.success,
        startWrite ((c.setWord (pendingOff .asyncWrite) v).claimChannels (pendingOff .asyncWrite)
          v).1 (List.range nrChn)
          ((c.setWord (pendingOff .asyncWrite) v).claimChannels (pendingOff .asyncWrite) v).2) :=
      rfl
    rw [hclaim, startWrite_eq] at hstore
    exact ⟨_, hstore, hword, hpending,
      congrArg _ (List.map_congr_left fun i _ => hevent i)⟩

theorem started_lt {i : Nat} (hi : i ∈ started dir v) : i < 16 ∧ v.getLsbD i = true := by
  cases dir with
  | asyncRead =>
    have hfirst : (List.range nrChn).find? (v.getLsbD ·) = some i := by
      simpa [started, firstChn] using hi
    exact ⟨List.mem_range.mp (List.mem_of_find?_eq_some hfirst), List.find?_some hfirst⟩
  | asyncWrite =>
    obtain ⟨hmem, hbit⟩ := List.mem_filter.mp hi
    exact ⟨List.mem_range.mp hmem, hbit⟩

theorem started_nodup (dir : EventType) (v : BitVec 64) : (started dir v).Nodup := by
  cases dir with
  | asyncRead =>
    unfold started
    cases firstChn v <;> simp
  | asyncWrite => exact List.nodup_range.filter _

/-- How many of the started events are those of channel `i`. -/
theorem count_started {i : Nat} (hi : i < 64) :
    ((started dir v).map (c.chnEvent dir (descs dir))).countP
        (fun e => e.type = dir ∧ e.chnID = BitVec.ofNat 64 i) =
      if i ∈ started dir v then 1 else 0 := by
  rw [List.countP_map, ← (started_nodup dir v).count]
  refine List.countP_congr fun j hj => ?_
  have hlt := (started_lt hj).1
  simp only [Function.comp, chnEvent, true_and, decide_eq_true_eq, beq_iff_eq, ← BitVec.toNat_inj,
    BitVec.toNat_ofNat]
  omega

theorem startsNew_iff : StartsNew c dir v ↔ ∀ i, i < 64 →
    ((pending c dir).getLsbD i = true → v.getLsbD i = true) ∧
    (i ∈ started dir v ↔ v.getLsbD i = true ∧ ¬ (pending c dir).getLsbD i = true) := by
  obtain ⟨c', hstore, -, hpending, hqueue⟩ := store_pending c dir v
  have hif : ∀ {p q : Prop} [Decidable p] [Decidable q],
      ((if p then 1 else 0) = if q then 1 else 0) ↔ (p ↔ q) := by
    intro p q _ _
    by_cases hp : p <;> by_cases hq : q <;> simp [hp, hq]
  constructor
  · rintro ⟨c'', evs, hstore', hpending', hqueue', -, hcount⟩
    rw [hstore] at hstore'
    cases hstore'
    rw [hqueue] at hqueue'
    have hevs := List.append_cancel_left hqueue'
    intro i hi
    constructor
    · intro hp
      rw [hpending] at hpending'
      rw [hpending', BitVec.getLsbD_or, hp, Bool.true_or]
    · have hc := hcount i hi
      rw [← hevs, count_started hi, hif] at hc
      exact hc
  · intro h
    refine ⟨c', _, hstore, ?_, hqueue, ?_, fun i hi => ?_⟩
    · rw [hpending]
      refine BitVec.eq_of_getLsbD_eq fun i hi => ?_
      rw [BitVec.getLsbD_or]
      cases hp : (pending c dir).getLsbD i with
      | false => rw [Bool.false_or]
      | true => rw [(h i hi).1 hp, Bool.true_or]
    · intro e he
      obtain ⟨i, hi, rfl⟩ := List.mem_map.mp he
      have hlt := (started_lt hi).1
      exact ⟨rfl, by rw [chnEvent, BitVec.toNat_ofNat]; omega⟩
    · rw [count_started hi, hif]
      exact (h i hi).2

theorem getLsbD_withoutFirst (v : BitVec 64) {i : Nat} (hi : i < 64) :
    (withoutFirst v).getLsbD i = (v.getLsbD i && !decide (firstChn v = some i)) := by
  unfold withoutFirst
  cases hf : firstChn v with
  | none => simp
  | some j =>
    dsimp only
    rw [← BitVec.twoPow_eq]
    simp only [BitVec.getLsbD_and, BitVec.getLsbD_not, BitVec.getLsbD_twoPow, hi, decide_true,
      Bool.true_and, Option.some.injEq]
    by_cases hji : j = i
    · subst hji
      simp [hi]
    · simp [hji]

/-- A store starts exactly the new channels when, for reads, all channels but the first of the
stored word are pending already and no other, and for writes, when no channel is pending. -/
theorem starts_iff (c : MiniCPUMemController) (dir : EventType) (v : BitVec 64)
    (hv : v.toNat < 2 ^ 16) :
    StartsNew c dir v ↔ pending c dir = mayBePending dir v := by
  have hzero : ∀ i, (0 : BitVec 64).getLsbD i = false := fun _ => BitVec.getLsbD_zero
  rw [startsNew_iff]
  cases dir with
  | asyncRead =>
    have hmem : ∀ i, i ∈ started .asyncRead v ↔ firstChn v = some i := by simp [started]
    constructor
    · intro h
      refine BitVec.eq_of_getLsbD_eq fun i hi => ?_
      obtain ⟨hsub, hstart⟩ := h i hi
      rw [mayBePending, getLsbD_withoutFirst v hi]
      rw [hmem] at hstart
      grind
    · intro h i hi
      have hfirst : firstChn v = some i → v.getLsbD i = true :=
        fun hf => (started_lt ((hmem i).mpr hf)).2
      rw [hmem, h, mayBePending, getLsbD_withoutFirst v hi]
      grind
  | asyncWrite =>
    have hmem : ∀ i, i ∈ started .asyncWrite v ↔ v.getLsbD i = true := by
      intro i
      refine ⟨fun hi => (started_lt hi).2, fun hbit => ?_⟩
      refine List.mem_filter.mpr ⟨List.mem_range.mpr (Nat.lt_of_not_le fun hge => ?_), hbit⟩
      have hle : v.toNat < 2 ^ i :=
        Nat.lt_of_lt_of_le hv (Nat.pow_le_pow_right (by decide) hge)
      rw [BitVec.getLsbD, Nat.testBit_lt_two_pow hle] at hbit
      cases hbit
    constructor
    · intro h
      refine BitVec.eq_of_getLsbD_eq fun i hi => ?_
      obtain ⟨hsub, hstart⟩ := h i hi
      rw [hmem] at hstart
      rw [mayBePending, hzero]
      grind
    · intro h i hi
      rw [hmem, h, mayBePending, hzero]
      simp

end Store

theorem starts_iff_one : StartsNew ⟨fun _ => 0, []⟩ .asyncRead 1 ↔
    pending ⟨fun _ => 0, []⟩ .asyncRead = mayBePending .asyncRead 1 :=
  starts_iff ⟨fun _ => 0, []⟩ .asyncRead 1 (by decide)

/-- Two idle read channels are stored at once, and the second is pending without an event. -/
theorem second_read_lost : ¬ ∀ (c : MiniCPUMemController) (dir : EventType) (v : BitVec 64),
    v.toNat < 2 ^ 16 → StartsNew c dir v := by
  intro hall
  obtain ⟨c', evs, hstore, -, hqueue, -, hcount⟩ := hall ⟨fun _ => 0, []⟩ .asyncRead 3 (by decide)
  have hone : (MiniCPUMemController.store ⟨fun _ => 0, []⟩ (pendingAddr .asyncRead) 8 3).map
      (·.2.eventQueue) = .ok [⟨.asyncRead, 0, 0, 0⟩] := by rfl
  rw [hstore] at hone
  have hevs : evs = [⟨.asyncRead, 0, 0, 0⟩] := hqueue.symm.trans (Except.ok.inj hone)
  have hsecond := hcount 1 (by decide)
  rw [hevs] at hsecond
  exact absurd hsecond (by decide)

/-! ## Runs -/

/-- The controller, the bus behind its handlers, and the events that handlers work on; the flag
says that the bus accesses have been made. -/
structure DmaSystem (β : Type) where
  ctrl : MiniCPUMemController
  bus : β
  pool : List (MemCtrlEvent × Bool)

/-- One step of one of the threads. What a handler's bus access does to the controller, if the
bus leads back to it, is a `load` or a `store` of its own. -/
inductive DmaOp
  | load (beginAddr : Addr) (len : Nat)
  | store (beginAddr : Addr) (len : Nat) (data : BitVec (8 * len))
  | dispatch
  | transfer (i : Nat)
  | finish (i : Nat)

namespace DmaSystem

/-- The state after a step, if it can be taken and does not break off. `asyncRunTask` waits until
one of the `NR_CHN` workers is free. -/
def apply {β : Type} [SlaveIOI β] (s : DmaSystem β) : DmaOp → Option (DmaSystem β)
  | .load beginAddr len =>
    match s.ctrl.load beginAddr len with
    | .error _ => none
    | .ok _ => some s
  | .store beginAddr len data =>
    match s.ctrl.store beginAddr len data with
    | .error _ => none
    | .ok (_, ctrl) => some { s with ctrl := ctrl }
  | .dispatch =>
    match s.ctrl.eventQueue with
    | [] => none
    | event :: rest =>
      if s.pool.length < nrChn then
        some { s with
          ctrl := { s.ctrl with eventQueue := rest }
          pool := s.pool ++ [(event, false)] }
      else none
  | .transfer i =>
    match s.pool[i]? with
    | some (event, false) =>
      some { s with
        bus := Device.transfer s.bus event
        pool := s.pool.set i (event, true) }
    | _ => none
  | .finish i =>
    match s.pool[i]? with
    | some (event, true) =>
      some { s with
        ctrl := s.ctrl.clearPending event
        pool := s.pool.eraseIdx i }
    | _ => none

variable {β : Type}

def key (event : MemCtrlEvent) : EventType × Nat := (event.type, event.chnID.toNat)

/-- The channels whose events are queued or in a handler. -/
def inFlight (s : DmaSystem β) : List (EventType × Nat) :=
  (s.ctrl.eventQueue ++ s.pool.map (·.1)).map key

/-- The pending bits are those of the channels in flight. -/
def PendingExact (s : DmaSystem β) : Prop :=
  ∀ dir i, i < 64 → ((pending s.ctrl dir).getLsbD i = true ↔ (dir, i) ∈ s.inFlight)

/-- The event that a step completes. -/
def completing (s : DmaSystem β) : DmaOp → Option MemCtrlEvent
  | .finish i => s.pool[i]?.map (·.1)
  | _ => none

/-- A completion clears its own bit in its own register and nothing else. -/
def ClearsOwn (s : DmaSystem β) (op : DmaOp) (s' : DmaSystem β) : Prop :=
  ∀ event, s.completing op = some event → ∀ dir, pending s'.ctrl dir =
    if dir = event.type then pending s.ctrl dir &&& clearMask event else pending s.ctrl dir

/-- A store to a pending register names one channel, which is idle. -/
def IdleStart (s : DmaSystem β) (op : DmaOp) : Prop :=
  ∀ dir len data, op = .store (pendingAddr dir) len data →
    ∃ i, i < nrChn ∧ data.setWidth 64 = 1#64 <<< i ∧ (dir, i) ∉ s.inFlight

/-- A store to a pending register finds no transfer of its direction in flight, a store that
overlaps the registers otherwise leaves them as they are, and no write transfer completes. -/
def Careful (s : DmaSystem β) : DmaOp → Prop
  | .store beginAddr len data =>
    (∀ dir, beginAddr = pendingAddr dir → ∀ i, (dir, i) ∉ s.inFlight) ∧
    ((∀ dir, beginAddr ≠ pendingAddr dir) → ∀ a, 0x10 ≤ a → a < 0x20 →
      writeBytes s.ctrl.reg beginAddr.toNat len data a = s.ctrl.reg a)
  | .finish i => ∀ event, s.pool[i]? = some (event, true) → event.type = .asyncRead
  | _ => True

variable [SlaveIOI β]

/-- The pending bits are exact in each state of a run, and each completion clears its own. -/
def Tracked (s : DmaSystem β) : List DmaOp → Prop
  | [] => s.PendingExact
  | op :: ops =>
    s.PendingExact ∧ ∀ s', s.apply op = some s' → s.ClearsOwn op s' ∧ s'.Tracked ops

def IdleStarts (s : DmaSystem β) : List DmaOp → Prop
  | [] => True
  | op :: ops => s.IdleStart op ∧ ∀ s', s.apply op = some s' → s'.IdleStarts ops

def CarefulRun (s : DmaSystem β) : List DmaOp → Prop
  | [] => True
  | op :: ops => ∀ s', s.apply op = some s' → s.Careful op ∧ s'.CarefulRun ops

end DmaSystem

open DmaSystem

section Step

variable {β : Type} {s s' : DmaSystem β}

/-- The two registers are the bytes from 0x10 to 0x1f. -/
theorem pending_eq_iff (c c' : MiniCPUMemController) :
    (∀ dir, pending c' dir = pending c dir) ↔ ∀ a, 0x10 ≤ a → a < 0x20 → c'.reg a = c.reg a := by
  constructor
  · intro h a hlo hhi
    by_cases hrd : a < 0x18
    · exact readBytes_inj (h .asyncRead) hlo hrd
    · exact readBytes_inj (h .asyncWrite) (Nat.le_of_not_lt hrd) hhi
  · intro h dir
    refine readBytes_congr fun a hlo hhi => ?_
    have hoff : 0x10 ≤ pendingOff dir ∧ pendingOff dir ≤ 0x18 := by cases dir <;> decide
    exact h a (by omega) (by omega)

/-- Both registers are determined by what is in flight. -/
theorem pending_eq_of_exact (h : s.PendingExact) (h' : s'.PendingExact)
    (hflight : s'.inFlight.Perm s.inFlight) (dir : EventType) :
    pending s'.ctrl dir = pending s.ctrl dir := by
  refine BitVec.eq_of_getLsbD_eq fun i hi => Bool.eq_iff_iff.mpr ?_
  rw [h' dir i hi, h dir i hi, hflight.mem_iff]

theorem exact_congr (h : s.PendingExact)
    (hpending : ∀ dir, pending s'.ctrl dir = pending s.ctrl dir)
    (hflight : s'.inFlight.Perm s.inFlight) : s'.PendingExact := by
  intro dir i hi
  rw [hpending, hflight.mem_iff]
  exact h dir i hi

theorem store_elsewhere {c c' : MiniCPUMemController} {beginAddr : Addr} {len : Nat}
    {data : BitVec (8 * len)} {fb : Feedback}
    (h : c.store beginAddr len data = .ok (fb, c')) (ha : ∀ dir, beginAddr ≠ pendingAddr dir) :
    c'.reg = writeBytes c.reg beginAddr.toNat len data ∧ c'.eventQueue = c.eventQueue := by
  have hrd : ¬ beginAddr = 0x10 := ha .asyncRead
  have hwr : ¬ beginAddr = 0x18 := ha .asyncWrite
  unfold MiniCPUMemController.store at h
  by_cases hlen : len ≠ 8
  · rw [if_pos hlen] at h
    cases h
  obtain rfl : len = 8 := Decidable.not_not.mp hlen
  by_cases hout : beginAddr.toNat + 8 > InnerState.size
  · rw [if_neg hlen, if_pos hout] at h
    cases h
  rw [if_neg hlen, if_neg hout, if_neg hrd, if_neg hwr] at h
  cases h
  exact ⟨congrArg (writeBytes c.reg _ 8) (BitVec.setWidth_eq data), rfl⟩

theorem store_len {c : MiniCPUMemController} {beginAddr : Addr} {len : Nat}
    {data : BitVec (8 * len)} {r : Feedback × MiniCPUMemController}
    (h : c.store beginAddr len data = .ok r) : len = 8 := by
  unfold MiniCPUMemController.store at h
  by_cases hlen : len ≠ 8
  · rw [if_pos hlen] at h
    cases h
  · exact Decidable.not_not.mp hlen

theorem started_single (dir : EventType) : ∀ i, i < nrChn → started dir (1#64 <<< i) = [i] := by
  cases dir <;> decide

theorem key_chnEvent (c : MiniCPUMemController) (dir : EventType) (descs : Nat) {i : Nat}
    (hi : i < nrChn) : key (c.chnEvent dir descs i) = (dir, i) := by
  have hlt : i < 2 ^ 64 := Nat.lt_trans hi (by decide)
  rw [key, chnEvent, BitVec.toNat_ofNat, Nat.mod_eq_of_lt hlt]

theorem inFlight_append (q : List MemCtrlEvent) (c : MiniCPUMemController) (bus : β)
    (pool : List (MemCtrlEvent × Bool)) (hq : c.eventQueue = s.ctrl.eventQueue ++ q)
    (hpool : pool = s.pool) :
    (DmaSystem.mk c bus pool).inFlight.Perm (q.map key ++ s.inFlight) := by
  unfold inFlight
  rw [hq, hpool]
  simp only [List.map_append, ← List.append_assoc]
  exact List.perm_append_comm.append_right _

/-- A store that names one channel leaves just its bit and adds its event. -/
theorem start_effect {c' : MiniCPUMemController} {dir : EventType} {len i : Nat}
    {data : BitVec (8 * len)} {fb : Feedback} (hi : i < nrChn)
    (hdata : data.setWidth 64 = 1#64 <<< i)
    (h : s.ctrl.store (pendingAddr dir) len data = .ok (fb, c')) :
    ({ s with ctrl := c' } : DmaSystem β).inFlight.Perm ((dir, i) :: s.inFlight) ∧
    pending c' dir = 1#64 <<< i ∧ ∀ dir', dir' ≠ dir → pending c' dir' = pending s.ctrl dir' := by
  obtain rfl := store_len h
  rw [BitVec.setWidth_eq] at hdata
  subst hdata
  obtain ⟨c'', hstore, hword, hpending, hqueue⟩ := store_pending s.ctrl dir (1#64 <<< i)
  rw [hstore] at h
  cases h
  refine ⟨?_, hpending, fun dir' hne => hword _ ?_⟩
  · rw [started_single dir i hi] at hqueue
    have hperm := inFlight_append _ c' s.bus s.pool hqueue rfl
    rw [List.map_map, List.map_singleton, Function.comp, key_chnEvent _ _ _ hi] at hperm
    exact hperm
  · cases dir <;> cases dir' <;> first | exact absurd rfl hne | decide

/-- What is in flight is there once, and its channel is one of the sixteen. -/
structure Distinct (s : DmaSystem β) : Prop where
  once : s.inFlight.Nodup
  low : ∀ k ∈ s.inFlight, k.2 < nrChn

theorem Distinct.perm (h : Distinct s) (hflight : s'.inFlight.Perm s.inFlight) : Distinct s' where
  once := hflight.nodup_iff.mpr h.once
  low := fun k hk => h.low k (hflight.mem_iff.mp hk)

/-- The start of an idle channel keeps the bits exact when nothing of its direction is in
flight. -/
theorem start_exact_iff (hexact : s.PendingExact) (hd : Distinct s) {dir : EventType} {i : Nat}
    (hi : i < nrChn) (hidle : (dir, i) ∉ s.inFlight)
    (hflight : s'.inFlight.Perm ((dir, i) :: s.inFlight))
    (hpending : pending s'.ctrl dir = 1#64 <<< i)
    (hother : ∀ dir', dir' ≠ dir → pending s'.ctrl dir' = pending s.ctrl dir') :
    s'.PendingExact ↔ ∀ j, (dir, j) ∉ s.inFlight := by
  have hbit : ∀ j, j < 64 → ((pending s'.ctrl dir).getLsbD j = true ↔ j = i) := by
    intro j hj
    rw [hpending, ← BitVec.twoPow_eq, BitVec.getLsbD_twoPow]
    have hi64 : i < 64 := Nat.lt_trans hi (by decide)
    simp [hi64, eq_comm]
  constructor
  · intro h j hj
    have hlow : j < 64 := Nat.lt_trans (hd.low _ hj) (by decide)
    have hset := (h dir j hlow).mpr (hflight.mem_iff.mpr (List.mem_cons_of_mem _ hj))
    rw [hbit j hlow] at hset
    exact hidle (hset ▸ hj)
  · intro h dir' j hj
    rw [hflight.mem_iff, List.mem_cons]
    by_cases hdir : dir' = dir
    · subst hdir
      rw [hbit j hj]
      refine ⟨fun hji => .inl (congrArg _ hji), fun hor => ?_⟩
      rcases hor with heq | hmem
      · exact congrArg Prod.snd heq
      · exact absurd hmem (h j)
    · rw [hother dir' hdir, hexact dir' j hj]
      refine ⟨.inr, fun hor => ?_⟩
      rcases hor with heq | hmem
      · exact absurd (congrArg Prod.fst heq) hdir
      · exact hmem

theorem word_clearPending (c : MiniCPUMemController) (event : MemCtrlEvent) :
    pending (c.clearPending event) .asyncRead =
      pending c .asyncRead &&& clearMask event ∧
    pending (c.clearPending event) .asyncWrite = pending c .asyncWrite := by
  have hread := word_setWord c InnerState.rdPendingChnBits
    (c.word InnerState.rdPendingChnBits &&& clearMask event)
  have hwrite : (c.setWord InnerState.rdPendingChnBits
      (c.word InnerState.rdPendingChnBits &&& clearMask event)).word InnerState.wrPendingChnBits =
      c.word InnerState.wrPendingChnBits := word_setWord_of_disjoint c _ (.inr (by decide))
  unfold clearPending
  cases event.type with
  | asyncRead => exact ⟨hread, hwrite⟩
  | asyncWrite => exact ⟨hread, hwrite⟩

theorem getLsbD_clearMask (x : BitVec 64) (event : MemCtrlEvent) {i : Nat} (hi : i < 64) :
    (x &&& clearMask event).getLsbD i = (x.getLsbD i && !decide (i = event.chnID.toNat)) := by
  rw [clearMask, ← BitVec.twoPow_eq, BitVec.getLsbD_and, BitVec.getLsbD_not,
    BitVec.getLsbD_twoPow]
  by_cases hid : i = event.chnID.toNat
  · simp [hi, ← hid]
  · simp [hi, hid, Ne.symm hid]

/-- A completion keeps the bits exact when it is one of a read. -/
theorem finish_exact_iff (hexact : s.PendingExact) (hd : Distinct s) {event : MemCtrlEvent}
    (hflight : s.inFlight.Perm (key event :: s'.inFlight))
    (hctrl : s'.ctrl = s.ctrl.clearPending event) :
    s'.PendingExact ↔ event.type = .asyncRead := by
  obtain ⟨hread, hwrite⟩ := word_clearPending s.ctrl event
  have hnodup : key event ∉ s'.inFlight ∧ s'.inFlight.Nodup :=
    List.nodup_cons.mp (hflight.nodup_iff.mp hd.once)
  have hmem : ∀ k, k ∈ s'.inFlight ↔ k ∈ s.inFlight ∧ k ≠ key event := by
    intro k
    rw [hflight.mem_iff, List.mem_cons]
    refine ⟨fun hk => ⟨.inr hk, fun heq => hnodup.1 (heq ▸ hk)⟩, fun hk => ?_⟩
    exact hk.1.resolve_left hk.2
  constructor
  · intro h
    cases htype : event.type with
    | asyncRead => rfl
    | asyncWrite =>
      have hin : key event ∈ s.inFlight := hflight.mem_iff.mpr (List.mem_cons_self ..)
      have hlow : event.chnID.toNat < 64 := Nat.lt_trans (hd.low _ hin) (by decide)
      have hkey : key event = (.asyncWrite, event.chnID.toNat) := by rw [key, htype]
      rw [hkey] at hin hnodup
      have hset := (hexact .asyncWrite _ hlow).mpr hin
      rw [← hwrite, ← hctrl] at hset
      exact absurd ((h .asyncWrite _ hlow).mp hset) hnodup.1
  · intro htype dir i hi
    rw [hmem, hctrl]
    have hkey : key event = (.asyncRead, event.chnID.toNat) := by rw [key, htype]
    cases dir with
    | asyncRead =>
      rw [hread, getLsbD_clearMask _ _ hi, ← hexact .asyncRead i hi, hkey]
      simp
    | asyncWrite =>
      rw [hwrite, ← hexact .asyncWrite i hi, hkey]
      simp

theorem finish_clearsOwn {event : MemCtrlEvent} (htype : event.type = .asyncRead)
    (dir : EventType) : pending (s.ctrl.clearPending event) dir =
      if dir = event.type then pending s.ctrl dir &&& clearMask event else pending s.ctrl dir := by
  obtain ⟨hread, hwrite⟩ := word_clearPending s.ctrl event
  rw [htype]
  cases dir with
  | asyncRead => exact hread
  | asyncWrite => exact hwrite

/-- With nothing in flight both registers are 0. -/
theorem drained_iff (hnone : s.inFlight = []) :
    s.PendingExact ↔ ∀ dir, pending s.ctrl dir = 0 := by
  constructor
  · intro h dir
    refine BitVec.eq_of_getLsbD_eq fun i hi => Bool.eq_iff_iff.mpr ?_
    rw [h dir i hi, hnone]
    simp
  · intro h dir i hi
    rw [h dir, hnone]
    simp

theorem eraseIdx_perm {α : Type} {l : List α} {i : Nat} {a : α} (h : l[i]? = some a) :
    l.Perm (a :: l.eraseIdx i) := by
  induction l generalizing i with
  | nil => cases h
  | cons b l ih =>
    cases i with
    | zero =>
      cases h
      exact .refl _
    | succ i => exact ((ih h).cons b).trans (.swap a b _)

theorem map_set_fst {α γ : Type} {l : List (α × γ)} {i : Nat} {a : α} {b b' : γ}
    (h : l[i]? = some (a, b)) : (l.set i (a, b')).map (·.1) = l.map (·.1) := by
  induction l generalizing i with
  | nil => cases h
  | cons c l ih =>
    cases i with
    | zero =>
      cases h
      rfl
    | succ i => exact congrArg (c.1 :: ·) (ih h)

variable [SlaveIOI β]

/-- What a step does that no store and no completion takes part in. -/
theorem quiet_step {op : DmaOp} (h : s.apply op = some s')
    (hstore : ∀ a len data, op ≠ .store a len data) (hfinish : ∀ i, op ≠ .finish i) :
    s'.ctrl.reg = s.ctrl.reg ∧ s'.inFlight.Perm s.inFlight := by
  cases op with
  | load a len =>
    simp only [apply] at h
    split at h
    · cases h
    · cases h
      exact ⟨rfl, .refl _⟩
  | store a len data => exact absurd rfl (hstore a len data)
  | dispatch =>
    simp only [apply] at h
    split at h
    · cases h
    · rename_i event rest hqueue
      split at h
      · cases h
        refine ⟨rfl, ?_⟩
        unfold inFlight
        rw [hqueue]
        simp only [List.map_append, List.map_cons, List.map_nil, List.cons_append,
          ← List.append_assoc]
        exact List.perm_append_singleton _ _
      · cases h
  | transfer i =>
    simp only [apply] at h
    split at h
    · rename_i event hpool
      cases h
      refine ⟨rfl, .of_eq ?_⟩
      unfold inFlight
      dsimp only
      rw [map_set_fst hpool]
    · cases h
  | finish i => exact absurd rfl (hfinish i)

theorem finish_step {i : Nat} (h : s.apply (.finish i) = some s') :
    ∃ event, s.pool[i]? = some (event, true) ∧ s'.ctrl = s.ctrl.clearPending event ∧
      s.inFlight.Perm (key event :: s'.inFlight) := by
  simp only [apply] at h
  split at h
  · rename_i event hpool
    cases h
    refine ⟨event, hpool, rfl, ?_⟩
    have hperm := ((eraseIdx_perm hpool).map (·.1)).map key
    have hqueue : (s.ctrl.clearPending event).eventQueue = s.ctrl.eventQueue := by
      unfold clearPending
      cases event.type <;> rfl
    unfold inFlight
    rw [hqueue]
    simp only [List.map_append]
    exact (hperm.append_left _).trans List.perm_middle
  · cases h

/-- The store of an idle channel to its register. -/
theorem start_iff {dir : EventType} {len : Nat} {data : BitVec (8 * len)}
    (hexact : s.PendingExact) (hd : Distinct s)
    (hidle : s.IdleStart (.store (pendingAddr dir) len data))
    (h : s.apply (.store (pendingAddr dir) len data) = some s') :
    Distinct s' ∧ (s.Careful (.store (pendingAddr dir) len data) ↔ s'.PendingExact) := by
  simp only [apply] at h
  split at h
  · cases h
  rename_i fb c' hstore
  cases h
  obtain ⟨i, hi, hdata, hnot⟩ := hidle dir len data rfl
  obtain ⟨hflight, hpending, hother⟩ := start_effect hi hdata hstore
  have hlow : ∀ k ∈ (dir, i) :: s.inFlight, k.2 < nrChn :=
    List.forall_mem_cons.mpr ⟨hi, hd.low⟩
  have honce : ((dir, i) :: s.inFlight).Nodup := List.nodup_cons.mpr ⟨hnot, hd.once⟩
  refine ⟨⟨hflight.nodup_iff.mpr honce, fun k hk => hlow k (hflight.mem_iff.mp hk)⟩, ?_⟩
  rw [start_exact_iff hexact hd hi hnot hflight hpending hother]
  have hinj : ∀ dir', pendingAddr dir = pendingAddr dir' → dir = dir' := by
    cases dir <;> intro dir' <;> cases dir' <;> first | exact fun _ => rfl | decide
  constructor
  · intro hcareful
    exact hcareful.1 dir rfl
  · intro hnone
    exact ⟨fun dir' heq => hinj dir' heq ▸ hnone, fun hne => absurd rfl (hne dir)⟩

/-- A store to any other address. -/
theorem elsewhere_iff {a : Addr} {len : Nat} {data : BitVec (8 * len)}
    (hexact : s.PendingExact) (hd : Distinct s) (hne : ∀ dir, a ≠ pendingAddr dir)
    (h : s.apply (.store a len data) = some s') :
    Distinct s' ∧ (s.Careful (.store a len data) ↔ s'.PendingExact) := by
  have heffect : s'.ctrl.reg = writeBytes s.ctrl.reg a.toNat len data ∧
      s'.inFlight.Perm s.inFlight := by
    simp only [apply] at h
    split at h
    · cases h
    rename_i fb c' hstore
    cases h
    obtain ⟨hreg, hqueue⟩ := store_elsewhere hstore hne
    exact ⟨hreg, inFlight_append [] c' s.bus s.pool (by rw [hqueue, List.append_nil]) rfl⟩
  obtain ⟨hreg, hflight⟩ := heffect
  have hbytes := pending_eq_iff s.ctrl s'.ctrl
  rw [hreg] at hbytes
  refine ⟨hd.perm hflight, ?_⟩
  constructor
  · intro hcareful
    exact exact_congr hexact (hbytes.mpr (hcareful.2 hne)) hflight
  · intro hexact'
    refine ⟨fun dir heq => absurd heq (hne dir), fun _ => hbytes.mp ?_⟩
    exact pending_eq_of_exact hexact hexact' hflight

theorem finish_iff {i : Nat} (hexact : s.PendingExact) (hd : Distinct s)
    (h : s.apply (.finish i) = some s') :
    Distinct s' ∧ (s.Careful (.finish i) ↔ s.ClearsOwn (.finish i) s' ∧ s'.PendingExact) := by
  obtain ⟨event, hpool, hctrl, hflight⟩ := finish_step h
  have hfinish := finish_exact_iff hexact hd hflight hctrl
  have honce := List.nodup_cons.mp (hflight.nodup_iff.mp hd.once)
  refine ⟨⟨honce.2, fun k hk => hd.low k (hflight.mem_iff.mpr (List.mem_cons_of_mem _ hk))⟩, ?_⟩
  have hcompleting : s.completing (.finish i) = some event := by rw [completing, hpool]; rfl
  constructor
  · intro hcareful
    have htype := hcareful event hpool
    refine ⟨fun event' hsome dir => ?_, hfinish.mpr htype⟩
    obtain rfl : event = event' := Option.some.inj (hcompleting.symm.trans hsome)
    rw [hctrl]
    exact finish_clearsOwn htype dir
  · intro hboth event' hsome
    rw [hpool] at hsome
    cases hsome
    exact hfinish.mp hboth.2

/-- One step from exact bits: they stay exact, and a completion clears its own, if and only if
the step is a careful one. -/
theorem step_iff {op : DmaOp} (hexact : s.PendingExact) (hd : Distinct s) (hidle : s.IdleStart op)
    (h : s.apply op = some s') :
    Distinct s' ∧ (s.Careful op ↔ s.ClearsOwn op s' ∧ s'.PendingExact) := by
  have hquiet : (∀ a len data, op ≠ .store a len data) → (∀ i, op ≠ .finish i) →
      s.Careful op → s.ClearsOwn op s' →
      Distinct s' ∧ (s.Careful op ↔ s.ClearsOwn op s' ∧ s'.PendingExact) := by
    intro hstore hfinish hcareful hclears
    obtain ⟨hreg, hflight⟩ := quiet_step h hstore hfinish
    have hpending := (pending_eq_iff s.ctrl s'.ctrl).mpr fun a _ _ => congrFun hreg a
    exact ⟨hd.perm hflight, fun _ => ⟨hclears, exact_congr hexact hpending hflight⟩,
      fun _ => hcareful⟩
  cases op with
  | load a len => exact hquiet (fun _ _ _ => nofun) (fun _ => nofun) trivial nofun
  | dispatch => exact hquiet (fun _ _ _ => nofun) (fun _ => nofun) trivial nofun
  | transfer i => exact hquiet (fun _ _ _ => nofun) (fun _ => nofun) trivial nofun
  | store a len data =>
    have hclears : s.ClearsOwn (.store a len data) s' := nofun
    have hstore : Distinct s' ∧ (s.Careful (.store a len data) ↔ s'.PendingExact) := by
      by_cases ha : ∃ dir, a = pendingAddr dir
      · obtain ⟨dir, rfl⟩ := ha
        exact start_iff hexact hd hidle h
      · exact elsewhere_iff hexact hd (fun dir heq => ha ⟨dir, heq⟩) h
    exact ⟨hstore.1, hstore.2.trans ⟨fun hexact' => ⟨hclears, hexact'⟩, fun hboth => hboth.2⟩⟩
  | finish i => exact finish_iff hexact hd h

theorem exact_of_tracked {ops : List DmaOp} (h : s.Tracked ops) : s.PendingExact := by
  cases ops with
  | nil => exact h
  | cons op ops => exact h.1

theorem run_iff (ops : List DmaOp) (hexact : s.PendingExact) (hd : Distinct s)
    (hidle : s.IdleStarts ops) : s.Tracked ops ↔ s.CarefulRun ops := by
  induction ops generalizing s with
  | nil => exact ⟨fun _ => trivial, fun _ => hexact⟩
  | cons op ops ih =>
    constructor
    · intro htracked s' hs'
      obtain ⟨hclears, hrest⟩ := htracked.2 s' hs'
      obtain ⟨hd', hiff⟩ := step_iff hexact hd hidle.1 hs'
      have hexact' := exact_of_tracked hrest
      exact ⟨hiff.mpr ⟨hclears, hexact'⟩, (ih hexact' hd' (hidle.2 s' hs')).mp hrest⟩
    · intro hcareful
      refine ⟨hexact, fun s' hs' => ?_⟩
      obtain ⟨hstep, hrest⟩ := hcareful s' hs'
      obtain ⟨hd', hiff⟩ := step_iff hexact hd hidle.1 hs'
      obtain ⟨hclears, hexact'⟩ := hiff.mp hstep
      exact ⟨hclears, (ih hexact' hd' (hidle.2 s' hs')).mpr hrest⟩

end Step

/-- In a run from the constructor on that starts only idle channels, one at a time, the pending
bits are those of the transfers in flight, and each completion clears its own, if and only if
both registers are 0 at first and each step is a careful one. -/
theorem tracked_iff_careful {β : Type} [SlaveIOI β] (s : DmaSystem β) (ops : List DmaOp)
    (hqueue : s.ctrl.eventQueue = []) (hpool : s.pool = []) (hidle : s.IdleStarts ops) :
    s.Tracked ops ↔ (∀ dir, pending s.ctrl dir = 0) ∧ s.CarefulRun ops := by
  have hnone : s.inFlight = [] := by rw [inFlight, hqueue, hpool]; rfl
  have hd : Distinct s := ⟨hnone ▸ List.nodup_nil, fun k hk => by rw [hnone] at hk; cases hk⟩
  have hzero := drained_iff hnone
  constructor
  · intro htracked
    have hexact := exact_of_tracked htracked
    exact ⟨hzero.mp hexact, (run_iff ops hexact hd hidle).mp htracked⟩
  · rintro ⟨hregs, hcareful⟩
    exact (run_iff ops (hzero.mpr hregs) hd hidle).mpr hcareful

/-- A fresh controller, and one write transfer from its start to its end. -/
def freshSystem : DmaSystem (AddrBus Empty) := ⟨⟨fun _ => 0, []⟩, .empty, []⟩

def oneWrite : List DmaOp := [.store 0x18 8 1, .dispatch, .transfer 0, .finish 0]

theorem freshSystem_pending (dir : EventType) : pending freshSystem.ctrl dir = 0 := by
  cases dir <;> decide

theorem oneWrite_idleStarts : freshSystem.IdleStarts oneWrite := by
  refine ⟨?_, fun _ _ => ⟨nofun, fun _ _ => ⟨nofun, fun _ _ => ⟨nofun, fun _ _ => trivial⟩⟩⟩⟩
  intro dir len data heq
  injection heq with haddr hlen hdata
  subst hlen
  cases hdata
  cases dir with
  | asyncRead => exact absurd haddr (by decide)
  | asyncWrite => exact ⟨0, by decide, by decide, by decide⟩

theorem tracked_iff_careful_oneWrite : freshSystem.Tracked oneWrite ↔
    (∀ dir, pending freshSystem.ctrl dir = 0) ∧ freshSystem.CarefulRun oneWrite :=
  tracked_iff_careful freshSystem oneWrite rfl rfl oneWrite_idleStarts

/-- The one write completes, and its bit stays. -/
theorem write_bit_stays : ¬ ∀ (s : DmaSystem (AddrBus Empty)) (ops : List DmaOp),
    s.ctrl.eventQueue = [] → s.pool = [] → (∀ dir, pending s.ctrl dir = 0) → s.IdleStarts ops →
    s.Tracked ops := by
  intro hall
  have htracked := hall freshSystem oneWrite rfl rfl freshSystem_pending oneWrite_idleStarts
  obtain ⟨-, hstart⟩ := htracked.2 _ rfl
  obtain ⟨-, hdispatch⟩ := hstart.2 _ rfl
  obtain ⟨-, htransfer⟩ := hdispatch.2 _ rfl
  obtain ⟨-, hfinish⟩ := htransfer.2 _ rfl
  have hbit := (hfinish .asyncWrite 0 (by decide)).mp (by decide)
  exact absurd hbit (by decide)

end NextEmu.Device.DmaPending
