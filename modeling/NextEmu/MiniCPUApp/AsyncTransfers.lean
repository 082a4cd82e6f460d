import Mathlib.Data.List.Nodup
import NextEmu.Lib.BitField
import NextEmu.MiniCPUApp.Runtime

/-!
# The asynchronous transfers of the runtime

A routine starts a transfer of the side that it sets up, on a channel that it has found idle in
the register that it searches. `async_rd_dword` searches the register of its own side, so that it
never meets a transfer that is pending. `async_wr_dword` searches the write side, which stays
idle, and sets up channel 0 of the read side: it starts a read, or over a pending one nothing.
-/

namespace NextEmu.MiniCPUApp

open NextEmu.Lib.BitField NextEmu.Device DmaPending DmaSystem MiniCPUMemController

/-! ## What a call should do -/

/-- What the descriptor of a transfer holds now. -/
def descOf (c : MiniCPUMemController) (event : MemCtrlEvent) : MemCtrlEvent :=
  c.chnEvent event.type (descs event.type) event.chnID.toNat

/-- Just this transfer has been started, on an idle channel, and the descriptors of those in
flight are as they were. -/
structure Started (c c' : MiniCPUMemController) (event : MemCtrlEvent) : Prop where
  idle : ∀ e ∈ c.eventQueue, key e ≠ key event
  started : c'.eventQueue = c.eventQueue ++ [event]
  kept : ∀ e ∈ c.eventQueue, descOf c' e = descOf c e

/-- A call that returns a channel starts its own transfer. -/
def CallStarts (dir : EventType) (srcAddr dstAddr : BitVec 64) (s : Runtime)
    (r : Int × Runtime) : Prop :=
  0 ≤ r.1 → r.1 < nrChn ∧
    Started s.ctrl r.2.ctrl ⟨dir, BitVec.ofInt 64 r.1, srcAddr, dstAddr⟩

namespace Runtime

def StartsOwn (s : Runtime) : RuntimeOp → Prop
  | .asyncRdDword srcAddr dstAddr =>
    CallStarts .asyncRead srcAddr dstAddr s (s.asyncRdDword srcAddr dstAddr)
  | .asyncWrDword srcAddr dstAddr =>
    CallStarts .asyncWrite srcAddr dstAddr s (s.asyncWrDword srcAddr dstAddr)
  | _ => True

/-- Each call of a run starts its own transfer. -/
def NoneLost (s : Runtime) (ops : List RuntimeOp) : Prop :=
  ∀ earlier op later, ops = earlier ++ op :: later → (s.run earlier).StartsOwn op

end Runtime

/-- Calls of `async_wr_dword`. -/
def RuntimeOp.isWrite : RuntimeOp → Bool
  | .asyncWrDword _ _ => true
  | _ => false

/-! ## The controller -/

/-- The pending bits are those of the transfers in flight, of which a channel has one. -/
structure Exact (c : MiniCPUMemController) : Prop where
  bits : ∀ dir i, i < 64 → ((pending c dir).getLsbD i = true ↔ (dir, i) ∈ c.eventQueue.map key)
  once : (c.eventQueue.map key).Nodup
  low : ∀ e ∈ c.eventQueue, e.chnID.toNat < nrChn

section Controller

variable {c : MiniCPUMemController} {dir dir' : EventType} {chn : Nat}

theorem pendingOff_disjoint (h : dir' ≠ dir) :
    pendingOff dir' + 8 ≤ pendingOff dir ∨ pendingOff dir + 8 ≤ pendingOff dir' := by
  cases dir <;> cases dir' <;> first | exact absurd rfl h | decide

theorem pending_setWord_of_ne (c : MiniCPUMemController) (v : BitVec 64) (h : dir' ≠ dir) :
    pending (c.setWord (pendingOff dir) v) dir' = pending c dir' :=
  word_setWord_of_disjoint c v (pendingOff_disjoint h)

/-- The descriptors lie above both pending registers. -/
theorem pendingOff_lt_descs (dir dir' : EventType) : pendingOff dir + 8 ≤ descs dir' := by
  cases dir <;> cases dir' <;> decide

theorem pending_setDesc (c : MiniCPUMemController) (dir dir' : EventType) (chn : Nat)
    (srcAddr dstAddr : BitVec 64) : pending (setDesc c dir chn srcAddr dstAddr) dir' =
      pending c dir' := by
  have hlow := pendingOff_lt_descs dir' dir
  unfold pending setDesc
  rw [word_setWord_of_disjoint _ _ (.inl (by omega)),
    word_setWord_of_disjoint _ _ (.inl (by omega))]

theorem chnEvent_setDesc (c : MiniCPUMemController) (dir : EventType) (chn : Nat)
    (srcAddr dstAddr : BitVec 64) :
    (setDesc c dir chn srcAddr dstAddr).chnEvent dir (descs dir) chn =
      ⟨dir, BitVec.ofNat 64 chn, srcAddr, dstAddr⟩ := by
  unfold chnEvent setDesc
  rw [word_setWord, word_setWord_of_disjoint _ _ (.inl (by omega)), word_setWord]

/-- The descriptors of other channels stay. -/
theorem chnEvent_setDesc_of_ne (c : MiniCPUMemController) (srcAddr dstAddr : BitVec 64) {i : Nat}
    (hchn : chn < nrChn) (hi : i < nrChn) (h : (dir', i) ≠ (dir, chn)) :
    (setDesc c dir chn srcAddr dstAddr).chnEvent dir' (descs dir') i =
      c.chnEvent dir' (descs dir') i := by
  have hdisj : descs dir' + 16 * i + 16 ≤ descs dir + 16 * chn ∨
      descs dir + 16 * chn + 16 ≤ descs dir' + 16 * i := by
    simp only [nrChn] at hchn hi
    by_cases hdir : dir' = dir
    · have hne : i ≠ chn := fun heq => h (by rw [hdir, heq])
      subst hdir
      omega
    · cases dir <;> cases dir' <;> simp only [descs, InnerState.rdChnDescs, InnerState.wrChnDescs,
        not_true] at hdir ⊢ <;> omega
  unfold chnEvent setDesc
  congr 1
  · rw [word_setWord_of_disjoint _ _ (by omega), word_setWord_of_disjoint _ _ (by omega)]
  · rw [word_setWord_of_disjoint _ _ (by omega), word_setWord_of_disjoint _ _ (by omega)]

/-- The descriptors are not of the pending registers. -/
theorem chnEvent_setPending (c : MiniCPUMemController) (dir dir' : EventType) (v : BitVec 64)
    (i : Nat) : (setPending c dir v).chnEvent dir' (descs dir') i =
      c.chnEvent dir' (descs dir') i :=
  chnEvent_setWord c (pending c dir ||| v) (pendingOff_lt_descs dir dir') dir' i

theorem getLsbD_one_shiftLeft {i : Nat} (hi : i < 64) :
    (1#64 <<< chn).getLsbD i = decide (i = chn) := by
  rw [← BitVec.twoPow_eq, BitVec.getLsbD_twoPow]
  by_cases h : i = chn
  · simp [← h, hi]
  · simp [h, Ne.symm h]

/-- The store back of a register with one more bit starts that channel if it was idle. -/
theorem toStart_single (bits : BitVec 64) (hchn : chn < nrChn) :
    (List.range nrChn).filter (((bits ||| 1#64 <<< chn) &&& ~~~ bits).getLsbD ·) =
      if bits.getLsbD chn then [] else [chn] := by
  have hbit : ∀ i ∈ List.range nrChn, ((bits ||| 1#64 <<< chn) &&& ~~~ bits).getLsbD i =
      (i == chn && !bits.getLsbD chn) := by
    intro i hi
    have hlow : i < 64 := Nat.lt_trans (List.mem_range.mp hi) (by decide)
    rw [BitVec.getLsbD_and, BitVec.getLsbD_or, BitVec.getLsbD_not, getLsbD_one_shiftLeft hlow]
    by_cases h : i = chn
    · subst h
      cases bits.getLsbD i <;> simp [hlow]
    · cases bits.getLsbD i <;> simp [h]
  rw [List.filter_congr hbit]
  cases bits.getLsbD chn with
  | true => simp
  | false =>
    simp only [Bool.not_false, Bool.and_true, Bool.false_eq_true, if_false]
    rw [List.filter_beq]
    simp [List.nodup_range.count, hchn]

theorem pending_setUp (c : MiniCPUMemController) (dir dir' : EventType) (chn : Nat)
    (srcAddr dstAddr : BitVec 64) : pending (setUp c dir chn srcAddr dstAddr) dir' =
      if dir' = dir then pending c dir ||| 1#64 <<< chn else pending c dir' := by
  unfold setUp
  by_cases h : dir' = dir
  · rw [if_pos h, h, pending_setPending, pending_setDesc, ← BitVec.or_assoc, BitVec.or_self]
  · rw [if_neg h]
    exact (pending_setWord_of_ne _ _ h).trans (pending_setDesc c dir dir' chn srcAddr dstAddr)

theorem eventQueue_setUp (c : MiniCPUMemController) (dir : EventType) (srcAddr dstAddr : BitVec 64)
    (hchn : chn < nrChn) : (setUp c dir chn srcAddr dstAddr).eventQueue =
      if (pending c dir).getLsbD chn then c.eventQueue
      else c.eventQueue ++ [⟨dir, BitVec.ofNat 64 chn, srcAddr, dstAddr⟩] := by
  unfold setUp setPending
  dsimp only
  rw [toStart_single _ hchn, pending_setDesc]
  cases (pending c dir).getLsbD chn with
  | true => exact List.append_nil _
  | false => exact congrArg (c.eventQueue ++ [·]) (chnEvent_setDesc c dir chn srcAddr dstAddr)

/-- The channel of a new event. -/
theorem key_ofNat (dir : EventType) (srcAddr dstAddr : BitVec 64) (hchn : chn < nrChn) :
    key ⟨dir, BitVec.ofNat 64 chn, srcAddr, dstAddr⟩ = (dir, chn) := by
  have hlt : chn < 2 ^ 64 := Nat.lt_trans hchn (by decide)
  rw [key, BitVec.toNat_ofNat, Nat.mod_eq_of_lt hlt]

theorem setUp_exact (h : Exact c) (dir : EventType) (srcAddr dstAddr : BitVec 64)
    (hchn : chn < nrChn) : Exact (setUp c dir chn srcAddr dstAddr) := by
  have hkey := key_ofNat dir srcAddr dstAddr hchn
  have hlow : chn < 64 := Nat.lt_trans hchn (by decide)
  have hbit := h.bits dir chn hlow
  have hqueue := eventQueue_setUp c dir srcAddr dstAddr hchn
  refine ⟨fun dir' i hi => ?_, ?_, ?_⟩
  · rw [pending_setUp, hqueue]
    by_cases hdir : dir' = dir
    · subst hdir
      rw [if_pos rfl, BitVec.getLsbD_or, getLsbD_one_shiftLeft hi]
      cases hp : (pending c dir').getLsbD chn with
      | true => grind [h.bits dir' i hi]
      | false =>
        rw [if_neg Bool.false_ne_true, List.map_append, List.mem_append, ← h.bits dir' i hi,
          List.map_singleton, List.mem_singleton, hkey]
        simp
    · rw [if_neg hdir, h.bits dir' i hi]
      split
      · exact Iff.rfl
      · simp [hkey, hdir]
  · rw [hqueue]
    cases hp : (pending c dir).getLsbD chn with
    | true => exact h.once
    | false =>
      have hnew : (dir, chn) ∉ c.eventQueue.map key := fun hin => by
        rw [hbit.mpr hin] at hp
        cases hp
      rw [if_neg Bool.false_ne_true, List.map_append, List.map_singleton, hkey]
      exact List.nodup_append.mpr ⟨h.once, List.nodup_singleton _, by grind⟩
  · rw [hqueue]
    intro e he
    split at he
    · exact h.low e he
    · rcases List.mem_append.mp he with hold | hnew
      · exact h.low e hold
      · rw [List.mem_singleton.mp hnew]
        exact Nat.lt_of_le_of_lt (Nat.le_of_eq (congrArg Prod.snd hkey)) hchn

/-- On an idle channel it starts the one transfer and touches no other. -/
theorem setUp_started (h : Exact c) (srcAddr dstAddr : BitVec 64) (hchn : chn < nrChn)
    (hidle : (pending c dir).getLsbD chn = false) :
    Started c (setUp c dir chn srcAddr dstAddr) ⟨dir, BitVec.ofNat 64 chn, srcAddr, dstAddr⟩ := by
  have hlow : chn < 64 := Nat.lt_trans hchn (by decide)
  have hfree : ∀ e ∈ c.eventQueue, key e ≠ (dir, chn) := by
    intro e he heq
    have hset := (h.bits dir chn hlow).mpr (List.mem_map.mpr ⟨e, he, heq⟩)
    rw [hidle] at hset
    cases hset
  refine ⟨fun e he => ?_, ?_, fun e he => ?_⟩
  · rw [key_ofNat dir srcAddr dstAddr hchn]
    exact hfree e he
  · rw [eventQueue_setUp c dir srcAddr dstAddr hchn, hidle, if_neg Bool.false_ne_true]
  · exact (chnEvent_setPending _ dir e.type _ _).trans
      (chnEvent_setDesc_of_ne c srcAddr dstAddr hchn (h.low e he) (hfree e he))

theorem complete_exact (h : Exact c) (i : Nat) : Exact (complete c i) := by
  unfold complete
  cases hi : c.eventQueue[i]? with
  | none => exact h
  | some event =>
    have hperm := (eraseIdx_perm hi).map key
    have hnodup := List.nodup_cons.mp (hperm.nodup_iff.mp h.once)
    refine ⟨fun dir j hj => ?_, hnodup.2, fun e he => h.low e (List.mem_of_mem_eraseIdx he)⟩
    have hold := h.bits dir j hj
    rw [hperm.mem_iff, List.map_cons, List.mem_cons] at hold
    change (pending (c.setWord (pendingOff event.type) _) dir).getLsbD j = true ↔ _
    by_cases hdir : dir = event.type
    · subst hdir
      rw [pending, word_setWord, getLsbD_clearMask _ _ hj, Bool.and_eq_true, hold]
      by_cases hchn : j = event.chnID.toNat
      · have hkey : (event.type, j) = key event := congrArg (Prod.mk event.type) hchn
        rw [hkey]
        simp only [hchn, decide_true, Bool.not_true, Bool.false_eq_true, and_false, false_iff]
        exact hnodup.1
      · have hkey : (event.type, j) ≠ key event := fun heq => hchn (congrArg Prod.snd heq)
        simp [hchn, hkey]
    · rw [pending_setWord_of_ne _ _ hdir, hold]
      exact or_iff_right fun heq => hdir (congrArg Prod.fst heq)

end Controller

/-! ## The routines -/

section Routines

variable {s : Runtime} {tested programmed : EventType} {srcAddr dstAddr : BitVec 64}

theorem freeChn_some {bits : BitVec 64} {chn : Nat} (h : Runtime.freeChn bits = some chn) :
    chn < nrChn ∧ bits.getLsbD chn = false := by
  have hlt : chn < nrChn := List.mem_range.mp (List.mem_of_find?_eq_some h)
  have hlow : chn < 64 := Nat.lt_trans hlt (by decide)
  have hfound := List.find?_some h
  have hzero : 1#64 <<< chn &&& bits = 0 := of_decide_eq_true hfound
  refine ⟨hlt, ?_⟩
  rw [← and_twoPow_ne_zero bits hlow, BitVec.and_comm, hzero]
  rfl

/-- What a call that returns a channel has done to the controller. -/
theorem asyncDword_cases (tested programmed : EventType) (s : Runtime)
    (srcAddr dstAddr : BitVec 64) :
    s.asyncDword tested programmed srcAddr dstAddr = (-1, s) ∨
    ∃ chn, chn < nrChn ∧ (pending s.ctrl tested).getLsbD chn = false ∧
      (s.asyncDword tested programmed srcAddr dstAddr).1 = chn ∧
      (s.asyncDword tested programmed srcAddr dstAddr).2.ctrl =
        setUp s.ctrl programmed chn srcAddr dstAddr := by
  unfold Runtime.asyncDword
  cases h : Runtime.freeChn (pending s.ctrl tested) with
  | none => exact .inl rfl
  | some chn =>
    obtain ⟨hlt, hfree⟩ := freeChn_some h
    exact .inr ⟨chn, hlt, hfree, rfl, rfl⟩

theorem asyncDword_exact (h : Exact s.ctrl) (tested programmed : EventType)
    (srcAddr dstAddr : BitVec 64) :
    Exact (s.asyncDword tested programmed srcAddr dstAddr).2.ctrl := by
  rcases asyncDword_cases tested programmed s srcAddr dstAddr with heq | ⟨chn, hlt, -, -, hctrl⟩
  · rw [heq]
    exact h
  · rw [hctrl]
    exact setUp_exact h programmed srcAddr dstAddr hlt

/-- A routine that searches the register of the side that it sets up starts its own transfer. -/
theorem asyncDword_callStarts (h : Exact s.ctrl) (dir : EventType) (srcAddr dstAddr : BitVec 64) :
    CallStarts dir srcAddr dstAddr s (s.asyncDword dir dir srcAddr dstAddr) := by
  intro hchn
  rcases asyncDword_cases dir dir s srcAddr dstAddr with heq | ⟨chn, hlt, hfree, hret, hctrl⟩
  · rw [heq] at hchn
    exact absurd hchn (show ¬ (0 : Int) ≤ -1 by decide)
  · rw [hret, hctrl, BitVec.ofInt_natCast]
    exact ⟨Int.ofNat_lt.mpr hlt, setUp_started h srcAddr dstAddr hlt hfree⟩

end Routines

/-! ## Runs -/

/-- What holds in each state of a run. -/
structure Running (s : Runtime) : Prop where
  exact : Exact s.ctrl
  reads : ∀ e ∈ s.ctrl.eventQueue, e.type = .asyncRead

section Runs

variable {s : Runtime}

theorem start_running (reg : Nat → BitVec 8) : Running (Runtime.start reg) where
  exact :=
    { bits := fun dir i _ => by
        have hzero : pending (Runtime.start reg).ctrl dir = 0 := by
          cases dir with
          | asyncRead =>
            exact (pending_setWord_of_ne _ _ (by decide)).trans (word_setWord _ _ _)
          | asyncWrite => exact word_setWord _ _ _
        rw [hzero]
        simp [Runtime.start, setWord]
      once := List.nodup_nil
      low := fun _ he => nomatch he }
  reads := fun _ he => nomatch he

/-- Both routines set up the read side. -/
theorem asyncDword_running (h : Running s) (tested : EventType) (srcAddr dstAddr : BitVec 64) :
    Running (s.asyncDword tested .asyncRead srcAddr dstAddr).2 := by
  refine ⟨asyncDword_exact h.exact tested .asyncRead srcAddr dstAddr, ?_⟩
  rcases asyncDword_cases tested .asyncRead s srcAddr dstAddr with heq | ⟨chn, hlt, -, -, hctrl⟩
  · rw [heq]
    exact h.reads
  · rw [hctrl, eventQueue_setUp _ _ srcAddr dstAddr hlt]
    intro e he
    split at he
    · exact h.reads e he
    · rcases List.mem_append.mp he with hold | hnew
      · exact h.reads e hold
      · rw [List.mem_singleton.mp hnew]

theorem complete_reads (h : Running s) (i : Nat) :
    ∀ e ∈ (complete s.ctrl i).eventQueue, e.type = .asyncRead := by
  intro e he
  unfold complete at he
  cases hi : s.ctrl.eventQueue[i]? with
  | none =>
    rw [hi] at he
    exact h.reads e he
  | some event =>
    rw [hi] at he
    exact h.reads e (List.mem_of_mem_eraseIdx he)

theorem schedule_ctrl (s : Runtime) : s.schedule.ctrl = s.ctrl := by
  unfold Runtime.schedule
  cases s.mayRun s.chkCtx <;> rfl

theorem apply_running (h : Running s) (op : RuntimeOp) : Running (s.apply op) := by
  cases op with
  | asyncRdDword srcAddr dstAddr => exact asyncDword_running h .asyncRead srcAddr dstAddr
  | asyncWrDword srcAddr dstAddr => exact asyncDword_running h .asyncWrite srcAddr dstAddr
  | complete i => exact ⟨complete_exact h.exact i, complete_reads h i⟩
  | yield => exact ⟨h.exact, h.reads⟩
  | schedule =>
    unfold Runtime.apply
    by_cases hctx : s.currCtxID = schedulerCtxID
    · rw [if_pos hctx]
      exact ⟨by rw [schedule_ctrl]; exact h.exact, by rw [schedule_ctrl]; exact h.reads⟩
    · rw [if_neg hctx]
      exact h

theorem run_running (h : Running s) (ops : List RuntimeOp) : Running (s.run ops) := by
  induction ops generalizing s with
  | nil => exact h
  | cons op ops ih => exact ih (apply_running h op)

/-- The write side stays idle. -/
theorem write_idle (h : Running s) : pending s.ctrl .asyncWrite = 0 := by
  refine BitVec.eq_of_getLsbD_eq fun i hi => ?_
  rw [Bool.eq_iff_iff, h.exact.bits .asyncWrite i hi]
  refine ⟨fun hin => ?_, fun hset => absurd hset (by simp)⟩
  obtain ⟨e, he, hkey⟩ := List.mem_map.mp hin
  have htype : e.type = .asyncWrite := congrArg Prod.fst hkey
  rw [h.reads e he] at htype
  cases htype

/-- A call of `async_wr_dword` returns channel 0 and sets up that of the read side. -/
theorem asyncWrDword_run (h : Running s) (srcAddr dstAddr : BitVec 64) :
    (s.asyncWrDword srcAddr dstAddr).1 = 0 ∧
    (s.asyncWrDword srcAddr dstAddr).2.ctrl = setUp s.ctrl .asyncRead 0 srcAddr dstAddr := by
  have hfree : Runtime.freeChn 0 = some 0 := by decide
  unfold Runtime.asyncWrDword Runtime.asyncDword
  rw [write_idle h, hfree]
  exact ⟨rfl, rfl⟩

/-- It does not start a write. -/
theorem asyncWrDword_lost (h : Running s) (srcAddr dstAddr : BitVec 64) :
    ¬ s.StartsOwn (.asyncWrDword srcAddr dstAddr) := by
  intro hstarts
  have hret := (asyncWrDword_run h srcAddr dstAddr).1
  obtain ⟨-, hstarted⟩ := hstarts (Int.le_of_eq hret.symm)
  have hreads := (asyncDword_running h .asyncWrite srcAddr dstAddr).reads
  have hmem :=
    hstarted.started ▸ List.mem_append_right s.ctrl.eventQueue (List.mem_singleton_self _)
  cases hreads _ hmem

/-- Over a pending read of channel 0 it starts nothing and the descriptor of that read is lost. -/
theorem asyncWrDword_overwrites (h : Running s) (srcAddr dstAddr : BitVec 64)
    (hpending : (pending s.ctrl .asyncRead).getLsbD 0 = true) :
    (s.asyncWrDword srcAddr dstAddr).2.ctrl.eventQueue = s.ctrl.eventQueue ∧
    (s.asyncWrDword srcAddr dstAddr).2.ctrl.chnEvent .asyncRead (descs .asyncRead) 0 =
      ⟨.asyncRead, 0, srcAddr, dstAddr⟩ := by
  have hctrl := (asyncWrDword_run h srcAddr dstAddr).2
  rw [hctrl]
  refine ⟨?_, ?_⟩
  · rw [eventQueue_setUp _ _ srcAddr dstAddr (by decide), if_pos hpending]
  · exact (chnEvent_setPending _ _ _ _ _).trans (chnEvent_setDesc _ _ _ _ _)

end Runs

/-- No transfer of a run is lost exactly when `async_wr_dword` is not called. -/
theorem noneLost_iff (reg : Nat → BitVec 8) (ops : List RuntimeOp) :
    (Runtime.start reg).NoneLost ops ↔ ∀ op ∈ ops, op.isWrite = false := by
  have hrun : ∀ earlier, Running ((Runtime.start reg).run earlier) :=
    run_running (start_running reg)
  constructor
  · intro h op hop
    obtain ⟨earlier, later, hops⟩ := List.append_of_mem hop
    have hstarts := h earlier op later hops
    cases op with
    | asyncWrDword srcAddr dstAddr => exact absurd hstarts (asyncWrDword_lost (hrun earlier) _ _)
    | asyncRdDword | complete | yield | schedule => rfl
  · intro h earlier op later hops
    have hop := h op (hops ▸ List.mem_append_right _ (List.mem_cons_self ..))
    cases op with
    | asyncRdDword srcAddr dstAddr =>
      exact asyncDword_callStarts (hrun earlier).exact .asyncRead srcAddr dstAddr
    | asyncWrDword => cases hop
    | complete | yield | schedule => trivial

/-- The first call of a run is one of `async_wr_dword`. -/
theorem first_write_lost : ¬ ∀ (reg : Nat → BitVec 8) (ops : List RuntimeOp),
    (Runtime.start reg).NoneLost ops := by
  intro hall
  have hstarts := hall (fun _ => 0) [.asyncWrDword 0x10000 0x80000000] [] _ [] rfl
  exact asyncWrDword_lost (start_running _) _ _ hstarts

end NextEmu.MiniCPUApp
