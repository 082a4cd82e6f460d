import Mathlib.Data.List.Perm.Basic
import NextEmu.Device.DmaPending

/-!
# What a transfer moves

A store to a pending register copies the descriptors of the channels it starts into
events, so that later writes of the descriptors do not reach a transfer. The handler of
an event loads eight bytes and stores them without a look at what the bus answered to
the load: a transfer from a source that cannot be read stores the buffer all the same.
-/

namespace NextEmu.Device.DmaTransfers

open NextEmu.Sdk MiniCPUMemController DmaPending

/-- What descriptor `chn` of a direction holds. -/
structure Programmed where
  dir : EventType
  chn : Nat
  src : Addr
  dst : Addr
  deriving DecidableEq, Repr

def programmedIn (c : MiniCPUMemController) (dir : EventType) (chn : Nat) : Programmed where
  dir := dir
  chn := chn
  src := c.word (descs dir + 16 * chn)
  dst := c.word (descs dir + 16 * chn + 8)

/-- The event that carries it. -/
def Programmed.event (p : Programmed) : MemCtrlEvent where
  type := p.dir
  chnID := BitVec.ofNat 64 p.chn
  srcAddr := p.src
  dstAddr := p.dst

/-- A bus access of a handler: a load with the answer of the bus, or a store of eight bytes. -/
inductive BusAccess
  | load (addr : Addr) (feedback : Feedback) (data : BitVec 64)
  | store (addr : Addr) (data : BitVec 64)
  deriving DecidableEq, Repr

/-- What the handlers do between the bus accesses: `data` is the local variable. -/
inductive Stage
  | started
  | loaded (data : BitVec 64)
  | stored
  deriving DecidableEq, Repr

/-- A handler at work on the event that was enqueued as number `id`. -/
structure Handling where
  id : Nat
  event : MemCtrlEvent
  stage : Stage
  accesses : List BusAccess
  deriving DecidableEq, Repr

/-- The controller, its bus and its handlers, with what was programmed for each event so far. -/
structure DmaRun (β : Type) where
  ctrl : MiniCPUMemController
  bus : β
  programmed : List Programmed
  dispatched : Nat
  working : List Handling
  done : List Handling

/-- One step of one of the threads; other masters change the bus. -/
inductive TransferOp (β : Type)
  | load (beginAddr : Addr) (len : Nat)
  | store (beginAddr : Addr) (len : Nat) (data : BitVec (8 * len))
  | environment (bus : β)
  | dispatch
  | busLoad (i : Nat)
  | busStore (i : Nat)
  | finish (i : Nat)

section Handlers

variable {β : Type} [SlaveIOI β]

/-- `bus->load(event->srcAddr, 8, &data)`, of which no handler looks at the result. -/
def handlerLoad (bus : β) (event : MemCtrlEvent) : (Feedback × BitVec 64) × β :=
  SlaveIOI.load bus event.srcAddr 8

/-- `bus->store(event->dstAddr, 8, &data)`. -/
def handlerStore (bus : β) (event : MemCtrlEvent) (data : BitVec 64) : β :=
  (SlaveIOI.store bus event.dstAddr 8 data).2

end Handlers

namespace DmaRun

variable {β : Type}

/-- The controller as constructed, with an arbitrary register structure. -/
def start (reg : Nat → BitVec 8) (bus : β) : DmaRun β where
  ctrl := { reg := reg, eventQueue := [] }
  bus := bus
  programmed := []
  dispatched := 0
  working := []
  done := []

variable [SlaveIOI β]

/-- The state after a step, if it can be taken and does not break off. -/
def apply (s : DmaRun β) : TransferOp β → Option (DmaRun β)
  | .load beginAddr len =>
    match s.ctrl.load beginAddr len with
    | .error _ => none
    | .ok _ => some s
  | .store beginAddr len data =>
    match s.ctrl.store beginAddr len data with
    | .error _ => none
    | .ok (_, ctrl) =>
      -- what the descriptors hold at the store, for each event that it enqueues
      some { s with
        ctrl := ctrl
        programmed := s.programmed ++ (ctrl.eventQueue.drop s.ctrl.eventQueue.length).map
          fun event => programmedIn s.ctrl event.type event.chnID.toNat }
  | .environment bus => some { s with bus := bus }
  | .dispatch =>
    match s.ctrl.eventQueue with
    | [] => none
    | event :: rest =>
      if s.working.length < nrChn then
        some { s with
          ctrl := { s.ctrl with eventQueue := rest }
          dispatched := s.dispatched + 1
          working := s.working ++ [⟨s.dispatched, event, .started, []⟩] }
      else none
  | .busLoad i =>
    match s.working[i]? with
    | some ⟨id, event, .started, accesses⟩ =>
      let r := handlerLoad s.bus event
      some { s with
        bus := r.2
        working := s.working.set i
          ⟨id, event, .loaded r.1.2, accesses ++ [.load event.srcAddr r.1.1 r.1.2]⟩ }
    | _ => none
  | .busStore i =>
    match s.working[i]? with
    | some ⟨id, event, .loaded data, accesses⟩ =>
      some { s with
        bus := handlerStore s.bus event data
        working := s.working.set i
          ⟨id, event, .stored, accesses ++ [.store event.dstAddr data]⟩ }
    | _ => none
  | .finish i =>
    match s.working[i]? with
    | some ⟨id, event, .stored, accesses⟩ =>
      some { s with
        ctrl := s.ctrl.clearPending event
        working := s.working.eraseIdx i
        done := s.done ++ [⟨id, event, .stored, accesses⟩] }
    | _ => none

def run (s : DmaRun β) : List (TransferOp β) → Option (DmaRun β)
  | [] => some s
  | op :: ops => (s.apply op).bind (·.run ops)

end DmaRun

/-- The accesses that a descriptor asks for: a load of its source and, if that succeeded, one store
of the loaded bytes to its destination. -/
def AsProgrammed (p : Programmed) (accesses : List BusAccess) : Prop :=
  ∃ feedback data, accesses = .load p.src feedback data ::
    if feedback = .success then [.store p.dst data] else []

/-- The load of the source has succeeded. -/
def SourceLoaded (p : Programmed) (accesses : List BusAccess) : Prop :=
  ∃ data, BusAccess.load p.src .success data ∈ accesses

/-! ## What a handler has done -/

/-- The accesses of a handler are those of its stage. -/
def Handling.Accessed (h : Handling) : Prop :=
  match h.stage with
  | .started => h.accesses = []
  | .loaded data => ∃ feedback, h.accesses = [.load h.event.srcAddr feedback data]
  | .stored => ∃ feedback data,
    h.accesses = [.load h.event.srcAddr feedback data, .store h.event.dstAddr data]

/-- A handler that is done has done what was programmed exactly when its load succeeded. -/
theorem asProgrammed_iff {h : Handling} {p : Programmed} (hstage : h.stage = .stored)
    (haccessed : h.Accessed) (hevent : h.event = p.event) :
    AsProgrammed p h.accesses ↔ SourceLoaded p h.accesses := by
  unfold Handling.Accessed at haccessed
  rw [hstage] at haccessed
  obtain ⟨feedback, data, hacc⟩ := haccessed
  rw [hacc, hevent]
  constructor
  · rintro ⟨feedback', data', heq⟩
    by_cases hfb : feedback' = .success
    · have hload := List.head_eq_of_cons_eq heq
      rw [hfb] at hload
      exact ⟨data', hload ▸ List.mem_cons_self⟩
    · rw [if_neg hfb] at heq
      cases heq
  · rintro ⟨data', hmem⟩
    cases hmem with
    | head => exact ⟨.success, data, rfl⟩
    | tail _ hmem =>
      cases hmem with
      | tail _ hmem => cases hmem

/-! ## What a store enqueues -/

section Store

variable {c c' : MiniCPUMemController} {beginAddr : Addr} {len : Nat}
  {data : BitVec (8 * len)} {fb : Feedback}

/-- An event carries what its descriptor held when a store enqueued it. -/
theorem store_captures (h : c.store beginAddr len data = .ok (fb, c')) :
    ∃ events, c'.eventQueue = c.eventQueue ++ events ∧
      events = events.map fun e => (programmedIn c e.type e.chnID.toNat).event := by
  by_cases hdir : ∃ dir, beginAddr = pendingAddr dir
  · obtain ⟨dir, rfl⟩ := hdir
    obtain rfl := store_len h
    obtain ⟨c'', hstore, -, -, hqueue⟩ := store_pending c dir data
    rw [h] at hstore
    cases hstore
    refine ⟨_, hqueue, ?_⟩
    rw [List.map_map]
    refine List.map_congr_left fun i hi => ?_
    have hlt : i < 2 ^ 64 := Nat.lt_trans (started_lt hi).1 (by decide)
    have hchn : (BitVec.ofNat 64 i).toNat = i := by
      rw [BitVec.toNat_ofNat, Nat.mod_eq_of_lt hlt]
    simp only [Function.comp, chnEvent, programmedIn, Programmed.event, hchn]
  · have helse := store_elsewhere h fun dir heq => hdir ⟨dir, heq⟩
    exact ⟨[], by rw [helse.2, List.append_nil], rfl⟩

end Store

/-! ## Runs -/

/-- Every event carries what was programmed for it, no two handlers have worked on one, and each
handler has made the accesses of its stage. -/
structure Captured {β : Type} (s : DmaRun β) : Prop where
  le : s.dispatched ≤ s.programmed.length
  queue : s.ctrl.eventQueue = (s.programmed.drop s.dispatched).map Programmed.event
  taken : ∀ h ∈ s.working ++ s.done, h.id < s.dispatched ∧
    ∃ p, s.programmed[h.id]? = some p ∧ h.event = p.event
  once : ((s.working ++ s.done).map Handling.id).Nodup
  accessed : ∀ h ∈ s.working ++ s.done, h.Accessed
  completed : ∀ h ∈ s.done, h.stage = .stored

section Runs

variable {β : Type} {s s' : DmaRun β}

theorem start_captured (reg : Nat → BitVec 8) (bus : β) : Captured (DmaRun.start reg bus) where
  le := Nat.le_refl 0
  queue := rfl
  taken := nofun
  once := List.nodup_nil
  accessed := nofun
  completed := nofun

/-- What follows from a handler that takes a step and stays at work. -/
theorem Captured.progress (hs : Captured s) {i : Nat} {h h' : Handling}
    (hi : s.working[i]? = some h) (hid : h'.id = h.id) (hevent : h'.event = h.event)
    (haccessed : h'.Accessed) (bus : β) :
    Captured { s with bus := bus, working := s.working.set i h' } := by
  have hmem : h ∈ s.working ++ s.done :=
    List.mem_append_left _ (List.mem_of_getElem? hi)
  have hsplit : ∀ g ∈ s.working.set i h' ++ s.done, g = h' ∨ g ∈ s.working ++ s.done := by
    intro g hg
    rcases List.mem_append.mp hg with hg | hg
    · rcases List.mem_or_eq_of_mem_set hg with hg | rfl
      · exact .inr (List.mem_append_left _ hg)
      · exact .inl rfl
    · exact .inr (List.mem_append_right _ hg)
  have hids : (s.working.set i h').map Handling.id = s.working.map Handling.id := by
    refine List.ext_getElem? fun j => ?_
    rw [List.map_set, List.getElem?_set]
    split
    · rename_i hij
      subst hij
      have hlt : i < s.working.length := (List.getElem?_eq_some_iff.mp hi).1
      rw [if_pos (by rwa [List.length_map]), List.getElem?_map, hi, hid]
      rfl
    · rfl
  refine { hs with taken := fun g hg => ?_, once := ?_, accessed := fun g hg => ?_ }
  · rcases hsplit g hg with rfl | hg
    · obtain ⟨hlt, p, hp, hev⟩ := hs.taken h hmem
      rw [hid]
      exact ⟨hlt, p, hp, hevent.trans hev⟩
    · exact hs.taken g hg
  · have honce := hs.once
    rw [List.map_append] at honce ⊢
    rw [hids]
    exact honce
  · rcases hsplit g hg with rfl | hg
    · exact haccessed
    · exact hs.accessed g hg

/-- What follows from a store that enqueues events of what it found programmed. -/
theorem Captured.enqueue (hs : Captured s) {ctrl : MiniCPUMemController} {new : List Programmed}
    (hqueue : ctrl.eventQueue = s.ctrl.eventQueue ++ new.map Programmed.event) :
    Captured { s with ctrl := ctrl, programmed := s.programmed ++ new } := by
  refine { hs with le := ?_, queue := ?_, taken := fun g hg => ?_ }
  · exact Nat.le_trans hs.le (by rw [List.length_append]; exact Nat.le_add_right _ _)
  · rw [hqueue, hs.queue, List.drop_append_of_le_length hs.le, List.map_append]
  · obtain ⟨hlt, p, hp, hev⟩ := hs.taken g hg
    exact ⟨hlt, p, by rw [List.getElem?_append_left (Nat.lt_of_lt_of_le hlt hs.le), hp], hev⟩

/-- What follows from a new handler on the event in front. -/
theorem Captured.dispatch (hs : Captured s) {event : MemCtrlEvent} {rest : List MemCtrlEvent}
    (hq : s.ctrl.eventQueue = event :: rest) :
    Captured { s with
      ctrl := { s.ctrl with eventQueue := rest }
      dispatched := s.dispatched + 1
      working := s.working ++ [⟨s.dispatched, event, .started, []⟩] } := by
  have hqueue := hs.queue
  rw [hq] at hqueue
  obtain ⟨p, ps, hdrop, hpe, hrest⟩ := List.map_eq_cons_iff.mp hqueue.symm
  have hp : s.programmed[s.dispatched]? = some p := by
    rw [← List.head?_drop, hdrop]
    rfl
  have hlt : s.dispatched < s.programmed.length := (List.getElem?_eq_some_iff.mp hp).1
  have hperm : ∀ g : Handling, (s.working ++ [g] ++ s.done).Perm
      (g :: (s.working ++ s.done)) := by
    intro g
    rw [List.append_assoc]
    exact List.perm_middle
  refine ⟨hlt, ?_, fun g hg => ?_, ?_, fun g hg => ?_, hs.completed⟩
  · rw [← hrest, ← List.tail_drop, hdrop]
    rfl
  · rcases List.mem_cons.mp ((hperm _).mem_iff.mp hg) with rfl | hg
    · exact ⟨Nat.lt_succ_self _, p, hp, hpe.symm⟩
    · exact ⟨Nat.lt_succ_of_lt (hs.taken g hg).1, (hs.taken g hg).2⟩
  · refine ((hperm _).map Handling.id).nodup_iff.mpr ?_
    refine List.nodup_cons.mpr ⟨fun hid => ?_, hs.once⟩
    obtain ⟨g, hg, hgid⟩ := List.mem_map.mp hid
    have hless := (hs.taken g hg).1
    rw [hgid] at hless
    exact Nat.lt_irrefl _ hless
  · rcases List.mem_cons.mp ((hperm _).mem_iff.mp hg) with rfl | hg
    · rfl
    · exact hs.accessed g hg

/-- What follows from a handler that has stored and ends. -/
theorem Captured.finish (hs : Captured s) {i : Nat} {h : Handling} (hi : s.working[i]? = some h)
    (hstage : h.stage = .stored) :
    Captured { s with
      ctrl := s.ctrl.clearPending h.event
      working := s.working.eraseIdx i
      done := s.done ++ [h] } := by
  have hperm : (s.working.eraseIdx i ++ (s.done ++ [h])).Perm (s.working ++ s.done) := by
    obtain ⟨hlt, hget⟩ := List.getElem?_eq_some_iff.mp hi
    have herase := List.getElem_cons_eraseIdx_perm hlt
    rw [hget] at herase
    refine .trans ?_ (herase.append_right s.done)
    rw [← List.append_assoc]
    exact List.perm_append_singleton _ _
  have hqueue : (s.ctrl.clearPending h.event).eventQueue = s.ctrl.eventQueue := by
    unfold clearPending
    cases h.event.type <;> rfl
  refine ⟨hs.le, hqueue.trans hs.queue, fun g hg => hs.taken g (hperm.mem_iff.mp hg), ?_,
    fun g hg => hs.accessed g (hperm.mem_iff.mp hg), fun g hg => ?_⟩
  · exact (hperm.map Handling.id).nodup_iff.mpr hs.once
  · rcases List.mem_append.mp hg with hg | hg
    · exact hs.completed g hg
    · rw [List.mem_singleton.mp hg]
      exact hstage

variable [SlaveIOI β]

theorem step_captured (hs : Captured s) {op : TransferOp β} (h : s.apply op = some s') :
    Captured s' := by
  cases op with
  | load beginAddr len =>
    simp only [DmaRun.apply] at h
    split at h
    · cases h
    · cases h
      exact hs
  | store beginAddr len data =>
    simp only [DmaRun.apply] at h
    split at h
    · cases h
    rename_i fb c' hstore
    cases h
    obtain ⟨events, hqueue, hevents⟩ := store_captures hstore
    have hnew : c'.eventQueue.drop s.ctrl.eventQueue.length = events := by
      rw [hqueue, List.drop_left]
    refine hs.enqueue ?_
    rw [hnew, List.map_map]
    exact hqueue.trans (congrArg _ hevents)
  | environment bus =>
    cases h
    exact { hs with }
  | dispatch =>
    simp only [DmaRun.apply] at h
    split at h
    · cases h
    rename_i event rest hq
    split at h
    case isFalse => cases h
    cases h
    exact hs.dispatch hq
  | busLoad i =>
    simp only [DmaRun.apply] at h
    split at h
    case h_2 => cases h
    rename_i id event accesses hi
    cases h
    have hnone : accesses = [] :=
      hs.accessed _ (List.mem_append_left _ (List.mem_of_getElem? hi))
    subst hnone
    refine hs.progress hi ?_ ?_ ?_ _
    · rfl
    · rfl
    · exact ⟨_, rfl⟩
  | busStore i =>
    simp only [DmaRun.apply] at h
    split at h
    case h_2 => cases h
    rename_i id event data accesses hi
    cases h
    obtain ⟨feedback, hload⟩ : ∃ feedback, accesses = [.load event.srcAddr feedback data] :=
      hs.accessed _ (List.mem_append_left _ (List.mem_of_getElem? hi))
    subst hload
    refine hs.progress hi ?_ ?_ ?_ _
    · rfl
    · rfl
    · exact ⟨feedback, data, rfl⟩
  | finish i =>
    simp only [DmaRun.apply] at h
    split at h
    case h_2 => cases h
    rename_i id event accesses hi
    cases h
    exact hs.finish hi rfl

theorem run_captured (hs : Captured s) {ops : List (TransferOp β)} (h : s.run ops = some s') :
    Captured s' := by
  induction ops generalizing s with
  | nil =>
    cases h
    exact hs
  | cons op ops ih =>
    obtain ⟨t, ht, hrun⟩ := Option.bind_eq_some_iff.mp h
    exact ih (step_captured hs ht) hrun

/-- In every run each completed event is that of what its descriptor held when a store enqueued
it, no event is handled twice, and the handler has moved what was programmed exactly when its
load of the source succeeded. -/
theorem moved_iff (reg : Nat → BitVec 8) (bus : β) (ops : List (TransferOp β))
    (h : (DmaRun.start reg bus).run ops = some s) :
    ((s.working ++ s.done).map Handling.id).Nodup ∧
    ∀ g ∈ s.done, ∃ p, s.programmed[g.id]? = some p ∧ g.event = p.event ∧
      (AsProgrammed p g.accesses ↔ SourceLoaded p g.accesses) := by
  have hs := run_captured (start_captured reg bus) h
  refine ⟨hs.once, fun g hg => ?_⟩
  have hmem : g ∈ s.working ++ s.done := List.mem_append_right _ hg
  obtain ⟨-, p, hp, hevent⟩ := hs.taken g hmem
  exact ⟨p, hp, hevent, asProgrammed_iff (hs.completed g hg) (hs.accessed g hmem) hevent⟩

end Runs

/-! ## A source that is not there -/

/-- Read descriptor 0 goes from `src` to the start of the memory. -/
def oneDescriptor (src : BitVec 64) : Nat → BitVec 8 :=
  writeBytes (writeBytes (fun _ => 0) 0x100 8 src) 0x108 8 0x80000000

/-- A memory that is full of ones. -/
def onesBus : AddrBus Empty := AddrBus.empty.setMem 0x80000000 0x10000 fun _ => 0xff

/-- A guest starts read channel 0, and its transfer is made. -/
def oneTransfer (src : BitVec 64) : Option (DmaRun (AddrBus Empty)) :=
  (DmaRun.start (oneDescriptor src) onesBus).run
    [.store 0x10 8 1, .dispatch, .busLoad 0, .busStore 0, .finish 0]

/-- Nothing is mapped at the source, and eight zero bytes are stored at the destination. -/
theorem unreadable_stored :
    ¬ ∀ (reg : Nat → BitVec 8) (bus : AddrBus Empty) ops s,
      (DmaRun.start reg bus).run ops = some s → ∀ g ∈ s.done,
        ∃ p, s.programmed[g.id]? = some p ∧ AsProgrammed p g.accesses := by
  intro hall
  have hdone : (oneTransfer 0).map (·.done) = some [⟨0, ⟨.asyncRead, 0, 0, 0x80000000⟩, .stored,
      [.load 0 .devNotFound 0, .store 0x80000000 0]⟩] := by decide +kernel
  obtain ⟨s, hrun, hs⟩ := Option.map_eq_some_iff.mp hdone
  obtain ⟨p, -, feedback, data, hacc⟩ := hall _ _ _ s hrun _ (hs ▸ List.mem_cons_self)
  have hload := List.head_eq_of_cons_eq hacc
  injection hload with _ hfb
  have hlen := congrArg List.length hacc
  rw [← hfb, if_neg (by decide)] at hlen
  cases hlen

example : (oneTransfer 0).bind (fun s => s.bus.mainMem.map fun m => readBytes m 0 16) =
    some 0xffffffffffffffff0000000000000000 := by decide +kernel

/-- A transfer within the memory. -/
theorem moved_iff_inside :
    ∃ s, oneTransfer 0x80000010 = some s ∧ ((s.working ++ s.done).map Handling.id).Nodup ∧
      ∀ g ∈ s.done, ∃ p, s.programmed[g.id]? = some p ∧ g.event = p.event ∧
        (AsProgrammed p g.accesses ↔ SourceLoaded p g.accesses) := by
  have hsome : (oneTransfer 0x80000010).isSome = true := by decide +kernel
  obtain ⟨s, hs⟩ := Option.isSome_iff_exists.mp hsome
  exact ⟨s, hs, moved_iff _ _ _ hs⟩

end NextEmu.Device.DmaTransfers
