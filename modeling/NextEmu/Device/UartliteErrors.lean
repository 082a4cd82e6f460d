import NextEmu.Device.UartliteCalls

/-!
# The error paths of the UART

An access that leaves the registers is answered with `FB_OUT_OF_RANGE` and should change nothing
and hold nothing. A load does so; a store takes both mutexes, which no guard releases, and then
runs into `assert(false)`.
-/

namespace NextEmu.Device.UartliteErrors

open NextEmu.Sdk NextEmu.Lib.AbortState Uartlite UartliteFifos UartliteCalls

/-- The call is refused: the device is the same and both mutexes are free. -/
def Refused (s : State) (c : Call) : Prop :=
  ∃ t, call c s = .ok (some .outOfRange) t ∧ t.dev = s.dev ∧ Free t

/-- In a run of calls the accesses out of range are refused, and no call blocks. -/
def Sound (s : State) : List Call → Prop
  | [] => True
  | c :: cs =>
    (OutOfRange s.dev.devSize c → Refused s c) ∧ (∀ t, call c s ≠ .error .blocked t) ∧
      ∀ a t, call c s = .ok a t → Sound t cs

/-- Whatever is called on a device with free mutexes: the error paths are sound exactly when every
store is in range and the check sees every load that is not. -/
theorem sound_iff_handled (s : State) (hfree : Free s) (hsize : s.dev.devSize ≠ 0)
    (cs : List Call) : Sound s cs ↔ ∀ c ∈ cs, Handled s.dev.devSize c := by
  induction cs generalizing s with
  | nil => exact iff_of_true trivial fun c hc => absurd hc List.not_mem_nil
  | cons c cs ih =>
    rw [List.forall_mem_cons]
    by_cases hc : Handled s.dev.devSize c
    · obtain ⟨a, hcall, hout⟩ := call_returns hfree hsize hc
      have hdev := after_devSize s c
      have hrest := ih (after s c) (after_free hfree c) (by rwa [hdev])
      rw [hdev] at hrest
      constructor
      · intro hsound
        exact ⟨hc, hrest.mp (hsound.2.2 a _ hcall)⟩
      · rintro ⟨-, hall⟩
        refine ⟨fun hrange => ?_, fun u hblocked => ?_, fun b u hcall' => ?_⟩
        · obtain ⟨rfl, hsame⟩ := hout hrange
          rw [hsame] at hcall
          exact ⟨s, hcall, rfl, hfree⟩
        · rw [hcall] at hblocked
          cases hblocked
        · rw [hcall] at hcall'
          cases hcall'
          exact hrest.mpr hall
    · obtain ⟨hrange, e, t, hstop⟩ := call_stops hfree hsize hc
      apply iff_of_false
      · intro hsound
        obtain ⟨u, hcall, -⟩ := hsound.1 hrange
        rw [hstop] at hcall
        cases hcall
      · rintro ⟨hhandled, -⟩
        exact hc hhandled

/-- A store behind the registers of a new device. -/
theorem store_behind_registers : ¬ Sound (State.init 0x100000 false) [.store 0x10 4 0] := by
  intro hsound
  obtain ⟨hrange, e, t, hstop⟩ :=
    call_stops (s := State.init 0x100000 false) (c := .store 0x10 4 0) ⟨rfl, rfl⟩ (by decide)
      (by unfold Handled; decide)
  obtain ⟨u, hcall, -⟩ := hsound.1 hrange
  rw [hstop] at hcall
  cases hcall

/-- A load behind the registers, and one of them. -/
theorem load_behind_registers :
    Free (State.init 0x100000 false) ∧ (0x100000 : BitVec 64) ≠ 0 ∧
      (Sound (State.init 0x100000 false) [.load 0x10 4, .load 8 4] ↔
        ∀ c ∈ [Call.load 0x10 4, Call.load 8 4], Handled 0x100000 c) := by
  have hfree : Free (State.init 0x100000 false) := ⟨rfl, rfl⟩
  have hsize : (0x100000 : BitVec 64) ≠ 0 := by decide
  exact ⟨hfree, hsize, sound_iff_handled _ hfree hsize _⟩

end NextEmu.Device.UartliteErrors
