import Mathlib.Data.List.Induction
import RecordCodec.Proofs.Program.Window

/-!
# Accounting of windows

Three things are done with a window: it is reopened behind the bits that are taken, a leaf
takes bits of it, and the run is closed where the cursor moves. In whatever order that
happens, the window counts the bits of the run since it was last closed, and its start and
what is taken of it together make up the same count. A run is as long as the bits taken in
it, so it does not matter where and how often its windows are reopened.

Reopening rounds what is taken to whole bytes. Nothing gets lost there as long as the leaves
are of whole bytes and lie inside their window.

All this is so as long as neither count wraps around. The count of a window does before a
leaf of about 65536 bits is found too wide, and then the leaf seems to fit.
-/

namespace RecordCodec

namespace Layout

/-- What is done with a window. -/
inductive WindowStep where
  | reopen
  | take (bits : Nat)
  | close
  deriving DecidableEq, Repr

/-- The bits that a step takes. -/
def WindowStep.bits : WindowStep → Nat
  | take bits => bits
  | _ => 0

/-- The bits that are taken behind the last step that closes a run. -/
def openBits (steps : List WindowStep) : Nat :=
  ((steps.reverse.takeWhile (· ≠ .close)).map WindowStep.bits).sum

@[simp] theorem openBits_nil : openBits [] = 0 := rfl

theorem openBits_append_close (steps : List WindowStep) : openBits (steps ++ [.close]) = 0 := by
  simp [openBits]

theorem openBits_append_of_ne (steps : List WindowStep) {step : WindowStep}
    (h : step ≠ .close) : openBits (steps ++ [step]) = openBits steps + step.bits := by
  simp [openBits, h, Nat.add_comm]

namespace Window

section

variable [AddressSpace]

/-- The window behind a step. -/
def step (window : Window) : WindowStep → Window
  | .reopen => window.reopen
  | .take bits => window.take bits
  | .close => window.close.2

/-- The window behind some steps. -/
def behind (window : Window) (steps : List WindowStep) : Window := steps.foldl step window

/-- The length of the run that a step ends, if it ends one. -/
def length? (window : Window) : WindowStep → Option Nat
  | .close => some window.close.1
  | _ => none

/-- The lengths of the runs that are ended by some steps. -/
def lengths : Window → List WindowStep → List Nat
  | _, [] => []
  | window, step :: steps => (window.length? step).toList ++ (window.step step).lengths steps

/-- A leaf is of whole bytes and lies inside the window, and no count wraps around where it
is taken. -/
def Allows (window : Window) : WindowStep → Prop
  | .take bits =>
    8 ∣ bits ∧ window.fits bits ∧
      window.taken + bits < countSize ∧ AddressSpace.Holds (window.runBits + bits)
  | _ => True

/-- Every leaf lies inside the window that it is taken from. -/
def Admits : Window → List WindowStep → Prop
  | _, [] => True
  | window, step :: steps => window.Allows step ∧ (window.step step).Admits steps

instance (window : Window) : (step : WindowStep) → Decidable (window.Allows step)
  | .reopen | .close => isTrue trivial
  | .take bits =>
    inferInstanceAs (Decidable (8 ∣ bits ∧ window.fits bits ∧
      window.taken + bits < countSize ∧ AddressSpace.Holds (window.runBits + bits)))

instance decidableAdmits : (window : Window) → (steps : List WindowStep) →
    Decidable (window.Admits steps)
  | _, [] => isTrue trivial
  | window, step :: steps =>
    have := decidableAdmits (window.step step) steps
    inferInstanceAs (Decidable (window.Allows step ∧ (window.step step).Admits steps))

end

section

variable [AddressSpace] {window : Window} {steps front rest : List WindowStep}

theorem behind_append (window : Window) (front rest : List WindowStep) :
    window.behind (front ++ rest) = (window.behind front).behind rest :=
  List.foldl_append

theorem admits_append_iff :
    window.Admits (front ++ rest) ↔ window.Admits front ∧ (window.behind front).Admits rest := by
  induction front generalizing window with
  | nil => exact (and_iff_right trivial).symm
  | cons step front ih => exact (and_congr_right fun _ => ih).trans and_assoc.symm

/-- A run is counted from its first leaf on, whatever its windows are. -/
theorem runBits_step {step : WindowStep} (h : window.runBits = openBits steps)
    (hstep : window.Allows step) :
    (window.step step).runBits = openBits (steps ++ [step]) := by
  cases step with
  | reopen =>
    rw [openBits_append_of_ne steps (by decide)]
    exact h
  | take bits =>
    obtain ⟨_, _, _, hsum⟩ := hstep
    rw [openBits_append_of_ne steps (by simp), ← h]
    exact AddressSpace.add_eq hsum
  | close => exact (openBits_append_close steps).symm

theorem runBits_behind (h : Window.Admits {} steps) :
    (behind {} steps).runBits = openBits steps := by
  -- From the end, because the last step that closes a run decides what is counted.
  induction steps using List.reverseRecOn with
  | nil => exact openBits_nil.symm
  | append_singleton steps step ih =>
    obtain ⟨hsteps, hstep, _⟩ := admits_append_iff.mp h
    rw [behind_append]
    exact runBits_step (ih hsteps) hstep

/-- What is counted after a step is an address again. -/
theorem holds_step (h : AddressSpace.Holds window.runBits) {step : WindowStep}
    (hstep : window.Allows step) : AddressSpace.Holds (window.step step).runBits := by
  cases step with
  | reopen => exact h
  | take bits =>
    obtain ⟨_, _, _, hsum⟩ := hstep
    change AddressSpace.Holds (AddressSpace.add window.runBits bits)
    rw [AddressSpace.add_eq hsum]
    exact hsum
  | close => exact AddressSpace.holds_zero

theorem Sound.step (h : window.Sound) (hrun : AddressSpace.Holds window.runBits)
    {step : WindowStep} (hstep : window.Allows step) : (window.step step).Sound := by
  cases step with
  | reopen =>
    change window.reopen.Sound
    rw [h.reopen_eq_unbounded hrun]
    exact Sound.reopen h
  | take bits =>
    obtain ⟨hbits, hfits, hcount, hsum⟩ := hstep
    change (window.take bits).Sound
    rw [take_eq_unbounded hsum]
    exact Sound.take h hbits ((Window.fits_eq_true hcount).mp hfits)
  | close => exact .empty

theorem Sound.behind (h : window.Sound) (hrun : AddressSpace.Holds window.runBits)
    (hsteps : window.Admits steps) : (window.behind steps).Sound := by
  induction steps generalizing window with
  | nil => exact h
  | cons step steps ih =>
    exact ih (h.step hrun hsteps.1) (holds_step hrun hsteps.1) hsteps.2

/-- A run that is closed is as long as the bits taken in it, and the next one starts afresh. -/
theorem close_behind (h : Window.Admits {} steps) :
    (behind {} steps).close = (openBits steps / 8, {}) := by
  rw [close, runBytes, runBits_behind h]

/-- The lengths of runs depend on the bits that their windows start with and on the steps
other than reopening. -/
theorem lengths_filter (window other : Window) (h : window.runBits = other.runBits)
    (steps : List WindowStep) :
    window.lengths steps = other.lengths (steps.filter (· ≠ .reopen)) := by
  induction steps generalizing window other with
  | nil => rfl
  | cons step steps ih =>
    cases step with
    | reopen => exact ih window.reopen other h
    | take bits =>
      exact ih (window.take bits) (other.take bits) (congrArg (AddressSpace.add · bits) h)
    | close =>
      have hlength : window.close.1 = other.close.1 := congrArg (· / 8) h
      change window.close.1 :: lengths {} steps = other.close.1 :: lengths {} (steps.filter _)
      rw [hlength, ih {} {} rfl]

/-- Through any steps, a window counts the bits since its run began and stands where they
end. A closed run has that length in bytes, however its windows are reopened. -/
theorem runs_keep_account (h : Window.Admits {} steps) :
    (∀ front rest, steps = front ++ rest →
      (behind {} front).runBits = openBits front ∧ (behind {} front).Sound) ∧
    (∀ front rest, steps = front ++ .close :: rest →
      (behind {} front).close = (openBits front / 8, {})) ∧
    ∀ others, others.filter (· ≠ .reopen) = steps.filter (· ≠ .reopen) →
      lengths {} others = lengths {} steps := by
  refine ⟨?_, ?_, ?_⟩
  · rintro front rest rfl
    have hfront := (admits_append_iff.mp h).1
    exact ⟨runBits_behind hfront, Sound.empty.behind AddressSpace.holds_zero hfront⟩
  · rintro front rest rfl
    exact close_behind (admits_append_iff.mp h).1
  · intro others hothers
    rw [lengths_filter {} {} rfl others, hothers, ← lengths_filter {} {} rfl steps]

end

/-- A leaf that does not fit behind another one, and three more reopenings that make no
difference. -/
theorem runs_keep_account_reopened :
    @Window.Admits .bits64 {} [.take 200, .reopen, .take 64, .close, .take 8] ∧
      @behind .bits64 {} [.take 200, .reopen, .take 64] = ⟨25, 64, 264⟩ ∧
      openBits [.take 200, .reopen, .take 64] = 264 ∧ Window.Sound ⟨25, 64, 264⟩ ∧
      Window.close ⟨25, 64, 264⟩ = (33, {}) ∧
      @lengths .bits64 {}
        [.reopen, .take 200, .reopen, .reopen, .take 64, .reopen, .close, .take 8] = [33] := by
  have hsteps : @Window.Admits .bits64 {} [.take 200, .reopen, .take 64, .close, .take 8] := by
    decide
  obtain ⟨hcount, hclose, hlengths⟩ := @runs_keep_account .bits64 _ hsteps
  obtain ⟨_, hsound⟩ := hcount [.take 200, .reopen, .take 64] _ rfl
  exact ⟨hsteps, rfl, rfl, hsound, hclose [.take 200, .reopen, .take 64] _ rfl,
    hlengths _ (by decide)⟩

/-- Behind one byte, a leaf of 8191 bytes seems to fit. The count of the window wraps around
to zero with it, and the window no longer stands where the run ends. -/
theorem fits_wraps :
    (8 ∣ 8 ∧ fits {} 8) ∧ (8 ∣ 65528 ∧ fits (@behind .bits64 {} [.take 8]) 65528) ∧
      (let window := @behind .bits64 {} [.take 8, .take 65528]
       window.runBits = openBits [.take 8, .take 65528] ∧
         ¬ 8 * window.start + window.taken = window.runBits) := by
  decide

/-- Windows that are filled by one leaf each and left behind. -/
def wholeWindows (n : Nat) : List WindowStep := (List.replicate n [.take 256, .reopen]).flatten

theorem wholeWindows_succ (n : Nat) :
    wholeWindows (n + 1) = wholeWindows n ++ [.take 256] ++ [.reopen] := by
  simp [wholeWindows, List.replicate_succ']

theorem openBits_wholeWindows (n : Nat) : openBits (wholeWindows n) = 256 * n := by
  induction n with
  | zero => rfl
  | succ n ih =>
    rw [wholeWindows_succ, openBits_append_of_ne _ (by decide), openBits_append_of_ne _ (by decide),
      ih]
    rfl

theorem step_wholeWindow (start runBits : Nat) :
    @step .bits64 (@step .bits64 ⟨start, 0, runBits⟩ (.take 256)) .reopen =
      ⟨(start + 32) % UInt64.size, 0, (runBits + 256) % UInt64.size⟩ := by
  simp [step, take, reopen, AddressSpace.add_bits64, countSize]

theorem behind_wholeWindows (n : Nat) :
    @behind .bits64 {} (wholeWindows n) =
      ⟨32 * n % UInt64.size, 0, 256 * n % UInt64.size⟩ := by
  induction n with
  | zero => rfl
  | succ n ih =>
    rw [wholeWindows_succ, @behind_append .bits64, @behind_append .bits64, ih]
    refine (step_wholeWindow _ _).trans ?_
    rw [Nat.mod_add_mod, Nat.mod_add_mod]
    rfl

/-- However many leaves filled a window each, one more fits. Behind 2^56 of them the bits of
the run are counted as none. -/
theorem runBits_wraps :
    (∀ n, fits (@behind .bits64 {} (wholeWindows n)) 256) ∧
      (@behind .bits64 {} (wholeWindows (2 ^ 56))).runBits = 0 ∧
      openBits (wholeWindows (2 ^ 56)) = 2 ^ 64 := by
  refine ⟨?_, ?_, openBits_wholeWindows _⟩
  · intro n
    rw [behind_wholeWindows]
    rfl
  · rw [behind_wholeWindows]
    rfl

end Window

end Layout

end RecordCodec
