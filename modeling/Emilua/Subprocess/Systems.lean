import Emilua.Subprocess.FreeBSD
import Emilua.Subprocess.Linux
import Emilua.Subprocess.Windows

/-!
The life of a child process on every system.
-/
namespace Emilua.Subprocess
open Transition

inductive System where
  | linux
  | freebsd
  | windows
deriving DecidableEq, Repr

def System.machine : System → Machine
  | .linux => Linux.machine
  | .freebsd => FreeBSD.machine
  | .windows => Windows.machine

/-- On Windows the handler of `subprocess_wait` does not look at its error code, so
that a wait must not be interrupted before the child has ended it. -/
def System.keeps : (system : System) → system.machine.State → system.machine.Action → Bool
  | .windows => Windows.harmless
  | .linux | .freebsd => fun _ _ => true

theorem subprocess_lifecycle (system : System) {s : system.machine.State}
    (h : Reachable system.machine.initial (restrict (fun s a => system.keeps s a = true) system.machine.Step) s) :
    system.machine.Sound s := by
  cases system with
  | linux => exact Linux.sound h.of_restrict
  | freebsd => exact FreeBSD.sound h.of_restrict
  | windows => exact Windows.sound h

namespace Windows

/-- A wait is begun and ended by the exit of the child, after which its fiber is
interrupted. -/
def finishedWait : List Action :=
  [.wait 1 true, .exit (.exited 3), .complete ⟨0, 0, 1⟩, .interrupt 1, .run ⟨0, 0, 1⟩ false]

theorem subprocess_lifecycle_finished :
    ∃ s, machine.Sound s ∧ s.handle = some ⟨false, false, some 3⟩ ∧ s.child = some (.exited 3) := by
  have hrun : (runIf exec harmless State.start finishedWait).map (fun s => (s.handle, s.child)) =
      some (some ⟨false, false, some 3⟩, some (.exited 3)) := by decide
  obtain ⟨s, hs, hview⟩ := Option.map_eq_some_iff.mp hrun
  have hreachable : Reachable machine.initial (restrict (fun s a => harmless s a = true) machine.Step) s :=
    reachable_of_runIf ⟨State.start, rfl, .refl⟩ hs
  obtain ⟨hhandle, hchild⟩ := Prod.mk.inj hview
  exact ⟨s, subprocess_lifecycle .windows hreachable, hhandle, hchild⟩

/-- The handle of a child that still runs is closed, and has an exit code. -/
theorem interrupted_wait_closes_handle :
    ∃ s, Reachable machine.initial machine.Step s ∧ ¬ machine.Sound s ∧ s.child = none ∧
      s.handle = some ⟨false, false, some STILL_ACTIVE⟩ := by
  have hrun : (runIf exec (fun _ _ => true) State.start [.wait 1 true, .interrupt 1, .run ⟨0, 0, 1⟩ true]).map
      (fun s => (s.handle, s.child)) = some (some ⟨false, false, some STILL_ACTIVE⟩, none) := by decide
  obtain ⟨s, hs, hview⟩ := Option.map_eq_some_iff.mp hrun
  have hreachable : Reachable machine.initial machine.Step s :=
    Reachable.of_restrict (reachable_of_runIf ⟨State.start, rfl, .refl⟩ hs)
  obtain ⟨hhandle, hchild⟩ := Prod.mk.inj hview
  refine ⟨s, hreachable, fun hsound => ?_, hchild, hhandle⟩
  have hcode : (machine.view s 0).exitCode = some STILL_ACTIVE := by
    simp only [machine, hhandle]
    rfl
  obtain ⟨w, e, -, -, he, -⟩ := (hsound.lawful 0 rfl).code _ hcode
  rw [show (machine.view s 0).child = none from hchild] at he
  cases he

end Windows

end Emilua.Subprocess
