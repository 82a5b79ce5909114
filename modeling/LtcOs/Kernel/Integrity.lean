import LtcOs.Kernel.Scheduler
import LtcOs.Kernel.VirtualTimers
import LtcOs.Kernel.Registry
import LtcOs.Lib.SharedLinks

/-!
The integrity check (`chSysIntegrityCheckI` in `chsys.c`).

It walks the ready list, the list of timers and the registry forward and backward, and
compares how many nodes it met. The walks end, and agree, in all states these lists get into.
-/

namespace LtcOs.Kernel.Integrity

open LtcOs.Linked

def CH_INTEGRITY_RLIST : UInt32 := 1

def CH_INTEGRITY_VTLIST : UInt32 := 2

def CH_INTEGRITY_REGISTRY : UInt32 := 4

section Code

variable {α β γ : Type} [DecidableEq α] [DecidableEq β] [DecidableEq γ]

/-- Both walks over one list, with a bound on the rounds of each; whether the test fails. -/
def scanTest (k : Links α) (h : α) (fuel : Nat) : Option Bool := do
  let n ← count k.next h fuel (k.next h)
  let m ← count k.prev h fuel (k.prev h)
  return decide ((n : Int) - m ≠ 0)

/-- One test if its bit is set, and then the rest. -/
def test (testmask bit : UInt32) (failed : Option Bool) (rest : Option Bool) : Option Bool :=
  if testmask &&& bit ≠ 0 then failed.bind fun b => if b then some true else rest else rest

/-- The headers of the lists are their nodes `none`. The port has no check of its own. -/
def chSysIntegrityCheckI (rlist : Links (Option α)) (vtlist : Links (Option β))
    (registry : Links (Option γ)) (fuel : Nat) (testmask : UInt32) : Option Bool :=
  test testmask CH_INTEGRITY_RLIST (scanTest rlist none fuel) <|
  test testmask CH_INTEGRITY_VTLIST (scanTest vtlist none fuel) <|
  test testmask CH_INTEGRITY_REGISTRY (scanTest registry none fuel) <|
  some false

end Code

section Proofs

variable {α : Type} [DecidableEq α] {k : Links α} {h : α} {l : List α} {fuel : Nat}

theorem scanTest_ring (ring : Ring k h l) (enough : l.length < fuel) :
    scanTest k h fuel = some false := by
  obtain ⟨forward, backward⟩ := ring.count_eq enough
  unfold scanTest
  rw [forward, backward]
  simp

theorem test_passes {testmask bit : UInt32} {failed rest : Option Bool} (passed : failed = some false)
    (others : rest = some false) : test testmask bit failed rest = some false := by
  unfold test
  rw [passed, others]
  split_ifs
  · rfl
  · rfl

omit [DecidableEq α] in
/-- A list without repetitions is short enough. -/
theorem length_map_some [Fintype α] {l : List α} {k : Links (Option α)}
    (ring : Ring k none (l.map some)) (enough : Fintype.card α < fuel) :
    (l.map some).length < fuel := by
  have nodup := (List.nodup_cons.mp ring.nodup).2.of_map
  rw [List.length_map]
  exact Nat.lt_of_le_of_lt nodup.length_le_card enough

end Proofs

variable {T T' W τ φ π : Type} [DecidableEq T] [DecidableEq T'] [DecidableEq τ]

/-- The check never reports an error, whichever tests are asked for: not in any state of the
scheduler, nor at any point of the tick loop and its callbacks, nor in any state of the
registry. Its loops end after at most one round more than there are threads or timers. -/
theorem integrity_check_passes [Fintype T] [Fintype T'] [Fintype τ] (s : Sched T W)
    (vts : Timers.Sys τ φ π) (reg : Threads T') (main idle : T) (idle' : T') (first : List T')
    (sched : s.Reachable main idle) (timers : Timers.Reachable vts)
    (threads : Threads.Reach Threads.Steady idle' first reg) (fuel : Nat)
    (enough : Fintype.card T < fuel ∧ Fintype.card τ < fuel ∧ Fintype.card T' < fuel)
    (testmask : UInt32) :
    chSysIntegrityCheckI s.links vts.vt.links reg.links fuel testmask = some false := by
  obtain ⟨c, good⟩ := sched.good
  obtain ⟨l, inv⟩ := timers.inv
  obtain ⟨ledger, -, inv'⟩ := threads.tracked
  obtain ⟨r, ring, -⟩ := inv'.registry
  have ready := good.refines.ring
  have linked := inv.linked.ring
  apply test_passes (scanTest_ring ready (length_map_some ready enough.1))
  apply test_passes (scanTest_ring linked (length_map_some linked enough.2.1))
  exact test_passes (scanTest_ring ring (length_map_some ring enough.2.2)) rfl

def sampleVt : Timers.VtList Bool Unit Unit :=
  ⟨⟨id, id⟩, fun _ => 0, fun _ => none, fun _ => (), 0⟩

/-- In the callback of one of two timers, with the other one still armed. -/
theorem sampleVt_callback :
    ∃ vts : Timers.Sys Bool Unit Unit, Timers.Reachable vts ∧ vts.mode = .callback ∧
      vts.vt.links.next none = some true := by
  exact ⟨_, ⟨sampleVt, .head (.set 3 false 1 () () (by decide) rfl (by decide) rfl)
    (.head (.set 3 true 2 () () (by decide) rfl (by decide) rfl)
      (.head (.tick rfl) (.single (.fire false () rfl rfl rfl rfl))))⟩, rfl, rfl⟩

/-- Two ready threads, a timer behind the one that fires, and a walk over a registry from which
a thread was created. -/
theorem sample_passes :
    ∃ vts : Timers.Sys Bool Unit Unit, Timers.Reachable vts ∧ vts.mode = .callback ∧
      vts.vt.links.next none = some true ∧
      chSysIntegrityCheckI Sched.sampleBoth.links vts.vt.links Threads.sampleVisit.links 5 7 =
        some false := by
  obtain ⟨vts, reachable, mode, first⟩ := sampleVt_callback
  exact ⟨vts, reachable, mode, first, integrity_check_passes Sched.sampleBoth vts
    Threads.sampleVisit 0 0 0 [0, 1, 2] Sched.sampleBoth_reachable reachable
    Threads.sampleVisit_reach 5 (by decide) 7⟩

end LtcOs.Kernel.Integrity
