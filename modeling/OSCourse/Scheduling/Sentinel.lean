import OSCourse.Scheduling.Charging

/-!
# The sentinel of the minimum

`get_min_accumulator` marks with `-1` that it has seen no active process.  In
every run the accumulators stay non-negative, also those that freed entries keep
for the next process of the slot, so the mark is never an accumulator and the
function computes a minimum.
-/

namespace OSCourse.Scheduling

open OSCourse.Library.TransitionSystem

variable {n cpus : Nat}

/-- The loop of `get_min_accumulator` ends with the sentinel exactly if no other
process is active. -/
theorem sentinel_iff_noneActive
    {table : Table n} (nonneg : NonNeg table) (exceptP : Fin n) :
    (List.finRange n).foldl (minStep table exceptP) (-1) = -1 ↔
      ∀ p, p ≠ exceptP → ¬ (table p).active := by
  rcases minSoFar_finRange nonneg exceptP with
    ⟨⟨p, ⟨-, other⟩, active, value⟩, -⟩ | ⟨noneActive, sentinel⟩
  · have bound := nonneg p
    constructor
    · intro sentinel
      omega
    · intro noneActive
      exact absurd active (noneActive p other)
  · exact iff_of_true sentinel fun p other => noneActive p trivial other

/--
In every reachable state, an allocated process has an accumulator that is not
negative and a priority from 1 to 10; the loop of `get_min_accumulator` keeps
its sentinel exactly if there is no other active process; and the function
returns the minimum of the other active processes, or zero if there is none.
-/
theorem getMinAccumulator_of_reachable
    {kernel : Kernel n cpus}
    (reached : (kernelSystem n cpus).Reachable kernel) :
    (∀ p, (kernel.proc p).state ≠ .unused →
      0 ≤ (kernel.proc p).accumulator ∧
        1 ≤ (kernel.proc p).psPriority ∧
          (kernel.proc p).psPriority ≤ 10) ∧
    ∀ q,
      ((List.finRange n).foldl (minStep kernel.proc q) (-1) = -1 ↔
        ∀ p, p ≠ q → ¬ (kernel.proc p).active) ∧
      IsLeastOrZero kernel.proc (fun p => p ≠ q)
        (getMinAccumulator kernel.proc q) := by
  have legal := (sound_of_reachable reached).legal
  constructor
  · intro p allocated
    exact ⟨legal.nonneg p, legal.priority p allocated⟩
  · intro q
    exact ⟨sentinel_iff_noneActive legal.nonneg q,
      getMinAccumulator_isLeast legal.nonneg q⟩

/-- Two processes, of which the second runs: the first is the minimum of the
others. -/
theorem getMinAccumulator_of_reachable_childRuns :
    (childRuns.proc 0).accumulator = getMinAccumulator childRuns.proc 1 ∧
      IsLeastOrZero childRuns.proc (fun p => p ≠ 1)
        (getMinAccumulator childRuns.proc 1) :=
  ⟨by decide,
    ((getMinAccumulator_of_reachable reachable_childRuns.of_guarded).2 1).2⟩

end OSCourse.Scheduling
