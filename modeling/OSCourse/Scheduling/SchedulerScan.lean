import Mathlib.Data.Finset.Option
import OSCourse.Scheduling.Accumulator

/-!
# The scan of the scheduler with its locks

`scheduler` walks over the table and keeps the lock of its best candidate
while it goes on.  Here the scan is run together with the locks this processor
holds: `acquire` of a lock it already holds and `release` of one it does not
hold panic, as in the spinlock code.  The loop invariant ties the candidate,
the locks and the order of the acquisitions together.
-/

namespace OSCourse.Scheduling

variable {n : Nat}

/-- The variables of the scan: the candidate, the locks held, the locks
taken. -/
structure ScanState (n : Nat) where
  minP : Option (Fin n)
  held : Finset (Fin n)
  taken : List (Fin n)
deriving DecidableEq

/-- `acquire`; `none` is the panic. -/
def ScanState.acquire (state : ScanState n) (p : Fin n) :
    Option (ScanState n) :=
  if p ∈ state.held then none
  else
    some
      { state with
        held := insert p state.held
        taken := state.taken ++ [p] }

/-- `release`; `none` is the panic. -/
def ScanState.release (state : ScanState n) (p : Fin n) :
    Option (ScanState n) :=
  if p ∈ state.held then some { state with held := state.held.erase p }
  else none

/-- The body of the loop over the table. -/
def scanBody (table : Table n) (state : ScanState n) (p : Fin n) :
    Option (ScanState n) := do
  let state ← state.acquire p
  if (table p).state = .runnable then
    match state.minP with
    | none => return { state with minP := some p }
    | some best =>
        if (table p).accumulator < (table best).accumulator then
          let state ← state.release best
          return { state with minP := some p }
        else
          state.release p
  else
    state.release p

/-- The whole scan, from `min_p = 0` with no lock held. -/
def schedulerScan (table : Table n) : Option (ScanState n) :=
  (List.finRange n).foldlM (scanBody table) ⟨none, ∅, []⟩

/-- What holds when the scan comes to the next entry. -/
structure ScanInvariant (table : Table n) (visited : List (Fin n))
    (state : ScanState n) : Prop where
  candidate : state.minP = visited.foldl (scanStep table) none
  fromVisited : ∀ best, state.minP = some best → best ∈ visited
  held : state.held = state.minP.toFinset
  taken : state.taken = visited

theorem ScanInvariant.free
    {table : Table n} {visited : List (Fin n)} {state : ScanState n}
    (invariant : ScanInvariant table visited state)
    {p : Fin n} (fresh : p ∉ visited) :
    p ∉ state.held := by
  rw [invariant.held, Option.mem_toFinset]
  intro candidate
  exact fresh (invariant.fromVisited p candidate)

/-- One turn of the loop: no panic, and the invariant for one more entry. -/
theorem ScanInvariant.step
    {table : Table n} {visited : List (Fin n)} {state : ScanState n}
    (before : ScanInvariant table visited state)
    {p : Fin n} (fresh : p ∉ visited) :
    ∃ next, scanBody table state p = some next ∧
      ScanInvariant table (visited ++ [p]) next := by
  have free := before.free fresh
  have candidate : (visited ++ [p]).foldl (scanStep table) none =
      scanStep table state.minP p := by
    rw [List.foldl_append, ← before.candidate]
    rfl
  have earlier : ∀ best, state.minP = some best → best ∈ visited ++ [p] :=
    fun best chosen => List.mem_append_left [p] (before.fromVisited best chosen)
  have acquired : state.acquire p =
      some { state with
        held := insert p state.held, taken := state.taken ++ [p] } := by
    simp [ScanState.acquire, free]
  -- the entry is passed over and its lock released at once
  have passed : scanStep table state.minP p = state.minP →
      ScanInvariant table (visited ++ [p])
        { state with
          held := (insert p state.held).erase p
          taken := state.taken ++ [p] } := by
    intro unchanged
    refine ⟨?_, earlier, ?_, ?_⟩
    · rw [candidate, unchanged]
    · rw [Finset.erase_insert free, before.held]
    · rw [before.taken]
  by_cases runnable : (table p).state = .runnable
  · cases chosen : state.minP with
    | none =>
        have empty : state.held = ∅ := by
          rw [before.held, chosen]
          rfl
        refine ⟨{ state with
            minP := some p
            held := insert p state.held
            taken := state.taken ++ [p] }, ?_, ?_, ?_, ?_, ?_⟩
        · simp [scanBody, acquired, runnable, chosen]
        · rw [candidate, chosen]
          simp [scanStep, runnable]
        · rintro best ⟨⟩
          simp
        · simp [empty]
        · simp [before.taken]
    | some best =>
        have single : state.held = {best} := by
          rw [before.held, chosen]
          rfl
        have apart : p ≠ best := by
          rintro rfl
          exact free (by simp [single])
        by_cases smaller :
            (table p).accumulator < (table best).accumulator
        · refine ⟨{ state with
              minP := some p
              held := (insert p state.held).erase best
              taken := state.taken ++ [p] }, ?_, ?_, ?_, ?_, ?_⟩
          · simp [scanBody, acquired, runnable, chosen, smaller,
              ScanState.release, single]
          · rw [candidate, chosen]
            simp [scanStep, runnable, smaller]
          · rintro other ⟨⟩
            simp
          · rw [single, Finset.erase_insert_of_ne apart]
            simp
          · simp [before.taken]
        · refine ⟨_, ?_, passed ?_⟩
          · simp [scanBody, acquired, runnable, chosen, smaller,
              ScanState.release]
          · rw [chosen]
            simp [scanStep, runnable, smaller]
  · refine ⟨_, ?_, passed ?_⟩
    · simp [scanBody, acquired, runnable, ScanState.release]
    · simp [scanStep, runnable]

/-- The loop over entries none of which has been visited. -/
theorem ScanInvariant.loop
    {table : Table n} (entries : List (Fin n)) {visited : List (Fin n)}
    {state : ScanState n}
    (before : ScanInvariant table visited state)
    (distinct : (visited ++ entries).Nodup) :
    ∃ final, entries.foldlM (scanBody table) state = some final ∧
      ScanInvariant table (visited ++ entries) final := by
  induction entries generalizing visited state with
  | nil => exact ⟨state, rfl, by simpa using before⟩
  | cons p rest ih =>
      have fresh : p ∉ visited := by
        intro member
        exact List.disjoint_of_nodup_append distinct member List.mem_cons_self
      obtain ⟨next, turn, invariant⟩ := before.step fresh
      rw [List.append_cons] at distinct ⊢
      obtain ⟨final, ran, done⟩ := ih invariant distinct
      refine ⟨final, ?_, done⟩
      rw [List.foldlM_cons, turn]
      exact ran

/-- The candidate is the first of the entries with its accumulator. -/
theorem scan_first
    (table : Table n) {entries : List (Fin n)}
    (increasing : entries.Pairwise (· < ·))
    {best : Fin n}
    (chosen : entries.foldl (scanStep table) none = some best) :
    best ∈ entries ∧
      ∀ p ∈ entries, (table p).state = .runnable →
        (table p).accumulator = (table best).accumulator → best ≤ p := by
  induction entries using List.reverseRecOn generalizing best with
  | nil => cases chosen
  | append_singleton entries last ih =>
      rw [List.pairwise_append] at increasing
      obtain ⟨earlier, -, behind⟩ := increasing
      have soFar : ScanSoFar table (fun q => False ∨ q ∈ entries)
          (entries.foldl (scanStep table) none) :=
        scanSoFar_foldl entries (fun _ never => never.elim)
      simp only [false_or] at soFar
      rw [List.foldl_append, List.foldl_cons, List.foldl_nil,
        scanStep.eq_def] at chosen
      cases previous : entries.foldl (scanStep table) none with
      | none =>
          rw [previous] at chosen soFar
          by_cases runnable : (table last).state = .runnable
          · rw [if_pos runnable] at chosen
            obtain rfl := Option.some.inj chosen
            refine ⟨by simp, fun p member runnableP _ => ?_⟩
            rcases List.mem_append.mp member with old | new
            · exact absurd runnableP (soFar p old)
            · exact (List.mem_singleton.mp new).ge
          · rw [if_neg runnable] at chosen
            cases chosen
      | some old =>
          obtain ⟨oldMember, oldFirst⟩ := ih earlier previous
          rw [previous] at chosen soFar
          -- the old candidate stands before the last entry
          have kept : ∀ p ∈ entries ++ [last],
              (table p).state = .runnable →
              (table p).accumulator = (table old).accumulator →
              old ≤ p := by
            intro p member runnableP tie
            rcases List.mem_append.mp member with before | new
            · exact oldFirst p before runnableP tie
            · rw [List.mem_singleton.mp new]
              exact (behind old oldMember last (by simp)).le
          have oldListed : old ∈ entries ++ [last] :=
            List.mem_append_left [last] oldMember
          by_cases runnable : (table last).state = .runnable
          · rw [if_pos runnable] at chosen
            dsimp only at chosen
            by_cases smaller :
                (table last).accumulator < (table old).accumulator
            · rw [if_pos smaller] at chosen
              obtain rfl := Option.some.inj chosen
              refine ⟨by simp, fun p member runnableP tie => ?_⟩
              rcases List.mem_append.mp member with before | new
              · have bound := soFar.2 p before runnableP
                omega
              · exact (List.mem_singleton.mp new).ge
            · rw [if_neg smaller] at chosen
              obtain rfl := Option.some.inj chosen
              exact ⟨oldListed, kept⟩
          · rw [if_neg runnable] at chosen
            obtain rfl := Option.some.inj chosen
            exact ⟨oldListed, kept⟩

/--
The scan ends without a panic, having taken every lock once in increasing
order.  It holds exactly the lock of its candidate, which is the RUNNABLE
process of smallest accumulator and, among those, of lowest index; without a
RUNNABLE process there is no candidate and no lock is held.
-/
theorem schedulerScan_exact (table : Table n) :
    ∃ final, schedulerScan table = some final ∧
      final.taken = List.finRange n ∧
      final.taken.Pairwise (· < ·) ∧
      final.held = final.minP.toFinset ∧
      match final.minP with
      | none => ∀ p, (table p).state ≠ .runnable
      | some best =>
          (table best).state = .runnable ∧
            ∀ p, (table p).state = .runnable →
              (table best).accumulator ≤ (table p).accumulator ∧
                ((table p).accumulator = (table best).accumulator →
                  best ≤ p) := by
  have start : ScanInvariant table [] ⟨none, ∅, []⟩ :=
    ⟨rfl, by simp, rfl, rfl⟩
  obtain ⟨final, ran, invariant⟩ :=
    start.loop (List.finRange n) (by simpa using List.nodup_finRange n)
  rw [List.nil_append] at invariant
  have increasing : (List.finRange n).Pairwise (· < ·) :=
    List.pairwise_lt_finRange n
  refine ⟨final, ran, invariant.taken, ?_, invariant.held, ?_⟩
  · rw [invariant.taken]
    exact increasing
  · have least := scanSoFar_scan table
    have candidate : scan table = final.minP := invariant.candidate.symm
    rw [candidate] at least
    cases chosen : final.minP with
    | none =>
        rw [chosen] at least
        exact fun p => least p trivial
    | some best =>
        rw [chosen] at least
        obtain ⟨-, first⟩ :=
          scan_first table increasing (invariant.candidate.symm.trans chosen)
        refine ⟨least.1, fun p runnable => ⟨least.2 p trivial runnable, ?_⟩⟩
        exact first p (List.mem_finRange p) runnable

end OSCourse.Scheduling
