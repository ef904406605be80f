import Mathlib.Data.Finset.Max
import OSCourse.Scheduling.Proc

/-!
# Minima over the process table

`get_min_accumulator` starts from the sentinel `-1`, which no accumulator has in
a table of non-negative accumulators.  On such a table it returns the minimum of
the other active processes.  `wakeup` takes these minima over a table in which
the processes it woke before are already RUNNABLE; they carry the minimum
themselves, so every woken process gets the same accumulator.
-/

namespace OSCourse.Scheduling

variable {n cpus : Nat}

/-! ## Tables of non-negative accumulators -/

/-- No accumulator is negative. -/
def NonNeg (table : Table n) : Prop :=
  ∀ p, 0 ≤ (table p).accumulator

theorem NonNeg.update
    {table : Table n} (nonneg : NonNeg table) (p : Fin n) {entry : Proc n}
    (entryNonneg : 0 ≤ entry.accumulator) :
    NonNeg (Function.update table p entry) := by
  intro q
  by_cases same : q = p
  · subst same
    simpa using entryNonneg
  · simpa [same] using nonneg q

/-! ## The minimum of the other active processes -/

/-- `value` is the minimum over the active entries that satisfy `scope`. -/
def IsLeast (table : Table n) (scope : Fin n → Prop) (value : Int) : Prop :=
  (∃ p, scope p ∧ (table p).active ∧ (table p).accumulator = value) ∧
    ∀ p, scope p → (table p).active → value ≤ (table p).accumulator

/-- `value` is that minimum, or zero when there is no such entry. -/
def IsLeastOrZero (table : Table n) (scope : Fin n → Prop) (value : Int) :
    Prop :=
  IsLeast table scope value ∨
    (∀ p, scope p → ¬ (table p).active) ∧ value = 0

theorem IsLeastOrZero.unique
    {table : Table n} {scope : Fin n → Prop} {left right : Int}
    (first : IsLeastOrZero table scope left)
    (second : IsLeastOrZero table scope right) :
    left = right := by
  rcases first with ⟨⟨p, inScope, active, value⟩, least⟩ | ⟨noneActive, rfl⟩
  · rcases second with
      ⟨⟨q, inScope', active', value'⟩, least'⟩ | ⟨noneActive, -⟩
    · have below := least q inScope' active'
      have above := least' p inScope active
      omega
    · exact absurd active (noneActive p inScope)
  · rcases second with ⟨⟨q, inScope', active', -⟩, -⟩ | ⟨-, rfl⟩
    · exact absurd active' (noneActive q inScope')
    · rfl

theorem IsLeastOrZero.nonneg
    {table : Table n} {scope : Fin n → Prop} {value : Int}
    (nonneg : NonNeg table) (least : IsLeastOrZero table scope value) :
    0 ≤ value := by
  rcases least with ⟨⟨p, -, -, rfl⟩, -⟩ | ⟨-, rfl⟩
  · exact nonneg p
  · exact Int.le_refl 0

theorem IsLeastOrZero.le
    {table : Table n} {scope : Fin n → Prop} {value : Int}
    (least : IsLeastOrZero table scope value) {p : Fin n}
    (inScope : scope p) (active : (table p).active) :
    value ≤ (table p).accumulator := by
  rcases least with ⟨-, bound⟩ | ⟨noneActive, -⟩
  · exact bound p inScope active
  · exact absurd active (noneActive p inScope)

/-- What the loop of `get_min_accumulator` knows after the entries `seen`. -/
def MinSoFar (table : Table n) (exceptP : Fin n) (seen : Fin n → Prop)
    (minAcc : Int) : Prop :=
  IsLeast table (fun p => seen p ∧ p ≠ exceptP) minAcc ∨
    (∀ p, seen p → p ≠ exceptP → ¬ (table p).active) ∧ minAcc = -1

theorem minSoFar_minStep
    {table : Table n} (nonneg : NonNeg table) {exceptP : Fin n}
    {seen : Fin n → Prop} {minAcc : Int}
    (before : MinSoFar table exceptP seen minAcc) (p : Fin n) :
    MinSoFar table exceptP (fun q => seen q ∨ q = p)
      (minStep table exceptP minAcc p) := by
  unfold minStep
  by_cases skipped : p = exceptP
  · rw [if_pos skipped]
    rcases before with ⟨⟨q, ⟨seenQ, other⟩, active, value⟩, least⟩ |
      ⟨noneActive, sentinel⟩
    · left
      refine ⟨⟨q, ⟨Or.inl seenQ, other⟩, active, value⟩, ?_⟩
      rintro r ⟨seenR | rfl, otherR⟩ activeR
      · exact least r ⟨seenR, otherR⟩ activeR
      · exact absurd skipped otherR
    · right
      refine ⟨?_, sentinel⟩
      rintro r (seenR | rfl) otherR
      · exact noneActive r seenR otherR
      · exact absurd skipped otherR
  · rw [if_neg skipped]
    by_cases active : (table p).active
    · rw [if_pos active]
      left
      rcases before with ⟨⟨q, ⟨seenQ, other⟩, activeQ, value⟩, least⟩ |
        ⟨noneActive, rfl⟩
      · have noSentinel : minAcc ≠ -1 := by
          have bound := nonneg q
          omega
        by_cases smaller : (table p).accumulator < minAcc
        · rw [if_pos (Or.inr smaller)]
          refine ⟨⟨p, ⟨Or.inr rfl, skipped⟩, active, rfl⟩, ?_⟩
          rintro r ⟨seenR | rfl, otherR⟩ activeR
          · have bound := least r ⟨seenR, otherR⟩ activeR
            omega
          · exact Int.le_refl _
        · rw [if_neg (by simp [noSentinel, smaller])]
          refine ⟨⟨q, ⟨Or.inl seenQ, other⟩, activeQ, value⟩, ?_⟩
          rintro r ⟨seenR | rfl, otherR⟩ activeR
          · exact least r ⟨seenR, otherR⟩ activeR
          · omega
      · rw [if_pos (Or.inl rfl)]
        refine ⟨⟨p, ⟨Or.inr rfl, skipped⟩, active, rfl⟩, ?_⟩
        rintro r ⟨seenR | rfl, otherR⟩ activeR
        · exact absurd activeR (noneActive r seenR otherR)
        · exact Int.le_refl _
    · rw [if_neg active]
      rcases before with ⟨⟨q, ⟨seenQ, other⟩, activeQ, value⟩, least⟩ |
        ⟨noneActive, sentinel⟩
      · left
        refine ⟨⟨q, ⟨Or.inl seenQ, other⟩, activeQ, value⟩, ?_⟩
        rintro r ⟨seenR | rfl, otherR⟩ activeR
        · exact least r ⟨seenR, otherR⟩ activeR
        · exact absurd activeR active
      · right
        refine ⟨?_, sentinel⟩
        rintro r (seenR | rfl) otherR
        · exact noneActive r seenR otherR
        · exact active

theorem minSoFar_foldl
    {table : Table n} (nonneg : NonNeg table) {exceptP : Fin n}
    (entries : List (Fin n)) {seen : Fin n → Prop} {minAcc : Int}
    (before : MinSoFar table exceptP seen minAcc) :
    MinSoFar table exceptP (fun q => seen q ∨ q ∈ entries)
      (entries.foldl (minStep table exceptP) minAcc) := by
  induction entries generalizing seen minAcc with
  | nil => simpa using before
  | cons p rest ih =>
      have after := ih (minSoFar_minStep nonneg before p)
      simpa [or_assoc] using after

/-- What the loop knows at its end. -/
theorem minSoFar_finRange
    {table : Table n} (nonneg : NonNeg table) (exceptP : Fin n) :
    MinSoFar table exceptP (fun _ => True)
      ((List.finRange n).foldl (minStep table exceptP) (-1)) := by
  have start : MinSoFar table exceptP (fun _ => False) (-1) :=
    Or.inr ⟨fun _ never => never.elim, rfl⟩
  have final := minSoFar_foldl nonneg (List.finRange n) start
  simpa only [false_or, List.mem_finRange] using final

/--
On a table of non-negative accumulators, `get_min_accumulator` returns the
minimum over the other active processes, and zero when there is none.
-/
theorem getMinAccumulator_isLeast
    {table : Table n} (nonneg : NonNeg table) (exceptP : Fin n) :
    IsLeastOrZero table (fun p => p ≠ exceptP)
      (getMinAccumulator table exceptP) := by
  have final := minSoFar_finRange nonneg exceptP
  unfold getMinAccumulator
  dsimp only
  generalize (List.finRange n).foldl (minStep table exceptP) (-1) = minAcc
    at final ⊢
  rcases final with ⟨⟨p, ⟨-, other⟩, active, value⟩, least⟩ |
    ⟨noneActive, rfl⟩
  · have noSentinel : minAcc ≠ -1 := by
      have bound := nonneg p
      omega
    rw [if_neg noSentinel]
    exact Or.inl ⟨⟨p, other, active, value⟩,
      fun q otherQ activeQ => least q ⟨trivial, otherQ⟩ activeQ⟩
  · rw [if_pos rfl]
    exact Or.inr ⟨fun q otherQ => noneActive q trivial otherQ, rfl⟩

/-- An entry that is not active does not matter for the minimum. -/
theorem getMinAccumulator_isLeast_all
    {table : Table n} (nonneg : NonNeg table) {q : Fin n}
    (inactive : ¬ (table q).active) :
    IsLeastOrZero table (fun _ => True) (getMinAccumulator table q) := by
  have others := getMinAccumulator_isLeast nonneg q
  rcases others with ⟨⟨p, other, active, value⟩, least⟩ | ⟨noneActive, zero⟩
  · left
    refine ⟨⟨p, trivial, active, value⟩, ?_⟩
    intro r _ activeR
    by_cases same : r = q
    · subst same
      exact absurd activeR inactive
    · exact least r same activeR
  · right
    refine ⟨?_, zero⟩
    intro r _ activeR
    by_cases same : r = q
    · subst same
      exact inactive activeR
    · exact noneActive r same activeR

/-! ## Waking -/

/-- The processes a wake-up on `chan` by `me` makes RUNNABLE. -/
def Woken (table : Table n) (chan : Option (Chan n)) (me : Option (Fin n))
    (p : Fin n) : Prop :=
  some p ≠ me ∧ (table p).state = .sleeping ∧ (table p).chan = chan

instance (table : Table n) (chan : Option (Chan n)) (me : Option (Fin n)) :
    DecidablePred (Woken table chan me) :=
  fun _ => inferInstanceAs (Decidable (_ ∧ _ ∧ _))

/-- A woken process with the accumulator `least`. -/
def wokenAt (least : Int) (p : Proc n) : Proc n :=
  { p with accumulator := least, state := .runnable }

/-- The table once the processes of `selected` have been woken. -/
def wakeAll (table : Table n) (least : Int) (selected : Fin n → Prop)
    [DecidablePred selected] : Table n :=
  fun p => if selected p then wokenAt least (table p) else table p

theorem Woken.inactive
    {table : Table n} {chan : Option (Chan n)} {me : Option (Fin n)}
    {p : Fin n} (woken : Woken table chan me p) :
    ¬ (table p).active := by
  rintro (runnable | running)
  · exact absurd (woken.2.1.symm.trans runnable) (by decide)
  · exact absurd (woken.2.1.symm.trans running) (by decide)

/-- Entries woken at the minimum do not change the minimum. -/
theorem isLeastOrZero_wakeAll
    {table : Table n} {least : Int} {selected : Fin n → Prop}
    [DecidablePred selected]
    (minimum : IsLeastOrZero table (fun _ => True) least)
    (inactive : ∀ p, selected p → ¬ (table p).active) :
    IsLeastOrZero (wakeAll table least selected) (fun _ => True) least := by
  have bound : ∀ p, (wakeAll table least selected p).active →
      least ≤ (wakeAll table least selected p).accumulator := by
    intro p active
    by_cases chosen : selected p
    · simp [wakeAll, chosen, wokenAt]
    · simp only [wakeAll, chosen, if_false] at active ⊢
      exact minimum.le trivial active
  rcases minimum with ⟨⟨p, -, active, value⟩, -⟩ | ⟨noneActive, rfl⟩
  · left
    have unchosen : ¬ selected p := fun chosen => inactive p chosen active
    refine ⟨⟨p, trivial, ?_, ?_⟩, fun q _ => bound q⟩
    · simpa [wakeAll, unchosen] using active
    · simpa [wakeAll, unchosen] using value
  · by_cases empty : ∃ p, selected p
    · rcases empty with ⟨p, chosen⟩
      left
      refine ⟨⟨p, trivial, ?_, ?_⟩, fun q _ => bound q⟩
      · simp [wakeAll, chosen, wokenAt, Proc.active]
      · simp [wakeAll, chosen, wokenAt]
    · right
      refine ⟨?_, rfl⟩
      intro p _
      have unchosen : ¬ selected p := fun chosen => empty ⟨p, chosen⟩
      simpa [wakeAll, unchosen] using noneActive p trivial

theorem NonNeg.wakeAll
    {table : Table n} {least : Int} {selected : Fin n → Prop}
    [DecidablePred selected] (nonneg : NonNeg table) (bound : 0 ≤ least) :
    NonNeg (wakeAll table least selected) := by
  intro p
  unfold Scheduling.wakeAll
  split
  · exact bound
  · exact nonneg p

/-- One turn of `wakeup`, once the entries `done` have been visited. -/
theorem wakeupStep_wakeAll
    {table : Table n} (nonneg : NonNeg table) {least : Int}
    (minimum : IsLeastOrZero table (fun _ => True) least)
    (chan : Option (Chan n)) (me : Option (Fin n)) (done : List (Fin n))
    {p : Fin n} (fresh : p ∉ done) :
    wakeupStep chan me
        (wakeAll table least fun q => q ∈ done ∧ Woken table chan me q) p =
      wakeAll table least
        fun q => q ∈ p :: done ∧ Woken table chan me q := by
  generalize current :
    (wakeAll table least fun q => q ∈ done ∧ Woken table chan me q) = table'
  have here : table' p = table p := by
    rw [← current]
    simp [wakeAll, fresh]
  have skip : ¬ Woken table chan me p →
      table' = wakeAll table least
        fun q => q ∈ p :: done ∧ Woken table chan me q := by
    intro notWoken
    rw [← current]
    funext q
    by_cases same : q = p
    · subst same
      simp [wakeAll, notWoken]
    · simp [wakeAll, same]
  unfold wakeupStep
  by_cases self : some p = me
  · rw [if_pos self]
    exact skip fun woken => woken.1 self
  · rw [if_neg self, here]
    by_cases asleep : (table p).state = .sleeping ∧ (table p).chan = chan
    · have woken : Woken table chan me p := ⟨self, asleep⟩
      have minimum' : IsLeastOrZero table' (fun _ => True) least := by
        rw [← current]
        exact isLeastOrZero_wakeAll minimum
          fun q chosen => chosen.2.inactive
      have nonneg' : NonNeg table' := by
        rw [← current]
        exact nonneg.wakeAll (minimum.nonneg nonneg)
      have value : getMinAccumulator table' p = least := by
        apply IsLeastOrZero.unique _ minimum'
        apply getMinAccumulator_isLeast_all nonneg'
        rw [here]
        exact woken.inactive
      rw [if_pos asleep, value]
      funext q
      by_cases same : q = p
      · subst same
        simp [wakeAll, woken, wokenAt]
      · rw [Function.update_of_ne same, ← current]
        simp [wakeAll, same]
    · rw [if_neg asleep]
      exact skip fun woken => asleep woken.2

theorem wakeup_foldl
    {table : Table n} (nonneg : NonNeg table) {least : Int}
    (minimum : IsLeastOrZero table (fun _ => True) least)
    (chan : Option (Chan n)) (me : Option (Fin n))
    (entries done : List (Fin n)) (distinct : entries.Nodup)
    (apart : ∀ p ∈ entries, p ∉ done) :
    entries.foldl (wakeupStep chan me)
        (wakeAll table least fun q => q ∈ done ∧ Woken table chan me q) =
      wakeAll table least
        fun q => (q ∈ entries ∨ q ∈ done) ∧ Woken table chan me q := by
  induction entries generalizing done with
  | nil =>
      funext q
      simp [wakeAll]
  | cons p rest ih =>
      rcases List.nodup_cons.mp distinct with ⟨notLater, distinctRest⟩
      rw [List.foldl_cons,
        wakeupStep_wakeAll nonneg minimum chan me done
          (apart p List.mem_cons_self),
        ih (p :: done) distinctRest ?_]
      · funext q
        simp only [wakeAll, List.mem_cons]
        congr 1
        simp only [eq_iff_iff]
        tauto
      · intro q later member
        rcases List.mem_cons.mp member with rfl | earlier
        · exact notLater later
        · exact apart q (List.mem_cons_of_mem p later) earlier

/--
`wakeup` makes exactly the processes that sleep on the channel RUNNABLE, all
with the minimum of the processes that were active before.
-/
theorem wakeup_eq_wakeAll
    {table : Table n} (nonneg : NonNeg table) {least : Int}
    (minimum : IsLeastOrZero table (fun _ => True) least)
    (chan : Option (Chan n)) (me : Option (Fin n)) :
    wakeup chan me table = wakeAll table least (Woken table chan me) := by
  have loop := wakeup_foldl nonneg minimum chan me (List.finRange n) []
    (List.nodup_finRange n) (by simp)
  have start : (wakeAll table least
      fun q => q ∈ ([] : List (Fin n)) ∧ Woken table chan me q) = table := by
    funext q
    simp [wakeAll]
  rw [start] at loop
  unfold wakeup
  rw [loop]
  funext q
  simp [wakeAll]

/-- Every table has a minimum. -/
theorem exists_isLeastOrZero (table : Table n) :
    ∃ least, IsLeastOrZero table (fun _ => True) least := by
  by_cases busy : (Finset.univ.filter fun p => (table p).active).Nonempty
  · rcases Finset.exists_min_image _ (fun p => (table p).accumulator)
      busy with ⟨p, member, least⟩
    refine ⟨(table p).accumulator, Or.inl
      ⟨⟨p, trivial, (Finset.mem_filter.mp member).2, rfl⟩, ?_⟩⟩
    intro q _ active
    exact least q (by simpa using active)
  · refine ⟨0, Or.inr ⟨?_, rfl⟩⟩
    intro p _ active
    exact busy ⟨p, by simpa using active⟩

/-- Moving the entries of a table around does not change its minimum. -/
theorem IsLeastOrZero.reorder
    {table : Table n} {least : Int}
    (minimum : IsLeastOrZero table (fun _ => True) least)
    (order : Equiv.Perm (Fin n)) :
    IsLeastOrZero (table ∘ order.symm) (fun _ => True) least := by
  rcases minimum with ⟨⟨p, -, active, value⟩, bound⟩ | ⟨noneActive, zero⟩
  · left
    refine ⟨⟨order p, trivial, ?_, ?_⟩, fun q _ => bound (order.symm q) trivial⟩
    · simpa using active
    · simpa using value
  · right
    exact ⟨fun q _ => noneActive (order.symm q) trivial, zero⟩

theorem woken_reorder
    (table : Table n) (chan : Option (Chan n)) (me : Option (Fin n))
    (order : Equiv.Perm (Fin n)) (p : Fin n) :
    Woken (table ∘ order.symm) chan (me.map order) p ↔
      Woken table chan me (order.symm p) := by
  have same : some p = me.map order ↔ some (order.symm p) = me := by
    cases me with
    | none => simp
    | some q => simp [Equiv.symm_apply_eq]
  simp only [Woken, Function.comp_apply, Ne, same]

/-- `wakeup` treats every entry alike, wherever it stands in the table. -/
theorem wakeup_reorder
    {table : Table n} (nonneg : NonNeg table)
    (chan : Option (Chan n)) (me : Option (Fin n))
    (order : Equiv.Perm (Fin n)) :
    wakeup chan (me.map order) (table ∘ order.symm) =
      wakeup chan me table ∘ order.symm := by
  obtain ⟨least, minimum⟩ := exists_isLeastOrZero table
  have moved : NonNeg (table ∘ order.symm) := fun p => nonneg (order.symm p)
  rw [wakeup_eq_wakeAll moved (minimum.reorder order),
    wakeup_eq_wakeAll nonneg minimum]
  funext p
  simp only [wakeAll, Function.comp_apply, woken_reorder]

/--
`wakeup` in closed form: exactly the other processes that sleep on the channel
become RUNNABLE, all with the minimum over the processes that were active
before the call, and nothing else changes.  The order of the table plays no
part in it.
-/
theorem wakeup_exact
    (table : Table n)
    (chan : Option (Chan n))
    (me : Option (Fin n))
    (nonneg : NonNeg table) :
    (∃ least,
        IsLeastOrZero table (fun _ => True) least ∧
          ∀ p, wakeup chan me table p =
            if some p ≠ me ∧ (table p).state = .sleeping ∧
                (table p).chan = chan then
              { table p with accumulator := least, state := .runnable }
            else table p) ∧
      ∀ order : Equiv.Perm (Fin n),
        wakeup chan (me.map order) (table ∘ order.symm) =
          wakeup chan me table ∘ order.symm := by
  obtain ⟨least, minimum⟩ := exists_isLeastOrZero table
  refine ⟨⟨least, minimum, fun p => ?_⟩, wakeup_reorder nonneg chan me⟩
  rw [wakeup_eq_wakeAll nonneg minimum]
  rfl

/-- The first process runs; the other two sleep on the tick counter. -/
def twoAsleep : Table 3 := fun p =>
  if p.val = 0 then ⟨.running, none, false, 0, 1, none, 7, 5⟩
  else ⟨.sleeping, some .ticks, false, 0, 2, none, 1, 5⟩

theorem wakeup_exact_twoAsleep :
    ∃ least,
      IsLeastOrZero twoAsleep (fun _ => True) least ∧
        ∀ p, wakeup (some .ticks) (some 0) twoAsleep p =
          if some p ≠ some 0 ∧ (twoAsleep p).state = .sleeping ∧
              (twoAsleep p).chan = some .ticks then
            { twoAsleep p with accumulator := least, state := .runnable }
          else twoAsleep p :=
  (wakeup_exact twoAsleep (some .ticks) (some 0) (by unfold NonNeg; decide)).1

/-! ## The scan of the scheduler -/

/-- What the scan knows after the entries `seen`. -/
def ScanSoFar (table : Table n) (seen : Fin n → Prop) :
    Option (Fin n) → Prop
  | none => ∀ p, seen p → (table p).state ≠ .runnable
  | some best =>
      (table best).state = .runnable ∧
        ∀ p, seen p → (table p).state = .runnable →
          (table best).accumulator ≤ (table p).accumulator

theorem scanSoFar_scanStep
    {table : Table n} {seen : Fin n → Prop} {minP : Option (Fin n)}
    (before : ScanSoFar table seen minP) (p : Fin n) :
    ScanSoFar table (fun q => seen q ∨ q = p) (scanStep table minP p) := by
  unfold scanStep
  by_cases runnable : (table p).state = .runnable
  · rw [if_pos runnable]
    cases minP with
    | none =>
        refine ⟨runnable, ?_⟩
        rintro q (seenQ | rfl) runnableQ
        · exact absurd runnableQ (before q seenQ)
        · exact Int.le_refl _
    | some best =>
        rcases before with ⟨runnableBest, least⟩
        dsimp only
        by_cases smaller :
            (table p).accumulator < (table best).accumulator
        · rw [if_pos smaller]
          refine ⟨runnable, ?_⟩
          rintro q (seenQ | rfl) runnableQ
          · have bound := least q seenQ runnableQ
            omega
          · exact Int.le_refl _
        · rw [if_neg smaller]
          refine ⟨runnableBest, ?_⟩
          rintro q (seenQ | rfl) runnableQ
          · exact least q seenQ runnableQ
          · omega
  · rw [if_neg runnable]
    cases minP with
    | none =>
        rintro q (seenQ | rfl)
        · exact before q seenQ
        · exact runnable
    | some best =>
        refine ⟨before.1, ?_⟩
        rintro q (seenQ | rfl) runnableQ
        · exact before.2 q seenQ runnableQ
        · exact absurd runnableQ runnable

theorem scanSoFar_foldl
    {table : Table n} (entries : List (Fin n)) {seen : Fin n → Prop}
    {minP : Option (Fin n)} (before : ScanSoFar table seen minP) :
    ScanSoFar table (fun q => seen q ∨ q ∈ entries)
      (entries.foldl (scanStep table) minP) := by
  induction entries generalizing seen minP with
  | nil => simpa using before
  | cons p rest ih =>
      have after := ih (scanSoFar_scanStep before p)
      simpa [or_assoc] using after

/-- The scan finds a RUNNABLE process with the smallest accumulator, if any. -/
theorem scanSoFar_scan (table : Table n) :
    ScanSoFar table (fun _ => True) (scan table) := by
  have start : ScanSoFar table (fun _ => False) none :=
    fun _ never => never.elim
  simpa [scan] using scanSoFar_foldl (List.finRange n) start

end OSCourse.Scheduling
