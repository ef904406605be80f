import Mathlib.Data.Set.Finite.Lattice
import Mathlib.Order.Preorder.Finite

/-!
# Waiting for locks

Agents that ask for locks held by other agents.  In a deadlock over totally
ordered locks, two agents of the set are in each other's way: one asks for a
lock of the other, and the other asks for a lock that is not above one that the
first holds.  Where locks are taken in an order there is none.
-/

namespace OSCourse.Library.WaitFor

universe u v

variable {Agent : Type u} {Lock : Type v}

/--
A non-empty set of agents each of which waits for a lock held by another agent
of the set.
-/
def Deadlocked (waits holds : Agent → Lock → Prop) (agents : Set Agent) :
    Prop :=
  agents.Nonempty ∧
    ∀ agent ∈ agents, ∃ lock, waits agent lock ∧
      ∃ other ∈ agents, other ≠ agent ∧ holds other lock

/--
Of the locks held in a deadlock take the greatest.  Its holder and the agent it
waits for are in each other's way.
-/
theorem Deadlocked.exists_mutual [Finite Lock] [LinearOrder Lock]
    {waits holds : Agent → Lock → Prop} {agents : Set Agent}
    (deadlocked : Deadlocked waits holds agents) :
    ∃ first ∈ agents, ∃ second ∈ agents, first ≠ second ∧
      ∃ high low, holds first high ∧ holds second low ∧ waits first low ∧
        ∃ asked ≤ high, waits second asked := by
  rcases deadlocked with ⟨⟨agent, member⟩, blocked⟩
  let held : Set Lock := {lock | ∃ agent ∈ agents, holds agent lock}
  have nonempty : held.Nonempty := by
    rcases blocked agent member with ⟨lock, -, other, memberOther, -, holdsLock⟩
    exact ⟨lock, other, memberOther, holdsLock⟩
  rcases held.toFinite.exists_maximal nonempty with ⟨high, maximal⟩
  rcases maximal.prop with ⟨first, memberFirst, holdsHigh⟩
  rcases blocked first memberFirst with
    ⟨low, waitsLow, second, memberSecond, distinct, holdsLow⟩
  rcases blocked second memberSecond with
    ⟨asked, waitsAsked, third, memberThird, -, holdsAsked⟩
  refine ⟨first, memberFirst, second, memberSecond, distinct.symm, high, low,
    holdsHigh, holdsLow, waitsLow, asked, ?_, waitsAsked⟩
  by_contra above
  exact above (maximal.le_of_ge ⟨third, memberThird, holdsAsked⟩
    (le_of_not_ge above))

/--
There is no deadlock where everybody waits for a lock ranked above all the locks
it holds.
-/
theorem not_deadlocked_of_ranked {waits holds : Agent → Lock → Prop}
    (rank : Lock → Nat) (highest : Nat) (bounded : ∀ lock, rank lock ≤ highest)
    (ordered : ∀ agent asked held, waits agent asked → holds agent held →
      rank held < rank asked)
    (agents : Set Agent) : ¬ Deadlocked waits holds agents := by
  rintro ⟨⟨agent, member⟩, blocked⟩
  -- the locks held in the set have no greatest rank
  have climbs : ∀ level, ∃ agent ∈ agents, ∃ lock, holds agent lock ∧
      level ≤ rank lock := by
    intro level
    induction level with
    | zero =>
        rcases blocked agent member with ⟨lock, -, other, inside, -, held⟩
        exact ⟨other, inside, lock, held, Nat.zero_le _⟩
    | succ level induction =>
        rcases induction with ⟨holder, inside, lock, held, high⟩
        rcases blocked holder inside with
          ⟨asked, waiting, other, insideOther, -, heldOther⟩
        have above := ordered holder asked lock waiting held
        exact ⟨other, insideOther, asked, heldOther,
          Nat.lt_of_le_of_lt high above⟩
  rcases climbs (highest + 1) with ⟨_, _, lock, _, high⟩
  have low := bounded lock
  omega

end OSCourse.Library.WaitFor
