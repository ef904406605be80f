import OSCourse.Semaphore.Sem

/-!
# The locks of the semaphores

Which locks a process holds at each point of the system calls, and what a step
of another process can therefore not do.
-/

namespace OSCourse.Semaphore

open OSCourse.Library.LockProgram
open OSCourse.Library.TransitionSystem

variable {m n : Nat}

/-- The locks that process `p` holds. -/
def Pc.locks (p : Fin n) : Pc m n → List (Lock m n)
  | .createScan _ _ => [.array]
  | .createValue _ _ => [.array]
  | .createInit _ _ => [.array]
  | .createReturn _ => [.array]
  | .freeCheck _ => [.array]
  | .freeAcquireSem _ => [.array]
  | .freeTest id => [.sem id, .array]
  | .freeReleaseSem id _ => [.sem id, .array]
  | .freeReturn _ _ => [.array]
  | .downCheck id => [.sem id]
  | .downTest id => [.sem id]
  | .sleepAcquire id => [.sem id]
  | .sleepRelease id => [.proc p, .sem id]
  | .sleepMark _ => [.proc p]
  | .sleepSched _ => [.proc p]
  | .sleepTidy _ => [.proc p]
  | .downDecrement id => [.sem id]
  | .downReturn id _ => [.sem id]
  | .upCheck id => [.sem id]
  | .upIncrement id => [.sem id]
  | .wakeup id _ => [.sem id]
  | .wakeupLocked id q => [.proc q, .sem id]
  | .upReturn id _ => [.sem id]
  | .killLocked _ q => [.proc q]
  | _ => []

theorem Pc.locks_acquired
    {p : Fin n} {shared : Shared m n} {pc : Pc m n} {lock : Lock m n}
    (asks : pc.asks p shared = some lock) :
    (pc.acquired lock).locks p = lock :: pc.locks p := by
  cases pc with
  | asleep id =>
      have mine : Lock.proc p = lock := by
        simp only [Pc.asks] at asks
        split at asks
        · exact Option.some.inj asks
        · cases asks
      rw [← mine]
      rfl
  | wakeup id next =>
      rcases Option.map_eq_some_iff.mp asks with ⟨q, -, rfl⟩
      rfl
  | kill pid next =>
      rcases Option.map_eq_some_iff.mp asks with ⟨q, -, rfl⟩
      rfl
  | _ =>
      cases asks <;> rfl

theorem Pc.locks_body
    {p : Fin n} {shared : Shared m n} {pc : Pc m n}
    {effect : Effect (Shared m n) (Lock m n) (Pc m n)} :
    pc.body p shared = some effect →
      (effect.pc.locks p).Nodup ∧
        (∀ lock, lock ∈ effect.pc.locks p ↔
          lock ∈ pc.locks p ∧ effect.released ≠ some lock) ∧
        ∀ lock, effect.released = some lock → lock ∈ pc.locks p := by
  fun_cases Pc.body p shared pc <;> rintro ⟨⟩ <;>
    simp only [Pc.locks, List.mem_cons, List.not_mem_nil, or_false] <;>
    grind

/-- The places where a system call can start. -/
inductive Entry : Pc m n → Prop where
  | outside : Entry .outside
  | create (initValue : Int) : Entry (.createAcquire initValue)
  | free (id : Fin m) : Entry (.freeAcquire id)
  | down (id : Fin m) : Entry (.downAcquire id)
  | up (id : Fin m) : Entry (.upAcquire id)
  | kill (pid : Int) : Entry (.kill pid 0)

theorem Call.isEntry (routine : Call) : Entry (routine.entry : Pc m n) := by
  cases routine with
  | semCreate initValue => exact .create initValue
  | kill pid => exact .kill pid
  | semFree id =>
      simp only [Call.entry]
      cases slotAt id with
      | none => exact .outside
      | some slot => exact .free slot
  | semDown id =>
      simp only [Call.entry]
      cases slotAt id with
      | none => exact .outside
      | some slot => exact .down slot
  | semUp id =>
      simp only [Call.entry]
      cases slotAt id with
      | none => exact .outside
      | some slot => exact .up slot

theorem Entry.locks {pc : Pc m n} (entry : Entry pc) (p : Fin n) :
    pc.locks p = [] := by
  cases entry <;> rfl

/-- The holders of the locks are those the program counters say. -/
theorem tracks_semProgram : (semProgram m n).Tracks Pc.locks where
  outside _ := rfl
  enter p routine := routine.isEntry.locks p
  acquired := Pc.locks_acquired
  body _ _ ran := Pc.locks_body ran

/-- Two processes that hold one lock are the same. -/
abbrev Owned (state : SemState m n) : Prop :=
  Program.Owned Pc.locks state

theorem owned_of_reachable
    {state : SemState m n} (reached : (semSystem m n).Reachable state) :
    Owned state :=
  Program.owned_of_reachable tracks_semProgram reached

/-! ## Steps -/

/-- A step that changes no field: a system call starts, or acquires a lock. -/
inductive Advance (p : Fin n) (shared : Shared m n) (pc : Pc m n) :
    Move Call Unit → Pc m n → Prop where
  | call (routine : Call) (idle : pc = .outside) :
      Advance p shared pc (.call routine) routine.entry
  | acquire (choice : Unit) (lock : Lock m n)
      (asks : pc.asks p shared = some lock) :
      Advance p shared pc (.go choice) (pc.acquired lock)

/-- A step of a process changes no field, or runs code between acquires. -/
inductive SemStep (state : SemState m n) :
    SemLabel n → SemState m n → Prop where
  | advance (p : Fin n) (move : Move Call Unit) (pc : Pc m n)
      (owner : Lock m n → Option (Fin n))
      (moves : Advance p state.shared (state.pc p) move pc) :
      SemStep state (p, move)
        ⟨state.shared, owner, Function.update state.pc p pc⟩
  | body (p : Fin n) (choice : Unit)
      (effect : Effect (Shared m n) (Lock m n) (Pc m n))
      (asks : (state.pc p).asks p state.shared = none)
      (ran : (state.pc p).body p state.shared = some effect) :
      SemStep state (p, .go choice) (Program.apply state p effect)

theorem semStep_of_exec
    {state next : SemState m n} {label : SemLabel n}
    (taken : (semProgram m n).exec state label = some next) :
    SemStep state label next := by
  cases Program.step_of_exec taken with
  | call p routine idle => exact .advance p _ _ _ (.call routine idle)
  | acquire p choice lock asks free =>
      exact .advance p _ _ _ (.acquire choice lock asks)
  | body p choice effect asks ran => exact .body p choice effect asks ran

end OSCourse.Semaphore
