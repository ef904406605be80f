import OSCourse.Newsroom.Teardown
import OSCourse.Newsroom.Work

/-!
# The pipeline is never stuck

From every reachable state the threads can go on until all are finished.  A
thread inside an operation can always finish it.  When all are outside, the
thread next to the screen that has something to do can do it; and when only the
dispatcher and the producers are left, either a producer can go on, or the
dispatcher finds a message in its scan, or all producers are done.
-/

namespace OSCourse.Newsroom

open OSCourse.Library.MarkedStream
open OSCourse.Library.TransitionSystem

variable {n : Nat} {config : ConfigData n} {floor next : Floor n}
variable {room : Room n} {measure : Nat}

/-- Every thread is over, and the last line printed is the end mark. -/
structure Finished (floor : Floor n) : Prop where
  ended : ∀ t, floor.Over t
  printed : floor.screen.output.getLast? = some finishMsg

/-! ## The measure -/

/-- The steps of the operation in which a thread stands. -/
def Stage.effort {Place Msg : Type} : Stage Place Msg → Nat
  | .outside => 2
  | .storing _ _ => 1
  | .taking _ => 1
  | .announcing _ => 3
  | .freeing _ _ => 3

def Floor.effort (floor : Floor n) : Nat :=
  ∑ t, (floor.shared.stage t).effort

/-- A floor that goes along with a room in order, and at most `measure` steps
to go. -/
def Good (config : ConfigData n) (measure : Nat) (floor : Floor n) : Prop :=
  ∃ room, Tracked config floor room ∧
    4 * room.work config + floor.effort ≤ measure

/-- A run to a floor with fewer steps to go. -/
def Progress (config : ConfigData n) (measure : Nat) (floor : Floor n) :
    Prop :=
  ∃ smaller < measure, ∃ last, (floorSystem config).Leads floor last ∧
    Good config smaller last

theorem Floor.effort_update (floor next : Floor n) {t : Thread n}
    {new : Stage (Place n) (Msg n)}
    (stage : next.shared.stage = Function.update floor.shared.stage t new) :
    next.effort + (floor.shared.stage t).effort =
      floor.effort + new.effort := by
  unfold Floor.effort
  rw [stage]
  exact sum_update_add Stage.effort floor.shared.stage t new

/-! ## Single steps -/

/-- One step that lowers the measure. -/
theorem Tracked.progress (tick : Tick n) {after : Room n}
    (taken : floor.exec config tick = some next)
    (kept : Tracked config next after)
    (less : 4 * after.work config + next.effort < measure) :
    Progress config measure floor :=
  ⟨_, less, next, System.Leads.single taken, after, kept, le_rfl⟩

theorem Good.wait {t : Thread n} (good : Good config measure floor)
    (taken : floor.wait config t = some next) :
    Progress config measure floor := by
  rcases good with ⟨room, tracked, bound⟩
  have less : next.effort + 1 = floor.effort := by
    have waited := taken
    unfold Floor.wait at waited
    split at waited
    · rename_i request outside asked
      rcases Option.map_eq_some_iff.mp waited with ⟨shared, permitted, rfl⟩
      have changed := Floor.effort_update floor { floor with shared := shared }
        (Shared.stage_wait permitted)
      have one : request.stage.effort = 1 := by
        cases request <;> rfl
      rw [outside, one] at changed
      simp only [Stage.effort] at changed
      omega
    · cases waited
  refine Tracked.progress (.wait t) taken (tracked.wait taken) ?_
  omega

theorem Good.post {t : Thread n} (good : Good config measure floor)
    (taken : floor.post t = some next) :
    Progress config measure floor := by
  rcases good with ⟨room, tracked, bound⟩
  have less : next.effort + 1 = floor.effort := by
    rcases Floor.post_eq_settle taken with ⟨shared, posted, rfl⟩
    have stage : (floor.settle shared t).shared.stage =
        Function.update floor.shared.stage t .outside := by
      rw [← Shared.stage_post posted]
      cases t <;> rfl
    have changed := Floor.effort_update floor (floor.settle shared t) stage
    have three : (floor.shared.stage t).effort = 3 := by
      unfold Shared.post at posted
      split at posted
      · rename_i announcing
        rw [announcing]
        rfl
      · rename_i freeing
        rw [freeing]
        rfl
      · cases posted
    rw [three] at changed
    simp only [Stage.effort] at changed
    omega
  refine Tracked.progress (.post t) taken (tracked.post taken) ?_
  omega

/-- A critical section lowers the work of the room. -/
theorem Tracked.work_enter {t : Thread n} {after : Room n}
    (tracked : Tracked config floor room)
    (taken : floor.enter t = some next)
    (done : exec config room t.label = some after) :
    after.work config < room.work config := by
  cases t with
  | producer p => exact work_produce tracked.ordered done
  | coEditor category => exact work_edit done
  | screenManager => exact work_print done
  | dispatcher =>
      have code : room.dispatcher = floor.dispatcher := by
        rw [tracked.views.dispatcher, Floor.dispatcherNow]
        unfold Floor.enter at taken
        split at taken
        · rename_i storing
          rw [storing]
          rfl
        · rename_i taking
          rw [taking]
          rfl
        · cases taken
      refine work_dispatch ?_ ?_ done
      · intro i all checking
        rw [code] at checking
        rcases Floor.enter_eq_some (tracked.agrees .dispatcher) taken with
          ⟨_, _, _, asked, _⟩ | ⟨_, _, asked, _⟩
        · simp only [Floor.request, checking] at asked
          cases asked
        · simp only [Floor.request, checking] at asked
          cases asked
      · intro i polling
        rw [code] at polling
        rcases Floor.enter_eq_some (tracked.agrees .dispatcher) taken with
          ⟨_, _, _, asked, _⟩ | ⟨place, taking, asked, _⟩
        · simp only [Floor.request, polling] at asked
          cases asked
        · simp only [Floor.request, polling] at asked
          cases asked
          intro empty
          have positive := Shared.stored_pos taking
          have none := tracked.views.stored_eq_zero (.producer i) empty
          omega

theorem Good.enter {t : Thread n} (good : Good config measure floor)
    (taken : floor.enter t = some next) :
    Progress config measure floor := by
  rcases good with ⟨room, tracked, bound⟩
  rcases tracked.enter taken with ⟨after, done, kept⟩
  have work := tracked.work_enter taken done
  have more : next.effort = floor.effort + 2 := by
    rcases Floor.enter_eq_some (tracked.agrees t) taken with
      ⟨place, message, storing, -, rfl⟩ | ⟨place, taking, -, rfl⟩
    · have changed := Floor.effort_update floor
        { floor with shared := floor.shared.store t place message } rfl
      rw [storing] at changed
      simp only [Stage.effort] at changed
      omega
    · have changed := Floor.effort_update floor
        { floor with shared := (floor.shared.take t place).2 } rfl
      rw [taking] at changed
      simp only [Stage.effort] at changed
      omega
  refine Tracked.progress (.enter t) taken kept ?_
  omega

theorem Good.generate {p : Fin n} {category : Category}
    (good : Good config measure floor)
    (taken : floor.generate config p category = some next) :
    Progress config measure floor := by
  rcases good with ⟨room, tracked, bound⟩
  rcases tracked.generate taken with ⟨after, done, kept⟩
  have work := work_generate done
  have same : next.effort = floor.effort := by
    have formatted := taken
    simp only [Floor.generate] at formatted
    split at formatted
    · cases formatted
      rfl
    · cases formatted
  refine Tracked.progress (.generate p category) taken kept ?_
  omega

/-! ## The scan of the dispatcher -/

/-- Steps of the dispatcher between two operations. -/
def Scans : Floor n → Floor n → Prop :=
  Relation.ReflTransGen fun floor next =>
    floor.check = some next ∨ floor.refuse = some next

theorem Scans.leads (config : ConfigData n) (scans : Scans floor next) :
    (floorSystem config).Leads floor next := by
  refine scans.lift id ?_
  rintro floor next (checked | refused)
  · exact ⟨.check, checked⟩
  · exact ⟨.refuse, refused⟩

/-- The dispatcher goes on with its scan; the measure does not rise. -/
theorem Tracked.good_scan {dispatcher : Dispatcher n}
    (tracked : Tracked config floor room)
    (bound : 4 * room.work config + floor.effort ≤ measure)
    (outside : floor.shared.stage .dispatcher = .outside)
    (ordered : Ordered config { room with dispatcher := dispatcher })
    (less : dispatcher.work ≤ floor.dispatcher.work) :
    Good config measure { floor with dispatcher := dispatcher } := by
  have code : room.dispatcher = floor.dispatcher := by
    rw [tracked.views.dispatcher, Floor.dispatcherNow, outside]
    rfl
  refine ⟨_, tracked.scan outside ordered, ?_⟩
  rw [← code] at less
  have work := work_scan config less
  have effort : Floor.effort { floor with dispatcher := dispatcher } =
      floor.effort := rfl
  omega

/-- The end of the scans is the only check that lowers the work. -/
theorem Floor.work_check (taken : floor.check = some next) :
    next.dispatcher.work ≤ floor.dispatcher.work := by
  unfold Floor.check at taken
  split at taken
  · rename_i i all outside checking
    rw [checking]
    split at taken
    · dsimp only at taken
      split at taken
      · cases taken
        simp [Dispatcher.work]
      · cases taken
        simp [Dispatcher.work]
    · split at taken
      · cases taken
        simp [Dispatcher.work]
      · cases taken
        simp [Dispatcher.work]
  · cases taken

theorem Good.check (good : Good config measure floor)
    (taken : floor.check = some next) :
    Good config measure next := by
  rcases good with ⟨room, tracked, bound⟩
  have less := Floor.work_check taken
  rcases tracked.views.check config taken with ⟨dispatcher, outside, rfl, done⟩
  exact tracked.good_scan bound outside (tracked.ordered.step done) less

theorem Good.refuse (good : Good config measure floor)
    (taken : floor.refuse = some next) :
    Good config measure next := by
  rcases good with ⟨room, tracked, bound⟩
  rcases tracked.refuse taken with ⟨i, outside, polling, rfl, ordered⟩
  refine tracked.good_scan bound outside ordered ?_
  rw [polling]
  simp [Dispatcher.work]

theorem Good.scans (good : Good config measure floor)
    (scans : Scans floor next) : Good config measure next := by
  induction scans with
  | refl => exact good
  | tail _ taken induction =>
      rcases taken with checked | refused
      · exact induction.check checked
      · exact induction.refuse refused

section Scan

variable (outside : floor.shared.stage .dispatcher = .outside)

/-- The floor with the dispatcher at another place of its scan. -/
def Floor.scanning (floor : Floor n) (dispatcher : Dispatcher n) : Floor n :=
  { floor with dispatcher := dispatcher }

/-- The dispatcher passes over the buffer of a producer. -/
def Floor.Done (floor : Floor n) (p : Fin n) : Prop :=
  (floor.shared.bufs (.producer p)).isDone = true ∧
    (floor.shared.bufs (.producer p)).isBufferEmpty = true

include outside

theorem Floor.check_done {i : Nat} {all : Bool} (inside : i < n)
    (done : floor.Done ⟨i, inside⟩) :
    (floor.scanning (.checking i all)).check =
      some (floor.scanning (.checking (i + 1) all)) := by
  simp only [Floor.check, Floor.scanning, outside, dif_pos inside]
  exact if_pos done

theorem Floor.check_active {i : Nat} {all : Bool} (inside : i < n)
    (active : ¬ floor.Done ⟨i, inside⟩) :
    (floor.scanning (.checking i all)).check =
      some (floor.scanning (.polling ⟨i, inside⟩)) := by
  simp only [Floor.check, Floor.scanning, outside, dif_pos inside]
  exact if_neg active

theorem Floor.check_end {i : Nat} (all : Bool) (ended : n ≤ i) :
    (floor.scanning (.checking i all)).check =
      some (floor.scanning
        (if all then .finishing .sports else .checking 0 true)) := by
  simp only [Floor.check, Floor.scanning, outside,
    dif_neg (Nat.not_lt.mpr ended)]
  cases all <;> rfl

theorem Floor.refuse_empty {i : Fin n}
    (empty : (floor.shared.bufs (.producer i)).readSemaphore = 0) :
    (floor.scanning (.polling i)).refuse =
      some (floor.scanning (.checking (i + 1) false)) := by
  simp only [Floor.refuse, Floor.scanning, outside]
  exact if_pos empty

/-- A scan either finds a message, or ends without one. -/
theorem Floor.scans_from (left i : Nat) (all : Bool) (near : n ≤ i + left) :
    (∃ p : Fin n, (floor.shared.bufs (.producer p)).readSemaphore ≠ 0 ∧
        Scans (floor.scanning (.checking i all))
          (floor.scanning (.polling p))) ∨
      ∃ j last, n ≤ j ∧
        Scans (floor.scanning (.checking i all))
          (floor.scanning (.checking j last)) ∧
        (∀ p : Fin n, i ≤ p → floor.Done p ∨
          (floor.shared.bufs (.producer p)).readSemaphore = 0) ∧
        ((∀ p, floor.Done p) → last = all) := by
  induction left generalizing i all with
  | zero =>
      refine .inr ⟨i, all, near, .refl, ?_, fun _ => rfl⟩
      intro p beyond
      omega
  | succ left induction =>
      by_cases inside : i < n
      · have later : ∀ p : Fin n, i ≤ p →
            p = ⟨i, inside⟩ ∨ i + 1 ≤ p := by
          intro p beyond
          rcases Nat.eq_or_lt_of_le beyond with same | more
          · exact .inl (Fin.ext same.symm)
          · exact .inr more
        by_cases done : floor.Done ⟨i, inside⟩
        · have step : Scans (floor.scanning (.checking i all))
              (floor.scanning (.checking (i + 1) all)) :=
            .single (.inl (check_done outside inside done))
          rcases induction (i + 1) all (by omega) with
            ⟨p, present, scans⟩ | ⟨j, last, ended, scans, passed, same⟩
          · exact .inl ⟨p, present, step.trans scans⟩
          · refine .inr ⟨j, last, ended, step.trans scans, ?_, same⟩
            intro p beyond
            rcases later p beyond with rfl | more
            · exact .inl done
            · exact passed p more
        · have poll : Scans (floor.scanning (.checking i all))
              (floor.scanning (.polling ⟨i, inside⟩)) :=
            .single (.inl (check_active outside inside done))
          by_cases empty : (floor.shared.bufs
              (.producer ⟨i, inside⟩)).readSemaphore = 0
          · have step := poll.tail (.inr (refuse_empty outside empty))
            rcases induction (i + 1) false (by omega) with
              ⟨p, present, scans⟩ | ⟨j, last, ended, scans, passed, -⟩
            · exact .inl ⟨p, present, step.trans scans⟩
            · refine .inr ⟨j, last, ended, step.trans scans, ?_, ?_⟩
              · intro p beyond
                rcases later p beyond with rfl | more
                · exact .inr empty
                · exact passed p more
              · exact fun every => absurd (every _) done
          · exact .inl ⟨⟨i, inside⟩, empty, poll⟩
      · refine .inr ⟨i, all, by omega, .refl, ?_, fun _ => rfl⟩
        intro p beyond
        omega

/-- Two scans find a message if there is one that counts, and end all scans if
every producer is done. -/
theorem Floor.scans_reach
    (decided : (∃ p, ¬ floor.Done p ∧
        (floor.shared.bufs (.producer p)).readSemaphore ≠ 0) ∨
      ∀ p, floor.Done p) (i : Nat) (all : Bool) :
    (∃ p : Fin n, (floor.shared.bufs (.producer p)).readSemaphore ≠ 0 ∧
        Scans (floor.scanning (.checking i all))
          (floor.scanning (.polling p))) ∨
      Scans (floor.scanning (.checking i all))
        (floor.scanning (.finishing .sports)) := by
  rcases scans_from outside n i all (by omega) with
    found | ⟨j, last, ended, scans, -, -⟩
  · exact .inl found
  · cases last with
    | true => exact .inr (scans.tail (.inl (check_end outside true ended)))
    | false =>
        have again := scans.tail (.inl (check_end outside false ended))
        rcases scans_from outside n 0 true (by omega) with
          ⟨p, present, more⟩ | ⟨j', last, ended, more, passed, same⟩
        · exact .inl ⟨p, present, again.trans more⟩
        · rcases decided with ⟨p, active, present⟩ | every
          · rcases passed p (Nat.zero_le _) with done | empty
            · exact absurd done active
            · exact absurd empty present
          · rw [same every] at more
            refine .inr ((again.trans more).tail (.inl ?_))
            exact check_end outside true ended

end Scan

/-! ## When every thread is outside -/

section Calm

variable (tracked : Tracked config floor room)
variable (calm : ∀ t, floor.shared.stage t = .outside)
include calm

theorem Floor.stored_calm (place : Place n) :
    floor.shared.stored place = (floor.shared.bufs place).readSemaphore := by
  have items : floor.shared.items place = 0 := by
    refine Finset.sum_eq_zero fun t _ => ?_
    rw [calm t]
    rfl
  rw [Shared.stored, items, Nat.add_zero]

include tracked

/-- The semaphores count the cells when no thread is inside. -/
theorem Tracked.semaphores_calm (place : Place n) :
    (floor.shared.bufs place).readSemaphore +
        (floor.shared.bufs place).writeSemaphore =
      (floor.shared.bufs place).size ∧
      0 < (floor.shared.bufs place).size := by
  have balanced := tracked.balanced place
  have rooms : floor.shared.rooms place = 0 := by
    refine Finset.sum_eq_zero fun t _ => ?_
    rw [calm t]
    rfl
  have semaphores := balanced.semaphores
  rw [Floor.stored_calm calm, rooms] at semaphores
  exact ⟨by omega, Nat.zero_lt_of_lt balanced.head⟩

theorem Tracked.read_eq_zero_iff (place : Place n) :
    (floor.shared.bufs place).readSemaphore = 0 ↔
      (room.bufAt place).contents = [] := by
  rw [BoundedBuffer.contents, tracked.views.bufAt, Floor.bufNow,
    Fields.contents_markDone, Fields.contents_eq_nil_iff]
  exact (Floor.stored_calm calm place).symm ▸ Iff.rfl

theorem Tracked.producers_calm : room.producers = floor.producers := by
  rw [tracked.views.producers]
  funext p
  rw [Floor.producerNow, calm]
  rfl

theorem Tracked.dispatcher_calm : room.dispatcher = floor.dispatcher := by
  rw [tracked.views.dispatcher, Floor.dispatcherNow, calm]
  rfl

theorem Tracked.coEditors_calm : room.coEditors = floor.coEditors := by
  rw [tracked.views.coEditors]
  funext category
  rw [Floor.coEditorNow, calm]
  rfl

theorem Tracked.screen_calm :
    room.doneCount = floor.screen.doneCount ∧
      room.output = floor.screen.output := by
  rw [tracked.views.doneCount, tracked.views.output, Floor.screenNow, calm]
  exact ⟨rfl, rfl⟩

end Calm

/-- A thread can start an insertion where there is a free cell. -/
theorem Good.insert {t : Thread n} {place : Place n} {message : Msg n}
    (good : Good config measure floor)
    (outside : floor.shared.stage t = .outside)
    (asked : floor.request config t = some (.insert place message))
    (free : (floor.shared.bufs place).writeSemaphore ≠ 0) :
    Progress config measure floor := by
  have waited : ∃ next, floor.wait config t = some next := by
    simp only [Floor.wait, outside, asked, Shared.wait, Fields.waitWrite,
      if_neg free, Option.map_some]
    exact ⟨_, rfl⟩
  rcases waited with ⟨next, taken⟩
  exact good.wait taken

theorem Good.remove {t : Thread n} {place : Place n}
    (good : Good config measure floor)
    (outside : floor.shared.stage t = .outside)
    (asked : floor.request config t = some (.remove place))
    (present : (floor.shared.bufs place).readSemaphore ≠ 0) :
    Progress config measure floor := by
  have waited : ∃ next, floor.wait config t = some next := by
    simp only [Floor.wait, outside, asked, Shared.wait, Fields.waitRead,
      if_neg present, Option.map_some]
    exact ⟨_, rfl⟩
  rcases waited with ⟨next, taken⟩
  exact good.wait taken

/-! ### Who can go on -/

section Moves

variable (good : Good config measure floor)
variable (tracked : Tracked config floor room)
variable (calm : ∀ t, floor.shared.stage t = .outside)
include good tracked calm

/-- A message for the screen is taken. -/
theorem Tracked.screen_moves (present : room.toScreenBuf.contents ≠ []) :
    Progress config measure floor := by
  have looping : floor.screen.doneCount ≠ 3 := by
    intro third
    rw [← (tracked.screen_calm calm).1] at third
    exact present (tracked.ordered.drained third).toScreen
  refine good.remove (calm .screenManager) (if_neg looping) ?_
  intro empty
  exact present ((tracked.read_eq_zero_iff calm .screen).mp empty)

/-- A co-editor hands its message on to an empty buffer. -/
theorem Tracked.coEditor_hands {category : Category} {message : Msg n}
    (empty : room.toScreenBuf.contents = [])
    (inserting : floor.coEditors category = .inserting message) :
    Progress config measure floor := by
  have read := (tracked.read_eq_zero_iff calm .screen).mpr empty
  have semaphores := tracked.semaphores_calm calm .screen
  have asked : floor.request config (.coEditor category) =
      some (.insert .screen message) := by
    simp only [Floor.request, inserting, CoEditor.request]
  refine good.insert (calm (.coEditor category)) asked ?_
  omega

/-- A co-editor that holds nothing takes a message from its buffer. -/
theorem Tracked.coEditor_takes {category : Category}
    (idle : ∀ message, floor.coEditors category ≠ .inserting message)
    (present : (room.categoryBufs category).contents ≠ []) :
    Progress config measure floor := by
  have removing : floor.coEditors category = .removing := by
    cases editor : floor.coEditors category with
    | removing => rfl
    | inserting message => exact absurd editor (idle message)
    | exited =>
        have ok := tracked.ordered.categories category
        rw [tracked.coEditors_calm calm, editor] at ok
        exact absurd ok.drained.2.1 present
  have asked : floor.request config (.coEditor category) =
      some (.remove (.category category)) := by
    simp only [Floor.request, removing, CoEditor.request]
  refine good.remove (calm (.coEditor category)) asked ?_
  intro empty
  exact present
    ((tracked.read_eq_zero_iff calm (.category category)).mp empty)

/-- The dispatcher puts a message into an empty buffer. -/
theorem Tracked.dispatcher_puts {category : Category} {message : Msg n}
    (asked : floor.dispatcher.request =
      some (.insert (.category category) message))
    (empty : (room.categoryBufs category).contents = []) :
    Progress config measure floor := by
  have read :=
    (tracked.read_eq_zero_iff calm (.category category)).mpr empty
  have semaphores := tracked.semaphores_calm calm (.category category)
  refine good.insert (calm .dispatcher) asked ?_
  omega

omit tracked in
/-- A producer that is not held up by its buffer goes on. -/
theorem Good.producer_moves {p : Fin n}
    (working : (floor.producers p).pc ≠ .exited)
    (free : (floor.shared.bufs (.producer p)).writeSemaphore ≠ 0) :
    Progress config measure floor := by
  cases pc : (floor.producers p).pc with
  | exited => exact absurd pc working
  | inserting message =>
      have asked : floor.request config (.producer p) =
          some (.insert (.producer p) message) := by
        simp only [Floor.request, Producer.request, pc]
      exact good.insert (calm (.producer p)) asked free
  | looping =>
      by_cases more :
          (floor.producers p).i < (config.producersInfo p).numOfMessages
      · have formatted : ∃ next, floor.generate config p .news = some next :=
          ⟨_, if_pos ⟨pc, more, calm (.producer p)⟩⟩
        rcases formatted with ⟨next, taken⟩
        exact good.generate taken
      · have asked : floor.request config (.producer p) =
            some (.insert (.producer p) finishMsg) := by
          simp only [Floor.request, Producer.request, pc, if_neg more]
        exact good.insert (calm (.producer p)) asked free

end Moves

/-- A scan before a run makes a longer run. -/
theorem Scans.progress {middle : Floor n} (scans : Scans floor middle)
    (progress : Progress config measure middle) :
    Progress config measure floor := by
  rcases progress with ⟨smaller, less, last, leads, kept⟩
  exact ⟨smaller, less, last, (scans.leads config).trans leads, kept⟩

section Decided

variable (tracked : Tracked config floor room)
variable (calm : ∀ t, floor.shared.stage t = .outside)
include tracked calm

theorem Tracked.isDone_calm (p : Fin n) :
    (room.producersBufs p).isDone =
      (floor.shared.bufs (.producer p)).isDone := by
  rw [BoundedBuffer.isDone, tracked.views.producersBufs,
    Views.bufNow_outside (calm .dispatcher)]
  rfl

/-- A producer that has exited and whose buffer is empty is done. -/
theorem Tracked.done_of_exited {p : Fin n}
    (exited : (floor.producers p).pc = .exited)
    (empty : (floor.shared.bufs (.producer p)).readSemaphore = 0) :
    floor.Done p := by
  have contents : (room.producersBufs p).contents = [] :=
    (tracked.read_eq_zero_iff calm (.producer p)).mp empty
  have ok := tracked.ordered.producers p
  have stream := ok.stream
  rw [tracked.producers_calm calm] at stream
  simp only [contents, exited, Producer.pending, List.append_nil,
    decide_true] at stream
  constructor
  · rw [← tracked.isDone_calm calm]
    exact stream.seen_of_nil
  · have balanced := tracked.balanced (.producer p)
    have tail := balanced.tail
    rw [Floor.stored_calm calm, empty, Nat.add_zero,
      Nat.mod_eq_of_lt balanced.head] at tail
    simp [Fields.isBufferEmpty, tail]

/-- Where no producer can go on, a scan is decided. -/
theorem Tracked.decided
    (stopped : ∀ p, (floor.producers p).pc = .exited ∨
      (floor.shared.bufs (.producer p)).writeSemaphore = 0) :
    (∃ p, ¬ floor.Done p ∧
        (floor.shared.bufs (.producer p)).readSemaphore ≠ 0) ∨
      ∀ p, floor.Done p := by
  by_cases some : ∃ p : Fin n,
      (floor.shared.bufs (.producer p)).readSemaphore ≠ 0
  · rcases some with ⟨p, present⟩
    refine .inl ⟨p, ?_, present⟩
    intro done
    have isDone := done.1
    rw [← tracked.isDone_calm calm] at isDone
    have drained := (tracked.ordered.producers p).drained isDone
    exact present
      ((tracked.read_eq_zero_iff calm (.producer p)).mpr drained.2.1)
  · refine .inr fun p => ?_
    have empty : (floor.shared.bufs (.producer p)).readSemaphore = 0 :=
      not_not.mp fun present => some ⟨p, present⟩
    have semaphores := tracked.semaphores_calm calm (.producer p)
    rcases stopped p with exited | full
    · exact tracked.done_of_exited calm exited empty
    · omega

/-- The dispatcher has put its end marks, and they have all been printed. -/
theorem Tracked.finished
    (screen : room.toScreenBuf.contents = [])
    (idle : ∀ category message,
      floor.coEditors category ≠ .inserting message)
    (categories : ∀ category, (room.categoryBufs category).contents = [])
    (returned : floor.dispatcher = .returned) :
    Finished floor := by
  have code : room.dispatcher = .returned := by
    rw [tracked.dispatcher_calm calm, returned]
  have exited : ∀ category, room.coEditors category = .exited := by
    intro category
    have ok := (tracked.ordered.categories category).stream
    have held : (room.coEditors category).held = [] := by
      rw [tracked.coEditors_calm calm]
      cases editor : floor.coEditors category with
      | inserting message => exact absurd editor (idle category message)
      | removing => rfl
      | exited => rfl
    rw [held, categories category, code] at ok
    exact of_decide_eq_true ok.seen_of_nil
  have third : room.doneCount = 3 := by
    have marks := tracked.ordered.screen.marks
    rw [screen, exitedCount_eq] at marks
    simpa [exited] using marks
  have drained := tracked.ordered.drained third
  have screens := tracked.screen_calm calm
  constructor
  · intro t
    refine ⟨calm t, ?_⟩
    cases t with
    | producer p =>
        show (floor.producers p).pc = .exited
        rw [← tracked.producers_calm calm]
        exact drained.producers p
    | dispatcher => exact returned
    | coEditor category =>
        show floor.coEditors category = .exited
        rw [← tracked.coEditors_calm calm]
        exact exited category
    | screenManager =>
        show floor.screen.doneCount = 3
        rw [← screens.1]
        exact third
  · rcases tracked.ordered.screen.printed with ⟨lines, printed, -⟩
    rw [if_pos third] at printed
    rw [← screens.2, printed, List.getLast?_concat]

end Decided

/-- The dispatcher ends its scans, with a message or with its end marks. -/
theorem Good.dispatcher_scans (good : Good config measure floor)
    (calm : ∀ t, floor.shared.stage t = .outside)
    (categories : ∀ category,
      (floor.shared.bufs (.category category)).readSemaphore = 0)
    (decided : (∃ p, ¬ floor.Done p ∧
        (floor.shared.bufs (.producer p)).readSemaphore ≠ 0) ∨
      ∀ p, floor.Done p) {i : Nat} {all : Bool}
    (scans : Scans floor (floor.scanning (.checking i all))) :
    Progress config measure floor := by
  rcases Floor.scans_reach (calm .dispatcher) decided i all with
    ⟨p, present, more⟩ | more
  · have reached : Scans floor (floor.scanning (.polling p)) :=
      scans.trans more
    have asked : (floor.scanning (.polling p)).request config .dispatcher =
        some (.remove (.producer p)) := rfl
    exact reached.progress
      ((good.scans reached).remove (calm .dispatcher) asked present)
  · have reached : Scans floor (floor.scanning (.finishing .sports)) :=
      scans.trans more
    rcases good.scans reached with ⟨room, tracked, bound⟩
    refine reached.progress ?_
    refine Tracked.dispatcher_puts ⟨room, tracked, bound⟩ tracked calm rfl ?_
    exact (tracked.read_eq_zero_iff calm (.category .sports)).mp
      (categories .sports)

/-- Where every thread is outside, all are over or the run goes on. -/
theorem Good.calm_progress (good : Good config measure floor)
    (calm : ∀ t, floor.shared.stage t = .outside) :
    Finished floor ∨ Progress config measure floor := by
  rcases good with ⟨room, tracked, bound⟩
  have good : Good config measure floor := ⟨room, tracked, bound⟩
  by_cases screen : room.toScreenBuf.contents = []
  case neg => exact .inr (tracked.screen_moves good calm screen)
  by_cases idle : ∀ category message,
      floor.coEditors category ≠ .inserting message
  case neg =>
    simp only [not_forall, not_not] at idle
    rcases idle with ⟨category, message, inserting⟩
    exact .inr (tracked.coEditor_hands good calm screen inserting)
  by_cases categories : ∀ category,
      (room.categoryBufs category).contents = []
  case neg =>
    rcases not_forall.mp categories with ⟨category, present⟩
    exact .inr (tracked.coEditor_takes good calm (idle category) present)
  by_cases working : ∃ p, (floor.producers p).pc ≠ .exited ∧
      (floor.shared.bufs (.producer p)).writeSemaphore ≠ 0
  case pos =>
    rcases working with ⟨p, busy, free⟩
    exact .inr (good.producer_moves calm busy free)
  have stopped : ∀ p, (floor.producers p).pc = .exited ∨
      (floor.shared.bufs (.producer p)).writeSemaphore = 0 := by
    intro p
    by_contra both
    exact working ⟨p, not_or.mp both⟩
  have decided := tracked.decided calm stopped
  have empty : ∀ category,
      (floor.shared.bufs (.category category)).readSemaphore = 0 :=
    fun category => (tracked.read_eq_zero_iff calm (.category category)).mpr
      (categories category)
  cases code : floor.dispatcher with
  | returned =>
      exact .inl (tracked.finished calm screen idle categories code)
  | forwarding category message i =>
      have asked : floor.dispatcher.request =
          some (.insert (.category category) message) := by
        rw [code]
        rfl
      exact .inr
        (tracked.dispatcher_puts good calm asked (categories category))
  | finishing category =>
      have asked : floor.dispatcher.request =
          some (.insert (.category category) finishMsg) := by
        rw [code]
        rfl
      exact .inr
        (tracked.dispatcher_puts good calm asked (categories category))
  | checking i all =>
      have here : Scans floor (floor.scanning (.checking i all)) := by
        rw [Floor.scanning, ← code]
        exact .refl
      exact .inr (good.dispatcher_scans calm empty decided here)
  | polling i =>
      by_cases present :
          (floor.shared.bufs (.producer i)).readSemaphore = 0
      · have refused := Floor.refuse_empty (calm .dispatcher) present
        rw [Floor.scanning, ← code] at refused
        exact .inr (good.dispatcher_scans calm empty decided
          (.single (.inr refused)))
      · refine .inr (good.remove (calm .dispatcher) ?_ present)
        simp only [Floor.request, code, Dispatcher.request]

/-! ## The law -/

theorem Good.progress (good : Good config measure floor) :
    Finished floor ∨ Progress config measure floor := by
  by_cases calm : ∀ t, floor.shared.stage t = .outside
  · exact good.calm_progress calm
  · rcases not_forall.mp calm with ⟨t, inside⟩
    right
    cases stage : floor.shared.stage t with
    | outside => exact absurd stage inside
    | storing place message =>
        have entered : ∃ next, floor.enter t = some next := by
          simp only [Floor.enter, stage]
          exact ⟨_, rfl⟩
        rcases entered with ⟨next, taken⟩
        exact good.enter taken
    | taking place =>
        have entered : ∃ next, floor.enter t = some next := by
          simp only [Floor.enter, stage]
          exact ⟨_, rfl⟩
        rcases entered with ⟨next, taken⟩
        exact good.enter taken
    | announcing place =>
        have posted : ∃ next, floor.post t = some next := by
          simp only [Floor.post, Shared.post, stage, Option.map_some]
          exact ⟨_, rfl⟩
        rcases posted with ⟨next, taken⟩
        exact good.post taken
    | freeing place message =>
        have posted : ∃ next, floor.post t = some next := by
          simp only [Floor.post, Shared.post, stage, Option.map_some]
          exact ⟨_, rfl⟩
        rcases posted with ⟨next, taken⟩
        exact good.post taken

/--
From every reachable state there is a finite run that ends with every thread
finished and the end mark printed last.
-/
theorem newsroom_can_finish (config : ConfigData n) (floor : Floor n)
    (reached : (floorSystem config).Reachable floor) :
    ∃ last, (floorSystem config).Leads floor last ∧ Finished last := by
  rcases tracked_of_reachable reached with ⟨room, tracked⟩
  have good : Good config (4 * room.work config + floor.effort) floor :=
    ⟨room, tracked, le_rfl⟩
  exact System.leads_of_measure (Good config)
    (fun _ _ good => good.progress) good

/-- The floor that `main` starts can finish. -/
theorem newsroom_can_finish_oneMessage :
    ∃ last, (floorSystem oneMessage).Leads
      (.launch oneMessage fun _ => finishMsg) last ∧ Finished last :=
  newsroom_can_finish oneMessage _ (.start ⟨_, rfl⟩)

end OSCourse.Newsroom
