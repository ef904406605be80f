import OSCourse.Newsroom.Delivery
import OSCourse.Newsroom.Threads

/-!
# The steps and the operations

A room in which every buffer operation is one step goes along with the
interleaving of the single steps: an operation counts as done once its critical
section is over.  Where `sem_trywait` fails although a message is stored and not
yet announced, the dispatcher just goes on with its scan.
-/

namespace OSCourse.Newsroom

open OSCourse.Library.TransitionSystem

/-! ## The room of a floor -/

/-- The effect of an operation that is over but for its post. -/
def Stage.settle {Place Msg α : Type} (inserted : α → α)
    (removed : Place → Msg → α → α) (state : α) : Stage Place Msg → α
  | .announcing _ => inserted state
  | .freeing place message => removed place message state
  | _ => state

/-- `isDone = 1`, if the mark was seen. -/
def Fields.markDone {Msg : Type} (seen : Bool) (bb : Fields Msg) :
    Fields Msg :=
  if seen then { bb with isDone := true } else bb

variable {n : Nat}

namespace Floor

def producerNow (floor : Floor n) (p : Fin n) : Producer n :=
  (floor.shared.stage (.producer p)).settle Producer.inserted
    (fun _ _ thread => thread) (floor.producers p)

def dispatcherNow (floor : Floor n) : Dispatcher n :=
  (floor.shared.stage .dispatcher).settle Dispatcher.inserted
    (fun _ => Dispatcher.removed) floor.dispatcher

def coEditorNow (floor : Floor n) (category : Category) : CoEditor n :=
  (floor.shared.stage (.coEditor category)).settle CoEditor.inserted
    (fun _ message _ => .inserting message) (floor.coEditors category)

def screenNow (floor : Floor n) : Screen n :=
  (floor.shared.stage .screenManager).settle (fun screen => screen)
    (fun _ => Screen.removed) floor.screen

/-- The dispatcher has taken the end mark out of `place`. -/
def marking (floor : Floor n) (place : Place n) : Bool :=
  (floor.shared.stage .dispatcher).settle (fun seen => seen)
    (fun other message _ => other = place ∧ message.text = finishText) false

def bufNow (floor : Floor n) (place : Place n) : Fields (Msg n) :=
  (floor.shared.settled place).markDone (floor.marking place)

end Floor

/-- The room in which the operations of a floor are done at once. -/
structure Views (floor : Floor n) (room : Room n) : Prop where
  producersBufs : ∀ p,
    (room.producersBufs p).fields = floor.bufNow (.producer p)
  categoryBufs : ∀ category,
    (room.categoryBufs category).fields = floor.bufNow (.category category)
  toScreenBuf : room.toScreenBuf.fields = floor.bufNow .screen
  producers : room.producers = floor.producerNow
  dispatcher : room.dispatcher = floor.dispatcherNow
  coEditors : room.coEditors = floor.coEditorNow
  doneCount : room.doneCount = floor.screenNow.doneCount
  output : room.output = floor.screenNow.output
  generated : room.generated = floor.generated

/-- A thread inside an operation is still at that operation in its code. -/
def Floor.Agrees (config : ConfigData n) (floor : Floor n) (t : Thread n) :
    Prop :=
  match floor.shared.stage t with
  | .outside => True
  | .storing place message =>
      floor.request config t = some (.insert place message)
  | .announcing place =>
      ∃ message, floor.request config t = some (.insert place message)
  | .taking place => floor.request config t = some (.remove place)
  | .freeing place _ => floor.request config t = some (.remove place)

/-- The invariant of the interleaving. -/
structure Tracked (config : ConfigData n) (floor : Floor n) (room : Room n) :
    Prop where
  balanced : ∀ place, floor.shared.Balanced place
  agrees : ∀ t, floor.Agrees config t
  views : Views floor room
  ordered : Ordered config room

variable {config : ConfigData n} {floor next : Floor n} {room : Room n}

/-! ## Steps that are not seen -/

/-- A stage before the critical section of an operation. -/
def Stage.Early {Place Msg : Type} : Stage Place Msg → Prop
  | .announcing _ => False
  | .freeing _ _ => False
  | _ => True

theorem Request.early {Place Msg : Type} (request : Request Place Msg) :
    request.stage.Early := by
  cases request <;> trivial

theorem Stage.settle_early {Place Msg α : Type} {stage : Stage Place Msg}
    (early : stage.Early) (inserted : α → α) (removed : Place → Msg → α → α)
    (state : α) :
    stage.settle inserted removed state = state := by
  cases stage <;> first | rfl | exact early.elim

/-- A thread that moves between early stages has no effect to settle. -/
theorem Stage.settle_update {Thread Place Msg α : Type} [DecidableEq Thread]
    {stage : Thread → Stage Place Msg} {t : Thread} {new : Stage Place Msg}
    (old : (stage t).Early) (early : new.Early) (inserted : α → α)
    (removed : Place → Msg → α → α) (state : α) (other : Thread) :
    (Function.update stage t new other).settle inserted removed state =
      (stage other).settle inserted removed state := by
  by_cases same : other = t
  · subst same
    rw [Function.update_self, Stage.settle_early old, Stage.settle_early early]
  · rw [Function.update_of_ne same]

/-- A floor with the same outcomes is viewed alike. -/
theorem Views.congr (views : Views floor room)
    (bufNow : next.bufNow = floor.bufNow)
    (producerNow : next.producerNow = floor.producerNow)
    (dispatcherNow : next.dispatcherNow = floor.dispatcherNow)
    (coEditorNow : next.coEditorNow = floor.coEditorNow)
    (screenNow : next.screenNow = floor.screenNow)
    (generated : next.generated = floor.generated) :
    Views next room := by
  constructor
  · rw [bufNow]
    exact views.producersBufs
  · rw [bufNow]
    exact views.categoryBufs
  · rw [bufNow]
    exact views.toScreenBuf
  · rw [producerNow, views.producers]
  · rw [dispatcherNow, views.dispatcher]
  · rw [coEditorNow, views.coEditors]
  · rw [screenNow, views.doneCount]
  · rw [screenNow, views.output]
  · rw [generated, views.generated]

/-- The room is the same after a wait. -/
theorem Views.wait {t : Thread n} (views : Views floor room)
    (balanced : ∀ place, floor.shared.Balanced place)
    (taken : floor.wait config t = some next) :
    Views next room := by
  unfold Floor.wait at taken
  split at taken
  · rename_i request outside asked
    rcases Option.map_eq_some_iff.mp taken with ⟨shared, waited, rfl⟩
    have settled := (Shared.wait_balanced outside balanced waited).2
    have stage := Shared.stage_wait waited
    have old : (floor.shared.stage t).Early := by
      rw [outside]
      trivial
    have same : ∀ {α : Type} (inserted : α → α)
        (removed : Place n → Msg n → α → α) (state : α) (other : Thread n),
        (shared.stage other).settle inserted removed state =
          (floor.shared.stage other).settle inserted removed state := by
      intro α inserted removed state other
      rw [stage]
      exact Stage.settle_update old request.early inserted removed state other
    apply views.congr
    · funext place
      simp only [Floor.bufNow, Floor.marking, settled, same]
    · funext p
      exact same _ _ _ _
    · exact same _ _ _ _
    · funext category
      exact same _ _ _ _
    · exact same _ _ _ _
    · rfl
  · cases taken

/-- The floor with the effect of the operation of a thread settled. -/
def Floor.settle (floor : Floor n)
    (shared : Shared (Thread n) (Place n) (Msg n)) : Thread n → Floor n
  | .producer p =>
      { floor with
        shared := shared
        producers := Function.update floor.producers p
          (floor.producerNow p) }
  | .dispatcher =>
      { floor with
        shared :=
          { shared with
            bufs := fun place =>
              (shared.bufs place).markDone (floor.marking place) }
        dispatcher := floor.dispatcherNow }
  | .coEditor category =>
      { floor with
        shared := shared
        coEditors := Function.update floor.coEditors category
          (floor.coEditorNow category) }
  | .screenManager =>
      { floor with shared := shared, screen := floor.screenNow }

theorem Fields.markDone_false {Msg : Type} (bb : Fields Msg) :
    bb.markDone false = bb :=
  rfl

/-- A post settles the operation of its thread. -/
theorem Floor.post_eq_settle {t : Thread n}
    (taken : floor.post t = some next) :
    ∃ shared, floor.shared.post t = some shared ∧
      next = floor.settle shared t := by
  rcases Option.map_eq_some_iff.mp taken with ⟨shared, posted, rfl⟩
  refine ⟨shared, posted, ?_⟩
  unfold Shared.post at posted
  cases stage : floor.shared.stage t with
  | announcing place =>
      cases t with
      | producer p =>
          simp [Floor.inserted, Floor.settle, Floor.producerNow, stage,
            Stage.settle]
      | dispatcher =>
          simp [Floor.inserted, Floor.settle, Floor.dispatcherNow, stage,
            Stage.settle, Floor.marking, Fields.markDone_false]
      | coEditor category =>
          simp [Floor.inserted, Floor.settle, Floor.coEditorNow, stage,
            Stage.settle]
      | screenManager =>
          simp [Floor.inserted, Floor.settle, Floor.screenNow, stage,
            Stage.settle]
  | freeing place message =>
      cases t with
      | producer p =>
          simp [Floor.removed, Floor.settle, Floor.producerNow, stage,
            Stage.settle]
      | dispatcher =>
          simp only [Floor.removed, Floor.settle, Floor.dispatcherNow, stage,
            Stage.settle, Floor.marking]
          split
          · rename_i mark
            simp only [Floor.setDone, Floor.mk.injEq, Shared.mk.injEq,
              and_true]
            funext other
            by_cases same : other = place
            · subst same
              simp [mark, Fields.markDone]
            · simp [same, Ne.symm same, Fields.markDone]
          · rename_i ordinary
            simp [ordinary, Fields.markDone]
      | coEditor category =>
          simp [Floor.removed, Floor.settle, Floor.coEditorNow, stage,
            Stage.settle]
      | screenManager =>
          simp [Floor.removed, Floor.settle, Floor.screenNow, stage,
            Stage.settle]
  | outside =>
      rw [stage] at posted
      cases posted
  | storing place message =>
      rw [stage] at posted
      cases posted
  | taking place =>
      rw [stage] at posted
      cases posted

section Settle

variable {shared : Shared (Thread n) (Place n) (Msg n)} {t : Thread n}

/-- A thread that has posted has nothing to settle. -/
theorem Floor.settle_of_posted {α : Type} (inserted : α → α)
    (removed : Place n → Msg n → α → α) (state : α)
    (posted : floor.shared.post t = some shared) (other : Thread n) :
    (shared.stage other).settle inserted removed state =
      if other = t then state
      else (floor.shared.stage other).settle inserted removed state := by
  rw [Shared.stage_post posted]
  split
  · rename_i same
    rw [same, Function.update_self]
    rfl
  · rename_i apart
    rw [Function.update_of_ne apart]

theorem Floor.producerNow_settle
    (posted : floor.shared.post t = some shared) :
    (floor.settle shared t).producerNow = floor.producerNow := by
  funext q
  cases t with
  | producer p =>
      have now := settle_of_posted Producer.inserted (fun _ _ thread => thread)
        (Function.update floor.producers p (floor.producerNow p) q) posted
        (.producer q)
      refine now.trans ?_
      by_cases same : q = p
      · subst same
        rw [if_pos rfl, Function.update_self]
      · rw [if_neg (by simpa using same), Function.update_of_ne same]
        rfl
  | dispatcher => exact settle_of_posted _ _ _ posted _
  | coEditor category => exact settle_of_posted _ _ _ posted _
  | screenManager => exact settle_of_posted _ _ _ posted _

theorem Floor.coEditorNow_settle
    (posted : floor.shared.post t = some shared) :
    (floor.settle shared t).coEditorNow = floor.coEditorNow := by
  funext other
  cases t with
  | coEditor category =>
      have now := settle_of_posted CoEditor.inserted
        (fun _ message _ => .inserting message)
        (Function.update floor.coEditors category
          (floor.coEditorNow category) other) posted (.coEditor other)
      refine now.trans ?_
      by_cases same : other = category
      · subst same
        rw [if_pos rfl, Function.update_self]
      · rw [if_neg (by simpa using same), Function.update_of_ne same]
        rfl
  | dispatcher => exact settle_of_posted _ _ _ posted _
  | producer p => exact settle_of_posted _ _ _ posted _
  | screenManager => exact settle_of_posted _ _ _ posted _

theorem Floor.dispatcherNow_settle
    (posted : floor.shared.post t = some shared) :
    (floor.settle shared t).dispatcherNow = floor.dispatcherNow := by
  cases t <;> exact settle_of_posted _ _ _ posted _

theorem Floor.screenNow_settle
    (posted : floor.shared.post t = some shared) :
    (floor.settle shared t).screenNow = floor.screenNow := by
  cases t <;> exact settle_of_posted _ _ _ posted _

theorem Floor.settled_markDone (seen : Place n → Bool) (place : Place n) :
    Shared.settled
      { shared with
        bufs := fun other => (shared.bufs other).markDone (seen other) }
      place =
      (shared.settled place).markDone (seen place) := by
  cases mark : seen place <;>
    simp [Shared.settled, Shared.stored, Shared.items, Fields.markDone, mark]

theorem Floor.bufNow_settle
    (balanced : ∀ place, floor.shared.Balanced place)
    (posted : floor.shared.post t = some shared) :
    (floor.settle shared t).bufNow = floor.bufNow := by
  have settled := (Shared.post_balanced balanced posted).2
  funext place
  cases t with
  | dispatcher =>
      have marking : (floor.settle shared .dispatcher).marking place = false :=
        settle_of_posted _ _ _ posted _
      rw [bufNow, marking, Fields.markDone_false, bufNow, ← settled]
      exact settled_markDone floor.marking place
  | producer p =>
      have marking : (floor.settle shared (.producer p)).marking place =
          floor.marking place :=
        settle_of_posted _ _ _ posted _
      rw [bufNow, marking, bufNow, ← settled]
      rfl
  | coEditor category =>
      have marking : (floor.settle shared (.coEditor category)).marking place =
          floor.marking place :=
        settle_of_posted _ _ _ posted _
      rw [bufNow, marking, bufNow, ← settled]
      rfl
  | screenManager =>
      have marking : (floor.settle shared .screenManager).marking place =
          floor.marking place :=
        settle_of_posted _ _ _ posted _
      rw [bufNow, marking, bufNow, ← settled]
      rfl

/-- The room is the same after a post: the effect is already there. -/
theorem Views.post (views : Views floor room)
    (balanced : ∀ place, floor.shared.Balanced place)
    (taken : floor.post t = some next) :
    Views next room := by
  rcases Floor.post_eq_settle taken with ⟨shared, posted, rfl⟩
  apply views.congr
  · exact Floor.bufNow_settle balanced posted
  · exact Floor.producerNow_settle posted
  · exact Floor.dispatcherNow_settle posted
  · exact Floor.coEditorNow_settle posted
  · exact Floor.screenNow_settle posted
  · cases t <;> rfl

end Settle

end OSCourse.Newsroom
