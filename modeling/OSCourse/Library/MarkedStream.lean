import Mathlib.Data.List.Basic

/-!
# Streams that end with a mark

A stream passed on through queues whose sender puts a mark behind its last item.
The receiver that takes the mark knows that nothing is left.
-/

namespace OSCourse.Library.MarkedStream

universe u

variable {α : Type u}

/--
What can be under way: items only while the stream is open; items and the mark
once the sender has closed it; nothing once the receiver has seen the mark.
-/
inductive Marked (mark : α) : (closed seen : Bool) → List α → Prop where
  | opened {items : List α} (clean : mark ∉ items) :
      Marked mark false false items
  | closed {items : List α} (clean : mark ∉ items) :
      Marked mark true false (items ++ [mark])
  | drained : Marked mark true true []

variable {mark : α} {closed seen : Bool} {items : List α} {item : α}

theorem Marked.push (stream : Marked mark false seen items)
    (ordinary : item ≠ mark) :
    Marked mark false seen (items ++ [item]) := by
  cases stream with
  | opened clean =>
      apply Marked.opened
      simp [clean, Ne.symm ordinary]

theorem Marked.close (stream : Marked mark false seen items) :
    Marked mark true seen (items ++ [mark]) := by
  cases stream with
  | opened clean => exact .closed clean

theorem Marked.pop (stream : Marked mark closed seen (item :: items))
    (ordinary : item ≠ mark) :
    Marked mark closed seen items := by
  generalize whole : item :: items = list at stream
  cases stream with
  | opened clean =>
      subst whole
      exact .opened fun member => clean (List.mem_cons_of_mem _ member)
  | @closed front clean =>
      cases front with
      | nil =>
          cases whole
          exact absurd rfl ordinary
      | cons first rest =>
          cases whole
          exact .closed fun member => clean (List.mem_cons_of_mem _ member)
  | drained => cases whole

/-- The receiver that takes the mark has taken everything. -/
theorem Marked.popMark (stream : Marked mark closed seen (mark :: items)) :
    closed = true ∧ seen = false ∧ items = [] := by
  generalize whole : mark :: items = list at stream
  cases stream with
  | opened clean =>
      subst whole
      exact absurd List.mem_cons_self clean
  | @closed front clean =>
      cases front with
      | nil =>
          cases whole
          exact ⟨rfl, rfl, rfl⟩
      | cons first rest =>
          cases whole
          exact absurd List.mem_cons_self clean
  | drained => cases whole

theorem Marked.of_seen (stream : Marked mark closed true items) :
    closed = true ∧ items = [] := by
  cases stream
  exact ⟨rfl, rfl⟩

/-- A closed stream with nothing under way has been seen to its end. -/
theorem Marked.seen_of_nil (stream : Marked mark true seen []) :
    seen = true := by
  generalize whole : [] = list at stream
  cases stream with
  | closed clean => simp at whole
  | drained => rfl

end OSCourse.Library.MarkedStream
