import Mathlib.Data.List.Basic
import Mathlib.Data.List.Induction
import Mathlib.Data.List.Nodup

/-!
# Output of several writers

A sequence of items, each with the writer that produced it.  The sequence is
contiguous when each writer's items stand together.  Appending to a contiguous
sequence keeps it contiguous when the writer is new or was the last one to
write.
-/

namespace OSCourse.Library.Blocks

universe u v

variable {Writer : Type u} {Item : Type v}

/-- The items of one writer. -/
def signed (writer : Writer) (items : List Item) : List (Writer × Item) :=
  items.map (Prod.mk writer)

@[simp]
theorem signed_nil (writer : Writer) :
    signed writer ([] : List Item) = [] :=
  rfl

@[simp]
theorem signed_append (writer : Writer) (left right : List Item) :
    signed writer (left ++ right) =
      signed writer left ++ signed writer right :=
  List.map_append

@[simp]
theorem signed_eq_nil {writer : Writer} {items : List Item} :
    signed writer items = [] ↔ items = [] :=
  List.map_eq_nil_iff

section ItemsOf

variable [DecidableEq Writer]

/-- What one writer has written. -/
def itemsOf (writer : Writer) (output : List (Writer × Item)) : List Item :=
  (output.filter fun item => item.1 = writer).map Prod.snd

@[simp]
theorem itemsOf_nil (writer : Writer) :
    itemsOf writer ([] : List (Writer × Item)) = [] :=
  rfl

@[simp]
theorem itemsOf_append (writer : Writer)
    (left right : List (Writer × Item)) :
    itemsOf writer (left ++ right) =
      itemsOf writer left ++ itemsOf writer right := by
  simp [itemsOf]

@[simp]
theorem itemsOf_signed_self (writer : Writer) (items : List Item) :
    itemsOf writer (signed writer items) = items := by
  induction items with
  | nil => rfl
  | cons item rest induction =>
      simp only [signed, itemsOf, List.map_cons, decide_true,
        List.filter_cons_of_pos] at induction ⊢
      rw [induction]

theorem itemsOf_signed_of_ne
    {writer other : Writer} (different : other ≠ writer)
    (items : List Item) :
    itemsOf writer (signed other items) = [] := by
  simp [itemsOf, signed, different]

end ItemsOf

/-! ## Contiguous output -/

/-- A sequence of blocks. -/
def joined (blocks : List (Writer × List Item)) : List (Writer × Item) :=
  blocks.flatMap fun block => signed block.1 block.2

@[simp]
theorem joined_append (left right : List (Writer × List Item)) :
    joined (left ++ right) = joined left ++ joined right := by
  simp [joined]

@[simp]
theorem joined_singleton (block : Writer × List Item) :
    joined [block] = signed block.1 block.2 := by
  simp [joined]

/-- Every writer's items stand together. -/
def Contiguous (output : List (Writer × Item)) : Prop :=
  ∃ blocks : List (Writer × List Item),
    (blocks.map Prod.fst).Nodup ∧ (∀ block ∈ blocks, block.2 ≠ []) ∧
      output = joined blocks

theorem contiguous_nil : Contiguous ([] : List (Writer × Item)) :=
  ⟨[], by simp, by simp, rfl⟩

/-- One writer is never interrupted. -/
theorem contiguous_of_subsingleton [Subsingleton Writer]
    (output : List (Writer × Item)) : Contiguous output := by
  cases output with
  | nil => exact contiguous_nil
  | cons first rest =>
      refine ⟨[(first.1, (first :: rest).map Prod.snd)], by simp, by simp, ?_⟩
      rw [joined_singleton, signed, List.map_map]
      symm
      apply List.map_id''
      intro item
      exact Prod.ext (Subsingleton.elim _ _) rfl

/-- The writer of the last item. -/
def LastWriter (writer : Writer) (output : List (Writer × Item)) : Prop :=
  ∃ before item, output = before ++ [(writer, item)]

theorem lastWriter_append_signed
    (writer : Writer) (output : List (Writer × Item)) {items : List Item}
    (written : items ≠ []) :
    LastWriter writer (output ++ signed writer items) := by
  rcases List.eq_nil_or_concat items with rfl | ⟨front, item, rfl⟩
  · exact absurd rfl written
  · refine ⟨output ++ signed writer front, item, ?_⟩
    simp [signed]

theorem LastWriter.unique
    {writer other : Writer} {output : List (Writer × Item)}
    (left : LastWriter writer output) (right : LastWriter other output) :
    writer = other := by
  rcases left with ⟨before, item, rfl⟩
  rcases right with ⟨before', item', equal⟩
  have last := (List.append_inj' equal rfl).2
  simp only [List.cons.injEq, Prod.mk.injEq, and_true] at last
  exact last.1

/-- The last block of a contiguous output is that of its last writer. -/
theorem Contiguous.last_block
    {writer : Writer} {blocks : List (Writer × List Item)}
    (written : ∀ block ∈ blocks, block.2 ≠ [])
    (last : LastWriter writer (joined blocks)) :
    ∃ front items, blocks = front ++ [(writer, items)] := by
  rcases List.eq_nil_or_concat blocks with rfl | ⟨front, block, rfl⟩
  · rcases last with ⟨before, item, equal⟩
    simp [joined] at equal
  · rw [List.concat_eq_append] at last written ⊢
    have lastBlock : LastWriter block.1 (joined (front ++ [block])) := by
      rw [joined_append, joined_singleton]
      exact lastWriter_append_signed _ _ (written block (by simp))
    refine ⟨front, block.2, ?_⟩
    rw [last.unique lastBlock]

theorem Contiguous.append_last
    {output : List (Writer × Item)} (contiguous : Contiguous output)
    {writer : Writer} (last : LastWriter writer output)
    (items : List Item) :
    Contiguous (output ++ signed writer items) := by
  rcases contiguous with ⟨blocks, apart, written, rfl⟩
  rcases Contiguous.last_block written last with ⟨front, block, rfl⟩
  refine ⟨front ++ [(writer, block ++ items)], ?_, ?_, ?_⟩
  · simpa using apart
  · intro other member
    rcases List.mem_append.mp member with earlier | here
    · exact written other (List.mem_append_left _ earlier)
    · rw [List.mem_singleton.mp here]
      have full := written (writer, block) (by simp)
      simp [full]
  · simp

section Order

variable [DecidableEq Writer]

theorem itemsOf_joined_of_notMem
    {writer : Writer} {blocks : List (Writer × List Item)}
    (absent : writer ∉ blocks.map Prod.fst) :
    itemsOf writer (joined blocks) = [] := by
  induction blocks with
  | nil => rfl
  | cons block rest induction =>
      simp only [List.map_cons, List.mem_cons, not_or] at absent
      rw [← List.singleton_append, joined_append, joined_singleton,
        itemsOf_append, induction absent.2,
        itemsOf_signed_of_ne (Ne.symm absent.1)]
      rfl

theorem itemsOf_joined
    {blocks : List (Writer × List Item)}
    (apart : (blocks.map Prod.fst).Nodup)
    {block : Writer × List Item} (member : block ∈ blocks) :
    itemsOf block.1 (joined blocks) = block.2 := by
  induction blocks with
  | nil => cases member
  | cons first rest induction =>
      rw [List.map_cons, List.nodup_cons] at apart
      rw [← List.singleton_append, joined_append, joined_singleton,
        itemsOf_append]
      rcases List.mem_cons.mp member with rfl | later
      · rw [itemsOf_joined_of_notMem apart.1, itemsOf_signed_self,
          List.append_nil]
      · have different : first.1 ≠ block.1 := by
          intro equal
          exact apart.1 (equal ▸ List.mem_map_of_mem later)
        rw [itemsOf_signed_of_ne different, induction apart.2 later]
        rfl

theorem Contiguous.append_new
    {output : List (Writer × Item)} (contiguous : Contiguous output)
    {writer : Writer} (fresh : itemsOf writer output = [])
    (items : List Item) :
    Contiguous (output ++ signed writer items) := by
  by_cases empty : items = []
  · simpa [empty] using contiguous
  rcases contiguous with ⟨blocks, apart, written, rfl⟩
  have absent : writer ∉ blocks.map Prod.fst := by
    intro present
    rcases List.mem_map.mp present with ⟨block, member, rfl⟩
    exact written block member ((itemsOf_joined apart member).symm.trans fresh)
  refine ⟨blocks ++ [(writer, items)], ?_, ?_, by simp⟩
  · rw [List.map_append, List.nodup_append']
    refine ⟨apart, by simp, ?_⟩
    simpa using absent
  · intro block member
    rcases List.mem_append.mp member with earlier | here
    · exact written block earlier
    · rw [List.mem_singleton.mp here]
      exact empty

/-- A contiguous output is the concatenation of what its writers wrote. -/
theorem Contiguous.order
    {output : List (Writer × Item)} (contiguous : Contiguous output) :
    ∃ order : List Writer, order.Nodup ∧
      (∀ writer, writer ∈ order ↔ itemsOf writer output ≠ []) ∧
      output = order.flatMap fun writer =>
        signed writer (itemsOf writer output) := by
  rcases contiguous with ⟨blocks, apart, written, rfl⟩
  refine ⟨blocks.map Prod.fst, apart, ?_, ?_⟩
  · intro writer
    constructor
    · intro present
      rcases List.mem_map.mp present with ⟨block, member, rfl⟩
      rw [itemsOf_joined apart member]
      exact written block member
    · intro wrote
      by_contra absent
      exact wrote (itemsOf_joined_of_notMem absent)
  · rw [List.flatMap_map]
    apply List.flatMap_congr
    intro block member
    rw [itemsOf_joined apart member]

/-- Without its last item a contiguous output is contiguous, and a writer that
has written and writes again was the last to write. -/
theorem Contiguous.of_append_singleton
    {output : List (Writer × Item)} {writer : Writer} {item : Item}
    (contiguous : Contiguous (output ++ [(writer, item)])) :
    Contiguous output ∧
      (itemsOf writer output = [] ∨ LastWriter writer output) := by
  rcases contiguous with ⟨blocks, apart, written, equal⟩
  have last : LastWriter writer (joined blocks) := ⟨output, item, equal.symm⟩
  rcases Contiguous.last_block written last with ⟨front, items, rfl⟩
  have writtenFront : ∀ block ∈ front, block.2 ≠ [] :=
    fun block member => written block (List.mem_append_left _ member)
  rcases List.eq_nil_or_concat items with rfl | ⟨start, final, rfl⟩
  · exact absurd rfl (written (writer, []) (by simp))
  rw [joined_append, joined_singleton, List.concat_eq_append, signed_append,
    ← List.append_assoc] at equal
  have before := (List.append_inj' equal rfl).1
  rw [List.map_append, List.nodup_append'] at apart
  by_cases started : start = []
  · rw [started, signed_nil, List.append_nil] at before
    rw [before]
    refine ⟨⟨front, apart.1, writtenFront, rfl⟩, .inl ?_⟩
    apply itemsOf_joined_of_notMem
    intro present
    exact apart.2.2 present (by simp)
  · rw [before]
    refine ⟨⟨front ++ [(writer, start)], ?_, ?_, by simp⟩,
      .inr (lastWriter_append_signed _ _ started)⟩
    · rw [List.map_append, List.nodup_append']
      exact apart
    · intro block member
      rcases List.mem_append.mp member with earlier | here
      · exact writtenFront block earlier
      · rw [List.mem_singleton.mp here]
        exact started

theorem Contiguous.of_append
    {output more : List (Writer × Item)}
    (contiguous : Contiguous (output ++ more)) : Contiguous output := by
  induction more using List.reverseRecOn with
  | nil => simpa using contiguous
  | append_singleton front item induction =>
      rw [← List.append_assoc] at contiguous
      exact induction contiguous.of_append_singleton.1

/-- A writer that goes on after another has written tears its block apart. -/
theorem not_contiguous_of_interrupted
    {output : List (Writer × Item)} {writer other : Writer}
    (different : writer ≠ other) (wrote : itemsOf writer output ≠ [])
    {items : List Item} (interrupted : items ≠ [])
    {later : List Item} (resumed : later ≠ []) :
    ¬ Contiguous (output ++ signed other items ++ signed writer later) := by
  intro contiguous
  cases later with
  | nil => exact resumed rfl
  | cons item rest =>
      have split : signed writer (item :: rest) =
          [(writer, item)] ++ signed writer rest := rfl
      rw [split, ← List.append_assoc] at contiguous
      rcases contiguous.of_append.of_append_singleton.2 with fresh | last
      · rw [itemsOf_append, List.append_eq_nil_iff] at fresh
        exact wrote fresh.1
      · exact different
          (last.unique (lastWriter_append_signed other output interrupted))

end Order

end OSCourse.Library.Blocks
