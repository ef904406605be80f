import Mathlib.Data.List.Infix

/-!
# Lines and tokens

A text is cut into lines, which keep the mark that ends them, and a line into
tokens, which lose the marks between them.
-/

namespace OSCourse.Library.Lines

universe u

variable {α : Type u} [DecidableEq α] {mark : α}
  {text line word rest : List α}

/-- The lines of a text; the last one may lack its mark. -/
def lines (mark : α) : List α → List (List α)
  | [] => []
  | c :: rest =>
      if c = mark then [c] :: lines mark rest
      else
        match lines mark rest with
        | [] => [[c]]
        | line :: more => (c :: line) :: more

/-- The next token of a text, and the text after the mark that ends it. -/
def nextToken (mark : α) (text : List α) : Option (List α × List α) :=
  match text.dropWhile (· = mark) with
  | [] => none
  | rest =>
      some (rest.takeWhile (· ≠ mark), (rest.dropWhile (· ≠ mark)).tail)

/-- The token after `count` others. -/
def nthToken (mark : α) : Nat → List α → Option (List α)
  | 0, text => (nextToken mark text).map Prod.fst
  | count + 1, text =>
      (nextToken mark text).bind fun found => nthToken mark count found.2

/-! ## Lines -/

theorem lines_of_not_mem (free : mark ∉ line) (nonempty : line ≠ []) :
    lines mark line = [line] := by
  induction line with
  | nil => exact absurd rfl nonempty
  | cons c rest induction =>
      rcases List.ne_and_not_mem_of_not_mem_cons free with ⟨apart, free⟩
      unfold lines
      rw [if_neg (Ne.symm apart)]
      cases rest with
      | nil => rfl
      | cons next more => rw [induction free (List.cons_ne_nil _ _)]

theorem lines_append_mark (free : mark ∉ line) (rest : List α) :
    lines mark (line ++ mark :: rest) =
      (line ++ [mark]) :: lines mark rest := by
  induction line with
  | nil => simp [lines]
  | cons c more induction =>
      rcases List.ne_and_not_mem_of_not_mem_cons free with ⟨apart, free⟩
      rw [List.cons_append, lines, if_neg (Ne.symm apart), induction free]
      rfl

/-- A line with another line after it ends with its mark. -/
theorem getLast?_of_suffix_lines {after : List (List α)}
    (suffix : line :: after <:+ lines mark text) (more : after ≠ []) :
    line.getLast? = some mark := by
  induction text generalizing line after with
  | nil => simp [lines] at suffix
  | cons c rest induction =>
      unfold lines at suffix
      split at suffix
      · next equal =>
        rcases List.suffix_cons_iff.mp suffix with first | later
        · cases first
          rw [equal]
          rfl
        · exact induction later more
      · split at suffix
        · rcases List.suffix_cons_iff.mp suffix with first | later
          · cases first
            exact absurd rfl more
          · simp at later
        · next next tail cut =>
          rcases List.suffix_cons_iff.mp suffix with first | later
          · cases first
            have ends := induction (by rw [cut]) more
            rw [List.getLast?_cons, ends]
            rfl
          · refine induction ?_ more
            rw [cut]
            exact later.trans (List.suffix_cons _ _)

/-! ## Tokens -/

/-- A word without marks, at the end of the text or before a mark, is a
token. -/
theorem nextToken_append (free : mark ∉ word) (nonempty : word ≠ [])
    (ends : ∀ c ∈ rest.head?, c = mark) :
    nextToken mark (word ++ rest) = some (word, rest.tail) := by
  rcases List.exists_cons_of_ne_nil nonempty with ⟨c, more, rfl⟩
  have inside : ∀ d ∈ c :: more, decide (d ≠ mark) = true := by
    intro d member
    exact decide_eq_true fun equal => free (equal ▸ member)
  have apart : c ≠ mark := of_decide_eq_true (inside c List.mem_cons_self)
  have start : (c :: more ++ rest).dropWhile (· = mark) =
      c :: more ++ rest := by
    simp [apart]
  have taken : rest.takeWhile (· ≠ mark) = [] := by
    cases rest with
    | nil => rfl
    | cons d after => simp [ends d rfl]
  have dropped : rest.dropWhile (· ≠ mark) = rest := by
    cases rest with
    | nil => rfl
    | cons d after => simp [ends d rfl]
  unfold nextToken
  rw [start]
  show some ((c :: more ++ rest).takeWhile (· ≠ mark),
    ((c :: more ++ rest).dropWhile (· ≠ mark)).tail) = _
  rw [List.takeWhile_append_of_pos inside,
    List.dropWhile_append_of_pos inside, taken, dropped, List.append_nil]

/-- A token counts as one of those before the token asked for. -/
theorem nthToken_succ (count : Nat) (free : mark ∉ word)
    (nonempty : word ≠ []) (rest : List α) :
    nthToken mark (count + 1) (word ++ mark :: rest) =
      nthToken mark count rest := by
  have token : nextToken mark (word ++ mark :: rest) = some (word, rest) :=
    nextToken_append free nonempty (fun c member => by simpa using member.symm)
  rw [nthToken, token]
  rfl

theorem nthToken_zero (free : mark ∉ word) (nonempty : word ≠ []) :
    nthToken mark 0 word = some word := by
  have ends : ∀ c ∈ ([] : List α).head?, c = mark := by simp
  have token := nextToken_append free nonempty ends
  rw [List.append_nil] at token
  rw [nthToken, token]
  rfl

end OSCourse.Library.Lines
