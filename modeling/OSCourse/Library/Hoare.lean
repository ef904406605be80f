import Mathlib.Tactic.Common

/-!
# Hoare triples for programs with state and failure

A program is a state transformer that may stop with an error.  `Triple` is
partial correctness: it speaks of the runs that return.
-/

namespace OSCourse.Library.Hoare

universe u v

variable {σ : Type u} {ε : Type v} {α β : Type u}

/-- From `pre` on, a run that returns ends with `post`. -/
def Triple (pre : σ → Prop) (program : StateT σ (Except ε) α)
    (post : α → σ → Prop) : Prop :=
  ∀ before, pre before → ∀ result after,
    program before = .ok (result, after) → post result after

/-! ## Runs of a sequence -/

theorem bind_eq_ok {first : StateT σ (Except ε) α}
    {second : α → StateT σ (Except ε) β}
    {before after : σ} {result : β} :
    (first >>= second) before = .ok (result, after) ↔
      ∃ value between, first before = .ok (value, between) ∧
        second value between = .ok (result, after) := by
  show (first before >>= fun pair => second pair.1 pair.2) =
      Except.ok (result, after) ↔ _
  cases first before with
  | error error =>
      constructor
      · rintro ⟨⟩
      · rintro ⟨value, between, ⟨⟩, returned⟩
  | ok pair =>
      constructor
      · intro returned
        exact ⟨pair.1, pair.2, rfl, returned⟩
      · rintro ⟨value, between, equal, returned⟩
        cases equal
        exact returned

theorem bind_of_ok {first : StateT σ (Except ε) α}
    {second : α → StateT σ (Except ε) β} {before between : σ} {value : α}
    (returned : first before = .ok (value, between)) :
    (first >>= second) before = second value between := by
  show (first before >>= fun pair => second pair.1 pair.2) = _
  rw [returned]
  rfl

theorem bind_of_error {first : StateT σ (Except ε) α}
    {second : α → StateT σ (Except ε) β} {before : σ} {error : ε}
    (stopped : first before = .error error) :
    (first >>= second) before = .error error := by
  show (first before >>= fun pair => second pair.1 pair.2) = _
  rw [stopped]
  rfl

/-! ## Rules -/

namespace Triple

variable {pre pre' : σ → Prop} {post post' : α → σ → Prop}
  {program : StateT σ (Except ε) α}

theorem consequence (triple : Triple pre program post)
    (stronger : ∀ state, pre' state → pre state)
    (weaker : ∀ result state, post result state → post' result state) :
    Triple pre' program post' := by
  intro before holds result after returned
  exact weaker _ _ (triple before (stronger _ holds) result after returned)

theorem strengthen (triple : Triple pre program post)
    (stronger : ∀ state, pre' state → pre state) :
    Triple pre' program post :=
  triple.consequence stronger (fun _ _ holds => holds)

theorem weaken (triple : Triple pre program post)
    (weaker : ∀ result state, post result state → post' result state) :
    Triple pre program post' :=
  triple.consequence (fun _ holds => holds) weaker

theorem bind {second : α → StateT σ (Except ε) β}
    {last : β → σ → Prop}
    (first : Triple pre program post)
    (rest : ∀ value, Triple (post value) (second value) last) :
    Triple pre (program >>= second) last := by
  intro before holds result after returned
  rcases bind_eq_ok.mp returned with ⟨value, between, run, returned⟩
  exact rest value between (first before holds value between run)
    result after returned

/-- The rule for `pure`. -/
theorem pure {result : α} (holds : ∀ state, pre state → post result state) :
    Triple pre (Pure.pure result : StateT σ (Except ε) α) post := by
  rintro before start value after ⟨⟩
  exact holds before start

/-- `pure` keeps what holds. -/
theorem keep (result : α) :
    Triple pre (Pure.pure result : StateT σ (Except ε) α) (fun _ => pre) :=
  pure (fun _ holds => holds)

theorem throw {error : ε} :
    Triple pre (MonadExcept.throw error : StateT σ (Except ε) α) post := by
  rintro before _ value after ⟨⟩

theorem get {pre : σ → Prop} :
    Triple (ε := ε) pre MonadState.get
      (fun value state => pre state ∧ value = state) := by
  rintro before holds value after ⟨⟩
  exact ⟨holds, rfl⟩

/-- The strongest postcondition of an update of the state. -/
theorem modify {pre : σ → Prop} {change : σ → σ}
    {post : PUnit → σ → Prop}
    (holds : ∀ state, pre state → post ⟨⟩ (change state)) :
    Triple (ε := ε) pre (modify change) post := by
  rintro before start value after ⟨⟩
  exact holds before start

theorem ite {condition : Prop} [Decidable condition]
    {other : StateT σ (Except ε) α}
    (yes : condition → Triple pre program post)
    (no : ¬ condition → Triple pre other post) :
    Triple pre (if condition then program else other) post := by
  split
  · exact yes ‹_›
  · exact no ‹_›

/-- An existential precondition is a parameter of the triple. -/
theorem exists_pre {ι : Sort*} {family : ι → σ → Prop}
    (each : ∀ index, Triple (family index) program post) :
    Triple (fun state => ∃ index, family index state) program post := by
  rintro before ⟨index, holds⟩ result after returned
  exact each index before holds result after returned

/-- A precondition that does not read the state is a hypothesis. -/
theorem and_pre {fact : Prop}
    (under : fact → Triple pre program post) :
    Triple (fun state => pre state ∧ fact) program post := by
  rintro before ⟨holds, known⟩ result after returned
  exact under known before holds result after returned

/-- A triple may be proved for each state on its own. -/
theorem at_state
    (each : ∀ state, pre state →
      Triple (fun current => current = state) program post) :
    Triple pre program post :=
  fun before holds => each before holds before rfl

end Triple

/-! ## Programs on a part of a state -/

/-- Run a program on a part of a larger state. -/
def onPart {τ : Type u} (part : τ → σ) (put : σ → τ → τ)
    (program : StateT σ (Except ε) α) : StateT τ (Except ε) α :=
  fun whole =>
    match program (part whole) with
    | .ok (result, after) => .ok (result, put after whole)
    | .error error => .error error

section Part

variable {τ : Type u} {part : τ → σ} {put : σ → τ → τ}
  {program : StateT σ (Except ε) α}

theorem onPart_eq_ok {before after : τ} {result : α} :
    onPart part put program before = .ok (result, after) ↔
      ∃ between, program (part before) = .ok (result, between) ∧
        put between before = after := by
  unfold onPart
  cases program (part before) with
  | error error => simp
  | ok pair =>
      rcases pair with ⟨value, between⟩
      constructor
      · rintro ⟨⟩
        exact ⟨between, rfl, rfl⟩
      · rintro ⟨_, ⟨⟩, rfl⟩
        rfl

theorem onPart_eq_error {before : τ} {error : ε} :
    onPart part put program before = .error error ↔
      program (part before) = .error error := by
  unfold onPart
  cases program (part before) with
  | error other => simp
  | ok pair => simp

/-- A triple about the part is one about the whole. -/
theorem Triple.onPart {pre : σ → Prop} {post : α → σ → Prop}
    (part_put : ∀ after whole, part (put after whole) = after)
    (triple : Triple pre program post) :
    Triple (fun whole => pre (part whole)) (onPart part put program)
      (fun result whole => post result (part whole)) := by
  intro before holds result after returned
  rcases onPart_eq_ok.mp returned with ⟨between, run, rfl⟩
  rw [part_put]
  exact triple _ holds _ _ run

end Part

end OSCourse.Library.Hoare
