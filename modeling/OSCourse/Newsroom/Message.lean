import Mathlib.Algebra.Ring.Int.Defs
import Mathlib.Data.List.Infix
import Mathlib.Data.Fintype.Basic

/-!
# Messages

The texts that `producer` of `ex3/main.c` formats, and how `dispatcherFunc`
recognises the category of a text.
-/

namespace OSCourse.Newsroom

/-- A C string, without its terminator. -/
abbrev Text := List Char

inductive Category where
  | sports
  | news
  | weather
deriving DecidableEq, Repr

instance : Fintype Category where
  elems := {.sports, .news, .weather}
  complete category := by
    cases category <;> decide

/-- The word of a category in a text. -/
def Category.word : Category → Text
  | .sports => "SPORTS".toList
  | .news => "NEWS".toList
  | .weather => "WEATHER".toList

/-- `FINISH_MSG`. -/
def finishText : Text :=
  "DONE".toList

def maxMsgLen : Nat := 256

/-- The conversion `%d`. -/
def decimal (number : Int) : Text :=
  if number < 0 then
    '-' :: Nat.toDigits 10 number.natAbs
  else
    Nat.toDigits 10 number.natAbs

/-- `snprintf` into a buffer of `length` bytes. -/
def snprintf (length : Nat) (text : Text) : Text :=
  text.take (length - 1)

/-- The text of a message, "producer %d WORD %d". -/
def messageText (id : Int) (category : Category) (number : Nat) : Text :=
  snprintf maxMsgLen
    ("producer ".toList ++ decimal id ++ " ".toList ++ category.word ++
      " ".toList ++ decimal number)

/-- `strstr`, as a test. -/
def strstr (haystack needle : Text) : Bool :=
  needle <:+: haystack

/-- The category in which `dispatcherFunc` files a text. -/
def route (text : Text) : Option Category :=
  if strstr text Category.sports.word then some .sports
  else if strstr text Category.news.word then some .news
  else if strstr text Category.weather.word then some .weather
  else none

/-! ## Routing -/

theorem isDigit_or_minus_of_mem_decimal {number : Int} {c : Char}
    (member : c ∈ decimal number) :
    c.isDigit = true ∨ c = '-' := by
  unfold decimal at member
  split at member
  · rcases List.mem_cons.mp member with minus | digit
    · exact .inr minus
    · exact .inl (Nat.isDigit_of_mem_toDigits (by decide) (by decide) digit)
  · exact .inl (Nat.isDigit_of_mem_toDigits (by decide) (by decide) member)

/-- A decimal number of 32 bits has at most eleven characters. -/
theorem length_decimal_le {number : Int} (low : -2 ^ 31 ≤ number)
    (high : number < 2 ^ 31) :
    (decimal number).length ≤ 11 := by
  have digits : (Nat.toDigits 10 number.natAbs).length ≤ 10 :=
    (Nat.length_toDigits_le_iff (by decide) (by decide)).mpr (by omega)
  unfold decimal
  split
  · rw [List.length_cons]
    omega
  · omega

/-- The text of a message up to its word, and what follows it. -/
theorem messageText_eq {id : Int} (category : Category) (number : Nat)
    (low : -2 ^ 31 ≤ id) (high : id < 2 ^ 31) :
    ∃ rest, messageText id category number =
      ("producer ".toList ++ decimal id ++ " ".toList) ++ category.word ++
        rest := by
  have short := length_decimal_le low high
  have word : category.word.length ≤ 7 := by
    cases category <;> decide
  unfold messageText snprintf
  rw [List.append_assoc _ " ".toList (decimal number), List.take_append]
  refine ⟨_, congrArg (· ++ _) (List.take_of_length_le ?_)⟩
  simp only [List.length_append, maxMsgLen]
  have first : "producer ".toList.length = 9 := rfl
  have blank : " ".toList.length = 1 := rfl
  omega

/-- A letter of a message stands in one of its fixed parts. -/
theorem not_mem_messageText {id : Int} {category : Category} {number : Nat}
    {c : Char} (letter : c.isDigit = false ∧ c ≠ '-')
    (start : c ∉ "producer ".toList) (word : c ∉ category.word) :
    c ∉ messageText id category number := by
  have notDecimal : ∀ number, c ∉ decimal number := by
    intro number member
    rcases isDigit_or_minus_of_mem_decimal member with digit | minus
    · rw [letter.1] at digit
      cases digit
    · exact letter.2 minus
  have notBlank : c ∉ " ".toList := by
    intro blank
    refine start ?_
    rw [show c = ' ' by simpa using blank]
    decide
  intro member
  have parts := List.mem_of_mem_take member
  simp only [List.mem_append] at parts
  have := notDecimal id
  have := notDecimal number
  tauto

theorem strstr_of_not_mem {haystack needle : Text} {c : Char}
    (inNeedle : c ∈ needle) (notIn : c ∉ haystack) :
    strstr haystack needle = false := by
  unfold strstr
  rw [decide_eq_false_iff_not]
  exact fun within => notIn (within.subset inNeedle)

theorem strstr_word {id : Int} (category : Category) (number : Nat)
    (low : -2 ^ 31 ≤ id) (high : id < 2 ^ 31) :
    strstr (messageText id category number) category.word = true := by
  rcases messageText_eq category number low high with ⟨rest, equal⟩
  unfold strstr
  rw [decide_eq_true_iff, equal]
  exact ⟨_, rest, rfl⟩

/-- Every message is filed under its category. -/
theorem route_messageText {id : Int} (category : Category) (number : Nat)
    (low : -2 ^ 31 ≤ id) (high : id < 2 ^ 31) :
    route (messageText id category number) = some category := by
  have found := strstr_word category number low high
  unfold route
  cases category with
  | sports => rw [if_pos found]
  | news =>
      have notSports : strstr (messageText id .news number)
          Category.sports.word = false :=
        strstr_of_not_mem (c := 'P') (by decide)
          (not_mem_messageText (by decide) (by decide) (by decide))
      rw [notSports, if_neg (by decide), if_pos found]
  | weather =>
      have notSports : strstr (messageText id .weather number)
          Category.sports.word = false :=
        strstr_of_not_mem (c := 'P') (by decide)
          (not_mem_messageText (by decide) (by decide) (by decide))
      have notNews : strstr (messageText id .weather number)
          Category.news.word = false :=
        strstr_of_not_mem (c := 'N') (by decide)
          (not_mem_messageText (by decide) (by decide) (by decide))
      rw [notSports, notNews, if_neg (by decide), if_neg (by decide),
        if_pos found]

/-- No message reads as the end mark. -/
theorem messageText_ne_finishText (id : Int) (category : Category)
    (number : Nat) :
    messageText id category number ≠ finishText := by
  intro equal
  have first : (messageText id category number).head? = some 'p' := rfl
  rw [equal] at first
  exact absurd first (by decide)

end OSCourse.Newsroom
