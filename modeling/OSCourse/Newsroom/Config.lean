import Mathlib.Algebra.Ring.Nat
import OSCourse.Library.Lines
import OSCourse.Newsroom.Message

/-!
# The configuration file

Embedding of `parseConfigFile` of `ex3/main.c`.  The first loop counts the
producers, the second one fills their array; `none` is a run that does not
return, because `atoi` was given a null pointer or because of `stray`.

At the end of the file `getline` stores -1 in `read`, so that `line[read - 1]`
lies before the buffer.  What the program does then is not defined: `stray`
gives the text that the buffer holds afterwards, or `none` if it stops.

Memory does not run out, and the counters are not bounded.
-/

namespace OSCourse.Newsroom.Config

open OSCourse.Library.Lines

/-! ## The C library -/

/-- A buffer as a C string, up to the first terminator. -/
def cString (buffer : Text) : Text :=
  buffer.takeWhile (· ≠ '\x00')

/-- The token that `strtok(line, " ")` returns after `count` other calls. -/
def strtok (count : Nat) (line : Text) : Option Text :=
  nthToken ' ' count line

/-- `isspace`. -/
def isspace (c : Char) : Bool :=
  c = ' ' || (9 ≤ c.toNat && c.toNat ≤ 13)

/-- An optional sign: is it a minus, and what follows. -/
def sign : Text → Bool × Text
  | '-' :: rest => (true, rest)
  | '+' :: rest => (false, rest)
  | rest => (false, rest)

/-- `atoi`: `strtol` keeps to the range of a `long`, of which an `int`
takes the low bits. -/
def atoi (text : Text) : Int :=
  let (negative, rest) := sign (text.dropWhile isspace)
  let value : Int := Nat.ofDigitChars 10 (rest.takeWhile Char.isDigit) 0
  let long :=
    if negative then max (-2 ^ 63) (-value) else min (2 ^ 63 - 1) value
  long.bmod (2 ^ 32)

/-! ## The parser -/

/-- `struct SizeAndMessages`, with any values. -/
structure SizeAndMessages where
  producerId : Int
  numOfMessages : Int
  queueSize : Int
deriving DecidableEq, Repr

/-- `struct ConfigData`; `producersInfo` lists the records written, in the
order of their indices. -/
structure ConfigData where
  numOfProducers : Nat
  producersInfo : List SizeAndMessages
  coEditorQueueSize : Int
deriving DecidableEq, Repr

def producerWord : Text :=
  "PRODUCER".toList

def coEditorWord : Text :=
  "Co-Editor".toList

/-- The first loop removes the last character if it is a newline. -/
def chomp (line : Text) : Text :=
  if line.getLast? = some '\n' then line.dropLast else line

/-- The first loop counts the line of a producer. -/
def countProducer (data : ConfigData) (text : Text) : ConfigData :=
  if strstr text producerWord then
    { data with numOfProducers := data.numOfProducers + 1 }
  else data

/-- The first loop reads the queue size of the co-editors. -/
def readCoEditor (data : ConfigData) (text : Text) : Option ConfigData :=
  if strstr text coEditorWord then do
    let token ← strtok 4 text
    some { data with coEditorQueueSize := atoi token }
  else some data

/-- The first loop, on one line. -/
def countLine (data : ConfigData) (line : Text) : Option ConfigData :=
  if line.length ≤ 1 then some data
  else
    let text := cString (chomp line)
    readCoEditor (countProducer data text) text

/-- The first loop. -/
def countLines (data : ConfigData) (lines : List Text) : Option ConfigData :=
  lines.foldlM countLine data

/-- The record of a line with PRODUCER and of the two lines read after it. -/
def readRecord (line messages size : Text) : Option SizeAndMessages := do
  let id ← strtok 1 (cString line)
  let queueSize ← strtok 3 (cString size)
  some ⟨atoi id, atoi (cString messages), atoi queueSize⟩

/-- The second loop; of a line it removes the last character, whatever that
is. -/
def fillRecords (stray : Text → Option Text) :
    List Text → Option (List SizeAndMessages)
  | [] => some []
  | line :: rest =>
      if line.length ≤ 1 then fillRecords stray rest
      else if strstr (cString line.dropLast) producerWord = false then
        fillRecords stray rest
      else
        match rest with
        | messages :: size :: more => do
            let record ←
              readRecord line.dropLast messages.dropLast size.dropLast
            let records ← fillRecords stray more
            some (record :: records)
        | [messages] => do
            let size ← stray messages.dropLast
            let record ← readRecord line.dropLast messages.dropLast size
            some [record]
        | [] => do
            let messages ← stray line.dropLast
            let size ← stray messages
            let record ← readRecord line.dropLast messages size
            some [record]

/-- `parseConfigFile`, with the content of the file. -/
def parseConfigFile (stray : Text → Option Text) (content : Text)
    (data : ConfigData) : Option ConfigData := do
  let counted ← countLines data (lines '\n' content)
  let records ← fillRecords stray (lines '\n' content)
  some { counted with producersInfo := records }

/-- The call of `main`, which sets the number of producers to zero before. -/
def mainConfig (stray : Text → Option Text) (content : Text)
    (data : ConfigData) : Option ConfigData :=
  parseConfigFile stray content { data with numOfProducers := 0 }

/-! ## The two loops on one line -/

/-- The first loop takes the line for that of a producer. -/
def mentionsProducer (line : Text) : Bool :=
  strstr (cString (chomp line)) producerWord

theorem strstr_mono {part whole word : Text} (within : part <:+: whole)
    (found : strstr part word = true) : strstr whole word = true :=
  decide_eq_true ((of_decide_eq_true found).trans within)

theorem cString_begins {part whole : Text} (begins : part <+: whole) :
    cString part <+: cString whole := by
  rcases begins with ⟨rest, rfl⟩
  unfold cString
  rw [List.takeWhile_append]
  split
  · exact (List.takeWhile_prefix _).trans (List.prefix_append _ _)
  · exact List.prefix_rfl

theorem dropLast_prefix_chomp (line : Text) : line.dropLast <+: chomp line := by
  unfold chomp
  split
  · exact List.prefix_rfl
  · exact List.dropLast_prefix line

/-- What the second loop takes for the line of a producer has been counted. -/
theorem mentionsProducer_of_dropLast {line : Text}
    (found : strstr (cString line.dropLast) producerWord = true) :
    mentionsProducer line = true :=
  strstr_mono (cString_begins (dropLast_prefix_chomp line)).isInfix found

/-- The line of a producer is not skipped as an empty one. -/
theorem length_of_mentionsProducer {line : Text}
    (mentions : mentionsProducer line = true) : 1 < line.length := by
  have word : producerWord.length ≤ (cString (chomp line)).length :=
    (of_decide_eq_true mentions).length_le
  have cut : (cString (chomp line)).length ≤ (chomp line).length :=
    (List.takeWhile_sublist _).length_le
  have chomped : (chomp line).length ≤ line.length := by
    unfold chomp
    split
    · exact (List.dropLast_sublist line).length_le
    · exact le_rfl
  have eight : producerWord.length = 8 := rfl
  omega

/-! ## The count -/

theorem readCoEditor_count {data next : ConfigData} {text : Text}
    (read : readCoEditor data text = some next) :
    next.numOfProducers = data.numOfProducers := by
  unfold readCoEditor at read
  split at read
  · rcases Option.bind_eq_some_iff.mp read with ⟨token, _, ⟨⟩⟩
    rfl
  · cases read
    rfl

theorem countLine_count {data next : ConfigData} {line : Text}
    (counted : countLine data line = some next) :
    next.numOfProducers =
      data.numOfProducers + if mentionsProducer line then 1 else 0 := by
  unfold countLine at counted
  split at counted
  · next short =>
    cases counted
    rw [if_neg fun mentions =>
      absurd (length_of_mentionsProducer mentions) (by omega)]
    rfl
  · rw [readCoEditor_count counted]
    unfold countProducer mentionsProducer
    split <;> rfl

theorem countLines_count {data next : ConfigData} {texts : List Text}
    (counted : countLines data texts = some next) :
    next.numOfProducers =
      data.numOfProducers + texts.countP mentionsProducer := by
  induction texts generalizing data with
  | nil =>
      cases counted
      rfl
  | cons line rest induction =>
      unfold countLines at counted
      rw [List.foldlM_cons] at counted
      rcases Option.bind_eq_some_iff.mp counted with ⟨middle, one, more⟩
      rw [induction more, countLine_count one, List.countP_cons]
      omega

/-! ## The records -/

/-- Every line with PRODUCER has two lines after it, and those are not lines
with PRODUCER. -/
def Spaced (texts : List Text) : Prop :=
  ∀ line after, line :: after <:+ texts → mentionsProducer line = true →
    ∃ messages size more, after = messages :: size :: more ∧
      mentionsProducer messages = false ∧ mentionsProducer size = false

/-- Every line but the last ends with a newline. -/
def Terminated (texts : List Text) : Prop :=
  ∀ line after, line :: after <:+ texts → after ≠ [] →
    line.getLast? = some '\n'

theorem Spaced.of_suffix {texts more : List Text} (spaced : Spaced texts)
    (suffix : more <:+ texts) : Spaced more :=
  fun line after inside => spaced line after (inside.trans suffix)

theorem Terminated.of_suffix {texts more : List Text}
    (terminated : Terminated texts) (suffix : more <:+ texts) :
    Terminated more :=
  fun line after inside => terminated line after (inside.trans suffix)

theorem terminated_lines (content : Text) :
    Terminated (lines '\n' content) :=
  fun _ _ suffix more => getLast?_of_suffix_lines suffix more

section Filling

variable {stray : Text → Option Text} {texts : List Text}
  {records : List SizeAndMessages}

/-- The second loop writes at most the records that the first one counted. -/
theorem fillRecords_length_le
    (filled : fillRecords stray texts = some records) :
    records.length ≤ texts.countP mentionsProducer := by
  fun_induction fillRecords stray texts generalizing records with
  | case1 =>
      cases filled
      exact le_rfl
  | case2 line rest short induction =>
      exact (induction filled).trans (List.suffix_cons _ _).countP_le
  | case3 line rest long other induction =>
      exact (induction filled).trans (List.suffix_cons _ _).countP_le
  | case4 line long found messages size more induction =>
      rcases Option.bind_eq_some_iff.mp filled with ⟨record, _, filled⟩
      rcases Option.bind_eq_some_iff.mp filled with ⟨others, run, ⟨⟩⟩
      have counted := mentionsProducer_of_dropLast (by simpa using found)
      have skipped : more.countP mentionsProducer ≤
          (messages :: size :: more).countP mentionsProducer :=
        (List.suffix_append [messages, size] more).countP_le
      have bound := induction run
      rw [List.countP_cons_of_pos counted, List.length_cons]
      omega
  | case5 line long found messages =>
      rcases Option.bind_eq_some_iff.mp filled with ⟨size, _, filled⟩
      rcases Option.bind_eq_some_iff.mp filled with ⟨record, _, ⟨⟩⟩
      have counted := mentionsProducer_of_dropLast (by simpa using found)
      rw [List.countP_cons_of_pos counted]
      simp
  | case6 line long found =>
      rcases Option.bind_eq_some_iff.mp filled with ⟨messages, _, filled⟩
      rcases Option.bind_eq_some_iff.mp filled with ⟨size, _, filled⟩
      rcases Option.bind_eq_some_iff.mp filled with ⟨record, _, ⟨⟩⟩
      have counted := mentionsProducer_of_dropLast (by simpa using found)
      rw [List.countP_cons_of_pos counted]
      simp

/-- A line that the second loop passes over was not counted either. -/
theorem not_mentions_of_skipped {line : Text} {rest : List Text}
    (spaced : Spaced (line :: rest)) (terminated : Terminated (line :: rest))
    (skipped : strstr (cString line.dropLast) producerWord = false) :
    mentionsProducer line = false := by
  rw [Bool.eq_false_iff]
  intro mentions
  rcases spaced line rest List.suffix_rfl mentions with
    ⟨messages, size, more, rfl, _⟩
  have ends := terminated line _ List.suffix_rfl (List.cons_ne_nil _ _)
  unfold mentionsProducer chomp at mentions
  rw [if_pos ends, skipped] at mentions
  cases mentions

/-- In a well spaced file the second loop writes all the records counted. -/
theorem fillRecords_length_eq (spaced : Spaced texts)
    (terminated : Terminated texts)
    (filled : fillRecords stray texts = some records) :
    records.length = texts.countP mentionsProducer := by
  have closed : ∀ {line rest}, Spaced (line :: rest) →
      strstr (cString line.dropLast) producerWord = true →
        ∃ messages size more, rest = messages :: size :: more ∧
          mentionsProducer messages = false ∧
          mentionsProducer size = false :=
    fun spaced found => spaced _ _ List.suffix_rfl
      (mentionsProducer_of_dropLast found)
  fun_induction fillRecords stray texts generalizing records with
  | case1 =>
      cases filled
      rfl
  | case2 line rest short induction =>
      have later : rest <:+ line :: rest := List.suffix_cons _ _
      rw [List.countP_cons_of_neg fun mentions =>
        absurd (length_of_mentionsProducer mentions) (by omega)]
      exact induction (spaced.of_suffix later) (terminated.of_suffix later)
        filled
  | case3 line rest long other induction =>
      have later : rest <:+ line :: rest := List.suffix_cons _ _
      rw [List.countP_cons_of_neg
        (by simp [not_mentions_of_skipped spaced terminated other])]
      exact induction (spaced.of_suffix later) (terminated.of_suffix later)
        filled
  | case4 line long found messages size more induction =>
      rcases Option.bind_eq_some_iff.mp filled with ⟨record, _, filled⟩
      rcases Option.bind_eq_some_iff.mp filled with ⟨others, run, ⟨⟩⟩
      have later : more <:+ line :: messages :: size :: more :=
        List.suffix_append [line, messages, size] more
      have counted := mentionsProducer_of_dropLast (by simpa using found)
      rcases closed spaced (by simpa using found) with
        ⟨_, _, _, ⟨⟩, noMessages, noSize⟩
      rw [List.countP_cons_of_pos counted,
        List.countP_cons_of_neg (by simp [noMessages]),
        List.countP_cons_of_neg (by simp [noSize]), List.length_cons,
        induction (spaced.of_suffix later) (terminated.of_suffix later) run]
  | case5 line long found messages =>
      rcases closed spaced (by simpa using found) with
        ⟨_, _, _, equal, _⟩
      cases equal
  | case6 line long found =>
      rcases closed spaced (by simpa using found) with
        ⟨_, _, _, equal, _⟩
      cases equal

end Filling

/--
For every content of the file on which the parser returns: the second loop
writes at most as many records as the first one counted, so none is outside of
the array; and if every line with PRODUCER has two lines after it that are not
lines with PRODUCER, it writes them all, so `main` reads no other records.
-/
theorem records_within_count
    (stray : Text → Option Text)
    (content : Text)
    (data parsed : ConfigData)
    (returned : mainConfig stray content data = some parsed) :
    parsed.producersInfo.length ≤ parsed.numOfProducers ∧
      (Spaced (lines '\n' content) →
        parsed.producersInfo.length = parsed.numOfProducers ∧
          ∀ i < parsed.numOfProducers, ∃ record,
            parsed.producersInfo[i]? = some record) := by
  rcases Option.bind_eq_some_iff.mp returned with ⟨counted, count, run⟩
  rcases Option.bind_eq_some_iff.mp run with ⟨records, filled, ⟨⟩⟩
  have number := countLines_count count
  rw [Nat.zero_add] at number
  constructor
  · show records.length ≤ counted.numOfProducers
    rw [number]
    exact fillRecords_length_le filled
  · intro spaced
    have all : records.length = counted.numOfProducers := by
      rw [number]
      exact fillRecords_length_eq spaced (terminated_lines content) filled
    refine ⟨all, fun i bound => ?_⟩
    exact ⟨_, List.getElem?_eq_getElem (all.symm ▸ bound)⟩

/-- The file of one producer. -/
def oneProducer : Text :=
  "PRODUCER 1\n4\nqueue size = 7\n".toList

theorem spaced_oneProducer : Spaced (lines '\n' oneProducer) := by
  have cut : lines '\n' oneProducer =
      ["PRODUCER 1\n".toList, "4\n".toList, "queue size = 7\n".toList] := by
    decide +kernel
  have messages : mentionsProducer "4\n".toList = false := by
    decide +kernel
  have size : mentionsProducer "queue size = 7\n".toList = false := by
    decide +kernel
  rw [cut]
  intro line after suffix mentions
  rcases List.suffix_cons_iff.mp suffix with first | suffix
  · cases first
    exact ⟨_, _, [], rfl, messages, size⟩
  rcases List.suffix_cons_iff.mp suffix with second | suffix
  · cases second
    rw [messages] at mentions
    cases mentions
  rcases List.suffix_cons_iff.mp suffix with third | suffix
  · cases third
    rw [size] at mentions
    cases mentions
  · cases List.suffix_nil.mp suffix

/-- The record of the producer is written, and it is the one that is read. -/
theorem records_within_count_oneProducer :
    ∃ parsed, mainConfig (fun _ => none) oneProducer ⟨0, [], 0⟩ =
        some parsed ∧
      parsed.producersInfo.length ≤ parsed.numOfProducers ∧
      parsed.producersInfo.length = parsed.numOfProducers := by
  have returned : mainConfig (fun _ => none) oneProducer ⟨0, [], 0⟩ =
      some ⟨1, [⟨1, 4, 7⟩], 0⟩ := by
    decide +kernel
  have fits := records_within_count _ oneProducer _ _ returned
  exact ⟨_, returned, fits.1, (fits.2 spaced_oneProducer).1⟩

end OSCourse.Newsroom.Config
