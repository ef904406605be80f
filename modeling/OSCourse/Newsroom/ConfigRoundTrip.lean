import Mathlib.Data.List.TakeWhile
import OSCourse.Newsroom.Config

/-!
# Writing and reading the configuration

`generate_config` of `ex3/test.sh` writes a configuration file, and
`parseConfigFile` reads back from it what was written.
-/

namespace OSCourse.Newsroom.Config

open OSCourse.Library.Lines

/-- What `generate_config` echoes for a producer. -/
def echoProducer (record : SizeAndMessages) : Text :=
  "PRODUCER ".toList ++ decimal record.producerId ++ "\n".toList ++
    decimal record.numOfMessages ++ "\nqueue size = ".toList ++
    decimal record.queueSize ++ "\n\n".toList

/-- The file that `generate_config` writes, with or without the newline of the
last `echo`. -/
def generateConfig (records : List SizeAndMessages) (coEditorQueueSize : Int)
    (newline : Bool) : Text :=
  records.flatMap echoProducer ++ ("Co-Editor queue size = ".toList ++
    decimal coEditorQueueSize ++ if newline then "\n".toList else [])

/-- The values of an `int`. -/
def IsInt (number : Int) : Prop :=
  -2 ^ 31 ≤ number ∧ number < 2 ^ 31

instance (number : Int) : Decidable (IsInt number) :=
  inferInstanceAs (Decidable (-2 ^ 31 ≤ number ∧ number < 2 ^ 31))

/-- The fields of a record are values of an `int`. -/
structure SizeAndMessages.IsInts (record : SizeAndMessages) : Prop where
  producerId : IsInt record.producerId
  numOfMessages : IsInt record.numOfMessages
  queueSize : IsInt record.queueSize

/-! ## Numbers -/

theorem decimal_ne_nil (number : Int) : decimal number ≠ [] := by
  unfold decimal
  split
  · exact List.cons_ne_nil _ _
  · exact Nat.toDigits_ne_nil

/-- Digits are read up to their end. -/
theorem takeWhile_toDigits (number : Nat) :
    (Nat.toDigits 10 number).takeWhile Char.isDigit =
      Nat.toDigits 10 number :=
  List.takeWhile_eq_self_iff.mpr fun _ member =>
    Nat.isDigit_of_mem_toDigits (by decide) (by decide) member

theorem isspace_of_isDigit {c : Char} (digit : c.isDigit = true) :
    isspace c = false := by
  have low : 48 ≤ c.toNat := by
    unfold Char.isDigit at digit
    simp only [Bool.and_eq_true, decide_eq_true_eq] at digit
    exact UInt32.le_iff_toNat_le.mp digit.1
  have blank : c ≠ ' ' := by
    rintro rfl
    exact absurd low (by decide)
  simp only [isspace, blank, decide_false, Bool.false_or,
    Bool.and_eq_false_iff, decide_eq_false_iff_not]
  omega

theorem sign_of_isDigit {c : Char} (digit : c.isDigit = true) (rest : Text) :
    sign (c :: rest) = (false, c :: rest) := by
  unfold sign
  split
  · next equal =>
    cases equal
    cases digit
  · next equal =>
    cases equal
    cases digit
  · rfl

/-- `atoi` before the cut to an `int`. -/
theorem bmod_of_isInt {number : Int} (int : IsInt number) :
    number.bmod (2 ^ 32) = number :=
  Int.bmod_eq_of_le (by have := int.1; omega) (by have := int.2; omega)

/-- `atoi` reads what `%d` prints. -/
theorem atoi_decimal {number : Int} (int : IsInt number) :
    atoi (decimal number) = number := by
  rcases int with ⟨low, high⟩
  unfold decimal
  split
  · next negative =>
    have value : atoi ('-' :: Nat.toDigits 10 number.natAbs) =
        Int.bmod (max (-2 ^ 63) (-number.natAbs)) (2 ^ 32) := by
      show Int.bmod (max (-2 ^ 63)
        (-(Nat.ofDigitChars 10 ((Nat.toDigits 10 number.natAbs).takeWhile
          Char.isDigit) 0 : Nat))) (2 ^ 32) = _
      rw [takeWhile_toDigits, Nat.ofDigitChars_ten_toDigits]
    rw [value, show max (-2 ^ 63) (-(number.natAbs : Int)) = number by omega]
    exact bmod_of_isInt ⟨low, high⟩
  · next nonneg =>
    rcases List.exists_cons_of_ne_nil
      (Nat.toDigits_ne_nil (n := number.natAbs) (b := 10)) with
      ⟨c, rest, digits⟩
    have digit : c.isDigit = true :=
      Nat.isDigit_of_mem_toDigits (by decide) (by decide)
        (digits ▸ List.mem_cons_self)
    have value : atoi (Nat.toDigits 10 number.natAbs) =
        Int.bmod (min (2 ^ 63 - 1) number.natAbs) (2 ^ 32) := by
      unfold atoi
      rw [digits, List.dropWhile_cons_of_neg
        (by simp [isspace_of_isDigit digit]), sign_of_isDigit digit, ← digits]
      simp only [takeWhile_toDigits, Nat.ofDigitChars_ten_toDigits]
      rfl
    rw [value,
      show min (2 ^ 63 - 1) (number.natAbs : Int) = number by omega]
    exact bmod_of_isInt ⟨low, high⟩

/-! ## Lines with a number -/

section Labelled

variable {label : Text} {number : Int} {c : Char}

/-- A character that is neither in the label nor in a number. -/
theorem not_mem_labelled (outside : c ∉ label)
    (other : c.isDigit = false ∧ c ≠ '-') :
    c ∉ label ++ decimal number := by
  intro member
  rcases List.mem_append.mp member with inLabel | inNumber
  · exact outside inLabel
  · rcases isDigit_or_minus_of_mem_decimal inNumber with digit | minus
    · rw [other.1] at digit
      cases digit
    · exact other.2 minus

theorem labelled_ne_nil : label ++ decimal number ≠ [] := by
  intro empty
  exact decimal_ne_nil number (List.append_eq_nil_iff.mp empty).2

theorem cString_labelled (outside : '\x00' ∉ label) :
    cString (label ++ decimal number) = label ++ decimal number := by
  unfold cString
  rw [List.takeWhile_eq_self_iff]
  intro c member
  refine decide_eq_true fun equal => ?_
  exact not_mem_labelled outside (by decide) (equal ▸ member)

theorem decimal_token : nthToken ' ' 0 (decimal number) =
    some (decimal number) :=
  nthToken_zero
    (not_mem_labelled List.not_mem_nil (by decide)) (decimal_ne_nil number)

end Labelled

/-- `strtok` skips a word. -/
theorem strtok_succ (word : Text) (count : Nat) (free : ' ' ∉ word)
    (nonempty : word ≠ []) (rest : Text) :
    strtok (count + 1) (word ++ ' ' :: rest) = strtok count rest :=
  nthToken_succ count free nonempty rest

theorem strtok_producer (id : Int) :
    strtok 1 ("PRODUCER ".toList ++ decimal id) = some (decimal id) :=
  (strtok_succ "PRODUCER".toList 0 (by decide) (by decide) _).trans
    decimal_token

theorem strtok_queueSize (size : Int) :
    strtok 3 ("queue size = ".toList ++ decimal size) =
      some (decimal size) := by
  calc strtok 3 ("queue".toList ++ ' ' :: ("size".toList ++ ' ' ::
          ("=".toList ++ ' ' :: decimal size)))
      = strtok 2 ("size".toList ++ ' ' :: ("=".toList ++ ' ' ::
          decimal size)) := strtok_succ _ 2 (by decide) (by decide) _
    _ = strtok 1 ("=".toList ++ ' ' :: decimal size) :=
        strtok_succ _ 1 (by decide) (by decide) _
    _ = strtok 0 (decimal size) := strtok_succ _ 0 (by decide) (by decide) _
    _ = some (decimal size) := decimal_token

theorem strtok_coEditor (size : Int) :
    strtok 4 ("Co-Editor queue size = ".toList ++ decimal size) =
      some (decimal size) :=
  (strtok_succ "Co-Editor".toList 3 (by decide) (by decide) _).trans
    (strtok_queueSize size)

/-! ## The file, line by line -/

theorem lines_echoProducer (record : SizeAndMessages) (rest : Text) :
    lines '\n' (echoProducer record ++ rest) =
      ("PRODUCER ".toList ++ decimal record.producerId ++ ['\n']) ::
        (decimal record.numOfMessages ++ ['\n']) ::
        ("queue size = ".toList ++ decimal record.queueSize ++ ['\n']) ::
        ['\n'] :: lines '\n' rest := by
  have id : '\n' ∉ "PRODUCER ".toList ++ decimal record.producerId :=
    not_mem_labelled (by decide) (by decide)
  have messages : '\n' ∉ decimal record.numOfMessages :=
    not_mem_labelled List.not_mem_nil (by decide)
  have size : '\n' ∉ "queue size = ".toList ++ decimal record.queueSize :=
    not_mem_labelled (by decide +kernel) (by decide)
  have split : echoProducer record ++ rest =
      ("PRODUCER ".toList ++ decimal record.producerId) ++ '\n' ::
        (decimal record.numOfMessages ++ '\n' ::
          (("queue size = ".toList ++ decimal record.queueSize) ++ '\n' ::
            ([] ++ '\n' :: rest))) := by
    unfold echoProducer
    simp only [List.append_assoc]
    rfl
  rw [split, lines_append_mark id, lines_append_mark messages,
    lines_append_mark size, lines_append_mark List.not_mem_nil]
  rfl

/-- The last line, with or without its newline. -/
def coEditorLine (size : Int) (newline : Bool) : Text :=
  "Co-Editor queue size = ".toList ++ decimal size ++
    if newline then "\n".toList else []

theorem lines_coEditorLine (size : Int) (newline : Bool) :
    lines '\n' (coEditorLine size newline) = [coEditorLine size newline] := by
  have outside : '\n' ∉ "Co-Editor queue size = ".toList ++ decimal size :=
    not_mem_labelled (by decide +kernel) (by decide)
  cases newline with
  | false =>
      unfold coEditorLine
      rw [if_neg (by decide), List.append_nil,
        lines_of_not_mem outside labelled_ne_nil]
  | true => exact lines_append_mark outside []

theorem chomp_append_newline (text : Text) :
    chomp (text ++ ['\n']) = text := by
  unfold chomp
  rw [if_pos List.getLast?_concat, List.dropLast_concat]

theorem chomp_coEditorLine (size : Int) (newline : Bool) :
    chomp (coEditorLine size newline) =
      "Co-Editor queue size = ".toList ++ decimal size := by
  cases newline with
  | false =>
      unfold coEditorLine
      rw [if_neg (by decide), List.append_nil]
      refine if_neg fun ends => ?_
      exact not_mem_labelled (by decide +kernel) (by decide)
        (List.mem_of_getLast? ends)
  | true => exact chomp_append_newline _

/-! ## The first loop -/

section Counting

variable {data : ConfigData}

/-- A line of the file, without its newline. -/
theorem countLine_append_newline {text : Text} (nonempty : text ≠ []) :
    countLine data (text ++ ['\n']) =
      readCoEditor (countProducer data (cString text)) (cString text) := by
  have long : ¬ (text ++ ['\n']).length ≤ 1 := by
    have := List.length_pos_of_ne_nil nonempty
    simp only [List.length_append, List.length_singleton]
    omega
  unfold countLine
  rw [if_neg long, chomp_append_newline]

theorem countProducer_of_not_mem {text : Text} (outside : 'P' ∉ text) :
    countProducer data text = data := by
  have none_ : strstr text producerWord = false :=
    strstr_of_not_mem (by decide) outside
  unfold countProducer
  rw [none_, if_neg (by decide)]

theorem readCoEditor_of_not_mem {text : Text} (outside : 'o' ∉ text) :
    readCoEditor data text = some data := by
  have none_ : strstr text coEditorWord = false :=
    strstr_of_not_mem (by decide) outside
  unfold readCoEditor
  rw [none_, if_neg (by decide)]

/-- The line of a producer is counted. -/
theorem countLine_producer (id : Int) :
    countLine data ("PRODUCER ".toList ++ decimal id ++ ['\n']) =
      some { data with numOfProducers := data.numOfProducers + 1 } := by
  have found : strstr ("PRODUCER ".toList ++ decimal id) producerWord =
      true :=
    decide_eq_true ⟨[], ' ' :: decimal id, rfl⟩
  rw [countLine_append_newline labelled_ne_nil,
    cString_labelled (by decide),
    readCoEditor_of_not_mem (not_mem_labelled (by decide) (by decide))]
  unfold countProducer
  rw [found, if_pos rfl]

/-- The other lines of a producer are not. -/
theorem countLine_other (label : Text) (number : Int)
    (plain : '\x00' ∉ label ∧ 'P' ∉ label ∧ 'o' ∉ label) :
    countLine data (label ++ decimal number ++ ['\n']) = some data := by
  rw [countLine_append_newline labelled_ne_nil, cString_labelled plain.1,
    readCoEditor_of_not_mem (not_mem_labelled plain.2.2 (by decide)),
    countProducer_of_not_mem (not_mem_labelled plain.2.1 (by decide))]

theorem countLine_coEditor {size : Int} (int : IsInt size) (newline : Bool) :
    countLine data (coEditorLine size newline) =
      some { data with coEditorQueueSize := size } := by
  have long : ¬ (coEditorLine size newline).length ≤ 1 := by
    have label : 1 < "Co-Editor queue size = ".toList.length := by
      decide +kernel
    unfold coEditorLine
    rw [List.append_assoc, List.length_append]
    exact Nat.not_le.mpr (label.trans_le (Nat.le_add_right _ _))
  have outside : 'P' ∉ "Co-Editor queue size = ".toList ++ decimal size :=
    not_mem_labelled (by decide +kernel) (by decide)
  have found : strstr ("Co-Editor queue size = ".toList ++ decimal size)
      coEditorWord = true :=
    decide_eq_true ⟨[], " queue size = ".toList ++ decimal size, rfl⟩
  unfold countLine
  simp only [if_neg long, chomp_coEditorLine,
    cString_labelled (show '\x00' ∉ "Co-Editor queue size = ".toList by
      decide +kernel), countProducer_of_not_mem outside]
  unfold readCoEditor
  rw [found, if_pos rfl, strtok_coEditor]
  show some { data with coEditorQueueSize := atoi (decimal size) } = _
  rw [atoi_decimal int]

theorem countLines_cons {next : ConfigData} {line : Text}
    (counted : countLine data line = some next) (rest : List Text) :
    countLines data (line :: rest) = countLines next rest := by
  unfold countLines
  rw [List.foldlM_cons, counted]
  rfl

/-- The first loop on the lines of the producers. -/
theorem countLines_echoProducers (records : List SizeAndMessages)
    (rest : Text) :
    countLines data (lines '\n' (records.flatMap echoProducer ++ rest)) =
      countLines
        { data with numOfProducers := data.numOfProducers + records.length }
        (lines '\n' rest) := by
  induction records generalizing data with
  | nil => rfl
  | cons record more induction =>
      have messages : countLine
          { data with numOfProducers := data.numOfProducers + 1 }
          (decimal record.numOfMessages ++ ['\n']) = some _ :=
        countLine_other [] _ (by decide)
      have size : countLine
          { data with numOfProducers := data.numOfProducers + 1 }
          ("queue size = ".toList ++ decimal record.queueSize ++ ['\n']) =
            some _ :=
        countLine_other _ _ (by decide +kernel)
      rw [List.flatMap_cons, List.append_assoc, lines_echoProducer,
        countLines_cons (countLine_producer record.producerId),
        countLines_cons messages, countLines_cons size,
        countLines_cons rfl, induction, List.length_cons, Nat.add_assoc,
        Nat.add_comm 1]

theorem countLines_generateConfig {size : Int} (int : IsInt size)
    (records : List SizeAndMessages) (newline : Bool) :
    countLines data (lines '\n' (generateConfig records size newline)) =
      some { data with
        numOfProducers := data.numOfProducers + records.length
        coEditorQueueSize := size } := by
  show countLines data (lines '\n' (records.flatMap echoProducer ++
    coEditorLine size newline)) = _
  rw [countLines_echoProducers, lines_coEditorLine]
  show countLine _ _ >>= (fun next => some next) = _
  rw [countLine_coEditor int]
  rfl

end Counting

/-! ## The second loop -/

section Filling

variable {stray : Text → Option Text}

theorem readRecord_echoProducer {record : SizeAndMessages}
    (ints : record.IsInts) :
    readRecord ("PRODUCER ".toList ++ decimal record.producerId)
      (decimal record.numOfMessages)
      ("queue size = ".toList ++ decimal record.queueSize) = some record := by
  have messages : cString (decimal record.numOfMessages) =
      decimal record.numOfMessages :=
    cString_labelled List.not_mem_nil
  have size : cString ("queue size = ".toList ++ decimal record.queueSize) =
      "queue size = ".toList ++ decimal record.queueSize :=
    cString_labelled (by decide +kernel)
  unfold readRecord
  rw [cString_labelled (by decide), messages, size, strtok_producer,
    strtok_queueSize]
  show some (SizeAndMessages.mk (atoi (decimal record.producerId))
    (atoi (decimal record.numOfMessages))
    (atoi (decimal record.queueSize))) = _
  rw [atoi_decimal ints.producerId, atoi_decimal ints.numOfMessages,
    atoi_decimal ints.queueSize]

/-- The second loop reads a record from the lines of a producer. -/
theorem fillRecords_echoProducer {record : SizeAndMessages}
    (ints : record.IsInts) (rest : Text) :
    fillRecords stray (lines '\n' (echoProducer record ++ rest)) =
      (fillRecords stray (lines '\n' rest)).map (record :: ·) := by
  have long : ¬ ("PRODUCER ".toList ++ decimal record.producerId ++
      ['\n']).length ≤ 1 := by
    have label : 1 < "PRODUCER ".toList.length := by decide
    rw [List.append_assoc, List.length_append]
    exact Nat.not_le.mpr (label.trans_le (Nat.le_add_right _ _))
  have found : strstr (cString ("PRODUCER ".toList ++
      decimal record.producerId)) producerWord = true := by
    rw [cString_labelled (by decide)]
    exact decide_eq_true ⟨[], ' ' :: decimal record.producerId, rfl⟩
  have blank : fillRecords stray (['\n'] :: lines '\n' rest) =
      fillRecords stray (lines '\n' rest) := by
    rw [fillRecords.eq_def]
    exact if_pos (by decide)
  rw [lines_echoProducer, fillRecords, if_neg long]
  simp only [List.dropLast_concat, found, readRecord_echoProducer ints,
    blank, Bool.true_eq_false, if_false]
  rw [Option.map_eq_bind]
  rfl

theorem fillRecords_echoProducers {records : List SizeAndMessages}
    (ints : ∀ record ∈ records, record.IsInts) (rest : Text) :
    fillRecords stray (lines '\n' (records.flatMap echoProducer ++ rest)) =
      (fillRecords stray (lines '\n' rest)).map (records ++ ·) := by
  induction records with
  | nil => simp
  | cons record more induction =>
      rcases List.forall_mem_cons.mp ints with ⟨first, others⟩
      rw [List.flatMap_cons, List.append_assoc,
        fillRecords_echoProducer first, induction others, Option.map_map]
      rfl

/-- The second loop passes over the last line. -/
theorem fillRecords_coEditorLine (size : Int) (newline : Bool) :
    fillRecords stray [coEditorLine size newline] = some [] := by
  have skipped : strstr (cString (coEditorLine size newline).dropLast)
      producerWord = false := by
    have outside : 'P' ∉ "Co-Editor queue size = ".toList ++ decimal size :=
      not_mem_labelled (by decide +kernel) (by decide)
    refine strstr_of_not_mem (c := 'P') (by decide) fun member => ?_
    have inLine : 'P' ∈ coEditorLine size newline :=
      List.mem_of_mem_dropLast ((List.takeWhile_sublist _).subset member)
    rcases List.mem_append.mp inLine with inNumber | inEnd
    · exact outside inNumber
    · cases newline <;> exact absurd inEnd (by decide)
  rw [fillRecords]
  split
  · rfl
  · rfl

end Filling

/--
Whatever is written by `generate_config`, with or without a last newline, is
what `parseConfigFile` reads.
-/
theorem parseConfigFile_generateConfig
    (stray : Text → Option Text)
    (records : List SizeAndMessages)
    (size : Int)
    (newline : Bool)
    (data : ConfigData)
    (ints : ∀ record ∈ records, record.IsInts)
    (int : IsInt size) :
    mainConfig stray (generateConfig records size newline) data =
      some ⟨records.length, records, size⟩ := by
  have counted : countLines { data with numOfProducers := 0 }
      (lines '\n' (generateConfig records size newline)) = some _ :=
    countLines_generateConfig int records newline
  rw [Nat.zero_add] at counted
  have filled : fillRecords stray
      (lines '\n' (generateConfig records size newline)) = some records := by
    show fillRecords stray (lines '\n' (records.flatMap echoProducer ++
      coEditorLine size newline)) = _
    rw [fillRecords_echoProducers ints, lines_coEditorLine,
      fillRecords_coEditorLine, Option.map_some, List.append_nil]
  unfold mainConfig parseConfigFile
  rw [counted]
  show (fillRecords stray _).bind _ = _
  rw [filled]
  rfl

/-- Two producers. -/
theorem parseConfigFile_generateConfig_two :
    mainConfig (fun _ => none)
        (generateConfig [⟨1, 4, 7⟩, ⟨2, 2147483647, 0⟩] 2 false)
        ⟨0, [], 0⟩ =
      some ⟨2, [⟨1, 4, 7⟩, ⟨2, 2147483647, 0⟩], 2⟩ := by
  refine parseConfigFile_generateConfig _ _ _ _ _ ?_ (by decide)
  have first : SizeAndMessages.IsInts ⟨1, 4, 7⟩ :=
    ⟨by decide, by decide, by decide⟩
  have second : SizeAndMessages.IsInts ⟨2, 2147483647, 0⟩ :=
    ⟨by decide, by decide, by decide⟩
  exact List.forall_mem_cons.mpr
    ⟨first, List.forall_mem_singleton.mpr second⟩

end OSCourse.Newsroom.Config
