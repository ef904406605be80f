import Mathlib.Algebra.BigOperators.Fin
import OSCourse.Library.MarkedStream
import OSCourse.Newsroom.Pipeline

/-!
# Delivery

The messages of one producer in one category pass through its buffer, the
dispatcher, the buffer and the co-editor of the category and the buffer of the
screen, always in the order in which they were generated.  The end marks follow
the last message of each producer and of each category, so that the third mark
at the screen is the last thing to arrive there.
-/

namespace OSCourse.Newsroom

open OSCourse.Library.MarkedStream
open OSCourse.Library.TransitionSystem

variable {n : Nat}

/-! ## Messages under way -/

/-- The messages of a list that producer `p` generated in a category. -/
def linesOf (p : Fin n) (category : Category) (messages : List (Msg n)) :
    List (Msg n) :=
  messages.filter fun message => message.origin = some (p, category)

@[simp]
theorem linesOf_append (p : Fin n) (category : Category)
    (first second : List (Msg n)) :
    linesOf p category (first ++ second) =
      linesOf p category first ++ linesOf p category second :=
  List.filter_append _ _

@[simp]
theorem linesOf_nil (p : Fin n) (category : Category) :
    linesOf p category [] = [] :=
  rfl

theorem linesOf_cons (p : Fin n) (category : Category) (message : Msg n)
    (rest : List (Msg n)) :
    linesOf p category (message :: rest) =
      linesOf p category [message] ++ linesOf p category rest :=
  linesOf_append p category [message] rest

@[simp]
theorem linesOf_finishMsg (p : Fin n) (category : Category)
    (rest : List (Msg n)) :
    linesOf p category (finishMsg :: rest) = linesOf p category rest :=
  rfl

@[simp]
theorem linesOf_newMessage (p : Fin n) (category : Category) (id : Int)
    (q : Fin n) (other : Category) (number : Nat) (rest : List (Msg n)) :
    linesOf p category (newMessage id q other number :: rest) =
      (if q = p ∧ other = category then [newMessage id q other number]
        else []) ++ linesOf p category rest := by
  unfold linesOf newMessage
  rw [List.filter_cons]
  by_cases same : q = p ∧ other = category <;> simp [same]

/-- The message that a producer has yet to insert. -/
def Producer.pending (thread : Producer n) : List (Msg n) :=
  match thread.pc with
  | .inserting message => [message]
  | _ => []

/-- The message that a co-editor has yet to insert. -/
def CoEditor.held : CoEditor n → List (Msg n)
  | .inserting message => [message]
  | _ => []

/-- The message that the dispatcher has yet to insert for a category. -/
def Dispatcher.carried (category : Category) : Dispatcher n → List (Msg n)
  | .forwarding other message _ => if other = category then [message] else []
  | _ => []

/-- The dispatcher has put the end mark of a category. -/
def Dispatcher.marked (category : Category) : Dispatcher n → Bool
  | .finishing .sports => false
  | .finishing .news => category = .sports
  | .finishing .weather => category ≠ .weather
  | .returned => true
  | _ => false

/-- A message of producer `p` in a category. -/
def Genuine (config : ConfigData n) (p : Fin n) (category : Category)
    (message : Msg n) : Prop :=
  ∃ number, message =
    newMessage (config.producersInfo p).producerId p category number

theorem Genuine.text_ne {config : ConfigData n} {p : Fin n}
    {category : Category} {message : Msg n}
    (genuine : Genuine config p category message) :
    message.text ≠ finishText := by
  rcases genuine with ⟨number, rfl⟩
  exact messageText_ne_finishText _ _ _

theorem Genuine.ne_finishMsg {config : ConfigData n} {p : Fin n}
    {category : Category} {message : Msg n}
    (genuine : Genuine config p category message) :
    message ≠ finishMsg := by
  rintro rfl
  exact genuine.text_ne rfl

/-- The dispatcher files a message under its category. -/
theorem Genuine.filed {config : ConfigData n} {p : Fin n}
    {category : Category} {message : Msg n}
    (genuine : Genuine config p category message) (i : Nat) :
    filed message i = .forwarding category message i := by
  rcases genuine with ⟨number, rfl⟩
  unfold Newsroom.filed
  rw [newMessage, route_messageText category number
    (config.producersInfo p).producerId_ge
    (config.producersInfo p).producerId_lt]

/-- A message stands in no line of another producer or category. -/
theorem Genuine.linesOf_eq_nil {config : ConfigData n} {p q : Fin n}
    {category other : Category} {message : Msg n}
    (genuine : Genuine config p category message)
    (apart : p ≠ q ∨ category ≠ other) :
    linesOf q other [message] = [] := by
  rcases genuine with ⟨number, rfl⟩
  rw [linesOf_newMessage, if_neg (by tauto)]
  rfl

/-- The end mark is recognised by its text. -/
theorem eq_finishMsg_of_text {message : Msg n} {property : Prop}
    (known : message = finishMsg ∨ property)
    (genuine : property → message.text ≠ finishText)
    (text : message.text = finishText) :
    message = finishMsg := by
  rcases known with mark | ordinary
  · exact mark
  · exact absurd text (genuine ordinary)

/-! ## Producers -/

/-- What holds of a producer, its buffer and what it has generated. -/
structure ProducerOk (config : ConfigData n) (p : Fin n)
    (bb : BoundedBuffer (Msg n)) (thread : Producer n)
    (generated : Category → List (Msg n)) : Prop where
  id : bb.id = (config.producersInfo p).producerId
  genuine : ∀ message ∈ bb.contents ++ thread.pending,
    message = finishMsg ∨ ∃ category, Genuine config p category message
  stream : Marked finishMsg (decide (thread.pc = .exited)) bb.isDone
    (bb.contents ++ thread.pending)
  bound : thread.i + thread.pending.length ≤
    (config.producersInfo p).numOfMessages
  finished : thread.pc = .exited →
    thread.i = (config.producersInfo p).numOfMessages
  count : ∑ category, (generated category).length =
    thread.i + thread.pending.length
  numbers : ∀ category, generated category =
    (List.range (thread.counters category)).map
      (newMessage (config.producersInfo p).producerId p category)

theorem sum_categories (counts : Category → Nat) :
    ∑ category, counts category =
      counts .sports + counts .news + counts .weather := by
  rw [add_assoc]
  rfl

section Producers

variable {config : ConfigData n} {p : Fin n} {bb bb' : BoundedBuffer (Msg n)}
variable {thread : Producer n} {generated : Category → List (Msg n)}
variable {message : Msg n}

theorem ProducerOk.generate
    (ok : ProducerOk config p bb thread generated)
    (looping : thread.pc = .looping)
    (more : thread.i < (config.producersInfo p).numOfMessages)
    (category : Category)
    (new : message = newMessage bb.id p category
      (thread.counters category)) :
    ProducerOk config p bb
      { thread with
        counters := Function.update thread.counters category
          (thread.counters category + 1)
        pc := .inserting message }
      (Function.update generated category
        (generated category ++ [message])) := by
  have idle : thread.pending = [] := by
    simp [Producer.pending, looping]
  have genuine : Genuine config p category message := by
    rw [new, ok.id]
    exact ⟨_, rfl⟩
  have stream := ok.stream
  have count := ok.count
  simp only [idle, looping, List.append_nil, List.length_nil,
    add_zero] at stream count
  constructor
  · exact ok.id
  · intro other member
    simp only [Producer.pending, List.mem_append, List.mem_singleton] at member
    rcases member with inBuffer | rfl
    · exact ok.genuine other (by simp [inBuffer])
    · exact .inr ⟨category, genuine⟩
  · exact stream.push genuine.ne_finishMsg
  · simp only [Producer.pending, List.length_singleton]
    omega
  · rintro ⟨⟩
  · simp only [Producer.pending, List.length_singleton]
    rw [sum_categories] at count ⊢
    cases category <;> simp <;> omega
  · intro other
    by_cases same : other = category
    · subst same
      simp only [Function.update_self]
      rw [List.range_succ, List.map_append, ← ok.numbers other, new, ok.id]
      rfl
    · simp only [Function.update_of_ne same]
      exact ok.numbers other

/-- A pending message goes into the buffer. -/
theorem ProducerOk.insert
    (ok : ProducerOk config p bb thread generated)
    (inserting : thread.pc = .inserting message)
    (inserted : bb.insertToBuffer message = some bb') :
    ProducerOk config p bb' { thread with i := thread.i + 1, pc := .looping }
      generated := by
  rcases BoundedBuffer.insertToBuffer_spec inserted with
    ⟨contents, id, isDone⟩
  have pending : thread.pending = [message] := by
    simp [Producer.pending, inserting]
  have same : bb'.contents ++ Producer.pending
      { thread with i := thread.i + 1, pc := .looping } =
      bb.contents ++ thread.pending := by
    rw [contents, pending]
    simp [Producer.pending]
  have bound := ok.bound
  have count := ok.count
  have stream := ok.stream
  rw [pending, List.length_singleton] at bound count
  constructor
  · rw [id, ok.id]
  · rw [same]
    exact ok.genuine
  · rw [same, isDone]
    simpa [inserting] using stream
  · simpa [Producer.pending] using bound
  · rintro ⟨⟩
  · simpa [Producer.pending] using count
  · exact ok.numbers

/-- The producer leaves its loop and puts its end mark. -/
theorem ProducerOk.close
    (ok : ProducerOk config p bb thread generated)
    (looping : thread.pc = .looping)
    (ended : ¬ thread.i < (config.producersInfo p).numOfMessages)
    (inserted : bb.insertToBuffer finishMsg = some bb') :
    ProducerOk config p bb' { thread with pc := .exited } generated := by
  rcases BoundedBuffer.insertToBuffer_spec inserted with
    ⟨contents, id, isDone⟩
  have idle : thread.pending = [] := by
    simp [Producer.pending, looping]
  have bound := ok.bound
  have count := ok.count
  have stream := ok.stream
  have genuine := ok.genuine
  simp only [idle, looping, List.append_nil, List.length_nil,
    add_zero] at bound count stream genuine
  constructor
  · rw [id, ok.id]
  · intro other member
    simp only [Producer.pending, contents, List.append_nil, List.mem_append,
      List.mem_singleton] at member
    rcases member with inBuffer | mark
    · exact genuine other inBuffer
    · exact .inl mark
  · simp only [Producer.pending, List.append_nil, contents, isDone]
    exact stream.close
  · exact bound
  · intro _
    exact Nat.le_antisymm bound (Nat.le_of_not_lt ended)
  · exact count
  · exact ok.numbers

/-- The dispatcher removes a message from the buffer. -/
theorem ProducerOk.remove
    (ok : ProducerOk config p bb thread generated)
    (removed : bb.removeFromBuffer = some (message, bb'))
    (ordinary : message ≠ finishMsg) :
    ProducerOk config p bb' thread generated := by
  rcases BoundedBuffer.removeFromBuffer_spec removed with
    ⟨contents, id, isDone⟩
  have stream := ok.stream
  have genuine := ok.genuine
  rw [contents, List.cons_append] at stream genuine
  constructor
  · rw [id, ok.id]
  · intro other member
    exact genuine other (List.mem_cons_of_mem _ member)
  · rw [isDone]
    exact stream.pop ordinary
  · exact ok.bound
  · exact ok.finished
  · exact ok.count
  · exact ok.numbers

/-- The dispatcher removes the end mark, and nothing is left. -/
theorem ProducerOk.removeMark
    (ok : ProducerOk config p bb thread generated)
    (removed : bb.removeFromBuffer = some (finishMsg, bb')) :
    ProducerOk config p bb'.setDone thread generated := by
  rcases BoundedBuffer.removeFromBuffer_spec removed with
    ⟨contents, id, isDone⟩
  have stream := ok.stream
  rw [contents, List.cons_append] at stream
  rcases stream.popMark with ⟨closed, -, empty⟩
  constructor
  · rw [BoundedBuffer.id_setDone, id, ok.id]
  · rw [BoundedBuffer.contents_setDone, empty]
    simp
  · rw [BoundedBuffer.contents_setDone, BoundedBuffer.isDone_setDone, closed,
      empty]
    exact .drained
  · exact ok.bound
  · exact ok.finished
  · exact ok.count
  · exact ok.numbers

/-- A producer whose end mark was seen has generated and sent everything. -/
theorem ProducerOk.drained
    (ok : ProducerOk config p bb thread generated) (done : bb.isDone = true) :
    thread.pc = .exited ∧ bb.contents = [] ∧ thread.pending = [] ∧
      ∑ category, (generated category).length =
        (config.producersInfo p).numOfMessages := by
  have stream := ok.stream
  rw [done] at stream
  rcases stream.of_seen with ⟨closed, empty⟩
  have exited : thread.pc = .exited := of_decide_eq_true closed
  have idle : thread.pending = [] := (List.append_eq_nil_iff.mp empty).2
  refine ⟨exited, (List.append_eq_nil_iff.mp empty).1, idle, ?_⟩
  rw [ok.count, idle, ok.finished exited]
  rfl

end Producers

/-! ## Categories -/

/-- What holds of a category, its buffer and its co-editor. -/
structure CategoryOk (config : ConfigData n) (category : Category)
    (marked : Bool) (editor : CoEditor n) (bb : BoundedBuffer (Msg n))
    (carried : List (Msg n)) : Prop where
  genuine : ∀ message ∈ editor.held ++ (bb.contents ++ carried),
    message = finishMsg ∨ ∃ p, Genuine config p category message
  stream : Marked finishMsg marked (decide (editor = .exited))
    (editor.held ++ (bb.contents ++ carried))

section Categories

variable {config : ConfigData n} {category : Category} {marked : Bool}
variable {editor : CoEditor n} {bb bb' : BoundedBuffer (Msg n)}
variable {message : Msg n} {carried : List (Msg n)} {p : Fin n}

/-- The dispatcher has a message for the category. -/
theorem CategoryOk.carry
    (ok : CategoryOk config category false editor bb [])
    (genuine : Genuine config p category message) :
    CategoryOk config category false editor bb [message] := by
  have stream := ok.stream.push genuine.ne_finishMsg
  simp only [List.append_nil, List.append_assoc] at stream
  constructor
  · intro other member
    simp only [List.mem_append, List.mem_singleton] at member
    rcases member with held | inBuffer | rfl
    · exact ok.genuine other (by simp [held])
    · exact ok.genuine other (by simp [inBuffer])
    · exact .inr ⟨p, genuine⟩
  · exact stream

/-- The dispatcher inserts the message it carries. -/
theorem CategoryOk.forward
    (ok : CategoryOk config category marked editor bb [message])
    (inserted : bb.insertToBuffer message = some bb') :
    CategoryOk config category marked editor bb' [] := by
  have contents := (BoundedBuffer.insertToBuffer_spec inserted).1
  rcases ok with ⟨genuine, stream⟩
  constructor
  · simpa only [contents, List.append_nil] using genuine
  · simpa only [contents, List.append_nil] using stream

/-- The dispatcher inserts the end mark. -/
theorem CategoryOk.mark
    (ok : CategoryOk config category false editor bb [])
    (inserted : bb.insertToBuffer finishMsg = some bb') :
    CategoryOk config category true editor bb' [] := by
  have contents := (BoundedBuffer.insertToBuffer_spec inserted).1
  have stream := ok.stream.close
  simp only [List.append_nil, List.append_assoc] at stream
  constructor
  · intro other member
    simp only [contents, List.append_nil, List.mem_append,
      List.mem_singleton] at member
    rcases member with held | inBuffer | mark
    · exact ok.genuine other (by simp [held])
    · exact ok.genuine other (by simp [inBuffer])
    · exact .inl mark
  · simpa only [contents, List.append_nil] using stream

/-- The co-editor removes a message from its buffer. -/
theorem CategoryOk.remove
    (ok : CategoryOk config category marked .removing bb carried)
    (removed : bb.removeFromBuffer = some (message, bb')) :
    CategoryOk config category marked (.inserting message) bb' carried := by
  have contents := (BoundedBuffer.removeFromBuffer_spec removed).1
  rcases ok with ⟨genuine, stream⟩
  rw [contents] at genuine stream
  exact ⟨genuine, stream⟩

/-- The co-editor hands a message on to the screen. -/
theorem CategoryOk.handOver
    (ok : CategoryOk config category marked (.inserting message) bb carried)
    (ordinary : message ≠ finishMsg) :
    CategoryOk config category marked .removing bb carried := by
  rcases ok with ⟨genuine, stream⟩
  constructor
  · intro other member
    exact genuine other (List.mem_cons_of_mem _ member)
  · exact stream.pop ordinary

/-- The co-editor hands its end mark on and exits; nothing is left. -/
theorem CategoryOk.handOverMark
    (ok : CategoryOk config category marked (.inserting finishMsg) bb
      carried) :
    CategoryOk config category marked .exited bb carried := by
  have stream : Marked finishMsg marked false
      (finishMsg :: (bb.contents ++ carried)) := ok.stream
  rcases stream.popMark with ⟨closed, -, empty⟩
  constructor
  · rw [empty]
    simp [CoEditor.held]
  · rw [empty, closed]
    exact .drained

theorem CategoryOk.drained
    (ok : CategoryOk config category marked .exited bb carried) :
    marked = true ∧ bb.contents = [] ∧ carried = [] := by
  rcases Marked.of_seen ok.stream with ⟨closed, empty⟩
  simp only [CoEditor.held, List.nil_append,
    List.append_eq_nil_iff] at empty
  exact ⟨closed, empty⟩

end Categories

/-! ## The screen -/

/-- The number of co-editors that have exited. -/
def exitedCount (editors : Category → CoEditor n) : Nat :=
  ∑ category, if editors category = .exited then 1 else 0

/-- What holds of the buffer of the screen and the output. -/
structure ScreenOk (config : ConfigData n) (editors : Category → CoEditor n)
    (bb : BoundedBuffer (Msg n)) (doneCount : Nat) (output : List (Msg n)) :
    Prop where
  genuine : ∀ message ∈ bb.contents, message = finishMsg ∨
    ∃ p category, Genuine config p category message
  marks : bb.contents.count finishMsg + doneCount = exitedCount editors
  last : (∀ category, editors category = .exited) →
    bb.contents = [] ∨ bb.contents.getLast? = some finishMsg
  printed : ∃ lines,
    output = lines ++ (if doneCount = 3 then [finishMsg] else []) ∧
      ∀ message ∈ lines, ∃ p category, Genuine config p category message

theorem exitedCount_eq (editors : Category → CoEditor n) :
    exitedCount editors =
      (if editors .sports = .exited then 1 else 0) +
        (if editors .news = .exited then 1 else 0) +
          (if editors .weather = .exited then 1 else 0) :=
  sum_categories _

/-- A co-editor that goes on or exits counts accordingly. -/
theorem exitedCount_update (editors : Category → CoEditor n)
    (category : Category) (editor : CoEditor n)
    (working : editors category ≠ .exited) :
    exitedCount (Function.update editors category editor) =
      exitedCount editors + if editor = .exited then 1 else 0 := by
  rw [exitedCount_eq, exitedCount_eq]
  cases category <;> simp [working] <;> omega

section Screen

variable {config : ConfigData n} {editors : Category → CoEditor n}
variable {bb bb' : BoundedBuffer (Msg n)} {doneCount : Nat}
variable {output : List (Msg n)} {message : Msg n} {category : Category}

/-- A co-editor that takes a message does not touch the screen. -/
theorem ScreenOk.take
    (ok : ScreenOk config editors bb doneCount output)
    (working : editors category ≠ .exited) :
    ScreenOk config
      (Function.update editors category (.inserting message)) bb doneCount
      output := by
  constructor
  · exact ok.genuine
  · rw [exitedCount_update editors category _ working]
    simpa using ok.marks
  · intro all
    have := all category
    simp at this
  · exact ok.printed

theorem ScreenOk.insert
    (ok : ScreenOk config editors bb doneCount output)
    (working : editors category ≠ .exited) {p : Fin n}
    (genuine : Genuine config p category message)
    (inserted : bb.insertToBuffer message = some bb') :
    ScreenOk config (Function.update editors category .removing) bb'
      doneCount output := by
  have contents := (BoundedBuffer.insertToBuffer_spec inserted).1
  constructor
  · intro other member
    rw [contents, List.mem_append, List.mem_singleton] at member
    rcases member with inBuffer | rfl
    · exact ok.genuine other inBuffer
    · exact .inr ⟨p, category, genuine⟩
  · rw [exitedCount_update editors category _ working, contents,
      List.count_append, List.count_singleton,
      if_neg (by simpa using genuine.ne_finishMsg)]
    simpa using ok.marks
  · intro all
    have := all category
    simp at this
  · exact ok.printed

theorem ScreenOk.insertMark
    (ok : ScreenOk config editors bb doneCount output)
    (working : editors category ≠ .exited)
    (inserted : bb.insertToBuffer finishMsg = some bb') :
    ScreenOk config (Function.update editors category .exited) bb' doneCount
      output := by
  have contents := (BoundedBuffer.insertToBuffer_spec inserted).1
  constructor
  · intro other member
    rw [contents, List.mem_append, List.mem_singleton] at member
    rcases member with inBuffer | mark
    · exact ok.genuine other inBuffer
    · exact .inl mark
  · have marks := ok.marks
    rw [exitedCount_update editors category _ working, contents,
      List.count_append, List.count_singleton_self, if_pos rfl]
    omega
  · intro _
    right
    rw [contents, List.getLast?_concat]
  · exact ok.printed

/-- What is left behind the head of a list that ends in a mark still does. -/
theorem ScreenOk.last_tail
    (ok : ScreenOk config editors bb doneCount output)
    (contents : bb.contents = message :: bb'.contents)
    (all : ∀ category, editors category = .exited) :
    bb'.contents = [] ∨ bb'.contents.getLast? = some finishMsg := by
  rcases ok.last all with empty | last
  · rw [contents] at empty
    cases empty
  · rw [contents] at last
    by_cases empty : bb'.contents = []
    · exact .inl empty
    · right
      rwa [List.getLast?_cons_of_ne_nil empty] at last

theorem ScreenOk.print
    (ok : ScreenOk config editors bb doneCount output)
    (looping : doneCount ≠ 3)
    (removed : bb.removeFromBuffer = some (message, bb'))
    (ordinary : message ≠ finishMsg) :
    ScreenOk config editors bb' doneCount (output ++ [message]) := by
  have contents := (BoundedBuffer.removeFromBuffer_spec removed).1
  have genuine := ok.genuine
  have marks := ok.marks
  rw [contents] at genuine marks
  rcases ok.printed with ⟨lines, printed, each⟩
  rw [if_neg looping, List.append_nil] at printed
  constructor
  · intro other member
    exact genuine other (List.mem_cons_of_mem _ member)
  · rwa [List.count_cons_of_ne ordinary] at marks
  · exact ok.last_tail contents
  · refine ⟨lines ++ [message], by rw [printed, if_neg looping]; simp, ?_⟩
    intro other member
    rw [List.mem_append, List.mem_singleton] at member
    rcases member with line | rfl
    · exact each other line
    · exact (genuine other List.mem_cons_self).resolve_left ordinary

theorem ScreenOk.printMark
    (ok : ScreenOk config editors bb doneCount output)
    (looping : doneCount ≠ 3)
    (removed : bb.removeFromBuffer = some (finishMsg, bb')) :
    ScreenOk config editors bb' (doneCount + 1)
      (if doneCount + 1 = 3 then output ++ [finishMsg] else output) := by
  have contents := (BoundedBuffer.removeFromBuffer_spec removed).1
  have genuine := ok.genuine
  have marks := ok.marks
  rw [contents] at genuine marks
  rcases ok.printed with ⟨lines, printed, each⟩
  rw [if_neg looping, List.append_nil] at printed
  constructor
  · intro other member
    exact genuine other (List.mem_cons_of_mem _ member)
  · rw [List.count_cons_self] at marks
    omega
  · exact ok.last_tail contents
  · refine ⟨lines, ?_, each⟩
    rw [printed]
    split <;> simp

/-- After the third mark nothing is left for the screen. -/
theorem ScreenOk.drained
    (ok : ScreenOk config editors bb 3 output) :
    (∀ category, editors category = .exited) ∧ bb.contents = [] := by
  have marks := ok.marks
  rw [exitedCount_eq] at marks
  have all : ∀ category, editors category = .exited := by
    intro category
    by_contra working
    cases category <;> simp [working] at marks <;> split at marks <;>
      split at marks <;> omega
  refine ⟨all, ?_⟩
  rcases ok.last all with empty | last
  · exact empty
  · have member := List.mem_of_getLast? last
    have positive := List.count_pos_iff.mpr member
    simp only [all, if_true] at marks
    omega

end Screen

/-! ## The pipeline -/

/-- The producers that the dispatcher takes for done are. -/
def Dispatcher.Sees (isDone : Fin n → Bool) : Dispatcher n → Prop
  | .checking i true => ∀ p : Fin n, p < i → isDone p = true
  | .finishing _ => ∀ p, isDone p = true
  | .returned => ∀ p, isDone p = true
  | _ => True

/-- The messages of one producer in one category that are under way. -/
def underWay (room : Room n) (p : Fin n) (category : Category) :
    List (Msg n) :=
  linesOf p category room.toScreenBuf.contents ++
    (linesOf p category (room.coEditors category).held ++
      (linesOf p category (room.categoryBufs category).contents ++
        (linesOf p category (room.dispatcher.carried category) ++
          (linesOf p category (room.producersBufs p).contents ++
            linesOf p category (room.producers p).pending))))

/-- The invariant of the pipeline. -/
structure Ordered (config : ConfigData n) (room : Room n) : Prop where
  producers : ∀ p, ProducerOk config p (room.producersBufs p)
    (room.producers p) (room.generated p)
  categories : ∀ category, CategoryOk config category
    (room.dispatcher.marked category) (room.coEditors category)
    (room.categoryBufs category) (room.dispatcher.carried category)
  screen : ScreenOk config room.coEditors room.toScreenBuf room.doneCount
    room.output
  sees : room.dispatcher.Sees fun p => (room.producersBufs p).isDone
  flow : ∀ p category, linesOf p category room.output ++
    underWay room p category = room.generated p category

theorem Ordered.generate
    {config : ConfigData n} {room next : Room n} {p : Fin n}
    {category : Category} (ordered : Ordered config room)
    (taken : generate config room p category = some next) :
    Ordered config next := by
  simp only [Newsroom.generate] at taken
  split at taken
  · rename_i guard
    rcases guard with ⟨looping, more⟩
    cases taken
    have idle : (room.producers p).pending = [] := by
      simp [Producer.pending, looping]
    constructor
    · intro q
      by_cases same : q = p
      · subst same
        simp only [Function.update_self]
        exact (ordered.producers q).generate looping more category rfl
      · simp only [Function.update_of_ne same]
        exact ordered.producers q
    · exact ordered.categories
    · exact ordered.screen
    · exact ordered.sees
    · intro q other
      have flow := ordered.flow q other
      simp only [underWay] at flow ⊢
      by_cases same : q = p
      · subst same
        simp only [Function.update_self, Producer.pending,
          linesOf_newMessage, true_and, linesOf_nil, List.append_nil]
        rw [idle, linesOf_nil, List.append_nil] at flow
        by_cases equal : category = other
        · subst equal
          rw [Function.update_self, ← flow]
          simp
        · rw [Function.update_of_ne (Ne.symm equal), ← flow]
          simp [equal]
      · simp only [Function.update_of_ne same]
        exact flow
  · cases taken

/-- What the dispatcher has seen stays true as more producers are done. -/
theorem Dispatcher.Sees.mono
    {dispatcher : Dispatcher n} {isDone isDone' : Fin n → Bool}
    (sees : dispatcher.Sees isDone)
    (later : ∀ p, isDone p = true → isDone' p = true) :
    dispatcher.Sees isDone' := by
  cases dispatcher with
  | checking i all =>
      cases all with
      | true => exact fun p before => later p (sees p before)
      | false => trivial
  | polling i => trivial
  | forwarding category message i => trivial
  | finishing category => exact fun p => later p (sees p)
  | returned => exact fun p => later p (sees p)

/-- Replacing a buffer of a producer by one that is done as well. -/
theorem Ordered.sees_update
    {config : ConfigData n} {room : Room n} {p : Fin n}
    {bb : BoundedBuffer (Msg n)} (ordered : Ordered config room)
    (isDone : bb.isDone = (room.producersBufs p).isDone) :
    room.dispatcher.Sees fun q =>
      (Function.update room.producersBufs p bb q).isDone := by
  refine ordered.sees.mono ?_
  intro q done
  by_cases same : q = p
  · subst same
    rwa [Function.update_self, isDone]
  · rwa [Function.update_of_ne same]

theorem Ordered.produce
    {config : ConfigData n} {room next : Room n} {p : Fin n}
    (ordered : Ordered config room)
    (taken : produce config room p = some next) :
    Ordered config next := by
  simp only [Newsroom.produce] at taken
  split at taken
  · rename_i message inserting
    rw [Option.map_eq_some_iff] at taken
    rcases taken with ⟨bb, inserted, rfl⟩
    rcases BoundedBuffer.insertToBuffer_spec inserted with
      ⟨contents, -, isDone⟩
    constructor
    · intro q
      by_cases same : q = p
      · subst same
        simp only [Function.update_self]
        exact (ordered.producers q).insert inserting inserted
      · simp only [Function.update_of_ne same]
        exact ordered.producers q
    · exact ordered.categories
    · exact ordered.screen
    · exact ordered.sees_update isDone
    · intro q other
      have flow := ordered.flow q other
      simp only [underWay] at flow ⊢
      by_cases same : q = p
      · subst same
        simp only [Function.update_self, contents, linesOf_append]
        rw [← flow]
        simp [Producer.pending, inserting]
      · simp only [Function.update_of_ne same]
        exact flow
  · rename_i looping
    split at taken
    · cases taken
    · rename_i ended
      rw [Option.map_eq_some_iff] at taken
      rcases taken with ⟨bb, inserted, rfl⟩
      rcases BoundedBuffer.insertToBuffer_spec inserted with
        ⟨contents, -, isDone⟩
      constructor
      · intro q
        by_cases same : q = p
        · subst same
          simp only [Function.update_self]
          exact (ordered.producers q).close looping ended inserted
        · simp only [Function.update_of_ne same]
          exact ordered.producers q
      · exact ordered.categories
      · exact ordered.screen
      · exact ordered.sees_update isDone
      · intro q other
        have flow := ordered.flow q other
        simp only [underWay] at flow ⊢
        by_cases same : q = p
        · subst same
          simp only [Function.update_self, contents, linesOf_append]
          rw [← flow]
          simp [Producer.pending, looping]
        · simp only [Function.update_of_ne same]
          exact flow
  · cases taken

/-- The dispatcher goes on in its scan. -/
theorem Ordered.scan
    {config : ConfigData n} {room : Room n} {dispatcher : Dispatcher n}
    (ordered : Ordered config room)
    (marked : ∀ category, dispatcher.marked category =
      room.dispatcher.marked category)
    (carried : ∀ category, dispatcher.carried category =
      room.dispatcher.carried category)
    (sees : dispatcher.Sees fun p => (room.producersBufs p).isDone) :
    Ordered config { room with dispatcher := dispatcher } := by
  constructor
  · exact ordered.producers
  · intro category
    simp only [marked, carried]
    exact ordered.categories category
  · exact ordered.screen
  · exact sees
  · intro p category
    have flow := ordered.flow p category
    simp only [underWay, carried] at flow ⊢
    exact flow

theorem Ordered.check
    {config : ConfigData n} {room next : Room n} {i : Nat} {all : Bool}
    (ordered : Ordered config room)
    (checking : room.dispatcher = .checking i all)
    (taken : dispatch room = some next) :
    Ordered config next := by
  have sees := ordered.sees
  simp only [checking] at sees
  simp only [dispatch, checking] at taken
  split at taken
  · rename_i inside
    split at taken
    · rename_i guard
      cases taken
      refine ordered.scan (by simp [checking, Dispatcher.marked])
        (by simp [checking, Dispatcher.carried]) ?_
      cases all with
      | false => trivial
      | true =>
          intro p before
          by_cases last : p.val = i
          · subst last
            exact guard.1
          · exact sees p (by omega)
    · cases taken
      exact ordered.scan (by simp [checking, Dispatcher.marked])
        (by simp [checking, Dispatcher.carried]) trivial
  · rename_i outside
    split at taken
    · rename_i done
      subst done
      cases taken
      refine ordered.scan ?_ (by simp [checking, Dispatcher.carried]) ?_
      · intro category
        simp [checking, Dispatcher.marked]
      · exact fun p => sees p (by omega)
    · cases taken
      refine ordered.scan (by simp [checking, Dispatcher.marked])
        (by simp [checking, Dispatcher.carried]) ?_
      exact fun p before => absurd before (Nat.not_lt_zero _)

theorem Ordered.poll
    {config : ConfigData n} {room next : Room n} {p : Fin n}
    (ordered : Ordered config room)
    (polling : room.dispatcher = .polling p)
    (taken : dispatch room = some next) :
    Ordered config next := by
  simp only [dispatch, polling, BoundedBuffer.tryRemoveFromBuffer] at taken
  cases removed : (room.producersBufs p).removeFromBuffer with
  | none =>
      simp only [removed] at taken
      cases taken
      exact ordered.scan (by simp [polling, Dispatcher.marked])
        (by simp [polling, Dispatcher.carried]) trivial
  | some pair =>
      rcases pair with ⟨message, bb⟩
      have ok := ordered.producers p
      have contents := (BoundedBuffer.removeFromBuffer_spec removed).1
      have known := ok.genuine message (by simp [contents])
      have mark : message.text = finishText → message = finishMsg :=
        eq_finishMsg_of_text known fun ⟨_, genuine⟩ => genuine.text_ne
      simp only [removed] at taken
      split at taken
      · rename_i text
        rw [mark text] at removed contents
        cases taken
        constructor
        · intro q
          by_cases same : q = p
          · subst same
            simp only [Function.update_self]
            exact ok.removeMark removed
          · simp only [Function.update_of_ne same]
            exact ordered.producers q
        · intro category
          have category := ordered.categories category
          rw [polling] at category
          exact category
        · exact ordered.screen
        · trivial
        · intro q other
          have flow := ordered.flow q other
          simp only [underWay, polling, Dispatcher.carried] at flow ⊢
          rw [← flow]
          by_cases same : q = p
          · subst same
            simp [Function.update_self, contents]
          · simp only [Function.update_of_ne same]
      · rename_i text
        rcases known with equal | ⟨category, genuine⟩
        · exact absurd (by rw [equal]; rfl) text
        rw [genuine.filed] at taken
        cases taken
        constructor
        · intro q
          by_cases same : q = p
          · subst same
            simp only [Function.update_self]
            exact ok.remove removed genuine.ne_finishMsg
          · simp only [Function.update_of_ne same]
            exact ordered.producers q
        · intro other
          have before := ordered.categories other
          simp only [polling, Dispatcher.marked,
            Dispatcher.carried] at before ⊢
          split
          · rename_i same
            subst same
            exact before.carry genuine
          · exact before
        · exact ordered.screen
        · trivial
        · intro q other
          have flow := ordered.flow q other
          simp only [underWay, polling, Dispatcher.carried] at flow ⊢
          rw [← flow]
          by_cases same : q = p
          · subst same
            simp only [Function.update_self, contents]
            rw [linesOf_cons q other message bb.contents]
            split
            · simp
            · rename_i apart
              rw [genuine.linesOf_eq_nil (.inr apart)]
              simp
          · simp only [Function.update_of_ne same]
            split
            · rw [genuine.linesOf_eq_nil (.inl (Ne.symm same))]
              simp
            · rfl

theorem Ordered.forward
    {config : ConfigData n} {room next : Room n} {category : Category}
    {message : Msg n} {i : Nat} (ordered : Ordered config room)
    (forwarding : room.dispatcher = .forwarding category message i)
    (taken : dispatch room = some next) :
    Ordered config next := by
  simp only [dispatch, forwarding] at taken
  rw [Option.map_eq_some_iff] at taken
  rcases taken with ⟨bb, inserted, rfl⟩
  have contents := (BoundedBuffer.insertToBuffer_spec inserted).1
  constructor
  · exact ordered.producers
  · intro other
    have ok := ordered.categories other
    simp only [forwarding, Dispatcher.marked, Dispatcher.carried] at ok ⊢
    by_cases same : other = category
    · subst same
      rw [if_pos rfl] at ok
      rw [Function.update_self]
      exact ok.forward inserted
    · rw [if_neg (Ne.symm same)] at ok
      rw [Function.update_of_ne same]
      exact ok
  · exact ordered.screen
  · trivial
  · intro q other
    have flow := ordered.flow q other
    simp only [underWay, forwarding, Dispatcher.carried] at flow ⊢
    rw [← flow]
    by_cases same : other = category
    · subst same
      simp [Function.update_self, contents]
    · simp [Function.update_of_ne same, Ne.symm same]

theorem Ordered.finish
    {config : ConfigData n} {room next : Room n} {category : Category}
    (ordered : Ordered config room)
    (finishing : room.dispatcher = .finishing category)
    (taken : dispatch room = some next) :
    Ordered config next := by
  simp only [dispatch, finishing] at taken
  rw [Option.map_eq_some_iff] at taken
  rcases taken with ⟨bb, inserted, rfl⟩
  have contents := (BoundedBuffer.insertToBuffer_spec inserted).1
  have sees := ordered.sees
  simp only [finishing] at sees
  have carried : ∀ other,
      (category.following.elim Dispatcher.returned
        Dispatcher.finishing : Dispatcher n).carried other = [] := by
    intro other
    cases category <;> rfl
  constructor
  · exact ordered.producers
  · intro other
    have ok := ordered.categories other
    simp only [finishing, carried] at ok ⊢
    by_cases same : other = category
    · subst same
      rw [Function.update_self]
      have unmarked : (Dispatcher.finishing other : Dispatcher n).marked
          other = false := by
        cases other <;> rfl
      have marked : (other.following.elim Dispatcher.returned
          Dispatcher.finishing : Dispatcher n).marked other = true := by
        cases other <;> rfl
      rw [unmarked] at ok
      rw [marked]
      exact CategoryOk.mark ok inserted
    · rw [Function.update_of_ne same]
      have marked : (category.following.elim Dispatcher.returned
          Dispatcher.finishing : Dispatcher n).marked other =
          (Dispatcher.finishing category : Dispatcher n).marked other := by
        cases category <;> cases other <;> first | rfl | exact absurd rfl same
      rw [marked]
      exact ok
  · exact ordered.screen
  · cases category <;> exact sees
  · intro q other
    have flow := ordered.flow q other
    simp only [underWay, finishing, Dispatcher.carried] at flow
    simp only [underWay, carried]
    rw [← flow]
    by_cases same : other = category
    · subst same
      simp [Function.update_self, contents]
    · simp [Function.update_of_ne same]

theorem Ordered.edit
    {config : ConfigData n} {room next : Room n} {category : Category}
    (ordered : Ordered config room)
    (taken : edit room category = some next) :
    Ordered config next := by
  simp only [Newsroom.edit] at taken
  split at taken
  · rename_i removing
    rw [Option.map_eq_some_iff] at taken
    rcases taken with ⟨⟨message, bb⟩, removed, rfl⟩
    have contents := (BoundedBuffer.removeFromBuffer_spec removed).1
    constructor
    · exact ordered.producers
    · intro other
      have ok := ordered.categories other
      by_cases same : other = category
      · subst same
        rw [removing] at ok
        simp only [Function.update_self]
        exact ok.remove removed
      · simp only [Function.update_of_ne same]
        exact ok
    · exact ordered.screen.take (by rw [removing]; simp)
    · exact ordered.sees
    · intro q other
      have flow := ordered.flow q other
      simp only [underWay] at flow ⊢
      by_cases same : other = category
      · subst same
        simp only [Function.update_self]
        rw [← flow, removing, contents, linesOf_cons]
        simp [CoEditor.held]
      · simp only [Function.update_of_ne same]
        exact flow
  · rename_i message inserting
    rw [Option.map_eq_some_iff] at taken
    rcases taken with ⟨bb, inserted, rfl⟩
    have contents := (BoundedBuffer.insertToBuffer_spec inserted).1
    have ok := ordered.categories category
    rw [inserting] at ok
    have working : room.coEditors category ≠ .exited := by
      rw [inserting]
      simp
    have known := ok.genuine message (by simp [CoEditor.held])
    have foreign : ∀ q other, other ≠ category →
        linesOf q other [message] = [] := by
      intro q other apart
      rcases known with rfl | ⟨p, genuine⟩
      · rfl
      · exact genuine.linesOf_eq_nil (.inr (Ne.symm apart))
    have mark : message.text = finishText → message = finishMsg :=
      eq_finishMsg_of_text known fun ⟨_, genuine⟩ => genuine.text_ne
    constructor
    · exact ordered.producers
    · intro other
      by_cases same : other = category
      · subst same
        simp only [Function.update_self]
        split
        · rename_i text
          rw [mark text] at ok
          exact ok.handOverMark
        · rename_i text
          exact ok.handOver fun equal => text (by rw [equal]; rfl)
      · simp only [Function.update_of_ne same]
        exact ordered.categories other
    · split
      · rename_i text
        rw [mark text] at inserted
        exact ordered.screen.insertMark working inserted
      · rename_i text
        rcases known with equal | ⟨p, genuine⟩
        · exact absurd (by rw [equal]; rfl) text
        · exact ordered.screen.insert working genuine inserted
    · exact ordered.sees
    · intro q other
      have flow := ordered.flow q other
      simp only [underWay] at flow ⊢
      rw [← flow, contents, linesOf_append]
      by_cases same : other = category
      · subst same
        simp only [Function.update_self, inserting]
        split <;> simp [CoEditor.held]
      · simp only [Function.update_of_ne same, foreign q other same,
          List.append_nil]
  · cases taken

theorem Ordered.print
    {config : ConfigData n} {room next : Room n}
    (ordered : Ordered config room) (taken : print room = some next) :
    Ordered config next := by
  unfold Newsroom.print at taken
  split at taken
  · cases taken
  · rename_i looping
    rw [Option.map_eq_some_iff] at taken
    rcases taken with ⟨⟨message, bb⟩, removed, rfl⟩
    have contents := (BoundedBuffer.removeFromBuffer_spec removed).1
    have known := ordered.screen.genuine message (by simp [contents])
    have mark : message.text = finishText → message = finishMsg :=
      eq_finishMsg_of_text known fun ⟨_, _, genuine⟩ => genuine.text_ne
    dsimp only
    split
    · rename_i text
      rw [mark text] at removed contents
      constructor
      · exact ordered.producers
      · exact ordered.categories
      · exact ordered.screen.printMark looping removed
      · exact ordered.sees
      · intro q other
        have flow := ordered.flow q other
        simp only [underWay] at flow ⊢
        rw [← flow, contents]
        split <;> simp
    · rename_i text
      constructor
      · exact ordered.producers
      · exact ordered.categories
      · exact ordered.screen.print looping removed
          fun equal => text (by rw [equal]; rfl)
      · exact ordered.sees
      · intro q other
        have flow := ordered.flow q other
        simp only [underWay] at flow ⊢
        rw [← flow, contents, linesOf_cons]
        simp

theorem Ordered.step
    {config : ConfigData n} {room next : Room n} {label : Label n}
    (ordered : Ordered config room)
    (taken : exec config room label = some next) :
    Ordered config next := by
  cases label with
  | generate p category => exact ordered.generate taken
  | produce p => exact ordered.produce taken
  | dispatch =>
      cases dispatcher : room.dispatcher with
      | checking i all => exact ordered.check dispatcher taken
      | polling i => exact ordered.poll dispatcher taken
      | forwarding category message i =>
          exact ordered.forward dispatcher taken
      | finishing category => exact ordered.finish dispatcher taken
      | returned =>
          simp only [exec, dispatch, dispatcher] at taken
          cases taken
  | edit category => exact ordered.edit taken
  | print => exact ordered.print taken

theorem ordered_launch (config : ConfigData n) (memory : Nat → Msg n) :
    Ordered config (launch config memory) := by
  constructor
  · intro p
    constructor
    · rfl
    · simp [launch, Producer.pending]
    · exact .opened (by simp [launch, Producer.pending])
    · exact Nat.zero_le _
    · rintro ⟨⟩
    · simp [launch, Producer.pending]
    · exact fun _ => rfl
  · intro category
    constructor
    · simp [launch, CoEditor.held, Dispatcher.carried]
    · exact .opened (by simp [launch, CoEditor.held, Dispatcher.carried])
  · constructor
    · simp [launch]
    · simp [launch, exitedCount]
    · exact fun _ => .inl rfl
    · exact ⟨[], rfl, by simp⟩
  · exact fun p before => absurd before (Nat.not_lt_zero _)
  · intro p category
    simp [launch, underWay, CoEditor.held, Dispatcher.carried,
      Producer.pending]

theorem ordered_of_reachable
    {config : ConfigData n} {room : Room n}
    (reached : (newsroomSystem config).Reachable room) :
    Ordered config room := by
  refine reached.invariant (Ordered config) ?_ ?_
  · rintro room ⟨memory, rfl⟩
    exact ordered_launch config memory
  · intro room label next _ ordered taken
    exact ordered.step taken

/-! ## The whole output -/

/-- Every message counts in the line of its producer and category. -/
theorem length_eq_sum_linesOf {config : ConfigData n}
    {messages : List (Msg n)}
    (each : ∀ message ∈ messages,
      ∃ p category, Genuine config p category message) :
    messages.length =
      ∑ p, ∑ category, (linesOf p category messages).length := by
  induction messages with
  | nil => simp
  | cons message rest induction =>
      have others := induction
        fun other member => each other (List.mem_cons_of_mem _ member)
      rcases each message List.mem_cons_self with
        ⟨p, category, number, rfl⟩
      have one : ∑ q, ∑ other, (if p = q ∧ category = other then
          [newMessage (config.producersInfo p).producerId p category number]
          else []).length = 1 := by
        rw [Finset.sum_eq_single p, Finset.sum_eq_single category]
        · simp
        · intro other _ apart
          simp [Ne.symm apart]
        · simp
        · intro q _ apart
          simp [Ne.symm apart]
        · simp
      simp only [linesOf_newMessage, List.length_append,
        Finset.sum_add_distrib, List.length_cons]
      rw [one, ← others, Nat.add_comm]

/-- After the third mark nothing is under way, and every thread is done. -/
structure Drained (room : Room n) : Prop where
  coEditors : ∀ category, room.coEditors category = .exited
  dispatcher : room.dispatcher = .returned
  producers : ∀ p, (room.producers p).pc = .exited
  toScreen : room.toScreenBuf.contents = []
  categories : ∀ category, (room.categoryBufs category).contents = []
  buffers : ∀ p, (room.producersBufs p).contents = []

/-- The producers are done once the dispatcher puts its end marks. -/
theorem Ordered.isDone_of_returned
    {config : ConfigData n} {room : Room n} (ordered : Ordered config room)
    (returned : room.dispatcher = .returned) (p : Fin n) :
    (room.producersBufs p).isDone = true := by
  have sees := ordered.sees
  rw [returned] at sees
  exact sees p

theorem Ordered.drained
    {config : ConfigData n} {room : Room n} (ordered : Ordered config room)
    (third : room.doneCount = 3) : Drained room := by
  have screen := ordered.screen
  rw [third] at screen
  rcases screen.drained with ⟨exited, toScreen⟩
  have category : ∀ category, room.dispatcher.marked category = true ∧
      (room.categoryBufs category).contents = [] ∧
        room.dispatcher.carried category = [] := by
    intro category
    have ok := ordered.categories category
    rw [exited category] at ok
    exact ok.drained
  have returned : room.dispatcher = .returned := by
    have marked := (category .weather).1
    cases dispatcher : room.dispatcher with
    | returned => rfl
    | finishing mark =>
        rw [dispatcher] at marked
        cases mark <;> cases marked
    | _ =>
        rw [dispatcher] at marked
        cases marked
  have done := ordered.isDone_of_returned returned
  have producer := fun p => (ordered.producers p).drained (done p)
  exact ⟨exited, returned, fun p => (producer p).1, toScreen,
    fun other => (category other).2.1, fun p => (producer p).2.1⟩

/-- What the screen shows when everything is printed. -/
structure Delivered (config : ConfigData n) (room : Room n) : Prop where
  lines : ∀ p category,
    linesOf p category room.output = room.generated p category
  numbered : ∀ p category, ∃ count, room.generated p category =
    (List.range count).map
      (newMessage (config.producersInfo p).producerId p category)
  complete : ∀ p, ∑ category, (room.generated p category).length =
    (config.producersInfo p).numOfMessages
  noOther : ∃ messages, room.output = messages ++ [finishMsg] ∧
    ∀ message ∈ messages, ∃ p category, Genuine config p category message
  total : room.output.length =
    (∑ p, (config.producersInfo p).numOfMessages) + 1

/--
When the screen manager has printed its final DONE, the lines of each producer
in each category are the messages it generated there, in order; DONE is the last
line, and there is one line for each message besides it.
-/
theorem newsroom_delivers
    {config : ConfigData n} {room : Room n}
    (reached : (newsroomSystem config).Reachable room)
    (finished : finishMsg ∈ room.output) :
    Delivered config room := by
  have ordered := ordered_of_reachable reached
  rcases ordered.screen.printed with ⟨messages, printed, each⟩
  have third : room.doneCount = 3 := by
    by_contra looping
    rw [if_neg looping, List.append_nil] at printed
    rw [printed] at finished
    rcases each finishMsg finished with ⟨p, category, genuine⟩
    exact genuine.ne_finishMsg rfl
  rw [if_pos third] at printed
  have drained := ordered.drained third
  have done := ordered.isDone_of_returned drained.dispatcher
  have producer := fun p => ((ordered.producers p).drained (done p)).2.2
  have lines : ∀ p category,
      linesOf p category room.output = room.generated p category := by
    intro p other
    rw [← ordered.flow p other, underWay, drained.toScreen,
      drained.coEditors other, drained.categories other, drained.dispatcher,
      drained.buffers p, (producer p).1]
    simp [CoEditor.held, Dispatcher.carried]
  refine ⟨lines, fun p category => ⟨_, (ordered.producers p).numbers category⟩,
    fun p => (producer p).2, ⟨messages, printed, each⟩, ?_⟩
  have shown : ∀ p other, linesOf p other messages =
      room.generated p other := by
    intro p other
    rw [← lines p other, printed]
    simp
  rw [printed, List.length_append, length_eq_sum_linesOf each]
  simp only [shown, (producer _).2, List.length_singleton]

/-! ## One message -/

/-- One producer with one message, and buffers of one cell. -/
def oneMessage : ConfigData 1 where
  producersInfo _ := ⟨7, 1, 1, by decide, by decide, Nat.one_pos⟩
  coEditorQueueSize := 1
  coEditorQueueSize_pos := Nat.one_pos

/-- Its producer. -/
def onlyProducer : Fin 1 := ⟨0, Nat.one_pos⟩

/-- A run that prints the message and DONE. -/
def oneMessageRun : List (Label 1) :=
  [.generate onlyProducer .news, .produce onlyProducer, .dispatch, .dispatch,
    .produce onlyProducer, .dispatch, .dispatch, .dispatch, .dispatch,
    .dispatch, .dispatch, .dispatch, .dispatch, .edit .news, .dispatch,
    .dispatch, .edit .news, .print, .edit .news, .edit .news, .print,
    .edit .sports, .edit .sports, .print, .edit .weather, .edit .weather,
    .print]

def oneMessagePrinted : Room 1 :=
  (oneMessageRun.foldlM (exec oneMessage)
    (launch oneMessage fun _ => finishMsg)).get (by decide +kernel)

theorem newsroom_delivers_oneMessage :
    Delivered oneMessage oneMessagePrinted :=
  newsroom_delivers
    (System.Reachable.of_run (fun _ _ _ taken => taken) (.start ⟨_, rfl⟩)
      (Option.some_get _).symm)
    (by decide +kernel)

end OSCourse.Newsroom
