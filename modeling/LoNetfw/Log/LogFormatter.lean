import LoNetfw.Log.Logger
import LoNetfw.Util.FormatParser
import LoNetfw.Util.LexicalCast

namespace LoNetfw.Log

open Util

/-!
# `LogFormatter` — what a format prints

The constructor makes an item of every token of the format, and `format` prints the items one after
the other.

* `LogFormatItem.format` — what an item prints;
* `pieceItem` — the item of a piece of the format;
* `LogFormatter.format_eq` — a formatter prints its format piece by piece;
* `headerTable` — the letters that the header of `LogFormatter` lists and what it says of each,
  `describedPiece` — what a piece of a format prints by that table;
* `format_as_described_iff` — the formats that print what the header says for every event: the code
  agrees with the table but for `%r`, which prints the message again instead of the milliseconds.

The local time and `strftime` are an argument.
-/

/-- `LogEvent`. -/
structure LogEvent where
  level : Level
  file : Text
  line : UInt32
  elapse : UInt32
  threadId : UInt32
  fiberId : UInt32
  time : UInt64
  message : Text
  threadName : Text

/-- The classes derived from `LogFormatItem`. -/
inductive LogFormatItem
  | message
  | level
  | elapse
  | name
  | threadId
  | line
  | dateTime (format : Text)
  | filename
  | fiberId
  | threadName
  | newLine
  | tab
  | string (str : Text)
  deriving DecidableEq, Repr

/-- `m_item_factory`; its keys are single letters. -/
def itemFactory : List (UInt8 × LogFormatItem) :=
  [(109, .message), (112, .level), (114, .elapse), (99, .name), (116, .threadId), (108, .line),
    (100, .dateTime (ascii "%Y-%m-%d %H:%M:%S")), (102, .filename), (70, .fiberId),
    (78, .threadName), (110, .newLine), (84, .tab)]

/-- `m_item_factory.find(it.first)`. -/
def findFactory : Text → Option LogFormatItem
  | [c] => (itemFactory.find? fun e => e.1 == c).map (·.2)
  | _ => none

/-- What the constructor makes of a token; a token has one of the three kinds. -/
def tokenItem (it : FormatToken) : Option LogFormatItem :=
  if it.kind = 0 then some (.string it.str)
  else if it.kind = 1 then
    match findFactory it.str with
    | some item => some item
    | none => some (.string (ascii "<unknown format:%" ++ it.str ++ ascii ">"))
  else if it.kind = 2 then some (.dateTime it.str)
  else none

section Format

variable (getDateTime : UInt64 → Text → Text) (loggerName : Text) (level : Level) (event : LogEvent)

/-- `LogFormatItem::format`. -/
def LogFormatItem.format : LogFormatItem → Text
  | .message => event.message
  | .level => getLevelName level
  | .elapse => event.message
  | .name => loggerName
  | .threadId => natText event.threadId.toNat
  | .line => natText event.line.toNat
  | .dateTime format =>
    if format = [] then natText event.time.toNat else getDateTime event.time format
  | .filename => event.file
  | .fiberId => natText event.fiberId.toNat
  | .threadName => event.threadName
  | .newLine => [10]
  | .tab => [9]
  | .string str => str

end Format

structure LogFormatter where
  items : List LogFormatItem
  text : Text
  deriving DecidableEq, Repr

namespace LogFormatter

/-- The constructor. -/
def new (format : Text) : Except FormatFault LogFormatter := do
  let vec ← formatParser format
  return ⟨vec.filterMap tokenItem, format⟩

/-- `format(logger_name, level, event)`. -/
def format (getDateTime : UInt64 → Text → Text) (f : LogFormatter) (loggerName : Text) (level : Level)
    (event : LogEvent) : Text :=
  f.items.flatMap (·.format getDateTime loggerName level event)

end LogFormatter

/-! ### Formats piece by piece -/

/-- An `int` can index the format, and no `%d{` is left open. -/
def ValidFormat (fmt : Text) : Prop := fmt.length < 2 ^ 31 ∧ ¬ Unclosed fmt

/-- The item that a piece of a format becomes. -/
def pieceItem : Piece → LogFormatItem
  | .literal run => .string run
  | .escape | .lone => .string [37]
  | .date body => .dateTime body
  | .item c => (findFactory [c]).getD (.string (ascii "<unknown format:%" ++ [c] ++ ascii ">"))

/-- Each piece of a format becomes one item. -/
theorem tokenItem_token (p : Piece) : tokenItem p.token = some (pieceItem p) := by
  cases p with
  | item c =>
    rw [Piece.token, tokenItem, pieceItem]
    cases findFactory [c] <;> rfl
  | literal | escape | date | lone => rfl

namespace LogFormatter

variable {fmt : Text} {ps : List Piece}

/-- The items of a formatter are those of the pieces. -/
theorem new_eq (hlen : fmt.length < 2 ^ 31) :
    new fmt = match lexWith false fmt with
      | .ok ps => .ok ⟨ps.map pieceItem, fmt⟩
      | .error body => .error (.runtimeError (body ++ ascii ": format error")) := by
  rw [new, formatParser_eq hlen]
  cases lexWith false fmt with
  | error body => rfl
  | ok ps =>
    have hitems : (ps.map Piece.token).filterMap tokenItem = ps.map pieceItem := by
      rw [List.filterMap_map, ← List.filterMap_eq_map]
      exact List.filterMap_congr fun p _ => tokenItem_token p
    show Except.ok (LogFormatter.mk ((ps.map Piece.token).filterMap tokenItem) fmt) = _
    rw [hitems]

/-- A formatter keeps the format that it was made of. -/
theorem new_text {f : LogFormatter} (h : new fmt = .ok f) : f.text = fmt := by
  rw [new] at h
  cases hvec : formatParser fmt with
  | error e => simp [hvec, bind, Except.bind] at h
  | ok vec =>
    obtain rfl : LogFormatter.mk (vec.filterMap tokenItem) fmt = f := by
      simpa [hvec, bind, Except.bind, pure, Except.pure] using h
    rfl

/-- The constructor returns for exactly these formats. -/
theorem new_ok_iff (fmt : Text) : (∃ f, new fmt = .ok f) ↔ ValidFormat fmt := by
  -- a format of 2³¹ characters or more overflows the index
  by_cases hlen : fmt.length < 2 ^ 31
  · rw [new_eq hlen, ValidFormat, and_iff_right hlen]
    cases hlex : lexWith false fmt with
    | ok ps =>
      refine iff_of_true ⟨_, rfl⟩ fun hopen => ?_
      obtain ⟨body, hbody⟩ := lexWith_of_unclosed hopen
      cases hlex.symm.trans hbody
    | error body =>
      refine iff_of_false ?_ (not_not.mpr (unclosed_of_lexWith hlex))
      rintro ⟨f, hf⟩
      cases hf
  · refine iff_of_false ?_ fun h => hlen h.1
    rintro ⟨f, hf⟩
    rw [new, formatParser_overflow (Nat.le_of_not_lt hlen)] at hf
    cases hf

/-- With no escaped `%` a format is printed piece by piece, in its order. -/
theorem format_eq (hlen : fmt.length < 2 ^ 31) (hlex : lex fmt = .ok ps) (hps : Piece.escape ∉ ps) :
    ∃ f, new fmt = .ok f ∧ ∀ getDateTime loggerName level event,
      f.format getDateTime loggerName level event =
        ps.flatMap fun p => (pieceItem p).format getDateTime loggerName level event := by
  refine ⟨⟨ps.map pieceItem, fmt⟩, ?_, ?_⟩
  · rw [new_eq hlen, lexWith_false_of_notMem hlex hps]
  · intro getDateTime loggerName level event
    exact List.flatMap_map ..

end LogFormatter

/-! ### What the header says -/

/-- An event without a message, of a program that has just started. -/
def silent : LogEvent where
  level := .debug
  file := []
  line := 0
  elapse := 0
  threadId := 0
  fiberId := 0
  time := 0
  message := []
  threadName := []

section Described

variable (getDateTime : UInt64 → Text → Text) (loggerName : Text) (level : Level) (event : LogEvent)

/-- The table in the header of `LogFormatter`, line by line: what each letter stands for. -/
def headerTable : List (UInt8 × Text) :=
  [ -- `%m` the message, `%p` the level of the log
    (109, event.message),
    (112, getLevelName level),
    -- `%r` the accumulated milliseconds
    (114, natText event.elapse.toNat),
    -- `%c` the name of the log, `%t` the thread
    (99, loggerName),
    (116, natText event.threadId.toNat),
    -- `%n` a line break, `%d` the time
    (110, [10]),
    (100, getDateTime event.time (ascii "%Y-%m-%d %H:%M:%S")),
    -- `%f` the file, `%l` the line
    (102, event.file),
    (108, natText event.line.toNat),
    -- `%T` a tab, `%F` the fiber, `%N` the name of the thread
    (84, [9]),
    (70, natText event.fiberId.toNat),
    (78, event.threadName)]

/-- The letters of the table; they are the same for all events. -/
def headerLetters : List UInt8 := (headerTable (fun _ _ => []) [] .debug silent).map Prod.fst

/-- What a piece of a format prints by the table; any other text stands for itself. -/
def describedPiece : Piece → Text
  | .literal run => run
  | .escape | .lone => [37]
  | .date body => getDateTime event.time body
  | .item c => ((headerTable getDateTime loggerName level event).lookup c).getD []

/-- The pieces of which the header speaks: their letters are in the table, and a `%d{` has a format
    of its own; of `%%` it does not say that it is one. -/
def Documented : Piece → Prop
  | .escape => False
  | .date body => body ≠ []
  | .item c => c ∈ headerLetters
  | .literal _ | .lone => True

instance : (p : Piece) → Decidable (Documented p)
  | .escape => .isFalse id
  | .date body => inferInstanceAs (Decidable (body ≠ []))
  | .item c => inferInstanceAs (Decidable (c ∈ headerLetters))
  | .literal _ | .lone => .isTrue trivial

variable {getDateTime loggerName level event}

/-- **One piece.** Every piece but `%r` prints what the table says of it. -/
theorem format_pieceItem {p : Piece} (hp : Documented p) (hr : p ≠ .item 114) :
    (pieceItem p).format getDateTime loggerName level event =
      describedPiece getDateTime loggerName level event p := by
  cases p with
  | literal run => rfl
  | lone => rfl
  | escape => exact hp.elim
  | date body => exact if_neg hp
  | item c =>
    have hc : c ∈ headerLetters := hp
    have hne : c ≠ 114 := fun heq => hr (congrArg Piece.item heq)
    simp only [headerLetters, headerTable, List.map_cons, List.map_nil, List.mem_cons,
      List.not_mem_nil, or_false] at hc
    -- `%r` is the only letter of the header that the table prints otherwise
    rcases hc with rfl | rfl | rfl | rfl | rfl | rfl | rfl | rfl | rfl | rfl | rfl | rfl
    case inr.inr.inl => exact absurd rfl hne
    all_goals rfl

/-- For the silent event every `%r` of the format is one character short. -/
theorem length_described (getDateTime : UInt64 → Text → Text) (loggerName : Text) (level : Level)
    {ps : List Piece} (hps : ∀ p ∈ ps, Documented p) :
    (ps.flatMap (describedPiece getDateTime loggerName level silent)).length =
      (ps.flatMap fun p => (pieceItem p).format getDateTime loggerName level silent).length +
        ps.count (.item 114) := by
  induction ps with
  | nil => rfl
  | cons p ps ih =>
    rw [List.flatMap_cons, List.flatMap_cons, List.length_append, List.length_append,
      ih fun q hq => hps q (List.mem_cons_of_mem p hq), List.count_cons]
    -- with an empty message `%r` prints nothing, where the header has the digit of zero
    by_cases hp : p = .item 114
    · subst hp
      have hone : (describedPiece getDateTime loggerName level silent (.item 114)).length = 1 := rfl
      have hnone : ((pieceItem (.item 114)).format getDateTime loggerName level silent).length = 0 :=
        rfl
      rw [hone, hnone]
      simp only [beq_self_eq_true, if_true]
      omega
    · rw [format_pieceItem (hps p List.mem_cons_self) hp, if_neg (fun heq => hp (by simpa using heq))]
      omega

/-- **What a format prints.** A format below `2 ^ 31` characters whose `%d{` are closed, of whose
    pieces the header speaks, makes a formatter.  It prints, for every event, what the header says
    about the pieces of the format, in their order, if and only if `%r` is not among them. -/
theorem format_as_described_iff (getDateTime : UInt64 → Text → Text) (fmt : Text) (ps : List Piece)
    (hlen : fmt.length < 2 ^ 31) (hlex : lex fmt = .ok ps) (hps : ∀ p ∈ ps, Documented p) :
    ∃ f, LogFormatter.new fmt = .ok f ∧
      ((∀ loggerName level event, f.format getDateTime loggerName level event =
          ps.flatMap (describedPiece getDateTime loggerName level event)) ↔
        Piece.item 114 ∉ ps) := by
  have hescape : Piece.escape ∉ ps := fun hmem => hps .escape hmem
  obtain ⟨f, hnew, hformat⟩ := LogFormatter.format_eq hlen hlex hescape
  refine ⟨f, hnew, fun h hmem => ?_, fun hnot loggerName level event => ?_⟩
  -- the silent event tells the two apart by the length
  · have heq := h [] .debug silent
    have hlength := length_described getDateTime [] .debug hps
    have hpos := List.count_pos_iff.mpr hmem
    rw [← heq, hformat] at hlength
    omega
  · rw [hformat]
    apply List.flatMap_congr
    intro p hp
    exact format_pieceItem (hps p hp) fun heq => hnot (heq ▸ hp)

/-- `[%p]%m` prints the level and the message. -/
theorem format_as_described_level : ∃ f, LogFormatter.new (ascii "[%p]%m") = .ok f ∧
    ∀ event, f.format (fun _ _ => []) [] .warn event = ascii "[WARN]" ++ event.message := by
  have hlex : lex (ascii "[%p]%m") =
      .ok [.literal [91], .item 112, .literal [93], .item 109] := by
    simp [lex, lexWith, firstPiece, Except.map, ascii, Basis.upTo, Basis.fromFirst]
  obtain ⟨f, hnew, hformat⟩ := format_as_described_iff (fun _ _ => []) _ _ (by decide) hlex (by decide)
  refine ⟨f, hnew, fun event => ?_⟩
  rw [hformat.mpr (by decide)]
  show _ ++ (_ ++ (_ ++ (event.message ++ []))) = _
  rw [List.append_nil]
  rfl

end Described

end LoNetfw.Log
