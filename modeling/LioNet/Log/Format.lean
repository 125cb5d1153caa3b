import LioNet.Log.Define
import LioNet.Log.Pattern

/-!
# Formatting an event

`LogFormatter::format` of `log.cc`: every format item writes its part of the event.  The date is
written by `strftime` into a buffer of 64 bytes; when the text does not fit, the buffer is
indeterminate, and then so is the line (`none`).

`localtime_r` and `strftime` belong to the C library.  `CLibrary` keeps what is used of them: the
format is read up to its terminator, ordinary characters stand for themselves, `%%` stands for a
percent sign, and the conversions of the default format write numbers.
-/

namespace LioNet.Log

/-- The conversions `%Y`, `%m`, `%d`, `%H`, `%M` and `%S`. -/
def isNumber (x : Char) : Bool := x ∈ ['Y', 'm', 'd', 'H', 'M', 'S']

structure CLibrary where
  Tm : Type
  localtime : BitVec 64 → Tm
  strftime : List Char → Tm → List Char
  strftime_nil : ∀ tm, strftime [] tm = []
  strftime_nul : ∀ cs tm, strftime ('\x00' :: cs) tm = []
  strftime_ordinary : ∀ c cs tm, c ≠ '%' → c ≠ '\x00' →
    strftime (c :: cs) tm = c :: strftime cs tm
  strftime_percent : ∀ cs tm, strftime ('%' :: '%' :: cs) tm = '%' :: strftime cs tm
  strftime_number : ∀ x cs tm, isNumber x = true →
    ∃ ds, ds ≠ [] ∧ (∀ c ∈ ds, c = '-' ∨ c.isDigit = true) ∧
      strftime ('%' :: x :: cs) tm = ds ++ strftime cs tm

/-- What the conversions of the default format write at the epoch. -/
def epochNumber (x : Char) : List Char :=
  if x = 'Y' then "1970".toList else if x = 'm' ∨ x = 'd' then "01".toList else "00".toList

/-- A format at the epoch, `behind` a percent sign or not. -/
def epochText (behind : Bool) : List Char → List Char
  | [] => []
  | c :: cs =>
    if behind then
      if c = '%' then '%' :: epochText false cs else epochNumber c ++ epochText false cs
    else if c = '\x00' then []
    else if c = '%' then epochText true cs
    else c :: epochText false cs

theorem isDigit_of_all {ds : List Char} (h : ds.all (fun c => c = '-' || c.isDigit) = true) :
    ∀ c ∈ ds, c = '-' ∨ c.isDigit = true := by
  intro c hc
  have hall := List.all_eq_true.mp h c hc
  rwa [Bool.or_eq_true, decide_eq_true_iff] at hall

/-- A C library whose clock stands at the epoch. -/
def CLibrary.epoch : CLibrary where
  Tm := Unit
  localtime _ := ()
  strftime cs _ := epochText false cs
  strftime_nil _ := rfl
  strftime_nul _ _ := rfl
  strftime_ordinary c cs _ hp h0 := by
    rw [epochText, if_neg Bool.false_ne_true, if_neg h0, if_neg hp]
  strftime_percent _ _ := rfl
  strftime_number x cs _ hx := by
    refine ⟨epochNumber x, ?_, ?_, ?_⟩
    · unfold epochNumber
      split
      · decide
      · split <;> decide
    · unfold epochNumber
      split
      · exact isDigit_of_all (by decide)
      · split
        · exact isDigit_of_all (by decide)
        · exact isDigit_of_all (by decide)
    · have hp : x ≠ '%' := by
        rintro rfl
        cases hx
      show (if x = '%' then '%' :: epochText false cs else epochNumber x ++ epochText false cs) = _
      rw [if_neg hp]

/-- What the items read of a `LogEvent`. -/
structure LogEvent where
  file : String
  line : BitVec 32
  elapse : BitVec 32
  threadId : BitVec 32
  fiberId : BitVec 32
  time : BitVec 64
  content : String
  threadName : String

/-- `DateTimeFormatItem::DateTimeFormatItem`. -/
def dateTimeFormat (format : String) : String :=
  if format = "" then "%Y-%m-%d %H:%M:%S" else format

/-- What `strftime` leaves in a buffer of `size` bytes. -/
def CLibrary.buffer (L : CLibrary) (size : Nat) (format : List Char) (tm : L.Tm) :
    Option (List Char) :=
  if (L.strftime format tm).length < size then some (L.strftime format tm) else none

/-- `FormatItem::format`: what the item writes. -/
def FormatItem.format (L : CLibrary) (logger : String) (level : Level) (event : LogEvent) :
    FormatItem → Option (List Char)
  | .string str => some str.toList
  | .item .message _ => some event.content.toList
  | .item .level _ => some level.toString.toList
  | .item .elapse _ => some (toString event.elapse.toInt).toList
  | .item .name _ => some logger.toList
  | .item .threadId _ => some (toString event.threadId.toInt).toList
  | .item .newLine _ => some ['\n']
  | .item .dateTime fmt =>
    L.buffer 64 (dateTimeFormat fmt).toList (L.localtime event.time)
  | .item .filename _ => some event.file.toList
  | .item .line _ => some (toString event.line.toInt).toList
  | .item .tab _ => some ['\t']
  | .item .fiberId _ => some (toString event.fiberId.toNat).toList
  | .item .threadName _ => some event.threadName.toList

/-- The items write one after the other. -/
def writeItems (L : CLibrary) (logger : String) (level : Level) (event : LogEvent) :
    List FormatItem → Option (List Char)
  | [] => some []
  | i :: is =>
    (i.format L logger level event).bind fun out =>
      (writeItems L logger level event is).map fun rest => out ++ rest

def LogFormatter.format (f : LogFormatter) (L : CLibrary) (logger : String) (level : Level)
    (event : LogEvent) : Option String :=
  (writeItems L logger level event f.items).map String.ofList

section

variable {L : CLibrary} {logger : String} {level : Level} {event : LogEvent}

theorem writeItems_cons_eq_some {i : FormatItem} {is : List FormatItem} {out : List Char} :
    writeItems L logger level event (i :: is) = some out ↔
      ∃ o rest, i.format L logger level event = some o ∧
        writeItems L logger level event is = some rest ∧ out = o ++ rest := by
  simp only [writeItems, Option.bind_eq_some_iff, Option.map_eq_some_iff]
  constructor
  · rintro ⟨o, ho, rest, hrest, rfl⟩
    exact ⟨o, rest, ho, hrest, rfl⟩
  · rintro ⟨o, rest, ho, hrest, rfl⟩
    exact ⟨o, ho, rest, hrest, rfl⟩

theorem writeItems_append_eq_some {is js : List FormatItem} {out : List Char} :
    writeItems L logger level event (is ++ js) = some out ↔
      ∃ o rest, writeItems L logger level event is = some o ∧
        writeItems L logger level event js = some rest ∧ out = o ++ rest := by
  induction is generalizing out with
  | nil =>
    constructor
    · intro h
      exact ⟨[], out, rfl, h, rfl⟩
    · rintro ⟨o, rest, ho, hrest, rfl⟩
      obtain rfl : [] = o := Option.some.inj ho
      exact hrest
  | cons i is ih =>
    rw [List.cons_append, writeItems_cons_eq_some]
    constructor
    · rintro ⟨o, rest, ho, hrest, rfl⟩
      obtain ⟨o', rest', ho', hrest', rfl⟩ := ih.mp hrest
      exact ⟨o ++ o', rest', writeItems_cons_eq_some.mpr ⟨o, o', ho, ho', rfl⟩, hrest',
        (List.append_assoc ..).symm⟩
    · rintro ⟨o, rest, ho, hrest, rfl⟩
      obtain ⟨o₁, o₂, ho₁, ho₂, rfl⟩ := writeItems_cons_eq_some.mp ho
      exact ⟨o₁, o₂ ++ rest, ho₁, ih.mpr ⟨o₂, rest, ho₂, hrest, rfl⟩, List.append_assoc ..⟩

/-- Literal text is written as it is. -/
theorem writeItems_flush (nstr : List Char) :
    writeItems L logger level event ((flush nstr).map Piece.item) = some nstr := by
  by_cases h : nstr = []
  · subst h
    rfl
  · rw [flush, if_neg h]
    simp [writeItems, FormatItem.format, Piece.item]

end

end LioNet.Log
