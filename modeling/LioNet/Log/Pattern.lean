import LioNet.Log.Formatter

/-!
# Patterns written from their items

The scanner of `LogFormatter::init` reads back what a list of items prints: literal text, bare
conversions such as `%p`, and conversions with a format in braces.  Two neighbours may run together,
and then the text no longer says where one of them ends: two literals, and a bare conversion with a
literal that could still belong to its name.  `Apart` excludes these two; the scanner then stops
behind every item.

The proof follows the outer loop.  Each kind of item has one lemma, which says what the loop does with
it in front of any rest.
-/

namespace LioNet.Log

/-! ### The items and their text -/

/-- The letter that `s_format_items` lists for a conversion. -/
def Conversion.letter : Conversion → Char
  | .message => 'm'
  | .level => 'p'
  | .elapse => 'r'
  | .name => 'c'
  | .threadId => 't'
  | .newLine => 'n'
  | .dateTime => 'd'
  | .filename => 'f'
  | .line => 'l'
  | .tab => 'T'
  | .fiberId => 'F'
  | .threadName => 'N'

inductive PatternItem
  | literal (str : String)
  | bare (x : Conversion)
  | braced (x : Conversion) (fmt : String)
  deriving DecidableEq, Repr

namespace PatternItem

def text : PatternItem → List Char
  | .literal str => str.toList
  | .bare x => ['%', x.letter]
  | .braced x fmt => '%' :: x.letter :: '{' :: (fmt.toList ++ ['}'])

def print (is : List PatternItem) : String := String.ofList (is.flatMap text)

/-- The format item that stands for it. -/
def item : PatternItem → FormatItem
  | .literal str => .string str
  | .bare x => .item x ""
  | .braced x fmt => .item x fmt

/-- A literal has text and no percent sign; a format has no closing brace. -/
def Plain : PatternItem → Prop
  | .literal str => str ≠ "" ∧ '%' ∉ str.toList
  | .bare _ => True
  | .braced _ fmt => '}' ∉ fmt.toList

end PatternItem

/-- The inner loop takes `c` for a part of the conversion's name. -/
def inName (c : Char) : Bool := isalpha c || c = '{' || c = '}'

/-- The text of the first item ends where that of the second begins. -/
def PatternItem.Apart : PatternItem → PatternItem → Prop
  | .literal _, .literal _ => False
  | .bare _, .literal str => ∀ c, str.toList.head? = some c → inName c = false
  | _, _ => True

structure WellFormed (is : List PatternItem) : Prop where
  plain : ∀ i ∈ is, i.Plain
  apart : is.IsChain PatternItem.Apart

/-! ### The scanner, item by item -/

theorem formatItems_letter (x : Conversion) :
    formatItems (String.ofList [x.letter]) = some x := by
  cases x <;> rfl

theorem letter_ne_percent (x : Conversion) : x.letter ≠ '%' := by
  cases x <;> decide

theorem isalpha_letter (x : Conversion) : isalpha x.letter = true := by
  cases x <;> decide

theorem letter_ne_brace (x : Conversion) : x.letter ≠ '{' := by
  cases x <;> decide

theorem pieces_nil (nstr : List Char) : pieces nstr [] = flush nstr := by
  rw [pieces]

/-- Literal text is kept for later. -/
theorem pieces_literal {str : List Char} (h : '%' ∉ str) (nstr cs : List Char) :
    pieces nstr (str ++ cs) = pieces (nstr ++ str) cs := by
  induction str generalizing nstr with
  | nil => rw [List.nil_append, List.append_nil]
  | cons c str ih =>
    have hc : c ≠ '%' := fun e => h (e ▸ List.mem_cons_self)
    have hstr : '%' ∉ str := fun hm => h (List.mem_cons_of_mem c hm)
    rw [List.cons_append, pieces, if_pos hc, ih hstr, List.append_assoc, List.singleton_append]

/-- A percent sign that starts a conversion. -/
theorem pieces_percent {nstr cs : List Char} (h : cs.head? ≠ some '%') :
    pieces nstr ('%' :: cs) =
      match scanName [] cs with
      | some (str, fmt, rest) =>
        flush nstr ++ .conversion (String.ofList str) (String.ofList fmt) :: pieces [] rest
      | none => .unclosed :: pieces nstr cs := by
  rw [pieces, if_neg (not_not_intro rfl), if_neg h]
  cases scanName [] cs <;> rfl

/-- The name of a conversion ends at the end of the pattern and before a sign that no name has. -/
theorem scanName_stop {cs : List Char} (h : ∀ c, cs.head? = some c → inName c = false)
    (str : List Char) : scanName str cs = some (str, [], cs) := by
  cases cs with
  | nil => rfl
  | cons c cs =>
    have hc : inName c = false := h c rfl
    have hstop : (!isalpha c && c ≠ '{' && c ≠ '}') = true := by
      simp only [inName, Bool.or_eq_false_iff, decide_eq_false_iff_not] at hc
      simp [hc.1.1, hc.1.2, hc.2]
    rw [scanName, if_pos hstop]

theorem scanName_letter (x : Conversion) (str cs : List Char) :
    scanName str (x.letter :: cs) = scanName (str ++ [x.letter]) cs := by
  rw [scanName, if_neg, if_neg (letter_ne_brace x)]
  simp [isalpha_letter]

theorem scanFormat_close {fmt : List Char} (h : '}' ∉ fmt) (str pre cs : List Char) :
    scanFormat str pre (fmt ++ '}' :: cs) = some (str, pre ++ fmt, cs) := by
  induction fmt generalizing pre with
  | nil => rw [List.nil_append, scanFormat, if_pos rfl, List.append_nil]
  | cons c fmt ih =>
    have hc : c ≠ '}' := fun e => h (e ▸ List.mem_cons_self)
    have hfmt : '}' ∉ fmt := fun hm => h (List.mem_cons_of_mem c hm)
    rw [List.cons_append, scanFormat, if_neg hc, ih hfmt, List.append_assoc, List.singleton_append]

theorem scanName_braced {fmt : List Char} (h : '}' ∉ fmt) (str cs : List Char) :
    scanName str ('{' :: (fmt ++ '}' :: cs)) = some (str, fmt, cs) := by
  have hbrace : ¬(!isalpha '{' && '{' ≠ '{' && '{' ≠ '}') = true := by decide
  rw [scanName, if_neg hbrace, if_pos rfl, scanFormat_close h, List.nil_append]

theorem pieces_bare {cs : List Char} (h : ∀ c, cs.head? = some c → inName c = false)
    (x : Conversion) (nstr : List Char) :
    pieces nstr ('%' :: x.letter :: cs) =
      flush nstr ++ .conversion (String.ofList [x.letter]) "" :: pieces [] cs := by
  have hne : (x.letter :: cs).head? ≠ some '%' :=
    fun e => letter_ne_percent x (Option.some.inj e)
  rw [pieces_percent hne, scanName_letter, List.nil_append, scanName_stop h]

theorem pieces_braced {fmt : List Char} (h : '}' ∉ fmt) (x : Conversion) (nstr cs : List Char) :
    pieces nstr ('%' :: x.letter :: '{' :: (fmt ++ '}' :: cs)) =
      flush nstr ++ .conversion (String.ofList [x.letter]) (String.ofList fmt) :: pieces [] cs := by
  have hne : (x.letter :: '{' :: (fmt ++ '}' :: cs)).head? ≠ some '%' :=
    fun e => letter_ne_percent x (Option.some.inj e)
  rw [pieces_percent hne, scanName_letter, List.nil_append, scanName_braced h]

/-! ### The whole pattern -/

/-- The entry of `vec` that an item gives. -/
def PatternItem.piece : PatternItem → Piece
  | .literal str => .text str
  | .bare x => .conversion (String.ofList [x.letter]) ""
  | .braced x fmt => .conversion (String.ofList [x.letter]) fmt

theorem PatternItem.item_piece (i : PatternItem) : i.piece.item = i.item := by
  cases i with
  | literal str => rfl
  | bare x | braced x fmt =>
    rw [piece, Piece.item, formatItems_letter]
    rfl

theorem PatternItem.isError_piece (i : PatternItem) : i.piece.isError = false := by
  cases i with
  | literal str => rfl
  | bare x | braced x fmt =>
    rw [piece, Piece.isError, formatItems_letter]
    rfl

/-- No name reaches into what may follow a bare conversion. -/
theorem stops_of_apart {x : Conversion} {is : List PatternItem}
    (hplain : ∀ i ∈ is, i.Plain) (hapart : (PatternItem.bare x :: is).IsChain PatternItem.Apart)
    (c : Char) (hc : (is.flatMap PatternItem.text).head? = some c) : inName c = false := by
  cases is with
  | nil => cases hc
  | cons i is =>
    have hap : PatternItem.Apart (.bare x) i := (List.isChain_cons_cons.mp hapart).1
    cases i with
    | literal str =>
      have hne : str.toList ≠ [] := fun e =>
        (hplain _ List.mem_cons_self).1 (String.toList_eq_nil_iff.mp e)
      rw [List.flatMap_cons, PatternItem.text, List.head?_append_of_ne_nil _ hne] at hc
      exact hap c hc
    | bare y | braced y fmt =>
      obtain rfl : c = '%' := (Option.some.inj hc).symm
      rfl

theorem pieces_flatMap {is : List PatternItem} (h : WellFormed is) (nstr : List Char)
    (hn : nstr = [] ∨ ∀ str rest, is ≠ .literal str :: rest) :
    pieces nstr (is.flatMap PatternItem.text) = flush nstr ++ is.map PatternItem.piece := by
  induction is generalizing nstr with
  | nil => rw [List.flatMap_nil, pieces_nil, List.map_nil, List.append_nil]
  | cons i is ih =>
    have hplain : ∀ j ∈ is, j.Plain := fun j hj => h.plain j (List.mem_cons_of_mem i hj)
    have hrest : WellFormed is := ⟨hplain, h.apart.of_cons⟩
    have hi : i.Plain := h.plain i List.mem_cons_self
    rw [List.flatMap_cons, List.map_cons]
    cases i with
    | literal str =>
      obtain rfl : nstr = [] := hn.resolve_right fun hlit => hlit str is rfl
      -- the text is flushed by the item behind it, which is no literal
      have hnext : ∀ str' rest, is ≠ .literal str' :: rest := by
        rintro str' rest rfl
        exact (List.isChain_cons_cons.mp h.apart).1
      have hne : str.toList ≠ [] := fun e => hi.1 (String.toList_eq_nil_iff.mp e)
      rw [PatternItem.text, pieces_literal hi.2, List.nil_append, ih hrest _ (.inr hnext), flush,
        if_neg hne, String.ofList_toList]
      rfl
    | bare x =>
      have hstop := stops_of_apart hplain h.apart
      show pieces nstr ('%' :: x.letter :: is.flatMap PatternItem.text) = _
      rw [pieces_bare hstop, ih hrest [] (.inl rfl)]
      rfl
    | braced x fmt =>
      show pieces nstr ('%' :: x.letter :: '{' :: ((fmt.toList ++ ['}']) ++ _)) = _
      rw [List.append_assoc, List.singleton_append, pieces_braced hi, ih hrest [] (.inl rfl),
        String.ofList_toList]
      rfl

/-- **`init` inverts printing**: a pattern gives back exactly the items it was printed from. -/
theorem items_print {is : List PatternItem} (h : WellFormed is) :
    (LogFormatter.mk (PatternItem.print is)).items = is.map PatternItem.item ∧
      (LogFormatter.mk (PatternItem.print is)).isError = false := by
  have hp : (LogFormatter.mk (PatternItem.print is)).pieces = is.map PatternItem.piece := by
    rw [LogFormatter.pieces, PatternItem.print, String.toList_ofList,
      pieces_flatMap h [] (.inl rfl)]
    rfl
  refine ⟨?_, ?_⟩
  · rw [LogFormatter.items, hp, List.map_map]
    exact List.map_congr_left fun i _ => i.item_piece
  · rw [LogFormatter.isError, hp, List.any_map, List.any_eq_false]
    intro i _
    rw [Function.comp_apply, PatternItem.isError_piece]
    exact Bool.false_ne_true

/-- The beginning of the default pattern, with a literal behind its last conversion. -/
theorem items_print_default :
    (LogFormatter.mk "%d{%Y-%m-%d}%T[%p]").items =
      [.item .dateTime "%Y-%m-%d", .item .tab "", .string "[", .item .level "", .string "]"] := by
  have hwf : WellFormed
      [.braced .dateTime "%Y-%m-%d", .bare .tab, .literal "[", .bare .level, .literal "]"] :=
    ⟨by simp [PatternItem.Plain], by simp [PatternItem.Apart]; decide⟩
  exact (items_print hwf).1

end LioNet.Log
