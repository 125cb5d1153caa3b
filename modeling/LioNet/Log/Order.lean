import LioNet.Log.Pattern

/-!
# The order of a pattern

The entries of `vec` should stand in the order of the pattern.  To say this, `placed` runs the scanner
of `init` and notes for every sign of a literal, every conversion and every error marker the position
it comes from; without the notes it is `pieces`.

Literal text waits in `nstr` until a conversion or the end of the pattern.  A conversion flushes it
first.  The error marker for a missing brace does not, and so it overtakes the text in front of it.
This is the only way to break the order.
-/

namespace LioNet.Log

/-! ### Notes of the positions -/

inductive Placed
  | text (signs : List (Nat × Char))
  | conversion (pos : Nat) (str fmt : String)
  | unclosed (pos : Nat)
  deriving DecidableEq, Repr

namespace Placed

/-- The entry without the notes. -/
def piece : Placed → Piece
  | .text signs => .text (String.ofList (signs.map Prod.snd))
  | .conversion _ str fmt => .conversion str fmt
  | .unclosed _ => .unclosed

/-- The signs of the pattern that an entry stands for: those of the text, and the percent sign of a
conversion. -/
def signs : Placed → List (Nat × Char)
  | .text signs => signs
  | .conversion pos _ _ => [(pos, '%')]
  | .unclosed pos => [(pos, '%')]

end Placed

def placedFlush (nstr : List (Nat × Char)) : List Placed := if nstr = [] then [] else [.text nstr]

/-- `pieces`, where the rest `cs` of the pattern begins at position `i`. -/
def placed (i : Nat) (nstr : List (Nat × Char)) (cs : List Char) : List Placed :=
  match cs with
  | [] => placedFlush nstr
  | c :: cs =>
    if c ≠ '%' then placed (i + 1) (nstr ++ [(i, c)]) cs
    else if cs.head? = some '%' then placed (i + 1) (nstr ++ [(i, '%')]) cs
    else
      match _h : scanName [] cs with
      | some (str, fmt, rest) =>
        placedFlush nstr ++ .conversion i (String.ofList str) (String.ofList fmt) ::
          placed (i + 1 + (cs.length - rest.length)) [] rest
      | none => .unclosed i :: placed (i + 1) nstr cs
termination_by cs.length
decreasing_by
  · exact Nat.lt_succ_self _
  · exact Nat.lt_succ_self _
  · exact Nat.lt_succ_of_le (scanName_length _h)
  · exact Nat.lt_succ_self _

namespace LogFormatter

/-- The signs behind the items of a formatter, in the order of the items. -/
def signs (f : LogFormatter) : List (Nat × Char) :=
  (placed 0 [] f.pattern.toList).flatMap Placed.signs

/-- The items stand in the order of the pattern. -/
def InOrder (f : LogFormatter) : Prop := (f.signs.map Prod.fst).Pairwise (· < ·)

end LogFormatter

section

variable {i : Nat} {nstr : List (Nat × Char)} {cs : List Char}

theorem placed_nil : placed i nstr [] = placedFlush nstr := by
  rw [placed]

theorem placed_literal {c : Char} (hc : c ≠ '%') :
    placed i nstr (c :: cs) = placed (i + 1) (nstr ++ [(i, c)]) cs := by
  rw [placed, if_pos hc]

theorem placed_escape (h : cs.head? = some '%') :
    placed i nstr ('%' :: cs) = placed (i + 1) (nstr ++ [(i, '%')]) cs := by
  rw [placed, if_neg (not_not_intro rfl), if_pos h]

theorem placed_percent (h : cs.head? ≠ some '%') :
    placed i nstr ('%' :: cs) =
      match scanName [] cs with
      | some (str, fmt, rest) =>
        placedFlush nstr ++ .conversion i (String.ofList str) (String.ofList fmt) ::
          placed (i + 1 + (cs.length - rest.length)) [] rest
      | none => .unclosed i :: placed (i + 1) nstr cs := by
  rw [placed, if_neg (not_not_intro rfl), if_neg h]
  cases scanName [] cs <;> rfl

theorem signs_placedFlush (nstr : List (Nat × Char)) :
    (placedFlush nstr).flatMap Placed.signs = nstr := by
  by_cases h : nstr = []
  · subst h
    rfl
  · rw [placedFlush, if_neg h, List.flatMap_singleton]
    rfl

theorem map_piece_placedFlush (nstr : List (Nat × Char)) :
    (placedFlush nstr).map Placed.piece = flush (nstr.map Prod.snd) := by
  by_cases h : nstr = []
  · subst h
    rfl
  · have hne : nstr.map Prod.snd ≠ [] := fun e => h (List.map_eq_nil_iff.mp e)
    rw [placedFlush, if_neg h, flush, if_neg hne]
    rfl

end

/-! ### The turns of the loop -/

/-- One case for each way the outer loop goes on. -/
theorem turns {motive : Nat → List (Nat × Char) → List Char → Prop}
    (nil : ∀ i nstr, motive i nstr [])
    (literal : ∀ i nstr c cs, c ≠ '%' → motive (i + 1) (nstr ++ [(i, c)]) cs →
      motive i nstr (c :: cs))
    (escape : ∀ i nstr cs, cs.head? = some '%' → motive (i + 1) (nstr ++ [(i, '%')]) cs →
      motive i nstr ('%' :: cs))
    (conversion : ∀ i nstr cs str fmt rest, cs.head? ≠ some '%' →
      scanName [] cs = some (str, fmt, rest) →
      motive (i + 1 + (cs.length - rest.length)) [] rest → motive i nstr ('%' :: cs))
    (unclosed : ∀ i nstr cs, cs.head? ≠ some '%' → scanName [] cs = none →
      motive (i + 1) nstr cs → motive i nstr ('%' :: cs))
    (i : Nat) (nstr : List (Nat × Char)) (cs : List Char) : motive i nstr cs := by
  induction i, nstr, cs using placed.induct with
  | case1 i nstr => exact nil i nstr
  | case2 i nstr c cs hc ih => exact literal i nstr c cs hc ih
  | case3 i nstr c cs hc h ih =>
    obtain rfl := not_not.mp hc
    exact escape i nstr cs h ih
  | case4 i nstr c cs hc h str fmt rest hs ih =>
    obtain rfl := not_not.mp hc
    exact conversion i nstr cs str fmt rest h hs ih
  | case5 i nstr c cs hc h hs ih =>
    obtain rfl := not_not.mp hc
    exact unclosed i nstr cs h hs ih

/-- **Without the notes `placed` is `pieces`.** -/
theorem map_piece_placed (i : Nat) (nstr : List (Nat × Char)) (cs : List Char) :
    (placed i nstr cs).map Placed.piece = pieces (nstr.map Prod.snd) cs := by
  induction i, nstr, cs using turns with
  | nil i nstr => rw [placed_nil, map_piece_placedFlush, pieces_nil]
  | literal i nstr c cs hc ih =>
    rw [placed_literal hc, ih, List.map_append, pieces, if_pos hc]
    rfl
  | escape i nstr cs h ih =>
    rw [placed_escape h, ih, List.map_append, pieces, if_neg (not_not_intro rfl), if_pos h]
    rfl
  | conversion i nstr cs str fmt rest h hs ih =>
    rw [placed_percent h, pieces_percent h, hs]
    simp only [List.map_append, List.map_cons, map_piece_placedFlush, ih]
    rfl
  | unclosed i nstr cs h hs ih =>
    rw [placed_percent h, pieces_percent h, hs]
    simp only [List.map_cons, ih]
    rfl

theorem scanFormat_suffix {str fmt cs str' fmt' rest : List Char}
    (h : scanFormat str fmt cs = some (str', fmt', rest)) : rest <:+ cs := by
  induction cs generalizing fmt with
  | nil => cases h
  | cons c cs ih =>
    rw [scanFormat] at h
    split at h
    · cases h
      exact List.suffix_cons c _
    · exact (ih h).trans (List.suffix_cons c cs)

theorem scanName_suffix {str cs str' fmt rest : List Char}
    (h : scanName str cs = some (str', fmt, rest)) : rest <:+ cs := by
  induction cs generalizing str with
  | nil =>
    cases h
    exact List.suffix_refl []
  | cons c cs ih =>
    rw [scanName] at h
    split at h
    · cases h
      exact List.suffix_refl _
    · split at h
      · exact (scanFormat_suffix h).trans (List.suffix_cons c cs)
      · exact (ih h).trans (List.suffix_cons c cs)

/-- **The notes are true**: every sign stands in the pattern where its note says. -/
theorem signs_placed {pattern : List Char} (i : Nat) (nstr : List (Nat × Char)) (cs : List Char)
    (hcs : pattern.drop i = cs) (hn : ∀ p ∈ nstr, pattern[p.1]? = some p.2) :
    ∀ p ∈ (placed i nstr cs).flatMap Placed.signs, pattern[p.1]? = some p.2 := by
  have hhead : ∀ {i c cs}, pattern.drop i = c :: cs → pattern[i]? = some c := by
    intro i c cs h
    rw [← List.head?_drop, h]
    rfl
  have hnext : ∀ {i c cs}, pattern.drop i = c :: cs → pattern.drop (i + 1) = cs := by
    intro i c cs h
    rw [← List.tail_drop, h]
    rfl
  have hsnoc : ∀ {i c} {nstr : List (Nat × Char)}, pattern[i]? = some c →
      (∀ p ∈ nstr, pattern[p.1]? = some p.2) →
      ∀ p ∈ nstr ++ [(i, c)], pattern[p.1]? = some p.2 := by
    intro i c nstr hc hn p hp
    rcases List.mem_append.mp hp with hp | hp
    · exact hn p hp
    · rw [List.mem_singleton.mp hp]
      exact hc
  induction i, nstr, cs using turns with
  | nil i nstr =>
    rw [placed_nil, signs_placedFlush]
    exact hn
  | literal i nstr c cs hc ih =>
    rw [placed_literal hc]
    exact ih (hnext hcs) (hsnoc (hhead hcs) hn)
  | escape i nstr cs h ih =>
    rw [placed_escape h]
    exact ih (hnext hcs) (hsnoc (hhead hcs) hn)
  | conversion i nstr cs str fmt rest h hs ih =>
    have hrest : pattern.drop (i + 1 + (cs.length - rest.length)) = rest := by
      rw [← List.drop_drop, hnext hcs]
      exact (List.suffix_iff_eq_drop.mp (scanName_suffix hs)).symm
    rw [placed_percent h, hs, List.flatMap_append, signs_placedFlush, List.flatMap_cons]
    intro p hp
    rcases List.mem_append.mp hp with hp | hp
    · exact hn p hp
    · rcases List.mem_append.mp hp with hp | hp
      · rw [List.mem_singleton.mp hp]
        exact hhead hcs
      · exact ih hrest (fun p hp => absurd hp List.not_mem_nil) p hp
  | unclosed i nstr cs h hs ih =>
    rw [placed_percent h, hs, List.flatMap_cons]
    intro p hp
    rcases List.mem_append.mp hp with hp | hp
    · rw [List.mem_singleton.mp hp]
      exact hhead hcs
    · exact ih (hnext hcs) hn p hp

theorem LogFormatter.pieces_placed (f : LogFormatter) :
    (placed 0 [] f.pattern.toList).map Placed.piece = f.pieces :=
  map_piece_placed 0 [] f.pattern.toList

theorem LogFormatter.signs_true (f : LogFormatter) :
    ∀ p ∈ f.signs, f.pattern.toList[p.1]? = some p.2 :=
  signs_placed 0 [] f.pattern.toList rfl fun _ hp => absurd hp List.not_mem_nil

/-! ### When the order is kept -/

/-- No conversion with a missing brace stands directly behind literal text; `text` says whether there
is some in front of `cs`. -/
def closedBehindText (text : Bool) (cs : List Char) : Bool :=
  match cs with
  | [] => true
  | c :: cs =>
    if c ≠ '%' then closedBehindText true cs
    else if cs.head? = some '%' then closedBehindText true cs
    else
      match _h : scanName [] cs with
      | some (_, _, rest) => closedBehindText false rest
      | none => !text && closedBehindText text cs
termination_by cs.length
decreasing_by
  · exact Nat.lt_succ_self _
  · exact Nat.lt_succ_self _
  · exact Nat.lt_succ_of_le (scanName_length _h)
  · exact Nat.lt_succ_self _

theorem closedBehindText_percent {text : Bool} {cs : List Char} (h : cs.head? ≠ some '%') :
    closedBehindText text ('%' :: cs) =
      match scanName [] cs with
      | some (_, _, rest) => closedBehindText false rest
      | none => !text && closedBehindText text cs := by
  rw [closedBehindText, if_neg (not_not_intro rfl), if_neg h]
  cases scanName [] cs <;> rfl

/-- The positions of the entries. -/
def positions (ps : List Placed) : List Nat := (ps.flatMap Placed.signs).map Prod.fst

theorem positions_cons (p : Placed) (ps : List Placed) :
    positions (p :: ps) = p.signs.map Prod.fst ++ positions ps := by
  rw [positions, List.flatMap_cons, List.map_append]
  rfl

theorem positions_flush_append (nstr : List (Nat × Char)) (ps : List Placed) :
    positions (placedFlush nstr ++ ps) = nstr.map Prod.fst ++ positions ps := by
  rw [positions, List.flatMap_append, signs_placedFlush, List.map_append]
  rfl

/-- A character more waits for the rest. -/
theorem positions_snoc {i : Nat} {nstr : List (Nat × Char)} {c : Char} {ps : List Nat}
    (h : (∀ p ∈ (nstr ++ [(i, c)]).map Prod.fst, p ∈ ps) ∧
      ∀ p ∈ ps, p ∈ (nstr ++ [(i, c)]).map Prod.fst ∨ i + 1 ≤ p) :
    (∀ p ∈ nstr.map Prod.fst, p ∈ ps) ∧ ∀ p ∈ ps, p ∈ nstr.map Prod.fst ∨ i ≤ p := by
  rw [List.map_append] at h
  refine ⟨fun p hp => h.1 p (List.mem_append_left _ hp), fun p hp => ?_⟩
  rcases h.2 p hp with hp | hp
  · rcases List.mem_append.mp hp with hp | hp
    · exact .inl hp
    · exact .inr (Nat.le_of_eq (List.mem_singleton.mp hp).symm)
  · exact .inr (Nat.le_of_succ_le hp)

/-- The waiting text is written some time, and all else lies behind `i`. -/
theorem positions_placed (i : Nat) (nstr : List (Nat × Char)) (cs : List Char) :
    (∀ p ∈ nstr.map Prod.fst, p ∈ positions (placed i nstr cs)) ∧
      ∀ p ∈ positions (placed i nstr cs), p ∈ nstr.map Prod.fst ∨ i ≤ p := by
  induction i, nstr, cs using turns with
  | nil i nstr =>
    rw [placed_nil, positions, signs_placedFlush]
    exact ⟨fun p hp => hp, fun p hp => .inl hp⟩
  | literal i nstr c cs hc ih =>
    rw [placed_literal hc]
    exact positions_snoc ih
  | escape i nstr cs h ih =>
    rw [placed_escape h]
    exact positions_snoc ih
  | conversion i nstr cs str fmt rest h hs ih =>
    rw [placed_percent h, hs]
    simp only [positions_flush_append, positions_cons]
    refine ⟨fun p hp => List.mem_append_left _ hp, fun p hp => ?_⟩
    rcases List.mem_append.mp hp with hp | hp
    · exact .inl hp
    · rcases List.mem_append.mp hp with hp | hp
      · exact .inr (Nat.le_of_eq (List.mem_singleton.mp hp).symm)
      · rcases ih.2 p hp with hp | hp
        · cases hp
        · exact .inr (by omega)
  | unclosed i nstr cs h hs ih =>
    rw [placed_percent h, hs]
    simp only [positions_cons]
    refine ⟨fun p hp => List.mem_append_right _ (ih.1 p hp), fun p hp => ?_⟩
    rcases List.mem_append.mp hp with hp | hp
    · exact .inr (Nat.le_of_eq (List.mem_singleton.mp hp).symm)
    · exact (ih.2 p hp).imp_right Nat.le_of_succ_le

/-- The waiting text, with one more sign. -/
theorem waiting_snoc {i : Nat} {nstr : List (Nat × Char)} (hlt : ∀ p ∈ nstr.map Prod.fst, p < i)
    (hord : (nstr.map Prod.fst).Pairwise (· < ·)) (c : Char) :
    (∀ p ∈ (nstr ++ [(i, c)]).map Prod.fst, p < i + 1) ∧
      ((nstr ++ [(i, c)]).map Prod.fst).Pairwise (· < ·) := by
  rw [List.map_append]
  refine ⟨fun p hp => ?_, List.pairwise_append.mpr ⟨hord, List.pairwise_singleton _ _, ?_⟩⟩
  · rcases List.mem_append.mp hp with hp | hp
    · exact Nat.lt_succ_of_lt (hlt p hp)
    · rw [List.mem_singleton.mp hp]
      exact Nat.lt_succ_self i
  · intro p hp q hq
    rw [List.mem_singleton.mp hq]
    exact hlt p hp

theorem isEmpty_snoc {α : Type} (l : List α) (a : α) : (l ++ [a]).isEmpty = false := by
  cases l <;> rfl

theorem pairwise_placed (i : Nat) (nstr : List (Nat × Char)) (cs : List Char)
    (hlt : ∀ p ∈ nstr.map Prod.fst, p < i) (hord : (nstr.map Prod.fst).Pairwise (· < ·)) :
    (positions (placed i nstr cs)).Pairwise (· < ·) ↔
      closedBehindText (!nstr.isEmpty) cs = true := by
  induction i, nstr, cs using turns with
  | nil i nstr =>
    rw [placed_nil, positions, signs_placedFlush, closedBehindText]
    exact iff_of_true hord rfl
  | literal i nstr c cs hc ih =>
    obtain ⟨hlt', hord'⟩ := waiting_snoc hlt hord c
    rw [placed_literal hc, ih hlt' hord', isEmpty_snoc, closedBehindText, if_pos hc, Bool.not_false]
  | escape i nstr cs h ih =>
    obtain ⟨hlt', hord'⟩ := waiting_snoc hlt hord '%'
    rw [placed_escape h, ih hlt' hord', isEmpty_snoc, closedBehindText, if_neg (not_not_intro rfl),
      if_pos h, Bool.not_false]
  | conversion i nstr cs str fmt rest h hs ih =>
    have hrest := (positions_placed (i + 1 + (cs.length - rest.length)) [] rest).2
    rw [placed_percent h, closedBehindText_percent h, hs]
    simp only [positions_flush_append, positions_cons]
    refine Iff.trans ⟨fun hp => ?_, fun hp => ?_⟩ (ih (fun p hp => absurd hp List.not_mem_nil) .nil)
    · exact (List.pairwise_append.mp (List.pairwise_append.mp hp).2.1).2.1
    · refine List.pairwise_append.mpr ⟨hord, List.pairwise_append.mpr
        ⟨List.pairwise_singleton _ _, hp, fun p hp q hq => ?_⟩, fun p hp q hq => ?_⟩
      · rw [List.mem_singleton.mp hp]
        rcases hrest q hq with hq | hq
        · cases hq
        · omega
      · have hpi : p < i := hlt p hp
        rcases List.mem_append.mp hq with hq | hq
        · rw [List.mem_singleton.mp hq]
          exact hpi
        · rcases hrest q hq with hq | hq
          · cases hq
          · omega
  | unclosed i nstr cs h hs ih =>
    obtain ⟨hwait, hrest⟩ := positions_placed (i + 1) nstr cs
    rw [placed_percent h, closedBehindText_percent h, hs]
    simp only [positions_cons, Bool.and_eq_true, Bool.not_not]
    rw [← ih (fun p hp => Nat.lt_succ_of_lt (hlt p hp)) hord, List.pairwise_append]
    refine ⟨fun ⟨_, hp, hall⟩ => ⟨?_, hp⟩, fun ⟨hn, hp⟩ => ⟨List.pairwise_singleton _ _, hp, ?_⟩⟩
    · -- the waiting text comes behind the marker
      cases nstr with
      | nil => rfl
      | cons p nstr =>
        have hmem : p.1 ∈ (p :: nstr).map Prod.fst := List.mem_cons_self
        have hover : i < p.1 := hall i List.mem_cons_self p.1 (hwait _ hmem)
        exact absurd (hlt _ hmem) (Nat.not_lt_of_lt hover)
    · intro p hp' q hq
      rw [List.mem_singleton.mp hp']
      obtain rfl := List.isEmpty_iff.mp hn
      rcases hrest q hq with hq | hq
      · cases hq
      · exact hq

/-- **The order is kept exactly when no brace is missing directly behind literal text.** -/
theorem inOrder_iff (f : LogFormatter) :
    f.InOrder ↔ closedBehindText false f.pattern.toList = true :=
  pairwise_placed 0 [] f.pattern.toList (fun _ hp => absurd hp List.not_mem_nil) .nil

/-- The marker comes before the text in front of it. -/
theorem not_inOrder_unclosed : ¬(LogFormatter.mk "time%d\x7b%H").InOrder := by
  unfold LogFormatter.InOrder
  decide +kernel

end LioNet.Log
