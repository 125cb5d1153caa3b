import LioNet.Log.Format

/-!
# Doubled percent signs

`%%` is meant to write a percent sign.  The branch of `init` for it keeps the first sign as literal
text and leaves the second one to the next turn of the loop, which then starts a conversion there.  So
a run of `2k` signs gives `2k - 1` of them and a conversion of whatever follows.

To see that no pattern with a doubled sign ever comes out right, let `s` be the text, and `out` what
its doubled pattern writes for one fixed event.  Then `out s` has the shape of `s`: in front of every
conversion stands the same text, with a run of signs that is no shorter, and in place of the
conversion's text `c` stands its output `o`, which is shorter than `c` or begins with another sign and
has no percent sign.  If `out s = s`, the first conversion is shortened, and what is missing there can
never be made up for behind it.
-/

namespace LioNet.Log

/-- The text with each percent sign doubled. -/
def double (cs : List Char) : List Char := cs.flatMap fun c => if c = '%' then ['%', '%'] else [c]

def doubled (s : String) : LogFormatter := ⟨String.ofList (double s.toList)⟩

/-- The formatter for the doubled text has no error and formats every event to the text. -/
def Escapes (L : CLibrary) (s : String) : Prop :=
  (doubled s).isError = false ∧
    ∀ logger level event, (doubled s).format L logger level event = some s

@[simp] theorem double_nil : double [] = [] := rfl

@[simp] theorem double_percent (cs : List Char) :
    double ('%' :: cs) = '%' :: '%' :: double cs := rfl

theorem double_cons {c : Char} (h : c ≠ '%') (cs : List Char) : double (c :: cs) = c :: double cs := by
  simp [double, h]

theorem double_append (cs ds : List Char) : double (cs ++ ds) = double cs ++ double ds :=
  List.flatMap_append

theorem double_of_not_mem {cs : List Char} (h : '%' ∉ cs) : double cs = cs := by
  induction cs with
  | nil => rfl
  | cons c cs ih =>
    have hc : c ≠ '%' := fun e => h (e ▸ List.mem_cons_self)
    rw [double_cons hc, ih fun hm => h (List.mem_cons_of_mem c hm)]

theorem head?_double (cs : List Char) : (double cs).head? = cs.head? := by
  cases cs with
  | nil => rfl
  | cons c cs =>
    by_cases hc : c = '%'
    · subst hc
      rfl
    · rw [double_cons hc]
      rfl

/-! ### The scanner on a doubled text -/

theorem scanFormat_double {str pre y str' fmt rest : List Char}
    (h : scanFormat str pre (double y) = some (str', fmt, rest)) :
    ∃ f r, y = f ++ '}' :: r ∧ str' = str ∧ fmt = pre ++ double f ∧ rest = double r := by
  induction y generalizing pre with
  | nil => cases h
  | cons c y ih =>
    by_cases hp : c = '%'
    · subst hp
      rw [double_percent, scanFormat, if_neg (by decide), scanFormat, if_neg (by decide)] at h
      obtain ⟨f, r, rfl, hstr, hfmt, hrest⟩ := ih h
      exact ⟨'%' :: f, r, rfl, hstr, by rw [hfmt]; simp, hrest⟩
    · rw [double_cons hp, scanFormat] at h
      split at h
      · rename_i hc
        cases h
        exact ⟨[], y, by rw [hc]; rfl, rfl, (List.append_nil _).symm, rfl⟩
      · obtain ⟨f, r, rfl, hstr, hfmt, hrest⟩ := ih h
        exact ⟨c :: f, r, rfl, hstr, by rw [hfmt, double_cons hp]; simp, hrest⟩

/-- What is read after a percent sign: a name, and perhaps a format in braces. -/
theorem scanName_double {str y str' fmt rest : List Char}
    (h : scanName str (double y) = some (str', fmt, rest)) :
    ∃ name r, str' = str ++ name ∧ rest = double r ∧
      (y = name ++ r ∧ fmt = [] ∨
        ∃ f, y = name ++ '{' :: (f ++ '}' :: r) ∧ fmt = double f) := by
  induction y generalizing str with
  | nil =>
    cases h
    exact ⟨[], [], (List.append_nil _).symm, rfl, .inl ⟨rfl, rfl⟩⟩
  | cons c y ih =>
    by_cases hp : c = '%'
    · subst hp
      rw [double_percent, scanName, if_pos (by decide)] at h
      cases h
      exact ⟨[], '%' :: y, (List.append_nil _).symm, rfl, .inl ⟨rfl, rfl⟩⟩
    · rw [double_cons hp, scanName] at h
      split at h
      · cases h
        exact ⟨[], c :: y, (List.append_nil _).symm, (double_cons hp y).symm, .inl ⟨rfl, rfl⟩⟩
      · split at h
        · rename_i hc
          obtain ⟨f, r, rfl, hstr, hfmt, hrest⟩ := scanFormat_double h
          exact ⟨[], r, by rw [hstr, List.append_nil], hrest, .inr ⟨f, by rw [hc]; rfl, hfmt⟩⟩
        · obtain ⟨name, r, hstr, hrest, hy⟩ := ih h
          refine ⟨c :: name, r, by rw [hstr]; simp, hrest, ?_⟩
          rcases hy with ⟨rfl, hfmt⟩ | ⟨f, rfl, hfmt⟩
          · exact .inl ⟨rfl, hfmt⟩
          · exact .inr ⟨f, rfl, hfmt⟩

theorem formatItems_eq_some {str : String} {x : Conversion} (h : formatItems str = some x) :
    str = String.ofList [x.letter] := by
  unfold formatItems at h
  split at h <;> cases h <;> rfl

/-- The first sign of `%%` is kept, the second one is read again. -/
theorem pieces_escape (nstr cs : List Char) :
    pieces nstr ('%' :: '%' :: cs) = pieces (nstr ++ ['%']) ('%' :: cs) := by
  rw [pieces, if_neg (not_not_intro rfl), if_pos (by rfl)]

theorem pieces_double_run (k : Nat) (nstr y : List Char) :
    pieces nstr (double (List.replicate (k + 1) '%' ++ y)) =
      pieces (nstr ++ List.replicate (2 * k + 1) '%') ('%' :: double y) := by
  induction k generalizing nstr with
  | zero =>
    show pieces nstr ('%' :: '%' :: double y) = _
    rw [pieces_escape]
    rfl
  | succ k ih =>
    show pieces nstr ('%' :: '%' :: double (List.replicate (k + 1) '%' ++ y)) = _
    have hnext : double (List.replicate (k + 1) '%' ++ y) =
        '%' :: '%' :: double (List.replicate k '%' ++ y) := rfl
    rw [pieces_escape, hnext, pieces_escape, ← hnext, ih, List.append_assoc, List.append_assoc]
    rfl

/-! ### One event -/

/-- An event in which nothing looks like a conversion. -/
def still : LogEvent where
  file := "0"
  line := 0
  elapse := 0
  threadId := 0
  fiberId := 0
  time := 0
  content := "0"
  threadName := "0"

section

variable {L : CLibrary}

theorem CLibrary.strftime_double (f : List Char) (tm : L.Tm) :
    L.strftime (double f) tm = f.takeWhile (· ≠ '\x00') := by
  induction f with
  | nil => exact L.strftime_nil tm
  | cons c f ih =>
    by_cases hp : c = '%'
    · subst hp
      rw [double_percent, L.strftime_percent, ih]
      rfl
    · rw [double_cons hp]
      by_cases h0 : c = '\x00'
      · subst h0
        rw [L.strftime_nul]
        rfl
      · rw [L.strftime_ordinary _ _ _ hp h0, ih, List.takeWhile_cons_of_pos (by simpa using h0)]

/-- The signs of a date in the default format. -/
def inDate (c : Char) : Prop := c = '-' ∨ c.isDigit = true ∨ c = ' ' ∨ c = ':'

theorem CLibrary.strftime_default (tm : L.Tm) :
    ∀ c ∈ L.strftime "%Y-%m-%d %H:%M:%S".toList tm, inDate c := by
  -- a format that begins with a number or with an ordinary sign of a date leaves a rest to show
  have hnum : ∀ x cs, isNumber x = true → (∀ c ∈ L.strftime cs tm, inDate c) →
      ∀ c ∈ L.strftime ('%' :: x :: cs) tm, inDate c := by
    intro x cs hx hcs c hc
    obtain ⟨ds, -, hds, heq⟩ := L.strftime_number x cs tm hx
    rw [heq, List.mem_append] at hc
    rcases hc with hc | hc
    · exact (hds c hc).imp_right Or.inl
    · exact hcs c hc
  have hord : ∀ x cs, x ≠ '%' → x ≠ '\x00' → inDate x → (∀ c ∈ L.strftime cs tm, inDate c) →
      ∀ c ∈ L.strftime (x :: cs) tm, inDate c := by
    intro x cs hp h0 hx hcs c hc
    rw [L.strftime_ordinary x cs tm hp h0, List.mem_cons] at hc
    rcases hc with rfl | hc
    · exact hx
    · exact hcs c hc
  have hdash : inDate '-' := .inl rfl
  have hblank : inDate ' ' := .inr (.inr (.inl rfl))
  have hcolon : inDate ':' := .inr (.inr (.inr rfl))
  refine hnum 'Y' _ rfl (hord '-' _ (by decide) (by decide) hdash ?_)
  refine hnum 'm' _ rfl (hord '-' _ (by decide) (by decide) hdash ?_)
  refine hnum 'd' _ rfl (hord ' ' _ (by decide) (by decide) hblank ?_)
  refine hnum 'H' _ rfl (hord ':' _ (by decide) (by decide) hcolon ?_)
  refine hnum 'M' _ rfl (hord ':' _ (by decide) (by decide) hcolon ?_)
  refine hnum 'S' _ rfl ?_
  intro c hc
  rw [L.strftime_nil] at hc
  cases hc

theorem CLibrary.mem_buffer {size : Nat} {format out : List Char} {tm : L.Tm}
    (h : L.buffer size format tm = some out) : out = L.strftime format tm := by
  rw [CLibrary.buffer] at h
  split at h
  · exact (Option.some.inj h).symm
  · cases h

/-- The text `c` of a conversion, between percent signs, and its output `o`. -/
structure Written (c o : List Char) : Prop where
  ne_nil : c ≠ []
  head : c.head? ≠ some '%'
  last : c.getLast? ≠ some '%'
  differs : o.length < c.length ∨ '%' ∉ o ∧ o.head? ≠ c.head?

/-- Without a format, the output has no percent sign and begins with another sign than the name. -/
theorem format_bare {x : Conversion} {o : List Char}
    (h : (FormatItem.item x "").format L "0" .debug still = some o) :
    '%' ∉ o ∧ o.head? ≠ some x.letter := by
  cases x with
  | dateTime =>
    have ho : o = L.strftime "%Y-%m-%d %H:%M:%S".toList (L.localtime 0) := L.mem_buffer h
    have hdate : ∀ c ∈ o, inDate c := by
      rw [ho]
      exact L.strftime_default _
    refine ⟨fun hm => ?_, fun hd => ?_⟩
    · exact absurd (hdate _ hm) (by unfold inDate; decide)
    · exact absurd (hdate _ (List.mem_of_head? hd)) (by unfold inDate; decide)
  | message | level | elapse | name | threadId | newLine | filename | line | tab | fiberId
    | threadName =>
    cases h
    decide

/-- With a format, only a date reads it, and then the output is no longer than the format. -/
theorem format_braced {x : Conversion} {f o : List Char}
    (h : (FormatItem.item x (String.ofList (double f))).format L "0" .debug still = some o) :
    o.length ≤ f.length ∨ '%' ∉ o ∧ o.head? ≠ some x.letter := by
  by_cases hf : f = []
  · subst hf
    exact .inr (format_bare h)
  · cases x with
    | dateTime =>
      have hne : String.ofList (double f) ≠ "" := by
        cases f with
        | nil => exact absurd rfl hf
        | cons c f =>
          intro e
          have hnil := congrArg String.toList e
          rw [String.toList_ofList] at hnil
          have hhead := head?_double (c :: f)
          rw [hnil] at hhead
          cases hhead
      have ho := L.mem_buffer h
      rw [dateTimeFormat, if_neg hne, String.toList_ofList, L.strftime_double] at ho
      rw [ho]
      exact .inl (List.takeWhile_prefix _).length_le
    | message | level | elapse | name | threadId | newLine | filename | line | tab | fiberId
      | threadName =>
      cases h
      exact .inr (by decide)

/-! ### What a doubled text writes -/

/-- What the rest `r` of a doubled text writes, when it has no error. -/
def Out (L : CLibrary) (nstr r out : List Char) : Prop :=
  (pieces nstr (double r)).any Piece.isError = false ∧
    writeItems L "0" .debug still ((pieces nstr (double r)).map Piece.item) = some out

theorem out_literal {nstr r out : List Char} (h : '%' ∉ r) (ho : Out L nstr r out) :
    out = nstr ++ r := by
  have hp : pieces nstr (double r) = flush (nstr ++ r) := by
    have hr := pieces_literal h nstr []
    rw [List.append_nil, pieces_nil] at hr
    rw [double_of_not_mem h, hr]
  obtain ⟨-, hw⟩ := ho
  rw [hp, writeItems_flush] at hw
  exact (Option.some.inj hw).symm

/-- The first run of percent signs in a text. -/
theorem exists_run {r : List Char} (h : '%' ∈ r) :
    ∃ u k y, r = u ++ (List.replicate (k + 1) '%' ++ y) ∧ '%' ∉ u ∧ y.head? ≠ some '%' := by
  induction r with
  | nil => cases h
  | cons c r ih =>
    by_cases hc : c = '%'
    · subst hc
      cases r with
      | nil => exact ⟨[], 0, [], rfl, List.not_mem_nil, by simp⟩
      | cons d r =>
        by_cases hd : d = '%'
        · subst hd
          obtain ⟨u, k, y, hr, hu, hy⟩ := ih List.mem_cons_self
          have hnil : u = [] := by
            cases u with
            | nil => rfl
            | cons e u =>
              obtain rfl : '%' = e := (List.cons.inj hr).1
              exact absurd List.mem_cons_self hu
          subst hnil
          exact ⟨[], k + 1, y, by rw [hr]; rfl, hu, hy⟩
        · exact ⟨[], 0, d :: r, rfl, List.not_mem_nil, by simpa using hd⟩
    · obtain ⟨u, k, y, rfl, hu, hy⟩ := ih (List.mem_of_ne_of_mem (Ne.symm hc) h)
      refine ⟨c :: u, k, y, rfl, ?_, hy⟩
      rw [List.mem_cons, not_or]
      exact ⟨Ne.symm hc, hu⟩

/-- The conversion behind a run of percent signs, and what it writes. -/
theorem out_conversion {nstr y out : List Char} (hy : y.head? ≠ some '%')
    (herr : (pieces nstr ('%' :: double y)).any Piece.isError = false)
    (hout : writeItems L "0" .debug still ((pieces nstr ('%' :: double y)).map Piece.item) = some out) :
    ∃ c r o out', y = c ++ r ∧ Written c o ∧ out = nstr ++ (o ++ out') ∧ Out L [] r out' := by
  have hhead : (double y).head? ≠ some '%' := by rwa [head?_double]
  rw [pieces_percent hhead] at herr hout
  cases hs : scanName [] (double y) with
  | none =>
    rw [hs] at herr
    cases herr
  | some q =>
    obtain ⟨str, fmt, rest⟩ := q
    simp only [hs] at herr hout
    obtain ⟨name, r, hstr, rfl, hyr⟩ := scanName_double hs
    rw [List.any_append, List.any_cons, Bool.or_eq_false_iff, Bool.or_eq_false_iff] at herr
    obtain ⟨-, hconv, hrest⟩ := herr
    -- the name is one of the twelve letters
    cases hx : formatItems (String.ofList str) with
    | none =>
      rw [Piece.isError, hx] at hconv
      cases hconv
    | some x =>
      have hname : name = [x.letter] := by
        have he := congrArg String.toList (formatItems_eq_some hx)
        rw [String.toList_ofList, String.toList_ofList, hstr, List.nil_append] at he
        exact he
      rw [List.map_append, List.map_cons, writeItems_append_eq_some] at hout
      obtain ⟨n', q', hn', hq', rfl⟩ := hout
      rw [writeItems_flush] at hn'
      obtain rfl : nstr = n' := Option.some.inj hn'
      obtain ⟨o, out', ho, hout', rfl⟩ := writeItems_cons_eq_some.mp hq'
      have hitem : Piece.item (.conversion (String.ofList str) (String.ofList fmt)) =
          .item x (String.ofList fmt) := by
        rw [Piece.item, hx]
      rw [hitem] at ho
      have hl : x.letter ≠ '%' := letter_ne_percent x
      rcases hyr with ⟨rfl, rfl⟩ | ⟨f, rfl, rfl⟩
      · refine ⟨name, r, o, out', rfl, ?_, rfl, hrest, hout'⟩
        rw [hname]
        exact ⟨by simp, by simpa using hl, by simpa using hl, .inr (format_bare ho)⟩
      · refine ⟨name ++ '{' :: (f ++ ['}']), r, o, out', by simp, ?_, rfl, hrest, hout'⟩
        rw [hname]
        refine ⟨by simp, by simpa using hl, ?_, ?_⟩
        · rw [← List.cons_append, ← List.append_assoc, List.getLast?_concat]
          decide
        · rcases format_braced ho with hlen | hne
          · refine .inl ?_
            simp only [List.length_append, List.length_cons, List.length_nil]
            omega
          · exact .inr hne

/-- A text with a percent sign, up to the end of its first conversion. -/
theorem out_percent {nstr r out : List Char} (h : '%' ∈ r) (ho : Out L nstr r out) :
    ∃ u k c r' o out', r = u ++ (List.replicate (k + 1) '%' ++ (c ++ r')) ∧ '%' ∉ u ∧ Written c o ∧
      out = nstr ++ (u ++ (List.replicate (2 * k + 1) '%' ++ (o ++ out'))) ∧ Out L [] r' out' := by
  obtain ⟨u, k, y, rfl, hu, hy⟩ := exists_run h
  obtain ⟨herr, hout⟩ := ho
  rw [double_append, double_of_not_mem hu, pieces_literal hu, pieces_double_run] at herr hout
  obtain ⟨c, r', o, out', rfl, hc, rfl, ho'⟩ := out_conversion hy herr hout
  exact ⟨u, k, c, r', o, out', rfl, hu, hc, by simp only [List.append_assoc], ho'⟩

/-! ### No such text comes out right -/

/-- No proper part of `u` is followed by a percent sign in `u` itself. -/
theorem not_percent_inside {u x a b : List Char} {j : Nat} (hu : '%' ∉ u) (hlt : x.length < u.length)
    (h : u ++ a = x ++ (List.replicate (j + 1) '%' ++ b)) : False := by
  have hx : (u ++ a)[x.length]? = some '%' := by
    rw [h, List.getElem?_append_right (Nat.le_refl _), Nat.sub_self]
    rfl
  rw [List.getElem?_append_left hlt] at hx
  exact hu (List.mem_of_getElem? hx)

/-- When `w` is put in front of a text that begins with `u` and a run of signs, and the whole begins
with `u` and a run of signs too, then `w` covers the latter. -/
theorem covers_run {u w a b : List Char} {j : Nat} (hu : '%' ∉ u) (hw : w ≠ [])
    (hlast : w.getLast? ≠ some '%')
    (h : w ++ (u ++ a) = u ++ (List.replicate (j + 1) '%' ++ b)) :
    ∃ v, w = u ++ (List.replicate (j + 1) '%' ++ v) ∧ v ≠ [] ∧ v ++ (u ++ a) = b := by
  rw [← List.append_assoc u (List.replicate (j + 1) '%')] at h
  rcases List.append_eq_append_iff.mp h with ⟨v, hv, ha⟩ | ⟨v, hv, hb⟩
  · exfalso
    rcases List.append_eq_append_iff.mp hv with ⟨x, hx, hrun⟩ | ⟨x, hx, rfl⟩
    · -- `w` ends in the run
      cases hxn : x.getLast? with
      | none =>
        obtain rfl : x = [] := List.getLast?_eq_none_iff.mp hxn
        rw [List.append_nil] at hx
        rw [List.nil_append] at hrun
        subst hx
        have hlt : ([] : List Char).length < w.length := List.length_pos_of_ne_nil hw
        exact not_percent_inside hu hlt (by rw [ha, ← hrun]; rfl)
      | some c =>
        have hc : c = '%' := by
          have hm : c ∈ List.replicate (j + 1) '%' := by
            rw [hrun]
            exact List.mem_append_left v (List.mem_of_getLast? hxn)
          exact List.eq_of_mem_replicate hm
        refine hlast ?_
        rw [hx, List.getLast?_append, hxn, hc]
        rfl
    · -- `w` ends in `u`
      have hlt : x.length < u.length := by
        rw [hx, List.length_append]
        have hpos : 0 < w.length := List.length_pos_of_ne_nil hw
        omega
      exact not_percent_inside hu hlt (by rw [ha, List.append_assoc])
  · refine ⟨v, by rw [hv, List.append_assoc], ?_, hb.symm⟩
    rintro rfl
    refine hlast ?_
    rw [hv, List.append_nil, List.getLast?_append, List.getLast?_replicate]
    rfl

/-- No output goes on behind a run of signs and the conversion's own text. -/
theorem Written.not_extends {c o v u x : List Char} {k : Nat} (h : Written c o) :
    o ≠ (v ++ (u ++ (List.replicate (k + 1) '%' ++ c))) ++ x := by
  intro ho
  rcases h.differs with hlt | ⟨hno, -⟩
  · rw [ho] at hlt
    simp only [List.length_append] at hlt
    omega
  · refine hno ?_
    rw [ho]
    simp

/-- What is missing in front is missing for good: no text `r` writes itself behind a `w`. -/
theorem not_out_append {w r : List Char} (hw : w ≠ []) (hlast : w.getLast? ≠ some '%') :
    ¬Out L [] r (w ++ r) := by
  -- along the conversions of `r`
  induction hn : r.length using Nat.strong_induction_on generalizing w r with
  | _ n ih =>
    intro ho
    by_cases hr : '%' ∈ r
    · obtain ⟨u, k, c, r', o, out', rfl, hu, hc, heq, ho'⟩ := out_percent hr ho
      obtain ⟨v, rfl, hv, hrest⟩ := covers_run hu hw hlast heq
      -- `v`, `u`, the run and `c` stand against `o`
      have hsplit : (v ++ (u ++ (List.replicate (k + 1) '%' ++ c))) ++ r' = o ++ out' := by
        rw [← hrest]
        simp only [List.append_assoc]
      rcases List.append_eq_append_iff.mp hsplit with ⟨x, hx, -⟩ | ⟨x, hx, hout⟩
      · exact hc.not_extends hx
      · by_cases hxn : x = []
        · subst hxn
          exact hc.not_extends (x := []) (by rw [hx, List.append_nil, List.append_nil])
        · have hxlast : x.getLast? ≠ some '%' := by
            have hl := congrArg List.getLast? hx
            rw [List.getLast?_append_of_ne_nil _ hxn, ← List.append_assoc, ← List.append_assoc,
              List.getLast?_append_of_ne_nil _ hc.ne_nil] at hl
            rw [← hl]
            exact hc.last
          have hshort : r'.length < n := by
            rw [← hn]
            simp only [List.length_append, List.length_replicate]
            omega
          exact ih _ hshort hxn hxlast rfl (hout ▸ ho')
    · have hlen := congrArg List.length (out_literal hr ho)
      have hpos : 0 < w.length := List.length_pos_of_ne_nil hw
      simp only [List.nil_append, List.length_append] at hlen
      omega

theorem not_out_self {s : List Char} (h : '%' ∈ s) : ¬Out L [] s s := by
  intro ho
  obtain ⟨u, k, c, r', o, out', rfl, hu, hc, heq, ho'⟩ := out_percent h ho
  rw [List.nil_append] at heq
  have hrun : List.replicate (k + 1) '%' ++ (c ++ r') =
      List.replicate (k + 1) '%' ++ (List.replicate k '%' ++ (o ++ out')) := by
    rw [← List.append_assoc _ (List.replicate k '%'), List.replicate_append_replicate,
      show k + 1 + k = 2 * k + 1 from by omega]
    exact List.append_cancel_left heq
  have hconv := List.append_cancel_left hrun
  -- a longer run would go on where the conversion begins
  have hk : k = 0 := by
    cases k with
    | zero => rfl
    | succ k =>
      have hhead := congrArg List.head? hconv
      rw [List.head?_append_of_ne_nil _ hc.ne_nil] at hhead
      exact absurd hhead hc.head
  subst hk
  rw [List.replicate_zero, List.nil_append] at hconv
  rcases List.append_eq_append_iff.mp hconv with ⟨x, hx, -⟩ | ⟨x, hx, hout⟩
  · rcases hc.differs with hlt | ⟨-, hne⟩
    · rw [hx, List.length_append] at hlt
      omega
    · refine hne ?_
      rw [hx, List.head?_append_of_ne_nil _ hc.ne_nil]
  · by_cases hxn : x = []
    · subst hxn
      rw [List.append_nil] at hx
      rcases hc.differs with hlt | ⟨-, hne⟩
      · rw [hx] at hlt
        exact Nat.lt_irrefl _ hlt
      · exact hne (by rw [hx])
    · have hxlast : x.getLast? ≠ some '%' := by
        rw [← List.getLast?_append_of_ne_nil o hxn, ← hx]
        exact hc.last
      exact not_out_append hxn hxlast (hout ▸ ho')

theorem out_of_escapes {s : String} (h : Escapes L s) : Out L [] s.toList s.toList := by
  obtain ⟨herr, hfmt⟩ := h
  obtain ⟨out, hout, hs⟩ := Option.map_eq_some_iff.mp (hfmt "0" .debug still)
  rw [LogFormatter.isError, LogFormatter.pieces, doubled, String.toList_ofList] at herr
  rw [LogFormatter.items, LogFormatter.pieces, doubled, String.toList_ofList] at hout
  refine ⟨herr, ?_⟩
  rw [hout, ← hs, String.toList_ofList]

theorem escapes_of_not_mem {s : String} (h : '%' ∉ s.toList) : Escapes L s := by
  have hp : (doubled s).pieces = flush s.toList := by
    have hr := pieces_literal h [] []
    rw [List.append_nil, pieces_nil, List.nil_append] at hr
    rw [LogFormatter.pieces, doubled, String.toList_ofList, double_of_not_mem h, hr]
  refine ⟨?_, fun logger level event => ?_⟩
  · rw [LogFormatter.isError, hp, flush]
    split <;> rfl
  · rw [LogFormatter.format, LogFormatter.items, hp, writeItems_flush, Option.map_some,
      String.ofList_toList]

end

/-- **`%%` never writes a percent sign properly**: the doubled text is written back exactly when there
is nothing to double. -/
theorem escapes_iff (L : CLibrary) (s : String) : Escapes L s ↔ '%' ∉ s.toList :=
  ⟨fun h hm => not_out_self hm (out_of_escapes h), escapes_of_not_mem⟩

/-- The pattern `%%`, which should write one sign, is an error. -/
theorem isError_doubled_percent : (doubled "%").isError = true := by decide +kernel

end LioNet.Log
