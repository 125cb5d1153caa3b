import Mathlib.Data.List.Nodup

/-!
# Taking the first suitable element out of a list

`takeFirst p l` walks `l` from the front, skips what fails `p`, and returns the first element that
passes together with the list without it.  This is the shape of a dispatch loop over a queue in
which some entries are not for the caller.
-/

namespace LioNet.Lib

variable {α β : Type*}

def takeFirst (p : α → Bool) : List α → Option (α × List α)
  | [] => none
  | a :: l => if p a then some (a, l) else (takeFirst p l).map fun r => (r.1, a :: r.2)

variable {p : α → Bool} {l l' : List α} {a : α}

/-- What `takeFirst` finds is the first passing element, and what it leaves is the rest in order. -/
theorem takeFirst_eq_some_iff :
    takeFirst p l = some (a, l') ↔
      ∃ pre post, l = pre ++ a :: post ∧ l' = pre ++ post ∧ p a = true ∧ ∀ b ∈ pre, p b = false := by
  induction l generalizing l' with
  | nil => simp [takeFirst]
  | cons b l ih =>
    by_cases hb : p b = true
    · simp only [takeFirst, hb, if_true, Option.some.injEq, Prod.mk.injEq]
      constructor
      · rintro ⟨rfl, rfl⟩
        exact ⟨[], l, rfl, rfl, hb, by simp⟩
      · rintro ⟨pre, post, hl, hl', ha, hpre⟩
        cases pre with
        | nil => simp_all
        | cons c pre =>
          obtain ⟨rfl, rfl⟩ := List.cons.inj hl
          simp [hb] at hpre
    · have hb' : p b = false := by simpa using hb
      rw [takeFirst, if_neg hb, Option.map_eq_some_iff]
      constructor
      · rintro ⟨⟨c, m⟩, hm, heq⟩
        obtain ⟨rfl, rfl⟩ := Prod.mk.inj heq
        obtain ⟨pre, post, rfl, rfl, ha, hpre⟩ := ih.mp hm
        refine ⟨b :: pre, post, rfl, rfl, ha, ?_⟩
        intro x hx
        rcases List.mem_cons.mp hx with rfl | hx
        · exact hb'
        · exact hpre x hx
      · rintro ⟨pre, post, hl, rfl, ha, hpre⟩
        cases pre with
        | nil =>
          obtain ⟨rfl, rfl⟩ := List.cons.inj hl
          exact absurd ha hb
        | cons c pre =>
          obtain ⟨rfl, rfl⟩ := List.cons.inj hl
          exact ⟨(a, pre ++ post),
            ih.mpr ⟨pre, post, rfl, rfl, ha, fun x hx => hpre x (List.mem_cons_of_mem _ hx)⟩, rfl⟩

theorem takeFirst_map (f : β → α) (l : List β) :
    takeFirst p (l.map f) = (takeFirst (fun b => p (f b)) l).map fun r => (f r.1, r.2.map f) := by
  induction l with
  | nil => rfl
  | cons b l ih =>
    simp only [List.map_cons, takeFirst]
    by_cases hb : p (f b) = true
    · rw [if_pos hb, if_pos hb]
      rfl
    · rw [if_neg hb, if_neg hb, ih, Option.map_map, Option.map_map]
      rfl

theorem takeFirst_mem (h : takeFirst p l = some (a, l')) : a ∈ l := by
  obtain ⟨pre, post, rfl, -, -, -⟩ := takeFirst_eq_some_iff.mp h
  simp

theorem takeFirst_pass (h : takeFirst p l = some (a, l')) : p a = true := by
  obtain ⟨pre, post, -, -, ha, -⟩ := takeFirst_eq_some_iff.mp h
  exact ha

theorem takeFirst_perm (h : takeFirst p l = some (a, l')) : l.Perm (a :: l') := by
  obtain ⟨pre, post, rfl, rfl, -, -⟩ := takeFirst_eq_some_iff.mp h
  exact List.perm_middle

theorem takeFirst_countP (h : takeFirst p l = some (a, l')) (q : α → Bool) :
    l.countP q = l'.countP q + if q a then 1 else 0 := by
  rw [(takeFirst_perm h).countP_eq, List.countP_cons]

theorem mem_of_mem_takeFirst (h : takeFirst p l = some (a, l')) {b : α} (hb : b ∈ l') : b ∈ l :=
  (takeFirst_perm h).mem_iff.mpr (List.mem_cons_of_mem a hb)

theorem mem_takeFirst_or (h : takeFirst p l = some (a, l')) {b : α} (hb : b ∈ l) :
    b = a ∨ b ∈ l' :=
  List.mem_cons.mp ((takeFirst_perm h).mem_iff.mp hb)

/-- Taking an element out of a list without repeated keys leaves no other element with its key. -/
theorem takeFirst_nodup {f : α → β} (hl : (l.map f).Nodup) (h : takeFirst p l = some (a, l')) :
    (l'.map f).Nodup ∧ ∀ b ∈ l', f b ≠ f a := by
  have hperm : (l.map f).Perm (f a :: l'.map f) := (takeFirst_perm h).map f
  have hnd := List.nodup_cons.mp (hperm.nodup_iff.mp hl)
  refine ⟨hnd.2, fun b hb hba => hnd.1 ?_⟩
  rw [← hba]
  exact List.mem_map_of_mem hb

end LioNet.Lib
