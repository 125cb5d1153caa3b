import Mathlib.Data.List.Induction
import Mathlib.Data.List.Nodup

/-!
# The ordered map that a sequence of calls leaves

Each call has a key, and a value unless it only removes the key.  `record` keeps the map as a list, where
a call takes its key out and puts its value at the end.  `Latest` says in terms of the calls alone what
such a list should be, and `latest_record` that `record` gives it.
-/

namespace LioNet.Lib

section KeyedLog

variable {ι K V : Type*} [DecidableEq K] (key : ι → K) (val : ι → Option V)

/-- The map without one key. -/
def without (k : K) (m : List (K × V)) : List (K × V) := m.filter (·.1 ≠ k)

def record (m : List (K × V)) (c : ι) : List (K × V) :=
  without (key c) m ++ ((val c).map fun v => (key c, v)).toList

/-- The last call with a key. -/
def lastCall (calls : List ι) (k : K) : Option ι := (calls.filter (key · = k)).getLast?

/-- One entry for each key whose last call has a value, in the order of these calls. -/
structure Latest (calls : List ι) (m : List (K × V)) : Prop where
  nodup : (m.map Prod.fst).Nodup
  entry : ∀ k v, (k, v) ∈ m ↔ (lastCall key calls k).bind val = some v
  /-- when `p` stands before `q`, a call on `q` comes after all calls on `p` -/
  order : m.Pairwise fun p q => ∃ earlier later, calls = earlier ++ later ∧
    (∀ c ∈ later, key c ≠ p.1) ∧ ∃ c ∈ later, key c = q.1

variable {key val} {m : List (K × V)} {k : K} {v : V} {c : ι} {calls : List ι}

theorem mem_without {p : K × V} : p ∈ without k m ↔ p ∈ m ∧ p.1 ≠ k := by
  rw [without, List.mem_filter, decide_eq_true_iff]

theorem mem_record : (k, v) ∈ record key val m c ↔
    ((k, v) ∈ m ∧ k ≠ key c) ∨ (k = key c ∧ val c = some v) := by
  rw [record, List.mem_append, mem_without, Option.mem_toList, Option.map_eq_some_iff]
  refine or_congr Iff.rfl ⟨?_, ?_⟩
  · rintro ⟨v', hv, he⟩
    obtain ⟨hk, rfl⟩ := Prod.mk.inj he
    exact ⟨hk.symm, hv⟩
  · rintro ⟨rfl, hv⟩
    exact ⟨v, hv, rfl⟩

theorem lastCall_snoc_self (calls : List ι) (c : ι) :
    lastCall key (calls ++ [c]) (key c) = some c := by
  rw [lastCall, List.filter_append, List.filter_cons_of_pos (by simp), List.filter_nil,
    List.getLast?_concat]

theorem lastCall_snoc_of_ne (calls : List ι) (h : k ≠ key c) :
    lastCall key (calls ++ [c]) k = lastCall key calls k := by
  rw [lastCall, List.filter_append, List.filter_cons_of_neg (by simpa using h.symm), List.filter_nil,
    List.append_nil, lastCall]

/-- **One call more.** -/
theorem Latest.snoc (h : Latest key val calls m) (c : ι) :
    Latest key val (calls ++ [c]) (record key val m c) := by
  refine ⟨?_, fun k v => ?_, ?_⟩
  · rw [record, List.map_append, List.nodup_append']
    refine ⟨(List.filter_sublist.map Prod.fst).nodup h.nodup, ?_, ?_⟩
    · cases val c with
      | none => exact List.nodup_nil
      | some v => exact List.nodup_singleton _
    · intro k hk hk'
      obtain ⟨p, hp, rfl⟩ := List.mem_map.mp hk
      obtain ⟨q, hq, he⟩ := List.mem_map.mp hk'
      obtain ⟨v, -, rfl⟩ := Option.map_eq_some_iff.mp (Option.mem_toList.mp hq)
      exact (mem_without.mp hp).2 he.symm
  · rw [mem_record]
    by_cases hk : k = key c
    · subst hk
      rw [lastCall_snoc_self, Option.bind_some]
      exact ⟨fun hm => (hm.resolve_left fun hne => hne.2 rfl).2, fun hv => .inr ⟨rfl, hv⟩⟩
    · rw [lastCall_snoc_of_ne calls hk, ← h.entry]
      exact ⟨fun hm => (hm.resolve_right fun he => hk he.1).1, fun hm => .inl ⟨hm, hk⟩⟩
  · rw [record, List.pairwise_append]
    refine ⟨?_, ?_, fun p hp q hq => ?_⟩
    · refine (h.order.filter _).imp_of_mem fun {p q} hp _ hpq => ?_
      obtain ⟨earlier, later, rfl, hnone, c', hc', hq⟩ := hpq
      refine ⟨earlier, later ++ [c], List.append_assoc .., fun a ha => ?_, c', ?_, hq⟩
      · rcases List.mem_append.mp ha with ha | ha
        · exact hnone a ha
        · rw [List.mem_singleton.mp ha]
          exact (mem_without.mp hp).2.symm
      · exact List.mem_append_left _ hc'
    · cases val c with
      | none => exact .nil
      | some v => exact List.pairwise_singleton ..
    · obtain ⟨v, -, rfl⟩ := Option.map_eq_some_iff.mp (Option.mem_toList.mp hq)
      refine ⟨calls, [c], rfl, fun a ha => ?_, c, List.mem_singleton_self c, rfl⟩
      rw [List.mem_singleton.mp ha]
      exact (mem_without.mp hp).2.symm

/-- **The calls leave the latest entries.** -/
theorem latest_record (calls : List ι) : Latest key val calls (calls.foldl (record key val) []) := by
  induction calls using List.reverseRecOn with
  | nil =>
    refine ⟨List.nodup_nil, fun k v => ?_, .nil⟩
    exact iff_of_false List.not_mem_nil (Option.some_ne_none v).symm
  | append_singleton calls c ih =>
    rw [List.foldl_append]
    exact ih.snoc c

end KeyedLog

end LioNet.Lib
