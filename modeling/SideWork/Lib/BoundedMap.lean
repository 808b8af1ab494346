import Mathlib.Tactic
import Mathlib.Data.List.Dedup
import Mathlib.Data.List.TakeWhile
import Mathlib.Algebra.BigOperators.Group.List.Basic

/-!
# Maps with room for a fixed number of keys

A `BoundedMap` is an association list with distinct keys and at most `cap` entries. `update` inserts or replaces, and
fails on a new key when the map is full; `modify` writes through a reference to a stored value. Neither takes a key out.

`record` adds an amount to the entry of a key, or starts one, without looking at whether that succeeded. Over a whole
run of amounts (`recordAll`):

- `tallies_recordAll`: the entry of every key in the map is the sum of all amounts recorded under that key;
- `total_eq`: the entries together are the sum of the amounts recorded under the keys in the map;
- `all_kept_iff`: every recorded key is in the map exactly when there are at most `cap` of them.

`NextKey order next` is what iterating over the keys with a cursor relies on: `next` follows `order`, and starts it on
every key that is not in it. `nextIn` is such a function.
-/

namespace SideWork

structure BoundedMap (κ ν : Type) (cap : Nat) where
  entries : List (κ × ν)
  nodup : (entries.map Prod.fst).Nodup
  bounded : entries.length ≤ cap

namespace BoundedMap

variable {κ ν : Type} {cap : Nat}

/-- No entries. -/
def empty : BoundedMap κ ν cap := ⟨[], List.nodup_nil, Nat.zero_le cap⟩

def keys (m : BoundedMap κ ν cap) : List κ := m.entries.map Prod.fst

@[simp] theorem keys_empty : (empty : BoundedMap κ ν cap).keys = [] := rfl

theorem keys_nodup (m : BoundedMap κ ν cap) : m.keys.Nodup := m.nodup

theorem keys_length_le (m : BoundedMap κ ν cap) : m.keys.length ≤ cap := by
  rw [keys, List.length_map]
  exact m.bounded

theorem mem_keys {m : BoundedMap κ ν cap} {e : κ × ν} (h : e ∈ m.entries) : e.1 ∈ m.keys := List.mem_map_of_mem h

theorem forall_mem_snoc {es : List (κ × ν)} {e : κ × ν} {P : κ × ν → Prop} :
    (∀ e' ∈ es ++ [e], P e') ↔ (∀ e' ∈ es, P e') ∧ P e := by
  simp [or_imp, forall_and]

theorem mem_keys_snoc {es : List (κ × ν)} {k k' : κ} {v : ν} :
    k' ∈ (es ++ [(k, v)]).map Prod.fst ↔ k' ∈ es.map Prod.fst ∨ k' = k := by
  simp only [List.map_append, List.mem_append, List.map_cons, List.map_nil, List.mem_singleton]

variable [DecidableEq κ]

/-- The stored value of a key. -/
def lookup (m : BoundedMap κ ν cap) (k : κ) : Option ν := (m.entries.find? (·.1 = k)).map Prod.snd

/-- Writing through the reference that `lookup` gives. -/
def modify (m : BoundedMap κ ν cap) (k : κ) (f : ν → ν) : BoundedMap κ ν cap where
  entries := m.entries.map fun e => if e.1 = k then (e.1, f e.2) else e
  nodup := by
    have h : (fun e : κ × ν => (if e.1 = k then (e.1, f e.2) else e).1) = Prod.fst := by
      funext e
      split <;> rfl
    rw [List.map_map]
    exact (congrArg List.Nodup (congrArg (List.map · m.entries) h)).mpr m.nodup
  bounded := by
    rw [List.length_map]
    exact m.bounded

/-- Insert or replace; the flag says whether there was room. -/
def update (m : BoundedMap κ ν cap) (k : κ) (v : ν) : BoundedMap κ ν cap × Bool :=
  if hk : k ∈ m.keys then (m.modify k fun _ => v, true)
  else if hroom : m.entries.length < cap then
    (⟨(k, v) :: m.entries, List.nodup_cons.mpr ⟨hk, m.nodup⟩, hroom⟩, true)
  else (m, false)

variable {m : BoundedMap κ ν cap} {k : κ}

theorem lookup_eq_none : m.lookup k = none ↔ k ∉ m.keys := by
  rw [lookup, Option.map_eq_none_iff, List.find?_eq_none, keys]
  constructor
  · intro h hk
    obtain ⟨e, he, rfl⟩ := List.mem_map.mp hk
    simpa using h e he
  · intro h e he
    have hne : e.1 ≠ k := fun hk => h (hk ▸ List.mem_map_of_mem he)
    simpa using hne

theorem mem_of_lookup {v : ν} (h : m.lookup k = some v) : (k, v) ∈ m.entries := by
  obtain ⟨e, he, rfl⟩ := Option.map_eq_some_iff.mp h
  have hk : e.1 = k := by simpa using List.find?_some he
  subst hk
  exact List.mem_of_find?_eq_some he

@[simp] theorem keys_modify (f : ν → ν) : (m.modify k f).keys = m.keys := by
  rw [keys, keys, modify, List.map_map]
  refine List.map_congr_left fun e _ => ?_
  by_cases h : e.1 = k <;> simp [h]

@[simp] theorem length_modify (f : ν → ν) : (m.modify k f).entries.length = m.entries.length := by
  simp [modify]

theorem mem_modify {f : ν → ν} {e : κ × ν} (h : e ∈ (m.modify k f).entries) :
    ∃ v, (e.1, v) ∈ m.entries ∧ e.2 = if e.1 = k then f v else v := by
  obtain ⟨e', he', rfl⟩ := List.mem_map.mp h
  by_cases hk : e'.1 = k
  · rw [if_pos hk]
    exact ⟨e'.2, he', (if_pos hk).symm⟩
  · rw [if_neg hk]
    exact ⟨e'.2, he', (if_neg hk).symm⟩

section Tally

variable [AddCommMonoid ν]

/-- Add `v` to the entry of `k`, or start one; whether there was room is not looked at. -/
def record (m : BoundedMap κ ν cap) (k : κ) (v : ν) : BoundedMap κ ν cap :=
  match m.lookup k with
  | none => (m.update k v).1
  | some _ => m.modify k (· + v)

/-- What recording can do. -/
theorem record_cases (m : BoundedMap κ ν cap) (k : κ) (v : ν) :
    (k ∈ m.keys ∧ m.record k v = m.modify k (· + v)) ∨
    (k ∉ m.keys ∧ (m.record k v).entries = (k, v) :: m.entries) ∨
    (k ∉ m.keys ∧ m.entries.length = cap ∧ m.record k v = m) := by
  unfold record
  cases h : m.lookup k with
  | some w => exact Or.inl ⟨List.mem_map.mpr ⟨_, mem_of_lookup h, rfl⟩, rfl⟩
  | none =>
    right
    have hk : k ∉ m.keys := lookup_eq_none.mp h
    by_cases hroom : m.entries.length < cap
    · left
      simp [update, hk, hroom]
    · right
      refine ⟨hk, ?_, ?_⟩
      · have hb := m.bounded
        omega
      · simp [update, hk, hroom]

/-- The amounts recorded under `k`. -/
def amount (es : List (κ × ν)) (k : κ) : ν := ((es.filter (·.1 = k)).map Prod.snd).sum

theorem amount_snoc (es : List (κ × ν)) (k : κ) (v : ν) (k' : κ) :
    amount (es ++ [(k, v)]) k' = amount es k' + if k' = k then v else 0 := by
  by_cases h : k' = k
  · subst h
    simp [amount]
  · have h' : ¬ k = k' := fun e => h e.symm
    simp [amount, h, h']

theorem amount_of_notMem {es : List (κ × ν)} (h : k ∉ es.map Prod.fst) : amount es k = 0 := by
  have hf : es.filter (·.1 = k) = [] := by
    refine List.filter_eq_nil_iff.mpr fun e he => ?_
    have hne : e.1 ≠ k := fun hk => h (hk ▸ List.mem_map_of_mem he)
    simpa using hne
  rw [amount, hf]
  rfl

/-- The map holds what the recorded amounts come to. -/
structure Tallies (es : List (κ × ν)) (m : BoundedMap κ ν cap) : Prop where
  exact : ∀ e ∈ m.entries, e.2 = amount es e.1
  known : ∀ k ∈ m.keys, k ∈ es.map Prod.fst
  kept : ∀ e ∈ es, e.1 ∈ m.keys ∨ m.entries.length = cap

theorem tallies_empty : Tallies [] (empty : BoundedMap κ ν cap) :=
  ⟨by simp [empty], by simp, by simp⟩

/-- Recording keeps the tally. A key without an entry has not been recorded before, unless the map is full; and a full
map stays full. -/
theorem tallies_record {es : List (κ × ν)} (h : Tallies es m) (k : κ) (v : ν) :
    Tallies (es ++ [(k, v)]) (m.record k v) := by
  rcases record_cases m k v with ⟨hk, hr⟩ | ⟨hk, hr⟩ | ⟨hk, hfull, hr⟩
  · rw [hr]
    refine ⟨fun e he => ?_, fun k' hk' => ?_, ?_⟩
    · obtain ⟨w, hw, hv⟩ := mem_modify he
      have hex : w = amount es e.1 := h.exact _ hw
      rw [amount_snoc, hv, hex]
      split <;> simp
    · rw [keys_modify] at hk'
      exact mem_keys_snoc.mpr (Or.inl (h.known k' hk'))
    · rw [keys_modify, length_modify]
      exact forall_mem_snoc.mpr ⟨h.kept, Or.inl hk⟩
  · have hkeys : (m.record k v).keys = k :: m.keys := by rw [keys, hr]; rfl
    have hroom : m.entries.length < cap := by
      have hb := (m.record k v).bounded
      rwa [hr] at hb
    have hkept : ∀ e ∈ es, e.1 ∈ m.keys := fun e he => (h.kept e he).resolve_right (by omega)
    have hnew : k ∉ es.map Prod.fst := by
      intro hmem
      obtain ⟨e, he, rfl⟩ := List.mem_map.mp hmem
      exact hk (hkept e he)
    refine ⟨fun e he => ?_, fun k' hk' => ?_, ?_⟩
    · rw [hr] at he
      rcases List.mem_cons.mp he with rfl | he
      · rw [amount_snoc, amount_of_notMem hnew, if_pos rfl, zero_add]
      · have hne : e.1 ≠ k := fun hek => hk (hek ▸ mem_keys he)
        rw [amount_snoc, if_neg hne, add_zero, h.exact e he]
    · rw [hkeys] at hk'
      rcases List.mem_cons.mp hk' with rfl | hk'
      · exact mem_keys_snoc.mpr (Or.inr rfl)
      · exact mem_keys_snoc.mpr (Or.inl (h.known k' hk'))
    · rw [hkeys]
      refine forall_mem_snoc.mpr ⟨fun e he => Or.inl (List.mem_cons_of_mem k (hkept e he)), Or.inl ?_⟩
      exact List.mem_cons_self
  · rw [hr]
    refine ⟨fun e he => ?_, fun k' hk' => mem_keys_snoc.mpr (Or.inl (h.known k' hk')), fun e he => Or.inr hfull⟩
    have hne : e.1 ≠ k := fun hek => hk (hek ▸ mem_keys he)
    rw [amount_snoc, if_neg hne, add_zero, h.exact e he]

/-- A run of amounts, from the empty map. -/
def recordAll (es : List (κ × ν)) : BoundedMap κ ν cap := es.foldl (fun m e => m.record e.1 e.2) empty

theorem tallies_recordAll (es : List (κ × ν)) : Tallies es (recordAll es : BoundedMap κ ν cap) := by
  induction es using List.reverseRecOn with
  | nil => exact tallies_empty
  | append_singleton es e ih =>
    rw [recordAll, List.foldl_append]
    exact tallies_record ih e.1 e.2

theorem sum_ite (e : κ × ν) {ks : List κ} (hks : ks.Nodup) :
    (ks.map fun k => if k = e.1 then e.2 else 0).sum = if e.1 ∈ ks then e.2 else 0 := by
  induction ks with
  | nil => rfl
  | cons k ks ih =>
    obtain ⟨hk, hks⟩ := List.nodup_cons.mp hks
    rw [List.map_cons, List.sum_cons, ih hks]
    by_cases he : k = e.1
    · subst he
      simp [hk]
    · have he' : e.1 ≠ k := fun h => he h.symm
      simp [he, he']

/-- The amounts recorded under distinct keys, summed key by key. -/
theorem sum_amount (es : List (κ × ν)) {ks : List κ} (hks : ks.Nodup) :
    (ks.map (amount es)).sum = ((es.filter (·.1 ∈ ks)).map Prod.snd).sum := by
  induction es using List.reverseRecOn with
  | nil =>
    have hz : ks.map (amount ([] : List (κ × ν))) = ks.map fun _ => 0 := List.map_congr_left fun k _ => rfl
    rw [hz]
    simp
  | append_singleton es e ih =>
    have hsnoc : ks.map (amount (es ++ [e])) = ks.map fun k => amount es k + if k = e.1 then e.2 else 0 :=
      List.map_congr_left fun k _ => amount_snoc es e.1 e.2 k
    rw [hsnoc, List.sum_map_add, ih, sum_ite e hks, List.filter_append, List.map_append, List.sum_append]
    by_cases he : e.1 ∈ ks <;> simp [he]

theorem total_eq {es : List (κ × ν)} (h : Tallies es m) :
    (m.entries.map Prod.snd).sum = ((es.filter (·.1 ∈ m.keys)).map Prod.snd).sum := by
  rw [← sum_amount es m.keys_nodup, keys, List.map_map]
  exact congrArg List.sum (List.map_congr_left h.exact)

theorem all_kept_iff {es : List (κ × ν)} (h : Tallies es m) :
    (∀ e ∈ es, e.1 ∈ m.keys) ↔ (es.map Prod.fst).dedup.length ≤ cap := by
  constructor
  · intro hall
    have hsub : (es.map Prod.fst).dedup ⊆ m.keys := by
      intro k hk
      obtain ⟨e, he, rfl⟩ := List.mem_map.mp (List.mem_dedup.mp hk)
      exact hall e he
    exact ((List.nodup_dedup _).subperm hsub).length_le.trans m.keys_length_le
  · intro hle e he
    by_contra hne
    have hfull : m.entries.length = cap := (h.kept e he).resolve_left hne
    have hsub : e.1 :: m.keys ⊆ (es.map Prod.fst).dedup := by
      intro k hk
      rw [List.mem_dedup]
      rcases List.mem_cons.mp hk with rfl | hk
      · exact List.mem_map_of_mem he
      · exact h.known k hk
    have hlen := ((List.nodup_cons.mpr ⟨hne, m.keys_nodup⟩).subperm hsub).length_le
    rw [List.length_cons, keys, List.length_map] at hlen
    omega

end Tally

end BoundedMap

/-! ## Cursors -/

section Cursor

variable {κ : Type} {order : List κ}

/-- `next` gives the first key on a key that is not in `order`, and the following one, if any, on a key that is. -/
structure NextKey (order : List κ) (next : κ → Option κ) : Prop where
  absent : ∀ k, k ∉ order → next k = order.head?
  present : ∀ as k bs, order = as ++ k :: bs → next k = bs.head?

/-- The key behind `k`, or the first one. -/
def nextIn [DecidableEq κ] (order : List κ) (k : κ) : Option κ :=
  match order.dropWhile (· ≠ k) with
  | [] => order.head?
  | _ :: bs => bs.head?

theorem nextKey_nextIn [DecidableEq κ] (hn : order.Nodup) : NextKey order (nextIn order) where
  absent := by
    intro k hk
    have hdrop : order.dropWhile (· ≠ k) = [] := by
      rw [List.dropWhile_eq_nil_iff]
      intro x hx
      have hne : x ≠ k := fun h => hk (h ▸ hx)
      simpa using hne
    rw [nextIn, hdrop]
  present := by
    rintro as k bs rfl
    have hdrop : (as ++ k :: bs).dropWhile (· ≠ k) = k :: bs := by
      rw [List.dropWhile_append_of_pos]
      · simp
      · intro x hx
        have hne : x ≠ k := by
          rintro rfl
          exact (List.nodup_append.mp hn).2.2 x hx x (by simp) rfl
        simpa using hne
    rw [nextIn, hdrop]

end Cursor

end SideWork
