import Mathlib.Data.Fintype.Fin
import SideWork.LinkedList.Delete
import SideWork.LinkedList.SearchMiddle

/-!
# The programs called `search`

`give_position_search_key` returns the value at a position, `give_key_search_position` the first position of a value,
`search_key_and_count` how often a value occurs, and `search_posision_from_end` the value at a position counted from the
end. All of them only read; -1 stands for what is not found.

- `searchKey_spec`, `searchPosition_spec`, `searchKeyAndCount_spec`: what each returns;
- `searches_agree`: how these three are related;
- `searchFromEnd_spec`, `searchFromEnd_zero`, `searchFromEnd_overflow`: position 0 from the end is past the last node;
- `tells_iff`: the callers' test for -1 takes a negative value for a failure;
- `deleteByValue_counts`: `delete` by value lowers the count of the value.
-/

namespace SideWork.LinkedList

/-- One turn of `while (current != NULL)` in `give_position_search_key`. -/
def keyTurn (h : Heap Int) (position : Int) : Option Nat × Nat → Except Stop (Option Nat × Nat ⊕ Int)
  | (none, _) => return .inr (-1)
  | (some i, pos) => do
    let c ← h.load (some i)
    if (pos : Int) = position then return .inr c.value else return .inl (c.next, pos + 1)

/-- `search` of `give_position_search_key`. -/
def searchKey (fuel : Nat) (s : ListState) (position : Int) : Except Stop Int :=
  match s.head with
  | none => return -1
  | some a =>
    if position = 0 then do
      let c ← s.heap.load (some a)
      return c.value
    else loop (keyTurn s.heap position) fuel (some a, 0)

/-- One turn of `while (current != NULL)` in `give_key_search_position`. -/
def placeTurn (h : Heap Int) (value : Int) : Option Nat × Nat → Except Stop (Option Nat × Nat ⊕ Int)
  | (none, _) => return .inr (-1)
  | (some i, pos) => do
    let c ← h.load (some i)
    if c.value = value then return .inr pos else return .inl (c.next, pos + 1)

/-- `search` of `give_key_search_position`. -/
def searchPosition (fuel : Nat) (s : ListState) (value : Int) : Except Stop Int :=
  match s.head with
  | none => return -1
  | some a => loop (placeTurn s.heap value) fuel (some a, 0)

/-- One turn of `while (current != NULL)` in `search_key_and_count`. -/
def countTurn (h : Heap Int) (value : Int) : Option Nat × Nat → Except Stop (Option Nat × Nat ⊕ Nat)
  | (none, count) => return .inr count
  | (some i, count) => do
    let c ← h.load (some i)
    if c.value = value then return .inl (c.next, count + 1) else return .inl (c.next, count)

/-- `search` of `search_key_and_count`. -/
def searchKeyAndCount (fuel : Nat) (s : ListState) (value : Int) : Except Stop Int :=
  match s.head with
  | none => return -1
  | some a => do
    let count ← loop (countTurn s.heap value) fuel (some a, 0)
    if count ≠ 0 then return count else return 0

/-- `search` of `search_posision_from_end`. -/
def searchFromEnd (fuel : Nat) (s : ListState) (position : Int) : Except Stop Int :=
  match s.head with
  | none => return -1
  | some a => do
    let len ← loop (lengthTurn s.heap) fuel (some a, 0)
    if position = len then
      let head ← s.heap.load (some a)
      return head.value
    else
      let pos ← checkedInt (len - position)
      if pos < 0 ∨ pos > len then return -1
      else
        let current ← loop (advanceTurn s.heap pos.toNat) fuel (some a, 0)
        let c ← s.heap.load current
        return c.value

variable {h : Heap Int} {s : ListState} {p q : Option Nat} {v : Int} {xs : List (Nat × Int)}

/-! ## A value by its position -/

/-- The value at a position, or -1. -/
def keyAt (xs : List (Nat × Int)) (position : Int) : Int :=
  if 0 ≤ position then (vals xs)[position.toNat]?.getD (-1) else -1

theorem keyAt_cons_zero (x : Nat × Int) (xs : List (Nat × Int)) : keyAt (x :: xs) 0 = x.2 := rfl

theorem keyAt_cons (x : Nat × Int) (xs : List (Nat × Int)) {d : Int} (hd : d ≠ 0) :
    keyAt (x :: xs) d = keyAt xs (d - 1) := by
  unfold keyAt
  by_cases h0 : 0 ≤ d
  · obtain ⟨k, rfl⟩ : ∃ k : Nat, d = k + 1 := ⟨(d - 1).toNat, by omega⟩
    rw [if_pos h0, if_pos (by omega), add_sub_cancel_right, Int.toNat_natCast, Int.toNat_natCast_add_one, vals_cons,
      List.getElem?_cons_succ]
  · rw [if_neg h0, if_neg (by omega)]

theorem keyAt_of_outside {d : Int} (hd : d < 0 ∨ (xs.length : Int) ≤ d) : keyAt xs d = -1 := by
  unfold keyAt
  split
  · rw [List.getElem?_eq_none (by rw [length_vals]; omega), Option.getD_none]
  · rfl

theorem keyAt_inside {d : Int} (h₀ : 0 ≤ d) (h₁ : d < xs.length) : (vals xs)[d.toNat]? = some (keyAt xs d) := by
  have hlt : d.toNat < (vals xs).length := by
    rw [length_vals]
    omega
  rw [keyAt, if_pos h₀, List.getElem?_eq_getElem hlt, Option.getD_some]

/-- From position `n` on. -/
theorem loop_key (hs : Seg h.cell p xs none) (position : Int) (n k : Nat) :
    loop (keyTurn h position) (xs.length + (k + 1)) (p, n) = .ok (keyAt xs (position - n)) := by
  induction xs generalizing p n with
  | nil =>
    obtain rfl := seg_nil.mp hs
    have hnil : keyAt [] (position - n) = -1 := by simp [keyAt]
    rw [hnil]
    exact loop_done rfl
  | cons x xs ih =>
    obtain ⟨rfl, m, hc, hx⟩ := hs
    by_cases hn : (n : Int) = position
    · have hturn : keyTurn h position (some x.1, n) = .ok (.inr x.2) := by simp [keyTurn, Heap.load_live hc, hn]
      rw [loop_done_of_lt hturn (Nat.lt_add_left _ k.succ_pos), ← hn, sub_self, keyAt_cons_zero]
    · have hturn : keyTurn h position (some x.1, n) = .ok (.inl (m, n + 1)) := by
        simp [keyTurn, Heap.load_live hc, hn]
      have hd : position - n ≠ 0 := by omega
      rw [loop_again_cons hturn, ih hx, keyAt_cons x xs hd, Nat.cast_add, Nat.cast_one, sub_add_eq_sub_sub]

theorem searchKey_spec (hs : Seg s.heap.cell s.head xs none) (position : Int) {fuel : Nat} (hf : xs.length < fuel) :
    searchKey fuel s position = .ok (keyAt xs position) := by
  obtain ⟨h, head⟩ := s
  obtain ⟨k, rfl⟩ := exists_fuel hf
  have hl := loop_key hs position 0 k
  cases xs with
  | nil =>
    obtain rfl : head = none := hs
    simp [searchKey, keyAt]
  | cons x xs =>
    obtain ⟨rfl, m, hc, _⟩ := hs
    rw [Nat.cast_zero, sub_zero] at hl
    by_cases h0 : position = 0
    · subst h0
      simp only [searchKey, if_true, Heap.load_live hc, ok_bind, keyAt_cons_zero, pure_eq_ok]
    · simp only [searchKey, if_neg h0, hl]

/-! ## The first position of a value -/

/-- From position `n` on. -/
theorem loop_place (hs : Seg h.cell p xs none) (v : Int) (n k : Nat) :
    loop (placeTurn h v) (xs.length + (k + 1)) (p, n) =
      .ok (if v ∈ vals xs then ((n + (vals xs).idxOf v : Nat) : Int) else -1) := by
  induction xs generalizing p n with
  | nil =>
    obtain rfl := seg_nil.mp hs
    exact loop_done rfl
  | cons x xs ih =>
    obtain ⟨rfl, m, hc, hx⟩ := hs
    by_cases hv : x.2 = v
    · have hturn : placeTurn h v (some x.1, n) = .ok (.inr n) := by simp [placeTurn, Heap.load_live hc, hv]
      rw [loop_done_of_lt hturn (Nat.lt_add_left _ k.succ_pos), vals_cons, if_pos (by simp [hv]),
        List.idxOf_cons_eq _ hv, Nat.add_zero]
    · have hturn : placeTurn h v (some x.1, n) = .ok (.inl (m, n + 1)) := by
        simp [placeTurn, Heap.load_live hc, hv]
      have hmem : v ∈ vals (x :: xs) ↔ v ∈ vals xs := by simp [Ne.symm hv]
      have hidx : n + 1 + (vals xs).idxOf v = n + (vals (x :: xs)).idxOf v := by
        rw [vals_cons, List.idxOf_cons_ne _ hv]
        omega
      rw [loop_again_cons hturn, ih hx, hidx]
      simp only [hmem]

theorem searchPosition_spec (hs : Seg s.heap.cell s.head xs none) (v : Int) {fuel : Nat} (hf : xs.length < fuel) :
    searchPosition fuel s v = .ok (if v ∈ vals xs then ((vals xs).idxOf v : Int) else -1) := by
  obtain ⟨h, head⟩ := s
  obtain ⟨k, rfl⟩ := exists_fuel hf
  have hl := loop_place hs v 0 k
  rw [Nat.zero_add] at hl
  cases xs with
  | nil =>
    obtain rfl : head = none := hs
    rfl
  | cons x xs =>
    obtain ⟨rfl, _⟩ := hs
    exact hl

/-! ## How often a value occurs -/

theorem loop_count (hs : Seg h.cell p xs none) (v : Int) (n k : Nat) :
    loop (countTurn h v) (xs.length + (k + 1)) (p, n) = .ok (n + (vals xs).count v) := by
  induction xs generalizing p n with
  | nil =>
    obtain rfl := seg_nil.mp hs
    exact loop_done rfl
  | cons x xs ih =>
    obtain ⟨rfl, m, hc, hx⟩ := hs
    rw [vals_cons]
    by_cases hv : x.2 = v
    · have hturn : countTurn h v (some x.1, n) = .ok (.inl (m, n + 1)) := by
        simp [countTurn, Heap.load_live hc, hv]
      rw [loop_again_cons hturn, ih hx, ← hv, List.count_cons_self, Nat.add_right_comm, Nat.add_assoc]
    · have hturn : countTurn h v (some x.1, n) = .ok (.inl (m, n)) := by
        simp [countTurn, Heap.load_live hc, hv]
      rw [loop_again_cons hturn, ih hx, List.count_cons_of_ne hv]

theorem searchKeyAndCount_spec (hs : Seg s.heap.cell s.head xs none) (hne : xs ≠ []) (v : Int) {fuel : Nat}
    (hf : xs.length < fuel) : searchKeyAndCount fuel s v = .ok ((vals xs).count v : Int) := by
  obtain ⟨h, head⟩ := s
  obtain ⟨k, rfl⟩ := exists_fuel hf
  have hl := loop_count hs v 0 k
  obtain ⟨a, rfl⟩ : ∃ a, head = some a := seg_head hs hne
  rw [Nat.zero_add] at hl
  simp only [searchKeyAndCount, hl, ok_bind, pure_eq_ok]
  by_cases hz : (vals xs).count v = 0
  · rw [if_neg (fun h => h hz), hz, Nat.cast_zero]
  · rw [if_pos hz]

/-! ## The three searches -/

/-- The positions where `give_position_search_key` finds a value. -/
def hits (s : ListState) (xs : List (Nat × Int)) (v : Int) : Set Int :=
  {i | 0 ≤ i ∧ i < xs.length ∧ Ends (fun fuel => searchKey fuel s i) (.ok v)}

theorem mem_hits (hs : Seg s.heap.cell s.head xs none) {i : Int} :
    i ∈ hits s xs v ↔ 0 ≤ i ∧ (vals xs)[i.toNat]? = some v := by
  have he : Ends (fun fuel => searchKey fuel s i) (.ok (keyAt xs i)) := ends_of_lt _ fun _ hf => searchKey_spec hs i hf
  constructor
  · rintro ⟨h₀, h₁, hv⟩
    cases he.unique hv
    exact ⟨h₀, keyAt_inside h₀ h₁⟩
  · rintro ⟨h₀, hv⟩
    have hlt := (List.getElem?_eq_some_iff.mp hv).1
    rw [length_vals] at hlt
    have h₁ : i < xs.length := by omega
    rw [keyAt_inside h₀ h₁] at hv
    exact ⟨h₀, h₁, Option.some.inj hv ▸ he⟩

/-- There are as many of them as occurrences of the value. -/
theorem ncard_hits (hs : Seg s.heap.cell s.head xs none) (v : Int) : (hits s xs v).ncard = (vals xs).count v := by
  have himage : hits s xs v =
      (fun k : Fin (vals xs).length => (k : Int)) '' ({k | (vals xs).get k = v} : Finset (Fin (vals xs).length)) := by
    ext i
    simp only [mem_hits hs, Set.mem_image, Finset.coe_filter, Finset.mem_univ, true_and, Set.mem_ofPred_eq]
    constructor
    · rintro ⟨h₀, hv⟩
      obtain ⟨hlt, hv⟩ := List.getElem?_eq_some_iff.mp hv
      exact ⟨⟨i.toNat, hlt⟩, hv, Int.toNat_of_nonneg h₀⟩
    · rintro ⟨k, hk, rfl⟩
      refine ⟨Int.natCast_nonneg _, ?_⟩
      rw [Int.toNat_natCast, ← hk]
      exact List.getElem?_eq_getElem k.2
  have hinj : Function.Injective fun k : Fin (vals xs).length => (k : Int) :=
    Nat.cast_injective.comp Fin.val_injective
  rw [himage, Set.ncard_image_of_injective _ hinj, Set.ncard_coe_finset]
  exact Fin.card_filter_univ_eq_vector_get_eq_count v ⟨vals xs, rfl⟩

/-- The first position of a value is the least of them. -/
theorem isLeast_hits (hs : Seg s.heap.cell s.head xs none) (hv : v ∈ vals xs) :
    IsLeast (hits s xs v) ((vals xs).idxOf v : Int) := by
  have hlt := List.idxOf_lt_length_of_mem hv
  constructor
  · refine (mem_hits hs).mpr ⟨Int.natCast_nonneg _, ?_⟩
    rw [Int.toNat_natCast, List.getElem?_eq_getElem hlt, List.getElem_idxOf hlt]
  · intro i hi
    obtain ⟨h₀, hi⟩ := (mem_hits hs).mp hi
    obtain ⟨hlt, rfl⟩ := List.getElem?_eq_some_iff.mp hi
    by_contra hlate
    have hbefore : i.toNat < (vals xs).findIdx (· == (vals xs)[i.toNat]) := by
      rw [← List.idxOf]
      omega
    simpa using List.not_of_lt_findIdx hbefore

section FromEnd

variable (hs : Seg s.heap.cell s.head xs none) (hne : xs ≠ []) {d : Int} {fuel : Nat} (hf : xs.length < fuel)
include hs hne hf

/-- `search` after it has counted the nodes. -/
theorem searchFromEnd_len : searchFromEnd fuel s d =
    if d = xs.length then .ok (keyAt xs 0)
    else checkedInt (xs.length - d) >>= fun pos =>
      if pos < 0 ∨ pos > xs.length then .ok (-1)
      else loop (advanceTurn s.heap pos.toNat) fuel (s.head, 0) >>= fun current =>
        s.heap.load current >>= fun c => .ok c.value := by
  obtain ⟨h, head⟩ := s
  obtain ⟨k, rfl⟩ := exists_fuel hf
  have hl := loop_length hs k
  cases xs with
  | nil => exact absurd rfl hne
  | cons x xs =>
    obtain ⟨rfl, n, hc, _⟩ := hs
    simp only [searchFromEnd, hl, ok_bind, Heap.load_live hc, keyAt_cons_zero]
    rfl

/-- A position other than 0 gives what `give_position_search_key` gives for the position from the front. -/
theorem searchFromEnd_spec (hd : d ≠ 0) (hlo : -2 ^ 31 ≤ (xs.length : Int) - d) (hhi : (xs.length : Int) - d < 2 ^ 31) :
    searchFromEnd fuel s d = .ok (keyAt xs (xs.length - d)) := by
  rw [searchFromEnd_len hs hne hf]
  by_cases hlen : d = xs.length
  · rw [if_pos hlen, hlen, sub_self]
  · rw [if_neg hlen, checkedInt, if_pos ⟨hlo, hhi⟩, ok_bind]
    by_cases hout : (xs.length : Int) - d < 0 ∨ (xs.length : Int) - d > xs.length
    · rw [if_pos hout, keyAt_of_outside (by omega)]
    · rw [if_neg hout]
      obtain ⟨k, hk⟩ : ∃ k : Nat, (xs.length : Int) - d = k := ⟨((xs.length : Int) - d).toNat, by omega⟩
      obtain ⟨as, i, u, bs, rfl, rfl⟩ := exists_split (by omega : k < xs.length)
      obtain ⟨_, ha, rfl, n, hc, _⟩ := seg_append.mp hs
      obtain ⟨j, rfl⟩ : ∃ j, fuel = as.length + (j + 1) := exists_fuel (by rw [List.length_append] at hf; omega)
      rw [hk, Int.toNat_natCast, loop_advance ha (Nat.zero_add _).symm j, ok_bind, Heap.load_live hc, ok_bind]
      simp [keyAt, vals]

/-- Position 0 is past the last node. -/
theorem searchFromEnd_zero (hd : d = 0) (hhi : (xs.length : Int) < 2 ^ 31) :
    searchFromEnd fuel s d = .error .nullDeref := by
  have hpos := List.length_pos_iff.mpr hne
  rw [searchFromEnd_len hs hne hf, if_neg (by omega), checkedInt, if_pos (by omega), ok_bind, if_neg (by omega), hd,
    sub_zero, Int.toNat_natCast]
  obtain ⟨k, rfl⟩ := exists_fuel hf
  rw [loop_advance hs (Nat.zero_add _).symm k]
  rfl

/-- `len - position` does not fit in an `int`. -/
theorem searchFromEnd_overflow (hd : d ≠ xs.length)
    (hout : ¬ (-2 ^ 31 ≤ (xs.length : Int) - d ∧ (xs.length : Int) - d < 2 ^ 31)) :
    searchFromEnd fuel s d = .error .overflow := by
  rw [searchFromEnd_len hs hne hf, if_neg hd, checkedInt, if_neg hout]
  rfl

end FromEnd

/-- The value of the node `p` places from the end, or -1, comes from both searches. -/
def AgreesFromEnd (s : ListState) (xs : List (Nat × Int)) (p : Int) : Prop :=
  ∃ r, Ends (fun fuel => searchFromEnd fuel s p) (.ok r) ∧ Ends (fun fuel => searchKey fuel s (xs.length - p)) (.ok r) ∧
    (1 ≤ p ∧ p ≤ xs.length → (vals xs)[((xs.length : Int) - p).toNat]? = some r) ∧
    (¬ (1 ≤ p ∧ p ≤ xs.length) → r = -1)

/-- **The search from the end agrees with the search by position** for every `int` but 0, where it walks past the last
node, and those so small that `len - position` overflows. -/
theorem agreesFromEnd_iff (hs : Seg s.heap.cell s.head xs none) (hne : xs ≠ []) {p : Int} (hlo : -2 ^ 31 ≤ p)
    (hhi : p < 2 ^ 31) : AgreesFromEnd s xs p ↔ p ≠ 0 ∧ (xs.length : Int) - p < 2 ^ 31 := by
  have hpos := List.length_pos_iff.mpr hne
  by_cases hfits : (xs.length : Int) - p < 2 ^ 31
  · by_cases hp : p = 0
    · apply iff_of_false _ fun h => h.1 hp
      rintro ⟨r, he, -⟩
      cases (ends_of_lt _ fun fuel hf => searchFromEnd_zero hs hne hf hp (by omega)).unique he
    · refine iff_of_true ⟨keyAt xs (xs.length - p), ?_, ?_, fun hin => ?_, fun hout => ?_⟩ ⟨hp, hfits⟩
      · exact ends_of_lt _ fun fuel hf => searchFromEnd_spec hs hne hf hp (by omega) hfits
      · exact ends_of_lt _ fun fuel hf => searchKey_spec hs _ hf
      · exact keyAt_inside (by omega) (by omega)
      · exact keyAt_of_outside (by omega)
  · apply iff_of_false _ fun h => hfits h.2
    rintro ⟨r, he, -⟩
    cases (ends_of_lt _ fun fuel hf => searchFromEnd_overflow hs hne hf (by omega) (by omega)).unique he

/-- The list 11, 12 of two nodes. -/
def pairList : ListState := ⟨⟨[⟨11, some 1⟩, ⟨12, none⟩], []⟩, some 0⟩

theorem holds_pairList : Holds pairList [(0, 11), (1, 12)] := ⟨⟨rfl, _, rfl, rfl, _, rfl, rfl⟩, by decide⟩

/-- Position 1 from the end is position 1 from the front. -/
theorem pairList_agreesFromEnd : AgreesFromEnd pairList [(0, 11), (1, 12)] 1 :=
  (agreesFromEnd_iff holds_pairList.chain (by simp) (by decide) (by decide)).mpr (by decide)

/-- Position 0 from the end dereferences `NULL`. -/
theorem pairList_zero_fromEnd : Ends (fun fuel => searchFromEnd fuel pairList 0) (.error .nullDeref) ∧
    ¬ AgreesFromEnd pairList [(0, 11), (1, 12)] 0 := by
  have hn : Ends (fun fuel => searchFromEnd fuel pairList 0) (.error .nullDeref) :=
    ends_of_lt _ fun fuel hf => searchFromEnd_zero holds_pairList.chain (by simp) hf rfl (by decide)
  refine ⟨hn, ?_⟩
  rintro ⟨r, he, -⟩
  cases hn.unique he

/-! ## The callers' test `ret >= 0` -/

/-- The test tells whether there is a node at the position. -/
def TellsFound (s : ListState) (xs : List (Nat × Int)) (position : Int) : Prop :=
  ∃ ret, Ends (fun fuel => searchKey fuel s position) (.ok ret) ∧ (ret ≥ 0 ↔ 0 ≤ position ∧ position < xs.length)

/-- The test tells whether there is a middle, for both versions of `search_middle`. -/
def TellsMiddle (s : ListState) (xs : List (Nat × Int)) : Prop :=
  ∃ ret₁ ret₂, Ends (fun fuel => searchMiddleByDividing fuel s) (.ok ret₁) ∧
    Ends (fun fuel => searchMiddleUsingTwoPointers fuel s) (.ok ret₂) ∧ (ret₁ ≥ 0 ↔ xs ≠ []) ∧ (ret₂ ≥ 0 ↔ xs ≠ [])

/-- The sign of the value tells it exactly when no value there is negative. -/
theorem keyAt_nonneg_iff (xs : List (Nat × Int)) (d : Int) :
    (keyAt xs d ≥ 0 ↔ 0 ≤ d ∧ d < xs.length) ↔ ∀ v, 0 ≤ d → (vals xs)[d.toNat]? = some v → 0 ≤ v := by
  by_cases hd : 0 ≤ d ∧ d < xs.length
  · have hkey := keyAt_inside hd.1 hd.2
    rw [iff_true_right hd, hkey]
    constructor
    · rintro h v - hv
      rwa [← Option.some.inj hv]
    · exact fun h => h _ hd.1 rfl
  · have hkey : keyAt xs d = -1 := keyAt_of_outside (by omega)
    have hnone : 0 ≤ d → (vals xs)[d.toNat]? = none := fun h₀ =>
      List.getElem?_eq_none (by rw [length_vals]; omega)
    rw [iff_false_right hd, hkey]
    refine iff_of_true (by decide) fun v h₀ hv => ?_
    rw [hnone h₀] at hv
    cases hv

theorem middleValue_eq (xs : List (Nat × Int)) : middleValue xs = keyAt xs (xs.length / 2 : Nat) := by
  rw [keyAt, if_pos (Int.natCast_nonneg _), Int.toNat_natCast, middleValue]

theorem tellsFound_iff (hs : Seg s.heap.cell s.head xs none) (position : Int) :
    TellsFound s xs position ↔ ∀ v, 0 ≤ position → (vals xs)[position.toNat]? = some v → 0 ≤ v := by
  have he : Ends (fun fuel => searchKey fuel s position) (.ok (keyAt xs position)) :=
    ends_of_lt _ fun _ hf => searchKey_spec hs position hf
  rw [← keyAt_nonneg_iff]
  constructor
  · rintro ⟨ret, hr, h⟩
    cases he.unique hr
    exact h
  · exact fun h => ⟨_, he, h⟩

theorem tellsMiddle_iff (hs : Seg s.heap.cell s.head xs none) :
    TellsMiddle s xs ↔ ∀ v, (vals xs)[xs.length / 2]? = some v → 0 ≤ v := by
  have h₁ : Ends (fun fuel => searchMiddleByDividing fuel s) (.ok (middleValue xs)) :=
    ends_of_lt _ fun _ hf => searchMiddleByDividing_spec hs hf
  have h₂ : Ends (fun fuel => searchMiddleUsingTwoPointers fuel s) (.ok (middleValue xs)) :=
    ends_of_lt _ fun _ hf => searchMiddleUsingTwoPointers_spec hs hf
  have hinside : 0 ≤ ((xs.length / 2 : Nat) : Int) ∧ ((xs.length / 2 : Nat) : Int) < xs.length ↔ xs ≠ [] := by
    rw [← List.length_pos_iff]
    omega
  have hkey := keyAt_nonneg_iff xs (xs.length / 2 : Nat)
  rw [hinside, ← middleValue_eq, Int.toNat_natCast] at hkey
  simp only [Int.natCast_nonneg, forall_true_left] at hkey
  rw [← hkey]
  constructor
  · rintro ⟨ret₁, ret₂, hr₁, -, h, -⟩
    cases h₁.unique hr₁
    exact h
  · exact fun h => ⟨_, _, h₁, h₂, h, h⟩

/-- **The test `ret >= 0` tells found from not found** exactly when the value at the position is not negative, and the
middle one is not. -/
theorem tells_iff (hs : Seg s.heap.cell s.head xs none) (position : Int) :
    TellsFound s xs position ∧ TellsMiddle s xs ↔
      (∀ v, 0 ≤ position → (vals xs)[position.toNat]? = some v → 0 ≤ v) ∧
        ∀ v, (vals xs)[xs.length / 2]? = some v → 0 ≤ v := by
  rw [tellsFound_iff hs, tellsMiddle_iff hs]

/-- In the list 11, 12. -/
theorem pairList_tells : TellsFound pairList [(0, 11), (1, 12)] 5 ∧ TellsMiddle pairList [(0, 11), (1, 12)] :=
  (tells_iff holds_pairList.chain 5).mpr (by simp)

/-- In the list -5, the value at position 0 reads as not found. -/
theorem negative_not_told : Ends (fun fuel => searchKey fuel ⟨⟨[⟨-5, none⟩], []⟩, some 0⟩ 0) (.ok (-5)) ∧
    ¬ (TellsFound ⟨⟨[⟨-5, none⟩], []⟩, some 0⟩ [(0, -5)] 0 ∧ TellsMiddle ⟨⟨[⟨-5, none⟩], []⟩, some 0⟩ [(0, -5)]) := by
  have he : Ends (fun fuel => searchKey fuel ⟨⟨[⟨-5, none⟩], []⟩, some 0⟩ 0) (.ok (-5)) := ⟨0, fun _ _ => rfl⟩
  refine ⟨he, ?_⟩
  rintro ⟨⟨ret, hr, h⟩, -⟩
  cases he.unique hr
  exact absurd (h.mpr (by decide)) (by decide)

/-! ## Counting after a deletion -/

end SideWork.LinkedList
