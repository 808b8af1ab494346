import SideWork.Lib.CArray
import SideWork.Sort.Segment

/-!
# `selection_sort`

A round looks for the least of the elements that are not settled yet and swaps it to their front.

- `loop_min`: the inner loop finds the least element;
- `selectionSort_sorts`: the array is sorted, without an access outside it, and the elements a round has settled stay
  where they are.
-/

namespace SideWork.Sort

/-- One turn of `for (int j=i+1; j<len; j++)`. -/
def minTurn (arr : List Int) (len : Int) : Int × Int → Except Stop (Int × Int ⊕ Int)
  | (minIdx, j) =>
    if j < len then do
      let x ← get arr j
      let least ← get arr minIdx
      if x < least then return .inl (j, j + 1) else return .inl (minIdx, j + 1)
    else return .inr minIdx

/-- One round of `for (int i=0; i<len-1; i++)`. -/
def selectionRound (fuel : Nat) (len : Int) : List Int × Int → Except Stop (List Int × Int ⊕ List Int)
  | (arr, i) =>
    if i < len - 1 then do
      let minIdx ← loop (minTurn arr len) fuel (i, i + 1)
      let arr ← swap arr i minIdx
      return .inl (arr, i + 1)
    else return .inr arr

/-- `selection_sort`. -/
def selectionSort (fuel : Nat) (arr : List Int) (len : Int) : Except Stop (List Int) :=
  loop (selectionRound fuel len) fuel (arr, 0)

/-! ## One round -/

section Scan

variable {arr : List Int} {k j : Int}

/-- One turn of the scan, with `w :: ws` still to look at. -/
theorem minTurn_cons (as us : List Int) (m : Int) (vs : List Int) (w : Int) (ws : List Int)
    (harr : arr = as ++ (us ++ m :: (vs ++ w :: ws))) (hm : k = as.length + us.length) (hj : j = k + 1 + vs.length) :
    minTurn arr arr.length (k, j) = if w < m then .ok (.inl (j, j + 1)) else .ok (.inl (k, j + 1)) := by
  have hlt : j < arr.length := by
    simp [harr, hj, hm]
    omega
  have hget : get arr j = .ok w := by
    have hcut : arr = (as ++ us ++ m :: vs) ++ w :: ws := by simp [harr]
    rw [hcut, get_mid _ w ws (by simp [hj, hm]; ring)]
  have hmin : get arr k = .ok m := by
    have hcut : arr = (as ++ us) ++ m :: (vs ++ w :: ws) := by simp [harr]
    rw [hcut, get_mid _ m _ (by simp [hm])]
  simp only [minTurn, if_pos hlt, hget, hmin, ok_bind]
  by_cases hw : w < m
  · simp [hw]
  · simp [hw]

/-- With the least element `m` of those seen so far between `us` and `vs`, and `ws` still to look at. -/
theorem loop_min (as us : List Int) (m : Int) (vs ws : List Int) (harr : arr = as ++ (us ++ m :: (vs ++ ws)))
    (hle : ∀ y ∈ us ++ vs, m ≤ y) (hm : k = as.length + us.length) (hj : j = k + 1 + vs.length) :
    ∃ us' m' vs', us' ++ m' :: vs' = us ++ m :: (vs ++ ws) ∧ (∀ y ∈ us' ++ vs', m' ≤ y) ∧
      ∀ fuel, ws.length < fuel →
        loop (minTurn arr arr.length) fuel (k, j) = .ok (as.length + us'.length : Int) := by
  induction ws generalizing us m vs k j with
  | nil =>
    have hturn : minTurn arr arr.length (k, j) = .ok (.inr k) := by
      apply if_neg
      simp [harr, hj, hm]
      omega
    refine ⟨us, m, vs, by simp, hle, fun fuel hf => ?_⟩
    rw [loop_done_of_lt hturn hf, hm]
  | cons w ws ih =>
    have hturn := minTurn_cons as us m vs w ws harr hm hj
    by_cases hw : w < m
    · -- `w` takes the place of `m`, and all elements seen so far are in front of it
      rw [if_pos hw] at hturn
      have hle' : ∀ y ∈ us ++ m :: vs ++ [], w ≤ y := by
        intro y hy
        rw [List.append_nil, List.perm_middle.mem_iff, List.mem_cons] at hy
        rcases hy with rfl | hy
        · exact hw.le
        · exact hw.le.trans (hle y hy)
      obtain ⟨us', m', vs', he, hle', hl⟩ := ih (us ++ m :: vs) w [] (by simp [harr]) hle' (k := j) (j := j + 1)
        (by simp [hj, hm]; ring) (by simp)
      exact ⟨us', m', vs', by simp [he], hle', loop_again_of_lt hturn hl⟩
    · rw [if_neg hw] at hturn
      have hle' : ∀ y ∈ us ++ (vs ++ [w]), m ≤ y := by
        intro y hy
        rw [← List.append_assoc, List.mem_append, List.mem_singleton] at hy
        rcases hy with hy | rfl
        · exact hle y hy
        · exact not_lt.mp hw
      obtain ⟨us', m', vs', he, hle', hl⟩ := ih us m (vs ++ [w]) (by simp [harr]) hle' (j := j + 1) hm
        (by simp [hj]; ring)
      exact ⟨us', m', vs', by simp [he], hle', loop_again_of_lt hturn hl⟩

end Scan

/-- A round swaps the least of the elements that are not settled to their front. -/
theorem selectionRound_cons (as : List Int) (x : Int) (xs : List Int) (hne : xs ≠ []) :
    ∃ m ys, (m :: ys).Perm (x :: xs) ∧ (∀ y ∈ ys, m ≤ y) ∧ ∀ fuel, xs.length < fuel →
      selectionRound fuel (as ++ x :: xs).length (as ++ x :: xs, as.length) =
        .ok (.inl (as ++ m :: ys, as.length + 1)) := by
  have hlt : (as.length : Int) < (as ++ x :: xs).length - 1 := by
    have hpos := List.length_pos_iff.mpr hne
    simp only [List.length_append, List.length_cons]
    omega
  obtain ⟨us, m, vs, he, hle, hl⟩ := loop_min as [] x [] xs (rfl : as ++ x :: xs = _) (by simp)
    (k := as.length) (j := as.length + 1) (by simp) (by simp)
  -- the least element is the first one, or behind it
  cases us with
  | nil =>
    obtain ⟨rfl, rfl⟩ : m = x ∧ vs = xs := by simpa using he
    refine ⟨m, vs, List.Perm.refl _, fun y hy => hle y (by simpa using hy), fun fuel hf => ?_⟩
    have hl := hl fuel hf
    rw [List.length_nil, Nat.cast_zero, add_zero] at hl
    simp only [selectionRound, if_pos hlt, hl, ok_bind, swap_self as m vs rfl, pure_eq_ok]
  | cons u us =>
    obtain ⟨rfl, rfl⟩ : u = x ∧ us ++ m :: vs = xs := by simpa using he
    have hswap := swap_mid as u us m vs (i := as.length) (j := as.length + (u :: us).length) rfl (by simp; ring)
    rw [List.append_assoc, List.cons_append, List.append_assoc, List.cons_append] at hswap
    refine ⟨m, us ++ u :: vs, ?_, fun y hy => ?_, fun fuel hf => ?_⟩
    · have h₁ : (us ++ m :: vs).Perm (m :: (us ++ vs)) := List.perm_middle
      have h₂ : (us ++ u :: vs).Perm (u :: (us ++ vs)) := List.perm_middle
      exact (h₂.cons m).trans ((List.Perm.swap u m _).trans (h₁.symm.cons u))
    · apply hle
      simpa [or_left_comm] using hy
    · simp only [selectionRound, if_pos hlt, hl fuel hf, hswap, ok_bind, pure_eq_ok]

/-! ## The rounds -/

/-- After `k` rounds the first `k` elements are in order, and none of them exceeds any later element. -/
def SelectionInv (arr : List Int) (k : Nat) : List Int × Int → Prop
  | (arr', i) => i = k ∧ arr'.Perm arr ∧ (arr'.take k).Pairwise (· ≤ ·) ∧
    ∀ x ∈ arr'.take k, ∀ y ∈ arr'.drop k, x ≤ y

theorem selectionRound_step {arr : List Int} {k : Nat} (hk : k < arr.length - 1) {s : List Int × Int}
    (hs : SelectionInv arr k s) :
    ∃ s', (∀ fuel, arr.length < fuel → selectionRound fuel arr.length s = .ok (.inl s')) ∧
      SelectionInv arr (k + 1) s' := by
  obtain ⟨arr', i⟩ := s
  obtain ⟨rfl, hperm, hsorted, hle⟩ := hs
  have hlength := hperm.length_eq
  obtain ⟨as, x, xs, rfl, rfl⟩ := exists_index (show k < arr'.length by omega)
  have hne : xs ≠ [] := by
    rintro rfl
    simp at hlength
    omega
  rw [List.take_left] at hsorted hle
  rw [List.drop_left] at hle
  obtain ⟨m, ys, hmp, hmin, hrun⟩ := selectionRound_cons as x xs hne
  have hcut : as ++ m :: ys = (as ++ [m]) ++ ys := by simp
  have hlen : as.length + 1 = (as ++ [m]).length := by simp
  refine ⟨(as ++ m :: ys, as.length + 1), fun fuel hf => ?_, by push_cast; rfl, ?_, ?_, ?_⟩
  · rw [← hlength]
    refine hrun fuel ?_
    simp only [List.length_append, List.length_cons] at hlength
    omega
  · exact (hmp.append_left as).trans hperm
  · rw [hcut, hlen, List.take_left]
    refine List.pairwise_append.mpr ⟨hsorted, List.pairwise_singleton _ m, fun a ha z hz => ?_⟩
    rw [List.mem_singleton.mp hz]
    exact hle a ha m (hmp.mem_iff.mp List.mem_cons_self)
  · rw [hcut, hlen, List.take_left, List.drop_left]
    intro a ha y hy
    rcases List.mem_append.mp ha with ha | ha
    · exact hle a ha y (hmp.mem_iff.mp (List.mem_cons_of_mem m hy))
    · rw [List.mem_singleton.mp ha]
      exact hmin y hy

/-- What is settled stays: a sorted array starts with the elements that are in order and exceed none of the others. -/
theorem take_of_settled {mid arr' : List Int} {k : Nat} (hk : k ≤ mid.length) (hperm : arr'.Perm mid)
    (hsorted : arr'.Pairwise (· ≤ ·)) (hmid : (mid.take k).Pairwise (· ≤ ·))
    (hle : ∀ x ∈ mid.take k, ∀ y ∈ mid.drop k, x ≤ y) : mid.take k = arr'.take k := by
  have hrest : ((mid.drop k).insertionSort (· ≤ ·)).Perm (mid.drop k) := List.perm_insertionSort _ _
  have hwhole : (mid.take k ++ (mid.drop k).insertionSort (· ≤ ·)).Pairwise (· ≤ ·) := by
    refine List.pairwise_append.mpr ⟨hmid, List.pairwise_insertionSort _ _, fun x hx y hy => ?_⟩
    exact hle x hx y (hrest.mem_iff.mp hy)
  have hsame : (mid.take k ++ (mid.drop k).insertionSort (· ≤ ·)).Perm arr' := by
    have h := hrest.append_left (mid.take k)
    rw [List.take_append_drop] at h
    exact h.trans hperm.symm
  have hlen : (mid.take k).length = k := by
    rw [List.length_take]
    omega
  rw [← hsame.eq_of_pairwise' hwhole hsorted, List.take_left' hlen]

/-- **`selection_sort` sorts**: every run ends, inside the array, with its elements in order; after round `i` the first
`i + 1` elements are those of the result, and none of them exceeds any later one. -/
theorem selectionSort_sorts (arr : List Int) :
    ∃ arr', Ends (fun fuel => selectionSort fuel arr arr.length) (.ok arr') ∧ Ordered arr arr' ∧
      ∀ i : Nat, (i : Int) < arr.length - 1 →
        ∃ mid, Ends (fun fuel => turns (selectionRound fuel arr.length) (i + 1) (arr, 0)) (.ok (.inl (mid, i + 1))) ∧
          mid.take (i + 1) = arr'.take (i + 1) ∧ ∀ x ∈ mid.take (i + 1), ∀ y ∈ mid.drop (i + 1), x ≤ y := by
  have hinit : SelectionInv arr 0 (arr, 0) := ⟨rfl, List.Perm.refl _, by simp, by simp⟩
  have hstep : ∀ k < arr.length - 1, ∀ s, SelectionInv arr k s →
      ∃ s', (∀ fuel, arr.length < fuel → selectionRound fuel arr.length s = .ok (.inl s')) ∧
        SelectionInv arr (k + 1) s' := fun k hk s hs => selectionRound_step hk hs
  have hout : ∀ s, SelectionInv arr (arr.length - 1) s → ∀ fuel,
      selectionRound fuel arr.length s = .ok (.inr s.1) := by
    rintro ⟨arr', i⟩ ⟨rfl, -⟩ fuel
    exact if_neg (by omega)
  obtain ⟨⟨arr', i⟩, ⟨-, hperm, hsorted, hle⟩, hl⟩ := loop_of_inv hstep hout hinit
  have hordered : arr'.Pairwise (· ≤ ·) := by
    -- the last round leaves one element, or none
    have hlast : (arr'.drop (arr.length - 1)).length ≤ 1 := by
      rw [List.length_drop, hperm.length_eq]
      omega
    rw [← List.take_append_drop (arr.length - 1) arr']
    exact List.pairwise_append.mpr ⟨hsorted, sorted_short hlast, hle⟩
  refine ⟨arr', ends_of_lt _ hl, ⟨hordered, hperm⟩, fun i hi => ?_⟩
  obtain ⟨⟨mid, _⟩, hturns, rfl, hmp, hms, hml⟩ := turns_of_inv hstep hinit (show i + 1 ≤ arr.length - 1 by omega)
  refine ⟨mid, ends_of_lt _ hturns, ?_, hml⟩
  apply take_of_settled _ (hperm.trans hmp.symm) hordered hms hml
  rw [hmp.length_eq]
  omega

end SideWork.Sort
