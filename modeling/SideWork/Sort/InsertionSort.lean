import SideWork.Lib.CArray
import SideWork.Sort.Segment

/-!
# `insertion_sort`

A round moves one element down through the sorted part in front of it, by swaps with its neighbour.

- `loop_insertion`: the inner loop puts the element in its place;
- `insertionSort_sorts`: the array is sorted, without an access outside it.
-/

namespace SideWork.Sort

/-- One turn of `while(prev >= 0)`. -/
def insertionTurn : List Int × Int × Int → Except Stop (List Int × Int × Int ⊕ List Int)
  | (arr, current, prev) =>
    if prev ≥ 0 then do
      let x ← get arr current
      let y ← get arr prev
      if x < y then
        let arr ← swap arr current prev
        return .inl (arr, current - 1, prev - 1)
      else return .inr arr
    else return .inr arr

/-- One round of `for (int round=0; round<len; round++)`. -/
def insertionRound (fuel : Nat) (len : Int) : List Int × Int → Except Stop (List Int × Int ⊕ List Int)
  | (arr, round) =>
    if round < len then do
      let arr ← loop insertionTurn fuel (arr, round, round - 1)
      return .inl (arr, round + 1)
    else return .inr arr

/-- `insertion_sort`. -/
def insertionSort (fuel : Nat) (arr : List Int) (len : Int) : Except Stop (List Int) :=
  loop (insertionRound fuel len) fuel (arr, 0)

/-! ## The inner loop -/

/-- A turn with `y` in front of the moving element `x`. -/
theorem insertionTurn_snoc (as : List Int) (y x : Int) (bs : List Int) :
    insertionTurn (as ++ y :: x :: bs, as.length + 1, as.length) =
      if x < y then .ok (.inl (as ++ x :: y :: bs, as.length, as.length - 1)) else .ok (.inr (as ++ y :: x :: bs)) := by
  have hx : get (as ++ y :: x :: bs) (as.length + 1) = .ok x := by
    simpa using get_snd as y [] x bs (j := as.length + 1) (by simp)
  have hy : get (as ++ y :: x :: bs) as.length = .ok y := get_mid as y (x :: bs) rfl
  have hswap : swap (as ++ y :: x :: bs) (as.length + 1) as.length = .ok (as ++ x :: y :: bs) := by
    simpa using swap_mid' as y [] x bs (i := as.length) (j := as.length + 1) rfl (by simp)
  have hprev : (as.length : Int) ≥ 0 := by omega
  simp only [insertionTurn, if_pos hprev, hx, hy, hswap, ok_bind, pure_eq_ok]
  by_cases hlt : x < y
  · rw [if_pos hlt, if_pos hlt, add_sub_cancel_right]
  · rw [if_neg hlt, if_neg hlt]

/-- An element that fits between `y` and what follows it. -/
theorem sorted_insert {as bs : List Int} {y x : Int} (hsorted : (as ++ y :: bs).Pairwise (· ≤ ·)) (hyx : y ≤ x)
    (hx : ∀ b ∈ bs, x < b) : (as ++ [y] ++ x :: bs).Pairwise (· ≤ ·) := by
  obtain ⟨has, hybs, hle⟩ := List.pairwise_append.mp hsorted
  have hasy : (as ++ [y]).Pairwise (· ≤ ·) := by
    refine List.pairwise_append.mpr ⟨has, List.pairwise_singleton _ y, fun a ha z hz => ?_⟩
    exact hle a ha z (List.mem_cons.mpr (Or.inl (List.mem_singleton.mp hz)))
  have hxbs : (x :: bs).Pairwise (· ≤ ·) :=
    List.pairwise_cons.mpr ⟨fun b hb => (hx b hb).le, (List.pairwise_cons.mp hybs).2⟩
  refine List.pairwise_append.mpr ⟨hasy, hxbs, fun a ha z hz => ?_⟩
  -- everything in front is at most `y`, everything behind at least `x`
  have hay : a ≤ y := by
    rcases List.mem_append.mp ha with ha | ha
    · exact hle a ha y List.mem_cons_self
    · exact (List.mem_singleton.mp ha).le
  have hxz : x ≤ z := by
    rcases List.mem_cons.mp hz with rfl | hz
    · exact le_refl z
    · exact (hx z hz).le
  exact hay.trans (hyx.trans hxz)

/-- The element `x` moves through `as`; what it has passed, `bs`, is greater. The induction is on the part it still has
in front of it. -/
theorem loop_insertion (as : List Int) (x : Int) (bs ts : List Int) (hsorted : (as ++ bs).Pairwise (· ≤ ·))
    (hx : ∀ b ∈ bs, x < b) :
    ∃ seg : List Int, seg.Pairwise (· ≤ ·) ∧ seg.Perm (as ++ x :: bs) ∧ ∀ fuel, as.length < fuel →
      loop insertionTurn fuel (as ++ (x :: bs ++ ts), as.length, as.length - 1) = .ok (seg ++ ts) := by
  induction as using List.reverseRecOn generalizing bs with
  | nil =>
    refine ⟨x :: bs, List.pairwise_cons.mpr ⟨fun b hb => (hx b hb).le, hsorted⟩, List.Perm.refl _, fun fuel hf => ?_⟩
    exact loop_done_of_lt rfl hf
  | append_singleton as y ih =>
    have hcut : as ++ [y] ++ (x :: bs ++ ts) = as ++ y :: x :: (bs ++ ts) := by simp
    have hlen : ((as ++ [y]).length : Int) = as.length + 1 := by simp
    have hturn := insertionTurn_snoc as y x (bs ++ ts)
    rw [List.append_assoc, List.singleton_append] at hsorted
    rw [hcut, hlen, add_sub_cancel_right, List.length_append, List.length_singleton]
    by_cases hlt : x < y
    · rw [if_pos hlt] at hturn
      obtain ⟨seg, hseg, hperm, hl⟩ := ih (y :: bs) hsorted (List.forall_mem_cons.mpr ⟨hlt, hx⟩)
      refine ⟨seg, hseg, hperm.trans ?_, loop_again_of_lt hturn fun fuel hf => hl fuel hf⟩
      rw [List.append_assoc]
      exact (List.Perm.swap y x bs).append_left as
    · rw [if_neg hlt] at hturn
      refine ⟨as ++ [y] ++ x :: bs, ?_, List.Perm.refl _, fun fuel hf => ?_⟩
      · exact sorted_insert hsorted (not_lt.mp hlt) hx
      · rw [loop_done_of_lt hturn hf]
        simp

/-! ## The rounds -/

/-- After `k` rounds the first `k` elements are in order, and the others have not been touched. -/
def InsertionInv (arr : List Int) (k : Nat) : List Int × Int → Prop
  | (arr', round) => round = k ∧
    ∃ as : List Int, arr' = as ++ arr.drop k ∧ as.Pairwise (· ≤ ·) ∧ as.Perm (arr.take k)

theorem insertionRound_step {arr : List Int} {k : Nat} (hk : k < arr.length) {s : List Int × Int}
    (hs : InsertionInv arr k s) :
    ∃ s', (∀ fuel, arr.length < fuel → insertionRound fuel arr.length s = .ok (.inl s')) ∧
      InsertionInv arr (k + 1) s' := by
  obtain ⟨arr', round⟩ := s
  obtain ⟨rfl, as, rfl, has, hperm⟩ := hs
  have hlen : as.length = k := by
    rw [hperm.length_eq, List.length_take]
    omega
  obtain ⟨seg, hseg, hsp, hl⟩ := loop_insertion as arr[k] [] (arr.drop (k + 1)) (by simpa using has) (by simp)
  have hlt : (k : Int) < arr.length := by omega
  refine ⟨(seg ++ arr.drop (k + 1), k + 1), fun fuel hf => ?_, by push_cast; rfl, seg, rfl, hseg, ?_⟩
  · have hrun := hl fuel (by omega)
    rw [hlen, List.singleton_append, ← List.drop_eq_getElem_cons hk] at hrun
    simp only [insertionRound, if_pos hlt, hrun, ok_bind, pure_eq_ok]
  · rw [List.take_succ_eq_append_getElem hk]
    exact hsp.trans (hperm.append_right _)

/-- **`insertion_sort` sorts**: every run ends, inside the array, with its elements in order. -/
theorem insertionSort_sorts (arr : List Int) :
    ∃ arr', Ends (fun fuel => insertionSort fuel arr arr.length) (.ok arr') ∧ Ordered arr arr' := by
  have hinit : InsertionInv arr 0 (arr, 0) := ⟨rfl, [], rfl, List.Pairwise.nil, List.Perm.refl _⟩
  have hout : ∀ s, InsertionInv arr arr.length s → ∀ fuel, insertionRound fuel arr.length s = .ok (.inr s.1) := by
    rintro ⟨arr', round⟩ ⟨rfl, -⟩ fuel
    simp [insertionRound]
  obtain ⟨⟨arr', round⟩, ⟨-, as, rfl, has, hperm⟩, hl⟩ :=
    loop_of_inv (fun k hk s hs => insertionRound_step hk hs) hout hinit
  refine ⟨_, ends_of_lt _ hl, ?_, ?_⟩
  · simpa using has
  · simpa using hperm

end SideWork.Sort
