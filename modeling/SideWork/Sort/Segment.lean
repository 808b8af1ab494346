import Mathlib.Data.List.Basic
import Mathlib.Tactic

/-!
# Sorted segments

What the sorts that work on `arr[left..right]` promise: the segment holds its old elements in order, and the rest of the
array is left alone (`SortedSegment`). Their proofs cut the array into `as ++ (seg ++ ts)` around the segment
(`exists_cut`, `sortedSegment_mid`). The sorts that work on the whole array promise `Ordered`.
-/

namespace SideWork.Sort

/-- `arr[left..right]`. -/
def segment (arr : List Int) (left right : Nat) : List Int := (arr.take (right + 1)).drop left

/-- `arr'` is `arr` with the segment sorted. -/
structure SortedSegment (arr : List Int) (left right : Nat) (arr' : List Int) : Prop where
  sorted : (segment arr' left right).Pairwise (· ≤ ·)
  perm : (segment arr' left right).Perm (segment arr left right)
  before : arr'.take left = arr.take left
  behind : arr'.drop (right + 1) = arr.drop (right + 1)

/-- A segment cut out of the array. -/
theorem segment_mid (as seg ts : List Int) {right : Nat} (h : as.length + seg.length = right + 1) :
    segment (as ++ (seg ++ ts)) as.length right = seg ∧ (as ++ (seg ++ ts)).drop (right + 1) = ts := by
  have hcut : as ++ (seg ++ ts) = (as ++ seg) ++ ts := by simp
  have hlen : right + 1 = (as ++ seg).length := by simp [h]
  constructor
  · rw [segment, hcut, hlen, List.take_left, List.drop_left]
  · rw [hcut, hlen, List.drop_left]

theorem exists_cut {arr : List Int} {left right : Nat} (hle : left ≤ right) (hr : right < arr.length) :
    ∃ as seg ts, arr = as ++ (seg ++ ts) ∧ left = as.length ∧ as.length + seg.length = right + 1 := by
  refine ⟨arr.take left, (arr.drop left).take (right + 1 - left), (arr.drop left).drop (right + 1 - left), ?_, ?_, ?_⟩
  · rw [List.take_append_drop, List.take_append_drop]
  · rw [List.length_take]
    omega
  · rw [List.length_take, List.length_take, List.length_drop]
    omega

/-- Sorting the middle of a cut array. -/
theorem sortedSegment_mid (as ts : List Int) {seg seg' : List Int} {right : Nat} (hperm : seg'.Perm seg)
    (hsorted : seg'.Pairwise (· ≤ ·)) (hlen : as.length + seg.length = right + 1) :
    SortedSegment (as ++ (seg ++ ts)) as.length right (as ++ (seg' ++ ts)) := by
  obtain ⟨hs, hd⟩ := segment_mid as seg ts hlen
  obtain ⟨hs', hd'⟩ := segment_mid as seg' ts (hperm.length_eq ▸ hlen)
  refine ⟨?_, ?_, ?_, ?_⟩
  · rw [hs']
    exact hsorted
  · rw [hs, hs']
    exact hperm
  · rw [List.take_left, List.take_left]
  · rw [hd, hd']

theorem sorted_short {xs : List Int} (h : xs.length ≤ 1) : xs.Pairwise (· ≤ ·) := by
  match xs, h with
  | [], _ => exact List.Pairwise.nil
  | [x], _ => exact List.pairwise_singleton _ x

/-! ## Whole arrays -/

/-- `arr'` is `arr` in non-decreasing order. -/
structure Ordered (arr arr' : List Int) : Prop where
  sorted : arr'.Pairwise (· ≤ ·)
  perm : arr'.Perm arr

end SideWork.Sort
