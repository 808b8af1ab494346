import SideWork.Sort.MergeSort
import Mathlib.Order.Interval.Set.Basic

/-!
# The calls of `merge_sort`

`(left+right)/2` is computed in `int`. Which calls `merge_sort` makes depends neither on the array nor on what `do_merge`
makes of it, only on the indices (`Called`): a call goes on while it has two elements and its sum is an `int`.

- `called_bounds`: every segment lies in that of the first call;
- `exists_last_call`: the right halves shrink down to the last two or three elements;
- `sums_fit_iff`: for an array of `n` elements all sums are in range exactly when `n ≤ 2^30 + 1`;
- `ends_iff_sums`: a run comes to its end exactly when the sums of all its calls are in range.
-/

namespace SideWork.Sort

/-- The calls that `merge_sort(arr, left₀, right₀)` leads to, itself among them. -/
inductive Called (left₀ right₀ : Int) : Int → Int → Prop
  | start : Called left₀ right₀ left₀ right₀
  | left {left right sum : Int} (h : Called left₀ right₀ left right) (hlt : left < right)
      (hsum : checkedInt (left + right) = .ok sum) : Called left₀ right₀ left (sum.tdiv 2)
  | right {left right sum : Int} (h : Called left₀ right₀ left right) (hlt : left < right)
      (hsum : checkedInt (left + right) = .ok sum) : Called left₀ right₀ (sum.tdiv 2 + 1) right

/-- Where a segment is to be cut: into two segments with elements, without a common one, both shorter. -/
structure Cut (left mid right : Int) : Prop where
  inside : left ≤ mid ∧ mid < right
  nonempty : (Set.Icc left mid).Nonempty ∧ (Set.Icc (mid + 1) right).Nonempty
  disjoint : ∀ k ∈ Set.Icc left mid, k ∉ Set.Icc (mid + 1) right
  shorter : mid - left < right - left ∧ right - (mid + 1) < right - left

/-- In every call of a run on `n` elements that has two or more of them, the sum is an `int` and the cut is right. -/
def SumsFit (n : Int) : Prop := ∀ left right, Called 0 (n - 1) left right → left < right →
  ∃ sum, checkedInt (left + right) = .ok sum ∧ Cut left (sum.tdiv 2) right

/-! ## One call -/

variable {left₀ right₀ left right : Int}

theorem cut_of_inside {mid : Int} (h : left ≤ mid ∧ mid < right) : Cut left mid right := by
  refine ⟨h, ⟨⟨left, by simp [h.1]⟩, ⟨right, by simp; omega⟩⟩, fun k hk hk' => ?_, by omega⟩
  have h₁ := hk.2
  have h₂ := hk'.1
  omega

theorem mid_inside (h₀ : 0 ≤ left) (hlt : left < right) : left ≤ (left + right).tdiv 2 ∧ (left + right).tdiv 2 < right := by
  rw [Int.tdiv_eq_ediv_of_nonneg (by omega)]
  omega

/-! ## All calls -/

/-- The segments of all calls lie in the first one. -/
theorem called_bounds (h₀ : 0 ≤ left₀) (h : Called left₀ right₀ left right) : left₀ ≤ left ∧ right ≤ right₀ := by
  induction h with
  | start => omega
  | left _ hlt hsum ih =>
    obtain ⟨rfl, -⟩ := checkedInt_eq_ok hsum
    have hmid := mid_inside (by omega) hlt
    omega
  | right _ hlt hsum ih =>
    obtain ⟨rfl, -⟩ := checkedInt_eq_ok hsum
    have hmid := mid_inside (by omega) hlt
    omega

/-- The sums stay below the double of the last index. -/
theorem sumsFit_of_le {n : Int} (hn : n ≤ 2 ^ 30 + 1) : SumsFit n := by
  intro left right h hlt
  have hb := called_bounds le_rfl h
  exact ⟨left + right, checkedInt_of_nonneg (by omega) (by omega), cut_of_inside (mid_inside hb.1 hlt)⟩

/-- As long as no sum is out of range, the right halves go down to two or three elements. -/
theorem exists_last_call {n : Int} (hfit : SumsFit n) : ∀ left, Called 0 (n - 1) left (n - 1) → left < n - 1 →
    ∃ left', Called 0 (n - 1) left' (n - 1) ∧ left' < n - 1 ∧ n - 3 ≤ left' := by
  intro left
  -- the induction is on the length of the segment
  induction hk : (n - left).toNat using Nat.strong_induction_on generalizing left with
  | _ k ih =>
    intro h hlt
    by_cases hlast : n - 3 ≤ left
    · exact ⟨left, h, hlt, hlast⟩
    · obtain ⟨sum, hsum, hcut⟩ := hfit _ _ h hlt
      have h₀ := (called_bounds le_rfl h).1
      have hin := hcut.inside
      have hmid : sum.tdiv 2 + 1 < n - 1 := by
        obtain ⟨rfl, -⟩ := checkedInt_eq_ok hsum
        rw [Int.tdiv_eq_ediv_of_nonneg (by omega)]
        omega
      exact ih _ (by omega) (sum.tdiv 2 + 1) rfl (.right h hlt hsum) hmid

/-- The sum of the last two indices, or of the last and the last but two, is out of range. -/
theorem not_sumsFit_of_gt {n : Int} (hn : 2 ^ 30 + 1 < n) : ¬ SumsFit n := by
  intro hfit
  obtain ⟨left, h, hlt, hlast⟩ := exists_last_call hfit 0 .start (by omega)
  obtain ⟨sum, hsum, -⟩ := hfit _ _ h hlt
  obtain ⟨-, hfits⟩ := checkedInt_eq_ok hsum
  have hlarge := hfits.2
  omega

/-- **The sums of the indices are in range**, in all calls of a run on `n` elements, exactly when `n` is at most
`2^30 + 1`. -/
theorem sums_fit_iff (n : Int) : SumsFit n ↔ n ≤ 2 ^ 30 + 1 := by
  refine ⟨fun h => ?_, sumsFit_of_le⟩
  by_contra hn
  exact not_sumsFit_of_gt (by omega) h

/-- Two elements more than `2^30`, which is far below `INT_MAX`. -/
theorem not_sumsFit_large : (2 ^ 30 + 2 : Int) ≤ 2 ^ 31 - 1 ∧ ¬ SumsFit (2 ^ 30 + 2) :=
  ⟨by omega, not_sumsFit_of_gt (by omega)⟩

/-! ## The run -/

/-- The first call, or one that its halves lead to. -/
theorem called_cases (h : Called left₀ right₀ left right) : left = left₀ ∧ right = right₀ ∨
    ∃ sum, left₀ < right₀ ∧ checkedInt (left₀ + right₀) = .ok sum ∧
      (Called left₀ (sum.tdiv 2) left right ∨ Called (sum.tdiv 2 + 1) right₀ left right) := by
  induction h with
  | start => exact .inl ⟨rfl, rfl⟩
  | left _ hlt hsum ih =>
    rcases ih with ⟨rfl, rfl⟩ | ⟨sum, hlt₀, hsum₀, ih | ih⟩
    · exact .inr ⟨_, hlt, hsum, .inl .start⟩
    · exact .inr ⟨sum, hlt₀, hsum₀, .inl (.left ih hlt hsum)⟩
    · exact .inr ⟨sum, hlt₀, hsum₀, .inr (.left ih hlt hsum)⟩
  | right _ hlt hsum ih =>
    rcases ih with ⟨rfl, rfl⟩ | ⟨sum, hlt₀, hsum₀, ih | ih⟩
    · exact .inr ⟨_, hlt, hsum, .inr .start⟩
    · exact .inr ⟨sum, hlt₀, hsum₀, .inl (.right ih hlt hsum)⟩
    · exact .inr ⟨sum, hlt₀, hsum₀, .inr (.right ih hlt hsum)⟩

theorem Called.trans {left₁ right₁ : Int} (h₁ : Called left₀ right₀ left₁ right₁) (h : Called left₁ right₁ left right) :
    Called left₀ right₀ left right := by
  induction h with
  | start => exact h₁
  | left _ hlt hsum ih => exact .left ih hlt hsum
  | right _ hlt hsum ih => exact .right ih hlt hsum

/-- A run that comes to its end has been through all calls. -/
theorem sums_of_ok {sizes : Sizes} {fuel : Nat} {arr arr' : List Int}
    (hrun : mergeSort sizes fuel arr left₀ right₀ = .ok arr') (h : Called left₀ right₀ left right) (hlt : left < right) :
    FitsInt (left + right) := by
  induction fuel generalizing arr arr' left₀ right₀ with
  | zero => cases hrun
  | succ fuel ih =>
    rw [mergeSort] at hrun
    split at hrun
    case isTrue hge =>
      rcases called_cases h with ⟨rfl, rfl⟩ | ⟨_, hlt₀, -⟩
      · omega
      · omega
    case isFalse =>
      obtain ⟨sum, hsum, hrun⟩ := bind_eq_ok hrun
      obtain ⟨arr₁, hleft, hrun⟩ := bind_eq_ok hrun
      obtain ⟨arr₂, hright, -⟩ := bind_eq_ok hrun
      rcases called_cases h with ⟨rfl, rfl⟩ | ⟨sum', -, hsum', hc⟩
      · exact (checkedInt_eq_ok hsum).2
      · obtain rfl := Except.ok.inj (hsum.symm.trans hsum')
        rcases hc with hc | hc
        · exact ih hleft hc
        · exact ih hright hc

theorem get_ne_overflow {α : Type} (arr : List α) (i : Int) : get arr i ≠ .error .overflow :=
  get_ne_error (by decide) arr i

theorem put_ne_overflow {α : Type} (arr : List α) (i : Int) (x : α) : put arr i x ≠ .error .overflow :=
  put_ne_error (by decide) arr i x

theorem loop_ne_overflow {σ ρ : Type} {turn : σ → Except Stop (σ ⊕ ρ)} (ht : ∀ s, turn s ≠ .error .overflow) (n : Nat)
    (s : σ) : loop turn n s ≠ .error .overflow :=
  loop_ne_error (by decide) ht n s

theorem getInit_ne_overflow (tmp : List (Option Int)) (i : Int) : getInit tmp i ≠ .error .overflow := by
  refine bind_ne_error (get_ne_overflow tmp i) fun x => ?_
  cases x <;> nofun

theorem copyTurn_ne_overflow (arr : List Int) (base n : Int) (s : List (Option Int) × Int) :
    copyTurn arr base n s ≠ .error .overflow := by
  obtain ⟨tmp, i⟩ := s
  rw [copyTurn]
  split
  · exact bind_ne_error (get_ne_overflow _ _) fun _ => bind_ne_error (put_ne_overflow _ _ _) fun _ => pure_ne_error
  · exact pure_ne_error

theorem mergeTurn_ne_overflow (leftArr rightArr : List (Option Int)) (n1 n2 : Int) (s : List Int × Int × Int × Int) :
    mergeTurn leftArr rightArr n1 n2 s ≠ .error .overflow := by
  obtain ⟨arr, i, j, k⟩ := s
  rw [mergeTurn]
  split
  · refine bind_ne_error (getInit_ne_overflow _ _) fun x => bind_ne_error (getInit_ne_overflow _ _) fun y => ?_
    split
    · exact bind_ne_error (put_ne_overflow _ _ _) fun _ => pure_ne_error
    · exact bind_ne_error (put_ne_overflow _ _ _) fun _ => pure_ne_error
  · exact pure_ne_error

theorem restTurn_ne_overflow (tmp : List (Option Int)) (n : Int) (s : List Int × Int × Int) :
    restTurn tmp n s ≠ .error .overflow := by
  obtain ⟨arr, i, k⟩ := s
  rw [restTurn]
  split
  · exact bind_ne_error (getInit_ne_overflow _ _) fun _ => bind_ne_error (put_ne_overflow _ _ _) fun _ => pure_ne_error
  · exact pure_ne_error

theorem doMerge_ne_overflow (sizes : Sizes) (fuel : Nat) (arr : List Int) (left mid right : Int) :
    doMerge sizes fuel arr left mid right ≠ .error .overflow := by
  refine bind_ne_error (loop_ne_overflow (copyTurn_ne_overflow _ _ _) _ _) fun leftArr => ?_
  refine bind_ne_error (loop_ne_overflow (copyTurn_ne_overflow _ _ _) _ _) fun rightArr => ?_
  refine bind_ne_error (loop_ne_overflow (mergeTurn_ne_overflow _ _ _ _) _ _) fun merged => ?_
  refine bind_ne_error (loop_ne_overflow (restTurn_ne_overflow _ _) _ _) fun rest => ?_
  exact bind_ne_error (loop_ne_overflow (restTurn_ne_overflow _ _) _ _) fun _ => pure_ne_error

/-- A run stops on an overflow only at the sum of one of its calls. -/
theorem sum_of_overflow {sizes : Sizes} {fuel : Nat} {arr : List Int}
    (hrun : mergeSort sizes fuel arr left₀ right₀ = .error .overflow) :
    ∃ left right, Called left₀ right₀ left right ∧ left < right ∧ ¬ FitsInt (left + right) := by
  induction fuel generalizing arr left₀ right₀ with
  | zero => cases hrun
  | succ fuel ih =>
    rw [mergeSort] at hrun
    split at hrun
    case isTrue => cases hrun
    case isFalse hge =>
      by_cases hfits : FitsInt (left₀ + right₀)
      · have hsum := checkedInt_of_fits hfits
        rw [hsum, ok_bind] at hrun
        by_contra hnone
        push Not at hnone
        have hleft : ∀ arr, mergeSort sizes fuel arr left₀ ((left₀ + right₀).tdiv 2) ≠ .error .overflow := by
          intro arr hrun
          obtain ⟨left, right, hc, hlt, hbig⟩ := ih hrun
          exact hbig (hnone _ _ ((Called.start.left (by omega) hsum).trans hc) hlt)
        have hright : ∀ arr, mergeSort sizes fuel arr ((left₀ + right₀).tdiv 2 + 1) right₀ ≠ .error .overflow := by
          intro arr hrun
          obtain ⟨left, right, hc, hlt, hbig⟩ := ih hrun
          exact hbig (hnone _ _ ((Called.start.right (by omega) hsum).trans hc) hlt)
        refine bind_ne_error (hleft _) (fun arr => ?_) hrun
        exact bind_ne_error (hright arr) fun arr => doMerge_ne_overflow _ _ _ _ _ _
      · exact ⟨left₀, right₀, .start, by omega, hfits⟩

/-- With room in all calls, a run comes to its end exactly when the sums of all its calls are in range. -/
theorem ends_iff_sums {sizes : Sizes} (hs : Roomy sizes) (arr : List Int) {left₀ right₀ : Nat} (hle : left₀ ≤ right₀)
    (hr : right₀ < arr.length) : (∃ arr', Ends (mergeSort sizes · arr left₀ right₀) (.ok arr')) ↔
      ∀ left right, Called left₀ right₀ left right → left < right → FitsInt (left + right) := by
  constructor
  · rintro ⟨arr', n, hrun⟩ left right h hlt
    exact sums_of_ok (hrun n le_rfl) h hlt
  · intro hfits
    by_cases hsmall : left₀ = right₀ ∨ right₀ ≤ 2 ^ 30
    · obtain ⟨arr', hends, -⟩ := sorts_of_small hs arr hle hr hsmall
      exact ⟨arr', hends⟩
    · obtain ⟨n, hrun⟩ := overflow_of_large hs arr hle hr hsmall
      obtain ⟨left, right, h, hlt, hbig⟩ := sum_of_overflow (hrun n le_rfl)
      exact absurd (hfits left right h hlt) hbig

end SideWork.Sort
