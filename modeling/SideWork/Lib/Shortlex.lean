import Mathlib.Tactic

/-!
# The shortlex order

Lists are compared by their lengths first, and lists of one length by the first elements that differ. Both comparisons
are the library's, and so are the laws of their combination.

- `shortlex_eq`: only a list itself compares equal;
- `shortlex_of_length_lt`, `shortlex_of_length_gt`: the lengths decide;
- `shortlex_differ`: else the first elements that differ do.

`sign` is the number a C comparison returns.
-/

namespace SideWork

section Shortlex

variable {α : Type*} [Ord α] {as bs us ws : List α}

/-- Shorter lists first, lists of one length by the first elements that differ. -/
def shortlex : List α → List α → Ordering := compareLex (compareOn List.length) compare

instance [Std.TransOrd α] : Std.TransCmp (shortlex : List α → List α → Ordering) :=
  inferInstanceAs (Std.TransCmp (compareLex (compareOn List.length) compare))

theorem shortlex_of_length_lt (hl : as.length < bs.length) : shortlex as bs = .lt := by
  rw [shortlex, compareLex, compareOn, compare_lt_iff_lt.mpr hl, Ordering.lt_then]

theorem shortlex_of_length_gt (hl : bs.length < as.length) : shortlex as bs = .gt := by
  rw [shortlex, compareLex, compareOn, compare_gt_iff_gt.mpr hl, Ordering.gt_then]

theorem shortlex_of_length_eq (hl : as.length = bs.length) : shortlex as bs = compare as bs := by
  rw [shortlex, compareLex, compareOn, compare_eq_iff_eq.mpr hl, Ordering.eq_then]

theorem shortlex_eq [Std.LawfulEqOrd α] : shortlex as bs = .eq ↔ as = bs := by
  constructor
  · intro h
    exact Std.LawfulEqCmp.eq_of_compare (compareLex_eq_eq.mp h).2
  · rintro rfl
    rw [shortlex_of_length_eq rfl]
    exact Std.ReflCmp.compare_self

/-- Behind a common prefix, the first elements that differ decide. -/
theorem shortlex_differ [Std.LawfulEqOrd α] (vs : List α) {x y : α} (hxy : x ≠ y) (hl : us.length = ws.length) :
    shortlex (vs ++ x :: us) (vs ++ y :: ws) = compare x y := by
  rw [shortlex_of_length_eq (by simp [hl])]
  induction vs with
  | nil =>
    have hne : compare x y ≠ .eq := fun h => hxy (Std.LawfulEqCmp.eq_of_compare h)
    rw [List.nil_append, List.nil_append, List.compare_cons_cons]
    cases hc : compare x y with
    | lt => rfl
    | eq => exact absurd hc hne
    | gt => rfl
  | cons v vs ih =>
    rw [List.cons_append, List.cons_append, List.compare_cons_cons, Std.ReflOrd.compare_self, Ordering.eq_then, ih]

end Shortlex

/-! ## Signs -/

/-- Positive for greater and negative for smaller. -/
def sign : Ordering → Int
  | .lt => -1
  | .eq => 0
  | .gt => 1

theorem sign_swap (o : Ordering) : sign o.swap = -sign o := by cases o <;> rfl

theorem sign_eq_zero {o : Ordering} : sign o = 0 ↔ o = .eq := by cases o <;> decide

theorem sign_nonneg {o : Ordering} : 0 ≤ sign o ↔ o.isGE := by cases o <;> decide

theorem sign_compare (x y : Int) : sign (compare x y) = (x - y).sign := by
  rcases lt_trichotomy x y with h | rfl | h
  · rw [compare_lt_iff_lt.mpr h, Int.sign_eq_neg_one_of_neg (by omega)]
    rfl
  · rw [compare_eq_iff_eq.mpr rfl, Int.sub_self]
    rfl
  · rw [compare_gt_iff_gt.mpr h, Int.sign_eq_one_of_pos (by omega)]
    rfl

/-- The sign of the difference of the lengths, if they differ. -/
theorem sign_shortlex_length {α : Type*} [Ord α] {as bs : List α} (hl : as.length ≠ bs.length) :
    sign (shortlex as bs) = ((as.length : Int) - bs.length).sign := by
  rcases Nat.lt_or_gt_of_ne hl with h | h
  · rw [shortlex_of_length_lt h, Int.sign_eq_neg_one_of_neg (by omega)]
    rfl
  · rw [shortlex_of_length_gt h, Int.sign_eq_one_of_pos (by omega)]
    rfl

end SideWork
