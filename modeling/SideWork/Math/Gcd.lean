import SideWork.Lib.Loop

/-!
# `gcd` by subtraction

`while (i != j)` takes the smaller of the two numbers from the larger one. On positive numbers a turn keeps both positive
and lowers their sum (`gcdTurn_pos`). When one of two different numbers is not positive, one of two different numbers is
not positive after the turn either (`gcdTurn_nonpos`), and the loop never leaves.

The numbers are exact integers. On positive numbers a turn raises neither of them, so that there `int` would do.
-/

namespace SideWork.Math

/-- One turn of `while (i != j)`. -/
def gcdTurn : Int × Int → Except Stop (Int × Int ⊕ Int)
  | (i, j) =>
    if i ≠ j then
      if i > j then .ok (.inl (i - j, j)) else .ok (.inl (i, j - i))
    else .ok (.inr i)

/-- `gcd`. -/
def gcd (fuel : Nat) (i j : Int) : Except Stop Int := loop gcdTurn fuel (i, j)

variable {i j : Int}

theorem gcdTurn_eq (h : i = j) : gcdTurn (i, j) = .ok (.inr i) := by
  simp [gcdTurn, h]

/-- The two turns that go round. -/
theorem gcdTurn_cases (h : i ≠ j) : (j < i ∧ gcdTurn (i, j) = .ok (.inl (i - j, j))) ∨
    (i < j ∧ gcdTurn (i, j) = .ok (.inl (i, j - i))) := by
  rcases lt_or_gt_of_ne h with hlt | hgt
  · have hn : ¬ i > j := by omega
    exact .inr ⟨hlt, by simp [gcdTurn, h, hn]⟩
  · exact .inl ⟨hgt, by simp [gcdTurn, h, hgt]⟩

/-- A turn on positive numbers. -/
theorem gcdTurn_pos (hi : 0 < i) (hj : 0 < j) (h : i ≠ j) : ∃ i' j', gcdTurn (i, j) = .ok (.inl (i', j')) ∧
    (0 < i' ∧ i' ≤ i) ∧ (0 < j' ∧ j' ≤ j) ∧ i' + j' < i + j ∧ Int.gcd i' j' = Int.gcd i j := by
  obtain ⟨hlt, ht⟩ | ⟨hlt, ht⟩ := gcdTurn_cases h
  · exact ⟨i - j, j, ht, ⟨by omega, by omega⟩, ⟨hj, le_rfl⟩, by omega, by simp⟩
  · exact ⟨i, j - i, ht, ⟨hi, le_rfl⟩, ⟨by omega, by omega⟩, by omega, by simp⟩

/-- A turn on two different numbers that are not both positive. -/
theorem gcdTurn_nonpos (h : i ≠ j) (hle : i ≤ 0 ∨ j ≤ 0) :
    ∃ i' j', gcdTurn (i, j) = .ok (.inl (i', j')) ∧ i' ≠ j' ∧ (i' ≤ 0 ∨ j' ≤ 0) := by
  obtain ⟨hlt, ht⟩ | ⟨hlt, ht⟩ := gcdTurn_cases h
  · exact ⟨i - j, j, ht, by omega, by omega⟩
  · exact ⟨i, j - i, ht, by omega, by omega⟩

/-- On positive numbers the loop leaves with their greatest common divisor. The sum of the two numbers is the measure. -/
theorem gcd_of_pos (hi : 0 < i) (hj : 0 < j) : Ends (gcd · i j) (.ok (Int.gcd i j)) := by
  have hstep : ∀ s : Int × Int, 0 < s.1 ∧ 0 < s.2 ∧ Int.gcd s.1 s.2 = Int.gcd i j →
      (∃ s', gcdTurn s = .ok (.inl s') ∧ (0 < s'.1 ∧ 0 < s'.2 ∧ Int.gcd s'.1 s'.2 = Int.gcd i j) ∧
        (s'.1 + s'.2).toNat < (s.1 + s.2).toNat) ∨ ∃ r, gcdTurn s = .ok (.inr r) ∧ r = Int.gcd i j := by
    rintro ⟨x, y⟩ ⟨hx, hy, hg⟩
    by_cases h : x = y
    · refine .inr ⟨x, gcdTurn_eq h, ?_⟩
      rw [← hg, ← h, Int.gcd_self]
      omega
    · obtain ⟨x', y', ht, hx', hy', hlt, hg'⟩ := gcdTurn_pos hx hy h
      exact .inl ⟨(x', y'), ht, ⟨hx'.1, hy'.1, hg'.trans hg⟩, by simp only; omega⟩
  obtain ⟨r, rfl, hrun⟩ := loop_of_measure _ (fun s : Int × Int => (s.1 + s.2).toNat) (· = (Int.gcd i j : Int)) hstep
    (s := (i, j)) ⟨hi, hj, rfl⟩
  exact ends_of_lt _ hrun

/-- On two different numbers that are not both positive the loop goes round for ever. -/
theorem gcd_diverges (h : i ≠ j) (hle : i ≤ 0 ∨ j ≤ 0) : Diverges gcdTurn (i, j) := by
  refine diverges_of_inv (fun s => s.1 ≠ s.2 ∧ (s.1 ≤ 0 ∨ s.2 ≤ 0)) (fun s hs => ?_) ⟨h, hle⟩
  obtain ⟨i', j', ht, hne, hle'⟩ := gcdTurn_nonpos hs.1 hs.2
  exact ⟨(i', j'), ht, hne, hle'⟩

/-- **`gcd`** ends exactly on equal numbers and on positive ones, and on these its result is their greatest common divisor. -/
theorem gcd_ends_iff (i j : Int) : ((∃ r, Ends (gcd · i j) (.ok r)) ↔ i = j ∨ 0 < i ∧ 0 < j) ∧
    (¬ (i = j ∨ 0 < i ∧ 0 < j) → ∀ fuel, gcd fuel i j = .error .outOfFuel) ∧
    (0 < i ∧ 0 < j → Ends (gcd · i j) (.ok (Int.gcd i j))) := by
  have hdiv : ¬ (i = j ∨ 0 < i ∧ 0 < j) → ∀ fuel, gcd fuel i j = .error .outOfFuel := by
    intro h
    exact gcd_diverges (fun he => h (.inl he)) (by omega)
  refine ⟨⟨fun ⟨r, hr⟩ => ?_, fun h => ?_⟩, hdiv, fun h => gcd_of_pos h.1 h.2⟩
  · by_contra h
    obtain ⟨n, hn⟩ := hr
    have hok : gcd n i j = .ok r := hn n le_rfl
    rw [hdiv h n] at hok
    cases hok
  · rcases h with h | h
    · exact ⟨i, ends_of_lt 0 fun fuel hf => loop_done_of_lt (gcdTurn_eq h) hf⟩
    · exact ⟨_, gcd_of_pos h.1 h.2⟩

/-- The call of `main`. -/
theorem gcd_ten_thirteen : Ends (gcd · 10 13) (.ok 1) ∧ ∀ fuel, gcd fuel 0 5 = .error .outOfFuel :=
  ⟨(gcd_ends_iff 10 13).2.2 ⟨by omega, by omega⟩, (gcd_ends_iff 0 5).2.1 (by omega)⟩

end SideWork.Math
