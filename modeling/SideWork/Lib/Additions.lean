import Mathlib.Tactic

/-!
# Additions to a shared number

Several parties add to one number, each with a read and a write of its own, so that other writes may come in between. An
addition is told by how many writes its read had seen. The number is never more than the total (`Sums.le`), and it is
the total exactly when each addition read what the one before it wrote (`Sums.exact`): once it is short, it stays short.
-/

namespace SideWork

/-- An addition that has been written: how many writes its read had seen, and its amount. -/
structure Addition where
  seen : Nat
  amount : Nat
  deriving DecidableEq, Repr

variable {as : List Addition} {x y seen amount : Nat}

/-- What should have come together. -/
def added (as : List Addition) : Nat := (as.map Addition.amount).sum

/-- Each addition has read what the one before it wrote. -/
def Successive (as : List Addition) : Prop := ∀ (i : Nat) (a : Addition), as[i]? = some a → a.seen = i

/-- What the additions make of the number. -/
structure Sums (as : List Addition) (x : Nat) : Prop where
  pos : ∀ a ∈ as, 0 < a.amount
  le : x ≤ added as
  exact : x = added as ↔ Successive as

theorem added_append (as bs : List Addition) : added (as ++ bs) = added as + added bs := by
  rw [added, List.map_append, List.sum_append]
  rfl

theorem added_take_le (as : List Addition) (n : Nat) : added (as.take n) ≤ added as := by
  conv_rhs => rw [← List.take_append_drop n as, added_append]
  exact Nat.le_add_right _ _

/-- Of positive amounts, the first `n` are less than all. -/
theorem added_take_lt (hpos : ∀ a ∈ as, 0 < a.amount) {n : Nat} (hn : n < as.length) :
    added (as.take n) < added as := by
  have hdrop : as.drop n = as[n] :: as.drop (n + 1) := List.drop_eq_getElem_cons hn
  have hone := hpos as[n] (List.getElem_mem hn)
  have hrest : added (as.drop n) = as[n].amount + added (as.drop (n + 1)) := by
    rw [hdrop]
    rfl
  conv_rhs => rw [← List.take_append_drop n as, added_append]
  omega

theorem successive_snoc (as : List Addition) (a : Addition) :
    Successive (as ++ [a]) ↔ Successive as ∧ a.seen = as.length := by
  constructor
  · refine fun h => ⟨fun i b hb => h i b ?_, h as.length a ?_⟩
    · rw [List.getElem?_append_left (List.getElem?_eq_some_iff.mp hb).1, hb]
    · rw [List.getElem?_append_right le_rfl, Nat.sub_self]
      rfl
  · rintro ⟨h, hlast⟩ i b hb
    by_cases hi : i < as.length
    · rw [List.getElem?_append_left hi] at hb
      exact h i b hb
    · rw [List.getElem?_append_right (not_lt.mp hi)] at hb
      obtain ⟨hlt, rfl⟩ := List.getElem?_eq_some_iff.mp hb
      have hi' : i = as.length := by
        rw [List.length_singleton] at hlt
        omega
      simpa [hi'] using hlast

theorem Successive.initial {bs : List Addition} (h : Successive bs) (hpre : as <+: bs) : Successive as := by
  obtain ⟨cs, rfl⟩ := hpre
  refine fun i a hi => h i a ?_
  rw [List.getElem?_append_left (List.getElem?_eq_some_iff.mp hi).1, hi]

theorem sums_nil : Sums [] 0 where
  pos := by simp
  le := le_rfl
  exact := iff_of_true rfl fun i a h => by cases h

/-- A party writes what it has read, with its amount. -/
theorem Sums.write (h : Sums as x) (hseen : seen ≤ as.length) (hy : Sums (as.take seen) y) (hpos : 0 < amount) :
    Sums (as ++ [⟨seen, amount⟩]) (y + amount) := by
  have hread := added_take_le as seen
  have htotal : added (as ++ [⟨seen, amount⟩]) = added as + amount := added_append _ _
  refine ⟨?_, ?_, ?_⟩
  · simpa [or_imp, forall_and, hpos] using h.pos
  · rw [htotal]
    exact Nat.add_le_add_right (hy.le.trans hread) amount
  · rw [htotal, Nat.add_right_cancel_iff, successive_snoc]
    constructor
    · intro hall
      have hlast : seen = as.length := by
        by_contra hne
        have hlt := added_take_lt h.pos (lt_of_le_of_ne hseen hne)
        have hle := hy.le
        omega
      rw [hlast, List.take_length] at hy
      exact ⟨hy.exact.mp hall, hlast⟩
    · rintro ⟨hsuc, hlast⟩
      have hlast : seen = as.length := hlast
      rw [hlast, List.take_length] at hy
      exact hy.exact.mpr hsuc

/-- What a party has read stays what it had seen. -/
theorem Sums.read (h : Sums as x) : Sums (as.take as.length) x := by rwa [List.take_length]

theorem Sums.grow (hy : Sums (as.take seen) y) (hseen : seen ≤ as.length) (bs : List Addition) :
    Sums ((as ++ bs).take seen) y := by rwa [List.take_append_of_le_length hseen]

end SideWork
