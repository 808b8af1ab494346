import Mathlib.Data.Fintype.Pigeonhole
import Mathlib.Data.Finset.Card
import Mathlib.Data.Set.Card
import Mathlib.Tactic

/-!
# Walks in a graph of out-degree at most one

`next i` is the successor of a node, or nothing; `walk next p n` is where `n` steps from `p` lead. A walk inside a
finite set either leaves the graph or visits a node twice (`ends_or_revisits`), and not both
(`not_ends_of_revisits`). On a walk that visits a node twice, a pointer at step `k` and a pointer at step `2 * k` meet
for some positive `k` (`exists_meet`); on a walk that leaves the graph they never do. The nodes of the cycle that a walk
enters are `cycle next p`; from any of them, the first return takes as many steps as the cycle has nodes
(`ncard_cycle`).
-/

namespace SideWork

section Walk

variable {ι : Type} {next : ι → Option ι} {p : Option ι}

/-- The node after `n` steps. -/
def walk (next : ι → Option ι) (p : Option ι) : Nat → Option ι
  | 0 => p
  | n + 1 => (walk next p n).bind next

/-- The walk leaves the graph. -/
def WalkEnds (next : ι → Option ι) (p : Option ι) : Prop := ∃ n, walk next p n = none

/-- The walk visits a node twice. -/
def Revisits (next : ι → Option ι) (p : Option ι) : Prop :=
  ∃ a b i, a < b ∧ walk next p a = some i ∧ walk next p b = some i

@[simp] theorem walk_zero : walk next p 0 = p := rfl

theorem walk_succ (n : Nat) : walk next p (n + 1) = (walk next p n).bind next := rfl

theorem walk_add (m n : Nat) : walk next p (m + n) = walk next (walk next p m) n := by
  induction n with
  | zero => rfl
  | succ n ih => rw [← Nat.add_assoc, walk_succ, walk_succ, ih]

theorem walk_none_mono {m n : Nat} (h : walk next p m = none) (hmn : m ≤ n) : walk next p n = none := by
  induction n, hmn using Nat.le_induction with
  | base => exact h
  | succ n _ ih => rw [walk_succ, ih]; rfl

/-- Equal nodes have equal futures. -/
theorem walk_add_eq {a b : Nat} (h : walk next p a = walk next p b) (n : Nat) :
    walk next p (a + n) = walk next p (b + n) := by
  rw [walk_add, walk_add, h]

/-- A walk that is periodic from step `a` on, by whole periods. -/
theorem walk_periods {a l : Nat} (h : walk next p a = walk next p (a + l)) {m : Nat} (hm : a ≤ m) (t : Nat) :
    walk next p m = walk next p (m + l * t) := by
  induction t with
  | zero => simp
  | succ t ih =>
    obtain ⟨d, rfl⟩ := Nat.exists_eq_add_of_le hm
    have hstep := walk_add_eq h (d + l * t)
    rw [ih, show a + d + l * t = a + (d + l * t) by omega, hstep]
    congr 1
    ring

theorem not_ends_of_revisits (h : Revisits next p) : ¬ WalkEnds next p := by
  obtain ⟨a, b, i, hab, ha, hb⟩ := h
  rintro ⟨n, hn⟩
  obtain ⟨l, rfl⟩ := Nat.exists_eq_add_of_lt hab
  have hper : walk next p a = walk next p (a + (l + 1)) := by rw [ha, ← hb, Nat.add_assoc]
  have hlate := walk_periods hper (le_refl a) n
  have hle : n ≤ a + (l + 1) * n := by nlinarith
  rw [ha, walk_none_mono hn hle] at hlate
  cases hlate

/-- A walk inside a finite set leaves the graph or visits a node twice. -/
theorem ends_or_revisits (S : Finset ι) (hS : ∀ n i, walk next p n = some i → i ∈ S) :
    WalkEnds next p ∨ Revisits next p := by
  by_cases he : WalkEnds next p
  · exact Or.inl he
  · right
    have hsome : ∀ n, ∃ i, walk next p n = some i := fun n =>
      Option.ne_none_iff_exists'.mp fun hn => he ⟨n, hn⟩
    choose f hf using hsome
    obtain ⟨a, b, hne, hab⟩ := Finite.exists_ne_map_eq_of_infinite fun n => (⟨f n, hS n _ (hf n)⟩ : S)
    have hfab : f a = f b := congrArg Subtype.val hab
    rcases Nat.lt_or_gt_of_ne hne with h | h
    · exact ⟨a, b, f a, h, hf a, by rw [hfab]; exact hf b⟩
    · exact ⟨b, a, f b, h, hf b, by rw [← hfab]; exact hf a⟩

/-- On a walk that visits a node twice, the pointers at steps `k` and `2 * k` meet. -/
theorem exists_meet (h : Revisits next p) : ∃ k, 0 < k ∧ walk next p k = walk next p (2 * k) := by
  obtain ⟨a, b, i, hab, ha, hb⟩ := h
  obtain ⟨l, rfl⟩ := Nat.exists_eq_add_of_lt hab
  have hper : walk next p a = walk next p (a + (l + 1)) := by rw [ha, ← hb, Nat.add_assoc]
  -- a positive multiple of the period that is past the tail
  refine ⟨(l + 1) * (a + 1), by positivity, ?_⟩
  have hle : a ≤ (l + 1) * (a + 1) := by nlinarith
  rw [walk_periods hper hle (a + 1)]
  congr 1
  ring

/-- On a walk that leaves the graph, no two steps visit the same node. -/
theorem walk_ne_of_ends (h : WalkEnds next p) {a b : Nat} (hab : a < b) (ha : walk next p a ≠ none) :
    walk next p a ≠ walk next p b := by
  intro he
  obtain ⟨i, hi⟩ := Option.ne_none_iff_exists'.mp ha
  exact not_ends_of_revisits ⟨a, b, i, hab, hi, he ▸ hi⟩ h

/-! ## The cycle -/

/-- The nodes of the walk that lead back to themselves. -/
def cycle (next : ι → Option ι) (p : Option ι) : Set ι :=
  {i | (∃ n, walk next p n = some i) ∧ ∃ k, 0 < k ∧ walk next (some i) k = some i}

/-- A node where steps `k` and `2 * k` meet is on the cycle. -/
theorem mem_cycle_of_meet {i : ι} {k : Nat} (hk : 0 < k) (hi : walk next p k = some i)
    (hm : walk next p k = walk next p (2 * k)) : i ∈ cycle next p := by
  refine ⟨⟨k, hi⟩, k, hk, ?_⟩
  rw [← hi, ← walk_add, ← Nat.two_mul, ← hm]

/-- On the cycle, the step number counts modulo the period. -/
theorem walk_mod {i : ι} {l : Nat} (h : walk next (some i) l = some i) (n : Nat) :
    walk next (some i) n = walk next (some i) (n % l) := by
  have hper : walk next (some i) 0 = walk next (some i) (0 + l) := by rw [Nat.zero_add, h, walk_zero]
  have hw := walk_periods hper (Nat.zero_le (n % l)) (n / l)
  rw [Nat.mod_add_div] at hw
  exact hw.symm

section FirstReturn

variable {i : ι} {l : Nat} (hl : walk next (some i) l = some i)
  (hmin : ∀ m, 0 < m → m < l → walk next (some i) m ≠ some i)
include hl

theorem walk_cycle_ne_none {m : Nat} (hpos : 0 < l) : walk next (some i) m ≠ none := by
  intro hn
  rw [walk_mod hl] at hn
  rw [walk_none_mono hn (Nat.mod_lt m hpos).le] at hl
  cases hl

include hmin

/-- Before the first return no node is met twice. -/
theorem walk_injOn_first_return {a b : Nat} (hab : a < b) (hb : b < l) :
    walk next (some i) a ≠ walk next (some i) b := by
  intro he
  have hlate := walk_add_eq he (l - b)
  rw [Nat.add_sub_cancel' hb.le, hl] at hlate
  exact hmin (a + (l - b)) (by omega) (by omega) hlate

/-- **The first return takes as many steps as the cycle has nodes.** -/
theorem ncard_cycle (hi : i ∈ cycle next p) (hpos : 0 < l) : (cycle next p).ncard = l := by
  obtain ⟨⟨a, ha⟩, -⟩ := hi
  have hsome : ∀ m, ∃ x, walk next (some i) m = some x := fun m =>
    Option.ne_none_iff_exists'.mp (walk_cycle_ne_none hl hpos)
  choose f hf using hsome
  refine Set.ncard_eq_of_bijective (fun m _ => f m) ?_ ?_ ?_
  · -- a node of the cycle comes round again after step `a`, where the walk is on the cycle of `i`
    rintro x ⟨⟨n, hn⟩, k, hk, hx⟩
    have hlate : walk next (some i) (n + k * a - a) = some x := by
      have hle : a ≤ n + k * a := le_trans (Nat.le_mul_of_pos_left a hk) (Nat.le_add_left _ _)
      rw [← ha, ← walk_add, Nat.add_sub_cancel' hle, walk_add, hn, walk_mod hx, Nat.mul_mod_right, walk_zero]
    refine ⟨(n + k * a - a) % l, Nat.mod_lt _ hpos, ?_⟩
    apply Option.some.inj
    rw [← hf, ← walk_mod hl, hlate]
  · intro m _
    refine ⟨⟨a + m, by rw [walk_add, ha, hf]⟩, l, hpos, ?_⟩
    rw [← hf m, ← walk_add, Nat.add_comm, walk_add, hl]
  · intro m m' hm hm' he
    by_contra hne
    rcases Nat.lt_or_gt_of_ne hne with h | h
    · exact walk_injOn_first_return hl hmin h hm' (by rw [hf, hf, he])
    · exact walk_injOn_first_return hl hmin h hm (by rw [hf, hf, he])

end FirstReturn

end Walk

end SideWork
