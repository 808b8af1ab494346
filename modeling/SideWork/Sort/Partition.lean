import SideWork.Lib.CArray
import SideWork.Sort.Segment

/-!
# `partition` of `quick_sort`

`partition` takes the first element of its segment as pivot and moves two indices towards each other. Neither inner scan
tests its index against the segment: the scan to the right stops only at an element greater than the pivot, wherever in
the array it lies.

- `partition_spec`: with an element greater than the pivot behind it, `partition` puts the pivot between the elements
  that are at most the pivot and those that are greater, and the greater ones end up in the order `upper`;
- `partition_outOfBounds`: without one, the scan to the right leaves the array;
- `partition_contract`: both, for a segment given by its indices.
-/

namespace SideWork.Sort

/-- `while (arr[i] <= pivot) i++;` -/
def scanRight (arr : List Int) (pivot i : Int) : Except Stop (Int ⊕ Int) := do
  let x ← get arr i
  if x ≤ pivot then return .inl (i + 1) else return .inr i

/-- `while (arr[j] > pivot) j--;` -/
def scanLeft (arr : List Int) (pivot j : Int) : Except Stop (Int ⊕ Int) := do
  let x ← get arr j
  if x > pivot then return .inl (j - 1) else return .inr j

/-- One turn of `while (i < j)`. -/
def partitionTurn (fuel : Nat) (pivot : Int) :
    List Int × Int × Int → Except Stop (List Int × Int × Int ⊕ List Int × Int)
  | (arr, i, j) =>
    if i < j then do
      let i ← loop (scanRight arr pivot) fuel i
      let j ← loop (scanLeft arr pivot) fuel j
      if i < j then
        let arr ← swap arr i j
        return .inl (arr, i, j)
      else return .inl (arr, i, j)
    else return .inr (arr, j)

/-- `partition`: the rearranged array and the new index of the pivot. -/
def partition (fuel : Nat) (arr : List Int) (left right : Int) : Except Stop (List Int × Int) := do
  let pivot ← get arr left
  let (arr, j) ← loop (partitionTurn fuel pivot) fuel (arr, left, right)
  let arr ← swap arr j left
  return (arr, j)

/-! ## Where `partition` leaves the greater elements -/

/-- `xs` with its elements that are at most `p` replaced, from the left, by `bs`. -/
def refill (p : Int) : List Int → List Int → List Int
  | [], _ => []
  | x :: xs, bs =>
    if p < x then x :: refill p xs bs
    else match bs with
      | [] => x :: refill p xs []
      | b :: bs => b :: refill p xs bs

/-- The elements of `xs` greater than `p`: those in the last places stay, the others fill the gaps between them, the
rightmost one the leftmost gap. -/
def upper (p : Int) (xs : List Int) : List Int :=
  refill p (xs.drop (xs.countP (· ≤ p))) ((xs.take (xs.countP (· ≤ p))).filter (p < ·)).reverse

variable {p : Int}

theorem refill_of_lt {xs : List Int} (h : ∀ x ∈ xs, p < x) (bs : List Int) : refill p xs bs = xs := by
  induction xs with
  | nil => rfl
  | cons x xs ih =>
    unfold refill
    rw [if_pos (h x (by simp)), ih (fun y hy => h y (by simp [hy]))]

theorem refill_append {xs bs : List Int} (h : xs.countP (· ≤ p) = bs.length) (ys cs : List Int) :
    refill p (xs ++ ys) (bs ++ cs) = refill p xs bs ++ refill p ys cs := by
  induction xs generalizing bs with
  | nil =>
    obtain rfl : bs = [] := List.length_eq_zero_iff.mp (by simpa using h.symm)
    rfl
  | cons x xs ih =>
    by_cases hx : p < x
    · have hc : xs.countP (· ≤ p) = bs.length := by
        rw [List.countP_cons_of_neg (by simpa using hx)] at h
        exact h
      simp only [List.cons_append, refill, if_pos hx, ih hc]
    · cases bs with
      | nil =>
        rw [List.countP_cons_of_pos (by simpa using hx)] at h
        simp at h
      | cons b bs =>
        have hc : xs.countP (· ≤ p) = bs.length := by
          rw [List.countP_cons_of_pos (by simpa using hx), List.length_cons] at h
          omega
        simp only [List.cons_append, refill, if_neg hx, ih hc]

/-- As many gaps as elements to fill them. -/
theorem count_gaps (p : Int) (xs : List Int) : (xs.drop (xs.countP (· ≤ p))).countP (· ≤ p) =
    ((xs.take (xs.countP (· ≤ p))).filter (p < ·)).reverse.length := by
  have hsum : (xs.take (xs.countP (· ≤ p))).countP (· ≤ p) + (xs.drop (xs.countP (· ≤ p))).countP (· ≤ p) =
      xs.countP (· ≤ p) := by
    rw [← List.countP_append, List.take_append_drop]
  have hlen := List.length_eq_countP_add_countP (fun x => decide (x ≤ p)) (l := xs.take (xs.countP (· ≤ p)))
  rw [List.length_take, Nat.min_eq_left List.countP_le_length] at hlen
  rw [List.length_reverse, ← List.countP_eq_length_filter]
  have heq : (xs.take (xs.countP (· ≤ p))).countP (fun x => decide ¬(decide (x ≤ p)) = true) =
      (xs.take (xs.countP (· ≤ p))).countP (p < ·) := by
    refine List.countP_congr fun x _ => ?_
    simp
  omega

theorem count_le_zero {bs : List Int} (h : ∀ b ∈ bs, p < b) : bs.countP (· ≤ p) = 0 :=
  List.countP_eq_zero.mpr fun b hb => by simpa using h b hb

theorem count_le_length {ss : List Int} (h : ∀ s ∈ ss, s ≤ p) : ss.countP (· ≤ p) = ss.length :=
  List.countP_eq_length.mpr fun s hs => by simpa using h s hs

/-- Greater elements at the end stay. -/
theorem upper_append {bs : List Int} (h : ∀ b ∈ bs, p < b) (xs : List Int) : upper p (xs ++ bs) = upper p xs ++ bs := by
  have hle : xs.countP (· ≤ p) ≤ xs.length := List.countP_le_length
  have hc : (xs ++ bs).countP (· ≤ p) = xs.countP (· ≤ p) := by
    rw [List.countP_append, count_le_zero h, Nat.add_zero]
  have hr := refill_append (count_gaps p xs) bs []
  rw [List.append_nil, refill_of_lt h] at hr
  rw [upper, hc, List.drop_append_of_le_length hle, List.take_append_of_le_length hle, hr]
  rfl

theorem filter_lt_eq_nil {ss : List Int} (hs : ∀ s ∈ ss, s ≤ p) : ss.filter (p < ·) = [] :=
  List.filter_eq_nil_iff.mpr fun s hm => by simpa using hs s hm

theorem upper_of_le {ss : List Int} (hs : ∀ s ∈ ss, s ≤ p) : upper p ss = [] := by
  rw [upper, count_le_length hs, List.drop_length, List.take_length, filter_lt_eq_nil hs]
  rfl

/-- Elements already in order. -/
theorem upper_ordered {ss bs : List Int} (hs : ∀ s ∈ ss, s ≤ p) (hb : ∀ b ∈ bs, p < b) : upper p (ss ++ bs) = bs := by
  rw [upper_append hb, upper_of_le hs, List.nil_append]

/-- One exchange: the first greater element `b` takes the place of the last smaller one `s`. -/
theorem upper_exchange {ss bs : List Int} {b s : Int} (hs : ∀ x ∈ ss, x ≤ p) (hb : p < b) (hsp : s ≤ p)
    (hbs : ∀ x ∈ bs, p < x) (xs : List Int) : upper p (ss ++ b :: xs ++ s :: bs) = upper p xs ++ b :: bs := by
  have hle : xs.countP (· ≤ p) ≤ xs.length := List.countP_le_length
  have hc : (ss ++ b :: xs ++ s :: bs).countP (· ≤ p) = ss.length + 1 + xs.countP (· ≤ p) := by
    rw [List.countP_append, List.countP_append, count_le_length hs, List.countP_cons_of_neg (by simpa using hb),
      List.countP_cons_of_pos (by simpa using hsp), count_le_zero hbs]
    omega
  have hdrop : (ss ++ b :: xs ++ s :: bs).drop (ss.length + 1 + xs.countP (· ≤ p)) =
      xs.drop (xs.countP (· ≤ p)) ++ s :: bs := by
    rw [show ss ++ b :: xs ++ s :: bs = (ss ++ [b]) ++ (xs ++ s :: bs) by simp,
      show ss.length + 1 + xs.countP (· ≤ p) = (ss ++ [b]).length + xs.countP (· ≤ p) by simp,
      List.drop_length_add_append, List.drop_append_of_le_length hle]
  have htake : (ss ++ b :: xs ++ s :: bs).take (ss.length + 1 + xs.countP (· ≤ p)) =
      ss ++ b :: xs.take (xs.countP (· ≤ p)) := by
    rw [show ss ++ b :: xs ++ s :: bs = (ss ++ [b]) ++ (xs ++ s :: bs) by simp,
      show ss.length + 1 + xs.countP (· ≤ p) = (ss ++ [b]).length + xs.countP (· ≤ p) by simp,
      List.take_length_add_append, List.take_append_of_le_length hle]
    simp
  have hfill : ((ss ++ b :: xs.take (xs.countP (· ≤ p))).filter (p < ·)).reverse =
      ((xs.take (xs.countP (· ≤ p))).filter (p < ·)).reverse ++ [b] := by
    rw [List.filter_append, filter_lt_eq_nil hs, List.nil_append, List.filter_cons_of_pos (by simpa using hb),
      List.reverse_cons]
  have hlast : refill p (s :: bs) [b] = b :: bs := by
    rw [refill, if_neg (by omega)]
    simp only [refill_of_lt hbs]
  rw [upper, hc, hdrop, htake, hfill, refill_append (count_gaps p xs), hlast]
  rfl

/-! ## The scans -/

/-- The scan to the right stops at the first greater element. -/
theorem loop_scanRight {ss : List Int} (hs : ∀ x ∈ ss, x ≤ p) {b : Int} (hb : p < b) (as ts : List Int)
    {arr : List Int} {i k : Int} (harr : arr = as ++ (ss ++ b :: ts)) (hi : i = as.length)
    (hk : k = as.length + ss.length) : ∀ fuel, ss.length < fuel → loop (scanRight arr p) fuel i = .ok k := by
  induction ss generalizing as i with
  | nil =>
    intro fuel hf
    obtain rfl : i = k := by simp [hi, hk]
    refine loop_done_of_lt ?_ hf
    have hnb : ¬ b ≤ p := by omega
    simp [scanRight, harr, get_mid as b ts hi, hnb]
  | cons s ss ih =>
    have hsp : s ≤ p := hs s (by simp)
    have hturn : scanRight arr p i = .ok (.inl (i + 1)) := by
      simp [scanRight, harr, get_mid as s (ss ++ b :: ts) hi, hsp]
    have hk' : k = (as ++ [s]).length + ss.length := by
      rw [hk, List.length_cons, List.length_append, List.length_singleton]
      push_cast
      ring
    exact loop_again_of_lt hturn
      (ih (fun x hx => hs x (by simp [hx])) (as ++ [s]) (by simpa using harr) (by simp [hi]) hk')

/-- The scan to the right leaves an array without a greater element. -/
theorem loop_scanRight_end {ss : List Int} (hs : ∀ x ∈ ss, x ≤ p) (as : List Int) {arr : List Int} {i : Int}
    (harr : arr = as ++ ss) (hi : i = as.length) :
    ∀ fuel, ss.length < fuel → loop (scanRight arr p) fuel i = .error .outOfBounds := by
  induction ss generalizing as i with
  | nil =>
    intro fuel hf
    refine loop_stop_of_lt ?_ hf
    rw [harr, List.append_nil, scanRight, get_end as hi]
    rfl
  | cons s ss ih =>
    have hsp : s ≤ p := hs s (by simp)
    have hturn : scanRight arr p i = .ok (.inl (i + 1)) := by
      simp [scanRight, harr, get_mid as s ss hi, hsp]
    exact loop_again_of_lt hturn
      (ih (fun x hx => hs x (by simp [hx])) (as ++ [s]) (by simpa using harr) (by simp [hi]))

/-- The scan to the left stops at the last element that is not greater. -/
theorem loop_scanLeft {bs : List Int} (hb : ∀ x ∈ bs, p < x) {s : Int} (hs : s ≤ p) (as ts : List Int)
    {arr : List Int} {j k : Int} (harr : arr = as ++ s :: (bs ++ ts)) (hj : j = as.length + bs.length)
    (hk : k = as.length) : ∀ fuel, bs.length < fuel → loop (scanLeft arr p) fuel j = .ok k := by
  induction bs using List.reverseRecOn generalizing ts j with
  | nil =>
    intro fuel hf
    obtain rfl : j = k := by simp [hj, hk]
    refine loop_done_of_lt ?_ hf
    have hns : ¬ p < s := by omega
    simp [scanLeft, harr, get_mid as s ts hk, hns]
  | append_singleton bs b ih =>
    have hbp : p < b := hb b (by simp)
    have hget : get arr j = .ok b := by
      rw [harr, show as ++ s :: (bs ++ [b] ++ ts) = (as ++ s :: bs) ++ b :: ts by simp]
      exact get_mid _ b ts (by simpa using hj)
    have hturn : scanLeft arr p j = .ok (.inl (j - 1)) := by
      rw [scanLeft, hget, ok_bind, if_pos hbp]
      rfl
    have hj' : j - 1 = as.length + bs.length := by
      rw [hj, List.length_append, List.length_singleton]
      push_cast
      ring
    intro fuel hf
    exact loop_again_of_lt hturn
      (ih (fun x hx => hb x (by simp [hx])) (b :: ts) (by simpa using harr) hj') fuel (by simpa using hf)

/-! ## `partition` -/

theorem first_greater (p : Int) (xs : List Int) : (∀ x ∈ xs, x ≤ p) ∨
    ∃ ss b ts, xs = ss ++ b :: ts ∧ (∀ x ∈ ss, x ≤ p) ∧ p < b := by
  simpa using exists_first (fun x => decide (p < x)) xs

theorem last_le (p : Int) (xs : List Int) : (∀ x ∈ xs, p < x) ∨
    ∃ ms s bs, xs = ms ++ s :: bs ∧ s ≤ p ∧ ∀ x ∈ bs, p < x := by
  simpa using exists_last (fun x => decide (x ≤ p)) xs

/-- When the scans have crossed, the loop leaves with the index of the left scan. -/
theorem loop_partition_exit {arr : List Int} {f : Nat} {i j i' j' : Int} (hij : i < j)
    (hi : loop (scanRight arr p) f i = .ok i') (hj : loop (scanLeft arr p) f j = .ok j') (hx : ¬ i' < j') :
    ∀ fuel, 1 < fuel → loop (partitionTurn f p) fuel (arr, i, j) = .ok (arr, j') := by
  have hturn : partitionTurn f p (arr, i, j) = .ok (.inl (arr, i', j')) := by
    simp [partitionTurn, hij, hi, hj, hx]
  exact loop_again_of_lt hturn fun fuel hf => loop_done_of_lt (by simp [partitionTurn, hx]) hf

/-- What `partition`'s loop leaves of the elements `ms` between its indices: some order of those that are at most the
pivot, then the greater ones. -/
structure Parted (p : Int) (ms ls : List Int) : Prop where
  lower : ∀ x ∈ ls, x ≤ p
  greater : ∀ x ∈ upper p ms, p < x
  perm : (ls ++ upper p ms).Perm ms

theorem parted_ordered {ss bs : List Int} (hs : ∀ x ∈ ss, x ≤ p) (hb : ∀ x ∈ bs, p < x) : Parted p (ss ++ bs) ss := by
  refine ⟨hs, ?_, ?_⟩ <;> rw [upper_ordered hs hb]
  exact hb

theorem parted_of_le {ss : List Int} (hs : ∀ x ∈ ss, x ≤ p) : Parted p ss ss := by
  refine ⟨hs, ?_, ?_⟩ <;> rw [upper_of_le hs]
  · exact fun x hx => absurd hx List.not_mem_nil
  · rw [List.append_nil]

theorem parted_exchange {ss bs ms ls : List Int} {b s : Int} (hs : ∀ x ∈ ss, x ≤ p) (hb : p < b) (hsp : s ≤ p)
    (hbs : ∀ x ∈ bs, p < x) (h : Parted p (ms ++ [b]) ls) :
    Parted p (ss ++ b :: ms ++ s :: bs) (ss ++ s :: ls) ∧
      upper p (ss ++ b :: ms ++ s :: bs) = upper p (ms ++ [b]) ++ bs := by
  have hu : upper p (ss ++ b :: ms ++ s :: bs) = upper p (ms ++ [b]) ++ bs := by
    have hone : ∀ x ∈ [b], p < x := by simpa using hb
    rw [upper_exchange hs hb hsp hbs, upper_append hone, List.append_assoc]
    rfl
  refine ⟨⟨?_, ?_, ?_⟩, hu⟩
  · intro x hx
    simp only [List.mem_append, List.mem_cons] at hx
    rcases hx with hx | rfl | hx
    · exact hs x hx
    · exact hsp
    · exact h.lower x hx
  · rw [hu]
    intro x hx
    rcases List.mem_append.mp hx with hx | hx
    · exact h.greater x hx
    · exact hbs x hx
  · rw [hu]
    have hp : (ss ++ s :: ls ++ (upper p (ms ++ [b]) ++ bs)).Perm (ss ++ s :: (ms ++ [b]) ++ bs) := by
      simpa using ((h.perm.cons s).append_left ss).append_right bs
    apply hp.trans
    simp only [List.append_assoc, List.cons_append]
    apply List.Perm.append_left
    have h₁ : (s :: (ms ++ b :: bs)).Perm (s :: b :: (ms ++ bs)) := List.perm_middle.cons s
    exact h₁.trans ((List.Perm.swap b s _).trans ((List.perm_middle.symm).cons b))

/-- Nothing greater between the indices: the scan to the right runs past the right index. -/
theorem loop_partition_low {ms ss ts : List Int} {x b : Int} (hx : x ≤ p) (hms : ∀ y ∈ ms, y ≤ p) (hne : ms ≠ [])
    (hss : ∀ y ∈ ss, y ≤ p) (hb : p < b) (as : List Int) {f fuel : Nat}
    (hf : as.length + 1 + ms.length + (ss ++ b :: ts).length < f) (hfuel : 1 < fuel) :
    loop (partitionTurn f p) fuel (as ++ x :: (ms ++ (ss ++ b :: ts)), as.length, as.length + ms.length) =
      .ok (as ++ x :: (ms ++ (ss ++ b :: ts)), as.length + ms.length) := by
  obtain ⟨ms', m, rfl⟩ := (List.eq_nil_or_concat' ms).resolve_left hne
  have hle : ∀ y ∈ x :: (ms' ++ [m] ++ ss), y ≤ p := by
    intro y hy
    rw [List.mem_cons, List.mem_append] at hy
    rcases hy with rfl | hy | hy
    · exact hx
    · exact hms y hy
    · exact hss y hy
  have hnone : ∀ y ∈ ([] : List Int), p < y := fun y hy => absurd hy List.not_mem_nil
  simp only [List.length_append, List.length_cons, List.length_nil] at hf ⊢
  have hi : loop (scanRight (as ++ x :: (ms' ++ [m] ++ (ss ++ b :: ts))) p) f as.length =
      .ok (as.length + (x :: (ms' ++ [m] ++ ss)).length) :=
    loop_scanRight hle hb as ts (by simp) rfl rfl f (by simp; omega)
  have hj : loop (scanLeft (as ++ x :: (ms' ++ [m] ++ (ss ++ b :: ts))) p) f (as.length + (ms' ++ [m]).length) =
      .ok (as.length + (ms' ++ [m]).length) :=
    loop_scanLeft hnone (hms m (by simp)) (as ++ x :: ms') (ss ++ b :: ts) (by simp) (by simp) (by simp) f
      (by simp; omega)
  simp only [List.length_append, List.length_cons, List.length_nil] at hi hj
  exact loop_partition_exit (by push_cast; omega) hi hj (by push_cast; omega) fuel hfuel

/-- Only greater elements from `b` on: the scan to the left stops just in front of it. -/
theorem loop_partition_split {ss rs : List Int} {x b : Int} (hx : x ≤ p) (hss : ∀ y ∈ ss, y ≤ p) (hb : p < b)
    (hrs : ∀ y ∈ rs, p < y) (as ts : List Int) {f fuel : Nat}
    (hf : as.length + 1 + (ss ++ b :: rs).length + ts.length < f) (hfuel : 1 < fuel) :
    loop (partitionTurn f p) fuel (as ++ x :: (ss ++ b :: rs ++ ts), as.length, as.length + (ss ++ b :: rs).length) =
      .ok (as ++ x :: (ss ++ b :: rs ++ ts), as.length + ss.length) := by
  have hle : ∀ y ∈ x :: ss, y ≤ p := List.forall_mem_cons.mpr ⟨hx, hss⟩
  obtain ⟨ss', s, hlast⟩ : ∃ ss' s, x :: ss = ss' ++ [s] :=
    (List.eq_nil_or_concat' (x :: ss)).resolve_left (List.cons_ne_nil x ss)
  have hlen : ss'.length = ss.length := by simpa using (congrArg List.length hlast).symm
  simp only [List.length_append, List.length_cons] at hf ⊢
  have hi : loop (scanRight (as ++ x :: (ss ++ b :: rs ++ ts)) p) f as.length = .ok (as.length + (x :: ss).length) :=
    loop_scanRight hle hb as (rs ++ ts) (by simp) rfl rfl f (by simp; omega)
  have hcut : as ++ x :: (ss ++ b :: rs ++ ts) = (as ++ ss') ++ s :: (b :: rs ++ ts) := by
    rw [List.append_assoc ss, ← List.cons_append, hlast]
    simp
  have hj : loop (scanLeft (as ++ x :: (ss ++ b :: rs ++ ts)) p) f (as.length + (ss ++ b :: rs).length) =
      .ok (as.length + ss.length) :=
    loop_scanLeft (List.forall_mem_cons.mpr ⟨hb, hrs⟩) (hle s (by simp [hlast])) (as ++ ss') ts hcut
      (by simp [hlen]; ring) (by simp [hlen]) f (by simp; omega)
  simp only [List.length_append, List.length_cons] at hi hj
  exact loop_partition_exit (by push_cast; omega) hi hj (by push_cast; omega) fuel hfuel

/-- An exchange. -/
theorem partitionTurn_exchange {ss ms bs : List Int} {x b s : Int} (hx : x ≤ p) (hss : ∀ y ∈ ss, y ≤ p) (hb : p < b)
    (hs : s ≤ p) (hbs : ∀ y ∈ bs, p < y) (as ts : List Int) {f : Nat}
    (hf : as.length + 1 + (ss ++ b :: ms ++ s :: bs).length + ts.length < f) :
    partitionTurn f p
        (as ++ x :: (ss ++ b :: ms ++ s :: bs ++ ts), as.length, as.length + (ss ++ b :: ms ++ s :: bs).length) =
      .ok (.inl (as ++ x :: ss ++ s :: (ms ++ [b] ++ (bs ++ ts)), (as ++ x :: ss).length,
        (as ++ x :: ss).length + (ms ++ [b]).length)) := by
  have hle : ∀ y ∈ x :: ss, y ≤ p := List.forall_mem_cons.mpr ⟨hx, hss⟩
  have hi : loop (scanRight (as ++ x :: (ss ++ b :: ms ++ s :: bs ++ ts)) p) f as.length =
      .ok (as ++ x :: ss).length :=
    loop_scanRight hle hb as (ms ++ s :: bs ++ ts) (by simp) rfl (by simp) f (by simp at hf ⊢; omega)
  have hj : loop (scanLeft (as ++ x :: (ss ++ b :: ms ++ s :: bs ++ ts)) p) f
      (as.length + (ss ++ b :: ms ++ s :: bs).length) = .ok ((as ++ x :: ss).length + (ms ++ [b]).length) :=
    loop_scanLeft hbs hs (as ++ x :: ss ++ b :: ms) ts (by simp) (by simp; ring) (by simp; ring) f
      (by simp at hf ⊢; omega)
  have hswap : swap (as ++ x :: ss ++ b :: ms ++ s :: (bs ++ ts)) (as ++ x :: ss).length
      ((as ++ x :: ss).length + (ms ++ [b]).length) = .ok (as ++ x :: ss ++ s :: ms ++ b :: (bs ++ ts)) :=
    swap_mid (as ++ x :: ss) b ms s (bs ++ ts) rfl (by simp; ring)
  have hlt : (as.length : Int) < as.length + (ss ++ b :: ms ++ s :: bs).length := by
    simp only [List.length_append, List.length_cons]
    push_cast
    omega
  have hlt' : ((as ++ x :: ss).length : Int) < (as ++ x :: ss).length + (ms ++ [b]).length := by
    simp only [List.length_append, List.length_cons]
    push_cast
    omega
  rw [partitionTurn, if_pos hlt, hi, hj]
  simp only [ok_bind, if_pos hlt']
  rw [show as ++ x :: (ss ++ b :: ms ++ s :: bs ++ ts) = as ++ x :: ss ++ b :: ms ++ s :: (bs ++ ts) by simp, hswap]
  simp

/-- The loop on `x :: ms` in front of `ts`. The induction is on the number of elements between the indices; an exchange
moves the left index to the exchanged element and gives everything behind the right index to `ts`. -/
theorem loop_partition (n : Nat) : ∀ (as : List Int) (x : Int) (ms ts : List Int), ms.length ≤ n → x ≤ p →
    (ms = [] ∨ ∃ y ∈ ms ++ ts, p < y) → ∃ ls, Parted p ms ls ∧
      ∀ f fuel, as.length + 1 + ms.length + ts.length < f → ms.length + 1 < fuel →
        loop (partitionTurn f p) fuel (as ++ x :: (ms ++ ts), as.length, as.length + ms.length) =
          .ok (as ++ x :: (ls ++ (upper p ms ++ ts)), as.length + ls.length) := by
  induction n with
  | zero =>
    intro as x ms ts hn _ _
    obtain rfl : ms = [] := List.length_eq_zero_iff.mp (by omega)
    refine ⟨[], parted_of_le fun y hy => absurd hy List.not_mem_nil, fun f fuel _ hfuel => ?_⟩
    refine loop_done_of_lt ?_ hfuel
    simp [partitionTurn, upper, refill]
  | succ n ih =>
    intro as x ms ts hn hx hy
    rcases hy with rfl | ⟨y, hy, hpy⟩
    · exact ih as x [] ts (Nat.zero_le n) hx (Or.inl rfl)
    rcases first_greater p ms with hms | ⟨ss, b, rs, rfl, hss, hb⟩
    · by_cases hne : ms = []
      · subst hne
        exact ih as x [] ts (Nat.zero_le n) hx (Or.inl rfl)
      have hts : y ∈ ts := by
        refine (List.mem_append.mp hy).resolve_left fun h => ?_
        have hle := hms y h
        omega
      obtain ⟨ss, b, ts, rfl, hss, hb⟩ := (first_greater p ts).resolve_left fun h => by
        have hle := h y hts
        omega
      refine ⟨ms, parted_of_le hms, fun f fuel hf hfuel => ?_⟩
      rw [upper_of_le hms, List.nil_append]
      exact loop_partition_low hx hms hne hss hb as hf (by omega)
    · rcases last_le p rs with hrs | ⟨ms, s, bs, rfl, hs, hbs⟩
      · refine ⟨ss, parted_ordered hss (List.forall_mem_cons.mpr ⟨hb, hrs⟩), fun f fuel hf hfuel => ?_⟩
        rw [upper_ordered hss (List.forall_mem_cons.mpr ⟨hb, hrs⟩), ← List.append_assoc]
        exact loop_partition_split hx hss hb hrs as ts hf (by omega)
      · have hlen : (ms ++ [b]).length + 1 ≤ (ss ++ b :: (ms ++ s :: bs)).length := by simp; omega
        obtain ⟨ls, hls, hloop⟩ := ih (as ++ x :: ss) s (ms ++ [b]) (bs ++ ts) (by omega) hs (Or.inr ⟨b, by simp, hb⟩)
        obtain ⟨hparted, hu⟩ := parted_exchange hss hb hs hbs hls
        rw [show ss ++ b :: (ms ++ s :: bs) = ss ++ b :: ms ++ s :: bs by simp] at hlen ⊢
        refine ⟨ss ++ s :: ls, hparted, fun f fuel hf hfuel => ?_⟩
        have hturn := partitionTurn_exchange hx hss hb hs hbs as ts hf
        have hrun := loop_again_of_lt hturn (hloop f · (by simp at hf ⊢; omega)) fuel (by omega)
        rw [hrun, hu]
        simp
        ring

/-- The last swap: from the array that `partition`'s loop leaves to the pivot between the two parts. -/
theorem swap_pivot (as ls us : List Int) {j left : Int} (hj : j = as.length + ls.length) (hl : left = as.length) :
    ∃ ls', ls'.Perm ls ∧ swap (as ++ p :: (ls ++ us)) j left = .ok (as ++ (ls' ++ p :: us)) := by
  by_cases hne : ls = []
  · subst hne
    obtain rfl : j = left := by simp [hj, hl]
    exact ⟨[], List.Perm.refl [], swap_self as p us hl⟩
  · obtain ⟨ls, l, rfl⟩ := (List.eq_nil_or_concat' ls).resolve_left hne
    refine ⟨l :: ls, (List.perm_append_singleton l ls).symm, ?_⟩
    have hswap : swap (as ++ p :: ls ++ l :: us) j left = .ok (as ++ l :: ls ++ p :: us) :=
      swap_mid' as p ls l us hl (by simp [hj]; ring)
    simpa using hswap

/-- **`partition`**, when something behind the pivot is greater. -/
theorem partition_spec (as xs ts : List Int) (hy : ∃ y ∈ xs ++ ts, p < y) : ∃ ls, Parted p xs ls ∧
    ∀ fuel, as.length + 1 + xs.length + ts.length < fuel →
      partition fuel (as ++ p :: (xs ++ ts)) as.length (as.length + xs.length) =
        .ok (as ++ (ls ++ p :: (upper p xs ++ ts)), as.length + ls.length) := by
  obtain ⟨ls, hls, hloop⟩ := loop_partition xs.length as p xs ts le_rfl le_rfl (Or.inr hy)
  obtain ⟨ls', hperm, hswap⟩ := swap_pivot (p := p) as ls (upper p xs ++ ts) rfl rfl
  refine ⟨ls', ⟨fun x hx => hls.lower x (hperm.mem_iff.mp hx), hls.greater,
    (hperm.append_right _).trans hls.perm⟩, fun fuel hf => ?_⟩
  rw [partition, get_mid as p (xs ++ ts) rfl, ok_bind, hloop fuel fuel hf (by omega)]
  simp only [ok_bind, hswap, pure_eq_ok, hperm.length_eq]

/-- **`partition`**, when nothing behind the pivot is greater. -/
theorem partition_outOfBounds (as : List Int) {xs ts : List Int} (hne : xs ≠ []) (hle : ∀ y ∈ xs ++ ts, y ≤ p) :
    ∀ fuel, as.length + 1 + xs.length + ts.length < fuel →
      partition fuel (as ++ p :: (xs ++ ts)) as.length (as.length + xs.length) = .error .outOfBounds := by
  intro fuel hf
  have hpos : 0 < xs.length := List.length_pos_iff.mpr hne
  have hscan : loop (scanRight (as ++ p :: (xs ++ ts)) p) fuel as.length = .error .outOfBounds :=
    loop_scanRight_end (List.forall_mem_cons.mpr ⟨le_rfl, hle⟩) as rfl rfl fuel (by simp; omega)
  have hlt : (as.length : Int) < as.length + xs.length := by omega
  have hturn : partitionTurn fuel p (as ++ p :: (xs ++ ts), (as.length : Int), as.length + xs.length) =
      .error .outOfBounds := by
    rw [partitionTurn, if_pos hlt, hscan]
    rfl
  rw [partition, get_mid as p (xs ++ ts) rfl, ok_bind, loop_stop_of_lt hturn hf]
  rfl

/-! ## The contract -/

/-- `arr'` is `arr` with the segment parted at `j` around the pivot `p`. -/
structure PartedSegment (arr : List Int) (left right : Nat) (p : Int) (arr' : List Int) (j : Nat) : Prop where
  inside : left ≤ j ∧ j ≤ right
  pivot : arr'[j]? = some p
  lower : ∀ x ∈ segment arr' left j, x ≤ p
  greater : ∀ x ∈ segment arr' (j + 1) right, p < x
  perm : (segment arr' left right).Perm (segment arr left right)
  before : arr'.take left = arr.take left
  behind : arr'.drop (right + 1) = arr.drop (right + 1)

/-- Some element behind the pivot is greater, be it in the segment or not. -/
def GreaterBehind (arr : List Int) (left : Nat) (p : Int) : Prop := ∃ k x, left < k ∧ arr[k]? = some x ∧ p < x

theorem greaterBehind_mid (as : List Int) (p : Int) (ys : List Int) :
    GreaterBehind (as ++ p :: ys) as.length p ↔ ∃ y ∈ ys, p < y := by
  have hget : ∀ k, (as ++ p :: ys)[as.length + 1 + k]? = ys[k]? := by
    intro k
    rw [List.getElem?_append_right (by omega), show as.length + 1 + k - as.length = k + 1 by omega,
      List.getElem?_cons_succ]
  constructor
  · rintro ⟨k, x, hk, hx, hlt⟩
    obtain ⟨k, rfl⟩ := Nat.exists_eq_add_of_lt hk
    rw [show as.length + k + 1 = as.length + 1 + k by omega, hget] at hx
    exact ⟨x, List.mem_of_getElem? hx, hlt⟩
  · rintro ⟨y, hy, hlt⟩
    obtain ⟨k, hk⟩ := List.getElem?_of_mem hy
    exact ⟨as.length + 1 + k, y, by omega, by rw [hget, hk], hlt⟩

/-- A segment of two parts around the pivot. -/
theorem partedSegment_mid (as ts : List Int) {xs ls us : List Int} {p : Int} {right : Nat} (hls : ∀ x ∈ ls, x ≤ p)
    (hus : ∀ x ∈ us, p < x) (hperm : (ls ++ us).Perm xs) (hr : as.length + xs.length = right) :
    PartedSegment (as ++ (p :: xs ++ ts)) as.length right p (as ++ (ls ++ p :: us ++ ts)) (as.length + ls.length) := by
  have hlen : ls.length + us.length = xs.length := by simpa using hperm.length_eq
  have hnew : as.length + (ls ++ p :: us).length = right + 1 := by simp; omega
  have hold : as.length + (p :: xs).length = right + 1 := by simp; omega
  obtain ⟨hseg', hbehind'⟩ := segment_mid as (ls ++ p :: us) ts hnew
  obtain ⟨hseg, hbehind⟩ := segment_mid as (p :: xs) ts hold
  refine ⟨⟨by omega, by omega⟩, ?_, ?_, ?_, ?_, ?_, ?_⟩
  · rw [List.getElem?_append_right (by omega), Nat.add_sub_cancel_left, List.append_assoc,
      List.getElem?_append_right le_rfl, Nat.sub_self]
    rfl
  · have hcut : as ++ (ls ++ p :: us ++ ts) = as ++ (ls ++ [p] ++ (us ++ ts)) := by simp
    rw [hcut, (segment_mid as (ls ++ [p]) (us ++ ts) (by simp; omega)).1]
    intro x hx
    rcases List.mem_append.mp hx with hx | hx
    · exact hls x hx
    · exact (List.mem_singleton.mp hx).le
  · have hcut : as ++ (ls ++ p :: us ++ ts) = (as ++ ls ++ [p]) ++ (us ++ ts) := by simp
    have hj : as.length + ls.length + 1 = (as ++ ls ++ [p]).length := by simp; omega
    rw [hcut, hj, (segment_mid (as ++ ls ++ [p]) us ts (by simp; omega)).1]
    exact hus
  · rw [hseg', hseg]
    exact List.perm_middle.trans (hperm.cons p)
  · rw [List.take_left, List.take_left]
  · rw [hbehind', hbehind]

/-- On a cut array with something greater behind the pivot. -/
theorem partition_parted (as xs ts : List Int) {p : Int} {right : Nat} (hr : as.length + xs.length = right)
    (hy : ∃ y ∈ xs ++ ts, p < y) : ∃ (arr' : List Int) (j : Nat),
      Ends (partition · (as ++ (p :: xs ++ ts)) as.length right) (.ok (arr', (j : Int))) ∧
        PartedSegment (as ++ (p :: xs ++ ts)) as.length right p arr' j := by
  obtain ⟨ls, hls, hrun⟩ := partition_spec as xs ts hy
  have hends : Ends (partition · (as ++ p :: (xs ++ ts)) as.length (as.length + xs.length))
      (.ok (as ++ (ls ++ p :: (upper p xs ++ ts)), (as.length + ls.length : Int))) := ends_of_lt _ hrun
  have hright : (right : Int) = as.length + xs.length := by omega
  refine ⟨_, as.length + ls.length, ?_, partedSegment_mid as ts hls.lower hls.greater hls.perm hr⟩
  rw [hright, List.cons_append]
  simpa using hends

/-- **The contract of `partition`**: it leaves the array exactly when nothing behind the pivot is greater; otherwise it
parts its segment around the pivot and changes nothing else. -/
theorem partition_contract {arr : List Int} {left right : Nat} {p : Int} (hlt : left < right)
    (hr : right < arr.length) (hp : arr[left]? = some p) :
    (Ends (partition · arr left right) (.error .outOfBounds) ↔ ¬ GreaterBehind arr left p) ∧
      (GreaterBehind arr left p → ∃ (arr' : List Int) (j : Nat),
        Ends (partition · arr left right) (.ok (arr', (j : Int))) ∧ PartedSegment arr left right p arr' j) := by
  obtain ⟨as, seg, ts, rfl, rfl, hlen⟩ := exists_cut hlt.le hr
  obtain ⟨q, xs, rfl⟩ : ∃ q xs, seg = q :: xs := List.exists_cons_of_length_pos (by omega)
  obtain rfl : q = p := by
    rw [List.getElem?_append_right le_rfl, Nat.sub_self] at hp
    exact Option.some.inj hp
  have hxs : as.length + xs.length = right := by
    rw [List.length_cons] at hlen
    omega
  have hgreater : GreaterBehind (as ++ (q :: xs ++ ts)) as.length q ↔ ∃ y ∈ xs ++ ts, q < y :=
    greaterBehind_mid as q (xs ++ ts)
  have hok := @partition_parted as xs ts q right hxs
  rw [hgreater]
  refine ⟨⟨?_, ?_⟩, hok⟩
  · intro hout hy
    obtain ⟨arr', j, hends, -⟩ := hok hy
    cases hout.unique hends
  · intro hnone
    have hne : xs ≠ [] := by
      rintro rfl
      simp at hxs
      omega
    have hle : ∀ y ∈ xs ++ ts, y ≤ q := by
      intro y hy
      by_contra hlt
      exact hnone ⟨y, hy, by omega⟩
    have hright : (right : Int) = as.length + xs.length := by omega
    rw [hright]
    exact ends_of_lt _ (partition_outOfBounds as hne hle)

/-- The pivot 2 in front of 3 and 1. -/
theorem partition_three : ∃ (arr' : List Int) (j : Nat),
    Ends (partition · [2, 3, 1] (0 : Nat) (2 : Nat)) (.ok (arr', (j : Int))) ∧ PartedSegment [2, 3, 1] 0 2 2 arr' j :=
  (@partition_contract [2, 3, 1] 0 2 2 (by omega) (by simp) rfl).2
    ⟨1, 3, by omega, rfl, by omega⟩

end SideWork.Sort
