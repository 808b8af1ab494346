import SideWork.Sort.Partition
import SideWork.Sort.Segment

/-!
# `quick_sort`

A segment is sorted whatever stands before and behind it, unless a scan of `partition` leaves the array.

- `quickSort_run`: a run sorts its segment or leaves the array; it sorts when something behind the segment is greater
  than everything in it, and a segment at the end of the array is sorted exactly when it is `Guarded`;
- `quickSort_sorts`: every run ends, and a run that stays inside the array sorts the segment and nothing else;
- `quickSort_inBounds_iff`: the run on a whole array stays inside it exactly when the array is `Guarded`.
-/

namespace SideWork.Sort

/-- `quick_sort`. -/
def quickSort : Nat → List Int → Int → Int → Except Stop (List Int)
  | 0, _, _, _ => .error .outOfFuel
  | fuel + 1, arr, left, right =>
    if left ≥ right then .ok arr
    else do
      let (arr, cutPoint) ← partition fuel arr left right
      let arr ← quickSort fuel arr left (cutPoint - 1)
      quickSort fuel arr (cutPoint + 1) right

variable {p : Int}

/-- The first element of the segment, if there is a second, is not the greatest, and neither is that of the segment of
the greater elements that `partition` leaves, and so on. -/
inductive Guarded : List Int → Prop
  | nil : Guarded []
  | single (x : Int) : Guarded [x]
  | step {p : Int} {xs : List Int} (hy : ∃ y ∈ xs, p < y) (h : Guarded (upper p xs)) : Guarded (p :: xs)

theorem guarded_cons {xs : List Int} (hne : xs ≠ []) :
    Guarded (p :: xs) ↔ (∃ y ∈ xs, p < y) ∧ Guarded (upper p xs) := by
  constructor
  · intro h
    cases h with
    | single => exact absurd rfl hne
    | step hy h => exact ⟨hy, h⟩
  · intro h
    exact Guarded.step h.1 h.2

/-- What a run on the segment `seg` between `as` and `ts` comes to. -/
structure SortRun (as seg ts : List Int) (r : Except Stop (List Int)) : Prop where
  outcome : r = .error .outOfBounds ∨
    ∃ seg', r = .ok (as ++ (seg' ++ ts)) ∧ seg'.Perm seg ∧ seg'.Pairwise (· ≤ ·)
  inBounds : (∃ t ∈ ts, ∀ x ∈ seg, x < t) → r ≠ .error .outOfBounds
  guarded : ts = [] → (r ≠ .error .outOfBounds ↔ Guarded seg)

theorem quickSort_short {arr : List Int} {left right : Int} (h : left ≥ right) {n fuel : Nat} (hf : n < fuel) :
    quickSort fuel arr left right = .ok arr := by
  obtain ⟨k, rfl⟩ := exists_succ hf
  rw [quickSort, if_pos h]

theorem sortRun_short (as ts : List Int) {seg : List Int} (h : seg.length ≤ 1) :
    SortRun as seg ts (.ok (as ++ (seg ++ ts))) := by
  refine ⟨Or.inr ⟨seg, rfl, List.Perm.refl seg, sorted_short h⟩, fun _ => by simp, fun _ => ?_⟩
  match seg, h with
  | [], _ => exact ⟨fun _ => Guarded.nil, fun _ => by simp⟩
  | [x], _ => exact ⟨fun _ => Guarded.single x, fun _ => by simp⟩

theorem sortRun_stuck (as : List Int) {xs ts : List Int} (hne : xs ≠ []) (hle : ∀ y ∈ xs ++ ts, y ≤ p) :
    SortRun as (p :: xs) ts (.error .outOfBounds) := by
  refine ⟨Or.inl rfl, ?_, fun hts => ?_⟩
  · rintro ⟨t, ht, hlt⟩
    have h₁ := hlt p (by simp)
    have h₂ := hle t (by simp [ht])
    omega
  · refine ⟨fun h => absurd rfl h, fun hg => ?_⟩
    obtain ⟨⟨y, hy, hpy⟩, _⟩ := (guarded_cons hne).mp hg
    have h := hle y (by simp [hy])
    omega

section Split

variable {as xs ts ls ls' : List Int} (hls : Parted p xs ls)

include hls

theorem parted_mem {y : Int} (hy : y ∈ xs) (hpy : p < y) : y ∈ upper p xs := by
  rcases List.mem_append.mp (hls.perm.mem_iff.mpr hy) with h | h
  · have hle := hls.lower y h
    omega
  · exact h

/-- The run on the lower part stays inside the array whenever the run on the segment has something to stop at. -/
theorem sortRun_lower {r : Except Stop (List Int)} (hr : SortRun as ls (p :: (upper p xs ++ ts)) r)
    (h : (∃ t ∈ ts, ∀ x ∈ p :: xs, x < t) ∨ ∃ y ∈ xs, p < y) : r ≠ .error .outOfBounds := by
  apply hr.inBounds
  rcases h with ⟨t, ht, hlt⟩ | ⟨y, hy, hpy⟩
  · refine ⟨t, by simp [ht], fun x hx => hlt x (List.mem_cons_of_mem p ?_)⟩
    exact hls.perm.mem_iff.mp (List.mem_append_left _ hx)
  · refine ⟨y, by simp [parted_mem hls hy hpy], fun x hx => ?_⟩
    have hle := hls.lower x hx
    omega

theorem sorted_join {us : List Int} (hl : ls'.Perm ls) (hsl : ls'.Pairwise (· ≤ ·)) (hu : us.Perm (upper p xs))
    (hsu : us.Pairwise (· ≤ ·)) : (ls' ++ p :: us).Perm (p :: xs) ∧ (ls' ++ p :: us).Pairwise (· ≤ ·) := by
  have hlow : ∀ x ∈ ls', x ≤ p := fun x hx => hls.lower x (hl.mem_iff.mp hx)
  have hup : ∀ y ∈ us, p < y := fun y hy => hls.greater y (hu.mem_iff.mp hy)
  constructor
  · exact List.perm_middle.trans (((hl.append hu).trans hls.perm).cons p)
  · refine List.pairwise_append.mpr ⟨hsl, List.pairwise_cons.mpr ⟨fun y hy => (hup y hy).le, hsu⟩, ?_⟩
    intro x hx y hy
    have hxp := hlow x hx
    rcases List.mem_cons.mp hy with rfl | hy
    · exact hxp
    · exact hxp.trans (hup y hy).le

/-- A run that leaves the array in the lower part. -/
theorem sortRun_lower_stuck (hy : ∃ y ∈ xs ++ ts, p < y)
    (hr : SortRun as ls (p :: (upper p xs ++ ts)) (.error .outOfBounds)) :
    SortRun as (p :: xs) ts (.error .outOfBounds) := by
  refine ⟨Or.inl rfl, fun h => sortRun_lower hls hr (Or.inl h), fun hts => ?_⟩
  subst hts
  rw [List.append_nil] at hy
  exact absurd rfl (sortRun_lower hls hr (Or.inr hy))

/-- The run on the segment from the run on the upper part. -/
theorem sortRun_split (hne : xs ≠ []) (hy : ∃ y ∈ xs ++ ts, p < y) (hl : ls'.Perm ls) (hsl : ls'.Pairwise (· ≤ ·))
    {r : Except Stop (List Int)} (hr : SortRun (as ++ ls' ++ [p]) (upper p xs) ts r) : SortRun as (p :: xs) ts r := by
  refine ⟨?_, ?_, fun hts => ?_⟩
  · rcases hr.outcome with h | ⟨us, rfl, hu, hsu⟩
    · exact Or.inl h
    · exact Or.inr ⟨ls' ++ p :: us, by simp, sorted_join hls hl hsl hu hsu⟩
  · rintro ⟨t, ht, hlt⟩
    refine hr.inBounds ⟨t, ht, fun x hx => hlt x (List.mem_cons_of_mem p ?_)⟩
    exact hls.perm.mem_iff.mp (List.mem_append_right _ hx)
  · subst hts
    rw [List.append_nil] at hy
    rw [hr.guarded rfl, guarded_cons hne]
    exact ⟨fun h => ⟨hy, h⟩, fun h => h.2⟩

end Split

/-! ## The run -/

/-- The last position of a segment with a first element. -/
theorem last_cons (as xs : List Int) : (as.length : Int) + (p :: xs).length - 1 = as.length + xs.length := by
  rw [List.length_cons, Nat.cast_add]
  ring

/-- One level of the recursion up to the call on the lower part. What follows it depends on its outcome. -/
theorem quickSort_lower {as xs ts ls us : List Int} (hne : xs ≠ []) {k : Nat}
    (hpart : partition k (as ++ p :: (xs ++ ts)) as.length (as.length + xs.length) =
      .ok (as ++ (ls ++ p :: us), as.length + ls.length)) :
    quickSort (k + 1) (as ++ (p :: xs ++ ts)) as.length (as.length + (p :: xs).length - 1) =
      quickSort k (as ++ (ls ++ p :: us)) as.length (as.length + ls.length - 1) >>= fun arr =>
        quickSort k arr (as.length + ls.length + 1) (as.length + xs.length) := by
  have hpos : 0 < xs.length := List.length_pos_iff.mpr hne
  rw [last_cons, quickSort, if_neg (by omega), List.cons_append, hpart, ok_bind]

/-- The call on the upper part, with the sorted lower part and the pivot before it. -/
theorem quickSort_upper (as ts : List Int) {xs ls ls' us : List Int} (hl : ls'.length = ls.length)
    (hlen : ls.length + us.length = xs.length) (k : Nat) :
    quickSort k (as ++ (ls' ++ p :: (us ++ ts))) (as.length + ls.length + 1) (as.length + xs.length) =
      quickSort k (as ++ ls' ++ [p] ++ (us ++ ts)) (as ++ ls' ++ [p]).length
        ((as ++ ls' ++ [p]).length + us.length - 1) := by
  have harr : as ++ (ls' ++ p :: (us ++ ts)) = as ++ ls' ++ [p] ++ (us ++ ts) := by simp
  have hleft : (as.length : Int) + ls.length + 1 = (as ++ ls' ++ [p]).length := by
    simp only [List.length_append, List.length_singleton, hl, Nat.cast_add, Nat.cast_one]
  have hright : (as.length : Int) + xs.length = (as ++ ls' ++ [p]).length + us.length - 1 := by
    rw [← hleft]
    omega
  rw [harr, hleft, hright]

/-- The run on a segment of the array, whatever stands before and behind it. The induction is on its length. -/
theorem quickSort_run (n : Nat) : ∀ as seg ts : List Int, seg.length ≤ n → ∃ r, SortRun as seg ts r ∧
    ∀ fuel, as.length + 2 * seg.length + ts.length + 2 < fuel →
      quickSort fuel (as ++ (seg ++ ts)) as.length (as.length + seg.length - 1) = r := by
  induction n with
  | zero =>
    intro as seg ts hn
    exact ⟨_, sortRun_short as ts (by omega), fun fuel hf => quickSort_short (by omega) hf⟩
  | succ n ih =>
    intro as seg ts hn
    by_cases hshort : seg.length ≤ 1
    · exact ⟨_, sortRun_short as ts hshort, fun fuel hf => quickSort_short (by omega) hf⟩
    match seg, hn, hshort with
    | p :: xs, hn, hshort =>
      have hne : xs ≠ [] := by
        rintro rfl
        exact hshort le_rfl
      have hcons : (p :: xs).length = xs.length + 1 := rfl
      by_cases hy : ∃ y ∈ xs ++ ts, p < y
      · obtain ⟨ls, hls, hpart⟩ := partition_spec as xs ts hy
        have hlen : ls.length + (upper p xs).length = xs.length := by simpa using hls.perm.length_eq
        obtain ⟨r₁, hr₁, hrun₁⟩ := ih as ls (p :: (upper p xs ++ ts)) (by omega)
        simp only [List.length_cons, List.length_append] at hrun₁
        rcases hr₁.outcome with rfl | ⟨ls', rfl, hl, hsl⟩
        · refine ⟨_, sortRun_lower_stuck hls hy hr₁, fun fuel hf => ?_⟩
          obtain ⟨k, rfl⟩ := exists_succ hf
          rw [quickSort_lower hne (hpart k (by omega)), hrun₁ k (by omega)]
          rfl
        · obtain ⟨r₂, hr₂, hrun₂⟩ := ih (as ++ ls' ++ [p]) (upper p xs) ts (by omega)
          refine ⟨r₂, sortRun_split hls hne hy hl hsl hr₂, fun fuel hf => ?_⟩
          obtain ⟨k, rfl⟩ := exists_succ hf
          have hbefore : (as ++ ls' ++ [p]).length = as.length + ls.length + 1 := by simp [hl.length_eq]; omega
          rw [quickSort_lower hne (hpart k (by omega)), hrun₁ k (by omega), ok_bind,
            quickSort_upper as ts hl.length_eq hlen, hrun₂ k (by omega)]
      · push Not at hy
        refine ⟨_, sortRun_stuck as hne hy, fun fuel hf => ?_⟩
        obtain ⟨k, rfl⟩ := exists_succ hf
        rw [last_cons, quickSort, if_neg (by omega), List.cons_append, partition_outOfBounds as hne hy k (by omega)]
        rfl

/-- **`quick_sort` sorts.** Every run ends: it leaves the array, or it sorts its segment and changes nothing else. -/
theorem quickSort_sorts (arr : List Int) (left right : Nat) (hl : left < arr.length) (hr : right < arr.length) :
    ∃ r, Ends (quickSort · arr left right) r ∧
      (r = .error .outOfBounds ∨ ∃ arr', r = .ok arr' ∧ SortedSegment arr left right arr') := by
  by_cases hle : left ≤ right
  · obtain ⟨as, seg, ts, rfl, rfl, hlen⟩ := exists_cut hle hr
    obtain ⟨r, hrun, hends⟩ := quickSort_run seg.length as seg ts le_rfl
    have hright : (as.length : Int) + seg.length - 1 = right := by omega
    refine ⟨r, ends_of_lt _ (hright ▸ hends), ?_⟩
    rcases hrun.outcome with h | ⟨seg', rfl, hperm, hsorted⟩
    · exact Or.inl h
    · exact Or.inr ⟨_, rfl, sortedSegment_mid as ts hperm hsorted hlen⟩
  · refine ⟨.ok arr, ends_of_lt 0 fun fuel hf => ?_, Or.inr ⟨arr, rfl, ?_, List.Perm.refl _, rfl, rfl⟩⟩
    · exact quickSort_short (by omega) hf
    · rw [segment, List.drop_eq_nil_of_le (by simp; omega)]
      exact List.Pairwise.nil

/-- A segment in the middle of an array, with a greater element behind it. -/
theorem quickSort_sorts_middle :
    ∃ arr', Ends (quickSort · [3, 2, 1, 5] 1 2) (.ok arr') ∧ SortedSegment [3, 2, 1, 5] 1 2 arr' := by
  obtain ⟨r, hends, hout | ⟨arr', rfl, hsorted⟩⟩ := quickSort_sorts [3, 2, 1, 5] 1 2 (by decide) (by decide)
  · -- the `5` stops the scan to the right
    obtain ⟨r', hrun, hends'⟩ := quickSort_run 2 [3] [2, 1] [5] le_rfl
    have hsame : r = r' := hends.unique (ends_of_lt 8 hends')
    exact absurd (hsame.symm.trans hout) (hrun.inBounds ⟨5, by decide, by decide⟩)
  · exact ⟨arr', hends, hsorted⟩

/-- The run on the whole array makes no access outside it. -/
def InBounds (arr : List Int) : Prop := ∃ arr', Ends (quickSort · arr 0 (arr.length - 1)) (.ok arr')

theorem quickSort_whole (arr : List Int) :
    ∃ r, SortRun [] arr [] r ∧ Ends (quickSort · arr 0 (arr.length - 1)) r := by
  obtain ⟨r, hrun, hends⟩ := quickSort_run arr.length [] arr [] le_rfl
  refine ⟨r, hrun, ends_of_lt (2 * arr.length + 2) fun fuel hf => ?_⟩
  simpa using hends fuel (by simpa using hf)

/-- **`quick_sort` on a whole array** stays inside it exactly when the array is `Guarded`. -/
theorem quickSort_inBounds_iff (arr : List Int) : InBounds arr ↔ Guarded arr := by
  obtain ⟨r, hrun, hends⟩ := quickSort_whole arr
  rw [← hrun.guarded rfl]
  constructor
  · rintro ⟨arr', h⟩
    rw [hends.unique h]
    simp
  · intro hne
    rcases hrun.outcome with h | ⟨seg, rfl, _, _⟩
    · exact absurd h hne
    · exact ⟨_, hends⟩

/-- Two elements in the wrong order: the scan to the right finds nothing greater than the first. -/
theorem not_inBounds_pair : Ends (quickSort · [2, 1] 0 1) (.error .outOfBounds) ∧ ¬ InBounds [2, 1] := by
  obtain ⟨r, hrun, hends⟩ := quickSort_whole [2, 1]
  have hr : r = .error .outOfBounds := by
    by_contra hne
    obtain ⟨⟨y, hy, hlt⟩, _⟩ := (guarded_cons (List.cons_ne_nil 1 [])).mp ((hrun.guarded rfl).mp hne)
    rw [List.mem_singleton.mp hy] at hlt
    omega
  subst hr
  refine ⟨hends, ?_⟩
  rintro ⟨arr', h⟩
  cases hends.unique h

end SideWork.Sort
