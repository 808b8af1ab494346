import SideWork.Lib.CArray
import SideWork.Sort.Segment

/-!
# `merge_sort`

`do_merge` copies the two halves of a segment into two temporary arrays and merges them back. The declarations of these
arrays are a parameter of the model (`sizes`): the source gives `left_arr` the size of the right half and `right_arr`
that of the left one (`declaredSizes`). A temporary array holds no values at first, and reading one that was not written
stops the run.

- `doMerge_spec`: with temporary arrays that are large enough, the two halves are replaced by `List.merge`;
- `mergeSort_run`, `mergeSort_outOfBounds`, `mergeSort_overflow`: a run sorts its segment when all calls of `do_merge` it
  leads to have room (`Fits`) and the segment ends at `2^30` at the latest; it leaves a temporary array when a call has no
  room, and a sum of two indices leaves `int` when the segment ends behind `2^30`;
- `mergeSort_sorts_iff`: with room in every call `merge_sort` sorts its segment and changes nothing else, up to there;
- `mergeSort_inBounds_iff`: the sizes of the source leave room for a power of two elements only.
-/

namespace SideWork.Sort

/-- The sizes of `left_arr` and `right_arr`, from `n1` and `n2`. -/
abbrev Sizes := Int → Int → Int × Int

/-- `int right_arr[n1]; int left_arr[n2];` -/
def declaredSizes : Sizes := fun n1 n2 => (n2, n1)

/-- An array without values. -/
def uninit (size : Int) : List (Option Int) := List.replicate size.toNat none

/-- Reading a temporary array. -/
def getInit (tmp : List (Option Int)) (i : Int) : Except Stop Int := do
  match ← get tmp i with
  | some x => return x
  | none => .error .uninitialised

/-- `for (int i=0; i<n; i++) tmp[i] = arr[base+i];` -/
def copyTurn (arr : List Int) (base n : Int) :
    List (Option Int) × Int → Except Stop (List (Option Int) × Int ⊕ List (Option Int))
  | (tmp, i) =>
    if i < n then do
      let x ← get arr (base + i)
      let tmp ← put tmp i (some x)
      return .inl (tmp, i + 1)
    else return .inr tmp

/-- One turn of `while (i<n1 && j<n2)`. -/
def mergeTurn (leftArr rightArr : List (Option Int)) (n1 n2 : Int) :
    List Int × Int × Int × Int → Except Stop (List Int × Int × Int × Int ⊕ List Int × Int × Int × Int)
  | (arr, i, j, k) =>
    if i < n1 ∧ j < n2 then do
      let x ← getInit leftArr i
      let y ← getInit rightArr j
      if x ≤ y then
        let arr ← put arr k x
        return .inl (arr, i + 1, j, k + 1)
      else
        let arr ← put arr k y
        return .inl (arr, i, j + 1, k + 1)
    else return .inr (arr, i, j, k)

/-- `while (i<n) { arr[k] = tmp[i]; i++; k++; }` -/
def restTurn (tmp : List (Option Int)) (n : Int) :
    List Int × Int × Int → Except Stop (List Int × Int × Int ⊕ List Int × Int)
  | (arr, i, k) =>
    if i < n then do
      let x ← getInit tmp i
      let arr ← put arr k x
      return .inl (arr, i + 1, k + 1)
    else return .inr (arr, k)

/-- `do_merge`. -/
def doMerge (sizes : Sizes) (fuel : Nat) (arr : List Int) (left mid right : Int) : Except Stop (List Int) := do
  let n1 := mid - left + 1
  let n2 := right - mid
  let leftArr ← loop (copyTurn arr left n1) fuel (uninit (sizes n1 n2).1, 0)
  let rightArr ← loop (copyTurn arr (mid + 1) n2) fuel (uninit (sizes n1 n2).2, 0)
  let (arr, i, j, k) ← loop (mergeTurn leftArr rightArr n1 n2) fuel (arr, 0, 0, left)
  let (arr, k) ← loop (restTurn leftArr n1) fuel (arr, i, k)
  let (arr, _) ← loop (restTurn rightArr n2) fuel (arr, j, k)
  return arr

/-- `merge_sort`. -/
def mergeSort (sizes : Sizes) : Nat → List Int → Int → Int → Except Stop (List Int)
  | 0, _, _, _ => .error .outOfFuel
  | fuel + 1, arr, left, right =>
    if left ≥ right then .ok arr
    else do
      let sum ← checkedInt (left + right)
      let mid := sum.tdiv 2
      let arr ← mergeSort sizes fuel arr left mid
      let arr ← mergeSort sizes fuel arr (mid + 1) right
      doMerge sizes fuel arr left mid right

/-! ## The loops of `do_merge` -/

theorem getInit_mid (xs : List Int) (x : Int) (ys : List Int) (rest : List (Option Int)) {i : Int}
    (hi : i = xs.length) : getInit ((xs ++ x :: ys).map some ++ rest) i = .ok x := by
  have hcut : (xs ++ x :: ys).map some ++ rest = xs.map some ++ some x :: (ys.map some ++ rest) := by simp
  rw [getInit, hcut, get_mid _ _ _ (by simpa using hi)]
  rfl

section Copy

variable (as ts : List Int) {base n i : Int} (hb : base = as.length)
include hb

/-- One turn of a copy, with `z :: zs` left to copy. -/
theorem copyTurn_cons (xs : List Int) (z : Int) (zs : List Int) (tmp : List (Option Int))
    (hn : n = xs.length + (z :: zs).length) (hi : i = xs.length) :
    copyTurn (as ++ (xs ++ z :: zs ++ ts)) base n (tmp, i) =
      put tmp i (some z) >>= fun tmp => .ok (.inl (tmp, i + 1)) := by
  have hget : get (as ++ (xs ++ z :: zs ++ ts)) (base + i) = .ok z := by
    have hcut : as ++ (xs ++ z :: zs ++ ts) = (as ++ xs) ++ z :: (zs ++ ts) := by simp
    rw [hcut]
    exact get_mid _ _ _ (by simp [hb, hi])
  have hlt : i < n := by
    rw [List.length_cons] at hn
    omega
  simp only [copyTurn, if_pos hlt, hget, ok_bind, pure_eq_ok]

/-- With the elements `zs` left to copy, and room for them. -/
theorem loop_copy (xs zs : List Int) (rest : List (Option Int)) (hr : zs.length ≤ rest.length)
    (hn : n = xs.length + zs.length) (hi : i = xs.length) (fuel : Nat) (hf : zs.length < fuel) :
    loop (copyTurn (as ++ (xs ++ zs ++ ts)) base n) fuel (xs.map some ++ rest, i) =
      .ok ((xs ++ zs).map some ++ rest.drop zs.length) := by
  induction zs generalizing xs rest i fuel with
  | nil =>
    have hturn : copyTurn (as ++ (xs ++ [] ++ ts)) base n (xs.map some ++ rest, i) =
        .ok (.inr (xs.map some ++ rest)) := if_neg (by simp [hn, hi])
    rw [loop_done_of_lt hturn hf]
    simp
  | cons z zs ih =>
    obtain ⟨r, rest, rfl⟩ : ∃ r rest', rest = r :: rest' := List.exists_cons_of_ne_nil (by rintro rfl; simp at hr)
    have hput : put (xs.map some ++ r :: rest) i (some z) = .ok ((xs ++ [z]).map some ++ rest) := by
      rw [put_mid _ _ _ _ (by simpa using hi)]
      simp
    have hturn := copyTurn_cons as ts hb xs z zs (xs.map some ++ r :: rest) hn hi
    rw [hput, ok_bind] at hturn
    obtain ⟨f, rfl⟩ := exists_succ hf
    have hrest := ih (xs ++ [z]) rest (i := i + 1) (by simpa using hr) (by simp [hn]; ring) (by simp [hi]) f
      (by simp only [List.length_cons] at hf; omega)
    rw [loop_again hturn]
    simpa using hrest

/-- With less room than elements left to copy. -/
theorem loop_copy_full (xs zs : List Int) (rest : List (Option Int)) (hr : rest.length < zs.length)
    (hn : n = xs.length + zs.length) (hi : i = xs.length) (fuel : Nat) (hf : zs.length < fuel) :
    loop (copyTurn (as ++ (xs ++ zs ++ ts)) base n) fuel (xs.map some ++ rest, i) = .error .outOfBounds := by
  induction zs generalizing xs rest i fuel with
  | nil => exact absurd hr (Nat.not_lt_zero _)
  | cons z zs ih =>
    obtain ⟨f, rfl⟩ := exists_succ hf
    have hturn := copyTurn_cons as ts hb xs z zs (xs.map some ++ rest) hn hi
    cases rest with
    | nil =>
      rw [put_end _ _ (by simpa using hi), error_bind] at hturn
      exact loop_stop hturn
    | cons r rest =>
      rw [put_mid _ _ _ _ (by simpa using hi), ok_bind] at hturn
      have hrest := ih (xs ++ [z]) rest (i := i + 1) (by simpa using hr) (by simp [hn]; ring) (by simp [hi]) f
        (by simp only [List.length_cons] at hf; omega)
      rw [loop_again hturn]
      simpa using hrest

/-- A segment is copied into a temporary array that can hold it. -/
theorem copy_spec (zs : List Int) {size : Int} (hs : zs.length ≤ size) :
    ∃ rest, ∀ fuel, zs.length < fuel →
      loop (copyTurn (as ++ (zs ++ ts)) base zs.length) fuel (uninit size, 0) = .ok (zs.map some ++ rest) := by
  refine ⟨(uninit size).drop zs.length, fun fuel hf => ?_⟩
  have hroom : zs.length ≤ (uninit size).length := by
    rw [uninit, List.length_replicate]
    omega
  exact loop_copy as ts hb [] zs (uninit size) hroom (by simp) rfl fuel hf

/-- The copy leaves a temporary array that cannot. -/
theorem copy_outOfBounds {zs : List Int} (hne : zs ≠ []) {size : Int} (hs : ¬ zs.length ≤ size) (fuel : Nat)
    (hf : zs.length < fuel) :
    loop (copyTurn (as ++ (zs ++ ts)) base zs.length) fuel (uninit size, 0) = .error .outOfBounds := by
  have hpos := List.length_pos_iff.mpr hne
  have hroom : (uninit size).length < zs.length := by
    rw [uninit, List.length_replicate]
    omega
  exact loop_copy_full as ts hb [] zs (uninit size) hroom (by simp) rfl fuel hf

end Copy

/-- With the elements `zs` of a temporary array left to move over the elements `gs`. -/
theorem loop_rest (pre ts xs zs gs : List Int) (rest : List (Option Int)) (hg : gs.length = zs.length) {n i k : Int}
    (hn : n = xs.length + zs.length) (hi : i = xs.length) (hk : k = pre.length) (fuel : Nat)
    (hf : zs.length < fuel) : loop (restTurn ((xs ++ zs).map some ++ rest) n) fuel (pre ++ (gs ++ ts), i, k) =
      .ok (pre ++ (zs ++ ts), k + zs.length) := by
  induction zs generalizing xs pre gs i k fuel with
  | nil =>
    obtain rfl := List.length_eq_zero_iff.mp hg
    have hturn : restTurn ((xs ++ []).map some ++ rest) n (pre ++ ([] ++ ts), i, k) =
        .ok (.inr (pre ++ ([] ++ ts), k)) := if_neg (by simp [hn, hi])
    rw [loop_done_of_lt hturn hf]
    simp
  | cons z zs ih =>
    obtain ⟨g, gs, rfl⟩ : ∃ g gs', gs = g :: gs' := List.exists_cons_of_ne_nil (by rintro rfl; simp at hg)
    have hput : put (pre ++ (g :: gs ++ ts)) k z = .ok ((pre ++ [z]) ++ (gs ++ ts)) := by
      rw [List.cons_append, put_mid _ _ _ _ hk]
      simp
    have hturn : restTurn ((xs ++ z :: zs).map some ++ rest) n (pre ++ (g :: gs ++ ts), i, k) =
        .ok (.inl ((pre ++ [z]) ++ (gs ++ ts), i + 1, k + 1)) := by
      have hlt : i < n := by simp only [List.length_cons] at hn; omega
      simp only [restTurn, if_pos hlt, getInit_mid xs z zs rest hi, hput, ok_bind, pure_eq_ok]
    obtain ⟨f, rfl⟩ := exists_succ hf
    have hrest := ih (pre ++ [z]) (xs ++ [z]) gs (i := i + 1) (k := k + 1) (by simpa using hg) (by simp [hn]; ring)
      (by simp [hi]) (by simp [hk]) f (by simp only [List.length_cons] at hf; omega)
    rw [loop_again hturn]
    simp only [List.append_assoc, List.cons_append, List.nil_append] at hrest ⊢
    rw [hrest, List.length_cons]
    congr 2
    push_cast
    ring

section Merge

variable {X Y : List Int} (rl rr : List (Option Int)) (ts : List Int)

/-- One turn of the merge loop, with `x :: xr` and `y :: yr` left of the two halves. -/
theorem mergeTurn_cons (pre gs : List Int) (g : Int) {xs xr ys yr : List Int} {x y : Int} (hX : X = xs ++ x :: xr)
    (hY : Y = ys ++ y :: yr) :
    mergeTurn (X.map some ++ rl) (Y.map some ++ rr) X.length Y.length
        (pre ++ (g :: gs ++ ts), xs.length, ys.length, pre.length) =
      if x ≤ y then .ok (.inl ((pre ++ [x]) ++ (gs ++ ts), (xs ++ [x]).length, ys.length, (pre ++ [x]).length))
      else .ok (.inl ((pre ++ [y]) ++ (gs ++ ts), xs.length, (ys ++ [y]).length, (pre ++ [y]).length)) := by
  have hlt : (xs.length : Int) < X.length ∧ (ys.length : Int) < Y.length := by
    rw [hX, hY, List.length_append, List.length_append, List.length_cons, List.length_cons]
    omega
  have hx : getInit (X.map some ++ rl) xs.length = .ok x := by rw [hX, getInit_mid xs x xr rl rfl]
  have hy : getInit (Y.map some ++ rr) ys.length = .ok y := by rw [hY, getInit_mid ys y yr rr rfl]
  have hput : ∀ z, put (pre ++ (g :: gs ++ ts)) pre.length z = .ok ((pre ++ [z]) ++ (gs ++ ts)) := by
    intro z
    rw [List.cons_append, put_mid _ _ _ _ rfl]
    simp
  simp only [mergeTurn, if_pos hlt, hx, hy, hput, ok_bind, pure_eq_ok]
  by_cases hle : x ≤ y
  · simp [hle]
  · simp [hle]

/-- With one of the two halves used up the merge loop leaves at once. -/
theorem mergeTurn_done (arr : List Int) {xs xr ys yr : List Int} (hX : X = xs ++ xr) (hY : Y = ys ++ yr)
    (hdone : xr = [] ∨ yr = []) (k : Int) :
    mergeTurn (X.map some ++ rl) (Y.map some ++ rr) X.length Y.length (arr, xs.length, ys.length, k) =
      .ok (.inr (arr, xs.length, ys.length, k)) := by
  apply if_neg
  rcases hdone with rfl | rfl
  · simp [hX]
  · simp [hY]

/-- The merge loop leaves when one half is used up, with the rest of the merge still in the temporary arrays. -/
theorem loop_merge (n : Nat) : ∀ pre xs xr ys yr gs : List Int, X = xs ++ xr → Y = ys ++ yr →
    gs.length = xr.length + yr.length → xr.length + yr.length ≤ n →
    ∃ ms xs' xr' ys' yr' gs' : List Int, X = xs' ++ xr' ∧ Y = ys' ++ yr' ∧ gs'.length = xr'.length + yr'.length ∧
      ms ++ (xr' ++ yr') = xr.merge yr ∧ ∀ fuel, n < fuel →
        loop (mergeTurn (X.map some ++ rl) (Y.map some ++ rr) X.length Y.length) fuel
            (pre ++ (gs ++ ts), xs.length, ys.length, pre.length) =
          .ok (pre ++ ms ++ (gs' ++ ts), xs'.length, ys'.length, (pre ++ ms).length) := by
  intro pre xs xr ys yr gs hX hY hg hn
  -- the loop ends here, or both halves have a next element
  by_cases hdone : xr = [] ∨ yr = []
  · refine ⟨[], xs, xr, ys, yr, gs, hX, hY, hg, ?_, fun fuel hf => ?_⟩
    · rcases hdone with rfl | rfl <;> simp
    · rw [loop_done_of_lt (mergeTurn_done rl rr _ hX hY hdone _) hf, List.append_nil]
  push Not at hdone
  obtain ⟨x, xr, rfl⟩ := List.exists_cons_of_ne_nil hdone.1
  obtain ⟨y, yr, rfl⟩ := List.exists_cons_of_ne_nil hdone.2
  obtain ⟨g, gs, rfl⟩ : ∃ g gs', gs = g :: gs' := List.exists_cons_of_ne_nil (by rintro rfl; simp at hg)
  simp only [List.length_cons] at hg hn
  obtain ⟨n, rfl⟩ : ∃ m, n = m + 1 := ⟨n - 1, by omega⟩
  have hturn := mergeTurn_cons rl rr ts pre gs g hX hY
  by_cases hle : x ≤ y
  · rw [if_pos hle] at hturn
    obtain ⟨ms, xs', xr', ys', yr', gs', hX', hY', hg', hm, hl⟩ :=
      loop_merge n (pre ++ [x]) (xs ++ [x]) xr ys (y :: yr) gs (by simp [hX]) hY (by simp; omega) (by simp; omega)
    refine ⟨x :: ms, xs', xr', ys', yr', gs', hX', hY', hg', ?_, loop_again_of_lt hturn fun fuel hf => ?_⟩
    · rw [List.cons_merge_cons_pos _ _ _ (by simpa using hle), ← hm, List.cons_append]
    · rw [hl fuel hf]
      simp
  · rw [if_neg hle] at hturn
    obtain ⟨ms, xs', xr', ys', yr', gs', hX', hY', hg', hm, hl⟩ :=
      loop_merge n (pre ++ [y]) xs (x :: xr) (ys ++ [y]) yr gs hX (by simp [hY]) (by simp; omega) (by simp; omega)
    refine ⟨y :: ms, xs', xr', ys', yr', gs', hX', hY', hg', ?_, loop_again_of_lt hturn fun fuel hf => ?_⟩
    · rw [List.cons_merge_cons_neg _ _ _ (by simpa using hle), ← hm, List.cons_append]
    · rw [hl fuel hf]
      simp

/-- The three loops that merge `xs` and `ys`, out of the temporary arrays, over the elements `gs`. -/
theorem mergeLoops_spec (pre xs ys gs : List Int) (hg : gs.length = xs.length + ys.length) (fuel : Nat)
    (hf : xs.length + ys.length < fuel) :
    (do
      let (arr, i, j, k) ← loop (mergeTurn (xs.map some ++ rl) (ys.map some ++ rr) xs.length ys.length) fuel
        (pre ++ (gs ++ ts), 0, 0, pre.length)
      let (arr, k) ← loop (restTurn (xs.map some ++ rl) xs.length) fuel (arr, i, k)
      let (arr, _) ← loop (restTurn (ys.map some ++ rr) ys.length) fuel (arr, j, k)
      return arr) = .ok (pre ++ (xs.merge ys ++ ts)) := by
  obtain ⟨ms, xs', xr, ys', yr, gs', hX, hY, hg', hms, hmerge⟩ :=
    loop_merge rl rr ts (xs.length + ys.length) pre [] xs [] ys gs rfl rfl hg le_rfl
  rw [List.nil_append] at hX hY
  have hlX : (xs.length : Int) = xs'.length + xr.length := by rw [hX, List.length_append, Nat.cast_add]
  have hlY : (ys.length : Int) = ys'.length + yr.length := by rw [hY, List.length_append, Nat.cast_add]
  -- what is left of the merge lies in one of the two temporary arrays; both are moved, the left one first
  obtain ⟨g₁, g₂, rfl, hg₁, hg₂⟩ : ∃ g₁ g₂, gs' = g₁ ++ g₂ ∧ g₁.length = xr.length ∧ g₂.length = yr.length :=
    ⟨gs'.take xr.length, gs'.drop xr.length, (List.take_append_drop _ _).symm, by simp; omega, by simp; omega⟩
  have hrest₁ := loop_rest (pre ++ ms) (g₂ ++ ts) xs' xr g₁ rl hg₁ hlX rfl rfl fuel (by omega)
  have hpos : ((pre ++ ms).length : Int) + xr.length = (pre ++ ms ++ xr).length := by
    simp only [List.length_append, Nat.cast_add]
  have hrest₂ := loop_rest (pre ++ ms ++ xr) ts ys' yr g₂ rr hg₂ hlY rfl hpos fuel (by omega)
  rw [← hX] at hrest₁
  rw [← hY] at hrest₂
  have hmerge := hmerge fuel hf
  simp only [List.nil_append, List.length_nil, Nat.cast_zero, List.append_assoc] at hmerge hrest₁ hrest₂
  rw [hmerge, ok_bind]
  simp only [hrest₁, hrest₂, ok_bind, pure_eq_ok, ← hms, List.append_assoc]

end Merge

/-- The temporary arrays can hold halves of `n1` and `n2` elements. -/
def HasRoom (sizes : Sizes) (n1 n2 : Int) : Prop := n1 ≤ (sizes n1 n2).1 ∧ n2 ≤ (sizes n1 n2).2

/-- `do_merge` replaces two neighbouring segments by their merge, if the temporary arrays can hold them. -/
theorem doMerge_spec (sizes : Sizes) (as xs ys ts : List Int) {left mid right : Int} (hl : left = as.length)
    (hm : mid = left + xs.length - 1) (hr : right = mid + ys.length) (hroom : HasRoom sizes xs.length ys.length)
    (fuel : Nat) (hf : xs.length + ys.length < fuel) :
    doMerge sizes fuel (as ++ (xs ++ ys ++ ts)) left mid right = .ok (as ++ (xs.merge ys ++ ts)) := by
  have hn1 : mid - left + 1 = xs.length := by omega
  have hn2 : right - mid = ys.length := by omega
  obtain ⟨rl, hcopy₁⟩ := copy_spec as (ys ++ ts) hl xs hroom.1
  obtain ⟨rr, hcopy₂⟩ := copy_spec (as ++ xs) ts (by simp; omega : mid + 1 = _) ys hroom.2
  have hcopy₁ := hcopy₁ fuel (by omega)
  have hcopy₂ := hcopy₂ fuel (by omega)
  have hloops := mergeLoops_spec rl rr ts as xs ys (xs ++ ys) (by simp) fuel hf
  simp only [List.append_assoc] at hcopy₁ hcopy₂ hloops ⊢
  simp only [doMerge, hn1, hn2, hcopy₁, hcopy₂, ok_bind]
  rw [hl]
  exact hloops

/-- `do_merge` leaves a temporary array that cannot hold its half. -/
theorem doMerge_outOfBounds (sizes : Sizes) (as ts : List Int) {xs ys : List Int} {left mid right : Int}
    (hl : left = as.length) (hm : mid = left + xs.length - 1) (hr : right = mid + ys.length) (hxs : xs ≠ [])
    (hys : ys ≠ []) (hroom : ¬ HasRoom sizes xs.length ys.length) (fuel : Nat) (hf : xs.length + ys.length < fuel) :
    doMerge sizes fuel (as ++ (xs ++ ys ++ ts)) left mid right = .error .outOfBounds := by
  have hn1 : mid - left + 1 = xs.length := by omega
  have hn2 : right - mid = ys.length := by omega
  rw [doMerge, hn1, hn2]
  by_cases hx : (xs.length : Int) ≤ (sizes xs.length ys.length).1
  · have hy : ¬ (ys.length : Int) ≤ (sizes xs.length ys.length).2 := fun hy => hroom ⟨hx, hy⟩
    obtain ⟨rl, hcopy₁⟩ := copy_spec as (ys ++ ts) hl xs hx
    have hcopy₁ := hcopy₁ fuel (by omega)
    have hcopy₂ := copy_outOfBounds (as ++ xs) ts (by simp; omega : mid + 1 = _) hys hy fuel (by omega)
    simp only [List.append_assoc] at hcopy₁ hcopy₂ ⊢
    rw [hcopy₁, ok_bind, hcopy₂, error_bind]
  · have hcopy := copy_outOfBounds as (ys ++ ts) hl hxs hx fuel (by omega)
    rw [List.append_assoc, hcopy, error_bind]

/-! ## The recursion -/

/-- The declared sizes are enough for what `do_merge` copies. -/
def Roomy (sizes : Sizes) : Prop := ∀ n1 n2, n1 ≤ (sizes n1 n2).1 ∧ n2 ≤ (sizes n1 n2).2

theorem mergeSort_short (sizes : Sizes) {arr : List Int} {left right : Int} (h : left ≥ right) {n fuel : Nat}
    (hf : n < fuel) : mergeSort sizes fuel arr left right = .ok arr := by
  obtain ⟨k, rfl⟩ := exists_succ hf
  rw [mergeSort, if_pos h]

theorem merge_sorted {xs ys : List Int} (hx : xs.Pairwise (· ≤ ·)) (hy : ys.Pairwise (· ≤ ·)) :
    (xs.merge ys).Pairwise (· ≤ ·) := by
  have htrans : ∀ a b c : Int, decide (a ≤ b) = true → decide (b ≤ c) = true → decide (a ≤ c) = true := by
    intro a b c
    simp only [decide_eq_true_eq]
    exact le_trans
  have htotal : ∀ a b : Int, (decide (a ≤ b) || decide (b ≤ a)) = true := by
    intro a b
    simp only [Bool.or_eq_true, decide_eq_true_eq]
    exact le_total a b
  have h := List.pairwise_merge htrans htotal xs ys (by simpa using hx) (by simpa using hy)
  simpa using h

/-- The segment is cut behind its middle element, at `(left + right) / 2`. -/
theorem exists_halves {seg : List Int} (hseg : 2 ≤ seg.length) : ∃ xs ys, seg = xs ++ ys ∧
    xs.length = (seg.length + 1) / 2 ∧ ys.length = seg.length / 2 := by
  refine ⟨seg.take ((seg.length + 1) / 2), seg.drop ((seg.length + 1) / 2), (List.take_append_drop _ _).symm, ?_, ?_⟩
  · rw [List.length_take]
    omega
  · rw [List.length_drop]
    omega

/-- What a run on the segment `seg` between `as` and `ts` comes to with enough fuel: `r`. -/
def RunsTo (sizes : Sizes) (as seg ts : List Int) (r : Except Stop (List Int)) : Prop :=
  ∀ fuel, 2 * seg.length < fuel →
    mergeSort sizes fuel (as ++ (seg ++ ts)) as.length (as.length + seg.length - 1) = r

theorem ends_of_runsTo {sizes : Sizes} {as seg ts : List Int} {r : Except Stop (List Int)}
    (h : RunsTo sizes as seg ts r) {right : Int} (hright : right = as.length + seg.length - 1) :
    Ends (mergeSort sizes · (as ++ (seg ++ ts)) as.length right) r := by
  rw [hright]
  exact ends_of_lt (2 * seg.length) h

/-- The sum of the first and the last index of the segment is too large. -/
theorem runsTo_overflow (sizes : Sizes) {as seg : List Int} (ts : List Int) (h2 : 2 ≤ seg.length)
    (hsum : 2 ^ 31 < 2 * as.length + seg.length) : RunsTo sizes as seg ts (.error .overflow) := by
  intro fuel hf
  obtain ⟨k, rfl⟩ := exists_succ hf
  have hbig : checkedInt ((as.length : Int) + (as.length + seg.length - 1)) = .error .overflow := if_neg (by omega)
  rw [mergeSort, if_neg (by omega), hbig, error_bind]

/-- One level of the recursion on a segment of two halves. -/
theorem mergeSort_split (sizes : Sizes) (as ts : List Int) {xs ys : List Int}
    (hxl : xs.length = (xs.length + ys.length + 1) / 2) (hpos : 0 < ys.length)
    (hsum : 2 * as.length + (xs.length + ys.length) ≤ 2 ^ 31) (k : Nat) :
    mergeSort sizes (k + 1) (as ++ (xs ++ ys ++ ts)) as.length (as.length + (xs ++ ys).length - 1) =
      (do
        let arr ← mergeSort sizes k (as ++ (xs ++ (ys ++ ts))) as.length (as.length + xs.length - 1)
        let arr ← mergeSort sizes k arr (as.length + xs.length) (as.length + xs.length + ys.length - 1)
        doMerge sizes k arr as.length (as.length + xs.length - 1) (as.length + xs.length + ys.length - 1)) := by
  have hlen : (as.length : Int) + (xs ++ ys).length - 1 = as.length + xs.length + ys.length - 1 := by
    rw [List.length_append, Nat.cast_add]
    ring
  have hfit := checkedInt_of_nonneg (x := (as.length : Int) + (as.length + xs.length + ys.length - 1)) (by omega)
    (by omega)
  have hmid : ((as.length : Int) + (as.length + xs.length + ys.length - 1)).tdiv 2 = as.length + xs.length - 1 := by
    rw [Int.tdiv_eq_ediv_of_nonneg (by omega)]
    omega
  rw [hlen, mergeSort, if_neg (by omega), hfit, ok_bind]
  simp only [hmid, sub_add_cancel, List.append_assoc]

section Halves

variable {sizes : Sizes} {as ts xs ys xs' ys' : List Int} {e : Stop}
  (hxl : xs.length = (xs.length + ys.length + 1) / 2) (hpos : 0 < ys.length)
  (hsum : 2 * as.length + (xs.length + ys.length) ≤ 2 ^ 31)
include hxl hpos hsum

/-- The run stops with its first call. -/
theorem runsTo_left (hx : RunsTo sizes as xs (ys ++ ts) (.error e)) : RunsTo sizes as (xs ++ ys) ts (.error e) := by
  intro fuel hf
  obtain ⟨k, rfl⟩ := exists_succ hf
  rw [List.length_append] at hf
  rw [mergeSort_split sizes as ts hxl hpos hsum, hx k (by omega), error_bind]

/-- After its first call, the run goes on with the second. -/
theorem mergeSort_right (hx : RunsTo sizes as xs (ys ++ ts) (.ok (as ++ (xs' ++ (ys ++ ts)))))
    (hlx : xs'.length = xs.length) {r : Except Stop (List Int)} (hy : RunsTo sizes (as ++ xs') ys ts r) (k : Nat)
    (hk : 2 * (xs ++ ys).length < k + 1) :
    mergeSort sizes (k + 1) (as ++ (xs ++ ys ++ ts)) as.length (as.length + (xs ++ ys).length - 1) =
      r >>= fun arr =>
        doMerge sizes k arr as.length (as.length + xs.length - 1) (as.length + xs.length + ys.length - 1) := by
  rw [List.length_append] at hk
  have hy := hy k (by omega)
  rw [List.length_append, hlx, Nat.cast_add, List.append_assoc] at hy
  rw [mergeSort_split sizes as ts hxl hpos hsum, hx k (by omega), ok_bind, hy]

/-- The run stops with its second call. -/
theorem runsTo_right (hx : RunsTo sizes as xs (ys ++ ts) (.ok (as ++ (xs' ++ (ys ++ ts)))))
    (hlx : xs'.length = xs.length) (hy : RunsTo sizes (as ++ xs') ys ts (.error e)) :
    RunsTo sizes as (xs ++ ys) ts (.error e) := by
  intro fuel hf
  obtain ⟨k, rfl⟩ := exists_succ hf
  rw [mergeSort_right hxl hpos hsum hx hlx hy k hf, error_bind]

/-- After both calls, the run comes to what `do_merge` makes of the two halves. -/
theorem runsTo_merge (hx : RunsTo sizes as xs (ys ++ ts) (.ok (as ++ (xs' ++ (ys ++ ts)))))
    (hlx : xs'.length = xs.length) (hy : RunsTo sizes (as ++ xs') ys ts (.ok (as ++ xs' ++ (ys' ++ ts))))
    (hly : ys'.length = ys.length) {r : Except Stop (List Int)} (hm : ∀ k, xs'.length + ys'.length < k →
      doMerge sizes k (as ++ (xs' ++ ys' ++ ts)) as.length (as.length + xs'.length - 1)
        (as.length + xs'.length - 1 + ys'.length) = r) : RunsTo sizes as (xs ++ ys) ts r := by
  intro fuel hf
  obtain ⟨k, rfl⟩ := exists_succ hf
  rw [mergeSort_right hxl hpos hsum hx hlx hy k hf, ok_bind, List.append_assoc as, ← List.append_assoc xs']
  rw [List.length_append] at hf
  rw [← hm k (by omega), hlx, hly, sub_add_eq_add_sub]

end Halves

/-- Every call of `do_merge` that a segment of `n` elements leads to has room. -/
inductive Fits (sizes : Sizes) : Nat → Prop
  | short {n : Nat} (h : n ≤ 1) : Fits sizes n
  | split {n : Nat} (h : 2 ≤ n) (hl : Fits sizes ((n + 1) / 2)) (hr : Fits sizes (n / 2))
      (hroom : HasRoom sizes ((n + 1) / 2 : Nat) (n / 2 : Nat)) : Fits sizes n

theorem fits_of_roomy {sizes : Sizes} (hs : Roomy sizes) (n : Nat) : Fits sizes n := by
  induction n using Nat.strong_induction_on with
  | _ n ih =>
    by_cases h : n ≤ 1
    · exact Fits.short h
    · exact Fits.split (by omega) (ih _ (by omega)) (ih _ (by omega)) (hs _ _)

/-- The run on a segment of the array, whatever stands before and behind it, if all its calls have room and all sums are
small. -/
theorem mergeSort_run {sizes : Sizes} {n : Nat} (hfits : Fits sizes n) : ∀ as seg ts : List Int, seg.length = n →
    (n ≤ 1 ∨ as.length + n ≤ 2 ^ 30 + 1) →
    ∃ seg' : List Int, seg'.Perm seg ∧ seg'.Pairwise (· ≤ ·) ∧ RunsTo sizes as seg ts (.ok (as ++ (seg' ++ ts))) := by
  induction hfits with
  | short h =>
    intro as seg ts hn _
    exact ⟨seg, List.Perm.refl _, sorted_short (by omega), fun fuel hf => mergeSort_short sizes (by omega) hf⟩
  | @split n h hl hr hroom ihl ihr =>
    intro as seg ts hn hsmall
    obtain ⟨xs, ys, rfl, hxl, hyl⟩ := exists_halves (by omega : 2 ≤ seg.length)
    rw [hn] at hxl hyl
    obtain ⟨xs', hpx, hsx, hrunx⟩ := ihl as xs (ys ++ ts) hxl (by omega)
    have hlx := hpx.length_eq
    obtain ⟨ys', hpy, hsy, hruny⟩ := ihr (as ++ xs') ys ts hyl (by rw [List.length_append]; omega)
    have hly := hpy.length_eq
    rw [List.length_append] at hn
    refine ⟨xs'.merge ys', (List.merge_perm_append _).trans (hpx.append hpy), merge_sorted hsx hsy, ?_⟩
    refine runsTo_merge (by omega) (by omega) (by omega) hrunx hlx hruny hly fun k hk => ?_
    refine doMerge_spec sizes as xs' ys' ts rfl rfl rfl ?_ k hk
    rwa [hlx, hly, hxl, hyl]

/-- The run leaves a temporary array if one of its calls has no room. -/
theorem mergeSort_outOfBounds (sizes : Sizes) (n : Nat) : ∀ as seg ts : List Int, seg.length = n → ¬ Fits sizes n →
    as.length + n ≤ 2 ^ 30 + 1 → RunsTo sizes as seg ts (.error .outOfBounds) := by
  induction n using Nat.strong_induction_on with
  | _ n ih =>
    intro as seg ts hn hfits hsmall
    have h2 : 2 ≤ n := by
      by_contra h
      exact hfits (Fits.short (by omega))
    obtain ⟨xs, ys, rfl, hxl, hyl⟩ := exists_halves (by omega : 2 ≤ seg.length)
    rw [hn] at hxl hyl
    rw [List.length_append] at hn
    -- the first call has no room, or the second, or `do_merge` after both
    by_cases hfl : Fits sizes ((n + 1) / 2)
    · obtain ⟨xs', hpx, -, hrunx⟩ := mergeSort_run hfl as xs (ys ++ ts) hxl (by omega)
      have hlx := hpx.length_eq
      have hlast : (as ++ xs').length + n / 2 ≤ 2 ^ 30 + 1 := by
        rw [List.length_append]
        omega
      by_cases hfr : Fits sizes (n / 2)
      · obtain ⟨ys', hpy, -, hruny⟩ := mergeSort_run hfr (as ++ xs') ys ts hyl (.inr hlast)
        have hly := hpy.length_eq
        refine runsTo_merge (by omega) (by omega) (by omega) hrunx hlx hruny hly fun k hk => ?_
        refine doMerge_outOfBounds sizes as ts rfl rfl rfl ?_ ?_ ?_ k hk
        · exact List.ne_nil_of_length_pos (by omega)
        · exact List.ne_nil_of_length_pos (by omega)
        · rw [hlx, hly, hxl, hyl]
          exact fun hroom => hfits (Fits.split h2 hfl hfr hroom)
      · have hruny := ih (n / 2) (by omega) (as ++ xs') ys ts hyl hfr hlast
        exact runsTo_right (by omega) (by omega) (by omega) hrunx hlx hruny
    · have hrunx := ih ((n + 1) / 2) (by omega) as xs (ys ++ ts) hxl hfl (by omega)
      exact runsTo_left (by omega) (by omega) (by omega) hrunx

/-- With room in all calls, a segment that ends behind `2^30` comes to a sum that is too large: the halves at its end
shrink down to the last two or three elements. -/
theorem mergeSort_overflow {sizes : Sizes} {n : Nat} (hfits : Fits sizes n) : ∀ as seg ts : List Int,
    seg.length = n → 2 ≤ n → 2 ^ 30 + 1 < as.length + n → RunsTo sizes as seg ts (.error .overflow) := by
  induction hfits with
  | short h =>
    intro as seg ts _ h2 _
    omega
  | @split n h hl hr hroom ihl ihr =>
    intro as seg ts hn _ hlarge
    by_cases hsum : 2 ^ 31 < 2 * as.length + n
    · exact runsTo_overflow sizes ts (by omega) (by omega)
    obtain ⟨xs, ys, rfl, hxl, hyl⟩ := exists_halves (by omega : 2 ≤ seg.length)
    rw [hn] at hxl hyl
    rw [List.length_append] at hn
    by_cases hleft : (n + 1) / 2 ≤ 1 ∨ as.length + (n + 1) / 2 ≤ 2 ^ 30 + 1
    · obtain ⟨xs', hpx, -, hrunx⟩ := mergeSort_run hl as xs (ys ++ ts) hxl hleft
      have hlx := hpx.length_eq
      have hruny := ihr (as ++ xs') ys ts hyl (by omega) (by rw [List.length_append]; omega)
      exact runsTo_right (by omega) (by omega) (by omega) hrunx hlx hruny
    · have hrunx := ihl as xs (ys ++ ts) hxl (by omega) (by omega)
      exact runsTo_left (by omega) (by omega) (by omega) hrunx

/-- `merge_sort` sorts its segment and changes nothing else. -/
def Sorts (sizes : Sizes) (arr : List Int) (left right : Nat) : Prop :=
  ∃ arr', Ends (mergeSort sizes · arr left right) (.ok arr') ∧ SortedSegment arr left right arr'

section Segment

variable {sizes : Sizes} (hs : Roomy sizes) (arr : List Int) {left right : Nat} (hle : left ≤ right)
  (hr : right < arr.length)
include hs hle hr

theorem sorts_of_small (hsmall : left = right ∨ right ≤ 2 ^ 30) : Sorts sizes arr left right := by
  obtain ⟨as, seg, ts, rfl, rfl, hlen⟩ := exists_cut hle hr
  obtain ⟨seg', hperm, hsorted, hrun⟩ := mergeSort_run (fits_of_roomy hs _) as seg ts rfl (by omega)
  exact ⟨_, ends_of_runsTo hrun (by omega), sortedSegment_mid as ts hperm hsorted hlen⟩

theorem overflow_of_large (hlarge : ¬ (left = right ∨ right ≤ 2 ^ 30)) :
    Ends (mergeSort sizes · arr left right) (.error .overflow) := by
  obtain ⟨as, seg, ts, rfl, rfl, hlen⟩ := exists_cut hle hr
  have hrun := mergeSort_overflow (fits_of_roomy hs _) as seg ts rfl (by omega) (by omega)
  exact ends_of_runsTo hrun (by omega)

/-- **`merge_sort` sorts**, with temporary arrays that can hold what is copied into them, exactly when its segment has one
element or ends at `2^30` at the latest; otherwise it comes to a sum of two indices that is not an `int`. -/
theorem mergeSort_sorts_iff : (Sorts sizes arr left right ↔ left = right ∨ right ≤ 2 ^ 30) ∧
    (¬ Sorts sizes arr left right → Ends (mergeSort sizes · arr left right) (.error .overflow)) := by
  by_cases hsmall : left = right ∨ right ≤ 2 ^ 30
  · have hsorts := sorts_of_small hs arr hle hr hsmall
    exact ⟨iff_of_true hsorts hsmall, fun h => absurd hsorts h⟩
  · have hstop := overflow_of_large hs arr hle hr hsmall
    refine ⟨iff_of_false ?_ hsmall, fun _ => hstop⟩
    rintro ⟨arr', hends, -⟩
    cases hstop.unique hends

end Segment

/-- Temporary arrays as large as their halves. -/
theorem roomy_halves : Roomy fun n1 n2 => (n1, n2) := fun n1 n2 => ⟨le_refl n1, le_refl n2⟩

/-- A segment in the middle of an array. -/
theorem mergeSort_sorts_middle : Sorts (fun n1 n2 => (n1, n2)) [3, 2, 1, 5] 1 2 :=
  (mergeSort_sorts_iff roomy_halves [3, 2, 1, 5] (by decide) (by decide)).1.mpr (.inr (by decide))

/-- Two zeros behind `2^30` others: the first sum is `2^31 + 1`. -/
theorem not_sorts_large : (2 ^ 30 + 1 < (List.replicate (2 ^ 30 + 2) (0 : Int)).length) ∧
    Ends (mergeSort (fun n1 n2 => (n1, n2)) · (List.replicate (2 ^ 30 + 2) 0) (2 ^ 30) (2 ^ 30 + 1))
      (.error .overflow) ∧
    ¬ Sorts (fun n1 n2 => (n1, n2)) (List.replicate (2 ^ 30 + 2) 0) (2 ^ 30) (2 ^ 30 + 1) := by
  have hbig : checkedInt (2 ^ 30 + (2 ^ 30 + 1)) = .error .overflow := by decide
  have hstop : Ends (mergeSort (fun n1 n2 => (n1, n2)) · (List.replicate (2 ^ 30 + 2) 0) (2 ^ 30) (2 ^ 30 + 1))
      (.error .overflow) := by
    refine ends_of_lt 0 fun fuel hf => ?_
    obtain ⟨k, rfl⟩ := exists_succ hf
    rw [mergeSort, if_neg (by decide), hbig, error_bind]
  refine ⟨by rw [List.length_replicate]; decide, hstop, ?_⟩
  rintro ⟨arr', hends, -⟩
  cases hstop.unique hends

/-! ## The declared sizes -/

/-- With the declared sizes, all calls have room exactly when the halves are always equal. -/
theorem fits_declaredSizes_iff {n : Nat} (hn : 0 < n) : Fits declaredSizes n ↔ n.isPowerOfTwo := by
  induction n using Nat.strong_induction_on with
  | _ n ih =>
    constructor
    · intro h
      cases h with
      | short h => exact ⟨0, by omega⟩
      | split h hl hr hroom =>
        have heven : (n + 1) / 2 = n / 2 := by
          have := hroom.1
          simp only [declaredSizes] at this
          omega
        obtain ⟨k, hk⟩ := (ih (n / 2) (by omega) (by omega)).mp hr
        exact ⟨k + 1, by rw [Nat.pow_succ]; omega⟩
    · rintro ⟨k, rfl⟩
      cases k with
      | zero => exact Fits.short (by simp)
      | succ k =>
        have hpos : 0 < 2 ^ k := Nat.pow_pos (by decide)
        have hhalf : 2 ^ (k + 1) / 2 = 2 ^ k := by rw [Nat.pow_succ]; omega
        have hhalf' : (2 ^ (k + 1) + 1) / 2 = 2 ^ k := by rw [Nat.pow_succ]; omega
        have hfits := (ih (2 ^ k) (by rw [Nat.pow_succ]; omega) hpos).mpr ⟨k, rfl⟩
        refine Fits.split (by rw [Nat.pow_succ]; omega) ?_ ?_ ?_
        · rwa [hhalf']
        · rwa [hhalf]
        · rw [hhalf, hhalf']
          exact ⟨le_refl _, le_refl _⟩

/-- The run on a whole array with the declared sizes comes to its end, inside both temporary arrays in every call. -/
def MergeInBounds (arr : List Int) : Prop := ∃ arr', Ends (mergeSort declaredSizes · arr 0 (arr.length - 1)) (.ok arr')

theorem mergeSort_whole (sizes : Sizes) {arr : List Int} {r : Except Stop (List Int)} (h : RunsTo sizes [] arr [] r) :
    Ends (mergeSort sizes · arr 0 (arr.length - 1)) r := by
  have hends := ends_of_runsTo h rfl
  simpa using hends

theorem not_isPowerOfTwo {k n : Nat} (hlt : 2 ^ k < n) (hlt' : n < 2 ^ (k + 1)) : ¬ n.isPowerOfTwo := by
  rintro ⟨j, rfl⟩
  have hj := (Nat.pow_lt_pow_iff_right (by decide)).mp hlt
  have hj' := (Nat.pow_lt_pow_iff_right (by decide)).mp hlt'
  omega

/-- On more than `2^30` elements the left half has no room, unless it has `2^30` elements itself; the right one then
begins with a sum that is too large. -/
theorem runsTo_large {arr : List Int} (hlarge : 2 ^ 30 < arr.length) : RunsTo declaredSizes [] arr []
    (.error (if arr.length < 2 ^ 31 - 1 then .outOfBounds else .overflow)) := by
  by_cases hsum : 2 ^ 31 < arr.length
  · rw [if_neg (by omega)]
    exact runsTo_overflow declaredSizes [] (by omega) (by rw [List.length_nil]; omega)
  obtain ⟨xs, ys, rfl, hxl, hyl⟩ := exists_halves (by omega : 2 ≤ arr.length)
  rw [List.length_append] at hlarge hsum hxl hyl ⊢
  have hfirst : 2 * ([] : List Int).length + (xs.length + ys.length) ≤ 2 ^ 31 := by
    rw [List.length_nil]
    omega
  have hbound : ([] : List Int).length + xs.length ≤ 2 ^ 30 + 1 := by
    rw [List.length_nil]
    omega
  by_cases hsmall : xs.length + ys.length < 2 ^ 31 - 1
  · rw [if_pos hsmall]
    have hfits : ¬ Fits declaredSizes xs.length := by
      rw [fits_declaredSizes_iff (by omega)]
      exact not_isPowerOfTwo (k := 29) (by omega) (by omega)
    exact runsTo_left (by omega) (by omega) hfirst
      (mergeSort_outOfBounds declaredSizes _ [] xs (ys ++ []) rfl hfits hbound)
  · rw [if_neg hsmall]
    have hfits : Fits declaredSizes xs.length := (fits_declaredSizes_iff (by omega)).mpr ⟨30, by omega⟩
    obtain ⟨xs', hperm, -, hrun⟩ := mergeSort_run hfits [] xs (ys ++ []) rfl (.inr hbound)
    have hlx := hperm.length_eq
    refine runsTo_right (by omega) (by omega) hfirst hrun hlx ?_
    exact runsTo_overflow declaredSizes [] (by omega) (by rw [List.nil_append]; omega)

/-- **The declared sizes are enough exactly when the number of elements is a power of two**, of at most `2^30`. Otherwise
some segment has an odd number of elements, its left half does not fit into `left_arr`, and the copy writes past the end;
from `2^31 - 1` elements on, a sum of two indices overflows before that. -/
theorem mergeSort_inBounds_iff (arr : List Int) (hne : arr ≠ []) :
    (MergeInBounds arr ↔ arr.length.isPowerOfTwo ∧ arr.length ≤ 2 ^ 30) ∧
      (¬ MergeInBounds arr → Ends (mergeSort declaredSizes · arr 0 (arr.length - 1))
        (.error (if arr.length < 2 ^ 31 - 1 then .outOfBounds else .overflow))) := by
  rw [← fits_declaredSizes_iff (List.length_pos_iff.mpr hne)]
  by_cases hin : Fits declaredSizes arr.length ∧ arr.length ≤ 2 ^ 30
  · obtain ⟨seg', -, -, hrun⟩ := mergeSort_run hin.1 [] arr [] rfl (.inr (by rw [List.length_nil]; omega))
    have hbounds : MergeInBounds arr := ⟨_, mergeSort_whole declaredSizes hrun⟩
    exact ⟨iff_of_true hbounds hin, fun h => absurd hbounds h⟩
  · have hrun : RunsTo declaredSizes [] arr []
        (.error (if arr.length < 2 ^ 31 - 1 then .outOfBounds else .overflow)) := by
      by_cases hlarge : 2 ^ 30 < arr.length
      · exact runsTo_large hlarge
      · rw [if_pos (by omega)]
        exact mergeSort_outOfBounds declaredSizes _ [] arr [] rfl (fun h => hin ⟨h, by omega⟩)
          (by rw [List.length_nil]; omega)
    have hstop := mergeSort_whole declaredSizes hrun
    refine ⟨iff_of_false ?_ hin, fun _ => hstop⟩
    rintro ⟨arr', h⟩
    cases hstop.unique h

/-- Four elements. -/
theorem mergeSort_inBounds_four : [4, 3, 2, 1] ≠ ([] : List Int) ∧ MergeInBounds [4, 3, 2, 1] :=
  ⟨List.cons_ne_nil _ _, (mergeSort_inBounds_iff [4, 3, 2, 1] (List.cons_ne_nil _ _)).1.mpr ⟨⟨2, rfl⟩, by decide⟩⟩

/-- Three elements: the left half has two, and `left_arr` has one slot. -/
theorem not_mergeInBounds_three :
    Ends (mergeSort declaredSizes · [3, 2, 1] 0 2) (.error .outOfBounds) ∧ ¬ MergeInBounds [3, 2, 1] := by
  have hfits : ¬ Fits declaredSizes 3 := by
    intro h
    cases h with
    | short h => omega
    | split _ _ _ hroom => exact absurd hroom.1 (by decide)
  have hends : Ends (mergeSort declaredSizes · [3, 2, 1] 0 2) (.error .outOfBounds) :=
    mergeSort_whole declaredSizes (mergeSort_outOfBounds declaredSizes 3 [] [3, 2, 1] [] rfl hfits (by decide))
  refine ⟨hends, ?_⟩
  rintro ⟨arr', h⟩
  cases hends.unique h

end SideWork.Sort
