import SideWork.Lib.Loop

/-!
# C arrays

An array is a list; an index is any integer, and an access outside `[0, length)` stops the run. The lemmas are about an
array cut at the accessed index: `get_mid`, `put_mid`, `swap_mid`, `swap_self`; `get_end` and `put_end` are accesses just
past the end, and `get_ne_error`, `put_ne_error` say that an access stops for no other reason. `exists_index` cuts a
list at an index, `exists_first` and `exists_last` at an element with a property.
-/

namespace SideWork

variable {α : Type}

/-- `arr[i]`. -/
def get (arr : List α) (i : Int) : Except Stop α :=
  if 0 ≤ i then
    match arr[i.toNat]? with
    | some x => .ok x
    | none => .error .outOfBounds
  else .error .outOfBounds

/-- `arr[i] = x`. -/
def put (arr : List α) (i : Int) (x : α) : Except Stop (List α) :=
  if 0 ≤ i ∧ i.toNat < arr.length then .ok (arr.set i.toNat x) else .error .outOfBounds

/-- `swap(&arr[i], &arr[j])`. -/
def swap (arr : List α) (i j : Int) : Except Stop (List α) := do
  let tmp ← get arr i
  let y ← get arr j
  let arr ← put arr i y
  put arr j tmp

theorem get_mid (as : List α) (x : α) (bs : List α) {i : Int} (hi : i = as.length) :
    get (as ++ x :: bs) i = .ok x := by
  subst hi
  simp [get]

theorem get_end (as : List α) {i : Int} (hi : i = as.length) : get as i = .error .outOfBounds := by
  subst hi
  simp [get]

theorem put_mid (as : List α) (x y : α) (bs : List α) {i : Int} (hi : i = as.length) :
    put (as ++ x :: bs) i y = .ok (as ++ y :: bs) := by
  subst hi
  simp [put]

theorem put_end (as : List α) (y : α) {i : Int} (hi : i = as.length) : put as i y = .error .outOfBounds := by
  subst hi
  simp [put]

theorem get_ne_error {e : Stop} (he : e ≠ .outOfBounds) (arr : List α) (i : Int) : get arr i ≠ .error e := by
  unfold get
  split
  · split
    · nofun
    · exact fun h => he (Except.error.inj h).symm
  · exact fun h => he (Except.error.inj h).symm

theorem put_ne_error {e : Stop} (he : e ≠ .outOfBounds) (arr : List α) (i : Int) (x : α) : put arr i x ≠ .error e := by
  unfold put
  split
  · nofun
  · exact fun h => he (Except.error.inj h).symm

section Two

variable (as : List α) (x : α) (bs : List α) (y : α) (cs : List α) {i j : Int}

theorem get_fst (hi : i = as.length) : get (as ++ x :: bs ++ y :: cs) i = .ok x := by
  rw [List.append_assoc]
  exact get_mid as x (bs ++ y :: cs) hi

theorem get_snd (hj : j = as.length + 1 + bs.length) : get (as ++ x :: bs ++ y :: cs) j = .ok y :=
  get_mid (as ++ x :: bs) y cs (by simp [hj]; ring)

theorem put_fst (hi : i = as.length) (z : α) :
    put (as ++ x :: bs ++ y :: cs) i z = .ok (as ++ z :: bs ++ y :: cs) := by
  rw [List.append_assoc, List.append_assoc]
  exact put_mid as x z (bs ++ y :: cs) hi

theorem put_snd (hj : j = as.length + 1 + bs.length) (z : α) :
    put (as ++ x :: bs ++ y :: cs) j z = .ok (as ++ x :: bs ++ z :: cs) :=
  put_mid (as ++ x :: bs) y z cs (by simp [hj]; ring)

/-- Swapping two elements, the first index before the second. -/
theorem swap_mid (hi : i = as.length) (hj : j = as.length + 1 + bs.length) :
    swap (as ++ x :: bs ++ y :: cs) i j = .ok (as ++ y :: bs ++ x :: cs) := by
  rw [swap, get_fst as x bs y cs hi, ok_bind, get_snd as x bs y cs hj, ok_bind, put_fst as x bs y cs hi y, ok_bind]
  exact put_snd as y bs y cs hj x

/-- Swapping two elements, the first index behind the second. -/
theorem swap_mid' (hi : i = as.length) (hj : j = as.length + 1 + bs.length) :
    swap (as ++ x :: bs ++ y :: cs) j i = .ok (as ++ y :: bs ++ x :: cs) := by
  rw [swap, get_snd as x bs y cs hj, ok_bind, get_fst as x bs y cs hi, ok_bind, put_snd as x bs y cs hj x, ok_bind]
  exact put_fst as x bs x cs hi y

end Two

/-- Swapping an element with itself. -/
theorem swap_self (as : List α) (x : α) (bs : List α) {i : Int} (hi : i = as.length) :
    swap (as ++ x :: bs) i i = .ok (as ++ x :: bs) := by
  simp only [swap, get_mid as x bs hi, put_mid as x x bs hi, ok_bind]

/-! ## Cutting a list -/

/-- At an index. -/
theorem exists_index {xs : List α} {k : Nat} (hk : k < xs.length) :
    ∃ as x bs, xs = as ++ x :: bs ∧ as.length = k := by
  refine ⟨xs.take k, xs[k], xs.drop (k + 1), ?_, ?_⟩
  · rw [← List.drop_eq_getElem_cons hk, List.take_append_drop]
  · rw [List.length_take]
    omega

theorem eraseIdx_mid (as : List α) (x : α) (bs : List α) : (as ++ x :: bs).eraseIdx as.length = as ++ bs := by
  rw [List.eraseIdx_append_of_length_le le_rfl, Nat.sub_self, List.eraseIdx_cons_zero]

/-- At the first element with a property. -/
theorem exists_first (p : α → Bool) (xs : List α) : (∀ x ∈ xs, p x = false) ∨
    ∃ as x bs, xs = as ++ x :: bs ∧ (∀ y ∈ as, p y = false) ∧ p x = true := by
  cases h : xs.find? p with
  | none => exact Or.inl fun x hx => by simpa using List.find?_eq_none.mp h x hx
  | some x =>
    obtain ⟨hx, as, bs, rfl, has⟩ := List.find?_eq_some_iff_append.mp h
    exact Or.inr ⟨as, x, bs, rfl, fun y hy => by simpa using has y hy, hx⟩

/-- At the last element with a property. -/
theorem exists_last (p : α → Bool) (xs : List α) : (∀ x ∈ xs, p x = false) ∨
    ∃ as x bs, xs = as ++ x :: bs ∧ p x = true ∧ ∀ y ∈ bs, p y = false := by
  rcases exists_first p xs.reverse with h | ⟨as, x, bs, hxs, has, hx⟩
  · exact Or.inl fun x hx => h x (List.mem_reverse.mpr hx)
  · refine Or.inr ⟨bs.reverse, x, as.reverse, ?_, hx, fun y hy => has y (List.mem_reverse.mp hy)⟩
    rw [← List.reverse_reverse xs, hxs]
    simp

end SideWork
