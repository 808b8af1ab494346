import Mathlib.Data.List.Destutter
import SideWork.LinkedList.Insert

/-!
# Deleting nodes

`delete` by value and by position, `delete_duplicate` of sorted lists, `delete_alternate` and `delete_middle`. A local
`struct node *prev` without an initial value is `NULL` here; no run reads it before it is set. What is written to
standard output is left out.

- `deleteByValue_found`, `deleteByValue_missing`, `deleteByValue_null`;
- `deleteByPosition_found`, `deleteByPosition_missing`, and for every position `deleteByPosition_without`;
- `deleteDuplicate_spec`: what is left is `List.destutter` on values;
- `deleteAlternate_run`: what is left are the nodes at even positions, and the others are freed;
- `deleteMiddle_spec`, `deleteMiddle_head`: the first node of the chain has no predecessor to find.
-/

namespace SideWork.LinkedList

variable {h : Heap Int} {s : ListState} {p q : Option Nat} {i j : Nat} {v w : Int} {xs ys : List (Nat × Int)}

/-! ## By value -/

/-- `while (current != NULL && current->value != delete_value) { prev = current; current = current->next; }` -/
def findTurn (h : Heap Int) (deleteValue : Int) :
    Option Nat × Option Nat → Except Stop (Option Nat × Option Nat ⊕ Option Nat × Option Nat)
  | (prev, none) => return .inr (prev, none)
  | (prev, some i) => do
    let c ← h.load (some i)
    if c.value ≠ deleteValue then return .inl (some i, c.next) else return .inr (prev, some i)

/-- `delete` of `delete_by_value.c`, method 1. -/
def deleteByValue (fuel : Nat) (s : ListState) (deleteValue : Int) : Except Stop ListState := do
  let c ← s.heap.load s.head
  if c.value = deleteValue then
    let h ← s.heap.free s.head
    return ⟨h, c.next⟩
  else
    match ← loop (findTurn s.heap deleteValue) fuel (none, s.head) with
    | (_, none) => return s
    | (prev, some i) =>
      let c ← s.heap.load (some i)
      let h ← s.heap.setNext prev c.next
      let h ← h.free (some i)
      return ⟨h, s.head⟩

/-- Unlinking the node behind cell `j` and freeing it, as all the deletions do. -/
theorem unlink_spec (ho : Owns h p (xs ++ (j, w) :: (i, v) :: ys)) {n : Option Nat}
    (hc : h.cell i = some ⟨v, n⟩) : h.setNext (some j) n = .ok (h.relink j n) ∧
      (h.relink j n).free (some i) = .ok ((h.relink j n).release i) := by
  have hnd := ho.ids_nodup
  simp only [ids_append, ids_cons, List.nodup_append, List.nodup_cons, List.mem_cons, not_or] at hnd
  have hij : i ≠ j := fun e => hnd.2.1.1.1 e.symm
  obtain ⟨_, _, rfl, m, hcj, _⟩ := seg_append.mp ho.chain
  refine ⟨Heap.setNext_live hcj, Heap.free_live (c := ⟨v, n⟩) ?_⟩
  rw [Heap.cell_relink_ne hij]; exact hc

/-- The search passes the nodes that hold another value. -/
theorem loop_find_skip (hs : Seg h.cell p xs q) (hx : v ∉ vals xs) (k : Nat) (prev : Option Nat) :
    loop (findTurn h v) (xs.length + k) (prev, p) = loop (findTurn h v) k (trail prev xs, q) := by
  refine loop_seg (fun prev p => (prev, p)) hs (fun j w l prev hj hcj => ?_) k prev
  have hw : w ≠ v := fun e => hx (e ▸ List.mem_map_of_mem hj)
  simp [findTurn, Heap.load_live hcj, hw]

/-- `delete` by value removes the first node that holds the value. -/
theorem deleteByValue_found (ho : Holds s (xs ++ (i, v) :: ys)) (hx : v ∉ vals xs) :
    ∃ s', (∀ fuel, xs.length < fuel → deleteByValue fuel s v = .ok s') ∧ Holds s' (xs ++ ys) := by
  obtain ⟨h, head⟩ := s
  obtain ⟨m, hsx, rfl, n, hc, _⟩ := seg_append.mp ho.chain
  rcases nil_or_concat xs with rfl | ⟨zs, j, w, rfl⟩
  · obtain rfl : head = some i := hsx
    refine ⟨⟨h.release i, n⟩, fun fuel _ => ?_, owns_removeHead ho hc⟩
    simp [deleteByValue, Heap.load_live hc, Heap.free_live hc]
  · have ho' : Owns h head (zs ++ (j, w) :: (i, v) :: ys) := by simpa using ho
    obtain ⟨a, u, l, rfl, hca, hu⟩ : ∃ a u l, head = some a ∧ h.cell a = some ⟨u, l⟩ ∧ u ≠ v := by
      cases zs with
      | nil =>
        obtain ⟨rfl, l, hcj, _⟩ := hsx
        exact ⟨j, w, l, rfl, hcj, fun e => hx (by simp [e])⟩
      | cons z zs =>
        obtain ⟨rfl, l, hcz, _⟩ := hsx
        exact ⟨z.1, z.2, l, rfl, hcz, fun e => hx (by simp [e])⟩
    obtain ⟨hset, hfree⟩ := unlink_spec ho' hc
    refine ⟨⟨(h.relink j n).release i, some a⟩, fun fuel hf => ?_, by simpa using owns_removeAfter ho' hc⟩
    obtain ⟨k, rfl⟩ := exists_fuel hf
    have hloop : loop (findTurn h v) ((zs ++ [(j, w)]).length + (k + 1)) (none, some a) = .ok (some j, some i) := by
      rw [loop_find_skip hsx hx, trail_concat]
      exact loop_done (by simp [findTurn, Heap.load_live hc])
    simp only [deleteByValue, Heap.load_live hca, ok_bind, if_neg hu, hloop, Heap.load_live hc, hset, hfree,
      pure_eq_ok]

/-- `delete` by value leaves a list without the value as it is. -/
theorem deleteByValue_missing (ho : Holds s xs) (hne : xs ≠ []) (hx : v ∉ vals xs) {fuel : Nat}
    (hf : xs.length < fuel) : deleteByValue fuel s v = .ok s := by
  obtain ⟨h, head⟩ := s
  obtain ⟨k, rfl⟩ := exists_fuel hf
  have hloop : loop (findTurn h v) (xs.length + (k + 1)) (none, head) = .ok (trail none xs, none) := by
    rw [loop_find_skip ho.chain hx]
    exact loop_done (by simp [findTurn])
  cases xs with
  | nil => exact absurd rfl hne
  | cons x xs =>
    obtain ⟨rfl, n, hc, _⟩ := ho.chain
    have hv : x.2 ≠ v := fun e => hx (by simp [e])
    simp only [deleteByValue, Heap.load_live hc, ok_bind, if_neg hv, hloop, pure_eq_ok]

/-- `delete` by value dereferences the `NULL` head of the empty list. -/
theorem deleteByValue_null (hs : s.head = none) (fuel : Nat) : deleteByValue fuel s v = .error .nullDeref := by
  simp [deleteByValue, hs]

/-! ## By position -/

/-- `while (current != NULL && delete_position--) { prev = current; current = current->next; }`, where `pred` is what the
`--` leaves in the counter. -/
def positionTurn (pred : Int → Int) (h : Heap Int) : Option Nat × Option Nat × Int →
    Except Stop (Option Nat × Option Nat × Int ⊕ Option Nat × Option Nat)
  | (prev, none, _) => return .inr (prev, none)
  | (prev, some i, deletePosition) =>
    if deletePosition ≠ 0 then do
      let c ← h.load (some i)
      return .inl (some i, c.next, pred deletePosition)
    else return .inr (prev, some i)

/-- `delete` of `delete_by_position.c`. -/
def deleteCounting (pred : Int → Int) (fuel : Nat) (s : ListState) (deletePosition : Int) : Except Stop ListState :=
  match s.head with
  | none => return s
  | some a =>
    if deletePosition = 0 then do
      let c ← s.heap.load (some a)
      let h ← s.heap.free (some a)
      return ⟨h, c.next⟩
    else do
      match ← loop (positionTurn pred s.heap) fuel (none, some a, deletePosition) with
      | (_, none) => return s
      | (prev, some i) =>
        let c ← s.heap.load (some i)
        let h ← s.heap.setNext prev c.next
        let h ← h.free (some i)
        return ⟨h, some a⟩

/-- `delete` with an integer for its counter. -/
def deleteByPosition (fuel : Nat) (s : ListState) (deletePosition : Int) : Except Stop ListState :=
  deleteCounting (· - 1) fuel s deletePosition

/-- The walk passes a node for each position it counts down, unless it counts to 0. -/
theorem loop_position_skip (hs : Seg h.cell p xs q) {d : Int} (hd : d < 0 ∨ (xs.length : Int) ≤ d) (k : Nat)
    (prev : Option Nat) : loop (positionTurn (· - 1) h) (xs.length + k) (prev, p, d) =
      loop (positionTurn (· - 1) h) k (trail prev xs, q, d - xs.length) := by
  induction xs generalizing p d prev with
  | nil => rw [seg_nil.mp hs]; simp [trail]
  | cons x xs ih =>
    obtain ⟨rfl, n, hc, hx⟩ := hs
    rw [List.length_cons] at hd
    push_cast at hd
    have hturn : positionTurn (· - 1) h (prev, some x.1, d) = .ok (.inl (some x.1, n, d - 1)) := by
      simp [positionTurn, Heap.load_live hc, show d ≠ 0 by omega]
    rw [loop_again_cons hturn, ih hx (by omega),
      show d - 1 - (xs.length : Int) = d - ((x :: xs).length : Int) by simp; omega]
    rfl

/-- `delete` by position removes the node at that position. -/
theorem deleteByPosition_found (ho : Holds s (xs ++ (i, v) :: ys)) :
    ∃ s', (∀ fuel, xs.length < fuel → deleteByPosition fuel s xs.length = .ok s') ∧ Holds s' (xs ++ ys) := by
  obtain ⟨h, head⟩ := s
  obtain ⟨m, hsx, rfl, n, hc, _⟩ := seg_append.mp ho.chain
  rcases nil_or_concat xs with rfl | ⟨zs, j, w, rfl⟩
  · obtain rfl : head = some i := hsx
    refine ⟨⟨h.release i, n⟩, fun fuel _ => ?_, owns_removeHead ho hc⟩
    simp [deleteByPosition, deleteCounting, Heap.load_live hc, Heap.free_live hc]
  · have ho' : Owns h head (zs ++ (j, w) :: (i, v) :: ys) := by simpa using ho
    obtain ⟨a, rfl⟩ : ∃ a, head = some a := seg_head hsx (by simp)
    obtain ⟨hset, hfree⟩ := unlink_spec ho' hc
    have hne : ((zs ++ [(j, w)]).length : Int) ≠ 0 := by simp; omega
    refine ⟨⟨(h.relink j n).release i, some a⟩, fun fuel hf => ?_, by simpa using owns_removeAfter ho' hc⟩
    obtain ⟨k, rfl⟩ := exists_fuel hf
    have hloop : loop (positionTurn (· - 1) h) ((zs ++ [(j, w)]).length + (k + 1))
        (none, some a, ((zs ++ [(j, w)]).length : Int)) = .ok (some j, some i) := by
      rw [loop_position_skip hsx (Or.inr le_rfl), trail_concat, sub_self]
      exact loop_done (by simp [positionTurn])
    simp only [deleteByPosition, deleteCounting, if_neg hne, hloop, ok_bind, Heap.load_live hc, hset, hfree, pure_eq_ok]

/-- `delete` by position does nothing for a position outside the list, negative ones included. -/
theorem deleteByPosition_missing (ho : Holds s xs) {d : Int} (hd : d < 0 ∨ (xs.length : Int) ≤ d) {fuel : Nat}
    (hf : xs.length < fuel) : deleteByPosition fuel s d = .ok s := by
  obtain ⟨h, head⟩ := s
  obtain ⟨k, rfl⟩ := exists_fuel hf
  cases xs with
  | nil => obtain rfl := ho.chain; rfl
  | cons x xs =>
    have hloop : loop (positionTurn (· - 1) h) ((x :: xs).length + (k + 1)) (none, head, d) =
        .ok (trail none (x :: xs), none) := by
      rw [loop_position_skip ho.chain hd]
      exact loop_done (by simp [positionTurn])
    obtain ⟨rfl, n, hc, _⟩ := ho.chain
    have hne : d ≠ 0 := by
      rw [List.length_cons] at hd
      push_cast at hd
      omega
    simp only [deleteByPosition, deleteCounting, if_neg hne, hloop, ok_bind, pure_eq_ok]

/-- A list without its node at a position, if it has one there. -/
def without (xs : List (Nat × Int)) (position : Int) : List (Nat × Int) :=
  if 0 ≤ position ∧ position < xs.length then xs.eraseIdx position.toNat else xs

theorem length_without_le (xs : List (Nat × Int)) (d : Int) : (without xs d).length ≤ xs.length := by
  unfold without
  split
  · exact List.length_eraseIdx_le ..
  · exact le_rfl

/-- `delete` by position, for every position. -/
theorem deleteByPosition_without (ho : Holds s xs) (d : Int) :
    ∃ s', (∀ fuel, xs.length < fuel → deleteByPosition fuel s d = .ok s') ∧ Holds s' (without xs d) := by
  by_cases hd : 0 ≤ d ∧ d < xs.length
  · obtain ⟨k, rfl⟩ := Int.eq_ofNat_of_zero_le hd.1
    have hk : k < xs.length := by exact_mod_cast hd.2
    obtain ⟨as, i, v, bs, rfl, rfl⟩ := exists_split hk
    obtain ⟨s', hr, ho'⟩ := deleteByPosition_found ho
    refine ⟨s', fun fuel hf => hr fuel (lt_trans hk hf), ?_⟩
    rw [without, if_pos hd, Int.toNat_natCast, eraseIdx_mid]
    exact ho'
  · refine ⟨s, fun fuel hf => deleteByPosition_missing ho (by omega) hf, ?_⟩
    rw [without, if_neg hd]
    exact ho

/-! ## Duplicates of a sorted list -/

/-- One turn of `while (current->next != NULL)`: unlink the next node if it holds the same value, else move on. -/
def duplicateTurn : Heap Int × Option Nat → Except Stop (Heap Int × Option Nat ⊕ Heap Int)
  | (h, current) => do
    let c ← h.load current
    match c.next with
    | none => return .inr h
    | some d =>
      let dupNode ← h.load (some d)
      if c.value = dupNode.value then
        let h ← h.setNext current dupNode.next
        let h ← h.free (some d)
        return .inl (h, current)
      else return .inl (h, some d)

/-- `delete_duplicate`. -/
def deleteDuplicate (fuel : Nat) (s : ListState) : Except Stop ListState := do
  let h ← loop duplicateTurn fuel (s.heap, s.head)
  return ⟨h, s.head⟩

/-- Nodes with different values, the relation that `delete_duplicate` leaves between neighbours. -/
def NeValue (x y : Nat × Int) : Prop := x.2 ≠ y.2

instance : DecidableRel NeValue := fun x y => inferInstanceAs (Decidable (x.2 ≠ y.2))

theorem loop_duplicate (ho : Owns h p (xs ++ (i, v) :: ys)) :
    ∃ h', (∀ fuel, ys.length < fuel → loop duplicateTurn fuel (h, some i) = .ok h') ∧
      Owns h' p (xs ++ ys.destutter' NeValue (i, v)) := by
  induction ys generalizing h xs i v with
  | nil =>
    obtain ⟨_, _, rfl, n, hc, rfl⟩ := seg_append.mp ho.chain
    refine ⟨h, fun fuel hf => ?_, ho⟩
    obtain ⟨f, rfl⟩ := exists_succ hf
    exact loop_done (by simp [duplicateTurn, Heap.load_live hc])
  | cons y ys ih =>
    obtain ⟨d, w⟩ := y
    obtain ⟨_, _, rfl, m, hc, rfl, n, hd, _⟩ := seg_append.mp ho.chain
    rw [List.destutter'_cons]
    by_cases hvw : v = w
    · subst hvw
      obtain ⟨hset, hfree⟩ := unlink_spec ho hd
      have hturn : duplicateTurn (h, some i) = .ok (.inl ((h.relink i n).release d, some i)) := by
        simp [duplicateTurn, Heap.load_live hc, Heap.load_live hd, hset, hfree]
      obtain ⟨h', hl, ho'⟩ := ih (owns_removeAfter ho hd)
      rw [if_neg (by simp [NeValue])]
      exact ⟨h', loop_again_of_lt hturn hl, ho'⟩
    · have hturn : duplicateTurn (h, some i) = .ok (.inl (h, some d)) := by
        simp [duplicateTurn, Heap.load_live hc, Heap.load_live hd, hvw]
      have ho₂ : Owns h p ((xs ++ [(i, v)]) ++ (d, w) :: ys) := by simpa using ho
      obtain ⟨h', hl, ho'⟩ := ih ho₂
      rw [if_pos (show NeValue (i, v) (d, w) from hvw)]
      exact ⟨h', loop_again_of_lt hturn hl, by simpa using ho'⟩

/-- `delete_duplicate` reduces every run of equal neighbours to its first node. -/
theorem deleteDuplicate_spec (ho : Holds s xs) (hne : xs ≠ []) :
    ∃ s', (∀ fuel, xs.length ≤ fuel → deleteDuplicate fuel s = .ok s') ∧ Holds s' (xs.destutter NeValue) := by
  obtain ⟨h, head⟩ := s
  cases xs with
  | nil => exact absurd rfl hne
  | cons x xs =>
    obtain ⟨rfl, _⟩ := ho.chain
    have ho₂ : Owns h (some x.1) ([] ++ (x.1, x.2) :: xs) := ho
    obtain ⟨h', hl, ho'⟩ := loop_duplicate ho₂
    refine ⟨⟨h', some x.1⟩, fun fuel hf => ?_, ho'⟩
    rw [deleteDuplicate, hl fuel (by simpa using hf)]
    rfl

/-- `delete_duplicate` dereferences the `NULL` head of the empty list. -/
theorem deleteDuplicate_null (hs : s.head = none) (fuel : Nat) :
    deleteDuplicate (fuel + 1) s = .error .nullDeref := by
  rw [deleteDuplicate, hs, loop_stop (e := .nullDeref) (by simp [duplicateTurn]), error_bind]

/-! ## Every other node -/

/-- One turn of `while (prev != NULL && current->next != NULL)`. -/
def alternateTurn : Heap Int × Option Nat × Option Nat →
    Except Stop (Heap Int × Option Nat × Option Nat ⊕ Heap Int)
  | (h, none, _) => return .inr h
  | (h, some prev, current) => do
    let c ← h.load current
    match c.next with
    | none => return .inr h
    | some d =>
      let deleteNode ← h.load (some d)
      let h ← h.setNext (some prev) deleteNode.next
      let next ← h.load (some d)
      let h ← h.free (some d)
      return .inl (h, next.next, next.next)

/-- `delete_alternate`, which reads `(*head_ref)->next` before it tests `*head_ref`. -/
def deleteAlternate (fuel : Nat) (s : ListState) : Except Stop ListState := do
  let c ← s.heap.load s.head
  match s.head, c.next with
  | none, _ => return s
  | _, none => return s
  | _, _ =>
    let h ← loop alternateTurn fuel (s.heap, s.head, s.head)
    return ⟨h, s.head⟩

/-- The nodes at even positions. -/
def evens : List (Nat × Int) → List (Nat × Int)
  | [] => []
  | [x] => [x]
  | x :: _ :: xs => x :: evens xs

/-- The nodes at odd positions. -/
def odds : List (Nat × Int) → List (Nat × Int)
  | [] => []
  | [_] => []
  | _ :: y :: xs => y :: odds xs

theorem getElem?_evens (xs : List (Nat × Int)) (k : Nat) : (evens xs)[k]? = xs[2 * k]? := by
  induction xs using evens.induct generalizing k with
  | case1 => simp [evens]
  | case2 x => cases k <;> simp [evens, Nat.mul_succ]
  | case3 x y xs ih =>
    cases k with
    | zero => rfl
    | succ k => exact ih k

theorem getElem?_odds (xs : List (Nat × Int)) (k : Nat) : (odds xs)[k]? = xs[2 * k + 1]? := by
  induction xs using odds.induct generalizing k with
  | case1 => simp [odds]
  | case2 x => simp [odds]
  | case3 x y xs ih =>
    cases k with
    | zero => rfl
    | succ k => exact ih k

theorem loop_alternate {prev : Option Nat} (ho : Owns h p (xs ++ ys)) (hs : Seg h.cell prev ys none) :
    ∃ h', (∀ fuel, ys.length < fuel → loop alternateTurn fuel (h, prev, prev) = .ok h') ∧
      Owns h' p (xs ++ evens ys) ∧ h'.freed = (ids (odds ys)).reverse ++ h.freed := by
  induction ys using evens.induct generalizing h xs prev with
  | case1 =>
    obtain rfl := hs
    refine ⟨h, fun fuel hf => ?_, ho, rfl⟩
    obtain ⟨f, rfl⟩ := exists_succ hf
    exact loop_done rfl
  | case2 x =>
    obtain ⟨rfl, n, hc, rfl⟩ := hs
    refine ⟨h, fun fuel hf => ?_, ho, rfl⟩
    obtain ⟨f, rfl⟩ := exists_succ hf
    exact loop_done (by simp [alternateTurn, Heap.load_live hc])
  | case3 x y ys ih =>
    obtain ⟨rfl, m, hc, rfl, n, hd, hy⟩ := hs
    have hnd := ho.ids_nodup
    simp only [ids_append, ids_cons, List.nodup_append, List.nodup_cons, List.mem_cons, not_or] at hnd
    obtain ⟨-, ⟨⟨hxy, hxs⟩, hys, -⟩, -⟩ := hnd
    obtain ⟨hset, hfree⟩ := unlink_spec ho hd
    have hd' : (h.relink x.1 n).load (some y.1) = .ok ⟨y.2, n⟩ :=
      Heap.load_live (by rw [Heap.cell_relink_ne (Ne.symm hxy)]; exact hd)
    have hturn : alternateTurn (h, some x.1, some x.1) = .ok (.inl ((h.relink x.1 n).release y.1, n, n)) := by
      simp [alternateTurn, Heap.load_live hc, Heap.load_live hd, hset, hfree, hd']
    have ho' : Owns ((h.relink x.1 n).release y.1) p ((xs ++ [x]) ++ ys) := by
      simpa using owns_removeAfter ho hd
    obtain ⟨h', hl, hoh, hfreed⟩ := ih ho' (seg_release hys (seg_relink hxs hy))
    refine ⟨h', fun fuel hf => ?_, by simpa [evens] using hoh, by simpa [odds] using hfreed⟩
    exact loop_again_of_lt hturn hl fuel (by simp only [List.length_cons] at hf ⊢; omega)

/-- `delete_alternate` keeps the nodes at even positions and frees the others, one after the other. -/
theorem deleteAlternate_run (ho : Holds s xs) (hne : xs ≠ []) :
    ∃ s', (∀ fuel, xs.length < fuel → deleteAlternate fuel s = .ok s') ∧ Holds s' (evens xs) ∧
      s'.heap.freed = (ids (odds xs)).reverse ++ s.heap.freed := by
  obtain ⟨h, head⟩ := s
  match xs, hne with
  | [x], _ =>
    obtain ⟨rfl, n, hc, rfl⟩ := ho.chain
    exact ⟨⟨h, some x.1⟩, fun fuel _ => by simp [deleteAlternate, Heap.load_live hc], ho, rfl⟩
  | x :: y :: xs, _ =>
    have ho₂ : Owns h head ([] ++ x :: y :: xs) := ho
    obtain ⟨h', hl, ho', hfreed⟩ := loop_alternate ho₂ ho.chain
    obtain ⟨rfl, n, hc, rfl, _⟩ := ho.chain
    refine ⟨⟨h', some x.1⟩, fun fuel hf => ?_, ho', hfreed⟩
    simp only [deleteAlternate, Heap.load_live hc, ok_bind, hl fuel hf, pure_eq_ok]

theorem deleteAlternate_spec (ho : Holds s xs) (hne : xs ≠ []) :
    ∃ s', (∀ fuel, xs.length < fuel → deleteAlternate fuel s = .ok s') ∧ Holds s' (evens xs) := by
  obtain ⟨s', hr, ho', -⟩ := deleteAlternate_run ho hne
  exact ⟨s', hr, ho'⟩

/-- **`delete_alternate` keeps exactly the nodes at even positions** and frees each of the others exactly once. -/
theorem deleteAlternate_frees (ho : Holds s xs) (hne : xs ≠ []) :
    ∃ s' es os, Ends (fun fuel => deleteAlternate fuel s) (.ok s') ∧ Holds s' es ∧
      (∀ k : Nat, es[k]? = xs[2 * k]?) ∧ (∀ k : Nat, os[k]? = xs[2 * k + 1]?) ∧
      s'.heap.freed = (ids os).reverse ++ s.heap.freed ∧ s'.heap.freed.Nodup := by
  obtain ⟨s', hr, ho', hfreed⟩ := deleteAlternate_run ho hne
  exact ⟨s', evens xs, odds xs, ends_of_lt _ hr, ho', getElem?_evens xs, getElem?_odds xs, hfreed, ho'.freed_nodup⟩

/-- On the list 1, 2, 3 the node that holds 2 is freed. -/
theorem deleteAlternate_three :
    ∃ s' es, ∃ os : List (Nat × Int),
      Ends (fun fuel => deleteAlternate fuel ⟨⟨[⟨1, some 1⟩, ⟨2, some 2⟩, ⟨3, none⟩], []⟩, some 0⟩) (.ok s') ∧
      Holds s' es ∧ es[1]? = some (2, 3) ∧ os[0]? = some (1, 2) ∧ s'.heap.freed = (ids os).reverse := by
  have ho : Holds ⟨⟨[⟨1, some 1⟩, ⟨2, some 2⟩, ⟨3, none⟩], []⟩, some 0⟩ [(0, 1), (1, 2), (2, 3)] :=
    ⟨⟨rfl, _, rfl, rfl, _, rfl, rfl, _, rfl, rfl⟩, by decide⟩
  obtain ⟨s', es, os, he, ho', hes, hos, hfreed, -⟩ := deleteAlternate_frees ho (List.cons_ne_nil _ _)
  exact ⟨s', es, os, he, ho', hes 1, hos 0, by simpa using hfreed⟩

/-- `delete_alternate` dereferences the `NULL` head of the empty list. -/
theorem deleteAlternate_null (hs : s.head = none) (fuel : Nat) :
    deleteAlternate fuel s = .error .nullDeref := by
  simp [deleteAlternate, hs]

/-! ## The middle node -/

/-- `while (current->next != midd) current = current->next;` -/
def beforeTurn (h : Heap Int) (midd current : Option Nat) : Except Stop (Option Nat ⊕ Option Nat) := do
  let c ← h.load current
  if c.next ≠ midd then return .inl c.next else return .inr current

/-- `delete_middle`. -/
def deleteMiddle (fuel : Nat) (s : ListState) (midd : Option Nat) : Except Stop ListState := do
  let current ← loop (beforeTurn s.heap midd) fuel s.head
  let m ← s.heap.load midd
  let h ← s.heap.setNext current m.next
  let h ← h.free midd
  return ⟨h, s.head⟩

/-- The walk passes every node whose successor is not the one it looks for. -/
theorem loop_before_skip (hs : Seg h.cell p xs q) (hi : i ∉ (ids xs).tail) (hq : xs ≠ [] → q ≠ some i) (k : Nat) :
    loop (beforeTurn h (some i)) (xs.length + k) p = loop (beforeTurn h (some i)) k q := by
  refine loop_seg (fun _ p => p) hs (fun j w l _ hj hcj => ?_) k none
  obtain ⟨as, bs, rfl⟩ := List.append_of_mem hj
  obtain ⟨_, _, _, l', hcj', hb⟩ := seg_append.mp hs
  rw [hcj] at hcj'
  cases hcj'
  have hl : l ≠ some i := by
    cases bs with
    | nil => obtain rfl := hb; exact hq (by simp)
    | cons b bs =>
      obtain ⟨rfl, _⟩ := hb
      intro e
      cases e
      apply hi
      cases as <;> simp
  simp [beforeTurn, Heap.load_live hcj, hl]

/-- `delete_middle` removes the node it is given when that node has a predecessor. -/
theorem deleteMiddle_spec (ho : Holds s (xs ++ (j, w) :: (i, v) :: ys)) :
    ∃ s', (∀ fuel, xs.length < fuel → deleteMiddle fuel s (some i) = .ok s') ∧ Holds s' (xs ++ (j, w) :: ys) := by
  obtain ⟨h, head⟩ := s
  have hnd := ho.ids_nodup
  simp only [ids_append, ids_cons, List.nodup_append, List.nodup_cons, List.mem_cons, not_or] at hnd
  obtain ⟨-, ⟨⟨hji, -⟩, -, -⟩, hdis⟩ := hnd
  have hix : i ∉ ids xs := fun hm => hdis i hm i (by simp) rfl
  obtain ⟨_, hsx, rfl, m, hcj, rfl, n, hc, _⟩ := seg_append.mp ho.chain
  obtain ⟨hset, hfree⟩ := unlink_spec ho hc
  refine ⟨⟨(h.relink j n).release i, head⟩, fun fuel hf => ?_, owns_removeAfter ho hc⟩
  obtain ⟨k, rfl⟩ := exists_fuel hf
  have hloop : loop (beforeTurn h (some i)) (xs.length + (k + 1)) head = .ok (some j) := by
    rw [loop_before_skip hsx (fun hm => hix (List.mem_of_mem_tail hm)) (fun _ e => hji (Option.some.inj e))]
    exact loop_done (by simp [beforeTurn, Heap.load_live hcj])
  simp [deleteMiddle, hloop, Heap.load_live hc, hset, hfree]

/-- `delete_middle` runs off the end when it is given the first node: nothing points to it. -/
theorem deleteMiddle_head (ho : Holds s ((i, v) :: ys)) {fuel : Nat} (hf : ys.length + 1 < fuel) :
    deleteMiddle fuel s (some i) = .error .nullDeref := by
  obtain ⟨k, rfl⟩ := exists_fuel (show ((i, v) :: ys).length < fuel from hf)
  have hnd := ho.ids_nodup
  simp only [ids_cons, List.nodup_cons] at hnd
  have hloop : loop (beforeTurn s.heap (some i)) (((i, v) :: ys).length + (k + 1)) s.head = .error .nullDeref := by
    rw [loop_before_skip ho.chain (by simpa using hnd.1) (by simp)]
    exact loop_stop (by simp [beforeTurn])
  rw [deleteMiddle, hloop, error_bind]

/-- `delete_middle` dereferences the `NULL` head of the empty list. -/
theorem deleteMiddle_null (hs : s.head = none) (midd : Option Nat) (fuel : Nat) :
    deleteMiddle (fuel + 1) s midd = .error .nullDeref := by
  rw [deleteMiddle, hs, loop_stop (e := .nullDeref) (by simp [beforeTurn]), error_bind]

end SideWork.LinkedList
