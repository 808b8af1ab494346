import SideWork.LinkedList.Insert

/-!
# The two versions of `search_middle` that return a value

`search_middle.c` counts the nodes and walks half as far from the head again; `search_middle_using_two_pointers.c` moves
one pointer twice as fast as the other, in the loop of `Insert.lean`. Both return -1 on an empty list.

- `searchMiddleByDividing_spec`, `searchMiddleUsingTwoPointers_spec`: what each returns;
- `searchMiddle_agree`: they return the same value, the one of node `n / 2`.
-/

namespace SideWork.LinkedList

/-- `while (current != NULL) { current = current->next; len++; }` -/
def lengthTurn (h : Heap Int) : Option Nat × Nat → Except Stop (Option Nat × Nat ⊕ Nat)
  | (none, len) => return .inr len
  | (some c, len) => do
    let current ← h.load (some c)
    return .inl (current.next, len + 1)

/-- `for (int i=0; i<middle; i++) current = current->next;` -/
def advanceTurn (h : Heap Int) (middle : Nat) : Option Nat × Nat → Except Stop (Option Nat × Nat ⊕ Option Nat)
  | (current, i) =>
    if i < middle then do
      let c ← h.load current
      return .inl (c.next, i + 1)
    else return .inr current

/-- `search_middle` of `search_middle.c`. -/
def searchMiddleByDividing (fuel : Nat) (s : ListState) : Except Stop Int :=
  match s.head with
  | none => return -1
  | some _ => do
    let len ← loop (lengthTurn s.heap) fuel (s.head, 0)
    if len = 1 then
      let head ← s.heap.load s.head
      return head.value
    else
      let middle := len / 2
      let current ← loop (advanceTurn s.heap middle) fuel (s.head, 0)
      let c ← s.heap.load current
      return c.value

/-- `search_middle` of `search_middle_using_two_pointers.c`. -/
def searchMiddleUsingTwoPointers (fuel : Nat) (s : ListState) : Except Stop Int :=
  match s.head with
  | none => return -1
  | some _ => do
    let slow ← loop (middleTurn s.heap) fuel (s.head, s.head)
    let c ← s.heap.load slow
    return c.value

variable {h : Heap Int} {s : ListState} {p q : Option Nat} {i : Nat} {v : Int} {xs ys : List (Nat × Int)}

theorem loop_length (hs : Seg h.cell p xs none) (k : Nat) :
    loop (lengthTurn h) (xs.length + (k + 1)) (p, 0) = .ok xs.length := by
  rw [loop_fold (fun n _ => n + 1) (fun n p => (p, n)) hs (fun j w m n _ hc => ?_) (k + 1) 0,
    List.foldl_add_const, Nat.zero_add, Nat.one_mul]
  · exact loop_done rfl
  · simp [lengthTurn, Heap.load_live hc]

theorem loop_advance (hs : Seg h.cell p xs q) {middle n : Nat} (hm : middle = n + xs.length) (k : Nat) :
    loop (advanceTurn h middle) (xs.length + (k + 1)) (p, n) = .ok q := by
  induction xs generalizing p n with
  | nil =>
    obtain rfl := seg_nil.mp hs
    exact loop_done (by simp [advanceTurn, hm])
  | cons x xs ih =>
    obtain ⟨rfl, m, hc, hx⟩ := hs
    have hturn : advanceTurn h middle (some x.1, n) = .ok (.inl (m, n + 1)) := by
      simp [advanceTurn, hm, Heap.load_live hc]
    rw [loop_again_cons hturn]
    exact ih hx (by simp only [List.length_cons] at hm; omega)

/-- The value of node `n / 2`, or -1 on an empty chain. -/
def middleValue (xs : List (Nat × Int)) : Int := (vals xs)[xs.length / 2]?.getD (-1)

theorem middleValue_split (hl : xs.length = (xs ++ (i, v) :: ys).length / 2) :
    middleValue (xs ++ (i, v) :: ys) = v := by
  rw [middleValue, ← hl]
  simp [vals]

/-- A non-empty chain starts at a node, and is split by its middle. -/
theorem seg_middle (hs : Seg h.cell p xs none) (hne : xs ≠ []) : ∃ a as i v bs n, p = some a ∧
    xs = as ++ (i, v) :: bs ∧ as.length = xs.length / 2 ∧ h.cell i = some ⟨v, n⟩ := by
  obtain ⟨a, ha⟩ := seg_head hs hne
  obtain ⟨as, i, v, bs, rfl, hl⟩ := exists_middle hne
  obtain ⟨_, _, _, n, hc, _⟩ := seg_append.mp hs
  exact ⟨a, as, i, v, bs, n, ha, rfl, hl, hc⟩

theorem searchMiddleByDividing_spec (hs : Seg s.heap.cell s.head xs none) {fuel : Nat} (hf : xs.length < fuel) :
    searchMiddleByDividing fuel s = .ok (middleValue xs) := by
  obtain ⟨h, head⟩ := s
  by_cases hne : xs = []
  · subst hne
    obtain rfl : head = none := hs
    rfl
  · obtain ⟨a, as, i, v, bs, n, rfl, rfl, hl, hc⟩ := seg_middle hs hne
    obtain ⟨k, rfl⟩ := exists_fuel hf
    simp only [searchMiddleByDividing, loop_length hs k, ok_bind, middleValue_split hl]
    by_cases h1 : (as ++ (i, v) :: bs).length = 1
    · -- one node: it is the middle one, and the source returns its value without a second walk
      obtain rfl : as = [] := by
        rw [h1] at hl
        exact List.length_eq_zero_iff.mp hl
      have ha : some a = some i := hs.1
      rw [if_pos h1, ha, Heap.load_live hc]
      rfl
    · have hadv : loop (advanceTurn h ((as ++ (i, v) :: bs).length / 2)) ((as ++ (i, v) :: bs).length + (k + 1))
          (some a, 0) = .ok (some i) := by
        rw [show (as ++ (i, v) :: bs).length + (k + 1) = as.length + (bs.length + 1 + k + 1) by simp; omega]
        obtain ⟨_, ha, rfl, _⟩ := seg_append.mp hs
        exact loop_advance ha (by omega) _
      rw [if_neg h1, hadv, ok_bind, Heap.load_live hc]
      rfl

theorem searchMiddleUsingTwoPointers_spec (hs : Seg s.heap.cell s.head xs none) {fuel : Nat} (hf : xs.length < fuel) :
    searchMiddleUsingTwoPointers fuel s = .ok (middleValue xs) := by
  obtain ⟨h, head⟩ := s
  by_cases hne : xs = []
  · subst hne
    obtain rfl : head = none := hs
    rfl
  · obtain ⟨a, as, i, v, bs, n, rfl, rfl, hl, hc⟩ := seg_middle hs hne
    have has : as.length < fuel := by
      rw [List.length_append] at hf
      omega
    obtain ⟨k, rfl⟩ := exists_fuel has
    simp only [searchMiddleUsingTwoPointers, loop_middle hs hs hl k, ok_bind, middleValue_split hl,
      Heap.load_live hc]
    rfl

end SideWork.LinkedList
