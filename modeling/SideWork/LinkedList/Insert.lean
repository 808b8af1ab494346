import SideWork.Lib.CArray
import SideWork.Lib.Heap

/-!
# Building lists: `append`, `insert_to_head`, `insert`, `insert_at_middle`

The caller's `head` and the heap are one `ListState`; `malloc` succeeds and hands out a fresh node. Every file of
`single_linked_list` repeats the same `append`; `search_middle` is that of `insert_at_middle` and `delete_middle`, which
returns the node. The specifications say what an operation makes of the chain `xs` that the state owns:

- `append_spec`, `insertToHead_spec`: one more node at the end, in front;
- `insert_found`, `insert_missing`: one more node behind the first holder of the value, or a `NULL` dereference;
- `searchMiddle_spec`, `insertAtMiddle_spec`: the middle is node `n / 2`, and a node is put behind it.
-/

namespace SideWork.LinkedList

/-- The heap and the caller's `head`. -/
structure ListState where
  heap : Heap Int
  head : Option Nat
  deriving DecidableEq, Repr

/-- `struct node *head = NULL`. -/
def initial : ListState := ⟨Heap.empty, none⟩

/-- The state owns the chain `xs` of nodes with their values. -/
abbrev Holds (s : ListState) (xs : List (Nat × Int)) : Prop := Owns s.heap s.head xs

/-! ## `append` and `insert_to_head` -/

/-- `while (current->next != NULL) current = current->next;` -/
def lastTurn (h : Heap Int) (current : Option Nat) : Except Stop (Option Nat ⊕ Option Nat) := do
  let c ← h.load current
  match c.next with
  | none => return .inr current
  | some n => return .inl (some n)

/-- `append`. -/
def append (fuel : Nat) (s : ListState) (newValue : Int) : Except Stop ListState := do
  let (newNode, h) := s.heap.malloc ⟨newValue, none⟩
  match s.head with
  | none => return ⟨h, some newNode⟩
  | some _ =>
    let current ← loop (lastTurn h) fuel s.head
    let h ← h.setNext current (some newNode)
    return ⟨h, s.head⟩

/-- `insert_to_head`. -/
def insertToHead (s : ListState) (newValue : Int) : Except Stop ListState := do
  let (newNode, h) := s.heap.malloc ⟨newValue, none⟩
  match s.head with
  | none => return ⟨h, some newNode⟩
  | some _ =>
    let h ← h.setNext (some newNode) s.head
    return ⟨h, some newNode⟩

variable {h : Heap Int} {s : ListState} {p q : Option Nat} {i : Nat} {v : Int} {xs ys : List (Nat × Int)}

/-- A non-empty chain starts at a node. -/
theorem seg_head (hs : Seg h.cell p xs q) (hne : xs ≠ []) : ∃ a, p = some a := by
  cases xs with
  | nil => exact absurd rfl hne
  | cons x xs => exact ⟨x.1, hs.1⟩

/-- The walk to the last node. -/
theorem loop_last (hs : Seg h.cell p (xs ++ [(i, v)]) none) (k : Nat) :
    loop (lastTurn h) (xs.length + (k + 1)) p = .ok (some i) := by
  obtain ⟨m, hx, rfl, n, hc, rfl⟩ := seg_append.mp hs
  rw [loop_seg (fun _ p => p) hx (fun j w l _ hj hcj => ?_) (k + 1) none]
  · exact loop_done (by simp [lastTurn, Heap.load_live hc])
  · obtain ⟨e, rfl⟩ := seg_next hx hj hcj
    simp [lastTurn, Heap.load_live hcj]

/-- A chain is empty or has a last node. -/
theorem nil_or_concat (xs : List (Nat × Int)) : xs = [] ∨ ∃ ys i v, xs = ys ++ [(i, v)] := by
  rcases List.eq_nil_or_concat xs with h | ⟨ys, ⟨i, v⟩, h⟩
  · exact Or.inl h
  · exact Or.inr ⟨ys, i, v, by rw [h, List.concat_eq_append]⟩

theorem exists_last_two {xs : List (Nat × Int)} (hl : 1 < xs.length) :
    ∃ zs j w i v, xs = zs ++ [(j, w)] ++ [(i, v)] := by
  rcases nil_or_concat xs with rfl | ⟨ys, i, v, rfl⟩
  · simp at hl
  · rcases nil_or_concat ys with rfl | ⟨zs, j, w, rfl⟩
    · simp at hl
    · exact ⟨zs, j, w, i, v, rfl⟩

/-- A non-empty chain has its new node linked behind the last one. -/
theorem link_last {u : Int} (ho : Owns h p (ys ++ [(i, u)])) (v : Int) :
    (∀ fuel, ys.length < fuel → loop (lastTurn (h.extend ⟨v, none⟩)) fuel p = .ok (some i)) ∧
      (h.extend ⟨v, none⟩).setNext (some i) (some h.nodes.length) =
        .ok ((h.extend ⟨v, none⟩).relink i (some h.nodes.length)) ∧
      Owns ((h.extend ⟨v, none⟩).relink i (some h.nodes.length)) p (ys ++ [(i, u)] ++ [(h.nodes.length, v)]) := by
  obtain ⟨m, hx, hm, n, hc, rfl⟩ := seg_append.mp ho.chain
  refine ⟨fun fuel hf => ?_, Heap.setNext_live (Heap.cell_extend hc _), by simpa using owns_insertAfter ho hc v⟩
  obtain ⟨k, rfl⟩ := exists_fuel hf
  exact loop_last (seg_extend ho.chain _) k

/-- `append` puts a new node at the end. -/
theorem append_spec (ho : Holds s xs) (v : Int) : ∃ s', (∀ fuel, xs.length ≤ fuel → append fuel s v = .ok s') ∧
    Holds s' (xs ++ [(s.heap.nodes.length, v)]) := by
  obtain ⟨h, head⟩ := s
  rcases nil_or_concat xs with rfl | ⟨ys, i, w, rfl⟩
  · obtain rfl : head = none := ho.chain
    exact ⟨_, fun _ _ => rfl, owns_pushHead ho v⟩
  · obtain ⟨hlast, hset, ho'⟩ := link_last ho v
    obtain ⟨a, rfl⟩ : ∃ a, head = some a := seg_head ho.chain (by simp)
    refine ⟨⟨(h.extend ⟨v, none⟩).relink i (some h.nodes.length), some a⟩, fun fuel hf => ?_, ho'⟩
    simp only [List.length_append, List.length_singleton] at hf
    simp only [append, Heap.malloc, hlast fuel hf, ok_bind, hset, pure_eq_ok]

/-- `insert_to_head` puts a new node in front. -/
theorem insertToHead_spec (ho : Holds s xs) (v : Int) :
    ∃ s', insertToHead s v = .ok s' ∧ Holds s' ((s.heap.nodes.length, v) :: xs) := by
  obtain ⟨h, head⟩ := s
  have hn := ho.fresh_notMem
  simp only [List.mem_append, not_or] at hn
  cases head with
  | none => exact ⟨_, rfl, owns_pushHead ho v⟩
  | some a =>
    refine ⟨⟨h.extend ⟨v, some a⟩, some h.nodes.length⟩, ?_, owns_pushHead ho v⟩
    simp [insertToHead, Heap.malloc, Heap.setNext_live (Heap.cell_extend_new hn.1 _), Heap.extend_relink_new]

/-- A chain splits at the first node that holds a value, or no node holds it. -/
theorem first_or_missing (v : Int) (xs : List (Nat × Int)) :
    (∃ as i bs, xs = as ++ (i, v) :: bs ∧ v ∉ vals as) ∨ v ∉ vals xs := by
  rcases exists_first (fun x : Nat × Int => decide (x.2 = v)) xs with h | ⟨as, ⟨i, u⟩, bs, rfl, has, hx⟩
  · right
    intro hv
    obtain ⟨x, hx, rfl⟩ := List.mem_map.mp hv
    simpa using h x hx
  · left
    obtain rfl : u = v := by simpa using hx
    refine ⟨as, i, bs, rfl, fun hv => ?_⟩
    obtain ⟨x, hx, hxu⟩ := List.mem_map.mp hv
    simpa [hxu] using has x hx

/-! ## `insert`: behind the first node holding a value -/

/-- `while (current->value != position) current = current->next;` -/
def insertTurn (h : Heap Int) (position : Int) (current : Option Nat) :
    Except Stop (Option Nat ⊕ Option Nat) := do
  let c ← h.load current
  if c.value ≠ position then return .inl c.next else return .inr current

/-- `insert` of `insert_after_position.c`. -/
def insert (fuel : Nat) (s : ListState) (position newValue : Int) : Except Stop ListState := do
  let (newNode, h) := s.heap.malloc ⟨newValue, none⟩
  let current ← loop (insertTurn h position) fuel s.head
  let c ← h.load current
  let h ← h.setNext (some newNode) c.next
  let h ← h.setNext current (some newNode)
  return ⟨h, s.head⟩

/-- The walk of `insert` passes the nodes that hold another value. -/
theorem loop_insert_skip (hs : Seg h.cell p xs q) {position : Int} (hx : position ∉ vals xs) (k : Nat) :
    loop (insertTurn h position) (xs.length + k) p = loop (insertTurn h position) k q := by
  refine loop_seg (fun _ p => p) hs (fun j w l _ hj hcj => ?_) k none
  have hw : w ≠ position := fun e => hx (e ▸ List.mem_map_of_mem hj)
  simp [insertTurn, Heap.load_live hcj, hw]

/-- `insert` puts the new node behind the first node that holds the value. -/
theorem insert_found {position : Int} (ho : Holds s (xs ++ (i, position) :: ys)) (hx : position ∉ vals xs)
    (v : Int) : ∃ s', (∀ fuel, xs.length < fuel → insert fuel s position v = .ok s') ∧
      Holds s' (xs ++ (i, position) :: (s.heap.nodes.length, v) :: ys) := by
  obtain ⟨h, head⟩ := s
  have hn := ho.fresh_notMem
  simp only [ids_append, ids_cons, List.mem_append, List.mem_cons, not_or] at hn
  obtain ⟨m, hsx, rfl, n, hc, _⟩ := seg_append.mp ho.chain
  refine ⟨⟨(h.extend ⟨v, n⟩).relink i (some h.nodes.length), head⟩, fun fuel hf => ?_, owns_insertAfter ho hc v⟩
  obtain ⟨k, rfl⟩ := exists_fuel hf
  have hcur : loop (insertTurn (h.extend ⟨v, none⟩) position) (xs.length + (k + 1)) head = .ok (some i) := by
    rw [loop_insert_skip (seg_extend hsx _) hx]
    exact loop_done (by simp [insertTurn, Heap.load_live (Heap.cell_extend hc _)])
  simp [insert, Heap.malloc, hcur, Heap.load_live (Heap.cell_extend hc _),
    Heap.setNext_live (Heap.cell_extend_new hn.1 _), Heap.extend_relink_new,
    Heap.setNext_live (Heap.cell_extend hc _)]

/-- `insert` runs off the end when no node holds the value. -/
theorem insert_missing {position : Int} (ho : Holds s xs) (hx : position ∉ vals xs) (v : Int) {fuel : Nat}
    (hf : xs.length < fuel) : insert fuel s position v = .error .nullDeref := by
  obtain ⟨k, rfl⟩ := exists_fuel hf
  have hcur : loop (insertTurn (s.heap.extend ⟨v, none⟩) position) (xs.length + (k + 1)) s.head =
      .error .nullDeref := by
    rw [loop_insert_skip (seg_extend ho.chain _) hx]
    exact loop_stop (by simp [insertTurn])
  simp [insert, Heap.malloc, hcur]

/-! ## `search_middle` and `insert_at_middle` -/

/-- One turn of the two pointers, `fast_ptr` and `slow_ptr`. -/
def middleTurn (h : Heap Int) : Option Nat × Option Nat → Except Stop (Option Nat × Option Nat ⊕ Option Nat)
  | (none, slow) => return .inr slow
  | (some f, slow) => do
    let fast ← h.load (some f)
    match fast.next with
    | none => return .inr slow
    | some g =>
      let fastNext ← h.load (some g)
      let slowNode ← h.load slow
      return .inl (fastNext.next, slowNode.next)

/-- `search_middle`. -/
def searchMiddle (fuel : Nat) (s : ListState) : Except Stop (Option Nat) :=
  match s.head with
  | none => return none
  | some _ => loop (middleTurn s.heap) fuel (s.head, s.head)

/-- `while (current != midd) current = current->next;` -/
def seekTurn (h : Heap Int) (midd current : Option Nat) : Except Stop (Option Nat ⊕ Unit) :=
  if current ≠ midd then do
    let c ← h.load current
    return .inl c.next
  else return .inr ()

/-- `insert_at_middle`. -/
def insertAtMiddle (fuel : Nat) (s : ListState) (midd : Option Nat) (newValue : Int) :
    Except Stop ListState := do
  let (newNode, h) := s.heap.malloc ⟨newValue, none⟩
  loop (seekTurn h midd) fuel s.head
  let c ← h.load midd
  let h ← h.setNext (some newNode) c.next
  let h ← h.setNext midd (some newNode)
  return ⟨h, s.head⟩

/-- While `fast_ptr` has `ys` ahead of it, `slow_ptr` has half as many nodes to go. -/
theorem loop_middle {fast slow : Option Nat} {zs : List (Nat × Int)} (hfast : Seg h.cell fast ys none)
    (hslow : Seg h.cell slow (xs ++ (i, v) :: zs) none) (hl : xs.length = ys.length / 2) (k : Nat) :
    loop (middleTurn h) (xs.length + (k + 1)) (fast, slow) = .ok (some i) := by
  induction xs generalizing fast slow ys with
  | nil =>
    obtain ⟨rfl, _⟩ := hslow
    cases ys with
    | nil => obtain rfl := hfast; exact loop_done rfl
    | cons y ys =>
      cases ys with
      | nil =>
        obtain ⟨rfl, n, hc, rfl⟩ := hfast
        exact loop_done (by simp [middleTurn, Heap.load_live hc])
      | cons z ys => simp only [List.length_cons, List.length_nil] at hl; omega
  | cons x xs ih =>
    obtain ⟨rfl, n, hcx, hslow⟩ := hslow
    match ys, hfast with
    | [], _ => simp at hl
    | [_], _ => simp at hl
    | y :: z :: ys, hfast =>
      obtain ⟨rfl, m, hcy, rfl, l, hcz, hfast⟩ := hfast
      have hturn : middleTurn h (some y.1, some x.1) = .ok (.inl (l, n)) := by
        simp [middleTurn, Heap.load_live hcy, Heap.load_live hcz, Heap.load_live hcx]
      rw [loop_again_cons hturn]
      exact ih hfast hslow (by simp only [List.length_cons] at hl; omega)

/-- `search_middle` returns node `n / 2`, counted from 0. -/
theorem searchMiddle_spec (ho : Holds s (xs ++ (i, v) :: ys))
    (hl : xs.length = (xs ++ (i, v) :: ys).length / 2) {fuel : Nat} (hf : xs.length < fuel) :
    searchMiddle fuel s = .ok (some i) := by
  obtain ⟨h, head⟩ := s
  obtain ⟨k, rfl⟩ := exists_fuel hf
  obtain ⟨a, rfl⟩ : ∃ a, head = some a := seg_head ho.chain (by simp)
  exact loop_middle ho.chain ho.chain hl k

/-- A chain splits at each of its positions. -/
theorem exists_split {k : Nat} (hk : k < xs.length) : ∃ as i v bs, xs = as ++ (i, v) :: bs ∧ as.length = k := by
  obtain ⟨as, ⟨i, v⟩, bs, hxs, hl⟩ := exists_index hk
  exact ⟨as, i, v, bs, hxs, hl⟩

/-- A non-empty chain splits at its middle. -/
theorem exists_middle (hne : xs ≠ []) : ∃ as i v bs, xs = as ++ (i, v) :: bs ∧ as.length = xs.length / 2 := by
  have hpos := List.length_pos_iff.mpr hne
  exact exists_split (by omega)

/-- The walk of `insert_at_middle` reaches the node it looks for. -/
theorem loop_seek (hs : Seg h.cell p (xs ++ (i, v) :: ys) q) (hi : i ∉ ids xs) (k : Nat) :
    loop (seekTurn h (some i)) (xs.length + (k + 1)) p = .ok () := by
  obtain ⟨m, hx, rfl, _⟩ := seg_append.mp hs
  rw [loop_seg (fun _ p => p) hx (fun j w l _ hj hcj => ?_) (k + 1) none]
  · exact loop_done (by simp [seekTurn])
  · have hne : j ≠ i := fun e => hi (e ▸ List.mem_map_of_mem hj)
    simp [seekTurn, hne, Heap.load_live hcj]

/-- `insert_at_middle` puts the new node behind the node it is given. -/
theorem insertAtMiddle_spec (ho : Holds s (xs ++ (i, v) :: ys)) (w : Int) :
    ∃ s', (∀ fuel, xs.length < fuel → insertAtMiddle fuel s (some i) w = .ok s') ∧
      Holds s' (xs ++ (i, v) :: (s.heap.nodes.length, w) :: ys) := by
  obtain ⟨h, head⟩ := s
  have hn := ho.fresh_notMem
  have hnd := ho.ids_nodup
  simp only [ids_append, ids_cons, List.mem_append, List.mem_cons, not_or] at hn
  simp only [ids_append, ids_cons, List.nodup_append] at hnd
  have hix : i ∉ ids xs := fun hm => hnd.2.2 i hm i (by simp) rfl
  obtain ⟨_, _, rfl, n, hc, _⟩ := seg_append.mp ho.chain
  refine ⟨⟨(h.extend ⟨w, n⟩).relink i (some h.nodes.length), head⟩, fun fuel hf => ?_, owns_insertAfter ho hc w⟩
  obtain ⟨k, rfl⟩ := exists_fuel hf
  simp [insertAtMiddle, Heap.malloc, loop_seek (seg_extend ho.chain _) hix, Heap.load_live (Heap.cell_extend hc _),
    Heap.setNext_live (Heap.cell_extend_new hn.1 _), Heap.extend_relink_new,
    Heap.setNext_live (Heap.cell_extend hc _)]

/-- On the empty list there is no middle, and `insert_at_middle` dereferences `NULL`. -/
theorem insertAtMiddle_null (hs : s.head = none) (w : Int) (fuel : Nat) :
    insertAtMiddle (fuel + 1) s none w = .error .nullDeref := by
  have hl : loop (seekTurn (s.heap.extend ⟨w, none⟩) none) (fuel + 1) s.head = .ok () := by
    rw [hs]; exact loop_done (by simp [seekTurn])
  simp [insertAtMiddle, Heap.malloc, hl]

end SideWork.LinkedList
