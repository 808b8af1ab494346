import Mathlib.Data.List.Rotate
import SideWork.LinkedList.Insert

/-!
# Relinking a list: `reverse` and `move_tail_to_head`

Neither allocates nor frees; both only write `next` fields and `head`.

- `reverse_seg`, `reverse_null`: the same nodes in reverse order; the empty list is dereferenced;
- `reverse_twice`, `reverse_appendAll`: a second call restores the heap; what an appended list becomes;
- `moveTailToHead_seg`, `moveTailToHead_short`: the last node comes first; lists of at most one node are unchanged;
- `moves_spec`: any number of moves, by `tailFirst` on lists.
-/

namespace SideWork.LinkedList

variable {h : Heap Int} {s : ListState} {p q : Option Nat} {i j : Nat} {v w : Int} {xs ys : List (Nat × Int)}

/-- With the same chain again, everything is as it was. -/
theorem state_eq {s' : ListState} (hr : Relinked s.heap s'.heap (ids xs)) (hs : Seg s.heap.cell s.head xs none)
    (hs' : Seg s'.heap.cell s'.head xs none) : s' = s := by
  obtain ⟨hheap, hhead⟩ := hr.eq_of_seg hs hs'
  obtain ⟨h, head⟩ := s
  obtain ⟨h', head'⟩ := s'
  obtain rfl : h' = h := hheap
  obtain rfl : head' = head := hhead
  rfl

/-! ## `reverse` -/

/-- One turn of `while (current != NULL)`, with `prev_one` and `current`. -/
def reverseTurn : Heap Int × Option Nat × Option Nat →
    Except Stop (Heap Int × Option Nat × Option Nat ⊕ Heap Int × Option Nat)
  | (h, prevOne, none) => return .inr (h, prevOne)
  | (h, prevOne, some i) => do
    let nextOne ← h.load (some i)
    let h ← h.setNext (some i) prevOne
    return .inl (h, some i, nextOne.next)

/-- `reverse`, which reads `(*head_ref)->next` before it tests `*head_ref`. -/
def reverse (fuel : Nat) (s : ListState) : Except Stop ListState := do
  let _ ← s.heap.load s.head
  match s.head with
  | none => return s
  | some _ =>
    let (h, prevOne) ← loop reverseTurn fuel (s.heap, none, s.head)
    return ⟨h, prevOne⟩

/-- The nodes already turned around, `xs`, and the nodes still to come, `ys`. -/
theorem loop_reverse (hx : Seg h.cell p xs none) (hy : Seg h.cell q ys none) (hnd : (ids ys ++ ids xs).Nodup) :
    ∃ h' r, (∀ fuel, ys.length < fuel → loop reverseTurn fuel (h, p, q) = .ok (h', r)) ∧
      Seg h'.cell r (ys.reverse ++ xs) none ∧ Relinked h h' (ids ys) := by
  induction ys generalizing h p q xs with
  | nil =>
    obtain rfl := hy
    refine ⟨h, p, fun fuel hf => ?_, hx, Relinked.refl h _⟩
    obtain ⟨f, rfl⟩ := exists_succ hf
    exact loop_done rfl
  | cons y ys ih =>
    obtain ⟨i, v⟩ := y
    obtain ⟨rfl, n, hc, hy⟩ := hy
    simp only [ids_cons, List.cons_append, List.nodup_cons, List.mem_append, not_or] at hnd
    obtain ⟨⟨hiy, hix⟩, hnd⟩ := hnd
    have hx' : Seg (h.relink i p).cell (some i) ((i, v) :: xs) none :=
      ⟨rfl, p, Heap.cell_relink_self hc, seg_relink hix hx⟩
    have hnd' : (ids ys ++ ids ((i, v) :: xs)).Nodup := by
      rw [ids_cons]
      exact List.nodup_middle.mpr (List.nodup_cons.mpr ⟨by simp [hiy, hix], hnd⟩)
    have hturn : reverseTurn (h, p, some i) = .ok (.inl (h.relink i p, some i, n)) := by
      simp [reverseTurn, Heap.load_live hc, Heap.setNext_live hc]
    obtain ⟨h', r, hl, hs, hrest⟩ := ih hx' (seg_relink hiy hy) hnd'
    refine ⟨h', r, loop_again_of_lt hturn hl, by simpa using hs, ?_⟩
    exact (Relinked.relink List.mem_cons_self p).trans (hrest.mono (List.subset_cons_self _ _))

/-- `reverse` links the nodes of a chain in reverse order, whatever else is on the heap. -/
theorem reverse_seg (hs : Seg s.heap.cell s.head xs none) (hne : xs ≠ []) :
    ∃ s', (∀ fuel, xs.length < fuel → reverse fuel s = .ok s') ∧ Seg s'.heap.cell s'.head xs.reverse none ∧
      Relinked s.heap s'.heap (ids xs) := by
  obtain ⟨h, head⟩ := s
  have hnil : Seg h.cell none [] none := rfl
  obtain ⟨h', r, hl, hs', hr⟩ := loop_reverse hnil hs (by simpa using seg_nodup hs)
  refine ⟨⟨h', r⟩, fun fuel hf => ?_, by simpa using hs', hr⟩
  cases xs with
  | nil => exact absurd rfl hne
  | cons x xs =>
    obtain ⟨rfl, n, hc, _⟩ := hs
    simp only [reverse, Heap.load_live hc, ok_bind, hl fuel hf, pure_eq_ok]

theorem reverse_spec (ho : Holds s xs) (hne : xs ≠ []) :
    ∃ s', (∀ fuel, xs.length < fuel → reverse fuel s = .ok s') ∧ Holds s' xs.reverse := by
  obtain ⟨s', hr, hs, hrel⟩ := reverse_seg ho.chain hne
  exact ⟨s', hr, owns_relinked ho hrel hs xs.reverse_perm⟩

/-- A second `reverse` restores the heap and the head. -/
theorem reverse_twice (hs : Seg s.heap.cell s.head xs none) (hne : xs ≠ []) :
    ∃ s', (∀ fuel, xs.length < fuel → reverse fuel s = .ok s') ∧ Seg s'.heap.cell s'.head xs.reverse none ∧
      ∀ fuel, xs.length < fuel → reverse fuel s' = .ok s := by
  obtain ⟨s', hr, hs', hrel⟩ := reverse_seg hs hne
  obtain ⟨s'', hr', hs'', hrel'⟩ := reverse_seg hs' (by simpa using hne)
  rw [List.reverse_reverse] at hs''
  have hback : Relinked s.heap s''.heap (ids xs) :=
    hrel.trans (hrel'.mono fun i hi => by simpa [ids] using hi)
  refine ⟨s', hr, hs', fun fuel hf => ?_⟩
  rw [hr' fuel (by simpa using hf), state_eq hback hs hs'']

/-- `reverse` dereferences the `NULL` head of the empty list. -/
theorem reverse_null (hs : s.head = none) (fuel : Nat) : reverse fuel s = .error .nullDeref := by
  simp [reverse, hs]

/-! ## Building a list -/

/-- `append` of one value after the other. -/
def appendAll (fuel : Nat) (s : ListState) (vs : List Int) : Except Stop ListState := vs.foldlM (append fuel) s

/-- `insert_to_head` of one value after the other. -/
def insertAllToHead (s : ListState) (vs : List Int) : Except Stop ListState := vs.foldlM insertToHead s

theorem appendAll_spec (ho : Holds s xs) (vs : List Int) :
    ∃ s' ys, (∀ fuel, xs.length + vs.length < fuel → appendAll fuel s vs = .ok s') ∧ Holds s' (xs ++ ys) ∧
      vals ys = vs := by
  induction vs generalizing s xs with
  | nil => exact ⟨s, [], fun _ _ => rfl, by simpa using ho, rfl⟩
  | cons v vs ih =>
    obtain ⟨s₁, hr, ho₁⟩ := append_spec ho v
    obtain ⟨s', ys, hrest, ho', hv⟩ := ih ho₁
    refine ⟨s', (s.heap.nodes.length, v) :: ys, fun fuel hf => ?_, by simpa using ho', by rw [vals_cons, hv]⟩
    rw [List.length_cons] at hf
    rw [appendAll, List.foldlM_cons, hr fuel (by omega), ok_bind]
    exact hrest fuel (by simp only [List.length_append, List.length_singleton]; omega)

theorem insertAllToHead_spec (ho : Holds s xs) (vs : List Int) :
    ∃ s' ys, insertAllToHead s vs = .ok s' ∧ Holds s' (ys ++ xs) ∧ vals ys = vs.reverse := by
  induction vs generalizing s xs with
  | nil => exact ⟨s, [], rfl, ho, rfl⟩
  | cons v vs ih =>
    obtain ⟨s₁, hr, ho₁⟩ := insertToHead_spec ho v
    obtain ⟨s', ys, hrest, ho', hv⟩ := ih ho₁
    refine ⟨s', ys ++ [(s.heap.nodes.length, v)], ?_, by simpa using ho', by simp [hv]⟩
    rw [insertAllToHead, List.foldlM_cons, hr, ok_bind]
    exact hrest

/-- A list that is appended and reversed holds the values as `insert_to_head` builds them. -/
theorem reverse_appendAll {vs : List Int} (hne : vs ≠ []) :
    ∃ s₁ s₂ s₃ ys zs, Ends (fun fuel => appendAll fuel initial vs) (.ok s₁) ∧
      Ends (fun fuel => reverse fuel s₁) (.ok s₂) ∧ insertAllToHead initial vs = .ok s₃ ∧ Holds s₂ ys ∧ Holds s₃ zs ∧
      vals ys = vals zs := by
  have ho : Holds initial [] := owns_empty
  obtain ⟨s₁, xs, h₁, ho₁, hx⟩ := appendAll_spec ho vs
  obtain ⟨s₃, zs, h₃, ho₃, hz⟩ := insertAllToHead_spec ho vs
  rw [List.nil_append] at ho₁
  rw [List.append_nil] at ho₃
  obtain ⟨s₂, h₂, ho₂⟩ := reverse_spec ho₁ (fun h => hne (by rw [← hx, h]; rfl))
  refine ⟨s₁, s₂, s₃, xs.reverse, zs, ends_of_lt _ h₁, ends_of_lt _ h₂, h₃, ho₂, ho₃, ?_⟩
  rw [hz, ← hx, vals, vals, List.map_reverse]

/-- **`reverse` turns the chain around, twice gives back every `next` and the head, and it makes of an appended list what
`insert_to_head` builds.** -/
theorem reverse_laws :
    (∀ (s : ListState) (xs : List (Nat × Int)), Seg s.heap.cell s.head xs none → xs ≠ [] →
      ∃ s', Ends (fun fuel => reverse fuel s) (.ok s') ∧ Seg s'.heap.cell s'.head xs.reverse none ∧
        Ends (fun fuel => reverse fuel s') (.ok s)) ∧
    ∀ vs : List Int, vs ≠ [] →
      ∃ s₁ s₂ s₃ ys zs, Ends (fun fuel => appendAll fuel initial vs) (.ok s₁) ∧
        Ends (fun fuel => reverse fuel s₁) (.ok s₂) ∧ insertAllToHead initial vs = .ok s₃ ∧ Holds s₂ ys ∧ Holds s₃ zs ∧
        vals ys = vals zs := by
  refine ⟨fun s xs hs hne => ?_, fun vs hne => reverse_appendAll hne⟩
  obtain ⟨s', hr, hs', hr'⟩ := reverse_twice hs hne
  exact ⟨s', ends_of_lt _ hr, hs', ends_of_lt _ hr'⟩

/-- On the list 11, 12. -/
theorem reverse_laws_pair :
    ∃ s', Ends (fun fuel => reverse fuel ⟨⟨[⟨11, some 1⟩, ⟨12, none⟩], []⟩, some 0⟩) (.ok s') ∧
      Seg s'.heap.cell s'.head [(1, 12), (0, 11)] none ∧
      Ends (fun fuel => reverse fuel s') (.ok ⟨⟨[⟨11, some 1⟩, ⟨12, none⟩], []⟩, some 0⟩) := by
  have hs : Seg (Heap.mk [⟨(11 : Int), some 1⟩, ⟨12, none⟩] []).cell (some 0) [(0, 11), (1, 12)] none :=
    ⟨rfl, _, rfl, rfl, _, rfl, rfl⟩
  exact reverse_laws.1 ⟨⟨[⟨11, some 1⟩, ⟨12, none⟩], []⟩, some 0⟩ _ hs (by simp)

/-! ## `move_tail_to_head` -/

/-- `while (current->next != NULL) { prev = current; current = current->next; }` -/
def tailTurn (h : Heap Int) : Option Nat × Option Nat →
    Except Stop (Option Nat × Option Nat ⊕ Option Nat × Option Nat)
  | (prev, current) => do
    let c ← h.load current
    match c.next with
    | none => return .inr (prev, current)
    | some n => return .inl (current, some n)

/-- `move_tail_to_head`. -/
def moveTailToHead (fuel : Nat) (s : ListState) : Except Stop ListState :=
  match s.head with
  | none => return s
  | some a => do
    let c ← s.heap.load (some a)
    match c.next with
    | none => return s
    | some _ =>
      let (prev, current) ← loop (tailTurn s.heap) fuel (none, some a)
      let h ← s.heap.setNext current (some a)
      let h ← h.setNext prev none
      return ⟨h, current⟩

/-- A chain of two nodes or more starts with a node that has a next one. -/
theorem seg_two (hs : Seg h.cell p (xs ++ [(j, w)] ++ [(i, v)]) q) :
    ∃ a b u, p = some a ∧ h.cell a = some ⟨u, some b⟩ := by
  obtain ⟨_, hs, rfl, -⟩ := seg_append.mp hs
  cases xs with
  | nil =>
    obtain ⟨rfl, _, hc, rfl⟩ := hs
    exact ⟨j, i, w, rfl, hc⟩
  | cons x xs =>
    obtain ⟨rfl, m, hc, hrest⟩ := hs
    cases xs with
    | nil => exact ⟨x.1, j, x.2, rfl, hrest.1 ▸ hc⟩
    | cons y xs => exact ⟨x.1, y.1, x.2, rfl, hrest.1 ▸ hc⟩

/-- The loop stops at the last node and the one before it. -/
theorem loop_tail (hs : Seg h.cell p (xs ++ [(j, w)]) (some i))
    (hc : h.cell i = some ⟨v, none⟩) {fuel : Nat} (hf : (xs ++ [(j, w)]).length < fuel) :
    loop (tailTurn h) fuel (none, p) = .ok (some j, some i) := by
  obtain ⟨k, rfl⟩ := exists_fuel hf
  rw [loop_seg (fun prev p => (prev, p)) hs (fun e u m prev he hce => ?_), trail_concat]
  · exact loop_done (by simp [tailTurn, Heap.load_live hc])
  · obtain ⟨b, rfl⟩ := seg_next hs he hce
    simp [tailTurn, Heap.load_live hce]

/-- `move_tail_to_head` puts the last node in front, whatever else is on the heap. -/
theorem moveTailToHead_seg (hs : Seg s.heap.cell s.head (xs ++ [(j, w)] ++ [(i, v)]) none) :
    ∃ s', (∀ fuel, xs.length + 1 < fuel → moveTailToHead fuel s = .ok s') ∧
      Seg s'.heap.cell s'.head ((i, v) :: (xs ++ [(j, w)])) none ∧
      Relinked s.heap s'.heap (ids (xs ++ [(j, w)] ++ [(i, v)])) := by
  obtain ⟨h, head⟩ := s
  have hnd := seg_nodup hs
  simp only [ids_append, ids_cons, ids_nil, List.append_assoc, List.cons_append, List.nil_append, List.nodup_append,
    List.nodup_cons, List.mem_singleton] at hnd
  obtain ⟨hndx, ⟨hji, -⟩, hdis⟩ := hnd
  have hix : i ∉ ids (xs ++ [(j, w)]) := by
    simp only [ids_append, ids_cons, ids_nil, List.mem_append, List.mem_singleton, not_or]
    exact ⟨fun hm => hdis i hm i (by simp) rfl, Ne.symm hji⟩
  have hjx : j ∉ ids xs := fun hm => hdis j hm j (by simp) rfl
  obtain ⟨a, b, u, rfl, hca⟩ := seg_two hs
  obtain ⟨_, hs, rfl, n, hci, rfl⟩ := seg_append.mp hs
  obtain ⟨_, _, rfl, l, hcj, rfl⟩ := seg_append.mp hs
  have hcj' : (h.relink i (some a)).cell j = some ⟨w, some i⟩ := by rw [Heap.cell_relink_ne hji]; exact hcj
  refine ⟨⟨(h.relink i (some a)).relink j none, some i⟩, fun fuel hf => ?_, ⟨rfl, some a, ?_, ?_⟩, ?_⟩
  · have hloop := loop_tail hs hci (by simpa using hf)
    simp only [moveTailToHead, Heap.load_live hca, ok_bind, hloop, Heap.setNext_live hci, Heap.setNext_live hcj',
      pure_eq_ok]
  · rw [Heap.cell_relink_ne (Ne.symm hji)]
    exact Heap.cell_relink_self hci
  · exact seg_relink_last hjx (seg_relink hix hs)
  · exact (Relinked.relink (by simp) _).trans (Relinked.relink (by simp) _)

theorem moveTailToHead_spec (ho : Holds s (xs ++ [(j, w), (i, v)])) :
    ∃ s', (∀ fuel, xs.length + 1 < fuel → moveTailToHead fuel s = .ok s') ∧ Holds s' ((i, v) :: xs ++ [(j, w)]) := by
  have hsplit : xs ++ [(j, w), (i, v)] = xs ++ [(j, w)] ++ [(i, v)] := by simp
  rw [hsplit] at ho
  obtain ⟨s', hr, hs, hrel⟩ := moveTailToHead_seg ho.chain
  exact ⟨s', hr, owns_relinked ho hrel hs (List.perm_append_singleton _ _).symm⟩

/-- `move_tail_to_head` returns at once for a list of at most one node. -/
theorem moveTailToHead_short (hs : Seg s.heap.cell s.head xs none) (hl : xs.length ≤ 1) (fuel : Nat) :
    moveTailToHead fuel s = .ok s := by
  obtain ⟨h, head⟩ := s
  match xs, hl with
  | [], _ => obtain rfl := hs; rfl
  | [x], _ =>
    obtain ⟨rfl, n, hc, rfl⟩ := hs
    simp [moveTailToHead, Heap.load_live hc]

/-! ## Moving it again and again -/

/-- `move_tail_to_head`, `n` times. -/
def moves (fuel : Nat) : Nat → ListState → Except Stop ListState
  | 0, s => .ok s
  | n + 1, s => moveTailToHead fuel s >>= moves fuel n

/-- A list with its last element in front. -/
def tailFirst (xs : List (Nat × Int)) : List (Nat × Int) := xs.getLast?.toList ++ xs.dropLast

theorem tailFirst_concat (xs : List (Nat × Int)) (x : Nat × Int) : tailFirst (xs ++ [x]) = x :: xs := by
  simp [tailFirst]

theorem tailFirst_short (hl : xs.length ≤ 1) : tailFirst xs = xs := by
  match xs, hl with
  | [], _ => rfl
  | [x], _ => rfl

/-- Moving the tail to the head undoes a rotation to the left. -/
theorem rotate_tailFirst (xs : List (Nat × Int)) : (tailFirst xs).rotate 1 = xs := by
  rcases nil_or_concat xs with rfl | ⟨ys, i, v, rfl⟩
  · rfl
  · rw [tailFirst_concat, List.rotate_cons_succ, List.rotate_zero]

theorem tailFirst_perm (xs : List (Nat × Int)) : (tailFirst xs).Perm xs := by
  have h := List.rotate_perm (tailFirst xs) 1
  rw [rotate_tailFirst] at h
  exact h.symm

theorem tailFirst_iterate_perm (n : Nat) (xs : List (Nat × Int)) : (tailFirst^[n] xs).Perm xs := by
  induction n with
  | zero => exact List.Perm.refl _
  | succ n ih =>
    rw [Function.iterate_succ_apply']
    exact (tailFirst_perm _).trans ih

/-- As many moves as there are nodes give back the list. -/
theorem tailFirst_iterate_length (xs : List (Nat × Int)) : tailFirst^[xs.length] xs = xs := by
  have hrot : ∀ n, (tailFirst^[n] xs).rotate n = xs := by
    intro n
    induction n with
    | zero => exact List.rotate_zero _
    | succ n ih =>
      rw [Function.iterate_succ_apply', Nat.add_comm, ← List.rotate_rotate, rotate_tailFirst, ih]
  calc tailFirst^[xs.length] xs
      = (tailFirst^[xs.length] xs).rotate (tailFirst^[xs.length] xs).length := (List.rotate_length _).symm
    _ = (tailFirst^[xs.length] xs).rotate xs.length := by rw [(tailFirst_iterate_perm xs.length xs).length_eq]
    _ = xs := hrot xs.length

/-- One call, on every chain. -/
theorem moveTailToHead_tailFirst (hs : Seg s.heap.cell s.head xs none) :
    ∃ s', (∀ fuel, xs.length < fuel → moveTailToHead fuel s = .ok s') ∧ Seg s'.heap.cell s'.head (tailFirst xs) none ∧
      Relinked s.heap s'.heap (ids xs) := by
  by_cases hl : xs.length ≤ 1
  · rw [tailFirst_short hl]
    exact ⟨s, fun fuel _ => moveTailToHead_short hs hl fuel, hs, Relinked.refl _ _⟩
  · obtain ⟨zs, j, w, i, v, rfl⟩ := exists_last_two (not_le.mp hl)
    obtain ⟨s', hr, hs', hrel⟩ := moveTailToHead_seg hs
    rw [tailFirst_concat]
    refine ⟨s', fun fuel hf => hr fuel ?_, hs', hrel⟩
    simp only [List.length_append, List.length_singleton] at hf
    omega

theorem moves_spec (hs : Seg s.heap.cell s.head xs none) (n : Nat) :
    ∃ s', (∀ fuel, xs.length < fuel → moves fuel n s = .ok s') ∧ Seg s'.heap.cell s'.head (tailFirst^[n] xs) none ∧
      Relinked s.heap s'.heap (ids xs) := by
  induction n generalizing s xs with
  | zero => exact ⟨s, fun _ _ => rfl, hs, Relinked.refl _ _⟩
  | succ n ih =>
    obtain ⟨s₁, hr, hs₁, hrel⟩ := moveTailToHead_tailFirst hs
    obtain ⟨s', hrest, hs', hrel'⟩ := ih hs₁
    have hperm := tailFirst_perm xs
    refine ⟨s', fun fuel hf => ?_, hs', hrel.trans (hrel'.mono (hperm.map _).subset)⟩
    rw [moves, hr fuel hf, ok_bind]
    exact hrest fuel (by rwa [hperm.length_eq])

/-- **`move_tail_to_head` rotates the list**: the last node comes first, after every call the chain ends in `NULL`, and
after as many calls as there are nodes everything is as before. -/
theorem moveTailToHead_rotates (hs : Seg s.heap.cell s.head xs none) :
    (∃ s', Ends (fun fuel => moveTailToHead fuel s) (.ok s') ∧ (xs.length ≤ 1 → s' = s) ∧
      ∀ ys x, xs = ys ++ [x] → Seg s'.heap.cell s'.head (x :: ys) none) ∧
    (∀ n, ∃ s' ys, Ends (fun fuel => moves fuel n s) (.ok s') ∧ Seg s'.heap.cell s'.head ys none ∧ ys.Perm xs) ∧
    Ends (fun fuel => moves fuel xs.length s) (.ok s) := by
  refine ⟨?_, fun n => ?_, ?_⟩
  · obtain ⟨s', hr, hs', hrel⟩ := moveTailToHead_tailFirst hs
    refine ⟨s', ends_of_lt _ hr, fun hl => ?_, ?_⟩
    · rw [tailFirst_short hl] at hs'
      exact state_eq hrel hs hs'
    · rintro ys x rfl
      rwa [tailFirst_concat] at hs'
  · obtain ⟨s', hr, hs', -⟩ := moves_spec hs n
    exact ⟨s', _, ends_of_lt _ hr, hs', tailFirst_iterate_perm n xs⟩
  · obtain ⟨s', hr, hs', hrel⟩ := moves_spec hs xs.length
    rw [tailFirst_iterate_length] at hs'
    rw [state_eq hrel hs hs'] at hr
    exact ends_of_lt _ hr

/-- Two moves of the list 11, 12. -/
theorem moves_pair : Ends (fun fuel => moves fuel 2 ⟨⟨[⟨11, some 1⟩, ⟨12, none⟩], []⟩, some 0⟩)
    (.ok ⟨⟨[⟨11, some 1⟩, ⟨12, none⟩], []⟩, some 0⟩) := by
  have hs : Seg (Heap.mk [⟨(11 : Int), some 1⟩, ⟨12, none⟩] []).cell (some 0) [(0, 11), (1, 12)] none :=
    ⟨rfl, _, rfl, rfl, _, rfl, rfl⟩
  exact (moveTailToHead_rotates (s := ⟨⟨[⟨11, some 1⟩, ⟨12, none⟩], []⟩, some 0⟩) hs).2.2

end SideWork.LinkedList
