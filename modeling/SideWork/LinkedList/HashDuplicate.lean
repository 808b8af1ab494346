import SideWork.LinkedList.Delete
import SideWork.LinkedList.HashTable

/-!
# `delete_duplicate_using_hash`

The walk keeps a node exactly when the slot of its value is not marked yet (`kept`, `deleteDuplicateUsingHash_spec`).
`find_item` looks at the mark and not at the stored value, so a node is also dropped when a different value with the
same remainder came before it: with a fresh table nothing is lost if and only if the values of the list are
different modulo `CAPACITY` whenever they are different (`deleteDuplicateUsingHash_lossless_iff`). What is left never
holds a value twice (`deleteDuplicateUsingHash_unique`). A negative value that is no multiple of `CAPACITY` makes the walk
leave the table (`deleteDuplicateUsingHash_inside_iff`).
-/

namespace SideWork.LinkedList

/-- One turn of `while (current->next != NULL)`. -/
def hashTurn : Heap Int × Table × Option Nat → Except Stop (Heap Int × Table × Option Nat ⊕ Heap Int × Table)
  | (h, tb, current) => do
    let c ← h.load current
    match c.next with
    | none => return .inr (h, tb)
    | some d =>
      let n ← h.load (some d)
      let found ← findItem tb n.value
      if found ≠ 0 then
        let h ← h.setNext current n.next
        let h ← h.free (some d)
        return .inl (h, tb, current)
      else
        let tb ← insertItem tb n.value
        return .inl (h, tb, some d)

/-- `delete_duplicate_using_hash`. -/
def deleteDuplicateUsingHash (fuel : Nat) (s : ListState) (tb : Table) : Except Stop (ListState × Table) :=
  match s.head with
  | none => return (s, tb)
  | some a => do
    let c ← s.heap.load (some a)
    let tb ← insertItem tb c.value
    let (h, tb) ← loop hashTurn fuel (s.heap, tb, some a)
    return (⟨h, some a⟩, tb)

variable {h : Heap Int} {s : ListState} {p : Option Nat} {i : Nat} {v : Int} {xs ys : List (Nat × Int)} {tb : Table}

/-! ## The nodes that stay -/

/-- The nodes whose slot is unmarked when the walk meets them. -/
def kept : Table → List (Nat × Int) → List (Nat × Int)
  | _, [] => []
  | tb, x :: xs => if tb.has x.2 then kept tb xs else x :: kept (tb.put x.2) xs

theorem kept_sublist (tb : Table) (xs : List (Nat × Int)) : (kept tb xs).Sublist xs := by
  induction xs generalizing tb with
  | nil => exact List.Sublist.refl _
  | cons x xs ih =>
    rw [kept]
    split
    · exact (ih tb).cons _
    · exact (ih _).cons_cons _

section Turns

variable {d : Nat} {w : Int} (ho : Owns h p (xs ++ (i, v) :: (d, w) :: ys))
include ho

/-- A turn on a next node whose slot is marked unlinks it. -/
theorem hashTurn_found (hw : Indexed w) (hh : tb.has w = true) :
    ∃ h', hashTurn (h, tb, some i) = .ok (.inl (h', tb, some i)) ∧ Owns h' p (xs ++ (i, v) :: ys) := by
  obtain ⟨_, _, rfl, m, hc, rfl, n, hd, _⟩ := seg_append.mp ho.chain
  obtain ⟨hset, hfree⟩ := unlink_spec ho hd
  refine ⟨(h.relink i n).release d, ?_, owns_removeAfter ho hd⟩
  simp [hashTurn, Heap.load_live hc, Heap.load_live hd, findItem_eq tb hw, hh, hset, hfree]

/-- A turn on any other next node marks its slot and moves on. -/
theorem hashTurn_new (hw : Indexed w) (hh : ¬ tb.has w = true) :
    hashTurn (h, tb, some i) = .ok (.inl (h, tb.put w, some d)) := by
  obtain ⟨_, _, rfl, m, hc, rfl, n, hd, _⟩ := seg_append.mp ho.chain
  simp [hashTurn, Heap.load_live hc, Heap.load_live hd, findItem_eq tb hw, hh, insertItem_eq tb hw]

/-- A turn on a next node whose value has no slot leaves the table. -/
theorem hashTurn_outside (hw : ¬ Indexed w) : hashTurn (h, tb, some i) = .error .outOfBounds := by
  obtain ⟨_, _, rfl, m, hc, rfl, n, hd, _⟩ := seg_append.mp ho.chain
  simp [hashTurn, Heap.load_live hc, Heap.load_live hd, findItem_outside tb hw]

end Turns

theorem loop_hash (tb : Table) (ho : Owns h p (xs ++ (i, v) :: ys)) (hv : ∀ u ∈ vals ys, Indexed u) :
    ∃ h' tb', (∀ fuel, ys.length < fuel → loop hashTurn fuel (h, tb, some i) = .ok (h', tb')) ∧
      Owns h' p (xs ++ (i, v) :: kept tb ys) := by
  induction ys generalizing h xs i v tb with
  | nil =>
    obtain ⟨_, _, rfl, n, hc, rfl⟩ := seg_append.mp ho.chain
    refine ⟨h, tb, fun fuel hf => ?_, ho⟩
    exact loop_done_of_lt (by simp [hashTurn, Heap.load_live hc]) hf
  | cons y ys ih =>
    obtain ⟨d, w⟩ := y
    have hw : Indexed w := hv w (by simp)
    have hvs : ∀ u ∈ vals ys, Indexed u := fun u hu => hv u (by simp [hu])
    rw [kept]
    by_cases hh : tb.has w = true
    · obtain ⟨h₁, hturn, ho₁⟩ := hashTurn_found ho hw hh
      obtain ⟨h', tb', hl, ho'⟩ := ih tb ho₁ hvs
      rw [if_pos hh]
      exact ⟨h', tb', loop_again_of_lt hturn hl, ho'⟩
    · have ho₂ : Owns h p ((xs ++ [(i, v)]) ++ (d, w) :: ys) := by simpa using ho
      obtain ⟨h', tb', hl, ho'⟩ := ih (tb.put w) ho₂ hvs
      rw [if_neg hh]
      exact ⟨h', tb', loop_again_of_lt (hashTurn_new ho hw hh) hl, by simpa using ho'⟩

/-- The walk leaves the table at the first value that has no slot. -/
theorem loop_hash_outside (tb : Table) (ho : Owns h p (xs ++ (i, v) :: ys)) (hv : ¬ ∀ u ∈ vals ys, Indexed u) :
    ∀ fuel, ys.length < fuel → loop hashTurn fuel (h, tb, some i) = .error .outOfBounds := by
  induction ys generalizing h xs i v tb with
  | nil => exact absurd (fun u hu => absurd hu List.not_mem_nil) hv
  | cons y ys ih =>
    obtain ⟨d, w⟩ := y
    by_cases hw : Indexed w
    · have hvs : ¬ ∀ u ∈ vals ys, Indexed u := fun h => hv (List.forall_mem_cons.mpr ⟨hw, h⟩)
      by_cases hh : tb.has w = true
      · obtain ⟨h₁, hturn, ho₁⟩ := hashTurn_found ho hw hh
        exact loop_again_of_lt hturn (ih tb ho₁ hvs)
      · have ho₂ : Owns h p ((xs ++ [(i, v)]) ++ (d, w) :: ys) := by simpa using ho
        exact loop_again_of_lt (hashTurn_new ho hw hh) (ih (tb.put w) ho₂ hvs)
    · exact fun fuel hf => loop_stop_of_lt (hashTurn_outside ho hw) hf

/-! ## The whole run -/

/-- The values that `insert_item` and `find_item` look up. A full table refuses the first one unseen. -/
def touched (tb : Table) (xs : List (Nat × Int)) : List Int :=
  if tb.sizeUsed > capacity then vals xs.tail else vals xs

theorem touched_cons (tb : Table) (x : Nat × Int) (xs : List (Nat × Int)) :
    (∀ u ∈ touched tb (x :: xs), Indexed u) ↔
      (tb.sizeUsed > capacity ∨ Indexed x.2) ∧ ∀ u ∈ vals xs, Indexed u := by
  rw [touched]
  split
  · next h => simp [h]
  · next h => simp [h]

/-- The first node, and the nodes that `kept` leaves behind it. -/
def left (tb : Table) : List (Nat × Int) → List (Nat × Int)
  | [] => []
  | x :: xs => x :: kept (tb.put x.2) xs

/-- What `delete_duplicate_using_hash` leaves, if every value it looks up has a slot. -/
theorem deleteDuplicateUsingHash_left (ho : Holds s xs) (tb : Table) (hv : ∀ u ∈ touched tb xs, Indexed u) :
    ∃ s' tb', (∀ fuel, xs.length ≤ fuel → deleteDuplicateUsingHash fuel s tb = .ok (s', tb')) ∧
      Holds s' (left tb xs) := by
  obtain ⟨h, head⟩ := s
  cases xs with
  | nil => obtain rfl := ho.chain; exact ⟨_, _, fun _ _ => rfl, ho⟩
  | cons x xs =>
    obtain ⟨hx, hvs⟩ := (touched_cons tb x xs).mp hv
    obtain ⟨rfl, m, hc, _⟩ := ho.chain
    have hins : insertItem tb x.2 = .ok (tb.put x.2) := hx.elim (insertItem_refused · x.2) (insertItem_eq tb)
    have ho₂ : Owns h (some x.1) ([] ++ (x.1, x.2) :: xs) := ho
    obtain ⟨h', tb', hl, ho'⟩ := loop_hash (tb.put x.2) ho₂ hvs
    refine ⟨⟨h', some x.1⟩, tb', fun fuel hf => ?_, ho'⟩
    simp only [deleteDuplicateUsingHash, Heap.load_live hc, ok_bind, hins, hl fuel (by simpa using hf), pure_eq_ok]

/-- It leaves the table if some value it looks up has none. -/
theorem deleteDuplicateUsingHash_outside (ho : Holds s xs) (tb : Table) (hv : ¬ ∀ u ∈ touched tb xs, Indexed u)
    {fuel : Nat} (hf : xs.length ≤ fuel) : deleteDuplicateUsingHash fuel s tb = .error .outOfBounds := by
  obtain ⟨h, head⟩ := s
  cases xs with
  | nil => simp [touched] at hv
  | cons x xs =>
    rw [touched_cons] at hv
    obtain ⟨rfl, m, hc, _⟩ := ho.chain
    simp only [deleteDuplicateUsingHash, Heap.load_live hc, ok_bind]
    by_cases hx : tb.sizeUsed > capacity ∨ Indexed x.2
    · have hins : insertItem tb x.2 = .ok (tb.put x.2) := hx.elim (insertItem_refused · x.2) (insertItem_eq tb)
      have ho₂ : Owns h (some x.1) ([] ++ (x.1, x.2) :: xs) := ho
      have hl := loop_hash_outside (tb.put x.2) ho₂ (fun h => hv ⟨hx, h⟩) fuel (by simpa using hf)
      rw [hins, ok_bind, hl, error_bind]
    · obtain ⟨hfull, hw⟩ := not_or.mp hx
      rw [insertItem_outside hfull hw, error_bind]

/-- With an unmarked table, `delete_duplicate_using_hash` leaves the kept nodes, whatever `size_used` is. -/
theorem deleteDuplicateUsingHash_spec (ho : Holds s xs) (hv : ∀ u ∈ vals xs, 0 ≤ u) (n : Int) :
    ∃ s' tb', (∀ fuel, xs.length ≤ fuel → deleteDuplicateUsingHash fuel s (initTable n) = .ok (s', tb')) ∧
      Holds s' (kept (initTable n) xs) := by
  have hleft : left (initTable n) xs = kept (initTable n) xs := by
    cases xs with
    | nil => rfl
    | cons x xs => rw [left, kept, has_initTable, if_neg (by decide)]
  rw [← hleft]
  refine deleteDuplicateUsingHash_left ho _ fun u hu => Or.inl (hv u ?_)
  cases xs with
  | nil => simp [touched] at hu
  | cons x xs =>
    rw [touched] at hu
    split at hu
    · exact List.mem_cons_of_mem _ hu
    · exact hu

/-! ## What is lost -/

/-- The table marks exactly the slots of the values `seen`. -/
structure Marks (tb : Table) (seen : List Int) : Prop where
  counted : tb.Counted
  has_iff : ∀ v, tb.has v = true ↔ ∃ u ∈ seen, slotOf v = slotOf u

theorem marks_initTable : Marks (initTable 0) [] := ⟨counted_initTable, fun v => by simp [has_initTable]⟩

theorem Marks.put {seen : List Int} (hm : Marks tb seen) (v : Int) : Marks (tb.put v) (v :: seen) := by
  refine ⟨counted_put hm.counted v, fun u => ?_⟩
  rw [has_put hm.counted, hm.has_iff]
  simp only [List.mem_cons, exists_eq_or_imp]
  exact Or.comm

/-- Kept nodes have slots that were unmarked, and different ones. -/
theorem kept_pairwise {seen : List Int} (hm : Marks tb seen) :
    (∀ x ∈ kept tb xs, ∀ u ∈ seen, slotOf x.2 ≠ slotOf u) ∧
      (kept tb xs).Pairwise fun x y => slotOf x.2 ≠ slotOf y.2 := by
  induction xs generalizing tb seen with
  | nil => exact ⟨fun x hx => absurd hx List.not_mem_nil, List.Pairwise.nil⟩
  | cons y ys ih =>
    rw [kept]
    by_cases hh : tb.has y.2 = true
    · rw [if_pos hh]; exact ih hm
    · rw [if_neg hh]
      obtain ⟨h₁, h₂⟩ := ih (hm.put y.2)
      constructor
      · intro x hx u hu
        rcases List.mem_cons.mp hx with rfl | hx
        · intro e; exact hh ((hm.has_iff _).mpr ⟨u, hu, e⟩)
        · exact h₁ x hx u (by simp [hu])
      · exact List.pairwise_cons.mpr ⟨fun x hx e => h₁ x hx y.2 (by simp) e.symm, h₂⟩

/-- A node is kept, or its slot was marked by a value seen before or kept before it. -/
theorem kept_or_marked {seen : List Int} (hm : Marks tb seen) (as bs : List (Nat × Int)) (x : Nat × Int) :
    x ∈ kept tb (as ++ x :: bs) ∨ (∃ u ∈ seen, slotOf x.2 = slotOf u) ∨
      ∃ y ∈ as, y ∈ kept tb (as ++ x :: bs) ∧ slotOf x.2 = slotOf y.2 := by
  induction as generalizing tb seen with
  | nil =>
    rw [List.nil_append, kept]
    by_cases hh : tb.has x.2 = true
    · exact Or.inr (Or.inl ((hm.has_iff _).mp hh))
    · rw [if_neg hh]; exact Or.inl List.mem_cons_self
  | cons y as ih =>
    rw [List.cons_append, kept]
    by_cases hh : tb.has y.2 = true
    · rw [if_pos hh]
      rcases ih hm with h | h | ⟨z, hz, hk, he⟩
      · exact Or.inl h
      · exact Or.inr (Or.inl h)
      · exact Or.inr (Or.inr ⟨z, List.mem_cons_of_mem _ hz, hk, he⟩)
    · rw [if_neg hh]
      rcases ih (hm.put y.2) with h | ⟨u, hu, he⟩ | ⟨z, hz, hk, he⟩
      · exact Or.inl (List.mem_cons_of_mem _ h)
      · rcases List.mem_cons.mp hu with rfl | hu
        · exact Or.inr (Or.inr ⟨y, List.mem_cons_self, List.mem_cons_self, he⟩)
        · exact Or.inr (Or.inl ⟨u, hu, he⟩)
      · exact Or.inr (Or.inr ⟨z, List.mem_cons_of_mem _ hz, List.mem_cons_of_mem _ hk, he⟩)

/-- Every value of `xs` occurs in `zs`, and a node of `xs` that is not in `zs` has an earlier node with the same value
that is. -/
def Lossless (xs zs : List (Nat × Int)) : Prop :=
  (∀ v ∈ vals xs, v ∈ vals zs) ∧
    ∀ as x bs, xs = as ++ x :: bs → x ∉ zs → ∃ y ∈ as, y ∈ zs ∧ y.2 = x.2

/-- No two different values share a slot. -/
def SlotsApart (vs : List Int) : Prop := ∀ u ∈ vs, ∀ v ∈ vs, u % capacity = v % capacity → u = v

/-- Nothing is lost if and only if no two different values of the list share a slot. -/
theorem lossless_kept_iff (xs : List (Nat × Int)) :
    Lossless xs (kept (initTable 0) xs) ↔ SlotsApart (vals xs) := by
  constructor
  · rintro ⟨hall, -⟩ u hu v hv he
    obtain ⟨x, hx, rfl⟩ := List.mem_map.mp (hall u hu)
    obtain ⟨y, hy, rfl⟩ := List.mem_map.mp (hall v hv)
    by_contra hne
    have hxy : x ≠ y := fun e => hne (by rw [e])
    have hsymm : Std.Symm fun x y : Nat × Int => slotOf x.2 ≠ slotOf y.2 := ⟨fun _ _ h => h.symm⟩
    exact (kept_pairwise marks_initTable).2.forall hx hy hxy (slotOf_eq_iff.mpr he)
  · intro hs
    have hearlier : ∀ as x bs, xs = as ++ x :: bs → x ∉ kept (initTable 0) xs →
        ∃ y ∈ as, y ∈ kept (initTable 0) xs ∧ y.2 = x.2 := by
      rintro as x bs rfl hx
      rcases kept_or_marked marks_initTable as bs x with h | ⟨u, hu, -⟩ | ⟨y, hy, hk, he⟩
      · exact absurd h hx
      · cases hu
      · exact ⟨y, hy, hk, (hs _ (by simp) _ (by simp [List.mem_map_of_mem hy, vals]) (slotOf_eq_iff.mp he)).symm⟩
    refine ⟨fun v hv => ?_, hearlier⟩
    obtain ⟨x, hx, rfl⟩ := List.mem_map.mp hv
    by_cases hk : x ∈ kept (initTable 0) xs
    · exact List.mem_map_of_mem hk
    · obtain ⟨as, bs, rfl⟩ := List.append_of_mem hx
      obtain ⟨y, -, hyk, hyx⟩ := hearlier as x bs rfl hk
      exact hyx ▸ List.mem_map_of_mem hyk

/-- **What `delete_duplicate_using_hash` loses.** -/
theorem deleteDuplicateUsingHash_lossless_iff (ho : Holds s xs) (hv : ∀ u ∈ vals xs, 0 ≤ u) :
    ∃ s' tb' zs, Ends (fun fuel => deleteDuplicateUsingHash fuel s (initTable 0)) (.ok (s', tb')) ∧
      Holds s' zs ∧ (Lossless xs zs ↔ SlotsApart (vals xs)) := by
  obtain ⟨s', tb', hr, ho'⟩ := deleteDuplicateUsingHash_spec ho hv 0
  exact ⟨s', tb', _, ⟨_, hr⟩, ho', lossless_kept_iff xs⟩

/-- The list 1, 21 as `append` builds it. -/
def collidingList : ListState := ⟨⟨[⟨1, some 1⟩, ⟨21, none⟩], []⟩, some 0⟩

theorem holds_collidingList : Holds collidingList [(0, 1), (1, 21)] :=
  ⟨⟨rfl, _, rfl, rfl, _, rfl, rfl⟩, by decide⟩

/-- On the list 1, 21 the run ends with the value 21 gone, although it occurred once. -/
theorem collidingList_loses : Holds collidingList [(0, 1), (1, 21)] ∧
    ∃ s' tb', Ends (fun fuel => deleteDuplicateUsingHash fuel collidingList (initTable 0)) (.ok (s', tb')) ∧
      Holds s' [(0, 1)] ∧ ¬ Lossless [(0, 1), (1, 21)] [(0, 1)] := by
  refine ⟨holds_collidingList, ?_⟩
  obtain ⟨s', tb', hr, ho'⟩ := deleteDuplicateUsingHash_spec holds_collidingList (by simp) 0
  refine ⟨s', tb', ⟨_, hr⟩, ho', fun hl => ?_⟩
  have h := hl.1 21 (by simp)
  simp at h

/-- The theorem at the list 1, 21. -/
theorem collidingList_lossless_iff :
    ∃ s' tb' zs, Ends (fun fuel => deleteDuplicateUsingHash fuel collidingList (initTable 0)) (.ok (s', tb')) ∧
      Holds s' zs ∧ (Lossless [(0, 1), (1, 21)] zs ↔ SlotsApart [1, 21]) :=
  deleteDuplicateUsingHash_lossless_iff holds_collidingList (by simp)

/-! ## What is left -/

/-- **What `delete_duplicate_using_hash` leaves**: a subsequence of the list that starts with the same node and holds no
value twice. -/
theorem deleteDuplicateUsingHash_unique (ho : Holds s xs) (hv : ∀ u ∈ vals xs, 0 ≤ u) :
    ∃ s' tb' zs, Ends (fun fuel => deleteDuplicateUsingHash fuel s (initTable 0)) (.ok (s', tb')) ∧ Holds s' zs ∧
      zs.Sublist xs ∧ zs.head? = xs.head? ∧ (vals zs).Nodup := by
  obtain ⟨s', tb', hr, ho'⟩ := deleteDuplicateUsingHash_spec ho hv 0
  refine ⟨s', tb', _, ⟨_, hr⟩, ho', kept_sublist _ xs, ?_, ?_⟩
  · cases xs with
    | nil => rfl
    | cons x xs => rw [kept, has_initTable, if_neg (by decide), List.head?_cons, List.head?_cons]
  · apply List.pairwise_map.mpr
    refine (kept_pairwise marks_initTable).2.imp fun {x y} hne heq => hne ?_
    rw [heq]

/-- The list 5, 5, 25 as `append` builds it. -/
def repeatedList : ListState := ⟨⟨[⟨5, some 1⟩, ⟨5, some 2⟩, ⟨25, none⟩], []⟩, some 0⟩

theorem holds_repeatedList : Holds repeatedList [(0, 5), (1, 5), (2, 25)] :=
  ⟨⟨rfl, _, rfl, rfl, _, rfl, rfl, _, rfl, rfl⟩, by decide⟩

theorem repeatedList_unique : Holds repeatedList [(0, 5), (1, 5), (2, 25)] ∧
    ∃ s' tb' zs, Ends (fun fuel => deleteDuplicateUsingHash fuel repeatedList (initTable 0)) (.ok (s', tb')) ∧
      Holds s' zs ∧ zs.Sublist [(0, 5), (1, 5), (2, 25)] ∧ zs.head? = some (0, 5) ∧ (vals zs).Nodup :=
  ⟨holds_repeatedList, deleteDuplicateUsingHash_unique holds_repeatedList (by simp)⟩

/-! ## The slots it touches -/

/-- **`delete_duplicate_using_hash` stays inside the table** exactly when no value that it looks up is negative, except
multiples of `CAPACITY`. -/
theorem deleteDuplicateUsingHash_inside_iff (ho : Holds s xs) (tb : Table) :
    ∃ r, Ends (fun fuel => deleteDuplicateUsingHash fuel s tb) r ∧
      (r = .error .outOfBounds ∨ ∃ s' tb', r = .ok (s', tb')) ∧
      (r ≠ .error .outOfBounds ↔ ∀ v ∈ touched tb xs, 0 ≤ v ∨ (capacity : Int) ∣ v) := by
  by_cases hv : ∀ v ∈ touched tb xs, Indexed v
  · obtain ⟨s', tb', hr, -⟩ := deleteDuplicateUsingHash_left ho tb hv
    exact ⟨_, ⟨_, hr⟩, Or.inr ⟨s', tb', rfl⟩, iff_of_true (by simp) hv⟩
  · have hr : Ends (fun fuel => deleteDuplicateUsingHash fuel s tb) (.error .outOfBounds) :=
      ⟨_, fun fuel hf => deleteDuplicateUsingHash_outside ho tb hv hf⟩
    exact ⟨_, hr, Or.inl rfl, iff_of_false (fun h => h rfl) hv⟩

/-- The list 5, 5, 25 stays inside. -/
theorem repeatedList_inside :
    ∃ r, Ends (fun fuel => deleteDuplicateUsingHash fuel repeatedList (initTable 0)) r ∧ r ≠ .error .outOfBounds := by
  obtain ⟨r, hr, -, hiff⟩ := deleteDuplicateUsingHash_inside_iff holds_repeatedList (initTable 0)
  exact ⟨r, hr, hiff.mpr (by decide)⟩

/-- The list -1: `insert_item` writes slot -1. -/
theorem negative_outside : Holds ⟨⟨[⟨-1, none⟩], []⟩, some 0⟩ [(0, -1)] ∧ hashFunc (-1) = -1 ∧
    Ends (fun fuel => deleteDuplicateUsingHash fuel ⟨⟨[⟨-1, none⟩], []⟩, some 0⟩ (initTable 0)) (.error .outOfBounds) :=
  ⟨⟨⟨rfl, _, rfl, rfl⟩, by decide⟩, rfl, 0, fun _ _ => rfl⟩

end SideWork.LinkedList
