import SideWork.Lib.Loop

/-!
# Singly linked cells on a heap

A heap is the list of all cells ever allocated (the address of a cell is its place in the list) together with the
addresses handed to `free`, newest first. `malloc` gives a fresh address; reading or writing through `NULL`, through a
freed address or outside the heap stops the run, and so does a second `free`.

`Seg c p xs q` says that following `next` from `p` meets the cells `xs`, in order, and arrives at `q`. `Owns h p xs`
says that the chain from `p` is `xs`, ends in `NULL`, and that every address ever allocated is either freed, once, or
on the chain, once (`ledger`). The surgeries on a chain keep `Owns`: `owns_pushHead`, `owns_insertAfter`,
`owns_removeHead`, `owns_removeAfter`, `owns_relinked`.

A chain that ends in `NULL` meets no cell twice (`seg_nodup`). `Relinked h h' is` says that only `next` fields of the
cells `is` were overwritten; a chain with the same cells in the same order is then the same heap (`Relinked.eq_of_seg`).
-/

namespace SideWork

/-- One cell: a value and the address of the next cell, or `NULL`. -/
structure Cell (α : Type) where
  value : α
  next : Option Nat
  deriving DecidableEq, Repr

/-- All cells ever allocated, and the addresses freed so far. -/
structure Heap (α : Type) where
  nodes : List (Cell α)
  freed : List Nat
  deriving DecidableEq, Repr

namespace Heap

variable {α : Type}

/-- The heap before the first `malloc`. -/
def empty : Heap α := ⟨[], []⟩

/-- The live cell at an address. -/
def cell (h : Heap α) (i : Nat) : Option (Cell α) := if i ∈ h.freed then none else h.nodes[i]?

/-- Reading through a pointer. -/
def load (h : Heap α) : Option Nat → Except Stop (Cell α)
  | none => .error .nullDeref
  | some i =>
    if i ∈ h.freed then .error .useAfterFree
    else match h.nodes[i]? with
      | some c => .ok c
      | none => .error .outOfBounds

/-- The heap with the `next` field of a cell overwritten. -/
def relink (h : Heap α) (i : Nat) (q : Option Nat) : Heap α :=
  { h with nodes := h.nodes.modify i fun c => { c with next := q } }

/-- `p->next = q`. -/
def setNext (h : Heap α) (p q : Option Nat) : Except Stop (Heap α) := do
  let _ ← h.load p
  match p with
  | some i => return h.relink i q
  | none => .error .nullDeref

/-- The heap with one more cell, at address `h.nodes.length`. -/
def extend (h : Heap α) (c : Cell α) : Heap α := { h with nodes := h.nodes ++ [c] }

/-- `malloc` of a cell, with its first contents. -/
def malloc (h : Heap α) (c : Cell α) : Nat × Heap α := (h.nodes.length, h.extend c)

/-- The heap with one more freed address. -/
def release (h : Heap α) (i : Nat) : Heap α := { h with freed := i :: h.freed }

/-- `free`: nothing for `NULL`, and a stop for an address that is not live. -/
def free (h : Heap α) : Option Nat → Except Stop (Heap α)
  | none => .ok h
  | some i => if i ∈ h.freed ∨ h.nodes.length ≤ i then .error .badFree else .ok (h.release i)

/-! ## Cells after an update -/

variable {h : Heap α} {i j : Nat} {c : Cell α} {q : Option Nat}

@[simp] theorem relink_freed : (h.relink i q).freed = h.freed := rfl

@[simp] theorem relink_length : (h.relink i q).nodes.length = h.nodes.length := by simp [relink]

@[simp] theorem extend_freed : (h.extend c).freed = h.freed := rfl

@[simp] theorem extend_length : (h.extend c).nodes.length = h.nodes.length + 1 := by simp [extend]

@[simp] theorem release_freed : (h.release i).freed = i :: h.freed := rfl

@[simp] theorem release_nodes : (h.release i).nodes = h.nodes := rfl

theorem cell_live (hc : h.cell i = some c) : i ∉ h.freed ∧ h.nodes[i]? = some c := by
  unfold cell at hc
  split at hc
  · cases hc
  · exact ⟨‹_›, hc⟩

theorem cell_lt (hc : h.cell i = some c) : i < h.nodes.length :=
  (List.getElem?_eq_some_iff.mp (cell_live hc).2).1

theorem load_live (hc : h.cell i = some c) : h.load (some i) = .ok c := by
  obtain ⟨hf, hn⟩ := cell_live hc
  simp [load, hf, hn]

@[simp] theorem load_null : h.load none = .error .nullDeref := rfl

theorem setNext_live (hc : h.cell i = some c) : h.setNext (some i) q = .ok (h.relink i q) := by
  simp [setNext, load_live hc]

theorem free_live (hc : h.cell i = some c) : h.free (some i) = .ok (h.release i) := by
  have hf := (cell_live hc).1
  have hl := cell_lt hc
  simp [free, hf, hl]

theorem cell_relink_self (hc : h.cell i = some c) : (h.relink i q).cell i = some { c with next := q } := by
  obtain ⟨hf, hn⟩ := cell_live hc
  simp [cell, relink, hf, hn]

theorem cell_relink_ne (hij : j ≠ i) : (h.relink i q).cell j = h.cell j := by
  simp [cell, relink, Ne.symm hij]

theorem cell_extend (hc : h.cell i = some c) (d : Cell α) : (h.extend d).cell i = some c := by
  obtain ⟨hf, hn⟩ := cell_live hc
  simp [cell, extend, hf, List.getElem?_append_left (cell_lt hc), hn]

theorem cell_extend_new (hf : h.nodes.length ∉ h.freed) (d : Cell α) :
    (h.extend d).cell h.nodes.length = some d := by
  simp [cell, extend, hf]

theorem extend_relink_new (v : α) (p : Option Nat) :
    (h.extend ⟨v, p⟩).relink h.nodes.length q = h.extend ⟨v, q⟩ := by
  simp [extend, relink, List.modify_eq_take_drop]

theorem cell_release_ne (hij : j ≠ i) : (h.release i).cell j = h.cell j := by
  simp [cell, release, hij]

end Heap

/-! ## Segments -/

section Segments

variable {α : Type}

/-- The addresses of a chain. -/
def ids (xs : List (Nat × α)) : List Nat := xs.map Prod.fst

/-- The values of a chain. -/
def vals (xs : List (Nat × α)) : List α := xs.map Prod.snd

@[simp] theorem ids_nil : ids ([] : List (Nat × α)) = [] := rfl

@[simp] theorem ids_cons (x : Nat × α) (xs : List (Nat × α)) : ids (x :: xs) = x.1 :: ids xs := rfl

@[simp] theorem ids_append (xs ys : List (Nat × α)) : ids (xs ++ ys) = ids xs ++ ids ys := by simp [ids]

@[simp] theorem vals_nil : vals ([] : List (Nat × α)) = [] := rfl

@[simp] theorem vals_cons (x : Nat × α) (xs : List (Nat × α)) : vals (x :: xs) = x.2 :: vals xs := rfl

@[simp] theorem length_vals (xs : List (Nat × α)) : (vals xs).length = xs.length := List.length_map _

@[simp] theorem vals_append (xs ys : List (Nat × α)) : vals (xs ++ ys) = vals xs ++ vals ys := by simp [vals]

theorem vals_concat (xs : List (Nat × α)) (i : Nat) (v : α) : vals (xs ++ [(i, v)]) = vals xs ++ [v] := by
  rw [vals_append, vals_cons, vals_nil]

/-- Following `next` from `p` meets the cells `xs` and arrives at `q`. -/
def Seg (c : Nat → Option (Cell α)) : Option Nat → List (Nat × α) → Option Nat → Prop
  | p, [], q => p = q
  | p, (i, v) :: xs, q => p = some i ∧ ∃ n, c i = some ⟨v, n⟩ ∧ Seg c n xs q

variable {c c' : Nat → Option (Cell α)} {p q r : Option Nat} {i : Nat} {v : α} {xs ys : List (Nat × α)}

@[simp] theorem seg_nil : Seg c p [] q ↔ p = q := Iff.rfl

@[simp] theorem seg_cons : Seg c p ((i, v) :: xs) q ↔ p = some i ∧ ∃ n, c i = some ⟨v, n⟩ ∧ Seg c n xs q := Iff.rfl

/-- Segments compose, and a segment can be cut anywhere. -/
theorem seg_append : Seg c p (xs ++ ys) r ↔ ∃ q, Seg c p xs q ∧ Seg c q ys r := by
  induction xs generalizing p with
  | nil => simp
  | cons x xs ih =>
    obtain ⟨i, v⟩ := x
    simp only [List.cons_append, seg_cons, ih]
    constructor
    · rintro ⟨hp, n, hc, q, hx, hy⟩
      exact ⟨q, ⟨hp, n, hc, hx⟩, hy⟩
    · rintro ⟨q, ⟨hp, n, hc, hx⟩, hy⟩
      exact ⟨hp, n, hc, q, hx, hy⟩

/-- A segment only depends on its own cells. -/
theorem seg_congr (h : ∀ i ∈ ids xs, c' i = c i) (hs : Seg c p xs q) : Seg c' p xs q := by
  induction xs generalizing p with
  | nil => exact hs
  | cons x xs ih =>
    obtain ⟨i, v⟩ := x
    obtain ⟨hp, n, hc, hx⟩ := hs
    refine ⟨hp, n, ?_, ih (fun j hj => h j (by simp [hj])) hx⟩
    rw [h i (by simp)]; exact hc

/-- Every cell of a segment is live. -/
theorem seg_live (hs : Seg c p xs q) (hi : i ∈ ids xs) : ∃ d, c i = some d := by
  induction xs generalizing p with
  | nil => simp at hi
  | cons x xs ih =>
    obtain ⟨j, v⟩ := x
    obtain ⟨_, n, hc, hx⟩ := hs
    rcases List.mem_cons.mp hi with rfl | hi
    · exact ⟨_, hc⟩
    · exact ih hx hi

/-- In a segment that ends at a node, every cell has a successor. -/
theorem seg_next {j e : Nat} {w : α} {l : Option Nat} (hs : Seg c p xs (some e)) (hj : (j, w) ∈ xs)
    (hc : c j = some ⟨w, l⟩) : ∃ n, l = some n := by
  obtain ⟨as, bs, rfl⟩ := List.append_of_mem hj
  obtain ⟨_, _, _, l', hc', hb⟩ := seg_append.mp hs
  rw [hc] at hc'
  cases hc'
  cases bs with
  | nil => exact ⟨e, hb⟩
  | cons b bs => exact ⟨b.1, hb.1⟩

/-- The chain from a pointer to `NULL` is unique. -/
theorem seg_unique (hx : Seg c p xs none) (hy : Seg c p ys none) : xs = ys := by
  induction xs generalizing p ys with
  | nil =>
    obtain rfl := seg_nil.mp hx
    cases ys with
    | nil => rfl
    | cons y ys => cases hy.1
  | cons x xs ih =>
    obtain ⟨i, v⟩ := x
    obtain ⟨rfl, n, hc, hx⟩ := hx
    cases ys with
    | nil => cases seg_nil.mp hy
    | cons y ys =>
      obtain ⟨j, w⟩ := y
      obtain ⟨hij, m, hd, hy⟩ := hy
      cases hij
      rw [hc] at hd
      cases hd
      rw [ih hx hy]

/-- A chain that ends in `NULL` meets no cell twice. -/
theorem seg_nodup (hs : Seg c p xs none) : (ids xs).Nodup := by
  induction xs generalizing p with
  | nil => exact List.nodup_nil
  | cons x xs ih =>
    obtain ⟨i, v⟩ := x
    have hchain := hs
    obtain ⟨rfl, n, hc, hx⟩ := hs
    refine List.nodup_cons.mpr ⟨fun hi => ?_, ih hx⟩
    obtain ⟨⟨j, w⟩, hj, rfl⟩ := List.mem_map.mp hi
    obtain ⟨as, bs, rfl⟩ := List.append_of_mem hj
    obtain ⟨_, _, rfl, hb⟩ := seg_append.mp hx
    -- the chain from the second visit is the whole chain, and shorter
    have hlate : Seg c (some j) ((j, w) :: bs) none := ⟨rfl, hb⟩
    have heq := congrArg List.length (seg_unique hchain hlate)
    simp only [List.length_cons, List.length_append] at heq
    omega

/-- A chain determines its cells. -/
theorem seg_cells (hs : Seg c p xs q) (hs' : Seg c' r xs q) : p = r ∧ ∀ i ∈ ids xs, c i = c' i := by
  induction xs generalizing p r with
  | nil => exact ⟨hs.trans hs'.symm, fun i hi => absurd hi List.not_mem_nil⟩
  | cons x xs ih =>
    obtain ⟨rfl, n, hc, hx⟩ := hs
    obtain ⟨rfl, m, hc', hx'⟩ := hs'
    obtain ⟨rfl, hrest⟩ := ih hx hx'
    refine ⟨rfl, fun i hi => ?_⟩
    rcases List.mem_cons.mp hi with rfl | hi
    · rw [hc, hc']
    · exact hrest i hi

/-- The last address of a segment, or `p` for the empty one. -/
def trail : Option Nat → List (Nat × α) → Option Nat
  | p, [] => p
  | _, (i, _) :: xs => trail (some i) xs

theorem trail_concat (x : Nat × α) : trail p (xs ++ [x]) = some x.1 := by
  induction xs generalizing p with
  | nil => rfl
  | cons y ys ih => exact ih

theorem trail_eq_foldl : trail p xs = xs.foldl (fun _ x => some x.1) p := by
  induction xs generalizing p with
  | nil => rfl
  | cons y ys ih => exact ih

/-- A loop that walks along a segment and folds `g` over its cells. -/
theorem loop_fold {σ ρ β : Type} {turn : σ → Except Stop (σ ⊕ ρ)} (g : β → Nat × α → β) (f : β → Option Nat → σ)
    (hs : Seg c p xs q) (ht : ∀ i v n b, (i, v) ∈ xs → c i = some ⟨v, n⟩ →
      turn (f b (some i)) = .ok (.inl (f (g b (i, v)) n))) (k : Nat) (b : β) :
    loop turn (xs.length + k) (f b p) = loop turn k (f (xs.foldl g b) q) := by
  induction xs generalizing p b with
  | nil => rw [seg_nil.mp hs]; simp
  | cons x xs ih =>
    obtain ⟨i, v⟩ := x
    obtain ⟨rfl, n, hc, hx⟩ := hs
    rw [loop_again_cons (ht i v n b (by simp) hc)]
    exact ih hx (fun j w m b' hj => ht j w m b' (by simp [hj])) (g b (i, v))

/-- A loop that walks along a segment, with the cell before the current one in its state. -/
theorem loop_seg {σ ρ : Type} {turn : σ → Except Stop (σ ⊕ ρ)} (f : Option Nat → Option Nat → σ)
    (hs : Seg c p xs q) (ht : ∀ i v n prev, (i, v) ∈ xs → c i = some ⟨v, n⟩ →
      turn (f prev (some i)) = .ok (.inl (f (some i) n))) (k : Nat) (prev : Option Nat) :
    loop turn (xs.length + k) (f prev p) = loop turn k (f (trail prev xs) q) := by
  rw [trail_eq_foldl]
  exact loop_fold (fun _ x => some x.1) f hs ht k prev

variable {h : Heap α}

theorem seg_relink (hi : i ∉ ids xs) (hs : Seg h.cell p xs q) : Seg (h.relink i r).cell p xs q :=
  seg_congr (fun _ hj => Heap.cell_relink_ne (fun e => hi (e ▸ hj))) hs

/-- Overwriting the `next` of the last cell of a segment redirects its end. -/
theorem seg_relink_last (hi : i ∉ ids xs) (hs : Seg h.cell p (xs ++ [(i, v)]) q) :
    Seg (h.relink i r).cell p (xs ++ [(i, v)]) r := by
  obtain ⟨m, hx, hm, n, hc, _⟩ := seg_append.mp hs
  refine seg_append.mpr ⟨m, seg_relink hi hx, hm, r, ?_, rfl⟩
  exact Heap.cell_relink_self hc

theorem seg_extend (hs : Seg h.cell p xs q) (d : Cell α) : Seg (h.extend d).cell p xs q := by
  refine seg_congr (fun j hj => ?_) hs
  obtain ⟨e, he⟩ := seg_live hs hj
  rw [he]; exact Heap.cell_extend he d

theorem seg_release (hi : i ∉ ids xs) (hs : Seg h.cell p xs q) : Seg (h.release i).cell p xs q :=
  seg_congr (fun _ hj => Heap.cell_release_ne (fun e => hi (e ▸ hj))) hs

end Segments

/-! ## Relinking -/

section Relinking

variable {α : Type}

/-- At most the `next` fields of the cells `is` were overwritten. -/
structure Relinked (h h' : Heap α) (is : List Nat) : Prop where
  freed : h'.freed = h.freed
  length : h'.nodes.length = h.nodes.length
  same : ∀ j ∉ is, h'.nodes[j]? = h.nodes[j]?

variable {h h' h'' : Heap α} {p p' q : Option Nat} {i : Nat} {is js : List Nat} {xs : List (Nat × α)}

namespace Relinked

theorem refl (h : Heap α) (is : List Nat) : Relinked h h is := ⟨rfl, rfl, fun _ _ => rfl⟩

theorem trans (h₁ : Relinked h h' is) (h₂ : Relinked h' h'' is) : Relinked h h'' is where
  freed := h₂.freed.trans h₁.freed
  length := h₂.length.trans h₁.length
  same := fun j hj => (h₂.same j hj).trans (h₁.same j hj)

theorem mono (hr : Relinked h h' is) (hsub : is ⊆ js) : Relinked h h' js where
  freed := hr.freed
  length := hr.length
  same := fun j hj => hr.same j fun hi => hj (hsub hi)

theorem relink (hi : i ∈ is) (q : Option Nat) : Relinked h (h.relink i q) is where
  freed := rfl
  length := Heap.relink_length
  same := fun j hj => by
    have hij : i ≠ j := fun e => hj (e ▸ hi)
    simp [Heap.relink, hij]

/-- With the same chain as before, the heap is the same. -/
theorem eq_of_seg (hr : Relinked h h' (ids xs)) (hs : Seg h.cell p xs q) (hs' : Seg h'.cell p' xs q) :
    h' = h ∧ p' = p := by
  obtain ⟨rfl, hcells⟩ := seg_cells hs hs'
  have hnodes : h'.nodes = h.nodes := by
    apply List.ext_getElem?
    intro j
    by_cases hj : j ∈ ids xs
    · obtain ⟨d, hd⟩ := seg_live hs hj
      have hd' := (hcells j hj).symm.trans hd
      rw [(Heap.cell_live hd).2, (Heap.cell_live hd').2]
    · exact hr.same j hj
  obtain ⟨nodes, freed⟩ := h
  obtain ⟨nodes', freed'⟩ := h'
  obtain rfl : nodes' = nodes := hnodes
  obtain rfl : freed' = freed := hr.freed
  exact ⟨rfl, rfl⟩

end Relinked

end Relinking

/-! ## Ownership -/

section Ownership

variable {α : Type}

/-- The chain from `p` is `xs`, and every address is on it or freed, exactly once. -/
structure Owns (h : Heap α) (p : Option Nat) (xs : List (Nat × α)) : Prop where
  chain : Seg h.cell p xs none
  ledger : (h.freed ++ ids xs).Perm (List.range h.nodes.length)

theorem owns_empty : Owns (Heap.empty : Heap α) none [] := ⟨rfl, by simp [Heap.empty]⟩

variable {h : Heap α} {p n : Option Nat} {i d : Nat} {v w : α} {xs ys : List (Nat × α)}

namespace Owns

theorem nodup (ho : Owns h p xs) : (h.freed ++ ids xs).Nodup := ho.ledger.nodup_iff.mpr List.nodup_range

theorem ids_nodup (ho : Owns h p xs) : (ids xs).Nodup := (List.nodup_append.mp ho.nodup).2.1

theorem freed_nodup (ho : Owns h p xs) : h.freed.Nodup := (List.nodup_append.mp ho.nodup).1

theorem notMem_freed (ho : Owns h p xs) (hi : i ∈ ids xs) : i ∉ h.freed :=
  fun hf => (List.nodup_append.mp ho.nodup).2.2 i hf i hi rfl

theorem mem_iff (ho : Owns h p xs) : i < h.nodes.length ↔ i ∈ h.freed ∨ i ∈ ids xs := by
  rw [← List.mem_range, ← ho.ledger.mem_iff, List.mem_append]

theorem fresh_notMem (ho : Owns h p xs) : h.nodes.length ∉ h.freed ++ ids xs := by
  rw [ho.ledger.mem_iff]; simp

end Owns

/-- The cells of the chain in another order. -/
theorem owns_relinked {h' : Heap α} {p' : Option Nat} (ho : Owns h p xs) (hr : Relinked h h' (ids xs))
    (hs : Seg h'.cell p' ys none) (hperm : ys.Perm xs) : Owns h' p' ys := by
  refine ⟨hs, ?_⟩
  rw [hr.freed, hr.length]
  exact (List.Perm.append_left _ (hperm.map _)).trans ho.ledger

/-- A new cell in front of the chain. -/
theorem owns_pushHead (ho : Owns h p xs) (v : α) :
    Owns (h.extend ⟨v, p⟩) (some h.nodes.length) ((h.nodes.length, v) :: xs) := by
  have hn := ho.fresh_notMem
  simp only [List.mem_append, not_or] at hn
  refine ⟨⟨rfl, p, Heap.cell_extend_new hn.1 _, seg_extend ho.chain _⟩, ?_⟩
  rw [ids_cons, Heap.extend_length, Heap.extend_freed, List.range_succ]
  exact List.perm_middle.trans ((ho.ledger.cons _).trans (List.perm_append_singleton _ _).symm)

/-- A new cell behind cell `i` of the chain. -/
theorem owns_insertAfter (ho : Owns h p (xs ++ (i, v) :: ys)) (hc : h.cell i = some ⟨v, n⟩) (w : α) :
    Owns ((h.extend ⟨w, n⟩).relink i (some h.nodes.length)) p
      (xs ++ (i, v) :: (h.nodes.length, w) :: ys) := by
  have hfresh := ho.fresh_notMem
  have hnd := ho.ids_nodup
  simp only [ids_append, ids_cons, List.mem_append, List.mem_cons, not_or] at hfresh
  obtain ⟨hff, hfx, hfi, hfy⟩ := hfresh
  simp only [ids_append, ids_cons, List.nodup_append, List.nodup_cons] at hnd
  obtain ⟨hndx, ⟨hiy, hndy⟩, hdis⟩ := hnd
  have hix : i ∉ ids xs := fun hm => hdis i hm i (by simp) rfl
  obtain ⟨m, hx, hm, n', hc', hy⟩ := seg_append.mp ho.chain
  rw [hc] at hc'
  cases hc'
  have hxi : Seg (h.extend ⟨w, n⟩).cell p (xs ++ [(i, v)]) n :=
    seg_append.mpr ⟨m, seg_extend hx _, hm, n, Heap.cell_extend hc _, rfl⟩
  refine ⟨?_, ?_⟩
  · rw [show xs ++ (i, v) :: (h.nodes.length, w) :: ys = (xs ++ [(i, v)]) ++ (h.nodes.length, w) :: ys by simp]
    refine seg_append.mpr ⟨some h.nodes.length, seg_relink_last hix hxi, rfl, n, ?_, ?_⟩
    · rw [Heap.cell_relink_ne hfi]; exact Heap.cell_extend_new hff _
    · exact seg_relink hiy (seg_extend hy _)
  · have hl := ho.ledger
    rw [Heap.relink_freed, Heap.extend_freed, Heap.relink_length, Heap.extend_length, List.range_succ]
    refine List.Perm.trans ?_ (hl.append_right _)
    rw [List.append_assoc]
    apply List.Perm.append_left
    simp only [ids_append, ids_cons, List.append_assoc, List.cons_append]
    exact List.Perm.append_left _ ((List.perm_append_singleton _ _).symm.cons _)

/-- The first cell of the chain freed. -/
theorem owns_removeHead (ho : Owns h p ((d, w) :: ys)) (hc : h.cell d = some ⟨w, n⟩) :
    Owns (h.release d) n ys := by
  have hnd := ho.ids_nodup
  simp only [ids_cons, List.nodup_cons] at hnd
  obtain ⟨_, n', hc', hy⟩ := ho.chain
  rw [hc] at hc'
  cases hc'
  refine ⟨seg_release hnd.1 hy, ?_⟩
  exact List.Perm.trans (by simpa using List.perm_middle.symm) ho.ledger

/-- The cell behind cell `i` of the chain unlinked and freed. -/
theorem owns_removeAfter (ho : Owns h p (xs ++ (i, v) :: (d, w) :: ys)) (hc : h.cell d = some ⟨w, n⟩) :
    Owns ((h.relink i n).release d) p (xs ++ (i, v) :: ys) := by
  have hnd := ho.ids_nodup
  simp only [ids_append, ids_cons, List.nodup_append, List.nodup_cons, List.mem_cons, not_or] at hnd
  obtain ⟨hndx, ⟨⟨hid, hiy⟩, hdy, hndy⟩, hdis⟩ := hnd
  have hix : i ∉ ids xs := fun hm => hdis i hm i (by simp) rfl
  have hdx : d ∉ ids xs := fun hm => hdis d hm d (by simp) rfl
  obtain ⟨m, hx, hm, n₁, hci, rfl, n₂, hcd, hy⟩ := seg_append.mp ho.chain
  rw [hc] at hcd
  cases hcd
  have hxi : Seg h.cell p (xs ++ [(i, v)]) (some d) := seg_append.mpr ⟨m, hx, hm, _, hci, rfl⟩
  refine ⟨?_, ?_⟩
  · rw [show xs ++ (i, v) :: ys = (xs ++ [(i, v)]) ++ ys by simp]
    refine seg_append.mpr ⟨n, seg_release ?_ (seg_relink_last hix hxi), ?_⟩
    · simp [hdx, Ne.symm hid]
    · exact seg_release hdy (seg_relink hiy hy)
  · have hl := ho.ledger
    rw [Heap.release_freed, Heap.relink_freed, Heap.release_nodes, Heap.relink_length]
    refine List.Perm.trans ?_ hl
    simp only [ids_append, ids_cons, List.cons_append]
    refine List.perm_middle.symm.trans (List.Perm.append_left _ ?_)
    exact List.perm_middle.symm.trans (List.Perm.append_left _ (List.Perm.swap _ _ _))

end Ownership

end SideWork
