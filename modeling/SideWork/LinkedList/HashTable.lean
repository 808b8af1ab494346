import SideWork.Lib.Loop

/-!
# The hash table of `delete_duplicate_in_unsorted_using_hash.c`

`CAPACITY` slots of a value and a mark, and the global `size_used`. A slot index is C's remainder, which is negative for
negative keys unless they are multiples of `CAPACITY`, and then outside the table. On the other values (`Indexed`) the
operations are the total functions `Table.put` and `Table.has` (`insertItem_eq`, `findItem_eq`); as long as `size_used`
counts the marked slots (`Counted`, kept by `counted_put`), an insert is refused only by a slot that is already marked
(`has_put`).
-/

namespace SideWork.LinkedList

/-- `CAPACITY`. -/
def capacity : Nat := 20

/-- `struct hash_item`. -/
structure HashItem where
  value : Int
  mark : Int
  deriving DecidableEq, Repr

/-- The table, together with the global `size_used`. -/
structure Table where
  items : Fin capacity → HashItem
  sizeUsed : Int

/-- `hash_func`: `key % CAPACITY`, rounding toward zero. -/
def hashFunc (key : Int) : Int := Int.tmod key capacity

/-- `init_table`, which leaves `size_used` as it is. -/
def initTable (sizeUsed : Int) : Table := ⟨fun _ => ⟨0, 0⟩, sizeUsed⟩

/-- `(*tb)[key]`: the slot of an index, when it is inside the table. -/
def slot (key : Int) : Except Stop (Fin capacity) :=
  if h : 0 ≤ key ∧ key < capacity then .ok ⟨key.toNat, by omega⟩ else .error .outOfBounds

/-- `insert_item`. -/
def insertItem (tb : Table) (value : Int) : Except Stop Table :=
  if tb.sizeUsed > capacity then .ok tb
  else do
    let k ← slot (hashFunc value)
    if (tb.items k).mark = 0 then return ⟨Function.update tb.items k ⟨value, 1⟩, tb.sizeUsed + 1⟩
    else if (tb.items k).value = value then return tb
    else return tb

/-- `remove_item`. -/
def removeItem (tb : Table) (value : Int) : Except Stop Table := do
  let k ← slot (hashFunc value)
  if (tb.items k).mark = 0 then return tb
  else if (tb.items k).value = value then return ⟨Function.update tb.items k ⟨0, 0⟩, tb.sizeUsed - 1⟩
  else return tb

/-- `find_item`. -/
def findItem (tb : Table) (value : Int) : Except Stop Int := do
  let k ← slot (hashFunc value)
  if (tb.items k).mark = 0 then return 0 else return 1

/-! ## Values with a slot -/

/-- The values whose remainder is an index of the table. -/
def Indexed (v : Int) : Prop := 0 ≤ v ∨ (capacity : Int) ∣ v

/-- The slot of such a value. -/
def slotOf (v : Int) : Fin capacity :=
  ⟨(v % capacity).toNat, by
    have h₀ := Int.emod_nonneg v (b := capacity) (by decide)
    have h₁ := Int.emod_lt_of_pos v (b := capacity) (by decide)
    omega⟩

theorem slotOf_eq_iff {u v : Int} : slotOf u = slotOf v ↔ u % capacity = v % capacity := by
  have hu := Int.emod_nonneg u (b := capacity) (by decide)
  have hv := Int.emod_nonneg v (b := capacity) (by decide)
  simp only [slotOf, Fin.mk.injEq]
  omega

theorem slot_hashFunc {v : Int} (hv : Indexed v) : slot (hashFunc v) = .ok (slotOf v) := by
  have he : hashFunc v = v % capacity := by
    rcases hv with hv | hv
    · exact Int.tmod_eq_emod_of_nonneg hv
    · rw [hashFunc, Int.tmod_eq_zero_of_dvd hv, Int.emod_eq_zero_of_dvd hv]
  have h₀ := Int.emod_nonneg v (b := capacity) (by decide)
  have h₁ := Int.emod_lt_of_pos v (b := capacity) (by decide)
  rw [slot, he, dif_pos ⟨h₀, h₁⟩]
  rfl

/-- The remainder of any other value is negative. -/
theorem slot_outside {v : Int} (hv : ¬ Indexed v) : slot (hashFunc v) = .error .outOfBounds := by
  obtain ⟨hneg, hdvd⟩ := not_or.mp hv
  have hne : hashFunc v ≠ 0 := fun h => hdvd (Int.dvd_of_tmod_eq_zero h)
  have hle : 0 ≤ -hashFunc v := by
    rw [hashFunc, ← Int.neg_tmod]
    exact Int.tmod_nonneg _ (by omega)
  exact dif_neg fun h => hne (by omega)

/-- What `insert_item` makes of the table for a value with a slot. -/
def Table.put (tb : Table) (v : Int) : Table :=
  if tb.sizeUsed > capacity then tb
  else if (tb.items (slotOf v)).mark = 0 then
    ⟨Function.update tb.items (slotOf v) ⟨v, 1⟩, tb.sizeUsed + 1⟩
  else tb

/-- What `remove_item` makes of the table for a value with a slot. -/
def Table.erase (tb : Table) (v : Int) : Table :=
  if (tb.items (slotOf v)).mark = 0 then tb
  else if (tb.items (slotOf v)).value = v then
    ⟨Function.update tb.items (slotOf v) ⟨0, 0⟩, tb.sizeUsed - 1⟩
  else tb

/-- Whether the slot of a value is marked, by that value or by another one. -/
def Table.has (tb : Table) (v : Int) : Bool := (tb.items (slotOf v)).mark ≠ 0

theorem insertItem_eq (tb : Table) {v : Int} (hv : Indexed v) : insertItem tb v = .ok (tb.put v) := by
  unfold insertItem Table.put
  split
  · rfl
  · rw [slot_hashFunc hv, ok_bind]
    split
    · rfl
    · split <;> rfl

theorem removeItem_eq (tb : Table) {v : Int} (hv : Indexed v) : removeItem tb v = .ok (tb.erase v) := by
  rw [removeItem, slot_hashFunc hv, ok_bind]
  unfold Table.erase
  split
  · rfl
  · split <;> rfl

theorem findItem_eq (tb : Table) {v : Int} (hv : Indexed v) :
    findItem tb v = .ok (if tb.has v then 1 else 0) := by
  rw [findItem, slot_hashFunc hv, ok_bind]
  by_cases hm : (tb.items (slotOf v)).mark = 0 <;> simp [Table.has, hm]

theorem findItem_outside (tb : Table) {v : Int} (hv : ¬ Indexed v) : findItem tb v = .error .outOfBounds := by
  rw [findItem, slot_outside hv, error_bind]

/-- `insert_item` looks at `size_used` before it looks at a slot. -/
theorem insertItem_refused {tb : Table} (h : tb.sizeUsed > capacity) (v : Int) : insertItem tb v = .ok (tb.put v) := by
  rw [insertItem, if_pos h, Table.put, if_pos h]

theorem insertItem_outside {tb : Table} (h : ¬ tb.sizeUsed > capacity) {v : Int} (hv : ¬ Indexed v) :
    insertItem tb v = .error .outOfBounds := by
  rw [insertItem, if_neg h, slot_outside hv, error_bind]

/-! ## `size_used` counts the marked slots -/

/-- The marked slots. -/
def Table.marked (tb : Table) : Finset (Fin capacity) := Finset.univ.filter fun k => (tb.items k).mark ≠ 0

/-- `size_used` is the number of marked slots. -/
def Table.Counted (tb : Table) : Prop := tb.sizeUsed = tb.marked.card

theorem counted_initTable : (initTable 0).Counted := by
  simp [Table.Counted, Table.marked, initTable]

theorem Table.Counted.le {tb : Table} (h : tb.Counted) : ¬ tb.sizeUsed > capacity := by
  have hc : tb.marked.card ≤ capacity := by simpa using tb.marked.card_le_univ
  rw [h]
  omega

/-- An insert fills the slot of the value when it is free, and does nothing otherwise. -/
theorem put_cases {tb : Table} (h : tb.Counted) (v : Int) :
    ((tb.items (slotOf v)).mark = 0 ∧
      tb.put v = ⟨Function.update tb.items (slotOf v) ⟨v, 1⟩, tb.sizeUsed + 1⟩) ∨
    ((tb.items (slotOf v)).mark ≠ 0 ∧ tb.put v = tb) := by
  rw [Table.put, if_neg h.le]
  by_cases hm : (tb.items (slotOf v)).mark = 0
  · exact .inl ⟨hm, if_pos hm⟩
  · exact .inr ⟨hm, if_neg hm⟩

theorem marked_put {tb : Table} (h : tb.Counted) (v : Int) : (tb.put v).marked = insert (slotOf v) tb.marked := by
  obtain ⟨hm, he⟩ | ⟨hm, he⟩ := put_cases h v
  · rw [he]
    ext k
    by_cases hk : k = slotOf v <;> simp [Table.marked, hk]
  · have hmem : slotOf v ∈ tb.marked := by simpa [Table.marked] using hm
    rw [he, Finset.insert_eq_self.mpr hmem]

theorem counted_put {tb : Table} (h : tb.Counted) (v : Int) : (tb.put v).Counted := by
  obtain ⟨hm, he⟩ | ⟨hm, he⟩ := put_cases h v
  · have hmem : slotOf v ∉ tb.marked := by simpa [Table.marked] using hm
    rw [Table.Counted, marked_put h, Finset.card_insert_of_notMem hmem, he]
    simp [h.symm]
  · rwa [he]

/-- A remove clears the slot of the value when the slot holds that very value, and nothing else. -/
theorem erase_cases (tb : Table) (v : Int) :
    ((tb.items (slotOf v)).mark ≠ 0 ∧ (tb.items (slotOf v)).value = v ∧
      tb.erase v = ⟨Function.update tb.items (slotOf v) ⟨0, 0⟩, tb.sizeUsed - 1⟩) ∨
    (((tb.items (slotOf v)).mark ≠ 0 → (tb.items (slotOf v)).value ≠ v) ∧ tb.erase v = tb) := by
  by_cases hm : (tb.items (slotOf v)).mark = 0
  · exact .inr ⟨fun h => absurd hm h, by rw [Table.erase, if_pos hm]⟩
  · by_cases hv : (tb.items (slotOf v)).value = v
    · exact .inl ⟨hm, hv, by rw [Table.erase, if_neg hm, if_pos hv]⟩
    · exact .inr ⟨fun _ => hv, by rw [Table.erase, if_neg hm, if_neg hv]⟩

theorem counted_erase {tb : Table} (h : tb.Counted) (v : Int) : (tb.erase v).Counted := by
  obtain ⟨hm, -, he⟩ | ⟨-, he⟩ := erase_cases tb v
  · have hmem : slotOf v ∈ tb.marked := by simpa [Table.marked] using hm
    have hmk : (tb.erase v).marked = tb.marked.erase (slotOf v) := by
      rw [he]
      ext k
      by_cases hk : k = slotOf v <;> simp [Table.marked, hk]
    have hpos : 0 < tb.marked.card := Finset.card_pos.mpr ⟨_, hmem⟩
    have hs : tb.sizeUsed = tb.marked.card := h
    rw [Table.Counted, hmk, Finset.card_erase_of_mem hmem, he]
    show tb.sizeUsed - 1 = _
    omega
  · rwa [he]

theorem has_initTable (n v : Int) : (initTable n).has v = false := by simp [Table.has, initTable]

/-- After an insert, exactly the old slots and the slot of the value are marked. -/
theorem has_put {tb : Table} (h : tb.Counted) (u v : Int) :
    (tb.put v).has u = true ↔ tb.has u = true ∨ slotOf u = slotOf v := by
  have hmem : ∀ t : Table, t.has u = true ↔ slotOf u ∈ t.marked := by
    intro t
    simp [Table.has, Table.marked]
  rw [hmem, hmem, marked_put h, Finset.mem_insert]
  exact Or.comm

/-! ## The table as a set -/

/-- A non-negative `int`. -/
abbrev NonNegInt := {v : Int // 0 ≤ v ∧ v < 2 ^ 31}

/-- One call on the table. -/
inductive TableOp
  | insert (v : NonNegInt)
  | remove (v : NonNegInt)
  deriving DecidableEq

/-- The value a call is made with. -/
def TableOp.value : TableOp → NonNegInt
  | .insert v => v
  | .remove v => v

def TableOp.isInsert : TableOp → Bool
  | .insert _ => true
  | .remove _ => false

def TableOp.run (tb : Table) : TableOp → Except Stop Table
  | .insert v => insertItem tb v
  | .remove v => removeItem tb v

/-- `init_table`, then the calls in order. -/
def runTable (ops : List TableOp) : Except Stop Table := ops.foldlM TableOp.run (initTable 0)

/-- Whether the last call on a value that satisfies `p` was an insert; no such call counts as none. -/
def lastInserts (p : NonNegInt → Bool) (ops : List TableOp) : Bool :=
  (ops.filter fun op => p op.value).getLast?.any TableOp.isInsert

/-- What `op` makes of the table. -/
def TableOp.apply (tb : Table) : TableOp → Table
  | .insert v => tb.put v
  | .remove v => tb.erase v

theorem run_eq_apply (tb : Table) (op : TableOp) : op.run tb = .ok (op.apply tb) := by
  cases op with
  | insert v => exact insertItem_eq tb (Or.inl v.2.1)
  | remove v => exact removeItem_eq tb (Or.inl v.2.1)

theorem runTable_eq (ops : List TableOp) : runTable ops = .ok (ops.foldl TableOp.apply (initTable 0)) := by
  rw [runTable]
  generalize initTable 0 = tb
  induction ops generalizing tb with
  | nil => rfl
  | cons op ops ih => rw [List.foldlM_cons, run_eq_apply, ok_bind, ih, List.foldl_cons]

section LastInserts

variable {p q : NonNegInt → Bool} {ops : List TableOp} {op : TableOp}

theorem lastInserts_append_of_mem (h : p op.value = true) : lastInserts p (ops ++ [op]) = op.isInsert := by
  simp [lastInserts, h]

theorem lastInserts_append_of_not (h : p op.value = false) : lastInserts p (ops ++ [op]) = lastInserts p ops := by
  simp [lastInserts, h]

/-- The last call on a group of values is the last one on some value of the group. -/
theorem exists_lastInserts (ops : List TableOp) {v : NonNegInt} (hv : p v = true) :
    ∃ w, p w = true ∧ lastInserts p ops = lastInserts (· = w) ops := by
  induction ops using List.reverseRecOn with
  | nil => exact ⟨v, hv, rfl⟩
  | append_singleton ops op ih =>
    cases hp : p op.value with
    | true =>
      refine ⟨op.value, hp, ?_⟩
      rw [lastInserts_append_of_mem hp, lastInserts_append_of_mem (by simp)]
    | false =>
      obtain ⟨w, hw, he⟩ := ih
      have hne : op.value ≠ w := by
        rintro rfl
        rw [hp] at hw
        cases hw
      refine ⟨w, hw, ?_⟩
      rw [lastInserts_append_of_not hp, lastInserts_append_of_not (decide_eq_false hne), he]

end LastInserts

/-- What a sequence of calls leaves in every slot. -/
structure SetInv (ops : List TableOp) (tb : Table) : Prop where
  counted : tb.Counted
  held : ∀ k, (tb.items k).mark ≠ 0 →
    ∃ w : NonNegInt, (tb.items k).value = w ∧ slotOf w = k ∧ lastInserts (· = w) ops = true
  marked : ∀ k, lastInserts (fun w => slotOf w = k) ops = true → (tb.items k).mark ≠ 0

theorem setInv_initTable : SetInv [] (initTable 0) := by
  refine ⟨counted_initTable, fun k hk => ?_, fun k hk => ?_⟩
  · simp [initTable] at hk
  · simp [lastInserts] at hk

/-- A slot that a call does not concern keeps its part of the invariant. -/
theorem held_of_ne {ops : List TableOp} {op : TableOp} {k : Fin capacity} {w : NonNegInt} (hw : slotOf w = k)
    (hk : k ≠ slotOf op.value) (hl : lastInserts (· = w) ops = true) : lastInserts (· = w) (ops ++ [op]) = true := by
  have hne : op.value ≠ w := by
    rintro rfl
    exact hk hw.symm
  rw [lastInserts_append_of_not (decide_eq_false hne), hl]

theorem marked_of_ne {ops : List TableOp} {op : TableOp} {k : Fin capacity}
    (hl : lastInserts (fun w => slotOf w = k) (ops ++ [op]) = true) (hk : k ≠ slotOf op.value) :
    lastInserts (fun w => slotOf w = k) ops = true := by
  rwa [lastInserts_append_of_not (by simpa using Ne.symm hk)] at hl

theorem setInv_insert {ops : List TableOp} {tb : Table} (h : SetInv ops tb) (v : NonNegInt) :
    SetInv (ops ++ [.insert v]) (tb.put v) := by
  have hlast : lastInserts (· = v) (ops ++ [.insert v]) = true := lastInserts_append_of_mem (by simp [TableOp.value])
  -- whatever was inserted before stays so, `v` included
  have hkeep : ∀ w, lastInserts (· = w) ops = true → lastInserts (· = w) (ops ++ [.insert v]) = true := by
    intro w hw
    by_cases hvw : v = w
    · rwa [← hvw]
    · rwa [lastInserts_append_of_not (decide_eq_false hvw)]
  obtain ⟨hm, he⟩ | ⟨hm, he⟩ := put_cases h.counted v
  · refine ⟨counted_put h.counted v, fun k hk => ?_, fun k hk => ?_⟩
    · by_cases hkv : k = slotOf v
      · subst hkv
        exact ⟨v, by simp [he], rfl, hlast⟩
      · simp only [he, Function.update_of_ne hkv] at hk ⊢
        obtain ⟨w, hw, hs, hl⟩ := h.held k hk
        exact ⟨w, hw, hs, hkeep w hl⟩
    · by_cases hkv : k = slotOf v
      · simp [he, hkv]
      · simp only [he, Function.update_of_ne hkv]
        exact h.marked k (marked_of_ne hk hkv)
  · rw [he]
    refine ⟨h.counted, fun k hk => ?_, fun k hk => ?_⟩
    · obtain ⟨w, hw, hs, hl⟩ := h.held k hk
      exact ⟨w, hw, hs, hkeep w hl⟩
    · by_cases hkv : k = slotOf v
      · rwa [hkv]
      · exact h.marked k (marked_of_ne hk hkv)

theorem setInv_remove {ops : List TableOp} {tb : Table} (h : SetInv ops tb) (v : NonNegInt) :
    SetInv (ops ++ [.remove v]) (tb.erase v) := by
  -- the slot of `v` asks for nothing any more
  have hmark : ∀ k, lastInserts (fun w => slotOf w = k) (ops ++ [.remove v]) = true →
      k ≠ slotOf v ∧ (tb.items k).mark ≠ 0 := by
    intro k hk
    have hkv : k ≠ slotOf v := by
      rintro rfl
      rw [lastInserts_append_of_mem (by simp [TableOp.value])] at hk
      cases hk
    exact ⟨hkv, h.marked k (marked_of_ne hk hkv)⟩
  obtain ⟨hm, hv, he⟩ | ⟨hv, he⟩ := erase_cases tb v
  · refine ⟨counted_erase h.counted v, fun k hk => ?_, fun k hk => ?_⟩
    · by_cases hkv : k = slotOf v
      · simp [he, hkv] at hk
      · simp only [he, Function.update_of_ne hkv] at hk ⊢
        obtain ⟨w, hw, hs, hl⟩ := h.held k hk
        exact ⟨w, hw, hs, held_of_ne hs hkv hl⟩
    · obtain ⟨hkv, hk⟩ := hmark k hk
      simpa only [he, Function.update_of_ne hkv] using hk
  · rw [he]
    refine ⟨h.counted, fun k hk => ?_, fun k hk => (hmark k hk).2⟩
    obtain ⟨w, hw, hs, hl⟩ := h.held k hk
    have hne : v ≠ w := by
      rintro rfl
      subst hs
      exact hv hk hw
    refine ⟨w, hw, hs, ?_⟩
    rwa [lastInserts_append_of_not (decide_eq_false hne)]

theorem setInv_apply {ops : List TableOp} {tb : Table} (h : SetInv ops tb) (op : TableOp) :
    SetInv (ops ++ [op]) (op.apply tb) := by
  cases op with
  | insert v => exact setInv_insert h v
  | remove v => exact setInv_remove h v

/-- The invariant holds after any calls. -/
theorem setInv_run (ops : List TableOp) : SetInv ops (ops.foldl TableOp.apply (initTable 0)) := by
  induction ops using List.reverseRecOn with
  | nil => exact setInv_initTable
  | append_singleton ops op ih =>
    rw [List.foldl_append]
    exact setInv_apply ih op

/-! ## Every slot of a reachable table -/

/-- A slot without a mark holds 0. -/
def Table.Cleared (tb : Table) : Prop := ∀ k, (tb.items k).mark = 0 → (tb.items k).value = 0

theorem cleared_initTable (n : Int) : (initTable n).Cleared := fun _ _ => rfl

theorem cleared_put {tb : Table} (h : tb.Cleared) (v : Int) : (tb.put v).Cleared := by
  unfold Table.put
  split
  · exact h
  · split
    · intro k hk
      by_cases hkv : k = slotOf v
      · simp [hkv] at hk
      · simp only [Function.update_of_ne hkv] at hk ⊢
        exact h k hk
    · exact h

theorem cleared_erase {tb : Table} (h : tb.Cleared) (v : Int) : (tb.erase v).Cleared := by
  obtain ⟨-, -, he⟩ | ⟨-, he⟩ := erase_cases tb v
  · rw [he]
    intro k hk
    by_cases hkv : k = slotOf v
    · simp [hkv]
    · simp only [Function.update_of_ne hkv] at hk ⊢
      exact h k hk
  · rwa [he]

theorem cleared_run (ops : List TableOp) : (ops.foldl TableOp.apply (initTable 0)).Cleared := by
  induction ops using List.reverseRecOn with
  | nil => exact cleared_initTable 0
  | append_singleton ops op ih =>
    rw [List.foldl_append]
    cases op with
    | insert v => exact cleared_put ih v
    | remove v => exact cleared_erase ih v

/-- The slot of a non-negative value is its remainder. -/
theorem hashFunc_eq_slotOf {v : Int} (hv : 0 ≤ v) : hashFunc v = (slotOf v).1 := by
  have h₀ := Int.emod_nonneg v (b := capacity) (by decide)
  rw [hashFunc, Int.tmod_eq_emod_of_nonneg hv]
  simp only [slotOf]
  omega

/-- As long as `size_used` counts the marked slots, an insert into a free slot is not refused. -/
theorem insertItem_free {tb : Table} (h : tb.Counted) {v : Int} (hv : 0 ≤ v) (hm : (tb.items (slotOf v)).mark = 0) :
    insertItem tb v = .ok ⟨Function.update tb.items (slotOf v) ⟨v, 1⟩, tb.sizeUsed + 1⟩ := by
  rw [insertItem_eq tb (Or.inl hv), Table.put, if_neg h.le, if_pos hm]

/-- **Every table that calls lead to**: a marked slot holds a value with that remainder, the others hold 0, and `size_used`
is the number of marked slots, so that the test against `CAPACITY` refuses no insert. -/
theorem table_slots (ops : List TableOp) : ∃ tb, runTable ops = .ok tb ∧
    (∀ k, (tb.items k).mark ≠ 0 → hashFunc (tb.items k).value = k.1) ∧
    (∀ k, (tb.items k).mark = 0 → (tb.items k).value = 0) ∧
    tb.sizeUsed = (Finset.univ.filter fun k => (tb.items k).mark ≠ 0).card ∧
    ¬ tb.sizeUsed > capacity ∧
    ∀ (v : NonNegInt) (k : Fin capacity), hashFunc v = k.1 → (tb.items k).mark = 0 →
      insertItem tb v = .ok ⟨Function.update tb.items k ⟨v, 1⟩, tb.sizeUsed + 1⟩ := by
  have hinv := setInv_run ops
  have hcleared := cleared_run ops
  refine ⟨_, runTable_eq ops, ?_⟩
  generalize ops.foldl TableOp.apply (initTable 0) = tb at hinv hcleared
  refine ⟨fun k hk => ?_, hcleared, hinv.counted, hinv.counted.le, fun v k hk hm => ?_⟩
  · obtain ⟨w, hw, hs, -⟩ := hinv.held k hk
    rw [hw, hashFunc_eq_slotOf w.2.1, hs]
  · have hs : slotOf v = k := by
      rw [hashFunc_eq_slotOf v.2.1] at hk
      exact Fin.ext (by omega)
    subst hs
    exact insertItem_free hinv.counted v.2.1 hm

/-! ## Looking up -/

/-- Looking up gives back, for every value, whether its last call was an insert, exactly when the values that share a
slot agree on that. -/
theorem find_correct_iff (ops : List TableOp) :
    ∃ tb, runTable ops = .ok tb ∧
      ((∀ v : NonNegInt, findItem tb v = .ok (if lastInserts (· = v) ops then 1 else 0)) ↔
        ∀ u v : NonNegInt, u.1 % capacity = v.1 % capacity →
          lastInserts (· = u) ops = lastInserts (· = v) ops) := by
  refine ⟨_, runTable_eq ops, ?_⟩
  have hinv := setInv_run ops
  generalize ops.foldl TableOp.apply (initTable 0) = tb at hinv
  have hfind : ∀ v : NonNegInt, findItem tb v = .ok (if lastInserts (· = v) ops then 1 else 0) ↔
      tb.has v = lastInserts (· = v) ops := by
    intro v
    rw [findItem_eq tb (Or.inl v.2.1)]
    cases tb.has v <;> cases lastInserts (· = v) ops <;> simp
  simp only [hfind]
  constructor
  · intro h u v huv
    rw [← h u, ← h v, Table.has, Table.has, slotOf_eq_iff.mpr huv]
  · intro h v
    apply Bool.eq_iff_iff.mpr
    constructor
    · intro hv
      obtain ⟨w, -, hs, hl⟩ := hinv.held (slotOf v) (by simpa [Table.has] using hv)
      rw [h v w (slotOf_eq_iff.mp hs.symm), hl]
    · intro hv
      obtain ⟨w, hw, he⟩ := exists_lastInserts ops (p := fun w => slotOf w = slotOf v) (v := v) (by simp)
      have hwv : lastInserts (· = w) ops = lastInserts (· = v) ops :=
        h w v (slotOf_eq_iff.mp (by simpa using hw))
      have hk := hinv.marked (slotOf v) (by rw [he, hwv, hv])
      simpa [Table.has] using hk

/-- After an insert of 1 alone, 21 is found. -/
theorem find_after_insert_wrong :
    ¬ ∀ (ops : List TableOp) (tb : Table), runTable ops = .ok tb →
      ∀ v : NonNegInt, findItem tb v = .ok (if lastInserts (· = v) ops then 1 else 0) := by
  intro h
  have h21 := h [.insert ⟨1, by decide⟩] _ (runTable_eq _) ⟨21, by decide⟩
  revert h21
  decide

end SideWork.LinkedList
