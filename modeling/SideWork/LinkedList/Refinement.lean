import SideWork.Lib.Refine
import SideWork.LinkedList.Search
import SideWork.LinkedList.Session
import SideWork.LinkedList.SumOfLast
import SideWork.LinkedList.System

/-!
# The heap list refines a list

`perform` runs one command of the programs in `single_linked_list` on the heap: an operation that changes the list, or one
that only reads it. `act` says what the same command does to a list of values, with no nodes and no heap: its result or
the stop, exactly. Every step on the heap is the step on the values (`refines_perform`), so every sequence of commands
puts out what the list of values puts out, and stops where it stops (`programs_refine`).

The values that `delete_duplicate_using_hash` keeps are `firstOfSlots`: it remembers slots, not values, and only as long
as `size_used` lets it (`kept_values`).
-/

namespace SideWork.LinkedList

/-! ## The commands on the heap -/

/-- A command: an operation on the list, or a function that reads it. -/
inductive Command
  | change (op : Op)
  | printList
  | getLength
  | searchKey (position : Int)
  | searchPosition (value : Int)
  | searchKeyAndCount (value : Int)
  | searchFromEnd (position : Int)
  | searchMiddleByDividing
  | searchMiddleUsingTwoPointers
  deriving DecidableEq, Repr

/-- What a command puts out: nothing, the lines of `print_list`, or the value it returns. -/
inductive Output
  | nothing
  | printed (lines : List (Int × Nat))
  | returned (value : Int)
  deriving DecidableEq, Repr

/-- A function that returns a value and leaves the list as it is. -/
def reads (s : ListState) (r : Except Stop Int) : Except Stop (Output × ListState) := do
  let value ← r
  return (.returned value, s)

/-- One command on the heap. -/
def perform (fuel : Nat) (s : ListState) : Command → Except Stop (Output × ListState)
  | .change op => do
    let s' ← step fuel s op
    return (.nothing, s')
  | .printList => do
    let lines ← printList fuel s
    return (.printed lines, s)
  | .getLength => do
    let len ← getLength fuel s
    return (.returned len, s)
  | .searchKey position => reads s (searchKey fuel s position)
  | .searchPosition value => reads s (searchPosition fuel s value)
  | .searchKeyAndCount value => reads s (searchKeyAndCount fuel s value)
  | .searchFromEnd position => reads s (searchFromEnd fuel s position)
  | .searchMiddleByDividing => reads s (searchMiddleByDividing fuel s)
  | .searchMiddleUsingTwoPointers => reads s (searchMiddleUsingTwoPointers fuel s)

/-! ## The commands on a list of values -/

instance : DecidablePred Indexed := fun v => inferInstanceAs (Decidable (0 ≤ v ∨ (capacity : Int) ∣ v))

/-- The values whose slot is not among those of `seen`. A value is remembered as long as `used` slots are not more than
`CAPACITY`. -/
def firstOfSlots (used : Int) : List Int → List Int → List Int
  | _, [] => []
  | seen, v :: vs =>
    if ∃ u ∈ seen, slotOf v = slotOf u then firstOfSlots used seen vs
    else if used > capacity then v :: firstOfSlots used seen vs
    else v :: firstOfSlots (used + 1) (v :: seen) vs

/-- Every other value, the first one included. -/
def everyOther : List Int → List Int
  | [] => []
  | [v] => [v]
  | v :: _ :: vs => v :: everyOther vs

/-- A change that needs a list of at least `n` values and walks off the end of a shorter one. -/
def needs (n : Nat) (vs ws : List Int) : Except Stop (List Int) :=
  if vs.length < n then .error .nullDeref else .ok ws

/-- What an operation makes of the values. -/
def change (vs : List Int) : Op → Except Stop (List Int)
  | .append v => .ok (vs ++ [v])
  | .insertToHead v => .ok (v :: vs)
  | .insert position v =>
    if position ∈ vs then .ok (vs.insertIdx (vs.idxOf position + 1) v) else .error .nullDeref
  | .deleteByValue v => needs 1 vs (vs.erase v)
  | .deleteByPosition position => .ok (if 0 ≤ position then vs.eraseIdx position.toNat else vs)
  | .deleteDuplicate => needs 1 vs (vs.destutter (· ≠ ·))
  | .deleteDuplicateUsingHash sizeUsed =>
    if ∀ v ∈ (if sizeUsed > capacity then vs.tail else vs), Indexed v then .ok (firstOfSlots sizeUsed [] vs)
    else .error .outOfBounds
  | .deleteAlternate => needs 1 vs (everyOther vs)
  | .reverse => needs 1 vs vs.reverse
  | .moveTailToHead => .ok (vs.getLast?.toList ++ vs.dropLast)
  | .insertAtMiddle v => needs 1 vs (vs.insertIdx (vs.length / 2 + 1) v)
  | .deleteMiddle => needs 2 vs (vs.eraseIdx (vs.length / 2))

/-- The value at an index, or -1. -/
def valueAt (vs : List Int) (index : Int) : Int := if 0 ≤ index then vs[index.toNat]?.getD (-1) else -1

/-- What `search_posision_from_end` returns. -/
def fromEnd (vs : List Int) (position : Int) : Except Stop Int :=
  if vs = [] then .ok (-1)
  else if position = vs.length then .ok (valueAt vs 0)
  else if ¬ FitsInt (vs.length - position) then .error .overflow
  else if position = 0 then .error .nullDeref
  else .ok (valueAt vs (vs.length - position))

/-- One command on the values. -/
def act (vs : List Int) : Command → Except Stop (Output × List Int)
  | .change op => do
    let ws ← change vs op
    return (.nothing, ws)
  | .printList => .ok (.printed vs.zipIdx, vs)
  | .getLength => .ok (.returned vs.length, vs)
  | .searchKey position => .ok (.returned (valueAt vs position), vs)
  | .searchPosition value => .ok (.returned (if value ∈ vs then (vs.idxOf value : Int) else -1), vs)
  | .searchKeyAndCount value => .ok (.returned (if vs = [] then -1 else (vs.count value : Int)), vs)
  | .searchFromEnd position => do
    let value ← fromEnd vs position
    return (.returned value, vs)
  | .searchMiddleByDividing | .searchMiddleUsingTwoPointers => .ok (.returned (valueAt vs (vs.length / 2 : Nat)), vs)

/-- The state owns a chain of nodes with these values. -/
def Represents (s : ListState) (vs : List Int) : Prop := ∃ xs, Holds s xs ∧ vals xs = vs

variable {s : ListState} {xs ys : List (Nat × Int)} {vs : List Int}

/-! ## Values of chains -/

theorem represents_initial : Represents initial [] := ⟨[], owns_empty, rfl⟩

theorem vals_evens (xs : List (Nat × Int)) : vals (evens xs) = everyOther (vals xs) := by
  induction xs using evens.induct with
  | case1 => rfl
  | case2 x => rfl
  | case3 x y xs ih => simp [evens, everyOther, ih]

theorem vals_destutter (xs : List (Nat × Int)) : vals (xs.destutter NeValue) = (vals xs).destutter (· ≠ ·) :=
  List.map_destutter fun _ _ _ _ => Iff.rfl

theorem vals_tailFirst (xs : List (Nat × Int)) :
    vals (tailFirst xs) = (vals xs).getLast?.toList ++ (vals xs).dropLast := by
  rcases nil_or_concat xs with rfl | ⟨ys, i, v, rfl⟩
  · rfl
  · simp [tailFirst, vals]

theorem vals_without (xs : List (Nat × Int)) (position : Int) :
    vals (without xs position) = if 0 ≤ position then (vals xs).eraseIdx position.toNat else vals xs := by
  unfold without vals
  by_cases h₀ : 0 ≤ position
  · by_cases h₁ : position < xs.length
    · rw [if_pos ⟨h₀, h₁⟩, if_pos h₀, List.eraseIdx_map]
    · rw [if_neg (fun h => h₁ h.2), if_pos h₀, List.eraseIdx_of_length_le (by simp; omega)]
  · rw [if_neg (fun h => h₀ h.1), if_neg h₀]

/-- The table remembers the slots of the values `seen`, and has `used` slots on its account. -/
structure Remembers (tb : Table) (used : Int) (seen : List Int) : Prop where
  sizeUsed : tb.sizeUsed = used
  has_iff : ∀ v, tb.has v = true ↔ ∃ u ∈ seen, slotOf v = slotOf u

theorem remembers_initTable (used : Int) : Remembers (initTable used) used [] :=
  ⟨rfl, fun v => by simp [has_initTable]⟩

/-- A full table stays as it is. -/
theorem Remembers.put_full {tb : Table} {used : Int} {seen : List Int} (hm : Remembers tb used seen)
    (hfull : used > capacity) (v : Int) : tb.put v = tb := by
  rw [Table.put, if_pos (hm.sizeUsed ▸ hfull)]

/-- An unmarked slot of another table is marked. -/
theorem Remembers.put {tb : Table} {used : Int} {seen : List Int} (hm : Remembers tb used seen)
    (hroom : ¬ used > capacity) {v : Int} (hv : ¬ tb.has v = true) : Remembers (tb.put v) (used + 1) (v :: seen) := by
  have hmark : (tb.items (slotOf v)).mark = 0 := by simpa [Table.has] using hv
  have hput : tb.put v = ⟨Function.update tb.items (slotOf v) ⟨v, 1⟩, tb.sizeUsed + 1⟩ := by
    rw [Table.put, if_neg (hm.sizeUsed ▸ hroom), if_pos hmark]
  refine ⟨by rw [hput, hm.sizeUsed], fun u => ?_⟩
  rw [hput]
  by_cases hu : slotOf u = slotOf v
  · simp [Table.has, hu]
  · have h := hm.has_iff u
    simp only [Table.has, Function.update_of_ne hu, List.mem_cons, exists_eq_or_imp, hu, false_or] at h ⊢
    exact h

/-- The values of the nodes that stay. -/
theorem kept_values {tb : Table} {used : Int} {seen : List Int} (hm : Remembers tb used seen) :
    vals (kept tb xs) = firstOfSlots used seen (vals xs) := by
  induction xs generalizing tb used seen with
  | nil => rfl
  | cons x xs ih =>
    rw [kept, vals_cons, firstOfSlots]
    by_cases hh : tb.has x.2 = true
    · rw [if_pos hh, if_pos ((hm.has_iff _).mp hh), ih hm]
    · rw [if_neg hh, if_neg (fun h => hh ((hm.has_iff _).mpr h)), vals_cons]
      by_cases hfull : used > capacity
      · rw [if_pos hfull, hm.put_full hfull, ih hm]
      · rw [if_neg hfull, ih (hm.put hfull hh)]

theorem left_initTable (n : Int) (xs : List (Nat × Int)) : left (initTable n) xs = kept (initTable n) xs := by
  cases xs with
  | nil => rfl
  | cons x xs => rw [left, kept, has_initTable, if_neg (by decide)]

theorem touched_initTable (n : Int) (xs : List (Nat × Int)) :
    touched (initTable n) xs = if n > capacity then (vals xs).tail else vals xs := by
  rw [touched, vals, List.map_tail]
  rfl

/-! ## Each operation -/

section Change

variable {op : Op} {f : Nat → Except Stop ListState} {n : Nat}

theorem changes (hv : change (vals xs) op = .ok (vals ys))
    (h : ∃ s', (∀ fuel, n < fuel → f fuel = .ok s') ∧ Holds s' ys) : EndsAlike Represents f (change (vals xs) op) := by
  obtain ⟨s', hf, ho⟩ := h
  rw [hv]
  exact .ok (ends_of_lt n hf) ⟨ys, ho, rfl⟩

theorem stops {e : Stop} (hv : change (vals xs) op = .error e) (h : ∀ fuel, n < fuel → f fuel = .error e) :
    EndsAlike Represents f (change (vals xs) op) := by
  rw [hv]
  exact .error (ends_of_lt n h)

/-- An operation that walks off the end of the lists it does not handle, those of fewer than `n` nodes. -/
theorem changes_needs {ws : List Int} (hv : change (vals xs) op = needs n (vals xs) ws)
    (hh : Handled xs op ↔ n ≤ xs.length) (hr : StepResult xs op f)
    (h : n ≤ xs.length → ∃ s' ys, Ends f (.ok s') ∧ Holds s' ys ∧ vals ys = ws) :
    EndsAlike Represents f (change (vals xs) op) := by
  rw [hv, needs, length_vals]
  by_cases hn : n ≤ xs.length
  · obtain ⟨s', ys, he, ho, rfl⟩ := h hn
    rw [if_neg (by omega)]
    exact .ok he ⟨ys, ho, rfl⟩
  · rw [if_pos (by omega)]
    exact .error (hr.resolve_left fun h => hn (hh.mp h.1)).2

theorem ne_nil_iff : xs ≠ [] ↔ 1 ≤ xs.length := List.length_pos_iff.symm

end Change

theorem insertIdx_behind {α : Type} (as bs : List α) (u v : α) :
    (as ++ u :: bs).insertIdx (as.length + 1) v = as ++ u :: v :: bs := by
  induction as with
  | nil => rfl
  | cons a as ih => rw [List.cons_append, List.length_cons, List.insertIdx_succ_cons, ih, List.cons_append]

theorem append_changes (ho : Holds s xs) (v : Int) :
    EndsAlike Represents (fun fuel => append fuel s v) (change (vals xs) (.append v)) := by
  obtain ⟨s', hr, ho'⟩ := append_spec ho v
  exact changes (by simp [change, vals]) ⟨s', fun fuel hf => hr fuel (le_of_lt hf), ho'⟩

theorem insertToHead_changes (ho : Holds s xs) (v : Int) :
    EndsAlike Represents (fun _ => insertToHead s v) (change (vals xs) (.insertToHead v)) := by
  obtain ⟨s', hr, ho'⟩ := insertToHead_spec ho v
  exact changes rfl ⟨s', fun fuel (_ : 0 < fuel) => hr, ho'⟩

theorem insert_changes (ho : Holds s xs) (position v : Int) :
    EndsAlike Represents (fun fuel => insert fuel s position v) (change (vals xs) (.insert position v)) := by
  rcases first_or_missing position xs with ⟨as, i, bs, rfl, hna⟩ | hx
  · refine changes ?_ (insert_found ho hna v)
    have hidx : (vals as ++ position :: vals bs).idxOf position = (vals as).length := by
      rw [List.idxOf_append_of_notMem hna, List.idxOf_cons_self, Nat.add_zero]
    rw [vals_append, vals_cons, change, if_pos (by simp), hidx, insertIdx_behind]
    simp
  · exact stops (if_neg hx) fun fuel hf => insert_missing ho hx v hf

theorem deleteByValue_changes (ho : Holds s xs) (v : Int) :
    EndsAlike Represents (fun fuel => deleteByValue fuel s v) (change (vals xs) (.deleteByValue v)) := by
  refine changes_needs rfl ne_nil_iff (deleteByValue_result ho v) fun hl => ?_
  rcases first_or_missing v xs with ⟨as, i, bs, rfl, hna⟩ | hx
  · obtain ⟨s', hr, ho'⟩ := deleteByValue_found ho hna
    refine ⟨s', _, ends_of_lt _ hr, ho', ?_⟩
    rw [vals_append, vals_append, vals_cons, List.erase_append_right _ hna, List.erase_cons_head]
  · refine ⟨s, xs, ends_of_lt _ fun fuel hf => deleteByValue_missing ho (ne_nil_iff.mpr hl) hx hf, ho, ?_⟩
    rw [List.erase_of_not_mem hx]

theorem deleteByPosition_changes (ho : Holds s xs) (position : Int) :
    EndsAlike Represents (fun fuel => deleteByPosition fuel s position)
      (change (vals xs) (.deleteByPosition position)) := by
  refine changes ?_ (deleteByPosition_without ho position)
  rw [vals_without, change]

theorem deleteDuplicate_changes (ho : Holds s xs) :
    EndsAlike Represents (fun fuel => deleteDuplicate fuel s) (change (vals xs) .deleteDuplicate) := by
  refine changes_needs rfl ne_nil_iff (deleteDuplicate_result ho) fun hl => ?_
  obtain ⟨s', hr, ho'⟩ := deleteDuplicate_spec ho (ne_nil_iff.mpr hl)
  exact ⟨s', _, ⟨_, hr⟩, ho', vals_destutter xs⟩

/-- The values need not be allowed ones: the first one without a slot stops the run. -/
theorem deleteDuplicateUsingHash_changes (ho : Holds s xs) (n : Int) :
    EndsAlike Represents (fun fuel => step fuel s (.deleteDuplicateUsingHash n))
      (change (vals xs) (.deleteDuplicateUsingHash n)) := by
  have hstep : ∀ fuel, step fuel s (.deleteDuplicateUsingHash n) =
      deleteDuplicateUsingHash fuel s (initTable n) >>= fun r => .ok r.1 := fun _ => rfl
  by_cases hv : ∀ u ∈ touched (initTable n) xs, Indexed u
  · obtain ⟨s', tb', hr, ho'⟩ := deleteDuplicateUsingHash_left ho _ hv
    rw [left_initTable] at ho'
    rw [touched_initTable] at hv
    refine changes (n := xs.length) ?_ ⟨s', fun fuel hf => ?_, ho'⟩
    · rw [change, if_pos hv, kept_values (remembers_initTable n)]
    · rw [hstep, hr fuel (le_of_lt hf), ok_bind]
  · refine stops (e := .outOfBounds) (n := xs.length) ?_ fun fuel hf => ?_
    · rw [touched_initTable] at hv
      exact if_neg hv
    · rw [hstep, deleteDuplicateUsingHash_outside ho _ hv (le_of_lt hf), error_bind]

theorem deleteAlternate_changes (ho : Holds s xs) :
    EndsAlike Represents (fun fuel => deleteAlternate fuel s) (change (vals xs) .deleteAlternate) := by
  refine changes_needs rfl ne_nil_iff (deleteAlternate_result ho) fun hl => ?_
  obtain ⟨s', hr, ho'⟩ := deleteAlternate_spec ho (ne_nil_iff.mpr hl)
  exact ⟨s', _, ends_of_lt _ hr, ho', vals_evens xs⟩

theorem reverse_changes (ho : Holds s xs) :
    EndsAlike Represents (fun fuel => reverse fuel s) (change (vals xs) .reverse) := by
  refine changes_needs rfl ne_nil_iff (reverse_result ho) fun hl => ?_
  obtain ⟨s', hr, ho'⟩ := reverse_spec ho (ne_nil_iff.mpr hl)
  exact ⟨s', _, ends_of_lt _ hr, ho', List.map_reverse⟩

theorem moveTailToHead_changes (ho : Holds s xs) :
    EndsAlike Represents (fun fuel => moveTailToHead fuel s) (change (vals xs) .moveTailToHead) := by
  rw [change, ← vals_tailFirst]
  by_cases hl : xs.length ≤ 1
  · rw [tailFirst_short hl]
    exact .ok ⟨0, fun fuel _ => moveTailToHead_short ho.chain hl fuel⟩ ⟨xs, ho, rfl⟩
  · obtain ⟨zs, j, w, i, v, rfl⟩ := exists_last_two (not_le.mp hl)
    have ho₂ : Holds s (zs ++ [(j, w), (i, v)]) := by simpa using ho
    obtain ⟨s', hr, ho'⟩ := moveTailToHead_spec ho₂
    rw [tailFirst_concat]
    exact .ok (ends_of_lt _ hr) ⟨_, ho', rfl⟩

theorem insertAtMiddle_changes (ho : Holds s xs) (v : Int) :
    EndsAlike Represents (fun fuel => step fuel s (.insertAtMiddle v)) (change (vals xs) (.insertAtMiddle v)) := by
  refine changes_needs rfl ne_nil_iff (insertAtMiddle_result ho v) fun hl => ?_
  have hne := ne_nil_iff.mpr hl
  obtain ⟨s', hr, ho'⟩ := step_insertAtMiddle ho hne v
  refine ⟨s', _, ends_of_lt _ hr, ho', ?_⟩
  obtain ⟨as, i, u, bs, rfl, hm⟩ := exists_middle hne
  have hcut : as ++ (i, u) :: bs = (as ++ [(i, u)]) ++ bs := by simp
  have hlen : (as ++ (i, u) :: bs).length / 2 + 1 = (as ++ [(i, u)]).length := by rw [← hm]; simp
  rw [length_vals, hlen, hcut, List.take_left, List.drop_left]
  have hidx := insertIdx_behind (vals as) (vals bs) u v
  simpa [vals] using hidx.symm

theorem deleteMiddle_changes (ho : Holds s xs) :
    EndsAlike Represents (fun fuel => step fuel s .deleteMiddle) (change (vals xs) .deleteMiddle) := by
  refine changes_needs rfl Iff.rfl (deleteMiddle_result ho) fun h2 => ?_
  obtain ⟨s', hr, ho'⟩ := step_deleteMiddle ho h2
  exact ⟨s', _, ends_of_lt _ hr, ho', by rw [vals, vals, List.length_map, List.eraseIdx_map]⟩

/-- Every operation does to the heap what `change` does to the values. -/
theorem step_changes (ho : Holds s xs) (op : Op) :
    EndsAlike Represents (fun fuel => step fuel s op) (change (vals xs) op) := by
  cases op with
  | append v => exact append_changes ho v
  | insertToHead v => exact insertToHead_changes ho v
  | insert position v => exact insert_changes ho position v
  | deleteByValue v => exact deleteByValue_changes ho v
  | deleteByPosition position => exact deleteByPosition_changes ho position
  | deleteDuplicate => exact deleteDuplicate_changes ho
  | deleteDuplicateUsingHash n => exact deleteDuplicateUsingHash_changes ho n
  | deleteAlternate => exact deleteAlternate_changes ho
  | reverse => exact reverse_changes ho
  | moveTailToHead => exact moveTailToHead_changes ho
  | insertAtMiddle v => exact insertAtMiddle_changes ho v
  | deleteMiddle => exact deleteMiddle_changes ho

/-! ## Each function that reads -/

theorem valueAt_vals (xs : List (Nat × Int)) (position : Int) : valueAt (vals xs) position = keyAt xs position := rfl

section Reads

variable {value : Nat → Except Stop Int} {command : Command} {v : Int}

theorem reads_ok (ho : Holds s xs) (hact : act (vals xs) command = .ok (.returned v, vals xs))
    (hv : ∀ fuel, xs.length < fuel → value fuel = .ok v) :
    EndsAlike (Shows Represents) (fun fuel => reads s (value fuel)) (act (vals xs) command) := by
  rw [hact]
  refine .ok (s := (.returned v, s)) (ends_of_lt xs.length fun fuel hf => ?_) ⟨rfl, xs, ho, rfl⟩
  rw [reads, hv fuel hf]
  rfl

theorem reads_error {e : Stop} (hact : act (vals xs) command = .error e)
    (hv : ∀ fuel, xs.length < fuel → value fuel = .error e) :
    EndsAlike (Shows Represents) (fun fuel => reads s (value fuel)) (act (vals xs) command) := by
  rw [hact]
  refine .error (ends_of_lt xs.length fun fuel hf => ?_)
  rw [reads, hv fuel hf, error_bind]

end Reads

theorem searchKeyAndCount_act (ho : Holds s xs) (v : Int) :
    EndsAlike (Shows Represents) (fun fuel => reads s (searchKeyAndCount fuel s v))
      (act (vals xs) (.searchKeyAndCount v)) := by
  by_cases hne : xs = []
  · subst hne
    refine reads_ok ho (v := -1) rfl fun fuel _ => ?_
    rw [searchKeyAndCount, head_none ho]
    rfl
  · have hvs : vals xs ≠ [] := by simpa [vals] using hne
    refine reads_ok ho ?_ fun fuel hf => searchKeyAndCount_spec ho.chain hne v hf
    rw [act, if_neg hvs]

theorem searchFromEnd_act (ho : Holds s xs) (position : Int) :
    EndsAlike (Shows Represents) (fun fuel => reads s (searchFromEnd fuel s position))
      (act (vals xs) (.searchFromEnd position)) := by
  have hact : act (vals xs) (.searchFromEnd position) =
      fromEnd (vals xs) position >>= fun v => .ok (.returned v, vals xs) := rfl
  by_cases hne : xs = []
  · subst hne
    refine reads_ok ho rfl fun fuel _ => ?_
    rw [searchFromEnd, head_none ho]
    rfl
  · have hvs : vals xs ≠ [] := by simpa [vals] using hne
    have hpos := List.length_pos_iff.mpr hne
    rw [fromEnd, if_neg hvs, length_vals] at hact
    by_cases hlen : position = xs.length
    · rw [if_pos hlen, ok_bind, valueAt_vals] at hact
      refine reads_ok ho hact fun fuel hf => ?_
      rw [searchFromEnd_len ho.chain hne hf, if_pos hlen]
    · rw [if_neg hlen] at hact
      by_cases hfit : FitsInt (xs.length - position)
      · rw [if_neg (not_not.mpr hfit)] at hact
        by_cases h0 : position = 0
        · rw [if_pos h0] at hact
          refine reads_error hact fun fuel hf => searchFromEnd_zero ho.chain hne hf h0 ?_
          have := hfit.2
          omega
        · rw [if_neg h0, ok_bind, valueAt_vals] at hact
          exact reads_ok ho hact fun fuel hf => searchFromEnd_spec ho.chain hne hf h0 hfit.1 hfit.2
      · rw [if_pos hfit] at hact
        exact reads_error hact fun fuel hf => searchFromEnd_overflow ho.chain hne hf hlen hfit

/-! ## Runs -/

/-- Every command does to the heap what `act` does to the values. -/
theorem perform_act (ho : Holds s xs) (command : Command) :
    EndsAlike (Shows Represents) (fun fuel => perform fuel s command) (act (vals xs) command) := by
  cases command with
  | change op =>
    obtain ⟨x, he, hx⟩ := step_changes ho op
    generalize hy : change (vals xs) op = y at hx
    have hact : act (vals xs) (.change op) = y >>= fun ws => .ok (.nothing, ws) := by rw [act, hy]; rfl
    obtain ⟨n, hn⟩ := he
    rw [hact]
    cases hx with
    | error e => exact .error ⟨n, fun fuel hf => by simp only [perform, hn fuel hf, error_bind]⟩
    | @ok s' ws hr =>
      refine .ok (s := (.nothing, s')) ⟨n, fun fuel hf => ?_⟩ ⟨rfl, hr⟩
      simp only [perform, hn fuel hf, ok_bind, pure_eq_ok]
  | printList =>
    refine .ok (s := (.printed (vals xs).zipIdx, s)) (ends_of_lt xs.length fun fuel hf => ?_) ⟨rfl, xs, ho, rfl⟩
    rw [perform, printList_spec ho hf]
    rfl
  | getLength =>
    refine .ok (s := (.returned (vals xs).length, s)) (ends_of_lt xs.length fun fuel hf => ?_) ⟨rfl, xs, ho, rfl⟩
    rw [perform, getLength_spec ho.chain hf, length_vals]
    rfl
  | searchKey position => exact reads_ok ho rfl fun fuel hf => searchKey_spec ho.chain position hf
  | searchPosition v => exact reads_ok ho rfl fun fuel hf => searchPosition_spec ho.chain v hf
  | searchKeyAndCount v => exact searchKeyAndCount_act ho v
  | searchFromEnd position => exact searchFromEnd_act ho position
  | searchMiddleByDividing =>
    refine reads_ok ho ?_ fun fuel hf => searchMiddleByDividing_spec ho.chain hf
    rw [act, middleValue_eq, valueAt_vals, length_vals]
  | searchMiddleUsingTwoPointers =>
    refine reads_ok ho ?_ fun fuel hf => searchMiddleUsingTwoPointers_spec ho.chain hf
    rw [act, middleValue_eq, valueAt_vals, length_vals]

theorem refines_perform : Refines Represents perform act := by
  rintro s vs command ⟨xs, ho, rfl⟩
  exact perform_act ho command

/-- **Programs over the heap list are programs over a list of values**: any sequence of commands, from any state that
represents the values, puts out what the same commands put out on the values, stops exactly where and why they stop, and
otherwise ends in a state that represents the values they end with. -/
theorem programs_refine (hr : Represents s vs) (commands : List Command) :
    ∃ r n, (∀ fuel, n ≤ fuel → exec (perform fuel) s commands = ((exec act vs commands).1, r)) ∧
      Alike Represents r (exec act vs commands).2 := refines_perform.exec hr commands

/-- A program on the empty list: the second `delete_middle` is on a list of one node. -/
theorem initial_program : Represents initial [] ∧ ∃ r n, (∀ fuel, n ≤ fuel →
    exec (perform fuel) initial [.change (.append 5), .change (.insertToHead 7), .printList, .change .deleteMiddle,
      .searchKey 0, .change .deleteMiddle, .getLength] =
      ([.nothing, .nothing, .printed [(7, 0), (5, 1)], .nothing, .returned 7], r)) ∧
    r = .error .nullDeref := by
  obtain ⟨r, n, hn, hr⟩ := programs_refine represents_initial [.change (.append 5), .change (.insertToHead 7),
    .printList, .change .deleteMiddle, .searchKey 0, .change .deleteMiddle, .getLength]
  refine ⟨represents_initial, r, n, hn, ?_⟩
  cases hr
  rfl

end SideWork.LinkedList
