import SideWork.Lib.CArray
import SideWork.LinkedList.HashDuplicate
import SideWork.LinkedList.Rearrange

/-!
# Any sequence of list operations

`step fuel s op` runs one operation; `insert_at_middle` and `delete_middle` run on the node that `search_middle`
returns, as their `main`s do. `Reachable` are the states that sequences of operations reach from the empty list without
stopping. Every operation keeps the ownership of the chain or dereferences `NULL` (`step_holds`), so in every reachable
state the chain is a proper list and nothing is leaked (`reachable_wellFormed`).

`step_result` says what a step can do: on the lists it handles (`Handled`) it ends in a list, the old one if there was
nothing to act on (`Idle`), and on the others it dereferences `NULL`. The results above rest on it, and so does

- `step_safe_iff`: when an operation is safe.

`step_insertAtMiddle` and `step_deleteMiddle` say where the middle is; a list of one node has no middle that
`delete_middle` can delete (`deletesMiddle_iff`).
-/

namespace SideWork.LinkedList

/-- The operations on a list. -/
inductive Op
  | append (newValue : Int)
  | insertToHead (newValue : Int)
  | insert (position newValue : Int)
  | deleteByValue (deleteValue : Int)
  | deleteByPosition (deletePosition : Int)
  | deleteDuplicate
  | deleteDuplicateUsingHash (sizeUsed : Int)
  | deleteAlternate
  | reverse
  | moveTailToHead
  | insertAtMiddle (newValue : Int)
  | deleteMiddle
  deriving DecidableEq, Repr

/-- One operation. The hash table is fresh from `init_table`; `size_used` is what earlier calls left in it. -/
def step (fuel : Nat) (s : ListState) : Op → Except Stop ListState
  | .append v => append fuel s v
  | .insertToHead v => insertToHead s v
  | .insert p v => insert fuel s p v
  | .deleteByValue v => deleteByValue fuel s v
  | .deleteByPosition p => deleteByPosition fuel s p
  | .deleteDuplicate => deleteDuplicate fuel s
  | .deleteDuplicateUsingHash n => do
    let (s, _) ← deleteDuplicateUsingHash fuel s (initTable n)
    return s
  | .deleteAlternate => deleteAlternate fuel s
  | .reverse => reverse fuel s
  | .moveTailToHead => moveTailToHead fuel s
  | .insertAtMiddle v => do
    let middle ← searchMiddle fuel s
    insertAtMiddle fuel s middle v
  | .deleteMiddle => do
    let middle ← searchMiddle fuel s
    deleteMiddle fuel s middle

/-- `delete_duplicate_using_hash` is called on non-negative values only. -/
def Allowed (s : ListState) : Op → Prop
  | .deleteDuplicateUsingHash _ => ∀ i c, s.heap.cell i = some c → 0 ≤ c.value
  | _ => True

/-- The states that sequences of operations reach from the empty list. -/
inductive Reachable : ListState → Prop
  | initial : Reachable initial
  | step {s s' : ListState} {op : Op} : Reachable s → Allowed s op → Ends (fun fuel => step fuel s op) (.ok s') →
      Reachable s'

/-! ## The invariant, in terms of the node map -/

/-- Following the `next` fields of the node map from `p` visits the nodes `is` and ends in `NULL`. -/
def Visits (nodes : List (Cell Int)) : Option Nat → List Nat → Prop
  | p, [] => p = none
  | p, i :: is => p = some i ∧ ∃ c, nodes[i]? = some c ∧ Visits nodes c.next is

/-- The chain from `head` ends in `NULL` and visits no node twice and no freed node, no node was freed twice, and every
allocated node that was not freed is on the chain. -/
structure WellFormed (s : ListState) (is : List Nat) : Prop where
  visits : Visits s.heap.nodes s.head is
  nodup : is.Nodup
  live : ∀ i ∈ is, i ∉ s.heap.freed
  freedOnce : s.heap.freed.Nodup
  noLeak : ∀ i < s.heap.nodes.length, i ∉ s.heap.freed → i ∈ is

variable {s : ListState} {xs : List (Nat × Int)}

theorem visits_of_seg {h : Heap Int} {p : Option Nat} (hs : Seg h.cell p xs none) : Visits h.nodes p (ids xs) := by
  induction xs generalizing p with
  | nil => exact hs
  | cons x xs ih =>
    obtain ⟨hp, n, hc, hx⟩ := hs
    exact ⟨hp, _, (Heap.cell_live hc).2, ih hx⟩

theorem wellFormed_of_holds (ho : Holds s xs) : WellFormed s (ids xs) where
  visits := visits_of_seg ho.chain
  nodup := ho.ids_nodup
  live := fun _ hi => ho.notMem_freed hi
  freedOnce := ho.freed_nodup
  noLeak := fun _ hi hf => (ho.mem_iff.mp hi).resolve_left hf

/-! ## One step -/

/-- The outcome of a step: a state that owns its chain, or a `NULL` dereference. -/
def StepOk (f : Nat → Except Stop ListState) : Prop :=
  (∃ s' xs', Ends f (.ok s') ∧ Holds s' xs') ∨ Ends f (.error .nullDeref)

theorem StepOk.holds {f : Nat → Except Stop ListState} {s' : ListState} (hf : StepOk f) (hs : Ends f (.ok s')) :
    ∃ xs', Holds s' xs' := by
  rcases hf with ⟨t, xs', ht, ho⟩ | hn
  · cases ht.unique hs
    exact ⟨xs', ho⟩
  · cases hn.unique hs

/-- There is nothing for the operation to act on. -/
def Idle (xs : List (Nat × Int)) : Op → Prop
  | .append _ | .insertToHead _ => False
  | .insert position _ => position ∉ vals xs
  | .deleteByValue v => v ∉ vals xs
  | .deleteByPosition d => d < 0 ∨ (xs.length : Int) ≤ d
  | .deleteDuplicate => xs.IsChain NeValue
  | .deleteAlternate | .reverse | .moveTailToHead => xs.length ≤ 1
  | .deleteDuplicateUsingHash _ | .insertAtMiddle _ | .deleteMiddle => xs = []

/-- The lists an operation handles without walking off the end. -/
def Handled (xs : List (Nat × Int)) : Op → Prop
  | .append _ | .insertToHead _ | .deleteByPosition _ | .deleteDuplicateUsingHash _ | .moveTailToHead => True
  | .insert position _ => position ∈ vals xs
  | .deleteByValue _ | .deleteDuplicate | .deleteAlternate | .reverse | .insertAtMiddle _ => xs ≠ []
  | .deleteMiddle => 2 ≤ xs.length

/-- The run ends in a list, which is the old one if there was nothing to act on. -/
def Safe (xs : List (Nat × Int)) (op : Op) (f : Nat → Except Stop ListState) : Prop :=
  ∃ s' xs', Ends f (.ok s') ∧ Holds s' xs' ∧ (Idle xs op → xs' = xs)

/-- What a step can do: a safe run on the lists it handles, a `NULL` dereference on the others. -/
def StepResult (xs : List (Nat × Int)) (op : Op) (f : Nat → Except Stop ListState) : Prop :=
  (Handled xs op ∧ Safe xs op f) ∨ (¬ Handled xs op ∧ Ends f (.error .nullDeref))

section Result

variable {op : Op} {f : Nat → Except Stop ListState} {n : Nat}

theorem StepResult.stepOk (h : StepResult xs op f) : StepOk f := by
  rcases h with ⟨-, s', xs', he, ho, -⟩ | ⟨-, hn⟩
  · exact Or.inl ⟨s', xs', he, ho⟩
  · exact Or.inr hn

theorem StepResult.safe_iff (h : StepResult xs op f) : Safe xs op f ↔ Handled xs op := by
  rcases h with ⟨hh, hs⟩ | ⟨hh, hn⟩
  · exact iff_of_true hs hh
  · apply iff_of_false _ hh
    rintro ⟨s', _, he, -⟩
    cases hn.unique he

theorem result_of_spec {ys : List (Nat × Int)} (hh : Handled xs op)
    (h : ∃ s', (∀ fuel, n < fuel → f fuel = .ok s') ∧ Holds s' ys) (hi : Idle xs op → ys = xs) :
    StepResult xs op f := by
  obtain ⟨s', hf, ho⟩ := h
  exact Or.inl ⟨hh, s', ys, ends_of_lt n hf, ho, hi⟩

theorem result_unchanged (ho : Holds s xs) (hh : Handled xs op) (h : ∀ fuel, n < fuel → f fuel = .ok s) :
    StepResult xs op f := result_of_spec hh ⟨s, h, ho⟩ fun _ => rfl

theorem result_null (hh : ¬ Handled xs op) (h : ∀ fuel, n < fuel → f fuel = .error .nullDeref) :
    StepResult xs op f := Or.inr ⟨hh, ends_of_lt n h⟩

end Result

theorem head_none (ho : Holds s []) : s.head = none := ho.chain

theorem nil_or_single {ys : List (Nat × Int)} (hl : ys.length ≤ 1) : ys = [] ∨ ∃ x, ys = [x] := by
  match ys, hl with
  | [], _ => exact Or.inl rfl
  | [x], _ => exact Or.inr ⟨x, rfl⟩

/-- `append`. -/
theorem append_result (ho : Holds s xs) (v : Int) : StepResult xs (.append v) fun fuel => append fuel s v := by
  obtain ⟨s', hr, ho'⟩ := append_spec ho v
  exact result_of_spec trivial ⟨s', fun fuel hf => hr fuel (le_of_lt hf), ho'⟩ False.elim

/-- `insert_to_head`. -/
theorem insertToHead_result (ho : Holds s xs) (v : Int) :
    StepResult xs (.insertToHead v) fun _ => insertToHead s v := by
  obtain ⟨s', hr, ho'⟩ := insertToHead_spec ho v
  exact result_of_spec trivial ⟨s', fun fuel (_ : 0 < fuel) => hr, ho'⟩ False.elim

/-- `insert` behind a value. -/
theorem insert_result (ho : Holds s xs) (position v : Int) :
    StepResult xs (.insert position v) fun fuel => insert fuel s position v := by
  rcases first_or_missing position xs with ⟨as, i, bs, rfl, hna⟩ | hx
  · have hmem : position ∈ vals (as ++ (i, position) :: bs) := by simp [vals]
    exact result_of_spec hmem (insert_found ho hna v) fun hi => absurd hmem hi
  · exact result_null hx fun fuel hf => insert_missing ho hx v hf

/-- `delete` by value. -/
theorem deleteByValue_result (ho : Holds s xs) (v : Int) :
    StepResult xs (.deleteByValue v) fun fuel => deleteByValue fuel s v := by
  rcases first_or_missing v xs with ⟨as, i, bs, rfl, hna⟩ | hx
  · have hmem : v ∈ vals (as ++ (i, v) :: bs) := by simp [vals]
    exact result_of_spec (by simp [Handled]) (deleteByValue_found ho hna) fun hi => absurd hmem hi
  · by_cases hne : xs = []
    · subst hne
      exact result_null (fun hh => hh rfl) fun fuel (_ : 0 < fuel) => deleteByValue_null (head_none ho) fuel
    · exact result_unchanged ho hne fun fuel hf => deleteByValue_missing ho hne hx hf

/-- `delete` by position. -/
theorem deleteByPosition_result (ho : Holds s xs) (d : Int) :
    StepResult xs (.deleteByPosition d) fun fuel => deleteByPosition fuel s d := by
  refine result_of_spec trivial (deleteByPosition_without ho d) fun (hi : d < 0 ∨ (xs.length : Int) ≤ d) => ?_
  exact if_neg (by omega)

/-- `delete_duplicate` in a sorted list. -/
theorem deleteDuplicate_result (ho : Holds s xs) :
    StepResult xs .deleteDuplicate fun fuel => deleteDuplicate fuel s := by
  by_cases hne : xs = []
  · subst hne
    refine result_null (fun hh => hh rfl) fun fuel (hf : 0 < fuel) => ?_
    obtain ⟨f, rfl⟩ := exists_succ hf
    exact deleteDuplicate_null (head_none ho) f
  · obtain ⟨s', hr, ho'⟩ := deleteDuplicate_spec ho hne
    refine result_of_spec hne ⟨s', fun fuel hf => hr fuel (le_of_lt hf), ho'⟩ fun hi => ?_
    exact List.destutter_of_isChain _ _ hi

/-- `delete_duplicate` with the hash table, on non-negative values. -/
theorem deleteDuplicateUsingHash_result (ho : Holds s xs) (n : Int) (ha : Allowed s (.deleteDuplicateUsingHash n)) :
    StepResult xs (.deleteDuplicateUsingHash n) fun fuel => step fuel s (.deleteDuplicateUsingHash n) := by
  have hv : ∀ u ∈ vals xs, 0 ≤ u := by
    intro u hu
    obtain ⟨⟨i, w⟩, hx, rfl⟩ := List.mem_map.mp hu
    obtain ⟨as, bs, rfl⟩ := List.append_of_mem hx
    obtain ⟨_, _, rfl, m, hc, _⟩ := seg_append.mp ho.chain
    exact ha i _ hc
  obtain ⟨s', tb', hr, ho'⟩ := deleteDuplicateUsingHash_spec ho hv n
  refine result_of_spec trivial ⟨s', fun fuel (hf : xs.length < fuel) => ?_, ho'⟩ ?_
  · rw [step, hr fuel (le_of_lt hf)]
    rfl
  · rintro rfl
    rfl

/-- `delete_alternate`. -/
theorem deleteAlternate_result (ho : Holds s xs) :
    StepResult xs .deleteAlternate fun fuel => deleteAlternate fuel s := by
  by_cases hne : xs = []
  · subst hne
    exact result_null (fun hh => hh rfl) fun fuel (_ : 0 < fuel) => deleteAlternate_null (head_none ho) fuel
  · refine result_of_spec hne (deleteAlternate_spec ho hne) fun hi => ?_
    obtain rfl | ⟨x, rfl⟩ := nil_or_single hi <;> rfl

/-- `reverse`. -/
theorem reverse_result (ho : Holds s xs) : StepResult xs .reverse fun fuel => reverse fuel s := by
  by_cases hne : xs = []
  · subst hne
    exact result_null (fun hh => hh rfl) fun fuel (_ : 0 < fuel) => reverse_null (head_none ho) fuel
  · refine result_of_spec hne (reverse_spec ho hne) fun hi => ?_
    obtain rfl | ⟨x, rfl⟩ := nil_or_single hi <;> rfl

/-- `insert_at_middle` on the node that `search_middle` returns. -/
theorem step_insertAtMiddle (ho : Holds s xs) (hne : xs ≠ []) (v : Int) :
    ∃ s', (∀ fuel, xs.length < fuel → step fuel s (.insertAtMiddle v) = .ok s') ∧
      Holds s' (xs.take (xs.length / 2 + 1) ++ (s.heap.nodes.length, v) :: xs.drop (xs.length / 2 + 1)) := by
  obtain ⟨as, i, u, bs, rfl, hl⟩ := exists_middle hne
  obtain ⟨s', hr, ho'⟩ := insertAtMiddle_spec ho v
  have hcut : as ++ (i, u) :: bs = (as ++ [(i, u)]) ++ bs := by simp
  have hlen : (as ++ (i, u) :: bs).length / 2 + 1 = (as ++ [(i, u)]).length := by rw [← hl]; simp
  refine ⟨s', fun fuel hf => ?_, ?_⟩
  · rw [List.length_append] at hf
    rw [step, searchMiddle_spec ho hl (by omega), ok_bind, hr fuel (by omega)]
  · rw [hlen, hcut, List.take_left, List.drop_left]
    simpa using ho'

theorem insertAtMiddle_result (ho : Holds s xs) (v : Int) :
    StepResult xs (.insertAtMiddle v) fun fuel => step fuel s (.insertAtMiddle v) := by
  by_cases hne : xs = []
  · subst hne
    refine result_null (fun hh => hh rfl) fun fuel (hf : 0 < fuel) => ?_
    obtain ⟨f, rfl⟩ := exists_succ hf
    have hn := head_none ho
    simp only [step, searchMiddle, hn, pure_eq_ok, ok_bind]
    exact insertAtMiddle_null hn v f
  · exact result_of_spec hne (step_insertAtMiddle ho hne v) fun hi => absurd hi hne

/-- `delete_middle` on the node that `search_middle` returns. -/
theorem step_deleteMiddle (ho : Holds s xs) (h2 : 2 ≤ xs.length) :
    ∃ s', (∀ fuel, xs.length < fuel → step fuel s .deleteMiddle = .ok s') ∧
      Holds s' (xs.eraseIdx (xs.length / 2)) := by
  obtain ⟨as, i, u, bs, rfl, hl⟩ := exists_middle (List.ne_nil_of_length_pos (by omega : 0 < xs.length))
  rcases nil_or_concat as with rfl | ⟨zs, j, w, rfl⟩
  · simp only [List.length_nil] at hl
    omega
  · have ho₂ : Holds s (zs ++ (j, w) :: (i, u) :: bs) := by simpa using ho
    obtain ⟨s', hr, ho'⟩ := deleteMiddle_spec ho₂
    refine ⟨s', fun fuel hf => ?_, ?_⟩
    · simp only [List.length_append, List.length_singleton] at hf
      rw [step, searchMiddle_spec ho hl (by simp only [List.length_append, List.length_singleton]; omega), ok_bind]
      exact hr fuel (by omega)
    · rw [← hl, eraseIdx_mid]
      simpa using ho'

/-- The middle of a list of one node is the first node. -/
theorem step_deleteMiddle_single (ho : Holds s xs) (h1 : xs.length = 1) {fuel : Nat} (hf : 1 < fuel) :
    step fuel s .deleteMiddle = .error .nullDeref := by
  obtain ⟨⟨i, u⟩, rfl⟩ := List.length_eq_one_iff.mp h1
  have ho₀ : Holds s ([] ++ (i, u) :: []) := ho
  rw [step, searchMiddle_spec ho₀ (by simp) (by simp only [List.length_nil]; omega), ok_bind]
  exact deleteMiddle_head ho hf

theorem deleteMiddle_result (ho : Holds s xs) : StepResult xs .deleteMiddle fun fuel => step fuel s .deleteMiddle := by
  by_cases h2 : 2 ≤ xs.length
  · exact result_of_spec h2 (step_deleteMiddle ho h2) fun hi => by simp [show xs = [] from hi] at h2
  · rcases nil_or_single (by omega : xs.length ≤ 1) with rfl | ⟨x, rfl⟩
    · refine result_null h2 fun fuel (hf : 0 < fuel) => ?_
      obtain ⟨f, rfl⟩ := exists_succ hf
      have hn := head_none ho
      simp only [step, searchMiddle, hn, pure_eq_ok, ok_bind]
      exact deleteMiddle_null hn none f
    · exact result_null h2 fun fuel hf => step_deleteMiddle_single ho rfl hf

/-- `move_tail_to_head`. -/
theorem moveTailToHead_result (ho : Holds s xs) :
    StepResult xs .moveTailToHead fun fuel => moveTailToHead fuel s := by
  by_cases hl : xs.length ≤ 1
  · exact result_unchanged ho trivial fun fuel (_ : 0 < fuel) => moveTailToHead_short ho.chain hl fuel
  · obtain ⟨zs, j, w, i, v, rfl⟩ := exists_last_two (not_le.mp hl)
    have ho₂ : Holds s (zs ++ [(j, w), (i, v)]) := by simpa using ho
    exact result_of_spec trivial (moveTailToHead_spec ho₂) fun hi => absurd hi hl

/-- What every operation does to a list. -/
theorem step_result (ho : Holds s xs) {op : Op} (ha : Allowed s op) :
    StepResult xs op fun fuel => step fuel s op := by
  cases op with
  | append v => exact append_result ho v
  | insertToHead v => exact insertToHead_result ho v
  | insert position v => exact insert_result ho position v
  | deleteByValue v => exact deleteByValue_result ho v
  | deleteByPosition d => exact deleteByPosition_result ho d
  | deleteDuplicate => exact deleteDuplicate_result ho
  | deleteDuplicateUsingHash n => exact deleteDuplicateUsingHash_result ho n ha
  | deleteAlternate => exact deleteAlternate_result ho
  | reverse => exact reverse_result ho
  | moveTailToHead => exact moveTailToHead_result ho
  | insertAtMiddle v => exact insertAtMiddle_result ho v
  | deleteMiddle => exact deleteMiddle_result ho

/-- Every operation keeps the ownership of the chain, or dereferences `NULL`. -/
theorem step_holds (ho : Holds s xs) {op : Op} (ha : Allowed s op) : StepOk fun fuel => step fuel s op :=
  (step_result ho ha).stepOk

/-! ## Empty lists and missing values -/

/-- **An operation is safe on a list exactly when it handles it**: `insert` needs the value it inserts behind, and
`delete` by value, `delete_duplicate`, `delete_alternate` and `reverse` a node. -/
theorem step_safe_iff (ho : Holds s xs) {op : Op} (ha : Allowed s op) :
    Safe xs op (fun fuel => step fuel s op) ↔ Handled xs op := (step_result ho ha).safe_iff

/-- Deleting position 3 of an empty list is safe. -/
theorem deleteByPosition_empty_safe :
    Holds initial [] ∧ Safe [] (.deleteByPosition 3) (fun fuel => step fuel initial (.deleteByPosition 3)) := by
  have ha : Allowed initial (.deleteByPosition 3) := trivial
  exact ⟨owns_empty, (step_safe_iff owns_empty ha).mpr trivial⟩

/-- Reversing an empty list dereferences `NULL`. -/
theorem reverse_empty_unsafe : Holds initial [] ∧ Ends (fun fuel => step fuel initial .reverse) (.error .nullDeref) ∧
    ¬ Safe [] .reverse (fun fuel => step fuel initial .reverse) := by
  have hn : Ends (fun fuel => step fuel initial .reverse) (.error .nullDeref) := ⟨0, fun fuel _ => rfl⟩
  refine ⟨owns_empty, hn, ?_⟩
  rintro ⟨s', _, he, -⟩
  cases hn.unique he

/-! ## The middle of a list -/

/-- `search_middle` and `delete_middle` end, in the list without node `n / 2`. -/
def DeletesMiddle (s : ListState) (xs : List (Nat × Int)) : Prop :=
  ∃ s', Ends (fun fuel => step fuel s .deleteMiddle) (.ok s') ∧ Holds s' (xs.eraseIdx (xs.length / 2))

/-- **`delete_middle` deletes the middle of every list but those of one node.** There the middle is the first node, which
has no predecessor, and the walk leaves the list. -/
theorem deletesMiddle_iff (ho : Holds s xs) (hne : xs ≠ []) : DeletesMiddle s xs ↔ 2 ≤ xs.length := by
  by_cases h2 : 2 ≤ xs.length
  · obtain ⟨s', hr, ho'⟩ := step_deleteMiddle ho h2
    exact iff_of_true ⟨s', ends_of_lt _ hr, ho'⟩ h2
  · have h1 : xs.length = 1 := by
      have hpos := List.length_pos_iff.mpr hne
      omega
    apply iff_of_false _ h2
    rintro ⟨s', he, -⟩
    have hn : Ends (fun fuel => step fuel s .deleteMiddle) (.error .nullDeref) :=
      ends_of_lt 1 fun fuel hf => step_deleteMiddle_single ho h1 hf
    cases hn.unique he

/-- The middle of the list 1, 21 is deleted. -/
theorem collidingList_deletesMiddle :
    Holds collidingList [(0, 1), (1, 21)] ∧ DeletesMiddle collidingList [(0, 1), (1, 21)] :=
  ⟨holds_collidingList, (deletesMiddle_iff holds_collidingList (by simp)).mpr (by simp)⟩

/-- In the list 1 the walk ends in `NULL`. -/
theorem singleton_deletesMiddle : Holds ⟨⟨[⟨1, none⟩], []⟩, some 0⟩ [(0, 1)] ∧
    Ends (fun fuel => step fuel ⟨⟨[⟨1, none⟩], []⟩, some 0⟩ .deleteMiddle) (.error .nullDeref) ∧
    ¬ DeletesMiddle ⟨⟨[⟨1, none⟩], []⟩, some 0⟩ [(0, 1)] := by
  have ho : Holds ⟨⟨[⟨1, none⟩], []⟩, some 0⟩ [(0, 1)] := ⟨⟨rfl, _, rfl, rfl⟩, by decide⟩
  have hn : Ends (fun fuel => step fuel ⟨⟨[⟨1, none⟩], []⟩, some 0⟩ .deleteMiddle) (.error .nullDeref) :=
    ends_of_lt 1 fun fuel hf => step_deleteMiddle_single ho rfl hf
  refine ⟨ho, hn, ?_⟩
  rintro ⟨s', he, -⟩
  cases hn.unique he

/-- **`insert_at_middle` puts the new node behind node `n / 2`**, in every list that has a node. -/
theorem insertAtMiddle_behind (ho : Holds s xs) (hne : xs ≠ []) (v : Int) :
    ∃ s' i, Ends (fun fuel => step fuel s (.insertAtMiddle v)) (.ok s') ∧ i ∉ ids xs ∧
      Holds s' (xs.take (xs.length / 2 + 1) ++ (i, v) :: xs.drop (xs.length / 2 + 1)) := by
  obtain ⟨s', hr, ho'⟩ := step_insertAtMiddle ho hne v
  refine ⟨s', s.heap.nodes.length, ends_of_lt _ hr, fun hi => ?_, ho'⟩
  exact ho.fresh_notMem (List.mem_append_right _ hi)

/-- In the list 1, 21 the value 5 goes to the end. -/
theorem collidingList_insertAtMiddle : Holds collidingList [(0, 1), (1, 21)] ∧
    ∃ s' i, Ends (fun fuel => step fuel collidingList (.insertAtMiddle 5)) (.ok s') ∧ i ∉ ids [(0, (1 : Int)), (1, 21)] ∧
      Holds s' [(0, 1), (1, 21), (i, 5)] :=
  ⟨holds_collidingList, insertAtMiddle_behind holds_collidingList (by simp) 5⟩

/-! ## Whole runs -/

/-- Every reachable state owns its chain. -/
theorem reachable_holds (hr : Reachable s) : ∃ xs, Holds s xs := by
  induction hr with
  | initial => exact ⟨[], owns_empty⟩
  | step _ ha he ih =>
    obtain ⟨xs, ho⟩ := ih
    exact (step_holds ho ha).holds he

/-- **In every reachable state the list is well-formed, and an operation on it ends in a well-formed list or in a
`NULL` dereference.** -/
theorem reachable_wellFormed (hr : Reachable s) : (∃ is, WellFormed s is) ∧
    ∀ op, Allowed s op → (∃ s' is, Ends (fun fuel => step fuel s op) (.ok s') ∧ WellFormed s' is) ∨
      Ends (fun fuel => step fuel s op) (.error .nullDeref) := by
  obtain ⟨xs, ho⟩ := reachable_holds hr
  refine ⟨⟨_, wellFormed_of_holds ho⟩, fun op ha => ?_⟩
  rcases step_holds ho ha with ⟨s', xs', he, ho'⟩ | hn
  · exact Or.inl ⟨s', _, he, wellFormed_of_holds ho'⟩
  · exact Or.inr hn

/-- Two appends reach the list 1, 21, which is well-formed. -/
theorem collidingList_wellFormed : Reachable collidingList ∧ ∃ is, WellFormed collidingList is := by
  have h₁ : Reachable ⟨⟨[⟨1, none⟩], []⟩, some 0⟩ :=
    .step .initial (show Allowed initial (.append 1) from trivial) ⟨0, fun _ _ => rfl⟩
  have h₂ : Reachable collidingList := by
    refine .step h₁ (show Allowed _ (.append 21) from trivial) ⟨1, fun fuel hf => ?_⟩
    obtain ⟨f, rfl⟩ := exists_succ hf
    rfl
  exact ⟨h₂, (reachable_wellFormed h₂).1⟩

end SideWork.LinkedList
