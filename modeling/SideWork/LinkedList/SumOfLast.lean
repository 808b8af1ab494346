import SideWork.LinkedList.Numbers

/-!
# `sum_of_last_N_nodes`

The loop counts `current_idx` up to `len - num`, and from there on adds the values it passes; the last node is added
behind the loop in any case. Only a `num` between 1 and the length is met by the count (`sumOfLast_inside`); for any
other one the last value alone is the sum (`sumOfLast_outside`). `sumsLast_iff` says when that is right.

`len` and `num` are not negative, so `len - num` fits in an `int`; the sums are checked.
-/

namespace SideWork.LinkedList

/-- `get_length`, with the loop of `check_len`. -/
def getLength (fuel : Nat) (s : ListState) : Except Stop Nat :=
  match s.head with
  | none => return 0
  | some _ => loop (checkLenTurn s.heap) fuel (s.head, 1)

/-- One turn of `while (current->next != NULL)`, on `current`, `current_idx` and `sum`. -/
def sumTurn (h : Heap Int) (startSumIdx : Int) :
    Option Nat × Int × Int → Except Stop (Option Nat × Int × Int ⊕ Option Nat × Int)
  | (current, currentIdx, sum) => do
    let c ← h.load current
    match c.next with
    | none => return .inr (current, sum)
    | some n =>
      if currentIdx ≠ startSumIdx then return .inl (some n, currentIdx + 1, sum)
      else
        let sum ← checkedInt (sum + c.value)
        return .inl (some n, currentIdx, sum)

/-- `sum_of_last_N_nodes`. -/
def sumOfLastNNodes (fuel : Nat) (s : ListState) (len num : Int) : Except Stop Int :=
  match s.head with
  | none => return 0
  | some _ =>
    if len ≤ 0 then return 0
    else if len = 1 then do
      let c ← s.heap.load s.head
      return c.value
    else do
      let (current, sum) ← loop (sumTurn s.heap (len - num)) fuel (s.head, 0, 0)
      let c ← s.heap.load current
      checkedInt (sum + c.value)

/-- `sum_of_last_N_nodes(&head, get_length(&head), num)`. -/
def sumOfLast (fuel : Nat) (s : ListState) (num : Nat) : Except Stop Int := do
  let len ← getLength fuel s
  sumOfLastNNodes fuel s len num

variable {h : Heap Int} {s : ListState} {p : Option Nat} {i : Nat} {v : Int} {xs as bs : List (Nat × Int)}

/-! ## The loop -/

theorem getLength_spec (hs : Seg s.heap.cell s.head xs none) {fuel : Nat} (hf : xs.length < fuel) :
    getLength fuel s = .ok xs.length := by
  obtain ⟨h, head⟩ := s
  cases xs with
  | nil =>
    obtain rfl : head = none := hs
    rfl
  | cons x xs =>
    have hl := loop_checkLen_one hs hf
    obtain ⟨rfl, _⟩ := hs
    exact hl

/-- Nodes are passed while the count is not met. -/
theorem loop_sum_skip {b : Nat} (hs : Seg h.cell p as (some b)) {start idx : Int}
    (hd : start < idx ∨ idx + as.length ≤ start) (sum : Int) (k : Nat) :
    loop (sumTurn h start) (as.length + k) (p, idx, sum) =
      loop (sumTurn h start) k (some b, idx + as.length, sum) := by
  induction as generalizing p idx with
  | nil =>
    obtain rfl := seg_nil.mp hs
    simp
  | cons a as ih =>
    obtain ⟨rfl, m, hc, hx⟩ := id hs
    obtain ⟨n, rfl⟩ := seg_next hs List.mem_cons_self hc
    rw [List.length_cons] at hd
    push_cast at hd
    have hturn : sumTurn h start (some a.1, idx, sum) = .ok (.inl (some n, idx + 1, sum)) := by
      simp [sumTurn, Heap.load_live hc, show idx ≠ start by omega]
    rw [loop_again_cons hturn, ih hx (by omega), List.length_cons]
    push_cast
    rw [add_right_comm, add_assoc]

/-- From the start index on, all values but the last are added. -/
theorem loop_sum_add (hs : Seg h.cell p (bs ++ [(i, v)]) none) {start sum : Int}
    (hfit : ∀ k, FitsInt (sum + ((vals bs).take k).sum)) (k : Nat) :
    loop (sumTurn h start) (bs.length + (k + 1)) (p, start, sum) = .ok (some i, sum + (vals bs).sum) := by
  induction bs generalizing p sum with
  | nil =>
    obtain ⟨rfl, n, hc, rfl⟩ := hs
    exact loop_done (by simp [sumTurn, Heap.load_live hc])
  | cons b bs ih =>
    obtain ⟨rfl, m, hc, hx⟩ := hs
    obtain ⟨a, rfl⟩ := seg_head hx (by simp)
    have hone : FitsInt (sum + b.2) := by simpa using hfit 1
    have hturn : sumTurn h start (some b.1, start, sum) = .ok (.inl (some a, start, sum + b.2)) := by
      simp [sumTurn, Heap.load_live hc, checkedInt_of_fits hone]
    have hrest : ∀ k, FitsInt (sum + b.2 + ((vals bs).take k).sum) := fun k => by
      simpa [add_assoc] using hfit (k + 1)
    rw [loop_again_cons hturn, ih hx hrest, vals_cons, List.sum_cons, add_assoc]

/-! ## The result -/

/-- The values are `int`s, and so are the sums on the way through the last `n` of them. -/
structure SumsFit (vs : List Int) (n : Nat) : Prop where
  values : ∀ v ∈ vs, FitsInt v
  sums : ∀ k, FitsInt ((vs.drop (vs.length - n)).take k).sum

/-- The sum of the last `n` values, of all of them if there are fewer. -/
def lastSum (vs : List Int) (n : Nat) : Int := (vs.drop (vs.length - n)).sum

theorem sums_take {vs : List Int} {v : Int} (hfit : ∀ k, FitsInt ((vs ++ [v]).take k).sum) (k : Nat) :
    FitsInt (vs.take k).sum := by
  by_cases hk : k ≤ vs.length
  · have h := hfit k
    rwa [List.take_append_of_le_length hk] at h
  · have h := hfit vs.length
    rwa [List.take_left, ← List.take_of_length_le (i := k) (by omega : vs.length ≤ k)] at h

/-- A list of at least two nodes goes through the loop. -/
theorem sumOfLast_loop (hs : Seg s.heap.cell s.head xs none) (h2 : 2 ≤ xs.length) {num fuel : Nat}
    (hf : xs.length < fuel) {sum : Int} (hc : ∃ n, s.heap.cell i = some ⟨v, n⟩)
    (hl : loop (sumTurn s.heap (xs.length - num)) fuel (s.head, 0, 0) = .ok (some i, sum)) :
    sumOfLast fuel s num = checkedInt (sum + v) := by
  obtain ⟨h, head⟩ := s
  obtain ⟨n, hc⟩ := hc
  obtain ⟨a, rfl⟩ : ∃ a, head = some a := seg_head hs (List.ne_nil_of_length_pos (by omega))
  have h₀ : ¬ (xs.length : Int) ≤ 0 := by omega
  have h₁ : ¬ (xs.length : Int) = 1 := by omega
  simp only [sumOfLast, getLength_spec hs hf, ok_bind, sumOfLastNNodes, if_neg h₀, if_neg h₁, hl, Heap.load_live hc]

theorem sumOfLast_single (hs : Seg s.heap.cell s.head [(i, v)] none) (num : Nat) {fuel : Nat} (hf : 1 < fuel) :
    sumOfLast fuel s num = .ok v := by
  obtain ⟨h, head⟩ := s
  rw [sumOfLast, getLength_spec hs hf, ok_bind]
  obtain ⟨rfl, n, hc, _⟩ := hs
  simp [sumOfLastNNodes, Heap.load_live hc]

/-- With the nodes `as` before the start index. -/
theorem sumOfLast_cut (hs : Seg s.heap.cell s.head (as ++ (bs ++ [(i, v)])) none)
    (hfit : ∀ k, FitsInt ((vals bs ++ [v]).take k).sum) {fuel : Nat} (hf : (as ++ (bs ++ [(i, v)])).length < fuel) :
    sumOfLast fuel s (bs.length + 1) = .ok ((vals bs).sum + v) := by
  have hall : FitsInt ((vals bs).sum + v) := by
    have h := hfit (vals bs ++ [v]).length
    rwa [List.take_length, List.sum_append, List.sum_singleton] at h
  obtain ⟨q, ha, hb⟩ := seg_append.mp hs
  obtain ⟨b, rfl⟩ := seg_head hb (by simp)
  have hcell : ∃ n, s.heap.cell i = some ⟨v, n⟩ := by
    obtain ⟨_, _, _, n, hc, _⟩ := seg_append.mp hb
    exact ⟨n, hc⟩
  by_cases h2 : 2 ≤ (as ++ (bs ++ [(i, v)])).length
  · have hstart : ((as ++ (bs ++ [(i, v)])).length : Int) - (bs.length + 1 : Nat) = as.length := by
      simp only [List.length_append, List.length_singleton]
      omega
    have hl : loop (sumTurn s.heap as.length) fuel (s.head, 0, 0) = .ok (some i, (vals bs).sum) := by
      obtain ⟨k, rfl⟩ : ∃ k, fuel = as.length + (bs.length + (k + 1)) := by
        simp only [List.length_append, List.length_singleton] at hf
        exact ⟨fuel - as.length - bs.length - 1, by omega⟩
      rw [loop_sum_skip ha (Or.inr (by omega)), zero_add, loop_sum_add hb (fun k => ?_), zero_add]
      rw [zero_add]
      exact sums_take hfit k
    rw [sumOfLast_loop hs h2 hf hcell (by rwa [hstart]), checkedInt_of_fits hall]
  · -- a single node is returned without the loop
    simp only [List.length_append, List.length_singleton] at h2
    obtain rfl : as = [] := List.length_eq_zero_iff.mp (by omega)
    obtain rfl : bs = [] := List.length_eq_zero_iff.mp (by omega)
    rw [sumOfLast_single hs _ (by simpa using hf), vals_nil, List.sum_nil, zero_add]

/-- A number from 1 to the length of the list. -/
theorem sumOfLast_inside (hs : Seg s.heap.cell s.head xs none) {num : Nat} (h₁ : 1 ≤ num) (h₂ : num ≤ xs.length)
    (hfit : SumsFit (vals xs) num) {fuel : Nat} (hf : xs.length < fuel) :
    sumOfLast fuel s num = .ok (lastSum (vals xs) num) := by
  have hcut : xs = xs.take (xs.length - num) ++ xs.drop (xs.length - num) := (List.take_append_drop _ _).symm
  have hlen : (xs.drop (xs.length - num)).length = num := by
    rw [List.length_drop]
    omega
  rcases nil_or_concat (xs.drop (xs.length - num)) with hnil | ⟨bs, i, v, hbs⟩
  · rw [hnil, List.length_nil] at hlen
    omega
  · have hdrop : (vals xs).drop ((vals xs).length - num) = vals bs ++ [v] := by
      rw [length_vals, vals, ← List.map_drop, hbs]
      exact vals_concat bs i v
    have hsums := hfit.sums
    rw [hdrop] at hsums
    rw [hbs] at hcut hlen
    rw [lastSum, hdrop, List.sum_append, List.sum_singleton]
    obtain rfl : num = bs.length + 1 := by simpa using hlen.symm
    rw [hcut] at hs hf
    exact sumOfLast_cut hs hsums hf

/-- Any other number: the last value alone. -/
theorem sumOfLast_outside (hs : Seg s.heap.cell s.head (as ++ [(i, v)]) none) {num : Nat}
    (hnum : num = 0 ∨ (as ++ [(i, v)]).length < num) (hv : FitsInt v) {fuel : Nat}
    (hf : (as ++ [(i, v)]).length < fuel) : sumOfLast fuel s num = .ok v := by
  by_cases h2 : 2 ≤ (as ++ [(i, v)]).length
  · obtain ⟨q, ha, rfl, n, hc, hend⟩ := seg_append.mp hs
    obtain rfl := seg_nil.mp hend
    have hl : loop (sumTurn s.heap ((as ++ [(i, v)]).length - num)) fuel (s.head, 0, 0) = .ok (some i, 0) := by
      simp only [List.length_append, List.length_singleton] at hf hnum ⊢
      obtain ⟨k, rfl⟩ := exists_fuel ((Nat.lt_succ_self as.length).trans hf)
      rw [loop_sum_skip ha (by push_cast; omega)]
      exact loop_done (by simp [sumTurn, Heap.load_live hc])
    rw [sumOfLast_loop hs h2 hf ⟨_, hc⟩ hl, zero_add, checkedInt_of_fits hv]
  · simp only [List.length_append, List.length_singleton] at h2
    obtain rfl : as = [] := List.length_eq_zero_iff.mp (by omega)
    exact sumOfLast_single hs num hf

theorem sumOfLast_nil (hs : Seg s.heap.cell s.head [] none) (num : Nat) {fuel : Nat} (hf : 0 < fuel) :
    sumOfLast fuel s num = .ok 0 := by
  obtain ⟨h, head⟩ := s
  rw [sumOfLast, getLength_spec hs hf, ok_bind]
  obtain rfl : head = none := hs
  rfl

/-- `sum_of_last_N_nodes` returns the sum of the last `num` values. -/
def SumsLast (s : ListState) (xs : List (Nat × Int)) (num : Nat) : Prop :=
  Ends (fun fuel => sumOfLast fuel s num) (.ok (lastSum (vals xs) num))

theorem lastSum_nil (num : Nat) : lastSum [] num = 0 := by simp [lastSum]

theorem lastSum_zero (vs : List Int) : lastSum vs 0 = 0 := by simp [lastSum]

theorem lastSum_of_le {vs : List Int} {num : Nat} (hn : vs.length ≤ num) : lastSum vs num = vs.sum := by
  rw [lastSum, Nat.sub_eq_zero_of_le hn, List.drop_zero]

/-- Outside the list the last value alone is returned, so it has to be the sum. -/
theorem sumsLast_outside (hs : Seg s.heap.cell s.head (as ++ [(i, v)]) none) {num : Nat}
    (hnum : num = 0 ∨ (as ++ [(i, v)]).length < num) (hv : FitsInt v) :
    SumsLast s (as ++ [(i, v)]) num ↔ v = lastSum (vals as ++ [v]) num := by
  have he : Ends (fun fuel => sumOfLast fuel s num) (.ok v) :=
    ends_of_lt _ fun _ hf => sumOfLast_outside hs hnum hv hf
  rw [SumsLast, vals_concat]
  constructor
  · intro hr
    exact Except.ok.inj (he.unique hr)
  · intro hr
    rwa [← hr]

/-- **`sum_of_last_N_nodes` returns the sum of the last `num` values** when `num` is from 1 to the length; any other
`num` is right only where the last value happens to be that sum. -/
theorem sumsLast_iff (hs : Seg s.heap.cell s.head xs none) {num : Nat} (hfit : SumsFit (vals xs) num) :
    SumsLast s xs num ↔ (1 ≤ num ∧ num ≤ xs.length) ∨ (num = 0 ∧ ∀ v, (vals xs).getLast? = some v → v = 0) ∨
      (xs.length < num ∧ (vals xs).dropLast.sum = 0) := by
  rcases nil_or_concat xs with rfl | ⟨as, i, v, rfl⟩
  · refine iff_of_true ?_ ?_
    · rw [SumsLast, vals_nil, lastSum_nil]
      exact ends_of_lt _ fun _ hf => sumOfLast_nil hs num hf
    · rcases Nat.eq_zero_or_pos num with h₀ | hpos
      · exact Or.inr (Or.inl ⟨h₀, by simp⟩)
      · exact Or.inr (Or.inr ⟨hpos, by simp⟩)
  · have hlen : (vals as ++ [v]).length = (as ++ [(i, v)]).length := by rw [← vals_concat as i, length_vals]
    have hv : FitsInt v := hfit.values v (by simp)
    have hpos : 0 < (as ++ [(i, v)]).length := by simp
    by_cases hin : 1 ≤ num ∧ num ≤ (as ++ [(i, v)]).length
    · exact iff_of_true (ends_of_lt _ fun _ hf => sumOfLast_inside hs hin.1 hin.2 hfit hf) (Or.inl hin)
    · rw [sumsLast_outside hs (by omega) hv, vals_concat, List.getLast?_concat, List.dropLast_concat]
      rcases Nat.eq_zero_or_pos num with rfl | hnum
      · rw [lastSum_zero]
        simp
      · have hlt : (as ++ [(i, v)]).length < num := by omega
        rw [lastSum_of_le (by omega), List.sum_append, List.sum_singleton]
        constructor
        · intro h
          exact Or.inr (Or.inr ⟨hlt, by omega⟩)
        · rintro (h | h | h)
          · exact absurd h hin
          · omega
          · omega

/-- The list 1, 2. -/
def oneTwo : ListState := ⟨⟨[⟨1, some 1⟩, ⟨2, none⟩], []⟩, some 0⟩

theorem seg_oneTwo : Seg oneTwo.heap.cell oneTwo.head [(0, 1), (1, 2)] none := ⟨rfl, _, rfl, rfl, _, rfl, rfl⟩

theorem oneTwo_fits : SumsFit (vals [(0, 1), (1, 2)]) 1 where
  values := by decide
  sums k := by
    cases k with
    | zero => decide
    | succ k =>
      show FitsInt (List.take (k + 1) [2]).sum
      simp [FitsInt]

theorem oneTwo_sumsLast : SumsLast oneTwo [(0, 1), (1, 2)] 1 :=
  (sumsLast_iff seg_oneTwo oneTwo_fits).mpr (by decide)

theorem oneTwo_outside {num : Nat} (hnum : num = 0 ∨ 2 < num) :
    Ends (fun fuel => sumOfLast fuel oneTwo num) (.ok 2) := by
  have hs : Seg oneTwo.heap.cell oneTwo.head ([(0, 1)] ++ [(1, 2)]) none := seg_oneTwo
  exact ends_of_lt 2 fun _ hf => sumOfLast_outside hs hnum (by decide) hf

/-- The last three of 1, 2 sum up to 2 and not to 3, and so do the last none. -/
theorem oneTwo_not_sumsLast : Ends (fun fuel => sumOfLast fuel oneTwo 3) (.ok 2) ∧
    ¬ SumsLast oneTwo [(0, 1), (1, 2)] 3 ∧ ¬ SumsLast oneTwo [(0, 1), (1, 2)] 0 := by
  have h₃ : Ends (fun fuel => sumOfLast fuel oneTwo 3) (.ok 2) := oneTwo_outside (by decide)
  have h₀ : Ends (fun fuel => sumOfLast fuel oneTwo 0) (.ok 2) := oneTwo_outside (by decide)
  refine ⟨h₃, fun h => ?_, fun h => ?_⟩
  · exact absurd (Except.ok.inj (h₃.unique h)) (by decide)
  · exact absurd (Except.ok.inj (h₀.unique h)) (by decide)

end SideWork.LinkedList
