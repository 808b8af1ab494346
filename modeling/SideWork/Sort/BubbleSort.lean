import SideWork.Lib.CArray
import SideWork.Sort.Segment

/-!
# `bubble_sort`

Every round sweeps the whole array: it carries the greatest element met so far to the right (`sink`). What earlier
rounds have settled at the end is swept over without a change (`sink_append`).

- `bubbleSort_sorts`: the array is sorted, without an access outside it, and sorting it again changes nothing.
-/

namespace SideWork.Sort

/-- One turn of `for (int i=0; i<len-1; i++)`. -/
def bubbleTurn (len : Int) : List Int × Int → Except Stop (List Int × Int ⊕ List Int)
  | (arr, i) =>
    if i < len - 1 then do
      let y ← get arr (i + 1)
      let x ← get arr i
      if y < x then
        let arr ← swap arr i (i + 1)
        return .inl (arr, i + 1)
      else return .inl (arr, i + 1)
    else return .inr arr

/-- One round of `for (int round=0; round<len; round++)`. -/
def bubbleRound (fuel : Nat) (len : Int) : List Int × Int → Except Stop (List Int × Int ⊕ List Int)
  | (arr, round) =>
    if round < len then do
      let arr ← loop (bubbleTurn len) fuel (arr, 0)
      return .inl (arr, round + 1)
    else return .inr arr

/-- `bubble_sort`. -/
def bubbleSort (fuel : Nat) (arr : List Int) (len : Int) : Except Stop (List Int) :=
  loop (bubbleRound fuel len) fuel (arr, 0)

/-! ## One sweep -/

/-- What a sweep makes of `x :: xs`: it carries `x` to the right until it meets a greater element, and that one then. -/
def sink : Int → List Int → List Int
  | x, [] => [x]
  | x, y :: ys => if y < x then y :: sink x ys else x :: sink y ys

theorem bubbleTurn_cons (as : List Int) (x y : Int) (ys : List Int) :
    bubbleTurn (as ++ x :: y :: ys).length (as ++ x :: y :: ys, as.length) =
      if y < x then .ok (.inl (as ++ y :: x :: ys, as.length + 1)) else .ok (.inl (as ++ x :: y :: ys, as.length + 1)) := by
  have hlt : (as.length : Int) < (as ++ x :: y :: ys).length - 1 := by
    simp only [List.length_append, List.length_cons]
    omega
  have hy : get (as ++ x :: y :: ys) (as.length + 1) = .ok y := by
    simpa using get_snd as x [] y ys (j := as.length + 1) (by simp)
  have hswap : swap (as ++ x :: y :: ys) as.length (as.length + 1) = .ok (as ++ y :: x :: ys) := by
    simpa using swap_mid as x [] y ys (i := as.length) (j := as.length + 1) rfl (by simp)
  simp only [bubbleTurn, if_pos hlt, hy, get_mid as x (y :: ys) rfl, hswap, ok_bind, pure_eq_ok]

/-- The sweep from behind `as` on. -/
theorem loop_bubble (as : List Int) (x : Int) (xs : List Int) {len : Int} (hlen : len = (as ++ x :: xs).length)
    (fuel : Nat) (hf : xs.length < fuel) :
    loop (bubbleTurn len) fuel (as ++ x :: xs, as.length) = .ok (as ++ sink x xs) := by
  induction xs generalizing as x fuel with
  | nil =>
    refine loop_done_of_lt (if_neg ?_) hf
    simp [hlen]
  | cons y ys ih =>
    obtain ⟨f, rfl⟩ := exists_succ hf
    have hturn := bubbleTurn_cons as x y ys
    have hys : ys.length < f := by simpa using hf
    rw [← hlen] at hturn
    rw [sink]
    by_cases hlt : y < x
    · rw [if_pos hlt] at hturn ⊢
      have hrest := ih (as ++ [y]) x (by simpa using hlen) f hys
      rw [loop_again hturn]
      simpa using hrest
    · rw [if_neg hlt] at hturn ⊢
      have hrest := ih (as ++ [x]) y (by simpa using hlen) f hys
      rw [loop_again hturn]
      simpa using hrest

theorem sink_perm (x : Int) (xs : List Int) : (sink x xs).Perm (x :: xs) := by
  induction xs generalizing x with
  | nil => exact List.Perm.refl _
  | cons y ys ih =>
    rw [sink]
    split
    · exact ((ih x).cons y).trans (List.Perm.swap x y ys)
    · exact (ih y).cons x

/-- The sweep ends with the greatest element. -/
theorem sink_eq_concat (x : Int) (xs : List Int) :
    ∃ front m, sink x xs = front ++ [m] ∧ ∀ y ∈ x :: xs, y ≤ m := by
  induction xs generalizing x with
  | nil => exact ⟨[], x, rfl, by simp⟩
  | cons y ys ih =>
    rw [sink]
    by_cases hlt : y < x
    · obtain ⟨front, m, he, hle⟩ := ih x
      have hx := hle x List.mem_cons_self
      refine ⟨y :: front, m, by rw [if_pos hlt, he, List.cons_append], ?_⟩
      intro z hz
      rcases List.mem_cons.mp hz with rfl | hz
      · exact hx
      · rcases List.mem_cons.mp hz with rfl | hz
        · exact hlt.le.trans hx
        · exact hle z (List.mem_cons_of_mem x hz)
    · obtain ⟨front, m, he, hle⟩ := ih y
      have hy := hle y List.mem_cons_self
      refine ⟨x :: front, m, by rw [if_neg hlt, he, List.cons_append], ?_⟩
      intro z hz
      rcases List.mem_cons.mp hz with rfl | hz
      · exact (not_lt.mp hlt).trans hy
      · exact hle z hz

/-- A sorted array is swept over without a change. -/
theorem sink_sorted {x : Int} {xs : List Int} (h : (x :: xs).Pairwise (· ≤ ·)) : sink x xs = x :: xs := by
  induction xs generalizing x with
  | nil => rfl
  | cons y ys ih =>
    obtain ⟨hx, hys⟩ := List.pairwise_cons.mp h
    rw [sink, if_neg (not_lt.mpr (hx y List.mem_cons_self)), ih hys]

/-- So is what earlier sweeps have settled at the end. -/
theorem sink_append {x : Int} {xs ts : List Int} (hts : ts.Pairwise (· ≤ ·)) (hle : ∀ a ∈ x :: xs, ∀ t ∈ ts, a ≤ t) :
    sink x (xs ++ ts) = sink x xs ++ ts := by
  induction xs generalizing x with
  | nil => exact sink_sorted (List.pairwise_cons.mpr ⟨hle x List.mem_cons_self, hts⟩)
  | cons y ys ih =>
    rw [List.cons_append, sink, sink]
    split
    · rw [ih fun a ha => hle a (by rcases List.mem_cons.mp ha with rfl | ha <;> simp [*]), List.cons_append]
    · rw [ih fun a ha => hle a (List.mem_cons_of_mem x ha), List.cons_append]

/-! ## The rounds -/

/-- After `k` rounds the last `k` elements are in order, and none of the others exceeds any of them. -/
def BubbleInv (arr : List Int) (k : Nat) : List Int × Int → Prop
  | (arr', round) => round = k ∧ arr'.Perm arr ∧
    ∃ as ts : List Int, arr' = as ++ ts ∧ ts.length = k ∧ ts.Pairwise (· ≤ ·) ∧ ∀ a ∈ as, ∀ t ∈ ts, a ≤ t

/-- A round is one sweep. -/
theorem bubbleRound_cons (x : Int) (xs : List Int) {round : Int} (hr : round < (x :: xs).length) {fuel : Nat}
    (hf : xs.length < fuel) :
    bubbleRound fuel (x :: xs).length (x :: xs, round) = .ok (.inl (sink x xs, round + 1)) := by
  have hl : loop (bubbleTurn (x :: xs).length) fuel (x :: xs, 0) = .ok (sink x xs) := loop_bubble [] x xs rfl fuel hf
  simp only [bubbleRound, if_pos hr, hl, ok_bind, pure_eq_ok]

theorem bubbleRound_step {arr : List Int} {k : Nat} (hk : k < arr.length) {s : List Int × Int}
    (hs : BubbleInv arr k s) :
    ∃ s', (∀ fuel, arr.length < fuel → bubbleRound fuel arr.length s = .ok (.inl s')) ∧ BubbleInv arr (k + 1) s' := by
  obtain ⟨arr', round⟩ := s
  obtain ⟨rfl, hperm, as, ts, rfl, rfl, hts, hle⟩ := hs
  have hlength := hperm.length_eq
  cases as with
  | nil =>
    rw [List.nil_append] at hlength
    omega
  | cons x xs =>
    obtain ⟨front, m, he, hmax⟩ := sink_eq_concat x xs
    have hsweep : sink x (xs ++ ts) = front ++ m :: ts := by
      rw [sink_append hts hle, he, List.append_assoc, List.singleton_append]
    have hmem : ∀ y, y ∈ front ++ [m] ↔ y ∈ x :: xs := fun y => he ▸ (sink_perm x xs).mem_iff
    have hm : m ∈ x :: xs := (hmem m).mp (List.mem_append_right _ List.mem_cons_self)
    refine ⟨(sink x (xs ++ ts), ts.length + 1), fun fuel hf => ?_, by push_cast; rfl, ?_, front, m :: ts, hsweep, rfl,
      List.pairwise_cons.mpr ⟨hle m hm, hts⟩, fun a ha t ht => ?_⟩
    · rw [← hlength]
      refine bubbleRound_cons x (xs ++ ts) ?_ ?_
      · rw [List.length_cons, List.length_append]
        omega
      · rw [List.cons_append, List.length_cons] at hlength
        omega
    · exact (sink_perm x (xs ++ ts)).trans hperm
    · have hx : a ∈ x :: xs := (hmem a).mp (List.mem_append_left _ ha)
      rcases List.mem_cons.mp ht with rfl | ht
      · exact hmax a hx
      · exact hle a hx t ht

/-- The loop of rounds, with an invariant that they keep. -/
theorem bubbleSort_of_inv {arr : List Int} {inv : Nat → List Int × Int → Prop}
    (hround : ∀ s, inv arr.length s → s.2 = arr.length)
    (hstep : ∀ k < arr.length, ∀ s, inv k s →
      ∃ s', (∀ fuel, arr.length < fuel → bubbleRound fuel arr.length s = .ok (.inl s')) ∧ inv (k + 1) s')
    (hinit : inv 0 (arr, 0)) :
    ∃ s, inv arr.length s ∧ Ends (fun fuel => bubbleSort fuel arr arr.length) (.ok s.1) := by
  have hout : ∀ s, inv arr.length s → ∀ fuel, bubbleRound fuel arr.length s = .ok (.inr s.1) := by
    rintro ⟨arr', round⟩ hi fuel
    have hr := hround _ hi
    exact if_neg (by simp only at hr; omega)
  obtain ⟨s, hi, hl⟩ := loop_of_inv hstep hout hinit
  exact ⟨s, hi, ends_of_lt _ hl⟩

/-- A sorted array is left as it is. -/
theorem bubbleSort_sorted {arr : List Int} (h : arr.Pairwise (· ≤ ·)) :
    Ends (fun fuel => bubbleSort fuel arr arr.length) (.ok arr) := by
  have hstep : ∀ k < arr.length, ∀ s, s = (arr, (k : Int)) →
      ∃ s', (∀ fuel, arr.length < fuel → bubbleRound fuel arr.length s = .ok (.inl s')) ∧
        s' = (arr, ((k + 1 : Nat) : Int)) := by
    rintro k hk s rfl
    refine ⟨_, fun fuel hf => ?_, rfl⟩
    cases arr with
    | nil => cases hk
    | cons x xs =>
      rw [bubbleRound_cons x xs (by exact_mod_cast hk) (by simp at hf; omega), sink_sorted h]
      push_cast
      rfl
  obtain ⟨s, rfl, hends⟩ := bubbleSort_of_inv (fun s hs => by rw [hs]) hstep rfl
  exact hends

/-- **`bubble_sort` sorts**: every run ends, inside the array, with its elements in order, and a second run changes
nothing. -/
theorem bubbleSort_sorts (arr : List Int) :
    ∃ arr', Ends (fun fuel => bubbleSort fuel arr arr.length) (.ok arr') ∧ Ordered arr arr' ∧
      Ends (fun fuel => bubbleSort fuel arr' arr'.length) (.ok arr') := by
  have hinit : BubbleInv arr 0 (arr, 0) := ⟨rfl, List.Perm.refl _, arr, [], by simp, rfl, List.Pairwise.nil, by simp⟩
  obtain ⟨⟨arr', round⟩, ⟨-, hperm, as, ts, rfl, hlen, hts, -⟩, hends⟩ :=
    bubbleSort_of_inv (fun s hs => hs.1) (fun k hk s hs => bubbleRound_step hk hs) hinit
  -- after all rounds nothing is left in front of what is settled
  obtain rfl : as = [] := by
    have hlength := hperm.length_eq
    rw [List.length_append] at hlength
    exact List.length_eq_zero_iff.mp (by omega)
  exact ⟨ts, hends, ⟨hts, hperm⟩, bubbleSort_sorted hts⟩

end SideWork.Sort
