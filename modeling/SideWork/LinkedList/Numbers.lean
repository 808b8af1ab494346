import SideWork.LinkedList.Insert

/-!
# Lists of decimal digits (`multiply_two_lists.c`, `subtract_two_lists.c`)

Both files carry the same two ways to read a list as a number. Method 1 (compiled out) is `check_len` and `calc_number`,
which adds `value * 10 ^ i` from the top digit down; method 2 walks both lists in one loop, by Horner's rule. An `int`
is an integer whose range is checked (`checkedInt`), so a result that does not fit stops the run; the `double`s of
`calc_number` are taken to be exact.

What carries the loop of method 2 is `Reads`: the number read so far, scaled, and the digits ahead make up the same total
in every turn.

- `numbers_spec`: method 2 ends with the two decimal values;
- `calcNumber_spec`: so does method 1;
- `methods_agree`: both together, each number depending on its own list only;
- `exact_iff`: how large the numbers may be for the printed results to be exact.
-/

namespace SideWork.LinkedList

/-- `while (head_ref->next != NULL) { head_ref = head_ref->next; len++; }` -/
def checkLenTurn (h : Heap Int) : Option Nat × Nat → Except Stop (Option Nat × Nat ⊕ Nat)
  | (headRef, len) => do
    let c ← h.load headRef
    match c.next with
    | none => return .inr len
    | some n => return .inl (some n, len + 1)

/-- `check_len`. -/
def checkLen (fuel : Nat) (h : Heap Int) (headRef : Option Nat) : Except Stop Nat :=
  match headRef with
  | none => return 0
  | some _ => do
    let c ← h.load headRef
    if c.next = none then return 1 else loop (checkLenTurn h) fuel (headRef, 1)

/-- One turn of `for (int i=len-1; i>=0; i--)`, on `current`, `num` and `i`. -/
def calcTurn (h : Heap Int) : Option Nat × Int × Int → Except Stop (Option Nat × Int × Int ⊕ Int)
  | (current, num, i) =>
    if 0 ≤ i then do
      let c ← h.load current
      let num ← checkedInt (num + c.value * 10 ^ i.toNat)
      return .inl (c.next, num, i - 1)
    else return .inr num

/-- `calc_number`. -/
def calcNumber (fuel : Nat) (h : Heap Int) (headRef : Option Nat) (len : Nat) : Except Stop Int :=
  loop (calcTurn h) fuel (headRef, 0, len - 1)

/-- Method 1 on one list. -/
def method1 (fuel : Nat) (h : Heap Int) (headRef : Option Nat) : Except Stop Int := do
  let len ← checkLen fuel h headRef
  calcNumber fuel h headRef len

/-- The variables of method 2; `headRef1` and `headRef2` are the caller's, behind the two references. -/
structure Numbers where
  headRef1 : Option Nat
  headRef2 : Option Nat
  num1 : Int
  num2 : Int
  deriving DecidableEq, Repr

/-- `if (*head_ref) { num = num*10 + (*head_ref)->value; (*head_ref) = (*head_ref)->next; }` -/
def digitStep (h : Heap Int) (headRef : Option Nat) (num : Int) : Except Stop (Option Nat × Int) :=
  match headRef with
  | none => return (none, num)
  | some _ => do
    let c ← h.load headRef
    let tens ← checkedInt (num * 10)
    let num ← checkedInt (tens + c.value)
    return (c.next, num)

/-- One turn of `while (*head_ref1 || *head_ref2)`. -/
def numbersTurn (h : Heap Int) (s : Numbers) : Except Stop (Numbers ⊕ Numbers) :=
  if s.headRef1 = none ∧ s.headRef2 = none then return .inr s
  else do
    let (headRef1, num1) ← digitStep h s.headRef1 s.num1
    let (headRef2, num2) ← digitStep h s.headRef2 s.num2
    return .inl ⟨headRef1, headRef2, num1, num2⟩

/-- Method 2, the loop of `multiply` and of `subtract`. -/
def numbers (fuel : Nat) (h : Heap Int) (headRef1 headRef2 : Option Nat) : Except Stop Numbers :=
  loop (numbersTurn h) fuel ⟨headRef1, headRef2, 0, 0⟩

/-- `multiply`: what it prints, and the variables it leaves. -/
def multiply (fuel : Nat) (h : Heap Int) (headRef1 headRef2 : Option Nat) : Except Stop (String × Numbers) := do
  let s ← numbers fuel h headRef1 headRef2
  let product ← checkedInt (s.num1 * s.num2)
  return ("num1=" ++ toString s.num1 ++ ", num2=" ++ toString s.num2 ++ ", num1*num2=" ++ toString product ++ "\n", s)

/-- `subtract`: what it prints, and the variables it leaves. -/
def subtract (fuel : Nat) (h : Heap Int) (headRef1 headRef2 : Option Nat) : Except Stop (String × Numbers) := do
  let s ← numbers fuel h headRef1 headRef2
  if s.num1 > s.num2 then
    let difference ← checkedInt (s.num1 - s.num2)
    return ("num1=" ++ toString s.num1 ++ ", num2=" ++ toString s.num2 ++ ", num1-num2=" ++ toString difference ++ "\n",
      s)
  else
    let difference ← checkedInt (s.num2 - s.num1)
    return ("num1=" ++ toString s.num1 ++ ", num2=" ++ toString s.num2 ++ ", num2-num1=" ++ toString difference ++ "\n",
      s)

/-! ## Decimal values -/

/-- The decimal value of a list of digits, top digit first. -/
def decimal : List Int → Int
  | [] => 0
  | d :: ds => d * 10 ^ ds.length + decimal ds

/-- The chain from `p` is a number that fits in an `int`. -/
structure IsNumber (h : Heap Int) (p : Option Nat) (xs : List (Nat × Int)) : Prop where
  chain : Seg h.cell p xs none
  digits : ∀ d ∈ vals xs, 0 ≤ d ∧ d ≤ 9
  fits : decimal (vals xs) < 2 ^ 31

variable {h : Heap Int} {p q : Option Nat} {xs ys : List (Nat × Int)} {a b n m : Int}

theorem decimal_nonneg {ds : List Int} (hd : ∀ d ∈ ds, 0 ≤ d) : 0 ≤ decimal ds := by
  induction ds with
  | nil => exact le_refl 0
  | cons d ds ih =>
    have h₁ : 0 ≤ d * 10 ^ ds.length := mul_nonneg (hd d (by simp)) (by positivity)
    have h₂ := ih fun e he => hd e (by simp [he])
    rw [decimal]
    omega

/-- Horner's rule. -/
theorem decimal_step (a d : Int) (ds : List Int) :
    a * 10 ^ (ds.length + 1) + decimal (d :: ds) = (a * 10 + d) * 10 ^ ds.length + decimal ds := by
  rw [decimal, pow_succ]
  ring

/-! ## Method 2 -/

/-- Behind `p` are the digits `xs`, and with the number `a` read so far they make `n`. -/
structure Reads (h : Heap Int) (p : Option Nat) (a : Int) (xs : List (Nat × Int)) (n : Int) : Prop where
  chain : Seg h.cell p xs none
  digits : ∀ d ∈ vals xs, 0 ≤ d
  nonneg : 0 ≤ a
  total : a * 10 ^ xs.length + decimal (vals xs) = n
  fits : n < 2 ^ 31

theorem IsNumber.reads (hx : IsNumber h p xs) : Reads h p 0 xs (decimal (vals xs)) where
  chain := hx.chain
  digits := fun d hd => (hx.digits d hd).1
  nonneg := le_refl 0
  total := by rw [zero_mul, zero_add]
  fits := hx.fits

/-- One list's half of a turn keeps the total. -/
theorem Reads.step (hr : Reads h p a xs n) :
    ∃ p' a', digitStep h p a = .ok (p', a') ∧ Reads h p' a' xs.tail n := by
  cases xs with
  | nil =>
    obtain rfl : p = none := hr.chain
    exact ⟨none, a, rfl, hr⟩
  | cons x xs =>
    obtain ⟨i, d⟩ := x
    obtain ⟨rfl, q, hc, hx⟩ := hr.chain
    have hd : 0 ≤ d := hr.digits d (by simp [vals])
    have hds : ∀ e ∈ vals xs, 0 ≤ e := fun e he => hr.digits e (List.mem_cons_of_mem _ he)
    have htotal : (a * 10 + d) * 10 ^ xs.length + decimal (vals xs) = n := by
      rw [← hr.total, ← length_vals xs, ← decimal_step, length_vals]
      rfl
    have hnonneg : 0 ≤ a * 10 + d := by have := hr.nonneg; omega
    -- the number read so far is never above the total
    have hle : a * 10 + d ≤ n := by
      have hD := decimal_nonneg hds
      have hp : (1 : Int) ≤ 10 ^ xs.length := one_le_pow₀ (by decide)
      have := le_mul_of_one_le_right hnonneg hp
      linarith
    have hfits := hr.fits
    have ha := hr.nonneg
    refine ⟨q, a * 10 + d, ?_, hx, hds, hnonneg, htotal, hfits⟩
    rw [digitStep, Heap.load_live hc, ok_bind, checkedInt_of_nonneg (by omega) (by omega), ok_bind,
      checkedInt_of_nonneg hnonneg (by omega)]
    rfl

theorem Reads.eq_of_null (hr : Reads h none a xs n) : a = n := by
  cases xs with
  | nil => simpa [vals, decimal] using hr.total
  | cons x xs => cases hr.chain.1

theorem Reads.eq_null (hr : Reads h p a [] n) : p = none := hr.chain

/-- The loop reads both totals, however long either list is. -/
theorem loop_numbers {l : Nat} (hx : Reads h p a xs n) (hy : Reads h q b ys m) (hxl : xs.length ≤ l)
    (hyl : ys.length ≤ l) : ∀ fuel, l < fuel → loop (numbersTurn h) fuel ⟨p, q, a, b⟩ = .ok ⟨none, none, n, m⟩ := by
  induction l generalizing p q a b xs ys with
  | zero =>
    intro fuel hf
    obtain rfl := List.length_eq_zero_iff.mp (Nat.le_zero.mp hxl)
    obtain rfl := List.length_eq_zero_iff.mp (Nat.le_zero.mp hyl)
    obtain rfl := hx.eq_null
    obtain rfl := hy.eq_null
    rw [← hx.eq_of_null, ← hy.eq_of_null]
    exact loop_done_of_lt rfl hf
  | succ l ih =>
    intro fuel hf
    by_cases hnull : p = none ∧ q = none
    · obtain ⟨rfl, rfl⟩ := hnull
      rw [← hx.eq_of_null, ← hy.eq_of_null]
      exact loop_done_of_lt rfl hf
    · obtain ⟨p', a', hsx, hx'⟩ := hx.step
      obtain ⟨q', b', hsy, hy'⟩ := hy.step
      have hturn : numbersTurn h ⟨p, q, a, b⟩ = .ok (.inl ⟨p', q', a', b'⟩) := by
        simp only [numbersTurn, if_neg hnull, hsx, hsy, ok_bind, pure_eq_ok]
      apply loop_again_of_lt hturn _ fuel hf
      apply ih hx' hy'
      · rw [List.length_tail]; omega
      · rw [List.length_tail]; omega

theorem numbers_spec (hx : IsNumber h p xs) (hy : IsNumber h q ys) :
    Ends (fun fuel => numbers fuel h p q) (.ok ⟨none, none, decimal (vals xs), decimal (vals ys)⟩) := by
  apply ends_of_lt (max xs.length ys.length)
  exact loop_numbers hx.reads hy.reads (Nat.le_max_left _ _) (Nat.le_max_right _ _)

/-! ## Method 1 -/

theorem loop_checkLen {i : Nat} {d : Int} (hs : Seg h.cell p ((i, d) :: xs) none) (len k : Nat) :
    loop (checkLenTurn h) (xs.length + (k + 1)) (p, len) = .ok (len + xs.length) := by
  induction xs generalizing p i d len with
  | nil =>
    obtain ⟨rfl, n, hc, rfl⟩ := hs
    exact loop_done (by simp [checkLenTurn, Heap.load_live hc])
  | cons x xs ih =>
    obtain ⟨rfl, n, hc, rfl, hx⟩ := hs
    have hturn : checkLenTurn h (some i, len) = .ok (.inl (some x.1, len + 1)) := by
      simp [checkLenTurn, Heap.load_live hc]
    rw [loop_again_cons hturn, ih ⟨rfl, hx⟩, List.length_cons]
    congr 1
    omega

/-- From a node on, with the 1 that `len` starts with. -/
theorem loop_checkLen_one {x : Nat × Int} (hs : Seg h.cell p (x :: xs) none) {fuel : Nat}
    (hf : (x :: xs).length < fuel) : loop (checkLenTurn h) fuel (p, 1) = .ok (x :: xs).length := by
  obtain ⟨k, rfl⟩ := exists_fuel ((Nat.lt_succ_self xs.length).trans hf)
  rw [loop_checkLen hs, List.length_cons, Nat.add_comm]

theorem checkLen_spec (hs : Seg h.cell p xs none) {fuel : Nat} (hf : xs.length < fuel) :
    checkLen fuel h p = .ok xs.length := by
  cases xs with
  | nil =>
    obtain rfl : p = none := hs
    rfl
  | cons x xs =>
    have hl := loop_checkLen_one hs hf
    obtain ⟨rfl, n, hc, hx⟩ := hs
    rw [checkLen, Heap.load_live hc, ok_bind]
    cases xs with
    | nil =>
      obtain rfl : n = none := hx
      rfl
    | cons y ys =>
      obtain ⟨rfl, _⟩ := hx
      rw [if_neg (by simp), hl]

/-- From any number so far, the loop adds the value of the digits ahead. -/
theorem loop_calc (hs : Seg h.cell p xs none) (hd : ∀ d ∈ vals xs, 0 ≤ d) (ha : 0 ≤ a)
    (hfits : a + decimal (vals xs) < 2 ^ 31) (k : Nat) :
    loop (calcTurn h) (xs.length + (k + 1)) (p, a, xs.length - 1) = .ok (a + decimal (vals xs)) := by
  induction xs generalizing p a with
  | nil => exact loop_done (by simp [calcTurn, decimal])
  | cons x xs ih =>
    obtain ⟨i, d⟩ := x
    obtain ⟨rfl, q, hc, hx⟩ := hs
    have hds : ∀ e ∈ vals xs, 0 ≤ e := fun e he => hd e (List.mem_cons_of_mem _ he)
    have hl := length_vals xs
    have hD := decimal_nonneg hds
    have hterm : 0 ≤ d * 10 ^ xs.length := mul_nonneg (hd d (by simp)) (by positivity)
    have hsplit : a + decimal (vals ((i, d) :: xs)) = a + d * 10 ^ xs.length + decimal (vals xs) := by
      rw [vals_cons, decimal, hl, add_assoc]
    have hi : (((i, d) :: xs).length : Int) - 1 = xs.length := by simp
    have hturn : calcTurn h (some i, a, xs.length) =
        .ok (.inl (q, a + d * 10 ^ xs.length, (xs.length : Int) - 1)) := by
      simp only [calcTurn, if_pos (Int.natCast_nonneg xs.length), Heap.load_live hc, ok_bind, Int.toNat_natCast]
      rw [checkedInt_of_nonneg (by omega) (by omega)]
      rfl
    rw [hsplit, hi, loop_again_cons hturn]
    exact ih hx hds (by omega) (by omega)

theorem calcNumber_spec (hx : IsNumber h p xs) {fuel : Nat} (hf : xs.length < fuel) :
    calcNumber fuel h p xs.length = .ok (decimal (vals xs)) := by
  obtain ⟨k, rfl⟩ := exists_fuel hf
  have hl := loop_calc hx.chain (fun d hd => (hx.digits d hd).1) (le_refl 0) (by simpa using hx.fits) k
  rwa [zero_add] at hl

theorem method1_spec (hx : IsNumber h p xs) : Ends (fun fuel => method1 fuel h p) (.ok (decimal (vals xs))) := by
  apply ends_of_lt xs.length
  intro fuel hf
  rw [method1, checkLen_spec hx.chain hf, ok_bind, calcNumber_spec hx hf]

/-- **Method 2 ends with the two decimal values that method 1 computes**, and the number of a list stays the same whatever
the other list is. -/
theorem methods_agree (hx : IsNumber h p xs) (hy : IsNumber h q ys) :
    ∃ s, Ends (fun fuel => numbers fuel h p q) (.ok s) ∧
      s.num1 = decimal (vals xs) ∧ Ends (fun fuel => method1 fuel h p) (.ok s.num1) ∧
      s.num2 = decimal (vals ys) ∧ Ends (fun fuel => method1 fuel h q) (.ok s.num2) ∧
      (∀ h' q' zs, IsNumber h' p xs → IsNumber h' q' zs →
        ∃ s', Ends (fun fuel => numbers fuel h' p q') (.ok s') ∧ s'.num1 = s.num1) ∧
      ∀ h' p' zs, IsNumber h' q ys → IsNumber h' p' zs →
        ∃ s', Ends (fun fuel => numbers fuel h' p' q) (.ok s') ∧ s'.num2 = s.num2 := by
  refine ⟨_, numbers_spec hx hy, rfl, method1_spec hx, rfl, method1_spec hy, ?_, ?_⟩
  · intro h' q' zs hx' hz
    exact ⟨_, numbers_spec hx' hz, rfl⟩
  · intro h' p' zs hy' hz
    exact ⟨_, numbers_spec hz hy', rfl⟩

/-- The two lists of `multiply_two_lists.c`. -/
def mainHeap : Heap Int := ⟨[⟨9, some 1⟩, ⟨4, some 2⟩, ⟨6, none⟩, ⟨8, some 4⟩, ⟨4, none⟩], []⟩

/-- 9, 4, 6 and 8, 4 are read as 946 and 84. -/
theorem methods_agree_main : ∃ s, Ends (fun fuel => numbers fuel mainHeap (some 0) (some 3)) (.ok s) ∧
    s.num1 = 946 ∧ s.num2 = 84 := by
  have hx : IsNumber mainHeap (some 0) [(0, 9), (1, 4), (2, 6)] :=
    ⟨⟨rfl, _, rfl, rfl, _, rfl, rfl, _, rfl, rfl⟩, by decide, by decide⟩
  have hy : IsNumber mainHeap (some 3) [(3, 8), (4, 4)] :=
    ⟨⟨rfl, _, rfl, rfl, _, rfl, rfl⟩, by decide, by decide⟩
  obtain ⟨s, he, h₁, -, h₂, -⟩ := methods_agree hx hy
  exact ⟨s, he, h₁, h₂⟩

/-! ## How large the numbers may be -/

/-- The chain from `p` is a list of decimal digits. -/
structure IsDigits (h : Heap Int) (p : Option Nat) (xs : List (Nat × Int)) : Prop where
  chain : Seg h.cell p xs none
  digits : ∀ d ∈ vals xs, 0 ≤ d ∧ d ≤ 9

/-- As `Reads`, for a total that need not fit: so far the number has. -/
structure Tracks (h : Heap Int) (p : Option Nat) (a : Int) (xs : List (Nat × Int)) (n : Int) : Prop where
  chain : Seg h.cell p xs none
  digits : ∀ d ∈ vals xs, 0 ≤ d
  nonneg : 0 ≤ a
  total : a * 10 ^ xs.length + decimal (vals xs) = n
  soFar : a < 2 ^ 31

theorem IsDigits.tracks (hx : IsDigits h p xs) : Tracks h p 0 xs (decimal (vals xs)) where
  chain := hx.chain
  digits := fun d hd => (hx.digits d hd).1
  nonneg := le_refl 0
  total := by rw [zero_mul, zero_add]
  soFar := by decide

theorem IsDigits.isNumber (hx : IsDigits h p xs) (hfits : decimal (vals xs) < 2 ^ 31) : IsNumber h p xs :=
  ⟨hx.chain, hx.digits, hfits⟩

theorem IsDigits.decimal_nonneg (hx : IsDigits h p xs) : 0 ≤ decimal (vals xs) :=
  LinkedList.decimal_nonneg fun d hd => (hx.digits d hd).1

theorem Tracks.eq_of_null (ht : Tracks h none a xs n) : a = n := by
  cases xs with
  | nil => simpa [decimal] using ht.total
  | cons x xs => cases ht.chain.1

/-- A half of a turn that does not overflow keeps the total. -/
theorem Tracks.step (ht : Tracks h p a xs n) {p' : Option Nat} {a' : Int} (hs : digitStep h p a = .ok (p', a')) :
    Tracks h p' a' xs.tail n := by
  cases xs with
  | nil =>
    obtain rfl : p = none := ht.chain
    cases hs
    exact ht
  | cons x xs =>
    obtain ⟨i, d⟩ := x
    obtain ⟨rfl, q, hc, hx⟩ := ht.chain
    rw [digitStep, Heap.load_live hc, ok_bind] at hs
    obtain ⟨tens, htens, hs⟩ := bind_eq_ok hs
    obtain ⟨sum, hsum, hs⟩ := bind_eq_ok hs
    obtain ⟨rfl, -⟩ := checkedInt_eq_ok htens
    obtain ⟨rfl, hfit⟩ := checkedInt_eq_ok hsum
    cases hs
    have hd : 0 ≤ d := ht.digits d (by simp)
    have hnonneg : 0 ≤ a * 10 + d := by have := ht.nonneg; omega
    have htotal : (a * 10 + d) * 10 ^ xs.length + decimal (vals xs) = n := by
      rw [← ht.total, ← length_vals xs, ← decimal_step, length_vals]
      rfl
    exact ⟨hx, fun e he => ht.digits e (List.mem_cons_of_mem _ he), hnonneg, htotal, hfit.2⟩

/-- A run that does not overflow ends with the totals, and these fit. -/
theorem loop_numbers_fits (hx : Tracks h p a xs n) (hy : Tracks h q b ys m) {fuel : Nat} {s : Numbers}
    (hl : loop (numbersTurn h) fuel ⟨p, q, a, b⟩ = .ok s) :
    s = ⟨none, none, n, m⟩ ∧ n < 2 ^ 31 ∧ m < 2 ^ 31 := by
  refine post_of_loop
    (fun s : Numbers => (∃ xs, Tracks h s.headRef1 s.num1 xs n) ∧ ∃ ys, Tracks h s.headRef2 s.num2 ys m)
    (fun s => s = ⟨none, none, n, m⟩ ∧ n < 2 ^ 31 ∧ m < 2 ^ 31) ?_ ?_ ⟨⟨xs, hx⟩, ys, hy⟩ hl
  · rintro ⟨p, q, a, b⟩ s' ⟨⟨xs, hx⟩, ys, hy⟩ ht
    unfold numbersTurn at ht
    split at ht
    · cases ht
    · obtain ⟨⟨p', a'⟩, hp, ht⟩ := bind_eq_ok ht
      obtain ⟨⟨q', b'⟩, hq, ht⟩ := bind_eq_ok ht
      cases ht
      exact ⟨⟨xs.tail, hx.step hp⟩, ys.tail, hy.step hq⟩
  · rintro ⟨p, q, a, b⟩ r ⟨⟨xs, hx⟩, ys, hy⟩ ht
    unfold numbersTurn at ht
    split at ht
    · rename_i hnull
      obtain ⟨rfl, rfl⟩ := hnull
      cases ht
      rw [← hx.eq_of_null, ← hy.eq_of_null]
      exact ⟨rfl, hx.soFar, hy.soFar⟩
    · obtain ⟨⟨p', a'⟩, hp, ht⟩ := bind_eq_ok ht
      obtain ⟨⟨q', b'⟩, hq, ht⟩ := bind_eq_ok ht
      cases ht

/-- The line that `multiply` prints for two numbers. -/
def productLine (n m : Int) : String :=
  "num1=" ++ toString n ++ ", num2=" ++ toString m ++ ", num1*num2=" ++ toString (n * m) ++ "\n"

/-- The line that `subtract` prints for two numbers. -/
def differenceLine (n m : Int) : String :=
  "num1=" ++ toString n ++ ", num2=" ++ toString m ++ (if n > m then ", num1-num2=" else ", num2-num1=") ++
    toString |n - m| ++ "\n"

/-- `multiply` prints the product of the decimal values. -/
def Multiplies (h : Heap Int) (p q : Option Nat) (xs ys : List (Nat × Int)) : Prop :=
  ∃ s, Ends (fun fuel => multiply fuel h p q) (.ok (productLine (decimal (vals xs)) (decimal (vals ys)), s))

/-- `subtract` prints the absolute difference of the decimal values. -/
def Subtracts (h : Heap Int) (p q : Option Nat) (xs ys : List (Nat × Int)) : Prop :=
  ∃ s, Ends (fun fuel => subtract fuel h p q) (.ok (differenceLine (decimal (vals xs)) (decimal (vals ys)), s))

section Exact

variable (hx : IsDigits h p xs) (hy : IsDigits h q ys)
include hx hy

theorem numbers_fits {fuel : Nat} {s : Numbers} (hn : numbers fuel h p q = .ok s) :
    s = ⟨none, none, decimal (vals xs), decimal (vals ys)⟩ ∧ decimal (vals xs) < 2 ^ 31 ∧ decimal (vals ys) < 2 ^ 31 :=
  loop_numbers_fits hx.tracks hy.tracks hn

theorem multiplies_iff : Multiplies h p q xs ys ↔ decimal (vals xs) < 2 ^ 31 ∧ decimal (vals ys) < 2 ^ 31 ∧
    decimal (vals xs) * decimal (vals ys) < 2 ^ 31 := by
  constructor
  · rintro ⟨s, fuel, he⟩
    obtain ⟨s', hn, he⟩ := bind_eq_ok (he fuel le_rfl)
    obtain ⟨product, hp, -⟩ := bind_eq_ok he
    obtain ⟨rfl, hx', hy'⟩ := numbers_fits hx hy hn
    exact ⟨hx', hy', (checkedInt_eq_ok hp).2.2⟩
  · rintro ⟨hx', hy', hxy⟩
    refine ⟨⟨none, none, decimal (vals xs), decimal (vals ys)⟩,
      (numbers_spec (hx.isNumber hx') (hy.isNumber hy')).bind ⟨0, fun _ _ => ?_⟩⟩
    rw [checkedInt_of_nonneg (mul_nonneg hx.decimal_nonneg hy.decimal_nonneg) hxy]
    rfl

theorem subtracts_iff : Subtracts h p q xs ys ↔ decimal (vals xs) < 2 ^ 31 ∧ decimal (vals ys) < 2 ^ 31 := by
  constructor
  · rintro ⟨s, fuel, he⟩
    obtain ⟨s', hn, -⟩ := bind_eq_ok (he fuel le_rfl)
    exact (numbers_fits hx hy hn).2
  · rintro ⟨hx', hy'⟩
    have h₁ := hx.decimal_nonneg
    have h₂ := hy.decimal_nonneg
    refine ⟨⟨none, none, decimal (vals xs), decimal (vals ys)⟩,
      (numbers_spec (hx.isNumber hx') (hy.isNumber hy')).bind ⟨0, fun _ _ => ?_⟩⟩
    dsimp only
    by_cases hgt : decimal (vals xs) > decimal (vals ys)
    · rw [if_pos hgt, checkedInt_of_nonneg (by omega) (by omega), differenceLine, if_pos hgt,
        abs_of_nonneg (by omega)]
      rfl
    · rw [if_neg hgt, checkedInt_of_nonneg (by omega) (by omega), differenceLine, if_neg hgt, abs_sub_comm,
        abs_of_nonneg (by omega)]
      rfl

/-- **The printed results are exact** as long as both numbers, and the product for `multiply`, are values of an
`int`. -/
theorem exact_iff : (Multiplies h p q xs ys ↔ decimal (vals xs) < 2 ^ 31 ∧ decimal (vals ys) < 2 ^ 31 ∧
      decimal (vals xs) * decimal (vals ys) < 2 ^ 31) ∧
    (Subtracts h p q xs ys ↔ decimal (vals xs) < 2 ^ 31 ∧ decimal (vals ys) < 2 ^ 31) :=
  ⟨multiplies_iff hx hy, subtracts_iff hx hy⟩

end Exact

/-- 946 times 84 and 946 minus 84. -/
theorem exact_main : Multiplies mainHeap (some 0) (some 3) [(0, 9), (1, 4), (2, 6)] [(3, 8), (4, 4)] ∧
    Subtracts mainHeap (some 0) (some 3) [(0, 9), (1, 4), (2, 6)] [(3, 8), (4, 4)] := by
  have hx : IsDigits mainHeap (some 0) [(0, 9), (1, 4), (2, 6)] :=
    ⟨⟨rfl, _, rfl, rfl, _, rfl, rfl, _, rfl, rfl⟩, by decide⟩
  have hy : IsDigits mainHeap (some 3) [(3, 8), (4, 4)] := ⟨⟨rfl, _, rfl, rfl, _, rfl, rfl⟩, by decide⟩
  obtain ⟨hm, hs⟩ := exact_iff hx hy
  exact ⟨hm.mpr (by decide), hs.mpr (by decide)⟩

/-- 46341 twice, the first number whose square is no `int`. -/
def squareHeap : Heap Int :=
  ⟨[⟨4, some 1⟩, ⟨6, some 2⟩, ⟨3, some 3⟩, ⟨4, some 4⟩, ⟨1, none⟩, ⟨4, some 6⟩, ⟨6, some 7⟩, ⟨3, some 8⟩, ⟨4, some 9⟩,
    ⟨1, none⟩], []⟩

theorem squareHeap_overflow :
    ¬ (Multiplies squareHeap (some 0) (some 5) [(0, 4), (1, 6), (2, 3), (3, 4), (4, 1)]
        [(5, 4), (6, 6), (7, 3), (8, 4), (9, 1)] ∧
      Subtracts squareHeap (some 0) (some 5) [(0, 4), (1, 6), (2, 3), (3, 4), (4, 1)]
        [(5, 4), (6, 6), (7, 3), (8, 4), (9, 1)]) := by
  have hx : IsDigits squareHeap (some 0) [(0, 4), (1, 6), (2, 3), (3, 4), (4, 1)] :=
    ⟨⟨rfl, _, rfl, rfl, _, rfl, rfl, _, rfl, rfl, _, rfl, rfl, _, rfl, rfl⟩, by decide⟩
  have hy : IsDigits squareHeap (some 5) [(5, 4), (6, 6), (7, 3), (8, 4), (9, 1)] :=
    ⟨⟨rfl, _, rfl, rfl, _, rfl, rfl, _, rfl, rfl, _, rfl, rfl, _, rfl, rfl⟩, by decide⟩
  rintro ⟨hm, -⟩
  rw [multiplies_iff hx hy] at hm
  exact absurd hm (by decide)

end SideWork.LinkedList
