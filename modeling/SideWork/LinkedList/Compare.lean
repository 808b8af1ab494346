import SideWork.Lib.Shortlex
import SideWork.LinkedList.Numbers

/-!
# `compare` (`compare_two_lists.c`)

The lengths are compared first, and lists of one length are walked together up to the first two values that differ. That
is the shortlex order: `compare_spec` says that `compare` returns the sign of `shortlex`, and `compare_order` takes the
laws of a total order from there.

The references are to two variables, as in `main`; the walk moves both of them, while the lists stay as they are.
`keeps_iff` says when `compare`, and the `multiply` and `subtract` of `Numbers`, leave the variables where they were.
-/

namespace SideWork.LinkedList

/-- What `compare` returns, what it leaves behind its references, and what it prints. -/
structure Compared where
  ret : Int
  headRef1 : Option Nat
  headRef2 : Option Nat
  out : String
  deriving DecidableEq, Repr

/-- One turn of `while (*head_ref1 && *head_ref2)`. -/
def compareTurn (h : Heap Int) : Option Nat × Option Nat → Except Stop (Option Nat × Option Nat ⊕ Compared)
  | (some i, some j) => do
    let c ← h.load (some i)
    let d ← h.load (some j)
    if c.value = d.value then return .inl (c.next, d.next)
    else if c.value > d.value then return .inr ⟨1, some i, some j, ""⟩
    else return .inr ⟨-1, some i, some j, ""⟩
  | (headRef1, headRef2) => return .inr ⟨0, headRef1, headRef2, "Two list are the same\n"⟩

/-- `compare`. -/
protected def compare (fuel : Nat) (h : Heap Int) (headRef1 headRef2 : Option Nat) : Except Stop Compared := do
  let len1 ← checkLen fuel h headRef1
  let len2 ← checkLen fuel h headRef2
  if len1 > len2 then return ⟨1, headRef1, headRef2, ""⟩
  else if len1 < len2 then return ⟨-1, headRef1, headRef2, ""⟩
  else loop (compareTurn h) fuel (headRef1, headRef2)

variable {h : Heap Int} {p q r : Option Nat} {as bs cs : List (Nat × Int)}

/-! ## The walk -/

/-- The result of a comparison with the order `o`, printed only for equal lists; these also lose both heads. -/
structure Tells (o : Ordering) (c : Compared) : Prop where
  ret : c.ret = sign o
  out : c.out = if o = .eq then "Two list are the same\n" else ""
  heads : o = .eq → c.headRef1 = none ∧ c.headRef2 = none

/-- On lists of one length the walk tells the lexicographic order. -/
theorem loop_compare (ha : Seg h.cell p as none) (hb : Seg h.cell q bs none) (hl : as.length = bs.length) :
    ∃ c, (∀ fuel, as.length < fuel → loop (compareTurn h) fuel (p, q) = .ok c) ∧
      Tells (compare (vals as) (vals bs)) c := by
  induction as generalizing p q bs with
  | nil =>
    obtain rfl := List.length_eq_zero_iff.mp hl.symm
    obtain rfl : p = none := ha
    obtain rfl : q = none := hb
    exact ⟨_, fun _ hf => loop_done_of_lt rfl hf, rfl, rfl, fun _ => ⟨rfl, rfl⟩⟩
  | cons a as ih =>
    obtain _ | ⟨b, bs⟩ := bs
    · cases hl
    obtain ⟨rfl, n, hca, ha⟩ := ha
    obtain ⟨rfl, m, hcb, hb⟩ := hb
    rw [vals_cons, vals_cons, List.compare_cons_cons]
    rcases lt_trichotomy a.2 b.2 with hlt | heq | hgt
    · have hturn : compareTurn h (some a.1, some b.1) = .ok (.inr ⟨-1, some a.1, some b.1, ""⟩) := by
        simp [compareTurn, Heap.load_live hca, Heap.load_live hcb, hlt.ne, hlt.not_gt]
      rw [compare_lt_iff_lt.mpr hlt, Ordering.lt_then]
      exact ⟨_, fun _ hf => loop_done_of_lt hturn hf, rfl, rfl, nofun⟩
    · have hturn : compareTurn h (some a.1, some b.1) = .ok (.inl (n, m)) := by
        simp [compareTurn, Heap.load_live hca, Heap.load_live hcb, heq]
      obtain ⟨c, hc, ht⟩ := ih ha hb (Nat.succ.inj hl)
      rw [compare_eq_iff_eq.mpr heq, Ordering.eq_then]
      exact ⟨c, loop_again_of_lt hturn hc, ht⟩
    · have hturn : compareTurn h (some a.1, some b.1) = .ok (.inr ⟨1, some a.1, some b.1, ""⟩) := by
        simp [compareTurn, Heap.load_live hca, Heap.load_live hcb, hgt.ne', hgt]
      rw [compare_gt_iff_gt.mpr hgt, Ordering.gt_then]
      exact ⟨_, fun _ hf => loop_done_of_lt hturn hf, rfl, rfl, nofun⟩

/-! ## `compare` -/

theorem compare_eq (ha : Seg h.cell p as none) (hb : Seg h.cell q bs none) {fuel : Nat}
    (hf : max as.length bs.length < fuel) : LinkedList.compare fuel h p q =
      if as.length > bs.length then .ok ⟨1, p, q, ""⟩
      else if as.length < bs.length then .ok ⟨-1, p, q, ""⟩
      else loop (compareTurn h) fuel (p, q) := by
  rw [LinkedList.compare, checkLen_spec ha (by omega), ok_bind, checkLen_spec hb (by omega), ok_bind]
  rfl

section Lengths

variable (ha : Seg h.cell p as none) (hb : Seg h.cell q bs none)
include ha hb

theorem compare_shorter (hlt : as.length < bs.length) :
    Ends (fun fuel => LinkedList.compare fuel h p q) (.ok ⟨-1, p, q, ""⟩) := by
  refine ends_of_lt (max as.length bs.length) fun fuel hf => ?_
  rw [compare_eq ha hb hf, if_neg hlt.not_gt, if_pos hlt]

theorem compare_longer (hgt : as.length > bs.length) :
    Ends (fun fuel => LinkedList.compare fuel h p q) (.ok ⟨1, p, q, ""⟩) := by
  refine ends_of_lt (max as.length bs.length) fun fuel hf => ?_
  rw [compare_eq ha hb hf, if_pos hgt]

/-- Lists of one length are compared by the walk. -/
theorem compare_walk (heq : as.length = bs.length) {r : Except Stop Compared}
    (hl : ∀ fuel, as.length < fuel → loop (compareTurn h) fuel (p, q) = r) :
    Ends (fun fuel => LinkedList.compare fuel h p q) r := by
  refine ends_of_lt (max as.length bs.length) fun fuel hf => ?_
  rw [compare_eq ha hb hf, if_neg heq.not_gt, if_neg heq.not_lt, hl fuel (by omega)]

/-- `compare` tells the shortlex order. -/
theorem compare_spec :
    ∃ c, Ends (fun fuel => LinkedList.compare fuel h p q) (.ok c) ∧ Tells (shortlex (vals as) (vals bs)) c := by
  rcases lt_trichotomy as.length bs.length with hlt | heq | hgt
  · refine ⟨_, compare_shorter ha hb hlt, ?_⟩
    rw [shortlex_of_length_lt (by simpa using hlt)]
    exact ⟨rfl, rfl, nofun⟩
  · obtain ⟨c, hc, ht⟩ := loop_compare ha hb heq
    rw [← shortlex_of_length_eq (by simpa using heq)] at ht
    exact ⟨c, compare_walk ha hb heq hc, ht⟩
  · refine ⟨_, compare_longer ha hb hgt, ?_⟩
    rw [shortlex_of_length_gt (by simpa using hgt)]
    exact ⟨rfl, rfl, nofun⟩

end Lengths

/-- The lists 7, 3 and 7, 2. -/
def twoLists : Heap Int := ⟨[⟨7, some 1⟩, ⟨3, none⟩, ⟨7, some 3⟩, ⟨2, none⟩], []⟩

/-- The two variables designate the chains they designated before. -/
def Kept (h : Heap Int) (as bs : List (Nat × Int)) (headRef1 headRef2 : Option Nat) : Prop :=
  Seg h.cell headRef1 as none ∧ Seg h.cell headRef2 bs none

def CompareKeeps (h : Heap Int) (p q : Option Nat) (as bs : List (Nat × Int)) : Prop :=
  ∃ c, Ends (fun fuel => LinkedList.compare fuel h p q) (.ok c) ∧ Kept h as bs c.headRef1 c.headRef2

def MultiplyKeeps (h : Heap Int) (p q : Option Nat) (as bs : List (Nat × Int)) : Prop :=
  ∃ out s, Ends (fun fuel => multiply fuel h p q) (.ok (out, s)) ∧ Kept h as bs s.headRef1 s.headRef2

def SubtractKeeps (h : Heap Int) (p q : Option Nat) (as bs : List (Nat × Int)) : Prop :=
  ∃ out s, Ends (fun fuel => subtract fuel h p q) (.ok (out, s)) ∧ Kept h as bs s.headRef1 s.headRef2

/-- A turn that leaves does not move the first variable. -/
theorem compareTurn_leave {c : Compared} (ht : compareTurn h (p, q) = .ok (.inr c)) : c.headRef1 = p := by
  cases p with
  | none =>
    cases ht
    rfl
  | some i =>
    cases q with
    | none =>
      cases ht
      rfl
    | some j =>
      obtain ⟨d, -, ht⟩ := bind_eq_ok ht
      obtain ⟨e, -, ht⟩ := bind_eq_ok ht
      split at ht
      · cases ht
      · split at ht <;> cases ht <;> rfl

/-- A turn that goes on moves the first variable to the next node. -/
theorem compareTurn_again {a : Nat × Int} (ha : Seg h.cell p (a :: as) none) {s : Option Nat × Option Nat}
    (ht : compareTurn h (p, q) = .ok (.inl s)) : Seg h.cell s.1 as none := by
  obtain ⟨rfl, n, hc, ha⟩ := ha
  cases q with
  | none => cases ht
  | some j =>
    simp only [compareTurn, Heap.load_live hc, ok_bind] at ht
    obtain ⟨d, -, ht⟩ := bind_eq_ok ht
    split at ht
    · cases ht
      exact ha
    · split at ht <;> cases ht

/-- The walk leaves the first variable on its chain. -/
theorem loop_compare_head (ha : Seg h.cell p as none) {fuel : Nat} {c : Compared}
    (hl : loop (compareTurn h) fuel (p, q) = .ok c) : ∃ as', as' <:+ as ∧ Seg h.cell c.headRef1 as' none := by
  refine post_of_loop (fun s : Option Nat × Option Nat => ∃ as', as' <:+ as ∧ Seg h.cell s.1 as' none)
    (fun c => ∃ as', as' <:+ as ∧ Seg h.cell c.headRef1 as' none) ?_ ?_ ⟨as, List.suffix_refl as, ha⟩ hl
  · rintro ⟨p, q⟩ s ⟨as', hsuf, ha⟩ ht
    cases as' with
    | nil =>
      obtain rfl : p = none := ha
      cases ht
    | cons a as' => exact ⟨as', (List.suffix_cons a as').trans hsuf, compareTurn_again ha ht⟩
  · rintro ⟨p, q⟩ c ⟨as', hsuf, ha⟩ ht
    rw [compareTurn_leave ht]
    exact ⟨as', hsuf, ha⟩

/-- On lists of one length with the same first value the first variable moves. -/
theorem compare_moves {v : Int} (ha : Seg h.cell p as none) (hb : Seg h.cell q bs none) (hl : as.length = bs.length)
    (hva : (vals as).head? = some v) (hvb : (vals bs).head? = some v) : ¬ CompareKeeps h p q as bs := by
  rintro ⟨c, he, hkept, -⟩
  obtain _ | ⟨a, as⟩ := as
  · cases hva
  obtain _ | ⟨b, bs⟩ := bs
  · cases hvb
  obtain ⟨fuel, hf, hrun⟩ := he.exists_run (max (a :: as).length (b :: bs).length)
  rw [compare_eq ha hb hf, if_neg (by omega), if_neg (by omega)] at hrun
  obtain ⟨rfl, k, hca, ha⟩ := ha
  obtain ⟨rfl, m, hcb, hb⟩ := hb
  have hturn : compareTurn h (some a.1, some b.1) = .ok (.inl (k, m)) := by
    have hab : a.2 = b.2 := (Option.some.inj hva).trans (Option.some.inj hvb).symm
    simp [compareTurn, Heap.load_live hca, Heap.load_live hcb, hab]
  obtain ⟨f, rfl⟩ := exists_succ hf
  rw [loop_again hturn] at hrun
  obtain ⟨as', hsuf, has'⟩ := loop_compare_head ha hrun
  -- the variable would designate a chain and a part of its rest
  have hle := hsuf.length_le
  rw [← seg_unique hkept has', List.length_cons] at hle
  omega

/-- On all others nothing moves. -/
theorem compare_keeps (ha : Seg h.cell p as none) (hb : Seg h.cell q bs none)
    (hne : as.length = bs.length → ∀ v, (vals as).head? = some v → (vals bs).head? ≠ some v) :
    CompareKeeps h p q as bs := by
  rcases lt_trichotomy as.length bs.length with hlt | heq | hgt
  · exact ⟨_, compare_shorter ha hb hlt, ha, hb⟩
  · obtain ⟨c, ht, rfl, rfl⟩ : ∃ c, compareTurn h (p, q) = .ok (.inr c) ∧ c.headRef1 = p ∧ c.headRef2 = q := by
      obtain _ | ⟨a, as⟩ := as
      · obtain rfl : p = none := ha
        exact ⟨_, rfl, rfl, rfl⟩
      obtain _ | ⟨b, bs⟩ := bs
      · cases heq
      have hab : a.2 ≠ b.2 := fun e => hne heq a.2 rfl (by rw [e]; rfl)
      obtain ⟨rfl, _, hca, -⟩ := ha
      obtain ⟨rfl, _, hcb, -⟩ := hb
      by_cases hgt : a.2 > b.2
      · exact ⟨⟨1, some a.1, some b.1, ""⟩,
          by simp [compareTurn, Heap.load_live hca, Heap.load_live hcb, hab, hgt], rfl, rfl⟩
      · exact ⟨⟨-1, some a.1, some b.1, ""⟩,
          by simp [compareTurn, Heap.load_live hca, Heap.load_live hcb, hab, hgt], rfl, rfl⟩
    exact ⟨c, compare_walk ha hb heq fun fuel hf => loop_done_of_lt ht hf, ha, hb⟩
  · exact ⟨_, compare_longer ha hb hgt, ha, hb⟩

/-- Method 2 leaves its loop only when both variables are `NULL`. -/
theorem numbers_null {fuel : Nat} {s : Numbers} (hn : numbers fuel h p q = .ok s) :
    s.headRef1 = none ∧ s.headRef2 = none := by
  refine post_of_loop (fun _ => True) (fun s : Numbers => s.headRef1 = none ∧ s.headRef2 = none)
    (fun _ _ _ _ => trivial) ?_ trivial hn
  intro s r _ ht
  unfold numbersTurn at ht
  split at ht
  · cases ht
    assumption
  · obtain ⟨_, -, ht⟩ := bind_eq_ok ht
    obtain ⟨_, -, ht⟩ := bind_eq_ok ht
    cases ht

theorem kept_null : Kept h as bs none none ↔ as = [] ∧ bs = [] := by
  have hnull : ∀ xs : List (Nat × Int), Seg h.cell none xs none ↔ xs = [] := by
    intro xs
    cases xs with
    | nil => exact iff_of_true rfl rfl
    | cons x xs => exact iff_of_false (fun hs => nomatch hs.1) (List.cons_ne_nil _ _)
  rw [Kept, hnull, hnull]

theorem numbers_kept {fuel : Nat} {s : Numbers} (hn : numbers fuel h p q = .ok s)
    (hk : Kept h as bs s.headRef1 s.headRef2) : as = [] ∧ bs = [] := by
  obtain ⟨h₁, h₂⟩ := numbers_null hn
  rw [h₁, h₂] at hk
  exact kept_null.mp hk

theorem multiplyKeeps_iff (ha : Seg h.cell p as none) (hb : Seg h.cell q bs none) :
    MultiplyKeeps h p q as bs ↔ as = [] ∧ bs = [] := by
  constructor
  · rintro ⟨out, s, ⟨fuel, he⟩, hk⟩
    obtain ⟨s', hn, hrest⟩ := bind_eq_ok (he fuel le_rfl)
    obtain ⟨_, -, hrest⟩ := bind_eq_ok hrest
    cases hrest
    exact numbers_kept hn hk
  · rintro ⟨rfl, rfl⟩
    refine ⟨productLine 0 0, ⟨none, none, 0, 0⟩, ends_of_lt 0 fun fuel hf => ?_, kept_null.mpr ⟨rfl, rfl⟩⟩
    obtain rfl : p = none := ha
    obtain rfl : q = none := hb
    obtain ⟨f, rfl⟩ := exists_succ hf
    rfl

theorem subtractKeeps_iff (ha : Seg h.cell p as none) (hb : Seg h.cell q bs none) :
    SubtractKeeps h p q as bs ↔ as = [] ∧ bs = [] := by
  constructor
  · rintro ⟨out, s, ⟨fuel, he⟩, hk⟩
    obtain ⟨s', hn, hrest⟩ := bind_eq_ok (he fuel le_rfl)
    have hs : s = s' := by
      split at hrest <;>
      · obtain ⟨_, -, hrest⟩ := bind_eq_ok hrest
        cases hrest
        rfl
    subst hs
    exact numbers_kept hn hk
  · rintro ⟨rfl, rfl⟩
    refine ⟨differenceLine 0 0, ⟨none, none, 0, 0⟩, ends_of_lt 0 fun fuel hf => ?_, kept_null.mpr ⟨rfl, rfl⟩⟩
    obtain rfl : p = none := ha
    obtain rfl : q = none := hb
    obtain ⟨f, rfl⟩ := exists_succ hf
    rfl

/-- **What the three functions leave of their arguments.** `compare` moves the heads of lists of one length that begin
with the same value; `multiply` and `subtract` move those of all lists but empty ones. -/
theorem keeps_iff (ha : Seg h.cell p as none) (hb : Seg h.cell q bs none) :
    (CompareKeeps h p q as bs ↔
      ¬ (as.length = bs.length ∧ ∃ v, (vals as).head? = some v ∧ (vals bs).head? = some v)) ∧
    (MultiplyKeeps h p q as bs ↔ as = [] ∧ bs = []) ∧ (SubtractKeeps h p q as bs ↔ as = [] ∧ bs = []) := by
  refine ⟨⟨?_, fun hne => ?_⟩, multiplyKeeps_iff ha hb, subtractKeeps_iff ha hb⟩
  · rintro hk ⟨hl, v, hva, hvb⟩
    exact compare_moves ha hb hl hva hvb hk
  · exact compare_keeps ha hb fun hl v hva hvb => hne ⟨hl, v, hva, hvb⟩

/-- The lists 7, 3 and 2 differ in length: only `compare` leaves them. -/
theorem twoLists_kept : CompareKeeps twoLists (some 0) (some 3) [(0, 7), (1, 3)] [(3, 2)] ∧
    ¬ MultiplyKeeps twoLists (some 0) (some 3) [(0, 7), (1, 3)] [(3, 2)] := by
  have ha : Seg twoLists.cell (some 0) [(0, 7), (1, 3)] none := ⟨rfl, _, rfl, rfl, _, rfl, rfl⟩
  have hb : Seg twoLists.cell (some 3) [(3, 2)] none := ⟨rfl, _, rfl, rfl⟩
  obtain ⟨hc, hm, -⟩ := keeps_iff ha hb
  rw [hc, hm]
  simp

/-- Already `compare` moves the head of the list 7, 3. -/
theorem twoLists_moved : ¬ (CompareKeeps twoLists (some 0) (some 2) [(0, 7), (1, 3)] [(2, 7), (3, 2)] ∧
    MultiplyKeeps twoLists (some 0) (some 2) [(0, 7), (1, 3)] [(2, 7), (3, 2)] ∧
    SubtractKeeps twoLists (some 0) (some 2) [(0, 7), (1, 3)] [(2, 7), (3, 2)]) := by
  have ha : Seg twoLists.cell (some 0) [(0, 7), (1, 3)] none := ⟨rfl, _, rfl, rfl, _, rfl, rfl⟩
  have hb : Seg twoLists.cell (some 2) [(2, 7), (3, 2)] none := ⟨rfl, _, rfl, rfl, _, rfl, rfl⟩
  rintro ⟨hk, -⟩
  exact compare_moves ha hb rfl rfl rfl hk

end SideWork.LinkedList
