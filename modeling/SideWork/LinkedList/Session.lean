import SideWork.LinkedList.System

/-!
# The loop of `delete_by_position`

`main` reads positions for as long as it runs; each is deleted and the list is printed (`session`). A position inside the
list takes its node away and any other one changes nothing (`without`), so the states of a session hold the lists
`lists`, whatever is typed (`session_lists`).

The counter of `delete` is an integer, or has 32 bits and wraps around (`wrap`). It is compared with 0 and goes nowhere
else, and on a list of fewer than `2 ^ 31` nodes the walk is over before a counter that has wrapped around is back at 0
(`loop_position32`): both counters give the same session. Where an `int` that leaves its range would be an argument or an
index, as in `search_posision_from_end`, there is no such value to go on with, and `checkedInt` stops the run.
-/

namespace SideWork.LinkedList

variable {h : Heap Int} {s : ListState} {p q : Option Nat} {xs : List (Nat × Int)}

/-! ## A counter of 32 bits -/

/-- What `--` leaves in a counter of 32 bits. -/
def wrap (d : Int) : Int := (d - 1).bmod (2 ^ 32)

theorem loop_position_bmod (hs : Seg h.cell p xs none) {d : Int} (hd : (xs.length : Int) - 2 ^ 32 < d) (hd' : d < 2 ^ 31)
    (fuel : Nat) (prev : Option Nat) :
    loop (positionTurn wrap h) fuel (prev, p, d.bmod (2 ^ 32)) = loop (positionTurn (· - 1) h) fuel (prev, p, d) := by
  induction xs generalizing p d fuel prev with
  | nil =>
    obtain rfl := seg_nil.mp hs
    cases fuel <;> rfl
  | cons x xs ih =>
    obtain ⟨rfl, m, hc, hx⟩ := hs
    cases fuel with
    | zero => rfl
    | succ fuel =>
      rw [List.length_cons] at hd
      push_cast at hd
      by_cases h0 : d = 0
      · subst h0
        rfl
      · have hb : d.bmod (2 ^ 32) ≠ 0 := by
          rw [ne_eq, ← Int.dvd_iff_bmod_eq_zero]
          omega
        have hturn : positionTurn (· - 1) h (prev, some x.1, d) = .ok (.inl (some x.1, m, d - 1)) := by
          simp [positionTurn, Heap.load_live hc, h0]
        have hwrap : positionTurn wrap h (prev, some x.1, d.bmod (2 ^ 32)) =
            .ok (.inl (some x.1, m, (d - 1).bmod (2 ^ 32))) := by
          rw [positionTurn, if_pos hb, Heap.load_live hc, ok_bind, wrap, Int.bmod_sub_bmod]
          rfl
        rw [loop_again hturn, loop_again hwrap]
        exact ih hx (by omega) (by omega) fuel _

/-- The counter of 32 bits stops the walk where the integer does. -/
theorem loop_position32 (hs : Seg h.cell p xs none) (hl : xs.length < 2 ^ 31) {d : Int} (hd : FitsInt d) (fuel : Nat)
    (prev : Option Nat) :
    loop (positionTurn wrap h) fuel (prev, p, d) = loop (positionTurn (· - 1) h) fuel (prev, p, d) := by
  obtain ⟨hge, hlt⟩ := hd
  have hb : d.bmod (2 ^ 32) = d := Int.bmod_eq_of_le (by omega) (by omega)
  have h := loop_position_bmod hs (d := d) (by omega) hlt fuel prev
  rwa [hb] at h

/-- `delete` does the same with either counter. -/
theorem deleteCounting_wrap (hs : Seg s.heap.cell s.head xs none) (hl : xs.length < 2 ^ 31) {d : Int} (hd : FitsInt d)
    (fuel : Nat) : deleteCounting wrap fuel s d = deleteByPosition fuel s d := by
  unfold deleteByPosition deleteCounting
  cases hhead : s.head with
  | none => rfl
  | some a =>
    rw [hhead] at hs
    simp only [loop_position32 hs hl hd]

/-! ## What is printed -/

/-- `while (head != NULL) { printf("%d(%d) ", head->value, position); head = head->next; position++; }` -/
def printTurn (h : Heap Int) : Option Nat × Nat × List (Int × Nat) →
    Except Stop (Option Nat × Nat × List (Int × Nat) ⊕ List (Int × Nat))
  | (none, _, out) => return .inr out
  | (some i, position, out) => do
    let c ← h.load (some i)
    return .inl (c.next, position + 1, out ++ [(c.value, position)])

/-- `print_list`: the values and positions it prints. -/
def printList (fuel : Nat) (s : ListState) : Except Stop (List (Int × Nat)) :=
  loop (printTurn s.heap) fuel (s.head, 0, [])

theorem loop_print (hs : Seg h.cell p xs none) (k n : Nat) (out : List (Int × Nat)) :
    loop (printTurn h) (xs.length + (k + 1)) (p, n, out) = .ok (out ++ (vals xs).zipIdx n) := by
  induction xs generalizing p n out with
  | nil =>
    obtain rfl := seg_nil.mp hs
    simpa using loop_done rfl
  | cons x xs ih =>
    obtain ⟨rfl, m, hc, hx⟩ := hs
    have hturn : printTurn h (some x.1, n, out) = .ok (.inl (m, n + 1, out ++ [(x.2, n)])) := by
      simp [printTurn, Heap.load_live hc]
    rw [loop_again_cons hturn, ih hx]
    simp [vals]

/-- Every node is printed with its position. -/
theorem printList_spec (ho : Holds s xs) {fuel : Nat} (hf : xs.length < fuel) :
    printList fuel s = .ok (vals xs).zipIdx := by
  obtain ⟨k, rfl⟩ := exists_fuel hf
  exact loop_print ho.chain k 0 []

/-! ## A session -/

/-- The `while (1)` of `main` on the positions that are typed: the list and what is printed after each of them. The counter
of `delete` is counted down by `pred`. -/
def session (pred : Int → Int) (fuel : Nat) (s : ListState) :
    List Int → Except Stop (List (ListState × List (Int × Nat)))
  | [] => return []
  | position :: ps => do
    let s ← deleteCounting pred fuel s position
    let out ← printList fuel s
    let rest ← session pred fuel s ps
    return (s, out) :: rest

/-- The lists after each position. -/
def lists (xs : List (Nat × Int)) : List Int → List (List (Nat × Int))
  | [] => []
  | position :: ps => without xs position :: lists (without xs position) ps

/-- One round of the loop. -/
theorem session_cons {pred : Int → Int} {s' : ListState} {fuel : Nat} {d : Int} {ps : List Int}
    {rest : List (ListState × List (Int × Nat))} {ys : List (Nat × Int)}
    (hd : deleteCounting pred fuel s d = .ok s') (ho : Holds s' ys) (hf : ys.length < fuel)
    (hr : session pred fuel s' ps = .ok rest) :
    session pred fuel s (d :: ps) = .ok ((s', (vals ys).zipIdx) :: rest) := by
  rw [session, hd, ok_bind, printList_spec ho hf, ok_bind, hr]
  rfl

/-- **A session never dereferences `NULL`, and each position takes its node away**: whatever is typed, every state holds
the list before it without the node at that position, or the list itself if there is none, and that list is printed. With
a counter of 32 bits, a session in which every position is an `int` does the same. -/
theorem session_lists (ho : Holds s xs) (ps : List Int) :
    ∃ rs, Ends (fun fuel => session (· - 1) fuel s ps) (.ok rs) ∧
      List.Forall₂ (fun r ys => Holds r.1 ys ∧ r.2 = (vals ys).zipIdx) rs (lists xs ps) ∧
      (xs.length < 2 ^ 31 → (∀ d ∈ ps, FitsInt d) → Ends (fun fuel => session wrap fuel s ps) (.ok rs)) := by
  -- the lists only get shorter, so fuel for the first one is enough for all of them
  suffices hs : ∃ rs, (∀ fuel, xs.length < fuel → session (· - 1) fuel s ps = .ok rs) ∧
      List.Forall₂ (fun r ys => Holds r.1 ys ∧ r.2 = (vals ys).zipIdx) rs (lists xs ps) ∧
      (xs.length < 2 ^ 31 → (∀ d ∈ ps, FitsInt d) → ∀ fuel, xs.length < fuel → session wrap fuel s ps = .ok rs) by
    obtain ⟨rs, hr, hl, hwrap⟩ := hs
    exact ⟨rs, ends_of_lt _ hr, hl, fun hshort hps => ends_of_lt _ (hwrap hshort hps)⟩
  induction ps generalizing s xs with
  | nil => exact ⟨[], fun _ _ => rfl, .nil, fun _ _ _ _ => rfl⟩
  | cons d ps ih =>
    obtain ⟨s', hd, ho'⟩ := deleteByPosition_without ho d
    obtain ⟨rest, hr, hl, hwrap⟩ := ih ho'
    have hle := length_without_le xs d
    refine ⟨(s', (vals (without xs d)).zipIdx) :: rest, fun fuel hf => ?_, .cons ⟨ho', rfl⟩ hl,
      fun hshort hps fuel hf => ?_⟩
    · exact session_cons (hd fuel hf) ho' (by omega) (hr fuel (by omega))
    · obtain ⟨hdint, hps⟩ := List.forall_mem_cons.mp hps
      have hd' := (deleteCounting_wrap ho.chain hshort hdint fuel).trans (hd fuel hf)
      exact session_cons hd' ho' (by omega) (hwrap (by omega) hps fuel (by omega))

/-- The positions -1, 3, 2 and 0 on the list 5, 5, 25: the first two change nothing. -/
theorem repeatedList_session : Holds repeatedList [(0, 5), (1, 5), (2, 25)] ∧
    ∃ rs, Ends (fun fuel => session (· - 1) fuel repeatedList [-1, 3, 2, 0]) (.ok rs) ∧
      List.Forall₂ (fun r ys => Holds r.1 ys ∧ r.2 = (vals ys).zipIdx) rs
        [[(0, 5), (1, 5), (2, 25)], [(0, 5), (1, 5), (2, 25)], [(0, 5), (1, 5)], [(1, 5)]] ∧
      Ends (fun fuel => session wrap fuel repeatedList [-1, 3, 2, 0]) (.ok rs) := by
  obtain ⟨rs, hr, hl, hwrap⟩ := session_lists holds_repeatedList [-1, 3, 2, 0]
  exact ⟨holds_repeatedList, rs, hr, hl, hwrap (by decide) (by decide)⟩

end SideWork.LinkedList
