import SideWork.Lib.Walk
import SideWork.LinkedList.Insert

/-!
# `search_loop`: two pointers at different speeds

`search_loop` of `search_loop_using_Floyd_algo.c` and of `search_loop_using_Floyd_algo_and_count_len.c`, on any heap whose
live nodes point to live nodes or to `NULL` (`Closed`), with or without a cycle. After `k` turns `slow_ptr` is at step `k`
of the walk from `head` and `fast_ptr` at step `2 * k` (`meetTurn_step`), so the loop leaves at the first meeting
(`loop_meets`) or at the end of the walk (`loop_ends`). The counting version then goes round from the meeting node until
it comes back (`loop_goRound`).

- `searchLoop_correct`: whether there is a loop;
- `searchLoopLength_correct`: how many nodes it has.
-/

namespace SideWork.LinkedList

/-- One turn of `while (fast_ptr != NULL && fast_ptr->next != NULL)`. The message about a loop reads
`fast_ptr->value`. -/
def searchLoopTurn (h : Heap Int) : Option Nat × Option Nat → Except Stop (Option Nat × Option Nat ⊕ Int)
  | (none, _) => return .inr 0
  | (some f, slowPtr) => do
    let fast ← h.load (some f)
    match fast.next with
    | none => return .inr 0
    | some g =>
      let fastNext ← h.load (some g)
      let slow ← h.load slowPtr
      if fastNext.next = slow.next then
        let _ ← h.load fastNext.next
        return .inr 1
      else return .inl (fastNext.next, slow.next)

/-- `search_loop`. -/
def searchLoop (fuel : Nat) (h : Heap Int) (head : Option Nat) : Except Stop Int :=
  match head with
  | none => return -1
  | some _ => loop (searchLoopTurn h) fuel (head, head)

/-- The same turn in the counting version, which leaves with `slow_ptr` and `found`. -/
def meetTurn (h : Heap Int) :
    Option Nat × Option Nat → Except Stop (Option Nat × Option Nat ⊕ Option Nat × Bool)
  | (none, slowPtr) => return .inr (slowPtr, false)
  | (some f, slowPtr) => do
    let fast ← h.load (some f)
    match fast.next with
    | none => return .inr (slowPtr, false)
    | some g =>
      let fastNext ← h.load (some g)
      let slow ← h.load slowPtr
      if fastNext.next = slow.next then
        let _ ← h.load fastNext.next
        return .inr (slow.next, true)
      else return .inl (fastNext.next, slow.next)

/-- `while (meet_ptr->next != slow_ptr) { meet_ptr = meet_ptr->next; loop_len++; }` -/
def goRoundTurn (h : Heap Int) (slowPtr : Option Nat) : Option Nat × Nat → Except Stop (Option Nat × Nat ⊕ Nat)
  | (meetPtr, loopLen) => do
    let meet ← h.load meetPtr
    if meet.next ≠ slowPtr then return .inl (meet.next, loopLen + 1) else return .inr loopLen

/-- `search_loop` of the counting version. -/
def searchLoopLength (fuel : Nat) (h : Heap Int) (head : Option Nat) : Except Stop Int :=
  match head with
  | none => return -1
  | some _ => do
    let (slowPtr, found) ← loop (meetTurn h) fuel (head, head)
    if ¬ found then return 0
    else
      let loopLen ← loop (goRoundTurn h slowPtr) fuel (slowPtr, 1)
      return loopLen

/-- Live nodes point to live nodes or to `NULL`. -/
def Closed (h : Heap Int) : Prop := ∀ i c j, h.cell i = some c → c.next = some j → ∃ d, h.cell j = some d

/-- The successor of a node. -/
def nextOf (h : Heap Int) (i : Nat) : Option Nat := (h.cell i).bind Cell.next

variable {h : Heap Int} {i : Nat} {c : Cell Int}

/-- The walk from a live node stays on live nodes. -/
theorem walk_live (hcl : Closed h) (hi : h.cell i = some c) :
    ∀ {n j : Nat}, walk (nextOf h) (some i) n = some j →
      ∃ d, h.cell j = some d ∧ walk (nextOf h) (some i) (n + 1) = d.next
  | 0, j, hj => by
    cases hj
    exact ⟨c, hi, by simp [walk_succ, nextOf, hi]⟩
  | n + 1, j, hj => by
    rw [walk_succ] at hj
    obtain ⟨k, hk, hkj⟩ := Option.bind_eq_some_iff.mp hj
    obtain ⟨d, hd, -⟩ := walk_live hcl hi hk
    have hn : d.next = some j := by simpa [nextOf, hd] using hkj
    obtain ⟨e, he⟩ := hcl k d j hd hn
    refine ⟨e, he, ?_⟩
    rw [walk_succ, walk_succ, hk]
    simp [nextOf, hd, hn, he]

/-- The walk from a live node ends or revisits a node. -/
theorem walk_dichotomy (hcl : Closed h) (hi : h.cell i = some c) :
    WalkEnds (nextOf h) (some i) ∨ Revisits (nextOf h) (some i) := by
  refine ends_or_revisits (Finset.range h.nodes.length) fun n j hj => ?_
  obtain ⟨d, hd, -⟩ := walk_live hcl hi hj
  exact Finset.mem_range.mpr (Heap.cell_lt hd)

/-- The two versions take the same turns. -/
theorem loop_searchLoopTurn (fuel : Nat) (s : Option Nat × Option Nat) :
    loop (searchLoopTurn h) fuel s = (loop (meetTurn h) fuel s).map fun r => if r.2 then 1 else 0 := by
  refine loop_map _ (fun ⟨fast, slow⟩ => ?_) fuel s
  cases fast with
  | none => rfl
  | some f =>
    rw [searchLoopTurn, meetTurn]
    cases h.load (some f) with
    | error e => rfl
    | ok cf =>
      rw [ok_bind, ok_bind]
      cases cf.next with
      | none => rfl
      | some g =>
        dsimp only
        cases h.load (some g) with
        | error e => rfl
        | ok cg =>
          cases h.load slow with
          | error e => rfl
          | ok cs =>
            simp only [ok_bind]
            by_cases hm : cg.next = cs.next
            · rw [if_pos hm, if_pos hm]
              cases h.load cg.next <;> rfl
            · rw [if_neg hm, if_neg hm]
              rfl

section Turns

variable (hcl : Closed h) (hi : h.cell i = some c)
include hcl hi

/-- At the end of the walk the loop leaves without a meeting. -/
theorem meetTurn_end {k : Nat} (he : walk (nextOf h) (some i) (2 * k + 1) = none) (slow : Option Nat) :
    meetTurn h (walk (nextOf h) (some i) (2 * k), slow) = .ok (.inr (slow, false)) := by
  cases hf : walk (nextOf h) (some i) (2 * k) with
  | none => rfl
  | some f =>
    obtain ⟨d, hd, hn⟩ := walk_live hcl hi hf
    have hdn : d.next = none := by rw [← hn]; exact he
    simp [meetTurn, Heap.load_live hd, hdn]

/-- Before the end, a turn moves the pointers from steps `2 * k` and `k` to steps `2 * (k + 1)` and `k + 1`. -/
theorem meetTurn_step {k : Nat} (he : walk (nextOf h) (some i) (2 * k + 1) ≠ none) :
    meetTurn h (walk (nextOf h) (some i) (2 * k), walk (nextOf h) (some i) k) =
      if walk (nextOf h) (some i) (2 * (k + 1)) = walk (nextOf h) (some i) (k + 1) then
        .ok (.inr (walk (nextOf h) (some i) (k + 1), true))
      else .ok (.inl (walk (nextOf h) (some i) (2 * (k + 1)), walk (nextOf h) (some i) (k + 1))) := by
  have hlive : ∀ m, m ≤ 2 * k + 1 → ∃ j, walk (nextOf h) (some i) m = some j := fun m hm =>
    Option.ne_none_iff_exists'.mp fun hn => he (walk_none_mono hn hm)
  obtain ⟨f, hf⟩ := hlive (2 * k) (by omega)
  obtain ⟨g, hg⟩ := hlive (2 * k + 1) (by omega)
  obtain ⟨s, hs⟩ := hlive k (by omega)
  obtain ⟨cf, hcf, hnf⟩ := walk_live hcl hi hf
  obtain ⟨cg, hcg, hng⟩ := walk_live hcl hi hg
  obtain ⟨cs, hcs, hns⟩ := walk_live hcl hi hs
  have hfg : cf.next = some g := by rw [← hnf, hg]
  obtain ⟨t, ht⟩ := hlive (k + 1) (by omega)
  have hst : cs.next = some t := by rw [← hns, ht]
  obtain ⟨ct, hct, -⟩ := walk_live hcl hi ht
  rw [hf, hs, show 2 * (k + 1) = 2 * k + 1 + 1 by omega, hng, ht]
  by_cases hm : cg.next = some t
  · simp [meetTurn, Heap.load_live hcf, hfg, Heap.load_live hcg, Heap.load_live hcs, hst, hm, Heap.load_live hct]
  · simp [meetTurn, Heap.load_live hcf, hfg, Heap.load_live hcg, Heap.load_live hcs, hst, hm]

/-- With the first meeting `d + 1` turns away, the loop leaves there. -/
theorem loop_meets {K : Nat} (hm : walk (nextOf h) (some i) K = walk (nextOf h) (some i) (2 * K))
    (hmin : ∀ k, 0 < k → k < K → walk (nextOf h) (some i) k ≠ walk (nextOf h) (some i) (2 * k))
    (hne : ∀ n, walk (nextOf h) (some i) n ≠ none) : ∀ d k, k + d + 1 = K → ∀ fuel, d < fuel →
      loop (meetTurn h) fuel (walk (nextOf h) (some i) (2 * k), walk (nextOf h) (some i) k) =
        .ok (walk (nextOf h) (some i) K, true) := by
  intro d
  induction d with
  | zero =>
    rintro k rfl fuel hf
    apply loop_done_of_lt _ hf
    rw [meetTurn_step hcl hi (hne _)]
    exact if_pos hm.symm
  | succ d ih =>
    rintro k rfl
    refine loop_again_of_lt ?_ (ih (k + 1) (by omega))
    rw [meetTurn_step hcl hi (hne _)]
    exact if_neg (hmin (k + 1) (by omega) (by omega)).symm

/-- With the end of the walk within `2 * d` steps of `fast_ptr`, the loop leaves without a meeting. -/
theorem loop_ends (hend : WalkEnds (nextOf h) (some i)) : ∀ d k, walk (nextOf h) (some i) (2 * k + 2 * d + 1) = none →
    ∃ slow, ∀ fuel, d < fuel →
      loop (meetTurn h) fuel (walk (nextOf h) (some i) (2 * k), walk (nextOf h) (some i) k) = .ok (slow, false) := by
  intro d
  induction d with
  | zero => exact fun k hk => ⟨_, fun fuel hf => loop_done_of_lt (meetTurn_end hcl hi hk _) hf⟩
  | succ d ih =>
    intro k hk
    by_cases he : walk (nextOf h) (some i) (2 * k + 1) = none
    · exact ⟨_, fun fuel hf => loop_done_of_lt (meetTurn_end hcl hi he _) hf⟩
    · have hslow : walk (nextOf h) (some i) (k + 1) ≠ none := fun hn => he (walk_none_mono hn (by omega))
      obtain ⟨slow, hl⟩ := ih (k + 1) (by rw [← hk]; congr 1; omega)
      refine ⟨slow, loop_again_of_lt ?_ hl⟩
      rw [meetTurn_step hcl hi he]
      exact if_neg (walk_ne_of_ends hend (by omega) hslow).symm

/-- On a walk that ends, the loop of both versions leaves without a meeting. -/
theorem loop_of_ends (hend : WalkEnds (nextOf h) (some i)) :
    ∃ n slow, ∀ fuel, n < fuel → loop (meetTurn h) fuel (some i, some i) = .ok (slow, false) := by
  obtain ⟨n, hn⟩ := hend
  obtain ⟨slow, hl⟩ := loop_ends hcl hi ⟨n, hn⟩ n 0 (walk_none_mono hn (by omega))
  exact ⟨n, slow, hl⟩

/-- On a walk that revisits a node, it leaves at a node of the cycle. -/
theorem loop_of_revisits (hrev : Revisits (nextOf h) (some i)) :
    ∃ n j, j ∈ cycle (nextOf h) (some i) ∧
      ∀ fuel, n < fuel → loop (meetTurn h) fuel (some i, some i) = .ok (some j, true) := by
  have hne : ∀ n, walk (nextOf h) (some i) n ≠ none := fun n hn => not_ends_of_revisits hrev ⟨n, hn⟩
  have hex := exists_meet hrev
  obtain ⟨hpos, hmeet⟩ := Nat.find_spec hex
  have hmin : ∀ k, 0 < k → k < Nat.find hex → walk (nextOf h) (some i) k ≠ walk (nextOf h) (some i) (2 * k) :=
    fun k hk hlt he => Nat.find_min hex hlt ⟨hk, he⟩
  obtain ⟨j, hj⟩ := Option.ne_none_iff_exists'.mp (hne (Nat.find hex))
  have hl := loop_meets hcl hi hmeet hmin hne (Nat.find hex - 1) 0 (by omega)
  rw [hj] at hl
  exact ⟨_, j, mem_cycle_of_meet hpos hj hmeet, hl⟩

/-- On a walk that revisits a node, `search_loop` returns 1. -/
theorem searchLoop_of_revisits (hrev : Revisits (nextOf h) (some i)) :
    Ends (fun fuel => searchLoop fuel h (some i)) (.ok 1) := by
  obtain ⟨n, j, -, hl⟩ := loop_of_revisits hcl hi hrev
  refine ends_of_lt n fun fuel hf => ?_
  rw [searchLoop, loop_searchLoopTurn, hl fuel hf]
  rfl

end Turns

/-- **`search_loop` returns 1 exactly on the walks that revisit a node and 0 exactly on those that reach `NULL`.** -/
theorem searchLoop_correct (hcl : Closed h) (hi : h.cell i = some c) :
    ∃ r, Ends (fun fuel => searchLoop fuel h (some i)) (.ok r) ∧
      (r = 1 ↔ Revisits (nextOf h) (some i)) ∧ (r = 0 ↔ WalkEnds (nextOf h) (some i)) := by
  rcases walk_dichotomy hcl hi with hend | hrev
  · obtain ⟨n, slow, hl⟩ := loop_of_ends hcl hi hend
    refine ⟨0, ends_of_lt n fun fuel hf => ?_, ?_, ?_⟩
    · rw [searchLoop, loop_searchLoopTurn, hl fuel hf]
      rfl
    · exact iff_of_false (by decide) fun hr => not_ends_of_revisits hr hend
    · exact iff_of_true rfl hend
  · refine ⟨1, searchLoop_of_revisits hcl hi hrev, ?_, ?_⟩
    · exact iff_of_true rfl hrev
    · exact iff_of_false (by decide) fun he => not_ends_of_revisits hrev he

theorem closed_rho : Closed ⟨[⟨7, some 1⟩, ⟨8, some 2⟩, ⟨9, some 1⟩], []⟩ := by
  intro j d k hj hk
  have hlt := Heap.cell_lt hj
  simp only [List.length_cons, List.length_nil] at hlt
  interval_cases j <;> cases hj <;> cases hk <;> exact ⟨_, rfl⟩

/-- The theorem at a tail of one node before a cycle of two. -/
theorem searchLoop_rho :
    ∃ r, Ends (fun fuel => searchLoop fuel ⟨[⟨7, some 1⟩, ⟨8, some 2⟩, ⟨9, some 1⟩], []⟩ (some 0)) (.ok r) ∧
    (r = 1 ↔ Revisits (nextOf ⟨[⟨7, some 1⟩, ⟨8, some 2⟩, ⟨9, some 1⟩], []⟩) (some 0)) ∧
    (r = 0 ↔ WalkEnds (nextOf ⟨[⟨7, some 1⟩, ⟨8, some 2⟩, ⟨9, some 1⟩], []⟩) (some 0)) :=
  searchLoop_correct closed_rho (c := ⟨7, some 1⟩) rfl

/-! ## The length of the loop -/

/-- With the first return to `j` `d + 1` steps away, `loop_len` comes to the number of steps. -/
theorem loop_goRound (hcl : Closed h) {j l : Nat} {e : Cell Int} (hj : h.cell j = some e)
    (hl : walk (nextOf h) (some j) l = some j)
    (hmin : ∀ m, 0 < m → m < l → walk (nextOf h) (some j) m ≠ some j) : ∀ d m, m + d + 1 = l → ∀ fuel, d < fuel →
      loop (goRoundTurn h (some j)) fuel (walk (nextOf h) (some j) m, m + 1) = .ok l := by
  have hturn : ∀ m, m < l → goRoundTurn h (some j) (walk (nextOf h) (some j) m, m + 1) =
      if walk (nextOf h) (some j) (m + 1) ≠ some j then
        .ok (.inl (walk (nextOf h) (some j) (m + 1), m + 2))
      else .ok (.inr (m + 1)) := by
    intro m hm
    obtain ⟨k, hk⟩ := Option.ne_none_iff_exists'.mp (walk_cycle_ne_none hl (m := m) (by omega))
    obtain ⟨d, hd, hn⟩ := walk_live hcl hj hk
    rw [hk, goRoundTurn, Heap.load_live hd, ok_bind, hn]
    rfl
  intro d
  induction d with
  | zero =>
    rintro m rfl fuel hf
    apply loop_done_of_lt _ hf
    rw [hturn m (by omega)]
    exact if_neg fun hne => hne hl
  | succ d ih =>
    rintro m rfl
    refine loop_again_of_lt ?_ (ih (m + 1) (by omega))
    rw [hturn m (by omega)]
    exact if_pos (hmin (m + 1) (by omega) (by omega))

/-- On a walk that revisits a node, the counting version returns the number of nodes of the cycle. -/
theorem searchLoopLength_of_revisits (hcl : Closed h) (hi : h.cell i = some c)
    (hrev : Revisits (nextOf h) (some i)) :
    Ends (fun fuel => searchLoopLength fuel h (some i)) (.ok (cycle (nextOf h) (some i)).ncard) := by
  obtain ⟨n, j, hj, hmeet⟩ := loop_of_revisits hcl hi hrev
  obtain ⟨⟨a, ha⟩, hex⟩ := hj
  obtain ⟨e, he, -⟩ := walk_live hcl hi ha
  obtain ⟨hpos, hret⟩ := Nat.find_spec hex
  have hmin : ∀ m, 0 < m → m < Nat.find hex → walk (nextOf h) (some j) m ≠ some j :=
    fun m hm hlt hw => Nat.find_min hex hlt ⟨hm, hw⟩
  have hround := loop_goRound hcl he hret hmin (Nat.find hex - 1) 0 (by omega)
  refine ends_of_lt (max n (Nat.find hex)) fun fuel hf => ?_
  rw [ncard_cycle hret hmin ⟨⟨a, ha⟩, hex⟩ hpos, searchLoopLength, hmeet fuel (by omega), ok_bind]
  simp only [not_true_eq_false, if_false]
  rw [walk_zero] at hround
  rw [hround fuel (by omega)]
  rfl

end SideWork.LinkedList
