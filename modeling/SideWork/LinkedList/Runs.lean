import Mathlib.Data.List.SplitBy
import SideWork.LinkedList.Delete

/-!
# `delete_duplicate` and runs of equal neighbours

`List.splitBy` cuts a list into its maximal runs of nodes with the same value; `delete_duplicate` keeps the first node of
each (`destutter_eq_heads`).

- `deleteDuplicate_unchanged`: a list without equal neighbours is left as it is, so a second call changes nothing;
- `deleteDuplicate_runs`: the result on every list, and on sorted ones.
-/

namespace SideWork.LinkedList

variable {h : Heap Int} {s : ListState} {p : Option Nat} {i : Nat} {v : Int} {xs ys : List (Nat × Int)}

/-- Nodes with the same value. -/
def sameValue (x y : Nat × Int) : Bool := x.2 == y.2

/-- The first node of each maximal run of nodes with the same value. -/
def runHeads (xs : List (Nat × Int)) : List (Nat × Int) := (xs.splitBy sameValue).filterMap List.head?

/-! ## Runs -/

theorem run_values {a : Nat × Int} {g : List (Nat × Int)} (hg : (a :: g).IsChain fun x y => sameValue x y) :
    ∀ x ∈ g, x.2 = a.2 := by
  induction g generalizing a with
  | nil => exact fun x hx => absurd hx List.not_mem_nil
  | cons b g ih =>
    obtain ⟨hab, hg⟩ := List.isChain_cons_cons.mp hg
    have hba : b.2 = a.2 := (beq_iff_eq.mp hab).symm
    intro x hx
    rcases List.mem_cons.mp hx with rfl | hx
    · exact hba
    · exact (ih hg x hx).trans hba

/-- The nodes behind the first one of a run are dropped. -/
theorem destutter'_run {a : Nat × Int} {g : List (Nat × Int)} (hg : ∀ x ∈ g, x.2 = a.2) (m : List (Nat × Int)) :
    (g ++ m).destutter' NeValue a = m.destutter' NeValue a := by
  induction g with
  | nil => rfl
  | cons x g ih =>
    have hx : ¬ NeValue a x := fun h => h (hg x List.mem_cons_self).symm
    rw [List.cons_append, List.destutter'_cons_neg _ hx]
    exact ih fun y hy => hg y (List.mem_cons_of_mem x hy)

/-- A list given by its runs. -/
theorem destutter_flatten {runs : List (List (Nat × Int))} (hn : [] ∉ runs)
    (hc : ∀ m ∈ runs, m.IsChain fun x y => sameValue x y)
    (hb : runs.IsChain fun a b => ∃ ha hb, sameValue (a.getLast ha) (b.head hb) = false) :
    runs.flatten.destutter NeValue = runs.filterMap List.head? := by
  induction runs with
  | nil => rfl
  | cons run runs ih =>
    rw [List.mem_cons, not_or] at hn
    obtain ⟨hne, hn⟩ := hn
    obtain ⟨a, g, rfl⟩ := List.exists_cons_of_ne_nil (Ne.symm hne)
    have hg := run_values (hc _ List.mem_cons_self)
    have hrest := ih hn (fun m hm => hc m (List.mem_cons_of_mem _ hm)) hb.tail
    rw [List.flatten_cons, List.cons_append, List.destutter_cons', destutter'_run hg,
      List.filterMap_cons_some (List.head?_cons (a := a))]
    cases runs with
    | nil => rfl
    | cons run' runs =>
      obtain ⟨⟨_, hne', hbreak⟩, -⟩ := List.isChain_cons_cons.mp hb
      obtain ⟨b, g', rfl⟩ := List.exists_cons_of_ne_nil hne'
      -- the last node of a run has the value of the first
      have hlast : ((a :: g).getLast (List.cons_ne_nil a g)).2 = a.2 := by
        rcases List.mem_cons.mp (List.getLast_mem (List.cons_ne_nil a g)) with h | h
        · rw [h]
        · exact hg _ h
      have hab : NeValue a b := by
        intro h
        simp [sameValue, hlast, h] at hbreak
      rw [List.flatten_cons, List.cons_append, List.destutter_cons'] at hrest
      rw [List.flatten_cons, List.cons_append, List.destutter'_cons_pos _ hab, hrest]

theorem destutter_eq_heads (xs : List (Nat × Int)) : xs.destutter NeValue = runHeads xs := by
  obtain ⟨hxs, hn, hc, hb⟩ := List.splitBy_eq_iff.mp (rfl : xs.splitBy sameValue = _)
  conv_lhs => rw [hxs]
  exact destutter_flatten hn hc hb

/-- Every value of the list is that of the first node of its run. -/
theorem mem_vals_runHeads : v ∈ vals (runHeads xs) ↔ v ∈ vals xs := by
  constructor
  · intro hv
    rw [← destutter_eq_heads] at hv
    exact ((xs.destutter_sublist NeValue).map Prod.snd).subset hv
  · intro hv
    obtain ⟨x, hx, rfl⟩ := List.mem_map.mp hv
    rw [← List.flatten_splitBy sameValue xs] at hx
    obtain ⟨run, hrun, hx⟩ := List.mem_flatten.mp hx
    obtain ⟨a, g, rfl⟩ := List.exists_cons_of_ne_nil (List.ne_nil_of_mem hx)
    have ha : a ∈ runHeads xs := List.mem_filterMap.mpr ⟨a :: g, hrun, rfl⟩
    rcases List.mem_cons.mp hx with rfl | hx
    · exact List.mem_map_of_mem ha
    · rw [run_values (List.isChain_of_mem_splitBy hrun) x hx]
      exact List.mem_map_of_mem ha

/-- On a sorted list the values left are strictly increasing. -/
theorem runHeads_increasing (hs : (vals xs).Pairwise (· ≤ ·)) : (vals (runHeads xs)).Pairwise (· < ·) := by
  rw [← destutter_eq_heads]
  have hle : (vals (xs.destutter NeValue)).Pairwise (· ≤ ·) :=
    hs.sublist ((xs.destutter_sublist NeValue).map Prod.snd)
  have hne : (vals (xs.destutter NeValue)).IsChain (· ≠ ·) := (List.isChain_map _).mpr (xs.isChain_destutter NeValue)
  rw [← List.isChain_iff_pairwise] at hle ⊢
  -- neighbours are in order and different
  rw [List.isChain_iff_forall_rel_of_append_cons_cons] at hle hne ⊢
  exact fun a b l₁ l₂ h => lt_of_le_of_ne (hle h) (hne h)

/-! ## The second call -/

theorem loop_duplicate_unchanged (hs : Seg h.cell (some i) ((i, v) :: ys) none) (hc : ((i, v) :: ys).IsChain NeValue)
    (fuel : Nat) (hf : ys.length < fuel) : loop duplicateTurn fuel (h, some i) = .ok h := by
  induction ys generalizing i v fuel with
  | nil =>
    obtain ⟨-, n, hi, rfl⟩ := hs
    exact loop_done_of_lt (by simp [duplicateTurn, Heap.load_live hi]) hf
  | cons y ys ih =>
    obtain ⟨d, w⟩ := y
    obtain ⟨-, n, hi, rfl, m, hd, hy⟩ := hs
    obtain ⟨hne, hc⟩ := List.isChain_cons_cons.mp hc
    have hvw : v ≠ w := hne
    have hturn : duplicateTurn (h, some i) = .ok (.inl (h, some d)) := by
      simp [duplicateTurn, Heap.load_live hi, Heap.load_live hd, hvw]
    obtain ⟨f, rfl⟩ := exists_succ hf
    rw [loop_again hturn]
    exact ih ⟨rfl, m, hd, hy⟩ hc f (by simpa using hf)

/-- `delete_duplicate` leaves a list without equal neighbours as it is. -/
theorem deleteDuplicate_unchanged (ho : Holds s xs) (hne : xs ≠ []) (hc : xs.IsChain NeValue) :
    Ends (fun fuel => deleteDuplicate fuel s) (.ok s) := by
  obtain ⟨h, head⟩ := s
  obtain ⟨x, xs, rfl⟩ := List.exists_cons_of_ne_nil hne
  obtain ⟨rfl, _⟩ := ho.chain
  refine ends_of_lt xs.length fun fuel hf => ?_
  rw [deleteDuplicate, loop_duplicate_unchanged ho.chain hc fuel hf]
  rfl

/-- **What `delete_duplicate` leaves**: the first node of each run, so every value of the list, strictly increasing if
the list was sorted; a second call changes nothing. -/
theorem deleteDuplicate_runs (ho : Holds s xs) (hne : xs ≠ []) :
    ∃ s', Ends (fun fuel => deleteDuplicate fuel s) (.ok s') ∧ Holds s' (runHeads xs) ∧
      Ends (fun fuel => deleteDuplicate fuel s') (.ok s') ∧ (∀ v, v ∈ vals (runHeads xs) ↔ v ∈ vals xs) ∧
      ((vals xs).Pairwise (· ≤ ·) → (vals (runHeads xs)).Pairwise (· < ·)) := by
  obtain ⟨s', hr, ho'⟩ := deleteDuplicate_spec ho hne
  have hchain := xs.isChain_destutter NeValue
  have hleft : xs.destutter NeValue ≠ [] := fun h => hne ((List.destutter_eq_nil NeValue).mp h)
  refine ⟨s', ⟨_, hr⟩, destutter_eq_heads xs ▸ ho', deleteDuplicate_unchanged ho' hleft hchain, ?_, ?_⟩
  · exact fun v => mem_vals_runHeads
  · exact runHeads_increasing

/-- On the sorted list 5, 5, 6. -/
theorem deleteDuplicate_sorted : ∃ s',
    Ends (fun fuel => deleteDuplicate fuel ⟨⟨[⟨5, some 1⟩, ⟨5, some 2⟩, ⟨6, none⟩], []⟩, some 0⟩) (.ok s') ∧
      Holds s' [(0, 5), (2, 6)] ∧ Ends (fun fuel => deleteDuplicate fuel s') (.ok s') := by
  have ho : Holds ⟨⟨[⟨5, some 1⟩, ⟨5, some 2⟩, ⟨6, none⟩], []⟩, some 0⟩ [(0, 5), (1, 5), (2, 6)] :=
    ⟨⟨rfl, _, rfl, rfl, _, rfl, rfl, _, rfl, rfl⟩, by decide⟩
  obtain ⟨s', he, ho', hagain, -⟩ := deleteDuplicate_runs ho (List.cons_ne_nil _ _)
  exact ⟨s', he, ho', hagain⟩

end SideWork.LinkedList
