import SideWork.Lib.BoundedMap

/-!
# A cursor over keys that come in meanwhile

A reader goes through the keys of a map with a cursor: it asks for the first key and then for the key behind the one it
has (`NextKey`). Meanwhile keys come in at any place of the order, and none goes. The reader began when the keys were
`known`, on a key `start` that may or may not be one of them; it is at `k` and has been at the keys `seen` before
(`CursorAt`).

- `behind known start`: the keys that the reader will come to, all of them if `start` is not a key;
- `CursorAt.grow`, `CursorAt.move`: keys that come in, and a move of the cursor;
- `cursorAt_first`, `CursorAt.last`: the first key, and what a reader has seen that is at the last one.
-/

namespace SideWork

variable {κ : Type} [DecidableEq κ] {start k k' : κ} {known order order' seen : List κ} {next : κ → Option κ}

/-- The keys that the key `k` leads to. -/
def behind (order : List κ) (k : κ) : List κ := if k ∈ order then (order.dropWhile (· ≠ k)).tail else order

theorem behind_of_notMem (h : k ∉ order) : behind order k = order := if_neg h

theorem behind_split {as bs : List κ} (hn : (as ++ k :: bs).Nodup) : behind (as ++ k :: bs) k = bs := by
  have has : ∀ x ∈ as, decide (x ≠ k) = true := by
    intro x hx
    have hne : x ≠ k := by
      rintro rfl
      exact (List.nodup_append.mp hn).2.2 x hx x (by simp) rfl
    simpa using hne
  have hdrop : (as ++ k :: bs).dropWhile (· ≠ k) = k :: bs := by
    rw [List.dropWhile_append_of_pos has]
    simp
  rw [behind, if_pos (by simp), hdrop, List.tail_cons]

theorem NextKey.eq_head_behind (hk : NextKey order next) (hn : order.Nodup) (k : κ) :
    next k = (behind order k).head? := by
  by_cases hmem : k ∈ order
  · obtain ⟨as, bs, rfl⟩ := List.append_of_mem hmem
    rw [behind_split hn]
    exact hk.present as k bs rfl
  · rw [behind_of_notMem hmem]
    exact hk.absent k hmem

/-- The cursor is at `k`, and was at the keys `seen` before. -/
def CursorAt (start : κ) (known order seen : List κ) (k : κ) : Prop :=
  ∃ as bs, order = as ++ k :: bs ∧ seen.Sublist as ∧ (behind known start).Sublist (seen ++ k :: bs) ∧
    ∀ x ∈ known, x ∉ behind known start → x ∈ as ∧ x ∉ seen

/-- What a reader that is done has seen: no key twice, the keys it had to come to in their order, and none of the keys
that were in front of them. -/
structure Visited (start : κ) (known seen : List κ) : Prop where
  nodup : seen.Nodup
  due : (behind known start).Sublist seen
  skipped : ∀ x ∈ known, x ∉ behind known start → x ∉ seen

theorem cursorAt_first (hk : NextKey order next) (hn : order.Nodup) (h : next start = some k) :
    CursorAt start order order [] k := by
  rw [hk.eq_head_behind hn] at h
  obtain ⟨bs, hbs⟩ := List.head?_eq_some_iff.mp h
  by_cases hmem : start ∈ order
  · obtain ⟨as, cs, rfl⟩ := List.append_of_mem hmem
    rw [behind_split hn] at hbs
    subst hbs
    refine ⟨as ++ [start], bs, by simp, List.nil_sublist _, ?_, fun x hx hb => ⟨?_, List.not_mem_nil⟩⟩
    · rw [behind_split hn]
      exact List.Sublist.refl _
    · rw [behind_split hn] at hb
      have hx' : x ∈ (as ++ [start]) ++ k :: bs := by simpa using hx
      exact (List.mem_append.mp hx').resolve_right hb
  · have hall := behind_of_notMem hmem
    rw [hall] at hbs
    refine ⟨[], bs, hbs, List.nil_sublist _, ?_, fun x hx hb => absurd (hall.symm ▸ hx) hb⟩
    rw [hall, hbs]
    exact List.Sublist.refl _

omit [DecidableEq κ] in
/-- A key of the order splits a longer order where it splits the order itself. -/
theorem sublist_split {as bs : List κ} (hs : (as ++ k :: bs).Sublist order') :
    ∃ as' bs', order' = as' ++ k :: bs' ∧ as.Sublist as' ∧ bs.Sublist bs' := by
  obtain ⟨xs, ys, rfl, hxs, hys⟩ := List.append_sublist_iff.mp hs
  obtain ⟨zs, bs', rfl, hz, hbs⟩ := List.cons_sublist_iff.mp hys
  obtain ⟨z₁, z₂, rfl⟩ := List.append_of_mem hz
  refine ⟨xs ++ z₁, z₂ ++ bs', by simp, hxs.trans (List.sublist_append_left _ _), ?_⟩
  exact hbs.trans (List.sublist_append_right _ _)

/-- Keys come in. -/
theorem CursorAt.grow (h : CursorAt start known order seen k) (hs : order.Sublist order') :
    CursorAt start known order' seen k := by
  obtain ⟨as, bs, rfl, hseen, hdue, hskip⟩ := h
  obtain ⟨as', bs', rfl, has, hbs⟩ := sublist_split hs
  refine ⟨as', bs', rfl, hseen.trans has, hdue.trans ?_, fun x hx hb => ?_⟩
  · exact (List.Sublist.refl seen).append (hbs.cons_cons k)
  · obtain ⟨hxa, hxs⟩ := hskip x hx hb
    exact ⟨has.subset hxa, hxs⟩

/-- A key in front of the cursor is not the one it is at. -/
theorem CursorAt.skipped (h : CursorAt start known order seen k) (hn : order.Nodup) {x : κ} (hx : x ∈ known)
    (hb : x ∉ behind known start) : x ∉ seen ++ [k] := by
  obtain ⟨as, bs, rfl, _, _, hskip⟩ := h
  obtain ⟨hxa, hxs⟩ := hskip x hx hb
  have hne : x ≠ k := by
    rintro rfl
    exact (List.nodup_append.mp hn).2.2 x hxa x (by simp) rfl
  simp [hxs, hne]

/-- The cursor moves on. -/
theorem CursorAt.move (h : CursorAt start known order seen k) (hk : NextKey order next) (hn : order.Nodup)
    (hnext : next k = some k') : CursorAt start known order (seen ++ [k]) k' := by
  have hskip := fun x => h.skipped (x := x) hn
  obtain ⟨as, bs, rfl, hseen, hdue, has⟩ := h
  rw [hk.present as k bs rfl] at hnext
  obtain ⟨cs, rfl⟩ := List.head?_eq_some_iff.mp hnext
  refine ⟨as ++ [k], cs, by simp, hseen.append (List.Sublist.refl _), by simpa using hdue, fun x hx hb => ?_⟩
  exact ⟨List.mem_append_left _ (has x hx hb).1, hskip x hx hb⟩

/-- The keys seen are keys in their order. -/
theorem CursorAt.sublist (h : CursorAt start known order seen k) : (seen ++ [k]).Sublist order := by
  obtain ⟨as, bs, rfl, hseen, _⟩ := h
  exact hseen.append (List.singleton_sublist.mpr List.mem_cons_self)

theorem CursorAt.mem (h : CursorAt start known order seen k) : k ∈ order := h.sublist.subset (by simp)

/-- The cursor is at the last key. -/
theorem CursorAt.last (h : CursorAt start known order seen k) (hk : NextKey order next) (hn : order.Nodup)
    (hnext : next k = none) : Visited start known (seen ++ [k]) where
  nodup := hn.sublist h.sublist
  due := by
    obtain ⟨as, bs, rfl, _, hdue, _⟩ := h
    rw [hk.present as k bs rfl] at hnext
    obtain rfl := List.head?_eq_none_iff.mp hnext
    exact hdue
  skipped := fun _ hx hb => h.skipped hn hx hb

/-- There is no key behind the start. -/
theorem visited_nil (hk : NextKey order next) (hn : order.Nodup) (hnext : next start = none) :
    Visited start order [] where
  nodup := List.nodup_nil
  due := by
    rw [hk.eq_head_behind hn] at hnext
    rw [List.head?_eq_none_iff.mp hnext]
  skipped := fun _ _ _ => List.not_mem_nil

end SideWork
