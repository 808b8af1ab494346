import Mathlib.Data.List.Induction
import Mathlib.Tactic

/-!
# Parties at work on what has arrived

Things arrive one behind the other, each at a place of its own, and parties take them up: a party has one thing at most in
hand (`hand`), and no two have the same (`AtWork`). What the parties do with a thing once, at the end of some stage of
their work, is kept as a list of places: every thing that is due is in the list once, or in the hand of a party that is
still at the stage (`Tracked`). When no party has anything in hand, the list is as long as there are due things
(`Tracked.length`).
-/

namespace SideWork

variable {ι η α : Type} {hand : η → Option (Nat × α)} {arrived : List α} {parties : ι → η}

/-- Each party that has something in hand has it for itself. -/
structure AtWork (hand : η → Option (Nat × α)) (arrived : List α) (parties : ι → η) : Prop where
  arrived : ∀ h i a, hand (parties h) = some (i, a) → arrived[i]? = some a
  alone : ∀ h h' i a a', hand (parties h) = some (i, a) → hand (parties h') = some (i, a') → h = h'

/-- Every due thing is in the list once, or in the hand of a party at the stage in front of it. -/
structure Tracked (hand : η → Option (Nat × α)) (due : α → Prop) (stage : η → Prop) (arrived : List α) (parties : ι → η)
    (is : List Nat) : Prop where
  nodup : is.Nodup
  sound : ∀ i ∈ is, ∃ a, arrived[i]? = some a ∧ due a
  ahead : ∀ h i a, hand (parties h) = some (i, a) → stage (parties h) → i ∉ is
  every : ∀ i a, arrived[i]? = some a → due a → i ∈ is ∨ ∃ h, hand (parties h) = some (i, a) ∧ stage (parties h)

theorem getElem?_snoc {as : List α} {i : Nat} {a : α} (hi : as[i]? = some a) (b : α) : (as ++ [b])[i]? = some a := by
  rw [List.getElem?_append_left (List.getElem?_eq_some_iff.mp hi).1, hi]

/-- What stands at a place of a longer list: the new thing at the end, or an old one. -/
theorem getElem?_snoc_cases {as : List α} {i : Nat} {a b : α} (hi : (as ++ [b])[i]? = some a) :
    as[i]? = some a ∨ (i = as.length ∧ a = b) := by
  by_cases hlt : i < as.length
  · rw [List.getElem?_append_left hlt] at hi
    exact .inl hi
  · have hin := (List.getElem?_eq_some_iff.mp hi).1
    rw [List.length_append, List.length_singleton] at hin
    obtain rfl : i = as.length := by omega
    rw [List.getElem?_append_right le_rfl, Nat.sub_self] at hi
    exact .inr ⟨rfl, (Option.some_inj.mp hi).symm⟩

section AtWork

variable {h : ι} {party : η} {a : α} (hw : AtWork hand arrived parties)
include hw

theorem AtWork.lt {i : Nat} (hi : hand (parties h) = some (i, a)) : i < arrived.length :=
  (List.getElem?_eq_some_iff.mp (hw.arrived h i a hi)).1

variable [DecidableEq ι]

/-- A party keeps what it has in hand, or puts it away. -/
theorem AtWork.move (hhand : hand party = none ∨ hand party = hand (parties h)) :
    AtWork hand arrived (Function.update parties h party) := by
  have hold : ∀ h' i a, hand (Function.update parties h party h') = some (i, a) →
      hand (parties h') = some (i, a) := by
    intro h' i a hi
    by_cases hh : h' = h
    · subst hh
      rw [Function.update_self] at hi
      rcases hhand with hnone | hsame
      · rw [hnone] at hi
        cases hi
      · exact hsame.symm.trans hi
    · rwa [Function.update_of_ne hh] at hi
  exact ⟨fun h' i a hi => hw.arrived h' i a (hold h' i a hi), fun b c i a a' hb hc =>
    hw.alone b c i a a' (hold b i a hb) (hold c i a' hc)⟩

/-- A thing arrives, and a party has it in hand. -/
theorem AtWork.arrive (hnew : hand party = some (arrived.length, a)) :
    AtWork hand (arrived ++ [a]) (Function.update parties h party) := by
  have hcases : ∀ h' i a', hand (Function.update parties h party h') = some (i, a') →
      (h' = h ∧ i = arrived.length ∧ a' = a) ∨ hand (parties h') = some (i, a') := by
    intro h' i a' hi
    by_cases hh : h' = h
    · rw [hh, Function.update_self, hnew] at hi
      obtain ⟨rfl, rfl⟩ := Prod.mk.inj (Option.some_inj.mp hi)
      exact .inl ⟨hh, rfl, rfl⟩
    · rw [Function.update_of_ne hh] at hi
      exact .inr hi
  refine ⟨fun h' i a' hi => ?_, fun b c i a' a'' hb hc => ?_⟩
  · rcases hcases h' i a' hi with ⟨-, rfl, rfl⟩ | hi
    · simp
    · exact getElem?_snoc (hw.arrived h' i a' hi) a
  · rcases hcases b i a' hb with ⟨hb', hi, -⟩ | hb' <;> rcases hcases c i a'' hc with ⟨hc', hi', -⟩ | hc'
    · rw [hb', hc']
    · exact absurd hi (hw.lt hc').ne
    · exact absurd hi' (hw.lt hb').ne
    · exact hw.alone b c i _ _ hb' hc'

end AtWork

section Tracked

variable [DecidableEq ι] {due : α → Prop} {stage : η → Prop} {is : List Nat} {h : ι} {party : η} {a : α}
  (ht : Tracked hand due stage arrived parties is)
include ht

/-- A party stays at the stage with what it has in hand, or leaves it with nothing, or with nothing that is due. -/
theorem Tracked.move (hstage : stage party → hand party = none ∨ (hand party = hand (parties h) ∧ stage (parties h)))
    (hkeep : ∀ i a, hand (parties h) = some (i, a) → stage (parties h) → due a →
      hand party = some (i, a) ∧ stage party) :
    Tracked hand due stage arrived (Function.update parties h party) is := by
  refine ⟨ht.nodup, ht.sound, fun h' i a hi hst => ?_, fun i a hi ha => ?_⟩
  · by_cases hh : h' = h
    · rw [hh, Function.update_self] at hi hst
      rcases hstage hst with hnone | ⟨hsame, hst'⟩
      · rw [hnone] at hi
        cases hi
      · exact ht.ahead h i a (hsame.symm.trans hi) hst'
    · rw [Function.update_of_ne hh] at hi hst
      exact ht.ahead h' i a hi hst
  · refine (ht.every i a hi ha).imp_right ?_
    rintro ⟨h', hi', hst⟩
    refine ⟨h', ?_⟩
    by_cases hh : h' = h
    · rw [hh, Function.update_self]
      rw [hh] at hi' hst
      exact hkeep i a hi' hst ha
    · rw [Function.update_of_ne hh]
      exact ⟨hi', hst⟩

/-- A place is put into the list, and its party leaves the stage. -/
theorem Tracked.add (hw : AtWork hand arrived parties) {i : Nat} (hhand : hand (parties h) = some (i, a))
    (hst : stage (parties h)) (ha : due a) (hleave : stage party → hand party = none) :
    Tracked hand due stage arrived (Function.update parties h party) (is ++ [i]) := by
  refine ⟨?_, ?_, fun h' j a' hj hst' => ?_, fun j a' hj hdue => ?_⟩
  · have hnew : i ∉ is := ht.ahead h i a hhand hst
    exact List.nodup_append.mpr ⟨ht.nodup, List.nodup_singleton i, fun b hb c hc => by
      rw [List.mem_singleton.mp hc]
      rintro rfl
      exact hnew hb⟩
  · intro j hj
    rcases List.mem_append.mp hj with hj | hj
    · exact ht.sound j hj
    · rw [List.mem_singleton.mp hj]
      exact ⟨a, hw.arrived h i a hhand, ha⟩
  · by_cases hh : h' = h
    · rw [hh, Function.update_self] at hj hst'
      rw [hleave hst'] at hj
      cases hj
    · rw [Function.update_of_ne hh] at hj hst'
      rw [List.mem_append, List.mem_singleton, not_or]
      refine ⟨ht.ahead h' j a' hj hst', ?_⟩
      rintro rfl
      exact hh (hw.alone h' h j a' a hj hhand)
  · rcases ht.every j a' hj hdue with hmem | ⟨h', hj', hst'⟩
    · exact .inl (List.mem_append_left _ hmem)
    · by_cases hh : h' = h
      · rw [hh, hhand] at hj'
        obtain ⟨rfl, -⟩ := Prod.mk.inj (Option.some_inj.mp hj')
        exact .inl (by simp)
      · exact .inr ⟨h', by rwa [Function.update_of_ne hh], by rwa [Function.update_of_ne hh]⟩

/-- A thing arrives, and a party that had nothing in hand takes it up. -/
theorem Tracked.arrive (hnone : hand (parties h) = none) (hnew : hand party = some (arrived.length, a))
    (hst : stage party) : Tracked hand due stage (arrived ++ [a]) (Function.update parties h party) is := by
  have hlt : ∀ i ∈ is, i < arrived.length := by
    intro i hi
    obtain ⟨a', ha', -⟩ := ht.sound i hi
    exact (List.getElem?_eq_some_iff.mp ha').1
  refine ⟨ht.nodup, fun i hi => ?_, fun h' i a' hi hst' => ?_, fun i a' hi ha => ?_⟩
  · obtain ⟨a', ha', hdue⟩ := ht.sound i hi
    exact ⟨a', getElem?_snoc ha' a, hdue⟩
  · by_cases hh : h' = h
    · rw [hh, Function.update_self, hnew] at hi
      obtain ⟨rfl, rfl⟩ := Prod.mk.inj (Option.some_inj.mp hi)
      exact fun hmem => lt_irrefl _ (hlt _ hmem)
    · rw [Function.update_of_ne hh] at hi hst'
      exact ht.ahead h' i a' hi hst'
  · rcases getElem?_snoc_cases hi with hi | ⟨rfl, rfl⟩
    · refine (ht.every i a' hi ha).imp_right ?_
      rintro ⟨h', hhand, hst'⟩
      have hh : h' ≠ h := by
        rintro rfl
        rw [hnone] at hhand
        cases hhand
      exact ⟨h', by rwa [Function.update_of_ne hh], by rwa [Function.update_of_ne hh]⟩
    · exact .inr ⟨h, by rwa [Function.update_self], by rwa [Function.update_self]⟩

end Tracked

/-- Nothing has arrived. -/
theorem atWork_nil (hnone : ∀ h, hand (parties h) = none) : AtWork hand [] parties where
  arrived h i a hi := by
    rw [hnone] at hi
    cases hi
  alone h h' i a a' hi := by
    rw [hnone] at hi
    cases hi

theorem tracked_nil {due : α → Prop} {stage : η → Prop} (hnone : ∀ h, hand (parties h) = none) :
    Tracked hand due stage [] parties [] where
  nodup := List.nodup_nil
  sound := nofun
  ahead h i a hi := by
    rw [hnone] at hi
    cases hi
  every := nofun

/-- The places of the things with a property. -/
theorem length_filter_range (P : α → Prop) [DecidablePred P] (as : List α) :
    ((List.range as.length).filter fun i => as[i]?.any (P ·)).length = (as.filter (P ·)).length := by
  induction as using List.reverseRecOn with
  | nil => rfl
  | append_singleton as a ih =>
    have hold : (List.range as.length).filter (fun i => (as ++ [a])[i]?.any (P ·)) =
        (List.range as.length).filter fun i => as[i]?.any (P ·) := by
      refine List.filter_congr fun i hi => ?_
      rw [List.getElem?_append_left (List.mem_range.mp hi)]
    rw [List.length_append, List.length_singleton, List.range_succ, List.filter_append, hold, List.length_append, ih,
      List.filter_append, List.length_append]
    by_cases ha : P a <;> simp [ha]

/-- With nothing in any hand, the list is as long as there are due things. -/
theorem Tracked.length {due : α → Prop} [DecidablePred due] {stage : η → Prop} {is : List Nat}
    (ht : Tracked hand due stage arrived parties is) (hnone : ∀ h, hand (parties h) = none) :
    is.length = (arrived.filter (due ·)).length := by
  rw [← length_filter_range]
  refine List.Perm.length_eq ((List.perm_ext_iff_of_nodup ht.nodup (List.nodup_range.filter _)).mpr fun i => ?_)
  rw [List.mem_filter, List.mem_range, Option.any_eq_true]
  constructor
  · intro hi
    obtain ⟨a, ha, hdue⟩ := ht.sound i hi
    exact ⟨(List.getElem?_eq_some_iff.mp ha).1, a, ha, by simpa using hdue⟩
  · rintro ⟨-, a, ha, hdue⟩
    refine (ht.every i a ha (by simpa using hdue)).resolve_right ?_
    rintro ⟨h, hhand, -⟩
    rw [hnone] at hhand
    cases hhand

end SideWork
