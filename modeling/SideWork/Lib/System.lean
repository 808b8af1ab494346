import Mathlib.Logic.Function.Basic
import Mathlib.Logic.Relation

/-!
# Systems

A system has states it can start in and a step relation, of one party or of several whose steps interleave. An invariant
holds where the system starts and is kept by every step (`Invariant`), so it holds in every reachable state
(`Invariant.reachable`); a step may be given another invariant to go by (`Invariant.of_step`). A run from a reachable state
ends in one (`Reachable.run`).
-/

namespace SideWork

/-- A party goes on, and then is where it was. -/
theorem update_back {ι α : Type*} [DecidableEq ι] {parties : ι → α} {h : ι} {a : α} (hh : parties h = a) (b : α) :
    Function.update (Function.update parties h b) h a = parties := by
  rw [Function.update_idem, ← hh, Function.update_eq_self]

/-- States to start in, and steps. -/
structure System (σ : Type) where
  init : σ → Prop
  step : σ → σ → Prop

namespace System

variable {σ : Type} {S : System σ} {s t : σ}

/-- The states of the runs. -/
inductive Reachable (S : System σ) : σ → Prop
  | init {s : σ} : S.init s → Reachable S s
  | step {s t : σ} : Reachable S s → S.step s t → Reachable S t

/-- A run from one state to another. -/
abbrev Run (S : System σ) : σ → σ → Prop := Relation.ReflTransGen S.step

theorem Reachable.run (hs : S.Reachable s) (hr : S.Run s t) : S.Reachable t := by
  induction hr with
  | refl => exact hs
  | tail _ hstep ih => exact ih.step hstep

/-- It holds at the start, and every step keeps it. -/
structure Invariant (S : System σ) (I : σ → Prop) : Prop where
  init : ∀ s, S.init s → I s
  step : ∀ s t, I s → S.step s t → I t

variable {I J : σ → Prop}

theorem Invariant.reachable (h : S.Invariant I) (hs : S.Reachable s) : I s := by
  induction hs with
  | init hi => exact h.init _ hi
  | step _ hstep ih => exact h.step _ _ ih hstep

/-- An invariant whose steps go by another one. -/
theorem Invariant.of_step (h : S.Invariant I) (hinit : ∀ s, S.init s → J s)
    (hstep : ∀ s t, I s → J s → S.step s t → J t) : S.Invariant fun s => I s ∧ J s where
  init s hs := ⟨h.init s hs, hinit s hs⟩
  step s t hi hst := ⟨h.step s t hi.1 hst, hstep s t hi.1 hi.2 hst⟩

end System

end SideWork
