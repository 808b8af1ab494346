import SideWork.Lib.Loop

/-!
# Command machines and refinement

A command machine takes a command in a state and stops, or puts something out and goes on in a new state. `exec` runs a
list of commands: what was put out on the way, and the last state or the reason of the stop.

- `Refines`: every step of a fuelled machine does what the step of another machine does in a related state;
- `Refines.exec`: then every run does.
-/

namespace SideWork

variable {σ τ α ω : Type}

/-- Command after command, until one stops. -/
def exec (step : σ → α → Except Stop (ω × σ)) : σ → List α → List ω × Except Stop σ
  | s, [] => ([], .ok s)
  | s, a :: as =>
    match step s a with
    | .error e => ([], .error e)
    | .ok (o, s') => (o :: (exec step s' as).1, (exec step s' as).2)

section Exec

variable {step : σ → α → Except Stop (ω × σ)} {s s' : σ} {a : α} {as : List α} {o : ω}

theorem exec_error {e : Stop} (h : step s a = .error e) : exec step s (a :: as) = ([], .error e) := by
  rw [exec, h]

theorem exec_ok (h : step s a = .ok (o, s')) :
    exec step s (a :: as) = (o :: (exec step s' as).1, (exec step s' as).2) := by
  rw [exec, h]

end Exec

/-! ## Refinement -/

/-- Two outcomes stop for the same reason or are related results. -/
inductive Alike (R : σ → τ → Prop) : Except Stop σ → Except Stop τ → Prop
  | ok {s : σ} {t : τ} : R s t → Alike R (.ok s) (.ok t)
  | error (e : Stop) : Alike R (.error e) (.error e)

/-- With enough fuel, `f` comes to the outcome `y` up to `R`. -/
def EndsAlike (R : σ → τ → Prop) (f : Nat → Except Stop σ) (y : Except Stop τ) : Prop :=
  ∃ x, Ends f x ∧ Alike R x y

theorem EndsAlike.ok {R : σ → τ → Prop} {f : Nat → Except Stop σ} {s : σ} {t : τ} (h : Ends f (.ok s)) (hR : R s t) :
    EndsAlike R f (.ok t) := ⟨_, h, .ok hR⟩

theorem EndsAlike.error {R : σ → τ → Prop} {f : Nat → Except Stop σ} {e : Stop} (h : Ends f (.error e)) :
    EndsAlike R f (.error e) := ⟨_, h, .error e⟩

/-- The same output, and related states. -/
def Shows (R : σ → τ → Prop) (x : ω × σ) (y : ω × τ) : Prop := x.1 = y.1 ∧ R x.2 y.2

/-- Every step of `step` is one of `spec` in the related state. -/
def Refines (R : σ → τ → Prop) (step : Nat → σ → α → Except Stop (ω × σ)) (spec : τ → α → Except Stop (ω × τ)) : Prop :=
  ∀ s t a, R s t → EndsAlike (Shows R) (fun fuel => step fuel s a) (spec t a)

section Refines

variable {R : σ → τ → Prop} {step : Nat → σ → α → Except Stop (ω × σ)} {spec : τ → α → Except Stop (ω × τ)}

/-- **A refinement of the steps is one of the runs**: the same output, and the same stop or related last states. -/
theorem Refines.exec (h : Refines R step spec) {s : σ} {t : τ} (hR : R s t) (as : List α) :
    ∃ r n, (∀ fuel, n ≤ fuel → exec (step fuel) s as = ((exec spec t as).1, r)) ∧
      Alike R r (exec spec t as).2 := by
  induction as generalizing s t with
  | nil => exact ⟨.ok s, 0, fun _ _ => rfl, .ok hR⟩
  | cons a as ih =>
    obtain ⟨x, ⟨n, hn⟩, hx⟩ := h s t a hR
    generalize hy : spec t a = y at hx
    cases hx with
    | error e =>
      refine ⟨.error e, n, fun fuel hf => ?_, ?_⟩
      · rw [exec_error (hn fuel hf), exec_error hy]
      · rw [exec_error hy]
        exact .error e
    | @ok x y hxy =>
      obtain ⟨o, s'⟩ := x
      obtain ⟨o', t'⟩ := y
      obtain ⟨rfl, hR'⟩ : o = o' ∧ R s' t' := hxy
      obtain ⟨r, m, hm, hr⟩ := ih hR'
      refine ⟨r, max n m, fun fuel hf => ?_, ?_⟩
      · rw [exec_ok (hn fuel (by omega)), exec_ok hy, hm fuel (by omega)]
      · rwa [exec_ok hy]

end Refines

end SideWork
