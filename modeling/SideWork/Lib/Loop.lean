import Mathlib.Tactic

/-!
# Stops and loops

C code is run in `Except Stop`: a run gives a result or stops, on an access the C standard leaves undefined or because
the fuel of a loop is used up. A `while` is `loop turn fuel`, where a turn goes round with a new state (`Sum.inl`) or
leaves with a result (`Sum.inr`). A signed computation whose range matters goes through `checkedInt`.

- `loop_again`, `loop_done`, `loop_stop`: one turn;
- `loop_again_of_lt`, `loop_done_of_lt`, `loop_stop_of_lt`: the same under a bound that the fuel exceeds;
- `post_of_loop`: what holds of a result because every turn keeps an invariant;
- `loop_of_measure`: a loop that comes to a result, because every turn lowers a measure;
- `diverges_of_inv`: a loop that no fuel is enough for, because every turn goes round;
- `turns_of_inv`, `loop_of_inv`: a loop whose rounds keep an invariant that counts them, as a `for` does; `turns` is the
  state after some of them.

`Ends f r` says that a fuelled run `f` comes to `r` with enough fuel, whatever more it is given; a run that ends in
anything but `outOfFuel` terminates.
-/

namespace SideWork

/-- Why a run has no result. -/
inductive Stop
  | nullDeref
  | useAfterFree
  | badFree
  | outOfBounds
  | uninitialised
  | overflow
  | outOfFuel
  deriving DecidableEq, Repr

section Bind

variable {α β : Type}

@[simp] theorem ok_bind (a : α) (f : α → Except Stop β) : (Except.ok a >>= f) = f a := rfl

@[simp] theorem error_bind (e : Stop) (f : α → Except Stop β) : (Except.error e >>= f) = .error e := rfl

@[simp] theorem pure_eq_ok (a : α) : (pure a : Except Stop α) = .ok a := rfl

/-- A result of a sequence comes from a result of its first part. -/
theorem bind_eq_ok {x : Except Stop α} {f : α → Except Stop β} {b : β} (h : (x >>= f) = .ok b) :
    ∃ a, x = .ok a ∧ f a = .ok b := by
  cases x with
  | ok a => exact ⟨a, rfl, h⟩
  | error e => cases h

theorem pure_ne_error {a : α} {e : Stop} : (pure a : Except Stop α) ≠ .error e := nofun

/-- A sequence stops for the reasons of its parts. -/
theorem bind_ne_error {x : Except Stop α} {f : α → Except Stop β} {e : Stop} (hx : x ≠ .error e)
    (hf : ∀ a, f a ≠ .error e) : (x >>= f) ≠ .error e := by
  cases x with
  | ok a => exact hf a
  | error e' => exact fun h => hx (congrArg _ (Except.error.inj h))

theorem foldlM_ne_error {f : β → α → Except Stop β} {e : Stop} (hf : ∀ b a, f b a ≠ .error e) (as : List α) (b : β) :
    as.foldlM f b ≠ .error e := by
  induction as generalizing b with
  | nil => nofun
  | cons a as ih =>
    rw [List.foldlM_cons]
    exact bind_ne_error (hf b a) ih

end Bind

/-- A result of type `int`; outside 32 bits the run is undefined. -/
def checkedInt (x : Int) : Except Stop Int := if -2 ^ 31 ≤ x ∧ x < 2 ^ 31 then .ok x else .error .overflow

/-- The value is one of type `int`. -/
def FitsInt (x : Int) : Prop := -2 ^ 31 ≤ x ∧ x < 2 ^ 31

instance : DecidablePred FitsInt := fun x => inferInstanceAs (Decidable (-2 ^ 31 ≤ x ∧ x < 2 ^ 31))

theorem checkedInt_of_fits {x : Int} (h : FitsInt x) : checkedInt x = .ok x := if_pos h

theorem checkedInt_eq_ok {x y : Int} (h : checkedInt x = .ok y) : y = x ∧ FitsInt x := by
  unfold checkedInt at h
  split at h
  · exact ⟨(Except.ok.inj h).symm, by assumption⟩
  · cases h

theorem checkedInt_of_nonneg {x : Int} (h₀ : 0 ≤ x) (h₁ : x < 2 ^ 31) : checkedInt x = .ok x := by
  rw [checkedInt, if_pos ⟨by omega, h₁⟩]

section Loop

variable {σ ρ : Type}

/-- A `while` loop: turn after turn until a turn leaves or stops. -/
def loop (turn : σ → Except Stop (σ ⊕ ρ)) : Nat → σ → Except Stop ρ
  | 0, _ => .error .outOfFuel
  | n + 1, s => turn s >>= fun
    | .inl s' => loop turn n s'
    | .inr r => .ok r

variable {turn : σ → Except Stop (σ ⊕ ρ)} {s s' : σ} {r : ρ} {n : Nat}

theorem loop_again (h : turn s = .ok (.inl s')) : loop turn (n + 1) s = loop turn n s' := by
  simp [loop, h]

/-- A turn on the first of the elements that fuel is counted for. -/
theorem loop_again_cons {α : Type*} {x : α} {xs : List α} (h : turn s = .ok (.inl s')) :
    loop turn ((x :: xs).length + n) s = loop turn (xs.length + n) s' := by
  rw [List.length_cons, Nat.add_right_comm, loop_again h]

/-- Fuel for a turn. -/
theorem exists_succ {fuel : Nat} (hf : n < fuel) : ∃ k, fuel = k + 1 := ⟨fuel - 1, by omega⟩

/-- Fuel for `n` turns and the one that leaves. -/
theorem exists_fuel {fuel : Nat} (hf : n < fuel) : ∃ k, fuel = n + (k + 1) := ⟨fuel - n - 1, by omega⟩

/-- A turn costs one unit of fuel. -/
theorem loop_again_of_lt {x : Except Stop ρ} (h : turn s = .ok (.inl s'))
    (hl : ∀ fuel, n < fuel → loop turn fuel s' = x) : ∀ fuel, n + 1 < fuel → loop turn fuel s = x := by
  intro fuel hf
  obtain ⟨f, rfl⟩ := exists_succ hf
  rw [loop_again h]
  exact hl f (by omega)

theorem loop_done (h : turn s = .ok (.inr r)) : loop turn (n + 1) s = .ok r := by
  simp [loop, h]

theorem loop_stop {e : Stop} (h : turn s = .error e) : loop turn (n + 1) s = .error e := by
  simp [loop, h]

theorem loop_done_of_lt {fuel : Nat} (h : turn s = .ok (.inr r)) (hf : n < fuel) : loop turn fuel s = .ok r := by
  obtain ⟨f, rfl⟩ := exists_succ hf
  exact loop_done h

theorem loop_stop_of_lt {e : Stop} {fuel : Nat} (h : turn s = .error e) (hf : n < fuel) :
    loop turn fuel s = .error e := by
  obtain ⟨f, rfl⟩ := exists_succ hf
  exact loop_stop h

/-- What a result of a loop inherits from an invariant of its turns. -/
theorem post_of_loop (inv : σ → Prop) (post : ρ → Prop) (hagain : ∀ s s', inv s → turn s = .ok (.inl s') → inv s')
    (hleave : ∀ s r, inv s → turn s = .ok (.inr r) → post r) (h₀ : inv s) (hl : loop turn n s = .ok r) : post r := by
  induction n generalizing s with
  | zero => cases hl
  | succ n ih =>
    obtain ⟨x, hx, hr⟩ := bind_eq_ok hl
    cases x with
    | inl s' => exact ih (hagain s s' h₀ hx) hr
    | inr r' =>
      cases hr
      exact hleave s r h₀ hx

/-- A loop comes to a result under an invariant whose measure every turn that goes round lowers. -/
theorem loop_of_measure (inv : σ → Prop) (μ : σ → Nat) (post : ρ → Prop)
    (hstep : ∀ s, inv s → (∃ s', turn s = .ok (.inl s') ∧ inv s' ∧ μ s' < μ s) ∨ ∃ r, turn s = .ok (.inr r) ∧ post r)
    (h₀ : inv s) : ∃ r, post r ∧ ∀ fuel, μ s < fuel → loop turn fuel s = .ok r := by
  induction hm : μ s using Nat.strong_induction_on generalizing s with
  | _ m ih =>
    obtain ⟨s', hs', hi, hlt⟩ | ⟨r, hr, hp⟩ := hstep s h₀
    · obtain ⟨r, hp, hrun⟩ := ih (μ s') (hm ▸ hlt) hi rfl
      refine ⟨r, hp, fun fuel hf => ?_⟩
      obtain ⟨k, rfl⟩ := exists_succ hf
      rw [loop_again hs']
      exact hrun k (by omega)
    · exact ⟨r, hp, fun fuel hf => loop_done_of_lt hr hf⟩

/-- Unless its fuel is used up, a loop stops for the reasons of its turns. -/
theorem loop_ne_error {e : Stop} (he : e ≠ .outOfFuel) (ht : ∀ s, turn s ≠ .error e) (n : Nat) (s : σ) :
    loop turn n s ≠ .error e := by
  induction n generalizing s with
  | zero => exact fun h => he (Except.error.inj h).symm
  | succ n ih =>
    refine bind_ne_error (ht s) fun x => ?_
    cases x with
    | inl s' => exact ih s'
    | inr r => nofun

/-- A loop whose turns differ from another's only in the result they leave with. -/
theorem loop_map {ρ' : Type} (f : ρ → ρ') {turn' : σ → Except Stop (σ ⊕ ρ')}
    (ht : ∀ s, turn' s = (turn s).map (Sum.map id f)) (fuel : Nat) (s : σ) :
    loop turn' fuel s = (loop turn fuel s).map f := by
  induction fuel generalizing s with
  | zero => rfl
  | succ n ih =>
    rw [loop, loop, ht]
    cases turn s with
    | error e => rfl
    | ok x =>
      cases x with
      | inl s' => exact ih s'
      | inr r => rfl

/-! ## Loops that go round for ever -/

/-- The loop uses up whatever fuel it is given. -/
def Diverges (turn : σ → Except Stop (σ ⊕ ρ)) (s : σ) : Prop := ∀ n, loop turn n s = .error .outOfFuel

theorem Diverges.again (h : turn s = .ok (.inl s')) (hd : Diverges turn s') : Diverges turn s := by
  intro n
  cases n with
  | zero => rfl
  | succ n => rw [loop_again h, hd n]

/-- A loop goes round for ever under an invariant that makes every turn go round. -/
theorem diverges_of_inv (inv : σ → Prop) (hstep : ∀ s, inv s → ∃ s', turn s = .ok (.inl s') ∧ inv s') (h₀ : inv s) :
    Diverges turn s := by
  intro n
  induction n generalizing s with
  | zero => rfl
  | succ n ih =>
    obtain ⟨s', hs', hi⟩ := hstep s h₀
    rw [loop_again hs', ih hi]

/-! ## Rounds -/

/-- `n` turns, or fewer if one leaves. -/
def turns (turn : σ → Except Stop (σ ⊕ ρ)) : Nat → σ → Except Stop (σ ⊕ ρ)
  | 0, s => .ok (.inl s)
  | n + 1, s => turn s >>= fun
    | .inl s' => turns turn n s'
    | .inr r => .ok (.inr r)

theorem turns_succ (h : turns turn n s = .ok (.inl s')) : turns turn (n + 1) s = turn s' := by
  induction n generalizing s with
  | zero =>
    cases h
    cases hs : turn s' with
    | error e => simp [turns, hs]
    | ok x => cases x <;> simp [turns, hs]
  | succ n ih =>
    obtain ⟨x, hx, hr⟩ := bind_eq_ok h
    cases x with
    | inl s'' =>
      rw [turns, hx, ok_bind]
      exact ih hr
    | inr r => cases hr

/-- A loop goes on from the state its turns lead to. -/
theorem loop_turns (h : turns turn n s = .ok (.inl s')) (k : Nat) : loop turn (n + k) s = loop turn k s' := by
  induction n generalizing s with
  | zero =>
    cases h
    rw [Nat.zero_add]
  | succ n ih =>
    obtain ⟨x, hx, hr⟩ := bind_eq_ok h
    cases x with
    | inl s'' => rw [Nat.add_right_comm, loop_again hx, ih hr]
    | inr r => cases hr

section Rounds

variable {turn : Nat → σ → Except Stop (σ ⊕ ρ)} {inv : Nat → σ → Prop} {m : Nat}

/-- Rounds that keep an invariant. A round may run loops of its own, on `m` units of fuel or more. -/
theorem turns_of_inv (hstep : ∀ k < n, ∀ s, inv k s → ∃ s', (∀ fuel, m < fuel → turn fuel s = .ok (.inl s')) ∧
    inv (k + 1) s') (h₀ : inv 0 s) {k : Nat} (hk : k ≤ n) :
    ∃ s', (∀ fuel, m < fuel → turns (turn fuel) k s = .ok (.inl s')) ∧ inv k s' := by
  induction k with
  | zero => exact ⟨s, fun _ _ => rfl, h₀⟩
  | succ k ih =>
    obtain ⟨s', hs', hi⟩ := ih (by omega)
    obtain ⟨s'', hs'', hi'⟩ := hstep k hk s' hi
    refine ⟨s'', fun fuel hf => ?_, hi'⟩
    rw [turns_succ (hs' fuel hf), hs'' fuel hf]

/-- A loop of `n` rounds that keep an invariant and of a turn that leaves. -/
theorem loop_of_inv (hstep : ∀ k < n, ∀ s, inv k s → ∃ s', (∀ fuel, m < fuel → turn fuel s = .ok (.inl s')) ∧
    inv (k + 1) s') {out : σ → ρ} (hout : ∀ s, inv n s → ∀ fuel, turn fuel s = .ok (.inr (out s))) (h₀ : inv 0 s) :
    ∃ s', inv n s' ∧ ∀ fuel, m + n < fuel → loop (turn fuel) fuel s = .ok (out s') := by
  obtain ⟨s', hs', hi⟩ := turns_of_inv hstep h₀ le_rfl
  refine ⟨s', hi, fun fuel hf => ?_⟩
  have hn : n < fuel := by omega
  obtain ⟨k, hk⟩ := exists_fuel hn
  have hturns := hs' fuel (by omega)
  have hleave := hout s' hi fuel
  generalize turn fuel = t at hturns hleave
  rw [hk, loop_turns hturns, loop_done hleave]

end Rounds

end Loop

/-! ## The outcome of a run -/

section Ends

variable {α : Type} {f : Nat → Except Stop α} {r r' : Except Stop α}

/-- With enough fuel, the run is `r`. -/
def Ends (f : Nat → Except Stop α) (r : Except Stop α) : Prop := ∃ n, ∀ fuel, n ≤ fuel → f fuel = r

theorem ends_of_lt (n : Nat) (h : ∀ fuel, n < fuel → f fuel = r) : Ends f r := ⟨n + 1, h⟩

/-- A run of it with more than some fuel. -/
theorem Ends.exists_run (h : Ends f r) (n : Nat) : ∃ fuel, n < fuel ∧ f fuel = r := by
  obtain ⟨m, hm⟩ := h
  exact ⟨max m (n + 1), by omega, hm _ (Nat.le_max_left _ _)⟩

/-- A run after another. -/
theorem Ends.bind {β : Type} {g : α → Nat → Except Stop β} {a : α} {r : Except Stop β} (hf : Ends f (.ok a))
    (hg : Ends (g a) r) : Ends (fun fuel => f fuel >>= fun x => g x fuel) r := by
  obtain ⟨n, hn⟩ := hf
  obtain ⟨m, hm⟩ := hg
  refine ⟨max n m, fun fuel hle => ?_⟩
  simp only [hn fuel (by omega), ok_bind, hm fuel (by omega)]

theorem Ends.unique (h : Ends f r) (h' : Ends f r') : r = r' := by
  obtain ⟨n, hn⟩ := h
  obtain ⟨n', hn'⟩ := h'
  rw [← hn (max n n') (Nat.le_max_left _ _), hn' (max n n') (Nat.le_max_right _ _)]

end Ends

end SideWork
