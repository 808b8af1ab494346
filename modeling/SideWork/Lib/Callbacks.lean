import SideWork.Lib.Loop

/-!
# Callbacks

A receive calls back for one message after the other of those that have come, and a callback may answer that the rest of
them is dropped (`dispatch`). A program that waits receives again and again, until what its callbacks write has ended the
waiting (`waits`).

- `dispatch_inv`: what every call keeps of the messages called back for;
- `waits_flatten`: if the calls that drop the rest are those that end the waiting, it does not matter which messages
  come together.
-/

namespace SideWork

variable {σ α : Type}

/-- One receive. The flag of a call is its answer to drop the rest. -/
def dispatch (call : α → σ → Except Stop (σ × Bool)) : List α → σ → Except Stop σ
  | [], s => .ok s
  | a :: as, s => call a s >>= fun
    | (s', true) => .ok s'
    | (s', false) => dispatch call as s'

/-- The messages that are called back for. -/
def called (call : α → σ → Except Stop (σ × Bool)) : List α → σ → List α
  | [], _ => []
  | a :: as, s =>
    match call a s with
    | .ok (s', false) => a :: called call as s'
    | _ => [a]

/-- A loop of receives over the batches of messages that come. -/
def waits (call : α → σ → Except Stop (σ × Bool)) (waiting : σ → Bool) : List (List α) → σ → Except Stop σ
  | [], s => .ok s
  | as :: batches, s => if waiting s then dispatch call as s >>= waits call waiting batches else .ok s

variable {call : α → σ → Except Stop (σ × Bool)} {s s' : σ} {a : α} {as : List α}

section Dispatch

theorem dispatch_again (h : call a s = .ok (s', false)) : dispatch call (a :: as) s = dispatch call as s' := by
  rw [dispatch, h]
  rfl

theorem dispatch_drop (h : call a s = .ok (s', true)) : dispatch call (a :: as) s = .ok s' := by
  rw [dispatch, h]
  rfl

theorem dispatch_error {e : Stop} (h : call a s = .error e) : dispatch call (a :: as) s = .error e := by
  rw [dispatch, h]
  rfl

theorem called_again (h : call a s = .ok (s', false)) : called call (a :: as) s = a :: called call as s' := by
  rw [called, h]

theorem called_drop (h : call a s = .ok (s', true)) : called call (a :: as) s = [a] := by
  rw [called, h]

/-- What the calls keep, of the messages they were made for. -/
theorem dispatch_inv (inv : List α → σ → Prop) (hcall : ∀ before s a s' drop, inv before s →
    call a s = .ok (s', drop) → inv (before ++ [a]) s') {before : List α} (h : inv before s)
    (hd : dispatch call as s = .ok s') : inv (before ++ called call as s) s' := by
  induction as generalizing before s with
  | nil =>
    cases hd
    rwa [called, List.append_nil]
  | cons a as ih =>
    obtain ⟨⟨t, drop⟩, ht, hr⟩ := bind_eq_ok hd
    have hi := hcall before s a t drop h ht
    cases drop with
    | true =>
      cases hr
      rwa [called_drop ht]
    | false =>
      rw [called_again ht, List.append_cons]
      exact ih hi hr

end Dispatch

section Waits

variable {waiting : σ → Bool} {batches : List (List α)}

theorem waits_done (h : waiting s = false) : waits call waiting batches s = .ok s := by
  cases batches with
  | nil => rfl
  | cons as batches => rw [waits, if_neg (by simp [h])]

/-- Messages in front of others, as long as the waiting goes on. -/
theorem dispatch_append (hcall : ∀ a s s' drop, waiting s → call a s = .ok (s', drop) → waiting s' = !drop)
    (hs : waiting s) (bs : List α) : dispatch call (as ++ bs) s =
      dispatch call as s >>= fun s' => if waiting s' then dispatch call bs s' else .ok s' := by
  induction as generalizing s with
  | nil => rw [List.nil_append, dispatch, ok_bind, if_pos hs]
  | cons a as ih =>
    rw [List.cons_append]
    cases ht : call a s with
    | error e => rw [dispatch_error ht, dispatch_error ht, error_bind]
    | ok r =>
      obtain ⟨t, drop⟩ := r
      have hw := hcall a s t drop hs ht
      cases drop with
      | true => rw [dispatch_drop ht, dispatch_drop ht, ok_bind, if_neg (by simp [hw])]
      | false =>
        rw [dispatch_again ht, dispatch_again ht]
        exact ih (by simp [hw])

/-- The batches do not matter. -/
theorem waits_flatten (hcall : ∀ a s s' drop, waiting s → call a s = .ok (s', drop) → waiting s' = !drop)
    (hs : waiting s) : waits call waiting batches s = dispatch call batches.flatten s := by
  induction batches generalizing s with
  | nil => rfl
  | cons as batches ih =>
    rw [waits, if_pos hs, List.flatten_cons, dispatch_append hcall hs]
    cases dispatch call as s with
    | error e => rfl
    | ok s' =>
      rw [ok_bind, ok_bind]
      by_cases hw : waiting s' = true
      · rw [if_pos hw, ih hw]
      · rw [if_neg hw, waits_done (by simpa using hw)]

end Waits

end SideWork
