import Mathlib.Tactic

/-!
# Elements of an id, a length and data

A block of elements, each of which is an id byte, a length byte and that many data bytes, one element behind the other.

- `split_block`: what any byte string is to a reader that walks from element to element until it finds one it looks for.
-/

namespace SideWork

/-- An element whose length fits its length byte. -/
structure Element where
  id : UInt8
  data : List UInt8
  fits : data.length < 256
  deriving DecidableEq

/-- The bytes of an element. -/
def Element.bytes (x : Element) : List UInt8 := x.id :: .ofNat x.data.length :: x.data

/-- The bytes of a block of elements. -/
def block (xs : List Element) : List UInt8 := xs.flatMap Element.bytes

@[simp] theorem Element.length_toNat (x : Element) : (UInt8.ofNat x.data.length).toNat = x.data.length := by
  rw [UInt8.toNat_ofNat', Nat.mod_eq_of_lt x.fits]

@[simp] theorem Element.bytes_length (x : Element) : x.bytes.length = x.data.length + 2 := rfl

@[simp] theorem block_nil : block [] = [] := rfl

@[simp] theorem block_cons (x : Element) (xs : List Element) : block (x :: xs) = x.bytes ++ block xs := rfl

theorem block_append (xs ys : List Element) : block (xs ++ ys) = block xs ++ block ys := List.flatMap_append

/-- The headers alone take two bytes each. -/
theorem length_le_block (xs : List Element) : 2 * xs.length ≤ (block xs).length := by
  induction xs with
  | nil => exact Nat.zero_le _
  | cons x xs ih =>
    rw [block_cons, List.length_append, x.bytes_length, List.length_cons]
    omega

/-- The last piece of a byte string to a reader that looks for an element with `p`. -/
inductive Rest (p : Element → Prop) : List UInt8 → Prop
  | nil : Rest p []
  | id (b : UInt8) : Rest p [b]
  | found (x : Element) (bs : List UInt8) (h : p x) : Rest p (x.bytes ++ bs)
  | cut (id len : UInt8) (data : List UInt8) (h : data.length < len.toNat) : Rest p (id :: len :: data)

/-- Every byte string is a block without the element that is looked for, and a last piece. -/
theorem split_block (p : Element → Prop) [DecidablePred p] (bs : List UInt8) :
    ∃ xs bs', bs = block xs ++ bs' ∧ (∀ x ∈ xs, ¬ p x) ∧ Rest p bs' := by
  match bs with
  | [] => exact ⟨[], [], rfl, by simp, .nil⟩
  | [b] => exact ⟨[], [b], rfl, by simp, .id b⟩
  | i :: len :: data =>
    by_cases hcut : data.length < len.toNat
    · exact ⟨[], _, rfl, by simp, .cut i len data hcut⟩
    · have hlen : (data.take len.toNat).length = len.toNat := List.length_take_of_le (by omega)
      let x : Element := ⟨i, data.take len.toNat, by rw [hlen]; exact len.toNat_lt⟩
      have hx : i :: len :: data = x.bytes ++ data.drop len.toNat := by
        simp [x, Element.bytes, Nat.min_eq_left (Nat.le_of_not_lt hcut)]
      by_cases hp : p x
      · exact ⟨[], _, rfl, by simp, hx ▸ .found x _ hp⟩
      · obtain ⟨xs, bs', hbs, hxs, hrest⟩ := split_block p (data.drop len.toNat)
        refine ⟨x :: xs, bs', ?_, List.forall_mem_cons.mpr ⟨hp, hxs⟩, hrest⟩
        rw [hx, hbs, block_cons, List.append_assoc]
  termination_by bs.length

end SideWork
