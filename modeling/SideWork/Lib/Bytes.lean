import SideWork.Lib.Loop
import Mathlib.Data.List.TakeWhile

/-!
# Bytes and words

A buffer is a list of bytes. A load or a store outside the buffer stops the run; a load of several bytes gives the word
they spell in the machine's byte order. What was stored is loaded again, and the rest stays (`load_field`,
`loadString_field`, `storeBytes_spec`). A buffer that is written from its start again and again holds the last bytes over
what was longer before (`overlay`, `storeBytes_stringBuf`).

Two notions for code that reads a buffer: `SafeIff x P`, the run `x` stays inside its buffer exactly when `P` holds, and
`Extends x y`, the run `y` gives whatever `x` gives. Both are closed under sequencing (`SafeIff.bind`, `Extends.bind`)
and hold of the loads; a run over a longer buffer extends the run over the buffer itself.
-/

namespace SideWork

/-- The machine's byte order. -/
inductive Endian
  | little
  | big
  deriving DecidableEq, Repr

/-- The word that bytes spell, least significant byte first or last. -/
def word : Endian → List UInt8 → Nat
  | .little, bs => bs.foldr (fun b w => b.toNat + 256 * w) 0
  | .big, bs => bs.foldl (fun w b => 256 * w + b.toNat) 0

/-- The `n` bytes that spell a word. -/
def wordBytes : Endian → Nat → Nat → List UInt8
  | .little, n, w => (List.range n).map fun i => .ofNat (w / 256 ^ i)
  | .big, n, w => ((List.range n).map fun i => .ofNat (w / 256 ^ i)).reverse

/-- `n` bytes from `off` on. -/
def loadBytes (buf : List UInt8) (off n : Nat) : Except Stop (List UInt8) :=
  if off + n ≤ buf.length then .ok ((buf.drop off).take n) else .error .outOfBounds

/-- An unsigned word of `n` bytes. -/
def load (e : Endian) (buf : List UInt8) (off n : Nat) : Except Stop Nat := do
  let bs ← loadBytes buf off n
  return word e bs

/-- One byte. -/
def loadByte (buf : List UInt8) (off : Nat) : Except Stop UInt8 :=
  match buf[off]? with
  | some b => .ok b
  | none => .error .outOfBounds

/-- Writing bytes from `off` on. -/
def storeBytes (buf : List UInt8) (off : Nat) (bs : List UInt8) : Except Stop (List UInt8) :=
  if off + bs.length ≤ buf.length then .ok (buf.take off ++ bs ++ buf.drop (off + bs.length)) else .error .outOfBounds

/-- The bytes of a string literal of ASCII characters. -/
def ascii (s : String) : List UInt8 := s.toList.map fun c => .ofNat c.toNat

/-- `htons` of a 16 bit word. -/
def htons : Endian → Nat → Nat
  | .little, w => w % 256 * 256 + w / 256 % 256
  | .big, w => w % 65536

variable {e : Endian} {buf : List UInt8} {off n : Nat}

theorem load_of_le (h : off + n ≤ buf.length) : load e buf off n = .ok (word e ((buf.drop off).take n)) := by
  simp [load, loadBytes, h]

theorem loadByte_of_lt (h : off < buf.length) : loadByte buf off = .ok buf[off] := by
  rw [loadByte, List.getElem?_eq_getElem h]

theorem loadByte_of_le (h : buf.length ≤ off) : loadByte buf off = .error .outOfBounds := by
  rw [loadByte, List.getElem?_eq_none h]

/-- A byte behind others. -/
theorem loadByte_append (as bs : List UInt8) (i : Nat) : loadByte (as ++ bs) (as.length + i) = loadByte bs i := by
  rw [loadByte, loadByte, List.getElem?_append_right (by omega), Nat.add_sub_cancel_left]

/-- Writing over the middle of a buffer. -/
theorem storeBytes_mid (as old bs cs : List UInt8) (hl : old.length = bs.length) (ho : off = as.length) :
    storeBytes (as ++ (old ++ cs)) off bs = .ok (as ++ (bs ++ cs)) := by
  have hle : off + bs.length ≤ (as ++ (old ++ cs)).length := by
    simp only [List.length_append]
    omega
  have hdrop : (as ++ (old ++ cs)).drop (off + bs.length) = cs := by
    rw [ho, ← hl, ← List.drop_drop, List.drop_left, List.drop_left]
  rw [storeBytes, if_pos hle, hdrop, ho, List.take_left, List.append_assoc]

theorem word_of_load {w : Nat} (h : load e buf off n = .ok w) : w = word e ((buf.drop off).take n) := by
  by_cases hle : off + n ≤ buf.length
  · rw [load_of_le hle] at h
    exact (Except.ok.inj h).symm
  · simp [load, loadBytes, hle] at h

theorem word_big (bs : List UInt8) : word .big bs = word .little bs.reverse := by
  rw [word, word, List.foldr_reverse]
  exact List.foldl_ext _ _ _ fun w b _ => Nat.add_comm _ _

theorem word_lt (e : Endian) (bs : List UInt8) : word e bs < 256 ^ bs.length := by
  have hlittle : ∀ bs, word .little bs < 256 ^ bs.length := by
    intro bs
    induction bs with
    | nil => exact Nat.one_pos
    | cons b bs ih =>
      have hb := b.toNat_lt
      rw [show word .little (b :: bs) = b.toNat + 256 * word .little bs from rfl, List.length_cons, pow_succ]
      omega
  cases e with
  | little => exact hlittle bs
  | big =>
    rw [word_big, ← List.length_reverse]
    exact hlittle bs.reverse

theorem length_wordBytes (e : Endian) (n w : Nat) : (wordBytes e n w).length = n := by
  cases e <;> simp [wordBytes]

/-- The bytes of a word spell it, as far as they go. -/
theorem word_wordBytes (e : Endian) (n w : Nat) : word e (wordBytes e n w) = w % 256 ^ n := by
  have hlittle : word .little (wordBytes .little n w) = w % 256 ^ n := by
    induction n generalizing w with
    | zero => exact (Nat.mod_one w).symm
    | succ n ih =>
      have hbytes : wordBytes .little (n + 1) w = .ofNat w :: wordBytes .little n (w / 256) := by
        simp [wordBytes, List.range_succ_eq_map, Nat.div_div_eq_div_mul, pow_succ']
      have hword : word .little (wordBytes .little (n + 1) w) =
          (UInt8.ofNat w).toNat + 256 * word .little (wordBytes .little n (w / 256)) := by
        rw [hbytes]
        rfl
      have hpow : 256 ^ (n + 1) = 256 * 256 ^ n := pow_succ' 256 n
      rw [hword, ih, UInt8.toNat_ofNat', hpow]
      exact Nat.mod_mul.symm
  cases e with
  | little => exact hlittle
  | big =>
    have hrev : (wordBytes .big n w).reverse = wordBytes .little n w := List.reverse_reverse _
    rw [word_big, hrev, hlittle]

/-- A word of four bytes or fewer. -/
theorem word_take_four_lt (e : Endian) (bs : List UInt8) : word e (bs.take 4) < 2 ^ 32 :=
  (word_lt e (bs.take 4)).trans_le (Nat.pow_le_pow_right (by omega) (List.length_take_le 4 bs))

/-- More bytes behind a buffer leave its own as they are. -/
theorem take_drop_append (h : off + n ≤ buf.length) (rest : List UInt8) :
    ((buf ++ rest).drop off).take n = (buf.drop off).take n := by
  rw [List.drop_append_of_le_length (by omega), List.take_append_of_le_length (by rw [List.length_drop]; omega)]

theorem take_drop_one (h : off < buf.length) : (buf.drop off).take 1 = [buf[off]] := by
  rw [List.drop_eq_getElem_cons h]
  rfl

theorem take_drop_two (h : off + 1 < buf.length) :
    (buf.drop off).take 2 = [buf[off], buf[off + 1]] := by
  rw [List.drop_eq_getElem_cons (by omega), List.drop_eq_getElem_cons h]
  rfl

theorem word_one (a : UInt8) : word e [a] = a.toNat := by
  cases e <;> simp [word]

theorem word_two (a b : UInt8) :
    word e [a, b] = match e with
      | .little => a.toNat + 256 * b.toNat
      | .big => 256 * a.toNat + b.toNat := by
  cases e <;> simp [word]

/-- Two bytes spell a word in network byte order: the high byte comes first. -/
theorem word_eq_htons {a b : UInt8} {w : Nat} (hw : w < 65536) :
    word e [a, b] = htons e w ↔ a.toNat = w / 256 ∧ b.toNat = w % 256 := by
  have ha := a.toNat_lt
  have hb := b.toNat_lt
  rw [word_two]
  cases e with
  | little =>
    simp only [htons]
    omega
  | big =>
    simp only [htons]
    omega

/-- A C string: the bytes from `off` up to the first zero. -/
def loadString (buf : List UInt8) (off : Nat) : Except Stop (List UInt8) :=
  if 0 ∈ buf.drop off then .ok ((buf.drop off).takeWhile (· ≠ 0)) else .error .outOfBounds

/-- An element that ends a scan also ends it with more behind the list. -/
theorem takeWhile_append_of_mem {α : Type} {p : α → Bool} {as : List α} {a : α} (ha : a ∈ as) (hp : p a = false)
    (bs : List α) : (as ++ bs).takeWhile p = as.takeWhile p := by
  have hne : (as.takeWhile p).length ≠ as.length := by
    intro he
    have hself : as.takeWhile p = as := (List.takeWhile_prefix p).eq_of_length he
    have ha' : p a := List.takeWhile_eq_self_iff.mp hself a ha
    rw [hp] at ha'
    cases ha'
  rw [List.takeWhile_append, if_neg hne]

section Stops

variable {stop : Stop} (hstop : stop ≠ .outOfBounds)

include hstop

/-- A load has no other fault. -/
theorem loadBytes_ne_error : loadBytes buf off n ≠ .error stop := by
  unfold loadBytes
  split
  · nofun
  · exact fun h => hstop (Except.error.inj h).symm

theorem load_ne_error : load e buf off n ≠ .error stop := bind_ne_error (loadBytes_ne_error hstop) fun _ => nofun

theorem loadByte_ne_error : loadByte buf off ≠ .error stop := by
  unfold loadByte
  split
  · nofun
  · exact fun h => hstop (Except.error.inj h).symm

theorem loadString_ne_error : loadString buf off ≠ .error stop := by
  unfold loadString
  split
  · nofun
  · exact fun h => hstop (Except.error.inj h).symm

end Stops

/-! ## Runs that stay inside their buffer -/

section Safe

variable {α β : Type} {x y : Except Stop α} {P Q : Prop}

/-- The run has a result when `P`, and leaves its buffer when not. -/
def SafeIff (x : Except Stop α) (P : Prop) : Prop := (P → ∃ a, x = .ok a) ∧ (¬ P → x = .error .outOfBounds)

theorem safeIff_ok (a : α) (hP : P) : SafeIff (.ok a) P := ⟨fun _ => ⟨a, rfl⟩, fun h => absurd hP h⟩

theorem SafeIff.bind {f : α → Except Stop β} (hx : SafeIff x P) (hf : ∀ a, x = .ok a → SafeIff (f a) Q) :
    SafeIff (x >>= f) (P ∧ Q) := by
  constructor
  · rintro ⟨hP, hQ⟩
    obtain ⟨a, ha⟩ := hx.1 hP
    rw [ha]
    exact (hf a ha).1 hQ
  · intro hn
    by_cases hP : P
    · obtain ⟨a, ha⟩ := hx.1 hP
      rw [ha]
      exact (hf a ha).2 fun hQ => hn ⟨hP, hQ⟩
    · rw [hx.2 hP]
      rfl

theorem SafeIff.congr (hx : SafeIff x P) (h : P ↔ Q) : SafeIff x Q :=
  ⟨fun q => hx.1 (h.mpr q), fun q => hx.2 (h.not.mpr q)⟩

theorem safeIff_load : SafeIff (load e buf off n) (off + n ≤ buf.length) := by
  constructor
  · intro h
    exact ⟨_, load_of_le h⟩
  · intro h
    simp [load, loadBytes, h]

theorem safeIff_loadBytes : SafeIff (loadBytes buf off n) (off + n ≤ buf.length) := by
  constructor <;> intro h <;> simp [loadBytes, h]

theorem safeIff_loadString : SafeIff (loadString buf off) (0 ∈ buf.drop off) := by
  constructor <;> intro h <;> simp [loadString, h]

/-- `y` gives whatever `x` gives. -/
def Extends (x y : Except Stop α) : Prop := ∀ a, x = .ok a → y = .ok a

theorem Extends.refl (x : Except Stop α) : Extends x x := fun _ h => h

theorem Extends.bind {f g : α → Except Stop β} (hx : Extends x y) (hf : ∀ a, Extends (f a) (g a)) :
    Extends (x >>= f) (y >>= g) := by
  intro b hb
  obtain ⟨a, ha, hfa⟩ := bind_eq_ok hb
  rw [hx a ha]
  exact hf a b hfa

theorem Extends.ite {c : Prop} [Decidable c] {x' y' : Except Stop α} (h : Extends x y) (h' : Extends x' y') :
    Extends (if c then x else x') (if c then y else y') := by
  by_cases hc : c
  · rw [if_pos hc, if_pos hc]
    exact h
  · rw [if_neg hc, if_neg hc]
    exact h'

/-- A loop extends a loop when every turn does. -/
theorem Extends.loop {σ ρ : Type} {turn turn' : σ → Except Stop (σ ⊕ ρ)} (h : ∀ s, Extends (turn s) (turn' s))
    (n : Nat) : ∀ s, Extends (loop turn n s) (loop turn' n s) := by
  induction n with
  | zero => exact fun s => Extends.refl _
  | succ n ih =>
    intro s
    refine Extends.bind (h s) fun a => ?_
    cases a with
    | inl s' => exact ih s'
    | inr r => exact Extends.refl _

variable (rest : List UInt8)

theorem extends_loadBytes : Extends (loadBytes buf off n) (loadBytes (buf ++ rest) off n) := by
  intro bs h
  by_cases hle : off + n ≤ buf.length
  · have hle' : off + n ≤ (buf ++ rest).length := by rw [List.length_append]; omega
    rw [loadBytes, if_pos hle] at h
    rw [loadBytes, if_pos hle', take_drop_append hle]
    exact h
  · rw [loadBytes, if_neg hle] at h
    cases h

theorem extends_load : Extends (load e buf off n) (load e (buf ++ rest) off n) :=
  Extends.bind (extends_loadBytes rest) fun _ => Extends.refl _

theorem extends_loadString : Extends (loadString buf off) (loadString (buf ++ rest) off) := by
  intro bs h
  by_cases hz : 0 ∈ buf.drop off
  · have hle : off ≤ buf.length := by
      by_contra hlt
      rw [List.drop_eq_nil_of_le (by omega)] at hz
      cases hz
    rw [loadString, if_pos hz] at h
    have hz' : 0 ∈ (buf ++ rest).drop off := by
      rw [List.drop_append_of_le_length hle]
      exact List.mem_append_left _ hz
    rw [loadString, if_pos hz', List.drop_append_of_le_length hle, ← h, takeWhile_append_of_mem hz rfl]
  · rw [loadString, if_neg hz] at h
    cases h

end Safe

/-! ## Fields -/

/-- A word behind `pre`. -/
theorem load_field (pre post : List UInt8) (n w : Nat) :
    load e (pre ++ (wordBytes e n w ++ post)) pre.length n = .ok (w % 256 ^ n) := by
  have hlen : pre.length + n ≤ (pre ++ (wordBytes e n w ++ post)).length := by
    simp only [List.length_append, length_wordBytes]
    omega
  rw [load_of_le hlen, List.drop_left, List.take_left' (length_wordBytes e n w), word_wordBytes]

/-- A C string behind `pre`. -/
theorem loadString_field (pre bs post : List UInt8) (h : 0 ∉ bs) :
    loadString (pre ++ (bs ++ 0 :: post)) pre.length = .ok bs := by
  have hall : ∀ b ∈ bs, decide (b ≠ 0) = true := by
    intro b hb
    have hne : b ≠ 0 := fun h0 => h (h0 ▸ hb)
    simpa using hne
  rw [loadString, List.drop_left, if_pos (by simp), List.takeWhile_append_of_pos hall]
  simp

/-- **A store**: the bytes are there, and all others are as they were. -/
theorem storeBytes_spec (buf : List UInt8) (off : Nat) (bs : List UInt8) (h : off + bs.length ≤ buf.length) :
    ∃ buf', storeBytes buf off bs = .ok buf' ∧ buf'.length = buf.length ∧ (buf'.drop off).take bs.length = bs ∧
      ∀ i m, i + m ≤ off ∨ off + bs.length ≤ i → (buf'.drop i).take m = (buf.drop i).take m := by
  have hoff : (buf.take off).length = off := List.length_take_of_le (by omega)
  refine ⟨_, if_pos h, ?_, ?_, fun i m hi => ?_⟩
  · simp only [List.length_append, hoff, List.length_drop]
    omega
  · rw [List.append_assoc, List.drop_left' hoff, List.take_left]
  · refine List.ext_getElem? fun j => ?_
    simp only [List.getElem?_take, List.getElem?_drop]
    by_cases hj : j < m
    · rw [if_pos hj, if_pos hj]
      rcases hi with hi | hi
      · rw [List.append_assoc, List.getElem?_append_left (by omega), List.getElem?_take_of_lt (by omega)]
      · rw [List.getElem?_append_right (by simp only [List.length_append, hoff]; omega), List.getElem?_drop]
        congr 1
        simp only [List.length_append, hoff]
        omega
    · rw [if_neg hj, if_neg hj]

/-! ## A string that is written over -/

/-- A buffer of `n` bytes with a string in front and zeros behind. -/
def stringBuf (n : Nat) (s : List UInt8) : List UInt8 := s ++ List.replicate (n - s.length) 0

/-- The string after bytes have been written over its start. -/
def overlay (s bs : List UInt8) : List UInt8 := bs ++ s.drop bs.length

theorem length_overlay (s bs : List UInt8) : (overlay s bs).length = max bs.length s.length := by
  rw [overlay, List.length_append, List.length_drop]
  omega

theorem zero_notMem_overlay {s bs : List UInt8} (hs : 0 ∉ s) (hbs : 0 ∉ bs) : 0 ∉ overlay s bs := by
  rw [overlay, List.mem_append, not_or]
  exact ⟨hbs, fun h => hs (List.mem_of_mem_drop h)⟩

theorem prefix_overlay (s bs : List UInt8) : bs <+: overlay s bs := List.prefix_append _ _

/-- What was longer shows behind. -/
theorem overlay_eq_iff (s bs : List UInt8) : overlay s bs = bs ↔ s.length ≤ bs.length := by
  rw [overlay, List.append_right_eq_self, List.drop_eq_nil_iff]

theorem storeBytes_stringBuf {n : Nat} {s bs : List UInt8} (hs : s.length ≤ n) (hbs : bs.length ≤ n) :
    storeBytes (stringBuf n s) 0 bs = .ok (stringBuf n (overlay s bs)) := by
  have hlen : (stringBuf n s).length = n := by
    rw [stringBuf, List.length_append, List.length_replicate]
    omega
  have hrest : n - s.length - (bs.length - s.length) = n - (overlay s bs).length := by
    rw [length_overlay]
    omega
  rw [storeBytes, if_pos (by omega), List.take_zero, List.nil_append, Nat.zero_add, stringBuf, List.drop_append,
    List.drop_replicate, hrest, stringBuf, overlay, List.append_assoc]

/-- The string is read back if there is a zero behind it. -/
theorem loadString_stringBuf {n : Nat} {s : List UInt8} (hs : 0 ∉ s) (hn : s.length ≤ n) :
    loadString (stringBuf n s) 0 = if s.length < n then .ok s else .error .outOfBounds := by
  by_cases hlt : s.length < n
  · obtain ⟨k, hk⟩ : ∃ k, n - s.length = k + 1 := ⟨n - s.length - 1, by omega⟩
    rw [if_pos hlt, stringBuf, hk, List.replicate_succ]
    exact loadString_field [] s _ hs
  · have hk : n - s.length = 0 := by omega
    rw [if_neg hlt, stringBuf, hk, List.replicate_zero, List.append_nil, loadString, List.drop_zero, if_neg hs]

end SideWork
