import SideWork.Lib.Bytes
import SideWork.Lib.Tlv
import SideWork.Multicast.Frame

/-!
# `print_ssid`

`print_ssid` of `scan.c` walks over the elements of a beacon until it comes to an SSID, an element with id 0 of at most 32
bytes, and prints that escaped. `ie` is an offset in the block and `ielen` what is left of it. The guard compares `ielen`
with the length byte alone, without the two bytes of the header: the last element may lack two bytes and still be walked
into.

- `printSsid_inside_iff`: the reads stay inside the block unless it ends with an SSID that lacks one or two bytes;
- `decode_escapeData`: the escaping is reversible;
- `printSsid_wellFormed`: on a block of complete elements, the first SSID is printed.
-/

namespace SideWork.Nl80211

open Multicast (hexDigit)

/-- `isprint` in the C locale. -/
def isprint (b : UInt8) : Bool := 0x20 ≤ b ∧ b ≤ 0x7e

/-- `%.2x` of a byte. -/
def hexByte (b : UInt8) : List Char := [Nat.digitChar (b.toNat / 16), Nat.digitChar (b.toNat % 16)]

/-- What byte `i` of an SSID of `len` bytes is printed as: 32 is a blank and 92 a backslash. -/
def escape (len i : Nat) (b : UInt8) : List Char :=
  if isprint b ∧ b ≠ 32 ∧ b ≠ 92 then [Char.ofNat b.toNat]
  else if b = 32 ∧ i ≠ 0 ∧ i + 1 ≠ len then [' ']
  else '\\' :: 'x' :: hexByte b

/-- One round of the loop over the bytes from `data` on. -/
def dataRound (ie : List UInt8) (data len : Nat) (out : List Char) (i : Nat) : Except Stop (List Char) := do
  let b ← loadByte ie (data + i)
  return out ++ escape len i b

/-- `for (i = 0; i < len; i++)`. -/
def printData (ie : List UInt8) (data len : Nat) : Except Stop (List Char) :=
  (List.range len).foldlM (dataRound ie data len) []

/-- One turn of `while (ielen >= 2 && ielen >= ie[1])`. -/
def ssidTurn (buf : List UInt8) : Nat × Int → Except Stop (Nat × Int ⊕ List Char)
  | (ie, ielen) =>
    if 2 ≤ ielen then do
      let len ← loadByte buf (ie + 1)
      if len.toNat ≤ ielen then
        let id ← loadByte buf ie
        if id = 0 ∧ len.toNat ≤ 32 then
          let out ← printData buf (ie + 2) len.toNat
          return .inr out
        else return .inl (ie + (len.toNat + 2), ielen - (len.toNat + 2))
      else return .inr []
    else return .inr []

/-- `print_ssid`, with what it prints. -/
def printSsid (fuel : Nat) (ie : List UInt8) (ielen : Int) : Except Stop (List Char) :=
  loop (ssidTurn ie) fuel (0, ielen)

/-! ## Printing the data -/

/-- The escaped form of an SSID. -/
def escapeData (bs : List UInt8) : List Char := bs.zipIdx.flatMap fun p => escape bs.length p.2 p.1

variable {ie : List UInt8} {data len : Nat}

theorem printData_step (n : Nat) (h : data + n < ie.length) :
    ((ie.drop data).take (n + 1)).zipIdx.flatMap (fun p => escape len p.2 p.1) =
      ((ie.drop data).take n).zipIdx.flatMap (fun p => escape len p.2 p.1) ++ escape len n ie[data + n] := by
  have hlen : ((ie.drop data).take n).length = n := List.length_take_of_le (by rw [List.length_drop]; omega)
  rw [List.take_add_one, List.getElem?_drop, List.getElem?_eq_getElem h, Option.toList_some, List.zipIdx_append,
    List.flatMap_append, hlen, Nat.zero_add]
  simp

/-- What the first `n` rounds print. -/
theorem foldlM_escape (n : Nat) (h : data + n ≤ ie.length) :
    (List.range n).foldlM (dataRound ie data len) [] =
      .ok (((ie.drop data).take n).zipIdx.flatMap fun p => escape len p.2 p.1) := by
  induction n with
  | zero => rfl
  | succ n ih =>
    rw [List.range_succ, List.foldlM_append, ih (by omega), ok_bind, List.foldlM_cons, dataRound,
      loadByte_of_lt (show data + n < ie.length by omega), printData_step n (by omega)]
    rfl

theorem printData_inside (h : data + len ≤ ie.length) :
    printData ie data len = .ok (escapeData ((ie.drop data).take len)) := by
  have hlen : ((ie.drop data).take len).length = len := List.length_take_of_le (by rw [List.length_drop]; omega)
  rw [escapeData, hlen]
  exact foldlM_escape len h

/-- The first byte behind the block stops the printing. -/
theorem printData_outside (hdata : data ≤ ie.length) (h : ie.length < data + len) :
    printData ie data len = .error .outOfBounds := by
  unfold printData
  -- the bound `len` of the loop, not the `len` that the escaping looks at
  suffices hall : ∀ n, ie.length < data + n → (List.range n).foldlM (dataRound ie data len) [] =
      .error .outOfBounds from hall len h
  intro n
  induction n with
  | zero => exact fun hn => absurd hn (by omega)
  | succ n ih =>
    intro hn
    rw [List.range_succ, List.foldlM_append]
    by_cases hlt : ie.length < data + n
    · rw [ih hlt, error_bind]
    · rw [foldlM_escape n (by omega), ok_bind, List.foldlM_cons, dataRound, loadByte_of_le (by omega)]
      rfl

/-! ## The walk -/

/-- The element that `print_ssid` looks for. -/
def IsSsid (x : Element) : Prop := x.id = 0 ∧ x.data.length ≤ 32

instance : DecidablePred IsSsid := fun x => inferInstanceAs (Decidable (x.id = 0 ∧ x.data.length ≤ 32))

variable (pre : List UInt8)

theorem ssidTurn_short {pos : Nat} {ielen : Int} (h : ielen < 2) : ssidTurn ie (pos, ielen) = .ok (.inr []) := by
  rw [ssidTurn, if_neg (by omega), pure_eq_ok]

/-- The turn on a header, of an element or of what is left of one. -/
theorem ssidTurn_header (id len : UInt8) (data : List UInt8) :
    ssidTurn (pre ++ id :: len :: data) (pre.length, (data.length : Int) + 2) =
      if len.toNat ≤ data.length + 2 then
        if id = 0 ∧ len.toNat ≤ 32 then do
          let out ← printData (pre ++ id :: len :: data) (pre.length + 2) len.toNat
          return .inr out
        else .ok (.inl (pre.length + (len.toNat + 2), (data.length : Int) - len.toNat))
      else .ok (.inr []) := by
  have h2 : (2 : Int) ≤ data.length + 2 := by omega
  have hlen : loadByte (pre ++ id :: len :: data) (pre.length + 1) = .ok len := loadByte_append pre _ 1
  have hid : loadByte (pre ++ id :: len :: data) pre.length = .ok id := loadByte_append pre _ 0
  have hle : (len.toNat : Int) ≤ data.length + 2 ↔ len.toNat ≤ data.length + 2 := by omega
  have hrest : (data.length : Int) + 2 - (len.toNat + 2) = data.length - len.toNat := by omega
  simp only [ssidTurn, if_pos h2, hlen, hid, ok_bind, hle, hrest, pure_eq_ok]

/-- Beyond leaving the block, `print_ssid` has no fault. -/
theorem printSsid_ne_error {stop : Stop} (hstop : stop ≠ .outOfBounds) (hfuel : stop ≠ .outOfFuel) (fuel : Nat)
    (ie : List UInt8) (ielen : Int) : printSsid fuel ie ielen ≠ .error stop := by
  refine loop_ne_error hfuel (fun s => ?_) fuel _
  obtain ⟨pos, left⟩ := s
  simp only [ssidTurn]
  split
  · refine bind_ne_error (loadByte_ne_error hstop) fun len => ?_
    split
    · refine bind_ne_error (loadByte_ne_error hstop) fun id => ?_
      split
      · have hround : ∀ out i, dataRound ie (pos + 2) len.toNat out i ≠ .error stop := fun out i =>
          bind_ne_error (loadByte_ne_error hstop) fun b => nofun
        exact bind_ne_error (foldlM_ne_error hround _ _) fun out => nofun
      · nofun
    · nofun
  · nofun

/-- The turn on a complete element prints an SSID and goes on behind any other element. -/
theorem ssidTurn_element (x : Element) (rest : List UInt8) :
    ssidTurn (pre ++ (x.bytes ++ rest)) (pre.length, (x.bytes ++ rest).length) =
      if IsSsid x then .ok (.inr (escapeData x.data)) else .ok (.inl ((pre ++ x.bytes).length, rest.length)) := by
  have hturn := ssidTurn_header pre x.id (.ofNat x.data.length) (x.data ++ rest)
  rw [x.length_toNat, List.length_append, if_pos (by omega)] at hturn
  have hlen : ((x.bytes ++ rest).length : Int) = ((x.data.length + rest.length : Nat) : Int) + 2 := by
    rw [List.length_append, x.bytes_length]
    omega
  have hprint : printData (pre ++ x.id :: .ofNat x.data.length :: (x.data ++ rest)) (pre.length + 2) x.data.length =
      .ok (escapeData x.data) := by
    rw [printData_inside (by simp only [List.length_append, List.length_cons]; omega), ← List.drop_drop,
      List.drop_left]
    simp
  have hrest : ((x.data.length + rest.length : Nat) : Int) - x.data.length = rest.length := by omega
  rw [hprint, hrest] at hturn
  rw [hlen, List.length_append, x.bytes_length]
  exact hturn

/-- The walk over a block without an SSID. -/
theorem loop_block {xs : List Element} (hxs : ∀ x ∈ xs, ¬ IsSsid x) (rest : List UInt8) (k : Nat) :
    loop (ssidTurn (pre ++ (block xs ++ rest))) (xs.length + k) (pre.length, (block xs ++ rest).length) =
      loop (ssidTurn (pre ++ (block xs ++ rest))) k ((pre ++ block xs).length, rest.length) := by
  induction xs generalizing pre with
  | nil => simp
  | cons x xs ih =>
    obtain ⟨hx, hxs⟩ := List.forall_mem_cons.mp hxs
    have hrest := ih (pre ++ x.bytes) hxs
    have hturn := ssidTurn_element pre x (block xs ++ rest)
    rw [if_neg hx] at hturn
    simp only [block_cons, List.append_assoc] at hrest ⊢
    rw [loop_again_cons hturn, hrest]

/-- Behind the block, `print_ssid` does what it does there. -/
theorem printSsid_behind {xs : List Element} (hxs : ∀ x ∈ xs, ¬ IsSsid x) {rest : List UInt8} {n : Nat}
    {r : Except Stop (List Char)} (hn : n ≤ rest.length) (hr : ∀ k, n < k →
      loop (ssidTurn (block xs ++ rest)) k ((block xs).length, rest.length) = r) :
    ∀ fuel, (block xs ++ rest).length < fuel → printSsid fuel (block xs ++ rest) (block xs ++ rest).length = r := by
  intro fuel hf
  have hlen := length_le_block xs
  have hblock := loop_block [] hxs rest (fuel - xs.length)
  rw [List.length_append] at hf
  simp only [List.nil_append, List.length_nil] at hblock
  rw [show xs.length + (fuel - xs.length) = fuel by omega] at hblock
  exact hblock.trans (hr _ (by omega))

/-! ## Any block -/

/-- The walk comes to an SSID that lacks one or two of its bytes. -/
def CutShort (ie : List UInt8) : Prop := ∃ xs len data, ie = block xs ++ 0 :: len :: data ∧ (∀ x ∈ xs, ¬ IsSsid x) ∧
  len.toNat ≤ 32 ∧ data.length < len.toNat ∧ len.toNat ≤ data.length + 2

theorem printSsid_cutShort (h : CutShort ie) :
    ∀ fuel, ie.length < fuel → printSsid fuel ie ie.length = .error .outOfBounds := by
  obtain ⟨xs, len, data, rfl, hxs, h32, hlow, hhigh⟩ := h
  refine printSsid_behind hxs (Nat.zero_le _) fun k hk => loop_stop_of_lt ?_ hk
  have hlen : (block xs ++ 0 :: len :: data).length = (block xs).length + 2 + data.length := by
    simp only [List.length_append, List.length_cons]
    omega
  have hturn := ssidTurn_header (block xs) 0 len data
  rw [if_pos hhigh, if_pos ⟨rfl, h32⟩, printData_outside (by omega) (by omega)] at hturn
  exact hturn

/-- The last piece of a block that the walk does not leave. -/
theorem loop_rest {rest : List UInt8} (h : Rest IsSsid rest)
    (hcut : ∀ (len : UInt8) (data : List UInt8), rest = 0 :: len :: data → len.toNat ≤ 32 → data.length < len.toNat →
      ¬ len.toNat ≤ data.length + 2) :
    ∃ n, n ≤ rest.length ∧ ∃ out, ∀ k, n < k → loop (ssidTurn (pre ++ rest)) k (pre.length, rest.length) = .ok out := by
  cases h with
  | nil => exact ⟨0, le_rfl, [], fun k hk => loop_done_of_lt (ssidTurn_short (by simp)) hk⟩
  | id b => exact ⟨0, Nat.zero_le _, [], fun k hk => loop_done_of_lt (ssidTurn_short (by simp)) hk⟩
  | found x bs hx =>
    have hturn := ssidTurn_element pre x bs
    rw [if_pos hx] at hturn
    exact ⟨0, Nat.zero_le _, _, fun k hk => loop_done_of_lt hturn hk⟩
  | cut i len data hlt =>
    have hturn := ssidTurn_header pre i len data
    by_cases hle : len.toNat ≤ data.length + 2
    · have hother : ¬ (i = 0 ∧ len.toNat ≤ 32) := fun ⟨hi, h32⟩ => hcut len data (by rw [hi]) h32 hlt hle
      rw [if_pos hle, if_neg hother] at hturn
      -- `ielen` is negative behind this element
      exact ⟨1, by simp, [], loop_again_of_lt hturn fun k hk => loop_done_of_lt (ssidTurn_short (by omega)) hk⟩
    · rw [if_neg hle] at hturn
      exact ⟨0, Nat.zero_le _, [], fun k hk => loop_done_of_lt hturn hk⟩

theorem printSsid_uncut (h : ¬ CutShort ie) :
    ∃ out, ∀ fuel, ie.length < fuel → printSsid fuel ie ie.length = .ok out := by
  obtain ⟨xs, rest, rfl, hxs, hrest⟩ := split_block IsSsid ie
  obtain ⟨n, hn, out, hr⟩ := loop_rest (block xs) hrest fun len data heq h32 hlow hhigh =>
    h ⟨xs, len, data, by rw [heq], hxs, h32, hlow, hhigh⟩
  exact ⟨out, printSsid_behind hxs hn hr⟩

/-- **Any block.** `print_ssid` ends, and its reads stay inside the block unless the walk comes to an SSID that lacks one
or two of its bytes. -/
theorem printSsid_inside_iff (ie : List UInt8) :
    ∃ r, Ends (fun fuel => printSsid fuel ie ie.length) r ∧ SafeIff r (¬ CutShort ie) := by
  by_cases h : CutShort ie
  · exact ⟨_, ends_of_lt _ (printSsid_cutShort h), fun hn => absurd h hn, fun _ => rfl⟩
  · obtain ⟨out, hout⟩ := printSsid_uncut h
    exact ⟨_, ends_of_lt _ hout, safeIff_ok out h⟩

/-- An SSID of two bytes that lacks the last one. -/
theorem printSsid_cut_outside : Ends (fun fuel => printSsid fuel [0, 2, 97] 3) (.error .outOfBounds) :=
  ends_of_lt _ (printSsid_cutShort ⟨[], 2, [97], rfl, by simp, by decide, by decide, by decide⟩)

/-! ## Blocks of complete elements -/

/-- The first SSID is printed, or nothing. -/
theorem printSsid_block (xs : List Element) : ∀ fuel, (block xs).length < fuel →
    printSsid fuel (block xs) (block xs).length = .ok ((xs.find? IsSsid).elim [] fun x => escapeData x.data) := by
  cases hfind : xs.find? IsSsid with
  | none =>
    have hxs : ∀ x ∈ xs, ¬ IsSsid x := by simpa using hfind
    have hend := printSsid_behind hxs (le_refl ([] : List UInt8).length) fun k hk =>
      loop_done_of_lt (ssidTurn_short (by simp)) hk
    rwa [List.append_nil] at hend
  | some x =>
    obtain ⟨hx, as, bs, rfl, has⟩ := List.find?_eq_some_iff_append.mp hfind
    rw [block_append, block_cons]
    refine printSsid_behind (by simpa using has) (Nat.zero_le _) fun k hk => loop_done_of_lt ?_ hk
    rw [ssidTurn_element, if_pos (by simpa using hx)]
    rfl

/-! ## Reading an escaped SSID back -/

/-- Every group of a backslash, an `x` and two hexadecimal digits to its byte, every other character to itself. -/
def decode : List Char → List UInt8
  | '\\' :: 'x' :: hi :: lo :: cs =>
    match hexDigit hi, hexDigit lo with
    | some v, some w => .ofNat (16 * v + w) :: decode cs
    | _, _ => .ofNat '\\'.toNat :: decode ('x' :: hi :: lo :: cs)
  | c :: cs => .ofNat c.toNat :: decode cs
  | [] => []

theorem hexDigit_digitChar : ∀ n < 16, hexDigit (Nat.digitChar n) = some n := by decide

theorem decode_char {c : Char} (hc : c ≠ '\\') (cs : List Char) : decode (c :: cs) = .ofNat c.toNat :: decode cs := by
  rw [decode]
  rintro hi lo cs' rfl
  exact absurd rfl hc

theorem decode_hexByte (b : UInt8) (cs : List Char) : decode ('\\' :: 'x' :: hexByte b ++ cs) = b :: decode cs := by
  have hb := b.toNat_lt
  simp only [hexByte, List.cons_append, List.nil_append, decode, hexDigit_digitChar _ (show b.toNat / 16 < 16 by omega),
    hexDigit_digitChar _ (show b.toNat % 16 < 16 by omega)]
  rw [Nat.div_add_mod, UInt8.ofNat_toNat]

theorem toNat_ofNat_byte (b : UInt8) : (Char.ofNat b.toNat).toNat = b.toNat := by
  have hb := b.toNat_lt
  have hvalid : b.toNat.isValidChar := Or.inl (by omega)
  rw [Char.ofNat, dif_pos hvalid]
  rfl

/-- A printed byte reads back as itself, whatever is printed behind it. -/
theorem decode_escape (len i : Nat) (b : UInt8) (cs : List Char) : decode (escape len i b ++ cs) = b :: decode cs := by
  unfold escape
  split
  · rename_i hprint
    have hchar := toNat_ofNat_byte b
    rw [List.singleton_append, decode_char, hchar, UInt8.ofNat_toNat]
    intro hc
    rw [hc] at hchar
    exact hprint.2.2 (UInt8.toNat_inj.mp hchar.symm)
  · split
    · rename_i hblank
      rw [hblank.1, List.singleton_append, decode_char (by decide)]
      rfl
    · exact decode_hexByte b cs

theorem decode_escapeData (bs : List UInt8) : decode (escapeData bs) = bs := by
  suffices hall : ∀ len k, decode ((bs.zipIdx k).flatMap fun p => escape len p.2 p.1) = bs from hall bs.length 0
  intro len
  induction bs with
  | nil => exact fun k => by simp [decode]
  | cons b bs ih =>
    intro k
    rw [List.zipIdx_cons, List.flatMap_cons, decode_escape, ih]

theorem escapeData_injective : Function.Injective escapeData := fun bs bs' h => by
  rw [← decode_escapeData bs, h, decode_escapeData]

/-- **Blocks of complete elements.** `print_ssid` prints the escaped form of the first SSID, and the escaping is
reversible. -/
theorem printSsid_wellFormed :
    (∀ xs : List Element, Ends (fun fuel => printSsid fuel (block xs) (block xs).length)
      (.ok ((xs.find? IsSsid).elim [] fun x => escapeData x.data))) ∧
    (∀ bs, decode (escapeData bs) = bs) ∧ Function.Injective escapeData :=
  ⟨fun xs => ends_of_lt _ (printSsid_block xs), decode_escapeData, escapeData_injective⟩

end SideWork.Nl80211
