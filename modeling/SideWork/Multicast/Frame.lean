import SideWork.Lib.Bytes

/-!
# The Ethernet frame of `multicast_SIOCGIFHWADDR.c`

`main` fills a zeroed `struct eth_frame`: the destination from a string, the source from the interface, then the type.
`set_dest_mac` has `sscanf` store every group as an `unsigned int` of four bytes, in little-endian order, one byte behind
the other; each store clears three bytes that the next one, or `set_source_mac`, writes again.

- `scanMac_groups`: the groups leave their bytes and three zeros behind them;
- `setSourceMac_spec`: the bytes of the interface, over whatever stood there;
- `initFrame_header`: the frame starts with destination, source and type;
- `initialisers_commute_iff`: in the other order the source loses its first three bytes.
-/

namespace SideWork.Multicast

/-- `isspace` of the C locale. -/
def isspace (c : Char) : Bool := c = ' ' || (0x09 ≤ c.toNat && c.toNat ≤ 0x0d)

/-- The value of a hexadecimal digit. -/
def hexDigit (c : Char) : Option Nat :=
  if '0' ≤ c ∧ c ≤ '9' then some (c.toNat - '0'.toNat)
  else if 'a' ≤ c ∧ c ≤ 'f' then some (c.toNat - 'a'.toNat + 10)
  else if 'A' ≤ c ∧ c ≤ 'F' then some (c.toNat - 'A'.toNat + 10)
  else none

/-- `%02x` of `sscanf`: behind white space, at most two characters of a hexadecimal number, a sign among them. The
characters `0x` are the start of a number that the width cuts off: a matching failure, as the C standard has it (glibc
stores 0 and goes on). -/
def scanHex (cs : List Char) : Option (Nat × List Char) :=
  match cs.dropWhile isspace with
  | [] => none
  | [c] => (hexDigit c).map fun v => (v, [])
  | c :: d :: rest =>
    if c = '+' then (hexDigit d).map fun v => (v, rest)
    else if c = '-' then (hexDigit d).map fun v => ((2 ^ 32 - v) % 2 ^ 32, rest)
    else if c = '0' ∧ (d = 'x' ∨ d = 'X') then none
    else match hexDigit c, hexDigit d with
      | none, _ => none
      | some v, none => some (v, d :: rest)
      | some v, some w => some (16 * v + w, rest)

/-- `n` conversions of `"%02x:%02x: .. "`, the first one stored at `dest`. -/
def scanMac : Nat → List Char → Nat → List UInt8 → Except Stop (List UInt8)
  | 0, _, _, frame => return frame
  | n + 1, cs, dest, frame =>
    match scanHex cs with
    | none => return frame
    | some (v, rest) => do
      let frame ← storeBytes frame dest (wordBytes .little 4 v)
      match n, rest with
      | 0, _ => return frame
      | n + 1, ':' :: rest => scanMac (n + 1) rest (dest + 1) frame
      | _ + 1, _ => return frame

/-- `set_dest_mac`, with `dest_mac` at an offset of the frame. -/
def setDestMac (macString : String) (destMac : Nat) (frame : List UInt8) : Except Stop (List UInt8) :=
  scanMac 6 macString.toList destMac frame

/-- What `ioctl` tells about an interface. -/
structure Interface where
  up : Bool
  saData : Fin 6 → UInt8

/-- `set_source_mac`: nothing if the interface is down. -/
def setSourceMac (interface : Interface) (mac : Nat) (frame : List UInt8) : Except Stop (Option (List UInt8)) :=
  if ¬ interface.up then return none
  else do
    let frame ← storeBytes frame mac [interface.saData 0]
    let frame ← storeBytes frame (mac + 1) [interface.saData 1]
    let frame ← storeBytes frame (mac + 2) [interface.saData 2]
    let frame ← storeBytes frame (mac + 3) [interface.saData 3]
    let frame ← storeBytes frame (mac + 4) [interface.saData 4]
    let frame ← storeBytes frame (mac + 5) [interface.saData 5]
    return some frame

/-- `struct eth_frame` after `memset`: `h_dest` at 0, `h_source` at 6, `h_proto` at 12, `payload` at 14. -/
def zeroFrame : List UInt8 := List.replicate 78 0

/-- Steps 1 to 3 of `main`; the program exits if the interface is down. -/
def initFrame (destMac : String) (interface : Interface) (etherType : Nat) :
    Except Stop (Option (List UInt8)) := do
  let frame ← setDestMac destMac 0 zeroFrame
  match ← setSourceMac interface 6 frame with
  | none => return none
  | some frame =>
    let frame ← storeBytes frame 12 (wordBytes .little 2 (htons .little etherType))
    return some frame

/-- `set_dest_mac` on `h_dest`, then `set_source_mac` on `h_source`. -/
def destFirst (macString : String) (interface : Interface) (frame : List UInt8) :
    Except Stop (Option (List UInt8)) := do
  let frame ← setDestMac macString 0 frame
  setSourceMac interface 6 frame

/-- `set_source_mac` on `h_source`, then `set_dest_mac` on `h_dest`. -/
def sourceFirst (macString : String) (interface : Interface) (frame : List UInt8) :
    Except Stop (Option (List UInt8)) := do
  match ← setSourceMac interface 6 frame with
  | none => return none
  | some frame =>
    let frame ← setDestMac macString 0 frame
    return some frame

/-! ## The destination -/

/-- Two hexadecimal digits. -/
structure HexGroup where
  hi : Char
  lo : Char
  hiDigit : (hexDigit hi).isSome
  loDigit : (hexDigit lo).isSome

/-- The byte they spell. -/
def HexGroup.byte (g : HexGroup) : UInt8 := .ofNat (16 * (hexDigit g.hi).get g.hiDigit + (hexDigit g.lo).get g.loDigit)

/-- Groups separated by `:`. -/
def macChars : List HexGroup → List Char
  | [] => []
  | [g] => [g.hi, g.lo]
  | g :: gs => g.hi :: g.lo :: ':' :: macChars gs

theorem macChars_cons (g g' : HexGroup) (gs : List HexGroup) :
    macChars (g :: g' :: gs) = g.hi :: g.lo :: ':' :: macChars (g' :: gs) := rfl

/-- The characters of hexadecimal digits, and their values. -/
theorem hexDigit_range {c : Char} {v : Nat} (h : hexDigit c = some v) : v < 16 ∧
    ((48 ≤ c.toNat ∧ c.toNat ≤ 57) ∨ (97 ≤ c.toNat ∧ c.toNat ≤ 102) ∨ (65 ≤ c.toNat ∧ c.toNat ≤ 70)) := by
  have hle : ∀ a b : Char, a ≤ b ↔ a.toNat ≤ b.toNat := fun a b => Iff.rfl
  unfold hexDigit at h
  simp only [hle, show '0'.toNat = 48 from rfl, show '9'.toNat = 57 from rfl, show 'a'.toNat = 97 from rfl,
    show 'f'.toNat = 102 from rfl, show 'A'.toNat = 65 from rfl, show 'F'.toNat = 70 from rfl] at h
  split at h
  · cases h
    omega
  · split at h
    · cases h
      omega
    · split at h
      · cases h
        omega
      · cases h

/-- A hexadecimal digit is no other character that `sscanf` looks for. -/
theorem hexDigit_ne {c d : Char} {v : Nat} (h : hexDigit c = some v) (hd : hexDigit d = none) : c ≠ d := by
  rintro rfl
  rw [h] at hd
  cases hd

theorem not_isspace {c : Char} {v : Nat} (h : hexDigit c = some v) : isspace c = false := by
  obtain ⟨-, hr⟩ := hexDigit_range h
  have hne := hexDigit_ne h (show hexDigit ' ' = none by decide)
  have hctl : ¬ (0x09 ≤ c.toNat ∧ c.toNat ≤ 0x0d) := by omega
  simpa [isspace, hne] using hctl

theorem scanHex_group (g : HexGroup) (rest : List Char) :
    scanHex (g.hi :: g.lo :: rest) = some (g.byte.toNat, rest) := by
  obtain ⟨v, hv⟩ := Option.isSome_iff_exists.mp g.hiDigit
  obtain ⟨w, hw⟩ := Option.isSome_iff_exists.mp g.loDigit
  have hv16 := (hexDigit_range hv).1
  have hw16 := (hexDigit_range hw).1
  have hbyte : g.byte.toNat = 16 * v + w := by
    simp only [HexGroup.byte, hv, hw, Option.get_some, UInt8.toNat_ofNat']
    omega
  have hplus := hexDigit_ne hv (show hexDigit '+' = none by decide)
  have hminus := hexDigit_ne hv (show hexDigit '-' = none by decide)
  have hx := hexDigit_ne hw (show hexDigit 'x' = none by decide)
  have hX := hexDigit_ne hw (show hexDigit 'X' = none by decide)
  rw [scanHex, List.dropWhile_cons_of_neg (by simp [not_isspace hv])]
  simp [hplus, hminus, hx, hX, hv, hw, hbyte]

theorem wordBytes_byte (b : UInt8) : wordBytes .little 4 b.toNat = [b, 0, 0, 0] := by
  have hb := b.toNat_lt
  have h₁ : b.toNat / 256 = 0 := by omega
  have h₂ : b.toNat / 65536 = 0 := by omega
  have h₃ : b.toNat / 16777216 = 0 := by omega
  simp [wordBytes, List.range, List.range.loop, h₁, h₂, h₃]

/-- The store of a group leaves one byte and clears the three behind it. -/
theorem storeBytes_group (pre : List UInt8) (b : UInt8) {old : List UInt8} (hold : old.length = 4) (rest : List UInt8) :
    storeBytes (pre ++ (old ++ rest)) pre.length (wordBytes .little 4 b.toNat) =
      .ok (pre ++ ([b, 0, 0, 0] ++ rest)) := by
  rw [wordBytes_byte, ← List.append_assoc pre [b, 0, 0, 0]]
  simpa using storeBytes_mid pre old [b, 0, 0, 0] rest hold rfl

/-- All groups: each clears what the next one writes, and the last one the three bytes behind it. -/
theorem scanMac_groups (gs : List HexGroup) (hne : gs ≠ []) (pre old rest : List UInt8)
    (hold : old.length = gs.length + 3) :
    scanMac gs.length (macChars gs) pre.length (pre ++ (old ++ rest)) =
      .ok (pre ++ (gs.map HexGroup.byte ++ ([0, 0, 0] ++ rest))) := by
  induction gs generalizing pre old with
  | nil => exact absurd rfl hne
  | cons g gs ih =>
    cases gs with
    | nil =>
      rw [macChars, List.length_singleton, scanMac, scanHex_group]
      simp only [storeBytes_group pre g.byte hold rest, ok_bind]
      rfl
    | cons g' gs =>
      have hcut : old ++ rest = old.take 4 ++ (old.drop 4 ++ rest) := by
        rw [← List.append_assoc, List.take_append_drop]
      have hlen : (old.take 4).length = 4 := by
        rw [List.length_take, hold, List.length_cons, List.length_cons]
        omega
      have hold' : ([0, 0, 0] ++ old.drop 4 : List UInt8).length = (g' :: gs).length + 3 := by
        rw [List.length_append, List.length_drop, hold, List.length_cons, List.length_cons]
        simp only [List.length_cons, List.length_nil]
        omega
      have hrest := ih (List.cons_ne_nil g' gs) (pre ++ [g.byte]) ([0, 0, 0] ++ old.drop 4) hold'
      rw [macChars_cons, List.length_cons, scanMac, scanHex_group, hcut]
      simp only [storeBytes_group pre g.byte hlen, ok_bind]
      rw [List.length_append, List.length_singleton] at hrest
      simpa using hrest

/-- `set_dest_mac` writes the destination and clears the three bytes behind it. -/
theorem setDestMac_spec (g : Fin 6 → HexGroup) (old behind rest : List UInt8) (hold : old.length = 6)
    (hbehind : behind.length = 3) :
    setDestMac (String.ofList (macChars (List.ofFn g))) 0 (old ++ (behind ++ rest)) =
      .ok (List.ofFn (fun i => (g i).byte) ++ ([0, 0, 0] ++ rest)) := by
  have h := scanMac_groups (List.ofFn g) (by simp) [] (old ++ behind) rest (by simp [hold, hbehind])
  rw [List.length_ofFn, List.map_ofFn, List.append_assoc] at h
  rw [setDestMac, String.toList_ofList]
  exact h

/-! ## The source and the type -/

/-- One byte. -/
theorem storeBytes_one (as : List UInt8) (x y : UInt8) (bs : List UInt8) {off : Nat} (ho : off = as.length) :
    storeBytes (as ++ x :: bs) off [y] = .ok (as ++ [y] ++ bs) := by
  rw [List.append_assoc]
  exact storeBytes_mid as [x] [y] bs rfl ho

/-- `set_source_mac` on an interface that is up writes its six bytes, whatever they replace. -/
theorem setSourceMac_spec {interface : Interface} (hup : interface.up) (pre old rest : List UInt8) {mac : Nat}
    (hm : mac = pre.length) (hold : old.length = 6) :
    setSourceMac interface mac (pre ++ (old ++ rest)) = .ok (some (pre ++ (List.ofFn interface.saData ++ rest))) := by
  obtain ⟨x₀, x₁, x₂, x₃, x₄, x₅, rfl⟩ : ∃ x₀ x₁ x₂ x₃ x₄ x₅, old = [x₀, x₁, x₂, x₃, x₄, x₅] := by
    match old, hold with
    | [x₀, x₁, x₂, x₃, x₄, x₅], _ => exact ⟨x₀, x₁, x₂, x₃, x₄, x₅, rfl⟩
  subst hm
  rw [setSourceMac, if_neg (by simpa using hup)]
  simp only [List.cons_append, List.nil_append]
  rw [storeBytes_one pre x₀ _ _ rfl, ok_bind, storeBytes_one _ x₁ _ _ (by simp), ok_bind,
    storeBytes_one _ x₂ _ _ (by simp), ok_bind, storeBytes_one _ x₃ _ _ (by simp), ok_bind,
    storeBytes_one _ x₄ _ _ (by simp), ok_bind, storeBytes_one _ x₅ _ _ (by simp), ok_bind]
  simp [List.ofFn_succ]

/-- `htons` puts the high byte first. -/
theorem wordBytes_htons (t : Nat) :
    wordBytes .little 2 (htons .little t) = [.ofNat (t / 256), .ofNat (t % 256)] := by
  have hbytes : wordBytes .little 2 (htons .little t) =
      [.ofNat (htons .little t), .ofNat (htons .little t / 256)] := by
    simp [wordBytes, List.range, List.range.loop]
  have hhi : UInt8.ofNat (htons .little t) = .ofNat (t / 256) := by
    apply UInt8.toNat_inj.mp
    simp only [htons, UInt8.toNat_ofNat']
    omega
  have hlo : htons .little t / 256 = t % 256 := by
    have hlt : t / 256 % 256 < 256 := Nat.mod_lt _ (by decide)
    rw [htons]
    generalize t % 256 = x at *
    omega
  rw [hbytes, hhi, hlo]

/-- Steps 1 to 3 of `main` on an interface that is up: what `set_dest_mac` stores past the destination is overwritten
by the source. -/
theorem initFrame_spec (g : Fin 6 → HexGroup) {interface : Interface} (hup : interface.up) (etherType : Nat) :
    initFrame (String.ofList (macChars (List.ofFn g))) interface etherType =
      .ok (some (List.ofFn (fun i => (g i).byte) ++ List.ofFn interface.saData ++
        ([.ofNat (etherType / 256), .ofNat (etherType % 256)] ++ List.replicate 64 0))) := by
  have hdest := setDestMac_spec g (List.replicate 6 0) [0, 0, 0] (List.replicate 69 0) rfl rfl
  have hset := setSourceMac_spec hup (List.ofFn fun i => (g i).byte) [0, 0, 0, 0, 0, 0]
    ([0, 0] ++ List.replicate 64 0) List.length_ofFn.symm rfl
  have hat : 12 = (List.ofFn (fun i => (g i).byte) ++ List.ofFn interface.saData).length := by
    rw [List.length_append, List.length_ofFn, List.length_ofFn]
  have hstore := storeBytes_mid _ [0, 0] (wordBytes .little 2 (htons .little etherType)) (List.replicate 64 0)
    (by rw [wordBytes_htons]; rfl) hat
  rw [show List.replicate 6 (0 : UInt8) ++ ([0, 0, 0] ++ List.replicate 69 0) = zeroFrame from rfl,
    show ([0, 0, 0] ++ List.replicate 69 0 : List UInt8) = [0, 0, 0, 0, 0, 0] ++ ([0, 0] ++ List.replicate 64 0) from rfl]
    at hdest
  rw [initFrame, hdest, ok_bind, hset, ok_bind]
  simp only [List.append_assoc] at hstore ⊢
  rw [hstore, wordBytes_htons]
  rfl

/-- **The frame `main` builds**: the destination the string spells, the source of the interface, and the type, high byte
first; the rest is still zero. -/
theorem initFrame_header (g : Fin 6 → HexGroup) {interface : Interface} (hup : interface.up) (etherType : Nat) :
    ∃ frame, initFrame (String.ofList (macChars (List.ofFn g))) interface etherType = .ok (some frame) ∧
      frame.take 14 = List.ofFn (fun i => (g i).byte) ++ List.ofFn interface.saData ++
        [.ofNat (etherType / 256), .ofNat (etherType % 256)] ∧
      frame.drop 14 = List.replicate 64 0 := by
  have hlen : (List.ofFn (fun i => (g i).byte) ++ List.ofFn interface.saData ++
      [UInt8.ofNat (etherType / 256), .ofNat (etherType % 256)]).length = 14 := by
    rw [List.length_append, List.length_append, List.length_ofFn, List.length_ofFn]
    rfl
  refine ⟨_, initFrame_spec g hup etherType, ?_, ?_⟩
  · rw [← List.append_assoc]
    exact List.take_left' hlen
  · rw [← List.append_assoc]
    exact List.drop_left' hlen

/-- The multicast address of the comment in `main`. -/
def ssdpMac : Fin 6 → HexGroup :=
  ![⟨'0', '1', rfl, rfl⟩, ⟨'0', '0', rfl, rfl⟩, ⟨'5', 'e', rfl, rfl⟩, ⟨'7', 'f', rfl, rfl⟩, ⟨'f', 'f', rfl, rfl⟩,
    ⟨'f', 'a', rfl, rfl⟩]

/-- With the address of the comments in `set_source_mac`, and the type `ETH_P_LOOPBACK`. -/
theorem initFrame_ssdp :
    ∃ frame, initFrame "01:00:5e:7f:ff:fa" ⟨true, ![0xf8, 0xf4, 0xe3, 0x30, 0x25, 0x1a]⟩ 0x9000 = .ok (some frame) ∧
      frame.take 14 = [0x01, 0x00, 0x5e, 0x7f, 0xff, 0xfa, 0xf8, 0xf4, 0xe3, 0x30, 0x25, 0x1a, 0x90, 0x00] := by
  have hstring : String.ofList (macChars (List.ofFn ssdpMac)) = "01:00:5e:7f:ff:fa" := by decide +kernel
  have hup : (Interface.mk true ![0xf8, 0xf4, 0xe3, 0x30, 0x25, 0x1a]).up := rfl
  obtain ⟨frame, hf, ht, -⟩ := initFrame_header ssdpMac hup 0x9000
  rw [hstring] at hf
  exact ⟨frame, hf, ht.trans (by decide)⟩

/-! ## The other order -/

section Order

variable (g : Fin 6 → HexGroup) {interface : Interface} (hup : interface.up) {d s₀ s₁ rest : List UInt8}
include hup

/-- The destination first: the source replaces what `set_dest_mac` cleared. -/
theorem destFirst_spec (hd : d.length = 6) (h₀ : s₀.length = 3) (h₁ : s₁.length = 3) :
    destFirst (String.ofList (macChars (List.ofFn g))) interface (d ++ (s₀ ++ (s₁ ++ rest))) =
      .ok (some (List.ofFn (fun i => (g i).byte) ++ (List.ofFn interface.saData ++ rest))) := by
  have hset := setSourceMac_spec hup (List.ofFn fun i => (g i).byte) ([0, 0, 0] ++ s₁) rest
    List.length_ofFn.symm (by simp [h₁])
  rw [destFirst, setDestMac_spec g d s₀ _ hd h₀, ok_bind, ← List.append_assoc [0, 0, 0]]
  exact hset

/-- The source first: `set_dest_mac` clears three of its bytes. -/
theorem sourceFirst_spec (hd : d.length = 6) (h₀ : s₀.length = 3) (h₁ : s₁.length = 3) :
    sourceFirst (String.ofList (macChars (List.ofFn g))) interface (d ++ (s₀ ++ (s₁ ++ rest))) =
      .ok (some (List.ofFn (fun i => (g i).byte) ++ ([0, 0, 0] ++ ((List.ofFn interface.saData).drop 3 ++ rest)))) := by
  have hset := setSourceMac_spec hup d (s₀ ++ s₁) rest hd.symm (by simp [h₀, h₁])
  have hcut : List.ofFn interface.saData ++ rest =
      (List.ofFn interface.saData).take 3 ++ ((List.ofFn interface.saData).drop 3 ++ rest) := by
    rw [← List.append_assoc, List.take_append_drop]
  have hdest := setDestMac_spec g d ((List.ofFn interface.saData).take 3) ((List.ofFn interface.saData).drop 3 ++ rest)
    hd (by simp)
  rw [List.append_assoc] at hset
  rw [sourceFirst, hset, ok_bind, hcut]
  simp only [hdest, ok_bind]
  rfl

end Order

/-- **The two initialisers commute** on a frame exactly when the first three bytes of the hardware address are zero:
otherwise `set_dest_mac` after `set_source_mac` takes them away. -/
theorem initialisers_commute_iff (g : Fin 6 → HexGroup) {interface : Interface} (hup : interface.up)
    {frame : List UInt8} (hframe : frame.length = 78) :
    destFirst (String.ofList (macChars (List.ofFn g))) interface frame =
        sourceFirst (String.ofList (macChars (List.ofFn g))) interface frame ↔
      interface.saData 0 = 0 ∧ interface.saData 1 = 0 ∧ interface.saData 2 = 0 := by
  obtain ⟨d, s₀, s₁, rest, rfl, hd, h₀, h₁⟩ : ∃ d s₀ s₁ rest, frame = d ++ (s₀ ++ (s₁ ++ rest)) ∧
      d.length = 6 ∧ s₀.length = 3 ∧ s₁.length = 3 := by
    refine ⟨frame.take 6, (frame.drop 6).take 3, (frame.drop 9).take 3, frame.drop 12, ?_, ?_, ?_, ?_⟩
    · rw [show frame.drop 12 = (frame.drop 9).drop 3 by rw [List.drop_drop], List.take_append_drop,
        show frame.drop 9 = (frame.drop 6).drop 3 by rw [List.drop_drop], List.take_append_drop, List.take_append_drop]
    · simp [hframe]
    · simp [hframe]
    · simp [hframe]
  rw [destFirst_spec g hup hd h₀ h₁, sourceFirst_spec g hup hd h₀ h₁]
  simp [List.ofFn_succ]

/-- A hardware address that starts with three zeros. -/
theorem initialisers_commute_zeros :
    destFirst (String.ofList (macChars (List.ofFn ssdpMac))) ⟨true, ![0, 0, 0, 0x30, 0x25, 0x1a]⟩ zeroFrame =
      sourceFirst (String.ofList (macChars (List.ofFn ssdpMac))) ⟨true, ![0, 0, 0, 0x30, 0x25, 0x1a]⟩ zeroFrame :=
  (initialisers_commute_iff ssdpMac rfl rfl).mpr ⟨rfl, rfl, rfl⟩

/-- The addresses of the comments: the two orders make different frames. -/
theorem initialisers_ssdp_not_commute :
    destFirst "01:00:5e:7f:ff:fa" ⟨true, ![0xf8, 0xf4, 0xe3, 0x30, 0x25, 0x1a]⟩ zeroFrame ≠
      sourceFirst "01:00:5e:7f:ff:fa" ⟨true, ![0xf8, 0xf4, 0xe3, 0x30, 0x25, 0x1a]⟩ zeroFrame := by
  have hstring : String.ofList (macChars (List.ofFn ssdpMac)) = "01:00:5e:7f:ff:fa" := by decide +kernel
  have hup : (Interface.mk true ![0xf8, 0xf4, 0xe3, 0x30, 0x25, 0x1a]).up := rfl
  have hzeros : zeroFrame = List.replicate 6 0 ++ ([0, 0, 0] ++ ([0, 0, 0] ++ List.replicate 66 0)) := rfl
  rw [← hstring, hzeros, destFirst_spec ssdpMac hup rfl rfl rfl, sourceFirst_spec ssdpMac hup rfl rfl rfl]
  simp [List.ofFn_succ]

end SideWork.Multicast
