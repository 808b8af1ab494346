import SideWork.Netlink.RtEntry
import SideWork.Nl80211.PrintSsid

/-!
# Reporting a scan result

`callback_of_get_scan_result` and, in `scan.c`, `callback_dump` are called for every BSS of a scan. The tables that libnl
parses are given, with a slot for every attribute that the callbacks look at: an absent attribute is `NULL`. What a
callback prints is a list of pieces, and a fault stands in the place of the piece it would have given.

The first callback takes the SSID from a fixed place, behind the first two bytes of the information elements, with the
length byte of whatever element stands there as the bound of `snprintf`.

- `getSsid_inside_iff`: when this stays inside the payload and inside `ssid`;
- `getSsid_selects_iff`: when it gives the SSID that `print_ssid` prints;
- `callbacks_present_iff`: when only attributes that are there are read.
-/

namespace SideWork.Nl80211

open Netlink (int32 showString)

/-- An attribute of a parsed table. -/
structure Nla where
  nlaType : Nat
  data : List UInt8

/-- `bss`, as far as the callbacks read it. -/
structure Bss where
  bssid : Option Nla
  frequency : Option Nla
  informationElements : Option Nla
  signalMbm : Option Nla
  beaconInterval : Option Nla
  status : Option Nla
  seenMsAgo : Option Nla

/-- `tb`, as far as the callbacks read it. `NL80211_ATTR_BSS` is there with the table that `nla_parse_nested` makes of it,
or with `none` when that fails. -/
structure Tb where
  ifindex : Option Nla
  ifname : Option Nla
  scanFrequencies : Option Nla
  bss : Option (Option Bss)

/-- What a callback leaves: the counter it keeps, what it has printed, and its answer. -/
structure Report (κ : Type) where
  count : κ
  printed : List (Except Stop String)
  ret : Nat

/-- `NL_OK`. -/
def nlOk : Nat := 0

/-- `NL_SKIP`. -/
def nlSkip : Nat := 1

/-- `NL80211_BSS_STATUS_ASSOCIATED`. -/
def bssStatusAssociated : Nat := 1

/-- `nla_get_u32`. -/
def nlaGetU32 (e : Endian) : Option Nla → Except Stop Nat
  | none => .error .nullDeref
  | some nla => load e nla.data 0 4

/-- `nla_get_u16`. -/
def nlaGetU16 (e : Endian) : Option Nla → Except Stop Nat
  | none => .error .nullDeref
  | some nla => load e nla.data 0 2

/-- `if (slot) ..`, for a branch that prints one piece. -/
def ifPresent (slot : Option Nla) (piece : Nla → Except Stop String) : List (Except Stop String) :=
  match slot with
  | some nla => [piece nla]
  | none => []

/-- `snprintf(dest, size, "%s", src)` into an array of `cap` bytes, with the string it leaves there. It reads up to the NUL
or to the end of what it may write, and writes a NUL behind that. -/
def snprintf (cap size : Nat) (src : List UInt8) : Except Stop (List UInt8) :=
  let shown := (src.take (size - 1)).takeWhile (· ≠ 0)
  if src.length < size - 1 ∧ 0 ∉ src then .error .outOfBounds
  else if cap < shown.length + 1 then .error .outOfBounds
  else .ok shown

/-- The string in `ssid[64]`. -/
def getSsid (ie : List UInt8) : Except Stop (List UInt8) := do
  let len ← loadByte ie 1
  snprintf 64 (len.toNat + 1) (ie.drop 2)

/-- Six bytes as `%02x:%02x:%02x:%02x:%02x:%02x`, and what `mac_addr_n2a` makes of them. -/
def macAddrN2a (bs : List UInt8) : String := ":".intercalate (bs.map fun b => String.ofList (hexByte b))

/-- The channel of a frequency, in the bands the callback knows. -/
def assocChannel (freq : Nat) : Option Nat :=
  if 2412 ≤ freq ∧ freq ≤ 2472 then some ((freq - 2407) / 5)
  else if 5180 ≤ freq ∧ freq ≤ 5240 then some ((freq - 5000) / 5)
  else if 5745 ≤ freq ∧ freq ≤ 5845 then some ((freq - 5000) / 5)
  else none

/-- The pieces of `callback_of_get_scan_result` behind the number of the result. -/
def scanResultPieces (e : Endian) (bss : Bss) : List (Except Stop String) :=
  (ifPresent bss.informationElements fun nla => do
    let ssid ← getSsid nla.data
    return "SSID=" ++ showString (some ssid) ++ ", ") ++
  (ifPresent bss.bssid fun nla => do
    let mac ← loadBytes nla.data 0 6
    return "BSSID=" ++ macAddrN2a mac ++ ", ") ++
  (ifPresent bss.frequency fun nla => do
    let freq ← nlaGetU32 e (some nla)
    let channel := (assocChannel freq).elim "" fun ch => "ch" ++ toString ch ++ ", "
    return toString freq ++ "MHz, " ++ channel) ++
  (ifPresent bss.signalMbm fun nla => do
    let signalLevel := int32 (← nlaGetU32 e (some nla))
    return toString (signalLevel.tdiv 100) ++ "dbm, ") ++
  -- this attribute is read without a test
  [do
    let lastSeen ← nlaGetU32 e bss.seenMsAgo
    return if lastSeen ≠ 0 then "last_seen=" ++ toString lastSeen ++ "ms " else ""] ++
  (ifPresent bss.status fun nla => do
    let status ← nlaGetU32 e (some nla)
    return if status = bssStatusAssociated then "(connected)" else "") ++
  [.ok "\n"]

/-- `IFACE=%s, `. -/
def ifnamePiece (nla : Nla) : Except Stop String := do
  let name ← loadString nla.data 0
  return "IFACE=" ++ showString (some name) ++ ", "

/-- `callback_of_get_scan_result`; the counter is `scan_result_count`. -/
def callbackOfGetScanResult (e : Endian) (count : UInt32) (tb : Tb) : Report UInt32 :=
  let iface := ifPresent tb.ifname ifnamePiece
  match tb.bss with
  | none => ⟨count, iface ++ [.ok "BSS info is missing.\n"], nlSkip⟩
  | some none => ⟨count, iface ++ [.ok "Failed to parse BSS nested nla.\n"], nlSkip⟩
  | some (some bss) => ⟨count + 1, iface ++ [.ok (toString count ++ ". ")] ++ scanResultPieces e bss, nlOk⟩

/-- The pieces of `callback_dump` from `Start printing.` on. -/
def dumpPieces (e : Endian) (bss : Bss) (bssid ie : Nla) : List (Except Stop String) :=
  [do
    let mac ← loadBytes bssid.data 0 6
    return macAddrN2a mac ++ ", ",
  do
    let freq ← nlaGetU32 e bss.frequency
    return toString (int32 freq) ++ " MHz, ",
  do
    let signalLevel := int32 (← nlaGetU32 e bss.signalMbm)
    return toString (signalLevel.tdiv 100) ++ " dbm, ",
  do
    let beaconInterval ← nlaGetU16 e bss.beaconInterval
    return toString beaconInterval ++ " ms, ",
  do
    let ssid ← printSsid (ie.data.length + 1) ie.data ie.data.length
    return String.ofList ssid,
  .ok "\n"]

/-- `NL80211_ATTR_IFINDEX`, with its lengths and its type. -/
def ifindexPiece (e : Endian) (nla : Nla) : Except Stop String := do
  let ifindex ← nlaGetU32 e (some nla)
  return "NL80211_ATTR_IFINDEX: " ++ toString ifindex ++ " (len=" ++ toString nla.data.length ++ " bytes), len=" ++
    toString (nla.data.length + 4) ++ ", type=" ++ toString nla.nlaType ++ "\n"

/-- `NL80211_ATTR_SCAN_FREQUENCIES`. -/
def scanFrequenciesPiece (e : Endian) (nla : Nla) : Except Stop String := do
  let freqs ← nlaGetU32 e (some nla)
  return "NL80211_ATTR_SCAN_FREQUENCIES: " ++ toString freqs ++ ", len=" ++ toString (nla.data.length + 4) ++ ", type=" ++
    toString nla.nlaType ++ "\n"

/-- The status, which the BSS in use has together with a frequency. -/
def statusPiece (e : Endian) (bss : Bss) (nla : Nla) : Except Stop String := do
  let status := int32 (← nlaGetU32 e (some nla))
  if status = bssStatusAssociated ∧ bss.frequency.isSome then
    let assocFreq ← nlaGetU32 e bss.frequency
    return "nl80211: Associated on this channel: " ++ toString assocFreq ++ " MHz\n"
  else return ""

/-- `callback_dump`; the counter is `callback_round`. -/
def callbackDump (e : Endian) (round : Int) (tb : Tb) : Report Int :=
  let started := [do
    let round ← checkedInt (round + 1)
    return "\ncallback_round " ++ toString round ++ "\n"]
  match tb.bss with
  | none => ⟨round + 1, started ++ [.ok "bss info missing!\n"], nlSkip⟩
  | some nested =>
    let attrs := started ++ ifPresent tb.ifindex (ifindexPiece e) ++ ifPresent tb.scanFrequencies (scanFrequenciesPiece e)
    match nested with
    | none => ⟨round + 1, attrs ++ [.ok "failed to parse nested attributes!\n"], nlSkip⟩
    | some bss =>
      match bss.bssid with
      | none => ⟨round + 1, attrs, nlSkip⟩
      | some bssid =>
        let attrs := attrs ++ ifPresent bss.status (statusPiece e bss)
        match bss.informationElements with
        | none => ⟨round + 1, attrs, nlSkip⟩
        | some ie => ⟨round + 1, attrs ++ dumpPieces e bss bssid ie, nlSkip⟩

/-! ## The SSID behind the first two bytes -/

/-- The string of `snprintf`, in terms of the bytes behind the header. -/
theorem getSsid_header (id len : UInt8) (data : List UInt8) : getSsid (id :: len :: data) =
    if data.length < len.toNat ∧ 0 ∉ data then .error .outOfBounds
    else if 64 < ((data.take len.toNat).takeWhile (· ≠ 0)).length + 1 then .error .outOfBounds
    else .ok ((data.take len.toNat).takeWhile (· ≠ 0)) := rfl

/-- A C string in an array is short when the array is, or when its NUL comes early. -/
theorem length_takeWhile_le_iff (bs : List UInt8) (k : Nat) :
    (bs.takeWhile (· ≠ 0)).length ≤ k ↔ bs.length ≤ k ∨ 0 ∈ bs.take (k + 1) := by
  induction bs generalizing k with
  | nil => simp
  | cons b bs ih =>
    by_cases hb : b = 0
    · simp [hb]
    · have h0 : ¬ 0 = b := fun h => hb h.symm
      cases k with
      | zero => simp [hb, h0]
      | succ k => simpa [hb, h0] using ih k

/-- The string and its NUL fit the array. -/
theorem shown_fits_iff {n : Nat} {data : List UInt8} (hin : n ≤ data.length ∨ 0 ∈ data) :
    ¬ 64 < ((data.take n).takeWhile (· ≠ 0)).length + 1 ↔ n ≤ 63 ∨ 0 ∈ data.take 64 := by
  have hshort : ¬ 64 < ((data.take n).takeWhile (· ≠ 0)).length + 1 ↔
      (data.take n).length ≤ 63 ∨ 0 ∈ (data.take n).take 64 := by
    rw [← length_takeWhile_le_iff]
    omega
  rw [hshort, List.take_take, List.length_take]
  by_cases hn : n ≤ 63
  · exact iff_of_true (Or.inl (by omega)) (Or.inl hn)
  · rw [Nat.min_eq_left (by omega : 64 ≤ n)]
    constructor
    · rintro (hlen | hnul)
      · -- fewer than 64 bytes are there, and so all of them are looked at
        have hle : data.length ≤ 64 := by omega
        rw [List.take_of_length_le hle]
        exact Or.inr (hin.resolve_left (by omega))
      · exact Or.inr hnul
    · exact fun h => Or.inr (h.resolve_left hn)

/-- **The payload and the array.** `callback_of_get_scan_result` stays inside both exactly when there is a length byte, the
data it announces are there or a NUL stands among them, and they leave room for a NUL or hold one early enough. -/
theorem getSsid_inside_iff (ie : List UInt8) : SafeIff (getSsid ie) (∃ id len data, ie = id :: len :: data ∧
    (len.toNat ≤ data.length ∨ 0 ∈ data) ∧ (len.toNat ≤ 63 ∨ 0 ∈ data.take 64)) := by
  match ie with
  | [] => exact ⟨by simp, fun _ => rfl⟩
  | [_] => exact ⟨by simp, fun _ => rfl⟩
  | i :: n :: bs =>
    have hcond : (∃ id len data, i :: n :: bs = id :: len :: data ∧ (len.toNat ≤ data.length ∨ 0 ∈ data) ∧
        (len.toNat ≤ 63 ∨ 0 ∈ data.take 64)) ↔
        (n.toNat ≤ bs.length ∨ 0 ∈ bs) ∧ (n.toNat ≤ 63 ∨ 0 ∈ bs.take 64) := by
      constructor
      · rintro ⟨_, _, _, ⟨rfl, rfl, rfl⟩, h⟩
        exact h
      · exact fun h => ⟨i, n, bs, rfl, h⟩
    rw [hcond, getSsid_header]
    by_cases hin : n.toNat ≤ bs.length ∨ 0 ∈ bs
    · have hread : ¬ (bs.length < n.toNat ∧ 0 ∉ bs) := by
        rintro ⟨hlt, hnul⟩
        exact hin.elim (by omega) hnul
      rw [if_neg hread]
      by_cases hfits : n.toNat ≤ 63 ∨ 0 ∈ bs.take 64
      · rw [if_neg ((shown_fits_iff hin).mpr hfits)]
        exact safeIff_ok _ ⟨hin, hfits⟩
      · rw [if_pos (not_not.mp fun h => hfits ((shown_fits_iff hin).mp h))]
        exact ⟨fun h => absurd h.2 hfits, fun _ => rfl⟩
    · obtain ⟨hlt, hnul⟩ := not_or.mp hin
      rw [if_pos ⟨by omega, hnul⟩]
      exact ⟨fun h => absurd h.1 hin, fun _ => rfl⟩

/-- A payload that ends behind the id, and an element of 64 bytes whose NUL would be the 65th of the array. -/
theorem getSsid_outside : getSsid [0] = .error .outOfBounds ∧
    getSsid (0 :: 64 :: List.replicate 64 97) = .error .outOfBounds := by
  refine ⟨(getSsid_inside_iff [0]).2 (by simp), (getSsid_inside_iff _).2 ?_⟩
  rintro ⟨_, _, _, ⟨rfl, rfl, rfl⟩, -, h | h⟩
  · exact absurd h (by decide)
  · have hnul := List.eq_of_mem_replicate (List.mem_of_mem_take h)
    exact absurd hnul (by decide)

/-! ## The SSID that is selected -/

/-- An SSID without a NUL. -/
def IsNamed (x : Element) : Prop := IsSsid x ∧ 0 ∉ x.data

instance : DecidablePred IsNamed := fun x => inferInstanceAs (Decidable (IsSsid x ∧ 0 ∉ x.data))

/-- On a block of complete elements, the string is the data of the first element up to its first NUL. -/
theorem getSsid_block (x : Element) (xs : List Element) : getSsid (block (x :: xs)) =
    if 64 < (x.data.takeWhile (· ≠ 0)).length + 1 then .error .outOfBounds else .ok (x.data.takeWhile (· ≠ 0)) := by
  have hblock : block (x :: xs) = x.id :: .ofNat x.data.length :: (x.data ++ block xs) := rfl
  have hin : ¬ (x.data ++ block xs).length < x.data.length := by
    rw [List.length_append]
    omega
  rw [hblock, getSsid_header, x.length_toNat, if_neg fun h => hin h.1, List.take_left]

theorem getSsid_eq_iff {x : Element} {xs : List Element} {name : List UInt8} (hname : name.length ≤ 32) :
    getSsid (block (x :: xs)) = .ok name ↔ x.data.takeWhile (· ≠ 0) = name := by
  rw [getSsid_block]
  constructor
  · intro h
    split at h
    · cases h
    · exact Except.ok.inj h
  · rintro rfl
    rw [if_neg (by omega)]

/-- `print_ssid` prints the SSID that a block holds first without a NUL, unless one with a NUL stands before it. -/
theorem printSsid_eq_iff {xs : List Element} {w : Element} (hw : xs.find? IsNamed = some w) :
    Ends (fun fuel => printSsid fuel (block xs) (block xs).length) (.ok (escapeData w.data)) ↔
      ∀ x, xs.find? IsSsid = some x → 0 ∉ x.data := by
  have hnamed : IsNamed w := by simpa using List.find?_some hw
  have hsome : (xs.find? IsSsid).isSome :=
    List.find?_isSome.mpr ⟨w, List.mem_of_find?_eq_some hw, by simpa using hnamed.1⟩
  obtain ⟨x, hx⟩ := Option.isSome_iff_exists.mp hsome
  have hprint : Ends (fun fuel => printSsid fuel (block xs) (block xs).length) (.ok (escapeData x.data)) := by
    have hblock := ends_of_lt _ (printSsid_block xs)
    rwa [hx] at hblock
  constructor
  · intro h x' hx'
    obtain rfl : x = x' := Option.some_inj.mp (hx.symm.trans hx')
    have hdata : x.data = w.data := escapeData_injective (Except.ok.inj (hprint.unique h))
    rw [hdata]
    exact hnamed.2
  · intro h
    -- the first SSID has no NUL, and so it is the first one without a NUL
    obtain ⟨hssid, as, bs, rfl, has⟩ := List.find?_eq_some_iff_append.mp hx
    have hfirst : (as ++ x :: bs).find? IsNamed = some x := by
      have hx' : IsNamed x := ⟨by simpa using hssid, h x hx⟩
      refine List.find?_eq_some_iff_append.mpr ⟨by simpa using hx', as, bs, rfl, fun a ha => ?_⟩
      have hnot : ¬ IsSsid a := by simpa using has a ha
      simpa using fun hn : IsNamed a => hnot hn.1
    obtain rfl : x = w := Option.some_inj.mp (hfirst.symm.trans hw)
    exact hprint

/-- **Two ways to the SSID.** -/
theorem getSsid_selects_iff (xs : List Element) (w : Element) (hw : xs.find? IsNamed = some w) :
    (getSsid (block xs) = .ok w.data ∧
      Ends (fun fuel => printSsid fuel (block xs) (block xs).length) (.ok (escapeData w.data))) ↔
    (∀ x, xs.head? = some x → x.data.takeWhile (· ≠ 0) = w.data) ∧ ∀ x, xs.find? IsSsid = some x → 0 ∉ x.data := by
  rw [printSsid_eq_iff hw]
  refine and_congr_left fun _ => ?_
  cases xs with
  | nil => cases hw
  | cons x xs =>
    have h32 : w.data.length ≤ 32 := by
      have hnamed : IsNamed w := by simpa using List.find?_some hw
      exact hnamed.1.2
    rw [getSsid_eq_iff h32]
    simp

/-- The SSID of a block that starts with it. -/
def firstSsid : List Element := [⟨0, [97, 98], by decide⟩, ⟨1, [2, 4], by decide⟩]

theorem getSsid_firstSsid : firstSsid.find? IsNamed = some ⟨0, [97, 98], by decide⟩ ∧
    getSsid (block firstSsid) = .ok [97, 98] := by
  have hw : firstSsid.find? IsNamed = some ⟨0, [97, 98], by decide⟩ := by decide
  exact ⟨hw, ((getSsid_selects_iff firstSsid _ hw).mpr (by decide)).1⟩

/-- Where the rates come first, they are taken for the SSID. -/
theorem getSsid_ratesFirst : firstSsid.reverse.find? IsNamed = some ⟨0, [97, 98], by decide⟩ ∧
    getSsid (block firstSsid.reverse) = .ok [2, 4] := by decide

/-! ## Attributes that are not there -/

variable {e : Endian} {bss : Bss}

theorem nlaGetU32_ne (nla : Nla) : nlaGetU32 e (some nla) ≠ .error .nullDeref := load_ne_error nofun

/-- Reading an attribute without a test. -/
theorem nlaGetU32_ne_iff (slot : Option Nla) : nlaGetU32 e slot ≠ .error .nullDeref ↔ slot.isSome := by
  cases slot with
  | none => simp [nlaGetU32]
  | some nla => simp [nlaGetU32_ne]

theorem nlaGetU16_ne_iff (slot : Option Nla) : nlaGetU16 e slot ≠ .error .nullDeref ↔ slot.isSome := by
  cases slot with
  | none => simp [nlaGetU16]
  | some nla => exact ⟨fun _ => rfl, fun _ => load_ne_error nofun⟩

/-- What is printed holds no read of an absent attribute. -/
def Free (pieces : List (Except Stop String)) : Prop := .error .nullDeref ∉ pieces

theorem free_append {ps qs : List (Except Stop String)} : Free (ps ++ qs) ↔ Free ps ∧ Free qs := by
  rw [Free, List.mem_append, not_or]
  rfl

theorem free_cons {p : Except Stop String} {ps : List (Except Stop String)} :
    Free (p :: ps) ↔ p ≠ .error .nullDeref ∧ Free ps := by
  rw [Free, List.mem_cons, not_or, ne_comm]
  rfl

theorem free_nil : Free [] := List.not_mem_nil

/-- A piece that prints what it has read. -/
theorem bind_return_ne_iff {α β : Type} {x : Except Stop α} (f : α → β) :
    (do let a ← x; return f a) ≠ .error .nullDeref ↔ x ≠ .error .nullDeref := by
  cases x <;> simp

/-- A tested piece. -/
theorem free_ifPresent {slot : Option Nla} {piece : Nla → Except Stop String}
    (h : ∀ nla, piece nla ≠ .error .nullDeref) : Free (ifPresent slot piece) := by
  cases slot with
  | none => exact free_nil
  | some nla => exact free_cons.mpr ⟨h nla, free_nil⟩

theorem getSsid_ne_nullDeref (ie : List UInt8) : getSsid ie ≠ .error .nullDeref := by
  refine bind_ne_error (loadByte_ne_error nofun) fun len => ?_
  simp only [snprintf]
  split
  · nofun
  · split <;> nofun

/-- Only `NL80211_BSS_SEEN_MS_AGO` is read without a test. -/
theorem free_scanResultPieces : Free (scanResultPieces e bss) ↔ bss.seenMsAgo.isSome := by
  simp only [scanResultPieces, free_append, free_cons, free_nil, and_true, bind_return_ne_iff, nlaGetU32_ne_iff]
  constructor
  · rintro ⟨⟨⟨-, hseen⟩, -⟩, -⟩
    exact hseen
  · intro hseen
    refine ⟨⟨⟨⟨⟨⟨?_, ?_⟩, ?_⟩, ?_⟩, hseen⟩, ?_⟩, nofun⟩
    · exact free_ifPresent fun nla => bind_ne_error (getSsid_ne_nullDeref _) fun _ => nofun
    · exact free_ifPresent fun nla => bind_ne_error (loadBytes_ne_error nofun) fun _ => nofun
    · exact free_ifPresent fun nla => bind_ne_error (nlaGetU32_ne nla) fun _ => nofun
    · exact free_ifPresent fun nla => bind_ne_error (nlaGetU32_ne nla) fun _ => nofun
    · exact free_ifPresent fun nla => bind_ne_error (nlaGetU32_ne nla) fun _ => nofun

/-- From `Start printing.` on, three attributes are read without a test. -/
theorem free_dumpPieces (bssid ie : Nla) : Free (dumpPieces e bss bssid ie) ↔
    bss.frequency.isSome ∧ bss.signalMbm.isSome ∧ bss.beaconInterval.isSome := by
  simp only [dumpPieces, free_cons, free_nil, and_true, bind_return_ne_iff, nlaGetU32_ne_iff, nlaGetU16_ne_iff]
  constructor
  · rintro ⟨-, hfreq, hsignal, hbeacon, -⟩
    exact ⟨hfreq, hsignal, hbeacon⟩
  · rintro ⟨hfreq, hsignal, hbeacon⟩
    exact ⟨loadBytes_ne_error nofun, hfreq, hsignal, hbeacon, printSsid_ne_error (by decide) (by decide) _ _ _, nofun⟩

theorem free_ok (text : String) : Free [.ok text] := free_cons.mpr ⟨nofun, free_nil⟩

/-- `NL80211_BSS_SEEN_MS_AGO` has to be there in every BSS that has been parsed. -/
theorem free_callbackOfGetScanResult (e : Endian) (count : UInt32) (tb : Tb) :
    Free (callbackOfGetScanResult e count tb).printed ↔
      ∀ bss, tb.bss = some (some bss) → bss.seenMsAgo.isSome := by
  have hiface : Free (ifPresent tb.ifname ifnamePiece) :=
    free_ifPresent fun nla => bind_ne_error (loadString_ne_error nofun) fun _ => nofun
  unfold callbackOfGetScanResult
  match tb.bss with
  | none => exact iff_of_true (free_append.mpr ⟨hiface, free_ok _⟩) nofun
  | some none => exact iff_of_true (free_append.mpr ⟨hiface, free_ok _⟩) nofun
  | some (some bss) =>
    simp only [free_append, hiface, free_ok, true_and, free_scanResultPieces]
    simp

theorem statusPiece_ne (nla : Nla) : statusPiece e bss nla ≠ .error .nullDeref := by
  refine bind_ne_error (nlaGetU32_ne nla) fun status => ?_
  dsimp only
  split
  · rename_i hfreq
    exact bind_ne_error ((nlaGetU32_ne_iff bss.frequency).mpr hfreq.2) fun _ => nofun
  · nofun

/-- The three attributes have to be there in every BSS with a BSSID and information elements. -/
theorem free_callbackDump (e : Endian) (round : Int) (tb : Tb) :
    Free (callbackDump e round tb).printed ↔ ∀ bss, tb.bss = some (some bss) → bss.bssid.isSome →
      bss.informationElements.isSome → bss.frequency.isSome ∧ bss.signalMbm.isSome ∧ bss.beaconInterval.isSome := by
  have hround : checkedInt (round + 1) ≠ .error .nullDeref := by
    unfold checkedInt
    split <;> nofun
  have hstarted : Free [do
      let round ← checkedInt (round + 1)
      return "\ncallback_round " ++ toString round ++ "\n"] :=
    free_cons.mpr ⟨bind_ne_error hround fun _ => nofun, free_nil⟩
  have hifindex : Free (ifPresent tb.ifindex (ifindexPiece e)) :=
    free_ifPresent fun nla => bind_ne_error (nlaGetU32_ne nla) fun _ => nofun
  have hfreqs : Free (ifPresent tb.scanFrequencies (scanFrequenciesPiece e)) :=
    free_ifPresent fun nla => bind_ne_error (nlaGetU32_ne nla) fun _ => nofun
  have hattrs := free_append.mpr ⟨free_append.mpr ⟨hstarted, hifindex⟩, hfreqs⟩
  unfold callbackDump
  match tb.bss with
  | none => exact iff_of_true (free_append.mpr ⟨hstarted, free_ok _⟩) nofun
  | some none => exact iff_of_true (free_append.mpr ⟨hattrs, free_ok _⟩) nofun
  | some (some bss) =>
    have hstatus : Free (ifPresent bss.status (statusPiece e bss)) := free_ifPresent statusPiece_ne
    have hall := free_append.mpr ⟨hattrs, hstatus⟩
    have hbss : (∀ bss', some (some bss) = some (some bss') → bss'.bssid.isSome → bss'.informationElements.isSome →
        bss'.frequency.isSome ∧ bss'.signalMbm.isSome ∧ bss'.beaconInterval.isSome) ↔
        (bss.bssid.isSome → bss.informationElements.isSome →
          bss.frequency.isSome ∧ bss.signalMbm.isSome ∧ bss.beaconInterval.isSome) := by simp
    rw [hbss]
    dsimp only
    cases bss.bssid with
    | none => exact iff_of_true hattrs nofun
    | some bssid =>
      cases bss.informationElements with
      | none => exact iff_of_true hall fun _ => nofun
      | some ie =>
        constructor
        · exact fun h _ _ => (free_dumpPieces bssid ie).mp (free_append.mp h).2
        · exact fun h => free_append.mpr ⟨hall, (free_dumpPieces bssid ie).mpr (h rfl rfl)⟩

/-- **Absent attributes.** When the callbacks read only attributes that are there. -/
theorem callbacks_present_iff (e : Endian) (count : UInt32) (round : Int) (tb : Tb) :
    (.error .nullDeref ∉ (callbackOfGetScanResult e count tb).printed ↔
      ∀ bss, tb.bss = some (some bss) → bss.seenMsAgo.isSome) ∧
    (.error .nullDeref ∉ (callbackDump e round tb).printed ↔ ∀ bss, tb.bss = some (some bss) → bss.bssid.isSome →
      bss.informationElements.isSome → bss.frequency.isSome ∧ bss.signalMbm.isSome ∧ bss.beaconInterval.isSome) :=
  ⟨free_callbackOfGetScanResult e count tb, free_callbackDump e round tb⟩

/-- A BSS with a BSSID and information elements and nothing else. -/
def bareBss : Tb :=
  ⟨none, none, none, some (some ⟨some ⟨1, [2, 0, 0, 0, 0, 1]⟩, none, some ⟨6, [0, 1, 97]⟩, none, none, none, none⟩)⟩

/-- Both callbacks dereference `NULL` on it. -/
theorem bareBss_not_present : .error .nullDeref ∈ (callbackOfGetScanResult .little 1 bareBss).printed ∧
    .error .nullDeref ∈ (callbackDump .little 0 bareBss).printed := by
  obtain ⟨hresult, hdump⟩ := callbacks_present_iff .little 1 0 bareBss
  constructor
  · by_contra h
    simpa [bareBss] using hresult.mp h
  · by_contra h
    simpa [bareBss] using hdump.mp h

end SideWork.Nl80211
