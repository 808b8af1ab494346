import SideWork.Netlink.RtAttr

/-!
# Printing one netlink message

`parse_route_entry`, `parse_addr_entry` and `parse_link_entry` hand `nlmsg_len`, the length of the whole message, to the
attribute walk, which starts behind the netlink header and the fixed part of the message: the walk goes on for 28, 24 or
32 bytes behind the message.

- `parseRouteEntry_safeIff` and its siblings: when the entry parsers stay inside a buffer;
- `extends_parseRouteEntry` and its siblings: more bytes behind a run that stays inside change nothing;
- `entries_local_iff`: what is printed depends on the message alone exactly when everything the parser reads lies inside
  it.
-/

namespace SideWork.Netlink

/-- The table sizes of the kernel headers, which grow from version to version. -/
structure Uapi where
  rtaMax : Nat
  ifaMax : Nat
  iflaMax : Nat
  rtaTable_le : 15 ≤ rtaMax
  ifaLabel_le : 3 ≤ ifaMax
  ifa_lt_rta : ifaMax < rtaMax
  rta_lt_ifla : rtaMax < iflaMax

def rtTableMain : Nat := 254

def rtaDst : Nat := 1
def rtaOif : Nat := 4
def rtaGateway : Nat := 5
def rtaPrefsrc : Nat := 7
def rtaTable : Nat := 15
def ifaLocal : Nat := 2
def iflaIfname : Nat := 3

def iffUp : Nat := 0x1
def iffRunning : Nat := 0x40

/-- An unsigned 32 bit word as an `int`. -/
def int32 (w : Nat) : Int := if w < 2 ^ 31 then w else w - 2 ^ 32

/-- `inet_ntop(AF_INET, ..)` of four bytes. -/
def inetNtop (bs : List UInt8) : String := ".".intercalate (bs.map fun b => toString b.toNat)

/-- `%-ns`. -/
def padRight (n : Nat) (s : String) : String := s ++ String.ofList (List.replicate (n - s.length) ' ')

/-- A C string as `printf` shows it. -/
def showString : Option (List UInt8) → String
  | none => "(null)"
  | some bs => String.ofList (bs.map fun b => Char.ofNat b.toNat)

/-- The four bytes at `RTA_DATA` of the attribute a slot points to. -/
def rtaData (buf : List UInt8) : Option Nat → Except Stop (Option (List UInt8))
  | none => return none
  | some rta => do
    let bs ← loadBytes buf (rta + 4) 4
    return some bs

/-- The string at `RTA_DATA` of the attribute a slot points to. -/
def rtaString (buf : List UInt8) : Option Nat → Except Stop (Option (List UInt8))
  | none => return none
  | some rta => do
    let bs ← loadString buf (rta + 4)
    return some bs

/-- `parse_route_entry`: the line it prints, if it prints one. `nlmsg_len` is the first word of the header,
`struct rtmsg` has 12 bytes with `rtm_table` at 4. -/
def parseRouteEntry (u : Uapi) (e : Endian) (buf : List UInt8) : Except Stop (Option String) := do
  let nlmsgLen ← load e buf 0 4
  let len := int32 nlmsgLen
  let tb := (declare (u.rtaMax + 1)).memset (u.rtaMax + 1)
  let rtmTable ← load e buf (16 + 4) 1
  if rtmTable = rtTableMain then
    let tb ← parseRouteAttributes e buf tb u.rtaMax (16 + 12) len
    let table ← rtaData buf (← tb.read rtaTable)
    let gw ← rtaData buf (← tb.read rtaGateway)
    let dst ← rtaData buf (← tb.read rtaDst)
    let oif ← rtaData buf (← tb.read rtaOif)
    let prefsrc ← rtaData buf (← tb.read rtaPrefsrc)
    let int := fun (bs : Option (List UInt8)) => padRight 5 (toString (bs.elim 0 fun bs => int32 (word e bs)))
    let addr := fun (n : Nat) (bs : Option (List UInt8)) => padRight n (bs.elim "" inetNtop)
    return some ("table=" ++ int table ++ ", dst=" ++ addr 15 dst ++ ", gw=" ++ addr 15 gw ++ ", oif=" ++ int oif ++
      ", prefsrc=" ++ addr 10 prefsrc ++ "\n")
  else return none

/-- `parse_addr_entry`: `struct ifaddrmsg` has 8 bytes, `struct ifinfomsg` 16; both tables are cleared up to
`RTA_MAX`. -/
def parseAddrEntry (u : Uapi) (e : Endian) (buf : List UInt8) : Except Stop String := do
  let nlmsgLen ← load e buf 0 4
  let len := int32 nlmsgLen
  let tba := (declare (u.ifaMax + 1)).memset (u.rtaMax + 1)
  let tba ← parseAddrAttributes e buf tba u.ifaMax (16 + 8) len
  let ifaddr ← rtaData buf (← tba.read ifaLocal)
  let tb := (declare (u.iflaMax + 1)).memset (u.rtaMax + 1)
  let tb ← parseAddrAttributes e buf tb u.iflaMax (16 + 16) len
  let ifname ← rtaString buf (← tb.read iflaIfname)
  return "interface=" ++ padRight 10 (showString ifname) ++ " IP=" ++ padRight 15 (ifaddr.elim "" inetNtop) ++ "\n"

/-- `parse_link_entry`: in `struct ifinfomsg`, `ifi_index` stands at 4 and `ifi_flags` at 8. -/
def parseLinkEntry (u : Uapi) (e : Endian) (buf : List UInt8) : Except Stop String := do
  let nlmsgLen ← load e buf 0 4
  let len := int32 nlmsgLen
  let tb := (declare (u.iflaMax + 1)).memset (u.rtaMax + 1)
  let tb ← parseLinkAttributes e buf tb u.iflaMax (16 + 16) len
  let ifname ← tb.read iflaIfname
  let ifiFlags ← load e buf (16 + 8) 4
  let state := if ifiFlags &&& iffUp ≠ 0 then "UP" else "DOWN"
  let running := if ifiFlags &&& iffRunning ≠ 0 then "RUNNING" else "NOT RUNNING"
  let ifiIndex ← load e buf (16 + 4) 4
  let ifname ← rtaString buf ifname
  return "Interface" ++ toString (int32 ifiIndex) ++ "=" ++ padRight 10 (showString ifname) ++ " state=" ++
    padRight 5 state ++ " running=" ++ padRight 10 running ++ "\n"

/-! ## When the parsers stay inside their buffer -/

variable {u : Uapi} {e : Endian} {buf : List UInt8}

/-- The four payload bytes of the last attribute of type `t` lie inside the buffer. -/
def DataInside (buf : List UInt8) (as : List Attr) (t : Nat) : Prop :=
  ∀ rta, lastOf t as = some rta → rta + 8 ≤ buf.length

/-- The string of the last attribute of type `t` ends inside the buffer. -/
def StringInside (buf : List UInt8) (as : List Attr) (t : Nat) : Prop :=
  ∀ rta, lastOf t as = some rta → 0 ∈ buf.drop (rta + 4)

theorem safeIff_rtaData (as : List Attr) (t : Nat) : SafeIff (rtaData buf (lastOf t as)) (DataInside buf as t) := by
  unfold DataInside
  cases lastOf t as with
  | none => exact safeIff_ok none fun rta h => nomatch h
  | some rta =>
    refine (safeIff_loadBytes.bind fun bs _ => safeIff_ok (some bs) trivial).congr ?_
    rw [and_true]
    exact ⟨fun h _ hr => Option.some_inj.mp hr ▸ h, fun h => h rta rfl⟩

theorem safeIff_rtaString (as : List Attr) (t : Nat) :
    SafeIff (rtaString buf (lastOf t as)) (StringInside buf as t) := by
  unfold StringInside
  cases lastOf t as with
  | none => exact safeIff_ok none fun rta h => nomatch h
  | some rta =>
    refine (safeIff_loadString.bind fun bs _ => safeIff_ok (some bs) trivial).congr ?_
    rw [and_true]
    exact ⟨fun h _ hr => Option.some_inj.mp hr ▸ h, fun h => h rta rfl⟩

/-- The attribute walk, and what follows it. -/
theorem safeIff_walk {α : Type} {tb : Table} {max pos : Nat} {len : Int} {f : Table → Except Stop α}
    {Q : List Attr → Prop} (hf : ∀ as, Walk e buf pos len as → SafeIff (f (enter max tb as)) (Q as)) :
    SafeIff (parseAttributes e buf tb max pos len >>= f) (∃ as, Walk e buf pos len as ∧ Q as) := by
  by_cases h : ∃ as, Walk e buf pos len as
  · obtain ⟨as, has⟩ := h
    rw [parseAttributes_of_walk has, ok_bind]
    refine (hf as has).congr ⟨fun hQ => ⟨as, has, hQ⟩, ?_⟩
    rintro ⟨as', has', hQ⟩
    rwa [walk_unique has has']
  · rw [parseAttributes_outside h]
    refine ⟨fun hQ => ?_, fun _ => rfl⟩
    obtain ⟨as, has, _⟩ := hQ
    exact absurd ⟨as, has⟩ h

/-- What `parse_route_entry` reads of a message of `len` bytes lies inside the buffer. -/
def RouteInside (e : Endian) (buf : List UInt8) (len : Int) : Prop :=
  21 ≤ buf.length ∧ (word e ((buf.drop 20).take 1) = rtTableMain → ∃ as, Walk e buf 28 len as ∧
    ∀ t ∈ [rtaTable, rtaGateway, rtaDst, rtaOif, rtaPrefsrc], DataInside buf as t)

/-- What `parse_addr_entry` reads of a message of `len` bytes lies inside the buffer. -/
def AddrInside (e : Endian) (buf : List UInt8) (len : Int) : Prop :=
  (∃ as, Walk e buf 24 len as ∧ DataInside buf as ifaLocal) ∧
    ∃ as, Walk e buf 32 len as ∧ StringInside buf as iflaIfname

/-- What `parse_link_entry` reads of a message of `len` bytes lies inside the buffer. -/
def LinkInside (e : Endian) (buf : List UInt8) (len : Int) : Prop :=
  28 ≤ buf.length ∧ ∃ as, Walk e buf 32 len as ∧ StringInside buf as iflaIfname

variable {nlmsgLen : Nat}

theorem parseRouteEntry_safeIff (h : load e buf 0 4 = .ok nlmsgLen) :
    SafeIff (parseRouteEntry u e buf) (RouteInside e buf (int32 nlmsgLen)) := by
  have hmax := u.rtaTable_le
  unfold parseRouteEntry RouteInside
  rw [h, ok_bind]
  refine SafeIff.bind safeIff_load fun rtmTable hload => ?_
  rw [← word_of_load hload]
  by_cases hmain : rtmTable = rtTableMain
  · rw [if_pos hmain]
    refine (safeIff_walk fun as _ => ?_).congr ⟨fun h _ => h, fun h => h hmain⟩
    simp only [List.forall_mem_cons]
    have hread : ∀ t ≤ 15, (enter u.rtaMax ((declare (u.rtaMax + 1)).memset (u.rtaMax + 1)) as).read t =
        .ok (lastOf t as) := fun t ht => read_entered (by omega) (by omega) (by omega) as
    rw [hread rtaTable (by decide), hread rtaGateway (by decide), hread rtaDst (by decide), hread rtaOif (by decide),
      hread rtaPrefsrc (by decide)]
    simp only [ok_bind]
    refine (safeIff_rtaData as rtaTable).bind fun table _ => ?_
    refine (safeIff_rtaData as rtaGateway).bind fun gw _ => ?_
    refine (safeIff_rtaData as rtaDst).bind fun dst _ => ?_
    refine (safeIff_rtaData as rtaOif).bind fun oif _ => ?_
    refine (safeIff_rtaData as rtaPrefsrc).bind fun prefsrc _ => ?_
    exact safeIff_ok _ (by simp)
  · rw [if_neg hmain]
    exact safeIff_ok none fun hm => absurd hm hmain

/-- The slots of the address and of the name are among those that `memset` clears. -/
theorem read_local (u : Uapi) (as : List Attr) :
    (enter u.ifaMax ((declare (u.ifaMax + 1)).memset (u.rtaMax + 1)) as).read ifaLocal = .ok (lastOf ifaLocal as) := by
  have h₁ := u.ifaLabel_le
  have h₂ := u.ifa_lt_rta
  unfold ifaLocal
  exact read_entered (by omega) (by omega) (by omega) as

theorem read_ifname (u : Uapi) (as : List Attr) :
    (enter u.iflaMax ((declare (u.iflaMax + 1)).memset (u.rtaMax + 1)) as).read iflaIfname =
      .ok (lastOf iflaIfname as) := by
  have h₁ := u.rtaTable_le
  have h₂ := u.rta_lt_ifla
  unfold iflaIfname
  exact read_entered (by omega) (by omega) (by omega) as

theorem parseAddrEntry_safeIff (h : load e buf 0 4 = .ok nlmsgLen) :
    SafeIff (parseAddrEntry u e buf) (AddrInside e buf (int32 nlmsgLen)) := by
  unfold parseAddrEntry AddrInside
  rw [h, ok_bind]
  refine SafeIff.congr (P := ∃ as, Walk e buf 24 (int32 nlmsgLen) as ∧ DataInside buf as ifaLocal ∧
    ∃ as, Walk e buf 32 (int32 nlmsgLen) as ∧ StringInside buf as iflaIfname) ?_ ?_
  · refine safeIff_walk fun as _ => ?_
    rw [read_local, ok_bind]
    refine (safeIff_rtaData as ifaLocal).bind fun ifaddr _ => safeIff_walk fun as' _ => ?_
    rw [read_ifname, ok_bind]
    refine ((safeIff_rtaString as' iflaIfname).bind fun name _ => safeIff_ok _ trivial).congr ?_
    rw [and_true]
  · constructor
    · rintro ⟨as, has, hdata, hrest⟩
      exact ⟨⟨as, has, hdata⟩, hrest⟩
    · rintro ⟨⟨as, has, hdata⟩, hrest⟩
      exact ⟨as, has, hdata, hrest⟩

theorem parseLinkEntry_safeIff (h : load e buf 0 4 = .ok nlmsgLen) :
    SafeIff (parseLinkEntry u e buf) (LinkInside e buf (int32 nlmsgLen)) := by
  unfold parseLinkEntry LinkInside
  rw [h, ok_bind]
  refine (safeIff_walk (Q := fun as => 28 ≤ buf.length ∧ StringInside buf as iflaIfname) fun as _ => ?_).congr ?_
  · rw [read_ifname, ok_bind]
    refine (SafeIff.bind safeIff_load fun flags _ => SafeIff.bind safeIff_load fun index _ =>
      (safeIff_rtaString as iflaIfname).bind fun name _ => safeIff_ok _ trivial).congr ?_
    constructor
    · rintro ⟨h, _, hs, _⟩
      exact ⟨h, hs⟩
    · rintro ⟨h, hs⟩
      exact ⟨h, by omega, hs, trivial⟩
  · constructor
    · rintro ⟨as, has, hlen, hs⟩
      exact ⟨hlen, as, has, hs⟩
    · rintro ⟨hlen, as, has, hs⟩
      exact ⟨as, has, hlen, hs⟩

/-! ## More bytes behind -/

section Extends

variable (u e buf) (rest : List UInt8)

theorem extends_rtaData (slot : Option Nat) : Extends (rtaData buf slot) (rtaData (buf ++ rest) slot) := by
  cases slot with
  | none => exact Extends.refl _
  | some rta => exact Extends.bind (extends_loadBytes rest) fun _ => Extends.refl _

theorem extends_rtaString (slot : Option Nat) : Extends (rtaString buf slot) (rtaString (buf ++ rest) slot) := by
  cases slot with
  | none => exact Extends.refl _
  | some rta => exact Extends.bind (extends_loadString rest) fun _ => Extends.refl _

theorem extends_parseRouteEntry : Extends (parseRouteEntry u e buf) (parseRouteEntry u e (buf ++ rest)) := by
  refine Extends.bind (extends_load rest) fun nlmsgLen => ?_
  refine Extends.bind (extends_load rest) fun rtmTable => Extends.ite ?_ (Extends.refl _)
  refine Extends.bind (extends_parseAttributes _ _ _ _ rest) fun tb => ?_
  refine Extends.bind (Extends.refl _) fun slot => Extends.bind (extends_rtaData buf rest slot) fun table => ?_
  refine Extends.bind (Extends.refl _) fun slot => Extends.bind (extends_rtaData buf rest slot) fun gw => ?_
  refine Extends.bind (Extends.refl _) fun slot => Extends.bind (extends_rtaData buf rest slot) fun dst => ?_
  refine Extends.bind (Extends.refl _) fun slot => Extends.bind (extends_rtaData buf rest slot) fun oif => ?_
  refine Extends.bind (Extends.refl _) fun slot => Extends.bind (extends_rtaData buf rest slot) fun prefsrc => ?_
  exact Extends.refl _

theorem extends_parseAddrEntry : Extends (parseAddrEntry u e buf) (parseAddrEntry u e (buf ++ rest)) := by
  refine Extends.bind (extends_load rest) fun nlmsgLen => ?_
  refine Extends.bind (extends_parseAttributes _ _ _ _ rest) fun tba => ?_
  refine Extends.bind (Extends.refl _) fun slot => Extends.bind (extends_rtaData buf rest slot) fun ifaddr => ?_
  refine Extends.bind (extends_parseAttributes _ _ _ _ rest) fun tb => ?_
  refine Extends.bind (Extends.refl _) fun slot => Extends.bind (extends_rtaString buf rest slot) fun ifname => ?_
  exact Extends.refl _

theorem extends_parseLinkEntry : Extends (parseLinkEntry u e buf) (parseLinkEntry u e (buf ++ rest)) := by
  refine Extends.bind (extends_load rest) fun nlmsgLen => ?_
  refine Extends.bind (extends_parseAttributes _ _ _ _ rest) fun tb => ?_
  refine Extends.bind (Extends.refl _) fun slot => ?_
  refine Extends.bind (extends_load rest) fun ifiFlags => ?_
  refine Extends.bind (extends_load rest) fun ifiIndex => ?_
  refine Extends.bind (extends_rtaString buf rest slot) fun ifname => ?_
  exact Extends.refl _

end Extends

/-! ## One message in two buffers -/

/-- A message that `NLMSG_OK` accepts: a whole header, and as long as the header says, in an `int`. -/
structure Message (e : Endian) (m : List UInt8) : Prop where
  header : 16 ≤ m.length
  fits : m.length < 2 ^ 31
  len : word e (m.take 4) = m.length

/-- The receive buffer holds the message at an offset. -/
def Holds (buf : List UInt8) (off : Nat) (m : List UInt8) : Prop := (buf.drop off).take m.length = m

/-- What the parser does with the message does not depend on what else is in the receive buffer. -/
def Local {α : Type} (parse : List UInt8 → Except Stop α) (m : List UInt8) : Prop :=
  ∀ buf₁ buf₂ off, Holds buf₁ off m → Holds buf₂ off m → parse (buf₁.drop off) = parse (buf₂.drop off)

theorem holds_iff {off : Nat} {m : List UInt8} : Holds buf off m ↔ ∃ rest, buf.drop off = m ++ rest := by
  constructor
  · intro h
    refine ⟨(buf.drop off).drop m.length, ?_⟩
    calc buf.drop off = (buf.drop off).take m.length ++ (buf.drop off).drop m.length :=
          (List.take_append_drop m.length (buf.drop off)).symm
      _ = m ++ (buf.drop off).drop m.length := by rw [show (buf.drop off).take m.length = m from h]
  · rintro ⟨rest, h⟩
    rw [Holds, h, List.take_left]

section Local

variable {α : Type} {parse : List UInt8 → Except Stop α} {m : List UInt8}

/-- A run that stays inside the message does not see what follows; one that leaves it sees whether anything follows. -/
theorem local_iff {P : Prop} (hsafe : SafeIff (parse m) P) (hext : ∀ rest, Extends (parse m) (parse (m ++ rest)))
    (hroom : ∃ rest a, parse (m ++ rest) = .ok a) : Local parse m ↔ P := by
  constructor
  · intro hlocal
    by_contra hP
    obtain ⟨rest, a, ha⟩ := hroom
    have h := hlocal m (m ++ rest) 0 (by simp [Holds]) (by simp [Holds])
    rw [List.drop_zero, List.drop_zero, hsafe.2 hP, ha] at h
    cases h
  · intro hP buf₁ buf₂ off h₁ h₂
    obtain ⟨a, ha⟩ := hsafe.1 hP
    obtain ⟨rest₁, h₁⟩ := holds_iff.mp h₁
    obtain ⟨rest₂, h₂⟩ := holds_iff.mp h₂
    rw [h₁, h₂, hext rest₁ a ha, hext rest₂ a ha]

end Local

section Room

variable {m : List UInt8} (hm : Message e m)

include hm

theorem load_nlmsgLen (rest : List UInt8) : load e (m ++ rest) 0 4 = .ok m.length := by
  have h : load e m 0 4 = .ok m.length := by
    rw [load_of_le (by have := hm.header; omega), List.drop_zero, hm.len]
  exact extends_load rest _ h

theorem int32_length : int32 m.length = m.length := if_pos hm.fits

end Room

/-- Bytes for a receive buffer that goes on behind the message. -/
def zeros : List UInt8 := List.replicate 64 0

/-- With 64 zeros behind the message, the walk and the payloads it finds stay inside. -/
theorem exists_walk_zeros (e : Endian) (m : List UInt8) (pos : Nat) (hpos : pos ≤ 32) :
    ∃ as, Walk e (m ++ zeros) pos m.length as ∧
      ∀ t, DataInside (m ++ zeros) as t ∧ StringInside (m ++ zeros) as t := by
  have hlen : (m ++ zeros).length = m.length + 64 := by simp [zeros]
  obtain ⟨as, has⟩ : ∃ as, Walk e (m ++ zeros) pos m.length as :=
    exists_walk m.length pos m.length (by simp) (by omega)
  have hlast : ∀ t rta, lastOf t as = some rta → rta + 4 ≤ m.length + 32 := by
    intro t rta h
    obtain ⟨a, ha, _, rfl⟩ := lastOf_mem h
    have hle := walk_pos has a ha
    omega
  refine ⟨as, has, fun t => ⟨fun rta h => ?_, fun rta h => ?_⟩⟩
  · have hle := hlast t rta h
    omega
  · have hle := hlast t rta h
    have hsplit : m ++ zeros = (m ++ List.replicate 32 0) ++ List.replicate 32 0 := by
      rw [List.append_assoc, List.replicate_append_replicate]
      rfl
    rw [hsplit, List.drop_append_of_le_length (by simp; omega)]
    exact List.mem_append_right _ (by simp)

theorem routeInside_zeros (e : Endian) (m : List UInt8) : RouteInside e (m ++ zeros) m.length := by
  obtain ⟨as, has, hin⟩ := exists_walk_zeros e m 28 (by omega)
  exact ⟨by simp [zeros], fun _ => ⟨as, has, fun t _ => (hin t).1⟩⟩

theorem addrInside_zeros (e : Endian) (m : List UInt8) : AddrInside e (m ++ zeros) m.length := by
  obtain ⟨as, has, hin⟩ := exists_walk_zeros e m 24 (by omega)
  obtain ⟨as', has', hin'⟩ := exists_walk_zeros e m 32 (by omega)
  exact ⟨⟨as, has, (hin _).1⟩, as', has', (hin' _).2⟩

theorem linkInside_zeros (e : Endian) (m : List UInt8) : LinkInside e (m ++ zeros) m.length := by
  obtain ⟨as, has, hin⟩ := exists_walk_zeros e m 32 (by omega)
  exact ⟨by simp [zeros], as, has, (hin _).2⟩

/-- **One message, two buffers.** What an entry parser does depends on the message alone exactly when everything the
parser reads lies inside the message. -/
theorem entries_local_iff (u : Uapi) (e : Endian) (m : List UInt8) (hm : Message e m) :
    (Local (parseRouteEntry u e) m ↔ RouteInside e m m.length) ∧
    (Local (parseAddrEntry u e) m ↔ AddrInside e m m.length) ∧
    (Local (parseLinkEntry u e) m ↔ LinkInside e m m.length) := by
  have h₀ := load_nlmsgLen hm []
  rw [List.append_nil] at h₀
  have h₁ := load_nlmsgLen hm zeros
  have hint := int32_length hm
  refine ⟨?_, ?_, ?_⟩
  · have hroom := (parseRouteEntry_safeIff (u := u) h₁).1 (by rw [hint]; exact routeInside_zeros e m)
    rw [← hint]
    exact local_iff (parseRouteEntry_safeIff h₀) (extends_parseRouteEntry u e m) ⟨zeros, hroom⟩
  · have hroom := (parseAddrEntry_safeIff (u := u) h₁).1 (by rw [hint]; exact addrInside_zeros e m)
    rw [← hint]
    exact local_iff (parseAddrEntry_safeIff h₀) (extends_parseAddrEntry u e m) ⟨zeros, hroom⟩
  · have hroom := (parseLinkEntry_safeIff (u := u) h₁).1 (by rw [hint]; exact linkInside_zeros e m)
    rw [← hint]
    exact local_iff (parseLinkEntry_safeIff h₀) (extends_parseLinkEntry u e m) ⟨zeros, hroom⟩

/-- The table sizes of Linux 5.15. -/
def linux515 : Uapi := ⟨30, 10, 57, by decide, by decide, by decide, by decide⟩

/-- A route of the main table without attributes: 28 bytes, little endian. -/
def bareRoute : List UInt8 :=
  [28, 0, 0, 0, 24, 0, 2, 0, 1, 0, 0, 0, 0, 0, 0, 0] ++ [2, 0, 0, 0, 254, 2, 0, 1, 0, 0, 0, 0]

theorem bareRoute_message : Message .little bareRoute := ⟨by decide, by decide, by decide⟩

theorem bareRoute_local_iff : (Local (parseRouteEntry linux515 .little) bareRoute ↔ RouteInside .little bareRoute 28) ∧
    (Local (parseAddrEntry linux515 .little) bareRoute ↔ AddrInside .little bareRoute 28) ∧
    (Local (parseLinkEntry linux515 .little) bareRoute ↔ LinkInside .little bareRoute 28) :=
  entries_local_iff linux515 .little bareRoute bareRoute_message

/-- A destination address that an earlier message has left behind it. -/
def staleDst : List UInt8 := [8, 0, 1, 0, 10, 0, 0, 1] ++ List.replicate 56 0

/-- The stale address is printed as the destination of the route. -/
theorem bareRoute_not_local :
    parseRouteEntry linux515 .little (bareRoute ++ zeros) =
      .ok (some "table=0    , dst=               , gw=               , oif=0    , prefsrc=          \n") ∧
    parseRouteEntry linux515 .little (bareRoute ++ staleDst) =
      .ok (some "table=0    , dst=10.0.0.1       , gw=               , oif=0    , prefsrc=          \n") ∧
    ¬ Local (parseRouteEntry linux515 .little) bareRoute := by
  have h₁ : parseRouteEntry linux515 .little (bareRoute ++ zeros) =
      .ok (some "table=0    , dst=               , gw=               , oif=0    , prefsrc=          \n") := by
    decide +kernel
  have h₂ : parseRouteEntry linux515 .little (bareRoute ++ staleDst) =
      .ok (some "table=0    , dst=10.0.0.1       , gw=               , oif=0    , prefsrc=          \n") := by
    decide +kernel
  refine ⟨h₁, h₂, fun hlocal => ?_⟩
  have h := hlocal (bareRoute ++ zeros) (bareRoute ++ staleDst) 0 (by simp [Holds]) (by simp [Holds])
  rw [List.drop_zero, List.drop_zero, h₁, h₂] at h
  exact absurd h (by decide +kernel)

end SideWork.Netlink
