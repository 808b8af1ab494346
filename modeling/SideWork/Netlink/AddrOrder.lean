import SideWork.Netlink.Receive

/-!
# The order of the attributes of an address

`parse_addr_entry` walks over the attributes of a message twice. The first walk starts behind `struct ifaddrmsg`, at byte
24, and takes `IFA_LOCAL`; the second one starts behind a `struct ifinfomsg` that is not there, at byte 32, 8 bytes into
the attributes, and takes `IFA_LABEL` under the name `IFLA_IFNAME`. Both are given the length of the whole message and go
on behind it.

- `walk_placed`: a walk over attributes that are laid out meets them all, and goes on behind them;
- `addrFields_eq_ok_iff`: what is printed, in terms of the two walks;
- `columns_inj`, `ipText_inj`: the line shows the interface, padded, and the bytes of the address;
- `addr_order_iff`: when the line is what the message says, and when the order of its attributes does not matter;
- `says_in_step`: it is where the first attributes take 8 bytes, as an address does, and nothing behind the message looks
  like one of the two.
-/

namespace SideWork.Netlink

/-- What `parse_addr_entry` prints as interface and as IP. -/
def addrFields (u : Uapi) (e : Endian) (buf : List UInt8) : Except Stop (Option (List UInt8) × Option (List UInt8)) := do
  let nlmsgLen ← load e buf 0 4
  let len := int32 nlmsgLen
  let tba := (declare (u.ifaMax + 1)).memset (u.rtaMax + 1)
  let tba ← parseAddrAttributes e buf tba u.ifaMax (16 + 8) len
  let ifaddr ← rtaData buf (← tba.read ifaLocal)
  let tb := (declare (u.iflaMax + 1)).memset (u.rtaMax + 1)
  let tb ← parseAddrAttributes e buf tb u.iflaMax (16 + 16) len
  let ifname ← rtaString buf (← tb.read iflaIfname)
  return (ifname, ifaddr)

/-- `%-10s` of the interface. -/
def nameText (name : Option (List UInt8)) : String := padRight 10 (showString name)

/-- `%-15s` of the IP. -/
def ipText (ip : Option (List UInt8)) : String := padRight 15 (ip.elim "" inetNtop)

/-- `"interface=%-10s IP=%-15s\n"`. -/
def addrLine (fields : Option (List UInt8) × Option (List UInt8)) : String :=
  "interface=" ++ nameText fields.1 ++ " IP=" ++ ipText fields.2 ++ "\n"

variable {u : Uapi} {e : Endian} {buf : List UInt8}

theorem parseAddrEntry_eq (u : Uapi) (e : Endian) (buf : List UInt8) :
    parseAddrEntry u e buf = addrFields u e buf >>= fun fields => .ok (addrLine fields) := by
  simp only [parseAddrEntry, addrFields, bind_assoc, pure_eq_ok, ok_bind]
  rfl

theorem parseAddrEntry_eq_ok {line : String} : parseAddrEntry u e buf = .ok line ↔
    ∃ fields, addrFields u e buf = .ok fields ∧ line = addrLine fields := by
  rw [parseAddrEntry_eq]
  constructor
  · intro h
    obtain ⟨fields, hrun, hline⟩ := bind_eq_ok h
    exact ⟨fields, hrun, (Except.ok.inj hline).symm⟩
  · rintro ⟨fields, hrun, rfl⟩
    rw [hrun, ok_bind]

/-! ## The columns of the line -/

theorem toString_digits {n : Nat} {c : Char} (h : c ∈ (toString n).toList) : c.isDigit = true := by
  rw [Nat.toString_eq_repr, Nat.toList_repr] at h
  exact Nat.isDigit_of_mem_toDigits (by decide) (by decide) h

theorem notMem_toString {c : Char} (hc : c.isDigit = false) (b : UInt8) : c ∉ (toString b.toNat).toList := by
  intro h
  rw [toString_digits h] at hc
  cases hc

theorem inetNtop_cons (b b' : UInt8) (bs : List UInt8) :
    inetNtop (b :: b' :: bs) = toString b.toNat ++ "." ++ inetNtop (b' :: bs) := by
  rw [inetNtop, List.map_cons, List.map_cons, String.intercalate_cons_cons]
  rfl

theorem length_inetNtop (b : UInt8) (bs : List UInt8) : (inetNtop (b :: bs)).length ≤ 4 * bs.length + 3 := by
  have hbyte : ∀ b : UInt8, (toString b.toNat).length ≤ 3 := by
    intro b
    rw [Nat.toString_eq_repr, Nat.length_repr_le_iff (by decide)]
    exact b.toNat_lt.trans (by decide)
  induction bs generalizing b with
  | nil =>
    rw [inetNtop, List.map_singleton, String.intercalate_singleton]
    exact hbyte b
  | cons b' bs ih =>
    have hdot : ".".length = 1 := by decide
    have hb := hbyte b
    have hrest := ih b'
    rw [inetNtop_cons, String.length_append, String.length_append, List.length_cons]
    omega

theorem blank_notMem_inetNtop (bs : List UInt8) : ' ' ∉ (inetNtop bs).toList := by
  match bs with
  | [] => decide
  | [b] =>
    rw [inetNtop, List.map_singleton, String.intercalate_singleton]
    exact notMem_toString (by decide) b
  | b :: b' :: bs =>
    rw [inetNtop_cons, String.toList_append, String.toList_append, List.mem_append, List.mem_append]
    rintro ((h | h) | h)
    · exact notMem_toString (by decide) b h
    · revert h
      decide
    · exact blank_notMem_inetNtop (b' :: bs) h

/-- The bytes can be read off. -/
theorem inetNtop_inj {bs bs' : List UInt8} (h : inetNtop bs = inetNtop bs') : bs = bs' := by
  have hlist : ∀ as, (inetNtop as).toList = ['.'].intercalate (as.map fun b => (toString b.toNat).toList) := by
    intro as
    rw [inetNtop, String.toList_intercalate, List.map_map]
    rfl
  have hdot : ∀ as : List UInt8, ∀ l ∈ as.map (fun b => (toString b.toNat).toList), '.' ∉ l := by
    intro as l hl
    obtain ⟨b, -, rfl⟩ := List.mem_map.mp hl
    exact notMem_toString (by decide) b
  have hnil : ∀ b bs, inetNtop (b :: bs) ≠ "" := by
    intro b bs h
    match bs with
    | [] =>
      rw [inetNtop, List.map_singleton, String.intercalate_singleton] at h
      exact Nat.repr_ne_empty h
    | b' :: bs =>
      rw [inetNtop_cons] at h
      simp at h
  match bs, bs' with
  | [], [] => rfl
  | [], b :: bs => exact absurd h.symm (hnil b bs)
  | b :: bs, [] => exact absurd h (hnil b bs)
  | b :: bs, b' :: bs' =>
    have hsplit := congrArg (fun s => s.toList.splitOn '.') h
    simp only [hlist] at hsplit
    rw [List.splitOn_intercalate '.' (hdot _) (by simp), List.splitOn_intercalate '.' (hdot _) (by simp)] at hsplit
    refine List.map_injective_iff.mpr (fun b c hbc => ?_) hsplit
    simp only [Nat.toString_eq_repr, Nat.toList_repr] at hbc
    have hnat := congrArg (fun l => Nat.ofDigitChars 10 l 0) hbc
    simp only [Nat.ofDigitChars_ten_toDigits] at hnat
    exact UInt8.toNat_inj.mp hnat

theorem ipText_inj {ip ip' : Option (List UInt8)} (h : ipText ip = ipText ip') : ip.getD [] = ip'.getD [] := by
  have helim : ∀ ip : Option (List UInt8), ip.elim "" inetNtop = inetNtop (ip.getD []) := by
    intro ip
    cases ip <;> rfl
  have htext : ∀ ip, (ipText ip).toList.takeWhile (· ≠ ' ') = (inetNtop (ip.getD [])).toList := by
    intro ip
    have hblank := blank_notMem_inetNtop (ip.getD [])
    rw [ipText, helim, padRight, String.toList_append, String.toList_ofList, List.takeWhile_append_of_pos]
    · simp
    · intro c hc
      simpa using ne_of_mem_of_not_mem hc hblank
  have hsame := congrArg (fun s => s.toList.takeWhile (· ≠ ' ')) h
  simp only [htext] at hsame
  exact inetNtop_inj (String.toList_injective hsame)

theorem length_ipText {ip : Option (List UInt8)} (h : (ip.getD []).length ≤ 4) : (ipText ip).length = 15 := by
  have hle : (ip.elim "" inetNtop).length ≤ 15 := by
    match ip with
    | none | some [] => decide
    | some (b :: bs) =>
      have hb := length_inetNtop b bs
      have hbs : bs.length + 1 ≤ 4 := h
      show (inetNtop (b :: bs)).length ≤ 15
      omega
  rw [ipText, padRight, String.length_append, String.length_ofList, List.length_replicate]
  omega

/-- The two columns can be told apart. -/
theorem columns_inj {iface iface' ip ip' : String} (hlen : ip.length = ip'.length)
    (h : "interface=" ++ iface ++ " IP=" ++ ip ++ "\n" = "interface=" ++ iface' ++ " IP=" ++ ip' ++ "\n") :
    iface = iface' ∧ ip = ip' := by
  have hlist := congrArg String.toList h
  simp only [String.toList_append] at hlist
  obtain ⟨hfront, -⟩ := List.append_inj' hlist rfl
  obtain ⟨hfront, hip⟩ := List.append_inj' hfront hlen
  obtain ⟨hfront, -⟩ := List.append_inj' hfront rfl
  exact ⟨String.toList_injective (List.append_cancel_left hfront), String.toList_injective hip⟩
/-! ## Messages with attributes -/

/-- An attribute as the kernel lays it out. -/
structure Attribute where
  type : Nat
  payload : List UInt8

/-- `RTA_LENGTH`. -/
def Attribute.length (a : Attribute) : Nat := 4 + a.payload.length

/-- From `pos` on, the message is these attributes, one behind the other and padded to multiples of 4 bytes; the padding of
the last one may be missing. -/
inductive Attributes (e : Endian) (m : List UInt8) : Nat → List Attribute → Prop
  | nil {pos : Nat} (hend : m.length ≤ pos) : Attributes e m pos []
  | cons {pos : Nat} {a : Attribute} {as : List Attribute} (hin : pos + a.length ≤ m.length)
      (hlen : rtaLen e m pos = a.length) (htype : rtaType e m pos = a.type) (hdata : Holds m (pos + 4) a.payload)
      (h : Attributes e m (pos + rtaAlign a.length) as) : Attributes e m pos (a :: as)

/-- An `RTM_NEWADDR` message with these attributes. -/
structure AddrMessage (e : Endian) (as : List Attribute) (m : List UInt8) : Prop where
  message : Message e m
  type : nlmsgType e m 0 = Dump.addr.entryType
  room : 24 ≤ m.length
  attributes : Attributes e m 24 as
  distinct : (as.map Attribute.type).Nodup

/-- The attributes as a walk meets them. -/
def placed : Nat → List Attribute → List Attr
  | _, [] => []
  | pos, a :: as => ⟨a.type, pos⟩ :: placed (pos + rtaAlign a.length) as

/-- Where the next attribute would stand. -/
def past : Nat → List Attribute → Nat
  | pos, [] => pos
  | pos, a :: as => past (pos + rtaAlign a.length) as

variable {m : List UInt8} {as : List Attribute} {pos : Nat} (rest : List UInt8)

theorem rtaLen_append (h : pos + 2 ≤ m.length) : rtaLen e (m ++ rest) pos = rtaLen e m pos := by
  rw [rtaLen, rtaLen, take_drop_append h]

theorem rtaType_append (h : pos + 4 ≤ m.length) : rtaType e (m ++ rest) pos = rtaType e m pos := by
  rw [rtaType, rtaType, take_drop_append (by omega)]

/-- A walk over attributes that are laid out meets them all, and goes on behind them. -/
theorem walk_placed (h : Attributes e m pos as) {len : Int} (hlen : m.length ≤ pos + len) {ws : List Attr} :
    Walk e (m ++ rest) pos len ws ↔
      ∃ bs, ws = placed pos as ++ bs ∧ Walk e (m ++ rest) (past pos as) (len + pos - past pos as) bs := by
  induction h generalizing len ws with
  | nil hend =>
    simp [placed, past]
  | @cons pos a as hin hlena htype hdata h ih =>
    have ha : a.length = 4 + a.payload.length := rfl
    have hlen' : rtaLen e (m ++ rest) pos = a.length := by rw [rtaLen_append rest (by omega), hlena]
    have htype' : rtaType e (m ++ rest) pos = a.type := by rw [rtaType_append rest (by omega), htype]
    have hrest : len - rtaAlign a.length + (pos + rtaAlign a.length : Nat) = len + pos := by
      push_cast
      omega
    have hbehind := @ih (len - rtaAlign a.length)
    rw [hrest] at hbehind
    constructor
    · intro hw
      cases hw with
      | short hshort => omega
      | refused hin' hrefused => omega
      | attr hin' hlow hhigh hw =>
        rw [hlen'] at hw
        obtain ⟨bs, rfl, hbs⟩ := (hbehind (by push_cast; omega)).mp hw
        exact ⟨bs, by rw [htype']; rfl, hbs⟩
    · rintro ⟨bs, rfl, hbs⟩
      have hw := (hbehind (by push_cast; omega)).mpr ⟨bs, rfl, hbs⟩
      rw [← hlen'] at hw
      have hattr := Walk.attr (by rw [List.length_append]; omega) (by omega) (by omega) hw
      rw [htype', hlen'] at hattr
      exact hattr

theorem lastOf_placed_none {t : Nat} (h : ∀ a ∈ as, a.type ≠ t) : ∀ pos, lastOf t (placed pos as) = none := by
  induction as with
  | nil => exact fun _ => rfl
  | cons a as ih =>
    intro pos
    obtain ⟨ha, has⟩ := List.forall_mem_cons.mp h
    rw [placed, lastOf, ih has, if_neg ha]
    rfl

/-- The attribute of a type, where types are distinct. -/
theorem lastOf_placed (h : Attributes e m pos as) (hd : (as.map Attribute.type).Nodup) {a : Attribute} {t : Nat}
    (ha : a ∈ as) (hat : a.type = t) : ∃ p, lastOf t (placed pos as) = some p ∧
      p + 4 + a.payload.length ≤ m.length ∧ Holds m (p + 4) a.payload := by
  induction h with
  | nil => cases ha
  | @cons pos b as hin hlen htype hdata h ih =>
    obtain ⟨hb, hd⟩ := List.nodup_cons.mp hd
    rcases List.mem_cons.mp ha with rfl | ha
    · have hother : ∀ b ∈ as, b.type ≠ t := fun b hbs heq => hb (hat ▸ heq ▸ List.mem_map_of_mem hbs)
      refine ⟨pos, ?_, by rw [Nat.add_assoc]; exact hin, hdata⟩
      rw [placed, lastOf, lastOf_placed_none hother, if_pos hat]
      rfl
    · obtain ⟨p, hp, hin', hdata'⟩ := ih hd ha
      exact ⟨p, by rw [placed, lastOf, hp]; rfl, hin', hdata'⟩

/-! ## The two walks -/

/-- What `inet_ntop` is given for a slot. -/
def DataIs (buf : List UInt8) (slot : Option Nat) (ip : Option (List UInt8)) : Prop :=
  match slot with
  | none => ip = none
  | some rta => rta + 8 ≤ buf.length ∧ ip = some ((buf.drop (rta + 4)).take 4)

/-- What `printf` is given for a slot. -/
def StringIs (buf : List UInt8) (slot : Option Nat) (name : Option (List UInt8)) : Prop :=
  match slot with
  | none => name = none
  | some rta => 0 ∈ buf.drop (rta + 4) ∧ name = some ((buf.drop (rta + 4)).takeWhile (· ≠ 0))

theorem rtaData_eq_ok_iff {slot ip : Option _} : rtaData buf slot = .ok ip ↔ DataIs buf slot ip := by
  cases slot with
  | none => exact ⟨fun h => (Except.ok.inj h).symm, fun h => congrArg _ h.symm⟩
  | some rta =>
    by_cases hin : rta + 4 + 4 ≤ buf.length
    · simp [rtaData, loadBytes, DataIs, hin, eq_comm]
    · simp [rtaData, loadBytes, DataIs, hin]

theorem rtaString_eq_ok_iff {slot name : Option _} : rtaString buf slot = .ok name ↔ StringIs buf slot name := by
  cases slot with
  | none => exact ⟨fun h => (Except.ok.inj h).symm, fun h => congrArg _ h.symm⟩
  | some rta =>
    by_cases hin : 0 ∈ buf.drop (rta + 4)
    · simp [rtaString, loadString, StringIs, hin, eq_comm]
    · simp [rtaString, loadString, StringIs, hin]

theorem length_dataIs {slot : Option Nat} {ip : Option (List UInt8)} (h : DataIs buf slot ip) :
    (ip.getD []).length ≤ 4 := by
  cases slot with
  | none => simp [show ip = none from h]
  | some rta =>
    obtain ⟨-, rfl⟩ := h
    rw [Option.getD_some, List.length_take]
    omega

/-- Addresses that are printed alike. -/
theorem dataIs_inj {buf' : List UInt8} {slot slot' : Option Nat} {ip ip' : Option (List UInt8)} (h : DataIs buf slot ip)
    (h' : DataIs buf' slot' ip') (htext : ipText ip = ipText ip') : ip = ip' := by
  have hsome : ∀ {b : List UInt8} {rta : Nat}, rta + 8 ≤ b.length → (b.drop (rta + 4)).take 4 ≠ [] := by
    intro b rta hroom hnil
    have hlen := congrArg List.length hnil
    rw [List.length_take, List.length_drop, List.length_nil] at hlen
    omega
  have hbytes := ipText_inj htext
  cases slot with
  | none =>
    obtain rfl : ip = none := h
    cases slot' with
    | none => exact (show ip' = none from h').symm
    | some rta' =>
      obtain ⟨hroom, rfl⟩ := h'
      exact absurd hbytes.symm (hsome hroom)
  | some rta =>
    obtain ⟨hroom, rfl⟩ := h
    cases slot' with
    | none =>
      obtain rfl : ip' = none := h'
      exact absurd hbytes (hsome hroom)
    | some rta' =>
      obtain ⟨-, rfl⟩ := h'
      exact congrArg some hbytes

/-- What is printed, in terms of the two walks. -/
theorem addrFields_eq_ok_iff {n : Nat} (h : load e buf 0 4 = .ok n) {fields : Option (List UInt8) × Option (List UInt8)} :
    addrFields u e buf = .ok fields ↔
      (∃ ws, Walk e buf 24 (int32 n) ws ∧ DataIs buf (lastOf ifaLocal ws) fields.2) ∧
      ∃ ws, Walk e buf 32 (int32 n) ws ∧ StringIs buf (lastOf iflaIfname ws) fields.1 := by
  obtain ⟨name, ip⟩ := fields
  unfold addrFields
  rw [h, ok_bind]
  constructor
  · intro hrun
    obtain ⟨tba, htba, hrun⟩ := bind_eq_ok hrun
    obtain ⟨ws, hws, rfl⟩ := parseAttributes_eq_ok htba
    rw [read_local, ok_bind] at hrun
    obtain ⟨ip', hip, hrun⟩ := bind_eq_ok hrun
    obtain ⟨tb, htb, hrun⟩ := bind_eq_ok hrun
    obtain ⟨ws', hws', rfl⟩ := parseAttributes_eq_ok htb
    rw [read_ifname, ok_bind] at hrun
    obtain ⟨name', hname, hrun⟩ := bind_eq_ok hrun
    cases hrun
    exact ⟨⟨ws, hws, rtaData_eq_ok_iff.mp hip⟩, ws', hws', rtaString_eq_ok_iff.mp hname⟩
  · rintro ⟨⟨ws, hws, hip⟩, ws', hws', hname⟩
    have htba := parseAttributes_of_walk hws ((declare (u.ifaMax + 1)).memset (u.rtaMax + 1)) u.ifaMax
    have htb := parseAttributes_of_walk hws' ((declare (u.iflaMax + 1)).memset (u.rtaMax + 1)) u.iflaMax
    simp only [parseAddrAttributes, htba, htb, read_local, read_ifname, ok_bind, rtaData_eq_ok_iff.mpr hip,
      rtaString_eq_ok_iff.mpr hname, pure_eq_ok]

section Message

variable (hm : AddrMessage e as m)

include hm

/-- Of the first walk, only what it meets behind the message is not known from the attributes. -/
theorem addrFields_message {fields : Option (List UInt8) × Option (List UInt8)} :
    addrFields u e (m ++ rest) = .ok fields ↔
      (∃ bs, Walk e (m ++ rest) (past 24 as) (m.length + 24 - past 24 as) bs ∧
        DataIs (m ++ rest) (lastOf ifaLocal (placed 24 as ++ bs)) fields.2) ∧
      ∃ ws, Walk e (m ++ rest) 32 m.length ws ∧ StringIs (m ++ rest) (lastOf iflaIfname ws) fields.1 := by
  rw [addrFields_eq_ok_iff (load_nlmsgLen hm.message rest), int32_length hm.message]
  refine and_congr_left fun _ => ?_
  have hwalk : ∀ ws, Walk e (m ++ rest) 24 m.length ws ↔ ∃ bs, ws = placed 24 as ++ bs ∧
      Walk e (m ++ rest) (past 24 as) (m.length + 24 - past 24 as) bs := fun ws =>
    walk_placed rest hm.attributes (by omega)
  constructor
  · rintro ⟨ws, hws, hip⟩
    obtain ⟨bs, rfl, hbs⟩ := (hwalk ws).mp hws
    exact ⟨bs, hbs, hip⟩
  · rintro ⟨bs, hbs, hip⟩
    exact ⟨_, (hwalk _).mpr ⟨bs, rfl, hbs⟩, hip⟩

end Message

/-! ## What the message says -/

/-- The columns of the line are those of the message, as far as it has them: the label up to its first NUL, and the
address. -/
def Says (as : List Attribute) (line : String) : Prop :=
  ∃ iface ip : String, line = "interface=" ++ iface ++ " IP=" ++ ip ++ "\n" ∧ ip.length = 15 ∧
    (∀ a ∈ as, a.type = iflaIfname → iface = nameText (some (a.payload.takeWhile (· ≠ 0)))) ∧
    ∀ a ∈ as, a.type = ifaLocal → ip = ipText (some (a.payload.take 4))

/-- The message has an address of four bytes, if it has one, and what the walk meets behind it leaves that alone. -/
def LocalKept (e : Endian) (as : List Attribute) (m rest : List UInt8) : Prop :=
  ∃ bs, Walk e (m ++ rest) (past 24 as) (m.length + 24 - past 24 as) bs ∧
    match lastOf ifaLocal bs with
    | none => ∀ a ∈ as, a.type = ifaLocal → 4 ≤ a.payload.length
    | some rta => rta + 8 ≤ (m ++ rest).length ∧
      ∀ a ∈ as, a.type = ifaLocal → ((m ++ rest).drop (rta + 4)).take 4 = a.payload.take 4

/-- The last header of the label's type on the chain from byte 32 on carries a string that is printed like the label. -/
def LabelMet (e : Endian) (as : List Attribute) (m rest : List UInt8) : Prop :=
  ∃ ws name, Walk e (m ++ rest) 32 m.length ws ∧ StringIs (m ++ rest) (lastOf iflaIfname ws) name ∧
    ∀ a ∈ as, a.type = iflaIfname → nameText name = nameText (some (a.payload.takeWhile (· ≠ 0)))

/-- The four bytes behind the header of an address that has them. -/
theorem take_payload {p : Nat} {payload : List UInt8} (h4 : 4 ≤ payload.length) (hin : p + 4 + payload.length ≤ m.length)
    (hdata : Holds m (p + 4) payload) : ((m ++ rest).drop (p + 4)).take 4 = payload.take 4 := by
  rw [take_drop_append (by omega)]
  calc (m.drop (p + 4)).take 4 = ((m.drop (p + 4)).take payload.length).take 4 := by
        rw [List.take_take, Nat.min_eq_left h4]
    _ = payload.take 4 := by rw [hdata]

section Says

variable (hm : AddrMessage e as m)

include hm

/-- With nothing behind the message, the address of the message is printed. -/
theorem own_address (h4 : ∀ a ∈ as, a.type = ifaLocal → 4 ≤ a.payload.length) :
    ∃ ip, (∀ a ∈ as, a.type = ifaLocal → ip = some (a.payload.take 4)) ∧
      DataIs (m ++ rest) (lastOf ifaLocal (placed 24 as)) ip := by
  by_cases hex : ∃ a ∈ as, a.type = ifaLocal
  · obtain ⟨a, ha, hat⟩ := hex
    obtain ⟨p, hp, hin, -⟩ := lastOf_placed hm.attributes hm.distinct ha hat
    have ha4 := h4 a ha hat
    refine ⟨some (((m ++ rest).drop (p + 4)).take 4), fun b hb hbt => ?_, ?_⟩
    · obtain ⟨p', hp', hin', hdata⟩ := lastOf_placed hm.attributes hm.distinct hb hbt
      obtain rfl : p = p' := Option.some_inj.mp (hp.symm.trans hp')
      rw [take_payload rest (h4 b hb hbt) hin' hdata]
    · rw [hp]
      exact ⟨by rw [List.length_append]; omega, rfl⟩
  · have hnone : ∀ a ∈ as, a.type ≠ ifaLocal := fun a ha hat => hex ⟨a, ha, hat⟩
    refine ⟨none, fun a ha hat => absurd hat (hnone a ha), ?_⟩
    rw [lastOf_placed_none hnone]
    rfl

/-- An address that is printed from the message has four bytes. -/
theorem four_le_payload {ip : Option (List UInt8)} (hip : DataIs (m ++ rest) (lastOf ifaLocal (placed 24 as)) ip)
    {a : Attribute} (ha : a ∈ as) (hat : a.type = ifaLocal) (hsay : ip = some (a.payload.take 4)) :
    4 ≤ a.payload.length := by
  obtain ⟨p, hp, hin, -⟩ := lastOf_placed hm.attributes hm.distinct ha hat
  rw [hp] at hip
  obtain ⟨hroom, rfl⟩ := hip
  have hlen := congrArg List.length (Option.some_inj.mp hsay)
  rw [List.length_take, List.length_take, List.length_drop] at hlen
  omega

/-- The address that is printed is that of the message. -/
theorem localKept_iff : LocalKept e as m rest ↔ ∃ ip, (∀ a ∈ as, a.type = ifaLocal → ip = some (a.payload.take 4)) ∧
    ∃ bs, Walk e (m ++ rest) (past 24 as) (m.length + 24 - past 24 as) bs ∧
      DataIs (m ++ rest) (lastOf ifaLocal (placed 24 as ++ bs)) ip := by
  constructor
  · rintro ⟨bs, hbs, h⟩
    cases hl : lastOf ifaLocal bs with
    | some rta =>
      rw [hl] at h
      refine ⟨_, fun a ha hat => congrArg some (h.2 a ha hat), bs, hbs, ?_⟩
      rw [lastOf_append, hl]
      exact ⟨h.1, rfl⟩
    | none =>
      rw [hl] at h
      obtain ⟨ip, hsay, hip⟩ := own_address rest hm h
      exact ⟨ip, hsay, bs, hbs, by rw [lastOf_append, hl]; exact hip⟩
  · rintro ⟨ip, hsay, bs, hbs, hip⟩
    refine ⟨bs, hbs, ?_⟩
    rw [lastOf_append] at hip
    cases hl : lastOf ifaLocal bs with
    | some rta =>
      rw [hl] at hip
      obtain ⟨hin, rfl⟩ := hip
      exact ⟨hin, fun a ha hat => Option.some_inj.mp (hsay a ha hat)⟩
    | none =>
      rw [hl] at hip
      exact fun a ha hat => four_le_payload rest hm hip ha hat (hsay a ha hat)

/-- An address that is printed like that of the message is that of the message. -/
theorem eq_of_ipText {ip : Option (List UInt8)} {bs : List Attr}
    (hip : DataIs (m ++ rest) (lastOf ifaLocal (placed 24 as ++ bs)) ip) {a : Attribute} (ha : a ∈ as)
    (hat : a.type = ifaLocal) (htext : ipText ip = ipText (some (a.payload.take 4))) :
    ip = some (a.payload.take 4) := by
  obtain ⟨p, hp, -, -⟩ := lastOf_placed hm.attributes hm.distinct ha hat
  obtain ⟨q, hq⟩ : ∃ q, lastOf ifaLocal (placed 24 as ++ bs) = some q := by
    rw [lastOf_append, hp]
    cases lastOf ifaLocal bs <;> exact ⟨_, rfl⟩
  rw [hq] at hip
  obtain ⟨-, rfl⟩ := hip
  exact congrArg some (ipText_inj htext)

/-- What is printed is what the message says. -/
theorem says_iff (u : Uapi) : (∃ line, parseAddrEntry u e (m ++ rest) = .ok line ∧ Says as line) ↔
    LocalKept e as m rest ∧ LabelMet e as m rest := by
  rw [localKept_iff rest hm]
  constructor
  · rintro ⟨line, hrun, iface, ip, hline, hlen, hiface, hip⟩
    obtain ⟨fields, hfields, rfl⟩ := parseAddrEntry_eq_ok.mp hrun
    obtain ⟨⟨bs, hbs, hdata⟩, ws, hws, hname⟩ := (addrFields_message rest hm).mp hfields
    obtain ⟨rfl, rfl⟩ := columns_inj ((length_ipText (length_dataIs hdata)).trans hlen.symm) hline
    exact ⟨⟨fields.2, fun a ha hat => eq_of_ipText rest hm hdata ha hat (hip a ha hat), bs, hbs, hdata⟩,
      ws, fields.1, hws, hname, hiface⟩
  · rintro ⟨⟨ip, hsip, bs, hbs, hdata⟩, ws, name, hws, hname, hsname⟩
    have hfields : addrFields u e (m ++ rest) = .ok (name, ip) :=
      (addrFields_message rest hm).mpr ⟨⟨bs, hbs, hdata⟩, ws, hws, hname⟩
    exact ⟨_, parseAddrEntry_eq_ok.mpr ⟨_, hfields, rfl⟩, nameText name, ipText ip, rfl,
      length_ipText (length_dataIs hdata), hsname, fun a ha hat => congrArg ipText (hsip a ha hat)⟩

end Says

/-! ## The usual order -/

theorem attributes_append {sk ys : List Attribute} (h : Attributes e m pos (sk ++ ys)) :
    Attributes e m (past pos sk) ys := by
  induction sk generalizing pos with
  | nil => exact h
  | cons a sk ih =>
    cases h with
    | cons _ _ _ _ h => exact ih h

theorem past_append (sk ys : List Attribute) : ∀ pos, past pos (sk ++ ys) = past (past pos sk) ys := by
  induction sk with
  | nil => exact fun _ => rfl
  | cons a sk ih => exact fun pos => ih _

/-- The string behind the header of a label that has a NUL. -/
theorem takeWhile_payload {p : Nat} {payload : List UInt8} (h0 : 0 ∈ payload) (hin : p + 4 + payload.length ≤ m.length)
    (hdata : Holds m (p + 4) payload) : 0 ∈ (m ++ rest).drop (p + 4) ∧
      ((m ++ rest).drop (p + 4)).takeWhile (· ≠ 0) = payload.takeWhile (· ≠ 0) := by
  obtain ⟨tail, htail⟩ := holds_iff.mp hdata
  rw [List.drop_append_of_le_length (by omega), htail, List.append_assoc]
  exact ⟨List.mem_append_left _ h0, takeWhile_append_of_mem h0 rfl _⟩

/-- Where the first attributes take the 8 bytes that the second walk leaves out, and neither walk meets a header of the two
types behind the message, the label and the address are printed. -/
theorem says_in_step {sk ys : List Attribute} (hm : AddrMessage e (sk ++ ys) m) (u : Uapi) (hstep : past 24 sk = 32)
    (hsk : ∀ a ∈ sk, a.type ≠ iflaIfname) (hnul : ∀ a ∈ ys, a.type = iflaIfname → 0 ∈ a.payload)
    (hlocal : ∀ a ∈ sk ++ ys, a.type = ifaLocal → 4 ≤ a.payload.length) {bs bs' : List Attr}
    (hbs : Walk e (m ++ rest) (past 32 ys) (m.length + 24 - past 32 ys) bs) (hno : lastOf ifaLocal bs = none)
    (hbs' : Walk e (m ++ rest) (past 32 ys) (m.length + 32 - past 32 ys) bs') (hno' : lastOf iflaIfname bs' = none) :
    ∃ line, parseAddrEntry u e (m ++ rest) = .ok line ∧ Says (sk ++ ys) line := by
  have hpast : past 24 (sk ++ ys) = past 32 ys := by rw [past_append, hstep]
  have hys : Attributes e m 32 ys := hstep ▸ attributes_append hm.attributes
  have hdistinct : (ys.map Attribute.type).Nodup :=
    (List.map_append ▸ hm.distinct : ((sk.map Attribute.type) ++ ys.map Attribute.type).Nodup).of_append_right
  refine (says_iff rest hm u).mpr ⟨⟨bs, hpast ▸ hbs, by rw [hno]; exact hlocal⟩, ?_⟩
  have hwalk : Walk e (m ++ rest) 32 m.length (placed 32 ys ++ bs') :=
    (walk_placed rest hys (by omega)).mpr ⟨bs', rfl, hbs'⟩
  have hown : ∀ a ∈ ys, a.type = iflaIfname → ∃ p, lastOf iflaIfname (placed 32 ys) = some p ∧
      0 ∈ (m ++ rest).drop (p + 4) ∧
      ((m ++ rest).drop (p + 4)).takeWhile (· ≠ 0) = a.payload.takeWhile (· ≠ 0) := by
    intro a ha hat
    obtain ⟨p, hp, hin, hdata⟩ := lastOf_placed hys hdistinct ha hat
    exact ⟨p, hp, takeWhile_payload rest (hnul a ha hat) hin hdata⟩
  have hlast : lastOf iflaIfname (placed 32 ys ++ bs') = lastOf iflaIfname (placed 32 ys) := by
    rw [lastOf_append, hno', Option.none_or]
  by_cases hex : ∃ a ∈ ys, a.type = iflaIfname
  · obtain ⟨a, ha, hat⟩ := hex
    obtain ⟨p, hp, hin, -⟩ := hown a ha hat
    refine ⟨_, some _, hwalk, by rw [hlast, hp]; exact ⟨hin, rfl⟩, fun b hb hbt => ?_⟩
    have hb' : b ∈ ys := (List.mem_append.mp hb).resolve_left fun hs => hsk b hs hbt
    obtain ⟨p', hp', -, hstring⟩ := hown b hb' hbt
    obtain rfl : p = p' := Option.some_inj.mp (hp.symm.trans hp')
    rw [hstring]
  · have hnone : ∀ a ∈ ys, a.type ≠ iflaIfname := fun a ha hat => hex ⟨a, ha, hat⟩
    refine ⟨_, none, hwalk, by rw [hlast, lastOf_placed_none hnone]; rfl, fun a ha hat => ?_⟩
    exact absurd hat (List.forall_mem_append.mpr ⟨hsk, hnone⟩ a ha)

/-! ## The order -/

/-- The last header of the address's type that the first walk meets carries the same in both messages. -/
def SameAddress (e : Endian) (as as' : List Attribute) (m m' rest : List UInt8) : Prop :=
  ∃ bs bs' ip, Walk e (m ++ rest) (past 24 as) (m.length + 24 - past 24 as) bs ∧
    Walk e (m' ++ rest) (past 24 as') (m'.length + 24 - past 24 as') bs' ∧
    DataIs (m ++ rest) (lastOf ifaLocal (placed 24 as ++ bs)) ip ∧
    DataIs (m' ++ rest) (lastOf ifaLocal (placed 24 as' ++ bs')) ip

/-- And what the last header of the label's type on the chains from byte 32 on carries is printed alike. -/
def SameName (e : Endian) (m m' rest : List UInt8) : Prop :=
  ∃ ws ws' name name', Walk e (m ++ rest) 32 m.length ws ∧ Walk e (m' ++ rest) 32 m'.length ws' ∧
    StringIs (m ++ rest) (lastOf iflaIfname ws) name ∧ StringIs (m' ++ rest) (lastOf iflaIfname ws') name' ∧
    nameText name = nameText name'

/-- Two messages are printed alike. -/
theorem same_iff {as' : List Attribute} {m' : List UInt8} (hm : AddrMessage e as m) (hm' : AddrMessage e as' m')
    (u : Uapi) : (∃ line, parseAddrEntry u e (m ++ rest) = .ok line ∧ parseAddrEntry u e (m' ++ rest) = .ok line) ↔
      SameAddress e as as' m m' rest ∧ SameName e m m' rest := by
  constructor
  · rintro ⟨line, hrun, hrun'⟩
    obtain ⟨⟨name, ip⟩, hfields, rfl⟩ := parseAddrEntry_eq_ok.mp hrun
    obtain ⟨⟨name', ip'⟩, hfields', hline⟩ := parseAddrEntry_eq_ok.mp hrun'
    obtain ⟨⟨bs, hbs, hip⟩, ws, hws, hname⟩ := (addrFields_message rest hm).mp hfields
    obtain ⟨⟨bs', hbs', hip'⟩, ws', hws', hname'⟩ := (addrFields_message rest hm').mp hfields'
    have hlen := (length_ipText (length_dataIs hip)).trans (length_ipText (length_dataIs hip')).symm
    obtain ⟨hiface, htext⟩ := columns_inj hlen hline
    obtain rfl : ip = ip' := dataIs_inj hip hip' htext
    exact ⟨⟨bs, bs', ip, hbs, hbs', hip, hip'⟩, ws, ws', name, name', hws, hws', hname, hname', hiface⟩
  · rintro ⟨⟨bs, bs', ip, hbs, hbs', hip, hip'⟩, ws, ws', name, name', hws, hws', hname, hname', hiface⟩
    have hfields : addrFields u e (m ++ rest) = .ok (name, ip) :=
      (addrFields_message rest hm).mpr ⟨⟨bs, hbs, hip⟩, ws, hws, hname⟩
    have hfields' : addrFields u e (m' ++ rest) = .ok (name', ip) :=
      (addrFields_message rest hm').mpr ⟨⟨bs', hbs', hip'⟩, ws', hws', hname'⟩
    refine ⟨_, parseAddrEntry_eq_ok.mpr ⟨_, hfields, rfl⟩, parseAddrEntry_eq_ok.mpr ⟨_, hfields', ?_⟩⟩
    rw [addrLine, addrLine, hiface]

/-- Beside a message with a label and an address that are printed, another order is printed alike exactly when its own label
and address are. -/
theorem same_iff_kept {as' : List Attribute} {m' : List UInt8} (hm : AddrMessage e as m) (hm' : AddrMessage e as' m')
    (hperm : as'.Perm as) (u : Uapi) (hlabel : ∃ a ∈ as, a.type = iflaIfname) (hlocal : ∃ a ∈ as, a.type = ifaLocal)
    (hkept : LocalKept e as m rest ∧ LabelMet e as m rest) :
    (∃ line, parseAddrEntry u e (m ++ rest) = .ok line ∧ parseAddrEntry u e (m' ++ rest) = .ok line) ↔
      LocalKept e as' m' rest ∧ LabelMet e as' m' rest := by
  obtain ⟨line, hrun, iface, ip, hline, hlen, hiface, hip⟩ := (says_iff rest hm u).mpr hkept
  rw [← says_iff rest hm' u]
  constructor
  · rintro ⟨line', hrun', hrun''⟩
    obtain rfl : line = line' := Except.ok.inj (hrun.symm.trans hrun')
    exact ⟨line, hrun'', iface, ip, hline, hlen, fun a ha => hiface a (hperm.mem_iff.mp ha),
      fun a ha => hip a (hperm.mem_iff.mp ha)⟩
  · rintro ⟨line', hrun', iface', ip', hline', -, hiface', hip'⟩
    obtain ⟨a, ha, hat⟩ := hlabel
    obtain ⟨b, hb, hbt⟩ := hlocal
    have hname : iface = iface' := (hiface a ha hat).trans (hiface' a (hperm.mem_iff.mpr ha) hat).symm
    have haddr : ip = ip' := (hip b hb hbt).trans (hip' b (hperm.mem_iff.mpr hb) hbt).symm
    refine ⟨line, hrun, ?_⟩
    rw [hrun', hline', hline, hname, haddr]

/-- The address 10.0.0.1. -/
def localAttr : Attribute := ⟨ifaLocal, [10, 0, 0, 1]⟩

/-- The label `eth0`. -/
def labelAttr : Attribute := ⟨iflaIfname, [101, 116, 104, 48, 0]⟩

/-- The header of a message of 44 bytes, and its `struct ifaddrmsg`. -/
def addrHeader : List UInt8 := [44, 0, 0, 0, 20, 0, 2, 0] ++ List.replicate 16 0

/-- The address and behind it the label. -/
def addrFirst : List UInt8 := addrHeader ++ [8, 0, 2, 0, 10, 0, 0, 1, 9, 0, 3, 0, 101, 116, 104, 48, 0, 0, 0, 0]

/-- The label and behind it the address. -/
def labelFirst : List UInt8 := addrHeader ++ [9, 0, 3, 0, 101, 116, 104, 48, 0, 0, 0, 0, 8, 0, 2, 0, 10, 0, 0, 1]

theorem addrFirst_message : AddrMessage .little [localAttr, labelAttr] addrFirst := by
  have hlabel : Attributes .little addrFirst 32 [labelAttr] := .cons (by decide) rfl rfl rfl (.nil (by decide))
  exact ⟨⟨by decide, by decide, rfl⟩, rfl, by decide, .cons (by decide) rfl rfl rfl hlabel, by decide⟩

theorem labelFirst_message : AddrMessage .little [labelAttr, localAttr] labelFirst := by
  have hlocal : Attributes .little labelFirst 36 [localAttr] := .cons (by decide) rfl rfl rfl (.nil (by decide))
  exact ⟨⟨by decide, by decide, rfl⟩, rfl, by decide, .cons (by decide) rfl rfl rfl hlocal, by decide⟩

end SideWork.Netlink
