import SideWork.Netlink.RtEntry

/-!
# The attribute tables

The table `tb` of `parse_link_entry` has `IFLA_MAX + 1` slots, `tba` of `parse_addr_entry` `IFA_MAX + 1`; both are cleared
up to `RTA_MAX`, which lies between the two. The one `memset` stops short of the end of its table, the other one runs
past it.

- `memset_stray`, `read_uncleared`: what each `memset` misses;
- `tables_iff`: when every slot is `NULL` or an attribute that the walk has met, and nothing else has been written.
-/

namespace SideWork.Netlink

/-- `tb` of `parse_link_entry` after the walk. -/
def linkTable (u : Uapi) (e : Endian) (buf : List UInt8) : Except Stop Table := do
  let nlmsgLen ← load e buf 0 4
  parseLinkAttributes e buf ((declare (u.iflaMax + 1)).memset (u.rtaMax + 1)) u.iflaMax (16 + 16) (int32 nlmsgLen)

/-- `tba` of `parse_addr_entry` after the walk. -/
def addrTable (u : Uapi) (e : Endian) (buf : List UInt8) : Except Stop Table := do
  let nlmsgLen ← load e buf 0 4
  parseAddrAttributes e buf ((declare (u.ifaMax + 1)).memset (u.rtaMax + 1)) u.ifaMax (16 + 8) (int32 nlmsgLen)

variable {u : Uapi} {e : Endian} {buf : List UInt8}

/-- The name that `parse_link_entry` prints comes from this table. -/
theorem linkTable_of_entry {line : String} (h : parseLinkEntry u e buf = .ok line) :
    ∃ tb ifname, linkTable u e buf = .ok tb ∧ tb.read iflaIfname = .ok ifname := by
  obtain ⟨n, hn, h⟩ := bind_eq_ok h
  obtain ⟨tb, htb, h⟩ := bind_eq_ok h
  obtain ⟨ifname, hname, -⟩ := bind_eq_ok h
  refine ⟨tb, ifname, ?_, hname⟩
  rw [linkTable, hn, ok_bind, htb]

/-- And the address that `parse_addr_entry` prints from this one. -/
theorem addrTable_of_entry {line : String} (h : parseAddrEntry u e buf = .ok line) :
    ∃ tba ifaddr, addrTable u e buf = .ok tba ∧ tba.read ifaLocal = .ok ifaddr := by
  obtain ⟨n, hn, h⟩ := bind_eq_ok h
  obtain ⟨tba, htba, h⟩ := bind_eq_ok h
  obtain ⟨ifaddr, haddr, -⟩ := bind_eq_ok h
  refine ⟨tba, ifaddr, ?_, haddr⟩
  rw [addrTable, hn, ok_bind, htba]

/-! ## What the `memset`s miss -/

theorem write_stray {tb : Table} {i : Nat} (hi : i < tb.slots.length) (s : Slot) : (tb.write i s).stray = tb.stray := by
  rw [Table.write, if_pos hi]

/-- The clearing writes outside a table that is shorter. -/
theorem memset_stray (size n i : Nat) : i ∈ ((declare size).memset n).stray ↔ size ≤ i ∧ i < n := by
  induction n with
  | zero => simp [Table.memset, declare]
  | succ n ih =>
    have hlen : ((declare size).memset n).slots.length = size := by rw [memset_length, declare, List.length_replicate]
    rw [memset_succ]
    by_cases hn : n < size
    · rw [write_stray (by omega), ih]
      omega
    · rw [Table.write, if_neg (by omega), List.mem_append, ih, List.mem_singleton]
      omega

theorem memset_stray_nil {size n : Nat} (hn : n ≤ size) : ((declare size).memset n).stray = [] := by
  refine List.eq_nil_iff_forall_not_mem.mpr fun i hi => ?_
  rw [memset_stray] at hi
  omega

/-- A slot of a fresh table behind the cleared ones. -/
theorem read_uncleared {size n t : Nat} (hsize : t < size) (hn : n ≤ t) :
    ((declare size).memset n).read t = .error .uninitialised := by
  have hlt : t < (declare size).slots.length := by simpa [declare] using hsize
  rw [Table.read, memset_slot hlt, if_neg (by omega), declare, List.getElem?_replicate_of_lt hsize]

/-- The walk writes inside the table. -/
theorem enter_stray {max : Nat} (as : List Attr) : ∀ {tb : Table}, max < tb.slots.length →
    (enter max tb as).stray = tb.stray := by
  induction as with
  | nil => exact fun _ => rfl
  | cons a as ih =>
    intro tb hmax
    rw [enter, List.foldl_cons]
    by_cases ha : a.type ≤ max
    · rw [if_pos ha]
      exact (ih (by rw [write_length]; exact hmax)).trans (write_stray (by omega) _)
    · rw [if_neg ha]
      exact ih hmax

/-! ## The tables after the walk -/

/-- Every slot of a table of `size` slots is `NULL` or an attribute of its type that the walk has met, and no write has
missed the table. -/
structure Filled (size : Nat) (tb : Table) (as : List Attr) : Prop where
  slots : ∀ t < size, ∃ slot, tb.read t = .ok slot ∧ ∀ rta, slot = some rta → ∃ a ∈ as, a.type = t ∧ a.pos = rta
  stray : tb.stray = []

/-- A table cleared up to `n` is filled when its other slots are entered by the walk. -/
theorem filled_iff {size n max : Nat} (hmax : max + 1 = size) (hn : n ≤ size) (as : List Attr) :
    Filled size (enter max ((declare size).memset n) as) as ↔ ∀ t, n ≤ t → t < size → ∃ a ∈ as, a.type = t := by
  have hlen : ((declare size).memset n).slots.length = size := by rw [memset_length, declare, List.length_replicate]
  -- a slot is the last attribute of its type, or what the clearing has left
  have hread := fun (t : Nat) (ht : t < size) =>
    @read_enter max t (by omega) as ((declare size).memset n) (by omega)
  constructor
  · intro hf t hnt ht
    obtain ⟨slot, hslot, -⟩ := hf.slots t ht
    rw [hread t ht] at hslot
    cases hl : lastOf t as with
    | none =>
      rw [hl, read_uncleared ht hnt] at hslot
      cases hslot
    | some rta =>
      obtain ⟨a, ha, hat, -⟩ := lastOf_mem hl
      exact ⟨a, ha, hat⟩
  · intro hall
    refine ⟨fun t ht => ?_, ?_⟩
    · rw [hread t ht]
      cases hl : lastOf t as with
      | none =>
        have htn : t < n := by
          by_contra hnt
          exact lastOf_ne_none (hall t (by omega) ht) hl
        exact ⟨none, read_memset ht htn, by simp⟩
      | some rta => exact ⟨some rta, rfl, fun _ h => Option.some_inj.mp h ▸ lastOf_mem hl⟩
    · rw [enter_stray as (by omega), memset_stray_nil hn]

/-- `tb` of `parse_link_entry`, whenever the walk ends. -/
def LinkFilled (u : Uapi) (e : Endian) (buf : List UInt8) : Prop :=
  ∀ nlmsgLen as tb, load e buf 0 4 = .ok nlmsgLen → Walk e buf 32 (int32 nlmsgLen) as → linkTable u e buf = .ok tb →
    Filled (u.iflaMax + 1) tb as

/-- `tba` of `parse_addr_entry`, whenever the walk ends. -/
def AddrFilled (u : Uapi) (e : Endian) (buf : List UInt8) : Prop :=
  ∀ nlmsgLen as tba, load e buf 0 4 = .ok nlmsgLen → Walk e buf 24 (int32 nlmsgLen) as → addrTable u e buf = .ok tba →
    Filled (u.ifaMax + 1) tba as

theorem linkTable_of_walk {nlmsgLen : Nat} {as : List Attr} (hn : load e buf 0 4 = .ok nlmsgLen)
    (hw : Walk e buf 32 (int32 nlmsgLen) as) :
    linkTable u e buf = .ok (enter u.iflaMax ((declare (u.iflaMax + 1)).memset (u.rtaMax + 1)) as) := by
  rw [linkTable, hn, ok_bind]
  exact parseAttributes_of_walk hw _ _

theorem addrTable_of_walk {nlmsgLen : Nat} {as : List Attr} (hn : load e buf 0 4 = .ok nlmsgLen)
    (hw : Walk e buf 24 (int32 nlmsgLen) as) :
    addrTable u e buf = .ok (enter u.ifaMax ((declare (u.ifaMax + 1)).memset (u.rtaMax + 1)) as) := by
  rw [addrTable, hn, ok_bind]
  exact parseAttributes_of_walk hw _ _

theorem linkFilled_iff : LinkFilled u e buf ↔ ∀ nlmsgLen as, load e buf 0 4 = .ok nlmsgLen →
    Walk e buf 32 (int32 nlmsgLen) as → ∀ t, u.rtaMax < t → t ≤ u.iflaMax → ∃ a ∈ as, a.type = t := by
  have hmax := u.rta_lt_ifla
  have hfilled : ∀ as, Filled (u.iflaMax + 1) (enter u.iflaMax ((declare (u.iflaMax + 1)).memset (u.rtaMax + 1)) as) as ↔
      ∀ t, u.rtaMax + 1 ≤ t → t < u.iflaMax + 1 → ∃ a ∈ as, a.type = t := filled_iff rfl (by omega)
  constructor
  · intro hf n as hn hw t hlow hhigh
    exact (hfilled as).mp (hf n as _ hn hw (linkTable_of_walk hn hw)) t hlow (by omega)
  · intro hall n as tb hn hw htb
    rw [linkTable_of_walk hn hw] at htb
    cases htb
    exact (hfilled as).mpr fun t hlow hhigh => hall n as hn hw t hlow (by omega)

/-- The clearing of `tba` alone writes outside it. -/
theorem addrFilled_iff : AddrFilled u e buf ↔ ∀ nlmsgLen as, load e buf 0 4 = .ok nlmsgLen →
    ¬ Walk e buf 24 (int32 nlmsgLen) as := by
  have hmax := u.ifa_lt_rta
  constructor
  · intro hf n as hn hw
    have hstray := (hf n as _ hn hw (addrTable_of_walk hn hw)).stray
    rw [enter_stray as (by rw [memset_length, declare, List.length_replicate]; omega)] at hstray
    have hmem := (memset_stray (u.ifaMax + 1) (u.rtaMax + 1) (u.ifaMax + 1)).mpr (by omega)
    rw [hstray] at hmem
    cases hmem
  · intro hno n as tba hn hw
    exact absurd hw (hno n as hn)

/-- **The tables after the walk.** The one of `parse_link_entry` is as it should be exactly when the message carries an
attribute of every type above `RTA_MAX`; the one of `parse_addr_entry` never is. -/
theorem tables_iff (u : Uapi) (e : Endian) (buf : List UInt8) :
    (LinkFilled u e buf ↔ ∀ nlmsgLen as, load e buf 0 4 = .ok nlmsgLen → Walk e buf 32 (int32 nlmsgLen) as →
      ∀ t, u.rtaMax < t → t ≤ u.iflaMax → ∃ a ∈ as, a.type = t) ∧
    (AddrFilled u e buf ↔ ∀ nlmsgLen as, load e buf 0 4 = .ok nlmsgLen → ¬ Walk e buf 24 (int32 nlmsgLen) as) :=
  ⟨linkFilled_iff, addrFilled_iff⟩

/-- A link without attributes: 32 bytes, little endian. -/
def bareLink : List UInt8 := [32, 0, 0, 0, 16, 0, 2, 0] ++ List.replicate 24 0

/-- An address without attributes: 24 bytes, little endian. -/
def bareAddr : List UInt8 := [24, 0, 0, 0, 20, 0, 2, 0] ++ List.replicate 16 0

/-- Slot 31 of `tb` is not cleared, and clearing `tba` writes slots 11 to 30. -/
theorem bareLink_not_filled : ¬ LinkFilled linux515 .little (bareLink ++ zeros) ∧
    ¬ AddrFilled linux515 .little (bareAddr ++ zeros) := by
  constructor
  · have hn : load .little (bareLink ++ zeros) 0 4 = .ok 32 := by decide +kernel
    have hlen : rtaLen .little (bareLink ++ zeros) 32 < 4 := by decide +kernel
    rw [linkFilled_iff]
    intro hall
    have h31 := hall 32 [] hn (.refused (by decide) (Or.inl hlen)) 31 (by decide) (by decide)
    simp at h31
  · have hn : load .little (bareAddr ++ zeros) 0 4 = .ok 24 := by decide +kernel
    have hlen : rtaLen .little (bareAddr ++ zeros) 24 < 4 := by decide +kernel
    rw [addrFilled_iff]
    intro hno
    exact hno 24 [] hn (.refused (by decide) (Or.inl hlen))

end SideWork.Netlink
