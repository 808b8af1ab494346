import SideWork.Lib.Bytes

/-!
# Route attributes

`parse_route_attributes` and its two copies walk a chain of attributes and enter each into a table under its type. All
offsets are from the netlink header `nlh` on, and the buffer is everything from there to the end of the receive buffer:
neither the walk nor the reads of the payloads know where the message ends.

- `Walk`: the attributes the walk meets, as long as their headers lie inside the buffer;
- `parseAttributes_of_walk`, `parseAttributes_outside`: the loop enters these attributes, or leaves the buffer;
- `exists_walk`: a buffer with room for the whole length is enough;
- `walk_attr`: the attributes of a walk lie inside the length.
-/

namespace SideWork.Netlink

/-- `RTA_ALIGN`. -/
def rtaAlign (len : Nat) : Nat := (len + 3) / 4 * 4

/-- A `struct rtattr *` variable: never written, `NULL`, or the offset of an attribute. -/
inductive Slot
  | unset
  | null
  | attr (rta : Nat)
  deriving DecidableEq, Repr

/-- A table of attributes on the stack: its slots, and the indices of the writes that missed it. -/
structure Table where
  slots : List Slot
  stray : List Nat
  deriving DecidableEq, Repr

/-- `struct rtattr *tb[n];` -/
def declare (n : Nat) : Table := ⟨List.replicate n .unset, []⟩

/-- `tb[i] = s;` -/
def Table.write (tb : Table) (i : Nat) (s : Slot) : Table :=
  if i < tb.slots.length then { tb with slots := tb.slots.set i s } else { tb with stray := tb.stray ++ [i] }

/-- `memset(tb, 0, sizeof(struct rtattr *)*n);` -/
def Table.memset (tb : Table) (n : Nat) : Table := (List.range n).foldl (fun tb i => tb.write i .null) tb

/-- `tb[i]`, as a pointer that may be `NULL`. -/
def Table.read (tb : Table) (i : Nat) : Except Stop (Option Nat) :=
  match tb.slots[i]? with
  | some (.attr rta) => .ok (some rta)
  | some .null => .ok none
  | some .unset => .error .uninitialised
  | none => .error .outOfBounds

/-- One turn of `while(RTA_OK(rta, len))`: `rta_len` and `rta_type` are the two 16 bit words of a header. -/
def attributeTurn (e : Endian) (buf : List UInt8) (max : Nat) :
    Table × Nat × Int → Except Stop (Table × Nat × Int ⊕ Table)
  | (tb, rta, len) =>
    if 4 ≤ len then do
      let rtaLen ← load e buf rta 2
      if 4 ≤ rtaLen ∧ (rtaLen : Int) ≤ len then
        let rtaType ← load e buf (rta + 2) 2
        let tb := if rtaType ≤ max then tb.write rtaType (.attr rta) else tb
        return .inl (tb, rta + rtaAlign rtaLen, len - rtaAlign rtaLen)
      else return .inr tb
    else return .inr tb

/-- The attribute loop. Every turn lowers `len` by at least 4, so that the fuel is never used up. -/
def parseAttributes (e : Endian) (buf : List UInt8) (tb : Table) (max rta : Nat) (len : Int) : Except Stop Table :=
  loop (attributeTurn e buf max) (len.toNat + 1) (tb, rta, len)

/-- `parse_route_attributes`. -/
def parseRouteAttributes := parseAttributes

/-- `parse_addr_attributes`. -/
def parseAddrAttributes := parseAttributes

/-- `parse_link_attributes`. -/
def parseLinkAttributes := parseAttributes

/-! ## The walk -/

/-- An attribute of a message. -/
structure Attr where
  type : Nat
  pos : Nat

variable {e : Endian} {buf : List UInt8}

/-- `rta_len` of the attribute at `pos`. -/
def rtaLen (e : Endian) (buf : List UInt8) (pos : Nat) : Nat := word e ((buf.drop pos).take 2)

/-- `rta_type` of the attribute at `pos`. -/
def rtaType (e : Endian) (buf : List UInt8) (pos : Nat) : Nat := word e ((buf.drop (pos + 2)).take 2)

/-- The walk from `pos` with `len` bytes to go meets the attributes `as`, and all it reads lies in the buffer. -/
inductive Walk (e : Endian) (buf : List UInt8) : Nat → Int → List Attr → Prop
  | short {pos : Nat} {len : Int} (hlen : len < 4) : Walk e buf pos len []
  | refused {pos : Nat} {len : Int} (hin : pos + 2 ≤ buf.length)
      (hlen : rtaLen e buf pos < 4 ∨ len < rtaLen e buf pos) : Walk e buf pos len []
  | attr {pos : Nat} {len : Int} {as : List Attr} (hin : pos + 4 ≤ buf.length) (hlow : 4 ≤ rtaLen e buf pos)
      (hhigh : rtaLen e buf pos ≤ len)
      (h : Walk e buf (pos + rtaAlign (rtaLen e buf pos)) (len - rtaAlign (rtaLen e buf pos)) as) :
      Walk e buf pos len (⟨rtaType e buf pos, pos⟩ :: as)

/-- The table after these attributes. -/
def enter (max : Nat) (tb : Table) (as : List Attr) : Table :=
  as.foldl (fun tb a => if a.type ≤ max then tb.write a.type (.attr a.pos) else tb) tb

/-- The last attribute of a type. -/
def lastOf (t : Nat) : List Attr → Option Nat
  | [] => none
  | a :: as => (lastOf t as).or (if a.type = t then some a.pos else none)

theorem rtaAlign_ge (len : Nat) : len ≤ rtaAlign len := by
  unfold rtaAlign
  omega

/-! ## The turns -/

section Turn

variable {max pos : Nat} {len : Int} (tb : Table)

theorem turn_short (h : len < 4) : attributeTurn e buf max (tb, pos, len) = .ok (.inr tb) := by
  have hn : ¬ 4 ≤ len := by omega
  simp [attributeTurn, hn]

theorem turn_refused (hin : pos + 2 ≤ buf.length) (hlen : rtaLen e buf pos < 4 ∨ len < rtaLen e buf pos) :
    attributeTurn e buf max (tb, pos, len) = .ok (.inr tb) := by
  unfold rtaLen at hlen
  have hn : ¬ (4 ≤ word e ((buf.drop pos).take 2) ∧ (word e ((buf.drop pos).take 2) : Int) ≤ len) := by omega
  unfold attributeTurn
  by_cases h4 : 4 ≤ len
  · simp only [if_pos h4, load_of_le hin, ok_bind, if_neg hn, pure_eq_ok]
  · simp only [if_neg h4, pure_eq_ok]

theorem turn_attr (hin : pos + 4 ≤ buf.length) (hlow : 4 ≤ rtaLen e buf pos) (hhigh : rtaLen e buf pos ≤ len) :
    attributeTurn e buf max (tb, pos, len) = .ok (.inl
      (if rtaType e buf pos ≤ max then tb.write (rtaType e buf pos) (.attr pos) else tb,
        pos + rtaAlign (rtaLen e buf pos), len - rtaAlign (rtaLen e buf pos))) := by
  have h4 : 4 ≤ len := by omega
  unfold rtaLen at hlow hhigh
  simp only [attributeTurn, if_pos h4, load_of_le (show pos + 2 ≤ buf.length by omega), ok_bind,
    if_pos (And.intro hlow hhigh), load_of_le (show pos + 2 + 2 ≤ buf.length by omega), pure_eq_ok]
  rfl

theorem turn_outside (h4 : 4 ≤ len) (hout : ¬ pos + 4 ≤ buf.length)
    (hok : pos + 2 ≤ buf.length → 4 ≤ rtaLen e buf pos ∧ rtaLen e buf pos ≤ len) :
    attributeTurn e buf max (tb, pos, len) = .error .outOfBounds := by
  rw [attributeTurn, if_pos h4]
  by_cases hin : pos + 2 ≤ buf.length
  · have hok := hok hin
    unfold rtaLen at hok
    simp only [load_of_le hin, ok_bind, if_pos hok, safeIff_load.2 (show ¬ pos + 2 + 2 ≤ buf.length by omega),
      error_bind]
  · rw [safeIff_load.2 hin]
    rfl

end Turn

/-! ## The loop -/

/-- The loop enters the attributes of the walk. -/
theorem loop_of_walk {max pos : Nat} {len : Int} {as : List Attr} (h : Walk e buf pos len as) :
    ∀ tb fuel, len.toNat < fuel → loop (attributeTurn e buf max) fuel (tb, pos, len) = .ok (enter max tb as) := by
  induction h with
  | short hlen =>
    intro tb fuel hf
    exact loop_done_of_lt (turn_short tb hlen) hf
  | refused hin hlen =>
    intro tb fuel hf
    exact loop_done_of_lt (turn_refused tb hin hlen) hf
  | @attr pos len as hin hlow hhigh h ih =>
    intro tb fuel hf
    have hge := rtaAlign_ge (rtaLen e buf pos)
    obtain ⟨k, rfl⟩ := exists_succ hf
    rw [loop_again (turn_attr tb hin hlow hhigh)]
    exact ih _ k (by omega)

/-- Without a walk, the loop leaves the buffer. -/
theorem loop_outside {max : Nat} (n : Nat) : ∀ tb pos (len : Int), len.toNat < n → (¬ ∃ as, Walk e buf pos len as) →
    loop (attributeTurn e buf max) n (tb, pos, len) = .error .outOfBounds := by
  induction n with
  | zero => intro tb pos len hn _; omega
  | succ n ih =>
    intro tb pos len hn hno
    have h4 : 4 ≤ len := by
      by_contra h
      exact hno ⟨[], .short (by omega)⟩
    have hok : pos + 2 ≤ buf.length → 4 ≤ rtaLen e buf pos ∧ rtaLen e buf pos ≤ len := by
      intro hin
      by_contra h
      exact hno ⟨[], .refused hin (by omega)⟩
    by_cases hin : pos + 4 ≤ buf.length
    · obtain ⟨hlow, hhigh⟩ := hok (by omega)
      have hge := rtaAlign_ge (rtaLen e buf pos)
      rw [loop_again (turn_attr tb hin hlow hhigh)]
      apply ih _ _ _ (by omega)
      rintro ⟨as, h⟩
      exact hno ⟨_, .attr hin hlow hhigh h⟩
    · exact loop_stop (turn_outside tb h4 hin hok)

theorem parseAttributes_of_walk {pos : Nat} {len : Int} {as : List Attr} (h : Walk e buf pos len as) (tb : Table)
    (max : Nat) : parseAttributes e buf tb max pos len = .ok (enter max tb as) :=
  loop_of_walk h tb _ (Nat.lt_succ_self _)

theorem parseAttributes_outside {pos : Nat} {len : Int} (h : ¬ ∃ as, Walk e buf pos len as) (tb : Table) (max : Nat) :
    parseAttributes e buf tb max pos len = .error .outOfBounds :=
  loop_outside _ tb pos len (Nat.lt_succ_self _) h

/-- A result of the loop comes from a walk. -/
theorem parseAttributes_eq_ok {tb tb' : Table} {max pos : Nat} {len : Int}
    (h : parseAttributes e buf tb max pos len = .ok tb') : ∃ as, Walk e buf pos len as ∧ tb' = enter max tb as := by
  by_cases hw : ∃ as, Walk e buf pos len as
  · obtain ⟨as, has⟩ := hw
    rw [parseAttributes_of_walk has] at h
    exact ⟨as, has, (Except.ok.inj h).symm⟩
  · rw [parseAttributes_outside hw] at h
    cases h

/-- Room for the whole length is enough. -/
theorem exists_walk (n : Nat) : ∀ (pos : Nat) (len : Int), len.toNat ≤ n → pos + len ≤ buf.length →
    ∃ as, Walk e buf pos len as := by
  induction n with
  | zero => exact fun pos len hn _ => ⟨[], .short (by omega)⟩
  | succ n ih =>
    intro pos len hn hroom
    by_cases h4 : 4 ≤ len
    · by_cases hok : 4 ≤ rtaLen e buf pos ∧ rtaLen e buf pos ≤ len
      · obtain ⟨hlow, hhigh⟩ := hok
        have hge := rtaAlign_ge (rtaLen e buf pos)
        obtain ⟨as, h⟩ := ih (pos + rtaAlign (rtaLen e buf pos)) (len - rtaAlign (rtaLen e buf pos)) (by omega)
          (by push_cast; omega)
        exact ⟨_, .attr (by omega) hlow hhigh h⟩
      · exact ⟨[], .refused (by omega) (by omega)⟩
    · exact ⟨[], .short (by omega)⟩

/-- The attributes that a walk meets lie inside the length. -/
theorem walk_attr {pos : Nat} {len : Int} {as : List Attr} (h : Walk e buf pos len as) : ∀ a ∈ as,
    a.type = rtaType e buf a.pos ∧ 4 ≤ rtaLen e buf a.pos ∧ (a.pos : Int) + rtaLen e buf a.pos ≤ pos + len := by
  induction h with
  | short => simp
  | refused => simp
  | @attr pos len as hin hlow hhigh h ih =>
    refine List.forall_mem_cons.mpr ⟨⟨rfl, hlow, by simp only; omega⟩, fun a ha => ?_⟩
    obtain ⟨htype, hlow', hle⟩ := ih a ha
    exact ⟨htype, hlow', by push_cast at hle; omega⟩

/-- And so do their headers. -/
theorem walk_pos {pos : Nat} {len : Int} {as : List Attr} (h : Walk e buf pos len as) :
    ∀ a ∈ as, (a.pos : Int) + 4 ≤ pos + len := by
  intro a ha
  obtain ⟨-, hlow, hle⟩ := walk_attr h a ha
  omega

/-- The walk is determined by the buffer. -/
theorem walk_unique {pos : Nat} {len : Int} {as as' : List Attr} (h : Walk e buf pos len as)
    (h' : Walk e buf pos len as') : as = as' := by
  induction h generalizing as' with
  | short hlen =>
    cases h' with
    | short => rfl
    | refused => rfl
    | attr _ hlow hhigh => omega
  | refused hin hlen =>
    cases h' with
    | short => rfl
    | refused => rfl
    | attr _ hlow hhigh => omega
  | attr hin hlow hhigh h ih =>
    cases h' with
    | short hlen => omega
    | refused _ hlen => omega
    | attr _ _ _ h' => rw [ih h']

theorem extends_attributeTurn (max : Nat) (rest : List UInt8) (s : Table × Nat × Int) :
    Extends (attributeTurn e buf max s) (attributeTurn e (buf ++ rest) max s) := by
  obtain ⟨tb, rta, len⟩ := s
  refine Extends.ite ?_ (Extends.refl _)
  refine Extends.bind (extends_load rest) fun rtaLen => ?_
  refine Extends.ite ?_ (Extends.refl _)
  exact Extends.bind (extends_load rest) fun rtaType => Extends.refl _

theorem extends_parseAttributes (tb : Table) (max pos : Nat) (len : Int) (rest : List UInt8) :
    Extends (parseAttributes e buf tb max pos len) (parseAttributes e (buf ++ rest) tb max pos len) :=
  Extends.loop (extends_attributeTurn max rest) _ _

/-! ## The table -/

theorem write_slots (tb : Table) (i : Nat) (s : Slot) : (tb.write i s).slots = tb.slots.set i s := by
  unfold Table.write
  by_cases h : i < tb.slots.length
  · rw [if_pos h]
  · rw [if_neg h, List.set_eq_of_length_le (by omega)]

theorem write_length (tb : Table) (i : Nat) (s : Slot) : (tb.write i s).slots.length = tb.slots.length := by
  rw [write_slots, List.length_set]

theorem memset_succ (tb : Table) (n : Nat) : tb.memset (n + 1) = (tb.memset n).write n .null := by
  rw [Table.memset, List.range_succ, List.foldl_append]
  rfl

theorem memset_length (tb : Table) (n : Nat) : (tb.memset n).slots.length = tb.slots.length := by
  induction n with
  | zero => rfl
  | succ n ih => rw [memset_succ, write_length, ih]

theorem memset_slot {n : Nat} {tb : Table} {t : Nat} (ht : t < tb.slots.length) :
    (tb.memset n).slots[t]? = if t < n then some .null else tb.slots[t]? := by
  induction n with
  | zero => rfl
  | succ n ih =>
    rw [memset_succ, write_slots, List.getElem?_set, memset_length]
    by_cases htn : n = t
    · subst htn
      rw [if_pos rfl, if_pos ht, if_pos (by omega)]
    · rw [if_neg htn, ih]
      by_cases hlt : t < n
      · rw [if_pos hlt, if_pos (by omega)]
      · rw [if_neg hlt, if_neg (by omega)]

/-- A cleared slot of a fresh table. -/
theorem read_memset {size n t : Nat} (hsize : t < size) (hn : t < n) : ((declare size).memset n).read t = .ok none := by
  have hlt : t < (declare size).slots.length := by simpa [declare] using hsize
  rw [Table.read, memset_slot hlt, if_pos hn]

theorem read_write {t : Nat} {tb : Table} (ht : t < tb.slots.length) (i rta : Nat) :
    (tb.write i (.attr rta)).read t = if i = t then .ok (some rta) else tb.read t := by
  unfold Table.read
  rw [write_slots, List.getElem?_set]
  by_cases hi : i = t
  · subst hi
    simp only [if_pos ht, if_true]
  · simp only [if_neg hi]

/-- A slot after the walk: the last attribute of its type, or what it was. -/
theorem read_enter {max t : Nat} (ht : t ≤ max) (as : List Attr) : ∀ {tb : Table}, t < tb.slots.length →
    (enter max tb as).read t = match lastOf t as with
      | some rta => .ok (some rta)
      | none => tb.read t := by
  induction as with
  | nil => intro tb _; rfl
  | cons a as ih =>
    intro tb hlt
    have hstep : ∀ tb' : Table, tb' = (if a.type ≤ max then tb.write a.type (.attr a.pos) else tb) →
        t < tb'.slots.length ∧ tb'.read t = if a.type = t then .ok (some a.pos) else tb.read t := by
      rintro _ rfl
      by_cases ha : a.type ≤ max
      · rw [if_pos ha, write_length]
        exact ⟨hlt, read_write hlt a.type a.pos⟩
      · rw [if_neg ha, if_neg (by omega)]
        exact ⟨hlt, rfl⟩
    obtain ⟨hlt', hread⟩ := hstep _ rfl
    have hrest := ih hlt'
    rw [hread] at hrest
    rw [enter, List.foldl_cons]
    apply hrest.trans
    rw [lastOf]
    cases lastOf t as with
    | some rta => rfl
    | none => by_cases ha : a.type = t <;> simp [ha]

/-- A slot that was cleared before the walk. -/
theorem read_entered {size n max t : Nat} (hsize : t < size) (hn : t < n) (ht : t ≤ max) (as : List Attr) :
    (enter max ((declare size).memset n) as).read t = .ok (lastOf t as) := by
  have hlt : t < (declare size).slots.length := by simpa [declare] using hsize
  rw [read_enter ht as (by rwa [memset_length]), read_memset hsize hn]
  cases lastOf t as <;> rfl

theorem lastOf_mem {t rta : Nat} {as : List Attr} (h : lastOf t as = some rta) :
    ∃ a ∈ as, a.type = t ∧ a.pos = rta := by
  induction as with
  | nil => cases h
  | cons a as ih =>
    rw [lastOf] at h
    cases hl : lastOf t as with
    | some rta' =>
      rw [hl] at h
      obtain ⟨a', ha', hrest⟩ := ih (hl.trans h)
      exact ⟨a', List.mem_cons_of_mem a ha', hrest⟩
    | none =>
      rw [hl] at h
      by_cases ha : a.type = t
      · rw [if_pos ha] at h
        exact ⟨a, List.mem_cons_self, ha, Option.some_inj.mp h⟩
      · rw [if_neg ha] at h
        cases h

theorem lastOf_append (t : Nat) (as bs : List Attr) : lastOf t (as ++ bs) = (lastOf t bs).or (lastOf t as) := by
  induction as with
  | nil => simp [lastOf]
  | cons a as ih => rw [List.cons_append, lastOf, lastOf, ih, Option.or_assoc]

theorem lastOf_ne_none {t : Nat} {as : List Attr} (h : ∃ a ∈ as, a.type = t) : lastOf t as ≠ none := by
  induction as with
  | nil => simp at h
  | cons b as ih =>
    rw [lastOf]
    cases hl : lastOf t as with
    | some rta => simp
    | none =>
      have hb : b.type = t := by
        obtain ⟨a, ha, hat⟩ := h
        rcases List.mem_cons.mp ha with rfl | ha
        · exact hat
        · exact absurd hl (ih ⟨a, ha, hat⟩)
      simp [hb]

end SideWork.Netlink
