import SideWork.Netlink.AddrOrder
import SideWork.Netlink.AttrTables
import SideWork.Netlink.RtnetlinkTest

/-!
# Reading a list of attributes back

The attribute loop on a table of `max + 1` `NULL` entries and on the first `len` bytes of a buffer, whatever they are; and
on the bytes of a list of attributes (`EncodedAttributes`), which it reads back.

- `attributes_encoded`: encoded attributes are laid out as the walk expects them;
- `holdsLast_encoded`: the table then holds the last attribute of each type, by its position;
- `attributes_parsed`: all of this for the four copies of the loop.
-/

namespace SideWork.Netlink

/-- A table of `max + 1` `NULL` entries. -/
def nullTable (max : Nat) : Table := ⟨List.replicate (max + 1) .null, []⟩

/-- The four copies of the attribute loop. -/
def attributeLoops : List (Endian → List UInt8 → Table → Nat → Nat → Int → Except Stop Table) :=
  [parseRouteAttributes, parseAddrAttributes, parseLinkAttributes, parseRtattr]

/-! ## Attributes as bytes -/

/-- Length, type and payload. -/
def Attribute.bytes (e : Endian) (a : Attribute) : List UInt8 :=
  wordBytes e 2 a.length ++ (wordBytes e 2 a.type ++ a.payload)

/-- Length and type fit into their 16 bits. -/
structure Attribute.InRange (a : Attribute) : Prop where
  length : a.length < 2 ^ 16
  type : a.type < 2 ^ 16

/-- The bytes of a list of attributes, each padded to a multiple of 4 bytes; the last one may lack its padding. -/
inductive EncodedAttributes (e : Endian) : List Attribute → List UInt8 → Prop
  | nil : EncodedAttributes e [] []
  | last {a : Attribute} (ha : a.InRange) : EncodedAttributes e [a] (a.bytes e)
  | cons {a : Attribute} {as : List Attribute} {pad m : List UInt8} (ha : a.InRange)
      (hpad : pad.length = rtaAlign a.length - a.length) (h : EncodedAttributes e as m) :
      EncodedAttributes e (a :: as) (a.bytes e ++ (pad ++ m))

variable {e : Endian} {as : List Attribute} {m buf : List UInt8} {a : Attribute}

theorem length_bytes (e : Endian) (a : Attribute) : (a.bytes e).length = a.length := by
  simp only [Attribute.bytes, List.length_append, length_wordBytes, Attribute.length]
  omega

/-- The header and the payload of an attribute, wherever its bytes stand. -/
theorem header_bytes (ha : a.InRange) (pre rest : List UInt8) :
    rtaLen e (pre ++ (a.bytes e ++ rest)) pre.length = a.length ∧
      rtaType e (pre ++ (a.bytes e ++ rest)) pre.length = a.type ∧
      Holds (pre ++ (a.bytes e ++ rest)) (pre.length + 4) a.payload := by
  have hlen : (wordBytes e 2 a.length).length = 2 := length_wordBytes e 2 _
  have htype : (wordBytes e 2 a.type).length = 2 := length_wordBytes e 2 _
  have hcut : a.bytes e ++ rest = wordBytes e 2 a.length ++ (wordBytes e 2 a.type ++ (a.payload ++ rest)) := by
    simp [Attribute.bytes]
  have hdrop : (pre ++ (a.bytes e ++ rest)).drop (pre.length + 2) = wordBytes e 2 a.type ++ (a.payload ++ rest) := by
    rw [← List.drop_drop, List.drop_left, hcut, List.drop_left' hlen]
  refine ⟨?_, ?_, ?_⟩
  · rw [rtaLen, List.drop_left, hcut, List.take_left' hlen, word_wordBytes]
    exact Nat.mod_eq_of_lt ha.length
  · rw [rtaType, hdrop, List.take_left' htype, word_wordBytes]
    exact Nat.mod_eq_of_lt ha.type
  · rw [Holds, show pre.length + 4 = pre.length + 2 + 2 by omega, ← List.drop_drop, hdrop, List.drop_left' htype,
      List.take_left]

/-- Encoded attributes are laid out one behind the other. -/
theorem attributes_encoded (h : EncodedAttributes e as m) : ∀ pre, Attributes e (pre ++ m) pre.length as := by
  induction h with
  | nil => exact fun pre => .nil (by simp)
  | @last a ha =>
    intro pre
    obtain ⟨hlen, htype, hdata⟩ := header_bytes (e := e) ha pre []
    rw [List.append_nil] at hlen htype hdata
    have hge := rtaAlign_ge a.length
    refine .cons ?_ hlen htype hdata (.nil ?_) <;> rw [List.length_append, length_bytes]
    omega
  | @cons a as pad m ha hpad h ih =>
    intro pre
    obtain ⟨hlen, htype, hdata⟩ := header_bytes (e := e) ha pre (pad ++ m)
    have hge := rtaAlign_ge a.length
    have hnext : pre.length + rtaAlign a.length = (pre ++ (a.bytes e ++ pad)).length := by
      rw [List.length_append, List.length_append, length_bytes, hpad]
      omega
    have hbehind := ih (pre ++ (a.bytes e ++ pad))
    rw [← hnext, List.append_assoc, List.append_assoc] at hbehind
    refine .cons ?_ hlen htype hdata hbehind
    rw [List.length_append, List.length_append, length_bytes]
    omega

/-! ## The last attribute of a type -/

theorem past_add (as : List Attribute) : ∀ pos, past pos as = pos + past 0 as := by
  induction as with
  | nil => exact fun _ => rfl
  | cons a as ih =>
    intro pos
    rw [past, past, ih, ih (0 + _)]
    omega

theorem placed_append (xs ys : List Attribute) : ∀ pos, placed pos (xs ++ ys) = placed pos xs ++ placed (past pos xs) ys := by
  induction xs with
  | nil => exact fun _ => rfl
  | cons x xs ih =>
    intro pos
    rw [List.cons_append, placed, ih]
    rfl

/-- The last attribute of a type among those that are laid out. -/
theorem lastOf_placed_last {xs ys : List Attribute} (hys : ∀ b ∈ ys, b.type ≠ a.type) (pos : Nat) :
    lastOf a.type (placed pos (xs ++ a :: ys)) = some (past pos xs) := by
  rw [placed_append, lastOf_append, placed, lastOf, lastOf_placed_none hys, if_pos rfl]
  rfl

/-- Behind the attributes `xs` stands the next one. -/
theorem encoded_at {xs ys : List Attribute} (h : EncodedAttributes e (xs ++ a :: ys) m) :
    (m.drop (past 0 xs)).take a.length = a.bytes e := by
  induction xs generalizing m with
  | nil =>
    cases h with
    | last ha => rw [past, List.drop_zero, List.take_of_length_le (length_bytes e a).le]
    | cons ha hpad h => rw [past, List.drop_zero, List.take_left' (length_bytes e a)]
  | cons x xs ih =>
    generalize hzs : x :: xs ++ a :: ys = zs at h
    cases h with
    | nil => cases hzs
    | last ha => simp at hzs
    | @cons b as pad m ha hpad h =>
      obtain ⟨rfl, rfl⟩ := List.cons.inj hzs
      have hge := rtaAlign_ge x.length
      have hlen : (x.bytes e ++ pad).length = 0 + rtaAlign x.length := by
        rw [List.length_append, length_bytes, hpad]
        omega
      rw [past, past_add, ← List.drop_drop, ← List.append_assoc, List.drop_left' hlen]
      exact ih h

/-! ## The walk -/

theorem past_length (h : Attributes e m pos as) : m.length ≤ past pos as := by
  induction h with
  | nil hend => exact hend
  | cons _ _ _ _ _ ih => exact ih

/-! ## The loop -/

/-- What the loop makes of the first `len` bytes: it has written inside the table only, and every entry is `NULL` or an
attribute of its type that lies inside these bytes. -/
structure Parsed (e : Endian) (buf : List UInt8) (len : Int) (max : Nat) (tb : Table) : Prop where
  slots : tb.slots.length = max + 1
  stray : tb.stray = []
  entry : ∀ t ≤ max, ∃ slot, tb.read t = .ok slot ∧ ∀ rta, slot = some rta →
    rtaType e buf rta = t ∧ 4 ≤ rtaLen e buf rta ∧ (rta : Int) + rtaLen e buf rta ≤ len

/-- The table holds the last attribute of each type up to `max`: where it stands in the buffer are its bytes, and all
attributes before it. -/
structure HoldsLast (e : Endian) (buf : List UInt8) (max : Nat) (as : List Attribute) (tb : Table) : Prop where
  last : ∀ xs a ys, as = xs ++ a :: ys → a.type ≤ max → (∀ b ∈ ys, b.type ≠ a.type) →
    tb.read a.type = .ok (some (past 0 xs)) ∧ (buf.drop (past 0 xs)).take a.length = a.bytes e
  none : ∀ t ≤ max, (∀ a ∈ as, a.type ≠ t) → tb.read t = .ok none

theorem memset_nullTable (max : Nat) : (nullTable max).memset (max + 1) = nullTable max := by
  have hstep : ∀ n ≤ max + 1, (nullTable max).memset n = nullTable max := by
    intro n hn
    induction n with
    | zero => rfl
    | succ n ih =>
      have hin : n < (nullTable max).slots.length := by simpa [nullTable] using hn
      rw [memset_succ, ih (by omega), Table.write, if_pos hin]
      simp [nullTable, List.set_replicate_self]
  exact hstep _ le_rfl

/-- On cleared tables the four copies are one function. -/
theorem attributeLoops_eq {parse : Endian → List UInt8 → Table → Nat → Nat → Int → Except Stop Table}
    (h : parse ∈ attributeLoops) (e : Endian) (buf : List UInt8) (max rta : Nat) (len : Int) :
    parse e buf (nullTable max) max rta len = parseAttributes e buf (nullTable max) max rta len := by
  simp only [attributeLoops, List.mem_cons, List.not_mem_nil, or_false] at h
  rcases h with rfl | rfl | rfl | rfl
  · rfl
  · rfl
  · rfl
  · rw [parseRtattr, memset_nullTable]

theorem read_nullTable {max t : Nat} (ht : t ≤ max) : (nullTable max).read t = .ok none := by
  rw [Table.read, nullTable, List.getElem?_replicate_of_lt (by omega)]

/-- An entry after a walk. -/
theorem read_enter_null {max t : Nat} (ht : t ≤ max) (ws : List Attr) :
    (enter max (nullTable max) ws).read t = .ok (lastOf t ws) := by
  have hlt : t < (nullTable max).slots.length := by simp [nullTable]; omega
  rw [read_enter ht ws hlt, read_nullTable ht]
  cases lastOf t ws <;> rfl

theorem enter_length (max : Nat) (ws : List Attr) : ∀ tb : Table, (enter max tb ws).slots.length = tb.slots.length := by
  induction ws with
  | nil => exact fun _ => rfl
  | cons w ws ih =>
    intro tb
    rw [enter, List.foldl_cons]
    apply (ih _).trans
    split
    · rw [write_length]
    · rfl

theorem parsed_of_walk {len : Int} {ws : List Attr} (h : Walk e buf 0 len ws) (max : Nat) :
    Parsed e buf len max (enter max (nullTable max) ws) := by
  have hsize : (nullTable max).slots.length = max + 1 := by simp [nullTable]
  refine ⟨by rw [enter_length, hsize], enter_stray ws (by omega), fun t ht => ⟨_, read_enter_null ht ws, ?_⟩⟩
  intro rta hrta
  obtain ⟨w, hw, hwt, rfl⟩ := lastOf_mem hrta
  obtain ⟨htype, hlow, hle⟩ := walk_attr h w hw
  exact ⟨htype ▸ hwt, hlow, by simpa using hle⟩

theorem eq_nil_of_encoded_nil (h : EncodedAttributes e as []) : as = [] := by
  have hattrs : Attributes e [] 0 as := attributes_encoded h []
  cases hattrs with
  | nil => rfl
  | cons hin => simp [Attribute.length] at hin

/-- The walk over the bytes of attributes meets these and nothing else. -/
theorem walk_encoded (h : EncodedAttributes e as m) {len : Int} (hlen : m.length = len.toNat) :
    Walk e m 0 len (placed 0 as) := by
  by_cases hneg : len < 0
  · obtain rfl : m = [] := List.length_eq_zero_iff.mp (by omega)
    rw [eq_nil_of_encoded_nil h]
    exact .short (by omega)
  · have hattrs : Attributes e m 0 as := attributes_encoded h []
    have hpast := past_length hattrs
    have hwalk := (@walk_placed e m as 0 [] hattrs len (by omega) (placed 0 as)).mpr
      ⟨[], (List.append_nil _).symm, .short (by omega)⟩
    rwa [List.append_nil] at hwalk

theorem holdsLast_encoded (h : EncodedAttributes e as m) (rest : List UInt8) (max : Nat) :
    HoldsLast e (m ++ rest) max as (enter max (nullTable max) (placed 0 as)) := by
  constructor
  · rintro xs a ys rfl hmax hys
    refine ⟨by rw [read_enter_null hmax, lastOf_placed_last hys], ?_⟩
    have hat := encoded_at h
    have hin : past 0 xs + a.length ≤ m.length := by
      have hlen := congrArg List.length hat
      have hpos : a.length = 4 + a.payload.length := rfl
      rw [length_bytes, List.length_take, List.length_drop] at hlen
      omega
    rw [take_drop_append hin, hat]
  · intro t ht hnone
    rw [read_enter_null ht, lastOf_placed_none hnone]

/-- **The attribute loops** on the first `len` bytes of any buffer: they come to an end, read nothing else, write inside the
table only and enter attributes that lie inside these bytes; and from the bytes of a list of attributes they read the last
one of each type back. -/
theorem attributes_parsed {parse : Endian → List UInt8 → Table → Nat → Nat → Int → Except Stop Table}
    (hparse : parse ∈ attributeLoops) (e : Endian) (buf : List UInt8) (max : Nat) {len : Int} (hlen : len ≤ buf.length) :
    ∃ tb, parse e buf (nullTable max) max 0 len = .ok tb ∧
      parse e (buf.take len.toNat) (nullTable max) max 0 len = .ok tb ∧ Parsed e buf len max tb ∧
      ∀ as, EncodedAttributes e as (buf.take len.toNat) → HoldsLast e buf max as tb := by
  obtain ⟨ws, hws⟩ : ∃ ws, Walk e (buf.take len.toNat) 0 len ws :=
    exists_walk len.toNat 0 len le_rfl (by rw [List.length_take]; omega)
  have hcut := parseAttributes_of_walk hws (nullTable max) max
  have hall := extends_parseAttributes (nullTable max) max 0 len (buf.drop len.toNat) _ hcut
  rw [List.take_append_drop] at hall
  simp only [attributeLoops_eq hparse]
  refine ⟨_, hall, hcut, ?_, fun as has => ?_⟩
  · obtain ⟨ws', hws', htb⟩ := parseAttributes_eq_ok hall
    rw [htb]
    exact parsed_of_walk hws' max
  · have hlen : (buf.take len.toNat).length = len.toNat := by
      rw [List.length_take]
      omega
    rw [walk_unique hws (walk_encoded has hlen)]
    have hholds := holdsLast_encoded has (buf.drop len.toNat) max
    rwa [List.take_append_drop] at hholds

/-- Three attributes, two of type 3 and one of type 9, the last one without its padding. -/
def duplicates : List Attribute := [⟨3, [1, 2]⟩, ⟨9, []⟩, ⟨3, [5]⟩]

theorem encoded_duplicates :
    EncodedAttributes .little duplicates [6, 0, 3, 0, 1, 2, 0, 0, 4, 0, 9, 0, 5, 0, 3, 0, 5] := by
  have hlast : EncodedAttributes .little [⟨3, [5]⟩] [5, 0, 3, 0, 5] :=
    .last ⟨by simp [Attribute.length], by simp⟩
  have hnext : EncodedAttributes .little [⟨9, []⟩, ⟨3, [5]⟩] ([4, 0, 9, 0] ++ ([] ++ [5, 0, 3, 0, 5])) :=
    .cons ⟨by simp [Attribute.length], by simp⟩ rfl hlast
  have hall : EncodedAttributes .little duplicates ([6, 0, 3, 0, 1, 2] ++ ([0, 0] ++ [4, 0, 9, 0, 5, 0, 3, 0, 5])) :=
    .cons ⟨by simp [Attribute.length], by simp⟩ rfl hnext
  exact hall

/-- The second attribute of type 3 is kept, that of type 9 is skipped. -/
theorem attributes_parsed_duplicates : ∃ tb,
    parseRouteAttributes .little [6, 0, 3, 0, 1, 2, 0, 0, 4, 0, 9, 0, 5, 0, 3, 0, 5] (nullTable 4) 4 0 17 = .ok tb ∧
      tb.read 3 = .ok (some 12) ∧ tb.read 1 = .ok none := by
  have hroute : parseRouteAttributes ∈ attributeLoops := List.mem_cons_self
  obtain ⟨tb, htb, -, -, hholds⟩ :=
    @attributes_parsed _ hroute .little [6, 0, 3, 0, 1, 2, 0, 0, 4, 0, 9, 0, 5, 0, 3, 0, 5] 4 17 le_rfl
  have h := hholds duplicates encoded_duplicates
  refine ⟨tb, htb, (h.last [⟨3, [1, 2]⟩, ⟨9, []⟩] ⟨3, [5]⟩ [] rfl (by simp) (by simp)).1, h.none 1 (by simp) ?_⟩
  simp [duplicates]

end SideWork.Netlink
