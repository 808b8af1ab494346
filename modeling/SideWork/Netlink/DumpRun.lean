import SideWork.Netlink.AttrCodec

/-!
# Runs of `get_route` and `get_link`

The programs receive datagram after datagram into one buffer, which nobody clears, and print what their entry parsers
make of the messages. The walk of a parser goes on behind the attributes of its message: into the next message, and into
what earlier datagrams left behind this one.

- `dump_datagram`: the lines of a datagram, from those of its messages in their places;
- `parseRouteEntry_message`, `parseLinkEntry_message`: the line of an entry is that of its own attributes where the walk
  meets no attribute of the types that are printed behind them;
- `dump_lines`: the output of a run.
-/

namespace SideWork.Netlink

/-- `sizeof(reply)`. -/
def Dump.replySize : Dump → Nat
  | .addr => 12000
  | _ => 8192

/-- What `recvmsg` gives. -/
inductive Reception
  | failed (again : Bool) (error : String)
  | datagram (bytes : List UInt8)

/-- `"Get response, len=%d\n"`, which only `get_route` prints. -/
def Dump.printResponse (len : Int) : Dump → List String
  | .route => ["Get response, len=" ++ toString len ++ "\n"]
  | _ => []

/-- The branch of `NLMSG_DONE`. -/
def Dump.printDone : Dump → List String
  | .route => ["NLMSG_DONE\n"]
  | _ => []

/-- What is printed when `recvmsg` fails. -/
def printFailure (again : Bool) (error : String) : String :=
  if again then "sleep 250ms...\n" else "Failed to read netlink: " ++ error ++ "\n"

/-- The parser of the entries, and what it prints. -/
def Dump.parse (u : Uapi) (e : Endian) : Dump → List UInt8 → Except Stop (List String)
  | .route, nlh => do
    let line ← parseRouteEntry u e nlh
    return line.toList
  | .addr, nlh => do
    let line ← parseAddrEntry u e nlh
    return [line]
  | .link, nlh => do
    let line ← parseLinkEntry u e nlh
    return [line]

/-- The `switch`. -/
def Dump.print (u : Uapi) (e : Endian) (d : Dump) (nlh : List UInt8) (nlmsgType : Nat) : Except Stop (List String) :=
  match d.action nlmsgType with
  | .done => return d.printDone
  | .parseEntry => d.parse u e nlh
  | .byDefault => return ["Should not enter here by default\n"]

/-- One turn of the loop over the messages of a datagram. -/
def dumpTurn (u : Uapi) (e : Endian) (d : Dump) (reply : List UInt8) :
    Nat × Int × List String → Except Stop (Nat × Int × List String ⊕ List String)
  | (nlh, len, out) =>
    if 16 ≤ len then do
      let nlmsgLen ← load e reply nlh 4
      if 16 ≤ nlmsgLen ∧ (nlmsgLen : Int) ≤ len then
        let nlmsgType ← load e reply (nlh + 4) 2
        let lines ← d.print u e (reply.drop nlh) nlmsgType
        return .inl (nlh + nlmsgAlign nlmsgLen, len - nlmsgAlign nlmsgLen, out ++ lines)
      else return .inr out
    else return .inr out

/-- `while(1)`, on what `recvmsg` gives. `msg.msg_namelen` belongs to the request, and has its length. -/
def dump (fuel : Nat) (u : Uapi) (e : Endian) (d : Dump) : List UInt8 → List Reception → Except Stop (List String)
  | _, [] => return []
  | reply, .failed again error :: rs => do
    let out ← dump fuel u e d reply rs
    return d.printResponse (-1) ++ [printFailure again error] ++ out
  | reply, .datagram bytes :: rs => do
    -- no more than the buffer holds
    let bytes := bytes.take d.replySize
    let reply ← storeBytes reply 0 bytes
    let lines ← loop (dumpTurn u e d reply) fuel (0, bytes.length, [])
    let out ← dump fuel u e d reply rs
    return d.printResponse bytes.length ++ lines ++ out

variable {u : Uapi} {e : Endian} {d : Dump} {m buf : List UInt8} {as : List Attribute} {nlh : Nat} {len : Int}
  {out : List String}

/-! ## One datagram -/

theorem dumpTurn_short (h : len < 16) : dumpTurn u e d buf (nlh, len, out) = .ok (.inr out) := by
  rw [dumpTurn, if_neg (by omega)]
  rfl

/-- The turn on a message in its place. -/
theorem dumpTurn_mid (hm : Message e m) (pre rest : List UInt8) (hlen : m.length ≤ len) {lines : List String}
    (hp : d.print u e (m ++ rest) (nlmsgType e m 0) = .ok lines) :
    dumpTurn u e d (pre ++ (m ++ rest)) (pre.length, len, out) =
      .ok (.inl (pre.length + nlmsgAlign m.length, len - nlmsgAlign m.length, out ++ lines)) := by
  have h16 := hm.header
  have hload : load e (pre ++ (m ++ rest)) pre.length 4 = .ok m.length := by
    rw [load_of_le (by simp only [List.length_append]; omega)]
    exact congrArg _ (nlmsgLen_mid hm pre rest)
  have htype : load e (pre ++ (m ++ rest)) (pre.length + 4) 2 = .ok (nlmsgType e m 0) := by
    rw [load_of_le (by simp only [List.length_append]; omega)]
    exact congrArg _ (nlmsgType_mid hm pre rest)
  have hok : 16 ≤ m.length ∧ (m.length : Int) ≤ len := ⟨h16, hlen⟩
  rw [dumpTurn, if_pos (by omega), hload, ok_bind, if_pos hok, htype, ok_bind, List.drop_left, hp]
  rfl

/-- What the `switch` prints for messages in their places: each where the one before it ends. -/
inductive Tells (u : Uapi) (e : Endian) (d : Dump) : List UInt8 → List (List UInt8) → List String → Prop
  | nil {buf : List UInt8} : Tells u e d buf [] []
  | cons {buf m : List UInt8} {ms : List (List UInt8)} {lines out : List String}
      (hp : d.print u e buf (nlmsgType e m 0) = .ok lines) (h : Tells u e d (buf.drop (nlmsgAlign m.length)) ms out) :
      Tells u e d buf (m :: ms) (lines ++ out)

theorem loop_tells {ms : List (List UInt8)} {bytes : List UInt8} (h : Encoded e ms bytes) :
    ∀ (pre tail : List UInt8) (out lines : List String) (fuel : Nat), Tells u e d (bytes ++ tail) ms lines →
      ms.length < fuel → loop (dumpTurn u e d (pre ++ (bytes ++ tail))) fuel (pre.length, bytes.length, out) =
        .ok (out ++ lines) := by
  induction h with
  | nil =>
    intro pre tail out lines fuel ht hf
    cases ht
    rw [loop_done_of_lt (dumpTurn_short (by simp)) hf, List.append_nil]
  | @last m pad hm hpad =>
    intro pre tail out lines fuel ht hf
    obtain ⟨f, rfl⟩ := exists_succ hf
    cases ht with
    | cons hp hnil =>
      cases hnil
      -- `len` is 0 or negative after the last message
      have hneg : ((m ++ pad).length : Int) - nlmsgAlign m.length < 16 := by
        rw [List.length_append]
        omega
      have hlen : (m.length : Int) ≤ (m ++ pad).length := by simp
      rw [List.append_assoc] at hp ⊢
      rw [loop_again (dumpTurn_mid hm pre (pad ++ tail) hlen hp),
        loop_done_of_lt (dumpTurn_short hneg) (by simpa using hf), List.append_nil]
  | @cons m pad bytes ms hm hpad h ih =>
    intro pre tail out lines fuel ht hf
    obtain ⟨f, rfl⟩ := exists_succ hf
    cases ht with
    | @cons _ _ _ lines rest hp hrest =>
      have hlen : (m.length : Int) ≤ (m ++ (pad ++ bytes)).length := by
        rw [List.length_append]
        omega
      have hpre : pre.length + nlmsgAlign m.length = (pre ++ (m ++ pad)).length := by simp [← hpad]
      have hrem : ((m ++ (pad ++ bytes)).length : Int) - nlmsgAlign m.length = bytes.length := by
        rw [List.length_append, List.length_append, ← hpad]
        omega
      have hdrop : (m ++ (pad ++ bytes) ++ tail).drop (nlmsgAlign m.length) = bytes ++ tail := by
        rw [← hpad, ← List.length_append, ← List.append_assoc, List.append_assoc _ bytes, List.drop_left]
      rw [hdrop] at hrest
      have hnext := ih (pre ++ (m ++ pad)) tail (out ++ lines) rest f hrest (by simpa using hf)
      simp only [List.append_assoc] at hp hnext ⊢
      rw [loop_again (dumpTurn_mid hm pre _ hlen hp), hpre, hrem]
      simpa using hnext

/-- The loop over a datagram prints what its messages tell in their places. -/
theorem dump_datagram {ms : List (List UInt8)} {bytes tail : List UInt8} (h : Encoded e ms bytes)
    {lines : List String} (ht : Tells u e d (bytes ++ tail) ms lines) :
    Ends (fun fuel => loop (dumpTurn u e d (bytes ++ tail)) fuel (0, bytes.length, [])) (.ok lines) :=
  ends_of_lt ms.length fun fuel hf => loop_tells h [] tail [] lines fuel ht hf

/-! ## The attributes of an entry -/

/-- The payload of the last attribute of a type. -/
def lastPayload (t : Nat) : List Attribute → Option (List UInt8)
  | [] => none
  | a :: as => (lastPayload t as).or (if a.type = t then some a.payload else none)

theorem lastPayload_mem {t : Nat} {payload : List UInt8} (h : lastPayload t as = some payload) :
    ∃ a ∈ as, a.type = t ∧ a.payload = payload := by
  induction as with
  | nil => cases h
  | cons b as ih =>
    rw [lastPayload] at h
    cases hlast : lastPayload t as with
    | some payload' =>
      rw [hlast, Option.some_or] at h
      obtain ⟨a, ha, hat⟩ := ih (hlast.trans h)
      exact ⟨a, List.mem_cons_of_mem _ ha, hat⟩
    | none =>
      rw [hlast, Option.none_or] at h
      by_cases hb : b.type = t
      · rw [if_pos hb] at h
        exact ⟨b, List.mem_cons_self, hb, Option.some_inj.mp h⟩
      · rw [if_neg hb] at h
        cases h

/-- Where the last attribute of a type stands. -/
theorem lastOf_payload {pos : Nat} (h : Attributes e m pos as) (t : Nat) :
    match lastPayload t as with
    | none => lastOf t (placed pos as) = none
    | some payload => ∃ p, lastOf t (placed pos as) = some p ∧ p + 4 + payload.length ≤ m.length ∧
        Holds m (p + 4) payload := by
  induction h with
  | nil => rfl
  | @cons pos a as hin hlen htype hdata h ih =>
    rw [lastPayload, placed, lastOf]
    cases hlast : lastPayload t as with
    | some payload =>
      rw [hlast] at ih
      obtain ⟨p, hp, hin', hdata'⟩ := ih
      exact ⟨p, by rw [hp]; rfl, hin', hdata'⟩
    | none =>
      rw [hlast] at ih
      rw [show lastOf t _ = none from ih]
      by_cases ht : a.type = t
      · rw [if_pos ht, if_pos ht]
        exact ⟨pos, rfl, by rw [Nat.add_assoc]; exact hin, hdata⟩
      · rw [if_neg ht, if_neg ht]
        rfl

theorem lastOf_none_of {ws : List Attr} {t : Nat} (h : ∀ w ∈ ws, w.type ≠ t) : lastOf t ws = none := by
  by_contra hne
  obtain ⟨p, hp⟩ := Option.ne_none_iff_exists'.mp hne
  obtain ⟨w, hw, hwt, -⟩ := lastOf_mem hp
  exact h w hw hwt

/-- What the walk meets behind the attributes of its message, which start at `pos`, has none of these types. -/
def Harmless (e : Endian) (buf : List UInt8) (len : Int) (pos : Nat) (as : List Attribute) (types : List Nat) : Prop :=
  ∃ ws, Walk e buf (past pos as) (len + pos - past pos as) ws ∧ ∀ w ∈ ws, w.type ∉ types

/-- The walk is refused behind its message: there stands no length up to `pos`. -/
theorem harmless_of_refused {pos : Nat} {types : List Nat} (h : Attributes e m pos as)
    (hin : past pos as + 2 ≤ buf.length)
    (hlen : rtaLen e buf (past pos as) < 4 ∨ pos < rtaLen e buf (past pos as)) :
    Harmless e buf m.length pos as types := by
  have hpast := past_length h
  refine ⟨[], .refused hin (hlen.imp_right fun hlt => ?_), by simp⟩
  omega

section Slots

variable {pos : Nat} {types : List Nat} (h : Attributes e m pos as) (rest : List UInt8)
include h

/-- The walk of a parser, by the attributes of its message and those behind. -/
theorem walk_harmless (hh : Harmless e (m ++ rest) m.length pos as types) :
    ∃ ws, Walk e (m ++ rest) pos m.length ws ∧ ∀ t ∈ types, lastOf t ws = lastOf t (placed pos as) := by
  obtain ⟨bs, hbs, hno⟩ := hh
  refine ⟨placed pos as ++ bs, (walk_placed rest h (by omega)).mpr ⟨bs, rfl, hbs⟩, fun t ht => ?_⟩
  rw [lastOf_append, lastOf_none_of fun w hw heq => hno w hw (heq ▸ ht), Option.none_or]

/-- Four bytes of a slot. -/
theorem rtaData_payload {t : Nat} (h4 : ∀ a ∈ as, a.type = t → 4 ≤ a.payload.length) :
    rtaData (m ++ rest) (lastOf t (placed pos as)) = .ok ((lastPayload t as).map (List.take 4)) := by
  have hlast := lastOf_payload h t
  cases hp : lastPayload t as with
  | none =>
    rw [hp] at hlast
    rw [show lastOf t _ = none from hlast]
    rfl
  | some payload =>
    rw [hp] at hlast
    obtain ⟨p, hlast, hin, hdata⟩ := hlast
    obtain ⟨a, ha, hat, rfl⟩ := lastPayload_mem hp
    have hlong := h4 a ha hat
    rw [hlast, rtaData_eq_ok_iff]
    exact ⟨by rw [List.length_append]; omega, by rw [take_payload rest hlong hin hdata]; rfl⟩

/-- The string of a slot. -/
theorem rtaString_payload {t : Nat} (h0 : ∀ a ∈ as, a.type = t → 0 ∈ a.payload) :
    rtaString (m ++ rest) (lastOf t (placed pos as)) = .ok ((lastPayload t as).map (List.takeWhile (· ≠ 0))) := by
  have hlast := lastOf_payload h t
  cases hp : lastPayload t as with
  | none =>
    rw [hp] at hlast
    rw [show lastOf t _ = none from hlast]
    rfl
  | some payload =>
    rw [hp] at hlast
    obtain ⟨p, hlast, hin, hdata⟩ := hlast
    obtain ⟨a, ha, hat, rfl⟩ := lastPayload_mem hp
    obtain ⟨hmem, htake⟩ := takeWhile_payload rest (h0 a ha hat) hin hdata
    rw [hlast, rtaString_eq_ok_iff]
    exact ⟨hmem, by rw [htake]; rfl⟩

end Slots

/-! ## The entries -/

/-- The types that `parse_route_entry` prints. -/
def routeTypes : List Nat := [rtaTable, rtaGateway, rtaDst, rtaOif, rtaPrefsrc]

/-- The line of a route of the main table with these attributes. -/
def routeLine (e : Endian) (as : List Attribute) : String :=
  let data := fun t => (lastPayload t as).map (List.take 4)
  let int := fun (bs : Option (List UInt8)) => padRight 5 (toString (bs.elim 0 fun bs => int32 (word e bs)))
  let addr := fun (n : Nat) (bs : Option (List UInt8)) => padRight n (bs.elim "" inetNtop)
  "table=" ++ int (data rtaTable) ++ ", dst=" ++ addr 15 (data rtaDst) ++ ", gw=" ++ addr 15 (data rtaGateway) ++
    ", oif=" ++ int (data rtaOif) ++ ", prefsrc=" ++ addr 10 (data rtaPrefsrc) ++ "\n"

/-- The line of a link with this index, these flags and these attributes. -/
def linkLine (ifiIndex ifiFlags : Nat) (as : List Attribute) : String :=
  let state := if ifiFlags &&& iffUp ≠ 0 then "UP" else "DOWN"
  let running := if ifiFlags &&& iffRunning ≠ 0 then "RUNNING" else "NOT RUNNING"
  let ifname := (lastPayload iflaIfname as).map (List.takeWhile (· ≠ 0))
  "Interface" ++ toString (int32 ifiIndex) ++ "=" ++ padRight 10 (showString ifname) ++ " state=" ++
    padRight 5 state ++ " running=" ++ padRight 10 running ++ "\n"

/-- An `RTM_NEWROUTE` message; the attributes that are printed have their four bytes. -/
structure RouteMessage (e : Endian) (table : Nat) (as : List Attribute) (m : List UInt8) : Prop where
  message : Message e m
  type : nlmsgType e m 0 = Dump.route.entryType
  room : 28 ≤ m.length
  table : word e ((m.drop 20).take 1) = table
  attributes : Attributes e m 28 as
  long : ∀ a ∈ as, a.type ∈ routeTypes → 4 ≤ a.payload.length

/-- An `RTM_NEWLINK` message; the names end in a NUL. -/
structure LinkMessage (e : Endian) (ifiIndex ifiFlags : Nat) (as : List Attribute) (m : List UInt8) : Prop where
  message : Message e m
  type : nlmsgType e m 0 = Dump.link.entryType
  room : 32 ≤ m.length
  index : word e ((m.drop 20).take 4) = ifiIndex
  flags : word e ((m.drop 24).take 4) = ifiFlags
  attributes : Attributes e m 32 as
  named : ∀ a ∈ as, a.type = iflaIfname → 0 ∈ a.payload

/-- A route is printed as its message says, if it is of the main table. -/
theorem parseRouteEntry_message (u : Uapi) {table : Nat} (hm : RouteMessage e table as m) (rest : List UInt8)
    (hh : table = rtTableMain → Harmless e (m ++ rest) m.length 28 as routeTypes) :
    parseRouteEntry u e (m ++ rest) = .ok (if table = rtTableMain then some (routeLine e as) else none) := by
  have hlen := load_nlmsgLen hm.message rest
  have hint := int32_length hm.message
  have hroom := hm.room
  have htable : load e (m ++ rest) (16 + 4) 1 = .ok table := by
    rw [load_of_le (by rw [List.length_append]; omega), take_drop_append (by omega)]
    exact congrArg _ hm.table
  rw [parseRouteEntry, hlen, ok_bind, htable, ok_bind, hint]
  by_cases hmain : table = rtTableMain
  · rw [if_pos hmain, if_pos hmain]
    obtain ⟨ws, hws, hslots⟩ := walk_harmless hm.attributes rest (hh hmain)
    have hmax := u.rtaTable_le
    rw [parseRouteAttributes, parseAttributes_of_walk hws, ok_bind]
    have hread : ∀ t ∈ routeTypes, ∀ ht : t ≤ 15,
        (enter u.rtaMax ((declare (u.rtaMax + 1)).memset (u.rtaMax + 1)) ws).read t =
          .ok (lastOf t (placed 28 as)) := by
      intro t ht ht15
      rw [read_entered (by omega) (by omega) (by omega) ws, hslots t ht]
    have hdata : ∀ t ∈ routeTypes, rtaData (m ++ rest) (lastOf t (placed 28 as)) =
        .ok ((lastPayload t as).map (List.take 4)) := fun t ht =>
      rtaData_payload hm.attributes rest fun a ha hat => hm.long a ha (hat ▸ ht)
    simp only [hread rtaTable (by decide) (by decide), hread rtaGateway (by decide) (by decide),
      hread rtaDst (by decide) (by decide), hread rtaOif (by decide) (by decide),
      hread rtaPrefsrc (by decide) (by decide), ok_bind, hdata rtaTable (by decide), hdata rtaGateway (by decide),
      hdata rtaDst (by decide), hdata rtaOif (by decide), hdata rtaPrefsrc (by decide)]
    rfl
  · rw [if_neg hmain, if_neg hmain]
    rfl

/-- A link is printed as its message says. -/
theorem parseLinkEntry_message (u : Uapi) {ifiIndex ifiFlags : Nat} (hm : LinkMessage e ifiIndex ifiFlags as m)
    (rest : List UInt8) (hh : Harmless e (m ++ rest) m.length 32 as [iflaIfname]) :
    parseLinkEntry u e (m ++ rest) = .ok (linkLine ifiIndex ifiFlags as) := by
  have hlen := load_nlmsgLen hm.message rest
  have hint := int32_length hm.message
  have hroom := hm.room
  have hindex : load e (m ++ rest) (16 + 4) 4 = .ok ifiIndex := by
    rw [load_of_le (by rw [List.length_append]; omega), take_drop_append (by omega)]
    exact congrArg _ hm.index
  have hflags : load e (m ++ rest) (16 + 8) 4 = .ok ifiFlags := by
    rw [load_of_le (by rw [List.length_append]; omega), take_drop_append (by omega)]
    exact congrArg _ hm.flags
  obtain ⟨ws, hws, hslots⟩ := walk_harmless hm.attributes rest hh
  have hwalk : ∀ tb, parseLinkAttributes e (m ++ rest) tb u.iflaMax (16 + 16) m.length =
      .ok (enter u.iflaMax tb ws) := fun tb => parseAttributes_of_walk hws tb u.iflaMax
  simp only [parseLinkEntry, hlen, ok_bind, hint, hwalk, read_ifname, hflags, hindex, hslots iflaIfname (by simp),
    rtaString_payload hm.attributes rest hm.named]
  rfl

/-! ## The run -/

/-- What a message says. -/
inductive Meaning
  | route (table : Nat) (as : List Attribute)
  | link (ifiIndex ifiFlags : Nat) (as : List Attribute)
  | done
  | other

/-- The message says this to the program. -/
def Meaning.Is (e : Endian) (d : Dump) : Meaning → List UInt8 → Prop
  | .route table as, m => d = .route ∧ RouteMessage e table as m
  | .link ifiIndex ifiFlags as, m => d = .link ∧ LinkMessage e ifiIndex ifiFlags as m
  | .done, m => Message e m ∧ nlmsgType e m 0 = nlmsgDone
  | .other, m => Message e m ∧ nlmsgType e m 0 ≠ nlmsgDone ∧ nlmsgType e m 0 ≠ d.entryType

/-- What should be printed for it. -/
def Meaning.lines (e : Endian) (d : Dump) : Meaning → List String
  | .route table as => if table = rtTableMain then [routeLine e as] else []
  | .link ifiIndex ifiFlags as => [linkLine ifiIndex ifiFlags as]
  | .done => d.printDone
  | .other => ["Should not enter here by default\n"]

/-- Behind the message `m` at the start of `buf` stands nothing that its parser would print. -/
def Meaning.Apart (e : Endian) (buf m : List UInt8) : Meaning → Prop
  | .route table as => table = rtTableMain → Harmless e buf m.length 28 as routeTypes
  | .link _ _ as => Harmless e buf m.length 32 as [iflaIfname]
  | _ => True

theorem print_meaning (u : Uapi) {meaning : Meaning} (hm : meaning.Is e d m) (rest : List UInt8)
    (ha : meaning.Apart e (m ++ rest) m) :
    d.print u e (m ++ rest) (nlmsgType e m 0) = .ok (meaning.lines e d) := by
  rw [Dump.print]
  cases meaning with
  | route table as =>
    obtain ⟨rfl, hm⟩ := hm
    rw [action_eq_parseEntry.mpr hm.type]
    by_cases hmain : table = rtTableMain <;>
      simp [Dump.parse, Meaning.lines, parseRouteEntry_message u hm rest ha, hmain]
  | link ifiIndex ifiFlags as =>
    obtain ⟨rfl, hm⟩ := hm
    rw [action_eq_parseEntry.mpr hm.type]
    simp [Dump.parse, Meaning.lines, parseLinkEntry_message u hm rest ha]
  | done =>
    rw [hm.2]
    rfl
  | other =>
    rw [Dump.action, if_neg hm.2.1, if_neg hm.2.2]
    rfl

/-- Each of the messages in their places is apart from what stands behind it. -/
def AllApart (e : Endian) : List UInt8 → List Meaning → List (List UInt8) → Prop
  | buf, meaning :: meanings, m :: ms =>
    meaning.Apart e buf m ∧ AllApart e (buf.drop (nlmsgAlign m.length)) meanings ms
  | _, _, _ => True

theorem tells_meanings {ms : List (List UInt8)} {bytes : List UInt8} (h : Encoded e ms bytes) :
    ∀ (meanings : List Meaning) (tail : List UInt8), List.Forall₂ (Meaning.Is e d) meanings ms →
      AllApart e (bytes ++ tail) meanings ms →
      Tells u e d (bytes ++ tail) ms (meanings.flatMap (Meaning.lines e d)) := by
  induction h with
  | nil =>
    intro meanings tail hms ha
    cases hms
    exact .nil
  | @last m pad hm hpad =>
    intro meanings tail hms ha
    cases hms with
    | @cons meaning _ _ _ hmeaning hnil =>
      cases hnil
      have hp := print_meaning u hmeaning (pad ++ tail) (by rw [← List.append_assoc]; exact ha.1)
      rw [← List.append_assoc] at hp
      exact .cons hp .nil
  | @cons m pad bytes ms hm hpad h ih =>
    intro meanings tail hms ha
    have hdrop : (m ++ (pad ++ bytes) ++ tail).drop (nlmsgAlign m.length) = bytes ++ tail := by
      rw [← hpad, ← List.length_append, ← List.append_assoc, List.append_assoc _ bytes, List.drop_left]
    cases hms with
    | @cons meaning _ meanings _ hmeaning hrest =>
      obtain ⟨hfirst, hothers⟩ := ha
      rw [List.append_assoc] at hfirst
      have hp := print_meaning u hmeaning (pad ++ bytes ++ tail) hfirst
      rw [← List.append_assoc] at hp
      refine .cons hp ?_
      rw [hdrop] at hothers ⊢
      exact ih meanings tail hrest hothers

/-- A datagram of whole messages that say something, no longer than the buffer it is received into. -/
structure Datagram (e : Endian) (d : Dump) where
  meanings : List Meaning
  ms : List (List UInt8)
  bytes : List UInt8
  encoded : Encoded e ms bytes
  means : List.Forall₂ (Meaning.Is e d) meanings ms
  fits : bytes.length ≤ d.replySize

/-- What comes from the kernel. -/
inductive Event (e : Endian) (d : Dump)
  | failed (again : Bool) (error : String)
  | datagram (g : Datagram e d)

def Event.reception : Event e d → Reception
  | .failed again error => .failed again error
  | .datagram g => .datagram g.bytes

@[simp] theorem reception_failed (again : Bool) (error : String) :
    (Event.failed again error : Event e d).reception = .failed again error := rfl

@[simp] theorem reception_datagram (g : Datagram e d) : (Event.datagram g).reception = .datagram g.bytes := rfl

/-- What should be printed for it. -/
def Event.lines : Event e d → List String
  | .failed again error => d.printResponse (-1) ++ [printFailure again error]
  | .datagram g => d.printResponse g.bytes.length ++ g.meanings.flatMap (Meaning.lines e d)

/-- Every message is apart from what stands behind it in the buffer, with the bytes of earlier datagrams behind the last
one. -/
def ApartRun : List UInt8 → List (Event e d) → Prop
  | _, [] => True
  | reply, .failed _ _ :: events => ApartRun reply events
  | reply, .datagram g :: events =>
    let reply := g.bytes ++ reply.drop g.bytes.length
    AllApart e reply g.meanings g.ms ∧ ApartRun reply events

/-- **The output of a run** on datagrams of whole messages, whatever was in the buffer at first: for each datagram the
lines of its messages, in order, one for each route of the main table or each link, if no message is followed by what its
walk would take for one of its attributes. -/
theorem dump_lines (u : Uapi) {reply : List UInt8} {events : List (Event e d)} (hreply : reply.length = d.replySize)
    (ha : ApartRun reply events) :
    Ends (fun fuel => dump fuel u e d reply (events.map Event.reception)) (.ok (events.flatMap Event.lines)) := by
  induction events generalizing reply with
  | nil => exact ends_of_lt 0 fun _ _ => rfl
  | cons event events ih =>
    cases event with
    | failed again error =>
      obtain ⟨n, hn⟩ : ∃ n, ∀ fuel, n ≤ fuel → dump fuel u e d reply (events.map Event.reception) = .ok _ :=
        ih hreply ha
      refine ⟨n, fun fuel hf => ?_⟩
      change dump fuel u e d reply _ = _
      rw [List.map_cons, reception_failed, dump, hn fuel hf, ok_bind]
      rfl
    | datagram g =>
      obtain ⟨hg, hrest⟩ := ha
      let reply' := g.bytes ++ reply.drop g.bytes.length
      obtain ⟨n, hn⟩ : ∃ n, ∀ fuel, n ≤ fuel → loop (dumpTurn u e d reply') fuel (0, g.bytes.length, []) = .ok _ :=
        dump_datagram g.encoded (tells_meanings g.encoded g.meanings _ g.means hg)
      have hlen : reply'.length = d.replySize := by
        rw [List.length_append, List.length_drop, hreply]
        exact Nat.add_sub_of_le g.fits
      obtain ⟨k, hk⟩ : ∃ k, ∀ fuel, k ≤ fuel → dump fuel u e d reply' (events.map Event.reception) = .ok _ :=
        ih hlen hrest
      have hstore : storeBytes reply 0 g.bytes = .ok reply' := by
        rw [storeBytes, if_pos (by rw [hreply, Nat.zero_add]; exact g.fits), List.take_zero, List.nil_append,
          Nat.zero_add]
      refine ⟨max n k, fun fuel hf => ?_⟩
      change dump fuel u e d reply _ = _
      rw [List.map_cons, reception_datagram, dump, List.take_of_length_le g.fits, hstore, ok_bind,
        hn fuel ((le_max_left _ _).trans hf), ok_bind, hk fuel ((le_max_right _ _).trans hf), ok_bind]
      simp [Event.lines]

/-- The route `10.0.0.0` over the interface `oif`. -/
def tenRoute (oif : UInt8) : List UInt8 :=
  [44, 0, 0, 0, 24, 0, 2, 0, 1, 0, 0, 0, 0, 0, 0, 0] ++ [2, 8, 0, 0, 254, 3, 0, 1, 0, 0, 0, 0] ++
    [8, 0, 1, 0, 10, 0, 0, 0] ++ [8, 0, 4, 0, oif, 0, 0, 0]

/-- Its attributes. -/
def tenAttributes (oif : UInt8) : List Attribute := [⟨rtaDst, [10, 0, 0, 0]⟩, ⟨rtaOif, [oif, 0, 0, 0]⟩]

theorem tenRoute_is (oif : UInt8) : RouteMessage .little rtTableMain (tenAttributes oif) (tenRoute oif) where
  message := ⟨Nat.le_of_ble_eq_true rfl, by simp [tenRoute], rfl⟩
  type := rfl
  room := by simp [tenRoute]
  table := rfl
  attributes := by
    refine .cons ?_ rfl rfl rfl (.cons ?_ rfl rfl rfl (.nil ?_)) <;> simp [tenRoute, Attribute.length, rtaAlign]
  long := by simp [tenAttributes]

/-- Two of these routes in one datagram. -/
def tenRoutes : Datagram .little .route where
  meanings := [.route rtTableMain (tenAttributes 2), .route rtTableMain (tenAttributes 3)]
  ms := [tenRoute 2, tenRoute 3]
  bytes := tenRoute 2 ++ ([] ++ (tenRoute 3 ++ []))
  encoded := .cons (tenRoute_is 2).message rfl (.last (tenRoute_is 3).message (by decide))
  means := .cons ⟨rfl, tenRoute_is 2⟩ (.cons ⟨rfl, tenRoute_is 3⟩ .nil)
  fits := by decide

/-- The walk is refused behind a route when there stands no length up to 28. -/
theorem tenRoute_apart (oif : UInt8) (rest : List UInt8) (hrest : 2 ≤ rest.length)
    (hlen : rtaLen .little rest 0 < 4 ∨ 28 < rtaLen .little rest 0) :
    Meaning.Apart .little (tenRoute oif ++ rest) (tenRoute oif) (.route rtTableMain (tenAttributes oif)) := by
  intro _
  have hpast : past 28 (tenAttributes oif) = 44 := by
    simp [past, tenAttributes, Attribute.length, rtaAlign]
  have hbehind : rtaLen .little (tenRoute oif ++ rest) 44 = rtaLen .little rest 0 := by
    have hlen : (tenRoute oif).length = 44 := rfl
    rw [rtaLen, rtaLen, List.drop_left' hlen, List.drop_zero]
  refine harmless_of_refused (tenRoute_is oif).attributes ?_ (by rwa [hpast, hbehind])
  rw [hpast, List.length_append]
  exact Nat.add_le_add_left hrest 44

theorem rtaLen_replicate (n : Nat) : rtaLen .little (List.replicate (n + 2) 0) 0 = 0 := by
  rw [rtaLen, List.drop_zero, List.take_replicate, Nat.min_eq_left (Nat.le_add_left 2 n)]
  rfl

theorem tenRoutes_lines : ApartRun (List.replicate Dump.route.replySize 0) [Event.failed true "", .datagram tenRoutes] ∧
    Ends (fun fuel => dump fuel linux515 .little .route (List.replicate Dump.route.replySize 0)
      [.failed true "", .datagram tenRoutes.bytes]) (.ok ["Get response, len=-1\n", "sleep 250ms...\n",
        "Get response, len=88\n", routeLine .little (tenAttributes 2), routeLine .little (tenAttributes 3)]) := by
  have happart : ApartRun (List.replicate Dump.route.replySize 0) [Event.failed true "", .datagram tenRoutes] := by
    have hzeros : (List.replicate Dump.route.replySize (0 : UInt8)).drop tenRoutes.bytes.length =
        List.replicate (8102 + 2) 0 := List.drop_replicate
    refine ⟨?_, trivial⟩
    rw [hzeros]
    refine ⟨tenRoute_apart 2 (tenRoute 3 ++ List.replicate (8102 + 2) 0) ?_ (.inr (by decide)), ?_, trivial⟩
    · rw [List.length_append]
      exact Nat.le_add_right_of_le (by decide)
    · refine tenRoute_apart 3 (List.replicate (8102 + 2) 0) ?_ (.inl ?_)
      · rw [List.length_replicate]
        omega
      · rw [rtaLen_replicate]
        omega
  have hlines : [Event.failed true "", .datagram tenRoutes].flatMap Event.lines = ["Get response, len=-1\n",
      "sleep 250ms...\n", "Get response, len=88\n", routeLine .little (tenAttributes 2),
      routeLine .little (tenAttributes 3)] := rfl
  have h := dump_lines linux515 List.length_replicate happart
  rw [hlines] at h
  exact ⟨happart, h⟩

end SideWork.Netlink
