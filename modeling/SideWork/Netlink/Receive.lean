import SideWork.Netlink.RtEntry

/-!
# The receive loop of `get_route`, `get_addr` and `get_link`

`for (nlh = reply; NLMSG_OK(nlh, len); nlh = NLMSG_NEXT(nlh, len))` over a reply of `len` bytes. The three programs differ
in the message type whose entry they parse. A visit of the loop is the offset of a message together with what the
`switch` does with it; the parsers themselves are those of `RtEntry`.

- `receive_encoded`: on messages laid out back to back, the loop visits each of them, once and in order;
- `receive_inside`: on any bytes the loop ends, and every message it visits lies inside the first `len` bytes;
- `receive_correct`: both, for each of the three programs.
-/

namespace SideWork.Netlink

/-- The three programs. -/
inductive Dump
  | route
  | addr
  | link
  deriving DecidableEq, Repr

/-- `RTM_NEWROUTE`, `RTM_NEWADDR`, `RTM_NEWLINK`. -/
def Dump.entryType : Dump → Nat
  | .route => 24
  | .addr => 20
  | .link => 16

/-- `NLMSG_DONE`. -/
def nlmsgDone : Nat := 3

/-- `NLMSG_ALIGN`. -/
def nlmsgAlign (len : Nat) : Nat := (len + 3) / 4 * 4

/-- The branches of the `switch`. -/
inductive Action
  | done
  | parseEntry
  | byDefault
  deriving DecidableEq, Repr

/-- `switch(nlh->nlmsg_type)`. -/
def Dump.action (d : Dump) (nlmsgType : Nat) : Action :=
  if nlmsgType = nlmsgDone then .done else if nlmsgType = d.entryType then .parseEntry else .byDefault

/-- A message the loop visits: where it starts, and the branch taken. -/
structure Visit where
  nlh : Nat
  action : Action
  deriving DecidableEq, Repr

/-- One turn of the loop: `NLMSG_OK`, the `switch`, and `NLMSG_NEXT`, after which `len` may be negative. -/
def receiveTurn (e : Endian) (d : Dump) (buf : List UInt8) :
    Nat × Int × List Visit → Except Stop (Nat × Int × List Visit ⊕ List Visit)
  | (nlh, len, vs) =>
    if 16 ≤ len then do
      let nlmsgLen ← load e buf nlh 4
      if 16 ≤ nlmsgLen ∧ (nlmsgLen : Int) ≤ len then
        let nlmsgType ← load e buf (nlh + 4) 2
        return .inl (nlh + nlmsgAlign nlmsgLen, len - nlmsgAlign nlmsgLen, vs ++ [⟨nlh, d.action nlmsgType⟩])
      else return .inr vs
    else return .inr vs

/-- The loop over a reply of `len` bytes in the buffer `buf`. -/
def receive (fuel : Nat) (e : Endian) (d : Dump) (buf : List UInt8) (len : Int) : Except Stop (List Visit) :=
  loop (receiveTurn e d buf) fuel (0, len, [])

/-! ## The turns -/

variable {e : Endian} {d : Dump} {buf : List UInt8} {nlh : Nat} {len : Int} {vs : List Visit}

/-- `nlmsg_len` of the message at `nlh`. -/
def nlmsgLen (e : Endian) (buf : List UInt8) (nlh : Nat) : Nat := word e ((buf.drop nlh).take 4)

/-- `nlmsg_type` of the message at `nlh`. -/
def nlmsgType (e : Endian) (buf : List UInt8) (nlh : Nat) : Nat := word e ((buf.drop (nlh + 4)).take 2)

/-- The bytes of the message at `nlh`. -/
def messageAt (e : Endian) (buf : List UInt8) (nlh : Nat) : List UInt8 := (buf.drop nlh).take (nlmsgLen e buf nlh)

/-- `NLMSG_OK(nlh, len)`. -/
def NlmsgOk (e : Endian) (buf : List UInt8) (nlh : Nat) (len : Int) : Prop :=
  16 ≤ len ∧ 16 ≤ nlmsgLen e buf nlh ∧ nlmsgLen e buf nlh ≤ len

theorem nlmsgAlign_ge (n : Nat) : n ≤ nlmsgAlign n := by
  unfold nlmsgAlign
  omega

theorem receiveTurn_ok (hin : nlh + 16 ≤ buf.length) (hok : NlmsgOk e buf nlh len) :
    receiveTurn e d buf (nlh, len, vs) = .ok (.inl (nlh + nlmsgAlign (nlmsgLen e buf nlh),
      len - nlmsgAlign (nlmsgLen e buf nlh), vs ++ [⟨nlh, d.action (nlmsgType e buf nlh)⟩])) := by
  obtain ⟨h16, hlow, hhigh⟩ := hok
  unfold nlmsgLen at hlow hhigh
  simp only [receiveTurn, if_pos h16, load_of_le (show nlh + 4 ≤ buf.length by omega), ok_bind,
    if_pos (And.intro hlow hhigh), load_of_le (show nlh + 4 + 2 ≤ buf.length by omega), pure_eq_ok]
  rfl

theorem receiveTurn_end (hin : 16 ≤ len → nlh + 16 ≤ buf.length) (hok : ¬ NlmsgOk e buf nlh len) :
    receiveTurn e d buf (nlh, len, vs) = .ok (.inr vs) := by
  by_cases h16 : 16 ≤ len
  · have hin := hin h16
    have hn : ¬ (16 ≤ word e ((buf.drop nlh).take 4) ∧ (word e ((buf.drop nlh).take 4) : Int) ≤ len) :=
      fun h => hok ⟨h16, h⟩
    simp only [receiveTurn, if_pos h16, load_of_le (show nlh + 4 ≤ buf.length by omega), ok_bind, if_neg hn,
      pure_eq_ok]
  · simp only [receiveTurn, if_neg h16, pure_eq_ok]

theorem receiveTurn_short (hlen : len < 16) : receiveTurn e d buf (nlh, len, vs) = .ok (.inr vs) := by
  apply receiveTurn_end
  · intro h16
    omega
  · rintro ⟨h16, -⟩
    omega

/-! ## Any bytes -/

/-- A visited message starts with a whole header and ends inside the first `len` bytes. -/
def Inside (e : Endian) (buf : List UInt8) (len : Int) (v : Visit) : Prop :=
  16 ≤ nlmsgLen e buf v.nlh ∧ (v.nlh : Int) + nlmsgLen e buf v.nlh ≤ len

/-- The offset and what is left of `len` always add up to the length received. -/
theorem loop_inside {total : Int} (htotal : total ≤ buf.length) (n : Nat) : ∀ (nlh : Nat) (len : Int) (vs : List Visit),
    nlh + len = total → len ≤ n → (∀ v ∈ vs, Inside e buf total v) →
    ∃ ws, (∀ v ∈ ws, Inside e buf total v) ∧
      ∀ fuel, n < fuel → loop (receiveTurn e d buf) fuel (nlh, len, vs) = .ok ws := by
  induction n with
  | zero =>
    intro nlh len vs hsum hlen hvs
    exact ⟨vs, hvs, fun fuel hf => loop_done_of_lt (receiveTurn_short (by omega)) hf⟩
  | succ n ih =>
    intro nlh len vs hsum hlen hvs
    by_cases hok : NlmsgOk e buf nlh len
    · obtain ⟨h16, hlow, hhigh⟩ := hok
      have hstep := nlmsgAlign_ge (nlmsgLen e buf nlh)
      have hin : Inside e buf total ⟨nlh, d.action (nlmsgType e buf nlh)⟩ :=
        ⟨hlow, show (nlh : Int) + nlmsgLen e buf nlh ≤ total by omega⟩
      have hvs' : ∀ v ∈ vs ++ [⟨nlh, d.action (nlmsgType e buf nlh)⟩], Inside e buf total v := by
        intro v hv
        rcases List.mem_append.mp hv with hv | hv
        · exact hvs v hv
        · rwa [List.mem_singleton.mp hv]
      obtain ⟨ws, hws, hl⟩ := ih (nlh + nlmsgAlign (nlmsgLen e buf nlh)) (len - nlmsgAlign (nlmsgLen e buf nlh)) _
        (by push_cast; omega) (by push_cast at hlen; omega) hvs'
      exact ⟨ws, hws, loop_again_of_lt (receiveTurn_ok (by omega) ⟨h16, hlow, hhigh⟩) hl⟩
    · exact ⟨vs, hvs, fun fuel hf => loop_done_of_lt (receiveTurn_end (by omega) hok) hf⟩

/-- On any bytes the loop ends, and visits only messages inside the first `len` bytes. -/
theorem receive_inside (e : Endian) (d : Dump) (buf : List UInt8) {len : Int} (hlen : len ≤ buf.length) :
    ∃ vs, Ends (fun fuel => receive fuel e d buf len) (.ok vs) ∧ ∀ v ∈ vs, Inside e buf len v := by
  obtain ⟨vs, hvs, hl⟩ := loop_inside hlen len.toNat 0 len [] (by simp) (by omega) (by simp)
  exact ⟨vs, ends_of_lt _ hl, hvs⟩

/-! ## Messages laid out back to back -/

/-- Messages one behind the other, each padded to a multiple of 4 bytes; the padding of the last one may be missing. -/
inductive Encoded (e : Endian) : List (List UInt8) → List UInt8 → Prop
  | nil : Encoded e [] []
  | last {m pad : List UInt8} (hm : Message e m) (hpad : m.length + pad.length ≤ nlmsgAlign m.length) :
      Encoded e [m] (m ++ pad)
  | cons {m pad bytes : List UInt8} {ms : List (List UInt8)} (hm : Message e m)
      (hpad : m.length + pad.length = nlmsgAlign m.length) (h : Encoded e ms bytes) :
      Encoded e (m :: ms) (m ++ (pad ++ bytes))

/-- The visits of messages laid out from `off` on. -/
def visitsFrom (e : Endian) (d : Dump) : Nat → List (List UInt8) → List Visit
  | _, [] => []
  | off, m :: ms => ⟨off, d.action (nlmsgType e m 0)⟩ :: visitsFrom e d (off + nlmsgAlign m.length) ms

section Header

variable {m : List UInt8} (hm : Message e m) (pre rest : List UInt8)
include hm

theorem nlmsgLen_mid : nlmsgLen e (pre ++ (m ++ rest)) pre.length = m.length := by
  have h4 : 4 ≤ m.length := by have := hm.header; omega
  rw [nlmsgLen, List.drop_left, List.take_append_of_le_length h4, hm.len]

theorem nlmsgType_mid : nlmsgType e (pre ++ (m ++ rest)) pre.length = nlmsgType e m 0 := by
  have h16 := hm.header
  have hdrop : (pre ++ (m ++ rest)).drop (pre.length + 4) = m.drop 4 ++ rest := by
    rw [← List.drop_drop, List.drop_left, List.drop_append_of_le_length (by omega)]
  rw [nlmsgType, nlmsgType, hdrop, List.take_append_of_le_length (by rw [List.length_drop]; omega)]

theorem messageAt_mid : messageAt e (pre ++ (m ++ rest)) pre.length = m := by
  rw [messageAt, nlmsgLen_mid hm, List.drop_left, List.take_left]

/-- The turn on a message that lies in the reply. -/
theorem receiveTurn_mid (hlen : m.length ≤ len) : receiveTurn e d (pre ++ (m ++ rest)) (pre.length, len, vs) =
    .ok (.inl (pre.length + nlmsgAlign m.length, len - nlmsgAlign m.length,
      vs ++ [⟨pre.length, d.action (nlmsgType e m 0)⟩])) := by
  have h16 := hm.header
  have hlm := nlmsgLen_mid hm pre rest
  have hok : NlmsgOk e (pre ++ (m ++ rest)) pre.length len := ⟨by omega, by omega, by omega⟩
  have hin : pre.length + 16 ≤ (pre ++ (m ++ rest)).length := by
    simp only [List.length_append]
    omega
  rw [receiveTurn_ok hin hok, hlm, nlmsgType_mid hm]

end Header

/-- From the start of the first message on, the loop visits them all. -/
theorem loop_encoded {ms : List (List UInt8)} {bytes : List UInt8} (h : Encoded e ms bytes) :
    ∀ (pre tail : List UInt8) (vs : List Visit) (fuel : Nat), ms.length < fuel →
      loop (receiveTurn e d (pre ++ (bytes ++ tail))) fuel (pre.length, bytes.length, vs) =
        .ok (vs ++ visitsFrom e d pre.length ms) := by
  induction h with
  | nil =>
    intro pre tail vs fuel hf
    rw [loop_done_of_lt (receiveTurn_short (by simp)) hf, visitsFrom, List.append_nil]
  | @last m pad hm hpad =>
    intro pre tail vs fuel hf
    obtain ⟨f, rfl⟩ := exists_succ hf
    -- `len` is 0 or negative after the last message
    have hneg : ((m ++ pad).length : Int) - nlmsgAlign m.length < 16 := by
      rw [List.length_append]
      omega
    have hlen : (m.length : Int) ≤ (m ++ pad).length := by simp
    rw [List.append_assoc m, loop_again (receiveTurn_mid hm pre (pad ++ tail) hlen),
      loop_done_of_lt (receiveTurn_short hneg) (by simpa using hf)]
    rfl
  | @cons m pad bytes ms hm hpad h ih =>
    intro pre tail vs fuel hf
    obtain ⟨f, rfl⟩ := exists_succ hf
    have hlen : (m.length : Int) ≤ (m ++ (pad ++ bytes)).length := by
      rw [List.length_append]
      omega
    have hpre : pre.length + nlmsgAlign m.length = (pre ++ (m ++ pad)).length := by simp [← hpad]
    have hrem : ((m ++ (pad ++ bytes)).length : Int) - nlmsgAlign m.length = bytes.length := by
      rw [List.length_append, List.length_append, ← hpad]
      omega
    have hrest := ih (pre ++ (m ++ pad)) tail (vs ++ [⟨pre.length, d.action (nlmsgType e m 0)⟩]) f
      (by simpa using hf)
    simp only [List.append_assoc] at hrest ⊢
    rw [loop_again (receiveTurn_mid hm pre _ hlen), hpre, hrem]
    simpa [visitsFrom, hpre] using hrest

/-- What the visits show is the messages and their branches. -/
theorem visitsFrom_messages {ms : List (List UInt8)} {bytes : List UInt8} (h : Encoded e ms bytes) :
    ∀ pre tail : List UInt8, (visitsFrom e d pre.length ms).map
      (fun v => (messageAt e (pre ++ (bytes ++ tail)) v.nlh, v.action)) =
        ms.map fun m => (m, d.action (nlmsgType e m 0)) := by
  induction h with
  | nil => exact fun pre tail => rfl
  | last hm hpad =>
    intro pre tail
    rw [visitsFrom, visitsFrom, List.map_singleton, List.map_singleton, List.append_assoc, messageAt_mid hm]
  | @cons m pad bytes ms hm hpad h ih =>
    intro pre tail
    have hpre : pre.length + nlmsgAlign m.length = (pre ++ (m ++ pad)).length := by simp [← hpad]
    have hrest := ih (pre ++ (m ++ pad)) tail
    simp only [List.append_assoc] at hrest ⊢
    rw [visitsFrom, List.map_cons, List.map_cons, messageAt_mid hm, hpre, hrest]

/-- On messages laid out back to back the loop visits each of them, once and in order, whatever follows the reply in the
buffer. -/
theorem receive_encoded {ms : List (List UInt8)} {bytes : List UInt8} (h : Encoded e ms bytes) (d : Dump)
    (tail : List UInt8) :
    Ends (fun fuel => receive fuel e d (bytes ++ tail) bytes.length) (.ok (visitsFrom e d 0 ms)) :=
  ends_of_lt ms.length fun fuel hf => loop_encoded h [] tail [] fuel hf

/-- The entry parser is called for the messages of the program's type. -/
theorem action_eq_parseEntry {t : Nat} : d.action t = .parseEntry ↔ t = d.entryType := by
  unfold Dump.action
  split
  · rename_i hdone
    subst hdone
    cases d <;> simp [Dump.entryType, nlmsgDone]
  · split <;> simp_all

/-- The messages for which the entry parser is called. -/
def parsed (e : Endian) (buf : List UInt8) (vs : List Visit) : List (List UInt8) :=
  (vs.filter fun v => v.action = .parseEntry).map fun v => messageAt e buf v.nlh

theorem parsed_of_messages {ms : List (List UInt8)} (h : vs.map (fun v => (messageAt e buf v.nlh, v.action)) =
    ms.map fun m => (m, d.action (nlmsgType e m 0))) :
    parsed e buf vs = ms.filter fun m => nlmsgType e m 0 = d.entryType := by
  induction ms generalizing vs with
  | nil =>
    obtain rfl := List.map_eq_nil_iff.mp h
    rfl
  | cons m ms ih =>
    obtain ⟨v, vs', rfl, hv, hvs⟩ := List.map_eq_cons_iff.mp h
    obtain ⟨hmsg, hact⟩ := Prod.mk.injEq .. ▸ hv
    have hrest := ih hvs
    unfold parsed at hrest ⊢
    by_cases ht : nlmsgType e m 0 = d.entryType
    · have ha : v.action = .parseEntry := by rw [hact, action_eq_parseEntry, ht]
      rw [List.filter_cons_of_pos (by simpa using ha), List.filter_cons_of_pos (by simpa using ht), List.map_cons,
        hrest, hmsg]
    · have ha : v.action ≠ .parseEntry := by rw [hact, Ne, action_eq_parseEntry]; exact ht
      rw [List.filter_cons_of_neg (by simpa using ha), List.filter_cons_of_neg (by simpa using ht), hrest]

/-- **The receive loop of each program.** On messages laid out back to back it visits exactly these, in order, and parses
the entries of exactly those of its type; on any bytes it ends and stays inside what was received. -/
theorem receive_correct (e : Endian) (d : Dump) :
    (∀ ms bytes tail, Encoded e ms bytes →
      ∃ vs, Ends (fun fuel => receive fuel e d (bytes ++ tail) bytes.length) (.ok vs) ∧ vs = visitsFrom e d 0 ms ∧
        (vs.map fun v => messageAt e (bytes ++ tail) v.nlh) = ms ∧
        parsed e (bytes ++ tail) vs = ms.filter fun m => nlmsgType e m 0 = d.entryType) ∧
    ∀ (buf : List UInt8) (len : Int), len ≤ buf.length →
      ∃ vs, Ends (fun fuel => receive fuel e d buf len) (.ok vs) ∧ ∀ v ∈ vs, Inside e buf len v := by
  constructor
  · intro ms bytes tail h
    have hmsgs := visitsFrom_messages (d := d) h [] tail
    refine ⟨_, receive_encoded h d tail, rfl, ?_, parsed_of_messages hmsgs⟩
    have hfst := congrArg (List.map Prod.fst) hmsgs
    simpa [Function.comp_def] using hfst
  · intro buf len hlen
    exact receive_inside e d buf hlen

/-- A route of 18 bytes. -/
def oneRoute : List UInt8 := [18, 0, 0, 0, 24, 0, 2, 0, 1, 0, 0, 0, 0, 0, 0, 0, 2, 24]

/-- `NLMSG_DONE`. -/
def doneMessage : List UInt8 := [16, 0, 0, 0, 3, 0, 2, 0, 1, 0, 0, 0, 0, 0, 0, 0]

/-- A route, padded, and the end of the dump: the loop of `get_route` parses the first and stops behind the second. -/
theorem receive_oneRoute : Encoded .little [oneRoute, doneMessage] (oneRoute ++ ([0, 0] ++ doneMessage)) ∧
    Ends (fun fuel => receive fuel .little .route (oneRoute ++ ([0, 0] ++ doneMessage) ++ [0, 0, 0, 0]) 36)
      (.ok [⟨0, .parseEntry⟩, ⟨20, .done⟩]) := by
  have hroute : Message .little oneRoute := ⟨by decide, by decide, by decide⟩
  have hdone : Message .little doneMessage := ⟨by decide, by decide, by decide⟩
  have hlast : Encoded .little [doneMessage] (doneMessage ++ []) := .last hdone (by decide)
  rw [List.append_nil] at hlast
  have henc : Encoded .little [oneRoute, doneMessage] (oneRoute ++ ([0, 0] ++ doneMessage)) :=
    .cons hroute (by decide) hlast
  obtain ⟨vs, he, rfl, -⟩ := (receive_correct .little .route).1 _ _ [0, 0, 0, 0] henc
  exact ⟨henc, he⟩

end SideWork.Netlink
