import SideWork.Netlink.Receive

/-!
# The message loop of `rtnetlink_test`

The loop over a received buffer has no step expression: a message is stepped over at the bottom of the body, and the
branch that refuses a length leaves with `continue`, before that. The refused header is then looked at again, with the
same `status`.

The loop collects what each message prints. A message whose printing leaves the buffer or prints a variable that was
never written has that fault in its place, and the loop goes on behind it.

- `showMessage_ne_outOfFuel`: printing a message ends, whatever it holds;
- `messageTurn_accepted`, `messageTurn_refused`: the two branches;
- `messages_ends_iff`: the loop ends exactly when it accepts every header it comes to.
-/

namespace SideWork.Netlink

def rtmNewlink : Nat := 16
def rtmDellink : Nat := 17
def rtmNewaddr : Nat := 20
def rtmDeladdr : Nat := 21
def rtmNewroute : Nat := 24
def rtmDelroute : Nat := 25

/-- `parseRtattr`. -/
def parseRtattr (e : Endian) (buf : List UInt8) (tb : Table) (max rta : Nat) (len : Int) : Except Stop Table :=
  parseAttributes e buf (tb.memset (max + 1)) max rta len

/-- A variable that is written only when an attribute is there. -/
def written {α : Type} : Option α → Except Stop α
  | some a => .ok a
  | none => .error .uninitialised

/-- What the body prints for the message at the start of `m`. `ifName` and `ifAddress` are written only if
`IFLA_IFNAME` and `IFA_LOCAL` are there. -/
def showMessage (u : Uapi) (e : Endian) (m : List UInt8) : Except Stop String := do
  let nlmsgType ← load e m 4 2
  if nlmsgType = rtmNewroute ∨ nlmsgType = rtmDelroute then return "Routing table was changed\n"
  else
    let nlmsgLen ← load e m 0 4
    let tb ← parseRtattr e m (declare (u.iflaMax + 1)) u.iflaMax (16 + 16) (int32 nlmsgLen)
    let ifName ← tb.read iflaIfname
    let ifiFlags ← load e m (16 + 8) 4
    let ifUpp := if ifiFlags &&& iffUp ≠ 0 then "UP" else "DOWN"
    let ifRunn := if ifiFlags &&& iffRunning ≠ 0 then "RUNNING" else "NOT RUNNING"
    let tba ← parseRtattr e m (declare (u.ifaMax + 1)) u.ifaMax (16 + 8) (int32 nlmsgLen)
    let ifAddress ← rtaData m (← tba.read ifaLocal)
    let name := do
      let bs ← written (← rtaString m ifName)
      return showString (some bs)
    if nlmsgType = rtmDeladdr then return "Interface " ++ (← name) ++ ": address was removed\n"
    else if nlmsgType = rtmDellink then return "Network interface " ++ (← name) ++ " was removed\n"
    else if nlmsgType = rtmNewlink then
      return "New network interface " ++ (← name) ++ ", state: " ++ ifUpp ++ " " ++ ifRunn ++ "\n"
    else if nlmsgType = rtmNewaddr then
      let address ← written ifAddress
      return "Interface " ++ (← name) ++ ": new address was assigned: " ++ inetNtop address ++ "\n"
    else return ""

/-- One turn of `for (h = buf; status >= sizeof(*h); )`. `sizeof` makes `len - sizeof(*h)` unsigned, and `l` takes its
low 32 bits. `NLMSG_ALIGN(len)` is unsigned too; where it would wrap, `l` is negative. -/
def messageTurn (u : Uapi) (e : Endian) (buf : List UInt8) : Nat × Int × List (Except Stop String) →
    Except Stop (Nat × Int × List (Except Stop String) ⊕ List (Except Stop String))
  | (h, status, out) =>
    if 16 ≤ status then do
      let nlmsgLen ← load e buf h 4
      let len := int32 nlmsgLen
      let l := int32 ((len - 16) % 2 ^ 32).toNat
      if l < 0 ∨ status < len then
        -- `continue`
        return .inl (h, status, out ++ [.ok ("Invalid message length: " ++ toString len ++ "\n")])
      else
        return .inl (h + nlmsgAlign nlmsgLen, status - nlmsgAlign nlmsgLen, out ++ [showMessage u e (buf.drop h)])
    else return .inr out

/-- The loop over the `status` bytes received, with what it prints. -/
def messages (fuel : Nat) (u : Uapi) (e : Endian) (buf : List UInt8) (status : Int) :
    Except Stop (List (Except Stop String)) :=
  loop (messageTurn u e buf) fuel (0, status, [])

variable {u : Uapi} {e : Endian} {buf : List UInt8}

/-! ## Printing a message ends -/

theorem read_ne_outOfFuel (tb : Table) (t : Nat) : tb.read t ≠ .error .outOfFuel := by
  unfold Table.read
  split <;> nofun

theorem rtaData_ne_outOfFuel (slot : Option Nat) : rtaData buf slot ≠ .error .outOfFuel := by
  cases slot with
  | none => nofun
  | some rta => exact bind_ne_error (loadBytes_ne_error nofun) fun _ => nofun

theorem rtaString_ne_outOfFuel (slot : Option Nat) : rtaString buf slot ≠ .error .outOfFuel := by
  cases slot with
  | none => nofun
  | some rta => exact bind_ne_error (loadString_ne_error nofun) fun _ => nofun

theorem written_ne_outOfFuel {α : Type} (x : Option α) : written x ≠ .error .outOfFuel := by
  cases x <;> nofun

/-- The attribute walk comes to its end or leaves the buffer. -/
theorem parseRtattr_ne_outOfFuel (tb : Table) (max rta : Nat) (len : Int) :
    parseRtattr e buf tb max rta len ≠ .error .outOfFuel := by
  unfold parseRtattr
  by_cases h : ∃ as, Walk e buf rta len as
  · obtain ⟨as, has⟩ := h
    rw [parseAttributes_of_walk has]
    nofun
  · rw [parseAttributes_outside h]
    nofun

theorem showMessage_ne_outOfFuel (u : Uapi) (e : Endian) (m : List UInt8) : showMessage u e m ≠ .error .outOfFuel := by
  refine bind_ne_error (load_ne_error nofun) fun nlmsgType => ?_
  split
  · nofun
  refine bind_ne_error (load_ne_error nofun) fun nlmsgLen => ?_
  refine bind_ne_error (parseRtattr_ne_outOfFuel _ _ _ _) fun tb => ?_
  refine bind_ne_error (read_ne_outOfFuel _ _) fun ifName => ?_
  refine bind_ne_error (load_ne_error nofun) fun ifiFlags => ?_
  refine bind_ne_error (parseRtattr_ne_outOfFuel _ _ _ _) fun tba => ?_
  refine bind_ne_error (read_ne_outOfFuel _ _) fun slot => ?_
  refine bind_ne_error (rtaData_ne_outOfFuel _) fun ifAddress => ?_
  have hname : (do let bs ← written (← rtaString m ifName); return showString (some bs)) ≠
      (.error .outOfFuel : Except Stop String) :=
    bind_ne_error (rtaString_ne_outOfFuel _) fun _ => bind_ne_error (written_ne_outOfFuel _) fun _ => nofun
  split
  · exact bind_ne_error hname fun _ => nofun
  split
  · exact bind_ne_error hname fun _ => nofun
  split
  · exact bind_ne_error hname fun _ => nofun
  split
  · exact bind_ne_error (written_ne_outOfFuel _) fun _ => bind_ne_error hname fun _ => nofun
  · nofun

/-! ## The turns -/

variable {nlh : Nat} {left status : Int} {out : List (Except Stop String)}

/-- The test of the loop lets this `nlmsg_len` through when `left` bytes are left. From `2 ^ 31` on, `len` is negative, and
the words of the second line are those for which `l` is not. -/
def LenAccepted (left : Int) (nlmsgLen : Nat) : Prop :=
  16 ≤ nlmsgLen ∧ nlmsgLen < 2 ^ 31 ∧ nlmsgLen ≤ left ∨
  2 ^ 31 ≤ nlmsgLen ∧ nlmsgLen < 2 ^ 31 + 16

theorem lenAccepted_iff {n : Nat} (hn : n < 2 ^ 32) (hleft : 16 ≤ left) :
    LenAccepted left n ↔ ¬ (int32 ((int32 n - 16) % 2 ^ 32).toNat < 0 ∨ left < int32 n) := by
  unfold LenAccepted int32
  split <;> split <;> omega

theorem nlmsgLen_lt (e : Endian) (buf : List UInt8) (nlh : Nat) : nlmsgLen e buf nlh < 2 ^ 32 := word_take_four_lt e _

theorem messageTurn_accepted (hin : nlh + left ≤ buf.length) (h16 : 16 ≤ left)
    (hacc : LenAccepted left (nlmsgLen e buf nlh)) : messageTurn u e buf (nlh, left, out) =
      .ok (.inl (nlh + nlmsgAlign (nlmsgLen e buf nlh), left - nlmsgAlign (nlmsgLen e buf nlh),
        out ++ [showMessage u e (buf.drop nlh)])) := by
  rw [lenAccepted_iff (nlmsgLen_lt e buf nlh) h16] at hacc
  unfold nlmsgLen at hacc
  simp only [messageTurn, if_pos h16, load_of_le (show nlh + 4 ≤ buf.length by omega), ok_bind, if_neg hacc,
    pure_eq_ok]
  rfl

/-- The turn on a refused header leaves the header and `status` as they were. -/
theorem messageTurn_refused (hin : nlh + left ≤ buf.length) (h16 : 16 ≤ left)
    (hacc : ¬ LenAccepted left (nlmsgLen e buf nlh)) : messageTurn u e buf (nlh, left, out) =
      .ok (.inl (nlh, left, out ++
        [.ok ("Invalid message length: " ++ toString (int32 (nlmsgLen e buf nlh)) ++ "\n")])) := by
  rw [lenAccepted_iff (nlmsgLen_lt e buf nlh) h16, not_not] at hacc
  unfold nlmsgLen at hacc
  simp only [messageTurn, if_pos h16, load_of_le (show nlh + 4 ≤ buf.length by omega), ok_bind, if_pos hacc,
    pure_eq_ok]
  rfl

theorem messageTurn_end (h : left < 16) : messageTurn u e buf (nlh, left, out) = .ok (.inr out) := by
  rw [messageTurn, if_neg (by omega), pure_eq_ok]

/-! ## The headers the loop comes to -/

/-- The headers of the buffer, one `nlmsg_len` behind the other, with what is left of `status` there. -/
inductive Header (e : Endian) (buf : List UInt8) (status : Int) : Nat → Int → Prop
  | first : Header e buf status 0 status
  | next {nlh : Nat} {left : Int} (h : Header e buf status nlh left) (h16 : 16 ≤ left)
      (hacc : LenAccepted left (nlmsgLen e buf nlh)) :
      Header e buf status (nlh + nlmsgAlign (nlmsgLen e buf nlh)) (left - nlmsgAlign (nlmsgLen e buf nlh))

/-- Every header is accepted. -/
def AllAccepted (e : Endian) (buf : List UInt8) (status : Int) : Prop :=
  ∀ nlh left, Header e buf status nlh left → 16 ≤ left → LenAccepted left (nlmsgLen e buf nlh)

/-- The offset and what is left add up to what was received. -/
theorem Header.sum {nlh : Nat} {left : Int} (h : Header e buf status nlh left) : nlh + left = status := by
  induction h with
  | first => simp
  | next h h16 hacc ih =>
    push_cast
    omega

theorem LenAccepted.pos {n : Nat} (h : LenAccepted left n) : 0 < nlmsgAlign n := by
  have hge := nlmsgAlign_ge n
  unfold LenAccepted at h
  omega

/-- Behind accepted headers `status` runs out: every turn takes something off it. -/
theorem loop_accepted (hstatus : status ≤ buf.length) (hall : AllAccepted e buf status) (n : Nat) :
    ∀ (nlh : Nat) (left : Int) (out : List (Except Stop String)), Header e buf status nlh left → left ≤ n →
      .error .outOfFuel ∉ out → ∃ out', .error .outOfFuel ∉ out' ∧
        ∀ fuel, n < fuel → loop (messageTurn u e buf) fuel (nlh, left, out) = .ok out' := by
  induction n with
  | zero =>
    intro nlh left out hh hleft hout
    exact ⟨out, hout, fun fuel hf => loop_done_of_lt (messageTurn_end (by omega)) hf⟩
  | succ n ih =>
    intro nlh left out hh hleft hout
    by_cases h16 : 16 ≤ left
    · have hacc := hall nlh left hh h16
      have hpos := hacc.pos
      have hsum := hh.sum
      have hout' : .error .outOfFuel ∉ out ++ [showMessage u e (buf.drop nlh)] := by
        rw [List.mem_append, List.mem_singleton, not_or]
        exact ⟨hout, (showMessage_ne_outOfFuel _ _ _).symm⟩
      obtain ⟨out', hfin, hl⟩ := ih _ _ _ (hh.next h16 hacc) (by push_cast at hleft; omega) hout'
      exact ⟨out', hfin, loop_again_of_lt (messageTurn_accepted (by omega) h16 hacc) hl⟩
    · exact ⟨out, hout, fun fuel hf => loop_done_of_lt (messageTurn_end (by omega)) hf⟩

/-- On a refused header the loop goes round for ever. -/
theorem diverges_refused (hin : nlh + left ≤ buf.length) (h16 : 16 ≤ left)
    (hacc : ¬ LenAccepted left (nlmsgLen e buf nlh)) (out : List (Except Stop String)) :
    Diverges (messageTurn u e buf) (nlh, left, out) := by
  refine diverges_of_inv (fun s => s.1 = nlh ∧ s.2.1 = left) ?_ ⟨rfl, rfl⟩
  rintro ⟨nlh, left, out⟩ ⟨rfl, rfl⟩
  exact ⟨_, messageTurn_refused hin h16 hacc, rfl, rfl⟩

/-- And so it does on every buffer that leads it there. -/
theorem diverges_header (hstatus : status ≤ buf.length) (hh : Header e buf status nlh left)
    (hd : ∀ out, Diverges (messageTurn u e buf) (nlh, left, out)) : Diverges (messageTurn u e buf) (0, status, []) := by
  induction hh with
  | first => exact hd []
  | next hh h16 hacc ih =>
    have hsum := hh.sum
    exact ih fun out => Diverges.again (messageTurn_accepted (by omega) h16 hacc) (hd _)

/-- **The message loop.** It ends exactly when it accepts every header it comes to, and else goes round for ever. -/
theorem messages_ends_iff (u : Uapi) (e : Endian) (buf : List UInt8) (status : Int) (hstatus : status ≤ buf.length) :
    ((∃ out, Ends (fun fuel => messages fuel u e buf status) (.ok out) ∧ .error .outOfFuel ∉ out) ↔
      AllAccepted e buf status) ∧
    (¬ AllAccepted e buf status → ∀ fuel, messages fuel u e buf status = .error .outOfFuel) := by
  have hdiv : ¬ AllAccepted e buf status → ∀ fuel, messages fuel u e buf status = .error .outOfFuel := by
    intro hno
    obtain ⟨nlh, left, hh, h16, hacc⟩ : ∃ nlh left, Header e buf status nlh left ∧ 16 ≤ left ∧
        ¬ LenAccepted left (nlmsgLen e buf nlh) := by
      simpa [AllAccepted] using hno
    have hsum := hh.sum
    exact diverges_header hstatus hh (diverges_refused (by omega) h16 hacc)
  refine ⟨⟨?_, ?_⟩, hdiv⟩
  · rintro ⟨out, ⟨n, hn⟩, -⟩
    by_contra hno
    have hrun := (hn n le_rfl).symm.trans (hdiv hno n)
    cases hrun
  · intro hall
    obtain ⟨out, hout, hl⟩ := loop_accepted hstatus hall status.toNat 0 status [] .first (by omega) (by simp)
    exact ⟨out, ends_of_lt _ hl, hout⟩

/-- A received route of 18 bytes: printed, and the loop ends behind it. -/
theorem messages_oneRoute_ends : AllAccepted .little (oneRoute ++ zeros) 18 ∧
    ∃ out, Ends (fun fuel => messages fuel linux515 .little (oneRoute ++ zeros) 18) (.ok out) := by
  have hlen : nlmsgLen .little (oneRoute ++ zeros) 0 = 18 := by decide
  have hacc : LenAccepted 18 18 := Or.inl ⟨by omega, by omega, by omega⟩
  have hall : AllAccepted .little (oneRoute ++ zeros) 18 := by
    intro nlh left hh h16
    cases hh with
    | first =>
      rw [hlen]
      exact hacc
    | @next nlh left hh h16' hacc' =>
      -- 2 bytes are left of the 18, or less
      have hge := nlmsgAlign_ge (nlmsgLen .little (oneRoute ++ zeros) nlh)
      have hsum := hh.sum
      unfold LenAccepted at hacc'
      omega
  obtain ⟨out, hends, -⟩ := (messages_ends_iff linux515 .little (oneRoute ++ zeros) 18 (by decide)).1.mpr hall
  exact ⟨hall, out, hends⟩

/-- The receive buffer, with a header of zeros: the loop refuses its `nlmsg_len` of 0 again and again, and does not end. -/
theorem messages_zeros_spins :
    ¬ ∃ r, Ends (fun fuel => messages fuel linux515 .little (List.replicate 8192 0) 16) r ∧ r ≠ .error .outOfFuel := by
  have hlen : nlmsgLen .little (List.replicate 8192 0) 0 = 0 := by
    rw [nlmsgLen, List.drop_zero, List.take_replicate]
    rfl
  have hacc : ¬ LenAccepted 16 (nlmsgLen .little (List.replicate 8192 0) 0) := by
    rw [hlen, LenAccepted]
    omega
  have hin : ((0 : Nat) : Int) + 16 ≤ (List.replicate 8192 (0 : UInt8)).length := by
    rw [List.length_replicate]
    omega
  rintro ⟨r, ⟨n, hn⟩, hr⟩
  exact hr ((hn n le_rfl).symm.trans (diverges_refused hin le_rfl hacc [] n))

end SideWork.Netlink
