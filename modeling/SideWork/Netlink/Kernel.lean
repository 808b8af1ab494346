import SideWork.Netlink.RtEntry

/-!
# The kernel side of the netlink examples (`netlink_kernel.c`, `netfilter_kernel.c`)

`recv_user_msg` stores the sender's `nlmsg_pid` in the global `user_pid`, whether it accepts the message or not, counts
the messages it accepts and answers each. A run of the module handles one `skb` after another, and each time `alloc_skb`
may fail. `netfilter_kernel.c` has the same function without the answer.

- `recvUserMsg_rejected`, `recvUserMsg_accepted`: what one `skb` does;
- `run_from`: a run from any state;
- `run_replies`: one reply for each accepted `skb`, in order, to its own sender;
- `rejected_unchanged_iff`: when a rejected message leaves no trace, in both modules.
-/

namespace SideWork.Netlink

/-- What `recv_user_msg` sees of a `struct sk_buff`: at least a netlink header, and an arbitrary `skb->len`. -/
structure Skb where
  data : List UInt8
  len : Nat
  header : 16 ≤ data.length

/-- A message sent with `netlink_unicast`. -/
structure Reply where
  portid : Nat
  nlmsgType : Nat
  text : String
  deriving DecidableEq, Repr

/-- The globals `user_pid` and `count`, and what was sent so far. -/
structure Module where
  userPid : Int
  count : Int
  sent : List Reply
  deriving DecidableEq, Repr

/-- The module before the first message. -/
def Module.initial : Module := ⟨-1, 0, []⟩

def msgFromKernel : String := "Hi This is the response from VINCENT module."

/-- `RESPONSE_MSG_TYPE`. -/
def responseMsgType : Nat := 55

/-- An `int` as an `unsigned int`. -/
def uint32 (x : Int) : Nat := (x % 2 ^ 32).toNat

/-- `send_msg_to_user`, with what `alloc_skb` came to. It sends the global text, not its argument. -/
def sendMsgToUser (allocated : Bool) (s : Module) (_msg : String) (userPid : Int) : Module :=
  if ¬ allocated then s
  else { s with sent := s.sent ++ [⟨uint32 userPid, responseMsgType, msgFromKernel⟩] }

/-- `recv_user_msg`: `nlmsg_len` stands at 0 and `nlmsg_pid` at 12; `NLMSG_HDRLEN` is 16. -/
def recvUserMsg (e : Endian) (allocated : Bool) (s : Module) (skb : Skb) : Except Stop Module := do
  let nlmsgPid ← load e skb.data 12 4
  let s := { s with userPid := int32 nlmsgPid }
  let nlmsgLen ← load e skb.data 0 4
  if nlmsgLen < 16 ∨ skb.len < nlmsgLen then return s
  else
    let count ← checkedInt (s.count + 1)
    let s := { s with count := count }
    return sendMsgToUser allocated s msgFromKernel s.userPid

/-- `recv_user_msg` of `netfilter_kernel.c`, where the call of `send_msg_to_user` is commented out. -/
def Netfilter.recvUserMsg (e : Endian) (s : Module) (skb : Skb) : Except Stop Module := do
  let nlmsgPid ← load e skb.data 12 4
  let s := { s with userPid := int32 nlmsgPid }
  let nlmsgLen ← load e skb.data 0 4
  if nlmsgLen < 16 ∨ skb.len < nlmsgLen then return s
  else
    let count ← checkedInt (s.count + 1)
    return { s with count := count }

/-- A received `skb`, and whether `alloc_skb` succeeds while it is handled. -/
structure Arrival where
  skb : Skb
  allocated : Bool

/-- The module on one `skb` after another. -/
def runModule (e : Endian) : Module → List Arrival → Except Stop Module
  | s, [] => return s
  | s, a :: as => do
    let s ← recvUserMsg e a.allocated s a.skb
    runModule e s as

/-! ## One message -/

variable {e : Endian} {s : Module} {skb : Skb} {a : Arrival} {as : List Arrival}

/-- `nlmsg_pid` of a message. -/
def Skb.pid (e : Endian) (skb : Skb) : Nat := word e ((skb.data.drop 12).take 4)

/-- The length check: a whole header, and no more than was received. -/
def Accepted (e : Endian) (skb : Skb) : Prop :=
  16 ≤ word e (skb.data.take 4) ∧ word e (skb.data.take 4) ≤ skb.len

instance (e : Endian) (skb : Skb) : Decidable (Accepted e skb) := inferInstanceAs (Decidable (_ ∧ _))

/-- The reply to a message. -/
def reply (e : Endian) (skb : Skb) : Reply := ⟨skb.pid e, responseMsgType, msgFromKernel⟩

theorem uint32_int32 {w : Nat} (hw : w < 2 ^ 32) : uint32 (int32 w) = w := by
  unfold uint32 int32
  split <;> omega

theorem pid_lt (e : Endian) (skb : Skb) : skb.pid e < 2 ^ 32 := word_take_four_lt e _

theorem load_pid (e : Endian) (skb : Skb) : load e skb.data 12 4 = .ok (skb.pid e) := load_of_le skb.header

theorem load_len (e : Endian) (skb : Skb) : load e skb.data 0 4 = .ok (word e (skb.data.take 4)) :=
  load_of_le (by have := skb.header; omega)

/-- The condition of the early return. -/
theorem not_accepted_iff :
    ¬ Accepted e skb ↔ word e (skb.data.take 4) < 16 ∨ skb.len < word e (skb.data.take 4) := by
  unfold Accepted
  omega

/-- A rejected message leaves its sender's address behind, and nothing else. -/
theorem recvUserMsg_rejected (h : ¬ Accepted e skb) (allocated : Bool) :
    recvUserMsg e allocated s skb = .ok { s with userPid := int32 (skb.pid e) } := by
  rw [recvUserMsg, load_pid, ok_bind, load_len, ok_bind, if_pos (not_accepted_iff.mp h)]
  rfl

theorem netfilter_rejected (h : ¬ Accepted e skb) :
    Netfilter.recvUserMsg e s skb = .ok { s with userPid := int32 (skb.pid e) } := by
  rw [Netfilter.recvUserMsg, load_pid, ok_bind, load_len, ok_bind, if_pos (not_accepted_iff.mp h)]
  rfl

/-- An accepted message is counted and answered. -/
theorem recvUserMsg_accepted (h : Accepted e skb) (h₀ : 0 ≤ s.count) (h₁ : s.count + 1 < 2 ^ 31) (allocated : Bool) :
    recvUserMsg e allocated s skb = .ok ⟨int32 (skb.pid e), s.count + 1,
      if allocated then s.sent ++ [reply e skb] else s.sent⟩ := by
  have hlen : ¬ (word e (skb.data.take 4) < 16 ∨ skb.len < word e (skb.data.take 4)) := by
    unfold Accepted at h
    omega
  rw [recvUserMsg, load_pid, ok_bind, load_len, ok_bind, if_neg hlen,
    checkedInt_of_nonneg (x := s.count + 1) (by omega) h₁, ok_bind]
  cases allocated with
  | false => rfl
  | true => simp [sendMsgToUser, reply, uint32_int32 (pid_lt e skb)]

/-! ## Whole runs -/

/-- The messages that pass the length check. -/
def accepted (e : Endian) (as : List Arrival) : List Arrival := as.filter fun a => Accepted e a.skb

/-- From any state, a run adds one reply for each message that is accepted and for which memory could be had. -/
theorem run_from (h₀ : 0 ≤ s.count) (h₁ : s.count + as.length < 2 ^ 31) :
    ∃ s', runModule e s as = .ok s' ∧ s'.count = s.count + (accepted e as).length ∧
      s'.sent = s.sent ++ ((accepted e as).filter Arrival.allocated).map fun a => reply e a.skb := by
  induction as generalizing s with
  | nil => exact ⟨s, rfl, by simp [accepted], by simp [accepted]⟩
  | cons a as ih =>
    rw [List.length_cons, Nat.cast_add, Nat.cast_one] at h₁
    by_cases ha : Accepted e a.skb
    · obtain ⟨s', hr, hc, hs⟩ := ih (s := ⟨int32 (a.skb.pid e), s.count + 1,
        if a.allocated then s.sent ++ [reply e a.skb] else s.sent⟩) (by show 0 ≤ s.count + 1; omega)
        (by show s.count + 1 + as.length < 2 ^ 31; omega)
      have hcons : accepted e (a :: as) = a :: accepted e as := List.filter_cons_of_pos (by simpa using ha)
      refine ⟨s', ?_, ?_, ?_⟩
      · rw [runModule, recvUserMsg_accepted ha h₀ (by omega), ok_bind, hr]
      · rw [hc, hcons, List.length_cons, Nat.cast_add, Nat.cast_one]
        ring
      · rw [hs, hcons]
        cases hal : a.allocated <;> simp [hal]
    · obtain ⟨s', hr, hc, hs⟩ := ih (s := { s with userPid := int32 (a.skb.pid e) }) h₀
        (by show s.count + as.length < 2 ^ 31; omega)
      have hcons : accepted e (a :: as) = accepted e as := List.filter_cons_of_neg (by simpa using ha)
      refine ⟨s', ?_, ?_, ?_⟩
      · rw [runModule, recvUserMsg_rejected ha, ok_bind, hr]
      · rw [hc, hcons]
      · rw [hs, hcons]

/-- **Every accepted message is answered once, in order, to its own sender, and nothing else is sent**, whatever other
messages come in between; `count` is the number of accepted messages. -/
theorem run_replies (e : Endian) (as : List Arrival) (hlen : as.length < 2 ^ 31) (halloc : ∀ a ∈ as, a.allocated) :
    ∃ s, runModule e .initial as = .ok s ∧ s.count = (accepted e as).length ∧
      s.sent = (accepted e as).map (fun a => reply e a.skb) ∧
      s.sent.map Reply.portid = (accepted e as).map fun a => a.skb.pid e := by
  have hroom : Module.initial.count + as.length < 2 ^ 31 := by
    simp only [Module.initial]
    omega
  obtain ⟨s, hr, hc, hs⟩ := run_from (e := e) (le_refl 0) hroom
  have hall : (accepted e as).filter Arrival.allocated = accepted e as :=
    List.filter_eq_self.mpr fun a ha => halloc a (List.mem_of_mem_filter ha)
  rw [hall] at hs
  refine ⟨s, hr, by simpa [Module.initial] using hc, by simpa [Module.initial] using hs, ?_⟩
  rw [hs]
  simp [Module.initial, reply, Function.comp_def]

/-- A bare header of a message of `len` bytes from `pid`, in a buffer of 16 bytes. -/
def bareSkb (len pid : UInt8) : Arrival :=
  ⟨⟨[len, 0, 0, 0, 0, 0, 0, 0, 0, 0, 0, 0, pid, 0, 0, 0], 16, Nat.le_refl 16⟩, true⟩

/-- Between two clients, 7 and 8, a message from 9 that claims to be longer than it is: 7 and 8 are answered. -/
theorem run_replies_interleaved :
    ∃ s, runModule .little .initial [bareSkb 16 7, bareSkb 40 9, bareSkb 16 8] = .ok s ∧ s.count = 2 ∧
      s.sent.map Reply.portid = [7, 8] := by
  obtain ⟨s, hr, hc, -, hp⟩ := run_replies .little [bareSkb 16 7, bareSkb 40 9, bareSkb 16 8] (by decide) (by decide)
  exact ⟨s, hr, hc, hp⟩

/-! ## What a rejected message leaves behind -/

theorem ok_userPid_iff {pid : Int} : (.ok { s with userPid := pid } : Except Stop Module) = .ok s ↔ pid = s.userPid := by
  constructor
  · intro h
    exact congrArg Module.userPid (Except.ok.inj h)
  · rintro rfl
    rfl

/-- **A rejected message leaves the module as it was** exactly when it names the sender that `user_pid` already holds. -/
theorem rejected_unchanged_iff (h : ¬ Accepted e skb) (allocated : Bool) :
    (recvUserMsg e allocated s skb = .ok s ↔ int32 (skb.pid e) = s.userPid) ∧
      (Netfilter.recvUserMsg e s skb = .ok s ↔ int32 (skb.pid e) = s.userPid) := by
  rw [recvUserMsg_rejected h, netfilter_rejected h]
  exact ⟨ok_userPid_iff, ok_userPid_iff⟩

/-- A second message of client 9 that is too short. -/
theorem rejected_unchanged_again :
    recvUserMsg .little true ⟨9, 1, []⟩ (bareSkb 40 9).skb = .ok ⟨9, 1, []⟩ ∧
      Netfilter.recvUserMsg .little ⟨9, 1, []⟩ (bareSkb 40 9).skb = .ok ⟨9, 1, []⟩ :=
  have h := @rejected_unchanged_iff .little ⟨9, 1, []⟩ (bareSkb 40 9).skb (by decide) true
  ⟨h.1.mpr rfl, h.2.mpr rfl⟩

/-- The first message of all, a header of client 9 that claims 40 bytes. -/
theorem rejected_first_changed : ¬ Accepted .little (bareSkb 40 9).skb ∧
    recvUserMsg .little true .initial (bareSkb 40 9).skb = .ok ⟨9, 0, []⟩ ∧
    Netfilter.recvUserMsg .little .initial (bareSkb 40 9).skb = .ok ⟨9, 0, []⟩ ∧ Module.initial ≠ ⟨9, 0, []⟩ :=
  ⟨by decide, rfl, rfl, by decide⟩

end SideWork.Netlink
