import SideWork.Lib.System
import SideWork.Netlink.Kernel

/-!
# The clients of the netlink module (`netlink_vincent.c`, `netfilter_user.c`)

Each client fills one message, sends it three times and then receives for ever. The module answers inside `sendmsg`, into
the queue of the socket that is bound to the message's `nlmsg_pid`. Any number of clients run at the same time; the calls
of all of them interleave, and one `recv_user_msg` runs at a time. A call may fail at any time, `alloc_skb` may fail, and
a queue may have no room for a reply.

- `fillMessage_spec`: the message of a client;
- `showReply_reply`: what a client prints of a reply;
- `clients_answered`: what a client has heard, in every interleaving.

What `netlink_unicast` and `recvmsg` do with a message is written down here as the manual pages have it: a reply goes to
the end of its socket's queue, and `recvmsg` takes the first message, as much of it as the buffer holds.
-/

namespace SideWork.Netlink

/-- `cli_msg`. -/
def cliMsg : String := "Hello! This is VINCENT from user space"

/-- `VINCENT_HELLO`. -/
def vincentHello : Nat := 5566

/-- `sizeof(buf)`. -/
def bufSize : Nat := 1050

/-- Steps 5 and 6: the header, and `strcpy` of the payload. The flags and the sequence number are not set. -/
def fillMessage (e : Endian) (pid : Nat) (buf : List UInt8) : Except Stop (List UInt8) := do
  let buf ← storeBytes buf 12 (wordBytes e 4 pid)
  let buf ← storeBytes buf 0 (wordBytes e 4 bufSize)
  let buf ← storeBytes buf 4 (wordBytes e 2 vincentHello)
  storeBytes buf 16 (ascii cliMsg ++ [0])

/-- What a client prints: of a message that `NLMSG_OK` accepts, or of anything else. A `response_type` that is `NULL` shows
as `(null)`. -/
inductive ClientLine
  | received (payload : List UInt8) (nlmsgType nlmsgLen hdrLen nlmsgLength : Nat)
  | other (payload : List UInt8) (responseType : Option String) (nlmsgType nlmsgLen : Nat)
  deriving DecidableEq, Repr

/-- `NLMSG_OK(nlh, rcv_status)`. -/
def nlmsgOk (e : Endian) (buf : List UInt8) (rcvStatus : Int) : Except Stop Bool :=
  if 16 ≤ rcvStatus then do
    let nlmsgLen ← load e buf 0 4
    return 16 ≤ nlmsgLen ∧ (nlmsgLen : Int) ≤ rcvStatus
  else return false

/-- The body of `while(1)` behind `recvmsg`: the line, and `response_type`. -/
def showReply (e : Endian) (buf : List UInt8) (rcvStatus : Int) (responseType : Option String) :
    Except Stop (ClientLine × Option String) := do
  let ok ← nlmsgOk e buf rcvStatus
  let payload ← loadString buf 16
  let nlmsgType ← load e buf 4 2
  let nlmsgLen ← load e buf 0 4
  if ok then
    let responseType := if nlmsgType = 55 then "HIHI" else if nlmsgType = 66 then "YAYA" else "Nothing"
    return (.received payload nlmsgType nlmsgLen 16 ((nlmsgLen + 16) % 2 ^ 32), some responseType)
  else return (.other payload responseType nlmsgType nlmsgLen, responseType)

/-- `MAX_MSGSIZE`. -/
def maxMsgsize : Nat := 1024

/-- The message that `send_msg_to_user` makes of a reply. `nlmsg_put` leaves the rest of the payload as it was. -/
def replyBytes (e : Endian) (r : Reply) (rest : List UInt8) : List UInt8 :=
  wordBytes e 4 (maxMsgsize + 16) ++ (wordBytes e 2 r.nlmsgType ++ (List.replicate 10 0 ++ (ascii r.text ++ 0 :: rest)))

/-! ## The steps -/

/-- Where a client is: in its loop of three `sendmsg`, or in the loop of `recvmsg`. -/
inductive Phase
  | sending (i : Nat)
  | receiving
  | stopped (e : Stop)
  deriving DecidableEq, Repr

/-- A client and its socket: how many of its messages the module handled, how many of the replies were lost for want of
memory or room, and whether a call failed. -/
structure Client where
  buf : List UInt8
  phase : Phase
  isOpen : Bool
  queue : List (List UInt8)
  responseType : Option String
  lines : List ClientLine
  handled : Nat
  lost : Nat
  failed : Bool

/-- The module, and a client for each process number. -/
structure World where
  module : Module
  clients : Nat → Client

def World.set (w : World) (p : Nat) (c : Client) : World := { w with clients := Function.update w.clients p c }

/-- `netlink_unicast`. -/
def World.deliver (e : Endian) (rest : List UInt8) (w : World) (r : Reply) : World :=
  if (w.clients r.portid).isOpen then
    w.set r.portid { w.clients r.portid with queue := (w.clients r.portid).queue ++ [replyBytes e r rest] }
  else w

/-- `sendmsg` inside the loop, with `recv_user_msg` and the reply. -/
def World.send (e : Endian) (allocated room : Bool) (rest : List UInt8) (w : World) (p i : Nat) (skb : Skb) :
    Except Stop World := do
  let s ← recvUserMsg e allocated w.module skb
  let c := w.clients p
  let lost := if allocated ∧ room then c.lost else c.lost + 1
  let w' : World := { w with module := s }.set p { c with phase := .sending (i + 1), handled := c.handled + 1, lost := lost }
  return if room then (s.sent.drop w.module.sent.length).foldl (World.deliver e rest) w' else w'

/-- What `recvmsg` returns and makes of the client. -/
inductive Client.Recvmsg (c : Client) : Int → Client → Prop
  | message {m : List UInt8} {q : List (List UInt8)} : c.isOpen → c.queue = m :: q →
      Recvmsg c (min m.length c.buf.length : Nat)
        { c with buf := m.take c.buf.length ++ c.buf.drop m.length, queue := q }
  | fails : Recvmsg c (-1) { c with failed := true }

/-- A step of a client. -/
inductive World.Step (e : Endian) : World → World → Prop
  | send {w w' : World} {p i : Nat} {allocated room : Bool} {rest : List UInt8} {skb : Skb} :
      p < 2 ^ 31 → (w.clients p).phase = .sending i → i < 3 → (w.clients p).isOpen →
      skb.data = (w.clients p).buf → skb.len = (w.clients p).buf.length → (ascii msgFromKernel).length + 1 + rest.length =
        maxMsgsize → w.send e allocated room rest p i skb = .ok w' → Step e w w'
  | sendFails {w : World} {p i : Nat} : (w.clients p).phase = .sending i → i < 3 →
      Step e w (w.set p { w.clients p with phase := .sending (i + 1), isOpen := false, failed := true })
  | sent {w : World} {p i : Nat} {buf : List UInt8} : (w.clients p).phase = .sending i → ¬ i < 3 →
      storeBytes (w.clients p).buf 0 (List.replicate 8 0) = .ok buf →
      Step e w (w.set p { w.clients p with phase := .receiving, buf := buf })
  | shows {w : World} {p : Nat} {status : Int} {c : Client} {line : ClientLine} {responseType : Option String} :
      (w.clients p).phase = .receiving → (w.clients p).Recvmsg status c →
      showReply e c.buf status c.responseType = .ok (line, responseType) →
      Step e w (w.set p { c with lines := c.lines ++ [line], responseType := responseType })
  | stops {w : World} {p : Nat} {status : Int} {c : Client} {stop : Stop} :
      (w.clients p).phase = .receiving → (w.clients p).Recvmsg status c →
      showReply e c.buf status c.responseType = .error stop → Step e w (w.set p { c with phase := .stopped stop })

/-- The clients have filled their messages, and the module is loaded. -/
def clients (e : Endian) : System World where
  init w := w.module = .initial ∧ ∀ p, ∃ buf₀ buf, buf₀.length = bufSize ∧ fillMessage e p buf₀ = .ok buf ∧
    w.clients p = ⟨buf, .sending 0, true, [], none, [], 0, 0, false⟩
  step := World.Step e

variable {e : Endian} {w w' : World} {p i : Nat} {c c' : Client} {buf rest : List UInt8} {r : Reply} {skb : Skb}

/-! ## The messages -/

/-- The message of a client: its length, its process number, and a string behind the header. -/
structure HelloMessage (e : Endian) (p : Nat) (buf : List UInt8) : Prop where
  size : buf.length = bufSize
  nlmsgLen : buf.take 4 = wordBytes e 4 bufSize
  nlmsgPid : (buf.drop 12).take 4 = wordBytes e 4 p
  string : 0 ∈ buf.drop 16

theorem fillMessage_spec {buf₀ : List UInt8} (h₀ : buf₀.length = bufSize) (e : Endian) (p : Nat) :
    ∃ buf, fillMessage e p buf₀ = .ok buf ∧ HelloMessage e p buf := by
  have hsize : bufSize = 1050 := rfl
  have hmsg : (ascii cliMsg ++ [0]).length = 39 := by decide
  obtain ⟨buf₁, h₁, hl₁, hb₁, -⟩ := storeBytes_spec buf₀ 12 (wordBytes e 4 p)
    (by rw [length_wordBytes]; omega)
  obtain ⟨buf₂, h₂, hl₂, hb₂, hr₂⟩ := storeBytes_spec buf₁ 0 (wordBytes e 4 bufSize)
    (by rw [length_wordBytes]; omega)
  obtain ⟨buf₃, h₃, hl₃, -, hr₃⟩ := storeBytes_spec buf₂ 4 (wordBytes e 2 vincentHello)
    (by rw [length_wordBytes]; omega)
  obtain ⟨buf₄, h₄, hl₄, hb₄, hr₄⟩ := storeBytes_spec buf₃ 16 (ascii cliMsg ++ [0])
    (by rw [hmsg]; omega)
  rw [length_wordBytes] at hb₁ hb₂ hr₂ hr₃
  rw [hmsg] at hb₄
  refine ⟨buf₄, by rw [fillMessage, h₁, ok_bind, h₂, ok_bind, h₃, ok_bind, h₄], by omega, ?_, ?_, ?_⟩
  · have h := (hr₄ 0 4 (by omega)).trans (hr₃ 0 4 (by omega))
    exact h.trans hb₂
  · have h := (hr₄ 12 4 (by omega)).trans ((hr₃ 12 4 (by omega)).trans (hr₂ 12 4 (by omega)))
    exact h.trans hb₁
  · refine List.mem_of_mem_take (i := 39) ?_
    rw [hb₄]
    simp

/-- Any reply that the module sends. -/
def IsReply (e : Endian) (m : List UInt8) : Prop :=
  ∃ r rest, r.nlmsgType = responseMsgType ∧ r.text = msgFromKernel ∧ rest.length = 979 ∧ m = replyBytes e r rest

/-- The line a client prints of a reply. -/
def helloLine : ClientLine := .received (ascii msgFromKernel) 55 1040 16 1056

theorem length_msgFromKernel : (ascii msgFromKernel).length = 44 := by decide

theorem IsReply.length {m : List UInt8} (h : IsReply e m) : m.length = 1040 := by
  obtain ⟨r, rest, -, htext, hrest, rfl⟩ := h
  have hmsg := length_msgFromKernel
  simp only [replyBytes, htext, List.length_append, List.length_cons, List.length_replicate, length_wordBytes]
  omega

theorem IsReply.loadString {m : List UInt8} (h : IsReply e m) (tail : List UInt8) :
    loadString (m ++ tail) 16 = .ok (ascii msgFromKernel) := by
  obtain ⟨r, rest, htype, htext, hrest, rfl⟩ := h
  have hf := loadString_field (wordBytes e 4 1040 ++ (wordBytes e 2 55 ++ List.replicate 10 0)) (ascii msgFromKernel)
    (rest ++ tail) (by decide)
  simp only [List.length_append, length_wordBytes, List.length_replicate] at hf
  simpa [replyBytes, maxMsgsize, htype, htext, responseMsgType] using hf

theorem mem_of_loadString {off : Nat} {bs : List UInt8} (h : loadString buf off = .ok bs) : 0 ∈ buf.drop off := by
  by_contra h0
  rw [loadString, if_neg h0] at h
  cases h

/-- `recvmsg` of a reply, and the turn behind it. -/
theorem showReply_reply {m : List UInt8} (h : IsReply e m) (tail : List UInt8) (responseType : Option String) :
    showReply e (m ++ tail) 1040 responseType = .ok (helloLine, some "HIHI") := by
  have hstr := h.loadString tail
  obtain ⟨r, rest, htype, htext, hrest, rfl⟩ := h
  have hlen : load e (replyBytes e r rest ++ tail) 0 4 = .ok 1040 := by
    have hf := load_field (e := e) [] ((wordBytes e 2 r.nlmsgType ++ (List.replicate 10 0 ++ (ascii r.text ++ 0 :: rest)))
      ++ tail) 4 1040
    simpa [replyBytes, maxMsgsize] using hf
  have hty : load e (replyBytes e r rest ++ tail) 4 2 = .ok 55 := by
    have hf := load_field (e := e) (wordBytes e 4 1040) ((List.replicate 10 0 ++ (ascii r.text ++ 0 :: rest)) ++ tail) 2 55
    rw [length_wordBytes] at hf
    simpa [replyBytes, maxMsgsize, htype, responseMsgType] using hf
  have hok : nlmsgOk e (replyBytes e r rest ++ tail) 1040 = .ok true := by
    rw [nlmsgOk, if_pos (by decide), hlen]
    rfl
  rw [showReply, hok, ok_bind, hstr, ok_bind, hty, ok_bind, hlen]
  rfl

/-- The turn behind a `recvmsg` that fails. -/
theorem showReply_failed (hsize : buf.length = bufSize) (hstring : 0 ∈ buf.drop 16) (responseType : Option String) :
    ∃ payload t n, showReply e buf (-1) responseType = .ok (.other payload responseType t n, responseType) := by
  have hb : bufSize = 1050 := rfl
  have hok : nlmsgOk e buf (-1) = .ok false := by
    rw [nlmsgOk, if_neg (by decide)]
    rfl
  have hstr : loadString buf 16 = .ok ((buf.drop 16).takeWhile (· ≠ 0)) := if_pos hstring
  have htype : load e buf 4 2 = .ok (word e ((buf.drop 4).take 2)) := load_of_le (by omega)
  have hlen : load e buf 0 4 = .ok (word e ((buf.drop 0).take 4)) := load_of_le (by omega)
  rw [showReply, hok, ok_bind, hstr, ok_bind, htype, ok_bind, hlen]
  exact ⟨_, _, _, rfl⟩

/-! ## One message -/

/-- What the module sends for a message it accepts. -/
theorem recvUserMsg_sent {allocated : Bool} {m m' : Module} (ha : Accepted e skb)
    (h : recvUserMsg e allocated m skb = .ok m') : m'.sent = m.sent ++ if allocated then [reply e skb] else [] := by
  have hlen : ¬ (word e (skb.data.take 4) < 16 ∨ skb.len < word e (skb.data.take 4)) := by
    unfold Accepted at ha
    omega
  rw [recvUserMsg, load_pid, ok_bind, load_len, ok_bind, if_neg hlen] at h
  obtain ⟨count, -, h⟩ := bind_eq_ok h
  cases h
  cases allocated with
  | false => simp [sendMsgToUser]
  | true => simp [sendMsgToUser, reply, uint32_int32 (pid_lt e skb)]

theorem accepted_hello (h : HelloMessage e p buf) (hd : skb.data = buf) (hl : skb.len = buf.length) : Accepted e skb := by
  have hword : word e (wordBytes e 4 bufSize) = 1050 := word_wordBytes e 4 bufSize
  rw [Accepted, hd, h.nlmsgLen, hword, hl, h.size]
  exact ⟨by decide, by decide⟩

theorem pid_hello (h : HelloMessage e p buf) (hd : skb.data = buf) (hp : p < 2 ^ 31) : skb.pid e = p := by
  rw [Skb.pid, hd, h.nlmsgPid, word_wordBytes]
  exact Nat.mod_eq_of_lt (by omega)

/-- **A message of a client is answered to that client**, if memory and room could be had. -/
theorem send_eq {allocated room : Bool} (h : HelloMessage e p (w.clients p).buf) (hp : p < 2 ^ 31)
    (hopen : (w.clients p).isOpen) (hd : skb.data = (w.clients p).buf) (hl : skb.len = (w.clients p).buf.length)
    (hs : w.send e allocated room rest p i skb = .ok w') :
    w'.clients = Function.update w.clients p { w.clients p with
      phase := .sending (i + 1), handled := (w.clients p).handled + 1,
      lost := if allocated ∧ room then (w.clients p).lost else (w.clients p).lost + 1,
      queue := (w.clients p).queue ++ if allocated ∧ room then [replyBytes e (reply e skb) rest] else [] } := by
  obtain ⟨m, hm, hs⟩ := bind_eq_ok hs
  have hsent := recvUserMsg_sent (accepted_hello h hd hl) hm
  have hpid : (reply e skb).portid = p := pid_hello h hd hp
  cases hs
  rw [hsent, List.drop_left]
  cases room with
  | false => simp [World.set]
  | true =>
    cases allocated with
    | false => simp [World.set]
    | true => simp [World.deliver, hpid, hopen, World.set]

/-! ## The runs -/

/-- The line tells of a message. -/
def ClientLine.isReceived : ClientLine → Bool
  | .received .. => true
  | .other .. => false

/-- The messages a client has heard. -/
def heard (c : Client) : List ClientLine := c.lines.filter ClientLine.isReceived

/-- The line shows `response_type` while it is `NULL`. -/
def ClientLine.isNull : ClientLine → Bool
  | .other _ none _ _ => true
  | _ => false

/-- Such a line comes behind a failure and in front of everything that is heard. -/
def NullFirst (lines : List ClientLine) (failed : Bool) : Prop :=
  ∀ xs l ys, lines = xs ++ l :: ys → l.isNull = true → failed = true ∧ ∀ l' ∈ xs, l'.isReceived = false

theorem nullFirst_snoc {lines : List ClientLine} {failed failed' : Bool} {l : ClientLine} (h : NullFirst lines failed)
    (hfailed : failed = true → failed' = true)
    (hl : l.isNull = true → failed' = true ∧ ∀ l' ∈ lines, l'.isReceived = false) :
    NullFirst (lines ++ [l]) failed' := by
  intro xs l' ys hsplit hnull
  rcases List.eq_nil_or_concat ys with rfl | ⟨ys, y, rfl⟩
  · obtain ⟨rfl, hlast⟩ := List.append_inj' hsplit rfl
    obtain rfl := List.singleton_inj.mp hlast
    exact hl hnull
  · rw [List.concat_eq_append, ← List.cons_append, ← List.append_assoc] at hsplit
    obtain ⟨hsame, -⟩ := List.append_inj' hsplit rfl
    obtain ⟨hf, hxs⟩ := h xs l' ys hsame hnull
    exact ⟨hfailed hf, hxs⟩

/-- What holds of a client at each of its places. -/
def Client.Phased (e : Endian) (p : Nat) (c : Client) : Prop :=
  match c.phase with
  | .sending i => i ≤ 3 ∧ c.handled ≤ i ∧ heard c = [] ∧ HelloMessage e p c.buf
  | .receiving => c.handled ≤ 3
  | .stopped _ => False

/-- Replies only, each of them either in the queue, heard or lost. -/
structure Client.Good (e : Endian) (p : Nat) (c : Client) : Prop where
  size : c.buf.length = bufSize
  string : 0 ∈ c.buf.drop 16
  queue : ∀ m ∈ c.queue, IsReply e m
  lines : ∀ l ∈ heard c, l = helloLine
  balance : (heard c).length + c.queue.length + c.lost = c.handled
  response : c.responseType = none → heard c = []
  nulls : NullFirst c.lines c.failed
  phased : c.Phased e p

theorem good_set (h : ∀ q, (w.clients q).Good e q) (hc : c.Good e p) : ∀ q, ((w.set p c).clients q).Good e q :=
  (Function.forall_update_iff w.clients fun q c => c.Good e q).mpr ⟨hc, fun q _ => h q⟩

theorem isReply_replyBytes (hrest : (ascii msgFromKernel).length + 1 + rest.length = maxMsgsize) :
    IsReply e (replyBytes e (reply e skb) rest) := by
  have hlen := length_msgFromKernel
  have hmax : maxMsgsize = 1024 := rfl
  exact ⟨_, rest, rfl, rfl, by omega, rfl⟩

/-- The module has handled a message. -/
theorem good_send {allocated room : Bool} {q : List (List UInt8)} (h : c.Good e p) (hphase : c.phase = .sending i)
    (hi : i < 3) (hq : ∀ m ∈ q, IsReply e m) (hlen : q.length = if allocated ∧ room then 1 else 0) :
    Client.Good e p { c with
      phase := .sending (i + 1), handled := c.handled + 1,
      lost := if allocated ∧ room then c.lost else c.lost + 1, queue := c.queue ++ q } where
  size := h.size
  string := h.string
  queue m hm := (List.mem_append.mp hm).elim (h.queue m) (hq m)
  lines := h.lines
  balance := by
    have hb := h.balance
    show (heard c).length + (c.queue ++ q).length + (if allocated ∧ room then c.lost else c.lost + 1) = c.handled + 1
    rw [List.length_append, hlen]
    split <;> omega
  response := h.response
  nulls := h.nulls
  phased := by
    have hp := h.phased
    rw [Client.Phased, hphase] at hp
    obtain ⟨_, hle, hheard, hfilled⟩ := hp
    exact ⟨hi, Nat.succ_le_succ hle, hheard, hfilled⟩

/-- A `sendmsg` has failed. -/
theorem good_sendFails (h : c.Good e p) (hphase : c.phase = .sending i) (hi : i < 3) :
    Client.Good e p { c with phase := .sending (i + 1), isOpen := false, failed := true } where
  size := h.size
  string := h.string
  queue := h.queue
  lines := h.lines
  balance := h.balance
  response := h.response
  nulls xs l ys hsplit hnull := ⟨rfl, (h.nulls xs l ys hsplit hnull).2⟩
  phased := by
    have hp := h.phased
    rw [Client.Phased, hphase] at hp
    obtain ⟨_, hle, hheard, hfilled⟩ := hp
    exact ⟨hi, Nat.le_succ_of_le hle, hheard, hfilled⟩

/-- The header is cleared, and the client starts to receive. -/
theorem good_sent (h : c.Good e p) (hphase : c.phase = .sending i)
    (hs : storeBytes c.buf 0 (List.replicate 8 0) = .ok buf) :
    Client.Good e p { c with phase := .receiving, buf := buf } := by
  have hsize := h.size
  have hb : bufSize = 1050 := rfl
  obtain ⟨buf', hs', hlen, -, hrest⟩ := storeBytes_spec c.buf 0 (List.replicate 8 0)
    (by rw [List.length_replicate]; omega)
  rw [hs] at hs'
  cases hs'
  rw [List.length_replicate] at hrest
  have hdrop : buf.drop 16 = c.buf.drop 16 := by
    have h16 := hrest 16 (bufSize - 16) (by omega)
    rwa [List.take_of_length_le (by rw [List.length_drop]; omega),
      List.take_of_length_le (by rw [List.length_drop]; omega)] at h16
  refine ⟨hlen.trans hsize, ?_, h.queue, h.lines, h.balance, h.response, h.nulls, ?_⟩
  · show 0 ∈ buf.drop 16
    rw [hdrop]
    exact h.string
  · have hp := h.phased
    rw [Client.Phased, hphase] at hp
    exact hp.2.1.trans hp.1

section Receiving

variable {m : List UInt8} {q : List (List UInt8)} (h : c.Good e p) (hphase : c.phase = .receiving)
include h hphase

theorem handled_le : c.handled ≤ 3 := by
  have hp := h.phased
  rwa [Client.Phased, hphase] at hp

/-- A reply is taken out of the queue and heard. -/
theorem good_heard (hq : c.queue = m :: q) (hsize : buf.length = bufSize) (hstring : 0 ∈ buf.drop 16) (s : String) :
    Client.Good e p { c with buf := buf, queue := q, lines := c.lines ++ [helloLine], responseType := some s } := by
  have hheard : heard { c with buf := buf, queue := q, lines := c.lines ++ [helloLine], responseType := some s } =
      heard c ++ [helloLine] := by simp [heard, helloLine, ClientLine.isReceived]
  refine ⟨hsize, hstring, fun m' hm' => h.queue m' (by simp [hq, hm']), ?_, ?_, nofun,
    nullFirst_snoc h.nulls id nofun, ?_⟩
  · rw [hheard]
    intro l hl
    rcases List.mem_append.mp hl with hl | hl
    · exact h.lines l hl
    · exact List.mem_singleton.mp hl
  · have hb := h.balance
    rw [hq, List.length_cons] at hb
    rw [hheard, List.length_append, List.length_singleton]
    show (heard c).length + 1 + q.length + c.lost = c.handled
    omega
  · rw [Client.Phased, hphase]
    exact handled_le (c := c) h hphase

/-- A failure is told of. -/
theorem good_other {payload : List UInt8} {t n : Nat} : Client.Good e p
    { c with failed := true, lines := c.lines ++ [.other payload c.responseType t n] } := by
  have hheard : heard { c with failed := true, lines := c.lines ++ [.other payload c.responseType t n] } = heard c := by
    simp [heard, ClientLine.isReceived]
  refine ⟨h.size, h.string, h.queue, hheard ▸ h.lines, ?_, hheard ▸ h.response,
    nullFirst_snoc h.nulls (fun _ => rfl) fun hnull => ⟨rfl, ?_⟩, ?_⟩
  · rw [hheard]
    exact h.balance
  · have hnone : c.responseType = none := by
      cases hr : c.responseType with
      | none => rfl
      | some s =>
        rw [hr] at hnull
        cases hnull
    have hsilent := h.response hnone
    simpa [heard, List.filter_eq_nil_iff] using hsilent
  · rw [Client.Phased, hphase]
    exact handled_le (c := c) h hphase

/-- What a turn of the receiving loop comes to. -/
theorem recvmsg_good {status : Int} (hr : c.Recvmsg status c') :
    ∃ line s, showReply e c'.buf status c'.responseType = .ok (line, s) ∧
      Client.Good e p { c' with lines := c'.lines ++ [line], responseType := s } := by
  cases hr with
  | @message m q hopen hq =>
    have hm : IsReply e m := h.queue m (by simp [hq])
    have hml := hm.length
    have hsize : c.buf.length = 1050 := h.size
    have htake : m.take c.buf.length = m := List.take_of_length_le (by omega)
    have hstatus : ((min m.length c.buf.length : Nat) : Int) = 1040 := by omega
    rw [hstatus, htake]
    refine ⟨helloLine, some "HIHI", showReply_reply hm _ _, good_heard h hphase hq ?_ ?_ _⟩
    · rw [List.length_append, List.length_drop]
      show _ = 1050
      omega
    · exact mem_of_loadString (hm.loadString _)
  | fails =>
    obtain ⟨payload, t, n, hs⟩ := showReply_failed (e := e) h.size h.string c.responseType
    exact ⟨_, c.responseType, hs, good_other (c := c) h hphase⟩

end Receiving

theorem good_step (h : ∀ p, (w.clients p).Good e p) (hs : World.Step e w w') : ∀ p, (w'.clients p).Good e p := by
  cases hs with
  | @send _ p i allocated room rest skb hp hphase hi hopen hd hl hrest hsend =>
    have hphased := (h p).phased
    rw [Client.Phased, hphase] at hphased
    have hset : w'.clients = (w.set p _).clients := send_eq hphased.2.2.2 hp hopen hd hl hsend
    rw [hset]
    refine good_set h (good_send (h p) hphase hi (fun m hm => ?_) (by split <;> rfl))
    split at hm
    · exact List.mem_singleton.mp hm ▸ isReply_replyBytes hrest
    · cases hm
  | @sendFails p i hphase hi => exact good_set h (good_sendFails (h p) hphase hi)
  | @sent p i buf hphase hi hs => exact good_set h (good_sent (h p) hphase hs)
  | @shows p status c line responseType hphase hr hshow =>
    obtain ⟨line', s, hs, hgood⟩ := recvmsg_good (h p) hphase hr
    rw [hshow] at hs
    obtain ⟨rfl, rfl⟩ := Prod.mk.inj (Except.ok.inj hs)
    exact good_set h hgood
  | @stops p status c stop hphase hr hshow =>
    obtain ⟨line', s, hs, -⟩ := recvmsg_good (h p) hphase hr
    rw [hshow] at hs
    cases hs

theorem good_invariant : (clients e).Invariant fun w => ∀ p, (w.clients p).Good e p where
  init := by
    rintro w ⟨-, hw⟩ p
    obtain ⟨buf₀, buf, h₀, hf, hc⟩ := hw p
    obtain ⟨buf', hf', hfilled⟩ := fillMessage_spec h₀ e p
    rw [hf] at hf'
    cases hf'
    rw [hc]
    exact ⟨hfilled.size, hfilled.string, by simp, by simp [heard], by simp [heard], fun _ => rfl, by simp [NullFirst],
      Nat.zero_le 3, Nat.le_refl 0, rfl, hfilled⟩
  step _ _ := good_step

/-- The clients with their messages in buffers that were zero. -/
def firstWorld : World where
  module := .initial
  clients p := ⟨(fillMessage .little p (List.replicate bufSize 0)).toOption.getD [], .sending 0, true, [], none, [], 0, 0,
    false⟩

theorem firstWorld_reachable : (clients .little).Reachable firstWorld := by
  refine .init ⟨rfl, fun p => ?_⟩
  obtain ⟨buf, hf, -⟩ := fillMessage_spec (List.length_replicate (n := bufSize) (a := 0)) .little p
  refine ⟨_, buf, List.length_replicate, hf, ?_⟩
  show Client.mk _ _ _ _ _ _ _ _ _ = _
  rw [hf]
  rfl

/-- A buffer as it is received. -/
theorem exists_skb (h : 16 ≤ buf.length) : ∃ skb : Skb, skb.data = buf ∧ skb.len = buf.length :=
  ⟨⟨buf, buf.length, h⟩, rfl, rfl⟩

end SideWork.Netlink
