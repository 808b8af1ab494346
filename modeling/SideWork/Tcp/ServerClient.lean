import SideWork.Lib.Bytes
import SideWork.Lib.System

/-!
# The TCP server and its client (`server.c`, `tcp_client.c`)

The client tries to connect three times and then sends its message ten times, without a NUL. The server receives into a
buffer of 100 bytes for ever and prints the buffer as a string after each `recv`. The steps of both interleave. TCP is a
stream of bytes: `send` may take a part of a message, and `recv` may give any part of what has been taken, over the ends
of the messages.

- `stream_exact`: what may be sent when, and that the server has a beginning of it, in pieces that fit;
- `server_lines`: what the server prints, and when it runs out of its buffer.
-/

namespace SideWork.Tcp

/-- `msg`: `"%s %d\n"` of the text and the process number. -/
def msg (pid : Nat) : List UInt8 :=
  ascii "Hello this is msg from client process: " ++ ascii " " ++ ascii (toString pid) ++ ascii "\n"

/-- `sizeof(resp)`. -/
def respSize : Nat := 100

/-- `resp` at first: `"0"`. -/
def resp₀ : List UInt8 := stringBuf respSize (ascii "0")

/-- Where the client is: how often it may still try, or how many messages it still sends. -/
inductive ClientPhase
  | connecting (retry : Nat)
  | sending (count : Nat)
  | closed
  | returned (code : Int)
  deriving DecidableEq, Repr

/-- Where the server is: before `accept`, in its loop with what `accept` gave and `resp`, or stopped. -/
inductive ServerPhase
  | listening
  | serving (accepted : Bool) (resp : List UInt8)
  | stopped (e : Stop)
  deriving DecidableEq, Repr

/-- What the server prints: `resp_len`, and the string in `resp`. -/
structure Line where
  respLen : Int
  text : List UInt8
  deriving DecidableEq, Repr

/-- Both, with the bytes on their way; and the parts of messages that were sent, and of the stream that were
received. -/
structure Connection where
  client : ClientPhase
  server : ServerPhase
  stream : List UInt8
  sent : List (List UInt8)
  received : List (List UInt8)
  lines : List Line

/-- `printf` of `resp`, after which the loop goes on. -/
def Connection.print (s : Connection) (accepted : Bool) (resp : List UInt8) (respLen : Int) : Connection :=
  match loadString resp 0 with
  | .error e => { s with server := .stopped e }
  | .ok text => { s with server := .serving accepted resp, lines := s.lines ++ [⟨respLen, text⟩] }

/-- A step of either. A `recv` on a connection that is closed and empty returns 0, and changes nothing. -/
inductive Connection.Step (pid : Nat) : Connection → Connection → Prop
  | connected {s : Connection} {retry : Nat} : s.client = .connecting (retry + 1) →
      Step pid s { s with client := .sending 10 }
  | refused {s : Connection} {retry : Nat} : s.client = .connecting (retry + 1) →
      Step pid s { s with client := if retry = 0 then .returned (-1) else .connecting retry }
  | sends {s : Connection} {count : Nat} (n : Nat) : s.client = .sending (count + 1) → n ≤ (msg pid).length →
      Step pid s { s with
        client := .sending count, stream := s.stream ++ (msg pid).take n, sent := s.sent ++ [(msg pid).take n] }
  | sendFails {s : Connection} {count : Nat} : s.client = .sending (count + 1) →
      Step pid s { s with client := .sending count }
  | closes {s : Connection} : s.client = .sending 0 → Step pid s { s with client := .closed }
  | killed {s : Connection} {count : Nat} : s.client = .sending count → Step pid s { s with client := .closed }
  | accepts {s : Connection} (accepted : Bool) : s.server = .listening →
      Step pid s { s with server := .serving accepted resp₀ }
  | receives {s : Connection} {resp resp' : List UInt8} (n : Nat) : s.server = .serving true resp → 0 < n →
      n ≤ respSize → n ≤ s.stream.length → storeBytes resp 0 (s.stream.take n) = .ok resp' →
      Step pid s ({ s with stream := s.stream.drop n, received := s.received ++ [s.stream.take n] }.print true resp' n)
  | recvFails {s : Connection} {accepted : Bool} {resp : List UInt8} : s.server = .serving accepted resp →
      Step pid s (s.print accepted resp (-1))

/-- Both have been started. -/
def connection (pid : Nat) : System Connection where
  init s := s = ⟨.connecting 3, .listening, [], [], [], []⟩
  step := Connection.Step pid

variable {pid : Nat} {s s' : Connection}

/-! ## The stream -/

theorem zero_notMem_msg (pid : Nat) : 0 ∉ msg pid := by
  have hdigits : 0 ∉ ascii (toString pid) := by
    intro h
    obtain ⟨c, hc, hzero⟩ := List.mem_map.mp h
    have hmem : c ∈ Nat.toDigits 10 pid := by simpa [Nat.toString_eq_repr, Nat.repr] using hc
    have hdigit := Char.isDigit_iff_toNat.mp (Nat.isDigit_of_mem_toDigits (by decide) (by decide) hmem)
    have hmod : c.toNat % 256 = 0 := by simpa using congrArg UInt8.toNat hzero
    have hlow : 48 ≤ c.toNat := hdigit.1
    have hhigh : c.toNat ≤ 57 := hdigit.2
    omega
  simp only [msg, List.mem_append, not_or]
  exact ⟨⟨⟨by decide, by decide⟩, hdigits⟩, by decide⟩

/-- How many messages have been sent at each place of the client. -/
def ClientPhase.Budget (sent : Nat) : ClientPhase → Prop
  | .connecting _ | .returned _ => sent = 0
  | .sending count => sent + count ≤ 10
  | .closed => sent ≤ 10

/-- What has been received and what is on its way is what has been sent, in parts of messages. -/
structure Connection.Streamed (pid : Nat) (s : Connection) : Prop where
  exact : s.received.flatten ++ s.stream = s.sent.flatten
  parts : ∀ part ∈ s.sent, part <+: msg pid
  budget : s.client.Budget s.sent.length
  chunks : ∀ c ∈ s.received, 0 < c.length ∧ c.length ≤ respSize

section Print

variable (s) (accepted : Bool) (resp : List UInt8) (respLen : Int)

@[simp] theorem print_client : (s.print accepted resp respLen).client = s.client := by
  unfold Connection.print
  split <;> rfl

@[simp] theorem print_stream : (s.print accepted resp respLen).stream = s.stream := by
  unfold Connection.print
  split <;> rfl

@[simp] theorem print_sent : (s.print accepted resp respLen).sent = s.sent := by
  unfold Connection.print
  split <;> rfl

@[simp] theorem print_received : (s.print accepted resp respLen).received = s.received := by
  unfold Connection.print
  split <;> rfl

end Print

theorem streamed_print (h : s.Streamed pid) (accepted : Bool) (resp : List UInt8) (respLen : Int) :
    (s.print accepted resp respLen).Streamed pid :=
  ⟨by simpa using h.exact, by simpa using h.parts, by simpa using h.budget, by simpa using h.chunks⟩

theorem streamed_step (h : s.Streamed pid) (hs : Connection.Step pid s s') : s'.Streamed pid := by
  obtain ⟨hexact, hparts, hbudget, hchunks⟩ := h
  cases hs with
  | connected hc =>
    rw [hc] at hbudget
    have h0 : s.sent.length = 0 := hbudget
    exact ⟨hexact, hparts, show s.sent.length + 10 ≤ 10 by omega, hchunks⟩
  | @refused retry hc =>
    rw [hc] at hbudget
    refine ⟨hexact, hparts, ?_, hchunks⟩
    show ClientPhase.Budget _ (if retry = 0 then .returned (-1) else .connecting retry)
    split <;> exact hbudget
  | @sends count n hc hn =>
    rw [hc] at hbudget
    have hle : s.sent.length + (count + 1) ≤ 10 := hbudget
    refine ⟨?_, ?_, ?_, hchunks⟩
    · rw [List.flatten_append, List.flatten_singleton, ← hexact, List.append_assoc]
    · simpa [or_imp, forall_and, List.take_prefix] using hparts
    · show (s.sent ++ [_]).length + count ≤ 10
      rw [List.length_append, List.length_singleton]
      omega
  | @sendFails count hc =>
    rw [hc] at hbudget
    have hle : s.sent.length + (count + 1) ≤ 10 := hbudget
    exact ⟨hexact, hparts, show s.sent.length + count ≤ 10 by omega, hchunks⟩
  | closes hc | killed hc =>
    rw [hc] at hbudget
    exact ⟨hexact, hparts, show s.sent.length ≤ 10 from (Nat.le_add_right _ _).trans hbudget, hchunks⟩
  | accepts => exact ⟨hexact, hparts, hbudget, hchunks⟩
  | @receives resp resp' n _ hpos hsize hlen _ =>
    refine streamed_print
      (s := { s with stream := s.stream.drop n, received := s.received ++ [s.stream.take n] })
      ⟨?_, hparts, hbudget, ?_⟩ _ _ _
    · rw [List.flatten_append, List.flatten_singleton, List.append_assoc, List.take_append_drop, hexact]
    · intro c hc
      rcases List.mem_append.mp hc with hc | hc
      · exact hchunks c hc
      · rw [List.mem_singleton.mp hc, List.length_take_of_le hlen]
        exact ⟨hpos, hsize⟩
  | recvFails => exact streamed_print ⟨hexact, hparts, hbudget, hchunks⟩ _ _ _

theorem streamed_invariant (pid : Nat) : (connection pid).Invariant (Connection.Streamed pid) where
  init := by
    rintro _ rfl
    exact ⟨rfl, by simp, rfl, by simp⟩
  step _ _ := streamed_step

/-- The client sends its message at most ten times, and only after `connect`. -/
theorem length_sent_le {count : Nat} {phase : ClientPhase} (h : phase.Budget count) : count ≤ 10 := by
  cases phase with
  | connecting retry | returned code =>
    have h0 : count = 0 := h
    omega
  | sending left => exact (Nat.le_add_right _ _).trans h
  | closed => exact h

/-- Whole messages, as many as there may be. -/
theorem flatten_prefix_of_whole {α : Type*} {parts : List (List α)} {m : List α} {n : Nat} (hlen : parts.length ≤ n)
    (hparts : ∀ part ∈ parts, part = m) : parts.flatten <+: (List.replicate n m).flatten := by
  have hrep : parts = List.replicate parts.length m := List.eq_replicate_iff.mpr ⟨rfl, hparts⟩
  have hsplit : List.replicate n m = parts ++ List.replicate (n - parts.length) m := by
    conv_rhs => rw [hrep]
    rw [List.replicate_append_replicate, List.length_replicate, Nat.add_sub_cancel' hlen]
  rw [hsplit, List.flatten_append]
  exact List.prefix_append _ _

/-- **The server receives what the client sent**, in every interleaving. That no byte is lost, doubled or out of order
is what the stream of the model is; the programs see to the rest: nothing is sent before `connect` has succeeded or
after it has failed for good, at most ten parts are, each a beginning of the message, and every `recv` that is counted
gives one to `respSize` bytes. When no `send` was cut, the server has a beginning of ten whole messages. -/
theorem stream_exact (hr : (connection pid).Reachable s) : s.received.flatten ++ s.stream = s.sent.flatten ∧
    s.sent.length ≤ 10 ∧ s.client.Budget s.sent.length ∧ (∀ part ∈ s.sent, part <+: msg pid) ∧
    (∀ c ∈ s.received, c ≠ [] ∧ c.length ≤ respSize) ∧
    ((∀ part ∈ s.sent, part = msg pid) → s.received.flatten <+: (List.replicate 10 (msg pid)).flatten) := by
  obtain ⟨hexact, hparts, hbudget, hchunks⟩ := (streamed_invariant pid).reachable hr
  have hten := length_sent_le hbudget
  refine ⟨hexact, hten, hbudget, hparts, fun c hc => ?_, fun hwhole => ?_⟩
  · exact ⟨List.length_pos_iff.mp (hchunks c hc).1, (hchunks c hc).2⟩
  · have hsent : s.received.flatten <+: s.sent.flatten := ⟨s.stream, hexact⟩
    exact hsent.trans (flatten_prefix_of_whole hten hwhole)

theorem zero_notMem_stream (h : s.Streamed pid) : 0 ∉ s.received.flatten ++ s.stream := by
  rw [h.exact, List.mem_flatten]
  rintro ⟨part, hpart, hzero⟩
  exact zero_notMem_msg pid ((h.parts part hpart).subset hzero)

/-! ## The lines -/

/-- The string in `resp` after some chunks. -/
def shown (cs : List (List UInt8)) : List UInt8 := cs.foldl overlay (ascii "0")

/-- The lines of some chunks, one for each. -/
def linesOf (cs : List (List UInt8)) : List Line :=
  (List.range cs.length).map fun i => ⟨(cs[i]?.getD []).length, shown (cs.take (i + 1))⟩

/-- The lines of the calls of `recv` that gave something. -/
def heard (s : Connection) : List Line := s.lines.filter fun l => l.respLen ≠ -1

theorem shown_snoc (cs : List (List UInt8)) (c : List UInt8) : shown (cs ++ [c]) = overlay (shown cs) c := by
  rw [shown, List.foldl_append]
  rfl

theorem length_shown_le (cs : List (List UInt8)) (n : Nat) :
    (shown cs).length ≤ n ↔ 1 ≤ n ∧ ∀ c ∈ cs, c.length ≤ n := by
  induction cs using List.reverseRecOn with
  | nil => simp [shown, ascii]
  | append_singleton cs c ih =>
    rw [shown_snoc, length_overlay, max_le_iff, ih]
    simp only [List.forall_mem_append, List.forall_mem_singleton]
    exact and_left_comm.trans (and_congr_right fun _ => and_comm)

/-- A chunk is printed alone when it is as long as all before. -/
theorem shown_eq_iff {cs : List (List UInt8)} {c : List UInt8} (hc : c ≠ []) :
    shown (cs ++ [c]) = c ↔ ∀ c' ∈ cs, c'.length ≤ c.length := by
  have hpos := List.length_pos_iff.mpr hc
  rw [shown_snoc, overlay_eq_iff, length_shown_le]
  exact and_iff_right hpos

theorem zero_notMem_shown {cs : List (List UInt8)} (h : 0 ∉ cs.flatten) : 0 ∉ shown cs := by
  induction cs using List.reverseRecOn with
  | nil => decide
  | append_singleton cs c ih =>
    rw [List.flatten_append, List.flatten_singleton, List.mem_append, not_or] at h
    rw [shown_snoc]
    exact zero_notMem_overlay (ih h.1) h.2

theorem linesOf_snoc (cs : List (List UInt8)) (c : List UInt8) :
    linesOf (cs ++ [c]) = linesOf cs ++ [⟨c.length, shown (cs ++ [c])⟩] := by
  rw [linesOf, List.length_append, List.length_singleton, List.range_succ, List.map_append, List.map_singleton]
  congr 1
  · refine List.map_congr_left fun i hi => ?_
    have hlt := List.mem_range.mp hi
    rw [List.getElem?_append_left hlt, List.take_append_of_le_length (by omega)]
  · rw [List.getElem?_append_right le_rfl, Nat.sub_self, List.take_of_length_le (by simp)]
    rfl

theorem respLen_linesOf (cs : List (List UInt8)) :
    (linesOf cs).map Line.respLen = cs.map fun c => (c.length : Int) := by
  induction cs using List.reverseRecOn with
  | nil => rfl
  | append_singleton cs c ih =>
    rw [linesOf_snoc, List.map_append, ih, List.map_append, List.map_singleton, List.map_singleton]

/-- The line of a chunk. -/
theorem getElem_linesOf {cs : List (List UInt8)} {i : Nat} {c : List UInt8} (h : cs[i]? = some c) :
    (linesOf cs)[i]? = some ⟨c.length, shown (cs.take i ++ [c])⟩ := by
  obtain ⟨hlt, hc⟩ := List.getElem?_eq_some_iff.mp h
  have htake : cs.take (i + 1) = cs.take i ++ [c] := by rw [List.take_add_one, h, Option.toList_some]
  rw [linesOf, List.getElem?_map, List.getElem?_range hlt, Option.map_some, h, htake, Option.getD_some]

/-- What `resp` holds and what has been printed. -/
def Connection.Printed (s : Connection) : Prop :=
  match s.server with
  | .listening => s.received = [] ∧ s.lines = []
  | .serving _ resp => resp = stringBuf respSize (shown s.received) ∧ heard s = linesOf s.received ∧
      ∀ c ∈ s.received, c.length < respSize
  | .stopped e => e = .outOfBounds ∧ ∃ cs c, s.received = cs ++ [c] ∧ heard s = linesOf cs ∧ c.length = respSize ∧
      ∀ c ∈ cs, c.length < respSize

theorem length_shown_lt {cs : List (List UInt8)} (h : ∀ c ∈ cs, c.length < respSize) :
    (shown cs).length < respSize := by
  have hsize : respSize = 99 + 1 := rfl
  rw [hsize, Nat.lt_succ_iff, length_shown_le]
  exact ⟨by decide, fun c hc => Nat.lt_succ_iff.mp (h c hc)⟩

/-- `printf` of the string in `resp`. -/
theorem print_eq {accepted : Bool} {respLen : Int} (hz : 0 ∉ s.received.flatten)
    (hle : ∀ c ∈ s.received, c.length ≤ respSize) : s.print accepted (stringBuf respSize (shown s.received)) respLen =
      if (shown s.received).length < respSize then
        { s with
          server := .serving accepted (stringBuf respSize (shown s.received)),
          lines := s.lines ++ [⟨respLen, shown s.received⟩] }
      else { s with server := .stopped .outOfBounds } := by
  rw [Connection.print, loadString_stringBuf (zero_notMem_shown hz) ((length_shown_le _ _).mpr ⟨by decide, hle⟩)]
  by_cases h : (shown s.received).length < respSize
  · rw [if_pos h, if_pos h]
  · rw [if_neg h, if_neg h]

theorem printed_receives {resp resp' : List UInt8} {n : Nat} (h : s.Streamed pid) (hp : s.Printed)
    (hserver : s.server = .serving true resp) (hpos : 0 < n) (hsize : n ≤ respSize) (hlen : n ≤ s.stream.length)
    (hstore : storeBytes resp 0 (s.stream.take n) = .ok resp') :
    Connection.Printed ({ s with
      stream := s.stream.drop n, received := s.received ++ [s.stream.take n] }.print true resp' n) := by
  rw [Connection.Printed, hserver] at hp
  obtain ⟨rfl, hheard, hlt⟩ := hp
  have hchunk : (s.stream.take n).length = n := List.length_take_of_le hlen
  have hshown := length_shown_lt hlt
  rw [storeBytes_stringBuf hshown.le (hchunk.trans_le hsize), ← shown_snoc] at hstore
  obtain rfl := Except.ok.inj hstore
  have hz := zero_notMem_stream h
  rw [← List.take_append_drop n s.stream, ← List.append_assoc, List.mem_append, not_or] at hz
  have hle : ∀ c ∈ s.received ++ [s.stream.take n], c.length ≤ respSize := by
    intro c hc
    rcases List.mem_append.mp hc with hc | hc
    · exact (hlt c hc).le
    · rw [List.mem_singleton.mp hc, hchunk]
      exact hsize
  rw [print_eq (by simpa using hz.1) hle]
  by_cases hn : n < respSize
  · have hall : ∀ c ∈ s.received ++ [s.stream.take n], c.length < respSize := by
      intro c hc
      rcases List.mem_append.mp hc with hc | hc
      · exact hlt c hc
      · rwa [List.mem_singleton.mp hc, hchunk]
    rw [if_pos (length_shown_lt hall)]
    refine ⟨rfl, ?_, hall⟩
    rw [linesOf_snoc, hchunk, ← hheard]
    have hne : ((n : Int)) ≠ -1 := by omega
    simp [heard, hne]
  · have hfull : ¬ (shown (s.received ++ [s.stream.take n])).length < respSize := by
      rw [shown_snoc, length_overlay, hchunk]
      omega
    rw [if_neg hfull]
    exact ⟨rfl, s.received, s.stream.take n, rfl, hheard, by omega, hlt⟩

/-- `recv` with what it prints given apart. -/
theorem step_receives {resp resp' : List UInt8} (n : Nat) (hserver : s.server = .serving true resp) (hpos : 0 < n)
    (hsize : n ≤ respSize) (hlen : n ≤ s.stream.length) (hstore : storeBytes resp 0 (s.stream.take n) = .ok resp')
    (hs' : { s with
      stream := s.stream.drop n, received := s.received ++ [s.stream.take n] }.print true resp' n = s') :
    Connection.Step pid s s' :=
  hs' ▸ .receives n hserver hpos hsize hlen hstore

theorem printed_step (h : s.Streamed pid) (hp : s.Printed) (hs : Connection.Step pid s s') : s'.Printed := by
  cases hs with
  | accepts accepted hserver =>
    rw [Connection.Printed, hserver] at hp
    obtain ⟨hreceived, hlines⟩ := hp
    refine ⟨?_, ?_, ?_⟩
    · simp only [hreceived]
      rfl
    · simp [heard, hlines, hreceived, linesOf]
    · simp [hreceived]
  | receives n hserver hpos hsize hlen hstore => exact printed_receives h hp hserver hpos hsize hlen hstore
  | recvFails hserver =>
    rw [Connection.Printed, hserver] at hp
    obtain ⟨rfl, hheard, hlt⟩ := hp
    have hz := fun h0 => zero_notMem_stream h (List.mem_append_left _ h0)
    rw [print_eq hz fun c hc => (hlt c hc).le, if_pos (length_shown_lt hlt)]
    refine ⟨rfl, ?_, hlt⟩
    rw [← hheard]
    simp [heard]
  | _ => exact hp

theorem printed_invariant (pid : Nat) : (connection pid).Invariant fun s => s.Streamed pid ∧ s.Printed :=
  (streamed_invariant pid).of_step (by rintro _ rfl; exact ⟨rfl, rfl⟩) fun _ _ => printed_step

/-- The chunks that were printed. -/
def printedChunks (s : Connection) : List (List UInt8) :=
  match s.server with
  | .stopped _ => s.received.dropLast
  | _ => s.received

/-- **What the server prints**, in every interleaving: one line for each `recv` that gives something, in their order,
with the number of its bytes; the text begins with these bytes, and is nothing else exactly when no earlier `recv` gave
more. The server runs out of its buffer exactly when a `recv` fills it. -/
theorem server_lines (hr : (connection pid).Reachable s) :
    (heard s).map Line.respLen = (printedChunks s).map (fun c => (c.length : Int)) ∧
    (∀ i c, (printedChunks s)[i]? = some c → ∃ l, (heard s)[i]? = some l ∧ c <+: l.text ∧
      (l.text = c ↔ ∀ c' ∈ (printedChunks s).take i, c'.length ≤ c.length)) ∧
    ((∃ e, s.server = .stopped e) ↔ ∃ c ∈ s.received, c.length = respSize) := by
  obtain ⟨hstream, hp⟩ := (printed_invariant pid).reachable hr
  have hsub : printedChunks s ⊆ s.received := by
    unfold printedChunks
    split
    · exact List.dropLast_subset _
    · exact List.Subset.refl _
  have hheard : heard s = linesOf (printedChunks s) := by
    unfold Connection.Printed at hp
    unfold printedChunks
    cases hserver : s.server with
    | listening =>
      rw [hserver] at hp
      simp [heard, hp.1, hp.2, linesOf]
    | serving accepted resp =>
      rw [hserver] at hp
      exact hp.2.1
    | stopped e =>
      rw [hserver] at hp
      obtain ⟨-, cs, c, hcs, hheard, -⟩ := hp
      rw [hheard, hcs, List.dropLast_concat]
  refine ⟨by rw [hheard, respLen_linesOf], fun i c hc => ?_, ?_⟩
  · have hpos := (hstream.chunks c (hsub (List.mem_of_getElem? hc))).1
    refine ⟨_, hheard ▸ getElem_linesOf hc, ?_, shown_eq_iff (List.length_pos_iff.mp hpos)⟩
    rw [shown_snoc]
    exact prefix_overlay _ _
  · unfold Connection.Printed at hp
    cases hserver : s.server with
    | listening =>
      rw [hserver] at hp
      simp [hp.1]
    | serving accepted resp =>
      rw [hserver] at hp
      refine iff_of_false nofun ?_
      rintro ⟨c, hc, hfull⟩
      exact (hp.2.2 c hc).ne hfull
    | stopped e =>
      rw [hserver] at hp
      obtain ⟨-, cs, c, hcs, -, hfull, -⟩ := hp
      exact iff_of_true ⟨e, rfl⟩ ⟨c, by simp [hcs], hfull⟩

/-- The first 22 bytes of the message of client 7, and the other 20. -/
def pieces : List (List UInt8) := [(msg 7).take 22, (msg 7).drop 22]

/-- Client 7 has sent a message, and the server got it in two pieces. -/
def twoPieces : Connection :=
  ⟨.sending 9, .serving true (stringBuf respSize (shown pieces)), [], [msg 7], pieces, linesOf pieces⟩

theorem twoPieces_reachable : (connection 7).Reachable twoPieces := by
  have h₀ : (connection 7).Reachable ⟨.connecting 3, .listening, [], [], [], []⟩ := .init rfl
  have h₁ := (h₀.step (.connected rfl)).step (.accepts true rfl)
  have h₂ : (connection 7).Reachable ⟨.sending 9, .serving true resp₀, msg 7, [msg 7], [], []⟩ :=
    h₁.step (.sends 42 rfl (by decide))
  have h₃ : (connection 7).Reachable ⟨.sending 9, .serving true (stringBuf respSize (shown [(msg 7).take 22])),
      (msg 7).drop 22, [msg 7], [(msg 7).take 22], linesOf [(msg 7).take 22]⟩ :=
    h₂.step (step_receives 22 rfl (by decide) (by decide) (by decide) rfl rfl)
  exact h₃.step (step_receives 20 rfl (by decide) (by decide) (by decide) rfl rfl)

/-- The second line ends in two bytes of the first piece. -/
theorem twoPieces_lines : (connection 7).Reachable twoPieces ∧ ∃ l, (heard twoPieces)[1]? = some l ∧
    l.text ≠ (msg 7).drop 22 := by
  refine ⟨twoPieces_reachable, ?_⟩
  obtain ⟨l, hl, -, hiff⟩ := (server_lines twoPieces_reachable).2.1 1 ((msg 7).drop 22) rfl
  exact ⟨l, hl, fun h => absurd (hiff.mp h) (by decide)⟩

/-- The message is whole. -/
theorem twoPieces_exact : (connection 7).Reachable twoPieces ∧ twoPieces.received.flatten = msg 7 := by
  refine ⟨twoPieces_reachable, ?_⟩
  have h := (stream_exact twoPieces_reachable).1
  simpa [twoPieces] using h

end SideWork.Tcp
