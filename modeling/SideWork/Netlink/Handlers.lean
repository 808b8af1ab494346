import SideWork.Lib.Additions
import SideWork.Lib.Places
import SideWork.Lib.System
import SideWork.Netlink.Kernel

/-!
# `recv_user_msg` on several processors

The kernel runs `recv_user_msg` inside the `sendmsg` of each client, so that any number of them run at once. They share
`user_pid` and `count`, which nothing guards: a handler stores its `nlmsg_pid`, reads and writes `count`, and reads
`user_pid` again for the answer, and other handlers come in between.

- `alone_run`: a handler that nothing comes between does what `recvUserMsg` does;
- `counted_step`, `done_step`: every accepted message is counted once, and comes to its end once;
- `handlers_race`: no answer is lost or doubled, but an answer goes to the sender of the last message that was stored
  when `user_pid` was read, and `count` is short exactly when two `count++` overlapped.
-/

namespace SideWork.Netlink

/-- Where a handler is; `own` is the place of its message among those that were stored. A `count` has been read after
`seen` writes of it, and a `userPid` when the message at `last` was the last one stored. -/
inductive Handler
  | idle
  | entering (skb : Skb)
  | checking (skb : Skb) (own : Nat)
  | counting (skb : Skb) (own : Nat)
  | writing (skb : Skb) (own : Nat) (count : Int) (seen : Nat)
  | calling (skb : Skb) (own : Nat)
  | answering (skb : Skb) (own : Nat) (userPid : Int) (last : Nat)

/-- An answer: the message it is for, and the one whose sender it goes to. -/
structure Answer where
  own : Nat
  last : Nat

/-- The module and its handlers; the messages whose `nlmsg_pid` has been stored, in this order; the writes of `count`
and the messages they are for; the messages that have come to their end, with those answered, and how many were not for
want of memory. -/
structure Shared where
  module : Module
  handlers : Nat → Handler
  arrived : List Skb
  additions : List Addition
  counted : List Nat
  done : List Nat
  answered : List Answer
  unanswered : Nat

/-- One handler goes on. -/
def Shared.move (w : Shared) (h : Nat) (handler : Handler) : Shared :=
  { w with handlers := Function.update w.handlers h handler }

/-- A step of a handler: the accesses to `user_pid` and `count` one by one. -/
inductive Shared.Step (e : Endian) : Shared → Shared → Prop
  | receive {w : Shared} (h : Nat) (skb : Skb) : w.handlers h = .idle → Step e w (w.move h (.entering skb))
  | storePid {w : Shared} (h : Nat) {skb : Skb} {nlmsgPid : Nat} : w.handlers h = .entering skb →
      load e skb.data 12 4 = .ok nlmsgPid →
      Step e w { w.move h (.checking skb w.arrived.length) with
        module := { w.module with userPid := int32 nlmsgPid }, arrived := w.arrived ++ [skb] }
  | reject {w : Shared} (h : Nat) {skb : Skb} {own nlmsgLen : Nat} : w.handlers h = .checking skb own →
      load e skb.data 0 4 = .ok nlmsgLen → nlmsgLen < 16 ∨ skb.len < nlmsgLen → Step e w (w.move h .idle)
  | accept {w : Shared} (h : Nat) {skb : Skb} {own nlmsgLen : Nat} : w.handlers h = .checking skb own →
      load e skb.data 0 4 = .ok nlmsgLen → ¬ (nlmsgLen < 16 ∨ skb.len < nlmsgLen) →
      Step e w (w.move h (.counting skb own))
  | readCount {w : Shared} (h : Nat) {skb : Skb} {own : Nat} : w.handlers h = .counting skb own →
      Step e w (w.move h (.writing skb own w.module.count w.additions.length))
  | writeCount {w : Shared} (h : Nat) {skb : Skb} {own seen : Nat} {count count' : Int} :
      w.handlers h = .writing skb own count seen → checkedInt (count + 1) = .ok count' →
      Step e w { w.move h (.calling skb own) with
        module := { w.module with count := count' }, additions := w.additions ++ [⟨seen, 1⟩],
        counted := w.counted ++ [own] }
  | readPid {w : Shared} (h : Nat) {skb : Skb} {own : Nat} : w.handlers h = .calling skb own →
      Step e w (w.move h (.answering skb own w.module.userPid (w.arrived.length - 1)))
  | answer {w : Shared} (h : Nat) {skb : Skb} {own last : Nat} {userPid : Int} :
      w.handlers h = .answering skb own userPid last →
      Step e w { w.move h .idle with
        module := sendMsgToUser true w.module msgFromKernel userPid, done := w.done ++ [own],
        answered := w.answered ++ [⟨own, last⟩] }
  | noMemory {w : Shared} (h : Nat) {skb : Skb} {own last : Nat} {userPid : Int} :
      w.handlers h = .answering skb own userPid last →
      Step e w { w.move h .idle with
        module := sendMsgToUser false w.module msgFromKernel userPid, done := w.done ++ [own],
        unanswered := w.unanswered + 1 }

/-- The module has been loaded. -/
def handlers (e : Endian) : System Shared where
  init w := w = ⟨.initial, fun _ => .idle, [], [], [], [], [], 0⟩
  step := Shared.Step e

variable {e : Endian} {w w' : Shared} {h own seen last : Nat} {skb : Skb} {handler : Handler}

/-! ## One handler alone -/

@[simp] theorem move_handlers (w : Shared) (h : Nat) (handler : Handler) :
    (w.move h handler).handlers = Function.update w.handlers h handler := rfl

/-- With nothing in between, a handler does what `recvUserMsg` does. -/
theorem alone_run {allocated : Bool} {s : Module} (hidle : w.handlers h = .idle)
    (hs : recvUserMsg e allocated w.module skb = .ok s) :
    ∃ w', (handlers e).Run w w' ∧ w'.module = s ∧ w'.handlers = w.handlers := by
  have hback := update_back hidle
  obtain ⟨nlmsgPid, hpid, hs⟩ := bind_eq_ok hs
  obtain ⟨nlmsgLen, hlen, hs⟩ := bind_eq_ok hs
  have h₁ : (handlers e).Run w (w.move h (.entering skb)) := .single (.receive h skb hidle)
  have h₂ := h₁.tail (.storePid h (Function.update_self ..) hpid)
  by_cases hbad : nlmsgLen < 16 ∨ skb.len < nlmsgLen
  · rw [if_pos hbad] at hs
    obtain rfl := Except.ok.inj hs
    refine ⟨_, h₂.tail (.reject h (Function.update_self ..) hlen hbad), rfl, ?_⟩
    simp [hback]
  · rw [if_neg hbad] at hs
    obtain ⟨count, hcount, hs⟩ := bind_eq_ok hs
    obtain rfl := Except.ok.inj hs
    have h₃ := (h₂.tail (.accept h (Function.update_self ..) hlen hbad)).tail (.readCount h (Function.update_self ..))
    have h₄ := (h₃.tail (.writeCount h (Function.update_self ..) hcount)).tail (.readPid h (Function.update_self ..))
    cases allocated with
    | true => exact ⟨_, h₄.tail (.answer h (Function.update_self ..)), rfl, by simp [hback]⟩
    | false => exact ⟨_, h₄.tail (.noMemory h (Function.update_self ..)), rfl, by simp [hback]⟩

/-! ## The messages at work -/

/-- The message a handler is at work on, and its place. -/
def Handler.works : Handler → Option (Nat × Skb)
  | .idle | .entering _ => none
  | .checking skb own | .counting skb own | .writing skb own _ _ | .calling skb own | .answering skb own _ _ =>
    some (own, skb)

/-- Behind the length check. -/
def Handler.Past (e : Endian) : Handler → Prop
  | .counting skb _ | .writing skb _ _ _ | .calling skb _ | .answering skb _ _ _ => Accepted e skb
  | _ => True

/-- Each handler is at work on a message of its own. -/
structure Working (e : Endian) (w : Shared) : Prop where
  atWork : AtWork Handler.works w.arrived w.handlers
  past : ∀ h, (w.handlers h).Past e

theorem past_set (hp : ∀ h, (w.handlers h).Past e) (hpast : handler.Past e) (h h' : Nat) :
    (Function.update w.handlers h handler h').Past e :=
  (Function.forall_update_iff w.handlers fun _ handler => handler.Past e).mpr ⟨hpast, fun h' _ => hp h'⟩ h'

theorem accepted_of_load {nlmsgLen : Nat} (hl : load e skb.data 0 4 = .ok nlmsgLen) :
    Accepted e skb ↔ ¬ (nlmsgLen < 16 ∨ skb.len < nlmsgLen) := by
  rw [load_len] at hl
  obtain rfl := Except.ok.inj hl
  rw [← not_accepted_iff, not_not]

theorem working_step (hw : Working e w) (hs : Shared.Step e w w') : Working e w' := by
  cases hs with
  | receive h skb hl => exact ⟨hw.atWork.move (.inl rfl), past_set hw.past (by trivial) h⟩
  | storePid h hl hload => exact ⟨hw.atWork.arrive rfl, past_set hw.past (by trivial) h⟩
  | reject h hl hload hlen | answer h hl | noMemory h hl =>
    exact ⟨hw.atWork.move (.inl rfl), past_set hw.past (by trivial) h⟩
  | accept h hl hload hlen =>
    refine ⟨hw.atWork.move (.inr (by rw [hl]; rfl)), past_set hw.past ?_ h⟩
    exact (accepted_of_load hload).mpr hlen
  | readCount h hl | readPid h hl | writeCount h hl =>
    have hp := hw.past h
    rw [hl] at hp
    refine ⟨hw.atWork.move (.inr (by rw [hl]; rfl)), past_set hw.past ?_ h⟩
    exact hp

theorem working_invariant : (handlers e).Invariant (Working e) where
  init := by
    rintro _ rfl
    exact ⟨atWork_nil fun _ => rfl, fun _ => trivial⟩
  step _ _ := working_step

/-! ## Each accepted message once -/

/-- In front of the write of `count`. -/
def Handler.Uncounted : Handler → Prop
  | .checking _ _ | .counting _ _ | .writing _ _ _ _ => True
  | _ => False

/-- A message is counted when `count` is written for it. -/
theorem counted_step (hw : Working e w)
    (ht : Tracked Handler.works (Accepted e) Handler.Uncounted w.arrived w.handlers w.counted) (hs : Shared.Step e w w') :
    Tracked Handler.works (Accepted e) Handler.Uncounted w'.arrived w'.handlers w'.counted := by
  cases hs with
  | receive h skb hl => exact ht.move False.elim fun i skb hi => by rw [hl] at hi; cases hi
  | storePid h hl hload => exact ht.arrive (by rw [hl]; rfl) rfl trivial
  | @reject h skb own nlmsgLen hl hload hlen =>
    refine ht.move False.elim fun i skb' hi _ ha => ?_
    rw [hl] at hi
    obtain ⟨rfl, rfl⟩ := Prod.mk.inj (Option.some_inj.mp hi)
    exact absurd hlen ((accepted_of_load hload).mp ha)
  | accept h hl hload hlen =>
    refine ht.move (fun _ => .inr ?_) fun i skb hi _ _ => ⟨by rw [← hi, hl]; rfl, trivial⟩
    rw [hl]
    exact ⟨rfl, trivial⟩
  | readCount h hl =>
    refine ht.move (fun _ => .inr ?_) fun i skb hi _ _ => ⟨by rw [← hi, hl]; rfl, trivial⟩
    rw [hl]
    exact ⟨rfl, trivial⟩
  | writeCount h hl hc =>
    have hp := hw.past h
    rw [hl] at hp
    exact ht.add hw.atWork (by rw [hl]; rfl) (by rw [hl]; trivial) hp False.elim
  | readPid h hl | answer h hl | noMemory h hl =>
    exact ht.move False.elim fun i skb _ hst => by rw [hl] at hst; exact hst.elim

/-- A message is done when its handler has answered, or had no memory to. -/
theorem done_step (hw : Working e w) (ht : Tracked Handler.works (Accepted e) (fun _ => True) w.arrived w.handlers w.done)
    (hs : Shared.Step e w w') : Tracked Handler.works (Accepted e) (fun _ => True) w'.arrived w'.handlers w'.done := by
  cases hs with
  | receive h skb hl => exact ht.move (fun _ => .inl rfl) fun i skb hi => by rw [hl] at hi; cases hi
  | storePid h hl hload => exact ht.arrive (by rw [hl]; rfl) rfl trivial
  | @reject h skb own nlmsgLen hl hload hlen =>
    refine ht.move (fun _ => .inl rfl) fun i skb' hi _ ha => ?_
    rw [hl] at hi
    obtain ⟨rfl, rfl⟩ := Prod.mk.inj (Option.some_inj.mp hi)
    exact absurd hlen ((accepted_of_load hload).mp ha)
  | accept h hl hload hlen =>
    refine ht.move (fun _ => .inr ?_) fun i skb hi _ _ => ⟨by rw [← hi, hl]; rfl, trivial⟩
    rw [hl]
    exact ⟨rfl, trivial⟩
  | readCount h hl | readPid h hl | writeCount h hl =>
    refine ht.move (fun _ => .inr ?_) fun i skb hi _ _ => ⟨by rw [← hi, hl]; rfl, trivial⟩
    rw [hl]
    exact ⟨rfl, trivial⟩
  | answer h hl | noMemory h hl =>
    have hp := hw.past h
    rw [hl] at hp
    exact ht.add hw.atWork (by rw [hl]; rfl) trivial hp fun _ => rfl

/-! ## `count` -/

/-- What a handler has read of `count`. -/
def Handler.ReadCount (additions : List Addition) : Handler → Prop
  | .writing _ _ count seen => seen ≤ additions.length ∧ ∃ n : Nat, count = n ∧ Sums (additions.take seen) n
  | _ => True

/-- `count` is what the additions make of it. -/
structure Tallied (w : Shared) : Prop where
  count : ∃ n : Nat, w.module.count = n ∧ Sums w.additions n
  read : ∀ h, (w.handlers h).ReadCount w.additions
  ones : added w.additions = w.counted.length

theorem readCount_snoc {additions : List Addition} (hr : handler.ReadCount additions) (a : Addition) :
    handler.ReadCount (additions ++ [a]) := by
  cases handler with
  | writing skb own count seen =>
    obtain ⟨hseen, n, hn, hsums⟩ := hr
    exact ⟨by rw [List.length_append]; omega, n, hn, hsums.grow hseen _⟩
  | _ => trivial

theorem sendMsgToUser_count (allocated : Bool) (s : Module) (msg : String) (userPid : Int) :
    (sendMsgToUser allocated s msg userPid).count = s.count := by
  cases allocated <;> rfl

theorem tallied_step (ht : Tallied w) (hs : Shared.Step e w w') : Tallied w' := by
  have hmove : ∀ {handler : Handler}, handler.ReadCount w.additions → ∀ h h',
      (Function.update w.handlers h handler h').ReadCount w.additions := fun hnew h =>
    (Function.forall_update_iff w.handlers fun _ handler => handler.ReadCount w.additions).mpr
      ⟨hnew, fun h' _ => ht.read h'⟩
  cases hs with
  | receive h | reject h | accept h | readPid h | storePid h => exact ⟨ht.count, hmove (by trivial) h, ht.ones⟩
  | @readCount h skb own hl =>
    obtain ⟨n, hn, hsums⟩ := ht.count
    have hnew : Handler.ReadCount w.additions (.writing skb own w.module.count w.additions.length) :=
      ⟨le_rfl, n, hn, hsums.read⟩
    exact ⟨ht.count, hmove hnew h, ht.ones⟩
  | @writeCount h skb own seen count count' hl hc =>
    have hread := ht.read h
    rw [hl] at hread
    obtain ⟨hseen, n, rfl, hy⟩ := hread
    obtain ⟨m, -, hsums⟩ := ht.count
    obtain ⟨rfl, -⟩ := checkedInt_eq_ok hc
    refine ⟨⟨n + 1, by push_cast; rfl, hsums.write hseen hy Nat.one_pos⟩, fun h' => ?_, ?_⟩
    · exact readCount_snoc (hmove (by trivial) h h') _
    · show added (w.additions ++ [⟨seen, 1⟩]) = (w.counted ++ [own]).length
      rw [added_append, ht.ones, List.length_append]
      rfl
  | answer h | noMemory h =>
    obtain ⟨n, hn, hsums⟩ := ht.count
    exact ⟨⟨n, (sendMsgToUser_count _ _ _ _).trans hn, hsums⟩, hmove (by trivial) h, ht.ones⟩

/-! ## `user_pid` -/

/-- What a handler has read of `user_pid`. -/
def Handler.ReadPid (e : Endian) (arrived : List Skb) : Handler → Prop
  | .answering _ own userPid last => own ≤ last ∧ ∃ skb, arrived[last]? = some skb ∧ userPid = int32 (skb.pid e)
  | _ => True

/-- The answer goes to the sender of the message at `last`. -/
def Answer.Is (e : Endian) (arrived : List Skb) (r : Reply) (a : Answer) : Prop :=
  ∃ own last, arrived[a.own]? = some own ∧ Accepted e own ∧ arrived[a.last]? = some last ∧ a.own ≤ a.last ∧
    r = reply e last

/-- `user_pid` is that of the last message, and each answer goes where its handler has read. -/
structure Answered (e : Endian) (w : Shared) : Prop where
  userPid : ∀ skb, w.arrived[w.arrived.length - 1]? = some skb → w.module.userPid = int32 (skb.pid e)
  read : ∀ h, (w.handlers h).ReadPid e w.arrived
  sent : List.Forall₂ (Answer.Is e w.arrived) w.module.sent w.answered
  own : (w.answered.map Answer.own).Sublist w.done
  length : w.answered.length + w.unanswered = w.done.length

theorem readPid_snoc {arrived : List Skb} (hr : handler.ReadPid e arrived) (skb : Skb) :
    handler.ReadPid e (arrived ++ [skb]) := by
  cases handler with
  | answering skb' own userPid last =>
    obtain ⟨hle, last, hlast, hpid⟩ := hr
    exact ⟨hle, last, getElem?_snoc hlast skb, hpid⟩
  | _ => trivial

theorem answerIs_snoc {arrived : List Skb} {r : Reply} {a : Answer} (ha : a.Is e arrived r) (skb : Skb) :
    a.Is e (arrived ++ [skb]) r := by
  obtain ⟨own, last, hown, hacc, hlast, hle, hr⟩ := ha
  exact ⟨own, last, getElem?_snoc hown skb, hacc, getElem?_snoc hlast skb, hle, hr⟩

theorem answered_step (hw : Working e w) (ha : Answered e w) (hs : Shared.Step e w w') :
    Answered e w' := by
  have hmove : ∀ {handler : Handler}, handler.ReadPid e w.arrived → ∀ h h',
      (Function.update w.handlers h handler h').ReadPid e w.arrived := fun hnew h =>
    (Function.forall_update_iff w.handlers fun _ handler => handler.ReadPid e w.arrived).mpr
      ⟨hnew, fun h' _ => ha.read h'⟩
  cases hs with
  | receive h | reject h | accept h | readCount h | writeCount h =>
    exact ⟨ha.userPid, hmove (by trivial) h, ha.sent, ha.own, ha.length⟩
  | @storePid h skb nlmsgPid hl hload =>
    rw [load_pid] at hload
    obtain rfl := Except.ok.inj hload
    refine ⟨fun skb' hlast => ?_, fun h' => readPid_snoc (hmove (by trivial) h h') skb,
      ha.sent.imp fun _ _ hr => answerIs_snoc hr skb, ha.own, ha.length⟩
    have hlast : (w.arrived ++ [skb])[(w.arrived ++ [skb]).length - 1]? = some skb' := hlast
    simp only [List.length_append, List.length_singleton, Nat.add_sub_cancel] at hlast
    rw [List.getElem?_append_right le_rfl, Nat.sub_self] at hlast
    obtain rfl := Option.some_inj.mp hlast
    rfl
  | @readPid h skb own hl =>
    have hown := hw.atWork.arrived h own skb (by rw [hl]; rfl)
    have hlt := (List.getElem?_eq_some_iff.mp hown).1
    obtain ⟨last, hlast⟩ : ∃ last, w.arrived[w.arrived.length - 1]? = some last :=
      ⟨_, List.getElem?_eq_getElem (by omega)⟩
    have hnew : Handler.ReadPid e w.arrived (.answering skb own w.module.userPid (w.arrived.length - 1)) :=
      ⟨by omega, last, hlast, ha.userPid last hlast⟩
    exact ⟨ha.userPid, hmove hnew h, ha.sent, ha.own, ha.length⟩
  | @answer h skb own last userPid hl =>
    have hread := ha.read h
    have hacc := hw.past h
    have hown := hw.atWork.arrived h own skb (by rw [hl]; rfl)
    rw [hl] at hread hacc
    obtain ⟨hle, skb', hlast, rfl⟩ := hread
    refine ⟨ha.userPid, hmove (by trivial) h, ?_, ?_, ?_⟩
    · refine List.rel_append ha.sent (.cons ⟨skb, skb', hown, hacc, hlast, hle, ?_⟩ .nil)
      rw [uint32_int32 (pid_lt e skb')]
      rfl
    · rw [List.map_append]
      exact ha.own.append (List.Sublist.refl _)
    · have hlen := ha.length
      show (w.answered ++ [Answer.mk own last]).length + w.unanswered = (w.done ++ [own]).length
      rw [List.length_append, List.length_append, List.length_singleton, List.length_singleton]
      omega
  | @noMemory h skb own last userPid hl =>
    refine ⟨ha.userPid, hmove (by trivial) h, ha.sent, ha.own.trans (List.sublist_append_left _ _), ?_⟩
    have hlen := ha.length
    show w.answered.length + (w.unanswered + 1) = (w.done ++ [own]).length
    rw [List.length_append, List.length_singleton]
    omega

/-! ## The race -/

/-- All that holds of the handlers. -/
structure Raced (e : Endian) (w : Shared) : Prop where
  counted : Tracked Handler.works (Accepted e) Handler.Uncounted w.arrived w.handlers w.counted
  done : Tracked Handler.works (Accepted e) (fun _ => True) w.arrived w.handlers w.done
  tallied : Tallied w
  answered : Answered e w

theorem raced_invariant : (handlers e).Invariant fun w => Working e w ∧ Raced e w := by
  refine working_invariant.of_step ?_ fun w w' hw hr hs => ⟨counted_step hw hr.counted hs, done_step hw hr.done hs,
    tallied_step hr.tallied hs, answered_step hw hr.answered hs⟩
  rintro _ rfl
  exact ⟨tracked_nil fun _ => rfl, tracked_nil fun _ => rfl, ⟨⟨0, rfl, sums_nil⟩, fun _ => trivial, rfl⟩,
    ⟨nofun, fun _ => trivial, .nil, List.Sublist.refl _, rfl⟩⟩

/-- **The handlers race**, in every interleaving: each answer is for an accepted message that has no other, and goes to
the sender of the message that was stored last when its handler read `user_pid`, its own or a later one. Whenever no
handler is at work, there are as many answers as accepted messages, but for those without memory; `count` is never more,
and is the number of accepted messages exactly when no two `count++` ever overlapped. -/
theorem handlers_race (hr : (handlers e).Reachable w) :
    (w.answered.map Answer.own).Nodup ∧
    List.Forall₂ (fun r a => ∃ own last, w.arrived[a.own]? = some own ∧ Accepted e own ∧
      w.arrived[a.last]? = some last ∧ a.own ≤ a.last ∧ r = reply e last) w.module.sent w.answered ∧
    ((∀ h, (w.handlers h).works = none) →
      w.module.sent.length + w.unanswered = (w.arrived.filter (Accepted e ·)).length ∧
      0 ≤ w.module.count ∧ w.module.count ≤ (w.arrived.filter (Accepted e ·)).length ∧
      (w.module.count = (w.arrived.filter (Accepted e ·)).length ↔ Successive w.additions)) := by
  obtain ⟨-, hraced⟩ := raced_invariant.reachable hr
  have ha := hraced.answered
  refine ⟨hraced.done.nodup.sublist ha.own, ha.sent, fun hnone => ?_⟩
  have hcounted := hraced.counted.length hnone
  have hdone := hraced.done.length hnone
  obtain ⟨n, hn, hsums⟩ := hraced.tallied.count
  rw [hn, ← hcounted, ← hraced.tallied.ones, Nat.cast_le, Nat.cast_inj]
  refine ⟨?_, Int.natCast_nonneg n, hsums.le, hsums.exact⟩
  rw [ha.sent.length_eq, ha.length, hdone, hraced.tallied.ones, hcounted]

/-- Handlers 0 and 1 take messages of the clients 7 and 8 at once: client 8 gets both answers, and `count` is 1. -/
theorem handlers_race_both : ∃ w, (handlers .little).Reachable w ∧ w.module.sent.map Reply.portid = [8, 8] ∧
    w.module.count = 1 ∧ ¬ Successive w.additions := by
  have h₀ : (handlers .little).Reachable ⟨.initial, fun _ => .idle, [], [], [], [], [], 0⟩ := .init rfl
  have h₁ := (h₀.step (.receive 0 (bareSkb 16 7).skb rfl)).step (.receive 1 (bareSkb 16 8).skb rfl)
  have h₂ := (h₁.step (.storePid 0 rfl (load_pid _ _))).step (.storePid 1 rfl (load_pid _ _))
  have h₃ := (h₂.step (.accept 0 rfl (load_len _ _) (by decide))).step (.accept 1 rfl (load_len _ _) (by decide))
  have h₄ := (h₃.step (.readCount 0 rfl)).step (.readCount 1 rfl)
  have h₅ := (h₄.step (.writeCount 0 rfl rfl)).step (.writeCount 1 rfl rfl)
  have h₆ := (h₅.step (.readPid 0 rfl)).step (.readPid 1 rfl)
  have h₇ := (h₆.step (.answer 0 rfl)).step (.answer 1 rfl)
  obtain ⟨-, -, hquiet⟩ := handlers_race h₇
  obtain ⟨-, -, -, hiff⟩ := hquiet fun
    | 0 | 1 => rfl
    | h + 2 => rfl
  exact ⟨_, h₇, rfl, rfl, fun hsuc => absurd (hiff.mpr hsuc) (by decide)⟩

end SideWork.Netlink
