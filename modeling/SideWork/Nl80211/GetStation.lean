import SideWork.Lib.Callbacks
import SideWork.Lib.System
import SideWork.Nl80211.StaInfo

/-!
# The program of `get_sta_info_NL80211_CMD_GET_STATION.c`

`main` asks for the interfaces and waits twice, until the kernel has answered and until a message has given it an index,
then it asks for the station of that interface and waits for a message about one. Any messages may come in any turn.

The loop behind the answer looks at the index only, so neither an error nor the end of the list ends it.

- `index_eq`, `got_iff`: what the callbacks have written;
- `station_asked`: which interface is asked about, and when the program returns, with or without having asked.
-/

namespace SideWork.Nl80211

/-- What arrives while the program waits for an interface. -/
inductive InterfaceMessage
  | ack
  | finish
  | error (errno : ℕ+)
  | interface (ifname ifindex : Option Nla)

/-- `err` and `iface_idx`, and what has been printed. -/
structure InterfaceVars where
  err : Int
  ifaceIdx : Nat
  printed : List String

/-- `callback_of_get_interface_index`. -/
def callbackOfGetInterfaceIndex (e : Endian) (ifname ifindex : Option Nla) (v : InterfaceVars) :
    Except Stop (InterfaceVars × Bool) := do
  let iface ← (ifPresent ifname ifnamePiece).mapM id
  let idx ← ifindex.elim (.ok v.ifaceIdx) fun nla => nlaGetU32 e (some nla)
  return ({ v with ifaceIdx := idx, printed := v.printed ++ iface ++ ["\n"] }, false)

/-- The callbacks of the first two loops; the three handlers print their names. -/
def InterfaceMessage.call (e : Endian) : InterfaceMessage → InterfaceVars → Except Stop (InterfaceVars × Bool)
  | .ack, v => .ok ({ v with err := 0, printed := v.printed ++ ["Enter ack_handler\n"] }, true)
  | .finish, v => .ok ({ v with err := 0, printed := v.printed ++ ["Enter finish_handler\n"] }, false)
  | .error errno, v =>
    .ok ({ v with err := -(errno : Nat), printed := v.printed ++ ["Enter error_handler\n"] }, true)
  | .interface ifname ifindex, v => callbackOfGetInterfaceIndex e ifname ifindex v

/-- What arrives while it waits for a station. -/
inductive StationMessage
  | ack
  | finish
  | error (errno : ℕ+)
  | station (tb : Option (Option StaInfo))

/-- `got`, and what has been printed. -/
structure StationVars where
  got : Nat
  printed : List String

/-- The callbacks of the socket: its own, but for `callback_of_get_sta_info`. An error ends the receive. -/
def StationMessage.call (e : Endian) : StationMessage → StationVars → Except Stop (StationVars × Bool)
  | .ack, v | .finish, v => .ok (v, false)
  | .error _, v => .ok (v, true)
  | .station tb, v => do
    let report := callbackOfGetStaInfo e v.got tb
    let lines ← report.printed.mapM StaLine.render
    return (⟨report.gotit, v.printed ++ lines⟩, false)

/-- Where `main` is: before `get_interface_index`, in one of its loops, between them, or behind them. -/
inductive StationPhase
  | unsent
  | answering (v : InterfaceVars)
  | indexing (v : InterfaceVars)
  | indexed (idx : Nat)
  | stationing (v : StationVars)
  | returned (code : Int)
  | failed (stop : Stop)

/-- From the condition of the second loop on. -/
def leaveIndexing (v : InterfaceVars) : StationPhase := if v.ifaceIdx = 0 then .indexing v else .indexed v.ifaceIdx

/-- From the condition of the first loop on. -/
def leaveAnswering (v : InterfaceVars) : StationPhase := if v.err > 0 then .answering v else leaveIndexing v

/-- A turn of the third loop: `nl_recvmsgs_default` returned `res`. -/
def leaveStationing (res : Int) (v : StationVars) : StationPhase :=
  if res < 0 then .returned res else if v.got = 0 then .stationing v else .returned 0

/-- What a turn makes of the variables, or the fault. -/
def afterTurn {σ : Type} (leave : σ → StationPhase) : Except Stop σ → StationPhase
  | .ok v => leave v
  | .error stop => .failed stop

/-- Where the program is, whether its request for the interfaces has been sent, the messages it was called back for, and
the interface it has asked about, or for which `get_station_info` failed. -/
structure StationState where
  phase : StationPhase
  sent : Bool
  heard : List InterfaceMessage
  asked : Option Nat
  unasked : Option Nat
  stations : List StationMessage

/-- The steps. -/
inductive StationState.Step (e : Endian) : StationState → StationState → Prop
  | unsent {s : StationState} (ret : Int) : s.phase = .unsent → ret < 0 →
      Step e s { s with phase := .returned ret }
  | sent {s : StationState} : s.phase = .unsent → Step e s { s with phase := .answering ⟨1, 0, []⟩, sent := true }
  | answers {s : StationState} {v : InterfaceVars} (ms : List InterfaceMessage) : s.phase = .answering v →
      Step e s { s with
        phase := afterTurn leaveAnswering (dispatch (InterfaceMessage.call e) ms v),
        heard := s.heard ++ called (InterfaceMessage.call e) ms v }
  | indexes {s : StationState} {v : InterfaceVars} (ms : List InterfaceMessage) : s.phase = .indexing v →
      Step e s { s with
        phase := afterTurn leaveIndexing (dispatch (InterfaceMessage.call e) ms v),
        heard := s.heard ++ called (InterfaceMessage.call e) ms v }
  | unasked {s : StationState} {idx : Nat} (ret : Int) : s.phase = .indexed idx → ret < 0 →
      Step e s { s with phase := .returned ret, unasked := some idx }
  | asked {s : StationState} {idx : Nat} : s.phase = .indexed idx →
      Step e s { s with phase := .stationing ⟨0, []⟩, asked := some idx }
  | stations {s : StationState} {v : StationVars} (ms : List StationMessage) (res : Int) : s.phase = .stationing v →
      Step e s { s with
        phase := afterTurn (leaveStationing res) (dispatch (StationMessage.call e) ms v),
        stations := s.stations ++ called (StationMessage.call e) ms v }

def stationProgram (e : Endian) : System StationState where
  init s := s = ⟨.unsent, false, [], none, none, []⟩
  step := StationState.Step e

variable {e : Endian} {s s' : StationState}

/-! ## The callbacks -/

/-- What a message writes to `err`. -/
def InterfaceMessage.err : InterfaceMessage → Option Int
  | .ack | .finish => some 0
  | .error errno => some (-(errno : Nat))
  | .interface _ _ => none

/-- The index that a message gives. -/
def InterfaceMessage.index (e : Endian) : InterfaceMessage → Option Nat
  | .interface _ (some nla) => some (word e (nla.data.take 4))
  | _ => none

/-- The index that was given last. -/
def lastIndex (e : Endian) (ms : List InterfaceMessage) : Nat := (ms.filterMap (InterfaceMessage.index e)).getLast?.getD 0

/-- The kernel has answered. -/
def Answered (ms : List InterfaceMessage) : Prop := ∃ m ∈ ms, m.err.isSome

/-- What some messages have written. -/
structure Written (e : Endian) (ms : List InterfaceMessage) (v : InterfaceVars) : Prop where
  index : v.ifaceIdx = lastIndex e ms
  err : v.err ≤ 0 ↔ Answered ms

theorem answered_snoc {ms : List InterfaceMessage} {m : InterfaceMessage} :
    Answered (ms ++ [m]) ↔ Answered ms ∨ m.err.isSome := by
  simp [Answered, or_and_right, exists_or]

theorem lastIndex_snoc (ms : List InterfaceMessage) (m : InterfaceMessage) :
    lastIndex e (ms ++ [m]) = (m.index e).getD (lastIndex e ms) := by
  unfold lastIndex
  cases h : m.index e <;> simp [h]

theorem written_call {ms : List InterfaceMessage} {m : InterfaceMessage} {v v' : InterfaceVars} {drop : Bool}
    (h : Written e ms v) (hc : m.call e v = .ok (v', drop)) : Written e (ms ++ [m]) v' := by
  constructor
  · rw [lastIndex_snoc, ← h.index]
    cases m with
    | ack | finish | error =>
      cases hc
      rfl
    | interface ifname ifindex =>
      obtain ⟨iface, -, hc⟩ := bind_eq_ok hc
      obtain ⟨idx, hidx, hc⟩ := bind_eq_ok hc
      cases hc
      cases ifindex with
      | none =>
        cases hidx
        rfl
      | some nla => exact word_of_load hidx
  · rw [answered_snoc]
    cases m with
    | ack | finish | error =>
      cases hc
      simp [InterfaceMessage.err]
    | interface ifname ifindex =>
      obtain ⟨iface, -, hc⟩ := bind_eq_ok hc
      obtain ⟨idx, hidx, hc⟩ := bind_eq_ok hc
      cases hc
      simpa [InterfaceMessage.err] using h.err

/-- **What the first two loops know**: the index that was given last, and whether the kernel has answered. -/
theorem index_eq {before ms : List InterfaceMessage} {v v' : InterfaceVars} (h : Written e before v)
    (hd : dispatch (InterfaceMessage.call e) ms v = .ok v') :
    Written e (before ++ called (InterfaceMessage.call e) ms v) v' :=
  dispatch_inv (Written e) (fun _ _ _ _ _ => written_call) h hd

/-- One of the messages is about a station. -/
def AboutStation (ms : List StationMessage) : Prop := ∃ info, .station (some info) ∈ ms

theorem got_call {ms : List StationMessage} {m : StationMessage} {v v' : StationVars} {drop : Bool}
    (h : v.got = 0 ↔ ¬ AboutStation ms) (hc : m.call e v = .ok (v', drop)) :
    v'.got = 0 ↔ ¬ AboutStation (ms ++ [m]) := by
  have hsnoc : AboutStation (ms ++ [m]) ↔ AboutStation ms ∨ ∃ info, .station (some info) = m := by
    simp [AboutStation, exists_or]
  rw [hsnoc]
  cases m with
  | ack | finish | error =>
    cases hc
    simpa using h
  | station tb =>
    obtain ⟨lines, -, hc⟩ := bind_eq_ok hc
    cases hc
    match tb with
    | none => simpa [callbackOfGetStaInfo] using h
    | some none => simp [callbackOfGetStaInfo]
    | some (some info) => simp [callbackOfGetStaInfo]

/-- **What the third loop knows**: whether a message was about a station. -/
theorem got_iff {before ms : List StationMessage} {v v' : StationVars} (h : v.got = 0 ↔ ¬ AboutStation before)
    (hd : dispatch (StationMessage.call e) ms v = .ok v') :
    v'.got = 0 ↔ ¬ AboutStation (before ++ called (StationMessage.call e) ms v) :=
  dispatch_inv (fun before v => v.got = 0 ↔ ¬ AboutStation before) (fun _ _ _ _ _ => got_call) h hd

/-! ## The runs -/

/-- Nothing has been asked about a station yet. -/
def StationState.Early (s : StationState) : Prop := s.asked = none ∧ s.unasked = none ∧ s.stations = []

/-- What holds where the program has returned. -/
def StationState.Ended (s : StationState) (code : Int) : Prop :=
  (s.sent = false → s.heard = [] ∧ code < 0) ∧
  (s.sent = true → s.unasked.isSome ∧ s.asked = none ∧ code < 0 ∨
    s.asked.isSome ∧ (code < 0 ∨ code = 0 ∧ AboutStation s.stations))

/-- What holds at each place. -/
def StationState.At (e : Endian) (s : StationState) : Prop :=
  match s.phase with
  | .unsent => s.sent = false ∧ s.heard = [] ∧ s.Early
  | .answering v => s.sent = true ∧ Written e s.heard v ∧ s.Early
  | .indexing v => s.sent = true ∧ Written e s.heard v ∧ Answered s.heard ∧ s.Early
  | .indexed idx => s.sent = true ∧ idx ≠ 0 ∧ idx = lastIndex e s.heard ∧ Answered s.heard ∧ s.Early
  | .stationing v => s.sent = true ∧ s.asked.isSome ∧ (v.got = 0 ↔ ¬ AboutStation s.stations)
  | .returned code => s.Ended code
  | .failed _ => True

/-- The interface that is asked about, or was to be, is the one that was named last. -/
structure StationState.Good (e : Endian) (s : StationState) : Prop where
  asked : ∀ idx, s.asked = some idx ∨ s.unasked = some idx → idx ≠ 0 ∧ idx = lastIndex e s.heard ∧ Answered s.heard
  atPhase : s.At e

theorem StationState.Early.named {idx : Nat} {P : Prop} (hs : s.Early) (h : s.asked = some idx ∨ s.unasked = some idx) :
    P := by
  rcases h with h | h
  · cases hs.1.symm.trans h
  · cases hs.2.1.symm.trans h

theorem good_leaveIndexing {v : InterfaceVars} (hsent : s.sent = true) (hw : Written e s.heard v)
    (ha : Answered s.heard) (hearly : s.Early) : StationState.Good e { s with phase := leaveIndexing v } := by
  refine ⟨fun idx h => hearly.named h, ?_⟩
  unfold leaveIndexing
  by_cases h0 : v.ifaceIdx = 0
  · rw [if_pos h0]
    exact ⟨hsent, hw, ha, hearly⟩
  · rw [if_neg h0]
    exact ⟨hsent, h0, hw.index, ha, hearly⟩

theorem good_leaveAnswering {v : InterfaceVars} (hsent : s.sent = true) (hw : Written e s.heard v)
    (hearly : s.Early) : StationState.Good e { s with phase := leaveAnswering v } := by
  unfold leaveAnswering
  by_cases herr : v.err > 0
  · rw [if_pos herr]
    exact ⟨fun idx h => hearly.named h, hsent, hw, hearly⟩
  · rw [if_neg herr]
    exact good_leaveIndexing hsent hw (hw.err.mp (not_lt.mp herr)) hearly

theorem good_stationStep (h : s.Good e) (hs : StationState.Step e s s') : s'.Good e := by
  obtain ⟨hasked, hat⟩ := h
  cases hs with
  | unsent ret hp hret =>
    rw [StationState.At, hp] at hat
    refine ⟨hasked, fun _ => ⟨hat.2.1, hret⟩, fun hsent => ?_⟩
    cases hat.1.symm.trans hsent
  | sent hp =>
    rw [StationState.At, hp] at hat
    obtain ⟨-, hheard, hearly⟩ := hat
    refine ⟨hasked, rfl, ⟨?_, ?_⟩, hearly⟩
    · simp [hheard, lastIndex]
    · simp [hheard, Answered]
  | @answers v ms hp =>
    rw [StationState.At, hp] at hat
    obtain ⟨hsent, hw, hearly⟩ := hat
    cases hd : dispatch (InterfaceMessage.call e) ms v with
    | error stop => exact ⟨fun idx h => hearly.named h, trivial⟩
    | ok v' =>
      exact good_leaveAnswering
        (s := { s with heard := s.heard ++ called (InterfaceMessage.call e) ms v }) hsent (index_eq hw hd) hearly
  | @indexes v ms hp =>
    rw [StationState.At, hp] at hat
    obtain ⟨hsent, hw, ⟨m, hm, hans⟩, hearly⟩ := hat
    cases hd : dispatch (InterfaceMessage.call e) ms v with
    | error stop => exact ⟨fun idx h => hearly.named h, trivial⟩
    | ok v' =>
      exact good_leaveIndexing
        (s := { s with heard := s.heard ++ called (InterfaceMessage.call e) ms v }) hsent (index_eq hw hd)
        ⟨m, List.mem_append_left _ hm, hans⟩ hearly
  | @unasked idx ret hp hret =>
    rw [StationState.At, hp] at hat
    obtain ⟨hsent, hne, hlast, hans, hearly⟩ := hat
    refine ⟨fun idx' h => ?_, fun hunsent => ?_, fun _ => .inl ⟨rfl, hearly.1, hret⟩⟩
    · rcases h with h | h
      · cases hearly.1.symm.trans h
      · cases h
        exact ⟨hne, hlast, hans⟩
    · cases hsent.symm.trans hunsent
  | @asked idx hp =>
    rw [StationState.At, hp] at hat
    obtain ⟨hsent, hne, hlast, hans, hearly⟩ := hat
    refine ⟨fun idx' h => ?_, hsent, rfl, ?_⟩
    · rcases h with h | h
      · cases h
        exact ⟨hne, hlast, hans⟩
      · cases hearly.2.1.symm.trans h
    · simp [hearly.2.2, AboutStation]
  | @stations v ms res hp =>
    rw [StationState.At, hp] at hat
    obtain ⟨hsent, hsome, hgot⟩ := hat
    cases hd : dispatch (StationMessage.call e) ms v with
    | error stop => exact ⟨hasked, trivial⟩
    | ok v' =>
      have hgot' := got_iff hgot hd
      have hended : ∀ code, code < 0 ∨ code = 0 ∧ AboutStation (s.stations ++ called (StationMessage.call e) ms v) →
          StationState.Ended { s with
            phase := .returned code, stations := s.stations ++ called (StationMessage.call e) ms v } code := by
        intro code hcode
        refine ⟨fun hunsent => ?_, fun _ => .inr ⟨hsome, hcode⟩⟩
        cases hsent.symm.trans hunsent
      refine ⟨hasked, ?_⟩
      unfold afterTurn leaveStationing
      by_cases hres : res < 0
      · simp only [if_pos hres]
        exact hended res (.inl hres)
      · by_cases h0 : v'.got = 0
        · simp only [if_neg hres, if_pos h0]
          exact ⟨hsent, hsome, hgot'⟩
        · simp only [if_neg hres, if_neg h0]
          exact hended 0 (.inr ⟨rfl, not_not.mp (mt hgot'.mpr h0)⟩)

theorem stationGood_invariant : (stationProgram e).Invariant (StationState.Good e) where
  init := by
    rintro _ rfl
    exact ⟨by simp, rfl, rfl, rfl, rfl, rfl⟩
  step _ _ := good_stationStep

/-- **The program asks about the interface that was named last.** Whatever comes in whatever turns, the index it asks about
is not 0 and the last one the kernel gave, after an answer. Once the request for the interfaces is sent, the program
returns without having asked only if `get_station_info` failed on that index, and then with an error: no message makes it
return before. It returns 0 only after a message about a station. -/
theorem station_asked (hr : (stationProgram e).Reachable s) :
    (∀ idx, s.asked = some idx ∨ s.unasked = some idx → idx ≠ 0 ∧ idx = lastIndex e s.heard ∧ Answered s.heard) ∧
    ∀ code, s.phase = .returned code →
      (s.sent = false → s.heard = [] ∧ code < 0) ∧
      (s.sent = true → s.unasked.isSome ∧ s.asked = none ∧ code < 0 ∨
        s.asked.isSome ∧ (code < 0 ∨ code = 0 ∧ AboutStation s.stations)) := by
  obtain ⟨hasked, hat⟩ := stationGood_invariant.reachable hr
  refine ⟨hasked, fun code hp => ?_⟩
  rw [StationState.At, hp] at hat
  exact hat

/-- Two interfaces and the end of the list, and a station whose information cannot be parsed. -/
def secondInterface : StationState where
  phase := .returned 0
  sent := true
  heard := [.interface none (some ⟨3, [2, 0, 0, 0]⟩), .interface none (some ⟨3, [3, 0, 0, 0]⟩), .finish]
  asked := some 3
  unasked := none
  stations := [.station (some none)]

theorem secondInterface_reachable : (stationProgram .little).Reachable secondInterface := by
  have h₀ : (stationProgram .little).Reachable ⟨.unsent, false, [], none, none, []⟩ := .init rfl
  have h₁ := (h₀.step (.sent rfl)).step (.answers [.interface none (some ⟨3, [2, 0, 0, 0]⟩)] rfl)
  have h₂ := h₁.step (.answers [.interface none (some ⟨3, [3, 0, 0, 0]⟩), .finish] rfl)
  exact (h₂.step (.asked rfl)).step (.stations [.station (some none)] 100 rfl)

theorem secondInterface_asked : (stationProgram .little).Reachable secondInterface ∧
    (∀ idx, secondInterface.asked = some idx → idx = lastIndex .little secondInterface.heard) ∧
    AboutStation secondInterface.stations := by
  obtain ⟨hasked, hreturned⟩ := station_asked secondInterface_reachable
  refine ⟨secondInterface_reachable, fun idx h => (hasked idx (.inl h)).2.1, ?_⟩
  rcases (hreturned 0 rfl).2 rfl with ⟨-, hnone, -⟩ | ⟨-, hneg | ⟨-, habout⟩⟩
  · cases hnone
  · exact absurd hneg (lt_irrefl 0)
  · exact habout

end SideWork.Nl80211
