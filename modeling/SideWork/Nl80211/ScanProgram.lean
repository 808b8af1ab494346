import SideWork.Lib.System
import SideWork.Nl80211.MulticastId
import SideWork.Nl80211.TriggerScan

/-!
# The program of `scan.c`

`main` asks for the id of the multicast group and joins it, triggers a scan, waits for the kernel's answer and then for
an event of the scan, and asks for the results. Any messages may come in any turn of either loop; of `nl_recvmsgs` only
this is assumed, that it returns an error when `error_handler` has ended it.

Between its loops this program looks at what `nl_recvmsgs` returned, which the one in `scan_NL80211_CMD_TRIGGER_SCAN.c`
does not.

- `vars_eq`: `err`, `done` and `aborted` by the callbacks that have been made;
- `scan_answered`: what a run has heard when it goes on and when it returns;
- `trigger_agrees`: the two programs agree as long as no receive fails.
-/

namespace SideWork.Nl80211

/-- `callback_trigger`; the flags are those of `struct trigger_results`. -/
def callbackTrigger (cmd : Nat) (v : Vars) : Vars × Answer :=
  if cmd = cmdScanAborted then ({ v with done := true, abort := true }, .skip)
  else if cmd = cmdNewScanResults then ({ v with done := true, abort := false }, .skip)
  else (v, .skip)

/-- The callbacks of `do_scan_trigger`. -/
def triggerCall : Callback → Vars → Except Stop (Vars × Bool)
  | .ack, v => .ok ((ackHandler v).1, true)
  | .finish, v => .ok ((finishHandler v).1, false)
  | .error errno, v => .ok ((errorHandler errno v).1, true)
  | .scan cmd, v => .ok ((callbackTrigger cmd v).1, false)

/-- Where `main` is: in `nl_get_multicast_id`, behind it, in one of the loops of `do_scan_trigger`, or behind that. -/
inductive ScanPhase
  | resolving
  | joined
  | acking (v : Vars)
  | scanning (v : Vars)
  | dumping
  | returned (code : Int)
  | failed (stop : Stop)

/-- From the condition of the second loop on. -/
def leaveTrigger (v : Vars) : ScanPhase := if v.done then if v.abort then .returned 1 else .dumping else .scanning v

/-- One turn of the loop of `do_scan_trigger` that the program is in: the messages, and what `nl_recvmsgs` returns. -/
def triggerTurn : ScanPhase → List Callback × Int → ScanPhase
  | .acking v, (cs, ret) =>
    match dispatch triggerCall cs v with
    | .error stop => .failed stop
    | .ok v => if v.err > 0 then .acking v else if ret < 0 then .returned ret else leaveTrigger v
  | .scanning v, (cs, _) =>
    match dispatch triggerCall cs v with
    | .error stop => .failed stop
    | .ok v => leaveTrigger v
  | phase, _ => phase

/-- The command has been sent. -/
def triggerStart : ScanPhase := .acking ⟨1, false, false⟩

/-- Where the program is, the group that it has joined, and the callbacks made in each of the two loops. -/
structure ScanState where
  phase : ScanPhase
  mcid : Option Int
  acked : List Callback
  events : List Callback

/-- `-ENOMEM`. -/
def nomem : Int := -12

/-- What is asked of `nl_recvmsgs`. -/
def Returns (b : List Callback × Int) : Prop := Refused b.1 → b.2 < 0

/-- The steps. `nl_get_multicast_id` and the other calls can fail before anything is sent, and what it returns is the
group to join. -/
inductive ScanState.Step (e : Endian) : ScanState → ScanState → Prop
  | resolved {s : ScanState} {batches : List (List FamilyMessage)} {mcid : Int} : s.phase = .resolving →
      nlGetMulticastId e scanGroup batches = .ok (some mcid) → Step e s { s with phase := .joined, mcid := some mcid }
  | unresolved {s : ScanState} {mcid : Int} : s.phase = .resolving → mcid < 0 →
      Step e s { s with phase := .joined, mcid := some mcid }
  | resolveFails {s : ScanState} {batches : List (List FamilyMessage)} {stop : Stop} : s.phase = .resolving →
      nlGetMulticastId e scanGroup batches = .error stop → Step e s { s with phase := .failed stop }
  | noMemory {s : ScanState} : s.phase = .joined → Step e s { s with phase := .returned nomem }
  | sent {s : ScanState} : s.phase = .joined → Step e s { s with phase := triggerStart }
  | acks {s : ScanState} {v : Vars} (b : List Callback × Int) : s.phase = .acking v → Returns b →
      Step e s { s with phase := triggerTurn (.acking v) b, acked := s.acked ++ called triggerCall b.1 v }
  | scans {s : ScanState} {v : Vars} (b : List Callback × Int) : s.phase = .scanning v → Returns b →
      Step e s { s with phase := triggerTurn (.scanning v) b, events := s.events ++ called triggerCall b.1 v }
  | dumps {s : ScanState} (ret : Int) : s.phase = .dumping →
      Step e s { s with phase := .returned (if ret < 0 then ret else 0) }

def scanProgram (e : Endian) : System ScanState where
  init s := s = ⟨.resolving, none, [], []⟩
  step := ScanState.Step e

variable {e : Endian} {s s' : ScanState} {c : Callback} {cs : List Callback} {v v' : Vars}

/-! ## The callbacks -/

theorem callbackTrigger_eq : callbackTrigger = callbackOfScan := rfl

/-- A receive is that of the other program. -/
theorem dispatch_trigger (cs : List Callback) (v : Vars) : dispatch triggerCall cs v = .ok (nlRecvmsgs cs v) := by
  induction cs generalizing v with
  | nil => rfl
  | cons c cs ih =>
    cases c with
    | ack => rfl
    | error errno => rfl
    | finish =>
      rw [dispatch_again rfl, ih]
      rfl
    | scan cmd => rw [dispatch_again rfl, ih, nlRecvmsgs_scan, callbackTrigger_eq]

theorem called_trigger (cs : List Callback) (v : Vars) : called triggerCall cs v = made cs := by
  induction cs generalizing v with
  | nil => rfl
  | cons c cs ih =>
    cases c with
    | ack | error errno => rfl
    | finish | scan cmd => rw [called_again rfl, made, ih]

/-- **What the variables are**: of `err`, what was written last, and of the flags, what the last event says. -/
theorem vars_eq (before cs : List Callback) : nlRecvmsgs cs (varsAfter before) =
    varsAfter (before ++ called triggerCall cs (varsAfter before)) := by
  rw [called_trigger, recvmsgs_after]

/-- An error that is called back for ends the receive. -/
theorem refused_of_called {errno : ℕ+} (h : .error errno ∈ called triggerCall cs v) : Refused cs := by
  induction cs generalizing v with
  | nil => cases h
  | cons c cs ih =>
    cases c with
    | ack =>
      rw [called_drop rfl] at h
      cases List.mem_singleton.mp h
    | error errno' => trivial
    | finish =>
      rw [called_again rfl] at h
      exact ih ((List.mem_cons.mp h).resolve_left nofun)
    | scan cmd =>
      rw [called_again rfl] at h
      exact ih ((List.mem_cons.mp h).resolve_left nofun)

/-! ## The runs -/

/-- The kernel has said yes, and has not said no. -/
structure Accepted (cs : List Callback) : Prop where
  answered : .ack ∈ cs ∨ .finish ∈ cs
  unrefused : ∀ errno, .error errno ∉ cs

/-- What has been heard at each place. -/
def ScanState.Good (s : ScanState) : Prop :=
  match s.phase with
  | .resolving | .joined => s.acked = [] ∧ s.events = []
  | .acking v => s.events = [] ∧ v = varsAfter s.acked ∧ 0 < v.err
  | .scanning v => Accepted s.acked ∧ v = varsAfter (s.acked ++ s.events) ∧ lastEvent (s.acked ++ s.events) = none
  | .dumping => Accepted s.acked ∧ lastEvent (s.acked ++ s.events) = some false
  | .returned code => code < 0 ∨ Accepted s.acked ∧
      (code = 0 ∧ lastEvent (s.acked ++ s.events) = some false ∨ code = 1 ∧ lastEvent (s.acked ++ s.events) = some true)
  | .failed _ => True

/-- The condition of the second loop. -/
theorem good_leaveTrigger (ha : Accepted s.acked) :
    ScanState.Good { s with phase := leaveTrigger (varsAfter (s.acked ++ s.events)) } := by
  have hdone : (varsAfter (s.acked ++ s.events)).done = (lastEvent (s.acked ++ s.events)).isSome := rfl
  have habort : (varsAfter (s.acked ++ s.events)).abort = (lastEvent (s.acked ++ s.events)).getD false := rfl
  unfold leaveTrigger
  rw [hdone, habort]
  cases hl : lastEvent (s.acked ++ s.events) with
  | none => exact ⟨ha, rfl, hl⟩
  | some aborted =>
    cases aborted with
    | false => exact ⟨ha, hl⟩
    | true => exact Or.inr ⟨ha, Or.inr ⟨rfl, hl⟩⟩

/-- What ends the first loop without an error is an acceptance. -/
theorem accepted_of_err {before : List Callback} {b : List Callback × Int} (hb : Returns b) (hret : ¬ b.2 < 0)
    (hbefore : 0 < (varsAfter before).err)
    (herr : ¬ 0 < (varsAfter (before ++ called triggerCall b.1 (varsAfter before))).err) :
    Accepted (before ++ called triggerCall b.1 (varsAfter before)) := by
  have hun : ∀ errno, .error errno ∉ before ++ called triggerCall b.1 (varsAfter before) := by
    intro errno hmem
    rcases List.mem_append.mp hmem with hmem | hmem
    · exact Option.some_ne_none _ (err_pos_iff.mp hbefore _ hmem)
    · exact hret (hb (refused_of_called hmem))
  rw [err_pos_iff] at herr
  push Not at herr
  obtain ⟨c, hc, hne⟩ := herr
  refine ⟨?_, hun⟩
  cases c with
  | ack => exact Or.inl hc
  | finish => exact Or.inr hc
  | error errno => exact absurd hc (hun errno)
  | scan cmd => exact absurd rfl hne

theorem good_acks {b : List Callback × Int} (h : s.Good) (hp : s.phase = .acking v) (hb : Returns b) :
    ScanState.Good { s with phase := triggerTurn (.acking v) b, acked := s.acked ++ called triggerCall b.1 v } := by
  rw [ScanState.Good, hp] at h
  obtain ⟨hevents, rfl, hpos⟩ := h
  have hturn : triggerTurn (.acking (varsAfter s.acked)) b =
      let v := varsAfter (s.acked ++ called triggerCall b.1 (varsAfter s.acked))
      if v.err > 0 then .acking v else if b.2 < 0 then .returned b.2 else leaveTrigger v := by
    rw [← vars_eq]
    simp only [triggerTurn, dispatch_trigger]
  rw [hturn]
  by_cases herr : 0 < (varsAfter (s.acked ++ called triggerCall b.1 (varsAfter s.acked))).err
  · simp only [gt_iff_lt, if_pos herr]
    exact ⟨hevents, rfl, herr⟩
  · simp only [gt_iff_lt, if_neg herr]
    by_cases hret : b.2 < 0
    · rw [if_pos hret]
      exact Or.inl hret
    · rw [if_neg hret]
      have hacc := accepted_of_err hb hret hpos herr
      have hgood := good_leaveTrigger
        (s := { s with acked := s.acked ++ called triggerCall b.1 (varsAfter s.acked) }) hacc
      simpa [hevents] using hgood

theorem good_scans {b : List Callback × Int} (h : s.Good) (hp : s.phase = .scanning v) :
    ScanState.Good { s with phase := triggerTurn (.scanning v) b, events := s.events ++ called triggerCall b.1 v } := by
  rw [ScanState.Good, hp] at h
  obtain ⟨hacc, rfl, -⟩ := h
  have hturn : triggerTurn (.scanning (varsAfter (s.acked ++ s.events))) b =
      leaveTrigger (varsAfter (s.acked ++ s.events ++ called triggerCall b.1 (varsAfter (s.acked ++ s.events)))) := by
    rw [← vars_eq]
    simp only [triggerTurn, dispatch_trigger]
  rw [hturn, List.append_assoc]
  exact good_leaveTrigger
    (s := { s with events := s.events ++ called triggerCall b.1 (varsAfter (s.acked ++ s.events)) }) hacc

theorem good_scanStep (h : s.Good) (hs : ScanState.Step e s s') : s'.Good := by
  cases hs with
  | resolved hp _ | unresolved hp _ =>
    rw [ScanState.Good, hp] at h
    exact h
  | resolveFails => trivial
  | noMemory => exact Or.inl (by decide)
  | sent hp =>
    rw [ScanState.Good, hp] at h
    obtain ⟨hacked, hevents⟩ := h
    exact ⟨hevents, by simp [hacked]; rfl, by decide⟩
  | acks b hp hb => exact good_acks h hp hb
  | scans b hp _ => exact good_scans h hp
  | dumps ret hp =>
    rw [ScanState.Good, hp] at h
    show _ ∨ _
    by_cases hret : ret < 0
    · exact Or.inl (by rwa [if_pos hret])
    · rw [if_neg hret]
      exact Or.inr ⟨h.1, Or.inl ⟨rfl, h.2⟩⟩

theorem scanGood_invariant : (scanProgram e).Invariant ScanState.Good where
  init := by
    rintro _ rfl
    exact ⟨rfl, rfl⟩
  step _ _ := good_scanStep

/-- **The program goes on only from an accepted trigger, and returns what the scan came to.** Whatever comes in whatever
turns, it waits for an event, asks for the results and returns a code that is not negative only when the kernel has
accepted the trigger and not refused it; it waits as long as there was no event, asks for the results when the last one
is `NL80211_CMD_NEW_SCAN_RESULTS`, and returns 1 when it is `NL80211_CMD_SCAN_ABORTED`. -/
theorem scan_answered (hr : (scanProgram e).Reachable s) :
    (∀ v, s.phase = .scanning v → Accepted s.acked ∧ lastEvent (s.acked ++ s.events) = none) ∧
    (s.phase = .dumping → Accepted s.acked ∧ lastEvent (s.acked ++ s.events) = some false) ∧
    ∀ code, s.phase = .returned code → 0 ≤ code → Accepted s.acked ∧
      (code = 0 ∧ lastEvent (s.acked ++ s.events) = some false ∨
        code = 1 ∧ lastEvent (s.acked ++ s.events) = some true) := by
  have h := scanGood_invariant.reachable hr
  unfold ScanState.Good at h
  refine ⟨fun v hp => ?_, fun hp => ?_, fun code hp h0 => ?_⟩
  · rw [hp] at h
    exact ⟨h.1, h.2.2⟩
  · rw [hp] at h
    exact h
  · rw [hp] at h
    exact h.resolve_left (by omega)

/-- A run in which all goes well. -/
def quietRun : ScanState := ⟨.returned 0, some 5, [.scan 3, .ack], [.scan cmdNewScanResults]⟩

theorem quietRun_reachable : (scanProgram .little).Reachable quietRun := by
  have h₀ : (scanProgram .little).Reachable ⟨.resolving, none, [], []⟩ := .init rfl
  have h₁ := (h₀.step (.resolved rfl nlGetMulticastId_familyReply.2)).step (.sent rfl)
  have h₂ := h₁.step (.acks ([.scan 3, .ack], 56) rfl nofun)
  have h₃ := h₂.step (.scans ([.scan cmdNewScanResults], 80) rfl nofun)
  exact h₃.step (.dumps 4000 rfl)

theorem quietRun_answered : (scanProgram .little).Reachable quietRun ∧ Accepted quietRun.acked :=
  ⟨quietRun_reachable, ((scan_answered quietRun_reachable).2.2 0 rfl le_rfl).1⟩

/-! ## The two programs -/

/-- Where the other program is at the same time. -/
def ScanPhase.Matches : ScanPhase → State → Prop
  | .acking v, t => 0 < v.err ∧ t = ⟨.acking, v, none⟩
  | .scanning v, t => t = ⟨.scanning, v, some 0⟩
  | .dumping, t => t.phase = .scanDone
  | .returned code, t => code = 1 ∧ t.phase = .aborted
  | _, _ => False

theorem matches_leave (v : Vars) : (leaveTrigger v).Matches (leaveScanning v (some 0)) := by
  obtain ⟨err, done, abort⟩ := v
  cases done with
  | false => exact rfl
  | true =>
    cases abort with
    | false => exact rfl
    | true => exact ⟨rfl, rfl⟩

/-- A turn in which nothing fails. -/
theorem matches_turn {phase : ScanPhase} {t : State} {b : List Callback × Int} (h : phase.Matches t) (hb : Returns b)
    (hret : 0 ≤ b.2) : (triggerTurn phase b).Matches (step t b.1) := by
  have hno : ¬ Refused b.1 := fun hr => absurd (hb hr) (not_lt.mpr hret)
  cases phase with
  | acking v =>
    obtain ⟨hpos, rfl⟩ := h
    have herr := (recvmsgs_err b.1 v).2 hno
    have hturn : triggerTurn (.acking v) b =
        if (nlRecvmsgs b.1 v).err > 0 then .acking (nlRecvmsgs b.1 v) else leaveTrigger (nlRecvmsgs b.1 v) := by
      simp only [triggerTurn, dispatch_trigger, if_neg (not_lt.mpr hret)]
    have hstep : step ⟨.acking, v, none⟩ b.1 = leaveAcking (nlRecvmsgs b.1 v) := rfl
    rw [hturn, hstep, leaveAcking]
    by_cases hp : (nlRecvmsgs b.1 v).err > 0
    · rw [if_pos hp, if_pos hp]
      exact ⟨hp, rfl⟩
    · have h0 : (nlRecvmsgs b.1 v).err = 0 := by omega
      rw [if_neg hp, if_neg hp, h0]
      exact matches_leave _
  | scanning v =>
    obtain rfl : t = ⟨.scanning, v, some 0⟩ := h
    have hturn : triggerTurn (.scanning v) b = leaveTrigger (nlRecvmsgs b.1 v) := by
      simp only [triggerTurn, dispatch_trigger]
    rw [hturn]
    exact matches_leave _
  | dumping =>
    have ht : t.phase = .scanDone := h
    have hstep : step t b.1 = t := by rw [step, ht]
    rwa [hstep]
  | returned code =>
    have ht : t.phase = .aborted := h.2
    have hstep : step t b.1 = t := by rw [step, ht]
    rwa [hstep]
  | _ => cases h

/-- **The two programs agree as long as no receive fails**: on the same messages in the same turns, both wait in the same
loop with the same variables, or both are past it, or both have given up. -/
theorem trigger_agrees (bs : List (List Callback × Int)) (h : ∀ b ∈ bs, Returns b ∧ 0 ≤ b.2) :
    (bs.foldl triggerTurn triggerStart).Matches (run (bs.map Prod.fst)) := by
  induction bs using List.reverseRecOn with
  | nil => exact ⟨by decide, rfl⟩
  | append_singleton bs b ih =>
    obtain ⟨hb, hret⟩ := h b (by simp)
    rw [List.foldl_append, List.map_append, List.map_singleton, run_snoc]
    exact matches_turn (ih fun b' hb' => h b' (by simp [hb'])) hb hret

/-- An accepted trigger, and the results. -/
def quietScan : List (List Callback × Int) := [([.scan 3, .ack], 56), ([.scan cmdNewScanResults], 80)]

theorem quietScan_agrees : (∀ b ∈ quietScan, Returns b ∧ 0 ≤ b.2) ∧
    (run (quietScan.map Prod.fst)).phase = .scanDone := by
  have h : ∀ b ∈ quietScan, Returns b ∧ 0 ≤ b.2 := by simp [quietScan, Returns, Refused]
  exact ⟨h, trigger_agrees quietScan h⟩

end SideWork.Nl80211
