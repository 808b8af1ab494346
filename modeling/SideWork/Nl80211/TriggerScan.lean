import Mathlib.Data.PNat.Basic
import Mathlib.Data.List.Infix
import Mathlib.Tactic

/-!
# Waiting for a triggered scan

After `NL80211_CMD_TRIGGER_SCAN` has been sent, `main` waits in two loops, first until one of the handlers has changed
`err`, then until `callback_of_scan` has set `done`. Each turn of either loop is one `nl_recvmsgs`, which makes any
number of callbacks, in any order, up to the first that answers `NL_STOP`. Nothing between the loops looks at the sign
of `err`.

- `recvmsgs_err`, `recvmsgs_after`: what one `nl_recvmsgs` does to `err`, and the variables by the callbacks made so far;
- `harmless_iff`: a refusal that comes before any answer is noticed exactly when the last scan event was an abort;
- `step_sound`: a step that is not an unnoticed refusal keeps the invariant `Sound`;
- `scanDone_accepted`: a run without such a step reaches `Scan done.` only with `err = 0`, and every such step can be
  followed by a run that reaches `Scan done.` with a negative `err`.
-/

namespace SideWork.Nl80211

/-- The variables the callbacks write: `err`, and the two flags of `struct scan_state`. -/
structure Vars where
  err : Int
  done : Bool
  abort : Bool
  deriving DecidableEq, Repr

/-- What a callback answers: `NL_STOP` drops the rest of the received messages, `NL_SKIP` goes on with the next. -/
inductive Answer
  | stop
  | skip
  deriving DecidableEq, Repr

def cmdNewScanResults : Nat := 34

def cmdScanAborted : Nat := 35

/-- A callback of `nl_recvmsgs`; `err->error` of an error message is the negative of its error number. -/
inductive Callback
  | ack
  | finish
  | error (errno : ℕ+)
  | scan (cmd : Nat)
  deriving DecidableEq, Repr

/-- `ack_handler`. -/
def ackHandler (v : Vars) : Vars × Answer := ({ v with err := 0 }, .stop)

/-- `finish_handler`. -/
def finishHandler (v : Vars) : Vars × Answer := ({ v with err := 0 }, .skip)

/-- `error_handler`. -/
def errorHandler (errno : ℕ+) (v : Vars) : Vars × Answer := ({ v with err := -(errno : Nat) }, .stop)

/-- `callback_of_scan`. -/
def callbackOfScan (cmd : Nat) (v : Vars) : Vars × Answer :=
  if cmd = cmdScanAborted then ({ v with done := true, abort := true }, .skip)
  else if cmd = cmdNewScanResults then ({ v with abort := false, done := true }, .skip)
  else (v, .skip)

def Callback.call : Callback → Vars → Vars × Answer
  | .ack, v => ackHandler v
  | .finish, v => finishHandler v
  | .error errno, v => errorHandler errno v
  | .scan cmd, v => callbackOfScan cmd v

/-- One `nl_recvmsgs` over the callbacks of the received messages. -/
def nlRecvmsgs : List Callback → Vars → Vars
  | [], v => v
  | c :: cs, v =>
    match c.call v with
    | (v, .stop) => v
    | (v, .skip) => nlRecvmsgs cs v

/-- Where `main` is: in `while (err > 0)`, in `while (!state.done)`, returned with -1, or past `Scan done.` -/
inductive Phase
  | acking
  | scanning
  | aborted
  | scanDone
  deriving DecidableEq, Repr

/-- The state of `main`, with the `err` that ended the first loop. -/
structure State where
  phase : Phase
  vars : Vars
  loopErr : Option Int
  deriving DecidableEq, Repr

/-- From the condition of the second loop on. -/
def leaveScanning (v : Vars) (loopErr : Option Int) : State :=
  if v.done then ⟨if v.abort then .aborted else .scanDone, v, loopErr⟩ else ⟨.scanning, v, loopErr⟩

/-- From the condition of the first loop on. -/
def leaveAcking (v : Vars) : State :=
  if v.err > 0 then ⟨.acking, v, none⟩ else leaveScanning v (some v.err)

/-- One turn of the loop that `main` is in. -/
def step (s : State) (cs : List Callback) : State :=
  match s.phase with
  | .acking => leaveAcking (nlRecvmsgs cs s.vars)
  | .scanning => leaveScanning (nlRecvmsgs cs s.vars) s.loopErr
  | .aborted => s
  | .scanDone => s

/-- `main` when the command has been sent. -/
def start : State := ⟨.acking, ⟨1, false, false⟩, none⟩

/-- `main` over any run of `nl_recvmsgs` calls. -/
def run (bs : List (List Callback)) : State := bs.foldl step start

/-! ## One `nl_recvmsgs` -/

/-- The first callback that answers `NL_STOP` is `error_handler`. -/
def Refused : List Callback → Prop
  | [] => False
  | .ack :: _ => False
  | .error _ :: _ => True
  | .finish :: cs => Refused cs
  | .scan _ :: cs => Refused cs

/-- The callbacks that one `nl_recvmsgs` makes. -/
def made : List Callback → List Callback
  | [] => []
  | .ack :: _ => [.ack]
  | .error errno :: _ => [.error errno]
  | .finish :: cs => .finish :: made cs
  | .scan cmd :: cs => .scan cmd :: made cs

/-- What a callback writes to `err`. -/
def Callback.err : Callback → Option Int
  | .ack | .finish => some 0
  | .error errno => some (-(errno : Nat))
  | .scan _ => none

/-- The event of the scan that a callback is made for, and whether it is an abort. -/
def Callback.event : Callback → Option Bool
  | .scan cmd => if cmd = cmdScanAborted then some true else if cmd = cmdNewScanResults then some false else none
  | _ => none

/-- The last event of the scan. -/
def lastEvent (cs : List Callback) : Option Bool := (cs.filterMap Callback.event).getLast?

/-- The variables after some callbacks. -/
def varsAfter (cs : List Callback) : Vars :=
  ⟨(cs.filterMap Callback.err).getLast?.getD 1, (lastEvent cs).isSome, (lastEvent cs).getD false⟩

theorem callbackOfScan_err (cmd : Nat) (v : Vars) : (callbackOfScan cmd v).1.err = v.err := by
  unfold callbackOfScan
  split
  · rfl
  · split <;> rfl

theorem nlRecvmsgs_scan (cmd : Nat) (cs : List Callback) (v : Vars) :
    nlRecvmsgs (.scan cmd :: cs) v = nlRecvmsgs cs (callbackOfScan cmd v).1 := by
  rw [nlRecvmsgs, Callback.call, callbackOfScan]
  by_cases habort : cmd = cmdScanAborted
  · rw [if_pos habort]
  · by_cases hnew : cmd = cmdNewScanResults
    · rw [if_neg habort, if_pos hnew]
    · rw [if_neg habort, if_neg hnew]

/-- A refusal makes `err` negative; without one, `err` is cleared or left alone. -/
theorem recvmsgs_err (cs : List Callback) : ∀ v : Vars,
    (Refused cs → (nlRecvmsgs cs v).err < 0) ∧
    (¬ Refused cs → (nlRecvmsgs cs v).err = 0 ∨ (nlRecvmsgs cs v).err = v.err) := by
  induction cs with
  | nil => exact fun v => ⟨fun h => h.elim, fun _ => Or.inr rfl⟩
  | cons c cs ih =>
    intro v
    cases c with
    | ack => exact ⟨fun h => h.elim, fun _ => Or.inl rfl⟩
    | error errno =>
      refine ⟨fun _ => ?_, fun h => absurd trivial h⟩
      have hpos := errno.pos
      change -((errno : Nat) : Int) < 0
      omega
    | finish =>
      obtain ⟨hneg, hzero⟩ := ih { v with err := 0 }
      refine ⟨hneg, fun h => Or.inl ?_⟩
      rcases hzero h with h | h
      · exact h
      · exact h
    | scan cmd =>
      obtain ⟨hneg, hzero⟩ := ih (callbackOfScan cmd v).1
      rw [nlRecvmsgs_scan]
      refine ⟨hneg, fun h => ?_⟩
      rw [← callbackOfScan_err cmd v]
      exact hzero h

theorem call_varsAfter (cs : List Callback) (c : Callback) : (c.call (varsAfter cs)).1 = varsAfter (cs ++ [c]) := by
  cases c with
  | ack | finish | error errno =>
    simp [Callback.call, ackHandler, finishHandler, errorHandler, varsAfter, lastEvent, Callback.err, Callback.event]
  | scan cmd =>
    unfold Callback.call callbackOfScan
    by_cases ha : cmd = cmdScanAborted
    · simp [ha, varsAfter, lastEvent, Callback.err, Callback.event]
    · by_cases hn : cmd = cmdNewScanResults
      · simp [hn, varsAfter, lastEvent, Callback.err, Callback.event, cmdNewScanResults, cmdScanAborted]
      · simp [ha, hn, varsAfter, lastEvent, Callback.err, Callback.event]

/-- One `nl_recvmsgs` behind other callbacks. -/
theorem recvmsgs_after (cs : List Callback) : ∀ before : List Callback,
    nlRecvmsgs cs (varsAfter before) = varsAfter (before ++ made cs) := by
  induction cs with
  | nil =>
    intro before
    rw [made, List.append_nil, nlRecvmsgs]
  | cons c cs ih =>
    intro before
    have hcall := call_varsAfter before c
    cases c with
    | ack | error errno => exact hcall
    | finish =>
      rw [made, List.append_cons, ← ih, ← hcall]
      rfl
    | scan cmd =>
      rw [made, List.append_cons, ← ih, ← hcall, nlRecvmsgs_scan]
      rfl

/-- `err` is positive until something is written to it. -/
theorem err_pos_iff {cs : List Callback} : 0 < (varsAfter cs).err ↔ ∀ c ∈ cs, c.err = none := by
  have hle : ∀ c x, Callback.err c = some x → x ≤ 0 := by
    intro c x hx
    cases c with
    | ack | finish => cases hx; rfl
    | error errno => cases hx; simp
    | scan cmd => cases hx
  rw [← List.filterMap_eq_nil_iff, varsAfter]
  rcases List.eq_nil_or_concat (cs.filterMap Callback.err) with hnil | ⟨xs, x, hx⟩
  · simp [hnil]
  · have hmem : x ∈ cs.filterMap Callback.err := by simp [hx]
    obtain ⟨c, -, hc⟩ := List.mem_filterMap.mp hmem
    have hx0 := hle c x hc
    rw [hx]
    simpa using hx0

theorem made_subset (cs : List Callback) : made cs ⊆ cs := by
  induction cs with
  | nil => exact List.Subset.refl []
  | cons c cs ih =>
    cases c with
    | ack | error errno => simp [made]
    | finish | scan cmd => exact List.cons_subset_cons _ ih

/-- A receive is made in full unless something that it makes writes to `err`. -/
theorem made_of_scans {cs : List Callback} (h : ∀ c ∈ made cs, c.err = none) : made cs = cs := by
  induction cs with
  | nil => rfl
  | cons c cs ih =>
    cases c with
    | ack | finish | error => cases h _ List.mem_cons_self
    | scan cmd =>
      rw [made, List.forall_mem_cons] at h
      rw [made, ih h.2]

/-! ## Runs -/

/-- `main` gives up on a refusal that ends the first loop. -/
def Noticed (s : State) (cs : List Callback) : Prop :=
  s.phase = .acking → Refused cs → (nlRecvmsgs cs s.vars).done = true ∧ (nlRecvmsgs cs s.vars).abort = true

/-- An `nl_recvmsgs` behind those of `pre` is not a refusal that `main` goes on from: when none of their callbacks has
written `err`, `error_handler` ends it only if the last event of the scan is an abort. -/
def Harmless (pre : List (List Callback)) (cs : List Callback) : Prop :=
  (∀ c ∈ pre.flatten, c.err = none) → Refused cs → lastEvent (pre.flatten ++ made cs) = some true

/-- The trigger was accepted, or may still be, or `main` has given up. -/
def Sound (s : State) : Prop :=
  (s.phase = .acking ∧ 0 < s.vars.err) ∨ (s.phase ≠ .acking ∧ s.loopErr = some 0) ∨ s.phase = .aborted

theorem leaveScanning_ne (v : Vars) (loopErr : Option Int) :
    (leaveScanning v loopErr).phase ≠ .acking ∧ (leaveScanning v loopErr).loopErr = loopErr := by
  unfold leaveScanning
  cases v.done with
  | false => exact ⟨Phase.noConfusion, rfl⟩
  | true => cases v.abort <;> exact ⟨Phase.noConfusion, rfl⟩

/-- A refusal ends the first loop. -/
theorem leaveAcking_of_neg {v : Vars} (h : v.err < 0) : leaveAcking v = leaveScanning v (some v.err) := by
  unfold leaveAcking
  rw [if_neg (by omega)]

theorem step_sound {s : State} {cs : List Callback} (hs : Sound s) (hc : Noticed s cs) : Sound (step s cs) := by
  obtain ⟨hneg, hzero⟩ := recvmsgs_err cs s.vars
  unfold step
  rcases hs with ⟨hphase, hpos⟩ | ⟨hphase, hloop⟩ | hphase
  · simp only [hphase]
    by_cases hr : Refused cs
    · obtain ⟨hdone, habort⟩ := hc hphase hr
      rw [leaveAcking_of_neg (hneg hr), leaveScanning, if_pos hdone, if_pos habort]
      exact Or.inr (Or.inr rfl)
    · unfold leaveAcking
      rcases hzero hr with h | h
      · rw [if_neg (by omega), h]
        exact Or.inr (Or.inl (leaveScanning_ne _ _))
      · rw [if_pos (by omega)]
        exact Or.inl ⟨rfl, by simp only [h]; exact hpos⟩
  · cases hp : s.phase with
    | acking => exact absurd hp hphase
    | scanning =>
      simp only
      rw [hloop]
      exact Or.inr (Or.inl (leaveScanning_ne _ _))
    | aborted => exact Or.inr (Or.inr hp)
    | scanDone => exact Or.inr (Or.inl ⟨hphase, hloop⟩)
  · simp only [hphase]
    exact Or.inr (Or.inr hphase)

theorem run_snoc (bs : List (List Callback)) (cs : List Callback) : run (bs ++ [cs]) = step (run bs) cs := by
  rw [run, List.foldl_append]
  rfl

theorem step_ne_acking {s : State} (h : s.phase ≠ .acking) (cs : List Callback) : (step s cs).phase ≠ .acking := by
  unfold step
  cases hp : s.phase with
  | acking => exact absurd hp h
  | scanning => exact (leaveScanning_ne _ _).1
  | aborted | scanDone => exact h

/-- `main` is in its first loop as long as no callback has written `err`. -/
theorem run_acking (bs : List (List Callback)) : ((run bs).phase = .acking ↔ ∀ c ∈ bs.flatten, c.err = none) ∧
    ((run bs).phase = .acking → (run bs).vars = varsAfter bs.flatten) := by
  induction bs using List.reverseRecOn with
  | nil => exact ⟨iff_of_true rfl nofun, fun _ => rfl⟩
  | append_singleton bs cs ih =>
    obtain ⟨hphase, hvars⟩ := ih
    have hflat : (bs ++ [cs]).flatten = bs.flatten ++ cs := by simp
    rw [run_snoc, hflat]
    by_cases hp : (run bs).phase = .acking
    · have hstep : step (run bs) cs = leaveAcking (varsAfter (bs.flatten ++ made cs)) := by
        rw [← recvmsgs_after, ← hvars hp, step, hp]
      rw [hstep, leaveAcking]
      by_cases herr : (varsAfter (bs.flatten ++ made cs)).err > 0
      · have hmade := made_of_scans fun c hc => err_pos_iff.mp herr c (List.mem_append_right _ hc)
        rw [hmade] at herr ⊢
        rw [if_pos herr]
        exact ⟨iff_of_true rfl (err_pos_iff.mp herr), fun _ => rfl⟩
      · have hne := (leaveScanning_ne (varsAfter (bs.flatten ++ made cs))
          (some (varsAfter (bs.flatten ++ made cs)).err)).1
        rw [if_neg herr]
        refine ⟨iff_of_false hne fun hall => herr (err_pos_iff.mpr fun c hc => ?_), fun h => absurd h hne⟩
        rcases List.mem_append.mp hc with hc | hc
        · exact hall c (List.mem_append_left _ hc)
        · exact hall c (List.mem_append_right _ (made_subset cs hc))
    · have hne := step_ne_acking hp cs
      refine ⟨iff_of_false hne fun hall => hp (hphase.mpr fun c hc => ?_), fun h => absurd h hne⟩
      exact hall c (List.mem_append_left _ hc)

/-- What a harmless step is, by the state. -/
theorem harmless_iff (pre : List (List Callback)) (cs : List Callback) : Harmless pre cs ↔ Noticed (run pre) cs := by
  obtain ⟨hphase, hvars⟩ := run_acking pre
  unfold Harmless Noticed
  rw [← hphase]
  refine forall_congr' fun hp => forall_congr' fun _ => ?_
  rw [hvars hp, recvmsgs_after, varsAfter]
  cases lastEvent (pre.flatten ++ made cs) <;> simp

/-- Harmless steps keep the invariant along the whole run. -/
theorem run_sound {bs : List (List Callback)} (h : ∀ pre cs, pre ++ [cs] <+: bs → Harmless pre cs) :
    Sound (run bs) := by
  induction bs using List.reverseRecOn with
  | nil => exact Or.inl ⟨rfl, by decide⟩
  | append_singleton bs cs ih =>
    rw [run_snoc]
    refine step_sound (ih fun pre cs' hpre => ?_) ((harmless_iff bs cs).mp (h bs cs (List.prefix_refl _)))
    exact h pre cs' (hpre.trans (List.prefix_append bs [cs]))

/-- After an unnoticed refusal, a scan event of anyone is enough. -/
theorem exists_scanDone {s : State} {cs : List Callback} (h : ¬ Noticed s cs) :
    ∃ cont : List (List Callback),
      (cont.foldl step (step s cs)).phase = .scanDone ∧ (cont.foldl step (step s cs)).loopErr ≠ some 0 := by
  unfold Noticed at h
  push Not at h
  obtain ⟨hphase, hr, hnot⟩ := h
  have hneg := (recvmsgs_err cs s.vars).1 hr
  have hne : some (nlRecvmsgs cs s.vars).err ≠ some 0 := by
    intro h
    have h := Option.some_inj.mp h
    omega
  have hstep : step s cs = leaveScanning (nlRecvmsgs cs s.vars) (some (nlRecvmsgs cs s.vars).err) := by
    unfold step
    simp only [hphase, leaveAcking_of_neg hneg]
  rw [hstep]
  cases hdone : (nlRecvmsgs cs s.vars).done with
  | true =>
    have habort : (nlRecvmsgs cs s.vars).abort = false := by simpa using hnot hdone
    refine ⟨[], ?_⟩
    simp only [List.foldl_nil, leaveScanning, hdone, habort, if_true]
    exact ⟨rfl, hne⟩
  | false =>
    refine ⟨[[.scan cmdNewScanResults]], ?_⟩
    have hwait : leaveScanning (nlRecvmsgs cs s.vars) (some (nlRecvmsgs cs s.vars).err) =
        ⟨.scanning, nlRecvmsgs cs s.vars, some (nlRecvmsgs cs s.vars).err⟩ := by
      simp [leaveScanning, hdone]
    rw [hwait]
    exact ⟨rfl, hne⟩

/-- **`Scan done.` and the kernel's answer.** When every step of a run is harmless, the run reaches `Scan done.` only
with the `err` of an accepted trigger; and a step that is not can always be followed by a run that gets there
without. -/
theorem scanDone_accepted (bs : List (List Callback)) :
    ((∀ pre cs, pre ++ [cs] <+: bs → Harmless pre cs) →
      ∀ pre, pre <+: bs → (run pre).phase = .scanDone → (run pre).loopErr = some 0) ∧
    ∀ pre cs, pre ++ [cs] <+: bs → ¬ Harmless pre cs → ∃ cont,
      (run (pre ++ cs :: cont)).phase = .scanDone ∧ (run (pre ++ cs :: cont)).loopErr ≠ some 0 := by
  constructor
  · intro h pre hpre hdone
    rcases run_sound fun pre' cs hp => h pre' cs (hp.trans hpre) with ⟨hphase, _⟩ | ⟨_, hloop⟩ | hphase
    · rw [hdone] at hphase
      cases hphase
    · exact hloop
    · rw [hdone] at hphase
      cases hphase
  · intro pre cs _ h
    obtain ⟨cont, hcont⟩ := exists_scanDone (mt (harmless_iff pre cs).mpr h)
    refine ⟨cont, ?_⟩
    rw [run, List.foldl_append]
    exact hcont

/-- The kernel refuses with `EBUSY`; the results of the scan that kept it busy then count as the program's own. -/
theorem busy_scanDone : (run [[.error 16], [.scan cmdNewScanResults]]).phase = .scanDone ∧
    (run [[.error 16], [.scan cmdNewScanResults]]).loopErr = some (-16) := by
  decide

end SideWork.Nl80211
