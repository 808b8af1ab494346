import SideWork.Lib.System
import SideWork.Xdp.Monitor

/-!
# How `prog_loader` starts

Before its loop, `prog_loader` takes the program and the map that are pinned under `/sys/fs/bpf`, each on its own: what
is not pinned, it takes from a program that it loads now, with a new and empty map, and pins that. Any number of loaders
run, are interrupted and killed and started again, while frames arrive; `loaders` has their steps, one system call each.

The start-ups do not overlap here, nobody removes a pin, the calls on pins that are there succeed, a pin is refused only
where there is one, and no loader ends between its two pins. What such an accident leaves behind is a pair of pins, and
the runs start from any pair: `pins_decide` says that this pair decides about every later loader.
-/

namespace SideWork.Xdp

/-- Where a loader is, with the loads its `prog_fd`, its `map_fd` and its `obj` are of: `none` is -1, or the `obj` that
was never set. -/
inductive Phase
  | absent
  | checkingProgram
  | gettingProgram
  | loadingProgram
  | pinningProgram (load : Nat)
  | checkingMap (progFd obj : Option Nat)
  | gettingMap (progFd : Option Nat)
  | pinningMap (progFd : Option Nat) (load : Nat)
  | attaching (progFd mapFd : Option Nat)
  | looping (progFd mapFd : Option Nat)
  | undefined
  | returned (code : Int)

/-- In front of its loop. -/
def Phase.Starting : Phase → Prop
  | .absent | .looping _ _ | .undefined | .returned _ => False
  | _ => True

/-- Between the two pins of one load. -/
def Phase.Between : Phase → Prop
  | .checkingMap _ (some _) | .pinningMap _ _ => True
  | _ => False

/-- The pins, the program on `wlan0`, how many loads there were, the map of each, the frames a program has seen, and the
loaders by their process numbers. -/
structure World where
  progPin : Option Nat
  mapPin : Option Nat
  attached : Option Nat
  loads : Nat
  maps : Nat → DropIcmpMap
  frames : List (List UInt8)
  loaders : Nat → Phase

/-- One loader goes on. -/
def World.move (w : World) (pid : Nat) (phase : Phase) : World :=
  { w with loaders := Function.update w.loaders pid phase }

/-- A step of a loader, a signal, or a frame. `bpf_set_link_xdp_fd` with -1 takes the program off. -/
inductive World.Step (e : Endian) : World → World → Prop
  | start {w : World} (pid : Nat) : w.loaders pid = .absent → (∀ pid', ¬ (w.loaders pid').Starting) →
      Step e w (w.move pid .checkingProgram)
  | programThere {w : World} (pid : Nat) : w.loaders pid = .checkingProgram → w.progPin ≠ none →
      Step e w (w.move pid .gettingProgram)
  | programMissing {w : World} (pid : Nat) : w.loaders pid = .checkingProgram → w.progPin = none →
      Step e w (w.move pid .loadingProgram)
  | getProgram {w : World} (pid : Nat) : w.loaders pid = .gettingProgram →
      Step e w (w.move pid (.checkingMap w.progPin none))
  | load {w : World} (pid : Nat) : w.loaders pid = .loadingProgram →
      Step e w { w.move pid (.pinningProgram w.loads) with
        loads := w.loads + 1, maps := Function.update w.maps w.loads .empty }
  | loadFails {w : World} (pid : Nat) : w.loaders pid = .loadingProgram → Step e w (w.move pid (.returned (-1)))
  | pinProgram {w : World} (pid : Nat) {load : Nat} : w.loaders pid = .pinningProgram load →
      Step e w { w.move pid (.checkingMap (some load) (some load)) with progPin := w.progPin.or (some load) }
  | mapThere {w : World} (pid : Nat) {progFd obj : Option Nat} : w.loaders pid = .checkingMap progFd obj →
      w.mapPin ≠ none → Step e w (w.move pid (.gettingMap progFd))
  | findMap {w : World} (pid : Nat) {load : Nat} {progFd : Option Nat} :
      w.loaders pid = .checkingMap progFd (some load) → w.mapPin = none →
      Step e w (w.move pid (.pinningMap progFd load))
  | findUnset {w : World} (pid : Nat) {progFd : Option Nat} : w.loaders pid = .checkingMap progFd none →
      w.mapPin = none → Step e w (w.move pid .undefined)
  | getMap {w : World} (pid : Nat) {progFd : Option Nat} : w.loaders pid = .gettingMap progFd →
      Step e w (w.move pid (.attaching progFd w.mapPin))
  | pinMap {w : World} (pid : Nat) {load : Nat} {progFd : Option Nat} : w.loaders pid = .pinningMap progFd load →
      Step e w { w.move pid (.attaching progFd (some load)) with mapPin := w.mapPin.or (some load) }
  | attach {w : World} (pid : Nat) {progFd mapFd : Option Nat} : w.loaders pid = .attaching progFd mapFd →
      Step e w { w.move pid (.looping progFd mapFd) with attached := progFd }
  | attachFails {w : World} (pid : Nat) {progFd mapFd : Option Nat} : w.loaders pid = .attaching progFd mapFd →
      Step e w (w.move pid (.returned (-1)))
  -- `int_exit`: in front of `if_nametoindex`, `ifindex` is 0 and nothing is taken off
  | interruptEarly {w : World} (pid : Nat) : (w.loaders pid).Starting → ¬ (w.loaders pid).Between →
      Step e w (w.move pid (.returned 0))
  | interrupt {w : World} (pid : Nat) {progFd mapFd : Option Nat} :
      w.loaders pid = .attaching progFd mapFd ∨ w.loaders pid = .looping progFd mapFd →
      Step e w { w.move pid (.returned 0) with attached := none }
  -- the process is killed, or was over
  | ends {w : World} (pid : Nat) : ¬ (w.loaders pid).Between → Step e w (w.move pid .absent)
  | frame {w : World} {load : Nat} {frame : List UInt8} {v : Verdict} {map : DropIcmpMap} : w.attached = some load →
      dropIcmp e (w.maps load) frame = .ok (v, map) →
      Step e w { w with frames := w.frames ++ [frame], maps := Function.update w.maps load map }

/-- The loaders, from the pins `P` and `M` and the maps that go with them. -/
def loaders (e : Endian) (P M : Option Nat) (maps₀ : Nat → DropIcmpMap) : System World where
  init w := w.progPin = P ∧ w.mapPin = M ∧ w.attached = none ∧ w.maps = maps₀ ∧ w.frames = [] ∧
    (∀ pid, w.loaders pid = .absent) ∧ (∀ i, P = some i ∨ M = some i → i < w.loads) ∧
    ∀ i, w.loads ≤ i → maps₀ i = .empty
  step := World.Step e

variable {e : Endian} {P M : Option Nat} {maps₀ : Nat → DropIcmpMap} {w w' : World}

/-! ## One start-up at a time -/

/-- At most one loader is in front of its loop. -/
def Alone (w : World) : Prop :=
  ∀ pid pid', (w.loaders pid).Starting → (w.loaders pid').Starting → pid = pid'

theorem Alone.update {loaders : Nat → Phase} {pid : Nat} {phase : Phase}
    (h : ∀ a b, (loaders a).Starting → (loaders b).Starting → a = b)
    (hp : phase.Starting → (loaders pid).Starting ∨ ∀ pid', ¬ (loaders pid').Starting) (a b : Nat)
    (ha : (Function.update loaders pid phase a).Starting) (hb : (Function.update loaders pid phase b).Starting) :
    a = b := by
  by_cases hapid : a = pid
  · by_cases hbpid : b = pid
    · rw [hapid, hbpid]
    · rw [hapid, Function.update_self] at ha
      rw [Function.update_of_ne hbpid] at hb
      rcases hp ha with hpid | hnone
      · rw [hapid]
        exact h pid b hpid hb
      · exact absurd hb (hnone b)
  · rw [Function.update_of_ne hapid] at ha
    by_cases hbpid : b = pid
    · rw [hbpid, Function.update_self] at hb
      rcases hp hb with hpid | hnone
      · rw [hbpid]
        exact h a pid ha hpid
      · exact absurd ha (hnone a)
    · rw [Function.update_of_ne hbpid] at hb
      exact h a b ha hb

theorem alone_step (h : Alone w) (hs : World.Step e w w') : Alone w' := by
  cases hs with
  | start pid _ hnone => exact Alone.update h fun _ => .inr hnone
  | programThere _ hl | programMissing _ hl | getProgram _ hl | load _ hl | pinProgram _ hl | mapThere _ hl
  | findMap _ hl | getMap _ hl | pinMap _ hl =>
    exact Alone.update h fun _ => .inl (by rw [hl]; trivial)
  | loadFails | findUnset | attach | attachFails | interruptEarly | interrupt | ends => exact Alone.update h False.elim
  | frame => exact h

theorem alone_invariant : (loaders e P M maps₀).Invariant Alone where
  init := by
    rintro w ⟨-, -, -, -, -, habsent, -, -⟩ pid pid' hs
    rw [habsent] at hs
    exact hs.elim
  step _ _ := alone_step

/-! ## The pins -/

/-- What a loader knows of the pins. -/
def Knows (P M : Option Nat) (w : World) : Phase → Prop
  | .absent | .returned _ | .checkingProgram => True
  | .gettingProgram => w.progPin ≠ none
  | .loadingProgram => w.progPin = none
  | .pinningProgram load => w.progPin = none ∧ load < w.loads ∧ w.mapPin ≠ some load
  | .checkingMap progFd none => progFd = w.progPin ∧ progFd ≠ none ∧ (w.mapPin = none → P ≠ none ∧ M = none)
  | .checkingMap progFd (some load) => progFd = some load ∧ w.progPin = some load ∧ P = none ∧ w.mapPin = M
  | .gettingMap progFd => progFd = w.progPin ∧ progFd ≠ none ∧ w.mapPin ≠ none
  | .pinningMap progFd load => progFd = some load ∧ w.progPin = some load ∧ P = none ∧ M = none ∧ w.mapPin = none
  | .attaching progFd mapFd | .looping progFd mapFd =>
    progFd = w.progPin ∧ progFd ≠ none ∧ mapFd = w.mapPin ∧ mapFd ≠ none
  | .undefined => P ≠ none ∧ M = none

theorem Knows.congr {phase : Phase} (h : Knows P M w phase) (hp : w'.progPin = w.progPin) (hm : w'.mapPin = w.mapPin)
    (hl : w.loads ≤ w'.loads) : Knows P M w' phase := by
  cases phase with
  | pinningProgram load => exact ⟨hp.trans h.1, h.2.1.trans_le hl, hm ▸ h.2.2⟩
  | checkingMap progFd obj => cases obj <;> simpa [Knows, hp, hm] using h
  | absent | returned code | checkingProgram => trivial
  | _ => simpa [Knows, hp, hm] using h

/-- While something is not pinned, a loader that is not starting knows of no pins. -/
theorem Knows.idle {phase : Phase} (h : Knows P M w phase) (hs : ¬ phase.Starting)
    (hn : w.progPin = none ∨ w.mapPin = none) (w' : World) : Knows P M w' phase := by
  cases phase with
  | looping progFd mapFd =>
    obtain ⟨rfl, hprog, rfl, hmap⟩ := h
    exact (hn.elim hprog hmap).elim
  | absent | returned code => trivial
  | undefined => exact h
  | _ => exact absurd trivial hs

/-- The pins are two of one load exactly when they were at first; one of them is missing only where it was, or while a
loader is about to pin it. -/
structure Pinned (P M : Option Nat) (w : World) : Prop where
  knows : ∀ pid, Knows P M w (w.loaders pid)
  first : w.progPin = none → P = none ∧ w.mapPin = M
  known : ∀ i, w.progPin = some i ∨ w.mapPin = some i → i < w.loads
  pair : ∀ p m, w.progPin = some p → w.mapPin = some m → (p = m ↔ P = M)
  half : w.progPin ≠ none → w.mapPin = none → (P ≠ none ∧ M = none) ∨ ∃ pid, (w.loaders pid).Between
  never : P ≠ none → M = none → w.mapPin = none
  attached : ∀ p, w.attached = some p → w.progPin = some p

theorem exists_between {loaders : Nat → Phase} {pid : Nat} {phase : Phase} (h : ∃ pid', (loaders pid').Between)
    (hp : (loaders pid).Between → phase.Between) : ∃ pid', (Function.update loaders pid phase pid').Between := by
  obtain ⟨pid', hb⟩ := h
  refine ⟨pid', ?_⟩
  by_cases hpid : pid' = pid
  · rw [hpid] at hb
    rw [hpid, Function.update_self]
    exact hp hb
  · rwa [Function.update_of_ne hpid]

/-- A loader that goes on and leaves the pins alone. -/
theorem Pinned.move (h : Pinned P M w) {pid : Nat} {phase : Phase} (hk : Knows P M w phase)
    (hb : (w.loaders pid).Between → phase.Between ∨ w.mapPin ≠ none) : Pinned P M (w.move pid phase) where
  knows := (Function.forall_update_iff w.loaders fun _ => Knows P M w).mpr ⟨hk, fun pid' _ => h.knows pid'⟩
  first := h.first
  known := h.known
  pair := h.pair
  half hprog hmap := (h.half hprog hmap).imp_right fun hex =>
    exists_between hex fun hbet => (hb hbet).resolve_right fun hne => hne hmap
  never := h.never
  attached := h.attached

theorem Between.starting {phase : Phase} (h : phase.Between) : phase.Starting := by
  cases phase with
  | checkingMap progFd obj | pinningMap progFd load => trivial
  | _ => exact h.elim

theorem pinned_pinProgram (ha : Alone w) (h : Pinned P M w) {pid load : Nat}
    (hl : w.loaders pid = .pinningProgram load) :
    Pinned P M { w.move pid (.checkingMap (some load) (some load)) with progPin := w.progPin.or (some load) } := by
  have hk := h.knows pid
  rw [hl] at hk
  obtain ⟨hnone, hlt, hne⟩ := hk
  obtain ⟨hP, hM⟩ := h.first hnone
  have hstart : (w.loaders pid).Starting := by rw [hl]; trivial
  have hor : w.progPin.or (some load) = some load := by rw [hnone, Option.none_or]
  rw [hor]
  constructor
  · refine (Function.forall_update_iff w.loaders fun _ => Knows P M _).mpr ⟨⟨rfl, rfl, hP, hM⟩, fun pid' hpid => ?_⟩
    exact (h.knows pid').idle (fun hs => hpid (ha pid' pid hs hstart)) (.inl hnone) _
  · exact nofun
  · rintro i (hi | hi)
    · exact Option.some_inj.mp hi ▸ hlt
    · exact h.known i (.inr hi)
  · intro p m hp hm
    obtain rfl := Option.some_inj.mp hp
    have hm : w.mapPin = some m := hm
    refine iff_of_false (fun hpm => hne (hpm ▸ hm)) ?_
    rw [hP, ← hM, hm]
    exact nofun
  · exact fun _ _ => .inr ⟨pid, by simp [World.move, Phase.Between]⟩
  · exact fun hne => absurd hP hne
  · intro p hp
    have hp := h.attached p hp
    rw [hnone] at hp
    cases hp

theorem pinned_pinMap (ha : Alone w) (h : Pinned P M w) {pid load : Nat} {progFd : Option Nat}
    (hl : w.loaders pid = .pinningMap progFd load) :
    Pinned P M { w.move pid (.attaching progFd (some load)) with mapPin := w.mapPin.or (some load) } := by
  have hk := h.knows pid
  rw [hl] at hk
  obtain ⟨rfl, hprog, hP, hM, hmap⟩ := hk
  have hstart : (w.loaders pid).Starting := by rw [hl]; trivial
  have hor : w.mapPin.or (some load) = some load := by rw [hmap, Option.none_or]
  rw [hor]
  constructor
  · refine (Function.forall_update_iff w.loaders fun _ => Knows P M _).mpr
      ⟨⟨hprog.symm, nofun, rfl, nofun⟩, fun pid' hpid => ?_⟩
    exact (h.knows pid').idle (fun hs => hpid (ha pid' pid hs hstart)) (.inr hmap) _
  · intro hnone
    have hnone : w.progPin = none := hnone
    rw [hprog] at hnone
    cases hnone
  · rintro i (hi | hi)
    · exact h.known i (.inl hi)
    · exact h.known i (.inl (hprog.trans hi))
  · intro p m hp hm
    have hp : w.progPin = some p := hp
    rw [hprog] at hp
    exact iff_of_true (Option.some_inj.mp (hp.symm.trans hm)) (hP.trans hM.symm)
  · exact fun _ => nofun
  · exact fun hne => absurd hP hne
  · exact h.attached

theorem pinned_step (ha : Alone w) (h : Pinned P M w) (hs : World.Step e w w') : Pinned P M w' := by
  have hk := fun pid => h.knows pid
  cases hs with
  | start pid hl hnone => exact h.move trivial fun hb => absurd (Between.starting hb) (hnone pid)
  | programThere _ hl hprog => exact h.move hprog fun hb => by rw [hl] at hb; exact hb.elim
  | programMissing _ hl hprog => exact h.move hprog fun hb => by rw [hl] at hb; exact hb.elim
  | getProgram pid hl =>
    have hprog := hk pid
    rw [hl] at hprog
    refine h.move ⟨rfl, hprog, fun hmap => (h.half hprog hmap).resolve_right ?_⟩ fun hb => by
      rw [hl] at hb
      exact hb.elim
    rintro ⟨pid', hb⟩
    obtain rfl := ha pid' pid (Between.starting hb) (by rw [hl]; trivial)
    rw [hl] at hb
    exact hb
  | load pid hl =>
    have hprog := hk pid
    rw [hl] at hprog
    have hmove : Pinned P M (w.move pid .absent) := h.move trivial fun hb => by rw [hl] at hb; exact hb.elim
    have hlt := Nat.lt_succ_self w.loads
    refine { hmove with
      knows := ?_, known := fun i hi => (h.known i hi).trans hlt, half := fun hne _ => absurd hprog hne }
    refine (Function.forall_update_iff w.loaders fun _ => Knows P M _).mpr
      ⟨⟨hprog, hlt, fun hmap => ?_⟩, fun pid' _ => (hk pid').congr rfl rfl hlt.le⟩
    exact (h.known w.loads (.inr hmap)).ne rfl
  | loadFails _ hl => exact h.move trivial fun hb => by rw [hl] at hb; exact hb.elim
  | pinProgram _ hl => exact pinned_pinProgram ha h hl
  | @mapThere pid progFd obj hl hmap =>
    have hc := hk pid
    rw [hl] at hc
    refine h.move ?_ fun _ => .inr hmap
    cases obj with
    | none => exact ⟨hc.1, hc.2.1, hmap⟩
    | some load => exact ⟨hc.1.trans hc.2.1.symm, hc.1 ▸ nofun, hmap⟩
  | @findMap pid load progFd hl hmap =>
    have hc := hk pid
    rw [hl] at hc
    exact h.move ⟨hc.1, hc.2.1, hc.2.2.1, hc.2.2.2.symm.trans hmap, hmap⟩ fun _ => .inl trivial
  | @findUnset pid progFd hl hmap =>
    have hc := hk pid
    rw [hl] at hc
    exact h.move (hc.2.2 hmap) fun hb => by rw [hl] at hb; exact hb.elim
  | @getMap pid progFd hl =>
    have hc := hk pid
    rw [hl] at hc
    exact h.move ⟨hc.1, hc.2.1, rfl, hc.2.2⟩ fun hb => by rw [hl] at hb; exact hb.elim
  | pinMap _ hl => exact pinned_pinMap ha h hl
  | @attach pid progFd mapFd hl =>
    have hc := hk pid
    rw [hl] at hc
    have hmove : Pinned P M (w.move pid (.looping progFd mapFd)) := h.move hc fun hb => by rw [hl] at hb; exact hb.elim
    exact { hmove with attached := fun p hp => hc.1.symm.trans hp }
  | attachFails _ hl => exact h.move trivial fun hb => by rw [hl] at hb; exact hb.elim
  | @interrupt pid progFd mapFd hl =>
    have hmove : Pinned P M (w.move pid (.returned 0)) :=
      h.move trivial fun hb => by rcases hl with hl | hl <;> rw [hl] at hb <;> exact hb.elim
    exact { hmove with attached := nofun }
  | interruptEarly _ _ hb | ends _ hb => exact h.move trivial fun hb' => absurd hb' hb
  | frame => exact { h with }

theorem pinned_invariant : (loaders e P M maps₀).Invariant fun w => Alone w ∧ Pinned P M w := by
  refine alone_invariant.of_step ?_ fun _ _ => pinned_step
  rintro w ⟨rfl, rfl, hattached, -, -, habsent, hknown, -⟩
  constructor
  · intro pid
    rw [habsent]
    trivial
  · exact fun hnone => ⟨hnone, rfl⟩
  · exact hknown
  · intro p m hp hm
    rw [hp, hm, Option.some_inj]
  · exact fun hprog hmap => .inl ⟨hprog, hmap⟩
  · exact fun _ hmap => hmap
  · intro p hp
    rw [hattached] at hp
    cases hp

/-! ## The maps -/

/-- The map that is watched has all the frames when the pins are of one load, and none of them otherwise. -/
structure Counted (e : Endian) (P M : Option Nat) (maps₀ : Nat → DropIcmpMap) (w : World) : Prop where
  first : w.progPin = none → w.frames = [] ∧ w.maps = maps₀
  fresh : ∀ i, w.loads ≤ i → maps₀ i = .empty
  counts : P = M → ∀ p, w.progPin = some p → run e (maps₀ p) w.frames = .ok (w.frames.map verdict, w.maps p)
  stale : P ≠ M → ∀ m, w.mapPin = some m → w.maps m = maps₀ m

theorem run_snoc {map map₁ map₂ : DropIcmpMap} {frames : List (List UInt8)} {frame : List UInt8} {v : Verdict}
    (h : run e map frames = .ok (frames.map verdict, map₁)) (hd : dropIcmp e map₁ frame = .ok (v, map₂)) :
    run e map (frames ++ [frame]) = .ok ((frames ++ [frame]).map verdict, map₂) := by
  rw [run_eq_foldl] at h ⊢
  obtain ⟨-, rfl⟩ := Prod.mk.inj (Except.ok.inj h)
  rw [dropIcmp_eq] at hd
  obtain ⟨-, rfl⟩ := Prod.mk.inj (Except.ok.inj hd)
  rw [records_snoc, List.foldl_append]
  by_cases hi : IsIcmp frame <;> simp [hi]

theorem counted_step (ha : Alone w ∧ Pinned P M w) (h : Counted e P M maps₀ w) (hs : World.Step e w w') :
    Counted e P M maps₀ w' := by
  obtain ⟨-, hpin⟩ := ha
  have hk := fun pid => hpin.knows pid
  cases hs with
  | load pid hl =>
    have hprog := hk pid
    rw [hl] at hprog
    have hprog : w.progPin = none := hprog
    obtain ⟨hframes, hmaps⟩ := h.first hprog
    have hsame : Function.update w.maps w.loads .empty = w.maps := by
      rw [Function.update_eq_self_iff, hmaps, h.fresh _ le_rfl]
    refine ⟨fun _ => ⟨hframes, hsame.trans hmaps⟩, fun i hi => h.fresh i (Nat.le_of_succ_le hi), ?_, ?_⟩
    · intro hPM p hp
      have hp : w.progPin = some p := hp
      rw [hprog] at hp
      cases hp
    · intro hPM m hm
      exact (congrFun hsame m).trans (h.stale hPM m hm)
  | @pinProgram pid load hl =>
    have hc := hk pid
    rw [hl] at hc
    obtain ⟨hframes, hmaps⟩ := h.first hc.1
    refine ⟨?_, h.fresh, ?_, h.stale⟩
    · intro hnone
      have hnone : w.progPin.or (some load) = none := hnone
      rw [hc.1] at hnone
      cases hnone
    · intro _ p _
      show run e (maps₀ p) w.frames = .ok (w.frames.map verdict, w.maps p)
      rw [hframes, hmaps]
      rfl
  | @pinMap pid load progFd hl =>
    have hc := hk pid
    rw [hl] at hc
    exact { h with stale := fun hPM => absurd (hc.2.2.1.trans hc.2.2.2.1.symm) hPM }
  | @frame load frame v map hattached hd =>
    have hprog := hpin.attached load hattached
    refine ⟨fun hnone => ?_, h.fresh, ?_, ?_⟩
    · have hnone : w.progPin = none := hnone
      rw [hprog] at hnone
      cases hnone
    · intro hPM p hp
      obtain rfl := Option.some_inj.mp (hprog.symm.trans hp)
      show run e (maps₀ load) (w.frames ++ [frame]) = .ok (_, Function.update w.maps load map load)
      rw [Function.update_self]
      exact run_snoc (h.counts hPM load hprog) hd
    · intro hPM m hm
      have hne : m ≠ load := fun heq => hPM ((hpin.pair load m hprog hm).mp heq.symm)
      show Function.update w.maps load map m = _
      rw [Function.update_of_ne hne]
      exact h.stale hPM m hm
  | _ => exact ⟨h.first, h.fresh, h.counts, h.stale⟩

theorem counted_invariant : (loaders e P M maps₀).Invariant fun w =>
    (Alone w ∧ Pinned P M w) ∧ Counted e P M maps₀ w := by
  refine pinned_invariant.of_step ?_ fun _ _ => counted_step
  rintro w ⟨-, -, -, hmaps, hframes, -, -, hfresh⟩
  refine ⟨fun _ => ⟨hframes, hmaps⟩, hfresh, fun _ p _ => ?_, fun _ m _ => congrFun hmaps m⟩
  rw [hframes, hmaps]
  rfl

/-- Only a map is pinned, with one dropped frame in it. -/
def pinnedMaps (i : Nat) : DropIcmpMap := if i = 0 then ⟨[(pingKey, ⟨34, 1⟩)], by decide, by decide⟩ else .empty

end SideWork.Xdp
