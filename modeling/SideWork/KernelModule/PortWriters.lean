import SideWork.KernelModule.DropUdp
import SideWork.Lib.Places
import SideWork.Lib.System

/-!
# The port file under several writers

`drop_port` can be opened any number of times, and the calls of `port_write` share the global pointer `port`: a call points
it to a cell of its own, and reads it again when it calls `sscanf`, so that the number may go to the cell of a later call.
A read takes the pointer, and then what stands there. No cell is freed.

- `alone_write`: a call that nothing comes between does what `portWrite` does;
- `sound_step`: the pointer, the cells, and the calls at work, from one step to the next;
- `writers_race`: what is stored where, and what a read shows.
-/

namespace SideWork.KernelModule

/-- Where a call of `port_write` is: its cell is `own`, and `cell` is where `port` pointed when `sscanf` was called. -/
inductive Writer
  | idle
  | checking (w : Write) (own : Nat)
  | scanning (w : Write) (own cell n : Nat)
  | measuring (w : Write) (own : Nat)

/-- Where a call of `port_show` is. -/
inductive Reader
  | idle
  | loading (port : Option Nat)

/-- The call with the cell `own` has stored its number in `cell`. -/
structure Store where
  own : Nat
  cell : Nat
  number : Nat

/-- The pointer and all cells that `kmalloc` gave, with those at work on the file; the calls of `port_write` as they
began, what they stored, and what the reads showed. -/
structure PortFile where
  port : Option Nat
  cells : List (Option Nat)
  writers : Nat → Writer
  readers : Nat → Reader
  calls : List Write
  stores : List Store
  shown : List (Except Stop Nat)

/-- `sscanf` gives the number `n`. -/
structure Scans (w : Write) (n : Nat) : Prop where
  passes : Passes w
  fits : w.ubuf.length ≤ 128
  number : sscanf w.buf = .ok (some n)

/-- One writer goes on. -/
def PortFile.move (f : PortFile) (h : Nat) (writer : Writer) : PortFile :=
  { f with writers := Function.update f.writers h writer }

/-- What one who follows the pointer sees. -/
def PortFile.through (f : PortFile) (port : Option Nat) : State := ⟨port.map fun cell => f.cells.getD cell none⟩

/-- A step of a call: the accesses to `port` and to the cells one by one. A call that leaves `buf` comes to no end. -/
inductive PortFile.Step : PortFile → PortFile → Prop
  | enter {f : PortFile} (h : Nat) (w : Write) : f.writers h = .idle →
      Step f { f.move h (.checking w f.cells.length) with
        port := some f.cells.length, cells := f.cells ++ [none], calls := f.calls ++ [w] }
  | refuse {f : PortFile} (h : Nat) {w : Write} {own : Nat} : f.writers h = .checking w own → Refused w →
      Step f (f.move h .idle)
  | scan {f : PortFile} (h : Nat) {w : Write} {own cell n : Nat} : f.writers h = .checking w own → Scans w n →
      f.port = some cell → Step f (f.move h (.scanning w own cell n))
  | store {f : PortFile} (h : Nat) {w : Write} {own cell n : Nat} : f.writers h = .scanning w own cell n →
      Step f { f.move h (.measuring w own) with
        cells := f.cells.set cell (some n), stores := f.stores ++ [⟨own, cell, n⟩] }
  | leave {f : PortFile} (h : Nat) {w : Write} {own : Nat} : f.writers h = .measuring w own → 0 ∈ w.buf →
      Step f (f.move h .idle)
  | load {f : PortFile} (r : Nat) : f.readers r = .idle →
      Step f { f with readers := Function.update f.readers r (.loading f.port) }
  | print {f : PortFile} (r : Nat) {port : Option Nat} : f.readers r = .loading port →
      Step f { f with
        readers := Function.update f.readers r .idle, shown := f.shown ++ [portShow (f.through port)] }

/-- The module has been loaded. -/
def portFile : System PortFile where
  init f := f = ⟨none, [], fun _ => .idle, fun _ => .idle, [], [], []⟩
  step := PortFile.Step

variable {f f' : PortFile} {w : Write} {writer : Writer} {h own cell n : Nat}

/-! ## One call alone -/

theorem Accepted.scans (ha : Accepted w n) : Scans w n :=
  ⟨⟨ha.pos, ha.size.trans (by decide), ha.copied⟩, ha.size, ha.number⟩

/-- With nothing in between, a call does what `portWrite` does. -/
theorem alone_write {ret : Int} {s : State} (hidle : f.writers h = .idle)
    (hs : portWrite w (f.through f.port) = .ok (ret, s)) :
    ∃ f', portFile.Run f f' ∧ f'.through f'.port = s ∧ f'.writers = f.writers := by
  have hback := update_back hidle
  have h₁ : portFile.Run f _ := .single (.enter h w hidle)
  by_cases hr : Refused w
  · rw [portWrite_refused hr] at hs
    obtain ⟨-, rfl⟩ := Prod.mk.inj (Except.ok.inj hs)
    refine ⟨_, h₁.tail (.refuse h (Function.update_self ..) hr), ?_, hback _⟩
    simp [PortFile.through, PortFile.move]
  by_cases ha : ∃ n, Accepted w n
  · obtain ⟨n, ha⟩ := ha
    rw [portWrite_accepted ha] at hs
    obtain ⟨-, rfl⟩ := Prod.mk.inj (Except.ok.inj hs)
    have h₂ := (h₁.tail (.scan h (Function.update_self ..) ha.scans rfl)).tail (.store h (Function.update_self ..))
    refine ⟨_, h₂.tail (.leave h (Function.update_self ..) ha.terminated), ?_, ?_⟩
    · simp [PortFile.through, PortFile.move]
    · simp [PortFile.move, hback]
  · rw [portWrite_crashed hr fun n hn => ha ⟨n, hn⟩] at hs
    cases hs

/-! ## The cells -/

/-- The number that was stored last in a cell. -/
def lastIn (cell : Nat) (stores : List Store) : Option Nat :=
  stores.foldl (fun number s => if s.cell = cell then some s.number else number) none

theorem lastIn_snoc (cell : Nat) (stores : List Store) (s : Store) :
    lastIn cell (stores ++ [s]) = if s.cell = cell then some s.number else lastIn cell stores := by
  simp [lastIn]

theorem mem_of_lastIn {stores : List Store} (hn : lastIn cell stores = some n) :
    ∃ s ∈ stores, s.cell = cell ∧ s.number = n := by
  induction stores using List.reverseRecOn with
  | nil => cases hn
  | append_singleton stores s ih =>
    rw [lastIn_snoc] at hn
    split at hn
    case isTrue hs => exact ⟨s, by simp, hs, Option.some_inj.mp hn⟩
    case isFalse hs =>
      obtain ⟨s', hs', hcell⟩ := ih hn
      exact ⟨s', List.mem_append_left _ hs', hcell⟩

theorem lastIn_of_mem {stores : List Store} {s : Store} (hs : s ∈ stores) : ∃ n, lastIn s.cell stores = some n := by
  induction stores using List.reverseRecOn with
  | nil => cases hs
  | append_singleton stores s' ih =>
    rw [lastIn_snoc]
    split
    case isTrue => exact ⟨_, rfl⟩
    case isFalse hne =>
      rcases List.mem_append.mp hs with hs | hs
      · exact ih hs
      · rw [List.mem_singleton.mp hs] at hne
        exact absurd rfl hne

/-- Each cell holds the number that was stored last in it. -/
def cellsOf (count : Nat) (stores : List Store) : List (Option Nat) :=
  (List.range count).map fun cell => lastIn cell stores

theorem cellsOf_enter {count : Nat} {stores : List Store} (hlt : ∀ s ∈ stores, s.cell < count) :
    cellsOf count stores ++ [none] = cellsOf (count + 1) stores := by
  have hnew : lastIn count stores = none := by
    by_contra hne
    obtain ⟨n, hn⟩ := Option.ne_none_iff_exists'.mp hne
    obtain ⟨s, hs, hcell, -⟩ := mem_of_lastIn hn
    exact absurd hcell (hlt s hs).ne
  rw [cellsOf, cellsOf, List.range_succ, List.map_append, List.map_singleton, hnew]

theorem cellsOf_store {count : Nat} (stores : List Store) (s : Store) :
    (cellsOf count stores).set s.cell (some s.number) = cellsOf count (stores ++ [s]) := by
  refine List.ext_getElem (by simp [cellsOf]) fun i hi hi' => ?_
  rw [List.getElem_set]
  simp [cellsOf, lastIn_snoc]

/-! ## The calls at work -/

/-- The call a writer is at, with its cell. -/
def Writer.hand : Writer → Option (Nat × Write)
  | .idle => none
  | .checking w own | .scanning w own _ _ | .measuring w own => some (own, w)

/-- In front of the store. -/
def Writer.Unstored : Writer → Prop
  | .checking _ _ | .scanning _ _ _ _ => True
  | _ => False

/-- A number goes to the cell of its own call, or to that of a later one. -/
def Writer.Ahead (count : Nat) : Writer → Prop
  | .scanning w own cell n => Scans w n ∧ own ≤ cell ∧ cell < count
  | _ => True

/-- What holds of the port file. -/
structure Sound (f : PortFile) : Prop where
  atWork : AtWork Writer.hand f.calls f.writers
  ahead : ∀ h, (f.writers h).Ahead f.calls.length
  stored : Tracked Writer.hand (fun w => ∃ n, Scans w n) Writer.Unstored f.calls f.writers (f.stores.map Store.own)
  pointer : ∀ cell, f.port = some cell ↔ f.calls.length = cell + 1
  cells : f.cells = cellsOf f.calls.length f.stores
  stores : ∀ s ∈ f.stores, s.own ≤ s.cell ∧ s.cell < f.calls.length ∧
    ∃ call, f.calls[s.own]? = some call ∧ Scans call s.number
  shown : ∀ n, Except.ok n ∈ f.shown → ∃ s ∈ f.stores, s.number = n

theorem Sound.length_cells (hf : Sound f) : f.cells.length = f.calls.length := by
  rw [hf.cells, cellsOf, List.length_map, List.length_range]

/-- What a read shows. -/
theorem Sound.portShow (hf : Sound f) {port : Option Nat} (hn : KernelModule.portShow (f.through port) = .ok n) :
    ∃ cell, port = some cell ∧ lastIn cell f.stores = some n := by
  cases port with
  | none => cases hn
  | some cell =>
    refine ⟨cell, rfl, ?_⟩
    by_cases hlt : cell < f.calls.length
    · have hcell : f.cells.getD cell none = lastIn cell f.stores := by
        rw [hf.cells, List.getD_eq_getElem?_getD]
        simp [cellsOf, hlt]
      rw [PortFile.through, Option.map_some, hcell] at hn
      cases hlast : lastIn cell f.stores with
      | none =>
        rw [hlast] at hn
        cases hn
      | some m =>
        rw [hlast] at hn
        exact congrArg some (Except.ok.inj hn)
    · have hcell : f.cells.getD cell none = none := by
        rw [List.getD_eq_getElem?_getD, List.getElem?_eq_none (by rw [hf.length_cells]; omega)]
        rfl
      rw [PortFile.through, Option.map_some, hcell] at hn
      cases hn

theorem ahead_set {count : Nat} (ha : ∀ h, (f.writers h).Ahead count) (hnew : writer.Ahead count) (h h' : Nat) :
    (Function.update f.writers h writer h').Ahead count :=
  (Function.forall_update_iff f.writers fun _ writer => writer.Ahead count).mpr ⟨hnew, fun h' _ => ha h'⟩ h'

theorem Writer.Ahead.mono {count : Nat} (ha : writer.Ahead count) : writer.Ahead (count + 1) := by
  cases writer with
  | scanning w own cell n => exact ⟨ha.1, ha.2.1, ha.2.2.trans (Nat.lt_succ_self _)⟩
  | _ => trivial

theorem sound_enter (hf : Sound f) (hl : f.writers h = .idle) :
    Sound { f.move h (.checking w f.cells.length) with
      port := some f.cells.length, cells := f.cells ++ [none], calls := f.calls ++ [w] } where
  atWork := hf.atWork.arrive (by rw [hf.length_cells]; rfl)
  ahead h' := by
    rw [List.length_append, List.length_singleton]
    exact ahead_set (fun h => (hf.ahead h).mono) (by trivial) h h'
  stored := hf.stored.arrive (by rw [hl]; rfl) (by rw [hf.length_cells]; rfl) trivial
  pointer cell := by
    rw [List.length_append, List.length_singleton, ← hf.length_cells, Option.some_inj, Nat.add_right_cancel_iff]
  cells := by
    show f.cells ++ [none] = cellsOf (f.calls ++ [w]).length f.stores
    rw [List.length_append, List.length_singleton, ← cellsOf_enter fun s hs => (hf.stores s hs).2.1, ← hf.cells]
  stores s hs := by
    obtain ⟨hle, hlt, call, hcall, hscans⟩ := hf.stores s hs
    exact ⟨hle, by rw [List.length_append]; omega, call, getElem?_snoc hcall w, hscans⟩
  shown := hf.shown

theorem sound_scan (hf : Sound f) (hl : f.writers h = .checking w own) (hs : Scans w n) (hp : f.port = some cell) :
    Sound (f.move h (.scanning w own cell n)) where
  atWork := hf.atWork.move (.inr (by rw [hl]; rfl))
  ahead := by
    have hlast := (hf.pointer cell).mp hp
    have hlt := hf.atWork.lt (by rw [hl]; rfl : (f.writers h).hand = some (own, w))
    refine ahead_set hf.ahead ?_ h
    exact ⟨hs, by omega, by omega⟩
  stored := by
    refine hf.stored.move (fun _ => .inr ?_) fun i call hi _ _ => ⟨by rw [← hi, hl]; rfl, trivial⟩
    rw [hl]
    exact ⟨rfl, trivial⟩
  pointer := hf.pointer
  cells := hf.cells
  stores := hf.stores
  shown := hf.shown

theorem sound_store (hf : Sound f) (hl : f.writers h = .scanning w own cell n) :
    Sound { f.move h (.measuring w own) with
      cells := f.cells.set cell (some n), stores := f.stores ++ [⟨own, cell, n⟩] } := by
  have hahead := hf.ahead h
  rw [hl] at hahead
  obtain ⟨hscans, hle, hlt⟩ := hahead
  have hhand : (f.writers h).hand = some (own, w) := by
    rw [hl]
    rfl
  refine ⟨hf.atWork.move (.inr hhand.symm), ahead_set hf.ahead (by trivial) h, ?_, hf.pointer, ?_, fun s hs => ?_,
    fun m hm => ?_⟩
  · rw [List.map_append]
    exact hf.stored.add hf.atWork hhand (by rw [hl]; trivial) ⟨n, hscans⟩ False.elim
  · rw [hf.cells]
    exact cellsOf_store f.stores ⟨own, cell, n⟩
  · rcases List.mem_append.mp hs with hs | hs
    · exact hf.stores s hs
    · rw [List.mem_singleton.mp hs]
      exact ⟨hle, hlt, w, hf.atWork.arrived h own w hhand, hscans⟩
  · obtain ⟨s, hs, hnumber⟩ := hf.shown m hm
    exact ⟨s, List.mem_append_left _ hs, hnumber⟩

/-- A call ends: it was refused, or its number is stored. -/
theorem sound_idle (hf : Sound f)
    (hdone : ∀ i call n, (f.writers h).hand = some (i, call) → (f.writers h).Unstored → ¬ Scans call n) :
    Sound (f.move h .idle) where
  atWork := hf.atWork.move (.inl rfl)
  ahead := ahead_set hf.ahead (by trivial) h
  stored := hf.stored.move False.elim fun i call hi hst hdue => by
    obtain ⟨n, hn⟩ := hdue
    exact absurd hn (hdone i call n hi hst)
  pointer := hf.pointer
  cells := hf.cells
  stores := hf.stores
  shown := hf.shown

/-- A refused call holds no number. -/
theorem not_scans_of_refused (hr : Refused w) : ¬ Scans w n := by
  rintro ⟨⟨hpos, hsize, hcopied⟩, hfits, hnumber⟩
  rcases hr with hr | hr | hr | ⟨-, hr⟩
  · omega
  · omega
  · rw [hcopied] at hr
    cases hr
  · rw [hnumber] at hr
    cases hr

theorem sound_step (hf : Sound f) (hs : PortFile.Step f f') : Sound f' := by
  cases hs with
  | enter h w hl => exact sound_enter hf hl
  | @refuse h w own hl hr =>
    refine sound_idle hf fun i call n hi _ => ?_
    rw [hl] at hi
    obtain ⟨-, rfl⟩ := Prod.mk.inj (Option.some_inj.mp hi)
    exact not_scans_of_refused hr
  | scan h hl hscans hp => exact sound_scan hf hl hscans hp
  | store h hl => exact sound_store hf hl
  | leave h hl hterm =>
    refine sound_idle hf fun i call n _ hst => ?_
    rw [hl] at hst
    exact hst.elim
  | load r hl => exact ⟨hf.atWork, hf.ahead, hf.stored, hf.pointer, hf.cells, hf.stores, hf.shown⟩
  | print r hl =>
    refine ⟨hf.atWork, hf.ahead, hf.stored, hf.pointer, hf.cells, hf.stores, fun n hn => ?_⟩
    rcases List.mem_append.mp hn with hn | hn
    · exact hf.shown n hn
    · obtain ⟨cell, -, hlast⟩ := hf.portShow (List.mem_singleton.mp hn).symm
      obtain ⟨s, hs, -, hnumber⟩ := mem_of_lastIn hlast
      exact ⟨s, hs, hnumber⟩

theorem sound_invariant : portFile.Invariant Sound where
  init := by
    rintro _ rfl
    exact ⟨atWork_nil fun _ => rfl, fun _ => trivial, tracked_nil fun _ => rfl, by simp, rfl, nofun, nofun⟩
  step _ _ := sound_step

/-! ## The race -/

/-- **The writers race**, in every interleaving. Every call keeps a cell for good. A call stores at most one number, in its
own cell or in that of a later call, and a read never shows anything else than a number so stored. A read that nothing
comes between shows the number stored last in the cell of the call that began last, if there is one. Whenever no call is
at work, every call that holds a number has stored it; so the file can be read then if the call that began last holds
one. -/
theorem writers_race (hr : portFile.Reachable f) :
    f.cells.length = f.calls.length ∧
    (f.stores.map Store.own).Nodup ∧
    (∀ s ∈ f.stores, s.own ≤ s.cell ∧ s.cell < f.calls.length ∧
      ∃ call, f.calls[s.own]? = some call ∧ Scans call s.number) ∧
    (∀ n, .ok n ∈ f.shown → ∃ s ∈ f.stores, s.number = n) ∧
    (∀ n, portShow (f.through f.port) = .ok n ↔
      ∃ cell, f.calls.length = cell + 1 ∧ lastIn cell f.stores = some n) ∧
    ((∀ h, (f.writers h).hand = none) →
      (∀ own call n, f.calls[own]? = some call → Scans call n → ∃ cell, ⟨own, cell, n⟩ ∈ f.stores) ∧
      ∀ call n, f.calls.getLast? = some call → Scans call n → ∃ m, portShow (f.through f.port) = .ok m) := by
  have hf := sound_invariant.reachable hr
  have hshow : ∀ n, portShow (f.through f.port) = .ok n ↔
      ∃ cell, f.calls.length = cell + 1 ∧ lastIn cell f.stores = some n := by
    intro n
    constructor
    · intro hn
      obtain ⟨cell, hport, hlast⟩ := hf.portShow hn
      exact ⟨cell, (hf.pointer cell).mp hport, hlast⟩
    · rintro ⟨cell, hlen, hlast⟩
      have hcell : f.cells.getD cell none = some n := by
        rw [hf.cells, List.getD_eq_getElem?_getD]
        simp [cellsOf, hlen, hlast]
      rw [(hf.pointer cell).mpr hlen, PortFile.through, Option.map_some, hcell]
      rfl
  refine ⟨hf.length_cells, hf.stored.nodup, hf.stores, hf.shown, hshow, fun hnone => ?_⟩
  have hstored : ∀ own call n, f.calls[own]? = some call → Scans call n → ∃ cell, ⟨own, cell, n⟩ ∈ f.stores := by
    intro own call n hcall hscans
    have hmem := (hf.stored.every own call hcall ⟨n, hscans⟩).resolve_right (by simp [hnone])
    obtain ⟨⟨own, cell, m⟩, hs, rfl⟩ := List.mem_map.mp hmem
    obtain ⟨-, -, call', hcall', hscans'⟩ := hf.stores _ hs
    obtain rfl := Option.some_inj.mp (hcall.symm.trans hcall')
    obtain rfl := Option.some_inj.mp (Except.ok.inj (hscans.number.symm.trans hscans'.number))
    exact ⟨cell, hs⟩
  refine ⟨hstored, fun call n hcall hscans => ?_⟩
  rw [List.getLast?_eq_getElem?] at hcall
  obtain ⟨cell, hs⟩ := hstored _ call n hcall hscans
  have hin := (List.getElem?_eq_some_iff.mp hcall).1
  obtain ⟨hle, hlt, -⟩ := hf.stores _ hs
  obtain ⟨m, hm⟩ := lastIn_of_mem hs
  exact ⟨m, (hshow m).mpr ⟨cell, by simp only at hle hlt; omega, hm⟩⟩

theorem write8080_scans : Scans write8080 8080 := ⟨⟨le_rfl, by decide, rfl⟩, by decide, by decide +kernel⟩

/-- Writer 0 has called `sscanf` for its `8080` when a call begins that is refused. -/
theorem refused_reachable : ∃ f, portFile.Reachable f ∧ (∀ h, (f.writers h).hand = none) ∧
    f.calls = [write8080, writeAgain] ∧ f.stores = [⟨0, 0, 8080⟩] := by
  have h₀ : portFile.Reachable ⟨none, [], fun _ => .idle, fun _ => .idle, [], [], []⟩ := .init rfl
  have h₁ := (h₀.step (.enter 0 write8080 rfl)).step (.scan 0 rfl write8080_scans rfl)
  have h₂ := (h₁.step (.enter 1 writeAgain rfl)).step (.refuse 1 rfl (.inl (by decide)))
  have h₃ := (h₂.step (.store 0 rfl)).step (.leave 0 rfl (by decide +kernel))
  refine ⟨_, h₃, fun h => ?_, rfl, rfl⟩
  match h with
  | 0 | 1 => rfl
  | h + 2 => rfl

/-- The number is stored behind the pointer, and the file cannot be read. -/
theorem writers_race_refused : ∃ f, portFile.Reachable f ∧ f.cells.length = 2 ∧
    (∃ cell, ⟨0, cell, 8080⟩ ∈ f.stores) ∧ ∀ n, portShow (f.through f.port) ≠ .ok n := by
  obtain ⟨f, hr, hnone, hcalls, hstores⟩ := refused_reachable
  obtain ⟨hcells, -, -, -, hshow, hquiet⟩ := writers_race hr
  refine ⟨f, hr, by rw [hcells, hcalls]; rfl, ?_, fun n hn => ?_⟩
  · exact (hquiet hnone).1 0 write8080 8080 (by rw [hcalls]; rfl) write8080_scans
  · obtain ⟨cell, hlen, hlast⟩ := (hshow n).mp hn
    rw [hcalls] at hlen
    obtain rfl : cell = 1 := (Nat.succ.inj hlen).symm
    rw [hstores] at hlast
    cases hlast

end SideWork.KernelModule
