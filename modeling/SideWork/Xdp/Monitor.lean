import SideWork.Lib.Cursor
import SideWork.Lib.System
import SideWork.Xdp.ProgLoader

/-!
# `drop_icmp` and `prog_loader` together

The kernel runs `drop_icmp` on every frame while `prog_loader` goes through the map, one system call after the other, so
frames arrive between any two of its steps: between two passes, between two keys, and between `bpf_map_get_next_key` and
the `bpf_map_lookup_elem` of that key. The loader can be interrupted at any time, which detaches `drop_icmp`, and started
again on the map that is pinned. The steps of both are `monitor`.

What the kernel promises of the order of the keys is in the step of a frame: the keys that are in the map keep their
order, and a new one comes in anywhere. Updates of an entry and the copy that `bpf_map_lookup_elem` makes of it are atomic
here.

- `lines_exact`: every line tells what had been dropped when its entry was read, and no later line tells less;
- `passes_complete`: a pass has no key twice and at most 256 lines, and one that came to the end has every key that was
  in the map when it began, unless the key `{0, 0}` hid it.
-/

namespace SideWork.Xdp

/-! ## The steps -/

/-- A line, and how many frames had arrived when its entry was read. -/
structure Shown where
  line : Line
  arrived : Nat

/-- The keys of some lines. -/
def keysOf (shown : List Shown) : List Key := shown.map (·.line.key)

/-- A pass that is over: the keys when it began, its lines, and whether it came to the last key. -/
structure Pass where
  known : List Key
  shown : List Shown
  finished : Bool

/-- Where `prog_loader` is. It starts on the key `{0, 0}` and with no `value`. -/
inductive Loader
  | stopped
  | sleeping
  | starting
  | reading (nextKey : Key) (value : Option Value) (known : List Key) (shown : List Shown)
  | seeking (currentKey : Key) (value : Value) (known : List Key) (shown : List Shown)
  | failed

/-- The frames that arrived while `drop_icmp` was attached, its map with the order of the keys, and the loader with the
passes it is done with. -/
structure Monitor where
  frames : List (List UInt8)
  map : DropIcmpMap
  order : List Key
  loader : Loader
  passes : List Pass

/-- `bpf_map_lookup_elem` and `printf`. -/
def readEntry (e : Endian) (map : DropIcmpMap) (nextKey : Key) (value : Option Value) : Except Stop (Value × Line) :=
  match (map.lookup nextKey).or value with
  | none => .error .uninitialised
  | some value => .ok (value, line e nextKey value)

/-- The lines of the pass that is going on. -/
def Loader.shown : Loader → List Shown
  | .reading _ _ _ shown | .seeking _ _ _ shown => shown
  | _ => []

/-- The pass that an interrupt cuts. -/
def Loader.cut : Loader → List Pass
  | .reading _ _ known shown | .seeking _ _ known shown => [⟨known, shown, false⟩]
  | _ => []

/-- A step of either. -/
inductive Monitor.Step (e : Endian) : Monitor → Monitor → Prop
  | frame {m : Monitor} {frame : List UInt8} {v : Verdict} {map : DropIcmpMap} {order : List Key} :
      m.loader ≠ .stopped → dropIcmp e m.map frame = .ok (v, map) → m.order.Sublist order → order.Perm map.keys →
      Step e m { m with frames := m.frames ++ [frame], map := map, order := order }
  | start {m : Monitor} : m.loader = .stopped → Step e m { m with loader := .sleeping }
  | interrupt {m : Monitor} : Step e m { m with loader := .stopped, passes := m.passes ++ m.loader.cut }
  | wake {m : Monitor} : m.loader = .sleeping → Step e m { m with loader := .starting }
  | first {m : Monitor} {next : Key → Option Key} {k : Key} : m.loader = .starting → NextKey m.order next →
      next ⟨0, 0⟩ = some k → Step e m { m with loader := .reading k none m.order [] }
  | nothing {m : Monitor} {next : Key → Option Key} : m.loader = .starting → NextKey m.order next →
      next ⟨0, 0⟩ = none → Step e m { m with loader := .sleeping, passes := m.passes ++ [⟨m.order, [], true⟩] }
  | read {m : Monitor} {k : Key} {value : Option Value} {known : List Key} {shown : List Shown} {v : Value} {l : Line} :
      m.loader = .reading k value known shown → readEntry e m.map k value = .ok (v, l) →
      Step e m { m with loader := .seeking k v known (shown ++ [⟨l, m.frames.length⟩]) }
  | unread {m : Monitor} {k : Key} {value : Option Value} {known : List Key} {shown : List Shown} {e' : Stop} :
      m.loader = .reading k value known shown → readEntry e m.map k value = .error e' →
      Step e m { m with loader := .failed }
  | seek {m : Monitor} {next : Key → Option Key} {k k' : Key} {v : Value} {known : List Key} {shown : List Shown} :
      m.loader = .seeking k v known shown → NextKey m.order next → next k = some k' →
      Step e m { m with loader := .reading k' (some v) known shown }
  | last {m : Monitor} {next : Key → Option Key} {k : Key} {v : Value} {known : List Key} {shown : List Shown} :
      m.loader = .seeking k v known shown → NextKey m.order next → next k = none →
      Step e m { m with loader := .sleeping, passes := m.passes ++ [⟨known, shown, true⟩] }

/-- The whole: it starts with the map that loading `drop_icmp` creates. -/
def monitor (e : Endian) : System Monitor where
  init m := m = ⟨[], .empty, [], .stopped, []⟩
  step := Monitor.Step e

/-- Everything that was printed. -/
def Monitor.output (m : Monitor) : List Shown := m.passes.flatMap Pass.shown ++ m.loader.shown

/-- What the entry of a key should say after the first `n` frames. -/
def soFar (e : Endian) (frames : List (List UInt8)) (n : Nat) (k : Key) : Value :=
  ⟨((((dropped (frames.take n)).filter (key e · = k)).map List.length).sum : Nat),
    ((dropped (frames.take n)).filter (key e · = k)).length⟩

variable {e : Endian} {m m' : Monitor} {map : DropIcmpMap} {k : Key}

/-- With no frame in between, the steps of the loader are the turn of its loop. -/
theorem scanTurn_eq (getNextKey : Key → Option Key) (value : Option Value) (out : List Line) :
    scanTurn e map getNextKey (k, value, out) =
      match getNextKey k with
      | none => .ok (.inr out)
      | some k' => readEntry e map k' value >>= fun r => .ok (.inl (k', some r.1, out ++ [r.2])) := by
  cases hnext : getNextKey k with
  | none => simp [scanTurn, hnext]
  | some k' => cases hvalue : (map.lookup k').or value <;> simp [scanTurn, readEntry, hnext, hvalue]

/-! ## The map and the order of its keys -/

/-- The map is the tally of the frames, and `order` is an order of its keys. -/
structure Stored (e : Endian) (m : Monitor) : Prop where
  tallies : BoundedMap.Tallies (records e m.frames) m.map
  perm : m.order.Perm m.map.keys

theorem Stored.nodup (h : Stored e m) : m.order.Nodup := h.perm.nodup_iff.mpr m.map.keys_nodup

theorem Stored.length_le (h : Stored e m) : m.order.length ≤ 256 := h.perm.length_eq.trans_le m.map.keys_length_le

theorem records_snoc (frames : List (List UInt8)) (frame : List UInt8) : records e (frames ++ [frame]) =
    records e frames ++ if IsIcmp frame then [(key e frame, charge frame)] else [] := by
  by_cases h : IsIcmp frame <;> simp [records, dropped, h]

/-- A frame is put on the tally. -/
theorem tallies_frame {frames : List (List UInt8)} {frame : List UInt8} {v : Verdict} {map' : DropIcmpMap}
    (h : BoundedMap.Tallies (records e frames) map) (hd : dropIcmp e map frame = .ok (v, map')) :
    BoundedMap.Tallies (records e (frames ++ [frame])) map' := by
  rw [dropIcmp_eq] at hd
  obtain ⟨-, rfl⟩ := Prod.mk.inj (Except.ok.inj hd)
  rw [records_snoc]
  by_cases hi : IsIcmp frame
  · rw [if_pos hi, if_pos hi]
    exact BoundedMap.tallies_record h _ _
  · rw [if_neg hi, if_neg hi, List.append_nil]
    exact h

theorem stored_step (h : Stored e m) (hs : Monitor.Step e m m') : Stored e m' := by
  cases hs with
  | frame _ hd _ hp => exact ⟨tallies_frame h.tallies hd, hp⟩
  | _ => exact ⟨h.tallies, h.perm⟩

theorem stored_invariant : (monitor e).Invariant (Stored e) where
  init := by
    rintro _ rfl
    exact ⟨BoundedMap.tallies_empty, List.Perm.refl _⟩
  step _ _ := stored_step

/-- The entry of a key in the map. -/
theorem Stored.lookup (h : Stored e m) (hk : k ∈ m.order) :
    m.map.lookup k = some (soFar e m.frames m.frames.length k) := by
  obtain ⟨v, hv⟩ := lookup_of_mem h.perm hk
  have hexact : v = BoundedMap.amount (records e m.frames) k := h.tallies.exact (k, v) (BoundedMap.mem_of_lookup hv)
  rw [hv, hexact, amount_records, soFar, List.take_length]

/-! ## The cursor -/

/-- The cursor of the loader: at the key it is about to read, or at the one it has read. -/
def Placed (order : List Key) : Loader → Prop
  | .reading k _ known shown => known.Nodup ∧ CursorAt ⟨0, 0⟩ known order (keysOf shown) k
  | .seeking k _ known shown =>
    known.Nodup ∧ ∃ seen, keysOf shown = seen ++ [k] ∧ CursorAt ⟨0, 0⟩ known order seen k
  | .failed => False
  | _ => True

theorem Placed.grow {order order' : List Key} {loader : Loader} (h : Placed order loader)
    (hs : order.Sublist order') : Placed order' loader := by
  cases loader with
  | reading k value known shown => exact ⟨h.1, h.2.grow hs⟩
  | seeking k v known shown =>
    obtain ⟨hknown, seen, hkeys, hc⟩ := h
    exact ⟨hknown, seen, hkeys, hc.grow hs⟩
  | failed => exact h
  | _ => trivial

/-- A read finds the entry. -/
theorem readEntry_eq (h : Stored e m) (hk : k ∈ m.order) (value : Option Value) :
    readEntry e m.map k value =
      .ok (soFar e m.frames m.frames.length k, line e k (soFar e m.frames m.frames.length k)) := by
  rw [readEntry, h.lookup hk]
  rfl

theorem keysOf_snoc (shown : List Shown) (l : Shown) : keysOf (shown ++ [l]) = keysOf shown ++ [l.line.key] :=
  List.map_append

theorem placed_step (h : Stored e m) (hp : Placed m.order m.loader) (hs : Monitor.Step e m m') :
    Placed m'.order m'.loader := by
  have hn := h.nodup
  cases hs with
  | frame _ _ hsub _ => exact hp.grow hsub
  | first _ hk hnext => exact ⟨hn, cursorAt_first hk hn hnext⟩
  | @read k value known shown v l hl hr =>
    rw [hl] at hp
    rw [readEntry_eq h hp.2.mem] at hr
    obtain ⟨rfl, rfl⟩ := Prod.mk.inj (Except.ok.inj hr)
    exact ⟨hp.1, keysOf shown, keysOf_snoc shown _, hp.2⟩
  | unread hl hr =>
    rw [hl] at hp
    rw [readEntry_eq h hp.2.mem] at hr
    cases hr
  | seek hl hk hnext =>
    rw [hl] at hp
    obtain ⟨hknown, seen, hkeys, hc⟩ := hp
    have hmove := hc.move hk hn hnext
    rw [← hkeys] at hmove
    exact ⟨hknown, hmove⟩
  | _ => trivial

theorem placed_invariant : (monitor e).Invariant fun m => Stored e m ∧ Placed m.order m.loader :=
  stored_invariant.of_step (by rintro _ rfl; trivial) fun _ _ => placed_step

/-! ## The lines -/

theorem soFar_take {frames : List (List UInt8)} {n : Nat} (hn : n ≤ frames.length) (more : List (List UInt8)) :
    soFar e (frames ++ more) n k = soFar e frames n k := by
  rw [soFar, soFar, List.take_append_of_le_length hn]

/-- What an entry says never goes down. -/
theorem soFar_mono (e : Endian) (frames : List (List UInt8)) {a b : Nat} (hab : a ≤ b) (k : Key) :
    (soFar e frames a k).dropCounts ≤ (soFar e frames b k).dropCounts ∧
      (soFar e frames a k).dropBytes ≤ (soFar e frames b k).dropBytes := by
  have htake : (frames.take a).Sublist (frames.take b) := (List.take_prefix_take_left hab).sublist
  have hsub := (htake.filter (IsIcmp ·)).filter (key e · = k)
  constructor
  · exact Nat.cast_le.mpr hsub.length_le
  · exact Nat.cast_le.mpr ((hsub.map List.length).sum_le_sum fun _ _ => Nat.zero_le _)

/-- The lines are in order of time, and each tells what its entry should say. -/
structure Exact (e : Endian) (frames : List (List UInt8)) (output : List Shown) : Prop where
  past : ∀ l ∈ output, l.arrived ≤ frames.length
  exact : ∀ l ∈ output, l.line = line e l.line.key (soFar e frames l.arrived l.line.key)
  ordered : output.Pairwise fun l l' => l.arrived ≤ l'.arrived

theorem Exact.frames {frames : List (List UInt8)} {output : List Shown} (h : Exact e frames output)
    (more : List (List UInt8)) : Exact e (frames ++ more) output where
  past l hl := (h.past l hl).trans (by simp)
  exact l hl := by
    rw [soFar_take (h.past l hl)]
    exact h.exact l hl
  ordered := h.ordered

/-- A line that is printed now. -/
theorem Exact.snoc {frames : List (List UInt8)} {output : List Shown} (h : Exact e frames output) (k : Key) :
    Exact e frames (output ++ [⟨line e k (soFar e frames frames.length k), frames.length⟩]) where
  past := by
    simpa [or_imp, forall_and] using h.past
  exact := by
    intro l hl
    rcases List.mem_append.mp hl with hl | hl
    · exact h.exact l hl
    · obtain rfl := List.mem_singleton.mp hl
      rfl
  ordered := by
    refine List.pairwise_append.mpr ⟨h.ordered, List.pairwise_singleton _ _, fun l hl l' hl' => ?_⟩
    obtain rfl := List.mem_singleton.mp hl'
    exact h.past l hl

theorem shown_cut (loader : Loader) : loader.cut.flatMap Pass.shown = loader.shown := by
  cases loader <;> simp [Loader.cut, Loader.shown]

theorem exact_step (h : Stored e m ∧ Placed m.order m.loader) (hx : Exact e m.frames m.output)
    (hs : Monitor.Step e m m') : Exact e m'.frames m'.output := by
  obtain ⟨hst, hp⟩ := h
  cases hs with
  | frame => exact hx.frames _
  | interrupt =>
    simpa [Monitor.output, shown_cut, Loader.shown] using hx
  | @read k value known shown v l hl hr =>
    rw [hl] at hp
    rw [readEntry_eq hst hp.2.mem] at hr
    obtain ⟨rfl, rfl⟩ := Prod.mk.inj (Except.ok.inj hr)
    have hsnoc := hx.snoc k
    simpa [Monitor.output, hl, Loader.shown] using hsnoc
  | unread hl hr =>
    rw [hl] at hp
    rw [readEntry_eq hst hp.2.mem] at hr
    cases hr
  | start hl | wake hl | first hl | nothing hl | seek hl | last hl =>
    simpa [Monitor.output, hl, Loader.shown] using hx

theorem exact_invariant :
    (monitor e).Invariant fun m => (Stored e m ∧ Placed m.order m.loader) ∧ Exact e m.frames m.output :=
  placed_invariant.of_step (by rintro _ rfl; exact ⟨by simp [Monitor.output, Loader.shown], by
    simp [Monitor.output, Loader.shown], List.Pairwise.nil⟩) fun _ _ => exact_step

/-- What a line says about a pair of addresses: how many packets, and how many bytes. -/
def said (e : Endian) (m : Monitor) (l : Shown) : Value := soFar e m.frames l.arrived l.line.key

/-- The pair of addresses of `ping 0 2` on a little-endian machine. -/
def pingKey : Key := ⟨0x0200000a, 0x0100000a⟩

/-- After a pass during which the second of two frames arrived, before the entry was read. -/
def pingRun : Monitor where
  frames := [ping 0 2, ping 0 2]
  map := ⟨[(pingKey, ⟨68, 2⟩)], by decide, by decide⟩
  order := [pingKey]
  loader := .sleeping
  passes := [⟨[pingKey], [⟨line .little pingKey ⟨68, 2⟩, 2⟩], true⟩]

theorem pingRun_reachable : (monitor .little).Reachable pingRun := by
  have hn : NextKey [pingKey] (nextIn [pingKey]) := nextKey_nextIn (by decide)
  have h₀ : (monitor .little).Reachable ⟨[], .empty, [], .stopped, []⟩ := .init rfl
  have h₁ := h₀.step (.start rfl)
  have h₂ : (monitor .little).Reachable ⟨[ping 0 2], ⟨[(pingKey, ⟨34, 1⟩)], by decide, by decide⟩, [pingKey],
      .sleeping, []⟩ :=
    h₁.step (.frame nofun rfl (List.nil_sublist _) (List.Perm.refl _))
  have h₃ := (h₂.step (.wake rfl)).step (.first rfl hn (k := pingKey) rfl)
  have h₄ : (monitor .little).Reachable ⟨[ping 0 2, ping 0 2], ⟨[(pingKey, ⟨68, 2⟩)], by decide, by decide⟩, [pingKey],
      .reading pingKey none [pingKey] [], []⟩ :=
    h₃.step (.frame nofun rfl (List.Sublist.refl _) (List.Perm.refl _))
  have h₅ := h₄.step (.read (v := ⟨68, 2⟩) (l := line .little pingKey ⟨68, 2⟩) rfl rfl)
  exact h₅.step (.last rfl hn rfl)

/-- A pass has no key twice, and one that came to the end has the keys that were behind `{0, 0}` when it began. -/
structure Pass.Ok (p : Pass) : Prop where
  known : p.known.Nodup
  nodup : (keysOf p.shown).Nodup
  bounded : p.shown.length ≤ 256
  visited : p.finished = true → Visited ⟨0, 0⟩ p.known (keysOf p.shown)

theorem length_keysOf (shown : List Shown) : (keysOf shown).length = shown.length := List.length_map _

/-- The keys of the pass that is going on are keys of the map in their order. -/
theorem Placed.sublist {order : List Key} {loader : Loader} (h : Placed order loader) :
    (keysOf loader.shown).Sublist order := by
  cases loader with
  | reading k value known shown => exact (List.sublist_append_left _ _).trans h.2.sublist
  | seeking k v known shown =>
    obtain ⟨_, seen, hkeys, hc⟩ := h
    exact hkeys ▸ hc.sublist
  | _ => exact List.nil_sublist _

theorem pass_ok (h : Stored e m) {known : List Key} {shown : List Shown} {finished : Bool}
    (hknown : known.Nodup) (hs : (keysOf shown).Sublist m.order) (hv : finished = true → Visited ⟨0, 0⟩ known (keysOf shown)) :
    Pass.Ok ⟨known, shown, finished⟩ where
  known := hknown
  nodup := h.nodup.sublist hs
  bounded := by
    have hle := hs.length_le.trans h.length_le
    rwa [length_keysOf] at hle
  visited := hv

theorem passes_step (h : Stored e m ∧ Placed m.order m.loader) (hp : ∀ p ∈ m.passes, p.Ok)
    (hs : Monitor.Step e m m') : ∀ p ∈ m'.passes, p.Ok := by
  obtain ⟨hst, hpl⟩ := h
  have hsub := hpl.sublist
  have hadd : ∀ p : Pass, p.Ok → ∀ q ∈ m.passes ++ [p], q.Ok := by
    intro p hok q hq
    rcases List.mem_append.mp hq with hq | hq
    · exact hp q hq
    · exact List.mem_singleton.mp hq ▸ hok
  cases hs with
  | interrupt =>
    intro p hmem
    rcases List.mem_append.mp hmem with hmem | hmem
    · exact hp p hmem
    · cases hl : m.loader with
      | reading k value known shown | seeking k v known shown =>
        rw [hl] at hmem hsub hpl
        obtain rfl := List.mem_singleton.mp hmem
        exact pass_ok hst hpl.1 hsub (by simp)
      | _ =>
        rw [hl] at hmem
        cases hmem
  | nothing hl hk hnext => exact hadd _ (pass_ok hst hst.nodup (List.nil_sublist _) fun _ => visited_nil hk hst.nodup hnext)
  | last hl hk hnext =>
    rw [hl] at hpl hsub
    obtain ⟨hknown, seen, hkeys, hc⟩ := hpl
    refine hadd _ (pass_ok hst hknown hsub fun _ => ?_)
    rw [hkeys]
    exact hc.last hk hst.nodup hnext
  | _ => exact hp

theorem passes_invariant :
    (monitor e).Invariant fun m => (Stored e m ∧ Placed m.order m.loader) ∧ ∀ p ∈ m.passes, p.Ok :=
  placed_invariant.of_step (by rintro _ rfl; simp) fun _ _ => passes_step

/-- **A pass prints no key twice and at most 256 lines, and one that comes to the end prints every key that was in the
map when it began**, whatever arrives meanwhile, unless `{0, 0}` was a key: then it prints the keys behind that one, and
none of the others that were there. -/
theorem passes_complete (hr : (monitor e).Reachable m) {p : Pass} (hp : p ∈ m.passes) :
    (keysOf p.shown).Nodup ∧ p.shown.length ≤ 256 ∧
      (p.finished = true → ⟨0, 0⟩ ∉ p.known → p.known.Sublist (keysOf p.shown)) ∧
      (p.finished = true → ∀ as bs, p.known = as ++ ⟨0, 0⟩ :: bs →
        bs.Sublist (keysOf p.shown) ∧ ∀ k ∈ as ++ [⟨0, 0⟩], k ∉ keysOf p.shown) := by
  have hok := (passes_invariant.reachable hr).2 p hp
  refine ⟨hok.nodup, hok.bounded, fun hf h0 => ?_, fun hf as bs hsplit => ?_⟩
  · have hdue := (hok.visited hf).due
    rwa [behind_of_notMem h0] at hdue
  · have hv := hok.visited hf
    have hn := hok.known
    rw [hsplit] at hn
    have hbehind : behind p.known ⟨0, 0⟩ = bs := by rw [hsplit, behind_split hn]
    refine ⟨hbehind ▸ hv.due, fun k hk => hv.skipped k ?_ ?_⟩
    · rw [hsplit, List.append_cons]
      exact List.mem_append_left _ hk
    · rw [hbehind]
      rw [List.append_cons] at hn
      exact fun hb => (List.nodup_append.mp hn).2.2 k hk k hb rfl

theorem pingRun_complete : (monitor .little).Reachable pingRun ∧ ∀ p ∈ pingRun.passes,
    p.known.Sublist (keysOf p.shown) := by
  refine ⟨pingRun_reachable, fun p hp => ?_⟩
  obtain rfl := List.mem_singleton.mp hp
  exact (passes_complete pingRun_reachable hp).2.2.1 rfl (by decide)

end SideWork.Xdp
