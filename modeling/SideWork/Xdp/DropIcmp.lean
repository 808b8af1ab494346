import SideWork.Lib.Bytes
import SideWork.Lib.BoundedMap

/-!
# `drop_icmp`

The XDP program drops ICMP frames and keeps, for each pair of addresses, how many it dropped and how many bytes they
had. The map has room for 256 pairs, and the program does not look at what `bpf_map_update_elem` returns.

- `dropIcmp_eq`: one frame, as its verdict and the amount it records;
- `run_eq`: a run from the empty map is the tally of its dropped frames;
- `run_accounts`: verdicts, and exact entries for every pair in the map;
- `run_total_iff`: every dropped frame is counted exactly when the dropped frames have at most 256 pairs of addresses.

The counters are integers: `long` would overflow after `2 ^ 63` bytes.
-/

namespace SideWork.Xdp

/-- `XDP_ABORTED`, `XDP_DROP`, `XDP_PASS`. -/
inductive Verdict
  | aborted
  | drop
  | pass
  deriving DecidableEq, Repr

/-- `KEY`, in network byte order. -/
structure Key where
  src : Nat
  dst : Nat
  deriving DecidableEq, Repr

/-- `VALUE`. -/
@[ext] structure Value where
  dropBytes : Int
  dropCounts : Int
  deriving DecidableEq, Repr

def ethPIp : Nat := 0x0800

def ipprotoIcmp : Nat := 1

/-- `drop_icmp_map`: `max_entries` is 256. -/
abbrev DropIcmpMap : Type := BoundedMap Key Value 256

/-- `drop_icmp`. The Ethernet header has 14 bytes with `h_proto` at 12; the IP header follows it and has 20 bytes, with
`protocol` at 9, `saddr` at 12 and `daddr` at 16. -/
def dropIcmp (e : Endian) (map : DropIcmpMap) (frame : List UInt8) : Except Stop (Verdict × DropIcmpMap) :=
  if frame.length < 14 then return (.aborted, map)
  else do
    let hProto ← load e frame 12 2
    if hProto = htons e ethPIp then
      if frame.length < 14 + 20 then return (.aborted, map)
      else
        let protocol ← load e frame (14 + 9) 1
        if protocol = ipprotoIcmp then
          let src ← load e frame (14 + 12) 4
          let dst ← load e frame (14 + 16) 4
          let bytes : Int := frame.length
          match map.lookup ⟨src, dst⟩ with
          | none =>
            -- the result of the update is dropped
            return (.drop, (map.update ⟨src, dst⟩ ⟨bytes, 1⟩).1)
          | some _ =>
            return (.drop, map.modify ⟨src, dst⟩ fun value => ⟨value.dropBytes + bytes, value.dropCounts + 1⟩)
        else return (.pass, map)
    else return (.pass, map)

/-- The program on frame after frame: the verdicts and the map at the end. -/
def run (e : Endian) : DropIcmpMap → List (List UInt8) → Except Stop (List Verdict × DropIcmpMap)
  | map, [] => return ([], map)
  | map, frame :: frames => do
    let (v, map) ← dropIcmp e map frame
    let (vs, map) ← run e map frames
    return (v :: vs, map)

/-! ## What a frame is -/

/-- The ethertype is `0x0800`. -/
def IsIp (frame : List UInt8) : Prop := frame[12]? = some 0x08 ∧ frame[13]? = some 0x00

instance (frame : List UInt8) : Decidable (IsIp frame) := inferInstanceAs (Decidable (_ ∧ _))

/-- Too short for its headers. -/
def Truncated (frame : List UInt8) : Prop := frame.length < 14 ∨ (IsIp frame ∧ frame.length < 34)

instance (frame : List UInt8) : Decidable (Truncated frame) := inferInstanceAs (Decidable (_ ∨ _))

/-- An ICMP packet with a whole IP header. -/
def IsIcmp (frame : List UInt8) : Prop := 34 ≤ frame.length ∧ IsIp frame ∧ frame[23]? = some 1

instance (frame : List UInt8) : Decidable (IsIcmp frame) := inferInstanceAs (Decidable (_ ∧ _))

/-- The pair of addresses of a frame. -/
def key (e : Endian) (frame : List UInt8) : Key where
  src := word e ((frame.drop 26).take 4)
  dst := word e ((frame.drop 30).take 4)

/-- What a dropped frame adds to its entry. -/
def charge (frame : List UInt8) : Value := ⟨frame.length, 1⟩

/-- The verdict the program is meant to give. -/
def verdict (frame : List UInt8) : Verdict :=
  if Truncated frame then .aborted else if IsIcmp frame then .drop else .pass

instance : Zero Value := ⟨⟨0, 0⟩⟩

instance : Add Value := ⟨fun v w => ⟨v.dropBytes + w.dropBytes, v.dropCounts + w.dropCounts⟩⟩

@[simp] theorem zero_dropBytes : (0 : Value).dropBytes = 0 := rfl

@[simp] theorem zero_dropCounts : (0 : Value).dropCounts = 0 := rfl

@[simp] theorem add_dropBytes (v w : Value) : (v + w).dropBytes = v.dropBytes + w.dropBytes := rfl

@[simp] theorem add_dropCounts (v w : Value) : (v + w).dropCounts = v.dropCounts + w.dropCounts := rfl

instance : AddCommMonoid Value where
  add_assoc u v w := by ext <;> simp [add_assoc]
  zero_add v := by ext <;> simp
  add_zero v := by ext <;> simp
  add_comm v w := by ext <;> simp [add_comm]
  nsmul := nsmulRec

/-! ## One frame -/

variable {e : Endian} {frame : List UInt8}

theorem hProto_iff (h : 14 ≤ frame.length) : word e ((frame.drop 12).take 2) = htons e ethPIp ↔ IsIp frame := by
  rw [take_drop_two (by omega), word_eq_htons (by decide), IsIp, List.getElem?_eq_getElem (by omega),
    List.getElem?_eq_getElem (by omega), Option.some_inj, Option.some_inj, ← UInt8.toNat_inj, ← UInt8.toNat_inj]
  rfl

theorem protocol_iff (h : 34 ≤ frame.length) :
    word e ((frame.drop 23).take 1) = ipprotoIcmp ↔ frame[23]? = some 1 := by
  rw [take_drop_one (by omega), word_one, List.getElem?_eq_getElem (by omega), Option.some_inj, ← UInt8.toNat_inj]
  rfl

/-- **One frame.** No load leaves the frame. -/
theorem dropIcmp_eq (map : DropIcmpMap) (frame : List UInt8) : dropIcmp e map frame =
    .ok (verdict frame, if IsIcmp frame then map.record (key e frame) (charge frame) else map) := by
  unfold dropIcmp
  by_cases heth : frame.length < 14
  · have hicmp : ¬ IsIcmp frame := fun h => by have := h.1; omega
    simp [heth, hicmp, verdict, Truncated]
  rw [if_neg heth, load_of_le (by omega), ok_bind]
  by_cases hip : IsIp frame
  · rw [if_pos ((hProto_iff (by omega)).mpr hip)]
    by_cases hiph : frame.length < 14 + 20
    · have hicmp : ¬ IsIcmp frame := fun h => by have := h.1; omega
      simp [hiph, hicmp, verdict, Truncated, hip]
    have htr : ¬ Truncated frame := by simp only [Truncated, not_or, not_and]; omega
    rw [if_neg hiph, load_of_le (by omega), ok_bind]
    by_cases hproto : frame[23]? = some 1
    · have hicmp : IsIcmp frame := ⟨by omega, hip, hproto⟩
      rw [if_pos ((protocol_iff (by omega)).mpr hproto), load_of_le (by omega), ok_bind, load_of_le (by omega), ok_bind,
        verdict, if_neg htr, if_pos hicmp, if_pos hicmp, BoundedMap.record]
      change (match map.lookup (key e frame) with | none => _ | some _ => _) = _
      cases map.lookup (key e frame) <;> rfl
    · have hicmp : ¬ IsIcmp frame := fun h => hproto h.2.2
      rw [if_neg ((protocol_iff (by omega)).not.mpr hproto), verdict, if_neg htr, if_neg hicmp, if_neg hicmp]
      rfl
  · have hicmp : ¬ IsIcmp frame := fun h => hip h.2.1
    have htr : ¬ Truncated frame := by
      rintro (h | h)
      · exact heth h
      · exact hip h.1
    rw [if_neg ((hProto_iff (by omega)).not.mpr hip), verdict, if_neg htr, if_neg hicmp, if_neg hicmp]
    rfl

theorem verdict_aborted : verdict frame = .aborted ↔ Truncated frame := by
  unfold verdict
  by_cases h : Truncated frame
  · simp [h]
  · by_cases h' : IsIcmp frame <;> simp [h, h']

theorem not_truncated_of_isIcmp (h : IsIcmp frame) : ¬ Truncated frame := by
  obtain ⟨hlen, _, _⟩ := h
  rintro (ht | ⟨_, ht⟩) <;> omega

theorem verdict_drop : verdict frame = .drop ↔ IsIcmp frame := by
  unfold verdict
  by_cases h : Truncated frame
  · have h' : ¬ IsIcmp frame := fun hi => not_truncated_of_isIcmp hi h
    simp [h, h']
  · by_cases h' : IsIcmp frame <;> simp [h, h']

theorem verdict_pass : verdict frame = .pass ↔ ¬ Truncated frame ∧ ¬ IsIcmp frame := by
  unfold verdict
  by_cases h : Truncated frame
  · simp [h]
  · by_cases h' : IsIcmp frame <;> simp [h, h']

/-! ## A run -/

/-- The dropped frames of a run. -/
def dropped (frames : List (List UInt8)) : List (List UInt8) := frames.filter (IsIcmp ·)

/-- What a run records. -/
def records (e : Endian) (frames : List (List UInt8)) : List (Key × Value) :=
  (dropped frames).map fun frame => (key e frame, charge frame)

/-- A run from any map. -/
theorem run_eq_foldl (map : DropIcmpMap) (frames : List (List UInt8)) : run e map frames =
    .ok (frames.map verdict, (records e frames).foldl (fun m r => m.record r.1 r.2) map) := by
  induction frames generalizing map with
  | nil => rfl
  | cons frame frames ih =>
    rw [run, dropIcmp_eq, ok_bind]
    by_cases h : IsIcmp frame <;> simp [records, dropped, h, ih]

/-- A run from the empty map. -/
theorem run_eq (frames : List (List UInt8)) :
    run e .empty frames = .ok (frames.map verdict, .recordAll (records e frames)) :=
  run_eq_foldl .empty frames

/-! ## The entries -/

theorem sum_charge (frames : List (List UInt8)) :
    (frames.map charge).sum = ⟨((frames.map List.length).sum : Nat), frames.length⟩ := by
  induction frames with
  | nil => rfl
  | cons frame frames ih =>
    rw [List.map_cons, List.sum_cons, ih]
    ext
    · simp [charge]
    · simp [charge, add_comm]

/-- Every entry is exact: the dropped frames with that pair of addresses, and their bytes. -/
def Accounts (e : Endian) (frames : List (List UInt8)) (map : DropIcmpMap) : Prop :=
  ∀ k v, map.lookup k = some v →
    v.dropCounts = ((dropped frames).filter (key e · = k)).length ∧
      v.dropBytes = ((((dropped frames).filter (key e · = k)).map List.length).sum : Nat)

theorem amount_records (frames : List (List UInt8)) (k : Key) : BoundedMap.amount (records e frames) k =
    ⟨((((dropped frames).filter (key e · = k)).map List.length).sum : Nat),
      ((dropped frames).filter (key e · = k)).length⟩ := by
  rw [← sum_charge, BoundedMap.amount, records, List.filter_map, List.map_map]
  rfl

theorem accounts_recordAll (frames : List (List UInt8)) :
    Accounts e frames (BoundedMap.recordAll (records e frames)) := by
  intro k v h
  have hv : v = BoundedMap.amount (records e frames) k :=
    (BoundedMap.tallies_recordAll (records e frames)).exact (k, v) (BoundedMap.mem_of_lookup h)
  rw [hv, amount_records]
  exact ⟨rfl, rfl⟩

/-- **Verdicts and entries.** After every prefix of a run from the empty map, the verdict on the next frame is the meant
one, a frame that is not dropped leaves the map as it is, every entry is exact and there are at most 256 of them. -/
theorem run_accounts (e : Endian) (frames : List (List UInt8)) : ∃ vs : List Verdict, vs.length = frames.length ∧
    ∀ n, ∃ map, run e .empty (frames.take n) = .ok (vs.take n, map) ∧
      Accounts e (frames.take n) map ∧ map.entries.length ≤ 256 ∧
      ∀ frame v, frames[n]? = some frame → vs[n]? = some v →
        (v = .aborted ↔ Truncated frame) ∧ (v = .drop ↔ IsIcmp frame) ∧
        (v = .pass ↔ ¬ Truncated frame ∧ ¬ IsIcmp frame) ∧
        ∃ map', dropIcmp e map frame = .ok (v, map') ∧ (v ≠ .drop → map' = map) := by
  refine ⟨frames.map verdict, List.length_map verdict, fun n => ?_⟩
  refine ⟨.recordAll (records e (frames.take n)), ?_, accounts_recordAll _, BoundedMap.bounded _, ?_⟩
  · rw [run_eq, List.map_take]
  · intro frame v hf hv
    obtain rfl : verdict frame = v := by
      rw [List.getElem?_map, hf] at hv
      exact Option.some_inj.mp hv
    refine ⟨verdict_aborted, verdict_drop, verdict_pass, _, dropIcmp_eq _ frame, fun hne => ?_⟩
    exact if_neg fun h => hne (verdict_drop.mpr h)

/-- An ICMP frame from `10.0.a.b` to `10.0.0.1`. -/
def ping (a b : UInt8) : List UInt8 :=
  List.replicate 12 0 ++ [0x08, 0x00] ++ List.replicate 9 0 ++ [1, 0, 0] ++ [10, 0, a, b] ++ [10, 0, 0, 1]

/-- Two frames from `10.0.0.1`, one from `10.0.0.2` and one that is too short. -/
example : (run .little .empty [ping 0 1, ping 0 2, [0x08, 0x00], ping 0 1]).map (fun r => (r.1, r.2.entries)) =
    .ok ([.drop, .drop, .aborted, .drop],
      [(⟨0x0200000a, 0x0100000a⟩, ⟨34, 1⟩), (⟨0x0100000a, 0x0100000a⟩, ⟨68, 2⟩)]) := by
  decide

/-! ## The totals -/

/-- Every dropped frame of the run is counted somewhere, with its bytes. -/
def AllCounted (frames : List (List UInt8)) (vs : List Verdict) (map : DropIcmpMap) : Prop :=
  (map.entries.map (·.2.dropCounts)).sum = vs.count .drop ∧
    (map.entries.map (·.2.dropBytes)).sum = ((((frames.zip vs).filter (·.2 = .drop)).map (·.1.length)).sum : Nat)

theorem sum_dropCounts (vs : List Value) : vs.sum.dropCounts = (vs.map Value.dropCounts).sum := by
  induction vs with
  | nil => rfl
  | cons v vs ih => rw [List.sum_cons, List.map_cons, List.sum_cons, add_dropCounts, ih]

theorem sum_dropBytes (vs : List Value) : vs.sum.dropBytes = (vs.map Value.dropBytes).sum := by
  induction vs with
  | nil => rfl
  | cons v vs ih => rw [List.sum_cons, List.map_cons, List.sum_cons, add_dropBytes, ih]

theorem count_drop (frames : List (List UInt8)) : (frames.map verdict).count .drop = (dropped frames).length := by
  induction frames with
  | nil => rfl
  | cons frame frames ih =>
    rw [List.map_cons, List.count_cons, ih]
    by_cases h : IsIcmp frame <;> simp [dropped, h, verdict_drop]

theorem zip_drop (frames : List (List UInt8)) :
    (((frames.zip (frames.map verdict)).filter (·.2 = .drop)).map (·.1.length)) = (dropped frames).map List.length := by
  induction frames with
  | nil => rfl
  | cons frame frames ih =>
    rw [List.map_cons, List.zip_cons_cons]
    unfold dropped at ih ⊢
    by_cases h : IsIcmp frame
    · simpa [h, verdict_drop] using ih
    · simpa [h, verdict_drop] using ih

/-- The entries together: the dropped frames whose pair of addresses is in the map. -/
theorem total_recordAll (frames : List (List UInt8)) {map : DropIcmpMap}
    (h : BoundedMap.Tallies (records e frames) map) :
    (map.entries.map Prod.snd).sum =
      ⟨((((dropped frames).filter (key e · ∈ map.keys)).map List.length).sum : Nat),
        ((dropped frames).filter (key e · ∈ map.keys)).length⟩ := by
  rw [← sum_charge, BoundedMap.total_eq h, records, List.filter_map, List.map_map]
  rfl

theorem allCounted_iff_mem (frames : List (List UInt8)) {map : DropIcmpMap}
    (h : BoundedMap.Tallies (records e frames) map) :
    AllCounted frames (frames.map verdict) map ↔ ∀ frame ∈ dropped frames, key e frame ∈ map.keys := by
  have htotal := total_recordAll frames h
  have hcounts := congrArg Value.dropCounts htotal
  have hbytes := congrArg Value.dropBytes htotal
  rw [sum_dropCounts, List.map_map] at hcounts
  rw [sum_dropBytes, List.map_map] at hbytes
  unfold AllCounted
  rw [count_drop, zip_drop]
  constructor
  · rintro ⟨hc, _⟩
    have hlen : ((dropped frames).filter (key e · ∈ map.keys)).length = (dropped frames).length :=
      Nat.cast_injective (hcounts.symm.trans hc)
    intro frame hm
    simpa using List.length_filter_eq_length_iff.mp hlen frame hm
  · intro hall
    have hf : (dropped frames).filter (key e · ∈ map.keys) = dropped frames :=
      List.filter_eq_self.mpr fun frame hm => by simpa using hall frame hm
    rw [hf] at hcounts hbytes
    exact ⟨hcounts, hbytes⟩

theorem records_keys (frames : List (List UInt8)) : (records e frames).map Prod.fst = (dropped frames).map (key e) := by
  rw [records, List.map_map]
  rfl

theorem allCounted_iff (e : Endian) (frames : List (List UInt8)) :
    AllCounted frames (frames.map verdict) (.recordAll (records e frames)) ↔
      ((dropped frames).map (key e)).dedup.length ≤ 256 := by
  have h : BoundedMap.Tallies (records e frames) (.recordAll (records e frames) : DropIcmpMap) :=
    BoundedMap.tallies_recordAll (records e frames)
  rw [allCounted_iff_mem frames h, ← records_keys, ← BoundedMap.all_kept_iff h, records, List.forall_mem_map]

/-- **The totals.** Every dropped frame is counted exactly when the dropped frames have at most 256 different pairs of
addresses. -/
theorem run_total_iff (e : Endian) (frames : List (List UInt8)) : ∃ vs map, run e .empty frames = .ok (vs, map) ∧
    (AllCounted frames vs map ↔ ((dropped frames).map (key e)).dedup.length ≤ 256) :=
  ⟨_, _, run_eq frames, allCounted_iff e frames⟩

/-- 257 frames from different senders. -/
def pings : List (List UInt8) := (List.range 257).map fun i => ping (.ofNat (i / 256)) (.ofNat (i % 256))

theorem key_ping_inj {a b a' b' : UInt8} (h : key e (ping a b) = key e (ping a' b')) : a = a' ∧ b = b' := by
  have hsrc : word e [10, 0, a, b] = word e [10, 0, a', b'] := congrArg Key.src h
  have ha := a.toNat_lt
  have hb := b.toNat_lt
  have ha' := a'.toNat_lt
  have hb' := b'.toNat_lt
  rw [← UInt8.toNat_inj, ← UInt8.toNat_inj]
  cases e with
  | little =>
    simp only [word, List.foldr_cons, List.foldr_nil] at hsrc
    omega
  | big =>
    simp only [word, List.foldl_cons, List.foldl_nil] at hsrc
    omega

/-- Frames from 257 senders are dropped, but one of them is counted nowhere. -/
theorem pings_not_counted : ∃ vs map, run .little .empty pings = .ok (vs, map) ∧ ¬ AllCounted pings vs map := by
  refine ⟨_, _, run_eq pings, ?_⟩
  rw [allCounted_iff]
  have hdropped : dropped pings = pings := by
    refine List.filter_eq_self.mpr fun frame hm => ?_
    obtain ⟨i, _, rfl⟩ := List.mem_map.mp hm
    simp [IsIcmp, IsIp, ping]
  have hnodup : (pings.map (key .little)).Nodup := by
    rw [pings, List.map_map]
    refine List.Nodup.map_on ?_ List.nodup_range
    intro i hi j hj hij
    obtain ⟨h₁, h₂⟩ := key_ping_inj hij
    have hi' : i < 257 := List.mem_range.mp hi
    have hj' : j < 257 := List.mem_range.mp hj
    have h₁ := congrArg UInt8.toNat h₁
    have h₂ := congrArg UInt8.toNat h₂
    simp only [UInt8.toNat_ofNat'] at h₁ h₂
    omega
  rw [hdropped, hnodup.dedup, List.length_map, pings, List.length_map, List.length_range]
  decide

end SideWork.Xdp
