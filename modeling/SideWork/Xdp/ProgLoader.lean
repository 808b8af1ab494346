import SideWork.Netlink.RtEntry
import SideWork.Xdp.DropIcmp

/-!
# The scan of `prog_loader`

Every few seconds `prog_loader` prints the whole map of `drop_icmp`: it starts at the key `{0, 0}` and follows
`bpf_map_get_next_key` until that fails. The source takes `{0, 0}` for a key that is never in the map, but `drop_icmp`
records whatever addresses a frame carries.

- `loop_scan`: from a key of the map, the keys behind it are printed;
- `scan_complete_iff`: a pass prints every key once exactly when `{0, 0}` is not one of them;
- `scan_zero_incomplete`: a frame with zero addresses is dropped and never shows up.
-/

namespace SideWork.Xdp

open Netlink (inetNtop)

/-- One line of the output. -/
structure Line where
  key : Key
  text : String
  deriving DecidableEq, Repr

/-- `printf` of an entry; `inet_ntop` reads the addresses byte by byte. -/
def line (e : Endian) (key : Key) (value : Value) : Line where
  key := key
  text := "src=" ++ inetNtop (wordBytes e 4 key.src) ++ ", dst=" ++ inetNtop (wordBytes e 4 key.dst) ++
    ", already dropped " ++ toString value.dropCounts ++ " packets (" ++ toString value.dropBytes ++ " bytes)\n"

/-- One turn of `while(bpf_map_get_next_key(..) == 0)`, on `current_key`, `value` and what was printed.
`bpf_map_lookup_elem` leaves `value` alone when there is no entry, and its result is not looked at. -/
def scanTurn (e : Endian) (map : DropIcmpMap) (getNextKey : Key → Option Key) :
    Key × Option Value × List Line → Except Stop (Key × Option Value × List Line ⊕ List Line)
  | (currentKey, value, out) =>
    match getNextKey currentKey with
    | none => return .inr out
    | some nextKey =>
      match (map.lookup nextKey).or value with
      | none => .error .uninitialised
      | some value => return .inl (nextKey, some value, out ++ [line e nextKey value])

/-- One pass. -/
def scan (fuel : Nat) (e : Endian) (map : DropIcmpMap) (getNextKey : Key → Option Key) : Except Stop (List Line) :=
  loop (scanTurn e map getNextKey) fuel (⟨0, 0⟩, none, [])

variable {e : Endian} {map : DropIcmpMap} {getNextKey : Key → Option Key} {order : List Key}

/-- The line of a key of the map. -/
def entryLine (e : Endian) (map : DropIcmpMap) (key : Key) : Line := line e key ((map.lookup key).getD 0)

section Turns

variable (hp : order.Perm map.keys)
include hp

theorem lookup_of_mem {k : Key} (hk : k ∈ order) : ∃ v, map.lookup k = some v := by
  apply Option.ne_none_iff_exists'.mp
  rw [Ne, BoundedMap.lookup_eq_none, not_not]
  exact hp.mem_iff.mp hk

/-- A turn that moves on to a key of the map prints its entry. -/
theorem scanTurn_next {k k' : Key} (hn : getNextKey k = some k') (hk : k' ∈ order) (value : Option Value)
    (out : List Line) : ∃ v, scanTurn e map getNextKey (k, value, out) =
      .ok (.inl (k', some v, out ++ [entryLine e map k'])) := by
  obtain ⟨v, hv⟩ := lookup_of_mem hp hk
  refine ⟨v, ?_⟩
  simp [scanTurn, hn, hv, entryLine]

variable (hn : NextKey order getNextKey)
include hn

/-- From a key of the map, the scan prints the keys behind it. -/
theorem loop_scan {bs : List Key} : ∀ (as : List Key) {k : Key}, order = as ++ k :: bs →
    ∀ (value : Option Value) (out : List Line) (fuel : Nat), bs.length < fuel →
      loop (scanTurn e map getNextKey) fuel (k, value, out) = .ok (out ++ bs.map (entryLine e map)) := by
  induction bs with
  | nil =>
    intro as k hk value out fuel hf
    have hturn : scanTurn e map getNextKey (k, value, out) = .ok (.inr out) := by
      simp [scanTurn, hn.present as k [] hk]
    rw [loop_done_of_lt hturn hf, List.map_nil, List.append_nil]
  | cons b bs ih =>
    intro as k hk value out fuel hf
    have hb : b ∈ order := by simp [hk]
    obtain ⟨v, hturn⟩ := scanTurn_next (e := e) hp (hn.present as k (b :: bs) hk) hb value out
    obtain ⟨f, rfl⟩ := exists_succ hf
    rw [loop_again hturn, ih (as ++ [k]) (by rw [hk]; simp) _ _ f (by simpa using hf)]
    simp

/-- A pass on a map without the start key prints the whole map. -/
theorem scan_absent (h0 : ⟨0, 0⟩ ∉ order) :
    Ends (fun fuel => scan fuel e map getNextKey) (.ok (order.map (entryLine e map))) := by
  apply ends_of_lt order.length
  intro fuel hf
  have hfirst := hn.absent _ h0
  cases order with
  | nil =>
    have hturn : scanTurn e map getNextKey (⟨0, 0⟩, none, []) = .ok (.inr []) := by
      simp [scanTurn, hfirst]
    exact loop_done_of_lt hturn hf
  | cons k bs =>
    obtain ⟨v, hturn⟩ := scanTurn_next (e := e) hp hfirst (by simp) none []
    obtain ⟨f, rfl⟩ := exists_succ hf
    rw [scan, loop_again hturn, loop_scan hp hn [] rfl _ _ f (by simpa using hf)]
    simp

/-- A pass on a map with the start key prints the keys behind it only. -/
theorem scan_present (as bs : List Key) (h0 : order = as ++ ⟨0, 0⟩ :: bs) :
    Ends (fun fuel => scan fuel e map getNextKey) (.ok (bs.map (entryLine e map))) :=
  ends_of_lt bs.length fun fuel hf => loop_scan hp hn as h0 none [] fuel hf

end Turns

theorem map_key_entryLine (ks : List Key) : (ks.map (entryLine e map)).map Line.key = ks := by
  rw [List.map_map]
  exact List.map_id ks

/-- **A pass ends, and prints every key of the map exactly once if and only if `{0, 0}` is not a key of the map.** What it
prints are entries of the map. -/
theorem scan_complete_iff (hn : NextKey order getNextKey) (hp : order.Perm map.keys) :
    ∃ out, Ends (fun fuel => scan fuel e map getNextKey) (.ok out) ∧
      (∀ l ∈ out, ∃ v, map.lookup l.key = some v ∧ l = line e l.key v) ∧
      ((out.map Line.key).Perm map.keys ↔ ⟨0, 0⟩ ∉ map.keys) := by
  have hlines : ∀ ks, ks ⊆ order → ∀ l ∈ ks.map (entryLine e map),
      ∃ v, map.lookup l.key = some v ∧ l = line e l.key v := by
    intro ks hks l hl
    obtain ⟨k, hk, rfl⟩ := List.mem_map.mp hl
    obtain ⟨v, hv⟩ := lookup_of_mem hp (hks hk)
    exact ⟨v, hv, by simp [entryLine, line, hv]⟩
  by_cases h0 : (⟨0, 0⟩ : Key) ∈ order
  · obtain ⟨as, bs, hsplit⟩ := List.append_of_mem h0
    refine ⟨_, scan_present hp hn as bs hsplit, hlines bs (by simp [hsplit]), ?_⟩
    apply iff_of_false
    · rw [map_key_entryLine]
      intro hperm
      have hlen := (hperm.trans hp.symm).length_eq
      rw [hsplit, List.length_append, List.length_cons] at hlen
      omega
    · exact fun h => h (hp.mem_iff.mp h0)
  · refine ⟨_, scan_absent hp hn h0, hlines order (List.Subset.refl _), ?_⟩
    apply iff_of_true
    · rw [map_key_entryLine]
      exact hp
    · exact fun h => h0 (hp.mem_iff.mpr h)

/-- Two pairs of addresses. -/
def twoPairs : DropIcmpMap := ⟨[(⟨1, 2⟩, ⟨98, 1⟩), (⟨3, 2⟩, ⟨196, 2⟩)], by decide, by decide⟩

/-- On a map without `{0, 0}` the pass is complete. -/
theorem scan_twoPairs_complete :
    ∃ out, Ends (fun fuel => scan fuel .little twoPairs (nextIn twoPairs.keys)) (.ok out) ∧
      (out.map Line.key).Perm twoPairs.keys := by
  obtain ⟨out, he, -, hiff⟩ :=
    scan_complete_iff (e := .little) (nextKey_nextIn twoPairs.keys_nodup) (List.Perm.refl twoPairs.keys)
  exact ⟨out, he, hiff.mpr (by decide)⟩

/-- An ICMP frame from 0.0.0.0 to 0.0.0.0. -/
def zeroPing : List UInt8 :=
  List.replicate 12 0 ++ [0x08, 0x00] ++ List.replicate 9 0 ++ [1, 0, 0] ++ List.replicate 8 0

/-- The map after that frame. -/
def zeroMap : DropIcmpMap := ⟨[(⟨0, 0⟩, ⟨34, 1⟩)], by decide, by decide⟩

/-- `drop_icmp` records the frame, and a pass over the map prints nothing. -/
theorem scan_zero_incomplete : run .little .empty [zeroPing] = .ok ([.drop], zeroMap) ∧
    NextKey zeroMap.keys (nextIn zeroMap.keys) ∧
    ∃ out, Ends (fun fuel => scan fuel .little zeroMap (nextIn zeroMap.keys)) (.ok out) ∧
      ¬ (out.map Line.key).Perm zeroMap.keys := by
  have hn := nextKey_nextIn zeroMap.keys_nodup
  refine ⟨rfl, hn, [], ?_, by decide⟩
  exact scan_present (List.Perm.refl _) hn [] [] rfl

end SideWork.Xdp
