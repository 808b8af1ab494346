import SideWork.Lib.Loop

/-!
# The counter of `drop_UDP`

The netfilter hook adds the length of every UDP packet to the global `count`, an unsigned number of 32 bits, and
`/proc/drop_udp/drop_count` shows it with `%d`.

- `count_run`: `count` is the total of all lengths, cut to 32 bits;
- `shown_exact_iff`: what is shown is the total exactly below `2^31`;
- `count_iff`: along a run, the shown numbers are the totals, and never decrease, exactly when the total of the whole run
  is below `2^31`.
-/

namespace SideWork.KernelModule

/-- What the hook uses of an outgoing packet: `iph->protocol` and `skb->len`. -/
structure Packet where
  protocol : UInt8
  len : UInt32
  deriving DecidableEq, Repr

/-- `IPPROTO_UDP`. -/
def ipprotoUdp : UInt8 := 17

/-- `NF_ACCEPT`. -/
def nfAccept : Nat := 1

/-- `vincent_drop_udp_output`: the verdict, and the global `count`. -/
def vincentDropUdpOutput (count : UInt32) (skb : Packet) : Nat × UInt32 :=
  if skb.protocol = ipprotoUdp then (nfAccept, count + skb.len) else (nfAccept, count)

/-- The packets of a run pass one after another, with `count` 0 at first. -/
def countAfter (skbs : List Packet) : UInt32 := skbs.foldl (fun count skb => (vincentDropUdpOutput count skb).2) 0

/-- `drop_count_show`: the number that `%d` makes of `count`. -/
def dropCountShow (count : UInt32) : Int := count.toBitVec.toInt

/-! ## What is counted -/

/-- What a packet adds to the total. -/
def udpLen (skb : Packet) : Nat := if skb.protocol = ipprotoUdp then skb.len.toNat else 0

/-- The total `skb->len` of the UDP packets. -/
def total (skbs : List Packet) : Nat := (skbs.map udpLen).sum

theorem total_append (seen rest : List Packet) : total (seen ++ rest) = total seen + total rest := by
  rw [total, List.map_append, List.sum_append]
  rfl

theorem udpLen_lt (skb : Packet) : udpLen skb < 2 ^ 32 := by
  unfold udpLen
  split
  · exact skb.len.toNat_lt
  · omega

/-- Every packet is accepted, and a UDP packet is counted. -/
theorem output_spec (count : UInt32) (skb : Packet) : (vincentDropUdpOutput count skb).1 = nfAccept ∧
    ((vincentDropUdpOutput count skb).2).toNat = (count.toNat + udpLen skb) % 2 ^ 32 := by
  unfold vincentDropUdpOutput udpLen
  split
  · exact ⟨rfl, UInt32.toNat_add count skb.len⟩
  · exact ⟨rfl, (Nat.mod_eq_of_lt count.toNat_lt).symm⟩

/-- The counter of a run. -/
theorem count_run (skbs : List Packet) : (countAfter skbs).toNat = total skbs % 2 ^ 32 := by
  induction skbs using List.reverseRecOn with
  | nil => rfl
  | append_singleton skbs skb ih =>
    have hstep : countAfter (skbs ++ [skb]) = (vincentDropUdpOutput (countAfter skbs) skb).2 := by
      simp [countAfter]
    have hsum : total (skbs ++ [skb]) = total skbs + udpLen skb := by
      rw [total_append]
      simp [total]
    rw [hstep, (output_spec _ skb).2, ih, hsum]
    omega

/-! ## What is shown -/

/-- `%d` of an unsigned number. -/
theorem dropCountShow_eq (count : UInt32) :
    dropCountShow count = if count.toNat < 2 ^ 31 then (count.toNat : Int) else count.toNat - 2 ^ 32 := by
  rw [dropCountShow, BitVec.toInt_eq_toNat_cond]
  simp only [UInt32.toNat_toBitVec]
  split <;> split <;> omega

/-- What a run shows. -/
theorem shown_run (skbs : List Packet) : dropCountShow (countAfter skbs) =
    if total skbs % 2 ^ 32 < 2 ^ 31 then ((total skbs % 2 ^ 32 : Nat) : Int) else (total skbs % 2 ^ 32 : Nat) - 2 ^ 32 := by
  rw [dropCountShow_eq, count_run]

theorem shown_exact_iff (skbs : List Packet) : dropCountShow (countAfter skbs) = total skbs ↔ total skbs < 2 ^ 31 := by
  rw [shown_run]
  split <;> omega

/-- A packet that takes the total past `2^31` makes the shown number smaller. -/
theorem shown_drops {seen : List Packet} {skb : Packet} (h : total seen < 2 ^ 31)
    (hnext : 2 ^ 31 ≤ total (seen ++ [skb])) :
    dropCountShow (countAfter (seen ++ [skb])) < dropCountShow (countAfter seen) := by
  have hsum : total (seen ++ [skb]) = total seen + udpLen skb := by
    rw [total_append]
    simp [total]
  have hlen := udpLen_lt skb
  rw [(shown_exact_iff seen).mpr h, shown_run]
  split <;> omega

/-! ## Along a run -/

/-- After every packet of the run, the shown number is the total so far. -/
def Exact (skbs : List Packet) : Prop := ∀ seen, seen <+: skbs → dropCountShow (countAfter seen) = total seen

/-- The shown number never decreases along the run. -/
def NeverDecreases (skbs : List Packet) : Prop := ∀ seen skb, seen ++ [skb] <+: skbs →
  dropCountShow (countAfter seen) ≤ dropCountShow (countAfter (seen ++ [skb]))

theorem total_prefix {seen skbs : List Packet} (h : seen <+: skbs) : total seen ≤ total skbs := by
  obtain ⟨rest, rfl⟩ := h
  rw [total_append]
  omega

/-- The first packet with which the total comes to `2^31`. -/
theorem exists_crossing {skbs : List Packet} (h : 2 ^ 31 ≤ total skbs) :
    ∃ seen skb, seen ++ [skb] <+: skbs ∧ total seen < 2 ^ 31 ∧ 2 ^ 31 ≤ total (seen ++ [skb]) := by
  induction skbs using List.reverseRecOn with
  | nil => simp [total] at h
  | append_singleton skbs skb ih =>
    by_cases hle : 2 ^ 31 ≤ total skbs
    · obtain ⟨seen, skb', hpre, hlt, hge⟩ := ih hle
      exact ⟨seen, skb', hpre.trans (List.prefix_append skbs [skb]), hlt, hge⟩
    · exact ⟨skbs, skb, List.prefix_refl _, by omega, h⟩

theorem totals_iff (skbs : List Packet) : Exact skbs ↔ total skbs < 2 ^ 31 := by
  constructor
  · intro h
    exact (shown_exact_iff skbs).mp (h skbs (List.prefix_refl skbs))
  · intro h seen hpre
    have hle := total_prefix hpre
    exact (shown_exact_iff seen).mpr (by omega)

theorem neverDecreases_iff (skbs : List Packet) : NeverDecreases skbs ↔ total skbs < 2 ^ 31 := by
  constructor
  · intro h
    by_contra hge
    obtain ⟨seen, skb, hpre, hlt, hge⟩ := exists_crossing (Nat.le_of_not_lt hge)
    have hdrop := shown_drops hlt hge
    have hle := h seen skb hpre
    omega
  · intro h seen skb hpre
    have hexact := (totals_iff skbs).mpr h
    rw [hexact _ hpre, hexact _ ((List.prefix_append seen [skb]).trans hpre)]
    exact_mod_cast total_prefix (List.prefix_append seen [skb])

/-- **The shown numbers are the totals along a run**, and never decrease along it, exactly when the total of the whole run
is below `2^31`. -/
theorem count_iff (skbs : List Packet) : (Exact skbs ↔ total skbs < 2 ^ 31) ∧ (NeverDecreases skbs ↔ total skbs < 2 ^ 31) :=
  ⟨totals_iff skbs, neverDecreases_iff skbs⟩

/-- `2^15 + 1` UDP packets of the largest length. -/
def fullPackets : List Packet := List.replicate (2 ^ 15 + 1) ⟨ipprotoUdp, 65535⟩

/-- After two gigabytes the number is negative. -/
theorem fullPackets_not_exact : dropCountShow (countAfter fullPackets) = -2147450881 ∧ ¬ Exact fullPackets ∧
    ¬ NeverDecreases fullPackets := by
  have hlen : udpLen ⟨ipprotoUdp, 65535⟩ = 65535 := by decide
  have htotal : total fullPackets = 2147516415 := by
    rw [total, fullPackets, List.map_replicate, hlen, List.sum_replicate]
    norm_num
  refine ⟨?_, ?_, ?_⟩
  · rw [shown_run, htotal]
    norm_num
  · rw [totals_iff, htotal]
    norm_num
  · rw [neverDecreases_iff, htotal]
    norm_num

end SideWork.KernelModule
