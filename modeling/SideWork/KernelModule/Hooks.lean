import SideWork.KernelModule.DropCount
import SideWork.Lib.Additions
import SideWork.Lib.System

/-!
# The hook of `drop_UDP` on several processors

Packets leave on several processors at once, and every `count += skb->len` is a read and a write of its own.

- `alone_output`: a hook that nothing comes between does what `vincentDropUdpOutput` does;
- `counted_invariant`: `count` is what the additions make of it, cut to 32 bits;
- `hooks_race`: below `2^31`, what is shown is never more than the total; it is the total exactly when no two additions
  overlapped, and once it is less, it stays less.
-/

namespace SideWork.KernelModule

/-- Where a hook is; `count` was read after `seen` writes of it. -/
inductive Hook
  | idle
  | adding (skb : Packet) (count : UInt32) (seen : Nat)

/-- The counter and the hooks; the packets that have been accepted, and the writes of `count`. -/
structure Counter where
  count : UInt32
  hooks : Nat → Hook
  accepted : List Packet
  additions : List Addition

/-- One hook goes on. -/
def Counter.move (c : Counter) (h : Nat) (hook : Hook) : Counter := { c with hooks := Function.update c.hooks h hook }

/-- A step of a hook. A packet has at least the 20 bytes of its header. -/
inductive Counter.Step : Counter → Counter → Prop
  | other {c : Counter} (h : Nat) (skb : Packet) : c.hooks h = .idle → skb.protocol ≠ ipprotoUdp →
      Step c { c with accepted := c.accepted ++ [skb] }
  | read {c : Counter} (h : Nat) (skb : Packet) : c.hooks h = .idle → skb.protocol = ipprotoUdp → 20 ≤ skb.len →
      Step c (c.move h (.adding skb c.count c.additions.length))
  | write {c : Counter} (h : Nat) {skb : Packet} {count : UInt32} {seen : Nat} :
      c.hooks h = .adding skb count seen →
      Step c { c.move h .idle with
        count := count + skb.len, accepted := c.accepted ++ [skb], additions := c.additions ++ [⟨seen, skb.len.toNat⟩] }

/-- The module has been loaded. -/
def hooks : System Counter where
  init c := c = ⟨0, fun _ => .idle, [], []⟩
  step := Counter.Step

variable {c c' : Counter} {h : Nat} {skb : Packet} {hook : Hook}

/-- With nothing in between, a hook does what `vincentDropUdpOutput` does. -/
theorem alone_output (hidle : c.hooks h = .idle) (hlen : 20 ≤ skb.len) : ∃ c', hooks.Run c c' ∧
    c'.count = (vincentDropUdpOutput c.count skb).2 ∧ c'.hooks = c.hooks ∧ c'.accepted = c.accepted ++ [skb] := by
  by_cases hudp : skb.protocol = ipprotoUdp
  · have h₁ : hooks.Run c _ := .single (.read h skb hidle hudp hlen)
    refine ⟨_, h₁.tail (.write h (Function.update_self ..)), ?_, ?_, rfl⟩
    · rw [vincentDropUdpOutput, if_pos hudp]
    · exact update_back hidle _
  · refine ⟨_, .single (.other h skb hidle hudp), ?_, rfl, rfl⟩
    rw [vincentDropUdpOutput, if_neg hudp]

/-! ## What is counted -/

/-- A number of 32 bits that the additions make. -/
def Made (additions : List Addition) (count : UInt32) : Prop := ∃ n, count.toNat = n % 2 ^ 32 ∧ Sums additions n

/-- What a hook has read. -/
def Hook.Read (additions : List Addition) : Hook → Prop
  | .idle => True
  | .adding skb count seen =>
    skb.protocol = ipprotoUdp ∧ 20 ≤ skb.len ∧ seen ≤ additions.length ∧ Made (additions.take seen) count

/-- `count` is what the additions make of it, and they are those of the accepted packets. -/
structure Counted (c : Counter) : Prop where
  count : Made c.additions c.count
  read : ∀ h, (c.hooks h).Read c.additions
  total : added c.additions = total c.accepted

theorem Hook.Read.snoc {additions : List Addition} (hr : hook.Read additions) (a : Addition) :
    hook.Read (additions ++ [a]) := by
  cases hook with
  | idle => trivial
  | adding skb count seen =>
    obtain ⟨hudp, hlen, hseen, n, hn, hsums⟩ := hr
    exact ⟨hudp, hlen, by rw [List.length_append]; omega, n, hn, hsums.grow hseen _⟩

theorem total_snoc (skbs : List Packet) (skb : Packet) : total (skbs ++ [skb]) = total skbs + udpLen skb := by
  rw [total_append]
  simp [total]

theorem read_set (hr : ∀ h, (c.hooks h).Read c.additions) (hnew : hook.Read c.additions) (h h' : Nat) :
    (Function.update c.hooks h hook h').Read c.additions :=
  (Function.forall_update_iff c.hooks fun _ hook => hook.Read c.additions).mpr ⟨hnew, fun h' _ => hr h'⟩ h'

theorem counted_step (hc : Counted c) (hs : Counter.Step c c') : Counted c' := by
  cases hs with
  | other h skb hl hother =>
    refine ⟨hc.count, hc.read, ?_⟩
    rw [total_snoc, ← hc.total, udpLen, if_neg hother, Nat.add_zero]
  | read h skb hl hudp hlen =>
    obtain ⟨n, hn, hsums⟩ := hc.count
    refine ⟨hc.count, read_set hc.read ?_ h, hc.total⟩
    exact ⟨hudp, hlen, le_rfl, n, hn, hsums.read⟩
  | @write h skb count seen hl =>
    have hread := hc.read h
    rw [hl] at hread
    obtain ⟨hudp, hlen, hseen, n, hn, hy⟩ := hread
    obtain ⟨m, -, hsums⟩ := hc.count
    have hlen : 20 ≤ skb.len.toNat := UInt32.le_iff_toNat_le.mp hlen
    refine ⟨⟨n + skb.len.toNat, ?_, hsums.write hseen hy (by omega)⟩, fun h' => ?_, ?_⟩
    · rw [UInt32.toNat_add, hn, Nat.mod_add_mod]
    · exact (read_set hc.read (by trivial) h h').snoc _
    · rw [total_snoc, ← hc.total, udpLen, if_pos hudp, added_append]
      rfl

theorem counted_invariant : hooks.Invariant Counted where
  init := by
    rintro _ rfl
    exact ⟨⟨0, rfl, sums_nil⟩, fun _ => trivial, rfl⟩
  step _ _ := counted_step

/-! ## What is shown -/

/-- Below `2^31`. -/
theorem shown_of_made {additions : List Addition} {count : UInt32} (hm : Made additions count)
    (hsmall : added additions < 2 ^ 31) : 0 ≤ dropCountShow count ∧ dropCountShow count ≤ added additions ∧
      (dropCountShow count = added additions ↔ Successive additions) := by
  obtain ⟨n, hn, hsums⟩ := hm
  have hle := hsums.le
  rw [Nat.mod_eq_of_lt (by omega)] at hn
  rw [dropCountShow_eq, hn, if_pos (by omega), Nat.cast_le, Nat.cast_inj]
  exact ⟨Int.natCast_nonneg n, hle, hsums.exact⟩

theorem additions_step (hs : Counter.Step c c') : c.additions <+: c'.additions ∧ c.accepted <+: c'.accepted := by
  cases hs with
  | other | write => exact ⟨by simp, List.prefix_append _ _⟩
  | read => exact ⟨List.prefix_refl _, List.prefix_refl _⟩

/-- A run only adds. -/
theorem additions_run (hr : hooks.Run c c') : c.additions <+: c'.additions ∧ c.accepted <+: c'.accepted := by
  induction hr with
  | refl => exact ⟨List.prefix_refl _, List.prefix_refl _⟩
  | tail _ hs ih =>
    have hstep := additions_step hs
    exact ⟨ih.1.trans hstep.1, ih.2.trans hstep.2⟩

/-- **The hooks race**, in every interleaving: along a run whose total stays below `2^31`, what is shown is never more than
the total of the accepted UDP packets, and it is that total exactly when every addition read what the one before it had
written. Where it is the total, it was the total all along, and has not decreased. -/
theorem hooks_race (hr : hooks.Reachable c) (hrun : hooks.Run c c') (hsmall : total c'.accepted < 2 ^ 31) :
    0 ≤ dropCountShow c'.count ∧ dropCountShow c'.count ≤ total c'.accepted ∧
    (dropCountShow c'.count = total c'.accepted ↔ Successive c'.additions) ∧
    (dropCountShow c'.count = total c'.accepted →
      dropCountShow c.count = total c.accepted ∧ dropCountShow c.count ≤ dropCountShow c'.count) := by
  have hc := counted_invariant.reachable hr
  have hc' := counted_invariant.reachable (hr.run hrun)
  obtain ⟨hpre, hskbs⟩ := additions_run hrun
  have hle := total_prefix hskbs
  obtain ⟨hnonneg, hshown, hiff⟩ := shown_of_made hc'.count (by rw [hc'.total]; exact hsmall)
  rw [hc'.total] at hshown hiff
  refine ⟨hnonneg, hshown, hiff, fun hall => ?_⟩
  obtain ⟨-, -, hiff'⟩ := shown_of_made hc.count (by rw [hc.total]; omega)
  rw [hc.total] at hiff'
  have hbefore := hiff'.mpr ((hiff.mp hall).initial hpre)
  refine ⟨hbefore, ?_⟩
  rw [hbefore, hall]
  exact_mod_cast hle

/-- Hooks 0 and 1 read `count` at once: 20 of 120 bytes are shown, and after 100 were, the number decreases. -/
theorem hooks_race_overlap : ∃ c c', hooks.Reachable c ∧ hooks.Run c c' ∧ dropCountShow c.count = 100 ∧
    dropCountShow c'.count = 20 ∧ total c'.accepted = 120 ∧ ¬ Successive c'.additions := by
  have h₀ : hooks.Reachable ⟨0, fun _ => .idle, [], []⟩ := .init rfl
  have h₁ := h₀.step (.read 0 ⟨ipprotoUdp, 20⟩ rfl rfl (by decide))
  have h₂ := (h₁.step (.read 1 ⟨ipprotoUdp, 100⟩ rfl rfl (by decide))).step (.write 1 rfl)
  obtain ⟨-, -, hiff, -⟩ := hooks_race h₂ (.single (.write 0 rfl)) (by decide)
  exact ⟨_, _, h₂, .single (.write 0 rfl), rfl, rfl, rfl, fun hsuc => absurd (hiff.mpr hsuc) (by decide)⟩

end SideWork.KernelModule
