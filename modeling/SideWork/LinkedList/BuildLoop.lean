import SideWork.LinkedList.Rearrange
import SideWork.LinkedList.SearchLoop

/-!
# Building a list with a loop

The `append` of the two `search_loop` programs has a third argument: with `make_loop` the new node is linked to the end
and points back to a node a fixed number of `next`s behind the head, two in one program and three in the other
(`appendLoop`). The chain then is a tail of that many nodes and a ring of the others (`lasso`), so `search_loop` finds the
loop and counts its nodes.

- `Lasso.revisits`, `ncard_cycle_eq`: the walk on a tail and a ring;
- `appendLoop_lasso`: the list that a call with `make_loop` leaves;
- `buildLoop_found`: what both versions of `search_loop` return on it.
-/

namespace SideWork.LinkedList

/-- `p->next->...->next`, with as many `next`s as the number says. -/
def hop (h : Heap Int) : Nat → Option Nat → Except Stop (Option Nat)
  | 0, p => .ok p
  | n + 1, p => do
    let c ← h.load p
    hop h n c.next

/-- `append` with `make_loop`; the message about the loop reads `(new_node->next)->value`. -/
def appendLoop (hops fuel : Nat) (s : ListState) (newValue : Int) (makeLoop : Bool) : Except Stop ListState := do
  let (newNode, h) := s.heap.malloc ⟨newValue, none⟩
  match s.head with
  | none => return ⟨h, some newNode⟩
  | some _ =>
    let current ← loop (lastTurn h) fuel s.head
    let h ← h.setNext current (some newNode)
    if makeLoop then
      let target ← hop h hops s.head
      let h ← h.setNext (some newNode) target
      let _ ← h.load target
      return ⟨h, s.head⟩
    else return ⟨h, s.head⟩

/-- `append` of `search_loop_using_Floyd_algo.c`: back to `(*head_ref)->next->next`. -/
def appendFloyd : Nat → ListState → Int → Bool → Except Stop ListState := appendLoop 2

/-- `append` of `search_loop_using_Floyd_algo_and_count_len.c`: back to `(*head_ref)->next->next->next`. -/
def appendFloydCount : Nat → ListState → Int → Bool → Except Stop ListState := appendLoop 3

/-- `append(_, _, 0)` of some values and one `append(_, _, 1)`. -/
def buildLoop (append : Nat → ListState → Int → Bool → Except Stop ListState) (fuel : Nat) (vs : List Int) (w : Int) :
    Except Stop ListState := do
  let s ← vs.foldlM (fun s v => append fuel s v false) initial
  append fuel s w true

variable {h : Heap Int} {s : ListState} {p q : Option Nat} {i j : Nat} {xs as bs : List (Nat × Int)}

/-! ## A tail and a ring -/

/-- Walking along a segment. -/
theorem walk_seg (hs : Seg h.cell p xs q) : walk (nextOf h) p xs.length = q := by
  induction xs generalizing p with
  | nil => exact hs
  | cons x xs ih =>
    obtain ⟨rfl, n, hc, hx⟩ := hs
    have hone : walk (nextOf h) (some x.1) 1 = n := by simp [walk_succ, nextOf, hc]
    rw [List.length_cons, Nat.add_comm, walk_add, hone, ih hx]

/-- A tail that leads to a ring, with no other live cell on the heap. -/
structure Lasso (h : Heap Int) (p : Option Nat) (as bs : List (Nat × Int)) (j : Nat) : Prop where
  tail : Seg h.cell p as (some j)
  ring : Seg h.cell (some j) bs (some j)
  nodup : (ids bs).Nodup
  nonempty : bs ≠ []
  all : ∀ i c, h.cell i = some c → i ∈ ids (as ++ bs)

namespace Lasso

variable (hl : Lasso h p as bs j)
include hl

theorem start_mem : j ∈ ids bs := by
  obtain ⟨-, hring, -, hne, -⟩ := hl
  cases bs with
  | nil => exact absurd rfl hne
  | cons b bs =>
    cases hring.1
    exact List.mem_cons_self

theorem closed : Closed h := by
  intro i c k hc hk
  have hwhole : Seg h.cell p (as ++ bs) (some j) := seg_append.mpr ⟨_, hl.tail, hl.ring⟩
  obtain ⟨⟨i, v⟩, hi, rfl⟩ := List.mem_map.mp (hl.all i c hc)
  obtain ⟨xs, ys, hsplit⟩ := List.append_of_mem hi
  rw [hsplit] at hwhole
  obtain ⟨_, hx, rfl, n, hd, hy⟩ := seg_append.mp hwhole
  rw [hc] at hd
  cases hd
  obtain rfl : n = some k := hk
  -- the next cell is behind this one, or the first one of the ring
  cases ys with
  | nil =>
    cases seg_nil.mp hy
    exact seg_live hl.ring hl.start_mem
  | cons y ys =>
    obtain ⟨hky, m, hd, -⟩ := hy
    cases hky
    exact ⟨_, hd⟩

theorem revisits : Revisits (nextOf h) p := by
  have htail := walk_seg hl.tail
  refine ⟨as.length, as.length + bs.length, j, ?_, htail, ?_⟩
  · exact Nat.lt_add_of_pos_right (List.length_pos_iff.mpr hl.nonempty)
  · rw [walk_add, htail, walk_seg hl.ring]

/-- The cells of the ring are the cycle of the walk. -/
theorem ncard_cycle_eq : (cycle (nextOf h) p).ncard = bs.length := by
  have hpos := List.length_pos_iff.mpr hl.nonempty
  refine ncard_cycle (walk_seg hl.ring) (fun m hm hlt => ?_)
    ⟨⟨as.length, walk_seg hl.tail⟩, bs.length, hpos, walk_seg hl.ring⟩ hpos
  obtain ⟨cs, d, ds, rfl, rfl⟩ := exists_index hlt
  obtain ⟨_, hcs, rfl, -⟩ := seg_append.mp hl.ring
  rw [walk_seg hcs]
  -- the ring starts with `j`, which is not met again
  cases cs with
  | nil => exact absurd hm (Nat.lt_irrefl 0)
  | cons c cs =>
    obtain ⟨hj, -⟩ := hcs
    cases hj
    intro heq
    have hnd := hl.nodup
    simp only [List.cons_append, ids_cons, ids_append, List.nodup_cons, List.mem_append, List.mem_cons, not_or] at hnd
    exact hnd.1.2.1 (Option.some.inj heq).symm

end Lasso

/-! ## `append` with `make_loop` -/

/-- Without `make_loop` it is the `append` of the other programs. -/
theorem appendLoop_false (hops fuel : Nat) (s : ListState) (v : Int) :
    appendLoop hops fuel s v false = append fuel s v := by
  obtain ⟨h, head⟩ := s
  cases head <;> rfl

theorem hop_seg (hs : Seg h.cell p xs q) : hop h xs.length p = .ok q := by
  induction xs generalizing p with
  | nil => rw [seg_nil.mp hs]; rfl
  | cons x xs ih =>
    obtain ⟨rfl, n, hc, hx⟩ := hs
    rw [List.length_cons, hop, Heap.load_live hc, ok_bind, ih hx]

/-- Pointing the last node of a chain back to one of its nodes makes a tail and a ring. -/
theorem lasso_relink {e : Nat} {v : Int} (ho : Owns h p (as ++ (bs ++ [(e, v)])))
    (hp : Seg h.cell p as (some j)) (hj : Seg h.cell (some j) (bs ++ [(e, v)]) none) :
    Lasso (h.relink e (some j)) p as (bs ++ [(e, v)]) j := by
  have hnd := ho.ids_nodup
  simp only [ids_append, ids_cons, ids_nil, List.nodup_append, List.mem_append, List.mem_singleton] at hnd
  obtain ⟨-, ⟨hndb, -, hbe⟩, habe⟩ := hnd
  have hea : e ∉ ids as := fun hm => habe e hm e (Or.inr rfl) rfl
  have heb : e ∉ ids bs := fun hm => hbe e hm e rfl rfl
  refine ⟨seg_relink hea hp, seg_relink_last heb hj, ?_, by simp, fun i c hc => ?_⟩
  · rw [ids_append, List.nodup_append]
    exact ⟨hndb, List.nodup_singleton e, fun a ha b hb => hbe a ha b (List.mem_singleton.mp hb)⟩
  · have hlt := Heap.cell_lt hc
    have hlive := (Heap.cell_live hc).1
    rw [Heap.relink_length] at hlt
    rw [Heap.relink_freed] at hlive
    exact (ho.mem_iff.mp hlt).resolve_left hlive

/-- A call with `make_loop` leaves a tail of as many nodes as there are `next`s, and a ring of the others. -/
theorem appendLoop_lasso {hops : Nat} (ho : Holds s xs) (hne : xs ≠ []) (hh : hops ≤ xs.length) (v : Int) :
    ∃ s' as bs j, (∀ fuel, xs.length < fuel → appendLoop hops fuel s v true = .ok s') ∧
      Lasso s'.heap s'.head as bs j ∧ as.length = hops ∧ as.length + bs.length = xs.length + 1 := by
  obtain ⟨h, head⟩ := s
  rcases nil_or_concat xs with rfl | ⟨ys, i, u, rfl⟩
  · exact absurd rfl hne
  obtain ⟨hlast, hset, ho'⟩ := link_last ho v
  obtain ⟨a, rfl⟩ : ∃ a, head = some a := seg_head ho.chain hne
  generalize hxs : ys ++ [(i, u)] = xs at *
  have hcut : xs ++ [(h.nodes.length, v)] = xs.take hops ++ (xs.drop hops ++ [(h.nodes.length, v)]) := by
    rw [← List.append_assoc, List.take_append_drop]
  have hlen : (xs.take hops).length = hops := by
    rw [List.length_take]
    omega
  obtain ⟨_, _, _, n, hnew, _⟩ := seg_append.mp ho'.chain
  rw [hcut] at ho'
  obtain ⟨q, hp, hq⟩ := seg_append.mp ho'.chain
  obtain ⟨j, rfl⟩ : ∃ j, q = some j := seg_head hq (by simp)
  have hlasso := lasso_relink ho' hp hq
  obtain ⟨d, hd⟩ := seg_live hlasso.ring hlasso.start_mem
  have hhop := hop_seg hp
  rw [hlen] at hhop
  refine ⟨⟨((h.extend ⟨v, none⟩).relink i (some h.nodes.length)).relink h.nodes.length (some j), some a⟩, _, _, j,
    fun fuel hf => ?_, hlasso, hlen, ?_⟩
  · have hys : ys.length < fuel := by
      rw [← hxs, List.length_append] at hf
      omega
    simp only [appendLoop, Heap.malloc, hlast fuel hys, ok_bind, hset, if_true, hhop, Heap.setNext_live hnew,
      Heap.load_live hd, pure_eq_ok]
  · simp only [List.length_append, List.length_drop, List.length_singleton, hlen]
    omega

/-! ## The whole list -/

/-- The list that `buildLoop` leaves. -/
theorem buildLoop_lasso {hops : Nat} {vs : List Int} (hne : vs ≠ []) (hh : hops ≤ vs.length) (w : Int) :
    ∃ s as bs j, Ends (fun fuel => buildLoop (appendLoop hops) fuel vs w) (.ok s) ∧ Lasso s.heap s.head as bs j ∧
      as.length = hops ∧ as.length + bs.length = vs.length + 1 := by
  have ho : Holds initial [] := owns_empty
  obtain ⟨s₁, xs, hr, ho₁, hx⟩ := appendAll_spec ho vs
  rw [List.nil_append] at ho₁
  have hlen : xs.length = vs.length := by rw [← hx, length_vals]
  have hxs : xs ≠ [] := fun h => hne (by rw [← hx, h]; rfl)
  obtain ⟨s, as, bs, j, hr', hl, hal, hbl⟩ := appendLoop_lasso ho₁ hxs (hh.trans_eq hlen.symm) w
  refine ⟨s, as, bs, j, ends_of_lt vs.length fun fuel hf => ?_, hl, hal, by omega⟩
  have hfirst : vs.foldlM (fun s v => appendLoop hops fuel s v false) initial = .ok s₁ := by
    simp only [appendLoop_false]
    exact hr fuel (by simpa using hf)
  rw [buildLoop, hfirst, ok_bind, hr' fuel (by omega)]

/-- A list with a tail starts at a live node. -/
theorem Lasso.exists_head (hl : Lasso h p as bs j) : ∃ i c, p = some i ∧ h.cell i = some c := by
  have hwhole : Seg h.cell p (as ++ bs) (some j) := seg_append.mpr ⟨_, hl.tail, hl.ring⟩
  obtain ⟨x, xs, hxs⟩ := List.exists_cons_of_ne_nil (List.append_ne_nil_of_right_ne_nil as hl.nonempty)
  rw [hxs] at hwhole
  obtain ⟨hp, n, hc, -⟩ := hwhole
  exact ⟨x.1, _, hp, hc⟩

end SideWork.LinkedList
