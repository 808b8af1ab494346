import SideWork.Lib.Bytes

/-!
# The port file of `drop_UDP`

`/proc/drop_udp/drop_port` is read with `port_show` and written with `port_write`. A write takes a new cell for the
global pointer `port` before it checks anything, so that a write it refuses leaves the pointer at a cell that was never
written.

- `portWrite_refused`, `portWrite_accepted`, `portWrite_crashed`: what a write can do;
- `lawful_iff`: the port file keeps its law along a history exactly when the history does not begin with a read and
  every write in it is carried out;
- `contained_iff`: what a write may hold so that it stays within `buf` and within what the user wrote, whatever the stack
  holds.
-/

namespace SideWork.KernelModule

/-- The global pointer `port`: `NULL`, or a cell that may never have been written. -/
structure State where
  port : Option (Option Nat)
  deriving DecidableEq, Repr

/-- The module after it has been loaded. -/
def loaded : State := ⟨none⟩

/-- A call of `port_write`: `*pos`, the `ubuf_size` bytes of the user, whether `copy_from_user` fails, having copied
nothing, and what the stack holds where `buf` will be. -/
structure Write where
  pos : Int
  ubuf : List UInt8
  fault : Bool
  stack : List UInt8
  stack_length : stack.length = 128
  deriving DecidableEq, Repr

/-- `buf` after the copy. -/
def Write.buf (w : Write) : List UInt8 := w.ubuf ++ w.stack.drop w.ubuf.length

/-- `isspace` of the kernel. -/
def isspace (b : UInt8) : Bool := (9 ≤ b && b ≤ 13) || b == 32 || b == 160

def isdigit (b : UInt8) : Bool := 48 ≤ b && b ≤ 57

/-- The number that decimal digits spell. -/
def decimal (bs : List UInt8) : Nat := bs.foldl (fun n b => 10 * n + (b.toNat - 48)) 0

/-- `sscanf(buf, "%u", ..)`: the stored number when it returns 1. Spaces are skipped, then digits are taken up to the
first other character; the value is cut to 32 bits. -/
def sscanf (buf : List UInt8) : Except Stop (Option Nat) :=
  match buf.dropWhile isspace with
  | [] => .error .outOfBounds
  | b :: bs =>
    if isdigit b then
      if (b :: bs).all isdigit then .error .outOfBounds
      else .ok (some (decimal ((b :: bs).takeWhile isdigit) % 2 ^ 32))
    else .ok none

/-- `strlen`. -/
def strlen (buf : List UInt8) : Except Stop Nat := do
  let bs ← loadString buf 0
  return bs.length

def efault : Int := 14

/-- `port_write`. -/
def portWrite (w : Write) (_s : State) : Except Stop (Int × State) :=
  -- the old cell, if there is one, is lost here
  let s : State := ⟨some none⟩
  if w.pos > 0 ∨ w.ubuf.length > 1024 then return (-efault, s)
  else if w.fault then return (-efault, s)
  -- `buf` has 128 bytes
  else if w.ubuf.length > 128 then .error .outOfBounds
  else do
    match ← sscanf w.buf with
    | none => return (-efault, s)
    | some n =>
      let s : State := ⟨some (some n)⟩
      let len ← strlen w.buf
      return ((len : Int), s)

/-- `port_show`: the number it prints. -/
def portShow (s : State) : Except Stop Nat :=
  match s.port with
  | none => .error .nullDeref
  | some none => .error .uninitialised
  | some (some n) => .ok n

/-! ## What a write can do -/

theorem sscanf_error {buf : List UInt8} {e : Stop} (h : sscanf buf = .error e) : e = .outOfBounds := by
  unfold sscanf at h
  split at h
  · exact (Except.error.inj h).symm
  · split at h
    · split at h
      · exact (Except.error.inj h).symm
      · cases h
    · cases h

/-- A write that returns an error: not the first of the open file, too long, not readable, or without a number. -/
def Refused (w : Write) : Prop :=
  0 < w.pos ∨ 1024 < w.ubuf.length ∨ w.fault = true ∨ (w.ubuf.length ≤ 128 ∧ sscanf w.buf = .ok none)

/-- A write of the number `n`. -/
structure Accepted (w : Write) (n : Nat) : Prop where
  pos : w.pos ≤ 0
  size : w.ubuf.length ≤ 128
  copied : w.fault = false
  number : sscanf w.buf = .ok (some n)
  terminated : 0 ∈ w.buf

variable {w : Write} {s : State}

theorem portWrite_refused (h : Refused w) : portWrite w s = .ok (-efault, ⟨some none⟩) := by
  unfold portWrite
  by_cases hpos : w.pos > 0 ∨ w.ubuf.length > 1024
  · rw [if_pos hpos]
    rfl
  rw [if_neg hpos]
  by_cases hfault : w.fault = true
  · rw [if_pos hfault]
    rfl
  rw [if_neg hfault]
  obtain ⟨hsize, hnone⟩ : w.ubuf.length ≤ 128 ∧ sscanf w.buf = .ok none := by
    rcases h with h | h | h | h
    · exact absurd (Or.inl h) hpos
    · exact absurd (Or.inr h) hpos
    · exact absurd h hfault
    · exact h
  rw [if_neg (by omega), hnone]
  rfl

theorem portWrite_accepted {n : Nat} (h : Accepted w n) :
    portWrite w s = .ok (((w.buf.takeWhile (· ≠ 0)).length : Int), ⟨some (some n)⟩) := by
  obtain ⟨hpos, hsize, hcopied, hnumber, hterm⟩ := h
  have hno : ¬ (w.pos > 0 ∨ w.ubuf.length > 1024) := by omega
  have hlen : strlen w.buf = .ok (w.buf.takeWhile (· ≠ 0)).length := by
    simp [strlen, loadString, hterm]
  unfold portWrite
  rw [if_neg hno, hcopied, if_neg Bool.false_ne_true, if_neg (by omega), hnumber]
  simp only [ok_bind, hlen, pure_eq_ok]

theorem portWrite_crashed (hr : ¬ Refused w) (ha : ∀ n, ¬ Accepted w n) : portWrite w s = .error .outOfBounds := by
  unfold Refused at hr
  push Not at hr
  obtain ⟨hpos, hlong, hcopied, hnumber⟩ := hr
  have hno : ¬ (w.pos > 0 ∨ w.ubuf.length > 1024) := by omega
  unfold portWrite
  rw [if_neg hno, if_neg hcopied]
  by_cases hsize : w.ubuf.length > 128
  · rw [if_pos hsize]
  · rw [if_neg hsize]
    cases hscan : sscanf w.buf with
    | error e =>
      have he : e = .outOfBounds := sscanf_error hscan
      rw [he]
      rfl
    | ok r =>
      cases r with
      | none => exact absurd hscan (hnumber (by omega))
      | some n =>
        have hterm : 0 ∉ w.buf := by
          intro hz
          exact ha n ⟨hpos, by omega, by simpa using hcopied, hscan, hz⟩
        simp [strlen, loadString, hterm]

/-! ## Histories -/

/-- A call on the port file: `port_write`, or `port_show` for a read. -/
inductive Op
  | write (w : Write)
  | read

/-- The number a write holds, if it holds one. -/
def parsed (w : Write) : Option Nat :=
  match sscanf w.buf with
  | .ok r => r
  | .error _ => none

/-- The law of the port file, from a state on in which `last` is the number of the most recent write that returned a
non-negative value: a read shows that number, and a write comes to a result and, if that is an error, changes nothing of
what is shown. -/
def LawfulFrom (last : Option Nat) (s : State) : List Op → Prop
  | [] => True
  | .read :: ops => (∃ n, last = some n ∧ portShow s = .ok n) ∧ LawfulFrom last s ops
  | .write w :: ops => ∃ ret s', portWrite w s = .ok (ret, s') ∧
      (ret < 0 → portShow s' = portShow s) ∧ LawfulFrom (if 0 ≤ ret then parsed w else last) s' ops

/-- The law from the loading of the module on. -/
def Lawful (ops : List Op) : Prop := LawfulFrom none loaded ops

/-- Every write is carried out. -/
def EachAccepted (ops : List Op) : Prop := ∀ w, .write w ∈ ops → ∃ n, Accepted w n

theorem eachAccepted_read {ops : List Op} : EachAccepted (.read :: ops) ↔ EachAccepted ops := by
  simp [EachAccepted]

theorem eachAccepted_write {ops : List Op} :
    EachAccepted (.write w :: ops) ↔ (∃ n, Accepted w n) ∧ EachAccepted ops := by
  simp [EachAccepted, or_imp, forall_and]

/-- A write into a file that can be read. -/
theorem lawful_write_iff {last : Option Nat} {ops : List Op} (hs : portShow s ≠ .error .uninitialised)
    (ih : ∀ n, LawfulFrom (some n) ⟨some (some n)⟩ ops ↔ EachAccepted ops) :
    LawfulFrom last s (.write w :: ops) ↔ EachAccepted (.write w :: ops) := by
  rw [eachAccepted_write]
  constructor
  · rintro ⟨ret, s', hw, hshow, hrest⟩
    by_cases hr : Refused w
    · -- the pointer is at a cell that was never written
      rw [portWrite_refused hr] at hw
      obtain ⟨rfl, rfl⟩ := Prod.mk.inj (Except.ok.inj hw)
      exact absurd (hshow (by decide)).symm hs
    by_cases ha : ∃ n, Accepted w n
    · obtain ⟨n, ha⟩ := ha
      have hparsed : parsed w = some n := by simp [parsed, ha.number]
      rw [portWrite_accepted ha] at hw
      obtain ⟨rfl, rfl⟩ := Prod.mk.inj (Except.ok.inj hw)
      rw [if_pos (by omega), hparsed] at hrest
      exact ⟨⟨n, ha⟩, (ih n).mp hrest⟩
    · rw [portWrite_crashed hr fun n hn => ha ⟨n, hn⟩] at hw
      cases hw
  · rintro ⟨⟨n, ha⟩, hrest⟩
    have hparsed : parsed w = some n := by simp [parsed, ha.number]
    refine ⟨_, _, portWrite_accepted ha, fun hneg => by omega, ?_⟩
    rw [if_pos (by omega), hparsed]
    exact (ih n).mpr hrest

/-- After a number has been written. -/
theorem lawfulFrom_iff (ops : List Op) : ∀ n, LawfulFrom (some n) ⟨some (some n)⟩ ops ↔ EachAccepted ops := by
  induction ops with
  | nil => exact fun n => ⟨fun _ => nofun, fun _ => trivial⟩
  | cons op ops ih =>
    intro n
    cases op with
    | read =>
      rw [eachAccepted_read]
      exact ⟨fun h => (ih n).mp h.2, fun h => ⟨⟨n, rfl, rfl⟩, (ih n).mpr h⟩⟩
    | write w => exact lawful_write_iff (by simp [portShow]) ih

/-- **The law of the port file.** -/
theorem lawful_iff (ops : List Op) : Lawful ops ↔ (∀ rest, ops ≠ .read :: rest) ∧ EachAccepted ops := by
  unfold Lawful
  cases ops with
  | nil => exact ⟨fun _ => ⟨fun rest h => (nomatch h), nofun⟩, fun _ => trivial⟩
  | cons op ops =>
    cases op with
    | read =>
      constructor
      · rintro ⟨⟨n, hn, _⟩, _⟩
        cases hn
      · intro h
        exact absurd rfl (h.1 ops)
    | write w =>
      rw [lawful_write_iff (by simp [portShow, loaded]) (lawfulFrom_iff ops)]
      exact ⟨fun h => ⟨fun rest hn => (nomatch hn), h⟩, fun h => h.2⟩

/-- `8080` and a newline, written to a file just opened. -/
def write8080 : Write := ⟨0, [56, 48, 56, 48, 10], false, List.replicate 128 0, List.length_replicate⟩

/-- The same bytes once more, now behind the first. -/
def writeAgain : Write := { write8080 with pos := 5 }

/-- The second write returns `-EFAULT`, and the port can no longer be read. -/
theorem writeAgain_not_lawful :
    portWrite write8080 loaded = .ok (5, ⟨some (some 8080)⟩) ∧
    portWrite writeAgain ⟨some (some 8080)⟩ = .ok (-14, ⟨some none⟩) ∧
    portShow ⟨some none⟩ = .error .uninitialised ∧
    ¬ Lawful [.write write8080, .write writeAgain, .read] := by
  have h₁ : portWrite write8080 loaded = .ok (5, ⟨some (some 8080)⟩) := by decide +kernel
  have h₂ : portWrite writeAgain ⟨some (some 8080)⟩ = .ok (-14, ⟨some none⟩) := by decide
  refine ⟨h₁, h₂, rfl, ?_⟩
  rintro ⟨ret, s, hw, -, ret', s', hw', hshow, -⟩
  obtain ⟨rfl, rfl⟩ := Prod.mk.inj (Except.ok.inj (h₁.symm.trans hw))
  obtain ⟨rfl, rfl⟩ := Prod.mk.inj (Except.ok.inj (h₂.symm.trans hw'))
  cases hshow (by decide)

/-! ## What the stack holds -/

/-- The checks of `port_write` that come before it looks at the bytes. -/
structure Passes (w : Write) : Prop where
  pos : w.pos ≤ 0
  size : w.ubuf.length ≤ 1024
  copied : w.fault = false

/-- A write that stays within `buf` and within the user's bytes: they fit, the parsed port does not depend on what the
stack held before, and whatever it held, the write comes to a result that is at most the number of bytes. -/
structure Contained (w : Write) : Prop where
  fits : w.ubuf.length ≤ 128
  port : ∀ stack stack' (h : stack.length = 128) (h' : stack'.length = 128),
    sscanf { w with stack := stack, stack_length := h }.buf = sscanf { w with stack := stack', stack_length := h' }.buf
  count : ∀ stack (h : stack.length = 128) (s : State), ∃ ret s',
    portWrite { w with stack := stack, stack_length := h } s = .ok (ret, s') ∧ ret ≤ w.ubuf.length

/-- The bytes end the string, or do not start with a number. -/
def Settled (bs : List UInt8) : Prop := 0 ∈ bs ∨ ∃ b, (bs.dropWhile isspace).head? = some b ∧ isdigit b = false

theorem mem_zero_dropWhile {bs : List UInt8} (h : 0 ∈ bs) : 0 ∈ bs.dropWhile isspace := by
  rw [← List.takeWhile_append_dropWhile (p := isspace) (l := bs)] at h
  refine (List.mem_append.mp h).resolve_left fun hz => ?_
  cases show isspace 0 = true from List.mem_takeWhile_imp hz

section Scan

variable {bs ds : List UInt8} {b : UInt8}

/-- Behind the spaces, more bytes are still behind. -/
theorem dropWhile_append_cons (hdrop : bs.dropWhile isspace = b :: ds) (rest : List UInt8) :
    (bs ++ rest).dropWhile isspace = b :: (ds ++ rest) := by
  rw [List.dropWhile_append, hdrop]
  rfl

theorem sscanf_eq {buf : List UInt8} (hdrop : buf.dropWhile isspace = b :: ds) : sscanf buf =
    if isdigit b then
      if (b :: ds).all isdigit then .error .outOfBounds
      else .ok (some (decimal ((b :: ds).takeWhile isdigit) % 2 ^ 32))
    else .ok none := by
  rw [sscanf, hdrop]

/-- Without a digit in front, nothing behind matters. -/
theorem sscanf_other (hdrop : bs.dropWhile isspace = b :: ds) (hb : isdigit b = false) (rest : List UInt8) :
    sscanf (bs ++ rest) = .ok none := by
  rw [sscanf_eq (dropWhile_append_cons hdrop rest), hb]
  rfl

/-- The digits end at the `NUL` at the latest. -/
theorem sscanf_number (hdrop : bs.dropWhile isspace = b :: ds) (hb : isdigit b = true) (hz : 0 ∈ bs)
    (rest : List UInt8) : sscanf (bs ++ rest) = .ok (some (decimal ((b :: ds).takeWhile isdigit) % 2 ^ 32)) := by
  have hmem : 0 ∈ b :: ds := hdrop ▸ mem_zero_dropWhile hz
  have hall : (b :: (ds ++ rest)).all isdigit = false :=
    List.all_eq_false.mpr ⟨0, List.mem_append_left rest hmem, by simp [isdigit]⟩
  have htake : (b :: (ds ++ rest)).takeWhile isdigit = (b :: ds).takeWhile isdigit :=
    takeWhile_append_of_mem hmem rfl rest
  rw [sscanf_eq (dropWhile_append_cons hdrop rest), if_pos hb, hall, htake]
  rfl

/-- Behind settled bytes, `sscanf` does not get to anything. -/
theorem sscanf_append (h : Settled bs) : ∃ r, (0 ∉ bs → r = none) ∧ ∀ rest, sscanf (bs ++ rest) = .ok r := by
  obtain ⟨b, ds, hdrop⟩ : ∃ b ds, bs.dropWhile isspace = b :: ds := by
    rcases h with h | ⟨b, hb, -⟩
    · exact List.exists_cons_of_ne_nil (List.ne_nil_of_mem (mem_zero_dropWhile h))
    · exact ⟨b, _, List.eq_cons_of_mem_head? hb⟩
  cases hb : isdigit b with
  | false => exact ⟨none, fun _ => rfl, sscanf_other hdrop hb⟩
  | true =>
    have hz : 0 ∈ bs := by
      refine h.resolve_right ?_
      rintro ⟨c, hc, hnd⟩
      rw [hdrop] at hc
      cases hc
      rw [hb] at hnd
      cases hnd
    exact ⟨some _, fun hn => absurd hz hn, sscanf_number hdrop hb hz⟩

/-- With digits behind, `sscanf` refuses only what does not start with one. -/
theorem sscanf_digits (h : ∀ b, (bs.dropWhile isspace).head? = some b → isdigit b = true) {rest : List UInt8}
    (hrest : ∀ b ∈ rest, isdigit b = true) : sscanf (bs ++ rest) ≠ .ok none := by
  cases hdrop : (bs ++ rest).dropWhile isspace with
  | nil =>
    rw [sscanf, hdrop]
    nofun
  | cons b ds =>
    have hb : isdigit b = true := by
      rw [List.dropWhile_append] at hdrop
      cases hd : bs.dropWhile isspace with
      | nil =>
        simp only [hd, List.isEmpty_nil, if_true] at hdrop
        exact hrest b ((List.dropWhile_suffix isspace).subset (hdrop ▸ List.mem_cons_self))
      | cons c cs =>
        rw [hd] at hdrop
        obtain ⟨rfl, -⟩ := List.cons.inj hdrop
        exact h c (by rw [hd]; rfl)
    rw [sscanf_eq hdrop, if_pos hb]
    split <;> nofun

end Scan

/-- Settled bytes that fit into `buf`. -/
theorem contained_of_settled (hp : Passes w) (hsize : w.ubuf.length ≤ 128) (h : Settled w.ubuf) : Contained w := by
  obtain ⟨r, hr, hscan⟩ := sscanf_append h
  refine ⟨hsize, fun stack stack' _ _ => ?_, fun stack hstack s => ?_⟩
  · exact (hscan _).trans (hscan _).symm
  · have hnumber : sscanf { w with stack := stack, stack_length := hstack }.buf = .ok r := hscan _
    cases r with
    | none => exact ⟨_, _, portWrite_refused (.inr (.inr (.inr ⟨hsize, hnumber⟩))), by simp only [efault]; omega⟩
    | some n =>
      have hz : 0 ∈ w.ubuf := by
        by_contra hn
        cases hr hn
      have hterm : 0 ∈ { w with stack := stack, stack_length := hstack }.buf := List.mem_append_left _ hz
      refine ⟨_, _, portWrite_accepted ⟨hp.pos, hsize, hp.copied, hnumber, hterm⟩, ?_⟩
      have hle : (w.ubuf.takeWhile (· ≠ 0)).length ≤ w.ubuf.length := (List.takeWhile_prefix _).length_le
      rw [Write.buf, takeWhile_append_of_mem hz rfl]
      omega

/-- Without a `NUL` in `buf`, `sscanf` or `strlen` runs out of it unless the write is refused. -/
theorem portWrite_unterminated (hp : Passes w) (hzero : 0 ∉ w.buf) (hnumber : sscanf w.buf ≠ .ok none) (s : State) :
    portWrite w s = .error .outOfBounds := by
  refine portWrite_crashed ?_ fun n hn => hzero hn.terminated
  rintro (hpos | hlong | hfault | ⟨-, hnone⟩)
  · have hle := hp.pos
    omega
  · have hle := hp.size
    omega
  · rw [hp.copied] at hfault
    cases hfault
  · exact hnumber hnone

/-- Other bytes, on a stack full of digits. -/
theorem settled_of_contained (hp : Passes w) (h : Contained w) : Settled w.ubuf := by
  by_contra hns
  obtain ⟨hzero, hdigit⟩ := not_or.mp hns
  obtain ⟨ret, s', hrun, -⟩ := h.count (List.replicate 128 49) List.length_replicate loaded
  have hones : ∀ b ∈ (List.replicate 128 (49 : UInt8)).drop w.ubuf.length, b = 49 := fun b hb =>
    List.eq_of_mem_replicate (List.mem_of_mem_drop hb)
  have hterm : 0 ∉ w.ubuf ++ (List.replicate 128 49).drop w.ubuf.length := by
    intro hz
    rcases List.mem_append.mp hz with hz | hz
    · exact hzero hz
    · cases hones 0 hz
  have hnumber : sscanf (w.ubuf ++ (List.replicate 128 49).drop w.ubuf.length) ≠ .ok none := by
    refine sscanf_digits (fun b hb => ?_) fun b hb => ?_
    · by_contra hnd
      exact hdigit ⟨b, hb, by simpa using hnd⟩
    · rw [hones b hb]
      rfl
  have hcrash := @portWrite_unterminated { w with stack := List.replicate 128 49, stack_length := List.length_replicate }
    ⟨hp.pos, hp.size, hp.copied⟩ hterm hnumber loaded
  rw [hcrash] at hrun
  cases hrun

/-- **A write that passes the checks is contained** exactly when its bytes fit into `buf` and either hold a `NUL` or do
not start with a number. -/
theorem contained_iff (hp : Passes w) : Contained w ↔ w.ubuf.length ≤ 128 ∧ Settled w.ubuf :=
  ⟨fun h => ⟨h.fits, settled_of_contained hp h⟩, fun h => contained_of_settled hp h.1 h.2⟩

/-- `8080`, ended by a `NUL`. -/
theorem contained_terminated : Contained ⟨0, [56, 48, 56, 48, 0], false, List.replicate 128 7, List.length_replicate⟩ :=
  (contained_iff ⟨le_rfl, by simp, rfl⟩).mpr ⟨by simp, .inl (by simp)⟩

/-- `80` and a newline, as `echo` writes it, on a stack that holds an `A` behind them. -/
def write80 : Write := ⟨0, [56, 48, 10], false, List.replicate 4 65 ++ List.replicate 124 0, rfl⟩

/-- Three bytes were written, and the write returns 4. -/
theorem write80_not_contained : Passes write80 ∧ portWrite write80 loaded = .ok (4, ⟨some (some 80)⟩) ∧
    write80.ubuf.length = 3 ∧ ¬ Contained write80 := by
  have hrun : portWrite write80 loaded = .ok (4, ⟨some (some 80)⟩) := by decide +kernel
  refine ⟨⟨le_rfl, by simp [write80], rfl⟩, hrun, rfl, fun h => ?_⟩
  obtain ⟨ret, s', hret, hle⟩ := h.count write80.stack write80.stack_length loaded
  have hsame := hret.symm.trans hrun
  cases hsame
  simp [write80] at hle

end SideWork.KernelModule
