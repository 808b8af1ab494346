import SideWork.Lib.Bytes

/-!
# The first words of a route table

The program reads the output of `ip route show table main` with `fgets` and keeps the first word of each line in a row of
`tmp`, which has 100 rows of 20 bytes.

- `lines_text`: `fgets` gives the lines of a text whose lines fit into `buff`;
- `wordTurn_worded`, `wordTurn_stops`: one line;
- `main_text`, `firstWords`: the program comes to its end exactly when there are no more than 100 lines and each has a first word that
  fits into its row with a `NUL`, and then prints each line with its word.
-/

namespace SideWork.Process

def space : UInt8 := 32

def newline : UInt8 := 10

/-- `fgets(buff, n + 1, fp)`: the bytes up to a newline, but no more than `n`, and those behind. -/
def fgets : Nat → List UInt8 → List UInt8 × List UInt8
  | 0, bs => ([], bs)
  | _ + 1, [] => ([], [])
  | n + 1, b :: bs => if b = newline then ([b], bs) else (b :: (fgets n bs).1, (fgets n bs).2)

/-- `strchr(buff, ' ')`, as a distance from the start of the string. -/
def strchr (start : List UInt8) : Option Nat := start.findIdx? (· = space)

/-- What the program prints for a line. -/
def printWord (buff : List UInt8) (count : Nat) (word : List UInt8) : List UInt8 :=
  ascii "buff=" ++ buff ++ ascii ("tmp[" ++ toString count ++ "]=") ++ word ++ ascii "\n\n"

/-- What is still to be read, the variables, and what has been printed. -/
structure Scan where
  fp : List UInt8
  buff : List UInt8
  tmp : List (List UInt8)
  count : Nat
  out : List UInt8

/-- One turn of `while(fgets(buff, sizeof(buff), fp) != NULL)`. -/
def wordTurn (s : Scan) : Except Stop (Scan ⊕ List UInt8) :=
  if s.fp = [] then return .inr s.out
  else do
    let (line, rest) := fgets 127 s.fp
    let buff ← storeBytes s.buff 0 (line ++ [0])
    let start ← loadString buff 0
    match strchr start with
    -- `end` is `NULL`, and is not in one array with `start`
    | none => .error .nullDeref
    | some offset =>
      if s.count < s.tmp.length then do
        let row := List.replicate 20 0
        let row ← storeBytes row 0 (start.take offset)
        let word ← loadString row 0
        return .inl ⟨rest, buff, s.tmp.set s.count row, s.count + 1, s.out ++ printWord start s.count word⟩
      else .error .outOfBounds

/-- The arrays of `main`, whatever they hold at first. -/
structure Arrays where
  buff : List UInt8
  tmp : List (List UInt8)
  buff_length : buff.length = 128
  tmp_length : tmp.length = 100

/-- `main`, on the stream that `popen` gives: what it returns and prints. -/
def main (fuel : Nat) (a : Arrays) : Option (List UInt8) → Except Stop (Int × List UInt8)
  | none => return (1, ascii "[IP_RULE_TUN0] popen() error!\n")
  | some fp => do
    let out ← loop wordTurn fuel ⟨fp, a.buff, a.tmp, 0, []⟩
    return (0, out)

variable {bs line word : List UInt8} {ls : List (List UInt8)}

/-! ## The lines -/

/-- What one `fgets` after the other gives. -/
inductive Lines : List UInt8 → List (List UInt8) → Prop
  | nil : Lines [] []
  | cons {bs line rest : List UInt8} {ls : List (List UInt8)} (hne : bs ≠ []) (hget : fgets 127 bs = (line, rest))
      (h : Lines rest ls) : Lines bs (line :: ls)

theorem fgets_append (n : Nat) (bs : List UInt8) : (fgets n bs).1 ++ (fgets n bs).2 = bs := by
  induction n generalizing bs with
  | zero => rfl
  | succ n ih =>
    cases bs with
    | nil => rfl
    | cons b bs =>
      rw [fgets]
      split
      · rfl
      · rw [List.cons_append, ih]

theorem fgets_length (n : Nat) (bs : List UInt8) : (fgets n bs).1.length ≤ n := by
  induction n generalizing bs with
  | zero => exact le_rfl
  | succ n ih =>
    cases bs with
    | nil => exact Nat.zero_le _
    | cons b bs =>
      rw [fgets]
      split
      · exact Nat.succ_le_succ (Nat.zero_le n)
      · exact Nat.succ_le_succ (ih bs)

/-- A byte at least is read. -/
theorem fgets_pos {n : Nat} (hn : 0 < n) (hne : bs ≠ []) : 0 < (fgets n bs).1.length := by
  obtain ⟨k, rfl⟩ := exists_succ hn
  cases bs with
  | nil => exact absurd rfl hne
  | cons b bs =>
    rw [fgets]
    split <;> exact Nat.succ_pos _

/-- A line that fits. -/
theorem fgets_line {n : Nat} (hline : newline ∉ line) (hn : line.length < n) (rest : List UInt8) :
    fgets n (line ++ newline :: rest) = (line ++ [newline], rest) := by
  induction line generalizing n with
  | nil =>
    obtain ⟨k, rfl⟩ := exists_succ hn
    rw [List.nil_append, fgets, if_pos rfl]
    rfl
  | cons b line ih =>
    obtain ⟨k, rfl⟩ := exists_succ hn
    obtain ⟨hb, hline⟩ := not_or.mp (List.mem_cons.not.mp hline)
    rw [List.cons_append, fgets, if_neg (Ne.symm hb), ih hline (Nat.lt_of_succ_lt_succ hn)]
    rfl

/-- Every output has its lines. -/
theorem exists_lines (bs : List UInt8) : ∃ ls, Lines bs ls := by
  induction hn : bs.length using Nat.strong_induction_on generalizing bs with
  | _ n ih =>
    by_cases hne : bs = []
    · exact ⟨[], hne ▸ .nil⟩
    · have hpos := fgets_pos (show 0 < 127 by omega) hne
      have hlen := congrArg List.length (fgets_append 127 bs)
      rw [List.length_append] at hlen
      obtain ⟨ls, hls⟩ := ih _ (by omega) (fgets 127 bs).2 rfl
      exact ⟨_, .cons hne rfl hls⟩

theorem Lines.flatten (h : Lines bs ls) : ls.flatten = bs := by
  induction h with
  | nil => rfl
  | @cons bs line rest ls hne hget h ih =>
    have hall := fgets_append 127 bs
    rw [hget] at hall
    rw [List.flatten_cons, ih, hall]

/-- The lines of a text whose lines fit into `buff`. -/
theorem lines_text (h : ∀ line ∈ ls, newline ∉ line ∧ line.length < 127) :
    Lines (ls.map (· ++ [newline])).flatten (ls.map (· ++ [newline])) := by
  induction ls with
  | nil => exact .nil
  | cons line ls ih =>
    obtain ⟨hline, hlen⟩ := h line List.mem_cons_self
    have hlines := ih fun line' hl => h line' (List.mem_cons_of_mem line hl)
    refine .cons (by simp) ?_ hlines
    rw [List.map_cons, List.flatten_cons, List.append_assoc]
    exact fgets_line hline hlen _

/-! ## One line -/

/-- A line with a first word, a space behind it, and room for a `NUL` behind the word in 20 bytes. -/
def Worded (line : List UInt8) : Prop :=
  ∃ word rest, line = word ++ space :: rest ∧ space ∉ word ∧ 0 ∉ word ∧ word.length < 20

theorem strchr_eq_some {start : List UInt8} {offset : Nat} : strchr start = some offset ↔
    ∃ word rest, start = word ++ space :: rest ∧ space ∉ word ∧ word.length = offset := by
  rw [strchr, List.findIdx?_eq_some_iff_getElem]
  constructor
  · rintro ⟨hlt, hat, hbefore⟩
    refine ⟨start.take offset, start.drop (offset + 1), ?_, fun hmem => ?_, List.length_take_of_le hlt.le⟩
    · have hspace : start[offset] = space := by simpa using hat
      rw [← hspace, ← List.drop_eq_getElem_cons hlt, List.take_append_drop]
    · obtain ⟨i, hi, hspace⟩ := List.mem_iff_getElem.mp hmem
      rw [List.length_take] at hi
      rw [List.getElem_take] at hspace
      simpa [hspace] using hbefore i (by omega)
  · rintro ⟨word, rest, rfl, hno, rfl⟩
    refine ⟨by simp, by simp, fun i hi => ?_⟩
    rw [List.getElem_append_left hi]
    have hne : word[i] ≠ space := fun h => hno (h ▸ List.getElem_mem hi)
    simpa using hne

/-- What `strchr` sees of a line. -/
theorem takeWhile_zero (line rest : List UInt8) :
    (line ++ 0 :: rest).takeWhile (· ≠ 0) = line.takeWhile (· ≠ 0) := by
  by_cases hz : 0 ∈ line
  · exact takeWhile_append_of_mem hz rfl _
  · have hall : ∀ b ∈ line, decide (b ≠ 0) = true := fun b hb => decide_eq_true fun h => hz (h ▸ hb)
    rw [List.takeWhile_append_of_pos hall, List.takeWhile_eq_self_iff.mpr hall]
    simp

theorem worded_iff (line : List UInt8) : Worded line ↔
    ∃ offset, strchr (line.takeWhile (· ≠ 0)) = some offset ∧ offset < 20 := by
  constructor
  · rintro ⟨word, rest, rfl, hno, hz, hlt⟩
    refine ⟨word.length, strchr_eq_some.mpr ⟨word, rest.takeWhile (· ≠ 0), ?_, hno, rfl⟩, hlt⟩
    have hall : ∀ b ∈ word, decide (b ≠ 0) = true := fun b hb => decide_eq_true fun h => hz (h ▸ hb)
    rw [List.takeWhile_append_of_pos hall, List.takeWhile_cons_of_pos (by decide)]
  · rintro ⟨offset, hstr, hlt⟩
    obtain ⟨word, rest, hstart, hno, rfl⟩ := strchr_eq_some.mp hstr
    refine ⟨word, rest ++ line.dropWhile (· ≠ 0), ?_, hno, fun hz => ?_, hlt⟩
    · conv_lhs => rw [← List.takeWhile_append_dropWhile (p := (· ≠ 0)) (l := line), hstart]
      rw [List.append_assoc, List.cons_append]
    · have hmem : (0 : UInt8) ∈ line.takeWhile (· ≠ 0) := hstart ▸ List.mem_append_left _ hz
      simpa using List.mem_takeWhile_imp hmem

/-- A row of `tmp`, and the string that is read back from it. -/
theorem row_eq {α : Type} (hz : 0 ∉ word) (f : List UInt8 → List UInt8 → Except Stop α) :
    (do let row ← storeBytes (List.replicate 20 0) 0 word; let word ← loadString row 0; f row word) =
      if word.length < 20 then f (stringBuf 20 word) word else .error .outOfBounds := by
  by_cases hle : word.length ≤ 20
  · have hstore : storeBytes (List.replicate 20 0) 0 word = .ok (stringBuf 20 word) := by
      have hs := storeBytes_stringBuf (s := []) (Nat.zero_le 20) hle
      simpa [stringBuf, overlay] using hs
    rw [hstore, ok_bind, loadString_stringBuf hz hle]
    split <;> rfl
  · have hstore : storeBytes (List.replicate 20 0) 0 word = .error .outOfBounds := by
      rw [storeBytes, if_neg (by rw [List.length_replicate]; omega)]
    rw [hstore, if_neg (by omega)]
    rfl

section Turn

variable {s : Scan} {rest : List UInt8} (hbuff : s.buff.length = 128) (hne : s.fp ≠ [])
  (hget : fgets 127 s.fp = (line, rest))
include hbuff hne hget

/-- A turn, from the string on that is in `buff`. -/
theorem wordTurn_eq : ∃ buff, buff.length = 128 ∧ wordTurn s =
    match strchr (line.takeWhile (· ≠ 0)) with
    | none => .error .nullDeref
    | some offset =>
      if s.count < s.tmp.length then do
        let row ← storeBytes (List.replicate 20 0) 0 ((line.takeWhile (· ≠ 0)).take offset)
        let word ← loadString row 0
        return .inl ⟨rest, buff, s.tmp.set s.count row, s.count + 1,
          s.out ++ printWord (line.takeWhile (· ≠ 0)) s.count word⟩
      else .error .outOfBounds := by
  have hlen := fgets_length 127 s.fp
  rw [hget] at hlen
  have hfits : 0 + (line ++ [0]).length ≤ s.buff.length := by
    rw [List.length_append, List.length_singleton]
    simp only at hlen
    omega
  have hload : loadString (line ++ 0 :: s.buff.drop (line.length + 1)) 0 = .ok (line.takeWhile (· ≠ 0)) := by
    rw [loadString, List.drop_zero, if_pos (by simp), takeWhile_zero]
  have hstore : storeBytes s.buff 0 (line ++ [0]) = .ok (line ++ 0 :: s.buff.drop (line.length + 1)) := by
    rw [storeBytes, if_pos hfits]
    simp
  refine ⟨line ++ 0 :: s.buff.drop (line.length + 1), ?_, ?_⟩
  · simp only [List.length_append, List.length_cons, List.length_drop, List.length_nil] at hfits ⊢
    omega
  · simp only [wordTurn, if_neg hne, hget, hstore, hload, ok_bind]

/-- A line that is kept. -/
theorem wordTurn_worded (hw : Worded line) (hcount : s.count < s.tmp.length) : ∃ buff tmp, buff.length = 128 ∧
    tmp.length = s.tmp.length ∧ wordTurn s = .ok (.inl ⟨rest, buff, tmp, s.count + 1,
      s.out ++ printWord (line.takeWhile (· ≠ 0)) s.count (line.takeWhile (· ≠ space))⟩) := by
  obtain ⟨buff, hbuff', hturn⟩ := wordTurn_eq hbuff hne hget
  obtain ⟨word, more, rfl, hno, hz, hlt⟩ := hw
  have hall : ∀ b ∈ word, decide (b ≠ 0) = true := fun b hb => decide_eq_true fun h => hz (h ▸ hb)
  have hall' : ∀ b ∈ word, decide (b ≠ space) = true := fun b hb => decide_eq_true fun h => hno (h ▸ hb)
  have hstart : (word ++ space :: more).takeWhile (· ≠ 0) = word ++ space :: more.takeWhile (· ≠ 0) := by
    rw [List.takeWhile_append_of_pos hall, List.takeWhile_cons_of_pos (by decide)]
  have hword : (word ++ space :: more).takeWhile (· ≠ space) = word := by
    rw [List.takeWhile_append_of_pos hall', List.takeWhile_cons_of_neg (by decide), List.append_nil]
  have hstr : strchr (word ++ space :: more.takeWhile (· ≠ 0)) = some word.length :=
    strchr_eq_some.mpr ⟨word, _, rfl, hno, rfl⟩
  refine ⟨buff, s.tmp.set s.count (stringBuf 20 word), hbuff', List.length_set, ?_⟩
  rw [hturn, hstart, hword, hstr]
  simp only [if_pos hcount, List.take_left]
  rw [row_eq hz, if_pos hlt]
  rfl

/-- A line without a word that fits, or a line too many. -/
theorem wordTurn_stops (hbad : ¬ (Worded line ∧ s.count < s.tmp.length)) :
    ∃ stop, stop ≠ .outOfFuel ∧ wordTurn s = .error stop := by
  obtain ⟨buff, -, hturn⟩ := wordTurn_eq hbuff hne hget
  cases hstr : strchr (line.takeWhile (· ≠ 0)) with
  | none => exact ⟨.nullDeref, by decide, by rw [hturn, hstr]⟩
  | some offset =>
    refine ⟨.outOfBounds, by decide, ?_⟩
    rw [hturn, hstr]
    by_cases hcount : s.count < s.tmp.length
    · obtain ⟨word, more, hstart, hno, hlen⟩ := strchr_eq_some.mp hstr
      have hz : 0 ∉ word := fun hz => by
        have hmem : (0 : UInt8) ∈ line.takeWhile (· ≠ 0) := hstart ▸ List.mem_append_left _ hz
        simpa using List.mem_takeWhile_imp hmem
      have hlong : ¬ word.length < 20 := fun hlt => hbad ⟨(worded_iff line).mpr ⟨offset, hstr, hlen ▸ hlt⟩, hcount⟩
      simp only [if_pos hcount, hstart, ← hlen, List.take_left]
      rw [row_eq hz, if_neg hlong]
    · simp only [if_neg hcount]

end Turn

/-! ## The program -/

/-- What is printed for lines, the first of which goes to the row `count`. -/
def printWords : Nat → List (List UInt8) → List UInt8
  | _, [] => []
  | count, line :: ls =>
    printWord (line.takeWhile (· ≠ 0)) count (line.takeWhile (· ≠ space)) ++ printWords (count + 1) ls

/-- From the row `count` on there are rows for the lines, and each line has a word that fits. -/
def Fit (count rows : Nat) (ls : List (List UInt8)) : Prop := count + ls.length ≤ rows ∧ ∀ line ∈ ls, Worded line

theorem loop_words (h : Lines bs ls) : ∀ (buff : List UInt8) (tmp : List (List UInt8)) (count : Nat) (out : List UInt8),
    buff.length = 128 → count ≤ tmp.length →
    (Fit count tmp.length ls → ∀ fuel, ls.length < fuel →
      loop wordTurn fuel ⟨bs, buff, tmp, count, out⟩ = .ok (out ++ printWords count ls)) ∧
    (¬ Fit count tmp.length ls → ∃ stop, stop ≠ .outOfFuel ∧ ∀ fuel, ls.length < fuel →
      loop wordTurn fuel ⟨bs, buff, tmp, count, out⟩ = .error stop) := by
  induction h with
  | nil =>
    intro buff tmp count out _ hcount
    refine ⟨fun _ fuel hf => ?_, fun hno => absurd ⟨hcount, nofun⟩ hno⟩
    rw [loop_done_of_lt (by rw [wordTurn, if_pos rfl, pure_eq_ok]) hf, printWords, List.append_nil]
  | @cons bs line rest ls hne hget h ih =>
    intro buff tmp count out hbuff _
    have hfit : Fit count tmp.length (line :: ls) ↔
        (Worded line ∧ count < tmp.length) ∧ Fit (count + 1) tmp.length ls := by
      simp only [Fit, List.length_cons, List.forall_mem_cons]
      constructor
      · rintro ⟨hlen, hw, hws⟩
        exact ⟨⟨hw, by omega⟩, by omega, hws⟩
      · rintro ⟨⟨hw, -⟩, hlen, hws⟩
        exact ⟨by omega, hw, hws⟩
    rw [hfit]
    by_cases hw : Worded line ∧ count < tmp.length
    · obtain ⟨buff', tmp', hbuff', htmp, hturn⟩ :=
        wordTurn_worded (s := ⟨bs, buff, tmp, count, out⟩) hbuff hne hget hw.1 hw.2
      obtain ⟨hgood, hbad⟩ := ih buff' tmp' (count + 1) (out ++ printWord (line.takeWhile (· ≠ 0)) count
        (line.takeWhile (· ≠ space))) hbuff' (by rw [htmp]; exact hw.2)
      rw [htmp] at hgood hbad
      refine ⟨fun hall => ?_, fun hno => ?_⟩
      · rw [printWords, ← List.append_assoc]
        exact loop_again_of_lt hturn (hgood hall.2)
      · obtain ⟨stop, hstop, hl⟩ := hbad fun hall => hno ⟨hw, hall⟩
        exact ⟨stop, hstop, loop_again_of_lt hturn hl⟩
    · obtain ⟨stop, hstop, hturn⟩ := wordTurn_stops (s := ⟨bs, buff, tmp, count, out⟩) hbuff hne hget hw
      exact ⟨fun hall => absurd hall.1 hw, fun _ => ⟨stop, hstop, fun fuel hf => loop_stop_of_lt hturn hf⟩⟩

theorem main_lines (a : Arrays) (h : Lines bs ls) :
    ((ls.length ≤ 100 ∧ ∀ line ∈ ls, Worded line) →
      Ends (fun fuel => main fuel a (some bs)) (.ok (0, printWords 0 ls))) ∧
    (¬ (ls.length ≤ 100 ∧ ∀ line ∈ ls, Worded line) →
      ∃ stop, stop ≠ .outOfFuel ∧ Ends (fun fuel => main fuel a (some bs)) (.error stop)) := by
  have hwords := loop_words h a.buff a.tmp 0 [] a.buff_length (Nat.zero_le _)
  rw [a.tmp_length, Fit, Nat.zero_add] at hwords
  refine ⟨fun hall => ?_, fun hno => ?_⟩
  · refine ends_of_lt ls.length fun fuel hf => ?_
    rw [main, hwords.1 hall fuel hf]
    rfl
  · obtain ⟨stop, hstop, hl⟩ := hwords.2 hno
    refine ⟨stop, hstop, ends_of_lt ls.length fun fuel hf => ?_⟩
    rw [main, hl fuel hf]
    rfl

/-- A text of no more than 100 routes, each with a first word and short enough for `buff`. -/
theorem main_text (a : Arrays) (hlen : ls.length ≤ 100)
    (h : ∀ line ∈ ls, newline ∉ line ∧ line.length < 127 ∧ Worded line) :
    Ends (fun fuel => main fuel a (some (ls.map (· ++ [newline])).flatten))
      (.ok (0, printWords 0 (ls.map (· ++ [newline])))) := by
  refine (main_lines a (lines_text fun line hl => ⟨(h line hl).1, (h line hl).2.1⟩)).1 ⟨by simpa using hlen, ?_⟩
  intro line hl
  obtain ⟨route, hr, rfl⟩ := List.mem_map.mp hl
  obtain ⟨word, rest, rfl, hno, hz, hlt⟩ := (h route hr).2.2
  exact ⟨word, rest ++ [newline], by rw [List.append_assoc, List.cons_append], hno, hz, hlt⟩

/-- **The first words.** Whatever the command prints, the program reads all of it, line by line. It comes to its end, with
each line and its word, when there are no more than 100 lines and each has a word that fits; else it stops on one. -/
theorem firstWords (a : Arrays) (bs : List UInt8) : ∃ ls, Lines bs ls ∧ ls.flatten = bs ∧
    ((ls.length ≤ 100 ∧ ∀ line ∈ ls, Worded line) →
      Ends (fun fuel => main fuel a (some bs)) (.ok (0, printWords 0 ls))) ∧
    (¬ (ls.length ≤ 100 ∧ ∀ line ∈ ls, Worded line) →
      ∃ stop, stop ≠ .outOfFuel ∧ Ends (fun fuel => main fuel a (some bs)) (.error stop)) := by
  obtain ⟨ls, hls⟩ := exists_lines bs
  exact ⟨ls, hls, hls.flatten, main_lines a hls⟩

end SideWork.Process
