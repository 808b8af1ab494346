import SideWork.Nl80211.ScanResult

/-!
# Reporting a station

`callback_of_get_sta_info` reports the station attribute of a message: four counters, the signal, and the rates of the two
directions, which are attributes with attributes of their own. The tables that libnl parses are given. A line is what it is
printed under together with the value it shows; a fault stands in the place of the value, and ends the report.

- `printed_reached`, `printed_unreached`: what is printed, with and without `Rx information:`;
- `truthful_iff`: when every line shows the attribute it names;
- `rx_lines_iff`: when the lines on the receiving direction do not depend on the other one;
- `stationLines_iff`: both.
-/

namespace SideWork.Nl80211

open Netlink (showString)

/-- An attribute with a policy, which `nla_parse_nested` accepts only with `min` bytes or more. -/
structure PolicyNla (min : Nat) where
  nla : Nla
  min_le : min ≤ nla.data.length

/-- `tb_tx_rate` and `tb_rx_rate`, as far as the callback reads them. -/
structure RateInfo where
  bitrate : Option (PolicyNla 2)
  mcs : Option (PolicyNla 1)
  vhtMcs : Option (PolicyNla 1)
  vhtNss : Option (PolicyNla 1)
  width40Mhz : Option Nla
  width80Mhz : Option Nla

/-- `tb_info`, as far as the callback reads it. A rate is there with the table that `nla_parse_nested` makes of it, or with
`none` when that fails. -/
structure StaInfo where
  txBytes : Option (PolicyNla 4)
  txPackets : Option (PolicyNla 4)
  rxBytes : Option (PolicyNla 4)
  rxPackets : Option (PolicyNla 4)
  chainSignal : Option Nla
  signal : Option (PolicyNla 1)
  txBitrate : Option (Option RateInfo)
  rxBitrate : Option (Option RateInfo)

/-- The names of the counters. -/
inductive CounterName
  | txBytes
  | txPackets
  | rxBytes
  | rxPackets
  deriving DecidableEq, Repr

def CounterName.label : CounterName → String
  | .txBytes => "TX_BYTES"
  | .txPackets => "TX_PACKETS"
  | .rxBytes => "RX_BYTES"
  | .rxPackets => "RX_PACKETS"

/-- The names of the numbers of a rate. -/
inductive RateName
  | bitrate
  | mcs
  | vhtMcs
  | vhtNss
  deriving DecidableEq, Repr

def RateName.label : RateName → String
  | .bitrate => "BITRATE"
  | .mcs => "MCS"
  | .vhtMcs => "VHT_MCS"
  | .vhtNss => "VHT_NSS"

/-- The names of the widths of a rate. -/
inductive WidthName
  | vht40
  | vht80
  deriving DecidableEq, Repr

def WidthName.label : WidthName → String
  | .vht40 => "VHT40"
  | .vht80 => "VHT80"

/-- A line of the report. -/
inductive StaLine
  | text (s : String)
  | counter (name : CounterName) (v : Except Stop Nat)
  | chainSignal (s : Except Stop (List UInt8))
  | signal (v : Except Stop Nat)
  | rate (name : RateName) (v : Except Stop Nat)
  | width (name : WidthName)
  deriving DecidableEq

/-- `(int8_t)`. -/
def int8 (b : Nat) : Int := if b < 128 then b else b - 256

/-- What `printf` makes of a line. -/
def StaLine.render : StaLine → Except Stop String
  | .text s => return s
  | .counter name v => do return name.label ++ "=" ++ toString (← v) ++ "\n"
  | .chainSignal s => do return "SIGNAL=" ++ showString (some (← s)) ++ "\n"
  | .signal v => do
    let n ← v
    return "SIGNAL=" ++ toString (int8 n) ++ " dbm(" ++ toString n ++ " dbm)\n"
  | .rate name v => do return "  " ++ name.label ++ "=" ++ toString (← v) ++ "\n"
  | .width name => return "  " ++ name.label ++ "\n"

/-- The lines up to the first fault. -/
def stopAtFault : List StaLine → List StaLine
  | [] => []
  | l :: ls =>
    match l.render with
    | .ok _ => l :: stopAtFault ls
    | .error _ => [l]

/-- `nla_get_u8`. -/
def nlaGetU8 : Option Nla → Except Stop Nat
  | none => .error .nullDeref
  | some nla => do
    let b ← loadByte nla.data 0
    return b.toNat

/-- `if (slot) printf(..)`, for one line. -/
def whenPresent {α : Type} (slot : Option α) (line : α → StaLine) : List StaLine := slot.toList.map line

/-- The lines of the counters. -/
def counterLines (e : Endian) (info : StaInfo) : List StaLine :=
  (whenPresent info.txBytes fun a => .counter .txBytes (nlaGetU32 e (some a.nla))) ++
  (whenPresent info.txPackets fun a => .counter .txPackets (nlaGetU32 e (some a.nla))) ++
  -- under the other name
  (whenPresent info.rxBytes fun a => .counter .txBytes (nlaGetU32 e (some a.nla))) ++
  -- the test is of one attribute, the value that of the other one
  (whenPresent info.rxPackets fun _ => .counter .rxPackets (nlaGetU32 e (info.txPackets.map PolicyNla.nla)))

/-- The lines of the signal. -/
def signalLines (info : StaInfo) : List StaLine :=
  (whenPresent info.chainSignal fun nla => .chainSignal (loadString nla.data 0)) ++
  (whenPresent info.signal fun a => .signal (nlaGetU8 (some a.nla)))

/-- The numbers of a rate. -/
def rateLines (e : Endian) (rate : RateInfo) : List StaLine :=
  (whenPresent rate.bitrate fun a => .rate .bitrate (nlaGetU16 e (some a.nla))) ++
  (whenPresent rate.mcs fun a => .rate .mcs (nlaGetU8 (some a.nla))) ++
  (whenPresent rate.vhtMcs fun a => .rate .vhtMcs (nlaGetU8 (some a.nla))) ++
  (whenPresent rate.vhtNss fun a => .rate .vhtNss (nlaGetU8 (some a.nla)))

/-- The widths of a rate: `nla_get_flag` is whether the attribute is there. -/
def widthLines (rate : RateInfo) : List StaLine :=
  (whenPresent rate.width40Mhz fun _ => .width .vht40) ++ (whenPresent rate.width80Mhz fun _ => .width .vht80)

/-- `Rx information:`. -/
def rxHeader : StaLine := .text "Rx information:\n"

/-- The lines of the receiving direction, with the table of the other direction that is still there. -/
def rxLines (e : Endian) (tx : RateInfo) : Option (Option RateInfo) → List StaLine
  | none => [.text "Tx bitrate is missing.\n"]
  | some none => [.text "Failed to parse Rx bitrate nested nla.\n"]
  -- the widths are looked up in `tb_tx_rate`
  | some (some rx) => rxHeader :: (rateLines e rx ++ widthLines tx)

/-- The lines of both directions. -/
def directionLines (e : Endian) (info : StaInfo) : List StaLine :=
  match info.txBitrate with
  | none => [.text "Tx bitrate is missing.\n"]
  | some none => [.text "Failed to parse Tx bitrate nested nla.\n"]
  | some (some tx) => .text "Tx information:\n" :: (rateLines e tx ++ widthLines tx) ++ rxLines e tx info.rxBitrate

/-- What the callback leaves: `*gotit`, what it has printed, and its answer, if no line faults. -/
structure StaReport where
  gotit : Nat
  printed : List StaLine
  ret : Nat

/-- `callback_of_get_sta_info`, on the table in `NL80211_ATTR_STA_INFO`, if it is there and can be parsed. -/
def callbackOfGetStaInfo (e : Endian) (gotit : Nat) (tb : Option (Option StaInfo)) : StaReport :=
  let entered := .text "Enter callback_of_get_sta_info\n"
  match tb with
  | none => ⟨gotit, [entered, .text "STA info is missing.\n"], nlSkip⟩
  | some none => ⟨1, [entered, .text "Failed to parse STA info nested nla.\n"], nlSkip⟩
  | some (some info) =>
    ⟨1, stopAtFault (entered :: (counterLines e info ++ (signalLines info ++ directionLines e info))), nlSkip⟩

/-! ## What the attributes hold -/

section Values

variable (e : Endian)

def PolicyNla.u32 (a : PolicyNla 4) : Nat := word e (a.nla.data.take 4)

def PolicyNla.u16 (a : PolicyNla 2) : Nat := word e (a.nla.data.take 2)

def PolicyNla.u8 (a : PolicyNla 1) : Nat := (a.nla.data.headD 0).toNat

/-- The value of the counter of that name. -/
def StaInfo.value (info : StaInfo) : CounterName → Option Nat
  | .txBytes => info.txBytes.map (PolicyNla.u32 e)
  | .txPackets => info.txPackets.map (PolicyNla.u32 e)
  | .rxBytes => info.rxBytes.map (PolicyNla.u32 e)
  | .rxPackets => info.rxPackets.map (PolicyNla.u32 e)

/-- The value of the number of that name. -/
def RateInfo.value (rate : RateInfo) : RateName → Option Nat
  | .bitrate => rate.bitrate.map (PolicyNla.u16 e)
  | .mcs => rate.mcs.map PolicyNla.u8
  | .vhtMcs => rate.vhtMcs.map PolicyNla.u8
  | .vhtNss => rate.vhtNss.map PolicyNla.u8

end Values

/-- Whether the rate has the width of that name. -/
def RateInfo.has (rate : RateInfo) : WidthName → Bool
  | .vht40 => rate.width40Mhz.isSome
  | .vht80 => rate.width80Mhz.isSome

variable {e : Endian} {info : StaInfo} {rate tx rx : RateInfo}

theorem nlaGetU32_policy (a : PolicyNla 4) : nlaGetU32 e (some a.nla) = .ok (a.u32 e) :=
  load_of_le (by have := a.min_le; omega)

theorem nlaGetU16_policy (a : PolicyNla 2) : nlaGetU16 e (some a.nla) = .ok (a.u16 e) :=
  load_of_le (by have := a.min_le; omega)

theorem nlaGetU8_policy (a : PolicyNla 1) : nlaGetU8 (some a.nla) = .ok a.u8 := by
  obtain ⟨⟨type, data⟩, hle⟩ := a
  cases data with
  | nil => exact absurd hle (by simp)
  | cons b bs => rfl

@[simp] theorem mem_whenPresent {α : Type} {slot : Option α} {line : α → StaLine} {l : StaLine} :
    l ∈ whenPresent slot line ↔ ∃ a, slot = some a ∧ line a = l := by
  cases slot <;> simp [whenPresent, eq_comm]

/-- The lines of the counters, and what they show. -/
theorem mem_counterLines {name : CounterName} {v : Except Stop Nat} : .counter name v ∈ counterLines e info ↔
    (name = .txBytes ∧ ∃ n, info.value e .txBytes = some n ∧ v = .ok n) ∨
    (name = .txPackets ∧ ∃ n, info.value e .txPackets = some n ∧ v = .ok n) ∨
    (name = .txBytes ∧ ∃ n, info.value e .rxBytes = some n ∧ v = .ok n) ∨
    (name = .rxPackets ∧ (∃ n, info.value e .rxPackets = some n) ∧
      v = nlaGetU32 e (info.txPackets.map PolicyNla.nla)) := by
  simp only [counterLines, List.mem_append, mem_whenPresent, nlaGetU32_policy, StaLine.counter.injEq, StaInfo.value,
    Option.map_eq_some_iff]
  constructor
  · rintro (((⟨a, ha, rfl, rfl⟩ | ⟨a, ha, rfl, rfl⟩) | ⟨a, ha, rfl, rfl⟩) | ⟨a, ha, rfl, rfl⟩)
    · exact .inl ⟨rfl, _, ⟨a, ha, rfl⟩, rfl⟩
    · exact .inr (.inl ⟨rfl, _, ⟨a, ha, rfl⟩, rfl⟩)
    · exact .inr (.inr (.inl ⟨rfl, _, ⟨a, ha, rfl⟩, rfl⟩))
    · exact .inr (.inr (.inr ⟨rfl, ⟨_, a, ha, rfl⟩, rfl⟩))
  · rintro (⟨rfl, _, ⟨a, ha, rfl⟩, rfl⟩ | ⟨rfl, _, ⟨a, ha, rfl⟩, rfl⟩ | ⟨rfl, _, ⟨a, ha, rfl⟩, rfl⟩ |
      ⟨rfl, ⟨_, a, ha, rfl⟩, rfl⟩)
    · exact .inl (.inl (.inl ⟨a, ha, rfl, rfl⟩))
    · exact .inl (.inl (.inr ⟨a, ha, rfl, rfl⟩))
    · exact .inl (.inr ⟨a, ha, rfl, rfl⟩)
    · exact .inr ⟨a, ha, rfl, rfl⟩

/-- The counters are right when the two counters of the receiving direction are there only with a counterpart of the same
value. -/
theorem counterLines_right_iff :
    (∀ name v, .counter name v ∈ counterLines e info → ∃ n, info.value e name = some n ∧ v = .ok n) ↔
      (∀ n, info.value e .rxBytes = some n → info.value e .txBytes = some n) ∧
        ∀ n, info.value e .rxPackets = some n → info.value e .txPackets = some n := by
  constructor
  · intro h
    refine ⟨fun n hn => ?_, fun n hn => ?_⟩
    · obtain ⟨m, hm, he⟩ := h _ _ (mem_counterLines.mpr (.inr (.inr (.inl ⟨rfl, n, hn, rfl⟩))))
      cases he
      exact hm
    · obtain ⟨m, hm, he⟩ := h _ _ (mem_counterLines.mpr (.inr (.inr (.inr ⟨rfl, ⟨n, hn⟩, rfl⟩))))
      obtain rfl : n = m := Option.some_inj.mp (hn.symm.trans hm)
      cases htx : info.txPackets with
      | none =>
        rw [htx] at he
        cases he
      | some a =>
        rw [htx, Option.map_some, nlaGetU32_policy] at he
        cases he
        rw [StaInfo.value, htx, Option.map_some]
  · rintro ⟨hbytes, hpackets⟩ name v hv
    rcases mem_counterLines.mp hv with ⟨rfl, h⟩ | ⟨rfl, h⟩ | ⟨rfl, n, hn, rfl⟩ | ⟨rfl, ⟨n, hn⟩, rfl⟩
    · exact h
    · exact h
    · exact ⟨n, hbytes n hn, rfl⟩
    · have htx := hpackets n hn
      rw [StaInfo.value, Option.map_eq_some_iff] at htx
      obtain ⟨a, ha, rfl⟩ := htx
      exact ⟨_, hn, by rw [ha, Option.map_some, nlaGetU32_policy]⟩

theorem mem_widthLines {name : WidthName} : .width name ∈ widthLines rate ↔ rate.has name = true := by
  cases name <;> simp [widthLines, RateInfo.has, Option.isSome_iff_exists]

/-- The lines of the widths show which of them the rate has. -/
theorem widthLines_eq_iff : widthLines tx = widthLines rx ↔ ∀ name, tx.has name = rx.has name := by
  constructor
  · intro h name
    rw [Bool.eq_iff_iff, ← mem_widthLines, ← mem_widthLines, h]
  · intro h
    have h40 : tx.width40Mhz.isSome = rx.width40Mhz.isSome := h .vht40
    have h80 : tx.width80Mhz.isSome = rx.width80Mhz.isSome := h .vht80
    have hlines : ∀ r : RateInfo, widthLines r = (if r.width40Mhz.isSome then [.width .vht40] else []) ++
        (if r.width80Mhz.isSome then [.width .vht80] else []) := by
      intro r
      unfold widthLines whenPresent
      cases r.width40Mhz <;> cases r.width80Mhz <;> rfl
    rw [hlines, hlines, h40, h80]

/-! ## Where the report ends -/

/-- A line faults in the counters, or in the signal. -/
def StaInfo.Stops (info : StaInfo) : Prop :=
  (info.rxPackets.isSome ∧ info.txPackets = none) ∨ ∃ nla, info.chainSignal = some nla ∧ 0 ∉ nla.data

/-- A line that can be printed. -/
def StaLine.Prints (l : StaLine) : Prop := ∃ s, l.render = .ok s

theorem stopAtFault_cons {l : StaLine} (h : l.Prints) (ls : List StaLine) :
    stopAtFault (l :: ls) = l :: stopAtFault ls := by
  obtain ⟨s, hs⟩ := h
  rw [stopAtFault, hs]

theorem stopAtFault_append {ls : List StaLine} (h : ∀ l ∈ ls, l.Prints) (ls' : List StaLine) :
    stopAtFault (ls ++ ls') = ls ++ stopAtFault ls' := by
  induction ls with
  | nil => rfl
  | cons l ls ih =>
    obtain ⟨hl, hls⟩ := List.forall_mem_cons.mp h
    rw [List.cons_append, stopAtFault_cons hl, ih hls, List.cons_append]

theorem stopAtFault_fault {l : StaLine} (h : ¬ l.Prints) (ls : List StaLine) : stopAtFault (l :: ls) = [l] := by
  cases hr : l.render with
  | ok s => exact absurd ⟨s, hr⟩ h
  | error e => rw [stopAtFault, hr]

theorem stopAtFault_self {ls : List StaLine} (h : ∀ l ∈ ls, l.Prints) : stopAtFault ls = ls := by
  have happend := stopAtFault_append h []
  rwa [List.append_nil, stopAtFault, List.append_nil] at happend

theorem prints_text (s : String) : (StaLine.text s).Prints := ⟨s, rfl⟩

theorem prints_counter (name : CounterName) (n : Nat) : (StaLine.counter name (.ok n)).Prints := ⟨_, rfl⟩

theorem prints_rate (name : RateName) (n : Nat) : (StaLine.rate name (.ok n)).Prints := ⟨_, rfl⟩

/-- A line of a rate. -/
theorem mem_rateLines {l : StaLine} (h : l ∈ rateLines e rate) :
    ∃ name n, rate.value e name = some n ∧ l = .rate name (.ok n) := by
  simp only [rateLines, List.mem_append, mem_whenPresent, nlaGetU16_policy, nlaGetU8_policy] at h
  rcases h with ((⟨a, ha, rfl⟩ | ⟨a, ha, rfl⟩) | ⟨a, ha, rfl⟩) | ⟨a, ha, rfl⟩
  · exact ⟨.bitrate, _, by rw [RateInfo.value, ha]; rfl, rfl⟩
  · exact ⟨.mcs, _, by rw [RateInfo.value, ha]; rfl, rfl⟩
  · exact ⟨.vhtMcs, _, by rw [RateInfo.value, ha]; rfl, rfl⟩
  · exact ⟨.vhtNss, _, by rw [RateInfo.value, ha]; rfl, rfl⟩

theorem exists_width {l : StaLine} (h : l ∈ widthLines rate) : ∃ name, l = .width name := by
  simp only [widthLines, List.mem_append, mem_whenPresent] at h
  rcases h with ⟨a, -, rfl⟩ | ⟨a, -, rfl⟩
  · exact ⟨.vht40, rfl⟩
  · exact ⟨.vht80, rfl⟩

theorem exists_signal {l : StaLine} (h : l ∈ signalLines info) : (∃ s, l = .chainSignal s) ∨ ∃ v, l = .signal v := by
  simp only [signalLines, List.mem_append, mem_whenPresent] at h
  rcases h with ⟨a, -, rfl⟩ | ⟨a, -, rfl⟩
  · exact .inl ⟨_, rfl⟩
  · exact .inr ⟨_, rfl⟩

theorem exists_counter {l : StaLine} (h : l ∈ counterLines e info) : ∃ name v, l = .counter name v := by
  simp only [counterLines, List.mem_append, mem_whenPresent] at h
  rcases h with ((⟨a, -, rfl⟩ | ⟨a, -, rfl⟩) | ⟨a, -, rfl⟩) | ⟨a, -, rfl⟩ <;> exact ⟨_, _, rfl⟩

/-- The last of the counters faults without the attribute that it reads. -/
theorem stopAtFault_rxPackets (ls : List StaLine) :
    stopAtFault ((whenPresent info.rxPackets fun _ =>
      .counter .rxPackets (nlaGetU32 e (info.txPackets.map PolicyNla.nla))) ++ ls) =
    (whenPresent info.rxPackets fun _ => .counter .rxPackets (nlaGetU32 e (info.txPackets.map PolicyNla.nla))) ++
      (if info.rxPackets.isSome ∧ info.txPackets = none then [] else stopAtFault ls) := by
  cases hrx : info.rxPackets with
  | none => simp [whenPresent]
  | some a =>
    cases htx : info.txPackets with
    | none =>
      have hfault : ¬ (StaLine.counter .rxPackets (.error .nullDeref)).Prints := by
        rintro ⟨s, hs⟩
        cases hs
      exact stopAtFault_fault hfault ls
    | some b =>
      have hprints : (StaLine.counter .rxPackets (nlaGetU32 e (some b.nla))).Prints := by
        rw [nlaGetU32_policy]
        exact prints_counter _ _
      simpa [whenPresent] using stopAtFault_cons hprints ls

/-- The other counters do not fault. -/
theorem stopAtFault_counterLines (ls : List StaLine) : stopAtFault (counterLines e info ++ ls) =
    counterLines e info ++ (if info.rxPackets.isSome ∧ info.txPackets = none then [] else stopAtFault ls) := by
  have hfirst : ∀ l ∈ (whenPresent info.txBytes fun a => .counter .txBytes (nlaGetU32 e (some a.nla))) ++
      (whenPresent info.txPackets fun a => .counter .txPackets (nlaGetU32 e (some a.nla))) ++
      (whenPresent info.rxBytes fun a => .counter .txBytes (nlaGetU32 e (some a.nla))), l.Prints := by
    intro l hl
    simp only [List.mem_append, mem_whenPresent, nlaGetU32_policy] at hl
    rcases hl with (⟨a, -, rfl⟩ | ⟨a, -, rfl⟩) | ⟨a, -, rfl⟩ <;> exact prints_counter _ _
  have hlast := @stopAtFault_rxPackets e info ls
  unfold counterLines
  generalize (whenPresent info.txBytes fun a => StaLine.counter .txBytes (nlaGetU32 e (some a.nla))) ++
    (whenPresent info.txPackets fun a => .counter .txPackets (nlaGetU32 e (some a.nla))) ++
    (whenPresent info.rxBytes fun a => .counter .txBytes (nlaGetU32 e (some a.nla))) = first at hfirst ⊢
  rw [List.append_assoc, stopAtFault_append hfirst, hlast, ← List.append_assoc]

/-- The string of the signal can be printed when it ends. -/
theorem prints_signalLines (h : ¬ ∃ nla, info.chainSignal = some nla ∧ 0 ∉ nla.data) :
    ∀ l ∈ signalLines info, l.Prints := by
  intro l hl
  simp only [signalLines, List.mem_append, mem_whenPresent, nlaGetU8_policy] at hl
  rcases hl with ⟨nla, hn, rfl⟩ | ⟨a, -, rfl⟩
  · have hz : 0 ∈ nla.data := by
      by_contra hz
      exact h ⟨nla, hn, hz⟩
    rw [loadString, List.drop_zero, if_pos hz]
    exact ⟨_, rfl⟩
  · exact ⟨_, rfl⟩

theorem stopAtFault_signalLines (h : ∃ nla, info.chainSignal = some nla ∧ 0 ∉ nla.data) (ls : List StaLine) :
    ∀ l ∈ stopAtFault (signalLines info ++ ls), l ∈ signalLines info := by
  obtain ⟨nla, hn, hz⟩ := h
  have hfault : ¬ (StaLine.chainSignal (loadString nla.data 0)).Prints := by
    rintro ⟨s, hs⟩
    rw [loadString, List.drop_zero, if_neg hz] at hs
    cases hs
  intro l hl
  unfold signalLines at hl ⊢
  rw [hn] at hl ⊢
  rw [show (whenPresent (some nla) fun nla => StaLine.chainSignal (loadString nla.data 0)) =
    [.chainSignal (loadString nla.data 0)] from rfl] at hl ⊢
  rw [List.append_assoc, List.singleton_append, stopAtFault_fault hfault, List.mem_singleton] at hl
  rw [hl]
  exact List.mem_cons_self

theorem prints_directionLines : ∀ l ∈ directionLines e info, l.Prints := by
  have hrates : ∀ (r r' : RateInfo), ∀ l ∈ rateLines e r ++ widthLines r', l.Prints := by
    intro r r' l hl
    rcases List.mem_append.mp hl with hl | hl
    · obtain ⟨name, n, -, rfl⟩ := mem_rateLines hl
      exact prints_rate name n
    · obtain ⟨name, rfl⟩ := exists_width hl
      exact ⟨_, rfl⟩
  have hrx : ∀ tx, ∀ l ∈ rxLines e tx info.rxBitrate, l.Prints := by
    intro tx l hl
    unfold rxLines at hl
    split at hl
    · exact List.mem_singleton.mp hl ▸ prints_text _
    · exact List.mem_singleton.mp hl ▸ prints_text _
    · rcases List.mem_cons.mp hl with rfl | hl
      · exact prints_text _
      · exact hrates _ _ l hl
  intro l hl
  unfold directionLines at hl
  split at hl
  · exact List.mem_singleton.mp hl ▸ prints_text _
  · exact List.mem_singleton.mp hl ▸ prints_text _
  · rcases List.mem_append.mp hl with hl | hl
    · rcases List.mem_cons.mp hl with rfl | hl
      · exact prints_text _
      · exact hrates _ _ l hl
    · exact hrx _ l hl

/-! ## The two parts of the report -/

/-- The lines in front of `Rx information:`. -/
def beforeRx (printed : List StaLine) : List StaLine := printed.takeWhile (· ≠ rxHeader)

/-- The lines behind it. -/
def afterRx (printed : List StaLine) : List StaLine := (printed.dropWhile (· ≠ rxHeader)).drop 1

theorem beforeRx_none {ls : List StaLine} (h : rxHeader ∉ ls) : beforeRx ls = ls :=
  List.takeWhile_eq_self_iff.mpr fun l hl => by simpa using fun he : l = rxHeader => h (he ▸ hl)

theorem afterRx_none {ls : List StaLine} (h : rxHeader ∉ ls) : afterRx ls = [] := by
  have hnil : ls.dropWhile (· ≠ rxHeader) = [] :=
    List.dropWhile_eq_nil_iff.mpr fun l hl => by simpa using fun he : l = rxHeader => h (he ▸ hl)
  rw [afterRx, hnil]
  rfl

theorem beforeRx_append {ls : List StaLine} (h : rxHeader ∉ ls) (ls' : List StaLine) :
    beforeRx (ls ++ rxHeader :: ls') = ls := by
  have hpos : ∀ l ∈ ls, decide (l ≠ rxHeader) = true := fun l hl => by simpa using fun he : l = rxHeader => h (he ▸ hl)
  rw [beforeRx, List.takeWhile_append_of_pos hpos, List.takeWhile_cons_of_neg (by simp), List.append_nil]

theorem afterRx_append {ls : List StaLine} (h : rxHeader ∉ ls) (ls' : List StaLine) :
    afterRx (ls ++ rxHeader :: ls') = ls' := by
  have hpos : ∀ l ∈ ls, decide (l ≠ rxHeader) = true := fun l hl => by simpa using fun he : l = rxHeader => h (he ▸ hl)
  rw [afterRx, List.dropWhile_append_of_pos hpos, List.dropWhile_cons_of_neg (by simp)]
  rfl

/-- A line about a rate shows an attribute of its name in this table. -/
def StaLine.Shows (e : Endian) (rate : Option RateInfo) : StaLine → Prop
  | .rate name v => ∃ r n, rate = some r ∧ r.value e name = some n ∧ v = .ok n
  | .width name => ∃ r, rate = some r ∧ r.has name = true
  | _ => True

/-- The report comes to the receiving direction. -/
structure Reached (info : StaInfo) (tx rx : RateInfo) : Prop where
  goes : ¬ info.Stops
  tx : info.txBitrate = some (some tx)
  rx : info.rxBitrate = some (some rx)

/-- What is in front of the receiving direction: the counters, and lines that show the other direction. -/
structure Front (e : Endian) (info : StaInfo) (ls : List StaLine) : Prop where
  header : rxHeader ∉ ls
  counter : ∀ name v, .counter name v ∈ ls ↔ .counter name v ∈ counterLines e info
  shows : ∀ l ∈ ls, l.Shows e info.txBitrate.join

/-- The lines that a front can have next to the counters. -/
structure Plain (e : Endian) (info : StaInfo) (l : StaLine) : Prop where
  header : l ≠ rxHeader
  counter : ∀ name v, l ≠ .counter name v
  shows : l.Shows e info.txBitrate.join

theorem front_of_plain (entered : String) (hentered : .text entered ≠ rxHeader) {ls : List StaLine}
    (h : ∀ l ∈ ls, Plain e info l) : Front e info (.text entered :: (counterLines e info ++ ls)) := by
  refine ⟨?_, fun name v => ?_, fun l hl => ?_⟩
  · intro hmem
    rcases List.mem_cons.mp hmem with he | hmem
    · exact hentered he.symm
    · rcases List.mem_append.mp hmem with hmem | hmem
      · obtain ⟨name, v, he⟩ := exists_counter hmem
        cases he
      · exact (h _ hmem).header rfl
  · constructor
    · intro hmem
      rcases List.mem_cons.mp hmem with he | hmem
      · cases he
      · exact (List.mem_append.mp hmem).resolve_right fun hmem => (h _ hmem).counter name v rfl
    · exact fun hmem => List.mem_cons_of_mem _ (List.mem_append_left _ hmem)
  · rcases List.mem_cons.mp hl with rfl | hl
    · trivial
    · rcases List.mem_append.mp hl with hl | hl
      · obtain ⟨name, v, rfl⟩ := exists_counter hl
        trivial
      · exact (h l hl).shows

theorem plain_text {s : String} (h : .text s ≠ rxHeader) : Plain e info (.text s) := ⟨h, nofun, trivial⟩

theorem plain_signal {l : StaLine} (h : l ∈ signalLines info) : Plain e info l := by
  obtain ⟨s, rfl⟩ | ⟨v, rfl⟩ := exists_signal h
  · exact ⟨nofun, nofun, trivial⟩
  · exact ⟨nofun, nofun, trivial⟩

theorem plain_tx (h : info.txBitrate = some (some tx)) {l : StaLine} (hl : l ∈ rateLines e tx ++ widthLines tx) :
    Plain e info l := by
  rcases List.mem_append.mp hl with hl | hl
  · obtain ⟨name, n, hn, rfl⟩ := mem_rateLines hl
    exact ⟨nofun, nofun, tx, n, by rw [h]; rfl, hn, rfl⟩
  · obtain ⟨name, rfl⟩ := exists_width hl
    exact ⟨nofun, nofun, tx, by rw [h]; rfl, mem_widthLines.mp hl⟩

/-- The text in front of the transmitting direction. -/
theorem plain_header : Plain e info (.text "Tx information:\n") := plain_text (by simp [rxHeader])

/-- The report, when it comes to the receiving direction. -/
theorem printed_reached (gotit : Nat) (h : Reached info tx rx) : ∃ ls, Front e info ls ∧
    (callbackOfGetStaInfo e gotit (some (some info))).printed = ls ++ rxHeader :: (rateLines e rx ++ widthLines tx) := by
  obtain ⟨hcross, hsignal⟩ := not_or.mp h.goes
  have hplain : ∀ l ∈ signalLines info ++ .text "Tx information:\n" :: (rateLines e tx ++ widthLines tx),
      Plain e info l := by
    intro l hl
    rcases List.mem_append.mp hl with hl | hl
    · exact plain_signal hl
    · rcases List.mem_cons.mp hl with rfl | hl
      · exact plain_header
      · exact plain_tx h.tx hl
  refine ⟨_, front_of_plain "Enter callback_of_get_sta_info\n" (by simp [rxHeader]) hplain, ?_⟩
  simp only [callbackOfGetStaInfo]
  rw [stopAtFault_cons (prints_text _), stopAtFault_counterLines, if_neg hcross,
    stopAtFault_append (prints_signalLines hsignal), stopAtFault_self prints_directionLines, directionLines, h.tx, h.rx]
  simp [rxLines]

/-- The lines of the directions, when the receiving one is not reported. -/
theorem plain_directionLines (h : ∀ tx rx, info.txBitrate = some (some tx) → info.rxBitrate ≠ some (some rx)) :
    ∀ l ∈ directionLines e info, Plain e info l := by
  intro l hl
  unfold directionLines at hl
  split at hl
  · exact List.mem_singleton.mp hl ▸ plain_text (by simp [rxHeader])
  · exact List.mem_singleton.mp hl ▸ plain_text (by simp [rxHeader])
  · rename_i tx htx
    rcases List.mem_append.mp hl with hl | hl
    · rcases List.mem_cons.mp hl with rfl | hl
      · exact plain_header
      · exact plain_tx htx hl
    · unfold rxLines at hl
      split at hl
      · exact List.mem_singleton.mp hl ▸ plain_text (by simp [rxHeader])
      · exact List.mem_singleton.mp hl ▸ plain_text (by simp [rxHeader])
      · rename_i rx hrx
        exact absurd hrx (h tx rx htx)

/-- And when it does not. -/
theorem printed_unreached (gotit : Nat) (h : ∀ tx rx, ¬ Reached info tx rx) :
    Front e info (callbackOfGetStaInfo e gotit (some (some info))).printed := by
  have hfront : ∀ ls, (∀ l ∈ ls, Plain e info l) →
      Front e info (.text "Enter callback_of_get_sta_info\n" :: (counterLines e info ++ ls)) := fun ls =>
    front_of_plain _ (by simp [rxHeader])
  simp only [callbackOfGetStaInfo]
  rw [stopAtFault_cons (prints_text _), stopAtFault_counterLines]
  by_cases hcross : info.rxPackets.isSome ∧ info.txPackets = none
  · rw [if_pos hcross]
    exact hfront [] (by simp)
  rw [if_neg hcross]
  by_cases hsignal : ∃ nla, info.chainSignal = some nla ∧ 0 ∉ nla.data
  · exact hfront _ fun l hl => plain_signal (stopAtFault_signalLines hsignal _ l hl)
  rw [stopAtFault_append (prints_signalLines hsignal), stopAtFault_self prints_directionLines]
  refine hfront _ fun l hl => ?_
  rcases List.mem_append.mp hl with hl | hl
  · exact plain_signal hl
  · exact plain_directionLines (fun tx rx htx hrx => h tx rx ⟨not_or.mpr ⟨hcross, hsignal⟩, htx, hrx⟩) l hl

/-! ## What the lines show -/

/-- Every line under the name of a counter or of a field of a rate shows the attribute of that name: of the transmitting
rate in front of `Rx information:`, of the receiving one behind it. -/
structure Truthful (e : Endian) (tb : Option (Option StaInfo)) (printed : List StaLine) : Prop where
  counter : ∀ name v, .counter name v ∈ printed →
    ∃ info n, tb = some (some info) ∧ info.value e name = some n ∧ v = .ok n
  tx : ∀ l ∈ beforeRx printed, l.Shows e (tb.join.bind fun info => info.txBitrate.join)
  rx : ∀ l ∈ afterRx printed, l.Shows e (tb.join.bind fun info => info.rxBitrate.join)

/-- The attributes with which the crossed tables do not show. -/
structure Straight (e : Endian) (info : StaInfo) : Prop where
  bytes : ∀ n, info.value e .rxBytes = some n → info.value e .txBytes = some n
  packets : ∀ n, info.value e .rxPackets = some n → info.value e .txPackets = some n
  widths : ∀ tx rx, Reached info tx rx → ∀ name, tx.has name = true → rx.has name = true

theorem shows_rx_iff : (∀ l ∈ rateLines e rx ++ widthLines tx, l.Shows e (some rx)) ↔
    ∀ name, tx.has name = true → rx.has name = true := by
  constructor
  · intro h name hname
    obtain ⟨r, hr, hhas⟩ := h (.width name) (List.mem_append_right _ (mem_widthLines.mpr hname))
    rwa [Option.some_inj.mp hr]
  · intro h l hl
    rcases List.mem_append.mp hl with hl | hl
    · obtain ⟨name, n, hn, rfl⟩ := mem_rateLines hl
      exact ⟨rx, n, rfl, hn, rfl⟩
    · obtain ⟨name, rfl⟩ := exists_width hl
      exact ⟨rx, rfl, h name (mem_widthLines.mp hl)⟩

/-- The counters of a report are those of `counterLines`. -/
theorem counters_iff {ls : List StaLine}
    (h : ∀ name v, StaLine.counter name v ∈ ls ↔ .counter name v ∈ counterLines e info) :
    (∀ name v, .counter name v ∈ ls →
      ∃ info' n, some (some info) = some (some info') ∧ info'.value e name = some n ∧ v = .ok n) ↔
      (∀ n, info.value e .rxBytes = some n → info.value e .txBytes = some n) ∧
        ∀ n, info.value e .rxPackets = some n → info.value e .txPackets = some n := by
  rw [← counterLines_right_iff]
  constructor
  · intro hright name v hv
    obtain ⟨info', n, hinfo, hn, rfl⟩ := hright name v ((h name v).mpr hv)
    obtain rfl := Option.some_inj.mp (Option.some_inj.mp hinfo)
    exact ⟨n, hn, rfl⟩
  · intro hright name v hv
    obtain ⟨n, hn, rfl⟩ := hright name v ((h name v).mp hv)
    exact ⟨info, n, rfl, hn, rfl⟩

/-- Behind `Rx information:` there is no counter. -/
theorem counter_reached {ls : List StaLine} (h : Front e info ls) (name : CounterName) (v : Except Stop Nat) :
    .counter name v ∈ ls ++ rxHeader :: (rateLines e rx ++ widthLines tx) ↔
      .counter name v ∈ counterLines e info := by
  rw [← h.counter]
  refine ⟨fun hmem => (List.mem_append.mp hmem).resolve_right fun hmem => ?_, List.mem_append_left _⟩
  rcases List.mem_cons.mp hmem with he | hmem
  · cases he
  · rcases List.mem_append.mp hmem with hmem | hmem
    · obtain ⟨_, _, _, he⟩ := mem_rateLines hmem
      cases he
    · obtain ⟨_, he⟩ := exists_width hmem
      cases he

/-- A report that comes to the receiving direction. -/
theorem truthful_reached_iff (gotit : Nat) (hr : Reached info tx rx) :
    Truthful e (some (some info)) (callbackOfGetStaInfo e gotit (some (some info))).printed ↔ Straight e info := by
  obtain ⟨ls, hfront, hprinted⟩ := printed_reached (e := e) gotit hr
  have hrx : (some (some info)).join.bind (fun info => info.rxBitrate.join) = some rx := by
    show info.rxBitrate.join = some rx
    rw [hr.rx]
    rfl
  have hcounters := counters_iff (@counter_reached e info tx rx ls hfront)
  rw [hprinted]
  constructor
  · intro h
    obtain ⟨hbytes, hpackets⟩ := hcounters.mp h.counter
    refine ⟨hbytes, hpackets, fun tx' rx' hr' => ?_⟩
    obtain rfl := Option.some_inj.mp (Option.some_inj.mp (hr.tx.symm.trans hr'.tx))
    obtain rfl := Option.some_inj.mp (Option.some_inj.mp (hr.rx.symm.trans hr'.rx))
    have hshows := h.rx
    rw [afterRx_append hfront.header, hrx] at hshows
    exact shows_rx_iff.mp hshows
  · intro h
    refine ⟨hcounters.mpr ⟨h.bytes, h.packets⟩, ?_, ?_⟩
    · rw [beforeRx_append hfront.header]
      exact hfront.shows
    · rw [afterRx_append hfront.header, hrx]
      exact shows_rx_iff.mpr (h.widths tx rx hr)

/-- A report that does not. -/
theorem truthful_unreached_iff (gotit : Nat) (hno : ∀ tx rx, ¬ Reached info tx rx) :
    Truthful e (some (some info)) (callbackOfGetStaInfo e gotit (some (some info))).printed ↔ Straight e info := by
  have hfront := printed_unreached (e := e) gotit hno
  have hcounters := counters_iff hfront.counter
  constructor
  · intro h
    obtain ⟨hbytes, hpackets⟩ := hcounters.mp h.counter
    exact ⟨hbytes, hpackets, fun tx rx h => absurd h (hno tx rx)⟩
  · intro h
    refine ⟨hcounters.mpr ⟨h.bytes, h.packets⟩, ?_, ?_⟩
    · rw [beforeRx_none hfront.header]
      exact hfront.shows
    · rw [afterRx_none hfront.header]
      exact fun l hl => absurd hl List.not_mem_nil

/-- A report of one message. -/
theorem truthful_iff (e : Endian) (gotit : Nat) (tb : Option (Option StaInfo)) :
    Truthful e tb (callbackOfGetStaInfo e gotit tb).printed ↔ ∀ info, tb = some (some info) → Straight e info := by
  have htexts : ∀ {tb : Option (Option StaInfo)} (s s' : String), .text s ≠ rxHeader → .text s' ≠ rxHeader →
      Truthful e tb [.text s, .text s'] := by
    intro tb s s' hs hs'
    have hheader : rxHeader ∉ [StaLine.text s, .text s'] := by simpa using ⟨Ne.symm hs, Ne.symm hs'⟩
    refine ⟨fun name v hv => by simp at hv, ?_, ?_⟩
    · rw [beforeRx_none hheader]
      simp [StaLine.Shows]
    · rw [afterRx_none hheader]
      simp
  match tb with
  | none =>
    exact iff_of_true (htexts "Enter callback_of_get_sta_info\n" "STA info is missing.\n" (by simp [rxHeader])
      (by simp [rxHeader])) (by simp)
  | some none =>
    exact iff_of_true (htexts "Enter callback_of_get_sta_info\n" "Failed to parse STA info nested nla.\n"
      (by simp [rxHeader]) (by simp [rxHeader])) (by simp)
  | some (some info) =>
    have hinfo : Truthful e (some (some info)) (callbackOfGetStaInfo e gotit (some (some info))).printed ↔
        Straight e info := by
      by_cases hr : ∃ tx rx, Reached info tx rx
      · obtain ⟨tx, rx, hr⟩ := hr
        exact truthful_reached_iff gotit hr
      · exact truthful_unreached_iff gotit fun tx rx h => hr ⟨tx, rx, h⟩
    rw [hinfo]
    simp

/-! ## What depends on the other direction -/

/-- The lines behind `Rx information:`, when there are any. -/
theorem afterRx_reached (gotit : Nat) (h : Reached info tx rx) :
    afterRx (callbackOfGetStaInfo e gotit (some (some info))).printed = rateLines e rx ++ widthLines tx := by
  obtain ⟨ls, hfront, hprinted⟩ := printed_reached (e := e) gotit h
  rw [hprinted, afterRx_append hfront.header]

theorem afterRx_unreached (gotit : Nat) (h : ∀ tx rx, ¬ Reached info tx rx) :
    afterRx (callbackOfGetStaInfo e gotit (some (some info))).printed = [] :=
  afterRx_none (printed_unreached gotit h).header

/-- The message with other contents of its transmitting rate. -/
def StaInfo.withTx (info : StaInfo) (c : Option RateInfo) : StaInfo := { info with txBitrate := some c }

/-- The receiving rate shows no number, and the transmitting one has no width. -/
def Bare (e : Endian) (rx tx : RateInfo) : Prop := (∀ name, rx.value e name = none) ∧ ∀ name, tx.has name = false

/-- Two contents of the transmitting rate that agree on the widths. Contents that cannot be parsed end the report in front
of the receiving rate, which may be missed only if it has nothing to show. -/
def AgreeOn (e : Endian) (rx : RateInfo) : Option RateInfo → Option RateInfo → Prop
  | some tx, some tx' => ∀ name, tx.has name = tx'.has name
  | some tx, none => Bare e rx tx
  | none, some tx' => Bare e rx tx'
  | none, none => True

/-- They agree, or the receiving rate is not reported in any case. -/
def Agree (e : Endian) (info : StaInfo) (c c' : Option RateInfo) : Prop :=
  ∀ rx, ¬ info.Stops → info.rxBitrate = some (some rx) → AgreeOn e rx c c'

theorem lines_eq_nil_iff : rateLines e rx ++ widthLines tx = [] ↔ Bare e rx tx := by
  rw [List.append_eq_nil_iff]
  refine and_congr ?_ ?_
  · constructor
    · intro h name
      simp only [rateLines, List.append_eq_nil_iff, whenPresent, List.map_eq_nil_iff, Option.toList_eq_nil_iff] at h
      obtain ⟨⟨⟨hb, hm⟩, hvm⟩, hvn⟩ := h
      cases name <;> simp [RateInfo.value, hb, hm, hvm, hvn]
    · intro h
      refine List.eq_nil_iff_forall_not_mem.mpr fun l hl => ?_
      obtain ⟨name, n, hn, -⟩ := mem_rateLines hl
      rw [h name] at hn
      cases hn
  · constructor
    · intro h name
      by_contra hhas
      have hmem := mem_widthLines.mpr (Bool.eq_true_of_not_eq_false hhas)
      rw [h] at hmem
      cases hmem
    · intro h
      refine List.eq_nil_iff_forall_not_mem.mpr fun l hl => ?_
      obtain ⟨name, rfl⟩ := exists_width hl
      rw [mem_widthLines, h name] at hl
      cases hl

/-- The lines on the receiving direction, with any contents of the transmitting rate. -/
theorem afterRx_withTx (gotit : Nat) (c : Option RateInfo) (hs : ¬ info.Stops)
    (hrx : info.rxBitrate = some (some rx)) :
    afterRx (callbackOfGetStaInfo e gotit (some (some (info.withTx c)))).printed =
      c.elim [] fun tx => rateLines e rx ++ widthLines tx := by
  cases c with
  | none =>
    refine afterRx_unreached gotit fun tx rx h => ?_
    cases h.tx
  | some tx => exact afterRx_reached gotit ⟨hs, rfl, hrx⟩

theorem afterRx_withTx_nil (gotit : Nat) (c : Option RateInfo) (h : info.Stops ∨ ∀ rx, info.rxBitrate ≠ some (some rx)) :
    afterRx (callbackOfGetStaInfo e gotit (some (some (info.withTx c)))).printed = [] := by
  refine afterRx_unreached gotit fun tx rx hr => ?_
  rcases h with h | h
  · exact hr.goes h
  · exact h rx hr.rx

/-- The lines behind `Rx information:` with two contents of the transmitting rate. -/
theorem rx_lines_iff (e : Endian) (gotit : Nat) (info : StaInfo) (c c' : Option RateInfo) :
    afterRx (callbackOfGetStaInfo e gotit (some (some (info.withTx c)))).printed =
        afterRx (callbackOfGetStaInfo e gotit (some (some (info.withTx c')))).printed ↔ Agree e info c c' := by
  by_cases hr : info.Stops ∨ ∀ rx, info.rxBitrate ≠ some (some rx)
  · rw [afterRx_withTx_nil gotit c hr, afterRx_withTx_nil gotit c' hr]
    refine iff_of_true rfl fun rx hs hrx => ?_
    rcases hr with hr | hr
    · exact absurd hr hs
    · exact absurd hrx (hr rx)
  · obtain ⟨hs, hrx⟩ := not_or.mp hr
    obtain ⟨rx, hrx⟩ : ∃ rx, info.rxBitrate = some (some rx) := by
      by_contra hno
      exact hrx fun rx h => hno ⟨rx, h⟩
    have hagree : Agree e info c c' ↔ AgreeOn e rx c c' := by
      constructor
      · exact fun h => h rx hs hrx
      · intro h rx' _ hrx'
        obtain rfl := Option.some_inj.mp (Option.some_inj.mp (hrx.symm.trans hrx'))
        exact h
    rw [afterRx_withTx gotit c hs hrx, afterRx_withTx gotit c' hs hrx, hagree]
    cases c with
    | none =>
      cases c' with
      | none => exact iff_of_true rfl trivial
      | some tx' => exact eq_comm.trans lines_eq_nil_iff
    | some tx =>
      cases c' with
      | none => exact lines_eq_nil_iff
      | some tx' => simp only [Option.elim_some, List.append_cancel_left_eq, widthLines_eq_iff, AgreeOn]

/-- A rate without attributes, and one with the width of 40 MHz. -/
def bareRate : RateInfo := ⟨none, none, none, none, none, none⟩

def wideRate : RateInfo := { bareRate with width40Mhz := some ⟨4, []⟩ }

/-- A station that has received 7 bytes and sent none. -/
def receiver : StaInfo :=
  ⟨none, none, some ⟨⟨1, [7, 0, 0, 0]⟩, by simp⟩, none, none, none, some (some bareRate), some (some bareRate)⟩

end SideWork.Nl80211
