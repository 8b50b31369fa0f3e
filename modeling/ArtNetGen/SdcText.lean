import ArtNetGen.RoundTrip
import ArtNetGen.SpecText

/-!
The constraints that `writeSdc` writes next to the Verilog file. They name the
ports of that file: the clock, each other input and each output once. The period of
the clock goes back to the averages of the spec file.
-/

namespace Artnetgen

open Decimal Tokens

/-! ## Writing -/

/-- `to_string` of a double that is an integer. -/
def toStringDouble (n : ℤ) : String := String.ofList (printFixed 6 n)

/-- The clock period, rounded to `resolution`. The product of doubles is a
parameter; one that is no `int` has no value. -/
def ArtNetGen.synClkPeriod (ang : ArtNetGen) (times : ℚ → ℚ → ℚ) : Option ℤ :=
  let resolution := 50
  let unit := 1000
  let synClkPeriod := truncInt (times (times ang.avgGateDelay ang.avgTopoOrder) unit)
  if intMin ≤ synClkPeriod ∧ synClkPeriod ≤ intMax then
    some (synClkPeriod - synClkPeriod.tmod resolution)
  else none

/-- A zero, negative if the period is. -/
def ioDelay (synClkPeriod : ℤ) : String :=
  if synClkPeriod < 0 then "-" ++ toStringDouble 0 else toStringDouble 0

namespace Netlist

def setInputDelay (nl : Netlist) (synClkPeriod : ℤ) (inNode : NodeId) : String :=
  "set_input_delay -max " ++ ioDelay synClkPeriod ++ " [get_ports " ++ nl.name inNode ++
    "] -clock clk\n"

def setOutputDelay (nl : Netlist) (synClkPeriod : ℤ) (outNode : NodeId) : String :=
  "set_output_delay -max " ++ ioDelay synClkPeriod ++ " [get_ports " ++ nl.name outNode ++
    "] -clock clk\n"

end Netlist

/-- The text of the file, below the comment at its head. -/
def ArtNetGen.writeSdc (ang : ArtNetGen) (times : ℚ → ℚ → ℚ) (artnet : Netlist) :
    Option String := do
  let synClkPeriod ← ang.synClkPeriod times
  some (String.join (["\n", "set sdc_version 2.1\n", "\n"] ++
    ["create_clock [get_ports clk] -period " ++ toStringDouble synClkPeriod ++ " -name clk\n"] ++
    (artnet.primIns.filter fun inNode => decide (artnet.type inNode ≠ .clockIn)).map
      (artnet.setInputDelay synClkPeriod) ++
    artnet.primOuts.map (artnet.setOutputDelay synClkPeriod)))

/-! ## Reading -/

inductive SdcCommand where
  | clock (port : String) (period : ℚ) (name : String)
  | inputDelay (delay : ℚ) (port clock : String)
  | outputDelay (delay : ℚ) (port clock : String)
deriving DecidableEq

namespace Sdc

/-- A command ends with its line. -/
def charKind (c : Char) : Kind :=
  if c.isAlphanum || c == '_' || c == '-' || c == '.' then .word
  else if c == '\n' then .mark
  else if c.isWhitespace then .blank
  else .mark

def readNumber (w : String) : Option ℚ :=
  match readRat w.toList with
  | some (x, []) => some x
  | _ => none

/-- The commands of a line, if there are any. -/
def readLine : Reader Token (List SdcCommand)
  | .mark '\n' :: rest => some ([], rest)
  | .word "set" :: .word "sdc_version" :: .word _ :: .mark '\n' :: rest => some ([], rest)
  | .word "create_clock" :: .mark '[' :: .word "get_ports" :: .word port :: .mark ']' ::
      .word "-period" :: .word period :: .word "-name" :: .word name :: .mark '\n' :: rest =>
    (readNumber period).map fun period => ([.clock port period name], rest)
  | .word "set_input_delay" :: .word "-max" :: .word delay :: .mark '[' :: .word "get_ports" ::
      .word port :: .mark ']' :: .word "-clock" :: .word clock :: .mark '\n' :: rest =>
    (readNumber delay).map fun delay => ([.inputDelay delay port clock], rest)
  | .word "set_output_delay" :: .word "-max" :: .word delay :: .mark '[' :: .word "get_ports" ::
      .word port :: .mark ']' :: .word "-clock" :: .word clock :: .mark '\n' :: rest =>
    (readNumber delay).map fun delay => ([.outputDelay delay port clock], rest)
  | _ => none

def readSdc (text : String) : Option (List SdcCommand) := do
  let (commands, rest) ← readAll readLine (tokens charKind text)
  if rest = [] then some commands.flatten else none

/-! ## Words -/

/-- What one word is made of. -/
structure IsWord (w : String) : Prop where
  ne_empty : w ≠ ""
  word : ∀ c ∈ w.toList, charKind c = .word

instance (w : String) : Decidable (IsWord w) :=
  decidable_of_iff ((w != "" && w.toList.all fun c => charKind c == .word) = true) (by
    rw [Bool.and_eq_true, List.all_eq_true]
    exact ⟨fun h => ⟨by simpa using h.1, fun c hc => by simpa using h.2 c hc⟩,
      fun h => ⟨by simpa using h.ne_empty, fun c hc => by simpa using h.word c hc⟩⟩)

theorem IsWord.tokens {w : String} (h : IsWord w) : tokens charKind w = [.word w] :=
  tokens_word h.ne_empty h.word

theorem charKind_of_isAlphanum {c : Char} (h : c.isAlphanum = true) : charKind c = .word := by
  unfold charKind
  rw [h, Bool.true_or, Bool.true_or, Bool.true_or, if_pos rfl]

theorem charKind_of_isDigit {c : Char} (h : c.isDigit = true) : charKind c = .word := by
  apply charKind_of_isAlphanum
  unfold Char.isAlphanum
  rw [h, Bool.or_true]

theorem isWord_printFixed (k : ℕ) (n : ℤ) : IsWord (String.ofList (printFixed k n)) := by
  have hint : ∀ c ∈ printInt n, charKind c = .word := by
    intro c hc
    unfold printInt at hc
    split at hc
    · rcases List.mem_cons.mp hc with rfl | hc
      · rfl
      · exact charKind_of_isDigit (isDigit_toDigits _ c hc)
    · exact charKind_of_isDigit (isDigit_toDigits _ c hc)
  refine ⟨?_, ?_⟩
  · intro hnil
    have hlist : printFixed k n = [] := by
      rw [← String.toList_ofList (l := printFixed k n), hnil]
      rfl
    exact printInt_ne_nil n (List.append_eq_nil_iff.mp hlist).1
  · intro c hc
    rw [String.toList_ofList] at hc
    rcases List.mem_append.mp hc with hc | hc
    · exact hint c hc
    · rcases List.mem_cons.mp hc with rfl | hc
      · rfl
      · rw [List.eq_of_mem_replicate hc]
        rfl

theorem isWord_numbered {stem : String} (h : IsWord stem) (i : ℕ) :
    IsWord (stem ++ toString i) := by
  refine ⟨?_, ?_⟩
  · intro hnil
    exact h.ne_empty (String.append_eq_empty_iff.mp hnil).1
  · intro c hc
    rw [String.toList_append] at hc
    rcases List.mem_append.mp hc with hc | hc
    · exact h.word c hc
    · exact charKind_of_isDigit (Names.isDigit_of_mem_toString hc)

theorem readNumber_toStringDouble (n : ℤ) : readNumber (toStringDouble n) = some (n : ℚ) := by
  unfold readNumber toStringDouble
  rw [String.toList_ofList, readRat_printFixed]

theorem isWord_ioDelay (synClkPeriod : ℤ) : IsWord (ioDelay synClkPeriod) := by
  unfold ioDelay
  split
  · decide +kernel
  · exact isWord_printFixed 6 0

theorem readNumber_ioDelay (synClkPeriod : ℤ) : readNumber (ioDelay synClkPeriod) = some 0 := by
  unfold ioDelay
  split
  · decide +kernel
  · exact readNumber_toStringDouble 0

/-! ## Lines -/

/-- A line and the commands that it is read as. -/
structure IsLine (line : String × List SdcCommand) : Prop where
  closed : Closed charKind line.1
  reads : Reads readLine (tokens charKind line.1) line.2

theorem readSdc_join {lines : List (String × List SdcCommand)} (h : ∀ line ∈ lines, IsLine line) :
    readSdc (String.join (lines.map Prod.fst)) = some (lines.flatMap Prod.snd) := by
  have hclosed : ∀ text ∈ lines.map Prod.fst, Closed charKind text := by
    intro text htext
    obtain ⟨line, hline, rfl⟩ := List.mem_map.mp htext
    exact (h line hline).closed
  have hread : readAll readLine (lines.flatMap fun line => tokens charKind line.1) =
      some (lines.map Prod.snd, []) := by
    have hread := readAll_flatMap (fun line hline => (h line hline).reads)
      (show readLine [] = none by rfl)
    rwa [List.append_nil] at hread
  unfold readSdc
  rw [tokens_join hclosed, List.flatMap_map, hread, Option.bind_eq_bind, Option.bind_some]
  dsimp only
  rw [if_pos rfl, List.flatMap_def]

theorem isLine_clock (n : ℤ) :
    IsLine ("create_clock [get_ports clk] -period " ++ toStringDouble n ++ " -name clk\n",
      [.clock "clk" n "clk"]) := by
  refine ⟨closed_append _ (by decide +kernel) (by decide +kernel), fun rest => ?_⟩
  have htokens : tokens charKind
      ("create_clock [get_ports clk] -period " ++ toStringDouble n ++ " -name clk\n") =
        [.word "create_clock", .mark '[', .word "get_ports", .word "clk", .mark ']',
          .word "-period", .word (toStringDouble n), .word "-name", .word "clk", .mark '\n'] :=
    tokens_between (by decide +kernel) (isWord_printFixed 6 n).tokens (by decide +kernel)
  rw [htokens]
  simp [readLine, readNumber_toStringDouble]

/-- The tokens of a line that sets a delay. -/
theorem tokens_delay {command delay port : String} (hcommand : IsWord command)
    (hdelay : IsWord delay) (hport : IsWord port) :
    tokens charKind (command ++ " -max " ++ delay ++ " [get_ports " ++ port ++ "] -clock clk\n") =
      [.word command, .word "-max", .word delay, .mark '[', .word "get_ports", .word port,
        .mark ']', .word "-clock", .word "clk", .mark '\n'] := by
  have hbefore : Closed charKind (command ++ " -max ") :=
    closed_append _ (by decide +kernel) (by decide +kernel)
  have hbehind : Closed charKind (command ++ " -max " ++ delay ++ " [get_ports ") :=
    closed_append _ (by decide +kernel) (by decide +kernel)
  rw [tokens_between hbehind hport.tokens (by decide +kernel),
    tokens_between hbefore hdelay.tokens (by decide +kernel),
    tokens_append_opens _ (by decide +kernel), hcommand.tokens]
  rfl

theorem isLine_inputDelay (nl : Netlist) (n : ℤ) {v : NodeId} (hv : IsWord (nl.name v)) :
    IsLine (nl.setInputDelay n v, [.inputDelay 0 (nl.name v) "clk"]) := by
  refine ⟨closed_append _ (by decide +kernel) (by decide +kernel), fun rest => ?_⟩
  have htokens : tokens charKind (nl.setInputDelay n v) = _ :=
    @tokens_delay "set_input_delay" _ _ (by decide +kernel) (isWord_ioDelay n) hv
  rw [htokens]
  simp [readLine, readNumber_ioDelay]

theorem isLine_outputDelay (nl : Netlist) (n : ℤ) {v : NodeId} (hv : IsWord (nl.name v)) :
    IsLine (nl.setOutputDelay n v, [.outputDelay 0 (nl.name v) "clk"]) := by
  refine ⟨closed_append _ (by decide +kernel) (by decide +kernel), fun rest => ?_⟩
  have htokens : tokens charKind (nl.setOutputDelay n v) = _ :=
    @tokens_delay "set_output_delay" _ _ (by decide +kernel) (isWord_ioDelay n) hv
  rw [htokens]
  simp [readLine, readNumber_ioDelay]

end Sdc

open Sdc

/-- What the file says about ports with such names. -/
def sdcCommands (period : ℚ) (inputs outputs : List String) : List SdcCommand :=
  .clock "clk" period "clk" :: inputs.map (fun port => .inputDelay 0 port "clk") ++
    outputs.map fun port => .outputDelay 0 port "clk"

/-- The lines of the file and what they are read as. -/
def Netlist.sdcLines (nl : Netlist) (synClkPeriod : ℤ) : List (String × List SdcCommand) :=
  [("\n", []), ("set sdc_version 2.1\n", []), ("\n", [])] ++
    [("create_clock [get_ports clk] -period " ++ toStringDouble synClkPeriod ++ " -name clk\n",
      [.clock "clk" synClkPeriod "clk"])] ++
    (nl.primIns.filter fun inNode => decide (nl.type inNode ≠ .clockIn)).map
      (fun inNode => (nl.setInputDelay synClkPeriod inNode,
        [.inputDelay 0 (nl.name inNode) "clk"])) ++
    nl.primOuts.map fun outNode => (nl.setOutputDelay synClkPeriod outNode,
      [.outputDelay 0 (nl.name outNode) "clk"])

namespace Netlist

variable {nl : Netlist} {n : ℤ} {ang : ArtNetGen} {times : ℚ → ℚ → ℚ}

theorem isLine_of_mem (hins : ∀ v ∈ nl.primIns, IsWord (nl.name v))
    (houts : ∀ v ∈ nl.primOuts, IsWord (nl.name v)) : ∀ line ∈ nl.sdcLines n, IsLine line := by
  have hempty : IsLine ("\n", []) := ⟨by decide +kernel, fun _ => rfl⟩
  have hversion : IsLine ("set sdc_version 2.1\n", []) := by
    refine ⟨by decide +kernel, fun rest => ?_⟩
    have htokens : tokens charKind "set sdc_version 2.1\n" =
        [.word "set", .word "sdc_version", .word "2.1", .mark '\n'] := by decide +kernel
    rw [htokens]
    simp [readLine]
  unfold sdcLines
  simp only [List.forall_mem_append, List.forall_mem_map]
  refine ⟨⟨⟨?_, ?_⟩, fun v hv => ?_⟩, fun v hv => ?_⟩
  · simp only [List.forall_mem_cons]
    exact ⟨hempty, hversion, hempty, List.forall_mem_nil _⟩
  · exact List.forall_mem_singleton.mpr (isLine_clock n)
  · exact isLine_inputDelay nl n (hins v (List.mem_filter.mp hv).1)
  · exact isLine_outputDelay nl n (houts v hv)

theorem readSdc_writeSdc (hn : ang.synClkPeriod times = some n)
    (hins : ∀ v ∈ nl.primIns, IsWord (nl.name v)) (houts : ∀ v ∈ nl.primOuts, IsWord (nl.name v)) :
    ∃ text, ang.writeSdc times nl = some text ∧
      readSdc text = some (sdcCommands n
        ((nl.primIns.filter fun v => decide (nl.type v ≠ .clockIn)).map nl.name)
        (nl.primOuts.map nl.name)) := by
  refine ⟨String.join ((nl.sdcLines n).map Prod.fst), ?_, ?_⟩
  · unfold ArtNetGen.writeSdc sdcLines
    rw [hn, Option.bind_eq_bind, Option.bind_some]
    simp [Function.comp_def]
  · have hmap : ∀ (l : List NodeId) (write : NodeId → String) (command : NodeId → SdcCommand),
        (l.map fun v => (write v, [command v])).flatMap Prod.snd = l.map command := by
      intro l write command
      rw [List.flatMap_map, List.map_eq_flatMap]
    rw [readSdc_join (isLine_of_mem hins houts)]
    simp [sdcLines, sdcCommands, hmap, Function.comp_def]

end Netlist

/-! ## The period -/

/-- The largest multiple of the resolution that is not beyond a number. -/
structure IsPeriod (x : ℚ) (n : ℤ) : Prop where
  dvd : 50 ∣ n
  le : |(n : ℚ)| ≤ |x|
  lt : |x| < |(n : ℚ)| + 50
  sign : 0 ≤ x * n

theorem IsPeriod.of_neg {x : ℚ} {n : ℤ} (h : IsPeriod (-x) (-n)) : IsPeriod x n where
  dvd := Int.dvd_neg.mp h.dvd
  le := by simpa using h.le
  lt := by simpa using h.lt
  sign := by simpa using h.sign

theorem truncInt_neg (x : ℚ) : truncInt (-x) = -truncInt x := by
  unfold truncInt
  rcases lt_trichotomy x 0 with hx | rfl | hx
  · rw [if_pos (neg_nonneg.mpr hx.le), if_neg (not_le.mpr hx), Int.floor_neg]
  · simp
  · rw [if_neg (by simpa using hx), if_pos hx.le, Int.ceil_neg]

theorem isPeriod_of_nonneg {x : ℚ} (hx : 0 ≤ x) :
    IsPeriod x (truncInt x - (truncInt x).tmod 50) := by
  have hfloor : truncInt x = ⌊x⌋ := if_pos hx
  have hnonneg : 0 ≤ ⌊x⌋ := Int.floor_nonneg.mpr hx
  obtain ⟨n, hn, hdvd, hpos, hle, hlt⟩ : ∃ n : ℤ, ⌊x⌋ - ⌊x⌋.tmod 50 = n ∧ 50 ∣ n ∧ 0 ≤ n ∧
      n ≤ ⌊x⌋ ∧ ⌊x⌋ + 1 ≤ n + 50 := by
    rw [Int.tmod_eq_emod_of_nonneg hnonneg]
    exact ⟨_, rfl, by omega, by omega, by omega, by omega⟩
  have hposRat : (0 : ℚ) ≤ n := Int.cast_nonneg hpos
  rw [hfloor, hn]
  refine ⟨hdvd, ?_, ?_, mul_nonneg hx hposRat⟩
  · rw [abs_of_nonneg hposRat, abs_of_nonneg hx]
    exact (Int.cast_le.mpr hle).trans (Int.floor_le x)
  · rw [abs_of_nonneg hposRat, abs_of_nonneg hx]
    calc x < ⌊x⌋ + 1 := Int.lt_floor_add_one x
      _ ≤ n + 50 := by exact_mod_cast hlt

/-- Both roundings are towards 0. -/
theorem isPeriod (x : ℚ) : IsPeriod x (truncInt x - (truncInt x).tmod 50) := by
  rcases le_total 0 x with hx | hx
  · exact isPeriod_of_nonneg hx
  · have hneg := isPeriod_of_nonneg (neg_nonneg.mpr hx)
    rw [truncInt_neg, Int.neg_tmod, neg_sub_neg, ← neg_sub] at hneg
    exact hneg.of_neg

theorem ArtNetGen.exists_period {ang : ArtNetGen} {times : ℚ → ℚ → ℚ}
    (hlow : intMin ≤ truncInt (times (times ang.avgGateDelay ang.avgTopoOrder) 1000))
    (hhigh : truncInt (times (times ang.avgGateDelay ang.avgTopoOrder) 1000) ≤ intMax) :
    ∃ n, ang.synClkPeriod times = some n ∧
      IsPeriod (times (times ang.avgGateDelay ang.avgTopoOrder) 1000) n :=
  ⟨_, if_pos ⟨hlow, hhigh⟩, isPeriod _⟩

/-! ## Runs -/

/-- Excluding cells leaves the averages alone. -/
theorem ArtNetGen.setDontUse_averages (names : List String) (ang : ArtNetGen) :
    (names.foldl setDontUse ang).avgGateDelay = ang.avgGateDelay ∧
      (names.foldl setDontUse ang).avgTopoOrder = ang.avgTopoOrder := by
  induction names generalizing ang with
  | nil => exact ⟨rfl, rfl⟩
  | cons name rest ih => exact ih (ang.setDontUse name)

open Verilog (isIdentifier readVerilog)

namespace Generation

open Netlist

variable {addr : NodeId ↪ ℕ} {ang : ArtNetGen} (g : Generation addr ang)

theorem isWord_name {v : NodeId} (hv : v < g.mapped.size) : Sdc.IsWord (g.mapped.name v) := by
  have hstems : ∀ stem ∈ instanceStems ++ ["in", "out"], Sdc.IsWord stem := by decide +kernel
  by_cases hinst : (g.mapped.type v).IsInstance
  · obtain ⟨stem, hstem, hname⟩ := g.numbered v hv hinst
    rw [hname]
    exact isWord_numbered (hstems stem (List.mem_append_left _ hstem)) v
  · rcases name_of_port hv hinst with ⟨stem, hstem, i, hname⟩ | hcontrol
    · rw [hname]
      exact isWord_numbered (hstems stem (List.mem_append_right _ hstem)) i
    · have hcontrols : ∀ name ∈ ["clk", "rst"], Sdc.IsWord name := by decide +kernel
      exact hcontrols _ hcontrol

/-- The clock is the node of its type and the node of its name. -/
theorem clk_iff {v : NodeId} (hv : v < g.mapped.size) :
    (g.mapped.type v = .clockIn ↔ v = g.finished.size) ∧
      (g.mapped.name v = "clk" ↔ v = g.finished.size) := by
  obtain ⟨mid, -, hchosen, hmapped, -⟩ := g.chosen
  have hclk : g.mapped.name g.finished.size = "clk" := by
    rw [(hmapped.same hchosen hchosen.prepared.clk_lt).2.1]
    exact hchosen.clk.2
  have hlt : g.finished.size < g.mapped.size := by
    rw [g.size]
    exact Nat.lt_add_of_pos_right Nat.two_pos
  refine ⟨⟨fun htype => ?_, ?_⟩, fun hname => ?_, ?_⟩
  · have hvmid : v < mid.size := hmapped.size ▸ hv
    rw [(hmapped.same hchosen hvmid).1] at htype
    exact hchosen.prepared.clk_of_type hvmid htype
  · rintro rfl
    exact g.type_clk
  · exact name_injective hv hlt (hname.trans hclk.symm)
  · rintro rfl
    exact hclk

theorem portNames_nodup : (g.mapped.primIns.map g.mapped.name).Nodup ∧
    (g.mapped.primOuts.map g.mapped.name).Nodup := by
  obtain ⟨hinNodup, houtNodup⟩ := mappedPorts_nodup (g := g)
  obtain ⟨hinLt, houtLt⟩ := g.ports_lt
  exact ⟨hinNodup.map_on fun u hu v hv => name_injective (hinLt u hu) (hinLt v hv),
    houtNodup.map_on fun u hu v hv => name_injective (houtLt u hu) (houtLt v hv)⟩

/-- `writeSdc` passes over the clock by its type; nothing else is called so. -/
theorem inputs_but_clk :
    (g.mapped.primIns.filter fun v => decide (g.mapped.type v ≠ .clockIn)).map g.mapped.name =
      (g.mapped.primIns.map g.mapped.name).filter fun port => decide (port ≠ "clk") := by
  rw [List.filter_map]
  congr 1
  apply List.filter_congr
  intro v hv
  obtain ⟨htype, hname⟩ := g.clk_iff (g.ports_lt.1 v hv)
  apply decide_eq_decide.mpr
  rw [Ne, Ne, htype, hname]

/-- What `writeSdc` writes at the end of a run reads back. -/
theorem reads_sdc (names : List String)
    (g : Generation addr (names.foldl ArtNetGen.setDontUse ang)) (times : ℚ → ℚ → ℚ)
    (hlow : intMin ≤ truncInt (times (times ang.avgGateDelay ang.avgTopoOrder) 1000))
    (hhigh : truncInt (times (times ang.avgGateDelay ang.avgTopoOrder) 1000) ≤ intMax) :
    ∃ sdc, ∃ period : ℤ,
      (names.foldl ArtNetGen.setDontUse ang).writeSdc times g.mapped = some sdc ∧
      readSdc sdc = some (sdcCommands period
        ((g.mapped.primIns.map g.mapped.name).filter fun port => decide (port ≠ "clk"))
        (g.mapped.primOuts.map g.mapped.name)) ∧
      IsPeriod (times (times ang.avgGateDelay ang.avgTopoOrder) 1000) period := by
  obtain ⟨hdelay, horder⟩ := ArtNetGen.setDontUse_averages names ang
  rw [← hdelay, ← horder] at hlow hhigh ⊢
  obtain ⟨period, hperiod, hisPeriod⟩ := ArtNetGen.exists_period hlow hhigh
  obtain ⟨hinLt, houtLt⟩ := g.ports_lt
  obtain ⟨sdc, hsdc, hread⟩ := readSdc_writeSdc hperiod
    (fun v hv => g.isWord_name (hinLt v hv)) fun v hv => g.isWord_name (houtLt v hv)
  rw [g.inputs_but_clk] at hread
  exact ⟨sdc, period, hsdc, hread, hisPeriod⟩

/-- The two files that are written at the end of a run fit each other: whoever
reads both finds a clock on the input `clk`, whose period is the product of the
two averages in thousandths, rounded towards 0 to the resolution, and delays of
zero on each other input and on each output of the module, in the order of the
ports. -/
theorem constraints_fit (addr : NodeId ↪ ℕ) (start ang : ArtNetGen) (spec : List SpecLine)
    (names : List String) (topModule : String) (hinit : start.init spec = some ang)
    (hlibs : ∀ master ∈ start.libs.flatten, LegibleCell master)
    (hmasters : ∀ info ∈ start.masters, LegibleCell info.master)
    (htop : isIdentifier topModule = true)
    (g : Generation addr (names.foldl ArtNetGen.setDontUse ang))
    (times : ℚ → ℚ → ℚ)
    (hlow : intMin ≤ truncInt (times (times ang.avgGateDelay ang.avgTopoOrder) 1000))
    (hhigh : truncInt (times (times ang.avgGateDelay ang.avgTopoOrder) 1000) ≤ intMax) :
    ∃ verilog file sdc, ∃ period : ℤ,
      g.mapped.verilogText topModule g.nets = some verilog ∧ readVerilog verilog = some file ∧
      (names.foldl ArtNetGen.setDontUse ang).writeSdc times g.mapped = some sdc ∧
      readSdc sdc = some (sdcCommands period (file.inputs.filter fun port => decide (port ≠ "clk"))
        file.outputs) ∧
      "clk" ∈ file.inputs ∧ file.inputs.Nodup ∧ file.outputs.Nodup ∧
      IsPeriod (times (times ang.avgGateDelay ang.avgTopoOrder) 1000) period := by
  have hcells := ArtNetGen.offered_legible hinit hlibs hmasters names
  have hpos := ArtNetGen.offered_inputs hinit names
  obtain ⟨sdc, period, hsdc, hread, hperiod⟩ := reads_sdc names g times hlow hhigh
  have hclk : "clk" ∈ g.mapped.primIns.map g.mapped.name := by
    have hmem : g.finished.size ∈ g.mapped.primIns := by
      rw [g.ports_mapped.1]
      simp
    exact List.mem_map.mpr ⟨_, hmem, (g.clk_iff (g.ports_lt.1 _ hmem)).2.mpr rfl⟩
  exact ⟨_, g.mapped.verilogFile topModule g.nets, sdc, period,
    verilogText_eq (g.written hpos) topModule,
    Verilog.readVerilog_file (g.legible hcells hpos htop), hsdc, hread, hclk,
    g.portNames_nodup.1, g.portNames_nodup.2, hperiod⟩

end Generation

theorem Generation.constraints_fit_sparing :
    ∃ verilog file sdc, ∃ period : ℤ,
      sparing.mapped.verilogText "artnet" sparing.nets = some verilog ∧
      readVerilog verilog = some file ∧
      sparingAng.writeSdc (· * ·) sparing.mapped = some sdc ∧
      readSdc sdc = some (sdcCommands period (file.inputs.filter fun port => decide (port ≠ "clk"))
        file.outputs) ∧
      "clk" ∈ file.inputs ∧ file.inputs.Nodup ∧ file.outputs.Nodup ∧
      IsPeriod (offeringAng.avgGateDelay * offeringAng.avgTopoOrder * 1000) period :=
  Generation.constraints_fit (.refl ℕ) { libs := [[bufferCell, dff, dffsr]] } offeringAng
    chainSpec ["DFFSR"] "artnet" (Option.some_get _).symm (by decide +kernel) (by simp)
    (by decide +kernel) sparing (· * ·) (by decide +kernel) (by decide +kernel)

/-! ## From a design -/

end Artnetgen
