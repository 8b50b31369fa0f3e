import ArtNetGen.Library.Tokens
import ArtNetGen.Serials

/-!
The text of the Verilog file. It reads back as the module that was written, for
every library whose names are identifiers.
-/

namespace Artnetgen

open Tokens

/-! ## Writing -/

/-- What has been written of the pins of an instance. -/
structure PinText where
  terms : List String := []
  text : String := ""

namespace Netlist

def writePin (nl : Netlist) (nets : List Net) (node : NodeId) (comma : Bool) (s : PinText)
    (neighbour : NodeId) : PinText :=
  let termName := nl.getTerm node neighbour
  let netName := nl.term2net nets (node, termName)
  if termName ∈ s.terms then s
  else
    { terms := s.terms ++ [termName]
      text := s.text ++ (if comma then ",\n" else "") ++ ("." ++ termName ++ "(" ++ netName ++ ")") }

/-- The sources are counted; every other pin follows a comma. -/
def pinsText (nl : Netlist) (nets : List Net) (node : NodeId) : String :=
  ((nl.sinks node).foldl (nl.writePin nets node true)
    ((nl.sources node).zipIdx.foldl
      (fun s (source, j) => nl.writePin nets node (decide (j ≠ 0)) s source) {})).text

/-- An instance has a cell, or there is nothing to be written. -/
def instanceText (nl : Netlist) (nets : List Net) (node : NodeId) : Option String :=
  (nl.node node).master.map fun master =>
    master.name ++ " " ++ nl.name node ++ "(\n" ++ nl.pinsText nets node ++ "\n);\n\n"

def outputText (nl : Netlist) (output : NodeId × ℕ) : String :=
  "\toutput " ++ nl.name output.1 ++
    if output.2 = nl.primOuts.length - 1 then "\n);\n" else ",\n"

def verilogText (nl : Netlist) (topModule : String) (nets : List Net) : Option String := do
  let instances ← (nl.nodes.filter fun node => decide (nl.type node).IsInstance).mapM
    (nl.instanceText nets)
  some (String.join (["module " ++ topModule ++ " (\n"] ++
    nl.primIns.map (fun node => "\tinput " ++ nl.name node ++ ",\n") ++
    nl.primOuts.zipIdx.map nl.outputText ++ ["\n\n"] ++
    nets.map (fun net => "wire " ++ net.name ++ ";\n") ++ instances ++ ["\nendmodule\n"]))

end Netlist

/-! ## Reading -/

structure VerilogInstance where
  cell : String
  name : String
  pins : List (String × String)
deriving DecidableEq

structure VerilogFile where
  name : String
  inputs : List String
  outputs : List String
  wires : List String
  instances : List VerilogInstance
deriving DecidableEq

namespace Verilog

def charKind (c : Char) : Kind :=
  if c.isAlphanum || c == '_' || c == '$' then .word
  else if c.isWhitespace then .blank
  else .mark

/-- The words of the language that occur in such files. -/
def keywords : List String := ["module", "input", "output", "wire", "endmodule"]

def isIdentifier (w : String) : Bool :=
  w.toList.all (fun c => charKind c == .word) &&
    w.toList.head?.any (fun c => c.isAlpha || c == '_') && !keywords.contains w

def readInput : Reader Token String
  | .word "input" :: .word n :: .mark ',' :: rest => if isIdentifier n then some (n, rest) else none
  | _ => none

def readOutput : Reader Token String
  | .word "output" :: .word n :: .mark ',' :: rest => if isIdentifier n then some (n, rest) else none
  | _ => none

def readLastOutput : Reader Token String
  | .word "output" :: .word n :: .mark ')' :: .mark ';' :: rest =>
    if isIdentifier n then some (n, rest) else none
  | _ => none

def readWire : Reader Token String
  | .word "wire" :: .word n :: .mark ';' :: rest => if isIdentifier n then some (n, rest) else none
  | _ => none

/-- A pin need not be connected. -/
def readPin : Reader Token (String × String)
  | .mark '.' :: .word t :: .mark '(' :: .mark ')' :: rest =>
    if isIdentifier t then some ((t, ""), rest) else none
  | .mark '.' :: .word t :: .mark '(' :: .word n :: .mark ')' :: rest =>
    if isIdentifier t && isIdentifier n then some ((t, n), rest) else none
  | _ => none

def readNextPin : Reader Token (String × String)
  | .mark ',' :: rest => readPin rest
  | _ => none

def readPins (tokens : List Token) : Option (List (String × String) × List Token) := do
  let (first, tokens) ← readPin tokens
  let (more, tokens) ← readAll readNextPin tokens
  some (first :: more, tokens)

def readInstance : Reader Token VerilogInstance
  | .word c :: .word n :: .mark '(' :: tokens => do
    let (pins, tokens) ← readPins tokens
    match tokens with
    | .mark ')' :: .mark ';' :: rest =>
      if isIdentifier c && isIdentifier n then some (⟨c, n, pins⟩, rest) else none
    | _ => none
  | _ => none

def readModule : List Token → Option VerilogFile
  | .word "module" :: .word name :: .mark '(' :: tokens => do
    let (inputs, tokens) ← readAll readInput tokens
    let (outputs, tokens) ← readAll readOutput tokens
    let (last, tokens) ← readLastOutput tokens
    let (wires, tokens) ← readAll readWire tokens
    let (instances, tokens) ← readAll readInstance tokens
    if tokens = [.word "endmodule"] && isIdentifier name then
      some ⟨name, inputs, outputs ++ [last], wires, instances⟩
    else none
  | _ => none

def readVerilog (text : String) : Option VerilogFile := readModule (tokens charKind text)

end Verilog

/-- The file that the module makes. -/
def Netlist.verilogFile (nl : Netlist) (topModule : String) (nets : List Net) : VerilogFile where
  name := topModule
  inputs := (nl.writeVerilog nets).inputs
  outputs := (nl.writeVerilog nets).outputs
  wires := (nl.writeVerilog nets).wires
  instances := (nl.writeVerilog nets).instances.map fun (node, pins) =>
    ⟨((nl.node node).master.map (·.name)).getD "", nl.name node, pins⟩

/-! ## Tokens of the pieces -/

namespace Verilog

variable {w : String}

theorem isIdentifier_word (h : isIdentifier w = true) : tokens charKind w = [.word w] := by
  simp only [isIdentifier, Bool.and_eq_true, List.all_eq_true, beq_iff_eq] at h
  apply tokens_word
  · rintro rfl
    exact Bool.false_ne_true h.1.2
  · exact h.1.1

theorem isIdentifier_ne (h : isIdentifier w = true) {k : String} (hk : k ∈ keywords) : w ≠ k := by
  rintro rfl
  simp only [isIdentifier, Bool.and_eq_true, Bool.not_eq_true', List.contains_eq_mem,
    decide_eq_false_iff_not] at h
  exact h.2 hk

/-- An identifier between two pieces that it does not run into. -/
theorem tokens_around {before after : String} (hbefore : Closed charKind before)
    (h : isIdentifier w = true) (hafter : Opens charKind after) :
    tokens charKind (before ++ w ++ after) =
      tokens charKind before ++ .word w :: tokens charKind after :=
  tokens_between hbefore (isIdentifier_word h) hafter

def pinText (pin : String × String) : String := "." ++ pin.1 ++ "(" ++ pin.2 ++ ")"

def pinTokens (pin : String × String) : List Token :=
  [.mark '.', .word pin.1, .mark '('] ++ (if pin.2 = "" then [] else [.word pin.2]) ++ [.mark ')']

/-- A terminal on a wire, or on none. -/
structure Legible (pin : String × String) : Prop where
  term : isIdentifier pin.1 = true
  net : pin.2 = "" ∨ isIdentifier pin.2 = true

theorem tokens_pin {pin : String × String} (h : Legible pin) :
    tokens charKind (pinText pin) = pinTokens pin := by
  obtain ⟨t, n⟩ := pin
  have hterm : tokens charKind ("." ++ t ++ "(") = [.mark '.', .word t, .mark '('] :=
    tokens_around (by decide +kernel) h.term (by decide +kernel)
  have hopened : Closed charKind ("." ++ t ++ "(") :=
    closed_append _ (by decide +kernel) (by decide +kernel)
  unfold pinText pinTokens
  dsimp only
  rcases h.net with hnone | hword
  · dsimp only at hnone
    rw [hnone, String.append_empty, tokens_append_closed hopened, hterm, if_pos rfl]
    rfl
  · dsimp only at hword
    have hne : n ≠ "" := by
      rintro rfl
      exact absurd hword (by decide +kernel)
    rw [tokens_around hopened hword (by decide +kernel), hterm, if_neg hne]
    rfl

theorem closed_pin (pin : String × String) : Closed charKind (pinText pin) :=
  closed_append _ (by decide +kernel) (by decide +kernel)

/-- Pins with commas between them. -/
def listText : List (String × String) → String
  | [] => ""
  | pin :: more => pinText pin ++ String.join (more.map fun pin => ",\n" ++ pinText pin)

def listTokens : List (String × String) → List Token
  | [] => []
  | pin :: more => pinTokens pin ++ more.flatMap fun pin => .mark ',' :: pinTokens pin

theorem listText_snoc {pins : List (String × String)} (hne : pins ≠ []) (pin : String × String) :
    listText (pins ++ [pin]) = listText pins ++ (",\n" ++ pinText pin) := by
  obtain ⟨first, more, rfl⟩ := List.exists_cons_of_ne_nil hne
  rw [List.cons_append]
  simp [listText, String.append_assoc]

theorem tokens_list {pins : List (String × String)} (h : ∀ pin ∈ pins, Legible pin) :
    tokens charKind (listText pins) = listTokens pins := by
  cases pins with
  | nil => rfl
  | cons first more =>
      unfold listText listTokens
      have hnext : ∀ pin ∈ more, tokens charKind (",\n" ++ pinText pin) =
          .mark ',' :: pinTokens pin := by
        intro pin hpin
        rw [tokens_append_closed (by decide +kernel), tokens_pin (h pin (List.mem_cons_of_mem _ hpin))]
        rfl
      rw [tokens_append_closed (closed_pin first), tokens_pin (h first List.mem_cons_self),
        tokens_join, List.flatMap_map]
      · congr 1
        exact List.flatMap_congr hnext
      · intro text htext
        obtain ⟨pin, -, rfl⟩ := List.mem_map.mp htext
        exact closed_append _ (closed_pin pin) (by simp [pinText])

/-! ## Reading the pieces -/

theorem reads_input (h : isIdentifier w = true) :
    Reads readInput [.word "input", .word w, .mark ','] w := by
  intro rest
  simp [readInput, h]

theorem reads_output (h : isIdentifier w = true) :
    Reads readOutput [.word "output", .word w, .mark ','] w := by
  intro rest
  simp [readOutput, h]

theorem reads_lastOutput (h : isIdentifier w = true) :
    Reads readLastOutput [.word "output", .word w, .mark ')', .mark ';'] w := by
  intro rest
  simp [readLastOutput, h]

theorem reads_wire (h : isIdentifier w = true) :
    Reads readWire [.word "wire", .word w, .mark ';'] w := by
  intro rest
  simp [readWire, h]

theorem reads_pin {pin : String × String} (h : Legible pin) : Reads readPin (pinTokens pin) pin := by
  intro rest
  obtain ⟨t, n⟩ := pin
  have hterm : isIdentifier t = true := h.term
  rcases h.net with hnone | hword
  · obtain rfl : n = "" := hnone
    simp [readPin, pinTokens, hterm]
  · have hword : isIdentifier n = true := hword
    have hne : n ≠ "" := by
      rintro rfl
      exact absurd hword (by decide +kernel)
    simp [readPin, pinTokens, hterm, hword, hne]

theorem reads_pins {pins : List (String × String)} (hne : pins ≠ [])
    (h : ∀ pin ∈ pins, Legible pin) (rest : List Token) :
    readPins (listTokens pins ++ .mark ')' :: rest) = some (pins, .mark ')' :: rest) := by
  obtain ⟨first, more, rfl⟩ := List.exists_cons_of_ne_nil hne
  have hmore : readAll readNextPin ((more.flatMap fun pin => .mark ',' :: pinTokens pin) ++
      .mark ')' :: rest) = some (more.map id, .mark ')' :: rest) := by
    apply readAll_flatMap
    · intro pin hpin after
      exact reads_pin (h pin (List.mem_cons_of_mem _ hpin)) after
    · rfl
  unfold readPins listTokens
  rw [List.append_assoc, reads_pin (h first List.mem_cons_self)]
  dsimp only [Option.bind_eq_bind, Option.bind_some]
  rw [hmore, List.map_id]
  rfl

def instText (inst : VerilogInstance) : String :=
  inst.cell ++ " " ++ inst.name ++ "(\n" ++ listText inst.pins ++ "\n);\n\n"

def instTokens (inst : VerilogInstance) : List Token :=
  [.word inst.cell, .word inst.name, .mark '('] ++ listTokens inst.pins ++ [.mark ')', .mark ';']

/-- An instance under identifiers that has pins. -/
structure LegibleInstance (inst : VerilogInstance) : Prop where
  cell : isIdentifier inst.cell = true
  name : isIdentifier inst.name = true
  nonempty : inst.pins ≠ []
  pins : ∀ pin ∈ inst.pins, Legible pin

theorem tokens_inst {inst : VerilogInstance} (h : LegibleInstance inst) :
    tokens charKind (instText inst) = instTokens inst := by
  have hcell : Closed charKind (inst.cell ++ " ") :=
    closed_append _ (by decide +kernel) (by decide +kernel)
  have hname : Closed charKind (inst.cell ++ " " ++ inst.name ++ "(\n") :=
    closed_append _ (by decide +kernel) (by decide +kernel)
  unfold instText instTokens
  rw [tokens_append_opens _ (by decide +kernel), tokens_append_closed hname,
    tokens_around hcell h.name (by decide +kernel), tokens_append_opens _ (by decide +kernel),
    isIdentifier_word h.cell, tokens_list h.pins]
  rfl

theorem reads_inst {inst : VerilogInstance} (h : LegibleInstance inst) :
    Reads readInstance (instTokens inst) inst := by
  intro rest
  have hpins := reads_pins h.nonempty h.pins (.mark ';' :: rest)
  unfold instTokens
  simp [readInstance, hpins, h.cell, h.name]

/-! ## Reading the file -/

def fileTexts (file : VerilogFile) : List String :=
  ["module " ++ file.name ++ " (\n"] ++
    file.inputs.map (fun w => "\tinput " ++ w ++ ",\n") ++
    file.outputs.dropLast.map (fun w => "\toutput " ++ w ++ ",\n") ++
    file.outputs.getLast?.toList.map (fun w => "\toutput " ++ w ++ "\n);\n") ++ ["\n\n"] ++
    file.wires.map (fun w => "wire " ++ w ++ ";\n") ++ file.instances.map instText ++
    ["\nendmodule\n"]

/-- A file that consists of identifiers and has outputs. -/
structure LegibleFile (file : VerilogFile) : Prop where
  name : isIdentifier file.name = true
  inputs : ∀ w ∈ file.inputs, isIdentifier w = true
  outputs : ∀ w ∈ file.outputs, isIdentifier w = true
  nonempty : file.outputs ≠ []
  wires : ∀ w ∈ file.wires, isIdentifier w = true
  instances : ∀ inst ∈ file.instances, LegibleInstance inst

theorem closed_fileTexts (file : VerilogFile) : ∀ text ∈ fileTexts file, Closed charKind text := by
  have hclosed : ∀ (before : String) {after : String}, Closed charKind after → after ≠ "" →
      Closed charKind (before ++ after) := fun before _ h hne => closed_append before h hne
  unfold fileTexts
  simp only [List.forall_mem_append, List.forall_mem_map, List.mem_singleton, forall_eq]
  refine ⟨⟨⟨⟨⟨⟨⟨?_, ?_⟩, ?_⟩, ?_⟩, ?_⟩, ?_⟩, ?_⟩, ?_⟩
  · exact hclosed _ (by decide +kernel) (by decide +kernel)
  · exact fun w _ => hclosed _ (by decide +kernel) (by decide +kernel)
  · exact fun w _ => hclosed _ (by decide +kernel) (by decide +kernel)
  · exact fun w _ => hclosed _ (by decide +kernel) (by decide +kernel)
  · decide +kernel
  · exact fun w _ => hclosed _ (by decide +kernel) (by decide +kernel)
  · exact fun inst _ => hclosed _ (by decide +kernel) (by decide +kernel)
  · decide +kernel

theorem tokens_file {file : VerilogFile} (h : LegibleFile file) :
    tokens charKind (String.join (fileTexts file)) =
      [.word "module", .word file.name, .mark '('] ++
        (file.inputs.flatMap (fun w => [.word "input", .word w, .mark ',']) ++
        (file.outputs.dropLast.flatMap (fun w => [.word "output", .word w, .mark ',']) ++
        (file.outputs.getLast?.toList.flatMap
          (fun w => [.word "output", .word w, .mark ')', .mark ';']) ++
        (file.wires.flatMap (fun w => [.word "wire", .word w, .mark ';']) ++
        (file.instances.flatMap instTokens ++ [.word "endmodule"]))))) := by
  have hcut : ∀ {before after : String} {l : List String}, Closed charKind before →
      Opens charKind after → (∀ w ∈ l, isIdentifier w = true) →
      (l.map fun w => before ++ w ++ after).flatMap (tokens charKind) =
        l.flatMap fun w => tokens charKind before ++ .word w :: tokens charKind after := by
    intro before after l hbefore hafter hl
    rw [List.flatMap_map]
    exact List.flatMap_congr fun w hw => tokens_around hbefore (hl w hw) hafter
  have hinsts : (file.instances.map instText).flatMap (tokens charKind) =
      file.instances.flatMap instTokens := by
    rw [List.flatMap_map]
    exact List.flatMap_congr fun inst hinst => tokens_inst (h.instances inst hinst)
  rw [tokens_join (closed_fileTexts file)]
  unfold fileTexts
  simp only [List.flatMap_append]
  rw [hinsts, hcut (by decide +kernel) (by decide +kernel) h.inputs,
    hcut (by decide +kernel) (by decide +kernel) fun w hw => h.outputs w (List.mem_of_mem_dropLast hw),
    hcut (by decide +kernel) (by decide +kernel) fun w hw =>
      h.outputs w (List.mem_of_getLast? (Option.mem_toList.mp hw)),
    hcut (by decide +kernel) (by decide +kernel) h.wires]
  simp only [List.flatMap_singleton]
  rw [tokens_around (by decide +kernel) h.name (by decide +kernel)]
  simp only [List.append_assoc]
  rfl

theorem readVerilog_file {file : VerilogFile} (h : LegibleFile file) :
    readVerilog (String.join (fileTexts file)) = some file := by
  obtain ⟨front, last, hlast⟩ : ∃ front last, file.outputs = front ++ [last] :=
    ⟨_, _, (List.dropLast_append_getLast h.nonempty).symm⟩
  have houtputs := h.outputs
  rw [hlast] at houtputs
  have hinputs : ∀ rest, readInput rest = none →
      readAll readInput (file.inputs.flatMap (fun w => [.word "input", .word w, .mark ',']) ++
        rest) = some (file.inputs, rest) := by
    intro rest hrest
    have hread := readAll_flatMap (fun w hw => reads_input (h.inputs w hw)) hrest
    rwa [List.map_id'] at hread
  have hfront : ∀ rest, readOutput rest = none →
      readAll readOutput (front.flatMap (fun w => [.word "output", .word w, .mark ',']) ++
        rest) = some (front, rest) := by
    intro rest hrest
    have hread := readAll_flatMap
      (fun w hw => reads_output (houtputs w (List.mem_append_left _ hw))) hrest
    rwa [List.map_id'] at hread
  have hwires : ∀ rest, readWire rest = none →
      readAll readWire (file.wires.flatMap (fun w => [.word "wire", .word w, .mark ';']) ++
        rest) = some (file.wires, rest) := by
    intro rest hrest
    have hread := readAll_flatMap (fun w hw => reads_wire (h.wires w hw)) hrest
    rwa [List.map_id'] at hread
  have hinsts : readAll readInstance (file.instances.flatMap instTokens ++ [.word "endmodule"]) =
      some (file.instances, [.word "endmodule"]) := by
    have hread := readAll_flatMap (fun inst hinst => reads_inst (h.instances inst hinst))
      (show readInstance [.word "endmodule"] = none by rfl)
    rwa [List.map_id'] at hread
  -- What is read next does not begin like what has been read.
  have hstopIn : ∀ rest, readInput (front.flatMap
      (fun w => [.word "output", .word w, .mark ',']) ++ (.word "output" :: rest)) = none := by
    intro rest
    cases front with
    | nil => rfl
    | cons w front => rfl
  have hstopWire : readWire (file.instances.flatMap instTokens ++ [.word "endmodule"]) = none := by
    cases file.instances with
    | nil => rfl
    | cons inst insts => simp [readWire, instTokens]
  unfold readVerilog
  rw [tokens_file h, hlast, List.dropLast_concat, List.getLast?_concat]
  simp only [Option.toList_some, List.flatMap_singleton, List.cons_append, List.nil_append,
    readModule, Option.bind_eq_bind]
  rw [hinputs _ (hstopIn _), Option.bind_some, hfront _ rfl, Option.bind_some]
  have hread := reads_lastOutput (houtputs last (by simp))
  unfold Reads at hread
  simp only [List.cons_append, List.nil_append] at hread
  rw [hread, Option.bind_some, hwires _ hstopWire, Option.bind_some, hinsts, Option.bind_some,
    if_pos (by simp [h.name]), ← hlast]

end Verilog

open Verilog

/-! ## What is written -/

namespace Netlist

variable {nl : Netlist} {nets : List Net} {v : NodeId}

/-- The pins that have been listed are written. -/
theorem foldl_writePin {l : List NodeId} {pins : List (String × String)} (hne : pins ≠ []) :
    l.foldl (nl.writePin nets v true) ⟨pins.map Prod.fst, listText pins⟩ =
      ⟨(l.foldl (nl.listPin nets v) pins).map Prod.fst,
        listText (l.foldl (nl.listPin nets v) pins)⟩ := by
  induction l generalizing pins with
  | nil => rfl
  | cons w rest ih =>
      rw [List.foldl_cons, List.foldl_cons]
      by_cases hlisted : nl.getTerm v w ∈ pins.map Prod.fst
      · rw [writePin, listPin, if_pos hlisted, if_pos hlisted]
        exact ih hne
      · rw [writePin, listPin, if_neg hlisted, if_neg hlisted, ← ih (by simp),
          listText_snoc hne, List.map_append]
        simp [pinText, String.append_assoc]

theorem foldl_commas {l : List NodeId} {k : ℕ} {s : PinText} :
    (l.zipIdx (k + 1)).foldl
      (fun s (source, j) => nl.writePin nets v (decide (j ≠ 0)) s source) s =
        l.foldl (nl.writePin nets v true) s := by
  induction l generalizing k s with
  | nil => rfl
  | cons w rest ih => exact ih

/-- The first source is written without a comma, so the text is a list of pins. -/
theorem pinsText_eq (h : nl.sources v ≠ []) :
    nl.pinsText nets v = listText (nl.instancePins nets v) := by
  obtain ⟨first, rest, hcons⟩ := List.exists_cons_of_ne_nil h
  have hpins : nl.listPin nets v [] first =
      [(nl.getTerm v first, nl.term2net nets (v, nl.getTerm v first))] := by
    simp [listPin]
  have htext : nl.writePin nets v (decide (0 ≠ 0)) {} first =
      ⟨(nl.listPin nets v [] first).map Prod.fst, listText (nl.listPin nets v [] first)⟩ := by
    rw [hpins]
    simp [writePin, listText, pinText]
  have hne : nl.listPin nets v [] first ≠ [] := by
    rw [hpins]
    exact List.cons_ne_nil _ _
  unfold pinsText instancePins
  rw [hcons, List.zipIdx_cons, List.foldl_cons, List.foldl_cons]
  dsimp only
  rw [htext, foldl_commas, ← List.foldl_append, foldl_writePin hne, List.foldl_append]

theorem instancePins_ne_nil (h : nl.sources v ≠ []) : nl.instancePins nets v ≠ [] := by
  obtain ⟨w, hw⟩ := List.exists_mem_of_ne_nil _ h
  have hmem : (nl.getTerm v w, nl.term2net nets (v, nl.getTerm v w)) ∈ nl.instancePins nets v :=
    mem_instancePins.mpr ⟨⟨w, List.mem_append_left _ hw, rfl⟩, rfl⟩
  exact List.ne_nil_of_mem hmem

theorem outputTexts (nl : Netlist) : nl.primOuts.zipIdx.map nl.outputText =
    (nl.primOuts.map nl.name).dropLast.map (fun w => "\toutput " ++ w ++ ",\n") ++
      (nl.primOuts.map nl.name).getLast?.toList.map fun w => "\toutput " ++ w ++ "\n);\n" := by
  rcases List.eq_nil_or_concat nl.primOuts with hnil | ⟨front, last, hconcat⟩
  · rw [hnil]
    rfl
  · rw [List.concat_eq_append] at hconcat
    have hfront : front.zipIdx.map nl.outputText =
        front.map fun v => "\toutput " ++ nl.name v ++ ",\n" := by
      rw [← List.zipIdx_map_fst 0 front, List.map_map, List.zipIdx_map_fst]
      apply List.map_congr_left
      intro output houtput
      have hlt : output.2 < front.length := by
        have hbound := List.snd_lt_add_of_mem_zipIdx houtput
        omega
      have hne : output.2 ≠ nl.primOuts.length - 1 := by
        rw [hconcat, List.length_append, List.length_singleton]
        omega
      unfold outputText
      rw [if_neg hne]
      rfl
    have hlast : nl.outputText (last, front.length) = "\toutput " ++ nl.name last ++ "\n);\n" := by
      unfold outputText
      rw [if_pos (by simp [hconcat])]
    conv_lhs => rw [hconcat]
    rw [hconcat, List.zipIdx_append, List.map_append, hfront, List.map_append, List.map_singleton,
      List.dropLast_concat, List.getLast?_concat, List.map_map]
    simp [hlast, Function.comp_def]

/-- What every instance needs for its text. -/
def Written (nl : Netlist) : Prop :=
  ∀ v < nl.size, (nl.type v).IsInstance →
    nl.sources v ≠ [] ∧ ∃ master, (nl.node v).master = some master

theorem verilogText_eq (h : nl.Written) (topModule : String) :
    nl.verilogText topModule nets =
      some (String.join (fileTexts (nl.verilogFile topModule nets))) := by
  have hinsts : (nl.nodes.filter fun node => decide (nl.type node).IsInstance).mapM
      (nl.instanceText nets) =
        some ((nl.verilogFile topModule nets).instances.map instText) := by
    unfold verilogFile writeVerilog
    rw [List.map_map, List.map_map]
    apply Loop.mapM_eq_some
    intro v hv
    simp only [nodes, List.mem_filter, List.mem_range, decide_eq_true_eq] at hv
    obtain ⟨hsources, master, hmaster⟩ := h v hv.1 hv.2
    simp [instanceText, instText, hmaster, pinsText_eq hsources]
  unfold verilogText
  rw [hinsts, Option.bind_eq_bind, Option.bind_some, outputTexts]
  unfold fileTexts verilogFile writeVerilog
  simp only [List.map_map, List.append_assoc]
  rfl

/-- The file names a wire for a terminal, or none. -/
theorem term2net_cases (nl : Netlist) (nets : List Net) (pin : NodeId × String) :
    nl.term2net nets pin = "" ∨ nl.term2net nets pin = nl.name pin.1 ∨
      ∃ net ∈ nets, nl.term2net nets pin = net.name := by
  unfold term2net
  rcases Bindings.bindAll_cases _ pin with hnone | hentry
  · exact Or.inl hnone
  · obtain ⟨net, hnet, hterm⟩ := List.mem_flatMap.mp hentry
    obtain ⟨term, -, heq⟩ := List.mem_map.mp hterm
    obtain ⟨rfl, hname⟩ := Prod.mk.inj heq
    right
    rw [← hname]
    split
    · exact Or.inl rfl
    · exact Or.inr ⟨net, hnet, rfl⟩

end Netlist

/-! ## Names are identifiers -/

namespace Verilog

/-- A stem that a name may begin with. -/
def isStem (stem : String) : Bool :=
  stem.toList.all (fun c => charKind c == .word && !c.isDigit) &&
    stem.toList.head?.any (fun c => c.isAlpha || c == '_')

theorem isIdentifier_numbered {stem : String} (h : isStem stem = true) (i : ℕ) :
    isIdentifier (stem ++ toString i) = true := by
  simp only [isStem, Bool.and_eq_true, List.all_eq_true, Bool.not_eq_true'] at h
  obtain ⟨hall, hhead⟩ := h
  have hdigits : (toString i).toList ≠ [] := by
    rw [Nat.toString_eq_repr, Nat.toList_repr]
    exact Nat.toDigits_ne_nil
  have hletters := Names.letters_numbered (fun c hc => (hall c hc).2) i
  simp only [isIdentifier, Bool.and_eq_true, List.all_eq_true, Bool.not_eq_true',
    List.contains_eq_mem, decide_eq_false_iff_not]
  refine ⟨⟨?_, ?_⟩, ?_⟩
  · intro c hc
    rw [String.toList_append, List.mem_append] at hc
    rcases hc with hc | hc
    · exact (hall c hc).1
    · unfold charKind Char.isAlphanum
      rw [Names.isDigit_of_mem_toString hc, Bool.or_true, Bool.true_or, Bool.true_or, if_pos rfl]
      rfl
  · cases hstem : stem.toList with
    | nil =>
        rw [hstem] at hhead
        cases hhead
    | cons c rest =>
        rw [hstem] at hhead
        rw [String.toList_append, hstem]
        exact hhead
  · intro hkeyword
    have hplain : Names.letters (stem ++ toString i) = (stem ++ toString i).toList := by
      have hkeywords : ∀ k ∈ keywords, Names.letters k = k.toList := by
        decide +kernel
      exact hkeywords _ hkeyword
    rw [hletters, String.toList_append] at hplain
    exact hdigits (List.self_eq_append_right.mp hplain)

end Verilog

/-! ## Libraries -/

/-- A cell whose names are identifiers. -/
def LegibleCell (master : DbMaster) : Prop :=
  isIdentifier master.name = true ∧ ∀ term ∈ master.mTerms, isIdentifier term.name = true

instance (master : DbMaster) : Decidable (LegibleCell master) := inferInstanceAs (Decidable (_ ∧ _))

/-- The cells that `init` selects are found by their names, or were there. -/
theorem ArtNetGen.init_found {start ang : ArtNetGen} {spec : List SpecLine}
    (hinit : start.init spec = some ang) {info : MasterInfo} (hinfo : info ∈ ang.masters) :
    start.findMaster info.master.name = some info.master ∨ info ∈ start.masters := by
  have hfound : ∀ {name master}, start.findMaster name = some master →
      start.findMaster master.name = some master := by
    intro name master hmaster
    rw [(findMaster_spec hmaster).2]
    exact hmaster
  have havailable : ∀ info ∈ start.available,
      start.findMaster info.master.name = some info.master := by
    intro info hinfo
    obtain ⟨name, -, hmap⟩ := List.mem_filterMap.mp hinfo
    obtain ⟨master, hmaster, rfl⟩ := Option.map_eq_some_iff.mp hmap
    exact hfound hmaster
  have hnamed : ∀ info ∈ start.named spec,
      start.findMaster info.master.name = some info.master := by
    intro info hinfo
    obtain ⟨line, -, hmap⟩ := List.mem_filterMap.mp hinfo
    cases line with
    | onlyUse masterName ratio =>
        obtain ⟨master, hmaster, rfl⟩ := Option.map_eq_some_iff.mp hmap
        exact hfound hmaster
    | _ => cases hmap
  rw [(init_spec hinit).2, List.mem_flatMap] at hinfo
  obtain ⟨k, -, hselected⟩ := hinfo
  unfold selection at hselected
  split at hselected
  · exact Or.inl (havailable info (List.mem_filter.mp hselected).1)
  · rcases List.mem_append.mp (List.mem_filter.mp hselected).1 with hold | hnew
    · exact Or.inr hold
    · exact Or.inl (hnamed info hnew)

/-- A fresh object finds all its cells by their names, whatever has been excluded. -/
theorem ArtNetGen.offered_found {start ang : ArtNetGen} {spec : List SpecLine}
    (hinit : start.init spec = some ang) (hfresh : start.masters = []) (names : List String) :
    ∀ info ∈ (names.foldl ArtNetGen.setDontUse ang).masters,
      start.findMaster info.master.name = some info.master := by
  intro info hinfo
  rcases init_found hinit (mem_setDontUse hinfo) with hfound | hold
  · exact hfound
  · rw [hfresh] at hold
    cases hold

theorem ArtNetGen.offered_legible {start ang : ArtNetGen} {spec : List SpecLine}
    (hinit : start.init spec = some ang)
    (hlibs : ∀ master ∈ start.libs.flatten, LegibleCell master)
    (hmasters : ∀ info ∈ start.masters, LegibleCell info.master) (names : List String) :
    ∀ info ∈ (names.foldl ArtNetGen.setDontUse ang).masters, LegibleCell info.master := by
  intro info hinfo
  rcases init_found hinit (mem_setDontUse hinfo) with hfound | hold
  · exact hlibs info.master (findMaster_spec hfound).1
  · exact hmasters info hold

/-! ## Runs -/

namespace Generation

open Netlist

variable {addr : NodeId ↪ ℕ} {ang : ArtNetGen} (g : Generation addr ang)

theorem isIdentifier_name {v : NodeId} (hv : v < g.mapped.size) :
    isIdentifier (g.mapped.name v) = true := by
  by_cases hinst : (g.mapped.type v).IsInstance
  · obtain ⟨stem, hstem, hname⟩ := g.numbered v hv hinst
    have hstems : ∀ stem ∈ instanceStems, isStem stem = true := by decide +kernel
    rw [hname]
    exact isIdentifier_numbered (hstems stem hstem) v
  · rcases name_of_port hv hinst with ⟨stem, hstem, i, hname⟩ | hcontrol
    · have hstems : ∀ stem ∈ ["in", "out"], isStem stem = true := by decide +kernel
      rw [hname]
      exact isIdentifier_numbered (hstems stem hstem) i
    · have hcontrols : ∀ name ∈ ["clk", "rst"], isIdentifier name = true := by decide +kernel
      exact hcontrols _ hcontrol

theorem isIdentifier_net {net : Net} (hnet : net ∈ g.nets) : isIdentifier net.name = true := by
  obtain ⟨d, hd, hisNet⟩ := driver_of_net hnet
  obtain ⟨mid, -, hchosen, hmapped, -⟩ := g.chosen
  cases hport : g.mapped.portOf d with
  | none =>
      obtain ⟨k, hk⟩ := hisNet.numbered hport
      rw [hk]
      exact isIdentifier_numbered (by decide +kernel) k
  | some port =>
      obtain ⟨hlt, -⟩ := hmapped.portOf_port hchosen hd hport
      rw [hisNet.called port hport]
      exact g.isIdentifier_name (hmapped.size ▸ hlt)

/-- The fan-ins of cells are positive, so that every instance has a source. -/
theorem written (hpos : ∀ info ∈ ang.masters, 0 < (getPortInfo info.master).inputSignal) :
    g.mapped.Written := by
  intro v hv hinst
  obtain ⟨info, hinfo, hmaster, hisIn⟩ := g.cell hv hinst
  obtain ⟨mid, hmid, hchosen, hmapped, -⟩ := g.chosen
  obtain ⟨b, hcontrols⟩ := chooseCells_controls hmid
  obtain ⟨hlt, -⟩ := g.instance_of_mapped hv hinst
  refine ⟨?_, info.master, hmaster⟩
  have hfanins : 0 < (g.finished.sources v).length := by
    have hinputs := (MasterInfo.isIn_iff.mp hisIn).2.2
    change 0 < g.finished.numFanins v
    rw [← hinputs]
    exact hpos info hinfo
  obtain ⟨u, hu⟩ := List.exists_mem_of_length_pos hfanins
  apply List.ne_nil_of_mem (a := u)
  apply (hmapped.mem_sources hlt).mpr
  left
  obtain ⟨master, hold⟩ := hcontrols.old_of_lt hlt
  rw [Netlist.sources, hold]
  exact hu

theorem legible (hcells : ∀ info ∈ ang.masters, LegibleCell info.master)
    (hpos : ∀ info ∈ ang.masters, 0 < (getPortInfo info.master).inputSignal) {topModule : String}
    (htop : isIdentifier topModule = true) :
    LegibleFile (g.mapped.verilogFile topModule g.nets) := by
  obtain ⟨hinsLt, houtsLt⟩ := g.ports_lt
  unfold verilogFile writeVerilog
  refine ⟨htop, ?_, ?_, ?_, ?_, ?_⟩
  · intro w hw
    obtain ⟨v, hv, rfl⟩ := List.mem_map.mp hw
    exact g.isIdentifier_name (hinsLt v hv)
  · intro w hw
    obtain ⟨v, hv, rfl⟩ := List.mem_map.mp hw
    exact g.isIdentifier_name (houtsLt v hv)
  · dsimp only
    rw [g.ports_mapped.2, Ne, List.map_eq_nil_iff]
    exact g.portsListed.nonempty
  · intro w hw
    obtain ⟨net, hnet, rfl⟩ := List.mem_map.mp hw
    exact g.isIdentifier_net hnet
  · intro inst hinst
    simp only [List.map_map, nodes, List.mem_map, List.mem_filter, List.mem_range,
      decide_eq_true_eq] at hinst
    obtain ⟨v, ⟨hv, htype⟩, rfl⟩ := hinst
    obtain ⟨info, hinfo, hmaster, -⟩ := g.cell hv htype
    obtain ⟨hname, hterms⟩ := hcells info hinfo
    refine ⟨?_, g.isIdentifier_name hv, ?_, ?_⟩
    · simp only [Function.comp_apply, hmaster]
      exact hname
    · exact instancePins_ne_nil (g.written hpos v hv htype).1
    · rintro ⟨t, n⟩ hpin
      obtain ⟨⟨w, hw, rfl⟩, hwire⟩ := mem_instancePins.mp hpin
      obtain ⟨term, hterm, hterm'⟩ := g.mem_mTerms hv htype hmaster (List.mem_append.mp hw)
      refine ⟨?_, ?_⟩
      · exact hterm' ▸ hterms term hterm
      · rcases g.mapped.term2net_cases g.nets (v, g.mapped.getTerm v w) with
          hnone | hnode | ⟨net, hnet, hnet'⟩
        · exact Or.inl (hwire.trans hnone)
        · exact Or.inr (hwire.trans hnode ▸ g.isIdentifier_name hv)
        · exact Or.inr (hwire.trans hnet' ▸ g.isIdentifier_net hnet)

/-- What `writeVerilog` writes at the end of a run reads back as the ports, the
wires and the instances with their pins that it goes through, if the names in
the libraries and that of the module are identifiers. -/
theorem verilog_reads_back (addr : NodeId ↪ ℕ) (start ang : ArtNetGen) (spec : List SpecLine)
    (names : List String) (topModule : String) (hinit : start.init spec = some ang)
    (hlibs : ∀ master ∈ start.libs.flatten, LegibleCell master)
    (hmasters : ∀ info ∈ start.masters, LegibleCell info.master)
    (htop : isIdentifier topModule = true)
    (g : Generation addr (names.foldl ArtNetGen.setDontUse ang)) :
    ∃ text, g.mapped.verilogText topModule g.nets = some text ∧
      readVerilog text = some (g.mapped.verilogFile topModule g.nets) := by
  have hcells := ArtNetGen.offered_legible hinit hlibs hmasters names
  have hpos := ArtNetGen.offered_inputs hinit names
  refine ⟨_, verilogText_eq (g.written hpos) topModule, ?_⟩
  exact readVerilog_file (g.legible hcells hpos htop)

end Generation

theorem Generation.verilog_reads_back_sparing :
    ∃ text, sparing.mapped.verilogText "artnet" sparing.nets = some text ∧
      readVerilog text = some (sparing.mapped.verilogFile "artnet" sparing.nets) :=
  Generation.verilog_reads_back (.refl ℕ) { libs := [[bufferCell, dff, dffsr]] } offeringAng
    chainSpec ["DFFSR"] "artnet" (Option.some_get _).symm (by decide +kernel) (by simp)
    (by decide +kernel) sparing

end Artnetgen
