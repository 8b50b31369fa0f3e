import ArtNetGen.ReadBack
import ArtNetGen.Extract

/-!
`dbLinkDesign`. The instances and the nets of a module that has been read are
created in the database, net by net and pin by pin.
-/

namespace Artnetgen

/-- What a net of the top instance is connected to. -/
inductive NetPin where
  | port (name : String) (direction : DbIoType)
  | leaf (inst : String) (port : String)
  deriving DecidableEq

/-- The orders in which the network hands out what it has; the pins of a net are
sorted by their path names. -/
structure NetworkOrder where
  leafs : Iteration VerilogInstance
  nets : Iteration String
  pins : Iteration NetPin

namespace VerilogFile

variable (file : VerilogFile)

def ports : List (String × DbIoType) :=
  file.inputs.map (fun name => (name, .input)) ++ file.outputs.map fun name => (name, .output)

/-- Whatever is declared or used is a net of the top instance. -/
def netNames : List String :=
  (file.ports.map Prod.fst ++ file.wires ++
    file.instances.flatMap fun inst => inst.pins.map Prod.snd).dedup

end VerilogFile

def DbInst.connect (inst : DbInst) (port : String) (n : NetId) : DbInst :=
  { inst with net := fun term => if term.name = port then some n else inst.net term }

namespace DbBlock

/-- Where the instances are put afterwards. -/
def place (b : DbBlock) (location : String → ℤ × ℤ) : DbBlock :=
  { b with insts := b.insts.map fun inst =>
      { inst with x := (location inst.name).1, y := (location inst.name).2 } }

end DbBlock

namespace VerilogFile

variable (file : VerilogFile) (findMaster : String → Option DbMaster) (o : NetworkOrder)

/-- The nets in the order in which they are created. -/
def dbNets : List String := o.nets.1 file.netNames

variable {file findMaster o}

/-! ## Pins -/

theorem mem_dbNets {net : String} : net ∈ file.dbNets o ↔ net ∈ file.netNames :=
  (o.nets.2 _).mem_iff

theorem exists_net {wire : String} (h : wire ∈ file.netNames) :
    ∃ n : ℕ, (file.dbNets o)[n]? = some wire :=
  List.getElem?_of_mem (mem_dbNets.mpr h)

end VerilogFile

/-! ## Instances -/

namespace DbInst

variable {inst : DbInst}

end DbInst

namespace DbBlock

end DbBlock

namespace VerilogFile

variable {file : VerilogFile} {findMaster : String → Option DbMaster} {o : NetworkOrder}

end VerilogFile

end Artnetgen
