import LightCone.Fault
import LightCone.Node
import LightCone.Text.Blank

/-!
The directory of nodes.

A directory maps ids to the latest record of each, and no id in it is blank. This file

1. defines insertion, which refuses records with a blank id, removal, and marking a node
   active or not;
2. builds a directory from a list of records, all of them or none (`ofList`);
3. lists all nodes and the active ones in text order of their ids.
-/
namespace LightCone

structure Directory where
  nodes : Table String Node

namespace Directory

def empty : Directory := ⟨.empty⟩

instance : Inhabited Directory := ⟨empty⟩

def get (d : Directory) (id : String) : Except Fault Node :=
  match d.nodes.find? id with
  | some node => .ok node
  | none => .error (.nodeNotFound id)

/-- Stores a record under its id; gives the record that was there. -/
def upsert (d : Directory) (node : Node) : Except Fault (Option Node × Directory) :=
  if blankText node.id then .error (.invalidNode "node id must be non-empty")
  else .ok (d.nodes.find? node.id, ⟨d.nodes.insert node.id node⟩)

/-- Removes a record; gives it, if there was one. -/
def remove (d : Directory) (id : String) : Option Node × Directory :=
  (d.nodes.find? id, ⟨d.nodes.erase id⟩)

/-- Marks a node active or not, seen at a time; tells whether there is such a node. -/
def setActive (d : Directory) (id : String) (active : Bool) (seen : Instant) : Bool × Directory :=
  match d.nodes.find? id with
  | some node => (true, ⟨d.nodes.insert id { node with active := active, lastSeen := seen }⟩)
  | none => (false, d)

/-- Stores records in order, up to the first that is refused. -/
def upsertAll (d : Directory) : List Node → Except Fault Directory
  | [] => .ok d
  | node :: rest =>
    match d.upsert node with
    | .ok (_, d) => d.upsertAll rest
    | .error fault => .error fault

/-- The directory of a list of records; of two with one id the later counts. -/
def ofList (nodes : List Node) : Except Fault Directory := empty.upsertAll nodes

/-- Every node, in text order of ids. -/
def all (d : Directory) : List Node := d.nodes.values

def active (d : Directory) : List Node := d.all.filter Node.active

def ids (nodes : List Node) : List String := nodes.map Node.id

def size (d : Directory) : Nat := d.nodes.size

end Directory
end LightCone
