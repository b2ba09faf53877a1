import EscapePlan.Tree.Document
import EscapePlan.Config.Document
import EscapePlan.Yaml.Role

/-!
# Trees and configurations in YAML

What is read from JSON is read from YAML too: the roles say which places of a document
hold texts, numbers and truth values, and the shapes decode the draft that results.  A
fault has no wording here, whatever its cause.
-/

namespace EscapePlan

/-- Reads a record from the document of a text. -/
def Shape.ofYaml {α : Type} (shape : Shape α) (role : Yaml.Role) (text : String) :
    Except Fault α :=
  shape.decodeSilently (Yaml.read? role text)

/-- The role of a position. -/
def Position.role : Yaml.Role :=
  .record true [("line", .natural), ("column", .natural)]

/-- The role of node data. -/
def NodeData.role : Yaml.Role :=
  .variant (fun tag => (NodeData.shape? tag).map (·.fields.names)) Literal.kinds

/-- The role of a node. -/
def TreeNode.role : Yaml.Role :=
  .record false [("data", NodeData.role), ("span", Position.role)]

namespace Tree

/-- The role of a tree. -/
def role : Yaml.Role :=
  .record false [("root", .natural), ("strings", .list .text), ("nodes", .list TreeNode.role)]

/-- Reads a tree from a YAML document. -/
def ofYaml (text : String) : Except Fault Tree :=
  shape.ofYaml role text

end Tree

/-- The role of the default sizes. -/
def DefaultSizes.role : Yaml.Role :=
  .record false (DefaultSizes.shape.fields.names.map fun name => (name, .natural))

namespace Config

/-- The role of a configuration. -/
def role : Yaml.Role :=
  .record false
    [("max_object_size", .natural), ("max_frame_size", .natural), ("unknown_is_bottom", .flag),
      ("enable_scalar_replacement", .flag), ("default_sizes", DefaultSizes.role)]

/-- Reads a configuration from a YAML document. -/
def ofYaml (text : String) : Except Fault Config :=
  shape.ofYaml role text

end Config

end EscapePlan
