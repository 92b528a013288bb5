import AccScript.Analysis
import AccScript.Report.Scopes

/-!
# Reports of surveys

The JSON form of all that is known about a program before code is made. Tables by node are sorted
by node, the table of names by name.
-/

namespace AccScript

def ParameterNames.toJson : ParameterNames → Json
  | .single name => .string name
  | .pattern names => .strings names

def FunctionFacts.toJson (node : NodeId) (facts : FunctionFacts) : Json :=
  .object [("node", .nat node), ("scope", .nat facts.scope), ("body_scope", .nat? facts.bodyScope),
    ("name", .string facts.name), ("length", .nat facts.length),
    ("params", .array (facts.parameters.map ParameterNames.toJson)),
    ("param_names", .strings facts.parameterNames), ("sequence", .nat facts.sequence),
    ("kind", .word facts.kind), ("class", .nat? facts.owner),
    ("default_export", .bool facts.isDefaultExport)]

def Json.byNode {α : Type} (table : OrderedMap NodeId α) (row : α → List Json) : Json :=
  .array ((table.mergeSort fun a b => a.1 ≤ b.1).map fun entry =>
    .array (.nat entry.1 :: row entry.2))

namespace Survey

def nameCountsJson (survey : Survey) : Json :=
  .array ((survey.nameCounts.mergeSort fun a b => !decide (b.1 < a.1)).map fun entry =>
    .array [.string entry.1, .nat entry.2])

def toJson (survey : Survey) (program : Program) : Json :=
  .object [
    ("tree", survey.tree.toJson),
    ("module", (survey.moduleRecord.map ModuleRecord.toJson).getD .null),
    ("functions", .array (survey.functionOrder.toList.filterMap fun node =>
      (survey.functions.get? node).map (FunctionFacts.toJson node))),
    ("func_name_map", survey.nameCountsJson),
    ("default_constructors", .byNode survey.defaultConstructors fun made =>
      [.nat made.function, .nat? made.restParameter]),
    ("class_constructors", .byNode survey.classConstructors fun function => [.nat function]),
    ("class_bindings", .byNode survey.classBindings fun name => [.string name]),
    ("derived_classes", .nats (survey.derivedClasses.mergeSort fun a b => a ≤ b)),
    ("computed_field_keys", .byNode survey.computedFieldKeys fun name => [.string name]),
    ("internal_names", .byNode (survey.internalNames program) fun name => [.string name]),
    ("references", .array (survey.references.toList.map fun r =>
      .array [.nat r.scope, .string r.name, .bool r.isAssignment]))]

end Survey

end AccScript
