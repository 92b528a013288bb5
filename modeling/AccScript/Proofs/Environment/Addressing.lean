import AccScript.Proofs.Lowering.Agreement

/-!
# Captured variables and the environments around them

A captured variable has a slot in an environment.  Code reaches it by the number of environments to
pass and the slot.  The survey counts the environments along the scope tree, the code generator
opens and closes them statement by statement, and a function takes along those that are open where
it is defined.  The three agree:

* `leadsTo_of_run`: wherever a slot is accessed, the open environments are those that the survey has
  counted, and the access leads to the variable;
* `captures_of_run`: wherever a function is defined, the open environments are those that its own
  code was counted against.

Both need a program whose nodes are told apart.  If two loops share a node, or if a loop has the node
that is given to the constructor of a class, one is taken for the other.
-/

namespace AccScript

variable {S : Setting}

namespace Instruction

variable {e : Emitted}

/-- The level and the slot of an access to a captured variable. -/
def slotAccess? : Instruction → Option (Nat × Nat)
  | .ldLexVar level slot | .stLexVar level slot => some (level, slot)
  | _ => none

/-- The number of slots of a new environment. -/
def slotCount? : Instruction → Option Nat
  | .newLexEnv count | .newLexEnvWithName count _ => some count
  | _ => none

end Instruction

/-- An instruction creates the environment of a scope, with a number of slots. -/
structure Emitted.Creates (e : Emitted) (scope : ScopeId) (count : Nat) : Prop where
  slots : e.instruction.slotCount? = some count
  site : ∃ site, e.site = some site ∧ site.subject = .environment scope

/-- An access leads from its site to a variable. -/
structure ScopeTree.LeadsTo (t : ScopeTree) (site : Site) (level slot : Nat) (v : VariableId) :
    Prop where
  opened : t.openEnvironments site = t.environments site.scope
  owner : (t.openEnvironments site)[level]? = some (t.slotOwner v)
  slot : (t.var? v).bind Variable.slot = some slot

/-- A name is that of one function, whose code was resolved against the environments of a scope. -/
def CompileContext.ResolvedIn (c : CompileContext) (scope : ScopeId) (name : String) : Prop :=
  ∃ node inner outer, (∀ other, c.names.get? other = some name ↔ other = node) ∧
    c.survey.tree.scopeOfNode? node = some inner ∧ c.survey.tree.parent? inner = some outer ∧
    c.survey.tree.environments scope = c.survey.tree.environments outer

/-! ## Sites of finished units -/

theorem Setting.Assembles.siteFits
    {u : CompiledUnit} {source : UnitSource} {s : ScopeId} {before a : Assembler}
    (assembled : S.Assembles u source s before a) (known : S.surveyed)
    (mem : e ∈ u.code) : (S.inUnit s before).SiteFits e := by
  obtain ⟨i, found⟩ := List.getElem?_of_mem mem
  obtain ⟨e', emitted, instruction, site, -⟩ := assembled.built.emitted found
  have fits := assembled.held.sites known e' (Array.mem_of_getElem? emitted)
  unfold Setting.SiteFits at fits ⊢
  rwa [instruction, site] at fits

theorem Setting.SiteFits.count_eq (fits : S.SiteFits e) {scope : ScopeId} {count : Nat}
    (creates : e.Creates scope count) : count = (S.tree.slotNames scope).length := by
  obtain ⟨slots, site, sited, subject⟩ := creates
  unfold Setting.SiteFits at fits
  unfold Instruction.slotCount? at slots
  split at slots
  case h_3 => cases slots
  all_goals
    rename_i made
    rw [made] at fits
    obtain ⟨site', scope', sited', subject', same⟩ := fits
    cases slots
    cases sited.symm.trans sited'
    cases subject.symm.trans subject'
    exact same

theorem Setting.SiteFits.addresses (fits : S.SiteFits e) {level slot : Nat}
    (access : e.instruction.slotAccess? = some (level, slot)) :
    ∃ site, e.site = some site ∧ site.functionScope = S.functionScope ∧
      S.tree.Counts site ∧ S.Addresses site level slot := by
  unfold Setting.SiteFits at fits
  unfold Instruction.slotAccess? at access
  split at access
  case h_3 => cases access
  all_goals
    rename_i accessed
    rw [accessed] at fits
    cases access
    exact fits

theorem Setting.SiteFits.captures (fits : S.SiteFits e) {f : StringId}
    (defines : e.instruction.function? = some f) :
    ∃ site, e.site = some site ∧ S.tree.Counts site ∧ S.Captures site e.nodes := by
  unfold Setting.SiteFits at fits
  unfold Instruction.function? at defines
  split at defines
  case h_4 => cases defines
  all_goals
    rename_i defined
    rw [defined] at fits
    obtain ⟨site, nodes, sited, subject, counts, captures⟩ := fits
    refine ⟨site, sited, counts, ?_⟩
    rw [Emitted.nodes, sited, Option.map_some, subject]
    exact captures

/-! ## Compiled programs -/

variable {p : Program} {options : Options} {types : TypeTable} {c : CompileContext}
  {result : CompiledProgram}

/-- Every access to a captured variable leads to it, through environments that are large enough. -/
theorem leadsTo_of_run
    (numbered : p.WellNumbered) (analyzed : CompileContext.ofProgram p options types = .ok c)
    (compiled : c.run = .ok result) :
    ∀ u ∈ result.units, ∃ node s, c.names.get? node = some u.name ∧
      c.survey.tree.scopeOfNode? node = some s ∧
      ∀ e ∈ u.code, ∀ level slot, e.instruction.slotAccess? = some (level, slot) →
        ∃ site v, e.site = some site ∧ site.functionScope = s ∧
          (site.subject = .variable v ∨ site.subject = .iteration) ∧
          (site.inFields = false → c.survey.tree.LeadsTo site level slot v) ∧
          ∀ unit ∈ result.units, ∀ e' ∈ unit.code, ∀ count,
            e'.Creates (c.survey.tree.slotOwner v) count → slot < count := by
  obtain ⟨tree, front, completes, -⟩ := CompileContext.completes_of_run numbered analyzed compiled
  intro u mem
  obtain ⟨i, place⟩ := List.getElem?_of_mem mem
  obtain ⟨source, s, before, a, -, assembled⟩ := completes.assembled place
  refine ⟨source.node c.program, s, assembled.named, assembled.recorded, ?_⟩
  intro e inside level slot access
  obtain ⟨site, sited, own, counts, v, data, subject, found, captured, below, owner⟩ :=
    (assembled.siteFits trivial inside).addresses access
  refine ⟨site, v, sited, own, subject, fun outside => ?_, ?_⟩
  · have opened := counts.counted
    rw [countedLoops, outside] at opened
    refine ⟨opened, (congrArg (·[level]?) opened).trans owner, ?_⟩
    rw [show c.survey.tree.var? v = some data from found]
    exact captured
  · intro unit mem' e' inside' count creates
    obtain ⟨j, place'⟩ := List.getElem?_of_mem mem'
    obtain ⟨_, _, _, _, -, assembled'⟩ := completes.assembled place'
    rw [(assembled'.siteFits trivial inside').count_eq creates]
    exact below

/-- The loop of the example has an environment for each iteration, and a closure over it. -/
theorem leadsTo_collector : Program.collector.WellNumbered ∧
      ∃ c result, CompileContext.ofProgram .collector {} (fun _ => none) = .ok c ∧
        c.run = .ok result ∧
        (result.units.map fun u => u.code.countP fun e => e.instruction.slotAccess?.isSome) =
          [1, 0, 1, 14, 0] ∧
        ∀ u ∈ result.units, ∃ node s, c.names.get? node = some u.name ∧
          c.survey.tree.scopeOfNode? node = some s ∧
          ∀ e ∈ u.code, ∀ level slot, e.instruction.slotAccess? = some (level, slot) →
            ∃ site v, e.site = some site ∧ site.functionScope = s ∧
              (site.subject = .variable v ∨ site.subject = .iteration) ∧
              (site.inFields = false → c.survey.tree.LeadsTo site level slot v) ∧
              ∀ unit ∈ result.units, ∀ e' ∈ unit.code, ∀ count,
                e'.Creates (c.survey.tree.slotOwner v) count → slot < count := by
  have accesses : ((CompileContext.ofProgram .collector {} (fun _ => none)).bind fun c =>
      c.run.map fun result => result.units.map fun u =>
        u.code.countP fun e => e.instruction.slotAccess?.isSome).toOption =
          some [1, 0, 1, 14, 0] := by
    decide +kernel
  obtain ⟨c, result, analyzed, compiled, count⟩ := exists_of_compiled accesses
  have numbered : Program.collector.WellNumbered := by decide
  exact ⟨numbered, c, result, analyzed, compiled, count,
    leadsTo_of_run numbered analyzed compiled⟩

theorem resolvedIn_of_captures
    (numbered : p.WellNumbered) (analyzed : CompileContext.ofProgram p options types = .ok c)
    {site : Site} {nodes : List NodeId} {units : List UnitSource} {name : String}
    (captures : c.Captures site nodes) (named : c.NamesOneOf nodes units name) :
    c.ResolvedIn site.scope name := by
  obtain ⟨unit, -, own, named⟩ := named
  obtain ⟨inner, outer, recorded, parent, same⟩ := captures _ own
  refine ⟨_, inner, outer, fun other => ⟨fun shared => ?_, ?_⟩, recorded, parent, same⟩
  · exact CompileContext.eq_of_names numbered analyzed shared named
  · rintro rfl
    exact named

/-- Every function is defined where the environments are open that its code was resolved against. -/
theorem captures_of_run
    (numbered : p.WellNumbered) (analyzed : CompileContext.ofProgram p options types = .ok c)
    (compiled : c.run = .ok result) :
    ∀ u ∈ result.units, ∀ e ∈ u.code, ∀ f, e.instruction.function? = some f →
      ∃ site, e.site = some site ∧
        (site.inFields = false →
          result.tables.Links (c.ResolvedIn site.scope) e.instruction) := by
  obtain ⟨tree, front, completes, -⟩ := CompileContext.completes_of_run numbered analyzed compiled
  intro u mem e inside f defines
  obtain ⟨i, place⟩ := List.getElem?_of_mem mem
  obtain ⟨source, s, before, a, -, assembled⟩ := completes.assembled place
  obtain ⟨site, sited, -, captures⟩ := (assembled.siteFits trivial inside).captures defines
  refine ⟨site, sited, fun _ => ?_⟩
  exact (completes.links trivial i u place e inside).mono (.refl _) fun name named =>
    resolvedIn_of_captures numbered analyzed captures named

/-- The example defines a closure inside of a loop, and a class with a method. -/
theorem captures_collector : Program.collector.WellNumbered ∧
      ∃ c result, CompileContext.ofProgram .collector {} (fun _ => none) = .ok c ∧
        c.run = .ok result ∧
        (result.units.map fun u => u.code.countP fun e => e.instruction.function?.isSome) =
          [0, 0, 0, 2, 1] ∧
        ∀ u ∈ result.units, ∀ e ∈ u.code, ∀ f, e.instruction.function? = some f →
          ∃ site, e.site = some site ∧
            (site.inFields = false →
              result.tables.Links (c.ResolvedIn site.scope) e.instruction) := by
  have definitions : ((CompileContext.ofProgram .collector {} (fun _ => none)).bind fun c =>
      c.run.map fun result => result.units.map fun u =>
        u.code.countP fun e => e.instruction.function?.isSome).toOption =
          some [0, 0, 0, 2, 1] := by
    decide +kernel
  obtain ⟨c, result, analyzed, compiled, count⟩ := exists_of_compiled definitions
  have numbered : Program.collector.WellNumbered := by decide
  exact ⟨numbered, c, result, analyzed, compiled, count,
    captures_of_run numbered analyzed compiled⟩

/-! ## Nodes that are taken for each other -/

/-- A function with a variable that is captured, and two loops: the first has the given node, the
second the given body. -/
def Program.loops (node : NodeId) (body : Statement) (nextNodeId : NodeId) : Program :=
  let ident (name : String) : Expr := ⟨⟨1, 0⟩, .identifier name⟩
  let arrow (id : NodeId) (value : Expr) : Expr :=
    ⟨⟨1, 0⟩, .function ⟨id, ⟨1, 0⟩, none, .arrow, false, [], .expression value, false⟩⟩
  let statement (id : NodeId) (kind : StatementKind) : Statement := ⟨id, ⟨1, 0⟩, kind⟩
  let declaration (id : NodeId) (name : String) : Declaration :=
    ⟨.let, [⟨⟨1, 0⟩, .identifier ⟨name, id⟩, none⟩]⟩
  let first := statement node (.for (some (.declaration (declaration 1 "k"))) (some (ident "x"))
    (some (arrow 2 ⟨⟨1, 0⟩, .sequence [ident "x", ident "k"]⟩)) (statement 3 .empty))
  let second := statement 4 (.for (some (.declaration (declaration 5 "i")))
    (some (arrow 6 (ident "i"))) none body)
  let function : FunctionNode := ⟨7, ⟨1, 0⟩, some ⟨"f", 8⟩, .normal, false, [], .block ⟨9, [
    statement 10 (.variableDecl (declaration 11 "x") false), first, second]⟩, false⟩
  { id := 0, position := ⟨1, 0⟩, statements := [statement 12 (.functionDecl function .none)]
    isStrict := false, nextNodeId, derivedFrom := [] }

/-- The first loop shares its node with a loop inside of the second. -/
def Program.twins : Program :=
  .loops 13 ⟨13, ⟨1, 0⟩, .for (some (.declaration ⟨.let, [⟨⟨1, 0⟩, .identifier ⟨"j", 14⟩, none⟩]⟩))
    (some ⟨⟨1, 0⟩, .function ⟨15, ⟨1, 0⟩, none, .arrow, false, [],
      .expression ⟨⟨1, 0⟩, .identifier "j"⟩, false⟩⟩) none ⟨16, ⟨1, 0⟩, .empty⟩⟩ 17

/-- The first loop has the node that the constructor of a class inside of the second is given. -/
def Program.stowaway : Program :=
  .loops 16 ⟨13, ⟨1, 0⟩, .classDecl ⟨14, ⟨1, 0⟩, some ⟨"A", 15⟩, none, false, []⟩ .none⟩ 16

/-- A slot is accessed where other environments are open than were counted. -/
def Emitted.Strays (t : ScopeTree) (e : Emitted) : Prop :=
  ∃ site ∈ e.site, e.instruction.slotAccess?.isSome ∧ site.inFields = false ∧
    t.openEnvironments site ≠ t.environments site.scope

instance (t : ScopeTree) (e : Emitted) : Decidable (e.Strays t) :=
  inferInstanceAs (Decidable (∃ site ∈ e.site, _))

/-- It is not enough that identities are below the next one, nor that they are distinct: loops are
left with an access to an environment that is not open. -/
theorem strays_of_shared_nodes :
    (∀ node ∈ Program.twins.nodes, node.id < Program.twins.nextNodeId) ∧
      (Program.stowaway.nodes.map SourceNode.id).Nodup ∧
      ∀ p ∈ [Program.twins, Program.stowaway],
        ∃ c result, CompileContext.ofProgram p {} (fun _ => none) = .ok c ∧ c.run = .ok result ∧
          ∃ u ∈ result.units, ∃ e ∈ u.code, e.Strays c.survey.tree := by
  refine ⟨by decide, by decide, fun p mem => ?_⟩
  have strays : ∀ p ∈ [Program.twins, Program.stowaway],
      ((CompileContext.ofProgram p {} (fun _ => none)).bind fun c => c.run.map fun result =>
        decide (∃ u ∈ result.units, ∃ e ∈ u.code, e.Strays c.survey.tree)).toOption = some true := by
    decide +kernel
  obtain ⟨c, result, analyzed, compiled, found⟩ := exists_of_compiled (strays p mem)
  exact ⟨c, result, analyzed, compiled, of_decide_eq_true found⟩

/-- A function is defined where other environments are open than its code was resolved against. -/
def CompileContext.Displaces (c : CompileContext) (result : CompiledProgram) (e : Emitted) : Prop :=
  ∃ site ∈ e.site, site.inFields = false ∧ ∃ f ∈ e.instruction.function?,
    ∃ name ∈ result.strings[f.index]?, ∃ node ∈ e.nodes, c.names.get? node = some name ∧
      ∃ inner ∈ c.survey.tree.scopeOfNode? node, ∃ outer ∈ c.survey.tree.parent? inner,
        c.survey.tree.environments site.scope ≠ c.survey.tree.environments outer

instance (c : CompileContext) (result : CompiledProgram) (e : Emitted) :
    Decidable (c.Displaces result e) :=
  inferInstanceAs (Decidable (∃ site ∈ e.site, _))

/-- The closures of the first loop are defined among the environments of another scope. -/
theorem displaces_of_shared_nodes :
    (∀ node ∈ Program.twins.nodes, node.id < Program.twins.nextNodeId) ∧
      (Program.stowaway.nodes.map SourceNode.id).Nodup ∧
      ∀ p ∈ [Program.twins, Program.stowaway],
        ∃ c result, CompileContext.ofProgram p {} (fun _ => none) = .ok c ∧ c.run = .ok result ∧
          ∃ u ∈ result.units, ∃ e ∈ u.code, c.Displaces result e := by
  refine ⟨by decide, by decide, fun p mem => ?_⟩
  have displaced : ∀ p ∈ [Program.twins, Program.stowaway],
      ((CompileContext.ofProgram p {} (fun _ => none)).bind fun c => c.run.map fun result =>
        decide (∃ u ∈ result.units, ∃ e ∈ u.code, c.Displaces result e)).toOption = some true := by
    decide +kernel
  obtain ⟨c, result, analyzed, compiled, found⟩ := exists_of_compiled (displaced p mem)
  exact ⟨c, result, analyzed, compiled, of_decide_eq_true found⟩

end AccScript
