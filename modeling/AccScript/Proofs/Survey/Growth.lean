import AccScript.Proofs.Scope.Creation
import AccScript.Proofs.Survey.Surveyed
import Mathlib.Data.List.Nodup

/-!
# How a survey grows

While a program is walked over, its survey only gets longer: scopes keep their places, declarations
and references stay, and what is recorded for a node is not recorded again, because every node has
an identity of its own.  `Survey.Le` says what stays, `Survey.Tidy` is the invariant of the walk, and
`Survey.Advances` says in addition which identities a part of the walk has used up.

`Ledger.Upholds` connects a survey in the making with the final one: what has been recorded so far
can be relied on once all variables are bound and all references resolved.
-/

namespace AccScript

variable {σ τ : Survey}

namespace ScopeTree

variable {t u : ScopeTree} {p : Program} {first second : List SourceNode} {s : ScopeId}

/-! ## Declarations that are bound -/

/-- A declaration is bound where it belongs. -/
def Declared (t : ScopeTree) (s : ScopeId) (d : Decl) : Prop :=
  match d.kind with
  | .let | .const | .catchParameter | .function => t.Bound s d.name
  | .cls =>
      if d.isExpression then ∀ inner, t.scopeOfNode? d.node = some inner → t.Bound inner d.name
      else t.Bound s d.name
  | .var => d.name ∈ HiddenName.globals → t.Bound (t.nearestVariableScope s) d.name

/-- The parameters of a function are bound; only arrow functions do not see the hidden ones. -/
structure Serves (t : ScopeTree) (s : ScopeId) (facts : FunctionFacts) : Prop where
  count : ∃ data, t.variableScope? s = some data ∧
    facts.parameters.length ≤ data.parameters.length
  names : ∀ name ∈ facts.parameterNames, t.Bound s name
  hidden : facts.kind.isArrow = false →
    ∀ name ∈ [HiddenName.funcObj, HiddenName.newTarget, HiddenName.this], t.Bound s name

theorem Declared.grown {d : Decl} (h : t.Declared s d) (grown : t.Extends u) : u.Declared s d := by
  unfold Declared at h ⊢
  split
  all_goals rename_i kind; simp only [kind] at h
  case h_5 =>
    split
    · rename_i expression
      rw [if_pos expression] at h
      intro inner recorded
      rw [ScopeTree.scopeOfNode?, grown.nodeScopes] at recorded
      exact grown.names _ _ (h inner recorded)
    · rename_i expression
      rw [if_neg expression] at h
      exact grown.names _ _ h
  case h_6 =>
    intro hidden
    rw [nearestVariableScope_of_bare grown.bare]
    exact grown.names _ _ (h hidden)
  all_goals exact grown.names _ _ h

theorem Serves.grown {facts : FunctionFacts} (h : t.Serves s facts)
    (grown : t.Extends u) : u.Serves s facts := by
  refine ⟨?_, fun name mem => grown.names _ _ (h.names name mem),
    fun arrow name mem => grown.names _ _ (h.hidden arrow name mem)⟩
  obtain ⟨data, found, enough⟩ := h.count
  obtain ⟨data', found', more⟩ := grown.parameters s data found
  exact ⟨data', found', Nat.le_trans enough more⟩

end ScopeTree

theorem SourceNode.eq_of_id
    {nodes : List SourceNode} (distinct : (nodes.map SourceNode.id).Nodup) {a b : SourceNode}
    (first : a ∈ nodes) (second : b ∈ nodes) (same : a.id = b.id) : a = b :=
  List.inj_on_of_nodup_map distinct first second same

/-! ## Surveys -/

def ParameterNames.names : ParameterNames → List String
  | .single name => [name]
  | .pattern names => names

namespace FunctionFacts

/-- Every name is that of a parameter. -/
def Coherent (facts : FunctionFacts) : Prop :=
  ∀ name ∈ facts.parameterNames, ∃ parameter ∈ facts.parameters, name ∈ parameter.names

/-- What is known about a function from the moment it is registered. -/
structure Same (a b : FunctionFacts) : Prop where
  kind : b.kind = a.kind
  parameters : b.parameters = a.parameters
  parameterNames : b.parameterNames = a.parameterNames
  name : b.name = a.name
  sequence : b.sequence = a.sequence

theorem Same.refl (a : FunctionFacts) : a.Same a :=
  ⟨rfl, rfl, rfl, rfl, rfl⟩

theorem Same.trans {a b c : FunctionFacts} (h : a.Same b) (h' : b.Same c) : a.Same c :=
  ⟨h'.kind.trans h.kind, h'.parameters.trans h.parameters,
    h'.parameterNames.trans h.parameterNames, h'.name.trans h.name,
    h'.sequence.trans h.sequence⟩

end FunctionFacts

/-- Functions are numbered in the order of their discovery, and a name that stands alone is counted
once. -/
structure Counted (functions : OrderedMap NodeId FunctionFacts) (order : Array NodeId)
    (counts : NameMap Nat) : Prop where
  sequence : ∀ node facts, functions.get? node = some facts →
    0 < facts.sequence ∧ order[facts.sequence - 1]? = some node
  counted : ∀ node facts, functions.get? node = some facts → facts.name ≠ "" →
    ∃ count, counts.get? facts.name = some count ∧ 0 < count
  /-- The count tells a name that two functions share. -/
  shared : ∀ node facts other facts', functions.get? node = some facts →
    functions.get? other = some facts' → facts.name ≠ "" → facts.name = facts'.name →
    counts.get? facts.name = some 1 → node = other

abbrev Survey.Counts (σ : Survey) : Prop :=
  Counted σ.functions σ.functionOrder σ.nameCounts

theorem ScopeTree.Serves.of_same
    {t : ScopeTree} {a b : FunctionFacts} (h : t.Serves s b) (same : a.Same b) :
    t.Serves s a := by
  refine ⟨?_, ?_, ?_⟩
  · rw [← same.parameters]
    exact h.count
  · rw [← same.parameterNames]
    exact h.names
  · rw [← same.kind]
    exact h.hidden

namespace Survey

variable {nodes more : List SourceNode}

def Records (σ : Survey) (node : NodeId) : Prop :=
  ∃ s, (node, s) ∈ σ.tree.nodeScopes

/-- What is recorded stays. -/
structure Le (σ τ : Survey) : Prop where
  scopes : ∀ s scope, σ.tree.scope? s = some scope →
    ∃ scope', τ.tree.scope? s = some scope' ∧ scope.Grows scope'
  nodeScopes : σ.tree.nodeScopes ⊆ τ.tree.nodeScopes
  references : ∀ r ∈ σ.references, r ∈ τ.references
  functions : ∀ node facts, σ.functions.get? node = some facts →
    ∃ facts', τ.functions.get? node = some facts' ∧ facts.Same facts'
  constructors : ∀ node f, σ.classConstructors.get? node = some f →
    τ.classConstructors.get? node = some f
  fieldKeys : ∀ member name, σ.computedFieldKeys.get? member = some name →
    τ.computedFieldKeys.get? member = some name
  nextNodeId : σ.nextNodeId ≤ τ.nextNodeId

theorem Le.refl (σ : Survey) : σ.Le σ :=
  ⟨fun _ scope found => ⟨scope, found, .refl scope⟩, List.Subset.refl _, fun _ mem => mem,
    fun _ facts found => ⟨facts, found, .refl facts⟩, fun _ _ h => h, fun _ _ h => h,
    Nat.le_refl _⟩

theorem Le.trans {σ τ υ : Survey} (h : σ.Le τ) (h' : τ.Le υ) : σ.Le υ := by
  refine ⟨?_, List.Subset.trans h.nodeScopes h'.nodeScopes, fun r mem => h'.references r (h.references r mem),
    ?_, fun n f found => h'.constructors n f (h.constructors n f found),
    fun m n found => h'.fieldKeys m n (h.fieldKeys m n found),
    Nat.le_trans h.nextNodeId h'.nextNodeId⟩
  · intro s scope found
    obtain ⟨scope', found', grows⟩ := h.scopes s scope found
    obtain ⟨scope'', found'', grows'⟩ := h'.scopes s scope' found'
    exact ⟨scope'', found'', grows.trans grows'⟩
  · intro node facts found
    obtain ⟨facts', found', same⟩ := h.functions node facts found
    obtain ⟨facts'', found'', same'⟩ := h'.functions node facts' found'
    exact ⟨facts'', found'', same.trans same'⟩

theorem Le.lt_size (h : σ.Le τ) (inside : s < σ.tree.scopes.size) : s < τ.tree.scopes.size := by
  obtain ⟨scope, found⟩ := ScopeTree.exists_scope? inside
  obtain ⟨_, found', -⟩ := h.scopes s scope found
  exact ScopeTree.lt_size_of_scope? found'

theorem Le.within (h : σ.Le τ) : σ.tree.Within τ.tree := by
  intro s scope found
  obtain ⟨scope', found', grows⟩ := h.scopes s scope found
  exact ⟨scope', found', grows.kind, grows.node, grows.parent⟩

def Declares (p : Program) (isClass : Bool → Prop) (d : Decl) : Prop :=
  ∃ node ∈ p.nodes, node.id = d.node ∧ node.name = d.name ∧ isClass node.isClass

/-- The invariant of the walk over a program. -/
structure Tidy (p : Program) (σ : Survey) : Prop where
  numbered : p.WellNumbered
  raw : σ.tree.Raw
  main : (p.id, ScopeTree.rootId) ∈ σ.tree.nodeScopes
  nextNodeId : p.nextNodeId ≤ σ.nextNodeId
  below : ∀ n, σ.Records n → n < σ.nextNodeId
  functions : ∀ node facts, σ.functions.get? node = some facts →
    σ.Records node ∧ node ≠ p.id ∧ facts.Coherent
  counted : σ.Counts
  constructors : ∀ node f, σ.classConstructors.get? node = some f → σ.Records node
  arrows : ∀ s scope facts, σ.tree.scope? s = some scope → scope.kind = .function →
    σ.functions.get? scope.node = some facts → scope.isArrowFunction = facts.kind.isArrow
  decls : ∀ s scope, σ.tree.scope? s = some scope → ∀ d ∈ scope.decls,
    Declares p (fun isClass => d.kind = .cls → isClass = true) d
  hoisted : ∀ s scope, σ.tree.scope? s = some scope → ∀ d ∈ scope.hoisted,
    Declares p (· = false) d
  fieldKeys : ∀ member name, σ.computedFieldKeys.get? member = some name →
    name = SourceNode.fieldKey member ∧ ∃ node ∈ p.nodes, node.id = member ∧ node.name = name

/-- Nodes of the program that the walk has not met. -/
structure Fresh (σ : Survey) (p : Program) (nodes : List SourceNode) : Prop where
  known : ∀ node ∈ nodes, node ∈ p.nodes
  distinct : (nodes.map SourceNode.id).Nodup
  free : ∀ node ∈ nodes, ¬σ.Records node.id

/-- A part of the walk keeps what is recorded, and uses no identities but those of its nodes. -/
structure Advances (σ : Survey) (p : Program) (nodes : List SourceNode) (τ : Survey) : Prop where
  le : σ.Le τ
  tidy : τ.Tidy p
  introduced : ∀ n, τ.Records n →
    σ.Records n ∨ (∃ node ∈ nodes, node.id = n) ∨ σ.nextNodeId ≤ n

theorem Advances.refl {σ : Survey} (tidy : σ.Tidy p) (nodes : List SourceNode) :
    σ.Advances p nodes σ :=
  ⟨.refl σ, tidy, fun _ recorded => .inl recorded⟩

theorem Advances.trans {σ τ υ : Survey} (h : σ.Advances p first τ)
    (h' : τ.Advances p second υ) : σ.Advances p (first ++ second) υ := by
  refine ⟨h.le.trans h'.le, h'.tidy, fun n recorded => ?_⟩
  rcases h'.introduced n recorded with before | ⟨node, mem, same⟩ | new
  · rcases h.introduced n before with before | ⟨node, mem, same⟩ | new
    · exact .inl before
    · exact .inr (.inl ⟨node, List.mem_append_left _ mem, same⟩)
    · exact .inr (.inr new)
  · exact .inr (.inl ⟨node, List.mem_append_right _ mem, same⟩)
  · exact .inr (.inr (Nat.le_trans h.le.nextNodeId new))

theorem Advances.mono (h : σ.Advances p nodes τ) (sub : nodes ⊆ more) : σ.Advances p more τ := by
  refine ⟨h.le, h.tidy, fun n recorded => ?_⟩
  rcases h.introduced n recorded with before | ⟨node, mem, same⟩ | new
  · exact .inl before
  · exact .inr (.inl ⟨node, sub mem, same⟩)
  · exact .inr (.inr new)

theorem Fresh.left {σ : Survey} (h : σ.Fresh p (first ++ second)) : σ.Fresh p first := by
  have distinct := h.distinct
  rw [List.map_append] at distinct
  exact ⟨fun node mem => h.known node (List.mem_append_left _ mem),
    (List.nodup_append.mp distinct).1, fun node mem => h.free node (List.mem_append_left _ mem)⟩

/-- What a part of the walk has left over. -/
theorem Fresh.right
    (h : σ.Fresh p (first ++ second)) (tidy : σ.Tidy p) (step : σ.Advances p first τ) :
    τ.Fresh p second := by
  have distinct := h.distinct
  rw [List.map_append] at distinct
  obtain ⟨-, rest, apart⟩ := List.nodup_append.mp distinct
  have known : ∀ node ∈ second, node ∈ p.nodes := fun node mem =>
    h.known node (List.mem_append_right _ mem)
  refine ⟨known, rest, fun node mem recorded => ?_⟩
  rcases step.introduced node.id recorded with before | ⟨other, mem', same⟩ | new
  · exact h.free node (List.mem_append_right _ mem) before
  · exact apart other.id (List.mem_map.mpr ⟨other, mem', rfl⟩) node.id
      (List.mem_map.mpr ⟨node, mem, rfl⟩) same
  · have bound := tidy.numbered.below node (known node mem)
    have := Nat.lt_of_lt_of_le bound (Nat.le_trans tidy.nextNodeId new)
    exact Nat.lt_irrefl _ this

theorem Fresh.mono {σ : Survey} (h : σ.Fresh p more)
    (sub : nodes.Subperm more) : σ.Fresh p nodes := by
  obtain ⟨part, same, sublist⟩ := sub
  refine ⟨fun node mem => h.known node (sublist.subset (same.symm.subset mem)), ?_,
    fun node mem => h.free node (sublist.subset (same.symm.subset mem))⟩
  have distinct := h.distinct.sublist (sublist.map SourceNode.id)
  exact (same.map SourceNode.id).nodup_iff.mp distinct

end Survey

/-! ## The final survey -/

/-- Whatever a survey in the making has recorded can be relied on in the end. -/
structure Ledger.Upholds (L : Ledger) (σ : Survey) : Prop where
  known : L.surveyed
  admitted : L.AdmitsAll L.program.nodes
  distinct : (L.program.nodes.map SourceNode.id).Nodup
  wellFormed : L.survey.tree.WellFormed
  top : ∀ s : Nat, s < L.survey.tree.scopes.size → L.survey.tree.parent? s = none →
    L.survey.tree.isVariableScope s = true
  within : σ.tree.Within L.survey.tree
  recorded : ∀ node s, (node, s) ∈ σ.tree.nodeScopes →
    L.survey.tree.scopeOfNode? node = some s
  references : ∀ r ∈ σ.references, L.Reaches r.scope r.name
  declared : ∀ s scope, σ.tree.scope? s = some scope → ∀ d ∈ scope.decls,
    L.survey.tree.Declared s d
  hoisted : ∀ s scope, σ.tree.scope? s = some scope → ∀ d ∈ scope.hoisted,
    L.survey.tree.Bound s d.name
  functions : ∀ node facts, σ.functions.get? node = some facts →
    (∃ final, L.survey.functions.get? node = some final ∧ facts.Same final) ∧
      ∃ name, L.names.get? node = some name
  serves : ∀ s scope facts, σ.tree.scope? s = some scope → scope.kind = .function →
    σ.functions.get? scope.node = some facts → L.survey.tree.Serves s facts
  constructors : ∀ node f, σ.classConstructors.get? node = some f →
    L.survey.classConstructors.get? node = some f
  fieldKeys : ∀ member name, σ.computedFieldKeys.get? member = some name →
    L.survey.computedFieldKeys.get? member = some name
  fieldNodes : ∀ member name, L.survey.computedFieldKeys.get? member = some name →
    name = SourceNode.fieldKey member ∧
      ∃ node ∈ L.program.nodes, node.id = member ∧ node.name = name

theorem ScopeTree.Declared.of_same
    {t : ScopeTree} {d d' : Decl} (h : t.Declared s d') (name : d'.name = d.name)
    (node : d'.node = d.node) (kind : d'.kind = d.kind)
    (expression : d'.isExpression = d.isExpression) : t.Declared s d := by
  unfold Declared at h ⊢
  rwa [name, node, kind, expression] at h

/-- An earlier survey is upheld too. -/
theorem Ledger.Upholds.mono {L : Ledger} (h : L.Upholds τ) (le : σ.Le τ) : L.Upholds σ where
  known := h.known
  admitted := h.admitted
  distinct := h.distinct
  wellFormed := h.wellFormed
  top := h.top
  within := by
    intro s scope found
    obtain ⟨scope', found', kind, node, parent⟩ := le.within s scope found
    obtain ⟨scope'', found'', kind', node', parent'⟩ := h.within s scope' found'
    exact ⟨scope'', found'', kind'.trans kind, node'.trans node, parent'.trans parent⟩
  recorded := fun node s mem => h.recorded node s (le.nodeScopes mem)
  references := fun r mem => h.references r (le.references r mem)
  declared := by
    intro s scope found d mem
    obtain ⟨scope', found', grows⟩ := le.scopes s scope found
    obtain ⟨d', mem', name, node, kind, expression⟩ := grows.decls d mem
    exact (h.declared s scope' found' d' mem').of_same name node kind expression
  hoisted := by
    intro s scope found d mem
    obtain ⟨scope', found', grows⟩ := le.scopes s scope found
    obtain ⟨d', mem', name⟩ := grows.hoisted d mem
    rw [← name]
    exact h.hoisted s scope' found' d' mem'
  functions := by
    intro node facts found
    obtain ⟨facts', found', same⟩ := le.functions node facts found
    obtain ⟨⟨final, found'', same'⟩, named⟩ := h.functions node facts' found'
    exact ⟨⟨final, found'', same.trans same'⟩, named⟩
  serves := by
    intro s scope facts found kind registered
    obtain ⟨scope', found', grows⟩ := le.scopes s scope found
    obtain ⟨facts', registered', same⟩ := le.functions _ facts registered
    rw [← grows.node] at registered'
    exact (h.serves s scope' facts' found' (grows.kind.trans kind) registered').of_same same
  constructors := fun node f found => h.constructors node f (le.constructors node f found)
  fieldKeys := fun member name found => h.fieldKeys member name (le.fieldKeys member name found)
  fieldNodes := h.fieldNodes

end AccScript
