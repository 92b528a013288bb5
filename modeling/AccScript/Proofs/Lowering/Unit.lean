import AccScript.Proofs.Lowering.Statement

/-!
# Units

The code of a unit starts at depth 0 with nothing around it.  Its prologue pushes the environment of
the unit, if it needs one; from there on every statement starts and ends at the depth of the unit.
-/

namespace AccScript

open Asm Lower

variable {S : Setting} {env : Env} {ls : List Label} {v : VariableId} {owner : Option ClassNode}
  {kind : FunctionKind} {node : ClassNode} {s : ScopeId} {name : String} {source : UnitSource}
  {statements : List Statement}

/-! ## The start of a unit -/

/-- Code at the top of a unit. -/
structure Setting.Begins (S : Setting) (env : Env) : Prop where
  anchors : S.Anchors env
  scope : env.scope = S.functionScope
  outside : env.inFields = false
  lexical : S.surveyed → S.tree.isLexical S.functionScope = true
  this : S.surveyed → env.unitKind? = some .constructor →
    ∃ v, S.tree.findLocal? S.functionScope HiddenName.this = some v

/-- A variable of the unit is a variable of the scope of the unit. -/
def Setting.Owns (S : Setting) (v : VariableId) : Prop :=
  S.surveyed → ∃ data, S.tree.var? v = some data ∧ data.scope = S.functionScope

theorem Setting.owns_of_parameter
    {data : VariableScope} (found : S.tree.variableScope? S.functionScope = some data)
    (mem : v ∈ data.parameters) : S.Owns v :=
  fun known => (S.wellFormed known).parameter _ data v found mem

theorem Setting.owns_of_findLocal? (found : S.tree.findLocal? S.functionScope name = some v) :
    S.Owns v :=
  fun known => (S.wellFormed known).named _ name v found

namespace Setting.Begins

theorem inhabits (h : S.Begins env) : S.Inhabits env [] := by
  refine ⟨h.anchors, h.outside, fun _ => ?_⟩
  rw [h.scope]
  rfl

theorem ready (h : S.Begins env) : Ready S S.discipline.start [] {} env := by
  have covers : ∀ allowed : Option String → Prop,
      (S.discipline = .lawful → ∀ name, ¬allowed name) → Covers S {} [] allowed := by
    intro allowed nothing
    refine ⟨fun lawful name may => absurd may (nothing lawful name), fun _ => ?_⟩
    exact ⟨[], [], rfl, nofun, .inl rfl⟩
  refine ⟨covers _ ?_, covers _ ?_, ?_, ?_, h.this⟩
  · rintro lawful name ⟨may, -⟩
    rw [lawful] at may
    cases name <;> simp [Discipline.start, JumpContext.CanBreak] at may
  · intro lawful name may
    rw [lawful] at may
    cases name <;> simp [Discipline.start, JumpContext.CanContinue] at may
  · intro i rest within
    cases List.suffix_nil.mp within
  · intro i rest within
    cases List.suffix_nil.mp within

theorem reaches (h : S.Begins env)
    (found : S.tree.findLocal? S.functionScope name = some v) : S.Reaches env.scope name := by
  rw [h.scope]
  exact (ScopeTree.BelongsTo.refl _ _).reaches found

theorem tree (h : S.Begins env) : env.tree = S.tree := by
  rw [Env.tree, h.anchors.survey, Setting.tree]

theorem visible (h : S.Begins env) (own : S.Owns v) :
    S.surveyed → ∀ data, S.tree.var? v = some data →
      data.scope ∈ S.tree.ancestors env.scope := by
  intro known data found
  obtain ⟨data', found', same⟩ := own known
  rw [found] at found'
  cases found'
  rw [same, h.scope]
  exact ScopeTree.self_mem_ancestors _ _

theorem parameters (h : S.Begins env) {data : VariableScope}
    (found : env.tree.variableScope? env.functionScope = some data) :
    ∀ v ∈ data.parameters, (calming S).Finds env (localResolution v) := by
  rw [h.tree, h.anchors.functionScope] at found
  exact fun v mem => yields_localResolution (h.visible (S.owns_of_parameter found mem))

theorem own (h : S.Begins env) (name : String) (v : VariableId)
    (found : env.tree.findLocal? env.functionScope name = some v) :
    (calming S).Finds env (localResolution v) := by
  rw [h.tree, h.anchors.functionScope] at found
  exact yields_localResolution (h.visible (S.owns_of_findLocal? found))

theorem names (h : S.Begins env) (name : String) (v : VariableId)
    (found : env.tree.findLocal? env.functionScope name = some v) :
    (calming S).Finds env (resolveName name) := by
  rw [h.tree, h.anchors.functionScope] at found
  exact yields_resolveName fun _ _ => h.reaches found

end Setting.Begins

/-! ## The prologue -/

theorem Calm.forM
    {α : Type} {f : α → Lower Unit} {items : List α} (h : ∀ x ∈ items, Calm S env ls (f x)) :
    Calm S env ls (items.forM f) := by
  induction items with
  | nil => exact .pure ()
  | cons x rest ih =>
    have others := ih fun y mem => h y (.tail _ mem)
    exact (h x (.head _)).then others

theorem yields_unitVariableScope :
    Yields S env ls (fun data => S.tree.variableScope? S.functionScope = some data)
      unitVariableScope := by
  refine .anchored fun anchors => ?_
  have same : env.tree.variableScope? env.functionScope =
      S.tree.variableScope? S.functionScope := by
    rw [Env.tree, anchors.survey, anchors.functionScope, Setting.tree]
  refine .read (.orBroken fun data found => ?_)
  rw [← same]
  exact found

theorem level_own (own : S.tree.slotOwner v = s) : S.tree.level s v = 0 := by
  rw [ScopeTree.level, ScopeTree.ancestors, ScopeTree.ancestorsWithin_succ, own]
  simp

/-- A captured parameter has its slot in the environment of the unit. -/
theorem calm_copyCaptured (begins : S.Begins env) (own : S.Owns v) :
    Calm S env ls (copyCaptured v) := by
  have tree : env.tree = S.tree := by rw [Env.tree, begins.anchors.survey, Setting.tree]
  refine (yields_variableData v).step fun data found => ?_
  rw [tree] at found
  cases captured : data.slot with
  | none => exact .pure ()
  | some slot =>
    refine (plain_registerFor v).step fun r => (plain_lda r).before <|
      calm_storeSlotOf fun known => ?_
    refine ⟨data, found, captured, begins.visible own known data found, ?_⟩
    obtain ⟨data', found', same⟩ := own known
    rw [found] at found'
    cases found'
    have lexical := begins.lexical known
    rw [begins.scope, level_own]
    rw [ScopeTree.slotOwner_of_lexical found (same ▸ lexical), same]

theorem spec_bindParameters (begins : S.Begins env) :
    Spec S (Held S {} 0) (bindParameters env) (fun _ => Held S {} S.base) := by
  have tree : env.tree = S.tree := by rw [Env.tree, begins.anchors.survey, Setting.tree]
  have scopes : Yields S env [] _ unitVariableScope := yields_unitVariableScope
  refine .consult ((scopes {} 0 begins.inhabits.aligned (by simp)).follow fun data =>
    .given fun found => ?_)
  have binds : Calm S env [] (data.parameters.forM fun v => do let _ ← bindParameter v) :=
    .forM fun v _ => (plain_bindParameter v).before <| .pure ()
  have copies : Calm S env [] (Lower.sequence (data.parameters.map copyCaptured)) := by
    refine .sequence fun code mem => ?_
    obtain ⟨v, inside, rfl⟩ := List.mem_map.mp mem
    exact calm_copyCaptured begins (S.owns_of_parameter found inside)
  refine (binds.inhabited begins.inhabits).follow fun _ => ?_
  rw [begins.anchors.functionScope, tree]
  refine .require fun scope located => ?_
  cases needed : scope.env.filter LexicalEnv.isNeeded with
  | none =>
    have base : S.base = 0 := by
      simp [Setting.base, ScopeTree.needsEnv_of_not_needed located needed]
    rw [base]
    exact copies.inhabited begins.inhabits
  | some slots =>
    obtain ⟨same, needs⟩ := ScopeTree.slotNames_of_needed located needed
    have base : S.base = 0 + 1 := by simp [Setting.base, needs]
    rw [base]
    exact (spec_enterEnvironment same).follow fun _ => copies.inhabited begins.inhabits

/-! ## Hoisting -/

theorem calm_hoistDeclarations (begins : S.Begins env)
    (h : ∀ statement ∈ statements, (calming S).Hoists env statement) :
    Calm S env ls (hoistDeclarations statements) :=
  .of_steady (Judgement.steady_hoistDeclarations begins.names h)

/-! ## Bodies -/

theorem steady_topStatements {ctx : JumpContext}
    (surveyed : Statement.SurveyedList S.toLedger env.scope statements)
    (obeys : S.discipline ≠ .unknown →
      Statement.ObeysList S.discipline.rules ctx statements) :
    Steady S ctx [] env [] (topStatements statements) := by
  induction statements with
  | nil => exact .pure ()
  | cons statement rest ih =>
    have first := Statement.lower_steady statement surveyed.1 fun known => (obeys known).1
    have others := ih surveyed.2 fun known => (obeys known).2
    refine .bind (.bind first fun _ => .get fun a => .ite (fun _ => ?_) fun _ => .pure ()) fun _ =>
      others
    exact .of_calm (.throw (Setting.tolerates_of_tolerable (.stillLive _ _)))

theorem spec_returnThis
    (begins : S.Begins env) (reached : S.surveyed → S.Reaches env.scope HiddenName.this) :
    Spec S (Held S {} S.base) (returnThis env) (fun _ => Held S {} S.base) := by
  have loads : Calm S env [] (loadVariable HiddenName.this) :=
    calm_loadVariable reached
  have returns : Spec S (Held S {} S.base) (emit .return) (fun _ => Held S {} S.base) :=
    spec_return (.inl rfl) _
  refine (loads.inhabited begins.inhabits).follow fun _ => .consult ?_
  split
  · exact (plain_requireThis.spec _ _).before returns
  · exact returns

theorem spec_fallOff (begins : S.Begins env)
    (reached : kind = .constructor → S.surveyed → S.Reaches env.scope HiddenName.this) :
    Spec S (Held S {} S.base) (fallOff kind env) (fun _ => Held S {} S.base) := by
  refine (plain_isTerminated.spec _ _).step fun terminated => ?_
  split
  · split
    · exact spec_returnThis begins (reached ‹_›)
    · exact spec_return (.inr rfl) _
  · exact .pure fun _ held => held

theorem spec_unitFrame (begins : S.Begins env) {code : Lower Unit}
    (h : Spec S (Held S {} S.base) (code env) (fun _ => Held S {} S.base)) :
    Spec S (Held S {} 0) (unitFrame code env) (fun _ => Held S {} S.base) :=
  ((plain_setOrigin _).spec _ _).before <| (spec_bindParameters begins).follow fun _ =>
    .consult (((plain_enterScope _).spec _ _).before <| h.follow fun _ =>
      plain_exitScope.spec _ _)

/-! ## The program root -/

/-- No function lies around the root. -/
theorem reaches_of_outermost {c : CompileContext} (outermost : c.survey.tree.parent? s = none)
    (name : String) : c.Reaches s name := by
  refine CompileContext.reaches_of_find? fun v crossed found => ?_
  rw [ScopeTree.find?, ScopeTree.ancestors_of_root outermost] at found
  unfold ScopeTree.findIn? at found
  split at found
  · cases found
    rfl
  · cases found

theorem spec_programBody
    (begins : S.Begins env) (outermost : S.surveyed → S.tree.parent? env.scope = none)
    (surveyed : Statement.SurveyedList S.toLedger env.scope S.program.statements) :
    Spec S (Held S {} S.base) (programBody S.program env) (fun _ => Held S {} S.base) := by
  have reached : S.surveyed → ∀ name, S.Reaches env.scope name := fun known =>
    reaches_of_outermost (outermost known)
  have hoists : Calm S env [] (hoistDeclarations S.program.statements) := by
    refine calm_hoistDeclarations begins fun statement mem f exportKind kind => ?_
    have own := surveyed.of_mem statement mem
    obtain ⟨id, position, content⟩ := statement
    subst kind
    exact ⟨.of_surveyed own.1, fun name _ => yields_resolveName fun known _ => reached known name⟩
  have top : Steady S S.discipline.start [] env [] (topStatements S.program.statements) :=
    steady_topStatements surveyed S.obeys
  have rest : Spec S (Held S {} S.base)
      ((do
        hoistDeclarations S.program.statements
        topStatements S.program.statements
        if !(← isTerminated) then emit .returnUndefined : Lower Unit) env)
      (fun _ => Held S {} S.base) := by
    refine (hoists.inhabited begins.inhabits).follow fun _ =>
      (top {} begins.ready begins.inhabits nofun).follow fun _ =>
      (plain_isTerminated.spec _ _).step fun terminated => ?_
    split
    · exact spec_return (.inr rfl) _
    · exact .pure fun _ held => held
  refine .consult ?_
  cases env.survey.moduleRecord with
  | none => exact rest
  | some record =>
    have binds : Calm S env [] (bindNamespaces 0 record.namespaceImports) := .of_steady <|
      Judgement.steady_bindNamespaces (fun name => yields_resolveName fun known _ => reached known name)
        0 _
    exact (binds.inhabited begins.inhabits).follow fun _ => rest

/-! ## Functions -/

/-- The function of the unit. -/
structure Setting.Runs (S : Setting) (f : FunctionNode) : Prop where
  admitted : S.admits f
  declared : S.surveyed → ∃ outer, S.Declares f.id f.kind f.parameters outer S.functionScope
  parameters : Parameter.SurveyedList S.toLedger S.functionScope f.parameters
  body : f.body.Surveyed S.toLedger S.functionScope

theorem FunctionNode.Surveyed.runs {f : FunctionNode} (h : f.Surveyed S.toLedger s)
    (recorded : S.tree.scopeOfNode? f.id = some S.functionScope) : S.Runs f := by
  obtain ⟨id, position, name, kind, isExpression, parameters, body, isStrict⟩ := f
  obtain ⟨admitted, located, settled⟩ := h
  have declared : S.surveyed → S.Declares id kind parameters s S.functionScope := by
    intro known
    obtain ⟨inner, declares⟩ := located known
    have same := declares.registers.opened.recorded
    rw [Setting.tree] at recorded
    rw [recorded] at same
    cases same
    exact declares
  obtain ⟨parameters, body⟩ := settled S.functionScope declared
  exact ⟨admitted, fun known => ⟨s, declared known⟩, parameters, body⟩

theorem unitKind?_eq (anchors : S.Anchors env) {node : NodeId} {outer : ScopeId}
    (registers : S.Registers node kind outer S.functionScope) : env.unitKind? = some kind := by
  obtain ⟨scope, found, rfl, -⟩ := registers.opened.scope
  obtain ⟨facts, known, rfl⟩ := registers.facts
  simp [Env.unitKind?, Env.tree, anchors.survey, anchors.functionScope, found, known]

theorem Setting.Begins.of_registers
    (anchors : S.Anchors env) (scope : env.scope = S.functionScope) (outside : env.inFields = false)
    {node : NodeId}
    (registered : S.surveyed → ∃ outer, S.Registers node kind outer S.functionScope) :
    S.Begins env := by
  refine ⟨anchors, scope, outside, fun known => ?_, fun known constructor => ?_⟩
  · obtain ⟨outer, registers⟩ := registered known
    exact registers.opened.kindIs _
  · obtain ⟨outer, registers⟩ := registered known
    rw [unitKind?_eq anchors registers, Option.some.injEq] at constructor
    subst constructor
    exact registers.hidden rfl _ (by simp)

section Function

variable {f : FunctionNode}

theorem CompileContext.Registers.reaches
    {c : CompileContext} {node : NodeId} {outer inner : ScopeId}
    (h : c.Registers node kind outer inner) (plain : kind.isArrow = false)
    (hidden : name ∈ [HiddenName.funcObj, HiddenName.newTarget, HiddenName.this]) :
    c.Reaches inner name := by
  obtain ⟨v, found⟩ := h.hidden plain name hidden
  exact (ScopeTree.BelongsTo.refl _ _).reaches found

theorem Setting.Runs.reaches
    (runs : S.Runs f) (begins : S.Begins env) (plain : f.kind.isArrow = false)
    (hidden : name ∈ [HiddenName.funcObj, HiddenName.newTarget, HiddenName.this]) :
    S.surveyed → S.Reaches env.scope name := by
  intro known
  obtain ⟨outer, declares⟩ := runs.declared known
  rw [begins.scope]
  exact declares.registers.reaches plain hidden

theorem calm_bindOwnName (runs : S.Runs f) (begins : S.Begins env) :
    Calm S env ls (bindOwnName f) := by
  refine .of_steady (Judgement.steady_bindOwnName begins.own f fun isExpression =>
    yields_resolveName fun known lawful => ?_)
  have plain : f.kind.isArrow = false := by
    by_contra arrow
    have unmarked := (S.lawful lawful f runs.admitted).arrow (by simpa using arrow)
    rw [unmarked] at isExpression
    cases isExpression
  exact runs.reaches begins plain (by simp) known

theorem calm_initializeParameters (runs : S.Runs f) (begins : S.Begins env) :
    Calm S env [] (initializeParameters f.parameters) := by
  refine .of_steady (Judgement.steady_initializeParameters (J := calming S) (fun data found =>
    ⟨begins.parameters found, fun fewer _ _ _ _ _ => .throw fun known _ => ?_⟩) ?_)
  · obtain ⟨outer, declares⟩ := runs.declared known
    obtain ⟨data', found', bound⟩ := declares.binds
    rw [Env.tree, begins.anchors.survey, begins.anchors.functionScope, found',
      Option.some.injEq] at found
    subst found
    omega
  · rw [begins.scope]
    refine runs.parameters.of_mem fun known => ?_
    obtain ⟨outer, declares⟩ := runs.declared known
    exact declares.reaches

/-! ## Fields -/

/-- The unit is the constructor of a class with surveyed members. -/
def Setting.OwnsFields (S : Setting) (node : ClassNode) : Prop :=
  ∃ classScope, ∀ member ∈ node.members,
    member.IsSurveyed S.toLedger classScope S.functionScope

theorem portable_ownFields (anchors : S.Anchors env) (fields : S.OwnsFields node)
    (this : S.surveyed → S.Reaches S.functionScope HiddenName.this) :
    S.Portable (initializeFields (ClassMember.lowerEach node.members) env) := by
  obtain ⟨classScope, surveyed⟩ := fields
  have inside : S.Anchors { env with scope := env.functionScope, inFields := true } :=
    { anchors with belongs := fun _ => anchors.functionScope ▸ .refl _ _ }
  rw [← anchors.functionScope] at this surveyed
  exact portable_initializeFields inside this surveyed

theorem calm_ownFields (begins : S.Begins env) (fields : ∀ node ∈ owner, S.OwnsFields node)
    (this : f.kind = .constructor → S.surveyed → S.Reaches env.scope HiddenName.this) :
    Calm S env [] (ownFields f owner) := by
  unfold ownFields
  split
  · rename_i node constructor
    refine .read (.ite (fun _ => ?_) fun _ => .pure ())
    rw [begins.scope] at this
    exact fun Γ n aligned _ =>
      portable_ownFields begins.anchors (fields node rfl) (this constructor) Γ n aligned.grounded
  · exact .pure ()

/-! ## The body of a function -/

theorem Setting.Runs.hoists
    (runs : S.Runs f) (begins : S.Begins env) {block : Block} (body : f.body = .block block) :
    ∀ statement ∈ block.statements, (calming S).Hoists env statement := by
  obtain ⟨id, statements⟩ := block
  have surveyed := runs.body
  rw [body] at surveyed
  obtain ⟨inner, opens, inOrder⟩ := Ledger.Finds.choose surveyed S.functionScope
  intro statement mem g exportKind kind
  have own := inOrder.of_mem statement mem
  obtain ⟨node, position, content⟩ := statement
  subst kind
  refine ⟨⟨inner, own.1, fun known => ?_, fun _ => ?_⟩, fun name declared =>
    yields_resolveName fun known _ => ?_⟩
  · rw [begins.scope]
    exact (environments_of_opens known (opens known)).symm
  · exact fun known => Nat.le_of_lt ((opens known).lt known)
  · obtain ⟨outer, declares⟩ := runs.declared known
    rw [begins.scope]
    refine own.2 known name declared S.functionScope (opens known).parent?_eq ?_ ?_
    · exact (opens known).kindIs _
    · exact declares.registers.opened.kindIs _

theorem spec_functionBody (runs : S.Runs f) (begins : S.Begins env)
    (fields : ∀ node ∈ owner, S.OwnsFields node) :
    Spec S (Held S {} S.base) (functionBody f owner env) (fun _ => Held S {} S.base) := by
  have this : f.kind = .constructor → S.surveyed → S.Reaches env.scope HiddenName.this :=
    fun constructor => runs.reaches begins (by rw [constructor]; rfl) (by simp)
  unfold functionBody
  cases body : f.body with
  | expression value =>
    have surveyed := runs.body
    rw [body, ← begins.scope] at surveyed
    have code : Calm S env [] value.lower := Expr.lower_calm value surveyed
    exact (code.inhabited begins.inhabits).follow fun _ => spec_return (.inl rfl) _
  | block block =>
    have hoists : Calm S env [] (hoistDeclarations block.statements) :=
      calm_hoistDeclarations begins (runs.hoists begins body)
    have statements : Steady S S.discipline.start [] env []
        (inVisibleScope block.id (topStatements block.statements)) := by
      have surveyed := runs.body
      have obeys := fun known => S.obeys_of_admits runs.admitted known
      obtain ⟨id, statements⟩ := block
      rw [body] at surveyed obeys
      rw [← begins.scope] at surveyed
      refine .inScope surveyed fun inner ok => (plain_enterScope inner).steady fun _ => ?_
      exact (steady_topStatements ok obeys).then <| .of_calm plain_exitScope.calm
    exact (hoists.inhabited begins.inhabits).follow fun _ =>
      ((calm_ownFields begins fields this).inhabited begins.inhabits).follow fun _ =>
      (statements {} begins.ready begins.inhabits nofun).follow fun _ => spec_fallOff begins this

theorem spec_functionCode (runs : S.Runs f) (begins : S.Begins env)
    (fields : ∀ node ∈ owner, S.OwnsFields node) :
    Spec S (Held S {} S.base) (functionCode f owner env) (fun _ => Held S {} S.base) :=
  ((calm_bindOwnName runs begins).inhabited begins.inhabits).follow fun _ =>
    ((Calm.of_steady (Judgement.steady_bindArguments begins.own)).inhabited begins.inhabits).follow fun _ =>
    ((calm_initializeParameters runs begins).inhabited begins.inhabits).follow fun _ =>
    spec_functionBody runs begins fields

end Function

/-! ## Constructors -/

theorem Ledger.Accepts.placed (accepted : S.Accepts source) (owner : source.owner? = some node)
    (recorded : S.tree.scopeOfNode? (source.node S.program) = some S.functionScope) :
    ∃ place : ClassPlace, place.constructorScope = S.functionScope ∧
      node.SurveyedAt S.toLedger place ∧
      (S.surveyed → S.tree.scopeOfNode? node.id = some place.scope ∧
        S.Registers (source.node S.program) .constructor place.scope S.functionScope) := by
  obtain ⟨s, surveyed, own⟩ : ∃ s, node.Surveyed S.toLedger s ∧
      (S.surveyed → ∀ place : ClassPlace, S.Places node.id node.name node.isExpression s place →
        place.constructor = source.node S.program) := by
    cases source with
    | program => cases owner
    | function f _ isStrict =>
      cases owner
      obtain ⟨own, s, surveyed⟩ := accepted
      exact ⟨s, surveyed, fun known place placed =>
        (((surveyed.finds.2 place fun _ => placed).constructor own).1 known).symm⟩
    | defaultConstructor _ id =>
      cases owner
      obtain ⟨-, own, s, surveyed⟩ := accepted
      exact ⟨s, surveyed, fun known place placed =>
        Option.some.inj (placed.recorded.symm.trans (own known))⟩
  obtain ⟨place, placed, settled⟩ := surveyed.finds.choose ⟨0, 0, S.functionScope⟩
  by_cases known : S.surveyed
  · have registers := (placed known).registers
    rw [own known place (placed known)] at registers
    have same := registers.opened.recorded
    rw [Setting.tree] at recorded
    rw [recorded, Option.some.injEq] at same
    exact ⟨place, same.symm, settled, fun _ => ⟨(placed known).opens.recorded, same ▸ registers⟩⟩
  · have settled := surveyed.finds.2 ⟨0, 0, S.functionScope⟩ fun yes => absurd yes known
    exact ⟨_, rfl, settled, fun yes => absurd yes known⟩

theorem spec_defaultConstructorBody (begins : S.Begins env) (fields : S.OwnsFields node)
    (this : S.surveyed → S.Reaches env.scope HiddenName.this)
    (object : S.surveyed → S.Reaches env.scope HiddenName.funcObj) :
    Spec S (Held S {} S.base) (defaultConstructorBody node env) (fun _ => Held S {} S.base) := by
  have returns := spec_returnThis begins this
  refine ((plain_atPosition _).spec _ _).before ?_
  split
  · have forwards : Calm S env [] forwardArguments := .of_steady <|
      Judgement.steady_forwardArguments (fun _ => begins.parameters) object this
    exact (forwards.inhabited begins.inhabits).follow fun _ => returns
  · rw [begins.scope] at this
    exact Spec.follow (portable_ownFields begins.anchors fields this _ _
      begins.inhabits.aligned.grounded) fun _ => returns

/-! ## Whole units -/

/-- The environment of a unit belongs to its setting, because its field initializers are plain. -/
theorem anchors_env (fields : ∀ node ∈ source.owner?, S.OwnsFields node)
    (this : ∀ node ∈ source.owner?, S.surveyed → S.Reaches S.functionScope HiddenName.this) :
    S.Anchors (S.env source S.functionScope) := by
  refine ⟨rfl, rfl, rfl, rfl, ?_, fun _ => .refl _ _⟩
  show S.Portable (fieldInitOf source.owner? _)
  cases owner : source.owner? with
  | none => exact fun _ _ _ => .pure fun _ held => held
  | some node =>
    refine portable_ownFields ⟨rfl, rfl, rfl, rfl, ?_, fun _ => .refl _ _⟩ (fields node owner) (this node owner)
    exact fun _ _ _ => .throw (Setting.tolerates_of_tolerable .broken)

theorem spec_programUnit (root : S.toLedger.SurveyedRoot)
    (recorded : S.tree.scopeOfNode? S.program.id = some S.functionScope) :
    Spec S (Held S {} 0) (unitCode S.program .program (S.env .program S.functionScope))
      (fun _ => Held S {} S.base) := by
  have same : S.surveyed → S.functionScope = ScopeTree.rootId := by
    intro known
    have own := (root.roots known).recorded
    rw [Setting.tree] at recorded
    rw [recorded, Option.some.injEq] at own
    exact own
  have begins : S.Begins (S.env .program S.functionScope) := by
    refine ⟨anchors_env (by rintro _ ⟨⟩) (by rintro _ ⟨⟩), rfl, rfl, fun known => ?_, fun known constructor => ?_⟩
    · obtain ⟨scope, found, -, lexical, -⟩ := (root.roots known).scope
      rw [same known]
      simpa [ScopeTree.isLexical, ScopeTree.kindIs, Setting.tree, found] using lexical
    · obtain ⟨scope, found, -, -, none⟩ := (root.roots known).scope
      rw [same known] at constructor
      simp [Env.unitKind?, Env.tree, CompileContext.env, found, none] at constructor
  refine spec_unitFrame begins (spec_programBody begins (fun known => ?_) (root.statements _ same))
  obtain ⟨scope, found, outermost, -⟩ := (root.roots known).scope
  show S.tree.parent? S.functionScope = none
  rw [same known]
  simp [ScopeTree.parent?, Setting.tree, found, outermost]

theorem spec_functionUnit {f : FunctionNode} {isStrict : Bool}
    (accepted : S.Accepts (.function f owner isStrict))
    (recorded : S.tree.scopeOfNode? f.id = some S.functionScope) :
    Spec S (Held S {} 0)
      (unitCode S.program (.function f owner isStrict)
        (S.env (.function f owner isStrict) S.functionScope))
      (fun _ => Held S {} S.base) := by
  obtain ⟨runs, anchors, fields⟩ : S.Runs f ∧
      S.Anchors (S.env (.function f owner isStrict) S.functionScope) ∧
      ∀ node ∈ owner, S.OwnsFields node := by
    cases owner with
    | none =>
      obtain ⟨s, surveyed⟩ := accepted
      exact ⟨surveyed.runs recorded, anchors_env nofun nofun, nofun⟩
    | some node =>
      obtain ⟨place, same, settled, placed⟩ := accepted.placed rfl recorded
      obtain ⟨own, -⟩ := accepted
      have fields : S.OwnsFields node := ⟨place.scope, same ▸ settled.members⟩
      refine ⟨(settled.constructor own).2.runs recorded, anchors_env ?_ ?_, ?_⟩
      · rintro _ ⟨⟩
        exact fields
      · rintro _ ⟨⟩ known
        exact (placed known).2.reaches rfl (by simp)
      · rintro _ ⟨⟩
        exact fields
  have registered : S.surveyed → ∃ outer, S.Registers f.id f.kind outer S.functionScope := by
    intro known
    obtain ⟨outer, declares⟩ := runs.declared known
    exact ⟨outer, declares.registers⟩
  have begins : S.Begins (S.env (.function f owner isStrict) S.functionScope) :=
    .of_registers anchors rfl rfl registered
  exact spec_unitFrame begins (spec_functionCode runs begins fields)

theorem spec_defaultConstructorUnit
    {id : NodeId} (accepted : S.Accepts (.defaultConstructor node id))
    (recorded : S.tree.scopeOfNode? id = some S.functionScope) :
    Spec S (Held S {} 0)
      (unitCode S.program (.defaultConstructor node id)
        (S.env (.defaultConstructor node id) S.functionScope))
      (fun _ => Held S {} S.base) := by
  obtain ⟨place, same, settled, placed⟩ := accepted.placed rfl recorded
  have fields : S.OwnsFields node := ⟨place.scope, same ▸ settled.members⟩
  have reaches : ∀ name ∈ [HiddenName.funcObj, HiddenName.newTarget, HiddenName.this],
      S.surveyed → S.Reaches S.functionScope name :=
    fun name hidden known => (placed known).2.reaches rfl hidden
  have anchors : S.Anchors (S.env (.defaultConstructor node id) S.functionScope) := by
    refine anchors_env ?_ ?_
    · rintro _ ⟨⟩
      exact fields
    · rintro _ ⟨⟩
      exact reaches _ (by simp)
  have begins : S.Begins (S.env (.defaultConstructor node id) S.functionScope) :=
    .of_registers anchors rfl rfl fun known => ⟨place.scope, (placed known).2⟩
  exact spec_unitFrame begins (spec_defaultConstructorBody begins fields (reaches _ (by simp))
    (reaches _ (by simp)))

theorem spec_unitCode (accepted : S.Accepts source)
    (recorded : S.tree.scopeOfNode? (source.node S.program) = some S.functionScope) :
    Spec S (Held S {} 0) (unitCode S.program source (S.env source S.functionScope))
      (fun _ => Held S {} S.base) := by
  cases source with
  | program => exact spec_programUnit accepted recorded
  | function f owner isStrict => exact spec_functionUnit accepted recorded
  | defaultConstructor node id => exact spec_defaultConstructorUnit accepted recorded

end AccScript
