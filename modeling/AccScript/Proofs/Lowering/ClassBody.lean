import AccScript.Proofs.Judgement.Unit
import AccScript.Proofs.Lowering.Reference

/-!
# Classes

The code of a class is calm.  The class object is made in the scope around the class, although its
constructor and first methods were surveyed in the scope of the class; that scope is a block, so
the same environments are open in both.
-/

namespace AccScript

open Asm Lower

variable {α β : Type} {S : Setting} {env : Env} {ls : List Label} {node : ClassNode}
  {place : ClassPlace} {parts : List MemberPart} {part : MemberPart} {m : BufferedMethod}
  {scope : ScopeId} {s : ScopeId}

/-! ## Blocks -/

theorem ScopeTree.BelongsTo.of_parent
    {t : ScopeTree} (ordered : t.Ordered) {unit s p : ScopeId} (parent : t.parent? s = some p)
    (inside : t.kindIs (· = .function) s = false) (h : t.BelongsTo unit p) :
    t.BelongsTo unit s := by
  obtain ⟨inner, outer, ancestors, passed⟩ := h
  refine ⟨s :: inner, outer, ?_, List.forall_mem_cons.mpr ⟨inside, passed⟩⟩
  rw [ScopeTree.ancestors_of_parent ordered parent, ancestors, List.cons_append]

theorem CompileContext.Opens.kindIs {c : CompileContext} {outer inner : ScopeId}
    {node : NodeId} {kind : ScopeKind} (h : c.Opens node kind outer inner)
    (p : ScopeKind → Bool) :
    c.survey.tree.kindIs p inner = p kind := by
  obtain ⟨scope, found, -, rfl, -⟩ := h.scope
  simp [ScopeTree.kindIs, found]

theorem belongs_of_opens (known : S.surveyed) {node : NodeId} {kind : ScopeKind}
    {outer inner : ScopeId}
    (opens : S.Opens node kind outer inner) (inside : kind ≠ .function)
    (h : S.tree.BelongsTo S.functionScope outer) : S.tree.BelongsTo S.functionScope inner := by
  refine h.of_parent (S.wellFormed known).ordered opens.parent?_eq ?_
  exact (opens.kindIs _).trans (by simpa using inside)

theorem Setting.Anchors.withScope (anchors : S.Anchors env) {node : NodeId} {kind : ScopeKind}
    (opens : S.surveyed → S.Opens node kind env.scope scope) (inside : kind ≠ .function) :
    S.Anchors { env with scope } :=
  { anchors with
    belongs := fun known => belongs_of_opens known (opens known) inside (anchors.belongs known) }

theorem environments_of_opens (known : S.surveyed) {node : NodeId} {outer inner : ScopeId}
    (opens : S.Opens node .block outer inner) :
    S.tree.environments inner = S.tree.environments outer := by
  refine ScopeTree.environments_of_block (S.wellFormed known).ordered opens.parent?_eq ?_
  obtain ⟨scope, found, -, kind, -⟩ := opens.scope
  simp [ScopeTree.isLexical, ScopeTree.kindIs, found, kind, ScopeKind.isLexical]

theorem Calm.withScope {m : Lower α} (h : Calm S { env with scope } ls m) {node : NodeId}
    (opens : S.surveyed → S.Opens node .block env.scope scope) :
    Calm S env ls (Lower.withScope scope m) :=
  fun Γ n aligned known => h Γ n ⟨aligned.anchors.withScope opens nofun, aligned.grounded, fun known =>
    (aligned.counted known).trans (environments_of_opens known (opens known)).symm⟩ known

theorem yields_scopeOf {node : NodeId} {kind : ScopeKind}
    (opened : S.surveyed → ∃ inner, S.Opens node kind env.scope inner) :
    Yields S env ls (fun inner => S.tree.scopeOfNode? node = some inner ∧
      (S.surveyed → S.Opens node kind env.scope inner)) (scopeOf node) := by
  refine .anchored fun anchors => .ask ?_ ?_
  · intro failure failed known _
    obtain ⟨inner, opens⟩ := opened known
    rw [anchors.survey, Survey.scopeOf, opens.recorded] at failed
    cases failed
  · intro inner answer
    rw [anchors.survey, Survey.scopeOf] at answer
    cases found : S.survey.tree.scopeOfNode? node with
    | none =>
      rw [found] at answer
      cases answer
    | some scope =>
      rw [found] at answer
      cases answer
      refine ⟨found, fun known => ?_⟩
      obtain ⟨inner', opens⟩ := opened known
      have same := opens.recorded
      rw [found] at same
      cases same
      exact opens

/-! ## What a survey knows about a class -/

section Surveyed

variable {L : Ledger}

/-- What holds for a class wherever it is placed. -/
structure ClassNode.SurveyedAt (L : Ledger) (node : ClassNode) (place : ClassPlace) : Prop where
  constructorMember : ConstructorSurveyed L place.scope place.constructor node.members
  members : ∀ member ∈ node.members, member.IsSurveyed L place.scope place.constructorScope

theorem ClassNode.Surveyed.finds (h : node.Surveyed L s) :
    L.Finds (L.Places node.id node.name node.isExpression s) (node.SurveyedAt L) := by
  cases node
  simp only [ClassNode.Surveyed] at h
  obtain ⟨-, exists_, all⟩ := h
  exact ⟨exists_, fun place placed => ⟨(all place placed).1, (all place placed).2.of_mem⟩⟩

theorem mem_of_leadingMethods {members : List ClassMember} (h : m ∈ leadingMethods members) :
    m.function.kind = .method ∧ ∃ member ∈ members, member.kind = .method m.function := by
  induction members with
  | nil => simp [leadingMethods] at h
  | cons member rest ih =>
    have later : m ∈ leadingMethods rest → m.function.kind = .method ∧
        ∃ other ∈ member :: rest, other.kind = .method m.function := by
      intro mem
      obtain ⟨kind, other, inside, same⟩ := ih mem
      exact ⟨kind, other, .tail _ inside, same⟩
    unfold leadingMethods at h
    split at h
    · exact later h
    · rename_i f content
      split at h
      · exact later h
      · rename_i name kind key
        rcases List.mem_cons.mp h with rfl | mem
        · exact ⟨kind, member, .head _, content⟩
        · exact later mem
      · cases h

theorem mem_of_bufferedMethods (h : m ∈ node.bufferedMethods) :
    m.function.kind = .method ∧ ∃ member ∈ node.members, member.kind = .method m.function := by
  have leading : m ∈ leadingMethods node.members := by
    rcases List.mem_append.mp h with h | h
    · exact (List.mem_filter.mp h).1
    · exact (List.mem_filter.mp h).1
  exact mem_of_leadingMethods leading

theorem ClassNode.SurveyedAt.method (h : node.SurveyedAt L place)
    (mem : m ∈ node.bufferedMethods) : m.function.Surveyed L place.scope := by
  obtain ⟨kind, member, inside, content⟩ := mem_of_bufferedMethods mem
  have surveyed := (h.members member inside).kind
  rw [content] at surveyed
  simp only [MemberKind.Surveyed] at surveyed
  exact surveyed (by simp [kind])

theorem ClassNode.SurveyedAt.constructor (h : node.SurveyedAt L place)
    {f : FunctionNode} (own : node.constructor? = some f) :
    (L.surveyed → f.id = place.constructor) ∧ f.Surveyed L place.scope := by
  have surveyed := h.constructorMember
  unfold ClassNode.constructor? at own
  generalize node.members = members at surveyed own
  induction members with
  | nil => cases own
  | cons member rest ih =>
    obtain ⟨id, position, key, isStatic, kind⟩ := member
    rw [List.findSome?_cons] at own
    cases kind with
    | field initializer => exact ih surveyed own
    | method g =>
      by_cases constructor : g.kind = .constructor
      · simp only [ClassMember.constructor?, constructor, if_true, Option.some.injEq] at own
        subst own
        simp only [ConstructorSurveyed, constructor, if_true] at surveyed
        exact surveyed
      · simp only [ClassMember.constructor?, constructor, if_false] at own
        simp only [ConstructorSurveyed, constructor, if_false] at surveyed
        exact ih surveyed own

end Surveyed

/-! ## Creation -/

theorem Yields.mapM {f : β → Lower α} {P : β → α → Prop} {items : List β}
    (h : ∀ x ∈ items, Yields S env ls (P x) (f x)) :
    Yields S env ls (fun results => ∀ y ∈ results, ∃ x ∈ items, P x y) (items.mapM f) := by
  induction items with
  | nil =>
    rw [List.mapM_nil]
    exact .pure nofun
  | cons x rest ih =>
    rw [List.mapM_cons]
    refine (h x (.head _)).bind fun y first =>
      (ih fun x mem => h x (.tail _ mem)).bind fun ys others => .pure ?_
    refine List.forall_mem_cons.mpr ⟨⟨x, .head _, first⟩, fun z mem => ?_⟩
    obtain ⟨x', mem', holds⟩ := others z mem
    exact ⟨x', .tail _ mem', holds⟩

theorem yields_classLiterals {methods : List BufferedMethod}
    (surveyed : ∀ m ∈ methods, m.function.Surveyed S.toLedger s) :
    Yields S env ls (fun buffer => ∀ name, Literal.method name ∈ buffer →
      ∃ m ∈ methods, S.names.get? m.function.id = some name) (classLiterals methods) := by
  have each : ∀ m ∈ methods, Yields S env ls (fun literals => ∀ name,
      Literal.method name ∈ literals → S.names.get? m.function.id = some name)
      (methodLiterals m) := by
    intro m mem
    have method := surveyed m mem
    refine .read (.after (calm_functionFacts method.facts) fun facts =>
      (yields_internalName method.named).bind fun name named => .pure fun other own => ?_)
    simp only [List.mem_cons, reduceCtorEq, Literal.method.injEq, List.not_mem_nil, or_false,
      false_or] at own
    rw [own]
    exact named
  refine (Yields.mapM each).bind fun literals named => .pure fun name mem => ?_
  simp only [List.mem_append, List.mem_flatten, List.mem_singleton, reduceCtorEq, or_false] at mem
  obtain ⟨buffer, inside, own⟩ := mem
  obtain ⟨m, method, holds⟩ := named buffer inside
  exact ⟨m, method, holds name own⟩

def ClassNode.units (node : ClassNode) (constructor : NodeId) : List UnitSource :=
  constructorUnit node constructor ::
    node.bufferedMethods.map fun m => .function m.function none true

theorem ClassNode.SurveyedAt.node_constructorUnit {L : Ledger} (h : node.SurveyedAt L place)
    (known : L.surveyed) (program : Program) :
    (constructorUnit node place.constructor).node program = place.constructor := by
  unfold constructorUnit
  cases own : node.constructor? with
  | some f => exact (h.constructor own).1 known
  | none => rfl

theorem captures_class (placed : S.Places node.id node.name node.isExpression env.scope place)
    (surveyed : node.SurveyedAt S.toLedger place) (known : S.surveyed)
    {subject : Subject} (boundaries : List Boundary) :
    S.Captures (env.site subject boundaries)
      (place.constructor :: node.bufferedMethods.map fun m => m.function.id) := by
  have same := (environments_of_opens known placed.opens).symm
  refine List.forall_mem_cons.mpr ⟨?_, fun id mem => ?_⟩
  · have opened := placed.registers.opened
    exact ⟨place.constructorScope, place.scope, opened.recorded, opened.parent?_eq, same⟩
  · obtain ⟨m, inside, rfl⟩ := List.mem_map.mp mem
    obtain ⟨scope, registers⟩ := (surveyed.method inside).registers known
    have opened := registers.opened
    exact ⟨scope, place.scope, opened.recorded, opened.parent?_eq, same⟩

theorem spec_createClass (base : Register)
    (placed : S.surveyed → S.Places node.id node.name node.isExpression env.scope place)
    (surveyed : node.SurveyedAt S.toLedger place) {Γ : Frame} {n : Nat}
    (aligned : S.Aligned env Γ.boundaries) :
    Spec S (Held S Γ n) (createClass base place.constructor node.bufferedMethods env)
      (fun _ => Held S (Γ.promise (node.units place.constructor)) n) := by
  have literals : Yields S env [] _ (classLiterals node.bufferedMethods) :=
    yields_classLiterals fun m mem => surveyed.method mem
  refine (literals Γ n aligned nofun).follow fun buffer => .given fun named =>
    (spec_addLiteral buffer).step fun k => ?_
  refine (spec_internalName aligned.anchors fun known => (placed known).registers.named).follow fun name =>
    .given fun own => ?_
  have stays : ∀ t u : Tables, t.Le u → t.literals[k]? = some buffer →
      u.literals[k]? = some buffer := fun _ _ le found => Tables.getElem?_of_prefix le.literals found
  refine (spec_intern name stays).step fun index => .consult ?_
  refine (spec_functionFacts aligned.anchors fun known => ?_).step fun facts => ?_
  · obtain ⟨facts, found, -⟩ := (placed known).registers.facts
    exact ⟨facts, found⟩
  have emits : Spec S _ (emitAt
        (.functions (place.constructor :: node.bufferedMethods.map fun m => m.function.id))
        (.defineClassWithBuffer index k facts.length base) env)
      (fun _ => Held S (Γ.promise (node.units place.constructor)) n) :=
    spec_emitPromising (fun _ _ => trivial) (.inr rfl) fun known _ =>
      ⟨_, _, rfl, rfl, aligned.counts known _, captures_class (placed known) surveyed known _⟩
  refine emits.weaken (fun a ⟨held, literal, string⟩ => ⟨held, fun known => ⟨?_, ?_⟩⟩)
    fun _ _ held => held
  · rintro _ ⟨⟩
    refine ⟨name, string, _, .head _, ?_⟩
    rw [surveyed.node_constructorUnit known]
    exact ⟨.head _, own⟩
  · rintro _ ⟨⟩
    refine ⟨buffer, literal, fun method mem => ?_⟩
    obtain ⟨m, inside, holds⟩ := named method mem
    exact ⟨.function m.function none true,
      .tail _ (List.mem_map.mpr ⟨m, inside, rfl⟩),
      .tail _ (List.mem_map.mpr ⟨m, inside, rfl⟩), holds⟩

/-! ## The whole class -/

theorem yields_classConstructor
    (recorded : S.surveyed → ∃ id, S.survey.classConstructors.get? node.id = some id) :
    Yields S env ls (fun id => S.survey.classConstructors.get? node.id = some id)
      (classConstructor node) := by
  refine .anchored fun anchors => .read ?_
  rw [anchors.survey]
  cases found : S.survey.classConstructors.get? node.id with
  | some id => exact .pure rfl
  | none =>
    refine .throw fun known _ => ?_
    obtain ⟨id, some⟩ := recorded known
    rw [found] at some
    cases some

theorem accepts_constructorUnit {constructor : NodeId} (surveyed : node.Surveyed S.toLedger s)
    (recorded : S.survey.classConstructors.get? node.id = some constructor) :
    S.Accepts (constructorUnit node constructor) := by
  unfold constructorUnit
  cases own : node.constructor? with
  | some f => exact ⟨own, s, surveyed⟩
  | none => exact ⟨own, fun _ => recorded, s, surveyed⟩

theorem defers_units (anchors : S.Anchors env) (surveyed : node.Surveyed S.toLedger env.scope)
    (placed : S.surveyed → S.Places node.id node.name node.isExpression env.scope place)
    (settled : node.SurveyedAt S.toLedger place)
    (recorded : S.survey.classConstructors.get? node.id = some place.constructor) :
    ∀ unit ∈ node.units place.constructor, S.Defers unit := by
  have below : S.surveyed → S.functionScope ≤ place.scope :=
    (anchors.withScope (fun known => (placed known).opens) nofun).below
  refine List.forall_mem_cons.mpr ⟨?_, fun unit mem => ?_⟩
  · refine Setting.defers_of_opens (accepts_constructorUnit surveyed recorded) fun known => ?_
    rw [settled.node_constructorUnit known]
    exact ⟨_, _, _, (placed known).registers.opened, below known⟩
  · obtain ⟨m, inside, rfl⟩ := List.mem_map.mp mem
    exact (settled.method inside).defers below true

theorem spec_deferMethods {constructor : NodeId}
    (defers : ∀ unit ∈ node.units constructor, S.Defers unit) {Γ : Frame} {n : Nat} :
    Spec S (Held S (Γ.promise (node.units constructor)) n)
      (deferMethods (constructorUnit node constructor) node.bufferedMethods)
      (fun _ => Held S Γ n) := by
  obtain ⟨first, others⟩ := List.forall_mem_cons.mp defers
  refine (spec_defer first _).then ?_
  generalize node.bufferedMethods = methods at others
  induction methods with
  | nil => exact .pure fun _ held => held
  | cons m rest ih =>
    obtain ⟨next, others⟩ := List.forall_mem_cons.mp others
    exact (spec_defer next _).then <| ih others

theorem calm_makeClass (base : Register)
    (surveyed : node.Surveyed S.toLedger env.scope)
    (placed : S.surveyed → S.Places node.id node.name node.isExpression env.scope place)
    (recorded : S.survey.classConstructors.get? node.id = some place.constructor)
    {f : Register → Lower β} (rest : ∀ object, Calm S env ls (f object)) :
    Calm S env ls (do
      createClass base place.constructor node.bufferedMethods
      freeTemps [base]
      let object ← storeTemp
      deferMethods (constructorUnit node place.constructor) node.bufferedMethods
      f object) := by
  intro Γ n aligned known
  have settled := surveyed.finds.2 place placed
  have defers := defers_units aligned.anchors surveyed placed settled recorded
  exact (spec_createClass base placed settled aligned).follow fun _ =>
    ((plain_freeTemps _).held _ n).before <| (plain_storeTemp.held _ n).step fun object =>
    (spec_deferMethods defers).before <| rest object Γ n aligned known

theorem calm_defineClass (surveyed : node.Surveyed S.toLedger env.scope)
    {superClass : Option (Lower Unit)} (bases : Calm S env ls (superClass.getD (constant .hole)))
    (inside : ∀ place : ClassPlace,
      (S.surveyed → S.Places node.id node.name node.isExpression env.scope place) →
      ∀ object, Calm S { env with scope := place.scope } ls (classScopeCode node object parts))
    {binding : Option String} (bound : ∀ name ∈ binding, Calm S env ls (declareVariable name)) :
    Calm S env ls (defineClass node superClass parts binding) := by
  obtain ⟨located, -⟩ := surveyed.finds
  have opens : S.surveyed → ∃ inner, S.Opens node.id .block env.scope inner := by
    intro known
    obtain ⟨place, placed⟩ := located known
    exact ⟨place.scope, placed.opens⟩
  have constructors : S.surveyed → ∃ id, S.survey.classConstructors.get? node.id = some id := by
    intro known
    obtain ⟨place, placed⟩ := located known
    exact ⟨place.constructor, placed.recorded⟩
  refine (plain_atPosition _).before <| (yields_scopeOf opens).step fun inner opened =>
    (yields_classConstructor constructors).step fun constructor recorded => ?_
  obtain ⟨place, rfl, rfl, placed⟩ : ∃ place : ClassPlace, place.scope = inner ∧
      place.constructor = constructor ∧
      (S.surveyed → S.Places node.id node.name node.isExpression env.scope place) := by
    by_cases known : S.surveyed
    · obtain ⟨place, placed⟩ := located known
      have sameScope := placed.opens.recorded.symm.trans (opened.2 known).recorded
      have sameConstructor := placed.recorded.symm.trans recorded
      exact ⟨place, Option.some.inj sameScope, Option.some.inj sameConstructor, fun _ => placed⟩
    · exact ⟨⟨inner, constructor, inner⟩, rfl, rfl, fun yes => absurd yes known⟩
  refine plain_getTemp.step fun base => bases.then <| (plain_sta base).before <|
    calm_makeClass base surveyed placed recorded fun object => ?_
  have rest : Calm S env ls (do
      Lower.withScope place.scope (classScopeCode node object parts)
      lda object
      freeTemps [object]) :=
    ((inside place placed object).withScope opened.2).then <| (plain_lda object).before <|
      (plain_freeTemps _).calm
  cases binding with
  | none => exact rest
  | some name => exact (bound name rfl).then rest

/-! ## Instance fields -/

theorem Calm.inFields
    {m : Lower Unit} (anchors : S.Anchors { env with scope := env.functionScope, inFields := true })
    (h : Calm S { env with scope := env.functionScope, inFields := true } [] m) :
    S.Portable (Lower.inFields m env) :=
  fun Γ n grounded => h Γ n
    ⟨anchors, grounded, fun _ => congrArg S.tree.environments anchors.functionScope.symm⟩ nofun

end AccScript
