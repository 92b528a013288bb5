import AccScript.Proofs.Survey.Course
import AccScript.Proofs.Survey.Functions

/-!
# The walk establishes the survey

Whatever the walk over a program visits is surveyed in the end: the two walks over the program, the
one that makes the survey and the one that makes the code, ask for the same names in the same scopes.
On its way the walk changes the module record as the text of the program says, and positions do not
matter to it.  The proof follows the walk, with one lemma for each kind of node.
-/

namespace AccScript

namespace Walk

variable {α β : Type} {p : Program} {n : Nat} {s : ScopeId} {I : ModuleText}
  {node : SourceNode} {nodes first second third : List SourceNode} {m m' : Walk α} {k k' : Walk β}

/-- What a walk establishes, and what it has in common with the walk over the bare program. -/
structure Tells (p : Program) (n : Nat) (nodes : List SourceNode) (I : ModuleText) (m m' : Walk α)
    (claim : α → Ledger → Prop) : Prop where
  establishes : Establishes p n nodes m claim
  follows : Follows I m m'

namespace Tells

theorem pure {x : α} {claim : α → Ledger → Prop} (h : ∀ L, claim x L) :
    Tells p n [] {} (Pure.pure x) (Pure.pure x) claim :=
  ⟨.pure h, Quiet.pure x⟩

theorem throw {failure failure' : Failure} {claim : α → Ledger → Prop}
    (same : failure.variant = failure'.variant) :
    Tells p n nodes I (MonadExcept.throw failure) (MonadExcept.throw failure') claim :=
  ⟨.throw, .throw same⟩

theorem imp {c d : α → Ledger → Prop} (h : Tells p n nodes I m m' c)
    (weaker : ∀ x L, L.surveyed → c x L → d x L) : Tells p n nodes I m m' d :=
  ⟨h.establishes.imp weaker, h.follows⟩

theorem of_eq {c : α → Ledger → Prop} {k : Walk α} (h : Tells p n nodes I m m' c)
    (same : m' = k) : Tells p n nodes I m k c :=
  same ▸ h

theorem cons {c : α → Ledger → Prop} (h : Tells p n nodes I m m' c) :
    Tells p n (node :: nodes) I m m' c :=
  ⟨h.establishes.cons, h.follows⟩

theorem regroup {c : α → Ledger → Prop} (h : Tells p n (first ++ (second ++ third)) I m m' c) :
    Tells p n (first ++ second ++ third) I m m' c :=
  ⟨h.establishes.regroup, h.follows⟩

theorem regroup_cons {c : α → Ledger → Prop}
    (h : Tells p n (node :: (first ++ (second ++ third))) I m m' c) :
    Tells p n (node :: (first ++ second ++ third)) I m m' c := by
  rwa [List.append_assoc]

theorem inner {c : α → Ledger → Prop} (h : Tells p n nodes (I.atScope s) m m' c)
    (apart : s ≠ ScopeTree.rootId) : Tells p n nodes {} m m' c :=
  ⟨h.establishes, h.follows.inner apart⟩

theorem anywhere {c : α → Ledger → Prop} (h : Tells p n nodes {} m m' c) :
    Tells p n nodes (ModuleText.atScope {} s) m m' c :=
  ⟨h.establishes, Quiet.anywhere h.follows⟩

variable {c d : Ledger → Prop}

theorem andThen (head : Tells p n first {} m m' fun _ => c)
    (next : Tells p n second {} k k' fun _ => d) :
    Tells p n (first ++ second) {} (m >>= fun _ => k) (m' >>= fun _ => k') fun _ L => c L ∧ d L :=
  ⟨head.establishes.andThen next.establishes, Quiet.bind head.follows fun _ => next.follows⟩

theorem bindNote {f f' : α → Walk β} (head : Tells p n nodes {} m m' fun _ => c)
    (next : ∀ x, Tells p n [] {} (f x) (f' x) fun _ => d) :
    Tells p n nodes {} (m >>= f) (m' >>= f') fun _ => c :=
  ⟨head.establishes.bindNote fun x => (next x).establishes,
    Quiet.bind head.follows fun x => (next x).follows⟩

theorem discard (h : Tells p n nodes {} m m' fun _ => c) :
    Tells p n nodes {} (do let _ ← m) (do let _ ← m') fun _ => c :=
  h.bindNote (d := fun _ => True) fun _ => pure fun _ => trivial

theorem of_yields (inside : s < n) {m m' : Walk ScopeId} {c : ScopeId → Ledger → Prop}
    (h : (∀ {σ : Survey}, s < σ.tree.scopes.size →
      σ.Yields p nodes m fun inner L => c inner L ∧ d L) ∧ Quiet m m') :
    Tells p n nodes {} m m' fun _ => d :=
  ⟨.of_yields inside h.1, h.2⟩

theorem enter (inside : s < n) {kind : ScopeKind} {f f' : ScopeId → Walk α}
    {claim : ScopeId → Ledger → Prop}
    (next : ∀ {inner : ScopeId}, inner < inner + 1 → inner ≠ ScopeTree.rootId →
      Tells p (inner + 1) nodes {} (f inner) (f' inner) fun _ => claim inner) :
    Tells p n (node :: nodes) {} (addScope kind node.id s >>= f) (addScope kind node.id s >>= f')
      fun _ L => L.Finds (L.Opens node.id kind s) fun inner => claim inner L := by
  constructor
  · refine (Establishes.enter inside kind fun inner above => ?_).imp
      fun _ _ known found => .of_opens known found
    exact (next (Nat.lt_succ_self inner) (Nat.ne_of_gt
      (Nat.lt_of_lt_of_le (Nat.zero_lt_of_lt inside) above))).establishes
  · exact Quiet.enter fun inner apart => (next (Nat.lt_succ_self inner) apart).follows

/-- A scope that is entered after a first part. -/
theorem enterAfter (inside : s < n) {kind : ScopeKind} {f f' : ScopeId → Walk β}
    {claim : ScopeId → Ledger → Prop} (head : Tells p n first {} m m' fun _ => c)
    (next : ∀ {inner : ScopeId}, inner < inner + 1 → inner ≠ ScopeTree.rootId →
      Tells p (inner + 1) second {} (f inner) (f' inner) fun _ => claim inner) :
    Tells p n (node :: (first ++ second)) {} (m >>= fun _ => addScope kind node.id s >>= f)
      (m' >>= fun _ => addScope kind node.id s >>= f')
      fun _ L => c L ∧ L.Finds (L.Opens node.id kind s) fun inner => claim inner L := by
  have both := head.andThen (@enter _ _ _ _ node _ inside kind _ _ _ next)
  exact ⟨both.establishes.mono List.perm_middle.subperm, both.follows⟩

end Tells

theorem tells_use (s : ScopeId) (name : String) (isAssignment : Bool) :
    Tells p n [] {} (addReference s name isAssignment) (addReference s name isAssignment) fun _ L =>
      L.surveyed → L.Reaches s name :=
  ⟨(establishes_addReference s name isAssignment).imp fun _ _ _ reached _ => reached,
    quiet_addReference s name isAssignment⟩

mutual

theorem tells_walkExpr {n s : Nat} (inside : s < n) (hint : NameHint) : (e : Expr) →
    Tells p n e.nodes {} (walkExpr s hint e) (walkExpr s hint e.bare) fun _ L => e.Surveyed L s
  | ⟨position, kind⟩ => tells_walkExprKind inside hint position kind

theorem tells_walkExprKind {n s : Nat} (inside : s < n) (hint : NameHint)
    (position : Position) : (kind : ExprKind) →
    Tells p n kind.nodes {} (walkExprKind s hint position kind)
      (walkExprKind s hint .bare kind.bare) fun _ L => kind.Surveyed L s
  | .number _ | .bigInt _ | .string _ | .boolean _ | .null | .regExp _ _ => .pure fun _ => trivial
  | .this | .superMember _ => tells_use s HiddenName.this false
  | .newTarget => tells_use s HiddenName.newTarget false
  | .identifier name => tells_use s name false
  | .template _ parts => tells_walkExprs inside parts
  | .taggedTemplate tag _ _ parts =>
      (tells_walkExpr inside .none tag).andThen (tells_walkExprs inside parts)
  | .array elements => tells_walkElements inside elements
  | .object properties => tells_walkProperties inside properties
  | .member object _ => tells_walkExpr inside .none object
  | .computedMember object property =>
      (tells_walkExpr inside .none object).andThen (tells_walkExpr inside .none property)
  | .superComputedMember property =>
      (tells_use s HiddenName.this false).andThen (tells_walkExpr inside .none property)
  | .call callee arguments =>
      (tells_walkExpr inside .none callee).andThen (tells_walkExprs inside arguments)
  | .construct callee arguments =>
      (tells_walkExpr inside .none callee).andThen (tells_walkExprs inside arguments)
  | .superCall arguments => by
      have all := (tells_walkExprs inside arguments).andThen
        ((tells_use s HiddenName.funcObj false).andThen (tells_use s HiddenName.this true))
      simp only [List.append_nil] at all
      exact all
  | .spread inner => tells_walkExpr inside .none inner
  | .unary _ operand => tells_walkExpr inside .none operand
  | .function f => (Tells.of_yields inside (tells_walkFunction hint none f)).discard
  | .classExpr c => (tells_walkClass inside .notModule hint c).imp fun _ _ _ both => both.1
  | .update _ _ target => tells_walkExpr inside .none target
  | .binary _ lhs rhs =>
      (tells_walkExpr inside .none lhs).andThen (tells_walkExpr inside .none rhs)
  | .logical _ lhs rhs =>
      (tells_walkExpr inside .none lhs).andThen (tells_walkExpr inside .none rhs)
  | .assignment op target value =>
      (tells_walkAssignmentTarget inside target).andThen
        ((tells_walkExpr inside (assignmentHint op target) value).of_eq
          (by rw [assignmentHint_bare]))
  | .conditional test consequent alternate =>
      ((tells_walkExpr inside .none test).andThen ((tells_walkExpr inside .none consequent).andThen
        (tells_walkExpr inside .none alternate))).regroup
  | .sequence items => tells_walkExprs inside items
  | .yield _ | .await _ => .throw rfl

theorem tells_walkExprs {n s : Nat} (inside : s < n) : (items : List Expr) →
    Tells p n (Expr.nodesOfList items) {} (walkExprs s items) (walkExprs s (Expr.bareList items))
      fun _ L => Expr.SurveyedList L s items
  | [] => .pure fun _ => trivial
  | e :: rest => (tells_walkExpr inside .none e).andThen (tells_walkExprs inside rest)

theorem tells_walkElements {n s : Nat} (inside : s < n) :
    (elements : List (Option Expr)) →
    Tells p n (Expr.nodesOfElements elements) {} (walkElements s elements)
      (walkElements s (Expr.bareElements elements)) fun _ L => Expr.SurveyedElements L s elements
  | [] => .pure fun _ => trivial
  | e :: rest => (tells_walkOptExpr inside .none e).andThen (tells_walkElements inside rest)

theorem tells_walkOptExpr {n s : Nat} (inside : s < n) (hint : NameHint) :
    (e : Option Expr) →
    Tells p n (Expr.nodesOfOption e) {} (walkOptExpr s hint e) (walkOptExpr s hint (Expr.bare? e))
      fun _ L => Expr.SurveyedOption L s e
  | none => .pure fun _ => trivial
  | some e => tells_walkExpr inside hint e

theorem tells_walkTargetExpr {n s : Nat} (inside : s < n) : (target : Expr) →
    Tells p n target.nodes {} (walkTargetExpr s target) (walkTargetExpr s target.bare) fun _ L =>
      target.Surveyed L s
  | ⟨position, kind⟩ => by
      have other := tells_walkExprKind inside .none position kind
      cases kind with
      | identifier name => exact tells_use s name true
      | _ => exact other

theorem tells_walkAssignmentTarget {n s : Nat} (inside : s < n) :
    (target : AssignmentTarget) →
    Tells p n target.nodes {} (walkAssignmentTarget s target) (walkAssignmentTarget s target.bare)
      fun _ L => target.Surveyed L s
  | .simple target => tells_walkTargetExpr inside target
  | .pattern pattern =>
      (tells_walkPattern inside true pattern).imp fun _ _ _ both => ⟨both.1, fun _ => both.2 rfl⟩

theorem tells_walkBindingTarget {n s : Nat} (inside : s < n) (areUses : Bool) :
    (target : BindingTarget) →
    Tells p n target.nodes {} (walkBindingTarget s areUses target)
      (walkBindingTarget s areUses target.bare) fun _ L =>
        target.Surveyed L s ∧ (areUses = true → L.ReachesAll s target.boundNames)
  | .identifier identifier => by
      cases areUses with
      | false => exact .pure fun _ => ⟨trivial, nofun⟩
      | true =>
        refine ⟨(establishes_addReference s identifier.name true).imp
          fun _ _ _ reached => ⟨trivial, fun _ other mem => ?_⟩, quiet_addReference _ _ _⟩
        obtain rfl := List.mem_singleton.mp mem
        exact reached
  | .pattern pattern => tells_walkPattern inside areUses pattern

theorem tells_walkOptTarget {n s : Nat} (inside : s < n) (areUses : Bool) :
    (target : Option BindingTarget) →
    Tells p n (BindingTarget.nodesOfOption target) {} (walkOptTarget s areUses target)
      (walkOptTarget s areUses (BindingTarget.bare? target)) fun _ L =>
        BindingTarget.SurveyedOption L s target ∧
          (areUses = true → L.ReachesAll s ((target.map BindingTarget.boundNames).getD []))
  | none => .pure fun _ => ⟨trivial, fun _ _ mem => nomatch mem⟩
  | some target => tells_walkBindingTarget inside areUses target

theorem tells_walkPattern {n s : Nat} (inside : s < n) (areUses : Bool) :
    (pattern : Pattern) →
    Tells p n pattern.nodes {} (walkPattern s areUses pattern) (walkPattern s areUses pattern.bare)
      fun _ L => pattern.Surveyed L s ∧ (areUses = true → L.ReachesAll s pattern.boundNames)
  | ⟨_, _, elements⟩ => tells_walkPatternElements inside areUses elements

theorem tells_walkPatternElements {n s : Nat} (inside : s < n) (areUses : Bool) :
    (elements : List PatternElement) →
    Tells p n (PatternElement.nodesOfList elements) {} (walkPatternElements s areUses elements)
      (walkPatternElements s areUses (PatternElement.bareList elements))
      fun _ L => PatternElement.SurveyedList L s elements ∧
        (areUses = true → L.ReachesAll s (PatternElement.boundNamesOfList elements))
  | [] => .pure fun _ => ⟨trivial, fun _ _ mem => nomatch mem⟩
  | ⟨key, target, default, _⟩ :: rest => by
      let hint (target : Option BindingTarget) := (target.map targetHint).getD .none
      have same : hint target = hint (BindingTarget.bare? target) := by
        cases target with
        | none => rfl
        | some target => exact (targetHint_bare target).symm
      have defaults := (tells_walkOptExpr inside (hint target) default).of_eq
        (congrArg (walkOptExpr s · (Expr.bare? default)) same)
      have others := tells_walkPatternElements inside areUses rest
      refine ((tells_walkOptKey inside key).andThen ((tells_walkOptTarget inside areUses
        target).andThen (defaults.andThen others))).regroup.regroup.imp
        fun _ L _ ⟨key, ⟨target', own⟩, value, rest', all⟩ => ⟨⟨key, target', value, rest'⟩, ?_⟩
      intro uses identifier mem
      rcases List.mem_append.mp mem with mem | mem
      · cases target with
        | none => cases mem
        | some target => exact own uses identifier mem
      · exact all uses identifier mem

theorem tells_walkKey {n s : Nat} (inside : s < n) : (key : PropertyKey) →
    Tells p n key.nodes {} (walkKey s key) (walkKey s key.bare) fun _ L => key.Surveyed L s
  | .computed key => tells_walkExpr inside .none key
  | .identifier _ | .string _ | .number _ => .pure fun _ => trivial

theorem tells_walkOptKey {n s : Nat} (inside : s < n) : (key : Option PropertyKey) →
    Tells p n (PropertyKey.nodesOfOption key) {} (walkOptKey s key)
      (walkOptKey s (PropertyKey.bare? key)) fun _ L => PropertyKey.SurveyedOption L s key
  | none => .pure fun _ => trivial
  | some key => tells_walkKey inside key

theorem tells_walkProperties {n s : Nat} (inside : s < n) :
    (properties : List Property) →
    Tells p n (Property.nodesOfList properties) {} (walkProperties s properties)
      (walkProperties s (Property.bareList properties)) fun _ L =>
        Property.SurveyedList L s properties
  | [] => .pure fun _ => trivial
  | property :: rest =>
      (tells_walkProperty inside property).andThen (tells_walkProperties inside rest)

theorem tells_walkProperty {n s : Nat} (inside : s < n) : (property : Property) →
    Tells p n property.nodes {} (walkProperty s property) (walkProperty s property.bare) fun _ L =>
      property.Surveyed L s
  | .keyValue key value =>
      (tells_walkKey inside key).andThen
        ((tells_walkExpr inside (.ofName? key.literalName?) value).of_eq
          (by rw [PropertyKey.literalName?_bare]))
  | .shorthand name => tells_use s name false
  | .method key f =>
      (tells_walkKey inside key).andThen
        (Tells.of_yields inside (tells_walkFunction .none none f)).discard
  | .spread value => tells_walkExpr inside .none value

theorem tells_walkFunction {s : ScopeId} (hint : NameHint) (owner : Option (NodeId × String)) :
    (f : FunctionNode) →
    (∀ {σ : Survey}, s < σ.tree.scopes.size → σ.Yields p f.nodes (walkFunction s hint owner f)
      fun inner L => L.Registers f.id f.kind s inner ∧ f.Surveyed L s) ∧
    Quiet (walkFunction s hint owner f) (walkFunction s hint owner f.bare)
  | ⟨id, position, name, kind, isExpression, parameters, body, isStrict⟩ => by
      let f : FunctionNode := ⟨id, position, name, kind, isExpression, parameters, body, isStrict⟩
      have parts (inner : ScopeId) :=
        (tells_walkParameters (Nat.lt_succ_self inner) parameters).andThen
          (tells_walkBody (Nat.lt_succ_self inner) id body)
      have facts (functionScope : ScopeId) := initialFacts_bare f functionScope hint owner
      constructor
      · intro σ inside
        have whole := yields_function inside f hint owner
          { id, name := SourceNode.declaredName name, function := some f } rfl rfl rfl
          (fun inner => walkParameters inner parameters) (fun inner => walkBody inner id body)
          fun inner => (parts inner).establishes
        unfold walkFunction
        split
        · exact .throw
        · exact whole
      · show Quiet (ite _ _ _) (ite _ _ _)
        refine .when (Follows.throw rfl) fun _ => .enter fun functionScope _ => ?_
        simp only [f, FunctionNode.bare] at facts
        rw [facts]
        refine Quiet.bind (quiet_modifyTree fun _ => size_modifyScope _ _ _)
          fun _ => (quiet_registerFunction _ _).bind fun _ => ?_
        have inside := Follows.quietly (parts functionScope).follows fun _ => .pure functionScope
        simp only [bind_assoc] at inside
        exact (quiet_declareSelf _ _ _ _).bind fun _ => inside

theorem tells_walkParameters {n s : Nat} (inside : s < n) :
    (parameters : List Parameter) →
    Tells p n (Parameter.nodesOfList parameters) {} (walkParameters s parameters)
      (walkParameters s (Parameter.bareList parameters)) fun _ L =>
        Parameter.SurveyedList L s parameters
  | [] => .pure fun _ => trivial
  | ⟨_, target, default, _⟩ :: rest =>
      ((tells_walkBindingTarget inside false target).andThen
        ((tells_walkOptExpr inside .none default).andThen
          (tells_walkParameters inside rest))).regroup.imp
        fun _ _ _ ⟨own, value, others⟩ => ⟨own.1, value, others⟩

theorem tells_walkBody {n s : Nat} (inside : s < n) (function : NodeId) :
    (body : FunctionBody) →
    Tells p n body.nodes {} (walkBody s function body) (walkBody s function body.bare) fun _ L =>
      body.Surveyed L s
  | .block block =>
      (tells_walkBlock inside block).bindNote (d := fun _ => True) fun _ =>
        ⟨.modify (fun _ tidy _ => .refine (fun _ => by exact ⟨rfl, rfl, rfl, rfl, rfl⟩) tidy _)
          fun _ _ _ _ _ _ => trivial,
        Quiet.note (fun _ counts =>
          Survey.counted_refine (fun _ => by exact ⟨rfl, rfl, rfl, rfl, rfl⟩) counts function)
          fun _ => rfl⟩
  | .expression value => tells_walkExpr inside .none value

theorem tells_walkBlock {n s : Nat} (inside : s < n) : (block : Block) →
    Tells p n block.nodes {} (walkBlock s block) (walkBlock s block.bare) fun _ L =>
      block.Surveyed L s
  | ⟨_, statements⟩ => .enter inside fun within apart =>
      ((tells_walkStatements within statements).inner apart).bindNote
        (d := fun _ => True) fun _ => .pure fun _ => trivial

theorem tells_walkClass {n s : Nat} (inside : s < n) (role : ModuleRole)
    (hint : NameHint) : (c : ClassNode) →
    Tells p n c.nodes {} (walkClass s role hint c) (walkClass s role hint c.bare) fun _ L =>
      c.Surveyed L s ∧ (c.isExpression = false →
        ∀ name, classBindingName? c hint = some name → L.Reaches s name)
  | ⟨id, position, name, superClass, isExpression, members⟩ => by
      let c : ClassNode := ⟨id, position, name, superClass, isExpression, members⟩
      have bases := tells_walkOptExpr inside .none superClass
      have constructors (classScope : ScopeId) := tells_walkConstructor classScope id
        (className c hint) superClass.isSome members
      have others {n : Nat} {classScope constructorScope : ScopeId} (within : classScope < n)
        (within' : constructorScope < n) := tells_walkMembers within within' members
      constructor
      · have own := establishes_class inside role hint c
          { id, name := SourceNode.declaredName name, isClass := true } rfl rfl rfl
          (fun classScope => (constructors classScope).1)
          (fun _ _ within within' => (others within within').establishes)
        refine ((bases.establishes.andThen
          ((establishes_noteDerived id superClass.isSome).andThen own)).mono
          ((List.subperm_append_left _).mpr ((List.subperm_cons _).mpr
            (ClassMember.subperm_nodesOfList members)))).imp ?_
        rintro _ L _ ⟨base, -, found, reached⟩
        exact ⟨⟨base, found⟩, reached⟩
      · have derived : (Expr.bare? superClass).isSome = superClass.isSome := by
          cases superClass <;> rfl
        have named : className c.bare hint = className c hint := className_bare c hint
        refine Quiet.bind bases.follows fun _ => ?_
        rw [derived]
        refine (quiet_noteDerived _ _).bind fun _ => .enter fun classScope _ =>
          (quiet_noteClassName _ _).bind fun _ => (quiet_declareClass s role hint c).bind fun _ => ?_
        refine Quiet.bind ?_ fun constructorScope => Tells.follows (others
          (Nat.lt_succ_of_le (Nat.le_max_left _ _)) (Nat.lt_succ_of_le (Nat.le_max_right _ _)))
        exact named.symm ▸ (constructors classScope).2

theorem tells_walkConstructor (classScope : ScopeId) (classId : NodeId)
    (className : String) (isDerived : Bool) : (members : List ClassMember) →
    (∀ {σ : Survey}, classScope < σ.tree.scopes.size → σ.Unowned classId →
      σ.Yields p (ClassMember.constructorNodes members)
        (walkConstructor classScope classId className isDerived members) fun inner L =>
          ∃ f, L.survey.classConstructors.get? classId = some f ∧
            L.Registers f .constructor classScope inner ∧
            ConstructorSurveyed L classScope f members) ∧
    Quiet (walkConstructor classScope classId className isDerived members)
      (walkConstructor classScope classId className isDerived (ClassMember.bareList members))
  | [] => ⟨fun inside unowned =>
      (yields_addDefaultConstructor inside unowned isDerived className).imp
        fun _ _ _ _ ⟨f, recorded, registers⟩ => ⟨f, recorded, registers, trivial⟩,
      quiet_addDefaultConstructor _ _ _ _⟩
  | ⟨_, _, _, _, .method f⟩ :: rest => by
      have others := tells_walkConstructor classScope classId className isDerived rest
      have walked := tells_walkFunction (s := classScope) .none (some (classId, className)) f
      constructor
      · intro σ inside unowned
        unfold walkConstructor ClassMember.constructorNodes
        split
        · rename_i isConstructor
          simp only [ConstructorSurveyed, isConstructor, if_true]
          exact yields_constructor inside unowned isConstructor walked.1
        · rename_i ordinary
          simp only [ConstructorSurveyed, ordinary, if_false]
          exact others.1 inside unowned
      · cases f
        show Quiet (ite _ _ _) (ite _ _ _)
        exact .ite (Quiet.bind (.note (fun _ h => h) fun _ => rfl) fun _ => walked.2) others.2
  | ⟨_, _, _, _, .field _⟩ :: rest =>
      tells_walkConstructor classScope classId className isDerived rest

theorem tells_walkMembers {n : Nat} {classScope constructorScope : ScopeId}
    (inside : classScope < n) (within : constructorScope < n) : (members : List ClassMember) →
    Tells p n (ClassMember.ordinaryNodes members) {} (walkMembers classScope constructorScope members)
      (walkMembers classScope constructorScope (ClassMember.bareList members)) fun _ L =>
        ClassMember.SurveyedList L classScope constructorScope members
  | [] => .pure fun _ => trivial
  | ⟨id, _, key, isStatic, kind⟩ :: rest => by
      have keys := tells_walkKey inside key
      have fieldInside : (if isStatic then classScope else constructorScope) < n := by
        split
        · exact inside
        · exact within
      have own := tells_walkMember inside fieldInside (fieldHint key) kind
      have others := tells_walkMembers inside within rest
      constructor
      · refine .knowing fun known => ?_
        have bound := establishes_bindMemberKey inside constructorScope (known _ (.head _))
        have tail : Establishes p n (kind.ordinaryNodes ++ ClassMember.ordinaryNodes rest) _ _ :=
          bound.andThen (own.establishes.andThen others.establishes)
        refine (keys.establishes.andThen tail).regroup.cons.imp ?_
        rintro _ L _ ⟨key, ⟨bound, unbound⟩, own, others⟩
        exact ⟨key, fun _ => bound, unbound, own, others⟩
      · refine Quiet.bind keys.follows fun _ => (quiet_bindMemberKey _ _ _ _ _ _).bind fun _ => ?_
        exact Quiet.bind ((fieldHint_bare key).symm ▸ own.follows) fun _ => others.follows

theorem tells_walkMember {n : Nat} {classScope fieldScope : ScopeId}
    (inside : classScope < n) (within : fieldScope < n) (hint : NameHint) : (kind : MemberKind) →
    Tells p n kind.ordinaryNodes {} (walkMember classScope fieldScope hint kind)
      (walkMember classScope fieldScope hint kind.bare) fun _ L =>
        kind.Surveyed L classScope fieldScope
  | .method f => by
      have walked := (Tells.of_yields inside (tells_walkFunction .none none f)).discard
      have kind : f.bare.kind = f.kind := FunctionNode.kind_bare f
      unfold walkMember MemberKind.ordinaryNodes MemberKind.bare
      by_cases isConstructor : f.kind = .constructor
      · simp only [kind, isConstructor, ne_eq, not_true_eq_false, if_true, if_false]
        exact .pure fun _ other => absurd isConstructor other
      · simp only [kind, isConstructor, ne_eq, not_false_eq_true, if_true, if_false]
        exact walked.imp fun _ _ _ surveyed _ => surveyed
  | .field initializer => tells_walkOptExpr within hint initializer

theorem tells_walkDeclaration {n s : Nat} (inside : s < n) (role : ModuleRole) :
    (declaration : Declaration) →
    Tells p n declaration.nodes {} (walkDeclaration s role declaration)
      (walkDeclaration s role declaration.bare) fun _ L => declaration.Surveyed L s
  | ⟨kind, declarators⟩ => tells_walkDeclarators inside kind role declarators

theorem tells_walkDeclarators {n s : Nat} (inside : s < n)
    (kind : DeclarationKind) (role : ModuleRole) : (declarators : List Declarator) →
    Tells p n (Declarator.nodesOfList declarators) {}
      (walkDeclarators s (declKind kind) role declarators)
      (walkDeclarators s (declKind kind) role (Declarator.bareList declarators)) fun _ L =>
        Declarator.SurveyedList L s declarators
  | [] => .pure fun _ => trivial
  | ⟨_, target, init⟩ :: rest => by
      have values := tells_walkOptExpr inside (targetHint target) init
      have parts := (tells_walkBindingTarget inside false target).andThen
        (values.andThen (tells_walkDeclarators inside kind role rest))
      constructor
      · refine .knowing fun known => ?_
        have declared : Establishes p n (target.boundNames.map SourceNode.ofIdentifier)
            (target.boundNames.forM (declare s (declKind kind) role)) fun _ L =>
              L.ReachesAll s target.boundNames :=
          (Establishes.forM fun identifier mem => establishes_declare inside kind role
            (known _ (List.mem_append_left _ (List.mem_append_left _ (List.mem_append_left _
              (List.mem_map_of_mem mem)))))).mono List.nil_subperm
        refine (declared.andThen parts.establishes).regroup.regroup.imp ?_
        rintro _ L _ ⟨reached, own, value, others⟩
        exact ⟨fun _ => reached, own.1, value, others⟩
      · refine Quiet.bind (.of_eq (by rw [BindingTarget.boundNames_bare])
          (.forM (quiet_declare s (declKind kind) role) _)) fun _ => ?_
        exact targetHint_bare target ▸ parts.follows

theorem tells_walkStatements {n s : Nat} (inside : s < n) :
    (statements : List Statement) →
    Tells p n (Statement.nodesOfList statements) ((Statement.moduleText statements).atScope s)
      (walkStatements s statements) (walkStatements s (Statement.bareList statements)) fun _ L =>
        Statement.SurveyedList L s statements
  | [] => (Tells.pure fun _ => trivial).anywhere
  | statement :: rest => by
      have first := tells_walkStatement inside statement
      have others := tells_walkStatements inside rest
      refine ⟨first.establishes.andThen others.establishes, ?_⟩
      have both := first.follows.bind fun _ => others.follows
      rwa [ModuleText.append_atScope] at both

theorem tells_walkStatement {n s : Nat} (inside : s < n) : (statement : Statement) →
    Tells p n statement.nodes (statement.kind.moduleText.atScope s) (walkStatement s statement)
      (walkStatement s statement.bare) fun _ L => statement.Surveyed L s
  | ⟨id, position, kind⟩ => tells_walkStatementKind inside id position kind

theorem tells_walkOptStatement {n s : Nat} (inside : s < n)
    (apart : s ≠ ScopeTree.rootId) : (statement : Option Statement) →
    Tells p n (Statement.nodesOfOption statement) {} (walkOptStatement s statement)
      (walkOptStatement s (Statement.bare? statement)) fun _ L =>
        Statement.SurveyedOption L s statement
  | none => .pure fun _ => trivial
  | some statement => (tells_walkStatement inside statement).inner apart

theorem tells_walkStatementKind {n s : Nat} (inside : s < n) (id : NodeId)
    (position : Position) : (kind : StatementKind) →
    Tells p n (SourceNode.ofStatement id :: kind.nodes) (kind.moduleText.atScope s)
      (walkStatementKind s id position kind) (walkStatementKind s id .bare kind.bare) fun _ L =>
        kind.Surveyed L s id
  | .empty | .debugger | .continue _ | .break _ => (Tells.pure fun _ => trivial).cons.anywhere
  | .block block => (tells_walkBlock inside block).discard.cons.anywhere
  | .variableDecl ⟨kind, declarators⟩ isExported => by
      have declared (role : ModuleRole) := tells_walkDeclaration inside role ⟨kind, declarators⟩
      have names : ((Declaration.bare ⟨kind, declarators⟩).declarators.flatMap fun d =>
          d.target.boundNames) = declarators.flatMap fun d => d.target.boundNames := by
        rw [Declaration.bare, Declarator.bareList_eq, List.flatMap_map]
        refine congrArg (fun f => declarators.flatMap f) (funext fun d => ?_)
        cases d
        exact BindingTarget.boundNames_bare _
      cases isExported with
      | false => exact (declared .notModule).cons.anywhere
      | true =>
        constructor
        · refine (((establishes_requireModuleRoot s _ position).andThen
            ((establishes_modifyRecord position _).andThen
              (declared .exported).establishes)).imp ?_).cons
          exact fun _ _ _ all => all.2.2
        · refine follows_requireModuleRoot ?_
          rw [names]
          refine (follows_modifyRecord ?_ rfl).quietly fun _ => (declared .exported).follows
          exact fun h => @ModuleRecord.Describes.foldl _ _ Identifier _ (fun names =>
            { locals := names.map fun identifier => ⟨identifier.name, identifier.name⟩ })
            rfl (fun _ _ => rfl) (fun _ h => h.addLocalExport _ _) _ h
  | .expression value => (tells_walkExpr inside .none value).cons.anywhere
  | .throw value => (tells_walkExpr inside .none value).cons.anywhere
  | .ifElse test consequent alternate => .anywhere (.enter inside fun within apart =>
      ((tells_walkExpr within .none test).andThen
        (((tells_walkStatement within consequent).inner apart).andThen
          (tells_walkOptStatement within apart alternate))).regroup)
  | .while test body => .anywhere (.enter inside fun within apart =>
      (tells_walkExpr within .none test).andThen ((tells_walkStatement within body).inner apart))
  | .doWhile body test => .anywhere (.enter inside fun within apart =>
      (tells_walkExpr within .none test).andThen ((tells_walkStatement within body).inner apart))
  | .for init test update body => .anywhere (.enter inside fun within apart =>
      ((tells_walkForInit within init).andThen ((tells_walkOptExpr within .none test).andThen
        ((tells_walkOptExpr within .none update).andThen
          ((tells_walkStatement within body).inner apart)))).regroup.regroup)
  | .forIn target source body => (Tells.enterAfter inside (tells_walkExpr inside .none source)
      fun within apart => (tells_walkForTarget within target).andThen
        ((tells_walkStatement within body).inner apart)).regroup_cons.anywhere
  | .forOf target source body => (Tells.enterAfter inside (tells_walkExpr inside .none source)
      fun within apart => (tells_walkForTarget within target).andThen
        ((tells_walkStatement within body).inner apart)).regroup_cons.anywhere
  | .return value => (tells_walkOptExpr inside .none value).cons.anywhere
  | .labelled _ body => .anywhere (.enter inside fun within apart =>
      (tells_walkStatement within body).inner apart)
  | .tryCatch block handler finalizer =>
      ((tells_walkBlock inside block).andThen ((tells_walkOptCatch inside handler).andThen
        (tells_walkOptBlock inside finalizer))).regroup.cons.anywhere
  | .switch discriminant cases => .anywhere (.enterAfter inside
      (tells_walkExpr inside .none discriminant) fun within apart =>
        tells_walkCases within apart cases)
  | .functionDecl f exportKind => by
      have walked := Tells.of_yields inside (tells_walkFunction (.ofExport exportKind) none f)
      constructor
      · refine .knowing fun known => ?_
        have declared := establishes_declareName inside f exportKind fun node mem =>
          known node (.tail _ mem)
        have whole : Establishes p n f.nodes _ _ :=
          (establishes_exportDeclaration s (f.name.map Identifier.name) exportKind position).andThen
            (walked.establishes.andNote declared)
        exact (whole.imp fun _ _ _ ⟨_, surveyed, hoisted⟩ => ⟨surveyed, fun _ => hoisted⟩).cons
      · have inside := walked.follows
        cases f
        refine (follows_exportDeclaration _ _ _ _ _).quietly fun _ => Quiet.bind inside fun _ => ?_
        dsimp only [FunctionNode.bare]
        split
        · exact quiet_declareFunction _ _
        · exact .pure ()
  | .classDecl c exportKind => by
      have walked := tells_walkClass inside (exportRole exportKind) (.ofExport exportKind) c
      constructor
      · have whole : Establishes p n c.nodes _ _ :=
          (establishes_exportDeclaration s (c.name.map Identifier.name) exportKind position).andThen
            walked.establishes
        refine (whole.imp fun _ _ _ ⟨_, surveyed, reached⟩ =>
          ⟨surveyed, fun _ declaration name found => reached declaration name ?_⟩).cons
        exact classBindingName?_of_declaredName? declaration found
      · have inside := walked.follows
        cases c
        exact (follows_exportDeclaration _ _ _ _ _).quietly fun _ => inside
  | .importDecl declaration => by
      refine ⟨.knowing fun known => ?_,
        follows_requireModuleRoot (follows_addImport s declaration _ _)⟩
      have imported := establishes_addImport inside position fun node mem =>
        known node (.tail _ mem)
      exact (((establishes_requireModuleRoot s _ position).andThen imported).imp
        fun _ _ _ _ => trivial).mono List.nil_subperm
  | .exportDecl declaration =>
      ⟨(((establishes_requireModuleRoot s _ position).andThen
        (establishes_addExport declaration position)).imp fun _ _ _ _ => trivial).cons,
      follows_requireModuleRoot (follows_addExport declaration _ _)⟩
  | .exportDefault value => by
      have walked := tells_walkExpr inside .defaultExport value
      refine ⟨.knowing fun known => ?_, follows_requireModuleRoot
        ((follows_modifyRecord (fun h => h.addLocalExport _ _) rfl).quietly fun _ =>
          (quiet_addDecl _ _).bind fun _ => walked.follows)⟩
      have declared : Establishes p n [] (addDecl s
          { name := HiddenName.defaultExport, node := id, kind := .let, role := .exported })
          fun _ L => L.survey.tree.Bound s HiddenName.defaultExport :=
        establishes_addDecl inside ⟨SourceNode.ofStatement id, known _ (.head _), rfl, rfl,
          fun isClass => by cases isClass⟩
      have whole : Establishes p n value.nodes _ _ :=
        (establishes_requireModuleRoot s "export outside of a module" position).andThen
          ((establishes_modifyRecord position
            (·.addLocalExport HiddenName.defaultExport "default")).andThen
              (declared.andThen walked.establishes))
      exact (whole.imp fun _ L _ ⟨_, _, bound, surveyed⟩ =>
        ⟨surveyed, fun _ => L.reaches_of_bound bound⟩).cons

theorem tells_walkForInit {n s : Nat} (inside : s < n) : (head : Option ForHead) →
    Tells p n (ForHead.nodesOfOption head) {} (walkForInit s head)
      (walkForInit s (ForHead.bare? head)) fun _ L => ForHead.SurveyedOption L s head
  | none => .pure fun _ => trivial
  | some head => tells_walkForHead inside head

theorem tells_walkForHead {n s : Nat} (inside : s < n) : (head : ForHead) →
    Tells p n head.nodes {} (walkForHead s head) (walkForHead s head.bare) fun _ L =>
      head.Surveyed L s
  | .declaration declaration => tells_walkDeclaration inside .notModule declaration
  | .expression value => tells_walkExpr inside .none value

theorem tells_walkForTarget {n s : Nat} (inside : s < n) : (head : ForHead) →
    Tells p n head.nodes {} (walkForTarget s head) (walkForTarget s head.bare) fun _ L =>
      head.Surveyed L s
  | .declaration declaration => tells_walkDeclaration inside .notModule declaration
  | .expression target => tells_walkTargetExpr inside target

theorem tells_walkOptBlock {n s : Nat} (inside : s < n) : (block : Option Block) →
    Tells p n (Block.nodesOfOption block) {} (walkOptBlock s block)
      (walkOptBlock s (Block.bare? block)) fun _ L => Block.SurveyedOption L s block
  | none => .pure fun _ => trivial
  | some block => (tells_walkBlock inside block).discard

theorem tells_walkOptCatch {n s : Nat} (inside : s < n) :
    (clause : Option CatchClause) →
    Tells p n (CatchClause.nodesOfOption clause) {} (walkOptCatch s clause)
      (walkOptCatch s (CatchClause.bare? clause)) fun _ L => CatchClause.SurveyedOption L s clause
  | none => .pure fun _ => trivial
  | some clause => tells_walkCatch inside clause

theorem tells_walkCatch {n s : Nat} (inside : s < n) : (clause : CatchClause) →
    Tells p n clause.nodes {} (walkCatch s clause) (walkCatch s clause.bare) fun _ L =>
      clause.Surveyed L s
  | ⟨id, _, parameter, body⟩ => by
      have parts (inner : ScopeId) := (tells_walkOptTarget (Nat.lt_succ_self inner) false
        parameter).andThen (tells_walkBlock (Nat.lt_succ_self inner) body).discard
      constructor
      · refine .knowing fun known => ?_
        have declared : ∀ inner, Establishes p (inner + 1)
            (((parameter.map BindingTarget.boundNames).getD []).map SourceNode.ofIdentifier)
            (((parameter.map BindingTarget.boundNames).getD []).forM fun identifier =>
              addDecl inner
                { name := identifier.name, node := identifier.id, kind := .catchParameter })
            fun _ L => L.ReachesAll inner ((parameter.map BindingTarget.boundNames).getD []) := by
          intro inner
          have each : ∀ identifier ∈ (parameter.map BindingTarget.boundNames).getD [],
              Establishes p (inner + 1) [] (addDecl inner
                { name := identifier.name, node := identifier.id, kind := .catchParameter })
                fun _ L => L.survey.tree.Bound inner identifier.name := fun identifier mem =>
            establishes_addDecl (Nat.lt_succ_self inner) ⟨SourceNode.ofIdentifier identifier,
              known _ (List.mem_append_left _ (List.mem_append_left _
                (.tail _ (List.mem_map_of_mem mem)))), rfl, rfl, fun isClass => by cases isClass⟩
          exact ((Establishes.forM each).imp fun _ L _ bound =>
            CompileContext.reachesAll_of_bound bound).mono List.nil_subperm
        refine (Establishes.enter inside .block fun inner _ =>
          ((declared inner).andThen (parts inner).establishes).regroup).imp
          fun _ L known found => .of_opens known ?_
        obtain ⟨inner, opens, reached, own, surveyed⟩ := found
        exact ⟨inner, opens, fun _ => reached, own.1, surveyed⟩
      · have names : ((BindingTarget.bare? parameter).map BindingTarget.boundNames).getD [] =
            (parameter.map BindingTarget.boundNames).getD [] := by
          cases parameter with
          | none => rfl
          | some parameter => exact BindingTarget.boundNames_bare parameter
        exact Quiet.enter fun catchScope _ => Quiet.bind
          (.of_eq (by rw [names]) (.forM (fun _ => quiet_addDecl _ _) _)) fun _ =>
          (parts catchScope).follows

theorem tells_walkCases {n s : Nat} (inside : s < n) (apart : s ≠ ScopeTree.rootId) :
    (cases : List SwitchCase) →
    Tells p n (SwitchCase.nodesOfList cases) {} (walkCases s cases)
      (walkCases s (SwitchCase.bareList cases)) fun _ L => SwitchCase.SurveyedList L s cases
  | [] => .pure fun _ => trivial
  | ⟨test, body⟩ :: rest =>
      ((tells_walkOptExpr inside .none test).andThen
        (((tells_walkStatements inside body).inner apart).andThen
          (tells_walkCases inside apart rest))).regroup

end

theorem follows_walkStatements (p : Program) :
    Follows ((Statement.moduleText p.statements).atScope ScopeTree.rootId)
      (walkStatements ScopeTree.rootId p.statements)
      (walkStatements ScopeTree.rootId (Statement.bareList p.statements)) :=
  (tells_walkStatements (p := p) Nat.zero_lt_one p.statements).follows

end Walk

theorem Survey.rooted_start (p : Program) (options : Options) :
    0 < (Survey.start p options).tree.scopes.size :=
  (ScopeTree.raw_ofRoot (by split <;> rfl) p.id).rootId_lt

theorem Survey.agrees_ofProgram (p : Program) (options : Options) :
    Agrees Eq (Survey.ofProgram p options) (Survey.ofProgram p.bare options) := by
  refine (Walk.follows_walkStatements p (Survey.start p options)
    (Survey.rooted_start p options)).bind ?_
  rintro ⟨_, survey⟩ _ ⟨rfl, -⟩
  exact .refl _

end AccScript
