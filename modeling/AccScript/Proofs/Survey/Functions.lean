import AccScript.Proofs.Survey.Enter

/-!
# Functions and classes in the walk

A function is in order if its parameters and its body are, and a class if its constructor and its
members are.  The parts are hypotheses here; the walk over the program supplies them.
-/

namespace AccScript

variable {p : Program} {s : ScopeId} {node : SourceNode} {name : Option Identifier}
  {nodes : List SourceNode} {classScope : ScopeId} {c : ClassNode} {L : Ledger}

/-! ## Places that are unique -/

theorem Ledger.Finds.of_unique {α : Type} {place inOrder : α → Prop} {x : α} (known : L.surveyed)
    (placed : place x) (unique : ∀ y, place y → y = x) (holds : inOrder x) :
    L.Finds place inOrder := by
  refine ⟨fun _ => ⟨x, placed⟩, fun y there => ?_⟩
  rw [unique y (there known)]
  exact holds

theorem CompileContext.Opens.unique {c : CompileContext} {node : NodeId} {kind kind' : ScopeKind}
    {outer outer' inner inner' : ScopeId} (h : c.Opens node kind outer inner)
    (h' : c.Opens node kind' outer' inner') : inner' = inner :=
  Option.some.inj (h'.recorded.symm.trans h.recorded)

theorem Ledger.Finds.of_opens
    {node : NodeId} {kind : ScopeKind} {outer : ScopeId} {inOrder : ScopeId → Prop}
    (known : L.surveyed) (h : ∃ inner, L.Opens node kind outer inner ∧ inOrder inner) :
    L.Finds (L.Opens node kind outer) inOrder := by
  obtain ⟨inner, opens, holds⟩ := h
  exact .of_unique known opens (fun _ other => opens.unique other) holds

theorem CompileContext.Places.unique {c : CompileContext} {id : NodeId} {isExpression : Bool}
    {place place' : ClassPlace} (h : c.Places id name isExpression s place)
    (h' : c.Places id name isExpression s place') : place' = place := by
  have scope := h.opens.unique h'.opens
  have constructor : place'.constructor = place.constructor :=
    Option.some.inj (h'.recorded.symm.trans h.recorded)
  have registers := h'.registers
  rw [constructor] at registers
  have inner := h.registers.opened.unique registers.opened
  cases place
  cases place'
  simp_all

/-! ## Functions and classes among the nodes -/

theorem FunctionNode.exists_node (f : FunctionNode) : ∃ node ∈ f.nodes,
    node.id = f.id ∧ node.name = SourceNode.declaredName f.name ∧ node.isClass = false ∧
      node.function = some f := by
  cases f
  exact ⟨_, .head _, rfl, rfl, rfl, rfl⟩

def ClassMember.constructorNodes : List ClassMember → List SourceNode
  | [] => []
  | ⟨_, _, _, _, .method f⟩ :: rest =>
      if f.kind = .constructor then f.nodes else constructorNodes rest
  | ⟨_, _, _, _, .field _⟩ :: rest => constructorNodes rest

def MemberKind.ordinaryNodes : MemberKind → List SourceNode
  | .method f => if f.kind = .constructor then [] else f.nodes
  | .field initializer => Expr.nodesOfOption initializer

def ClassMember.ordinaryNodes : List ClassMember → List SourceNode
  | [] => []
  | ⟨id, _, key, isStatic, kind⟩ :: rest =>
      SourceNode.ofMember id key isStatic kind ::
        (key.nodes ++ kind.ordinaryNodes ++ ordinaryNodes rest)

theorem ClassMember.subperm_nodesOfList : (members : List ClassMember) →
    (constructorNodes members ++ ordinaryNodes members).Subperm (nodesOfList members)
  | [] => List.Subperm.refl _
  | ⟨id, _, key, isStatic, kind⟩ :: rest => by
      have others := subperm_nodesOfList rest
      have ordinary : (ordinaryNodes rest).Subperm (nodesOfList rest) :=
        (List.sublist_append_right _ _).subperm.trans others
      have shifted : ∀ own first : List SourceNode,
          (own ++ SourceNode.ofMember id key isStatic kind :: (key.nodes ++ first ++
            ordinaryNodes rest)).Perm
          (SourceNode.ofMember id key isStatic kind :: (key.nodes ++ first ++
            (own ++ ordinaryNodes rest))) := fun own first =>
        List.perm_middle.trans (.cons _ (List.perm_append_comm_assoc own _ _))
      -- a constructor is taken out of its place, any other member stays
      have before : (constructorNodes rest ++ SourceNode.ofMember id key isStatic kind ::
          (key.nodes ++ kind.nodes ++ ordinaryNodes rest)).Subperm
          (SourceNode.ofMember id key isStatic kind ::
            (key.nodes ++ kind.nodes ++ nodesOfList rest)) :=
        (shifted _ _).subperm.trans
          (List.subperm_cons _ |>.mpr ((List.subperm_append_left _).mpr others))
      cases kind with
      | field initializer => exact before
      | method f =>
        by_cases isConstructor : f.kind = .constructor
        · simp only [constructorNodes, ordinaryNodes, MemberKind.ordinaryNodes, isConstructor,
            if_true]
          refine (shifted f.nodes []).subperm.trans ((List.subperm_cons _).mpr ?_)
          rw [List.append_nil, ← List.append_assoc]
          exact (List.subperm_append_left _).mpr ordinary
        · simp only [constructorNodes, ordinaryNodes, MemberKind.ordinaryNodes, isConstructor,
            if_false]
          exact before

namespace Walk

variable {n : Nat} {claim : ScopeId → Ledger → Prop} {first second : List SourceNode}

/-! ## Names of functions and classes -/

theorem establishes_declareSelf (inside : s < n) {f : FunctionNode} (known : node ∈ p.nodes)
    (id : node.id = f.id) (name : node.name = SourceNode.declaredName f.name) :
    Establishes p n [] (declareSelf s f.id f.isExpression f.name) fun _ _ => True := by
  unfold declareSelf
  split
  · rename_i identifier _ own
    refine (establishes_addDecl inside ⟨node, known, id, ?_, fun isClass => ?_⟩).imp
      fun _ _ _ _ => trivial
    · rw [name, own]
      rfl
    · cases isClass
  · exact .pure fun _ => trivial

theorem establishes_noteDerived (id : NodeId) (isDerived : Bool) :
    Establishes p n [] (noteDerived id isDerived) fun _ _ => True := by
  unfold noteDerived
  split
  · exact .modify (fun _ tidy _ => .note tidy _ _ _ _ _) fun _ _ _ _ _ _ => trivial
  · exact .pure fun _ => trivial

theorem establishes_noteClassName (classScope : ScopeId) (name : Option Identifier) :
    Establishes p n [] (noteClassName classScope name) fun _ _ => True := by
  cases name with
  | none => exact .pure fun _ => trivial
  | some identifier =>
    exact .modify (fun _ tidy _ => .note tidy _ _ _ _ _) fun _ _ _ _ _ _ => trivial

theorem establishes_declareClass (inside : s < n) (role : ModuleRole) (hint : NameHint)
    (known : node ∈ p.nodes) (id : node.id = c.id)
    (name : node.name = SourceNode.declaredName c.name) (isClass : node.isClass = true) :
    Establishes p n [] (declareClass s role hint c) fun _ L =>
      ∀ name, classBindingName? c hint = some name → L.survey.tree.Declared s
        { name, node := c.id, kind := .cls, role, isExpression := c.isExpression } := by
  unfold declareClass
  split
  · rename_i binding found
    refine (establishes_addDecl inside ⟨node, known, id, ?_, fun _ => isClass⟩).imp
      fun _ L _ declared other same => ?_
    · rw [name]
      unfold classBindingName? at found
      split at found
      · rename_i identifier own
        rw [own]
        exact Option.some.inj found
      · rename_i own
        rw [own]
        split at found
        · exact Option.some.inj found
        · cases found
    · rw [found] at same
      cases same
      exact declared
  · rename_i missing
    refine .pure fun L other same => ?_
    rw [missing] at same
    cases same

theorem constructors_noteClassName {σ τ : Survey} {x : Unit}
    (run : (noteClassName classScope name).run σ = .ok (x, τ)) :
    τ.classConstructors = σ.classConstructors := by
  cases name <;> cases run <;> rfl

theorem constructors_declareClass {σ τ : Survey} {role : ModuleRole} {hint : NameHint} {x : Unit}
    (run : (declareClass s role hint c).run σ = .ok (x, τ)) :
    τ.classConstructors = σ.classConstructors := by
  unfold declareClass at run
  split at run <;> cases run <;> rfl

theorem fieldKey_eq_none (program : L.program = p) (upheld : ∃ τ, L.Upholds τ)
    (known : node ∈ p.nodes) (unnamed : node.name = "") :
    L.survey.computedFieldKeys.get? node.id = none := by
  obtain ⟨τ, upheld⟩ := upheld
  by_contra present
  obtain ⟨name, found⟩ := Option.ne_none_iff_exists'.mp present
  obtain ⟨key, other, mem, same, named⟩ := upheld.fieldNodes node.id name found
  rw [← program] at known
  obtain rfl := SourceNode.eq_of_id upheld.distinct mem known same
  rw [unnamed] at named
  rw [← named] at key
  have length := congrArg String.length key
  rw [SourceNode.fieldKey, String.length_append, show "fieldKey".length = 8 by decide,
    show "".length = 0 by decide] at length
  omega

theorem establishes_bindMemberKey
    (inside : classScope < n) (constructorScope : ScopeId) {id : NodeId}
    {key : PropertyKey} {isStatic : Bool} {kind : MemberKind}
    (known : SourceNode.ofMember id key isStatic kind ∈ p.nodes) :
    Establishes p n [] (bindMemberKey id key isStatic kind classScope constructorScope) fun _ L =>
      FieldKeySurveyed L classScope constructorScope id ∧
        (isStatic = false → kind.isField = true →
          L.survey.computedFieldKeys.get? id = none → key.Surveyed L constructorScope) := by
  -- a member without a binding has a key that is the same everywhere
  have unbound : (SourceNode.ofMember id key isStatic kind).name = "" →
      (isStatic = false → kind.isField = true → ∀ L, key.Surveyed L constructorScope) →
      Establishes p n [] (pure () : Walk Unit) fun _ L =>
        FieldKeySurveyed L classScope constructorScope id ∧
          (isStatic = false → kind.isField = true →
            L.survey.computedFieldKeys.get? id = none → key.Surveyed L constructorScope) := by
    intro unnamed closed
    refine (Establishes.pure (d := fun _ _ => True) fun _ => trivial).impUpheld
      fun _ L program upheld _ => ⟨fun binding found => ?_, fun instance_ field _ =>
        closed instance_ field L⟩
    have absent := fieldKey_eq_none program upheld known unnamed
    rw [show (SourceNode.ofMember id key isStatic kind).id = id from rfl, found] at absent
    cases absent
  unfold bindMemberKey
  split
  · rename_i key initializer
    unfold bindFieldKey
    split
    · rename_i text own
      obtain ⟨position, _⟩ := key
      cases own
      exact unbound rfl fun _ _ _ => trivial
    · rename_i value own
      obtain ⟨position, _⟩ := key
      cases own
      exact unbound rfl fun _ _ _ => trivial
    · rename_i notText notNumber
      have named : (SourceNode.ofMember id (.computed key) false (.field initializer)).name =
          SourceNode.fieldKey id := by
        unfold SourceNode.ofMember
        dsimp only
        split
        · rename_i same
          cases same
          exact absurd rfl (notText _)
        · rename_i same
          cases same
          exact absurd rfl (notNumber _)
        · rfl
        · rename_i other
          exact absurd rfl (other key initializer rfl rfl)
      have declared : Establishes p n []
          (addDecl classScope { name := SourceNode.fieldKey id, node := id, kind := .const })
          fun _ L => L.survey.tree.Bound classScope (SourceNode.fieldKey id) :=
        establishes_addDecl inside ⟨_, known, rfl, named, fun isClass => by cases isClass⟩
      have used := establishes_addReference (p := p) (n := n) constructorScope
        (SourceNode.fieldKey id) false
      have noted : Establishes p n []
          (modify fun survey : Survey => { survey with
            computedFieldKeys := survey.computedFieldKeys.insert id (SourceNode.fieldKey id) })
          fun _ L => L.survey.computedFieldKeys.get? id = some (SourceNode.fieldKey id) := by
        refine .modify (fun _ tidy _ => .bindKey tidy ⟨_, known, rfl, named⟩)
          fun σ L _ _ _ upheld => upheld.fieldKeys id _ ?_
        simp [OrderedMap.get?_insert]
      refine (declared.andThen (used.andThen noted)).imp fun _ L _ all => ?_
      obtain ⟨bound, reached, recorded⟩ := all
      refine ⟨fun binding found => ?_, fun _ _ absent => ?_⟩
      · obtain rfl : SourceNode.fieldKey id = binding := Option.some.inj (recorded.symm.trans found)
        exact ⟨L.reaches_of_bound bound, reached⟩
      · rw [recorded] at absent
        cases absent
  · rename_i other
    refine unbound ?_ ?_
    · unfold SourceNode.ofMember
      dsimp only
      split
      · rfl
      · rfl
      · exact absurd rfl (other _ _ rfl rfl)
      · rfl
    · intro instance_ field L
      cases key with
      | computed key =>
        cases kind with
        | method f => cases field
        | field initializer => exact absurd instance_ (other _ _ rfl rfl)
      | _ => trivial

/-! ## Functions and classes -/

theorem Establishes.of_yields (inside : s < n) {m : Walk ScopeId}
    {c : ScopeId → Ledger → Prop} {d : Ledger → Prop}
    (h : ∀ {σ : Survey}, s < σ.tree.scopes.size → σ.Yields p nodes m fun inner L => c inner L ∧ d L) :
    Establishes p n nodes m fun _ => d :=
  fun _ many => (h (Nat.lt_of_lt_of_le inside many)).toEstablishes.imp fun _ _ _ both => both.2

theorem yields_function {σ : Survey} (inside : s < σ.tree.scopes.size) (f : FunctionNode)
    (hint : NameHint) (owner : Option (NodeId × String)) (node : SourceNode)
    (id : node.id = f.id) (name : node.name = SourceNode.declaredName f.name)
    (function : node.function = some f) (first second : ScopeId → Walk Unit)
    (parts : ∀ inner, Establishes p (inner + 1) nodes (do first inner; second inner)
      fun _ => claim inner) :
    σ.Yields p (node :: nodes)
      (do let functionScope ← addScope .function f.id s
          modifyTree (·.setArrow functionScope f.kind.isArrow)
          registerFunction f.id (initialFacts f functionScope hint owner)
          declareSelf functionScope f.id f.isExpression f.name
          first functionScope
          second functionScope
          return functionScope)
      fun inner L => L.Registers f.id f.kind s inner ∧ L.admits f ∧
        L.Finds (L.Declares f.id f.kind f.parameters s) fun inner => claim inner L := by
  refine .knowing fun known => ?_
  have entered := yields_enterFunction inside f hint owner id fun inner _ known =>
    ((establishes_declareSelf (Nat.lt_succ_self inner) known id name).andThen (parts inner)).imp
      fun _ _ _ both => both.2
  simp only [bind_assoc] at entered
  refine entered.imp fun inner L program ⟨τ, upheld⟩ ⟨declares, holds⟩ => ⟨declares.registers, ?_, ?_⟩
  · exact upheld.admitted node (program ▸ known node (.head _)) f function
  · exact .of_unique upheld.known declares
      (fun _ other => declares.registers.opened.unique other.registers.opened) holds

theorem yields_constructor {σ : Survey} (inside : classScope < σ.tree.scopes.size)
    {classId : NodeId} (unowned : σ.Unowned classId) {f : FunctionNode}
    (isConstructor : f.kind = .constructor) {m : Walk ScopeId}
    {claim : Ledger → Prop}
    (walked : ∀ {υ : Survey}, classScope < υ.tree.scopes.size →
      υ.Yields p nodes m fun inner L => L.Registers f.id f.kind classScope inner ∧ claim L) :
    σ.Yields p nodes
      (do modify fun survey : Survey =>
            { survey with classConstructors := survey.classConstructors.insert classId f.id }
          m)
      fun inner L => ∃ g, L.survey.classConstructors.get? classId = some g ∧
        L.Registers g .constructor classScope inner ∧ (L.surveyed → f.id = g) ∧ claim L := by
  let owned : Survey := { σ with classConstructors := σ.classConstructors.insert classId f.id }
  have step : σ.Tidy p → σ.Advances p [] owned := fun tidy =>
    .construct tidy unowned.recorded unowned.unowned f.id
  have whole := walked (υ := owned) inside
  refine ⟨⟨fun tidy fresh inner τ run => ?_⟩, fun tidy fresh inner τ run => ?_⟩
  · have first := step tidy
    obtain ⟨advance, claimed⟩ := whole.outcome first.tidy (fresh.right tidy first) inner τ run
    refine ⟨first.trans advance, fun L program upheld => ?_⟩
    obtain ⟨registers, holds⟩ := claimed L program upheld
    have recorded : L.survey.classConstructors.get? classId = some f.id := by
      refine (upheld.mono advance.le).constructors classId f.id ?_
      simp [owned, OrderedMap.get?_insert]
    rw [isConstructor] at registers
    exact ⟨f.id, recorded, registers, fun _ => rfl, holds⟩
  · have first := step tidy
    exact whole.inside first.tidy (fresh.right tidy first) inner τ run

theorem establishes_class (inside : s < n) (role : ModuleRole) (hint : NameHint) (c : ClassNode)
    (node : SourceNode) (id : node.id = c.id) (name : node.name = SourceNode.declaredName c.name)
    (isClass : node.isClass = true)
    {constructorWalk : ScopeId → Walk ScopeId} {memberWalk : ScopeId → ScopeId → Walk Unit}
    {members : ScopeId → ScopeId → Ledger → Prop} {constructor : ScopeId → NodeId → Ledger → Prop}
    (head : ∀ {σ : Survey} classScope, classScope < σ.tree.scopes.size → σ.Unowned c.id →
      σ.Yields p first (constructorWalk classScope) fun inner L =>
        ∃ f, L.survey.classConstructors.get? c.id = some f ∧
          L.Registers f .constructor classScope inner ∧ constructor classScope f L)
    (rest : ∀ {m : Nat} classScope constructorScope, classScope < m → constructorScope < m →
      Establishes p m second (memberWalk classScope constructorScope) fun _ =>
        members classScope constructorScope) :
    Establishes p n (node :: (first ++ second))
      (do let classScope ← addScope .block c.id s
          noteClassName classScope c.name
          declareClass s role hint c
          let constructorScope ← constructorWalk classScope
          memberWalk classScope constructorScope)
      fun _ L =>
        L.Finds (L.Places c.id c.name c.isExpression s) (fun place =>
          constructor place.scope place.constructor L ∧
            members place.scope place.constructorScope L) ∧
        (c.isExpression = false →
          ∀ name, classBindingName? c hint = some name → L.Reaches s name) := by
  refine .knowing fun known => fun σ many => ⟨fun tidy fresh x τ run => ?_⟩
  have here : s < σ.tree.scopes.size := Nat.lt_of_lt_of_le inside many
  have split : σ.Fresh p ([node] ++ (first ++ second)) := fresh
  have entered : σ.Advances p [node] { σ with tree := σ.tree.addScope .block c.id (some s) } := by
    have entered := Survey.Advances.enter tidy split.left .block here
    rwa [id] at entered
  have opened := Survey.opened_addScope tidy .block s
    (show ¬σ.Records c.id from id ▸ fresh.free node (.head _))
  have unowned := opened.toUnowned entered.tidy
  have inner : Survey.Establishes { σ with tree := σ.tree.addScope .block c.id (some s) } p
      (first ++ second)
      (do noteClassName σ.tree.scopes.size c.name
          declareClass s role hint c
          let constructorScope ← constructorWalk σ.tree.scopes.size
          memberWalk σ.tree.scopes.size constructorScope) _ :=
    (establishes_noteClassName (n := 0) σ.tree.scopes.size c.name _ (Nat.zero_le _)).bind
      fun _ σ₂ run₂ step₂ =>
    (establishes_declareClass (Nat.lt_succ_self s) role hint (known node (.head _)) id name
      isClass σ₂ (step₂.le.lt_size (entered.le.lt_size here))).bind fun _ σ₃ run₃ step₃ =>
    (head σ.tree.scopes.size (step₃.le.lt_size (step₂.le.lt_size opened.lt_size))
      ((unowned.mono step₂.le (constructors_noteClassName run₂)).mono step₃.le
        (constructors_declareClass run₃))).bind fun constructorScope σ₄ placed step₄ =>
    rest σ.tree.scopes.size constructorScope
      (step₄.le.lt_size (step₃.le.lt_size (step₂.le.lt_size opened.lt_size))) placed σ₄
      (Nat.le_refl _)
  obtain ⟨advance, claimed⟩ := inner.outcome entered.tidy (split.right tidy entered) x τ run
  refine ⟨entered.trans advance, fun L program upheld => ?_⟩
  obtain ⟨_, -, _, declared, constructorScope, ⟨f, recorded, registers, ready⟩, surveyed⟩ :=
    claimed L program upheld
  have opens := (upheld.mono advance.le).opens entered.tidy opened.hasScope
  constructor
  · have placed : L.Places c.id c.name c.isExpression s
        ⟨σ.tree.scopes.size, f, constructorScope⟩ := by
      refine ⟨opens, fun expression => ?_, recorded, registers⟩
      refine CompileContext.reachesAll_of_bound fun identifier mem => ?_
      have own : c.name = some identifier := by simpa using mem
      have bound := declared identifier.name (by rw [classBindingName?, own])
      simp only [ScopeTree.Declared, expression, if_true] at bound
      exact bound _ opens.recorded
    exact .of_unique upheld.known placed (fun _ other => placed.unique other) ⟨ready, surveyed⟩
  · intro declaration binding found
    have bound := declared binding found
    simp only [ScopeTree.Declared, declaration] at bound
    exact L.reaches_of_bound bound

theorem declaredName_of_declaredName? {exportKind : ExportKind} {binding : String}
    (h : declaredName? name exportKind = some binding) : SourceNode.declaredName name = binding := by
  cases name with
  | some identifier => exact Option.some.inj h
  | none =>
    cases exportKind with
    | default => exact Option.some.inj h
    | none => cases h
    | named => cases h

theorem classBindingName?_of_declaredName? {exportKind : ExportKind} {binding : String}
    (declaration : c.isExpression = false)
    (h : declaredName? c.name exportKind = some binding) :
    classBindingName? c (.ofExport exportKind) = some binding := by
  unfold classBindingName?
  cases name : c.name with
  | some identifier =>
    rw [name] at h
    exact h
  | none =>
    rw [name] at h
    cases exportKind with
    | default =>
      simp only [NameHint.ofExport, declaration, Bool.false_eq_true, not_false_eq_true, and_self,
        if_true]
      exact h
    | none => cases h
    | named => cases h

theorem establishes_declareName (inside : s < n) (f : FunctionNode) (exportKind : ExportKind)
    (known : ∀ node ∈ f.nodes, node ∈ p.nodes) :
    Establishes p n []
      (match declaredName? f.name exportKind with
        | some name =>
            declareFunction s
              { name, node := f.id, kind := .function, role := exportRole exportKind }
        | none => pure ())
      fun _ L => ∀ name, declaredName? f.name exportKind = some name → L.HoistsTo s name := by
  obtain ⟨node, mem, id, named, isClass, -⟩ := f.exists_node
  split
  · rename_i name found
    refine (establishes_declareFunction inside rfl ⟨node, known node mem, id,
      named.trans (declaredName_of_declaredName? found), isClass⟩).imp
      fun _ _ _ hoists other same => ?_
    rw [found] at same
    cases same
    exact hoists
  · rename_i missing
    refine .pure fun _ other same => ?_
    rw [missing] at same
    cases same

end Walk

end AccScript
