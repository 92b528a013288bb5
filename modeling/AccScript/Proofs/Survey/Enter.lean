import AccScript.Proofs.Survey.Declare

/-!
# Scopes, functions and constructors

What the walk establishes when it enters a node: the node has a scope below the one around it, and a
function is registered with its parameters.  A class without a constructor gets one, under an
identity that no node of the program has.
-/

namespace AccScript

variable {α : Type} {p : Program} {σ τ : Survey} {n : Nat} {nodes : List SourceNode}
  {inner : ScopeId}

namespace Survey

variable {c : ScopeId → Ledger → Prop} {node : NodeId} {outer inner : ScopeId} {s : ScopeId}
  {m : Walk ScopeId} {kind : ScopeKind}

/-! ## Scopes -/

def HasScope (σ : Survey) (node : NodeId) (kind : ScopeKind) (outer inner : ScopeId) : Prop :=
  ∃ scope, σ.tree.scope? inner = some scope ∧ scope.node = node ∧ scope.kind = kind ∧
    scope.parent = some outer

variable {node : NodeId} {kind : ScopeKind} {outer inner : ScopeId} {isArrow : Bool}

theorem HasScope.mono (h : σ.HasScope node kind outer inner) (le : σ.Le τ) :
    τ.HasScope node kind outer inner := by
  obtain ⟨scope, found, own, isKind, parent⟩ := h
  obtain ⟨scope', found', grows⟩ := le.scopes inner scope found
  exact ⟨scope', found', grows.node.trans own, grows.kind.trans isKind, grows.parent.trans parent⟩

theorem Opened.hasScope (h : σ.Opened node kind outer inner isArrow) :
    σ.HasScope node kind outer inner := by
  obtain ⟨scope, found, own, isKind, parent, -⟩ := h.scope
  exact ⟨scope, found, own, isKind, parent⟩

theorem Opened.lt_size (h : σ.Opened node kind outer inner isArrow) :
    inner < σ.tree.scopes.size := by
  obtain ⟨scope, found, -⟩ := h.scope
  exact ScopeTree.lt_size_of_scope? found

theorem opened_addScope (tidy : σ.Tidy p) (kind : ScopeKind) (outer : ScopeId)
    (free : ¬σ.Records node) :
    Opened { σ with tree := σ.tree.addScope kind node (some outer) } node kind outer
      σ.tree.scopes.size false := by
  refine ⟨?_, ?_, ?_⟩
  · obtain ⟨scope, found, alike⟩ := ScopeTree.addScope_new σ.tree kind node outer
    refine ⟨scope, found, alike.node, alike.kind, alike.parent, ?_⟩
    rw [alike.isArrow]
    cases kind <;> rfl
  · rw [← Option.not_isSome_iff_eq_none, Option.isSome_iff_exists]
    rintro ⟨facts, registered⟩
    exact free (tidy.functions node facts registered).1
  · rw [← Option.not_isSome_iff_eq_none, Option.isSome_iff_exists]
    rintro ⟨f, owned⟩
    exact free (tidy.constructors node f owned)

theorem Opened.addScope (h : σ.Opened node kind outer inner isArrow) (other : ScopeKind)
    (id : NodeId) (parent : ScopeId) :
    Opened { σ with tree := σ.tree.addScope other id (some parent) } node kind outer inner
      isArrow := by
  obtain ⟨scope, found, own, isKind, above, arrow⟩ := h.scope
  obtain ⟨scope', found', alike⟩ := ScopeTree.addScope_forth other id parent found
  exact ⟨⟨scope', found', alike.node.trans own, alike.kind.trans isKind, alike.parent.trans above,
    alike.isArrow.trans arrow⟩, h.unregistered, h.unowned⟩

variable {node : SourceNode}

theorem Advances.enter (tidy : σ.Tidy p) (fresh : σ.Fresh p [node]) (kind : ScopeKind)
    (inside : outer < σ.tree.scopes.size) :
    σ.Advances p [node] { σ with tree := σ.tree.addScope kind node.id (some outer) } := by
  have free := fresh.free node (List.mem_singleton_self node)
  have below := tidy.numbered.below node (fresh.known node (List.mem_singleton_self node))
  obtain ⟨le, tidy', records⟩ := Advances.addScope tidy kind inside free
    (Nat.lt_of_lt_of_le below tidy.nextNodeId)
  refine ⟨le, tidy', fun n recorded => ?_⟩
  rcases records n recorded with old | rfl
  · exact .inl old
  · exact .inr (.inl ⟨node, List.mem_singleton_self node, rfl⟩)

end Survey

theorem Ledger.Upholds.opens {L : Ledger} (h : L.Upholds σ) (tidy : σ.Tidy p)
    (placed : σ.HasScope node kind outer inner) :
    L.Opens node kind outer inner := by
  obtain ⟨scope, found, own, isKind, parent⟩ := placed
  obtain ⟨scope', found', kind', node', parent'⟩ := h.within inner scope found
  refine ⟨h.recorded node inner (own ▸ tidy.raw.recorded inner scope found), scope', found',
    node'.trans own, kind'.trans isKind, parent'.trans parent⟩

theorem Walk.Establishes.enter (inside : s < n) (kind : ScopeKind) {f : ScopeId → Walk α}
    {claim : ScopeId → α → Ledger → Prop}
    (next : ∀ inner, n ≤ inner → Establishes p (inner + 1) nodes (f inner) (claim inner)) :
    Establishes p n (node :: nodes) (addScope kind node.id s >>= f) fun x L =>
      ∃ inner, L.Opens node.id kind s inner ∧ claim inner x L := by
  refine fun σ many => ⟨fun tidy fresh x τ run => ?_⟩
  have here : s < σ.tree.scopes.size := Nat.lt_of_lt_of_le inside many
  have split : σ.Fresh p ([node] ++ nodes) := fresh
  have entered := Survey.Advances.enter tidy split.left kind here
  have opened := Survey.opened_addScope tidy kind s (fresh.free node (.head _))
  obtain ⟨advance, claimed⟩ := (next σ.tree.scopes.size many _ opened.lt_size).outcome entered.tidy
    (split.right tidy entered) x τ run
  refine ⟨entered.trans advance, fun L own upheld => ⟨σ.tree.scopes.size, ?_, claimed L own upheld⟩⟩
  exact (upheld.mono advance.le).opens entered.tidy opened.hasScope

/-! ## Steps that return a scope -/

/-- A step returns a scope that is there. -/
structure Survey.Yields (σ : Survey) (p : Program) (nodes : List SourceNode) (m : Walk ScopeId)
    (claim : ScopeId → Ledger → Prop) : Prop extends σ.Establishes p nodes m claim where
  inside : σ.Tidy p → σ.Fresh p nodes → ∀ s τ, m.run σ = .ok (s, τ) → s < τ.tree.scopes.size

namespace Survey.Yields

theorem bind {β : Type} {first second : List SourceNode} {f : ScopeId → Walk β}
    {d : ScopeId → β → Ledger → Prop} (head : σ.Yields p first m c)
    (next : ∀ s τ, s < τ.tree.scopes.size → σ.Advances p first τ →
      τ.Establishes p second (f s) (d s)) :
    σ.Establishes p (first ++ second) (m >>= f) fun y L => ∃ s, c s L ∧ d s y L := by
  refine ⟨fun tidy fresh y υ run => ?_⟩
  refine (head.toEstablishes.bind fun s τ step advance => ?_).outcome tidy fresh y υ run
  exact next s τ (head.inside tidy fresh.left s τ step) advance

theorem imp {c d : ScopeId → Ledger → Prop} (h : σ.Yields p nodes m c)
    (weaker : ∀ s (L : Ledger), L.program = p → (∃ τ, L.Upholds τ) → c s L → d s L) :
    σ.Yields p nodes m d := by
  refine ⟨⟨fun tidy fresh s τ run => ?_⟩, h.inside⟩
  obtain ⟨advance, claimed⟩ := h.outcome tidy fresh s τ run
  exact ⟨advance, fun L own upheld => weaker s L own ⟨τ, upheld⟩ (claimed L own upheld)⟩

theorem throw {failure : Failure} : σ.Yields p nodes (throw failure) c :=
  ⟨⟨fun _ _ _ _ run => by cases run⟩, fun _ _ _ _ run => by cases run⟩

theorem knowing
    (h : (∀ node ∈ nodes, node ∈ p.nodes) → σ.Yields p nodes m c) : σ.Yields p nodes m c :=
  ⟨⟨fun tidy fresh s τ run => (h fresh.known).outcome tidy fresh s τ run⟩,
    fun tidy fresh s τ run => (h fresh.known).inside tidy fresh s τ run⟩

end Survey.Yields

/-! ## Functions -/

theorem Walk.coherent_initialFacts (f : FunctionNode) (s : ScopeId) (hint : NameHint)
    (owner : Option (NodeId × String)) : (initialFacts f s hint owner).Coherent := by
  intro name mem
  obtain ⟨parameter, own, bound⟩ := List.mem_flatMap.mp mem
  refine ⟨.ofTarget parameter.target, List.mem_map.mpr ⟨parameter, own, rfl⟩, ?_⟩
  cases target : parameter.target with
  | identifier identifier =>
    rw [target] at bound
    exact bound
  | pattern pattern =>
    rw [target] at bound
    exact bound

theorem Ledger.Upholds.registers {L : Ledger} (h : L.Upholds σ) (tidy : σ.Tidy p)
    (placed : σ.HasScope node .function outer inner) {facts : FunctionFacts}
    (registered : σ.functions.get? node = some facts) :
    L.Registers node facts.kind outer inner ∧ L.survey.tree.Serves inner facts := by
  obtain ⟨⟨final, found, same⟩, named⟩ := h.functions node facts registered
  have opens := h.opens tidy placed
  obtain ⟨scope, here, own, kind, -⟩ := placed
  have serves := h.serves inner scope facts here kind (own ▸ registered)
  exact ⟨⟨opens, ⟨final, found, same.kind⟩, named, serves.hidden⟩, serves⟩

theorem CompileContext.reachesAll_of_bound {c : CompileContext} {names : List Identifier}
    (h : ∀ identifier ∈ names, c.survey.tree.Bound s identifier.name) : c.ReachesAll s names :=
  fun identifier mem => c.reaches_of_bound (h identifier mem)

namespace Survey

variable {node : NodeId} {outer inner : ScopeId}

theorem Opened.setArrow
    {old : Bool} (tidy : σ.Tidy p) (h : σ.Opened node .function outer inner old) (isArrow : Bool) :
    σ.Advances p [] { σ with tree := σ.tree.setArrow inner isArrow } ∧
      Opened { σ with tree := σ.tree.setArrow inner isArrow } node .function outer inner
        isArrow := by
  obtain ⟨scope, found, own, kind, parent, -⟩ := h.scope
  constructor
  · refine .mark tidy inner (fun scope _ => enriches_variableScope scope (fun _ => rfl)
      (fun _ d mem => ⟨d, mem, rfl⟩) fun _ _ mem => .inl mem) fun other here registered => ?_
    rw [found] at here
    cases here
    exact absurd (own ▸ h.unregistered) registered
  · obtain ⟨data, has⟩ := Option.isSome_iff_exists.mp
      ((tidy.raw.blank inner scope found).isVariable.trans (by rw [kind]; rfl))
    refine ⟨⟨{ scope with variableScope := some { data with isArrow } }, ?_, own, kind, parent, rfl⟩,
      h.unregistered, h.unowned⟩
    show (σ.tree.setArrow inner isArrow).scope? inner = _
    rw [ScopeTree.setArrow, ScopeTree.modifyVariableScope, ScopeTree.scope?_modifyScope, if_pos rfl,
      found, Option.map_some, has]
    rfl

theorem get?_register (node : NodeId) (facts : FunctionFacts) :
    (σ.register node facts).functions.get? node =
      some { facts with sequence := σ.functionOrder.size + 1 } := by
  rw [register, OrderedMap.get?_insert, if_pos rfl]

end Survey

theorem Walk.declares_of_serves
    {L : Ledger} {f : FunctionNode} {s outer inner : ScopeId} {hint : NameHint}
    {owner : Option (NodeId × String)} (registers : L.Registers f.id f.kind outer inner)
    (serves : L.survey.tree.Serves inner (initialFacts f s hint owner)) :
    L.Declares f.id f.kind f.parameters outer inner := by
  refine ⟨registers, ?_, CompileContext.reachesAll_of_bound fun identifier mem => ?_⟩
  · obtain ⟨data, found, enough⟩ := serves.count
    exact ⟨data, found, by simpa [initialFacts] using enough⟩
  · obtain ⟨parameter, own, bound⟩ := List.mem_flatMap.mp mem
    exact serves.names identifier.name
      (List.mem_flatMap.mpr ⟨parameter, own, List.mem_map.mpr ⟨identifier, bound, rfl⟩⟩)

theorem Walk.yields_enterFunction
    (inside : s < σ.tree.scopes.size) (f : FunctionNode) (hint : NameHint)
    (owner : Option (NodeId × String)) (own : node.id = f.id)
    {k : ScopeId → Walk Unit} {claim : ScopeId → Ledger → Prop}
    (next : ∀ inner, s < inner → node ∈ p.nodes →
      Establishes p (inner + 1) nodes (k inner) fun _ => claim inner) :
    σ.Yields p (node :: nodes)
      (do let inner ← addScope .function f.id s
          modifyTree (·.setArrow inner f.kind.isArrow)
          registerFunction f.id (initialFacts f inner hint owner)
          k inner
          return inner)
      fun inner L => L.Declares f.id f.kind f.parameters s inner ∧ claim inner L := by
  let facts := initialFacts f σ.tree.scopes.size hint owner
  let entered : Survey := { σ with tree := σ.tree.addScope .function f.id (some s) }
  let marked : Survey :=
    { entered with tree := entered.tree.setArrow σ.tree.scopes.size f.kind.isArrow }
  let registered := marked.register f.id facts
  have whole : σ.Tidy p → σ.Fresh p (node :: nodes) → ∀ inner τ,
      ((k σ.tree.scopes.size >>= fun _ => pure σ.tree.scopes.size) : Walk ScopeId).run registered =
        .ok (inner, τ) →
      inner < τ.tree.scopes.size ∧ σ.Advances p (node :: nodes) τ ∧
        ∀ L : Ledger, L.program = p → L.Upholds τ →
          L.Declares f.id f.kind f.parameters s inner ∧ claim inner L := by
    intro tidy fresh inner τ run
    have split : σ.Fresh p ([node] ++ nodes) := fresh
    have first : σ.Advances p [node] entered := by
      have entered := Survey.Advances.enter tidy split.left .function inside
      rwa [own] at entered
    have opened : entered.Opened f.id .function s σ.tree.scopes.size false :=
      Survey.opened_addScope tidy .function s (own ▸ fresh.free node (.head _))
    obtain ⟨second, opened'⟩ := opened.setArrow first.tidy f.kind.isArrow
    have third : marked.Advances p [] registered :=
      .register second.tidy opened' (coherent_initialFacts f _ hint owner)
    have before : σ.Advances p [node] registered := (first.trans second).trans third
    rw [StateT.run_bind] at run
    cases step : (k σ.tree.scopes.size).run registered with
    | error failure =>
      rw [step] at run
      cases run
    | ok result =>
      obtain ⟨x, υ⟩ := result
      rw [step] at run
      cases run
      have many : σ.tree.scopes.size + 1 ≤ registered.tree.scopes.size :=
        Nat.lt_of_lt_of_le opened'.lt_size third.le.size_le
      have known := fresh.known node (.head _)
      obtain ⟨advance, claimed⟩ := (next _ inside known registered many).outcome before.tidy
        (split.right tidy before) x υ step
      refine ⟨Nat.lt_of_lt_of_le many advance.le.size_le, before.trans advance,
        fun L program upheld => ⟨?_, claimed L program upheld⟩⟩
      obtain ⟨registers, serves⟩ := (upheld.mono advance.le).registers before.tidy
        (opened'.hasScope.mono third.le) (Survey.get?_register f.id facts)
      have serves : L.survey.tree.Serves σ.tree.scopes.size facts :=
        ⟨serves.count, serves.names, serves.hidden⟩
      exact declares_of_serves registers serves
  exact ⟨⟨fun tidy fresh inner τ run => (whole tidy fresh inner τ run).2⟩,
    fun tidy fresh inner τ run => (whole tidy fresh inner τ run).1⟩

/-! ## Constructors -/

/-- A class whose constructor is not known yet. -/
structure Survey.Unowned (σ : Survey) (node : NodeId) : Prop where
  recorded : σ.Records node
  unowned : σ.classConstructors.get? node = none

theorem Survey.Opened.toUnowned {isArrow : Bool} (tidy : σ.Tidy p)
    (h : σ.Opened node kind outer inner isArrow) : σ.Unowned node := by
  obtain ⟨scope, found, own, -⟩ := h.scope
  exact ⟨⟨inner, own ▸ tidy.raw.recorded inner scope found⟩, h.unowned⟩

/-- A scope for a node that the walk makes up. -/
def Survey.addFresh (σ : Survey) (kind : ScopeKind) (outer : ScopeId) : Survey :=
  { σ with
    nextNodeId := σ.nextNodeId + 1
    tree := σ.tree.addScope kind σ.nextNodeId (some outer) }

theorem Walk.run_freshNodeId_bind
    {f : NodeId → Walk α} {x : α} (run : (freshNodeId >>= f).run σ = .ok (x, τ)) :
    (f σ.nextNodeId).run { σ with nextNodeId := σ.nextNodeId + 1 } = .ok (x, τ) := by
  unfold freshNodeId at run
  simp only [StateT.run_bind, StateT.run_get, pure_bind] at run
  split at run
  · exact run
  · cases run

theorem Walk.run_freshScope_bind {outer : ScopeId} {f : NodeId → ScopeId → Walk α} {x : α}
    (run : (do
      let node ← freshNodeId
      let inner ← addScope kind node outer
      f node inner).run σ = .ok (x, τ)) :
    (f σ.nextNodeId σ.tree.scopes.size).run (σ.addFresh kind outer) = .ok (x, τ) :=
  run_freshNodeId_bind run

namespace Survey

theorem free_nextNodeId (tidy : σ.Tidy p) : ¬σ.Records σ.nextNodeId :=
  fun recorded => Nat.lt_irrefl _ (tidy.below _ recorded)

theorem Advances.addFresh
    (tidy : σ.Tidy p) (kind : ScopeKind) {outer : ScopeId} (inside : outer < σ.tree.scopes.size) :
    σ.Advances p [] (σ.addFresh kind outer) := by
  have skipped : σ.Advances p [] { σ with nextNodeId := σ.nextNodeId + 1 } := .skipNode tidy
  obtain ⟨le, tidy', records⟩ := Advances.addScope skipped.tidy kind inside
    (show ¬Records { σ with nextNodeId := σ.nextNodeId + 1 } σ.nextNodeId from free_nextNodeId tidy)
    (Nat.lt_succ_self _)
  refine ⟨skipped.le.trans le, tidy', fun n recorded => ?_⟩
  rcases records n recorded with old | rfl
  · exact .inl old
  · exact .inr (.inr (Nat.le_refl _))

theorem opened_addFresh (tidy : σ.Tidy p) (kind : ScopeKind) (outer : ScopeId) :
    (σ.addFresh kind outer).Opened σ.nextNodeId kind outer σ.tree.scopes.size false := by
  have opened := opened_addScope tidy kind outer (free_nextNodeId tidy)
  exact ⟨opened.scope, opened.unregistered, opened.unowned⟩

end Survey

theorem Survey.Unowned.mono (h : σ.Unowned node) (le : σ.Le τ)
    (same : τ.classConstructors = σ.classConstructors) : τ.Unowned node := by
  obtain ⟨s, mem⟩ := h.recorded
  exact ⟨⟨s, le.nodeScopes mem⟩, same ▸ h.unowned⟩

theorem Survey.Advances.own
    {id node : NodeId} {s inner : ScopeId} {facts : FunctionFacts} (tidy : σ.Tidy p)
    (unowned : σ.Unowned id) (opened : σ.Opened node .function s inner facts.kind.isArrow)
    (coherent : facts.Coherent) (defaults : OrderedMap NodeId DefaultConstructor) :
    let τ : Survey := { σ.register node facts with
      defaultConstructors := defaults
      classConstructors := σ.classConstructors.insert id node }
    σ.Advances p [] τ ∧ ∀ L : Ledger, L.Upholds τ →
      L.survey.classConstructors.get? id = some node ∧ L.Registers node facts.kind s inner := by
  intro τ
  have first : σ.Advances p [] (σ.register node facts) := .register tidy opened coherent
  have second : (σ.register node facts).Advances p []
      { σ.register node facts with defaultConstructors := defaults } :=
    .note first.tidy _ _ _ _ _
  have third : Advances { σ.register node facts with defaultConstructors := defaults } p [] τ :=
    .construct second.tidy unowned.recorded unowned.unowned node
  refine ⟨(first.trans second).trans third, fun L upheld => ⟨?_, ?_⟩⟩
  · refine upheld.constructors id node ?_
    show (σ.classConstructors.insert id node).get? id = some node
    rw [OrderedMap.get?_insert, if_pos rfl]
  · exact ((upheld.mono (second.le.trans third.le)).registers first.tidy
      (opened.hasScope.mono first.le) (get?_register node facts)).1

theorem Walk.yields_addDefaultConstructor
    {id : NodeId} (inside : s < σ.tree.scopes.size) (unowned : σ.Unowned id)
    (isDerived : Bool) (className : String) :
    σ.Yields p [] (addDefaultConstructor id isDerived s className) fun inner L =>
      ∃ f, L.survey.classConstructors.get? id = some f ∧ L.Registers f .constructor s inner := by
  have whole : σ.Tidy p → ∀ inner τ,
      (addDefaultConstructor id isDerived s className).run σ = .ok (inner, τ) →
      inner < τ.tree.scopes.size ∧ σ.Advances p [] τ ∧ ∀ L : Ledger, L.program = p → L.Upholds τ →
        ∃ f, L.survey.classConstructors.get? id = some f ∧ L.Registers f .constructor s inner := by
    intro tidy inner τ run
    unfold addDefaultConstructor at run
    -- the scope of the constructor, then the scope of its body
    have first : σ.Advances p [] (σ.addFresh .function s) := .addFresh tidy .function inside
    have opened := Survey.opened_addFresh tidy .function s
    have second : (σ.addFresh .function s).Advances p []
        ((σ.addFresh .function s).addFresh .block σ.tree.scopes.size) :=
      .addFresh first.tidy .block opened.lt_size
    have opened' : ((σ.addFresh .function s).addFresh .block σ.tree.scopes.size).Opened σ.nextNodeId
        .function s σ.tree.scopes.size false := by
      have still := opened.addScope .block (σ.addFresh .function s).nextNodeId σ.tree.scopes.size
      exact ⟨still.scope, still.unregistered, still.unowned⟩
    have before := first.trans second
    have unowned' := unowned.mono before.le rfl
    have run := run_freshScope_bind (run_freshScope_bind run)
    have last : ∀ υ : Survey, σ.Advances p [] υ → υ.Unowned id →
        υ.Opened σ.nextNodeId .function s σ.tree.scopes.size false →
        ∀ (facts : FunctionFacts) (defaults : OrderedMap NodeId DefaultConstructor),
        facts.kind = .constructor → facts.Coherent →
        τ = { υ.register σ.nextNodeId facts with
          defaultConstructors := defaults
          classConstructors := υ.classConstructors.insert id σ.nextNodeId } →
        σ.tree.scopes.size < τ.tree.scopes.size ∧ σ.Advances p [] τ ∧
          ∀ L : Ledger, L.program = p → L.Upholds τ → ∃ f,
            L.survey.classConstructors.get? id = some f ∧
              L.Registers f .constructor s σ.tree.scopes.size := by
      rintro υ before unowned opened facts defaults kind coherent rfl
      obtain ⟨advance, owned⟩ := Survey.Advances.own before.tidy unowned
        (show υ.Opened σ.nextNodeId .function s σ.tree.scopes.size facts.kind.isArrow by
          rw [kind]; exact opened) coherent defaults
      rw [kind] at owned
      exact ⟨Nat.lt_of_lt_of_le opened.lt_size advance.le.size_le, before.trans advance,
        fun L _ upheld => ⟨_, owned L upheld⟩⟩
    cases isDerived with
    | false =>
      cases run
      exact last _ before unowned' opened' _ _ rfl (by simp [FunctionFacts.Coherent]) rfl
    | true =>
      have skipped := Survey.Advances.skipNode before.tidy
      have run := run_freshNodeId_bind ((congrArg (StateT.run · _) (bind_map_left ..)).symm.trans run)
      cases run
      exact last _ (before.trans skipped) (unowned'.mono skipped.le rfl)
        ⟨opened'.scope, opened'.unregistered, opened'.unowned⟩ _ _ rfl
        (by simp [FunctionFacts.Coherent, ParameterNames.names]) rfl
  exact ⟨⟨fun tidy _ inner τ run => (whole tidy inner τ run).2⟩,
    fun tidy _ inner τ run => (whole tidy inner τ run).1⟩

end AccScript
