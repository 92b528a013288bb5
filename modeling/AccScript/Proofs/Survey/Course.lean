import AccScript.Proofs.Metadata.Outcome
import AccScript.Proofs.Source.Bare
import AccScript.Proofs.Survey.ModuleText
import AccScript.Proofs.Survey.Record

/-!
# The course of the walk

The walk over a part of a program changes the module record as the text of that part says, and in no
other way.  Positions do not matter to a survey: the walk over a bare program makes the same survey,
and it fails where the walk over the program fails; only the position in the error may differ.
-/

namespace AccScript

def Survey.Describes (σ : Survey) (J : ModuleText) : Prop :=
  (∃ record, σ.moduleRecord = some record ∧ record.Describes J) ∧ σ.pendingExports = J.clauses

namespace Walk

variable {α β : Type} {I J : ModuleText} {m m' : Walk α} {f f' : α → Walk β} {s : ScopeId}
  {position position' : Position}

/-- Two walks make the same survey, or fail alike; what they import and export is in a text, and
they count functions. -/
def Follows (I : ModuleText) (m m' : Walk α) : Prop :=
  ∀ σ : Survey, 0 < σ.tree.scopes.size →
    Agrees (fun x y => x = y ∧ 0 < x.2.tree.scopes.size ∧
      (∀ J, σ.Describes J → x.2.Describes (J ++ I)) ∧ (σ.Counts → x.2.Counts)) (m.run σ) (m'.run σ)

/-- A walk that imports and exports nothing. -/
def Quiet (m m' : Walk α) : Prop :=
  Follows {} m m'

/-- A walk that imports and exports nothing and takes no position. -/
abbrev Still (m : Walk α) : Prop :=
  Quiet m m

theorem Follows.bind (h : Follows I m m')
    (next : ∀ x, Follows J (f x) (f' x)) : Follows (I ++ J) (m >>= f) (m' >>= f') := by
  intro σ rooted
  refine (h σ rooted).bind ?_
  rintro ⟨x, μ⟩ _ ⟨rfl, rooted', first, counts⟩
  refine (next x μ rooted').mono ?_
  rintro ⟨y, τ⟩ _ - ⟨rfl, rooted'', second, counts'⟩
  refine ⟨rfl, rooted'', fun K told => ?_, counts' ∘ counts⟩
  rw [← ModuleText.append_assoc]
  exact second _ (first K told)

theorem Follows.throw {failure failure' : Failure} (same : failure.variant = failure'.variant) :
    Follows I (MonadExcept.throw failure : Walk α) (MonadExcept.throw failure') :=
  fun _ _ => .error same

theorem Follows.ite {p : Prop} [Decidable p] {m m' n n' : Walk α} (h : Follows I m m')
    (h' : Follows I n n') : Follows I (if p then m else n) (if p then m' else n') := by
  split
  · exact h
  · exact h'

/-- A step that is made only under a condition. -/
theorem Quiet.when {p : Prop} [Decidable p] {m m' : Walk Unit} {f f' : Unit → Walk α}
    (h : Quiet m m') (next : ∀ x, Quiet (f x) (f' x)) :
    Quiet (if p then m >>= f else f ()) (if p then m' >>= f' else f' ()) :=
  .ite (Follows.bind h next) (next ())

theorem Quiet.of_run {m : Walk α} (h : ∀ σ x τ, m.run σ = .ok (x, τ) →
    σ.tree.scopes.size ≤ τ.tree.scopes.size ∧ τ.moduleRecord = σ.moduleRecord ∧
      τ.pendingExports = σ.pendingExports ∧ (σ.Counts → τ.Counts)) : Still m := by
  intro σ rooted
  refine (Agrees.refl _).mono fun x _ run same => ⟨same, ?_⟩
  obtain ⟨size, record, pending, counts⟩ := h σ x.1 x.2 run
  refine ⟨Nat.lt_of_lt_of_le rooted size, fun J told => ?_, counts⟩
  rw [ModuleText.append_nothing, Survey.Describes, record, pending]
  exact told

theorem Quiet.of_eq (same : m' = m) (h : Quiet m m) : Quiet m m' :=
  same ▸ h

theorem Quiet.modify {f : Survey → Survey}
    (size : ∀ σ, (f σ).tree.scopes.size = σ.tree.scopes.size)
    (counts : ∀ σ : Survey, σ.Counts → (f σ).Counts)
    (same : ∀ σ, ((f σ).moduleRecord, (f σ).pendingExports) = (σ.moduleRecord, σ.pendingExports)) :
    Quiet (MonadState.modifyGet fun σ => ((), f σ) : Walk Unit)
      (MonadState.modifyGet fun σ => ((), f σ)) := by
  refine .of_run fun σ _ τ run => ?_
  cases run
  exact ⟨Nat.le_of_eq (size σ).symm, congrArg (·.1) (same σ), congrArg (·.2) (same σ), counts σ⟩

/-- A note that surveys do not count. -/
theorem Quiet.note {f : Survey → Survey} (counts : ∀ σ : Survey, σ.Counts → (f σ).Counts)
    (same : ∀ σ, ((f σ).tree, (f σ).moduleRecord, (f σ).pendingExports) =
      (σ.tree, σ.moduleRecord, σ.pendingExports)) :
    Quiet (MonadState.modifyGet fun σ => ((), f σ) : Walk Unit)
      (MonadState.modifyGet fun σ => ((), f σ)) :=
  .modify (fun σ => congrArg (·.1.scopes.size) (same σ)) counts
    fun σ => congrArg (·.2) (same σ)

theorem Quiet.pure (x : α) : Still (Pure.pure x) := by
  refine .of_run fun σ _ τ run => ?_
  cases run
  exact ⟨Nat.le_refl _, rfl, rfl, id⟩

theorem Quiet.bind (h : Quiet m m')
    (next : ∀ x, Quiet (f x) (f' x)) : Quiet (m >>= f) (m' >>= f') :=
  Follows.bind h next

theorem Follows.quietly (h : Follows I m m')
    (next : ∀ x, Quiet (f x) (f' x)) : Follows I (m >>= f) (m' >>= f') := by
  have both := h.bind next
  rwa [ModuleText.append_nothing] at both

theorem Quiet.forM {ι : Type} {f : ι → Walk Unit} (step : ∀ x, Still (f x)) :
    (items : List ι) → Still (items.forM f)
  | [] => .pure ()
  | x :: rest => (step x).bind fun _ => Quiet.forM step rest

theorem Follows.inner (h : Follows (I.atScope s) m m')
    (apart : s ≠ ScopeTree.rootId) : Quiet m m' := by
  rwa [ModuleText.atScope, if_neg apart] at h

theorem Quiet.anywhere (h : Quiet m m') : Follows (ModuleText.atScope {} s) m m' := by
  rw [ModuleText.nothing_atScope]
  exact h

theorem Quiet.enter {kind : ScopeKind} {node : NodeId} {f f' : ScopeId → Walk α}
    (next : ∀ inner, inner ≠ ScopeTree.rootId → Quiet (f inner) (f' inner)) :
    Quiet (addScope kind node s >>= f) (addScope kind node s >>= f') := by
  intro σ rooted
  refine (next σ.tree.scopes.size (Nat.ne_of_gt rooted)
    { σ with tree := σ.tree.addScope kind node (some s) } ?_).mono fun _ _ _ both => both
  dsimp only
  rw [ScopeTree.size_addScope]
  exact Nat.succ_pos _

/-! ## Steps -/

theorem size_modifyScope (t : ScopeTree) (id : ScopeId) (f : Scope → Scope) :
    (t.modifyScope id f).scopes.size = t.scopes.size :=
  Array.size_modify

theorem quiet_modifyTree {f : ScopeTree → ScopeTree} (size : ∀ t, (f t).scopes.size = t.scopes.size) :
    Still (modifyTree f) :=
  .modify (fun _ => size _) (fun _ => id) fun _ => rfl

theorem quiet_get : Quiet (MonadState.get : Walk Survey) MonadState.get := by
  refine .of_run fun σ _ τ run => ?_
  cases run
  exact ⟨Nat.le_refl _, rfl, rfl, id⟩

theorem quiet_addReference (s : ScopeId) (name : String) (isAssignment : Bool) :
    Still (addReference s name isAssignment) := by
  have noted (reference : Reference) : Still (modify fun σ : Survey =>
      { σ with references := σ.references.push reference } : Walk Unit) :=
    .note (fun _ h => h) fun _ => rfl
  unfold addReference
  split
  · exact quiet_get.bind fun σ =>
      .when (quiet_modifyTree fun _ => size_modifyScope _ _ _) fun _ => noted _
  · exact noted _

theorem quiet_addDecl (s : ScopeId) (d : Decl) : Still (addDecl s d) :=
  quiet_modifyTree fun _ => size_modifyScope _ _ _

theorem quiet_addHoisted (s : ScopeId) (d : Decl) :
    Still (modifyTree (·.addHoisted s d)) :=
  quiet_modifyTree fun _ => size_modifyScope _ _ _

theorem quiet_hoist (s : ScopeId) (d : Decl) : Still (hoist s d) := by
  refine quiet_get.bind fun σ => ?_
  dsimp only
  split
  · exact .throw rfl
  · exact .ite (quiet_addHoisted _ _) (Quiet.pure ())

theorem quiet_declare (s : ScopeId) (kind : DeclKind) (role : ModuleRole) (identifier : Identifier) :
    Still (declare s kind role identifier) := by
  unfold declare
  refine (quiet_addDecl _ _).bind fun _ => ?_
  split
  · exact quiet_get.bind fun _ => quiet_hoist _ _
  · exact .pure ()

theorem quiet_declareFunction (s : ScopeId) (d : Decl) :
    Still (declareFunction s d) := by
  refine quiet_get.bind fun σ => ?_
  dsimp only
  split
  · exact .throw rfl
  · split
    · exact (quiet_hoist _ _).bind fun _ => quiet_addDecl _ _
    · exact (quiet_hoist _ _).bind fun _ => quiet_addDecl _ _
    · exact .ite (quiet_addHoisted _ _) (quiet_addDecl _ _)

theorem quiet_freshNodeId : Still freshNodeId := by
  refine .of_run fun σ _ τ run => ?_
  simp only [freshNodeId, Bind.bind, StateT.bind, get, getThe, MonadStateOf.get, StateT.run,
    StateT.get, Except.bind, Pure.pure, Except.pure] at run
  split at run
  · cases run
    exact ⟨Nat.le_refl _, rfl, rfl, id⟩
  · cases run

theorem quiet_registerFunction (node : NodeId) (facts : FunctionFacts) :
    Still (registerFunction node facts) :=
  .note (fun _ => Survey.counted_register) fun _ => rfl

theorem quiet_addDefaultConstructor (node : NodeId) (isDerived : Bool) (s : ScopeId)
    (name : String) :
    Still (addDefaultConstructor node isDerived s name) := by
  unfold addDefaultConstructor
  refine quiet_freshNodeId.bind fun _ => .enter fun _ _ => quiet_freshNodeId.bind fun _ =>
    .enter fun _ _ => ?_
  cases isDerived with
  | true =>
    exact (quiet_freshNodeId.bind fun _ => .pure _).bind fun _ =>
      (quiet_registerFunction _ _).bind fun _ =>
        Quiet.bind (.note (fun _ h => h) fun _ => rfl) fun _ => .pure _
  | false =>
    exact (Quiet.pure none).bind fun _ =>
      (quiet_registerFunction _ _).bind fun _ =>
        Quiet.bind (.note (fun _ h => h) fun _ => rfl) fun _ => .pure _

theorem quiet_declareSelf (s : ScopeId) (id : NodeId) (isExpression : Bool)
    (name : Option Identifier) :
    Still (declareSelf s id isExpression name) := by
  unfold declareSelf
  split
  · exact quiet_addDecl _ _
  · exact .pure ()

theorem quiet_noteDerived (id : NodeId) (isDerived : Bool) :
    Still (noteDerived id isDerived) := by
  unfold noteDerived
  split
  · exact .note (fun _ h => h) fun _ => rfl
  · exact .pure ()

theorem quiet_noteClassName (s : ScopeId) (name : Option Identifier) :
    Still (noteClassName s name) := by
  cases name with
  | none => exact .pure ()
  | some name => exact .note (fun _ h => h) fun _ => rfl

theorem quiet_declareClass (s : ScopeId) (role : ModuleRole) (hint : NameHint) (c : ClassNode) :
    Quiet (declareClass s role hint c) (declareClass s role hint c.bare) := by
  refine .of_eq (by simp [declareClass, classBindingName?]) ?_
  unfold declareClass
  split
  · exact quiet_addDecl _ _
  · exact .pure ()

theorem quiet_bindMemberKey (id : NodeId) (key : PropertyKey) (isStatic : Bool) (kind : MemberKind)
    (classScope constructorScope : ScopeId) :
    Quiet (bindMemberKey id key isStatic kind classScope constructorScope)
      (bindMemberKey id key.bare isStatic kind.bare classScope constructorScope) := by
  refine .of_eq ?_ ?_
  · cases key with
    | computed key =>
      cases kind with
      | method f => rfl
      | field initializer =>
        cases isStatic with
        | true => rfl
        | false =>
          obtain ⟨_, kind⟩ := key
          cases kind <;> rfl
    | _ => rfl
  · unfold bindMemberKey
    split
    · unfold bindFieldKey
      split
      · exact .pure ()
      · exact .pure ()
      · exact (quiet_addDecl _ _).bind fun _ => (quiet_addReference _ _ _).bind fun _ =>
          .note (fun _ h => h) fun _ => rfl
    · exact .pure ()

/-! ## Steps with a position -/

theorem follows_modifyRecord {f : ModuleRecord → ModuleRecord}
    (h : ∀ {r J}, r.Describes J → (f r).Describes (J ++ I)) (none : I.clauses = []) :
    Follows I (modifyRecord position f) (modifyRecord position' f) := by
  intro σ rooted
  simp only [modifyRecord, Bind.bind, StateT.bind, get, getThe, MonadStateOf.get, StateT.run,
    StateT.get, Except.bind, Pure.pure, Except.pure]
  cases found : σ.moduleRecord with
  | none => exact .error rfl
  | some record =>
    refine .ok ⟨rfl, rooted, ?_, id⟩
    rintro J ⟨⟨_, found', told⟩, pending⟩
    obtain rfl := Option.some.inj (found.symm.trans found')
    refine ⟨⟨_, rfl, h told⟩, ?_⟩
    rw [ModuleText.append_def, none, List.append_nil]
    exact pending

theorem follows_ofRoot {failure failure' : Failure}
    (same : failure.variant = failure'.variant) (h : Follows I m m') :
    Follows (I.atScope s)
      (do if !(← isModuleRoot s) then MonadExcept.throw failure
          m)
      (do if !(← isModuleRoot s) then MonadExcept.throw failure'
          m') := by
  intro σ rooted
  rw [StateT.run_bind, StateT.run_bind,
    show (isModuleRoot s).run σ = .ok (s = ScopeTree.rootId && σ.tree.kindIs (· = .esModule) s, σ)
      from rfl]
  cases known : s = ScopeTree.rootId && σ.tree.kindIs (· = .esModule) s with
  | false => exact .error same
  | true =>
    have root : s = ScopeTree.rootId := by simp_all
    rw [ModuleText.atScope, if_pos root]
    exact h σ rooted

theorem follows_requireModuleRoot {construct : String}
    {f f' : Unit → Walk α} (h : Follows I (f ()) (f' ())) :
    Follows (I.atScope s) (requireModuleRoot s construct position >>= f)
      (requireModuleRoot s construct position' >>= f') := by
  have same : ∀ (position : Position) (g : Unit → Walk α),
      requireModuleRoot s construct position >>= g =
        (do if !(← isModuleRoot s) then MonadExcept.throw (.unsupported construct position)
            g ()) := by
    intro position g
    unfold requireModuleRoot
    rw [bind_assoc]
    refine congrArg (isModuleRoot s >>= ·) (funext fun isRoot => ?_)
    cases isRoot <;> rfl
  rw [same, same]
  exact follows_ofRoot rfl h

theorem follows_exportDeclaration (s : ScopeId) (name : Option String) (kind : ExportKind)
    (position position' : Position) :
    Follows ((ModuleText.ofExport name kind).atScope s) (exportDeclaration s name kind position)
      (exportDeclaration s name kind position') := by
  cases kind with
  | none => exact (Quiet.pure ()).anywhere
  | default => exact follows_ofRoot rfl (follows_modifyRecord (fun h => h.addLocalExport _ _) rfl)
  | named =>
    cases name with
    | none => exact follows_ofRoot rfl (.throw rfl)
    | some name => exact follows_ofRoot rfl (follows_modifyRecord (fun h => h.addLocalExport _ _) rfl)

theorem follows_addImport (s : ScopeId) (d : ImportDeclaration) (position position' : Position) :
    Follows (.ofImport d) (addImport s d position) (addImport s d position') :=
  (follows_modifyRecord (fun h => h.importEntries d) rfl).quietly fun _ =>
    .forM (quiet_addDecl s) _

theorem follows_addExport (d : ExportDeclaration) (position position' : Position) :
    Follows (.ofClause d) (addExport d position) (addExport d position') := by
  obtain ⟨request, specifiers⟩ := d
  cases request with
  | some request =>
    cases specifiers with
    | none => exact follows_modifyRecord (fun h => h.addStarExport request) rfl
    | some specifiers =>
      refine follows_modifyRecord (fun h => ?_) rfl
      cases specifiers with
      | nil => exact h.addRequest request
      | cons specifier rest =>
        have all := @ModuleRecord.Describes.foldl _ _ ExportSpecifier _ (fun specifiers =>
          { requests := specifiers.map fun _ => request
            indirects := specifiers.map fun specifier =>
              (specifier.exported, specifier.localName, request) }) rfl (fun _ _ => rfl)
          (fun specifier h => h.addIndirectExport specifier.exported specifier.localName request)
          (specifier :: rest) h
        rw [ModuleText.append_def] at all ⊢
        refine all.of_requests _ fun other => ?_
        simp only [ModuleText.ofClause, List.map_cons, List.mem_append, List.mem_cons, List.mem_map]
        grind
  | none =>
    cases specifiers with
    | none => exact .throw rfl
    | some specifiers =>
      intro σ rooted
      refine .ok ⟨rfl, rooted, ?_, id⟩
      rintro J ⟨⟨record, found, told⟩, pending⟩
      refine ⟨⟨record, found, ?_⟩, congrArg (· ++ _) pending⟩
      simp only [ModuleText.append_def, ModuleText.ofClause, List.append_nil]
      exact { told with }

/-! ## What a walk asks of nodes -/

theorem functionName_bare (f : FunctionNode) (hint : NameHint) (owner : Option (NodeId × String)) :
    functionName f.bare hint owner = functionName f hint owner := by
  simp [functionName]

theorem initialFacts_bare (f : FunctionNode) (scope : ScopeId) (hint : NameHint)
    (owner : Option (NodeId × String)) :
    initialFacts f.bare scope hint owner = initialFacts f scope hint owner := by
  have names (p : Parameter) : p.bare.target.boundNames = p.target.boundNames := by
    cases p
    exact BindingTarget.boundNames_bare _
  have single (p : Parameter) :
      ParameterNames.ofTarget p.bare.target = ParameterNames.ofTarget p.target := by
    obtain ⟨_, target, _, _⟩ := p
    cases target with
    | identifier identifier => rfl
    | pattern p =>
      exact congrArg (fun names => ParameterNames.pattern (names.map Identifier.name))
        (Pattern.boundNames_bare p)
  simp only [initialFacts, functionName_bare, FunctionNode.parameters_bare,
    FunctionNode.parameterLength_bare, FunctionNode.kind_bare, List.map_map, List.flatMap_map,
    Function.comp_def, names, single]

theorem className_bare (c : ClassNode) (hint : NameHint) :
    className c.bare hint = className c hint := by
  simp [className]

theorem targetHint_bare (target : BindingTarget) : targetHint target.bare = targetHint target := by
  cases target <;> rfl

theorem fieldHint_bare (key : PropertyKey) : fieldHint key.bare = fieldHint key := by
  cases key <;> rfl

theorem assignmentHint_bare (op : Option BinaryOp) (target : AssignmentTarget) :
    assignmentHint op target.bare = assignmentHint op target := by
  cases target with
  | pattern p => cases op <;> rfl
  | simple target =>
    obtain ⟨_, kind⟩ := target
    cases op <;> cases kind <;> rfl

end Walk

end AccScript
