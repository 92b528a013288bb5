import AccScript.Proofs.Metadata.Expression

/-!
# The echo of jumps, branches and loops

Jumps find the same targets, since a bare assembler has the same boundaries.  They copy finalizers,
which echo because the two environments match.
-/

namespace AccScript

open Asm Lower

variable {α : Type} {E : VariableId → Prop} {Γ : List Resource}
  {functions functions' : List Statement} {code code' : Lower Unit}
  {finalizers finalizers' : List Code} (value : Option Expr)

/-! ## Leaving boundaries -/

theorem Echo.forM {f : α → Code} (h : ∀ x, OwnEcho E Γ (f x)) (items : List α) :
    OwnEcho E Γ (items.forM f) := by
  induction items with
  | nil => exact .done
  | cons x rest ih => exact (h x).then ih

theorem echo_outside (left rest : List Boundary) {code code' : Code}
    (h : Echo E Γ code code') :
    Echo E Γ (outside left rest code) (outside left rest code') :=
  .seq (.idle (fun _ => rfl) fun _ => rfl) fun _ => (Echo.forM echo_closeTry _).then <|
    h.then <| (Echo.forM echo_resumeTry _).then <| .idle (fun _ => rfl) fun _ => rfl

theorem getElem?_echo
    (h : List.Forall₂ (fun c c' => Echo E Γ c c') finalizers finalizers') (index : Nat) :
    Option.Rel (fun c c' => Echo E Γ c c') finalizers[index]? finalizers'[index]? := by
  induction h generalizing index with
  | nil => exact .none
  | cons first _ ih =>
    cases index with
    | zero => exact .some first
    | succ index => exact ih index

theorem echo_unwindFrom
    (h : List.Forall₂ (fun c c' => Echo E Γ c c') finalizers finalizers') (depth : Nat)
    (left boundaries : List Boundary) :
    Echo E Γ (unwindFrom finalizers depth left boundaries)
      (unwindFrom finalizers' depth left boundaries) := by
  induction boundaries generalizing left with
  | nil => exact .done
  | cons boundary rest ih =>
    have others := ih (left ++ [boundary])
    unfold unwindFrom
    refine .ite (fun _ => .done) fun _ => ?_
    cases boundary with
    | environment _ => exact echo_popEnvironment.then others
    | finalizer index =>
      exact .required (getElem?_echo h index) fun _ _ echo => (echo_outside _ rest echo).then others
    | _ => exact others

theorem resounds_unwind (depth : Nat) : Resonates E (unwind depth) := by
  intro Γ Δ env env' _ matched
  show Echo E Δ (MonadState.get >>= fun a => unwindFrom env.finalizers depth [] a.boundaries)
    (MonadState.get >>= fun a => unwindFrom env'.finalizers depth [] a.boundaries)
  exact .get fun a => echo_unwindFrom matched.finalizers depth [] a.boundaries

/-! ## Break, continue and return -/

theorem resounds_jumpTo (word : JumpWord) (name : Option String) (target : JumpTarget) :
    Resonates E (jumpTo word name target) := by
  refine fun Γ => .inspect fun a => ?_
  rw [Assembler.size_code_bare]
  exact (resounds_unwind _).then <| echoes_plainAt _ rfl

theorem echoes_jumpOr (word : JumpWord) (name : Option String) (target : Option JumpTarget)
    {failure failure' : Failure} (same : failure.variant = failure'.variant) :
    Echoes E Γ (match target with | some target => jumpTo word name target | none => throw failure)
      (match target with | some target => jumpTo word name target | none => throw failure') := by
  cases target with
  | some target => exact resounds_jumpTo word name target Γ
  | none => exact .throw same

theorem resounds_breakStatement (name : Option String) (position : Position) :
    Resounds E (breakStatement name position) (breakStatement name .bare) :=
  fun _ => .inspect fun a => echoes_jumpOr _ name (a.findBreakable? name) rfl

theorem resounds_continueStatement (name : Option String) (position : Position) :
    Resounds E (continueStatement name position) (continueStatement name .bare) :=
  fun _ => .inspect fun a => echoes_jumpOr _ name (a.findContinuable? name) rfl

theorem resounds_unwindWithValue : Resonates E unwindWithValue := by
  refine fun Γ => .inspect fun a => .ite (fun _ => ?_) fun _ => resounds_unwind 0 Γ
  exact echo_storeTemp.step fun _ => (resounds_unwind 0).then <| (echo_lda (by simp)).before <|
    (echo_freeTemps (by simp)).lift

theorem resounds_returnAccumulator : Resonates E returnAccumulator := by
  refine fun Γ => .inspect fun a => ?_
  rw [Assembler.size_code_bare]
  exact resounds_unwindWithValue.then <| echoes_plainAt _ rfl

theorem resounds_returnStatement {code code' : Option (Lower Unit)}
    (h : ResoundsOption E code code') :
    Resounds E (returnStatement value code) (returnStatement (Expr.bare? value) code') := by
  have derived : Resounds E (derivedReturnValue value (code.getD (Pure.pure ())))
      (derivedReturnValue (Expr.bare? value) (code'.getD (Pure.pure ()))) := by
    have own : Resounds E (code.getD (Pure.pure ())) (code'.getD (Pure.pure ())) :=
      .getD h fun _ => .done
    exact .of_steady fun _ => Judgement.steady_derivedReturnValue value False.elim fun _ =>
      .stay (own _)
  refine fun Γ => .read fun env _ _ _ => ?_
  rw [inDerivedConstructor_recast]
  refine .ite (fun _ => derived.then <| resounds_returnAccumulator Γ) fun _ => ?_
  cases h with
  | some h => exact h.then <| resounds_returnAccumulator Γ
  | none =>
    refine .ite (fun _ => ?_) fun _ => ?_
    · exact (resounds_loadVariable _).then <| resounds_returnAccumulator Γ
    · refine .inspect fun a => ?_
      rw [Assembler.size_code_bare]
      exact (resounds_unwind 0).then <| echoes_plainAt _ rfl

theorem echo_popToRegion (boundaries : List Boundary) :
    OwnEcho E Γ (popToRegion boundaries) := by
  induction boundaries with
  | nil => exact .done
  | cons boundary rest ih =>
    cases boundary with
    | region _ => exact .done
    | environment _ => exact echo_popEnvironment.then ih
    | _ => exact ih

theorem resounds_throwStatement {value value' : Lower Unit} (h : Resounds E value value') :
    Resounds E (throwStatement value) (throwStatement value') :=
  fun _ => h.then <| .inspect fun a => (echo_popToRegion a.boundaries).before <|
    echoes_plainAt _ rfl

/-! ## Blocks -/

theorem resounds_inVisibleScope (node : NodeId) (h : Resounds E code code') :
    Resounds E (inVisibleScope node code) (inVisibleScope node code') :=
  fun _ => (resounds_scopeOf node).seq fun scope => .withScope ((echo_enterScope scope).before <|
    h.then echo_exitScope.lift) scope

theorem resounds_blockOf (node : NodeId)
    (same : functions' = functions.map .bare) {body body' : Lower Unit}
    (h : Resounds E body body') :
    Resounds E (blockOf node functions body) (blockOf node functions' body') := by
  subst same
  exact resounds_inVisibleScope node fun Γ =>
    (resounds_instantiateFunctions functions).then <| h Γ

/-! ## Branches -/

theorem Echo.unlessTerminated {m : Code} {f f' : Unit → Lower Unit}
    (h : OwnEcho E Γ m) (next : ∀ x, Echoes E Γ (f x) (f' x)) :
    Echoes E Γ (liftM isTerminated >>= fun b => if (!b) = true then (liftM m >>= f) else f ())
      (liftM isTerminated >>= fun b => if (!b) = true then (liftM m >>= f') else f' ()) :=
  echo_isTerminated.next fun _ => .ite (fun _ => h.next next) fun _ => next ()

theorem resounds_elseBranch (otherwise : Label) {alternate alternate' : Lower Unit}
    (h : Resounds E alternate alternate') :
    Resounds E (elseBranch otherwise alternate) (elseBranch otherwise alternate') :=
  fun _ => echo_freshLabel.next fun done => (echo_branch done).unlessTerminated fun _ =>
    (echo_label otherwise).before <| h.then <| (echo_label done).lift

theorem resounds_ifElse (node : NodeId)
    (same : functions' = functions.map .bare) {test test' : Label → Lower Unit}
    (tests : ResoundsTest E test test') {consequent consequent' : Lower Unit}
    (h : Resounds E consequent consequent') {alternate alternate' : Option (Lower Unit)}
    (others : ResoundsOption E alternate alternate') :
    Resounds E (ifElse node functions test consequent alternate)
      (ifElse node functions' test' consequent' alternate') := by
  subst same
  refine Resounds.inScopeOf (fun Γ => ?_) node
  refine (resounds_instantiateFunctions functions).then <| echo_freshLabel.next fun otherwise =>
    (tests otherwise).then <| h.then ?_
  cases others with
  | none => exact (echo_label otherwise).lift
  | some h => exact resounds_elseBranch otherwise h Γ

/-- A case of a `switch` and its echo. -/
structure CasePart.Echoes (E : VariableId → Prop) (part part' : CasePart) : Prop where
  test : ResoundsOption E part.test part'.test
  body : Resounds E part.body part'.body

section Cases

variable {parts parts' : List CasePart} (h : List.Forall₂ (CasePart.Echoes E) parts parts')

include h

theorem echo_freshLabels : Echo E Γ (freshLabels parts) (freshLabels parts') := by
  induction h with
  | nil => exact .done
  | cons _ _ ih => exact echo_freshLabel.seq fun _ => ih.seq fun _ => .done

theorem echoes_caseTests {value : Register} (own : .temp value ∈ Γ) (default : Option Label)
    (targets : List Label) :
    Echoes E Γ (caseTests value default (parts.zip targets)) (caseTests value default (parts'.zip targets)) := by
  induction h generalizing default targets with
  | nil => exact .done
  | @cons part part' _ _ first _ ih =>
    cases targets with
    | nil => exact .done
    | cons target targets =>
      obtain ⟨test, body⟩ := part
      obtain ⟨test', body'⟩ := part'
      cases first.test with
      | none => exact ih _ targets
      | some test =>
        exact test.then <| (echo_binary _ own).before <| (echo_plain rfl).before <| ih _ targets

theorem resounds_caseBodies (targets : List Label) :
    Resounds E (caseBodies (parts.zip targets)) (caseBodies (parts'.zip targets)) := by
  intro Γ
  induction h generalizing targets with
  | nil => exact .done
  | cons first _ ih =>
    cases targets with
    | nil => exact .done
    | cons target targets =>
      exact (echo_label target).before <| first.body.then <| ih targets

theorem resounds_switchOn (node : NodeId) (names : List String) {discriminant discriminant' : Lower Unit}
    (discriminants : Resounds E discriminant discriminant')
    (same : functions' = functions.map .bare) :
    Resounds E (switchOn node names discriminant functions parts)
      (switchOn node names discriminant' functions' parts') := by
  subst same
  refine fun Γ => discriminants.then <| echo_storeTemp.step fun value =>
    Echoes.seq (.seq (resounds_scopeOf node _) fun scope => .withScope ?_ scope) fun _ =>
    (echo_freeTemps (by simp)).lift
  exact echo_freshLabel.next fun done => (echo_beginBreakable done names true).before <|
    (resounds_instantiateFunctions functions).then <| (echo_freshLabels h).next fun targets =>
    (echoes_caseTests h (by simp) none targets).seq fun default =>
    (echo_branch (default.getD done)).before <|
    ((resounds_caseBodies h targets _).within (.breakable done names true)).then <|
    echo_endBreakable.before <| (echo_label done).lift

end Cases

theorem Resounds.visiting (h : Resounds E code code') :
    Resounds E (visiting code) (visiting code') :=
  fun _ => .read fun env _ _ _ => .inspect fun a => h.then <| .read fun env' _ _ _ =>
    (echo_noteVisit (a.control env.scope) env'.scope).lift

theorem resounds_labelledBlock (names : List String) {body body' : Lower Unit}
    (h : Resounds E body body') :
    Resounds E (labelledBlock names body) (labelledBlock names body') :=
  fun Γ => echo_freshLabel.next fun done => (echo_beginBreakable done names false).before <|
    ((h Γ).within (.breakable done names false)).then <| echo_endBreakable.before <|
    (echo_label done).lift

/-! ## Protected statements -/

theorem Echoes.copyOf {finalizer finalizer' : Lower Unit} (h : Echoes E Γ finalizer finalizer')
    (region : Nat) (kind : FinalizerKind) (isInlined : Bool) :
    Echoes E Γ (copyOf region kind isInlined finalizer) (copyOf region kind isInlined finalizer') := by
  refine .read fun env _ _ _ => .inspect fun a => ?_
  rw [Assembler.size_code_bare]
  exact (h.within (.finalizer region isInlined)).then <|
    (echo_noteCopy region kind env.scope _).lift

theorem Echoes.rethrowAfter (h : ∀ r, Echoes E ([.temp r] ++ Γ) code code') :
    Echoes E Γ (rethrowAfter code) (rethrowAfter code') :=
  echo_storeTemp.step fun exception => (h exception).then <| (echo_lda (by simp)).before <|
    (echo_plain rfl).before <| (echo_freeTemps (by simp)).lift

section Protected

variable {block block' handler handler' finalizer finalizer' : Lower Unit}
  (h : Resounds E block block') (handles : Resounds E handler handler')
  (finalizes : Resounds E finalizer finalizer')

include h handles in
theorem resounds_tryCatch : Resounds E (tryCatch block handler) (tryCatch block' handler') := by
  refine fun Γ => echo_freshLabel.next fun onThrow => echo_freshLabel.next fun done =>
    (echo_beginTry onThrow).next fun region => h.then <| echo_isTerminated.next fun _ =>
    (echo_endTry region).before ?_
  have rest : Echoes E Γ (do
      label onThrow
      handler
      label done : Lower Unit) (do
      label onThrow
      handler'
      label done) :=
    (echo_label onThrow).before <| handles.then <| (echo_label done).lift
  exact .ite (fun _ => (echo_branch done).before rest) fun _ => rest

include h finalizes in
theorem resounds_tryFinally :
    Resounds E (tryFinally block finalizer) (tryFinally block' finalizer') := by
  refine fun Γ => .read fun env finalizers fieldInit count => ?_
  have same : (env.recast finalizers fieldInit).finalizers.length = env.finalizers.length := count
  rw [same]
  refine echo_freshLabel.next fun onThrow => echo_freshLabel.next fun done =>
    (echo_startBoundary _).before <| (echo_beginTry onThrow).next fun region =>
    .withFinalizer ((finalizes Γ).copyOf region .block true) region .block (h Γ) fun _ =>
    echo_isTerminated.next fun _ => (echo_endTry region).before <| (echo_endBoundary _).before ?_
  have rest : Echoes E Γ (do
      label onThrow
      rethrowAfter (copyOf region .block false finalizer)
      label done : Lower Unit) (do
      label onThrow
      rethrowAfter (copyOf region .block false finalizer')
      label done) :=
    (echo_label onThrow).before <|
      (Echoes.rethrowAfter fun _ => (finalizes _).copyOf region .block false).then <| (echo_label done).lift
  refine .ite (fun _ => Echoes.seq ?_ fun _ => rest) fun _ => rest
  exact ((finalizes Γ).copyOf region .block false).then <| echo_isTerminated.next fun _ =>
    .ite (fun _ => (echo_branch done).lift) fun _ => .done

end Protected

theorem resounds_tryStatement {block block' : Lower Unit} (h : Resounds E block block')
    {handler handler' finalizer finalizer' : Option (Lower Unit)}
    (handles : ResoundsOption E handler handler') (finalizes : ResoundsOption E finalizer finalizer') :
    Resounds E (tryStatement block handler finalizer) (tryStatement block' handler' finalizer') := by
  cases handles with
  | none =>
    cases finalizes with
    | none => exact fun _ => .throw rfl
    | some finalizes => exact resounds_tryFinally h finalizes
  | some handles =>
    cases finalizes with
    | none => exact resounds_tryCatch h handles
    | some finalizes => exact resounds_tryFinally (resounds_tryCatch h handles) finalizes

theorem resounds_catchHandler (node : NodeId) (position : Position) {bind bind' body body' : Lower Unit}
    (binds : Resounds E bind bind') (h : Resounds E body body') :
    Resounds E (catchHandler node position bind body) (catchHandler node .bare bind' body') :=
  fun _ => (resounds_scopeOf node).seq fun scope => .withScope ((echo_atPosition position).before <|
    (echo_enterScope scope).before <| binds.then <| h.then echo_exitScope.lift) scope

/-! ## Iterations -/

theorem resounds_loopSlots (scope : ScopeId) : Resonates E (loopSlots scope) :=
  fun _ => .read fun env _ _ _ => .ask (orBroken (env.tree.scope? scope)) fun _ => .done

section Iterations

variable (scope : ScopeId) (slots : Option (List String))

theorem resounds_pushIteration : Resonates E (pushIteration scope slots) := by
  cases slots with
  | none => exact fun _ => .done
  | some slots =>
    exact fun _ => (resounds_enterEnvironment scope slots).then <| (echo_startBoundary _).lift

theorem echo_popIteration : OwnEcho E Γ (popIteration scope slots) := by
  cases slots with
  | none => exact .done
  | some slots => exact (echo_endBoundary _).then echo_popEnvironment

theorem echo_slotTemps (slots : List String) : OwnEcho E Γ (slotTemps slots) temps := by
  induction slots generalizing Γ with
  | nil => exact .pure nofun
  | cons _ rest ih => exact echo_getTemp.bind fun _ => ih.bind fun _ => .pure (by simp +contextual [or_imp])

theorem echoes_saveSlots {registers : List Register} (own : temps registers ⊆ Γ) (slot : Nat) :
    OwnEchoes E Γ (saveSlots slot registers) := by
  induction registers generalizing slot with
  | nil => exact .done
  | cons r rest ih =>
    obtain ⟨first, others⟩ := List.cons_subset.mp own
    exact (echoes_plainAt _ rfl).then <| (echo_sta first).before <| ih others (slot + 1)

theorem echoes_restoreSlots {registers : List Register} (own : temps registers ⊆ Γ) (slot : Nat) :
    OwnEchoes E Γ (restoreSlots slot registers) := by
  induction registers generalizing slot with
  | nil => exact .done
  | cons r rest ih =>
    obtain ⟨first, others⟩ := List.cons_subset.mp own
    exact (echo_lda first).before <| (echoes_plainAt _ rfl).then <| ih others (slot + 1)

theorem resounds_renewIteration : Resonates E (renewIteration scope slots) := by
  cases slots with
  | none => exact fun _ => .done
  | some slots =>
    exact fun _ => (echo_slotTemps slots).step fun _ =>
      (echoes_saveSlots (List.subset_append_left _ _) 0).then <| echo_popEnvironment.before <|
      (resounds_enterEnvironment scope slots).then <|
      (echoes_restoreSlots (List.subset_append_left _ _) 0).then <|
      (echo_freeTemps (List.subset_append_left _ _)).lift

variable {body body' : Lower Unit} (h : Resounds E body body')

include h

theorem resounds_inIteration :
    Resounds E (inIteration scope slots body) (inIteration scope slots body') := by
  cases slots with
  | none => exact h
  | some _ => exact fun Γ => (h Γ).within (.iteration scope)

omit scope slots in
theorem resounds_loopBody (names : List String) (next : Label) :
    Resounds E (loopBody names next body) (loopBody names next body') :=
  fun Γ => (echo_beginContinuable next names).before <|
    ((h Γ).within (.continuable next names)).then <| echo_endContinuable.before <|
    (echo_label next).lift

theorem resounds_iterationBody (done : Label) (names : List String) (next : Label) :
    Resounds E (within (.breakable done names true) (inIteration scope slots (loopBody names next body)))
      (within (.breakable done names true) (inIteration scope slots (loopBody names next body'))) :=
  fun Γ => (resounds_inIteration scope slots (resounds_loopBody h names next) Γ).within _

theorem echoes_iterate (names : List String) (next : Label) {bind bind' : Lower Unit}
    (binds : Echoes E Γ bind bind') :
    Echoes E Γ (iterate scope slots names next bind body) (iterate scope slots names next bind' body') :=
  (resounds_pushIteration scope slots).then <| binds.then <|
    (resounds_inIteration scope slots (resounds_loopBody h names next)).then <|
    (echo_popIteration scope slots).lift

end Iterations

/-! ## Loops -/

section Loops

variable (node : NodeId) (names : List String) {test test' : Label → Lower Unit}
  (tests : ResoundsTest E test test') {body body' : Lower Unit} (h : Resounds E body body')

include tests h in
theorem resounds_whileLoop :
    Resounds E (whileLoop node names test body) (whileLoop node names test' body') := by
  refine fun Γ => (resounds_scopeOf node).seq fun scope => .withScope ?_ scope
  refine (resounds_loopSlots scope).seq fun slots => echo_freshLabel.next fun start =>
    echo_freshLabel.next fun next => echo_freshLabel.next fun exit => echo_freshLabel.next fun done =>
    (echo_beginBreakable done names true).before <| (echo_label start).before <|
    (resounds_pushIteration scope slots).then <| (tests exit).then <|
    (resounds_iterationBody scope slots h done names next).then ?_
  have rest : Echoes E Γ (do
      branch start
      label exit
      popIteration scope slots
      endBreakable
      label done : Lower Unit) (do
      branch start
      label exit
      popIteration scope slots
      endBreakable
      label done) :=
    (echo_branch start).before <| (echo_label exit).before <|
      (echo_popIteration scope slots).before <| echo_endBreakable.before <| (echo_label done).lift
  exact .ite (fun _ => echo_popEnvironment.before rest) fun _ => rest

include h in
theorem resounds_doWhileLoop {test test' : Lower Unit} (tests : Resounds E test test') :
    Resounds E (doWhileLoop node names body test) (doWhileLoop node names body' test') := by
  refine fun Γ => (resounds_scopeOf node).seq fun scope => .withScope ?_ scope
  exact (resounds_loopSlots scope).seq fun slots => echo_freshLabel.next fun start =>
    echo_freshLabel.next fun next => echo_freshLabel.next fun done =>
    (echo_beginBreakable done names true).before <| (echo_label start).before <|
    (resounds_pushIteration scope slots).then <|
    (resounds_iterationBody scope slots h done names next).then <| tests.then <|
    (echo_popIteration scope slots).before <| (echo_jumpIfTrue start).before <|
    echo_endBreakable.before <| (echo_label done).lift

include tests h in
theorem resounds_forLoop {init init' update update' : Lower Unit} (inits : Resounds E init init')
    (updates : Resounds E update update') :
    Resounds E (forLoop node names init test update body) (forLoop node names init' test' update' body') := by
  refine fun Γ => (resounds_scopeOf node).seq fun scope => .withScope ?_ scope
  exact (resounds_loopSlots scope).seq fun slots => echo_freshLabel.next fun start =>
    echo_freshLabel.next fun next => echo_freshLabel.next fun exit => echo_freshLabel.next fun done =>
    (echo_beginBreakable done names true).before <| (resounds_pushIteration scope slots).then <|
    inits.then <| (echo_label start).before <| (tests exit).then <|
    (resounds_iterationBody scope slots h done names next).then <|
    (resounds_renewIteration scope slots).then <| updates.then <| (echo_branch start).before <|
    (echo_label exit).before <| (echo_popIteration scope slots).before <|
    echo_endBreakable.before <| (echo_label done).lift

variable (scope : ScopeId) {bind bind' : Register → Lower Unit} (binds : EchoesOn E bind bind')

include h binds

theorem resounds_forInLoop :
    Resounds E (forInLoop scope names bind body) (forInLoop scope names bind' body') :=
  fun _ => (resounds_loopSlots scope).seq fun slots => echo_freshLabel.next fun start =>
    echo_freshLabel.next fun next => echo_freshLabel.next fun done => echo_getTemp.step fun iterator =>
    echo_getTemp.step fun key => (echo_plain rfl).before <| (echo_sta (by simp)).before <|
    (echo_beginBreakable done names true).before <| (echo_label start).before <|
    (echo_emit [.temp iterator] rfl (by simp)).before <| (echo_sta (by simp)).before <|
    (echo_constant _).before <| (echo_binary _ (by simp)).before <| (echo_plain rfl).before <|
    (Echoes.within (echoes_iterate scope slots h names next (binds _ key (by simp))) _).then <|
    (echo_branch start).before <| echo_endBreakable.before <| (echo_label done).before <|
    (echo_freeTemps (by simp)).lift

omit h binds in
theorem echoes_protectedIteration (onThrow start : Label) {iterator : Register}
    (own : .temp iterator ∈ Γ) {iteration iteration' : Lower Unit}
    (iterates : Echoes E Γ iteration iteration') :
    Echoes E Γ (protectedIteration onThrow start iterator iteration)
      (protectedIteration onThrow start iterator iteration') := by
  have closes (Δ : List Resource) (own : .temp iterator ∈ Δ) :
      Echoes E Δ (emit (.closeIterator iterator) : Lower Unit) (emit (.closeIterator iterator)) :=
    (echo_emit [.temp iterator] rfl (by simp [own])).lift
  exact (echo_beginTry onThrow).next fun region =>
    .withFinalizer ((closes Γ own).copyOf region (.closing iterator) true) region (.closing iterator)
      iterates fun _ =>
    (echo_endTry region).before <| (echo_branch start).before <| (echo_label onThrow).before <|
    .rethrowAfter fun _ => (closes _ (by simp [own])).copyOf region (.closing iterator) false

theorem resounds_forOfLoop :
    Resounds E (forOfLoop scope names bind body) (forOfLoop scope names bind' body') := by
  refine fun Γ => (resounds_loopSlots scope).seq fun slots => echo_freshLabel.next fun start =>
    echo_freshLabel.next fun continuation => echo_freshLabel.next fun onThrow =>
    echo_freshLabel.next fun done => echo_getTemp.step fun iterator => echo_getTemp.step fun next =>
    echo_getTemp.step fun result => echo_getTemp.step fun value =>
    Echoes.then (.of_leads [iterator, next] (by simp) fun _ =>
      Judgement.keeps_startIteration (by simp) (by simp)) <| (echo_beginBreakable done names true).before <|
    .read fun env finalizers fieldInit count => ?_
  have same : (env.recast finalizers fieldInit).finalizers.length = env.finalizers.length := count
  rw [same]
  exact (echo_startBoundary _).before <| (echo_label start).before <|
    Echoes.then (.of_leads [iterator, next, result] (by simp) fun _ =>
      Judgement.keeps_callNext (by simp) (by simp) (by simp)) <| (echo_jumpIfTrue done).before <|
    (echo_loadProperty (by simp) (by simp [KeyOperand.temps])).before <| (echo_sta (by simp)).before <|
    (Echoes.within (echoes_protectedIteration onThrow start (by simp)
      (echoes_iterate scope slots h names continuation (binds _ value (by simp)))) _).then <|
    (echo_endBoundary _).before <| echo_endBreakable.before <| (echo_label done).before <|
    (echo_freeTemps (by simp)).lift

end Loops

theorem resounds_collectionLoop (node : NodeId) {source source' : Lower Unit}
    (sources : Resounds E source source') {run run' : ScopeId → Lower Unit}
    (h : ∀ scope, Resounds E (run scope) (run' scope)) :
    Resounds E (collectionLoop node source run) (collectionLoop node source' run') :=
  fun Γ => (resounds_scopeOf node).seq fun scope => sources.then <| (h scope Γ).withScope scope

end AccScript
