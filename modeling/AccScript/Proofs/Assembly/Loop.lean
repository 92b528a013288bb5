import AccScript.Proofs.Assembly.Branch

/-!
# Loops

A loop marks the label that it jumps back to.  What it binds and runs in an iteration may be inside
of one more environment.
-/

namespace AccScript

open Asm Lower

variable {G : Guard} {σ : Stage} {env : Env} {watched : Prop} {body : Lower Unit}
  {slots : Option (List String)} {bind : Register → Lower Unit} (node : NodeId)

/-! ## Environments of iterations -/

/-- The boundary of an iteration that owns an environment. -/
def slotBoundaries (scope : ScopeId) : Option (List String) → List Boundary
  | some _ => [.environment scope]
  | none => []

theorem Suits.mark (h : Suits watched env σ) (index : Nat) {l : Label}
    (here : σ.labels[index]? = some l) : Suits watched env (σ.mark index l) := by
  refine h.mono rfl rfl rfl (List.Subset.refl _) (List.Subset.refl _) fun l' known => ?_
  rcases known with waits | placed
  · rcases List.mem_cons.mp ((perm_of_getElem? here).mem_iff.mp waits) with rfl | waits
    · exact .inr (.head _)
    · exact .inl waits
  · exact .inr (.tail _ placed)

theorem neutral_enterEnvironment (scope : ScopeId) (slotNames : List String) :
    Neutral (enterEnvironment scope slotNames env) := by
  intro G σ
  have instruction : Neutral (environmentInstruction slotNames) := fun G σ => .get fun _ _ =>
    .ite (fun _ => (neutral_addLiteral _).bind fun _ => Neutral.pure _ G σ) fun _ =>
      Neutral.pure _ G σ
  refine (instruction G σ).step_of (P := fun i => i.isInert = true) (fun i a b run => ?_)
    fun i inert => neutral_emitAt inert rfl G σ
  rw [environmentInstruction, StateT.run_bind, StateT.run_get, pure_bind] at run
  split at run <;> cases run <;> rfl

theorem neutral_loopSlots (scope : ScopeId) : Neutral (loopSlots scope env) :=
  fun G σ => .read <| (neutral_orBroken env _).follow fun _ => Neutral.pure _ G σ

theorem flows_pushIteration (scope : ScopeId) (slots : Option (List String)) :
    Flows G σ (pushIteration scope slots env) fun _ => σ.enter (slotBoundaries scope slots) := by
  cases slots with
  | none => exact Neutral.pure () G σ
  | some slots =>
    exact (neutral_enterEnvironment scope slots).then <|
      flows_startBoundary (.environment scope) nofun

theorem flows_popIteration (scope : ScopeId) (slots : Option (List String)) :
    Flows G (σ.enter (slotBoundaries scope slots)) (popIteration scope slots) fun _ => σ := by
  cases slots with
  | none => exact Neutral.pure () G σ
  | some slots =>
    exact (flows_endBoundary (.environment scope) nofun).seq <| neutral_popEnvironment G σ

theorem flows_slotTemps (slots : List String) :
    Flows G σ (slotTemps slots) fun rs => σ.hold rs.reverse := by
  induction slots generalizing σ with
  | nil => exact .pure (υ := fun rs => σ.hold rs.reverse) []
  | cons slot rest ih =>
    refine flows_getTemp.bind fun r => ih.bind fun rs => ?_
    rw [Stage.hold_hold, ← List.reverse_cons]
    exact .pure (υ := fun rs => σ.hold rs.reverse) (r :: rs)

theorem flows_saveSlots {temps : List Register} (own : ∀ r ∈ temps, r ∈ σ.temps) (slot : Nat) :
    Flows G σ (saveSlots slot temps env) fun _ => σ := by
  induction temps generalizing slot with
  | nil => exact Neutral.pure () G σ
  | cons r rest ih =>
    obtain ⟨first, others⟩ := List.forall_mem_cons.mp own
    exact Neutral.follow (neutral_emitAt rfl rfl) fun _ => (flows_sta first).before <|
      ih others (slot + 1)

theorem flows_restoreSlots {temps : List Register} (own : ∀ r ∈ temps, r ∈ σ.temps) (slot : Nat) :
    Flows G σ (restoreSlots slot temps env) fun _ => σ := by
  induction temps generalizing slot with
  | nil => exact Neutral.pure () G σ
  | cons r rest ih =>
    obtain ⟨first, others⟩ := List.forall_mem_cons.mp own
    exact (flows_lda first).before <| Neutral.follow (neutral_emitAt rfl rfl) fun _ =>
      ih others (slot + 1)

theorem neutral_renewIteration (scope : ScopeId) (slots : Option (List String)) :
    Neutral (renewIteration scope slots env) := by
  intro G σ
  cases slots with
  | none => exact Neutral.pure () G σ
  | some slots =>
    refine (flows_slotTemps slots).step fun temps => ?_
    have own : ∀ r ∈ temps, r ∈ (σ.hold temps.reverse).temps := by simp +contextual
    exact (flows_saveSlots own 0).then <| neutral_popEnvironment.before <|
      (neutral_enterEnvironment scope slots).then <| (flows_restoreSlots own 0).then <|
      flows_freeHeld (List.reverse_perm temps)

theorem flows_inIteration (suits : Suits G.watched env σ) {scope : ScopeId}
    {code : Lower Unit} {τ : Unit → Stage}
    (h : ∀ env, Suits G.watched env (σ.enter (slotBoundaries scope slots)) →
      Flows G (σ.enter (slotBoundaries scope slots)) (code env) τ) :
    Flows G (σ.enter (slotBoundaries scope slots)) (inIteration scope slots code env) τ := by
  cases slots with
  | none => exact h env suits
  | some slots => exact h _ (suits.iteration scope)

/-! ## Bodies -/

section Body

variable (names : List String) {next : Label} {body : Lower Unit} (settles : Settles body)
  (suits : Suits G.watched env σ) (index : Nat) (here : σ.labels[index]? = some next)

include settles suits here

theorem flows_loopBody : Flows G σ (loopBody names next body env) fun _ => σ.place index := by
  have inside := suits.continuable (.inl (List.mem_of_getElem? here)) names
  exact (flows_beginContinuable next names).before <|
    Flows.follow (m := within _ body) (settles _ G _ inside) fun _ =>
    flows_endContinuable.before <| flows_label index here

theorem flows_iterationBody (scope : ScopeId) (slots : Option (List String)) :
    Flows G (σ.enter (slotBoundaries scope slots))
      (inIteration scope slots (loopBody names next body) env)
      fun _ => (σ.place index).enter (slotBoundaries scope slots) :=
  flows_inIteration suits fun _ inside => flows_loopBody names settles inside index here

theorem flows_iterate (scope : ScopeId) (slots : Option (List String)) {bind : Lower Unit}
    (binds : Flows G (σ.enter (slotBoundaries scope slots)) (bind env)
      fun _ => σ.enter (slotBoundaries scope slots)) :
    Flows G σ (iterate scope slots names next bind body env) fun _ => σ.place index :=
  (flows_pushIteration scope slots).then <| binds.then <|
    (flows_iterationBody names settles suits index here scope slots).then <|
    flows_popIteration scope slots

end Body

/-! ## Loops on a condition -/

theorem flows_leaveLoop {start exit done : Label} {names : List String} {scope : ScopeId}
    (known : σ.Knows start) :
    Flows G (((σ.expect exit).expect done).breakable done names true |>.enter
        (slotBoundaries scope slots)) ((do
      branch start
      label exit
      popIteration scope slots
      endBreakable
      label done : Lower Unit) env) fun _ => σ := by
  have known' : (((σ.expect exit).expect done).breakable done names true |>.enter
      (slotBoundaries scope slots)).Knows start :=
    known.imp (fun mem => List.mem_cons_of_mem _ (.tail _ mem)) id
  exact (flows_branch known').before <| (flows_label 1 rfl).before <|
    Flows.step (flows_popIteration (σ := (σ.expect done).breakable done names true) scope slots)
      fun _ => flows_endBreakable.before <| flows_label 0 rfl

theorem settles_whileLoop
    (names : List String) {test : Label → Lower Unit} (tests : TameTest test)
    (h : Settles body) : Settles (whileLoop node names test body) := by
  intro env G σ suits
  refine (neutral_scopeOf node).follow fun scope => .withScope ?_
  have suits := suits.withScope scope
  refine (neutral_loopSlots scope).follow fun slots => flows_freshLabel.step fun start =>
    .forget start <| flows_freshLabel.step fun next => flows_freshLabel.step fun exit =>
    flows_freshLabel.step fun done => (flows_beginBreakable done names true).before <|
    (flows_mark 3 rfl).before <| (flows_pushIteration scope slots).then <|
    Flows.follow (tests _ suits.fields exit G _ (by simp [Stage.Knows])) fun _ => ?_
  have around := (((suits.expect start).expect next).expect exit).expect done
  have inside := (around.breakable (l := done) (.inl (.head _)) names true).mark 3
    (l := start) rfl
  refine Flows.follow (m := within _ _) (flows_iterationBody names h inside 2 rfl scope slots) fun _ => ?_
  have known : (σ.know start).Knows start := .inr (.head _)
  refine .choose (fun _ => ?_) fun _ => flows_leaveLoop known
  exact neutral_popEnvironment.before <| flows_leaveLoop known

theorem settles_doWhileLoop
    (names : List String) {body test : Lower Unit} (h : Settles body)
    (tests : Tame test) : Settles (doWhileLoop node names body test) := by
  intro env G σ suits
  refine (neutral_scopeOf node).follow fun scope => .withScope ?_
  have suits := suits.withScope scope
  refine (neutral_loopSlots scope).follow fun slots => flows_freshLabel.step fun start =>
    .forget start <| flows_freshLabel.step fun next => flows_freshLabel.step fun done =>
    (flows_beginBreakable done names true).before <| (flows_mark 2 rfl).before <|
    (flows_pushIteration scope slots).then ?_
  have around := ((suits.expect start).expect next).expect done
  have inside := (around.breakable (l := done) (.inl (.head _)) names true).mark 2
    (l := start) rfl
  have after : ((σ.know start).expect done |>.breakable done names true).Knows start :=
    .inr (.head _)
  exact Flows.follow (m := within _ _) (flows_iterationBody names h inside 1 rfl scope slots) fun _ =>
    (tests _ suits.fields).then <| (flows_popIteration scope slots).before <|
    (flows_jumpIfTrue after).before <| flows_endBreakable.before <| flows_label 0 rfl

theorem settles_forLoop
    (names : List String) {init : Lower Unit} (inits : Tame init)
    {test : Label → Lower Unit} (tests : TameTest test) {update body : Lower Unit}
    (updates : Tame update) (h : Settles body) :
    Settles (forLoop node names init test update body) := by
  intro env G σ suits
  refine (neutral_scopeOf node).follow fun scope => .withScope ?_
  have suits := suits.withScope scope
  refine (neutral_loopSlots scope).follow fun slots => flows_freshLabel.step fun start =>
    .forget start <| flows_freshLabel.step fun next => flows_freshLabel.step fun exit =>
    flows_freshLabel.step fun done => (flows_beginBreakable done names true).before <|
    (flows_pushIteration scope slots).then <| (inits _ suits.fields).then <|
    (flows_mark 3 rfl).before <|
    Flows.follow (tests _ suits.fields exit G _ (by simp [Stage.Knows])) fun _ => ?_
  have around := (((suits.expect start).expect next).expect exit).expect done
  have inside := (around.breakable (l := done) (.inl (.head _)) names true).mark 3
    (l := start) rfl
  have known : (σ.know start).Knows start := .inr (.head _)
  exact Flows.follow (m := within _ _) (flows_iterationBody names h inside 2 rfl scope slots) fun _ =>
    (neutral_renewIteration scope slots).then <| (updates _ suits.fields).then <|
    flows_leaveLoop known

/-! ## Loops over a collection -/

theorem settles_forInLoop (scope : ScopeId) (names : List String)
    (binds : TameBinding bind) (h : Settles body) :
    Settles (forInLoop scope names bind body) := by
  intro env G σ suits
  refine (neutral_loopSlots scope).follow fun slots => flows_freshLabel.step fun start =>
    .forget start <| flows_freshLabel.step fun next => flows_freshLabel.step fun done =>
    flows_getTemp.step fun iterator => flows_getTemp.step fun key => (neutral_emit rfl).before <|
    (flows_sta (by simp)).before <| (flows_beginBreakable done names true).before <|
    (flows_mark 2 rfl).before <| Flows.step (flows_use [iterator] (by simp) rfl rfl rfl) fun _ =>
    (flows_sta (by simp)).before <| (neutral_constant _).before <|
    (flows_binary _ (by simp)).before <|
    Flows.step (flows_jump done (by simp [Stage.Knows]) rfl rfl rfl) fun _ => ?_
  have around := ((((suits.expect start).expect next).expect done).hold [iterator]).hold [key]
  have inside := (around.breakable (l := done) (.inl (.head _)) names true).mark 2
    (l := start) rfl
  have iteration := flows_iterate names h inside 1 rfl scope slots
    (binds _ inside.fields key G _ (by simp))
  have after : ((((σ.know start).expect done).hold [iterator]).hold [key] |>.breakable done names
      true).Knows start := .inr (.head _)
  exact Flows.follow (m := within _ _) iteration fun _ => (flows_branch after).before <|
    flows_endBreakable.before <| (flows_label 0 rfl).before <|
    flows_freeTemps 2 (List.Perm.swap iterator key [])

theorem flows_closeIterator {iterator : Register} (own : iterator ∈ σ.temps) :
    Flows G σ (emit (.closeIterator iterator)) fun _ => σ :=
  flows_use [iterator] (by simpa using own) rfl rfl rfl

theorem flows_protectedIteration
    {done onThrow continuation : Label} {rest : List Label} (start : Label) {iterator : Register}
    (iteration : Lower Unit) (suits : Suits G.watched env σ) (own : iterator ∈ σ.temps)
    (labels : σ.labels = done :: onThrow :: continuation :: rest) (marked : start ∈ σ.placed)
    (h : ∀ env τ, τ.labels = σ.labels → σ.temps ⊆ τ.temps → Suits G.watched env τ →
      Flows G τ (iteration env) fun _ => τ.place 2) :
    Flows G (σ.enter [.finalizer env.finalizers.length])
      (protectedIteration onThrow start iterator iteration env)
      fun _ => ((σ.place 2).place 1).enter [.finalizer env.finalizers.length] := by
  refine (flows_beginTry (by simp [Stage.Knows, labels])).step fun region =>
    .given (fun _ sound w => sound.region_not_mem w) fun apart => .unmake region ?_
  have outside : G.watched → .region region ∉ σ.boundaries :=
    fun w mem => apart w (.tail _ mem)
  have closes : ∀ (G : Guard) (τ : Stage), σ.temps ⊆ τ.temps →
      Suits G.watched { env with enclosing := .finalizer region true :: env.enclosing } τ →
      Flows G τ (within (.finalizer region true) (emit (.closeIterator iterator)) env) fun _ => τ :=
    fun _ _ temps _ => flows_closeIterator (temps own)
  have inside := (suits.make region).guarded (.head _) outside
    (.closing iterator) (fun r same => by cases same; rfl) closes
  refine .close <| Flows.follow (m := withFinalizer region (.closing iterator) _ iteration)
    (h _ _ rfl (List.Subset.refl _) inside) fun _ =>
    Flows.step (flows_endTry (σ := ((σ.make region).place 2).enter
      [.finalizer env.finalizers.length])) fun _ =>
    (flows_branch (by simp [Stage.Knows, marked])).before <|
    Flows.step (flows_label 1 ?_) fun _ => ?_
  · simp [labels]
  · refine flows_rethrowAfter fun r => flows_copyOf (.head _) ?_ (fun r same => by cases same; rfl) ?_
    · exact apart
    · refine flows_closeIterator ?_
      simp [own]

theorem settles_forOfLoop (scope : ScopeId) (names : List String)
    (binds : TameBinding bind) (h : Settles body) :
    Settles (forOfLoop scope names bind body) := by
  intro env G σ suits
  refine (neutral_loopSlots scope).follow fun slots => flows_freshLabel.step fun start =>
    .forget start <| flows_freshLabel.step fun continuation => flows_freshLabel.step fun onThrow =>
    flows_freshLabel.step fun done => flows_getTemp.step fun iterator =>
    flows_getTemp.step fun next => flows_getTemp.step fun result => flows_getTemp.step fun value =>
    Flows.step (Judgement.keeps_startIteration (J := flowing) (by simp) (by simp) suits.fields G) fun _ =>
    (flows_beginBreakable done names true).before <| .read <|
    (flows_startBoundary (.finalizer env.finalizers.length) nofun).before <|
    (flows_mark 3 rfl).before <| Flows.step (Judgement.keeps_callNext (J := flowing) (by simp) (by simp) (by simp) suits.fields G) fun _ =>
    (flows_jumpIfTrue (by simp [Stage.Knows])).before <|
    (flows_loadProperty (by simp) (by simp [KeyOperand.temps])).before <|
    (flows_sta (by simp)).before ?_
  have around := (((((((suits.expect start).expect continuation).expect onThrow).expect done).hold
    [iterator]).hold [next]).hold [result]).hold [value]
  have inside := (around.breakable (l := done) (.inl (.head _)) names true).mark 3
    (l := start) rfl
  have iteration := flows_protectedIteration start
    (iterate scope slots names continuation (bind value) body) inside
    (List.mem_append_right [value, result, next] List.mem_cons_self) rfl (.head _)
    fun env τ labels temps suits => flows_iterate names h suits 2 (by rw [labels]; rfl) scope slots
      (binds env suits.fields value G _ (temps (by simp)))
  exact Flows.follow (m := within _ _) iteration fun _ =>
    (flows_endBoundary (.finalizer env.finalizers.length) nofun).before <|
    Flows.step (flows_endBreakable (σ := ((((((σ.know start).expect done).hold [iterator]).hold
      [next]).hold [result]).hold [value]))) fun _ => (flows_label 0 rfl).before <|
    flows_freeTemps 4 (List.reverse_perm [iterator, next, result, value])

theorem settles_collectionLoop
    {source : Lower Unit} (sources : Tame source) {run : ScopeId → Lower Unit}
    (h : ∀ scope, Settles (run scope)) : Settles (collectionLoop node source run) :=
  fun env G σ suits => (neutral_scopeOf node).follow fun scope =>
    (sources env suits.fields).then <| .withScope (h scope _ G σ (suits.withScope scope))

end AccScript
