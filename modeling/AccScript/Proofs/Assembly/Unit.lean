import AccScript.Proofs.Assembly.Statement

/-!
# Units in assembly

The code of a unit starts with nothing in hand and ends so.  At its top no temporary is live, so
the check after each statement never fails.  The last instruction of a unit never goes on to the
next one.
-/

namespace AccScript

open Asm Lower

variable {G : Guard} {σ : Stage} {env : Env} {code : Lower Unit} (v : VariableId)

/-! ## The prologue -/

theorem neutral_unitVariableScope : Neutral (unitVariableScope env) :=
  fun G σ => .read (neutral_orBroken env _ G σ)

theorem neutral_copyCaptured : Neutral (copyCaptured v env) := by
  refine fun G σ => (neutral_variableData v).follow fun data => ?_
  cases data.slot with
  | none => exact Neutral.pure () G σ
  | some slot =>
    have copied : Flows G σ ((registerFor v >>= lda) >>= fun _ => storeSlotOf v 0 slot env)
        fun _ => σ :=
      (neutral_loadRegister v).seq <| neutral_emitAt rfl rfl G σ
    rw [bind_assoc] at copied
    exact copied

theorem Neutral.forM {α : Type} {f : α → Lower Unit} {items : List α}
    (h : ∀ x ∈ items, Neutral (f x env)) : Neutral (items.forM f env) := by
  induction items with
  | nil => exact .pure ()
  | cons x rest ih =>
    have others := ih fun y mem => h y (.tail _ mem)
    exact fun G σ => (h x (.head _)).then <| others G σ

theorem neutral_bindParameters : Neutral (bindParameters env) := by
  refine fun G σ => .read (neutral_unitVariableScope.follow fun data => ?_)
  have binds : Neutral ((data.parameters.forM fun v => do
      let _ ← bindParameter v : Lower Unit) env) :=
    .forM fun v _ G σ => (neutral_bindParameter v).before <| Neutral.pure () G σ
  have copies : Neutral (Lower.sequence (data.parameters.map copyCaptured) env) := by
    refine .sequence fun code mem => ?_
    obtain ⟨v, -, rfl⟩ := List.mem_map.mp mem
    exact neutral_copyCaptured v
  refine binds.then <| (neutral_orBroken env _).follow fun scope => ?_
  cases scope.env.filter LexicalEnv.isNeeded with
  | none => exact copies G σ
  | some slots => exact (neutral_enterEnvironment _ slots.slotNames).then <| copies G σ

theorem tame_hoistDeclarations (statements : List Statement) : Tame (hoistDeclarations statements) :=
  .of_steady fun _ => Judgement.steady_hoistDeclarations (fun _ _ _ => neutral_resolveName _)
    fun _ _ _ _ _ => ⟨trivial, fun _ _ => neutral_resolveName _⟩

/-! ## Bodies -/

/-- Nothing is in hand: no temporary is live. -/
def Guard.AtRest (G : Guard) (σ : Stage) : Prop :=
  σ.temps ++ G.kept = []

theorem flows_topStatement
    (rest : G.AtRest σ) (suits : Suits G.watched env σ) (statement : Statement) :
    Flows G σ (topStatement statement env) fun _ => σ := by
  refine (statement.lower_settles env G σ suits).then <| .inspect fun a sound => ?_
  have none : a.liveTemps = 0 := by
    rw [sound.allocates.count, (sound.allocates.live.trans (.of_eq rest)).length_eq]
    rfl
  refine .choose (fun live => absurd none live) fun _ => Neutral.pure () G σ

theorem flows_topStatements
    (rest : G.AtRest σ) (suits : Suits G.watched env σ) (statements : List Statement) :
    Flows G σ (topStatements statements env) fun _ => σ := by
  unfold topStatements
  induction statements with
  | nil => exact Neutral.pure () G σ
  | cons statement others ih =>
    exact (flows_topStatement rest suits statement).then ih

theorem tame_returnThis : Tame returnThis := by
  refine fun env fields G σ => (tame_loadVariable _ env fields).then <| .read ?_
  exact .choose (fun _ => (neutral_emit rfl).before <| neutral_emit rfl G σ) fun _ =>
    neutral_emit rfl G σ

theorem tame_fallOff (kind : FunctionKind) : Tame (fallOff kind) :=
  fun env fields G σ => neutral_isTerminated.step fun _ => Neutral.choose
    (.choose (tame_returnThis env fields) (neutral_emit rfl)) (.pure ()) G σ

theorem flows_unitFrame (h : Flows G σ (code env) fun _ => σ) :
    Flows G σ (unitFrame code env) fun _ => σ :=
  (neutral_setOrigin _).before <| neutral_bindParameters.then <| .read <| h.visibly _

/-! ## Programs -/

theorem flows_programBody (rest : G.AtRest σ) (suits : Suits G.watched env σ) (program : Program) :
    Flows G σ (programBody program env) fun _ => σ := by
  have body : Flows G σ ((do
      hoistDeclarations program.statements
      topStatements program.statements
      if !(← isTerminated) then emit .returnUndefined : Lower Unit) env) fun _ => σ :=
    (tame_hoistDeclarations _ env suits.fields).then <|
      (flows_topStatements rest suits _).then <| neutral_isTerminated.step fun _ =>
      Neutral.choose (neutral_emit rfl) (.pure ()) G σ
  refine .read ?_
  cases env.survey.moduleRecord with
  | none => exact body
  | some record =>
    exact (Judgement.steady_bindNamespaces (J := flowing) (fun _ => neutral_resolveName _) 0
      record.namespaceImports σ suits.fields G).then body

/-! ## Functions -/

theorem tame_bindOwnName (f : FunctionNode) : Tame (bindOwnName f) :=
  .of_steady fun _ => Judgement.steady_bindOwnName (fun _ v _ => neutral_localResolution v) f
    fun _ => neutral_resolveName _

theorem tame_bindArguments : Tame bindArguments :=
  .of_steady fun _ => Judgement.steady_bindArguments fun _ v _ => neutral_localResolution v

theorem tame_initializeParameters (parameters : List Parameter) :
    Tame (initializeParameters parameters) := by
  refine .of_steady fun env => Judgement.steady_initializeParameters (J := flowing)
    (fun data _ => ⟨fun v _ => neutral_localResolution v, fun _ _ _ _ => ?_⟩) fun p _ => ?_
  · exact .throw (Failure.not_blames_internal (c := 'f') (by simp) rfl)
  · exact ⟨False.elim, p.target.surveyed_blank _, Expr.surveyedOption_blank _ _⟩

theorem tame_ownFields (f : FunctionNode) (owner : Option ClassNode) : Tame (ownFields f owner) := by
  intro env fields
  unfold ownFields
  cases f.kind with
  | constructor =>
    cases owner with
    | none => exact .pure ()
    | some c =>
      exact fun G σ => .read (Neutral.choose (c.initializeFields_neutral fields) (.pure ()) G σ)
  | _ => exact .pure ()

theorem flows_functionBody (rest : G.AtRest σ) (suits : Suits G.watched env σ) (f : FunctionNode)
    (owner : Option ClassNode) : Flows G σ (functionBody f owner env) fun _ => σ := by
  unfold functionBody
  cases f.body with
  | expression value =>
    exact (value.lower_tame env suits.fields).then <| neutral_emit rfl G σ
  | block block =>
    refine (tame_hoistDeclarations _ env suits.fields).then <|
      (tame_ownFields f owner env suits.fields).then <| Flows.follow (τ := fun _ => σ) ?_
      fun _ => tame_fallOff f.kind env suits.fields G σ
    exact (neutral_scopeOf block.id).follow fun scope => .withScope <|
      (flows_topStatements rest (suits.withScope scope) block.statements).visibly scope

theorem flows_functionCode (rest : G.AtRest σ) (suits : Suits G.watched env σ) (f : FunctionNode)
    (owner : Option ClassNode) : Flows G σ (functionCode f owner env) fun _ => σ :=
  (tame_bindOwnName f env suits.fields).then <| (tame_bindArguments env suits.fields).then <|
    (tame_initializeParameters f.parameters env suits.fields).then <|
    flows_functionBody rest suits f owner

/-! ## Default constructors -/

theorem tame_forwardArguments : Tame forwardArguments :=
  .of_steady fun _ => Judgement.steady_forwardArguments (fun _ _ v _ => neutral_localResolution v)
    False.elim False.elim

theorem tame_defaultConstructorBody (c : ClassNode) : Tame (defaultConstructorBody c) := by
  refine fun env fields G σ => (neutral_atPosition c.position).before ?_
  exact .choose (fun _ => (tame_forwardArguments env fields).then <|
    tame_returnThis env fields G σ) fun _ => (c.initializeFields_neutral fields).then <|
    tame_returnThis env fields G σ

/-! ## Units -/

theorem neutral_fieldInitOf (owner : Option ClassNode) : Neutral (fieldInitOf owner env) := by
  cases owner with
  | none => exact .pure ()
  | some c =>
    have unmet : Neutral (throw .unmet : Code) := fun _ _ => .throw Failure.not_blames_unmet
    exact @ClassNode.initializeFields_neutral { env with fieldInit := throw .unmet } unmet c

theorem flows_unitCode
    (rest : G.AtRest σ) (suits : Suits G.watched env σ) (program : Program) (source : UnitSource) :
    Flows G σ (unitCode program source env) fun _ => σ := by
  cases source with
  | program => exact flows_unitFrame (flows_programBody rest suits program)
  | function f owner isStrict => exact flows_unitFrame (flows_functionCode rest suits f owner)
  | defaultConstructor owner id =>
    exact flows_unitFrame (tame_defaultConstructorBody owner env suits.fields G σ)

/-! ## The last instruction -/

/-- After the code, control does not go on. -/
def Stops (m : Asm Unit) : Prop :=
  ∀ a b, m.run a = .ok ((), b) → b.isTerminated = true

theorem Stops.after {α : Type} {m : Lower α} {f : α → Lower Unit} (h : ∀ x, Stops (f x env)) :
    Stops ((m >>= f) env) := by
  intro a b run
  have split : (m env >>= fun x => f x env).run a = .ok ((), b) := run
  rw [StateT.run_bind] at split
  cases first : (m env).run a with
  | error failure =>
    rw [first] at split
    cases split
  | ok result =>
    rw [first] at split
    exact h result.1 result.2 b split

theorem stops_emit {i : Instruction} (h : i.isTerminator = true) : Stops (emit i) := by
  rintro a b ⟨⟩
  simpa [Assembler.isTerminated] using h

theorem stops_unlessTerminated (h : Stops (code env)) :
    Stops ((do if !(← isTerminated) then code : Lower Unit) env) := by
  intro a b run
  have chosen : (if !a.isTerminated then code else pure () : Lower Unit) env a = .ok ((), b) := run
  cases stopped : a.isTerminated with
  | true =>
    rw [stopped] at chosen
    cases chosen
    exact stopped
  | false =>
    rw [stopped] at chosen
    exact h a b chosen

theorem stops_returnThis : Stops (returnThis env) := by
  refine .after fun _ => .after fun _ => ?_
  have finish : Stops ((emit .return : Lower Unit) env) := stops_emit rfl
  split
  · exact .after fun _ => finish
  · exact finish

theorem stops_fallOff (kind : FunctionKind) : Stops (fallOff kind env) := by
  refine stops_unlessTerminated ?_
  split
  · exact stops_returnThis
  · exact stops_emit rfl

theorem stops_unitFrame (h : Stops (code env)) : Stops (unitFrame code env) := by
  refine .after fun _ => .after fun _ => .after fun _ => .after fun _ => ?_
  intro a b run
  have split : (code env >>= fun _ => exitScope).run a = .ok ((), b) := run
  rw [StateT.run_bind] at split
  cases first : (code env).run a with
  | error failure =>
    rw [first] at split
    cases split
  | ok result =>
    rw [first] at split
    have same : b.code = result.2.code := by
      cases split
      dsimp only
      split
      · split <;> rfl
      · rfl
    rw [Assembler.isTerminated, same]
    exact h a result.2 first

theorem stops_unitCode (program : Program) (source : UnitSource) :
    Stops (unitCode program source env) := by
  cases source with
  | program =>
    refine stops_unitFrame (.after fun env' => ?_)
    have finish : Stops ((do if !(← isTerminated) then emit .returnUndefined : Lower Unit) env) :=
      stops_unlessTerminated (stops_emit rfl)
    cases env'.survey.moduleRecord with
    | some record => exact .after fun _ => .after fun _ => .after fun _ => finish
    | none => exact .after fun _ => .after fun _ => finish
  | function f owner isStrict =>
    refine stops_unitFrame (.after fun _ => .after fun _ => .after fun _ => ?_)
    unfold functionBody
    cases f.body with
    | block block => exact .after fun _ => .after fun _ => .after fun _ => stops_fallOff f.kind
    | expression value => exact .after fun _ => stops_emit rfl
  | defaultConstructor owner id =>
    refine stops_unitFrame (.after fun _ => ?_)
    split
    · exact .after fun _ => stops_returnThis
    · exact .after fun _ => stops_returnThis

end AccScript
