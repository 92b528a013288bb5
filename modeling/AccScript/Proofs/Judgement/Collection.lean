import AccScript.Proofs.Judgement.Pattern

/-!
# Literals, templates and calls

The temporaries of arrays, objects and arguments are given back in the end, whatever their number.
-/

namespace AccScript

open Asm Lower

def Lower.Callee.temps (callee : Callee) : List Register :=
  callee.function :: callee.receiver.toList

theorem Instruction.registers_arguments (arguments : List Register) :
    (arguments.map Operand.register).filterMap Operand.register? = arguments := by
  rw [List.filterMap_map]
  exact List.filterMap_some

theorem needs_eq_temps {i : Instruction} {rs : List Register} (registers : i.registers = rs)
    (strings : i.strings = []) (literal : i.literal? = none) : i.needs = temps rs := by
  simp [Instruction.needs, registers, strings, literal]

theorem strings_arguments (arguments : List Register) :
    Operand.strings (arguments.map .register) = [] := by
  simp [Operand.strings, List.filterMap_map]

namespace Judgement

variable {J : Judgement} {env : Env} {σ : Stage} {r array : Register} {next : Option Register}
  {items items' : List ArrayItem} {codes codes' : List (Lower Unit)}

/-! ## Arrays -/

/-- An item and its bare form. -/
inductive Item (J : Judgement) (env : Env) : ArrayItem → ArrayItem → Prop
  | hole : Item J env .hole .hole
  | value {code code' : Lower Unit} (h : J.Steady env code code') :
      Item J env (.value code) (.value code')
  | spread {code code' : Lower Unit} (h : J.Steady env code code') :
      Item J env (.spread code) (.spread code')

theorem keeps_increment (own : r ∈ σ.temps) : J.Keeps env σ (increment r) :=
  (keeps_lda own).then <| (keeps_unary _).then <| keeps_sta own

theorem does_indexRegister (position : Nat) (next : Option Register) :
    J.Does env (σ.hold next.toList) (indexRegister position next) (indexRegister position next)
      fun index => σ.hold [index] := by
  cases next with
  | some index => exact .result (fun r => [r]) index
  | none =>
    exact does_getTemp.bind fun index => (keeps_loadNat position).then <|
      (keeps_sta (by simp)).then <| .result (fun r => [r]) index

theorem keeps_storeItem (own : array ∈ σ.temps) (position : Nat) (next : Option Register) :
    J.Keeps env (σ.hold next.toList) (storeItem array position next) := by
  cases next with
  | none => exact keeps_emit [array] (by simp [own]) rfl rfl
  | some index =>
    exact Does.then (keeps_emit [array, index] (by simp [own]) rfl rfl) <| keeps_increment (by simp)

variable (h : List.Forall₂ (J.Item env) items items')

include h in
theorem leads_storeItems (own : array ∈ σ.temps) (position : Nat) (next : Option Register) :
    J.Leads env (σ.hold next.toList) (storeItems array position next items)
      (storeItems array position next items') fun next => σ.hold next.toList := by
  induction h generalizing position next with
  | nil => exact leads_return Option.toList next
  | cons first _ ih =>
    cases first with
    | hole =>
      cases next with
      | none => exact ih (position + 1) none
      | some index => exact (keeps_increment (by simp)).before <| ih (position + 1) (some index)
    | spread code =>
      exact (does_indexRegister position next).step fun index => code.then <|
        Does.before (keeps_emit [array, index] (by simp [own]) rfl rfl) <|
        (keeps_sta (by simp)).before <| ih (position + 1) (some index)
    | value code =>
      exact code.then <| (keeps_storeItem own position next).before <| ih (position + 1) next

theorem keeps_storeLength (own : array ∈ σ.temps) (count : Nat)
    (indices : ∀ r ∈ next, r ∈ σ.temps) : J.Keeps env σ (storeLength array count next) := by
  have store : J.Keeps env σ (storeProperty array (.name "length")) :=
    keeps_storeProperty own (by simp [KeyOperand.temps])
  cases next with
  | none => exact (keeps_loadNat count).then store
  | some index => exact (keeps_lda (indices index rfl)).then store

include h in
theorem map_isHole : items'.map ArrayItem.isHole = items.map ArrayItem.isHole := by
  induction h with
  | nil => rfl
  | cons first _ ih =>
    rw [List.map_cons, List.map_cons, ih]
    cases first <;> rfl

include h in
theorem steady_arrayOf : J.Steady env (arrayOf items) (arrayOf items') := by
  refine fun σ => does_getTemp.step fun array => Does.before (keeps_plain rfl rfl) <|
    (keeps_sta (by simp)).before <|
    (leads_storeItems h (σ := σ.hold [array]) (by simp) 0 none).bind fun next => ?_
  have finish : J.Leads env ((σ.hold [array]).hold next.toList) (do
      lda array
      freeTemps [array]
      freeTemps next.toList : Lower Unit) (do
      lda array
      freeTemps [array]
      freeTemps next.toList) fun _ => σ := by
    refine (keeps_lda (by simp)).before <|
      Does.before (does_free (next.toList ++ σ.temps) ?_) <| does_freeHeld (.refl _)
    exact List.perm_append_comm_assoc _ _ _
  have ends : items'.getLast?.any ArrayItem.isHole = items.getLast?.any ArrayItem.isHole := by
    have last (items : List ArrayItem) : items.getLast?.any ArrayItem.isHole =
        (items.map ArrayItem.isHole).getLast?.any id := by
      rw [List.getLast?_map]
      cases items.getLast? <;> rfl
    rw [last, last, map_isHole h]
  rw [ends, ← h.length_eq]
  refine .ite (fun _ => ?_) fun _ => finish
  exact (keeps_storeLength (by simp) _ (by simp +contextual)).before finish

theorem keeps_arrayOfLiterals (literals : List Literal) :
    J.Keeps env σ (arrayOfLiterals literals) :=
  keeps_literal literals fun _ => ⟨rfl, rfl⟩

include h in
theorem steady_arrayLiteral {elements elements' : List (Option Expr)}
    (same : arrayLiterals? elements' = arrayLiterals? elements) :
    J.Steady env (arrayLiteral elements items) (arrayLiteral elements' items') := by
  unfold arrayLiteral
  rw [same]
  cases arrayLiterals? elements with
  | none => exact steady_arrayOf h
  | some literals =>
    cases literals with
    | nil => exact steady_arrayOf h
    | cons literal literals => exact fun _ => keeps_arrayOfLiterals _

/-! ## Objects -/

/-- A part of an object literal and its bare form. -/
inductive ObjectItem (J : Judgement) (env : Env) : ObjectPart → ObjectPart → Prop
  | value {key key' : Lower KeyOperand} {code code' : Lower Unit} (keys : J.TakesKey env key key')
      (h : J.Steady env code code') : ObjectItem J env (.value key code) (.value key' code')
  | shorthand {name : String} (sees : J.Sees env name) :
      ObjectItem J env (.shorthand name) (.shorthand name)
  | method {key key' : Lower KeyOperand} (keys : J.TakesKey env key key') {f : FunctionNode}
      (h : f.Surveyed J.ledger env.scope) : ObjectItem J env (.method key f) (.method key' f.bare)
  | accessor (name : Option String) {key key' : Lower KeyOperand} (keys : J.TakesKey env key key')
      {f : FunctionNode} (h : f.Surveyed J.ledger env.scope) :
      ObjectItem J env (.accessor name key f) (.accessor name key' f.bare)
  | spread {code code' : Lower Unit} (h : J.Steady env code code') :
      ObjectItem J env (.spread code) (.spread code')

section Objects

variable {object : Register} {parts parts' : List ObjectPart}
  (listed : List.Forall₂ (J.ObjectItem env) parts parts')

include listed in
theorem objectPartner?_bare (name : String) (kind : FunctionKind) :
    objectPartner? name kind parts' = (objectPartner? name kind parts).map FunctionNode.bare ∧
      ∀ f ∈ objectPartner? name kind parts, f.Surveyed J.ledger env.scope := by
  induction listed with
  | nil => exact ⟨rfl, nofun⟩
  | cons first _ ih =>
    cases first with
    | accessor own keys surveyed =>
      cases own with
      | none => exact ih
      | some own =>
        rw [objectPartner?, objectPartner?, FunctionNode.kind_bare]
        split
        · refine ⟨rfl, ?_⟩
          rintro _ ⟨⟩
          exact surveyed
        · exact ih
    | _ => exact ih

theorem keeps_storeValue {key : KeyOperand} (own : object ∈ σ.temps)
    (keys : ∀ r ∈ key.temps, r ∈ σ.temps) : J.Keeps env σ (storeValue object key) :=
  .ite (fun _ => keeps_storeProperty own keys) fun _ => keeps_storeOwnProperty own keys

include listed in
theorem leads_defineParts (own : object ∈ σ.temps) (seen : List String) :
    J.Leads env σ (defineParts object seen parts) (defineParts object seen parts') fun _ => σ := by
  induction listed generalizing seen with
  | nil => exact Steady.pure () σ
  | cons first rest ih =>
    cases first with
    | value keys code =>
      exact Takes.bind keys fun _ => code.then <|
        (keeps_storeValue (by simp [own]) (by simp +contextual)).before <|
        does_freeKey.before <| ih seen
    | shorthand sees =>
      exact (steady_load sees).then <|
        (keeps_storeOwnProperty own (by simp [KeyOperand.temps])).before <| ih seen
    | method keys surveyed => exact (leads_defineKeyedMethod own false keys surveyed).then <| ih seen
    | accessor name keys surveyed =>
      cases name with
      | none =>
        have partners : ∀ g ∈ (none : Option FunctionNode), g.Surveyed J.ledger env.scope := by
          simp
        exact (leads_defineAccessorPair own false keys surveyed partners).then <| ih seen
      | some name =>
        refine .ite (fun _ => ih seen) fun _ => ?_
        obtain ⟨same, partners⟩ := objectPartner?_bare rest name _
        rw [FunctionNode.kind_bare, same]
        exact (leads_defineAccessorPair own false keys surveyed partners).then <| ih _
    | spread code =>
      exact code.then <| Does.before (keeps_emit [object] (by simp [own]) rfl rfl) <| ih seen

include listed in
theorem steady_objectLiteral {literals literals' : List (List Literal)} (same : literals' = literals) :
    J.Steady env (objectLiteral literals parts) (objectLiteral literals' parts') := by
  subst same
  refine fun σ => does_getTemp.step fun object => ?_
  have rest : J.Leads env (σ.hold [object]) (do
      sta object
      defineParts object [] (parts.drop literals'.length)
      lda object
      freeTemps [object] : Lower Unit) (do
      sta object
      defineParts object [] (parts'.drop literals'.length)
      lda object
      freeTemps [object]) fun _ => σ :=
    (keeps_sta (by simp)).before <| (leads_defineParts (List.forall₂_drop _ listed) (by simp) []).then <|
      (keeps_lda (by simp)).before <| does_freeTemps 1 (.refl _)
  refine .ite (fun _ => Does.before (keeps_plain rfl rfl) rest) fun _ => ?_
  exact .assoc <| Does.before (keeps_literal _ fun _ => ⟨rfl, rfl⟩) rest

end Objects

/-! ## Templates and regular expressions -/

theorem flagBits_bare (flags : String) (position : Position) :
    Agrees Eq (flagBits flags position) (flagBits flags .bare) := by
  refine .foldlM ?_ _ rfl
  rintro bits _ c rfl
  cases flagBit? c with
  | some bit => exact .ok rfl
  | none => exact .error rfl

/-- The only failure is that of an unknown flag. -/
theorem flagBits_excused {flags : String} {position : Position} {failure : Failure}
    (failed : flagBits flags position = .error failure) : failure.Excused := by
  unfold flagBits at failed
  generalize flags.toList = cs, 0 = bits at failed
  induction cs generalizing bits with
  | nil => cases failed
  | cons c rest ih =>
    rw [List.foldlM_cons] at failed
    cases flag : flagBit? c with
    | some bit =>
      rw [flag] at failed
      exact ih _ failed
    | none =>
      rw [flag] at failed
      cases failed
      exact ⟨Failure.not_blames_unsupported _ _, .unsupported _ _⟩

theorem steady_regExp (pattern flags : String) (position : Position) :
    J.Steady env (regExp pattern flags position) (regExp pattern flags .bare) :=
  fun _ => Does.ask (flagBits_bare flags position) (fun _ => flagBits_excused) fun _ =>
    keeps_named pattern [] nofun fun _ => ⟨rfl, rfl⟩

theorem keeps_appendText (own : r ∈ σ.temps) (text : String) :
    J.Keeps env σ (appendText r text) :=
  .ite (fun _ => (keeps_sta own).then <| (keeps_loadString text).then <| keeps_binary _ own)
    fun _ => .done

variable (each : List.Forall₂ (J.Steady env) codes codes')

include each in
theorem leads_appendParts (own : r ∈ σ.temps) (texts : List String) :
    J.Leads env σ (appendParts r texts codes) (appendParts r texts codes') fun _ => σ := by
  induction each generalizing texts with
  | nil => exact Steady.pure () σ
  | cons first _ ih =>
    exact (keeps_sta own).before <| first.then <| (keeps_binary _ own).before <|
      (keeps_appendText own _).before <| ih texts.tail

include each in
theorem steady_template (quasis : List String) :
    J.Steady env (template quasis codes) (template quasis codes') :=
  fun _ => (keeps_loadString _).before <| does_getTemp.step fun _ =>
    (leads_appendParts each (by simp) _).then <| does_freeTemps 1 (.refl _)

/-! ## Calls -/

section Calls

variable {callee : Callee} {target target' : Lower Target} {callees callees' : Lower Callee}

theorem takes_propertyCallee (h : J.Targets env target target') :
    J.Takes env (propertyCallee target) (propertyCallee target') Callee.temps := by
  refine fun σ => h.bind fun t sees => (leads_loadTarget sees (by simp +contextual)).then ?_
  cases t with
  | «variable» name =>
    exact does_storeTemp.step fun function => leads_return Callee.temps ⟨function, none⟩
  | property object key | superProperty object key =>
    rw [Target.temps, ← Stage.hold_hold]
    exact does_freeKey.before <| does_storeTemp.step fun function =>
      leads_return Callee.temps ⟨function, some object⟩

theorem takes_plainCallee {code code' : Lower Unit} (h : J.Steady env code code') :
    J.Takes env (plainCallee code) (plainCallee code') Callee.temps :=
  fun _ => h.then <| does_storeTemp.step fun function => leads_return Callee.temps ⟨function, none⟩

include each in
theorem takes_evaluateArguments :
    J.Takes env (evaluateArguments codes) (evaluateArguments codes') List.reverse := by
  induction each with
  | nil => exact .pure rfl
  | cons first _ ih =>
    refine fun σ => first.then <| does_storeTemp.step fun r => ih.bind fun rs => ?_
    rw [Stage.hold_hold, ← List.reverse_cons]
    exact leads_return List.reverse (r :: rs)

theorem does_emitCall {arguments : List Register} :
    J.Does env ((σ.hold callee.temps).hold arguments.reverse) (emitCall callee arguments)
      (emitCall callee arguments) fun _ => σ := by
  obtain ⟨function, receiver⟩ := callee
  have finish : J.Does env ((σ.hold (Callee.temps ⟨function, receiver⟩)).hold arguments.reverse) (do
      freeTemps arguments.reverse
      freeTemps [function]
      freeTemps receiver.toList) (do
      freeTemps arguments.reverse
      freeTemps [function]
      freeTemps receiver.toList) fun _ => σ :=
    (does_freeHeld (.refl _)).then <| (does_freeTemps 1 (.refl _)).bind fun _ =>
      does_freeHeld (.refl _)
  refine (keeps_lda (by simp [Callee.temps])).then ?_
  cases receiver with
  | some receiver =>
    have registers := congrArg (receiver :: ·) (Instruction.registers_arguments arguments)
    refine Does.then (keeps_emit (receiver :: arguments) ?_ ?_ rfl) finish
    · simp +contextual [Callee.temps]
    · exact needs_eq_temps registers (strings_arguments arguments) rfl
  | none =>
    have registers := Instruction.registers_arguments arguments
    refine Does.then (keeps_emit arguments ?_ ?_ rfl) finish
    · simp +contextual
    · exact needs_eq_temps registers (strings_arguments arguments) rfl

include h in
theorem values_bare : Option.Rel (List.Forall₂ (J.Steady env)) (items.mapM ArrayItem.value?)
      (items'.mapM ArrayItem.value?) := by
  induction h with
  | nil => exact .some .nil
  | @cons item item' rest rest' first _ ih =>
    rw [List.mapM_cons, List.mapM_cons]
    generalize rest.mapM ArrayItem.value? = values, rest'.mapM ArrayItem.value? = values' at ih ⊢
    cases first with
    | value code =>
      cases ih with
      | none => exact .none
      | some codes => exact .some (.cons code codes)
    | _ => exact .none

include h in
theorem leads_callSpread :
    J.Leads env (σ.hold callee.temps) (callSpread callee items) (callSpread callee items')
      fun _ => σ := by
  obtain ⟨function, receiver⟩ := callee
  refine (steady_arrayOf h).then <| does_storeTemp.step fun arguments => ?_
  cases receiver with
  | some receiver =>
    refine Does.step (τ := fun r => (σ.hold [function, r]).hold [arguments]) ?_ fun receiver =>
      Does.before (keeps_emit [function, receiver, arguments] (by simp) rfl rfl) ?_
    · exact J.ret (τ := fun r => (σ.hold [function, r]).hold [arguments]) receiver
    · exact does_freeTemps 3 (@List.perm_append_comm _ [arguments] [function, receiver])
  | none =>
    refine Does.step (τ := fun r => ((σ.hold [function]).hold [arguments]).hold [r])
      (does_getTemp.bind fun receiver => (keeps_constant _).then <|
        (keeps_sta (by simp)).then <| .result (fun r => [r]) receiver) fun receiver => ?_
    refine Does.before (keeps_emit [function, receiver, arguments] (by simp) rfl rfl) <| does_freeTemps 3 ?_
    exact (List.Perm.cons receiver (.swap function arguments [])).trans (.swap function receiver _)

include h in
theorem steady_call (taken : J.Takes env callees callees' Callee.temps) :
    J.Steady env (call callees items) (call callees' items') := by
  refine fun σ => taken.bind fun callee => ?_
  generalize items.mapM ArrayItem.value? = values, items'.mapM ArrayItem.value? = values',
    values_bare h = related
  cases related with
  | none => exact leads_callSpread h
  | some codes => exact (takes_evaluateArguments codes).bind fun _ => does_emitCall

include h in
theorem steady_construct (position : Position) {code code' : Lower Unit}
    (constructors : J.Steady env code code') :
    J.Steady env (construct position code items) (construct .bare code' items') := by
  unfold construct
  generalize items.mapM ArrayItem.value? = values, items'.mapM ArrayItem.value? = values',
    values_bare h = related
  cases related with
  | none =>
    exact fun _ => J.fail ⟨Failure.not_blames_unsupported _ position, .unsupported _ _⟩ rfl
  | some codes =>
    refine fun σ => constructors.then <| does_storeTemp.step fun function =>
      (takes_evaluateArguments codes).bind fun arguments => ?_
    have registers := congrArg (function :: ·) (Instruction.registers_arguments arguments)
    refine Does.before (keeps_emit (function :: arguments) ?_ ?_ rfl) <|
      (does_freeHeld (.refl _)).before <| does_freeTemps 1 (.refl _)
    · simp +contextual
    · exact needs_eq_temps registers (strings_arguments arguments) rfl

theorem keeps_templateObject (quasis rawQuasis : List String) :
    J.Keeps env σ (templateObject quasis rawQuasis) :=
  does_getTemp.bind fun raw => (keeps_arrayOfLiterals _).then <| (keeps_sta (by simp)).then <|
    does_getTemp.bind fun cooked => (keeps_arrayOfLiterals _).then <| (keeps_sta (by simp)).then <|
    does_getTemp.bind fun pair => Does.then (keeps_plain rfl rfl) <| (keeps_sta (by simp)).then <|
    (keeps_lda (by simp)).then <| Does.then (keeps_emit [pair] (by simp) rfl rfl) <|
    (keeps_lda (by simp)).then <| Does.then (keeps_emit [pair] (by simp) rfl rfl) <|
    (keeps_lda (by simp)).then <| Does.then (keeps_plain rfl rfl) <|
    does_freeTemps 3 (List.reverse_perm [raw, cooked, pair])

include each in
theorem steady_taggedTemplate (taken : J.Takes env callees callees' Callee.temps)
    (quasis rawQuasis : List String) :
    J.Steady env (taggedTemplate callees quasis rawQuasis codes)
      (taggedTemplate callees' quasis rawQuasis codes') := by
  refine fun σ => taken.bind fun callee => (keeps_templateObject quasis rawQuasis).before <|
    does_storeTemp.step fun object => (takes_evaluateArguments each).bind fun arguments => ?_
  rw [Stage.hold_hold _ [object], ← List.reverse_cons]
  exact does_emitCall

/-! ## Calls of the super constructor -/

theorem steady_bindSuperResult (sees : J.Sees env HiddenName.this) :
    J.Steady env bindSuperResult bindSuperResult :=
  fun _ => does_storeTemp.step fun _ => (steady_load sees).then <| Does.before (keeps_plain rfl rfl) <|
    (keeps_lda (by simp)).before <| (steady_store true sees).then <| J.fields <|
    (keeps_lda (by simp)).before <| does_freeTemps 1 (.refl _)

theorem leads_superSpread (sees : J.Sees env HiddenName.funcObj) (own : r ∈ σ.temps) :
    J.Leads env σ (superSpread r) (superSpread r) fun _ => σ :=
  (steady_load sees).then <| keeps_emit [r] (by simp [own]) rfl rfl

include h in
theorem steady_superCall (this : J.Sees env HiddenName.this)
    (function : J.Sees env HiddenName.funcObj) :
    J.Steady env (superCall items) (superCall items') := by
  unfold superCall
  generalize items.mapM ArrayItem.value? = values, items'.mapM ArrayItem.value? = values',
    values_bare h = related
  cases related with
  | none =>
    exact fun σ => (steady_arrayOf h).then <| does_storeTemp.step fun _ =>
      (leads_superSpread function (by simp)).then <| (does_freeTemps 1 (.refl _)).before <|
      steady_bindSuperResult this σ
  | some codes =>
    refine fun σ => (takes_evaluateArguments codes).bind fun arguments =>
      (steady_load function).then ?_
    have registers := Instruction.registers_arguments arguments
    refine Does.before (keeps_emit arguments ?_ ?_ rfl) <|
      (does_freeHeld (List.reverse_perm arguments)).before <| steady_bindSuperResult this σ
    · simp +contextual
    · exact needs_eq_temps registers (strings_arguments arguments) rfl

end Calls

end Judgement

end AccScript
