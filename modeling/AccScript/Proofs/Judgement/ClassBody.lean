import AccScript.Proofs.Judgement.Collection

/-!
# Classes

The code of the members of a class runs in the scope of the class, and that of its instance fields
in the scope of the constructor; the registers of the class and its prototype stay with the class.
Which methods come with the class, and which accessors make a pair, is no matter of positions.
-/

namespace AccScript

open Asm Lower

/-! ## Members and positions -/

def BufferedMethod.bare (m : BufferedMethod) : BufferedMethod :=
  { m with function := m.function.bare }

theorem leadingMethods_bare (members : List ClassMember) :
    leadingMethods (members.map ClassMember.bare) = (leadingMethods members).map .bare := by
  induction members with
  | nil => rfl
  | cons member rest ih =>
    obtain ⟨id, position, key, isStatic, kind⟩ := member
    cases kind with
    | field initializer => exact ih
    | method f =>
      rw [List.map_cons, leadingMethods, leadingMethods, ClassMember.bare, MemberKind.bare, ih]
      dsimp only
      rw [PropertyKey.literalName?_bare, FunctionNode.kind_bare]
      cases f.kind with
      | method => cases key.literalName? <;> rfl
      | _ => rfl

theorem bufferedMethods_bare (c : ClassNode) :
    c.bare.bufferedMethods = c.bufferedMethods.map .bare := by
  simp only [ClassNode.bufferedMethods, ClassNode.members_bare, leadingMethods_bare,
    List.filter_map, List.map_append]
  rfl

theorem ownName?_bare (c : ClassNode) : ownName? c.bare = ownName? c := by
  rw [ownName?, ownName?, ClassNode.isExpression_bare, ClassNode.name_bare]

def barePartner (partner : NodeId × FunctionNode) : NodeId × FunctionNode :=
  (partner.1, partner.2.bare)

namespace Judgement

variable {J : Judgement} {env : Env} {σ : Stage} {object : Register} {parts parts' : List MemberPart}
  {part part' : MemberPart}

/-- The keys that are kept for fields can be resolved. -/
def SeesKey (J : Judgement) (env : Env) (member : NodeId) : Prop :=
  ∀ binding, env.survey.computedFieldKeys.get? member = some binding → J.Sees env binding

/-- The content of a member and its bare form. -/
inductive Content (J : Judgement) (env : Env) (isStatic : Bool) : MemberContent → MemberContent → Prop
  | method {f : FunctionNode} (h : f.kind ≠ .constructor → f.Surveyed J.ledger env.scope) :
      Content J env isStatic (.method f) (.method f.bare)
  | field {initializer initializer' : Option (Lower Unit)}
      (h : isStatic = true → J.Optional env initializer initializer') :
      Content J env isStatic (.field initializer) (.field initializer')

/-- A member and its bare form, in the scope of the class. -/
structure Member (J : Judgement) (env : Env) (part part' : MemberPart) : Prop where
  id : part'.id = part.id
  position : part'.position = .bare
  isStatic : part'.isStatic = part.isStatic
  name : part'.name = part.name
  binding : J.SeesKey env part.id
  key : J.TakesKey env part.key part'.key
  computedKey : J.Optional env part.computedKey part'.computedKey
  content : J.Content env part.isStatic part.content part'.content

/-! ## Fields -/

section Fields

variable (id : part'.id = part.id) (binding : J.SeesKey env part.id)

include id binding in
theorem leads_defineField (own : object ∈ σ.temps)
    (key : env.survey.computedFieldKeys.get? part.id = none → J.TakesKey env part.key part'.key)
    {initializer initializer' : Option (Lower Unit)} (value : J.Optional env initializer initializer') :
    J.Leads env σ (defineField object part initializer) (defineField object part' initializer')
      fun _ => σ := by
  have keys : J.TakesKey env (fieldKey part) (fieldKey part') := by
    refine fun σ => J.consult fun _ _ => ?_
    rw [id, show (Env.recast env _ _).survey.computedFieldKeys = env.survey.computedFieldKeys from rfl]
    cases found : env.survey.computedFieldKeys.get? part.id with
    | none => exact key found σ
    | some name => exact takes_valueKey (steady_load (binding name found)) σ
  exact keys.bind fun _ => (Optional.getD value fun _ => keeps_constant _).then <|
    (keeps_storeOwnProperty (by simp [own]) (by simp +contextual)).before does_freeKey

theorem steady_bindFieldKey (h : J.Member env part part') :
    J.Steady env (bindFieldKey part) (bindFieldKey part') := by
  obtain ⟨id, position, isStatic, name, key, computedKey, content⟩ := part
  obtain ⟨id', position', isStatic', name', key', computedKey', content'⟩ := part'
  obtain ⟨rfl, -, -, -, binding, -, computed, -⟩ := h
  refine fun σ => J.consult fun _ _ => ?_
  cases computed with
  | none => exact Steady.pure () σ
  | @some computed computed' code =>
    rw [show (Env.recast env _ _).survey.computedFieldKeys = env.survey.computedFieldKeys from rfl]
    cases found : env.survey.computedFieldKeys.get? id' with
    | none => exact Steady.pure () σ
    | some name => exact code.then <| steady_store true (binding name found) _

end Fields

/-! ## Methods -/

theorem does_prototypeRegister (own : object ∈ σ.temps) (prototype : Option Register) :
    J.Does env (σ.hold prototype.toList) (prototypeRegister object prototype)
      (prototypeRegister object prototype) fun home => σ.hold [home] := by
  cases prototype with
  | some home => exact .result (fun r => [r]) home
  | none =>
    exact does_getTemp.bind fun home =>
      Does.then (keeps_loadProperty (by simp [own]) (by simp [KeyOperand.temps])) <|
      (keeps_sta (by simp)).then <| .result (fun r => [r]) home

theorem leads_defineMember (own : object ∈ σ.temps) (keys : J.TakesKey env part.key part'.key)
    {f : FunctionNode} (h : f.Surveyed J.ledger env.scope) {partner : Option FunctionNode}
    (partners : ∀ g ∈ partner, g.Surveyed J.ledger env.scope) :
    J.Leads env σ (defineMember object part f partner)
      (defineMember object part' f.bare (partner.map FunctionNode.bare)) fun _ => σ := by
  unfold defineMember
  rw [FunctionNode.kind_bare]
  cases f.kind with
  | getter | setter => exact leads_defineAccessorPair own true keys h partners
  | _ => exact leads_defineKeyedMethod own true keys h

theorem findSome?_bare {others others' : List MemberPart}
    {f f' : MemberPart → Option (NodeId × FunctionNode)} {P : NodeId × FunctionNode → Prop}
    (h : List.Forall₂ (fun x x' => f' x' = (f x).map barePartner ∧ ∀ p ∈ f x, P p) others others') :
    others'.findSome? f' = (others.findSome? f).map barePartner ∧ ∀ p ∈ others.findSome? f, P p := by
  induction h with
  | nil => exact ⟨rfl, nofun⟩
  | @cons x x' _ _ first _ ih =>
    rw [List.findSome?_cons, List.findSome?_cons, first.1]
    cases found : f x with
    | none => exact ih
    | some partner =>
      refine ⟨rfl, ?_⟩
      rintro _ ⟨⟩
      exact first.2 partner found

theorem partnerOf_bare (h : J.Member env part part') (f : FunctionNode)
    {others others' : List MemberPart} (rest : List.Forall₂ (J.Member env) others others') :
    partnerOf part' f.bare others' = (partnerOf part f others).map barePartner ∧
      ∀ p ∈ partnerOf part f others, p.2.Surveyed J.ledger env.scope := by
  have pair (kind : FunctionKind) :
      memberPartner? part' kind others' = (memberPartner? part kind others).map barePartner ∧
        ∀ p ∈ memberPartner? part kind others, p.2.Surveyed J.ledger env.scope := by
    rw [memberPartner?, memberPartner?, h.name]
    cases part.name with
    | none => exact ⟨rfl, nofun⟩
    | some name =>
      refine findSome?_bare (rest.imp fun other other' first => ?_)
      obtain ⟨_, _, _, _, _, _, content⟩ := other
      obtain ⟨_, _, _, _, _, _, content'⟩ := other'
      obtain ⟨rfl, -, rfl, rfl, -, -, -, contents⟩ := first
      cases contents with
      | field _ => exact ⟨rfl, nofun⟩
      | @method f surveyed =>
        simp only [FunctionNode.kind_bare, h.isStatic]
        split
        · rename_i matching
          refine ⟨rfl, ?_⟩
          rintro _ ⟨⟩
          refine surveyed ?_
          rw [matching.1]
          cases kind <;> simp [partnerKind]
        · exact ⟨rfl, nofun⟩
  rw [partnerOf, partnerOf, FunctionNode.kind_bare]
  cases f.kind with
  | getter | setter => exact pair _
  | _ => exact ⟨rfl, nofun⟩

/-! ## All members -/

theorem leads_defineMembers (own : object ∈ σ.temps) (h : List.Forall₂ (J.Member env) parts parts')
    (seen : List NodeId) (prototype : Option Register) :
    J.Leads env (σ.hold prototype.toList) (defineMembers object seen prototype parts)
      (defineMembers object seen prototype parts') fun prototype => σ.hold prototype.toList := by
  induction h generalizing seen prototype with
  | nil => exact leads_return Option.toList prototype
  | @cons part part' rest rest' first others ih =>
    have partner (f : FunctionNode) := partnerOf_bare first f others
    have own' : object ∈ (σ.hold prototype.toList).temps := by simp [own]
    unfold defineMembers
    rw [first.id, first.isStatic, first.position]
    refine .ite (fun _ => ih seen prototype) fun _ => (does_atPosition _).before ?_
    have contents := first.content
    generalize part.content = content, part'.content = content' at contents
    cases contents with
    | field value =>
      refine .ite (fun static => ?_) fun _ => ?_
      · exact (leads_defineField first.id first.binding own' (fun _ => first.key)
          (value static)).then <| ih _ prototype
      · exact (steady_bindFieldKey first).then <| ih _ prototype
    | @method f surveyed =>
      have ids : ((partnerOf part f rest).map barePartner).map Prod.fst =
          (partnerOf part f rest).map Prod.fst := by rw [Option.map_map]; rfl
      have nodes : ((partnerOf part f rest).map barePartner).map Prod.snd =
          ((partnerOf part f rest).map Prod.snd).map FunctionNode.bare := by
        rw [Option.map_map, Option.map_map]; rfl
      have partners : ∀ g ∈ (partnerOf part f rest).map Prod.snd, g.Surveyed J.ledger env.scope := by
        intro g mem
        obtain ⟨p, found, rfl⟩ := Option.map_eq_some_iff.mp mem
        exact (partner f).2 p found
      simp only [FunctionNode.kind_bare, (partner f).1, ids, nodes]
      refine .ite (fun _ => ih _ prototype) fun other => .ite (fun _ => ?_) fun _ => ?_
      · exact (leads_defineMember own' first.key (surveyed other) partners).then <| ih _ prototype
      · exact (does_prototypeRegister own prototype).step fun home =>
          (leads_defineMember (by simp) first.key (surveyed other) partners).then <| ih _ (some home)

theorem leads_classScopeCode {c : ClassNode} (sees : ∀ name ∈ ownName? c, J.Sees env name)
    (own : object ∈ σ.temps) (h : List.Forall₂ (J.Member env) parts parts') :
    J.Leads env σ (classScopeCode c object parts) (classScopeCode c.bare object parts')
      fun _ => σ := by
  have seen : c.bare.bufferedMethods.map BufferedMethod.member =
      c.bufferedMethods.map BufferedMethod.member := by
    rw [bufferedMethods_bare, List.map_map]
    rfl
  have members : J.Leads env σ (do
      let prototype ← defineMembers object (c.bufferedMethods.map BufferedMethod.member) none parts
      freeTemps prototype.toList : Lower Unit) (do
      let prototype ← defineMembers object (c.bare.bufferedMethods.map BufferedMethod.member) none parts'
      freeTemps prototype.toList) fun _ => σ := by
    rw [seen]
    exact (leads_defineMembers own h _ none).bind fun _ => does_freeHeld (.refl _)
  unfold classScopeCode
  rw [ownName?_bare]
  cases named : ownName? c with
  | none => exact members
  | some name => exact (keeps_lda own).before <| (steady_store true (sees name named)).then members

/-! ## Instance fields -/

/-- An instance field and its bare form, in the scope of the constructor. -/
structure Field (J : Judgement) (env : Env) (field field' : MemberPart × Option (Lower Unit)) :
    Prop where
  id : field'.1.id = field.1.id
  position : field'.1.position = .bare
  binding : J.SeesKey env field.1.id
  key : env.survey.computedFieldKeys.get? field.1.id = none →
    J.TakesKey env field.1.key field'.1.key
  value : J.Optional env field.2 field'.2

/-- A member that is either an instance field or not, as its bare form is. -/
structure FieldPart (J : Judgement) (env : Env) (part part' : MemberPart) : Prop where
  fields : Option.Rel (J.Field env)
    (match part.content with
      | .field initializer => if part.isStatic then none else some (part, initializer)
      | .method _ => none)
    (match part'.content with
      | .field initializer => if part'.isStatic then none else some (part', initializer)
      | .method _ => none)

theorem instanceFields_bare (h : List.Forall₂ (J.FieldPart env) parts parts') :
    List.Forall₂ (J.Field env) (instanceFields parts) (instanceFields parts') :=
  List.rel_filterMap (fun _ _ first => first.fields) h

theorem leads_defineFields (own : object ∈ σ.temps)
    {fields fields' : List (MemberPart × Option (Lower Unit))}
    (h : List.Forall₂ (J.Field env) fields fields') :
    J.Leads env σ (defineFields object fields) (defineFields object fields') fun _ => σ := by
  induction h with
  | nil => exact Steady.pure () σ
  | @cons field field' _ _ first _ ih =>
    obtain ⟨part, initializer⟩ := field
    obtain ⟨part', initializer'⟩ := field'
    obtain ⟨id, position, binding, key, value⟩ := first
    unfold defineFields
    rw [show part'.position = .bare from position]
    exact (does_atPosition _).before <| (leads_defineField id binding own key value).then ih

/-- What `initializeFields` does in the scope of the constructor. -/
theorem steady_fieldCode (sees : J.Sees env HiddenName.this)
    {fields fields' : List (MemberPart × Option (Lower Unit))}
    (h : List.Forall₂ (J.Field env) fields fields') :
    J.Steady env (do
      let this ← getTemp
      loadVariable HiddenName.this
      sta this
      defineFields this fields
      freeTemps [this] : Lower Unit) (do
      let this ← getTemp
      loadVariable HiddenName.this
      sta this
      defineFields this fields'
      freeTemps [this]) :=
  fun _ => does_getTemp.step fun _ => (steady_load sees).then <| (keeps_sta (by simp)).before <|
    (leads_defineFields (by simp) h).then <| does_freeTemps 1 (.refl _)

end Judgement

end AccScript
