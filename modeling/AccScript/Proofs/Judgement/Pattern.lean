import AccScript.Proofs.Judgement.Reference

/-!
# Patterns

Taking a value apart.  The value is in a temporary of the code around; the registers of an
iteration are taken for the whole of an array pattern.
-/

namespace AccScript

open Asm Lower

/-- The registers of an iteration are temporaries. -/
structure Lower.Iteration.Held (i : Iteration) (σ : Stage) : Prop where
  iterator : i.iterator ∈ σ.temps
  next : i.next ∈ σ.temps
  done : i.done ∈ σ.temps
  result : i.result ∈ σ.temps

namespace Judgement

variable {J : Judgement} {env : Env} {σ : Stage} {value : Register} {parts parts' : List PatternPart}
  {default default' : Option (Lower Unit)} {target target' : Lower Unit}

/-! ## Defaults -/

/-- Code where there is code. -/
abbrev Optional (J : Judgement) (env : Env) : Option (Lower Unit) → Option (Lower Unit) → Prop :=
  Option.Rel (J.Steady env)

theorem Optional.getD (h : J.Optional env default default') {other other' : Lower Unit}
    (otherwise : J.Steady env other other') : J.Steady env (default.getD other) (default'.getD other') := by
  cases h with
  | none => exact otherwise
  | some h => exact h

/-- Code that works on a temporary of the code around. -/
def Uses (J : Judgement) (env : Env) (code code' : Register → Lower Unit) : Prop :=
  ∀ (r : Register) (σ : Stage), r ∈ σ.temps → J.Leads env σ (code r) (code' r) fun _ => σ

theorem takes_impliedKey (target : Option BindingTarget) :
    J.TakesKey env (impliedKey target) (impliedKey (BindingTarget.bare? target)) := by
  cases target with
  | none => exact fun _ => J.fail ⟨Failure.not_blames_unmet, .broken⟩ rfl
  | some target =>
    cases target with
    | identifier identifier => exact takes_nameKey _
    | pattern p =>
      exact fun _ => J.fail ⟨Failure.not_blames_unsupported _ p.position, .unsupported _ _⟩ rfl

theorem steady_onTemp {code code' : Register → Lower Unit} (h : J.Uses env code code') :
    J.Steady env (onTemp code) (onTemp code') :=
  fun _ => does_storeTemp.step fun r => (h r _ (by simp)).then <| does_freeTemps 1 (.refl _)

theorem leads_isUndefined {load load' : Lower Unit}
    (h : ∀ r, J.Leads env (σ.hold [r]) load load' fun _ => σ.hold [r]) :
    J.Leads env σ (isUndefined load) (isUndefined load') fun _ => σ :=
  does_getTemp.step fun r => (keeps_constant _).before <| (keeps_sta (by simp)).before <|
    (h r).then <| (keeps_binary _ (by simp)).before <| does_freeTemps 1 (.refl _)

theorem leads_loadWithDefault (own : value ∈ σ.temps) (h : J.Optional env default default') :
    J.Leads env σ (loadWithDefault value default) (loadWithDefault value default') fun _ => σ := by
  cases h with
  | none => exact keeps_lda own
  | some h =>
    exact does_freshLabel.step fun hasValue => does_freshLabel.step fun done =>
      (leads_isUndefined fun _ => keeps_lda (by simp [own])).then <|
      Does.before (keeps_jump hasValue (by simp [Stage.Knows]) rfl) <| h.then <|
      (keeps_branch (by simp [Stage.Knows])).before <| (does_label 1 rfl).before <|
      (keeps_lda (by simp [own])).before <| does_label 0 rfl

/-! ## Iterations -/

section Iterations

theorem keeps_callNext {iterator next result : Register} (iterators : iterator ∈ σ.temps)
    (nexts : next ∈ σ.temps) (results : result ∈ σ.temps) :
    J.Keeps env σ (callNext iterator next result) :=
  (keeps_lda nexts).then <| Does.then (keeps_emit [iterator] (by simp [iterators]) rfl rfl) <|
    (keeps_sta results).then <| Does.then (keeps_emit [result] (by simp [results]) rfl rfl) <|
    keeps_loadProperty results (by simp [KeyOperand.temps])

theorem keeps_startIteration {iterator next : Register} (iterators : iterator ∈ σ.temps)
    (nexts : next ∈ σ.temps) : J.Keeps env σ (startIteration iterator next) :=
  Does.then (keeps_plain rfl rfl) <| (keeps_sta iterators).then <|
    (keeps_loadProperty iterators (by simp [KeyOperand.temps])).then <| keeps_sta nexts

variable {i : Iteration} (held : i.Held σ) {element : Register} (own : element ∈ σ.temps)

include held in
theorem keeps_advance : J.Keeps env σ i.advance :=
  (keeps_callNext held.iterator held.next held.result).then <| (keeps_unary _).then <|
    keeps_sta held.done

include held own

theorem keeps_step : J.Keeps env σ (i.step element) := by
  refine does_freshLabel.bind fun stop => ?_
  have held' : i.Held (σ.expect stop) := ⟨held.iterator, held.next, held.done, held.result⟩
  have own' : element ∈ (σ.expect stop).temps := own
  exact (keeps_constant _).then <| (keeps_sta own').then <| (keeps_lda held'.done).then <|
    Does.then (keeps_jump stop (by simp [Stage.Knows]) rfl) <| (keeps_advance held').then <|
    Does.then (keeps_jump stop (by simp [Stage.Knows]) rfl) <|
    Does.then (keeps_loadProperty held'.result (by simp [KeyOperand.temps])) <|
    (keeps_sta own').then <| does_label 0 rfl

theorem keeps_drain : J.Keeps env σ (i.drain element) := by
  refine does_getTemp.bind fun index => does_freshLabel.bind fun start => J.forget start ?_
  refine Does.bind does_freshLabel fun stop => ?_
  have held' : i.Held ((((σ.hold [index]).expect start).expect stop).mark 1 start) :=
    ⟨by simp [held.iterator], by simp [held.next], by simp [held.done], by simp [held.result]⟩
  have own' : element ∈ (((σ.hold [index]).expect start).expect stop).temps := by simp [own]
  exact Does.then (keeps_plain rfl rfl) <| (keeps_sta own').then <| (keeps_loadNat 0).then <|
    (keeps_sta (by simp)).then <| (does_mark 1 rfl).then <| (keeps_lda held'.done).then <|
    Does.then (keeps_jump stop (by simp [Stage.Knows]) rfl) <| (keeps_advance held').then <|
    Does.then (keeps_jump stop (by simp [Stage.Knows]) rfl) <|
    Does.then (keeps_loadProperty held'.result (by simp [KeyOperand.temps])) <|
    Does.then (keeps_emit [element, index] (by simp [own]) rfl rfl) <| (keeps_lda (by simp)).then <|
    (keeps_unary _).then <| (keeps_sta (by simp)).then <|
    (keeps_branch (by simp [Stage.Knows])).then <| (does_label 0 rfl).then <|
    does_freeTemps 1 (.refl _)

end Iterations

/-! ## Elements -/

/-- An element of a pattern and its bare form. -/
structure PatternElements (J : Judgement) (env : Env) (part part' : PatternPart) : Prop where
  key : J.TakesKey env part.key part'.key
  target : J.Optional env part.target part'.target
  default : J.Optional env part.default part'.default
  isRest : part'.isRest = part.isRest

theorem leads_bindElement {i : Iteration} (held : i.Held σ) {element : Register}
    (own : element ∈ σ.temps) {part part' : PatternPart} (h : J.PatternElements env part part') :
    J.Leads env σ (bindElement i element part) (bindElement i element part') fun _ => σ := by
  obtain ⟨key, target, default, isRest⟩ := part
  obtain ⟨key', target', default', isRest'⟩ := part'
  obtain ⟨-, targets, defaults, rfl⟩ := h
  cases targets with
  | none =>
    exact .ite (fun _ => (keeps_drain held own).before <| Steady.pure () σ) fun _ =>
      (keeps_step held own).before <| Steady.pure () σ
  | some h =>
    have bind := (leads_loadWithDefault own defaults).then <| h σ
    exact .ite (fun _ => (keeps_drain held own).before bind) fun _ =>
      (keeps_step held own).before bind

variable (h : List.Forall₂ (J.PatternElements env) parts parts')

include h in
theorem leads_arrayPattern (own : value ∈ σ.temps) :
    J.Leads env σ (arrayPattern value parts) (arrayPattern value parts') fun _ => σ := by
  refine does_getTemp.step fun iterator => does_getTemp.step fun next =>
    does_getTemp.step fun done => does_getTemp.step fun result =>
    (keeps_lda (by simp [own])).before <| (keeps_startIteration (by simp) (by simp)).before <|
    (keeps_constant _).before <| (keeps_sta (by simp)).before <|
    does_getTemp.step fun element => Leads.then (.sequence ?_) <|
    does_freshLabel.step fun closed => (keeps_lda (by simp)).before <|
    Does.before (keeps_jump closed (by simp [Stage.Knows]) rfl) <|
    Does.before (keeps_emit [iterator] (by simp) rfl rfl) <| (does_label 0 rfl).before <|
    does_freeTemps 5 (List.reverse_perm [iterator, next, done, result, element])
  rw [List.forall₂_map_left_iff, List.forall₂_map_right_iff]
  exact h.imp fun _ _ first =>
    leads_bindElement ⟨by simp, by simp, by simp, by simp⟩ (by simp) first

theorem keeps_deleteNames {object : Register} (own : object ∈ σ.temps) (names : List String) :
    J.Keeps env σ (deleteNames object names) := by
  induction names with
  | nil => exact .done
  | cons name rest ih =>
    exact (keeps_loadString name).then <| Does.then (keeps_emit [object] (by simp [own]) rfl rfl) ih

theorem leads_bindRest (own : value ∈ σ.temps) (seen : List String)
    (h : J.Steady env target target') :
    J.Leads env σ (bindRest value seen target) (bindRest value seen target') fun _ => σ := by
  refine does_getTemp.step fun rest => Does.before (keeps_plain rfl rfl) ?_
  refine (keeps_sta (by simp)).before <| (keeps_lda (by simp [own])).before ?_
  -- The copy is made; the names are deleted from it, and what is left is bound.
  refine Does.before (keeps_emit [rest] (by simp) rfl rfl) ?_
  refine (keeps_deleteNames (by simp) seen).before <| (keeps_lda (by simp)).before ?_
  exact h.then <| does_freeTemps 1 (.refl _)

theorem leads_bindProperty (own : value ∈ σ.temps) {key : KeyOperand}
    (defaults : J.Optional env default default') (h : J.Steady env target target') :
    J.Leads env (σ.hold key.temps) (bindProperty value key default target)
      (bindProperty value key default' target') fun _ => σ := by
  have load : J.Steady env (onTemp fun property => loadWithDefault property default)
      (onTemp fun property => loadWithDefault property default') :=
    steady_onTemp fun _ _ own => leads_loadWithDefault own defaults
  refine (keeps_loadProperty (by simp [own]) (by simp +contextual)).before <| does_freeKey.before ?_
  cases defaults with
  | none => exact h σ
  | some _ => exact load.then <| h σ

include h in
theorem leads_bindProperties (own : value ∈ σ.temps) (seen : List String) :
    J.Leads env σ (bindProperties value seen parts) (bindProperties value seen parts') fun _ => σ := by
  induction h generalizing seen with
  | nil => exact Steady.pure () σ
  | @cons part part' _ _ first _ ih =>
    obtain ⟨key, target, default, isRest⟩ := part
    obtain ⟨key', target', default', isRest'⟩ := part'
    obtain ⟨keys, targets, defaults, rfl⟩ := first
    cases targets with
    | none => exact ih seen
    | some target =>
      refine .ite (fun _ => ?_) fun _ => ?_
      · exact (leads_bindRest own seen target).then <| ih seen
      · exact Takes.bind keys fun _ => (leads_bindProperty own defaults target).then <| ih _

include h in
theorem uses_bindPattern (shape : PatternShape) :
    J.Uses env (bindPattern shape · parts) (bindPattern shape · parts') := by
  intro value σ own
  cases shape with
  | array => exact leads_arrayPattern h own
  | object => exact leads_bindProperties h own []

end Judgement

end AccScript
