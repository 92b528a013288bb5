import AccScript.Proofs.Scope.Creation
import Mathlib.Data.List.Induction
import Mathlib.Data.Set.Function
import Mathlib.Order.Interval.Set.Defs

/-!
# Slots and captured variables correspond

A tree whose declarations are bound is changed by promotions only: single variables are promoted, and
lists of references are processed, in any order.  Whatever the order, the captured variables of an
environment are numbered without gaps, a slot stays with its variable, and the variables that get
one can be told in advance: those that are promoted one by one, and the local ones that some
reference sees across a function.
-/

namespace AccScript

variable {reference : Reference} {commonjs : Bool} {v : VariableId}

/-- A step that gives slots to variables. -/
inductive Promotion where
  | single (v : VariableId)
  | references (commonjs : Bool) (uses : List Reference)
deriving DecidableEq, Repr

namespace ScopeTree

variable {t u : ScopeTree}

def apply (t : ScopeTree) : Promotion → ScopeTree
  | .single v => (t.promote v).2
  | .references commonjs uses => t.resolveReferences commonjs uses

def applyAll (t : ScopeTree) (steps : List Promotion) : ScopeTree :=
  steps.foldl apply t

def captured (t : ScopeTree) (s : ScopeId) : Set VariableId :=
  { v | (t.slot? v).isSome = true ∧ t.slotOwner v = s }

/-! ## Uses from within a function -/

/-- The walk from a use of a name to the scope that binds the name leaves a function. -/
def Crosses (t : ScopeTree) (reference : Reference) (v : VariableId) : Prop :=
  ∃ inner s outer, t.ancestors reference.scope = inner ++ s :: outer ∧
    (∀ r ∈ inner, t.findLocal? r reference.name = none) ∧
    t.findLocal? s reference.name = some v ∧
    ∃ r ∈ inner, t.kindIs (· = .function) r = true

theorem findIn?_eq_some_iff {name : String} {crossed after : Bool} {scopes : List ScopeId} :
    t.findIn? name crossed scopes = some (v, after) ↔
      ∃ inner s outer, scopes = inner ++ s :: outer ∧
        (∀ r ∈ inner, t.findLocal? r name = none) ∧ t.findLocal? s name = some v ∧
        after = (crossed || inner.any fun r => t.kindIs (· = .function) r) := by
  induction scopes generalizing crossed with
  | nil => simp [findIn?]
  | cons first rest ih =>
    rw [findIn?]
    cases here : t.findLocal? first name with
    | some x =>
      simp only [Option.some.injEq, Prod.mk.injEq]
      constructor
      · rintro ⟨rfl, rfl⟩
        exact ⟨[], first, rest, rfl, by simp, here, by simp⟩
      · rintro ⟨inner, s, outer, split, free, found, rfl⟩
        cases inner with
        | nil =>
          obtain ⟨rfl, -⟩ := List.cons.inj split
          rw [here] at found
          cases found
          simp
        | cons r inner =>
          obtain ⟨rfl, -⟩ := List.cons.inj split
          rw [free first List.mem_cons_self] at here
          cases here
    | none =>
      simp only [ih]
      constructor
      · rintro ⟨inner, s, outer, rfl, free, found, rfl⟩
        refine ⟨first :: inner, s, outer, rfl, ?_, found, ?_⟩
        · rintro r (_ | ⟨_, mem⟩)
          · exact here
          · exact free r mem
        · rw [List.any_cons, Bool.or_assoc]
      · rintro ⟨inner, s, outer, split, free, found, rfl⟩
        cases inner with
        | nil =>
          obtain ⟨rfl, -⟩ := List.cons.inj split
          rw [here] at found
          cases found
        | cons r inner =>
          obtain ⟨rfl, rfl⟩ := List.cons.inj split
          refine ⟨inner, s, outer, rfl, fun r mem => free r (.tail _ mem), found, ?_⟩
          rw [List.any_cons, Bool.or_assoc]

theorem crosses_iff :
    t.Crosses reference v ↔ t.find? reference.scope reference.name = some (v, true) := by
  rw [find?, findIn?_eq_some_iff, Crosses]
  simp only [Bool.false_or, eq_comm (a := true), List.any_eq_true]

/-- A local variable that is not in the global record. -/
def IsCapturable (t : ScopeTree) (commonjs : Bool) (v : VariableId) : Prop :=
  ∃ data, t.var? v = some data ∧ data.storage = .local ∧ t.isGlobalRecord commonjs v = false

theorem captures_iff :
    t.Captures commonjs reference v ↔ t.Crosses reference v ∧ t.IsCapturable commonjs v := by
  rw [Captures, crosses_iff]
  refine and_congr_right fun _ => ?_
  rw [isPromotable, IsCapturable]
  cases t.var? v <;> simp [Variable.isLocal]

/-! ## Who gets a slot -/

theorem Assigns.isSome_slot? {data : Variable} (step : t.Assigns u v data) (x : VariableId) :
    (u.slot? x).isSome = true ↔ (t.slot? x).isSome = true ∨ x = v := by
  rw [slot?, step.vars]
  split
  · rename_i same
    simp [same]
  · rename_i different
    exact ⟨.inl, fun h => h.resolve_right (Ne.symm different)⟩

theorem Introduces.slot? {name : String} (step : t.Introduces u name) (x : VariableId) :
    u.slot? x = t.slot? x := by
  rw [ScopeTree.slot?, ScopeTree.slot?, step.vars]
  split
  · rename_i new
    subst new
    rw [var?, Array.getElem?_eq_none (Nat.le_refl _)]
    rfl
  · rfl

theorem isSome_slot?_promote (rooted : t.Rooted) (v x : VariableId) :
    ((t.promote v).2.slot? x).isSome = true ↔
      (t.slot? x).isSome = true ∨ (x = v ∧ (t.var? v).isSome = true) := by
  rcases promote_cases rooted.toWellFormed v with ⟨same, taken⟩ | ⟨data, step⟩
  · rw [same]
    refine ⟨.inl, fun h => h.elim id ?_⟩
    rintro ⟨rfl, known⟩
    obtain ⟨data, present⟩ := Option.isSome_iff_exists.mp known
    rw [slot?, present]
    exact taken data present
  · rw [step.isSome_slot?, step.present]
    simp

theorem isSome_slot?_resolveReference
    (rooted : t.Rooted) (commonjs : Bool) (reference : Reference) (x : VariableId) :
    ((resolveReference commonjs t reference).slot? x).isSome = true ↔
      (t.slot? x).isSome = true ∨ t.Captures commonjs reference x := by
  rcases resolveReference_cases rooted commonjs reference with
    ⟨same, processed⟩ | ⟨v, data, captures, step⟩ | ⟨missing, -, step⟩
  · rw [same]
    exact ⟨.inl, fun h => h.elim id fun captures => processed.settled x captures.1 captures.2⟩
  · rw [step.isSome_slot?]
    refine or_congr_right ⟨?_, fun other => ?_⟩
    · rintro rfl
      exact captures
    · have same := captures.1.symm.trans other.1
      cases same
      rfl
  · rw [step.slot?]
    refine ⟨.inl, fun h => h.elim id fun captures => ?_⟩
    have found := captures.1
    rw [missing] at found
    cases found

theorem isSome_slot?_resolveReferences
    (rooted : t.Rooted) (commonjs : Bool) (uses : List Reference) (x : VariableId) :
    ((t.resolveReferences commonjs uses).slot? x).isSome = true ↔
      (t.slot? x).isSome = true ∨ ∃ reference ∈ uses, t.Captures commonjs reference x := by
  induction uses generalizing t with
  | nil => simp [resolveReferences]
  | cons reference rest ih =>
    obtain ⟨step, -⟩ := resolves_resolveReference rooted commonjs reference
    rw [resolveReferences_cons, ih step.rooted, isSome_slot?_resolveReference rooted, or_assoc]
    refine or_congr_right ?_
    simp only [List.mem_cons, exists_eq_or_imp, step.evolves.captures rooted.toWellFormed]

/-! ## Runs -/

theorem resolves_apply (rooted : t.Rooted) (step : Promotion) : t.Resolves (t.apply step) := by
  cases step with
  | single v => exact resolves_promote rooted v
  | references commonjs uses => exact (resolves_resolveReferences rooted commonjs uses).1

theorem resolves_applyAll (rooted : t.Rooted) (steps : List Promotion) :
    t.Resolves (t.applyAll steps) := by
  induction steps generalizing t with
  | nil => exact ⟨rooted, .refl t⟩
  | cons step rest ih =>
    have first := resolves_apply rooted step
    exact first.trans (ih first.rooted)

theorem applyAll_append (t : ScopeTree) (before after : List Promotion) :
    t.applyAll (before ++ after) = (t.applyAll before).applyAll after :=
  List.foldl_append

def PromotesSingle (t : ScopeTree) (steps : List Promotion) (v : VariableId) : Prop :=
  ∃ before after, steps = before ++ .single v :: after ∧
    ((t.applyAll before).var? v).isSome = true

def Processes (steps : List Promotion) (commonjs : Bool) (reference : Reference) : Prop :=
  ∃ uses, .references commonjs uses ∈ steps ∧ reference ∈ uses

theorem isSome_slot?_applyAll (rooted : t.Rooted) (steps : List Promotion) (x : VariableId) :
    ((t.applyAll steps).slot? x).isSome = true ↔ (t.slot? x).isSome = true ∨
      t.PromotesSingle steps x ∨
        ∃ commonjs reference, Processes steps commonjs reference ∧
          t.Captures commonjs reference x := by
  -- from the back: a step adds what it captures in the tree that the steps before it leave
  induction steps using List.reverseRecOn with
  | nil => simp [applyAll, PromotesSingle, Processes]
  | append_singleton steps step ih =>
    obtain ⟨before, evolves⟩ := resolves_applyAll rooted steps
    have single : t.PromotesSingle (steps ++ [step]) x ↔ t.PromotesSingle steps x ∨
        (step = .single x ∧ ((t.applyAll steps).var? x).isSome = true) := by
      constructor
      · rintro ⟨front, back, split, known⟩
        rcases List.eq_nil_or_concat back with rfl | ⟨back, last, rfl⟩
        · obtain ⟨rfl, same⟩ := List.append_inj' split rfl
          exact .inr ⟨(List.cons.inj same).1, known⟩
        · rw [List.concat_eq_append, ← List.cons_append, ← List.append_assoc] at split
          exact .inl ⟨front, back, (List.append_inj' split rfl).1, known⟩
      · rintro (⟨front, back, rfl, known⟩ | ⟨rfl, known⟩)
        · exact ⟨front, back ++ [step], by simp, known⟩
        · exact ⟨steps, [], rfl, known⟩
    have processes : ∀ commonjs reference, Processes (steps ++ [step]) commonjs reference ↔
        Processes steps commonjs reference ∨
          ∃ uses, step = .references commonjs uses ∧ reference ∈ uses := by
      intro commonjs reference
      simp only [Processes, List.mem_append, List.mem_singleton, or_and_right, exists_or,
        eq_comm (a := step)]
    rw [applyAll_append, show applyAll _ [step] = apply _ step from rfl]
    cases step with
    | single v =>
      rw [apply, isSome_slot?_promote before, ih, single]
      simp only [processes, Promotion.single.injEq, reduceCtorEq, false_and, exists_false,
        or_false]
      grind
    | references commonjs uses =>
      rw [apply, isSome_slot?_resolveReferences before, ih, single]
      simp only [processes, evolves.captures rooted.toWellFormed, reduceCtorEq, false_and,
        or_false, Promotion.references.injEq]
      grind

theorem resolveReference_of_processed (rooted : t.Rooted)
    (processed : t.Processed commonjs reference) : resolveReference commonjs t reference = t := by
  rcases resolveReference_cases rooted commonjs reference with
    ⟨same, -⟩ | ⟨v, data, captures, step⟩ | ⟨missing, assigned, step⟩
  · exact same
  · have taken := processed.settled v captures.1 captures.2
    rw [slot?, step.present, Option.bind_some, step.free] at taken
    cases taken
  · obtain ⟨v, bound⟩ := processed.known missing assigned
    rw [step.free] at bound
    cases bound

theorem resolveReferences_of_processed (rooted : t.Rooted) {uses : List Reference}
    (processed : ∀ reference ∈ uses, t.Processed commonjs reference) :
    t.resolveReferences commonjs uses = t := by
  induction uses with
  | nil => rfl
  | cons reference rest ih =>
    have first := resolveReference_of_processed rooted (processed reference (.head _))
    rw [resolveReferences_cons, first]
    exact ih fun other mem => processed other (.tail _ mem)

theorem processed_of_processes (rooted : t.Rooted) {steps : List Promotion}
    (h : Processes steps commonjs reference) : (t.applyAll steps).Processed commonjs reference := by
  obtain ⟨uses, mem, use⟩ := h
  obtain ⟨before, after, rfl⟩ := List.append_of_mem mem
  have first := resolves_applyAll rooted before
  obtain ⟨step, done⟩ := resolves_resolveReferences first.rooted commonjs uses
  have rest := resolves_applyAll step.rooted after
  rw [applyAll_append]
  exact (done reference use).evolves step.rooted.toWellFormed rest.evolves

theorem bijOn_slot? (wf : t.WellFormed) (s : ScopeId) :
    Set.BijOn (fun v => (t.slot? v).getD 0) (t.captured s)
      (Set.Iio (t.slotNames s).length) := by
  have data_of : ∀ {v}, v ∈ t.captured s → ∃ data slot, t.var? v = some data ∧
      data.slot = some slot ∧ t.slot? v = some slot ∧ t.slotOwner v = s := by
    rintro v ⟨taken, owner⟩
    obtain ⟨slot, taken⟩ := Option.isSome_iff_exists.mp taken
    obtain ⟨data, present, captured⟩ := Option.bind_eq_some_iff.mp taken
    exact ⟨data, slot, present, captured, taken, owner⟩
  refine ⟨fun v mem => ?_, fun v mem w mem' same => ?_, fun slot bound => ?_⟩
  · obtain ⟨data, slot, present, captured, taken, owner⟩ := data_of mem
    have bound := wf.slot_lt v data slot present captured
    rw [owner] at bound
    simpa [taken] using bound
  · obtain ⟨data, slot, present, captured, taken, owner⟩ := data_of mem
    obtain ⟨data', slot', present', captured', taken', owner'⟩ := data_of mem'
    obtain rfl : slot = slot' := by simpa [taken, taken'] using same
    exact wf.slot_unique v w data data' slot present present' captured captured'
      (owner.trans owner'.symm)
  · obtain ⟨v, data, present, captured, owner⟩ := wf.slot_filled s slot bound
    have taken : t.slot? v = some slot := by rw [slot?, present, Option.bind_some, captured]
    refine ⟨v, ⟨by rw [taken]; rfl, owner⟩, ?_⟩
    simp [taken]

/-- The slots of a tree are those that some steps have given to the variables of an earlier one. -/
structure Numbers (t : ScopeTree) (steps : List Promotion) (u : ScopeTree) : Prop where
  /-- Slots number the captured variables of a lexical scope. -/
  bijective : ∀ s, u.isLexical s = true →
    Set.BijOn (fun v => (u.slot? v).getD 0) (u.captured s) (Set.Iio (u.slotNames s).length)
  /-- A slot is listed under the name of its variable. -/
  named : ∀ v data slot, u.var? v = some data → data.slot = some slot →
    (u.slotNames (u.slotOwner v))[slot]? = some data.name
  /-- The environments that are needed at run time are those with slots. -/
  needed : ∀ s, u.needsEnv s = true ↔ u.slotNames s ≠ []
  /-- A slot that was given at any time before is still that of its variable. -/
  kept : ∀ before after v slot, steps = before ++ after →
    (t.applyAll before).slot? v = some slot → u.slot? v = some slot
  /-- The captured variables are the promoted ones, and those that a reference sees across a
  function. -/
  captured : ∀ v, (u.slot? v).isSome = true ↔ t.PromotesSingle steps v ∨
    ∃ commonjs reference, Processes steps commonjs reference ∧ t.Crosses reference v ∧
      t.IsCapturable commonjs v
  /-- References that have been processed have no effect any more. -/
  repeated : ∀ commonjs uses, (∀ reference ∈ uses, Processes steps commonjs reference) →
    u.resolveReferences commonjs uses = u

/-- Any sequence of promotions numbers the variables that it captures. -/
theorem numbers_applyAll
    (rooted : t.Rooted) (free : ∀ v, t.slot? v = none) (steps : List Promotion) :
    t.Numbers steps (t.applyAll steps) := by
  have final := (resolves_applyAll rooted steps).rooted
  refine ⟨fun s _ => bijOn_slot? final.toWellFormed s, final.slot_named, final.needed, ?_, ?_, ?_⟩
  · rintro before after v slot rfl taken
    have first := resolves_applyAll rooted before
    rw [applyAll_append]
    exact (resolves_applyAll first.rooted after).evolves.slot? taken
  · intro v
    rw [isSome_slot?_applyAll rooted, free v]
    simp only [captures_iff, Option.isSome_none, Bool.false_eq_true, false_or]
  · intro commonjs uses processed
    exact resolveReferences_of_processed final fun reference mem =>
      processed_of_processes rooted (processed reference mem)

/-- A function whose block declares `x` and `y` around another function. -/
def closure : ScopeTree :=
  let inner := ((ofRoot .global 0).addScope .function 1 (some 0)).addScope .block 2 (some 1)
  let scopes := inner.addScope .function 3 (some 2)
  ((scopes.add 2 "x" .let .notModule).2.add 2 "y" .const .notModule).2

theorem Rooted.add (rooted : t.Rooted) {id : ScopeId} (inside : id < t.scopes.size) (name : String)
    {kind : VarKind} (declared : kind ≠ .undeclared) (role : ModuleRole) :
    (t.add id name kind role).2.Rooted := by
  have binds := binds_add rooted.toWellFormed inside name declared role
  refine ⟨binds.wellFormed, ?_⟩
  rw [isTop, kindIs_of_bare binds.grown.bare]
  exact rooted.top

theorem rooted_closure : closure.Rooted := by
  have root : (ofRoot .global 0).Raw := raw_ofRoot rfl 0
  have outer : ((ofRoot .global 0).addScope .function 1 (some 0)).Raw :=
    root.addScope .function (by decide) (by simp [ofRoot, nodeScopes_addScope])
  have block : (((ofRoot .global 0).addScope .function 1 (some 0)).addScope .block 2
      (some 1)).Raw :=
    outer.addScope .block (by decide) (by simp [ofRoot, nodeScopes_addScope])
  have scopes : ((((ofRoot .global 0).addScope .function 1 (some 0)).addScope .block 2
      (some 1)).addScope .function 3 (some 2)).Raw :=
    block.addScope .function (by decide) (by simp [ofRoot, nodeScopes_addScope])
  exact (scopes.rooted.add (by decide) "x" (by decide) .notModule).add (by decide) "y" (by decide)
    .notModule

theorem slot?_closure (v : VariableId) : closure.slot? v = none := by
  match v with
  | 0 => rfl
  | 1 => rfl
  | v + 2 =>
    have outside : closure.vars.size ≤ v + 2 := Nat.le_add_left 2 v
    rw [slot?, var?, Array.getElem?_eq_none outside]
    rfl

/-- The inner function uses `y`, assigns an unknown name and then `x`; the global that this makes
is promoted at last.  The block owns no environment, so the slots are in that of the function
around it. -/
theorem numbers_closure : closure.Rooted ∧ (∀ v, closure.slot? v = none) ∧
      closure.Numbers [.references false [⟨3, "y", false⟩, ⟨3, "z", true⟩, ⟨3, "x", true⟩],
          .single 2]
        (closure.applyAll [.references false [⟨3, "y", false⟩, ⟨3, "z", true⟩, ⟨3, "x", true⟩],
          .single 2]) ∧
      (closure.applyAll [.references false [⟨3, "y", false⟩, ⟨3, "z", true⟩, ⟨3, "x", true⟩],
        .single 2]).slotNames 1 = ["y", "x"] :=
  ⟨rooted_closure, slot?_closure, numbers_applyAll rooted_closure slot?_closure _, by decide⟩

end ScopeTree

end AccScript
