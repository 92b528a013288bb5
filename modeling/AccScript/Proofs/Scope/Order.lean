import AccScript.Proofs.Scope.Slots
import Mathlib.Data.Set.Card
import Mathlib.Order.Interval.Finset.Nat

/-!
# The order of references does not matter

Each reference reads the tree that the earlier ones have left, and changes it.  All the same, what a
list of references captures and which globals it makes depend only on the tree at the start, so two
orders of the same references give trees that differ in nothing but the numbers of slots and the
places of the new globals.  Names are resolved alike in both: to the same kind of access, to the same
binding and at the same level.
-/

namespace AccScript

variable {v : VariableId} {name : String}

/-- The same kind of access at the same level, to bindings that are the same. -/
inductive Resolution.Alike (same : VariableId → VariableId → Prop) : Resolution → Resolution → Prop
  | unresolved : Alike same .unresolved .unresolved
  | global {v w : VariableId} : same v w → Alike same (.global v) (.global w)
  | globalRecord {v w : VariableId} : same v w → Alike same (.globalRecord v) (.globalRecord w)
  | module {v w : VariableId} : same v w → Alike same (.module v) (.module w)
  | register {v w : VariableId} : same v w → Alike same (.register v) (.register w)
  | lexical {v w : VariableId} (level slot slot' : Nat) :
      same v w → Alike same (.lexical v level slot) (.lexical w level slot')

namespace ScopeTree

variable {t u w : ScopeTree}

/-- The names that the root has for assignments without a declaration. -/
def undeclaredNames (t : ScopeTree) : Set String :=
  { name | ∃ v data, t.findLocal? rootId name = some v ∧ t.var? v = some data ∧
    data.kind = .undeclared }

/-- A variable of an earlier tree, or two globals that were made for one name since then. -/
def SameBinding (t u w : ScopeTree) (v x : VariableId) : Prop :=
  (v = x ∧ (t.var? v).isSome = true) ∨
    (t.var? v = none ∧ t.var? x = none ∧ ∃ name, u.findLocal? rootId name = some v ∧
      w.findLocal? rootId name = some x)

/-- Two later trees that differ only in the numbers of slots and the places of new globals. -/
structure Agree (t u w : ScopeTree) : Prop where
  promoted : ∀ v, (u.slot? v).isSome = (w.slot? v).isSome
  needed : ∀ s, u.needsEnv s = w.needsEnv s
  counts : ∀ s, (u.slotNames s).length = (w.slotNames s).length
  globals : u.undeclaredNames = w.undeclaredNames
  resolved : ∀ s name commonjs,
    (∃ failure, u.resolve s name commonjs = .error failure ∧
      w.resolve s name commonjs = .error failure) ∨
    ∃ a b, u.resolve s name commonjs = .ok a ∧ w.resolve s name commonjs = .ok b ∧
      a.Alike (t.SameBinding u w) b

/-! ## The globals that references make -/

theorem bound_resolveReference
    (rooted : t.Rooted) (commonjs : Bool) (reference : Reference) (name : String) :
    (resolveReference commonjs t reference).Bound rootId name ↔ t.Bound rootId name ∨
      (reference.isAssignment = true ∧ reference.name = name ∧
        t.find? reference.scope reference.name = none) := by
  rcases resolveReference_cases rooted commonjs reference with
    ⟨same, processed⟩ | ⟨v, data, captures, step⟩ | ⟨missing, assigned, step⟩
  · rw [same]
    refine ⟨.inl, fun h => h.elim id ?_⟩
    rintro ⟨assigned, rfl, missing⟩
    exact processed.known missing assigned
  · simp only [Bound, step.names, captures.1, reduceCtorEq, and_false, or_false]
  · simp only [Bound, step.names, missing, assigned, true_and, and_true]
    by_cases same : name = reference.name
    · simp [same]
    · simp [same, Ne.symm same]

theorem bound_resolveReferences
    (rooted : t.Rooted) (commonjs : Bool) (uses : List Reference) (name : String) :
    (t.resolveReferences commonjs uses).Bound rootId name ↔ t.Bound rootId name ∨
      ∃ reference ∈ uses, reference.isAssignment = true ∧ reference.name = name ∧
        t.find? reference.scope reference.name = none := by
  induction uses generalizing t with
  | nil => simp [resolveReferences]
  | cons reference rest ih =>
    obtain ⟨step, -⟩ := resolves_resolveReference rooted commonjs reference
    have here := bound_resolveReference rooted commonjs reference name
    rw [resolveReferences_cons, ih step.rooted]
    constructor
    · rintro (bound | ⟨other, mem, assigned, same, missing⟩)
      · rcases here.mp bound with before | made
        · exact .inl before
        · exact .inr ⟨reference, .head _, made⟩
      · refine .inr ⟨other, .tail _ mem, assigned, same, ?_⟩
        cases found : t.find? other.scope other.name with
        | none => rfl
        | some answer =>
          obtain ⟨v, crossed⟩ := answer
          rw [step.evolves.find?_of_some rooted.ordered found] at missing
          cases missing
    · rintro (bound | ⟨other, mem, assigned, rfl, missing⟩)
      · exact .inl (here.mpr (.inl bound))
      · rcases List.mem_cons.mp mem with rfl | mem
        · exact .inl (here.mpr (.inr ⟨assigned, rfl, missing⟩))
        · -- the name may have become visible, but only as a global at the root
          cases found : (resolveReference commonjs t reference).find? other.scope other.name with
          | none => exact .inr ⟨other, mem, assigned, rfl, found⟩
          | some answer =>
            obtain ⟨v, crossed⟩ := answer
            rcases step.evolves.find?_cases found with before | ⟨-, bound, -⟩
            · rw [missing] at before
              cases before
            · exact .inl ⟨v, bound⟩

/-! ## Two evolutions of one tree -/

theorem find?_of_bound_ancestor {s r : ScopeId} (mem : r ∈ t.ancestors s) (bound : t.Bound r name) :
    ∃ v crossed, t.find? s name = some (v, crossed) := by
  have any : ∀ scopes crossed, r ∈ scopes →
      ∃ v after, t.findIn? name crossed scopes = some (v, after) := by
    intro scopes
    induction scopes with
    | nil => exact fun _ mem => absurd mem List.not_mem_nil
    | cons first rest ih =>
      intro crossed mem
      rw [findIn?]
      cases here : t.findLocal? first name with
      | some v => exact ⟨v, crossed, rfl⟩
      | none =>
        rcases List.mem_cons.mp mem with rfl | mem
        · obtain ⟨v, found⟩ := bound
          rw [found] at here
          cases here
        · exact ih _ mem
  exact any _ _ mem

theorem ncard_captured (wf : t.WellFormed) (s : ScopeId) :
    (t.captured s).ncard = (t.slotNames s).length := by
  have numbers := bijOn_slot? wf s
  rw [← Set.InjOn.ncard_image numbers.injOn, numbers.image_eq]
  simp [Set.ncard_eq_toFinset_card']

section Fork

variable (left : t.Resolves u) (right : t.Resolves w)

include left right

theorem slotOwner_fork {data : Variable} (present : t.var? v = some data) :
    u.slotOwner v = w.slotOwner v := by
  have owner : ∀ {x : ScopeTree}, t.Evolves x → x.slotOwner v = t.slotOwner v := by
    intro x step
    obtain ⟨new, found, same, -⟩ := step.vars v data present
    refine slotOwner_of_var? step.bare ?_
    rw [found, present]
    exact congrArg (fun data => some data.scope) same
  rw [owner left.evolves, owner right.evolves]

theorem level_fork (needed : ∀ s, u.needsEnv s = w.needsEnv s) {data : Variable}
    (present : t.var? v = some data) (s : ScopeId) : u.level s v = w.level s v := by
  have lexical : ∀ r, u.isLexical r = w.isLexical r := fun r =>
    (kindIs_of_bare left.evolves.bare _ r).trans (kindIs_of_bare right.evolves.bare _ r).symm
  have walk : u.ancestors s = w.ancestors s :=
    (ancestors_of_bare left.evolves.bare s).trans (ancestors_of_bare right.evolves.bare s).symm
  simp only [level, walk, slotOwner_fork left right present, lexical, needed]

theorem resolve_fork_of_found (promoted : ∀ v, (u.slot? v).isSome = (w.slot? v).isSome)
    (needed : ∀ s, u.needsEnv s = w.needsEnv s) (wf : t.WellFormed) {s : ScopeId}
    {crossed : Bool} (found : t.find? s name = some (v, crossed))
    (commonjs : Bool) :
    (∃ failure, u.resolve s name commonjs = .error failure ∧
      w.resolve s name commonjs = .error failure) ∨
    ∃ a b, u.resolve s name commonjs = .ok a ∧ w.resolve s name commonjs = .ok b ∧
      a.Alike (t.SameBinding u w) b := by
  obtain ⟨data, present, -⟩ := var?_of_find? wf found
  obtain ⟨first, present_left, bare_left, -⟩ := left.evolves.vars v data present
  obtain ⟨second, present_right, bare_right, -⟩ := right.evolves.vars v data present
  have same : t.SameBinding u w v v := .inl ⟨rfl, by rw [present]; rfl⟩
  have storage_left : first.storage = data.storage := (congrArg Variable.storage bare_left :)
  have storage_right : second.storage = data.storage := (congrArg Variable.storage bare_right :)
  have slots : first.slot.isSome = second.slot.isSome := by
    have := promoted v
    rwa [slot?, slot?, present_left, present_right] at this
  have levels := level_fork left right needed present s
  simp only [resolve, left.evolves.find?_of_some wf.ordered found,
    right.evolves.find?_of_some wf.ordered found, present_left, present_right, storage_left,
    storage_right, left.evolves.isGlobalRecord present, right.evolves.isGlobalRecord present,
    levels]
  cases data.storage with
  | global => exact .inr ⟨_, _, rfl, rfl, .global same⟩
  | module index isExternal => exact .inr ⟨_, _, rfl, rfl, .module same⟩
  | «local» =>
    dsimp only
    split
    · exact .inr ⟨_, _, rfl, rfl, .globalRecord same⟩
    · cases slot : first.slot with
      | some place =>
        rw [slot] at slots
        obtain ⟨place', slot'⟩ := Option.isSome_iff_exists.mp slots.symm
        rw [slot']
        exact .inr ⟨_, _, rfl, rfl, .lexical _ _ _ same⟩
      | none =>
        rw [slot] at slots
        rw [Option.isSome_eq_false_iff.mp slots.symm |> Option.isNone_iff_eq_none.mp]
        dsimp only
        split
        · exact .inl ⟨_, rfl, rfl⟩
        · exact .inr ⟨_, _, rfl, rfl, .register same⟩

/-- A name that the first tree does not know stands for a new global, if for anything. -/
theorem resolve_fork_of_missing
    (bound : ∀ name, u.Bound rootId name ↔ w.Bound rootId name) {s : ScopeId}
    (missing : t.find? s name = none) (commonjs : Bool) :
    ∃ a b, u.resolve s name commonjs = .ok a ∧ w.resolve s name commonjs = .ok b ∧
      a.Alike (t.SameBinding u w) b := by
  have new : ∀ {x : ScopeTree}, t.Evolves x → x.Bound rootId name → rootId ∈ t.ancestors s →
      ∃ v, x.resolve s name commonjs = .ok (.global v) ∧ x.findLocal? rootId name = some v ∧
        t.var? v = none := by
    intro x step known visible
    rw [← ancestors_of_bare step.bare] at visible
    obtain ⟨v, crossed, found⟩ := find?_of_bound_ancestor visible known
    rcases step.find?_cases found with before | ⟨-, root, unknown, data, present, same⟩
    · rw [missing] at before
      cases before
    · have storage : data.storage = .global := (congrArg Variable.storage same :)
      refine ⟨v, ?_, root, unknown⟩
      simp only [resolve, found, present, storage]
  have old : ∀ {x : ScopeTree}, t.Evolves x → ¬(x.Bound rootId name ∧ rootId ∈ t.ancestors s) →
      x.resolve s name commonjs = .ok .unresolved := by
    intro x step hidden
    cases found : x.find? s name with
    | none => simp only [resolve, found]
    | some answer =>
      obtain ⟨v, crossed⟩ := answer
      rcases step.find?_cases found with before | ⟨visible, root, -⟩
      · rw [missing] at before
        cases before
      · exact absurd ⟨⟨v, root⟩, visible⟩ hidden
  by_cases visible : u.Bound rootId name ∧ rootId ∈ t.ancestors s
  · obtain ⟨v, first, root, unknown⟩ := new left.evolves visible.1 visible.2
    obtain ⟨x, second, root', unknown'⟩ :=
      new right.evolves ((bound name).mp visible.1) visible.2
    exact ⟨_, _, first, second, .global (.inr ⟨unknown, unknown', name, root, root'⟩)⟩
  · have hidden : ¬(w.Bound rootId name ∧ rootId ∈ t.ancestors s) := by
      rwa [← bound name]
    exact ⟨_, _, old left.evolves visible, old right.evolves hidden, .unresolved⟩

theorem undeclaredNames_subset
    (wf : t.WellFormed) (bound : ∀ name, u.Bound rootId name ↔ w.Bound rootId name) :
    u.undeclaredNames ⊆ w.undeclaredNames := by
  rintro name ⟨v, data, found, present, kind⟩
  obtain ⟨x, found'⟩ := (bound name).mp ⟨v, found⟩
  rcases right.evolves.fresh rootId name x found' with before | ⟨-, -, new, present', same⟩
  · -- the name is from the start, and so is its variable
    have first := left.evolves.names rootId name x before
    obtain rfl : v = x := Option.some.inj (found.symm.trans first)
    obtain ⟨old, present_old, -⟩ := wf.named rootId name v before
    obtain ⟨new, present_left, same_left, -⟩ := left.evolves.vars v old present_old
    obtain ⟨new', present_right, same_right, -⟩ := right.evolves.vars v old present_old
    rw [present] at present_left
    cases present_left
    have kinds : new'.kind = data.kind :=
      (congrArg Variable.kind (same_right.trans same_left.symm) :)
    exact ⟨v, new', found', present_right, kinds.trans kind⟩
  · exact ⟨x, new, found', present', (congrArg Variable.kind same :)⟩

end Fork

/-- Two evolutions that capture the same variables and make the same globals. -/
theorem agree_of_same_effect (wf : t.WellFormed) (left : t.Resolves u) (right : t.Resolves w)
    (promoted : ∀ v, (u.slot? v).isSome = true ↔ (w.slot? v).isSome = true)
    (known : ∀ v, (u.slot? v).isSome = true → (t.var? v).isSome = true)
    (bound : ∀ name, u.Bound rootId name ↔ w.Bound rootId name) : t.Agree u w := by
  have captured : ∀ s, u.captured s = w.captured s := by
    intro s
    ext v
    refine ⟨fun ⟨taken, owner⟩ => ?_, fun ⟨taken, owner⟩ => ?_⟩
    · obtain ⟨data, present⟩ := Option.isSome_iff_exists.mp (known v taken)
      exact ⟨(promoted v).mp taken, (slotOwner_fork left right present).symm.trans owner⟩
    · obtain ⟨data, present⟩ := Option.isSome_iff_exists.mp (known v ((promoted v).mpr taken))
      exact ⟨(promoted v).mpr taken, (slotOwner_fork left right present).trans owner⟩
  have counts : ∀ s, (u.slotNames s).length = (w.slotNames s).length := by
    intro s
    rw [← ncard_captured left.rooted.toWellFormed, captured s,
      ncard_captured right.rooted.toWellFormed]
  have needed : ∀ s, u.needsEnv s = w.needsEnv s := by
    intro s
    rw [Bool.eq_iff_iff, left.rooted.needed, right.rooted.needed, ← List.length_pos_iff,
      ← List.length_pos_iff, counts s]
  have slots : ∀ v, (u.slot? v).isSome = (w.slot? v).isSome := fun v =>
    Bool.eq_iff_iff.mpr (promoted v)
  refine ⟨slots, needed, counts, Set.Subset.antisymm ?_ ?_, fun s name commonjs => ?_⟩
  · exact undeclaredNames_subset left right wf bound
  · exact undeclaredNames_subset right left wf fun name => (bound name).symm
  · cases found : t.find? s name with
    | none => exact .inr (resolve_fork_of_missing left right bound found commonjs)
    | some answer =>
      obtain ⟨v, crossed⟩ := answer
      exact resolve_fork_of_found left right slots needed wf found commonjs

/-- Two orders of the same references. -/
theorem agree_of_perm
    (rooted : t.Rooted) (commonjs : Bool) {uses uses' : List Reference} (perm : uses.Perm uses') :
    t.Agree (t.resolveReferences commonjs uses) (t.resolveReferences commonjs uses') := by
  obtain ⟨left, -⟩ := resolves_resolveReferences rooted commonjs uses
  obtain ⟨right, -⟩ := resolves_resolveReferences rooted commonjs uses'
  refine agree_of_same_effect rooted.toWellFormed left right (fun v => ?_) (fun v taken => ?_)
    (fun name => ?_)
  · simp only [isSome_slot?_resolveReferences rooted, perm.mem_iff]
  · rcases (isSome_slot?_resolveReferences rooted commonjs uses v).mp taken with
      before | ⟨reference, -, captures⟩
    · obtain ⟨slot, before⟩ := Option.isSome_iff_exists.mp before
      obtain ⟨data, present, -⟩ := Option.bind_eq_some_iff.mp before
      rw [present]
      rfl
    · obtain ⟨data, present, -⟩ := var?_of_find? rooted.toWellFormed captures.1
      rw [present]
      rfl
  · simp only [bound_resolveReferences rooted, perm.mem_iff]

/-- Slots and globals change their places when the references are processed from the back. -/
theorem agree_closure : closure.Rooted ∧
      closure.Agree
        (closure.resolveReferences false
          [⟨3, "y", false⟩, ⟨3, "z", true⟩, ⟨2, "q", true⟩, ⟨3, "x", true⟩])
        (closure.resolveReferences false
          [⟨3, "x", true⟩, ⟨2, "q", true⟩, ⟨3, "z", true⟩, ⟨3, "y", false⟩]) :=
  ⟨rooted_closure, agree_of_perm rooted_closure false (by decide)⟩

end ScopeTree

end AccScript
