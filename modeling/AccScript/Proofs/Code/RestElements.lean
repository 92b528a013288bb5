import AccScript.Proofs.Code.Allocation
import AccScript.Proofs.Code.Keys

/-!
# Rest elements of object patterns

A rest element takes a copy of the value without the properties that the elements before it have
taken out, as far as their names stand in the source: `excludes_fixed` has the code that makes the
copy and deletes those names from it, one after the other.  A key that is computed at run time is
forgotten once its property is bound, and the copy keeps the property: `keeps_computed`.
-/

namespace AccScript

open Asm Lower

variable {env : Env} {a b : Assembler} {value : Register} {mode : BindingMode}

/-! ## Names -/

/-- The name of the property that an element takes out, if it is fixed. -/
def PatternElement.excluded? : PatternElement → Option String
  | ⟨_, none, _, _⟩ | ⟨_, _, _, true⟩ => none
  | ⟨some key, _, _, false⟩ => key.fixedName?
  | ⟨none, some (.identifier identifier), _, false⟩ => some identifier.name
  | ⟨none, some (.pattern _), _, false⟩ => none

/-- The key of an element that takes a property out. -/
theorem PatternElement.name?_of_run {element : PatternElement} {target : BindingTarget}
    {operand : KeyOperand} (targeted : element.target = some target)
    (plain : element.isRest = false)
    (run : (element.lower mode).key env a = .ok (operand, b)) :
    operand.name? = element.excluded? := by
  obtain ⟨key, _, default, _⟩ := element
  cases targeted
  cases plain
  cases key with
  | some key => exact (PropertyKey.readies_of_run run).name?_eq
  | none =>
    cases target <;> cases run
    rfl

theorem PatternElement.lower_eq (element : PatternElement) (mode : BindingMode) :
    (element.lower mode).target = BindingTarget.lower? element.target mode ∧
      (element.lower mode).isRest = element.isRest := by
  obtain ⟨_ | _, _, _, _⟩ := element <;> exact ⟨rfl, rfl⟩

theorem PatternElement.lowerEach_append (front after : List PatternElement) (mode : BindingMode) :
    PatternElement.lowerEach (front ++ after) mode =
      PatternElement.lowerEach front mode ++ PatternElement.lowerEach after mode := by
  induction front with
  | nil => simp [PatternElement.lowerEach]
  | cons element front ih => simp [PatternElement.lowerEach, ih]

/-- Elements are bound in order, and each leaves its fixed name to those behind it. -/
theorem bindProperties_append {parts : List PatternPart} (front : List PatternElement)
    (seen : List String) (run : bindProperties value seen
      (PatternElement.lowerEach front mode ++ parts) env a = .ok ((), b)) :
    ∃ c, bindProperties value seen (PatternElement.lowerEach front mode) env a = .ok ((), c) ∧
      bindProperties value (seen ++ front.filterMap PatternElement.excluded?) parts env c =
        .ok ((), b) := by
  induction front generalizing seen a with
  | nil => exact ⟨a, by simp [PatternElement.lowerEach, bindProperties]; rfl,
      by simpa [PatternElement.lowerEach] using run⟩
  | cons e front ih =>
    rw [PatternElement.lowerEach, List.cons_append, bindProperties, (e.lower_eq mode).1,
      (e.lower_eq mode).2] at run
    rw [PatternElement.lowerEach, bindProperties, (e.lower_eq mode).1, (e.lower_eq mode).2]
    cases targeted : e.target with
    | none =>
      rw [targeted] at run
      obtain ⟨c, first, rest⟩ := ih seen run
      have none : e.excluded? = none := by
        obtain ⟨_, _, _, _⟩ := e
        cases targeted
        rfl
      exact ⟨c, first, by simpa [none] using rest⟩
    | some t =>
      rw [targeted] at run
      cases isRest : e.isRest with
      | true =>
        rw [isRest] at run
        obtain ⟨⟨_, d⟩, own, run⟩ := exists_of_bind_eq_ok run
        obtain ⟨c, first, rest⟩ := ih seen run
        have none : e.excluded? = none := by
          obtain ⟨_, _ | _, _, _⟩ := e <;> cases isRest <;> rfl
        exact ⟨c, (Lower.run_bind_of_ok own).trans first, by simpa [none] using rest⟩
      | false =>
        rw [isRest] at run
        obtain ⟨⟨key, d⟩, evaluated, run⟩ := exists_of_bind_eq_ok run
        obtain ⟨⟨_, e'⟩, own, run⟩ := exists_of_bind_eq_ok
          (x := bindProperty value key (e.lower mode).default (t.lower mode) env d) run
        obtain ⟨c, first, rest⟩ := ih _ run
        refine ⟨c, (Lower.run_bind_of_ok evaluated).trans
          ((Lower.run_bind_of_ok own).trans first), ?_⟩
        rw [PatternElement.name?_of_run targeted isRest evaluated] at rest
        cases named : e.excluded? <;> simpa [named] using rest

/-! ## The copy -/

/-- The code that deletes named properties of an object. -/
def deletions (object : Register) (ids : List StringId) : List Instruction :=
  ids.flatMap fun id => [.ldaStr id, .delObjProp object]

/-- The code that copies a value and deletes named properties of the copy. -/
def restCopy (value copy : Register) (ids : List StringId) : List Instruction :=
  [.createEmptyObject, .sta copy, .lda value, .copyDataProperties copy] ++ deletions copy ids ++
    [.lda copy]

namespace Assembler.Allocates

variable {temps : List Register}

theorem follows_deleteNames (h : a.Allocates temps) (object : Register) (names : List String) :
    ∃ ids b, deleteNames object names a = .ok ((), b) ∧
      a.Follows b (deletions object ids) temps ∧
      ids.map (fun id => b.strings[id.index]?) = names.map some := by
  induction names generalizing a with
  | nil => exact ⟨[], a, rfl, .refl h, rfl⟩
  | cons name names ih =>
    obtain ⟨id, c, interned, named, placed⟩ := h.follows_intern name
    obtain ⟨d, loaded, load⟩ := named.allocates.follows_emit (.ldaStr id)
    obtain ⟨e, deleted, delete⟩ := load.allocates.follows_emit (.delObjProp object)
    obtain ⟨ids, b, ran, rest, told⟩ := ih delete.allocates
    refine ⟨id :: ids, b, ?_, ((named.trans load).trans delete).trans rest, ?_⟩
    · have load : loadString name a = .ok ((), d) := (run_bind_of_ok interned).trans loaded
      rw [deleteNames, run_bind_of_ok load, run_bind_of_ok deleted, ran]
    · have kept := ((load.trans delete).trans rest).getElem?_strings placed
      simp [kept, told]

/-- A rest element copies, deletes the names so far, and binds the copy. -/
theorem follows_bindRest (h : a.Allocates temps) {names : List String} {target : Lower Unit}
    (run : bindRest value names target env a = .ok ((), b)) :
    ∃ copied bound copy ids, a.Follows copied (restCopy value copy ids) (copy :: temps) ∧
      ids.map (fun id => copied.strings[id.index]?) = names.map some ∧
      target env copied = .ok ((), bound) ∧ Asm.freeTemps [copy] bound = .ok ((), b) := by
  obtain ⟨copy, c, taken, start⟩ := h.follows_getTemp
  obtain ⟨d, created, create⟩ := start.allocates.follows_emit .createEmptyObject
  obtain ⟨e, stored, store⟩ := create.allocates.follows_emit (.sta copy)
  obtain ⟨f, loaded, load⟩ := store.allocates.follows_emit (.lda value)
  obtain ⟨g, filled, fill⟩ := load.allocates.follows_emit (.copyDataProperties copy)
  obtain ⟨ids, i, deleted, delete, told⟩ := fill.allocates.follows_deleteNames copy names
  obtain ⟨copied, reloaded, reload⟩ := delete.allocates.follows_emit (.lda copy)
  have split : bindRest value names target env a =
      (target >>= fun _ => Asm.freeTemps [copy] : Lower Unit) env copied := by
    show (getTemp >>= fun rest => emit .createEmptyObject >>= fun _ => sta rest >>= fun _ =>
      lda value >>= fun _ => emit (.copyDataProperties rest) >>= fun _ =>
      deleteNames rest names >>= fun _ => lda rest >>= fun _ =>
      (target >>= fun _ => Asm.freeTemps [rest] : Lower Unit) env) a = _
    rw [run_bind_of_ok taken, run_bind_of_ok created, sta, run_bind_of_ok stored, lda,
      run_bind_of_ok loaded, run_bind_of_ok filled, run_bind_of_ok deleted, lda,
      run_bind_of_ok reloaded]
  obtain ⟨⟨_, bound⟩, targeted, freed⟩ := exists_of_bind_eq_ok (split.symm.trans run)
  refine ⟨copied, bound, copy, ids, ?_, ?_, targeted, freed⟩
  · exact (((((start.trans create).trans store).trans load).trans fill).trans delete).trans reload
  · rw [← told]
    refine List.map_congr_left fun id mem => ?_
    obtain ⟨name, -, found⟩ := List.mem_map.mp (told ▸ List.mem_map_of_mem mem)
    rw [← found]
    exact reload.getElem?_strings found.symm

end Assembler.Allocates

/-- The elements of a pattern give back what they take and add their code at the end. -/
theorem grows_bindProperties (fields : InitializesFields env.fieldInit) {temps : List Register}
    (own : value ∈ temps) (allocated : a.Allocates temps) (elements : List PatternElement)
    (seen : List String) (run : bindProperties value seen (PatternElement.lowerEach elements mode)
      env a = .ok ((), b)) :
    b.Allocates temps ∧ a.instructions <+: b.instructions := by
  have parts : List.Forall₂ (flowing.PatternElements env) (PatternElement.lowerEach elements mode)
      (PatternElement.lowerEach (PatternElement.bareList elements) mode) :=
    PatternElement.parts_lowerEach elements mode
      ((⟨⟨0, 0⟩, .object, elements⟩ : Pattern).surveyed_blank _) False.elim
  have flows := Judgement.leads_bindProperties (σ := a.stage temps) parts own seen fields.neutral
    { watched := False }
  obtain ⟨sound, grows⟩ := (flows.ends a allocated.sound).post run
  refine ⟨by simpa using sound.allocates, ?_⟩
  rw [grows.instructions]
  exact List.prefix_append _ _

/-- The code of an object pattern comes to a rest element with a copy of the value, in a register of
its own, from which exactly the properties that the elements before it take out by a fixed name
have been deleted, and binds this copy. -/
theorem excludes_fixed (fields : InitializesFields env.fieldInit) {position : Position}
    (front after : List PatternElement) {element : PatternElement} {target : BindingTarget}
    (rest : element.isRest = true) (targeted : element.target = some target)
    {temps : List Register} (own : value ∈ temps) (allocated : a.Allocates temps)
    (run : Pattern.lower ⟨position, .object, front ++ element :: after⟩ mode value env a =
      .ok ((), b)) :
    ∃ (before copied bound : Assembler) (copy : Register) (ids : List StringId),
      a.instructions <+: before.instructions ∧
      before.Follows copied (restCopy value copy ids) (copy :: temps) ∧ copy ∉ temps ∧
      ids.map (fun id => copied.strings[id.index]?) =
        (front.filterMap PatternElement.excluded?).map some ∧
      target.lower mode env copied = .ok ((), bound) ∧ bound.instructions <+: b.instructions := by
  have run : bindProperties value [] (PatternElement.lowerEach (front ++ element :: after) mode) env
      a = .ok ((), b) := run
  rw [PatternElement.lowerEach_append] at run
  obtain ⟨before, first, run⟩ := bindProperties_append front [] run
  obtain ⟨allocates, start⟩ := grows_bindProperties fields own allocated front [] first
  rw [PatternElement.lowerEach, bindProperties, (element.lower_eq mode).1, targeted,
    (element.lower_eq mode).2, rest] at run
  obtain ⟨⟨_, d⟩, ran, run⟩ := exists_of_bind_eq_ok run
  obtain ⟨copied, bound, copy, ids, copies, told, binds, freed⟩ := allocates.follows_bindRest ran
  refine ⟨before, copied, bound, copy, ids, start, copies, ?_, told, binds, ?_⟩
  · exact (List.nodup_cons.mp copies.allocates.nodup).1
  · have alone : bindProperties value ([] ++ front.filterMap PatternElement.excluded?)
        (PatternElement.lowerEach [element] mode) env before = .ok ((), d) := by
      rw [PatternElement.lowerEach, bindProperties, (element.lower_eq mode).1, targeted,
        (element.lower_eq mode).2, rest]
      exact Lower.run_bind_of_ok ran
    obtain ⟨allocates, -⟩ := grows_bindProperties fields own allocates [element] _ alone
    obtain ⟨-, last⟩ := grows_bindProperties fields own allocates after _ run
    rwa [instructions_of_freeTemps freed] at last

/-- The pattern `{ elements, ...r }`. -/
def Pattern.takingApart (elements : List PatternElement) : Pattern :=
  ⟨⟨1, 0⟩, .object, elements ++ [⟨none, some (.identifier ⟨"r", 1⟩), none, true⟩]⟩

/-- The program `let { elements, ...r } = o`. -/
def Program.takingApart (elements : List PatternElement) : Program where
  id := 0
  position := ⟨1, 0⟩
  statements := [⟨2, ⟨1, 0⟩, .variableDecl ⟨.let, [⟨⟨1, 0⟩, .pattern (.takingApart elements),
    some ⟨⟨1, 0⟩, .identifier "o"⟩⟩]⟩ false⟩]
  isStrict := false
  nextNodeId := 5
  derivedFrom := []

/-- The element `a: x`, whose key is fixed. -/
def PatternElement.named : PatternElement :=
  ⟨some (.identifier "a"), some (.identifier ⟨"x", 3⟩), none, false⟩

/-- The element `[k]: y`, whose key is computed. -/
def PatternElement.keyed : PatternElement :=
  ⟨some (.computed ⟨⟨1, 0⟩, .identifier "k"⟩), some (.identifier ⟨"y", 4⟩), none, false⟩

def Instruction.isDeletion : Instruction → Bool
  | .delObjProp _ => true
  | _ => false

/-- The pattern of the program, applied to a temporary at its top. -/
def CompileContext.takesApart (c : CompileContext) (elements : List PatternElement) : Code := do
  let value ← getTemp
  Pattern.lower (.takingApart elements) .declare value (c.env .program ScopeTree.rootId)

/-- Of `let { a: x, [k]: y, ...r } = o` the name `a` is deleted from the copy. -/
theorem excludes_fixed_takingApart :
    ∃ c result, CompileContext.ofProgram (.takingApart [.named, .keyed]) {} (fun _ => none) = .ok c ∧
      c.run = .ok result ∧ result.strings[1]? = some "a" ∧
      (∃ u ∈ result.units, restCopy ⟨3⟩ ⟨4⟩ [⟨1⟩] <:+: u.instructions) ∧
      ∃ (value copy : Register) (ids : List StringId) (before copied : Assembler),
        before.Follows copied (restCopy value copy ids) [copy, value] ∧ copy ≠ value ∧
        ids.map (fun id => copied.strings[id.index]?) = [some "a"] := by
  have runs : ((CompileContext.ofProgram (.takingApart [.named, .keyed]) {} (fun _ => none)).bind
      fun c => c.run.map fun result => (result.strings[1]?,
        decide (∃ u ∈ result.units, (u.instructions.drop 10).take 7 = restCopy ⟨3⟩ ⟨4⟩ [⟨1⟩]),
        (c.takesApart [.named, .keyed] {}).toOption.isSome)).toOption =
          some (some "a", true, true) := by
    decide +kernel
  obtain ⟨c, result, analyzed, compiled, ran⟩ := exists_of_compiled runs
  simp only [Prod.mk.injEq, decide_eq_true_eq] at ran
  obtain ⟨named, ⟨u, mem, copies⟩, ran⟩ := ran
  obtain ⟨⟨_, b⟩, run⟩ := exists_of_isSome ran
  obtain ⟨value, a, taken, start⟩ := Assembler.Allocates.empty.follows_getTemp
  rw [CompileContext.takesApart, Asm.run_bind_of_ok taken] at run
  obtain ⟨before, copied, -, copy, ids, -, follows, apart, told, -⟩ := excludes_fixed
    c.initializesFields [.named, .keyed] [] rfl rfl (.head _) start.allocates run
  exact ⟨c, result, analyzed, compiled, named, ⟨u, mem, isInfix_of_slice copies⟩, value, copy, ids,
    before, copied, follows, fun same => apart (same ▸ .head _), told⟩

/-- In `let { [k]: y, ...r } = o` nothing is deleted from the copy. -/
theorem keeps_computed :
    ∃ c result, CompileContext.ofProgram (.takingApart [.keyed]) {} (fun _ => none) = .ok c ∧
      c.run = .ok result ∧ ∃ u ∈ result.units, restCopy ⟨3⟩ ⟨4⟩ [] <:+: u.instructions ∧
        ∀ r, .delObjProp r ∉ u.instructions := by
  have runs : ((CompileContext.ofProgram (.takingApart [.keyed]) {} (fun _ => none)).bind
      fun c => c.run.map fun result => decide (∃ u ∈ result.units,
        (u.instructions.drop 7).take 5 = restCopy ⟨3⟩ ⟨4⟩ [] ∧
          u.instructions.all fun i => !i.isDeletion)).toOption = some true := by
    decide +kernel
  obtain ⟨c, result, analyzed, compiled, ran⟩ := exists_of_compiled runs
  obtain ⟨u, mem, copies, spared⟩ := of_decide_eq_true ran
  refine ⟨c, result, analyzed, compiled, u, mem, isInfix_of_slice copies, fun r deletes => ?_⟩
  exact Bool.false_ne_true (List.all_eq_true.mp spared _ deletes)

end AccScript
