import AccScript.Proofs.Assembly.Unit
import AccScript.Proofs.Code.Placement

/-!
# Programs in assembly

Every unit of a compiled program is what its assembler held at the end, where the assembler was
sound.  The labels of a unit come from a stretch that no other unit shares: the assembler hands on
the next label from unit to unit.

A compilation may fail, but never because of its registers.
-/

namespace AccScript

open Asm Lower

variable {c : CompileContext} {source : UnitSource} {before a : Assembler} {u v : CompiledUnit}
  {result : CompiledProgram} {k : Nat} {failure : Failure} {e : Emitted} {l : Label}

/-! ## One unit -/

/-- A unit that is watched from its start, with no temporary around it. -/
def Guard.ofUnit (before : Assembler) : Guard :=
  { watched := True, first := before.nextLabel }

theorem sound_nextUnit (before : Assembler) : Sound (.ofUnit before) {} before.nextUnit := by
  have empty : before.nextUnit.registers.Sound := ⟨List.nodup_nil, nofun⟩
  refine ⟨rfl, rfl, rfl, ⟨.refl _, rfl, empty, nofun⟩, fun _ => ?_⟩
  refine ⟨⟨Nat.le_refl _, ?_, ?_, nofun, nofun, List.nodup_nil, nofun, ?_⟩, ⟨?_, ?_, ?_, ?_⟩, ?_, ?_, ?_,
    ?_, nofun, nofun⟩
  all_goals simp [Assembler.nextUnit, LabelAt, Nests]

theorem suits_env (scope : ScopeId) (watched : Prop) : Suits watched (c.env source scope) {} where
  fields := neutral_fieldInitOf source.owner?
  serves i rest inside := by
    cases List.suffix_nil.mp inside
  known _ := nofun
  mirrors _ := .outside
  crosses _ := .nil

theorem assemble_sound (c : CompileContext) (before : Assembler) (source : UnitSource) :
    match c.assemble before source with
    | .ok a => Sound (.ofUnit before) {} a ∧ a.isTerminated = true
    | .error failure => ¬failure.Blames := by
  unfold CompileContext.assemble
  cases scope : c.survey.scopeOf (source.node c.program) with
  | error failure => exact Survey.scopeOf_not_blames scope
  | ok s =>
    have flows : Flows (.ofUnit before) {} (unitCode c.program source (c.env source s)) fun _ => {} :=
      flows_unitCode (G := .ofUnit before) (σ := {}) rfl (suits_env s True) c.program source
    have ends := flows.ends _ (sound_nextUnit before)
    simp only [bind, Except.bind]
    cases run : (unitCode c.program source (c.env source s)).run before.nextUnit with
    | error failure => exact ends.not_blames run
    | ok result => exact ⟨(ends.post run).1, stops_unitCode c.program source _ _ run⟩

/-- A unit is what its assembler held at the end. -/
structure CompileContext.Builds (c : CompileContext) (source : UnitSource) (before a : Assembler)
    (u : CompiledUnit) : Prop where
  assembled : c.assemble before source = .ok a
  finished : ∃ unit name count, a.finish = .ok unit ∧ c.annotate source name count unit = .ok u

namespace CompileContext.Builds

variable (h : c.Builds source before a u)

include h

theorem sound : Sound (.ofUnit before) {} a := by
  have outcome := assemble_sound c before source
  rw [h.assembled] at outcome
  exact outcome.1

theorem isTerminated : a.isTerminated = true := by
  have outcome := assemble_sound c before source
  rw [h.assembled] at outcome
  exact outcome.2

theorem watched : Watched (.ofUnit before) {} [] a :=
  h.sound.watches trivial

theorem catchTable?_eq {region : TryRegion} (mem : region ∈ a.regions.toList) :
    Assembler.catchTable? region = some ⟨region.handler, region.ranges⟩ := by
  obtain ⟨i, found⟩ := List.getElem?_of_mem mem
  have sound := h.watched.regions.sound i region (by simpa using found)
  have closed : ¬region.opened.isSome = true := fun isOpen => nomatch sound.isOpen.mp isOpen
  have ranges := sound.table.resolve_right closed
  simp [Assembler.catchTable?, ranges]

theorem parts : u.code.map Emitted.content = a.code.toList.map Emitted.content ∧
      u.catchTables = a.regions.toList.map (fun region => ⟨region.handler, region.ranges⟩) ∧
      u.registerCount = a.nextRegister := by
  obtain ⟨unit, name, count, finished, annotated⟩ := h.finished
  unfold Assembler.finish at finished
  split at finished
  · cases finished
  · cases finished
    unfold CompileContext.annotate at annotated
    cases placed : Emitted.annotate (source.position c.program) c.options.debugMode a.code.toList with
    | error failure =>
      rw [placed] at annotated
      cases annotated
    | ok code =>
      rw [placed] at annotated
      have tables := List.filterMap_eq_map_iff_forall_eq_some.mpr fun region => h.catchTable?_eq
      injection annotated with annotated
      rw [← annotated]
      exact ⟨Emitted.map_content_annotate placed, tables, rfl⟩

theorem table_of_region {i : Nat} {region : TryRegion} (found : a.regions[i]? = some region) :
    u.catchTables[i]? = some ⟨region.handler, region.ranges⟩ := by
  rw [h.parts.2.1, List.getElem?_map, Array.getElem?_toList, found]
  rfl

theorem region_of_table {i : Nat} {table : CatchTable} (found : u.catchTables[i]? = some table) :
    ∃ region : TryRegion, a.regions[i]? = some region ∧ region.Sound [] a.code False ∧
      table = ⟨region.handler, region.ranges⟩ := by
  rw [h.parts.2.1, List.getElem?_map, Array.getElem?_toList, Option.map_eq_some_iff] at found
  obtain ⟨region, found, rfl⟩ := found
  have sound := h.watched.regions.sound i region found
  exact ⟨region, found, by simpa using sound, rfl⟩

theorem emitted (found : u.code[k]? = some e) :
    ∃ e' : Emitted, a.code[k]? = some e' ∧ e'.instruction = e.instruction ∧ e'.site = e.site ∧
      e'.boundaries = e.boundaries := by
  obtain ⟨e', found', same⟩ := Emitted.getElem?_of_map_content h.parts.1 found
  exact ⟨e', by simpa using found', same⟩

theorem placed (found : a.code[k]? = some e) :
    ∃ e' : Emitted, u.code[k]? = some e' ∧ e'.instruction = e.instruction ∧ e'.site = e.site ∧
      e'.boundaries = e.boundaries :=
  Emitted.getElem?_of_map_content h.parts.1.symm (by simpa using found)

theorem hasLabelAt_iff : u.HasLabelAt l k ↔ LabelAt a.code l k := by
  constructor
  · rintro ⟨e, found, label⟩
    obtain ⟨e', found', same, -⟩ := h.emitted found
    exact ⟨e', found', same.trans label⟩
  · rintro ⟨e, found, label⟩
    obtain ⟨e', found', same, -⟩ := h.placed found
    exact ⟨e', found', same.trans label⟩

theorem label_bounds (there : u.HasLabelAt l k) :
    before.nextLabel ≤ l.index ∧ l.index < a.nextLabel :=
  h.watched.labels.own (h.hasLabelAt_iff.mp there)

/-- Jumps and returns leave what they should. -/
theorem arrives (here : u.code[k]? = some e) : e.Arrives u.code.toArray a.copies k := by
  obtain ⟨e', emitted, instruction, site, -⟩ := h.emitted here
  refine (h.watched.arrives k e' emitted).mono (fun j e found => ?_) (fun _ mem => mem)
    instruction.symm site.symm
  obtain ⟨e', found', same, -⟩ := h.placed found
  exact ⟨e', by simpa using found', same⟩

end CompileContext.Builds

/-! ## All units -/

/-- No label stands in both units. -/
def CompiledUnit.Apart (u v : CompiledUnit) : Prop :=
  ∀ l i j, u.HasLabelAt l i → ¬v.HasLabelAt l j

/-- Units were built with labels from a stretch, and share none. -/
structure CompileContext.Allots (c : CompileContext) (first next : Nat) (units : List CompiledUnit) :
    Prop where
  le : first ≤ next
  builds : ∀ u ∈ units, ∃ source before a, c.Builds source before a u ∧
    first ≤ before.nextLabel ∧ a.nextLabel ≤ next
  apart : units.Pairwise CompiledUnit.Apart

namespace CompileContext.Allots

variable {first middle next : Nat} {units units' : List CompiledUnit}

theorem nil (first : Nat) : c.Allots first first [] :=
  ⟨Nat.le_refl _, nofun, .nil⟩

theorem mono (h : c.Allots first next units) {first' next' : Nat} (lower : first' ≤ first)
    (upper : next ≤ next') : c.Allots first' next' units := by
  refine ⟨Nat.le_trans lower (Nat.le_trans h.le upper), fun u mem => ?_, h.apart⟩
  obtain ⟨source, before, a, built, start, stop⟩ := h.builds u mem
  exact ⟨source, before, a, built, Nat.le_trans lower start, Nat.le_trans stop upper⟩

theorem label_bounds (h : c.Allots first next units) (mem : u ∈ units)
    (there : u.HasLabelAt l k) : first ≤ l.index ∧ l.index < next := by
  obtain ⟨source, before, a, built, start, stop⟩ := h.builds u mem
  have bounds := built.label_bounds there
  exact ⟨Nat.le_trans start bounds.1, Nat.lt_of_lt_of_le bounds.2 stop⟩

/-- Stretches that follow each other share no labels. -/
theorem append (h : c.Allots first middle units) (h' : c.Allots middle next units') :
    c.Allots first next (units ++ units') := by
  refine ⟨Nat.le_trans h.le h'.le, fun u mem => ?_, List.pairwise_append.mpr ⟨h.apart, h'.apart, ?_⟩⟩
  · rcases List.mem_append.mp mem with mem | mem
    · exact (h.mono (Nat.le_refl _) h'.le).builds u mem
    · exact (h'.mono h.le (Nat.le_refl _)).builds u mem
  · intro u mem v mem' l i j there there'
    have bound := (h.label_bounds mem there).2
    have bound' := (h'.label_bounds mem' there').1
    omega

theorem concat (h : c.Allots middle next units) (built : c.Builds source before a u)
    (stop : a.nextLabel ≤ middle) (le : before.nextLabel ≤ a.nextLabel) :
    c.Allots before.nextLabel next (units ++ [u]) := by
  have le' := h.le
  refine ⟨by omega, fun v mem => ?_, List.pairwise_append.mpr ⟨h.apart, .cons nofun .nil, ?_⟩⟩
  · rcases List.mem_append.mp mem with mem | mem
    · exact (h.mono (by omega) (Nat.le_refl _)).builds v mem
    · obtain rfl := List.mem_singleton.mp mem
      exact ⟨source, before, a, built, Nat.le_refl _, by omega⟩
  · intro v mem w mem' l i j there there'
    obtain rfl := List.mem_singleton.mp mem'
    have bound := (h.label_bounds mem there).1
    have bound' := (built.label_bounds there').2
    omega

end CompileContext.Allots

/-- A compilation goes on: it adds units with labels of their own. -/
def CompileContext.Extends (c : CompileContext) (p q : Progress) : Prop :=
  ∃ new, q.units.toList = p.units.toList ++ new ∧
    c.Allots p.assembler.nextLabel q.assembler.nextLabel new

namespace CompileContext

variable {p q r : Progress}

theorem Extends.refl (p : Progress) : c.Extends p p :=
  ⟨[], by simp, .nil _⟩

theorem Extends.trans (h : c.Extends p q) (h' : c.Extends q r) : c.Extends p r := by
  obtain ⟨new, units, allots⟩ := h
  obtain ⟨new', units', allots'⟩ := h'
  exact ⟨new ++ new', by rw [units', units, List.append_assoc], allots.append allots'⟩

theorem ends_forM {α : Type} {f : α → Compile Unit}
    (h : ∀ x p, Ends (f x) p fun _ q => c.Extends p q) (items : List α) (p : Progress) :
    Ends (items.forM f) p fun _ q => c.Extends p q := by
  induction items generalizing p with
  | nil => exact .pure (.refl p)
  | cons x rest ih =>
    exact (h x p).bind fun _ q first => (ih q).imp fun _ r _ others => first.trans others

theorem unitName_not_blames {node : NodeId}
    (failed : c.unitName node = .error failure) : ¬failure.Blames := by
  unfold unitName at failed
  split at failed
  · cases failed
  · cases failed
    exact Failure.not_blames_internal (c := 'u') (by simp) rfl

theorem parameterCount_not_blames {node : NodeId}
    (failed : c.parameterCount node = .error failure) : ¬failure.Blames := by
  unfold parameterCount at failed
  cases scope : c.survey.scopeOf node with
  | error other =>
    rw [scope] at failed
    cases failed
    exact Survey.scopeOf_not_blames scope
  | ok s =>
    rw [scope] at failed
    cases data : orBroken (c.survey.tree.variableScope? s) with
    | error other =>
      simp only [bind, Except.bind, data] at failed
      cases failed
      exact orBroken_not_blames data
    | ok data' =>
      simp only [bind, Except.bind, data] at failed
      cases failed

theorem annotate_not_blames {name : String} {count : Nat} {unit : AssembledUnit}
    (failed : c.annotate source name count unit = .error failure) : ¬failure.Blames := by
  unfold annotate Emitted.annotate at failed
  split at failed
  · cases failed
  · cases failed
    exact Failure.not_blames_unmet

theorem finish_eq_ok {G : Guard} {σ : Stage} (sound : Sound G σ a) (rest : G.AtRest σ) :
    ∃ unit, a.finish = .ok unit := by
  have none : a.liveTemps = 0 := by
    rw [sound.allocates.count, (sound.allocates.live.trans (.of_eq rest)).length_eq]
    rfl
  exact ⟨_, if_neg (not_not_intro none)⟩

theorem ends_compileUnit (c : CompileContext) (depth : Nat) (source : UnitSource) (p : Progress) :
    Ends (c.compileUnit depth source) p fun _ q => c.Extends p q := by
  induction depth generalizing source p with
  | zero => exact .of_error rfl Failure.not_blames_unmet
  | succ depth ih =>
    unfold compileUnit
    refine .get ?_
    split
    · exact .pure (.refl p)
    · refine .update (.ask (fun _ => unitName_not_blames) fun name _ => .get ?_)
      have outcome := assemble_sound c p.assembler source
      refine .ask (fun failure failed => ?_) fun a assembled => ?_
      · rw [failed] at outcome
        exact outcome
      · rw [assembled] at outcome
        obtain ⟨unit, finished⟩ := finish_eq_ok outcome.1 rfl
        refine .ask (fun _ => parameterCount_not_blames) fun count _ => .ask (fun failure failed => ?_)
          fun unit' finished' => ?_
        · rw [finished] at failed
          cases failed
        · refine .update (.bind (ends_forM ih _ _) fun _ q inner =>
            .ask (fun _ => annotate_not_blames) fun compiled annotated => ?_)
          refine .of_run (x := ()) (b := { q with units := q.units.push compiled }) rfl ?_
          obtain ⟨new, units, allots⟩ := inner
          have built : c.Builds source p.assembler a compiled :=
            ⟨assembled, unit', name, count, finished', annotated⟩
          have listed : (q.units.push compiled).toList = p.units.toList ++ (new ++ [compiled]) := by
            rw [Array.toList_push, units, List.append_assoc]
          exact ⟨new ++ [compiled], listed, allots.concat built (Nat.le_refl _)
            built.watched.labels.start⟩

theorem run_builds (c : CompileContext) : match c.run with
    | .ok result => ∃ next, c.Allots 0 next result.units
    | .error failure => ¬failure.Blames := by
  have ends := ends_compileUnit c c.depth .program { assembler := .ofOptions c.options }
  unfold run
  simp only [bind, Except.bind]
  cases run : (c.compileUnit c.depth .program).run { assembler := .ofOptions c.options } with
  | error failure => exact ends.not_blames run
  | ok result =>
    obtain ⟨new, units, allots⟩ := ends.post run
    have all : result.2.units.toList = new := by simpa using units
    exact ⟨_, all ▸ allots⟩

theorem allots_of_run (compiled : c.run = .ok result) : ∃ next, c.Allots 0 next result.units := by
  have outcome := run_builds c
  rwa [compiled] at outcome

theorem builds_of_run (compiled : c.run = .ok result)
    (mem : u ∈ result.units) : ∃ source before a, c.Builds source before a u := by
  obtain ⟨next, allots⟩ := allots_of_run compiled
  obtain ⟨source, before, a, built, -, -⟩ := allots.builds u mem
  exact ⟨source, before, a, built⟩

end CompileContext

theorem compile_eq_ok_iff {program : Program} {options : Options} {types : TypeTable} :
    compile program options types = .ok result ↔
      ∃ c, CompileContext.ofProgram program options types = .ok c ∧ c.run = .ok result := by
  unfold compile
  cases analyzed : CompileContext.ofProgram program options types with
  | error failure => simp [bind, Except.bind, Except.mapError]
  | ok c =>
    cases ran : c.run with
    | error failure => simp [bind, Except.bind, Except.mapError, ran]
    | ok result' => simp [bind, Except.bind, Except.mapError, ran]

end AccScript
