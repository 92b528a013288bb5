import AccScript.Proofs.Survey.Walk
import Mathlib.Data.List.Nodup

/-!
# Module records

The record of a module that is surveyed says what its text says: it refers to just the modules that
are mentioned, and an export of the name of an import exports what is imported, wherever the import
stands.  So the order of the statements matters only to the order of the entries.
-/

namespace AccScript

/-! ## Texts in another order -/

namespace ModuleText

variable {J K : ModuleText}

/-- Two texts have the same entries. -/
structure Perm (J K : ModuleText) : Prop where
  imports : J.imports.Perm K.imports
  locals : J.locals.Perm K.locals
  indirects : J.indirects.Perm K.indirects
  clauses : J.clauses.Perm K.clauses

theorem Perm.refl (J : ModuleText) : J.Perm J :=
  ⟨.refl _, .refl _, .refl _, .refl _⟩

theorem Perm.trans {L : ModuleText} (h : J.Perm K) (h' : K.Perm L) : J.Perm L :=
  ⟨h.imports.trans h'.imports, h.locals.trans h'.locals, h.indirects.trans h'.indirects,
    h.clauses.trans h'.clauses⟩

theorem Perm.append_left (I : ModuleText) (h : J.Perm K) : (I ++ J).Perm (I ++ K) :=
  ⟨h.imports.append_left _, h.locals.append_left _, h.indirects.append_left _,
    h.clauses.append_left _⟩

theorem perm_append_comm (I J K : ModuleText) : (I ++ (J ++ K)).Perm (J ++ (I ++ K)) := by
  rw [← append_assoc, ← append_assoc]
  exact ⟨List.perm_append_comm.append_right _, List.perm_append_comm.append_right _,
    List.perm_append_comm.append_right _, List.perm_append_comm.append_right _⟩

theorem import?_eq_some (distinct : (J.imports.map Prod.fst).Nodup) (name : String)
    (entry : String × String × String) :
    J.import? name = some entry ↔ entry ∈ J.imports ∧ entry.1 = name := by
  constructor
  · intro found
    exact ⟨List.mem_of_find?_eq_some found, by simpa using List.find?_some found⟩
  · rintro ⟨mem, rfl⟩
    cases found : J.import? entry.1 with
    | none => simpa using List.find?_eq_none.mp found entry mem
    | some other =>
      have own : other.1 = entry.1 := by simpa using List.find?_some found
      rw [List.inj_on_of_nodup_map distinct (List.mem_of_find?_eq_some found) mem own]

theorem Perm.import? (h : J.Perm K) (distinct : (J.imports.map Prod.fst).Nodup) :
    J.import? = K.import? := by
  have distinct' := (h.imports.map Prod.fst).nodup_iff.mp distinct
  funext name
  apply Option.ext
  intro entry
  rw [import?_eq_some distinct, import?_eq_some distinct', h.imports.mem_iff]

theorem Perm.decided (h : J.Perm K) (distinct : (J.imports.map Prod.fst).Nodup) :
    J.decided.Perm K.decided := by
  unfold ModuleText.decided
  rw [h.import? distinct]
  exact ⟨h.imports, h.locals.append ((h.clauses.filter _).map _),
    h.indirects.append (h.clauses.filterMap _), .refl _⟩

end ModuleText

theorem Statement.perm_moduleText {statements statements' : List Statement}
    (h : statements.Perm statements') :
    (Statement.moduleText statements).Perm (Statement.moduleText statements') := by
  induction h with
  | nil => exact .refl _
  | cons statement _ ih => exact ih.append_left _
  | swap a b rest => exact ModuleText.perm_append_comm _ _ _
  | trans _ _ ih ih' => exact ih.trans ih'

/-! ## Records -/

namespace ModuleRecord

variable {r : ModuleRecord} {J : ModuleText}

def places (r : ModuleRecord) : List Nat :=
  r.regularImports.map RegularImport.moduleRequest ++
    r.namespaceImports.map NamespaceImport.moduleRequest ++
    r.indirectExports.map IndirectExport.moduleRequest ++ r.starExports

/-- The exports of other modules' bindings, with the names of the modules. -/
def reexports (r : ModuleRecord) : List (String × String × Option String) :=
  r.indirectExports.map fun entry =>
    (entry.exportName, entry.importName, r.moduleRequests[entry.moduleRequest]?)

theorem Describes.reexports_eq (h : r.Describes J) :
    r.reexports = J.indirects.map fun text => (text.1, text.2.1, some text.2.2) := by
  have all := h.indirects
  unfold reexports
  generalize r.indirectExports = entries, J.indirects = texts at all
  induction all with
  | nil => rfl
  | cons own _ ih => rw [List.map_cons, List.map_cons, ih, own.1, own.2.1, own.2.2]

theorem Describes.places_lt (h : r.Describes J) {place : Nat} (mem : place ∈ r.places) :
    place < r.moduleRequests.length := by
  have inside : ∀ {place request}, r.Refers place request → place < r.moduleRequests.length :=
    fun refers => (List.getElem?_eq_some_iff.mp refers).1
  have all : ∀ {α β : Type} {R : α → β → Prop} {entries : List α} {texts : List β} {f : α → Nat},
      List.Forall₂ R entries texts → (∀ a b, R a b → f a < r.moduleRequests.length) →
      ∀ place ∈ entries.map f, place < r.moduleRequests.length := by
    intro α β R entries texts f related bound place mem
    induction related with
    | nil => cases mem
    | cons own _ ih =>
      rcases List.mem_cons.mp mem with rfl | mem
      · exact bound _ _ own
      · exact ih mem
  simp only [places, List.mem_append] at mem
  rcases mem with ((mem | mem) | mem) | mem
  · exact all h.imports (fun _ _ own => inside own.2.2) place mem
  · exact all h.namespaces (fun _ _ own => inside own.2) place mem
  · exact all h.indirects (fun _ _ own => inside own.2.2) place mem
  · exact all h.stars (fun _ _ own => inside own) place (by simpa using mem)

end ModuleRecord

namespace Survey

variable {p : Program} {options : Options} {σ : Survey}

/-- The walk over a module, and then the exports of its local names. -/
theorem describes_ofProgram (isModule : options.esModule = true)
    (run : ofProgram p options = .ok σ) :
    ∃ record, σ.moduleRecord = some record ∧
      record.Describes (Statement.moduleText p.statements).decided := by
  have outcome := Walk.follows_walkStatements p (start p options)
    (rooted_start p options)
  obtain ⟨⟨_, μ⟩, walked, finished⟩ := exists_of_bind_eq_ok run
  cases finished
  obtain ⟨_, -, -, -, told, -⟩ := (walked ▸ outcome).of_ok
  have started : (start p options).Describes {} :=
    ⟨⟨{}, by simp [start, isModule], ModuleRecord.describes_nothing⟩, rfl⟩
  obtain ⟨⟨record, found, text⟩, pending⟩ := told {} started
  rw [ModuleText.nothing_append, ModuleText.atScope, if_pos rfl] at text pending
  refine ⟨_, by rw [finishExports, found], ?_⟩
  rw [pending]
  exact { text.foldl_addExportOfLocalName _ _ rfl with }

/-- Every place in the table of modules that a record uses is one of the table, which has just the
modules that the text mentions; an export of a local name is one of what is imported under this name,
or one of the module's own; and the order of the statements does not matter to what is exported. -/
theorem moduleRecord_of_text (isModule : options.esModule = true)
    (run : ofProgram p options = .ok σ) :
    ∃ record, σ.moduleRecord = some record ∧
      record.Describes (Statement.moduleText p.statements).decided ∧
      (∀ place ∈ record.places, place < record.moduleRequests.length) ∧
      (((Statement.moduleText p.statements).imports.map Prod.fst).Nodup →
        ∀ (p' : Program) (options' : Options) (σ' : Survey),
          p.statements.Perm p'.statements → options'.esModule = true →
          ofProgram p' options' = .ok σ' →
          ∃ record', σ'.moduleRecord = some record' ∧
            record.localExports.Perm record'.localExports ∧
            record.reexports.Perm record'.reexports) := by
  obtain ⟨record, found, text⟩ := describes_ofProgram isModule run
  refine ⟨record, found, text, fun place mem => text.places_lt mem, ?_⟩
  intro distinct p' options' σ' same isModule' run'
  obtain ⟨record', found', text'⟩ := describes_ofProgram isModule' run'
  have perm := (Statement.perm_moduleText same).decided distinct
  refine ⟨record', found', ?_, ?_⟩
  · rw [text.locals, text'.locals]
    exact perm.locals
  · rw [text.reexports_eq, text'.reexports_eq]
    exact perm.indirects.map _

end Survey

/-- `export { x as y }` before `import { z as x } from "m"`. -/
def Program.exporter : Program where
  id := 0
  position := .bare
  statements :=
    [⟨1, .bare, .exportDecl { request := none, specifiers := some [⟨"x", "y"⟩] }⟩,
      ⟨2, .bare, .importDecl
        { request := "m", defaultBinding := none, namespaceBinding := none
          namedBindings := some [⟨3, "z", ⟨"x", 4⟩⟩] }⟩]
  isStrict := true
  nextNodeId := 5
  derivedFrom := []

/-- The clause exports what is imported after it, and so it does after the import. -/
theorem Survey.moduleRecord_of_text_exporter :
    ∃ σ record, Survey.ofProgram .exporter { esModule := true } = .ok σ ∧
      σ.moduleRecord = some record ∧ record.moduleRequests = ["m"] ∧
      record.reexports = [("y", "z", some "m")] ∧
      ∃ σ' record', Survey.ofProgram
          { Program.exporter with statements := Program.exporter.statements.reverse }
          { esModule := true } = .ok σ' ∧
        σ'.moduleRecord = some record' ∧ record'.reexports = [("y", "z", some "m")] := by
  obtain ⟨record, found, text, -, perm⟩ := moduleRecord_of_text rfl
    (rfl : Survey.ofProgram .exporter { esModule := true } = .ok _)
  obtain ⟨record', found', -, same⟩ := perm (by decide)
    { Program.exporter with statements := Program.exporter.statements.reverse }
    { esModule := true } _ (List.reverse_perm _).symm rfl rfl
  cases found
  refine ⟨_, _, rfl, rfl, rfl, rfl, _, record', rfl, found', ?_⟩
  exact List.perm_singleton.mp same.symm

end AccScript
