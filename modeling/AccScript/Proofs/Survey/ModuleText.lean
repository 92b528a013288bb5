import AccScript.Proofs.Code.Links
import AccScript.Proofs.Text.OrderedMap
import AccScript.Survey.Walk
import Mathlib.Data.List.Forall2

/-!
# The imports and exports of a text

`Statement.moduleText` lists what the statements at the root of a module import and export, with
modules by their names.  `ModuleRecord.Describes` says that a record has just these entries, and
refers to modules by their places in its own table.
-/

namespace AccScript

/-- What some statements import and export. -/
structure ModuleText where
  requests : List String := []
  /-- The local name of an import, the imported name and the module. -/
  imports : List (String × String × String) := []
  namespaces : List (String × String) := []
  locals : List LocalExport := []
  /-- The name of an export, the name of what is exported and its module. -/
  indirects : List (String × String × String) := []
  stars : List String := []
  /-- Exports of local names, which can be the names of imports: the name, and the exported one. -/
  clauses : List (String × String) := []

namespace ModuleText

instance : Append ModuleText where
  append a b :=
    { requests := a.requests ++ b.requests
      imports := a.imports ++ b.imports
      namespaces := a.namespaces ++ b.namespaces
      locals := a.locals ++ b.locals
      indirects := a.indirects ++ b.indirects
      stars := a.stars ++ b.stars
      clauses := a.clauses ++ b.clauses }

theorem append_def (a b : ModuleText) : a ++ b =
      { requests := a.requests ++ b.requests
        imports := a.imports ++ b.imports
        namespaces := a.namespaces ++ b.namespaces
        locals := a.locals ++ b.locals
        indirects := a.indirects ++ b.indirects
        stars := a.stars ++ b.stars
        clauses := a.clauses ++ b.clauses } :=
  rfl

@[simp] theorem append_nothing (a : ModuleText) : a ++ ({} : ModuleText) = a := by
  simp [append_def]

@[simp] theorem nothing_append (a : ModuleText) : ({} : ModuleText) ++ a = a := by
  simp [append_def]

theorem append_assoc (a b c : ModuleText) : a ++ b ++ c = a ++ (b ++ c) := by
  simp [append_def]

/-- Only the root of a module imports and exports. -/
def atScope (J : ModuleText) (s : ScopeId) : ModuleText :=
  if s = ScopeTree.rootId then J else {}

@[simp] theorem nothing_atScope (s : ScopeId) : ({} : ModuleText).atScope s = {} :=
  ite_self _

theorem append_atScope (a b : ModuleText) (s : ScopeId) :
    a.atScope s ++ b.atScope s = (a ++ b).atScope s := by
  unfold atScope
  split <;> simp

def ofImport (d : ImportDeclaration) : ModuleText where
  requests := [d.request]
  imports := d.defaultBinding.toList.map (fun binding => (binding.name, "default", d.request)) ++
    (d.namedBindings.getD []).map fun specifier =>
      (specifier.localName.name, specifier.imported, d.request)
  namespaces := d.namespaceBinding.toList.map fun binding => (binding.name, d.request)

def ofClause (d : ExportDeclaration) : ModuleText :=
  match d.request, d.specifiers with
  | some request, none => { requests := [request], stars := [request] }
  | some request, some specifiers =>
      { requests := [request]
        indirects := specifiers.map fun specifier =>
          (specifier.exported, specifier.localName, request) }
  | none, some specifiers =>
      { clauses := specifiers.map fun specifier => (specifier.localName, specifier.exported) }
  | none, none => {}

def ofExport (name : Option String) : ExportKind → ModuleText
  | .none => {}
  | .default => { locals := [⟨name.getD HiddenName.defaultExport, "default"⟩] }
  | .named => { locals := name.toList.map fun name => ⟨name, name⟩ }

def import? (J : ModuleText) (name : String) : Option (String × String × String) :=
  J.imports.find? fun entry => entry.1 = name

/-- What the exports of local names come to, once all imports are known. -/
def decided (J : ModuleText) : ModuleText :=
  { J with
    locals := J.locals ++
      (J.clauses.filter fun clause => (J.import? clause.1).isNone).map fun clause =>
        ⟨clause.1, clause.2⟩
    indirects := J.indirects ++ J.clauses.filterMap fun clause =>
      (J.import? clause.1).map fun entry => (clause.2, entry.2)
    clauses := [] }

end ModuleText

/-- What a statement at the root of a module imports and exports. -/
def StatementKind.moduleText : StatementKind → ModuleText
  | .variableDecl d true =>
      { locals := (d.declarators.flatMap fun d => d.target.boundNames).map fun identifier =>
          ⟨identifier.name, identifier.name⟩ }
  | .functionDecl f exportKind => .ofExport (f.name.map Identifier.name) exportKind
  | .classDecl c exportKind => .ofExport (c.name.map Identifier.name) exportKind
  | .importDecl d => .ofImport d
  | .exportDecl d => .ofClause d
  | .exportDefault _ => .ofExport none .default
  | _ => {}

def Statement.moduleText : List Statement → ModuleText
  | [] => {}
  | statement :: rest => statement.kind.moduleText ++ Statement.moduleText rest

/-! ## Records of a text -/

namespace ModuleRecord

variable {r : ModuleRecord} {J : ModuleText}

def Refers (r : ModuleRecord) (place : Nat) (request : String) : Prop :=
  r.moduleRequests[place]? = some request

/-- A record has the entries of a text, in their order. -/
structure Describes (r : ModuleRecord) (J : ModuleText) : Prop where
  distinct : r.moduleRequests.Nodup
  requests : ∀ request, request ∈ r.moduleRequests ↔ request ∈ J.requests
  imports : List.Forall₂ (fun entry text => entry.localName = text.1 ∧
    entry.importName = text.2.1 ∧ r.Refers entry.moduleRequest text.2.2) r.regularImports J.imports
  namespaces : List.Forall₂ (fun entry text => entry.localName = text.1 ∧
    r.Refers entry.moduleRequest text.2) r.namespaceImports J.namespaces
  locals : r.localExports = J.locals
  indirects : List.Forall₂ (fun entry text => entry.exportName = text.1 ∧
    entry.importName = text.2.1 ∧ r.Refers entry.moduleRequest text.2.2)
    r.indirectExports J.indirects
  stars : List.Forall₂ r.Refers r.starExports J.stars

theorem describes_nothing : Describes {} {} :=
  ⟨List.nodup_nil, fun _ => .rfl, .nil, .nil, rfl, .nil, .nil⟩

/-- How often a module is asked for does not matter. -/
theorem Describes.of_requests (h : r.Describes J) (requests : List String)
    (same : ∀ request, request ∈ J.requests ↔ request ∈ requests) :
    r.Describes { J with requests } :=
  { h with requests := fun request => (h.requests request).trans (same request) }

theorem Refers.addRequest {place : Nat} {request : String} (h : r.Refers place request)
    (other : String) : (r.addRequest other).Refers place request :=
  Tables.getElem?_of_prefix (Tables.prefix_insertNew r.moduleRequests other) h

theorem refers_requestIndex (r : ModuleRecord) (request : String) :
    (r.addRequest request).Refers ((r.addRequest request).requestIndex request) request :=
  Tables.getElem?_insertNew r.moduleRequests request

theorem Describes.addRequest (h : r.Describes J) (request : String) :
    (r.addRequest request).Describes (J ++ { requests := [request] }) := by
  rw [ModuleText.append_def]
  simp only [List.append_nil]
  refine ⟨nodup_insertNew h.distinct, fun other => ?_,
    h.imports.imp fun _ _ own => ⟨own.1, own.2.1, own.2.2.addRequest request⟩,
    h.namespaces.imp fun _ _ own => ⟨own.1, own.2.addRequest request⟩, h.locals,
    h.indirects.imp fun _ _ own => ⟨own.1, own.2.1, own.2.2.addRequest request⟩,
    h.stars.imp fun _ _ own => own.addRequest request⟩
  rw [List.mem_append, List.mem_singleton, ← h.requests other]
  exact mem_insertNew

section Entries

variable (h : r.Describes J)
include h

theorem Describes.addRegularImport (localName importName request : String) :
    (r.addRegularImport localName importName request).Describes
      (J ++ { requests := [request], imports := [(localName, importName, request)] }) := by
  have asked := h.addRequest request
  simp only [ModuleText.append_def, List.append_nil] at asked ⊢
  exact { asked with
    imports := List.rel_append asked.imports
      (.cons ⟨rfl, rfl, refers_requestIndex r request⟩ .nil) }

theorem Describes.addNamespaceImport (localName request : String) :
    (r.addNamespaceImport localName request).Describes
      (J ++ { requests := [request], namespaces := [(localName, request)] }) := by
  have asked := h.addRequest request
  simp only [ModuleText.append_def, List.append_nil] at asked ⊢
  exact { asked with
    namespaces := List.rel_append asked.namespaces
      (.cons ⟨rfl, refers_requestIndex r request⟩ .nil) }

theorem Describes.addIndirectExport (exportName importName request : String) :
    (r.addIndirectExport exportName importName request).Describes
      (J ++ { requests := [request], indirects := [(exportName, importName, request)] }) := by
  have asked := h.addRequest request
  simp only [ModuleText.append_def, List.append_nil] at asked ⊢
  exact { asked with
    indirects := List.rel_append asked.indirects
      (.cons ⟨rfl, rfl, refers_requestIndex r request⟩ .nil) }

theorem Describes.addStarExport (request : String) : (r.addStarExport request).Describes
      (J ++ { requests := [request], stars := [request] }) := by
  have asked := h.addRequest request
  simp only [ModuleText.append_def, List.append_nil] at asked ⊢
  exact { asked with
    stars := List.rel_append asked.stars
      (.cons (refers_requestIndex r request) .nil) }

theorem Describes.addLocalExport (localName exportName : String) :
    (r.addLocalExport localName exportName).Describes
      (J ++ { locals := [⟨localName, exportName⟩] }) := by
  rw [ModuleText.append_def]
  simp only [List.append_nil]
  exact { h with locals := congrArg (· ++ _) h.locals }

end Entries

/-- Entries that are added one after another. -/
theorem Describes.foldl {ι : Type} {add : ModuleRecord → ι → ModuleRecord}
    {text : List ι → ModuleText} (none : text [] = {})
    (cons : ∀ i rest, text (i :: rest) = text [i] ++ text rest)
    (step : ∀ {r J} (i : ι), r.Describes J → (add r i).Describes (J ++ text [i])) (items : List ι)
    (h : r.Describes J) : (items.foldl add r).Describes (J ++ text items) := by
  induction items generalizing r J with
  | nil => simpa [none] using h
  | cons i rest ih =>
    rw [cons, ← ModuleText.append_assoc]
    exact ih (step i h)

theorem Describes.importEntries (h : r.Describes J) (d : ImportDeclaration) :
    (Walk.importEntries d r).Describes (J ++ .ofImport d) := by
  obtain ⟨request, binding, space, specifiers⟩ := d
  have first : Describes
      (binding.elim r fun binding => r.addRegularImport binding.name "default" request)
      (J ++ { requests := binding.toList.map fun _ => request
              imports := binding.toList.map fun binding => (binding.name, "default", request) }) := by
    cases binding with
    | none => simpa using h
    | some binding => exact h.addRegularImport _ _ _
  have second : ∀ {r J}, Describes r J → Describes
      (space.elim r fun binding => r.addNamespaceImport binding.name request)
      (J ++ { requests := space.toList.map fun _ => request
              namespaces := space.toList.map fun binding => (binding.name, request) }) := by
    intro r J h
    cases space with
    | none => simpa using h
    | some binding => exact h.addNamespaceImport _ _
  -- each name asks for the module again, and one that has not been asked for is asked for here
  have third : ∀ {r J}, Describes r J →
      ∃ asked : List String, (∀ q, q ∈ binding.toList.map (fun _ => request) ++
          space.toList.map (fun _ => request) ++ asked ↔ q = request) ∧
        Describes
          (specifiers.elim (if binding.isNone && space.isNone then r.addRequest request else r)
            fun specifiers =>
              if specifiers.isEmpty then r.addRequest request
              else specifiers.foldl (fun record specifier => record.addRegularImport
                specifier.localName.name specifier.imported request) r)
          (J ++ { requests := asked
                  imports := (specifiers.getD []).map fun specifier =>
                    (specifier.localName.name, specifier.imported, request) }) := by
    intro r J h
    rcases specifiers with _ | _ | ⟨specifier, rest⟩
    · by_cases isBare : (binding.isNone && space.isNone) = true
      · refine ⟨[request], ?_, ?_⟩
        · cases binding <;> cases space <;> simp_all
        · simpa [isBare] using h.addRequest request
      · refine ⟨[], ?_, ?_⟩
        · cases binding <;> cases space <;> simp_all
        · simpa [isBare] using h
    · refine ⟨[request], ?_, h.addRequest request⟩
      cases binding <;> cases space <;> simp
    · have text := @Describes.foldl r J ImportSpecifier _ (fun specifiers =>
        { requests := specifiers.map fun _ => request
          imports := specifiers.map fun specifier =>
            (specifier.localName.name, specifier.imported, request) }) rfl (fun _ _ => rfl)
        (fun specifier h => h.addRegularImport specifier.localName.name specifier.imported request)
        (specifier :: rest) h
      refine ⟨(specifier :: rest).map fun _ => request, ?_, text⟩
      cases binding <;> cases space <;> simp
  obtain ⟨asked, same, all⟩ := third (second first)
  simp only [ModuleText.append_def, List.append_nil] at all
  have whole := all.of_requests (J.requests ++ [request]) fun q => by
    rw [List.append_assoc, List.append_assoc, List.mem_append, ← List.append_assoc, same,
      List.mem_append, List.mem_singleton]
  rw [List.append_assoc J.imports] at whole
  simp only [ModuleText.ofImport, ModuleText.append_def, List.append_nil]
  cases binding <;> cases space <;> cases specifiers <;> exact whole

/-! ## Exports of local names -/

theorem Describes.regularImport? (h : r.Describes J) (name : String) :
    Option.Rel (fun entry text => entry.importName = text.2.1 ∧
      r.Refers entry.moduleRequest text.2.2) (r.regularImport? name) (J.import? name) := by
  have found : ∀ {entries : List RegularImport} {texts : List (String × String × String)},
      List.Forall₂ (fun entry text => entry.localName = text.1 ∧ entry.importName = text.2.1 ∧
        r.Refers entry.moduleRequest text.2.2) entries texts →
      Option.Rel (fun entry text => entry.importName = text.2.1 ∧
        r.Refers entry.moduleRequest text.2.2)
        (entries.find? fun entry => entry.localName = name)
        (texts.find? fun text => text.1 = name) := by
    intro entries texts all
    induction all with
    | nil => exact .none
    | cons own _ ih =>
      rw [List.find?_cons, List.find?_cons, own.1]
      split
      · exact .some own.2
      · exact ih
  exact found h.imports

theorem Describes.foldl_addExportOfLocalName (imports : ModuleText)
    (clauses : List (String × String)) (h : r.Describes J) (same : J.import? = imports.import?) :
    (clauses.foldl (fun record clause => record.addExportOfLocalName clause.1 clause.2)
      r).Describes
      { J with
        locals := J.locals ++
          (clauses.filter fun clause => (imports.import? clause.1).isNone).map fun clause =>
            ⟨clause.1, clause.2⟩
        indirects := J.indirects ++ clauses.filterMap fun clause =>
          (imports.import? clause.1).map fun entry => (clause.2, entry.2) } := by
  induction clauses generalizing r J with
  | nil => simpa using h
  | cons clause rest ih =>
    obtain ⟨localName, exportName⟩ := clause
    have related := same ▸ h.regularImport? localName
    rw [List.foldl_cons, addExportOfLocalName]
    cases found : r.regularImport? localName with
    | none =>
      rw [found] at related
      have none : imports.import? localName = none := by
        cases other : imports.import? localName with
        | none => rfl
        | some => rw [other] at related; cases related
      have added := h.addLocalExport localName exportName
      rw [ModuleText.append_def] at added
      simp only [List.append_nil] at added
      simpa [none] using ih added same
    | some entry =>
      rw [found] at related
      obtain ⟨text, other, own⟩ : ∃ text, imports.import? localName = some text ∧
          entry.importName = text.2.1 ∧ r.Refers entry.moduleRequest text.2.2 := by
        cases other : imports.import? localName with
        | none => rw [other] at related; cases related
        | some text =>
          rw [other] at related
          cases related with
          | some own => exact ⟨text, rfl, own⟩
      have added : Describes
          { r with indirectExports := r.indirectExports ++
              [⟨exportName, entry.importName, entry.moduleRequest⟩] }
          { J with indirects := J.indirects ++ [(exportName, text.2)] } :=
        { h with indirects := List.rel_append h.indirects (.cons ⟨rfl, own⟩ .nil) }
      simpa [other] using ih added same

end ModuleRecord

end AccScript
