import AccScript.Text.Json
import AccScript.Text.OrderedMap

/-!
# Module records

The import and export tables of a module. A module variable's slot is its place in these tables:
an exported binding has the rank of its name among the distinct local names of the exports, an
imported one the place of its entry among the imports.
-/

namespace AccScript

/-- `import { imported as local } from request`. -/
structure RegularImport where
  localName : String
  importName : String
  moduleRequest : Nat
deriving DecidableEq, Repr

/-- `import * as local from request`. -/
structure NamespaceImport where
  localName : String
  moduleRequest : Nat
deriving DecidableEq, Repr

/-- A binding of the module under the name it is exported by. -/
structure LocalExport where
  localName : String
  exportName : String
deriving DecidableEq, Repr

/-- A binding of another module that is exported again. -/
structure IndirectExport where
  exportName : String
  importName : String
  moduleRequest : Nat
deriving DecidableEq, Repr

structure ModuleRecord where
  /-- The modules that are asked for, without repetition. -/
  moduleRequests : List String := []
  regularImports : List RegularImport := []
  namespaceImports : List NamespaceImport := []
  localExports : List LocalExport := []
  indirectExports : List IndirectExport := []
  starExports : List Nat := []
deriving DecidableEq, Repr, Inhabited

namespace ModuleRecord

/-- Where a request stands once it is in the table. -/
def requestIndex (r : ModuleRecord) (request : String) : Nat :=
  r.moduleRequests.idxOf request

def addRequest (r : ModuleRecord) (request : String) : ModuleRecord :=
  { r with moduleRequests := insertNew r.moduleRequests request }

def addRegularImport (r : ModuleRecord) (localName importName request : String) :
    ModuleRecord :=
  let r := r.addRequest request
  { r with
    regularImports := r.regularImports ++ [⟨localName, importName, r.requestIndex request⟩] }

def addNamespaceImport (r : ModuleRecord) (localName request : String) : ModuleRecord :=
  let r := r.addRequest request
  { r with namespaceImports := r.namespaceImports ++ [⟨localName, r.requestIndex request⟩] }

def addLocalExport (r : ModuleRecord) (localName exportName : String) : ModuleRecord :=
  { r with localExports := r.localExports ++ [⟨localName, exportName⟩] }

def addIndirectExport (r : ModuleRecord) (exportName importName request : String) :
    ModuleRecord :=
  let r := r.addRequest request
  { r with
    indirectExports := r.indirectExports ++ [⟨exportName, importName, r.requestIndex request⟩] }

def addStarExport (r : ModuleRecord) (request : String) : ModuleRecord :=
  let r := r.addRequest request
  { r with starExports := r.starExports ++ [r.requestIndex request] }

def regularImport? (r : ModuleRecord) (localName : String) : Option RegularImport :=
  r.regularImports.find? fun entry => entry.localName = localName

def isNamespaceImport (r : ModuleRecord) (localName : String) : Bool :=
  r.namespaceImports.any fun entry => entry.localName = localName

def isExported (r : ModuleRecord) (localName : String) : Bool :=
  r.localExports.any fun entry => entry.localName = localName

def addExportOfLocalName (r : ModuleRecord) (localName exportName : String) : ModuleRecord :=
  match r.regularImport? localName with
  | some entry =>
      { r with
        indirectExports :=
          r.indirectExports ++ [⟨exportName, entry.importName, entry.moduleRequest⟩] }
  | none => r.addLocalExport localName exportName

/-- The distinct local names of the exports, in order of first occurrence. -/
def exportedNames (r : ModuleRecord) : List String :=
  r.localExports.foldl (fun names entry => insertNew names entry.localName) []

/-- The slot of an exported binding. -/
def localExportIndex? (r : ModuleRecord) (localName : String) : Option Nat :=
  r.exportedNames.findIdx? (· = localName)

/-- The slot of an imported binding. -/
def regularImportIndex? (r : ModuleRecord) (localName : String) : Option Nat :=
  r.regularImports.findIdx? fun entry => entry.localName = localName

end ModuleRecord

namespace RegularImport

def toJson (entry : RegularImport) : Json :=
  .object [("localName", .string entry.localName), ("importName", .string entry.importName),
    ("moduleRequest", .nat entry.moduleRequest)]

end RegularImport

namespace ModuleRecord

def toJson (r : ModuleRecord) : Json :=
  .object [
    ("moduleRequests", .strings r.moduleRequests),
    ("regularImports", .array (r.regularImports.map RegularImport.toJson)),
    ("namespaceImports", .array (r.namespaceImports.map fun entry =>
      .object [("localName", .string entry.localName),
        ("moduleRequest", .nat entry.moduleRequest)])),
    ("localExports", .array (r.localExports.map fun entry =>
      .object [("localName", .string entry.localName),
        ("exportName", .string entry.exportName)])),
    ("indirectExports", .array (r.indirectExports.map fun entry =>
      .object [("exportName", .string entry.exportName),
        ("importName", .string entry.importName),
        ("moduleRequest", .nat entry.moduleRequest)])),
    ("starExports", .array (r.starExports.map .nat))]

end ModuleRecord

end AccScript
