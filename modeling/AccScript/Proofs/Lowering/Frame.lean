import AccScript.Proofs.Lowering.Setting

/-!
# Units under construction

The invariant of an assembler while a unit is made.  Every place in the code has a depth: the
number of environments that the unit has pushed and not yet popped when control is there.  Labels
and protected regions have a depth too, which is fixed before the first jump or throw that relies
on it.

A `Frame` is what is known at one moment: the open boundaries, the statements that jumps can reach,
and the depths of some labels and regions.  `Held S Γ n a` says that the assembler `a` is in the
frame `Γ` at depth `n`, and that everything emitted so far is in order.
-/

namespace AccScript

variable {S : Setting} {δ ε : Depths} {a b : Assembler} {n : Nat} {Γ : Frame}

def Boundary.loop? : Boundary → Option ScopeId
  | .environment loop => some loop
  | _ => none

/-- The environments that are open at a site, the innermost first: those of loops in the unit, that
of the unit and those around the unit. -/
def ScopeTree.openEnvironments (t : ScopeTree) (site : Site) : List ScopeId :=
  site.boundaries.filterMap Boundary.loop? ++ t.environments site.functionScope

def innermostRegion? (boundaries : List Boundary) : Option Nat :=
  boundaries.findSome? Boundary.region?

def TryRegion.begin? (region : TryRegion) : Option Label :=
  match region.ranges with
  | (start, _) :: _ => some start
  | [] => region.opened

/-! ## Depths -/

/-- Depths of labels and regions. -/
structure Depths where
  label : Label → Option Nat := fun _ => none
  region : Nat → Option Nat := fun _ => none

/-- More depths are known. -/
structure Depths.Le (δ ε : Depths) : Prop where
  label : ∀ l k, δ.label l = some k → ε.label l = some k
  region : ∀ i k, δ.region i = some k → ε.region i = some k

namespace Depths

theorem Le.refl (δ : Depths) : δ.Le δ :=
  ⟨fun _ _ h => h, fun _ _ h => h⟩

theorem Le.trans {δ ε ζ : Depths} (h : δ.Le ε) (h' : ε.Le ζ) : δ.Le ζ :=
  ⟨fun l k hl => h'.label l k (h.label l k hl), fun i k hi => h'.region i k (h.region i k hi)⟩

def setLabel (δ : Depths) (l : Label) (k : Nat) : Depths :=
  { δ with label := fun l' => if l' = l then some k else δ.label l' }

def setRegion (δ : Depths) (i k : Nat) : Depths :=
  { δ with region := fun i' => if i' = i then some k else δ.region i' }

theorem le_setLabel {l : Label} (fresh : δ.label l = none) (k : Nat) : δ.Le (δ.setLabel l k) := by
  refine ⟨fun l' k' h => ?_, fun _ _ h => h⟩
  have different : l' ≠ l := by
    rintro rfl
    rw [fresh] at h
    cases h
  simp [setLabel, different, h]

theorem le_setRegion {i : Nat} (fresh : δ.region i = none) (k : Nat) : δ.Le (δ.setRegion i k) := by
  refine ⟨fun _ _ h => h, fun i' k' h => ?_⟩
  have different : i' ≠ i := by
    rintro rfl
    rw [fresh] at h
    cases h
  simp [setRegion, different, h]

theorem setLabel_mono (h : δ.Le ε) (l : Label) (k : Nat) :
    (δ.setLabel l k).Le (ε.setLabel l k) := by
  refine ⟨fun l' k' hl => ?_, h.region⟩
  by_cases same : l' = l
  · simpa [setLabel, same] using hl
  · simp only [setLabel, same, if_false] at hl ⊢
    exact h.label l' k' hl

theorem setRegion_mono (h : δ.Le ε) (i k : Nat) : (δ.setRegion i k).Le (ε.setRegion i k) := by
  refine ⟨h.label, fun i' k' hi => ?_⟩
  by_cases same : i' = i
  · simpa [setRegion, same] using hi
  · simp only [setRegion, same, if_false] at hi ⊢
    exact h.region i' k' hi

@[simp]
theorem setLabel_label_self (δ : Depths) (l : Label) (k : Nat) :
    (δ.setLabel l k).label l = some k := by
  simp [setLabel]

theorem setLabel_label_of_ne (δ : Depths) {l l' : Label} (k : Nat) (h : l' ≠ l) :
    (δ.setLabel l k).label l' = δ.label l' := by
  simp [setLabel, h]

@[simp]
theorem setRegion_region_self (δ : Depths) (i k : Nat) : (δ.setRegion i k).region i = some k := by
  simp [setRegion]

end Depths

/-! ## Graded code -/

/-- The depth that an instruction asks for, if no jump leaves a finalizer. -/
def Setting.FitsAt (S : Setting) (δ : Depths) (n : Nat) (e : Emitted) : Prop :=
  S.discipline = .contained → match e.instruction with
  | .label l | .jmp l | .jeqz l | .jnez l => δ.label l = some n
  | .return | .returnUndefined => n = S.base
  | .throw =>
      ∀ site, e.site = some site → site.subject = .exception →
        match innermostRegion? site.boundaries with
        | some i => δ.region i = some n
        | none => n = S.base
  | _ => True

/-- How an instruction changes the depth. -/
def Instruction.Moves (i : Instruction) (n m : Nat) : Prop :=
  match i with
  | .newLexEnv _ | .newLexEnvWithName _ _ => m = n + 1
  | .popLexEnv => n = m + 1
  | i => i.isTerminator = true ∨ m = n

/-- Depths for all places of a piece of code. -/
structure Setting.Graded (S : Setting) (δ : Depths) (code : Array Emitted) (d : Nat → Nat) :
    Prop where
  start : d 0 = 0
  fits : ∀ i (e : Emitted), code[i]? = some e → S.FitsAt δ (d i) e
  moves : ∀ i (e : Emitted), code[i]? = some e → e.instruction.Moves (d i) (d (i + 1))

theorem Setting.FitsAt.mono (le : δ.Le ε) {e : Emitted} (h : S.FitsAt δ n e) : S.FitsAt ε n e := by
  intro contained
  replace h := h contained
  split
  case h_1 | h_2 | h_3 | h_4 =>
    rename_i l same
    simp only [same] at h
    exact le.label l n h
  case h_5 | h_6 =>
    rename_i same
    simpa only [same] using h
  case h_7 =>
    rename_i same
    simp only [same] at h
    intro site hs subject
    have inner := h site hs subject
    cases region : innermostRegion? site.boundaries with
    | none => simpa only [region] using inner
    | some i =>
      simp only [region] at inner
      exact le.region i n inner
  case h_8 => trivial

theorem Setting.Graded.mono (le : δ.Le ε) {code : Array Emitted}
    {d : Nat → Nat} (h : S.Graded δ code d) : S.Graded ε code d :=
  ⟨h.start, fun i e he => (h.fits i e he).mono le, h.moves⟩

theorem Setting.Graded.push {code : Array Emitted} {d : Nat → Nat}
    (h : S.Graded δ code d) {e : Emitted} {m : Nat} (fits : S.FitsAt δ (d code.size) e)
    (moves : e.instruction.Moves (d code.size) m) :
    S.Graded δ (code.push e) (fun i => if i = code.size + 1 then m else d i) := by
  refine ⟨by simpa using h.start, ?_, ?_⟩
  · intro i e' found
    rw [Array.getElem?_push] at found
    split at found
    · rename_i same
      subst same
      cases found
      simpa using fits
    · have inside : i < code.size := (Array.getElem?_eq_some_iff.mp found).1
      have before : i ≠ code.size + 1 := by omega
      simpa [before] using h.fits i e' found
  · intro i e' found
    rw [Array.getElem?_push] at found
    split at found
    · rename_i same
      subst same
      cases found
      simpa using moves
    · have inside : i < code.size := (Array.getElem?_eq_some_iff.mp found).1
      have before : i ≠ code.size + 1 := by omega
      have last : i ≠ code.size := by omega
      simpa [before, last] using h.moves i e' found

/-! ## Sites and units in order -/

/-- The loops whose environments code counts.  Field initializers count none: they are resolved from
the scope of the constructor, wherever `super(...)` stands. -/
def countedLoops (inFields : Bool) (boundaries : List Boundary) : List ScopeId :=
  if inFields then [] else boundaries.filterMap Boundary.loop?

/-- The open environments are those of some scope, and those that are counted are those of the site's
own. -/
structure ScopeTree.Counts (t : ScopeTree) (site : Site) : Prop where
  grounded : ∃ s, t.openEnvironments site = t.environments s
  counted : countedLoops site.inFields site.boundaries ++ t.environments site.functionScope =
    t.environments site.scope

namespace CompileContext

/-- An access to a slot is addressed correctly: it is for a captured variable, and of the environments
of its site the level picks the one that has the variable's slot. -/
def Addresses (c : CompileContext) (site : Site) (level slot : Nat) : Prop :=
  ∃ v data, (site.subject = .variable v ∨ site.subject = .iteration) ∧
    c.survey.tree.var? v = some data ∧ data.slot = some slot ∧
    slot < (c.survey.tree.slotNames (c.survey.tree.slotOwner v)).length ∧
    (c.survey.tree.environments site.scope)[level]? = some (c.survey.tree.slotOwner v)

/-- The functions that are defined at a site were surveyed below the same environments. -/
def Captures (c : CompileContext) (site : Site) (nodes : List NodeId) : Prop :=
  ∀ node ∈ nodes, ∃ inner outer, c.survey.tree.scopeOfNode? node = some inner ∧
    c.survey.tree.parent? inner = some outer ∧
    c.survey.tree.environments site.scope = c.survey.tree.environments outer

def NamesOneOf (c : CompileContext) (nodes : List NodeId) (units : List UnitSource) (name : String) :
    Prop :=
  ∃ unit ∈ units, unit.node c.program ∈ nodes ∧ c.names.get? (unit.node c.program) = some name

end CompileContext

/-- The functions for which an instruction is emitted. -/
def Subject.nodes : Subject → List NodeId
  | .functions nodes => nodes
  | _ => []

def Emitted.nodes (e : Emitted) : List NodeId :=
  (e.site.map fun site => site.subject.nodes).getD []

/-- The site of an instruction that depends on environments is in order. -/
def Setting.SiteFits (S : Setting) (e : Emitted) : Prop :=
  match e.instruction with
  | .ldLexVar level slot | .stLexVar level slot =>
      ∃ site, e.site = some site ∧ site.functionScope = S.functionScope ∧
        S.tree.Counts site ∧ S.Addresses site level slot
  | .newLexEnv count | .newLexEnvWithName count _ =>
      ∃ site scope, e.site = some site ∧ site.subject = .environment scope ∧
        count = (S.tree.slotNames scope).length
  | .defineFunc _ _ | .defineMethod _ _ | .defineClassWithBuffer _ _ _ _ =>
      ∃ site nodes, e.site = some site ∧ site.subject = .functions nodes ∧
        S.tree.Counts site ∧ S.Captures site nodes
  | _ => True

/-- What is known about a unit that waits for its code. -/
def Ledger.Accepts (L : Ledger) : UnitSource → Prop
  | .program => L.SurveyedRoot
  | .function f none _ => ∃ s, f.Surveyed L s
  | .function f (some node) _ => node.constructor? = some f ∧ ∃ s, node.Surveyed L s
  | .defaultConstructor node id =>
      node.constructor? = none ∧
        (L.surveyed → L.survey.classConstructors.get? node.id = some id) ∧ ∃ s, node.Surveyed L s

/-- A unit waits for its code: it is known, and its scope comes after that of the unit at hand. -/
structure Setting.Defers (S : Setting) (unit : UnitSource) : Prop where
  accepted : S.Accepts unit
  below : S.surveyed → ∀ s, S.tree.scopeOfNode? (unit.node S.program) = some s →
    S.functionScope < s

/-- Every unit that the code names waits for its own code, or is promised. -/
structure Setting.Linked (S : Setting) (promised : List UnitSource) (a : Assembler) : Prop where
  tables : S.tables.Le a.tables
  links : S.surveyed → ∀ e ∈ a.code,
    a.tables.Links (S.NamesOneOf e.nodes (a.units.toList ++ promised)) e.instruction
  units : ∀ unit ∈ a.units, S.Defers unit

/-! ## Frames -/

/-- What is known about an assembler at one moment. -/
structure Frame where
  boundaries : List Boundary := []
  breakables : List JumpTarget := []
  continuables : List JumpTarget := []
  /-- The regions that may not have a range yet. -/
  opened : List Nat := []
  /-- The units that have been named and will wait for their code. -/
  promised : List UnitSource := []
  depths : Depths := {}

/-- A region has a depth, which its handler and the begin of its first range share. -/
structure RegionFits (δ : Depths) (opened : List Nat) (i : Nat) (region : TryRegion) : Prop where
  depth : ∃ k start, δ.region i = some k ∧ δ.label region.handler = some k ∧
    region.begin? = some start ∧ δ.label start = some k
  closed : region.ranges = [] → i ∈ opened

/-- The depths that are known to the invariant. -/
structure Assigns (S : Setting) (Γ : Frame) (n : Nat) (a : Assembler) (δ : Depths) (d : Nat → Nat) :
    Prop where
  le : Γ.depths.Le δ
  labels : ∀ l k, δ.label l = some k → l.index < a.nextLabel
  regions : ∀ i k, δ.region i = some k → i < a.regions.size
  graded : S.Graded δ a.code d
  depth : d a.code.size = n
  tables : ∀ i region, a.regions[i]? = some region → RegionFits δ Γ.opened i region

/-- An assembler is in a frame at a depth, and all that it has emitted is in order. -/
structure Held (S : Setting) (Γ : Frame) (n : Nat) (a : Assembler) : Prop where
  boundaries : a.boundaries = Γ.boundaries
  breakables : a.breakables = Γ.breakables
  continuables : a.continuables = Γ.continuables
  assigns : ∃ δ d, Assigns S Γ n a δ d
  sites : S.surveyed → ∀ e ∈ a.code, S.SiteFits e
  linked : S.Linked Γ.promised a

theorem RegionFits.mono {opened opened' : List Nat} {i : Nat} {region : TryRegion}
    (h : RegionFits δ opened i region) (sub : opened ⊆ opened') : RegionFits δ opened' i region :=
  ⟨h.depth, fun empty => sub (h.closed empty)⟩

/-- The part of an assembler that holds code. -/
def Assembler.stock (a : Assembler) :=
  (a.code, a.regions, a.units, a.nextLabel)

structure SameCode (a b : Assembler) : Prop where
  stock : b.stock = a.stock
  tables : a.tables.Le b.tables

theorem Setting.Linked.congr {promised : List UnitSource}
    (h : S.Linked promised a) (same : SameCode a b) : S.Linked promised b := by
  have code : b.code = a.code := congrArg (·.1) same.stock
  have units : b.units = a.units := congrArg (·.2.2.1) same.stock
  refine ⟨h.tables.trans same.tables, ?_, units ▸ h.units⟩
  rw [code, units]
  exact fun known e mem => (h.links known e mem).mono same.tables fun _ named => named

theorem Held.reframe {Γ Δ : Frame} (h : Held S Δ n a)
    (same : SameCode a b) (boundaries : b.boundaries = Γ.boundaries)
    (breakables : b.breakables = Γ.breakables) (continuables : b.continuables = Γ.continuables)
    (le : Γ.depths.Le Δ.depths) (opened : Δ.opened ⊆ Γ.opened)
    (promised : Δ.promised = Γ.promised) : Held S Γ n b := by
  have code : b.code = a.code := congrArg (·.1) same.stock
  have regions : b.regions = a.regions := congrArg (·.2.1) same.stock
  have nextLabel : b.nextLabel = a.nextLabel := congrArg (·.2.2.2) same.stock
  obtain ⟨δ, d, assigned⟩ := h.assigns
  refine ⟨boundaries, breakables, continuables, ⟨δ, d, ?_⟩, code ▸ h.sites,
    promised ▸ h.linked.congr same⟩
  constructor
  · exact le.trans assigned.le
  · rw [nextLabel]
    exact assigned.labels
  · rw [regions]
    exact assigned.regions
  · rw [code]
    exact assigned.graded
  · rw [code]
    exact assigned.depth
  · rw [regions]
    exact fun i region found => (assigned.tables i region found).mono opened

/-- Only boundaries and targets change. -/
theorem Held.rebound {Γ Δ : Frame} (h : Held S Δ n a)
    (same : (b.stock, b.tables) = (a.stock, a.tables)) (boundaries : b.boundaries = Γ.boundaries)
    (breakables : b.breakables = Γ.breakables) (continuables : b.continuables = Γ.continuables)
    (rest : (Δ.depths, Δ.opened, Δ.promised) = (Γ.depths, Γ.opened, Γ.promised)) :
    Held S Γ n b := by
  simp only [Prod.mk.injEq] at same rest
  exact h.reframe ⟨same.1, same.2 ▸ .refl _⟩ boundaries breakables continuables
    (rest.1 ▸ .refl _) (rest.2.1 ▸ List.Subset.refl _) rest.2.2

/-- The part of an assembler that frames talk about. -/
structure SameControl (a b : Assembler) : Prop extends SameCode a b where
  targets : (b.boundaries, b.breakables, b.continuables) =
    (a.boundaries, a.breakables, a.continuables)

theorem Held.congr (h : Held S Γ n a) (same : SameControl a b) : Held S Γ n b := by
  have targets := same.targets
  simp only [Prod.mk.injEq] at targets
  exact h.reframe same.toSameCode (targets.1.trans h.boundaries) (targets.2.1.trans h.breakables)
    (targets.2.2.trans h.continuables) (.refl _) (List.Subset.refl _) rfl

theorem Held.forget {Γ Δ : Frame} (h : Held S Δ n a) (le : Γ.depths.Le Δ.depths)
    (opened : Δ.opened ⊆ Γ.opened)
    (same : (Δ.boundaries, Δ.breakables, Δ.continuables, Δ.promised) =
      (Γ.boundaries, Γ.breakables, Γ.continuables, Γ.promised)) : Held S Γ n a := by
  simp only [Prod.mk.injEq] at same
  exact h.reframe ⟨rfl, .refl _⟩ (h.boundaries.trans same.1) (h.breakables.trans same.2.1)
    (h.continuables.trans same.2.2.1) le opened same.2.2.2

theorem Held.label_lt {n k : Nat} (h : Held S Γ n a)
    {l : Label} (known : Γ.depths.label l = some k) : l.index < a.nextLabel := by
  obtain ⟨δ, d, assigned⟩ := h.assigns
  exact assigned.labels l k (assigned.le.label l k known)

end AccScript
