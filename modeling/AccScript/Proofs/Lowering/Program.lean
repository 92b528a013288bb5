import AccScript.Proofs.Assembly.Program
import AccScript.Proofs.Lowering.Unit

/-!
# Compiled programs

All units of a program are in order.  A unit is compiled after the units that it defines, and every
unit that waits for its code is one that the survey knows.

While a unit is made, the units around it are on a stack.  A unit that waits for its code has a
scope after those of all units on the stack, so when it is met again its code has been made before.
-/

namespace AccScript

open Asm Lower

variable {source : UnitSource} {u : CompiledUnit} {p : Progress}

/-! ## Units of a program -/

variable {S : Setting}

/-- The setting of another unit of the same program, made after others. -/
def Setting.inUnit (S : Setting) (s : ScopeId) (before : Assembler) : Setting :=
  { S with functionScope := s, tables := before.tables }

/-- A unit was assembled in order. -/
structure Setting.Assembles (S : Setting) (u : CompiledUnit) (source : UnitSource) (s : ScopeId)
    (before a : Assembler) : Prop where
  accepted : S.Accepts source
  built : S.Builds source before a u
  named : S.names.get? (source.node S.program) = some u.name
  recorded : S.tree.scopeOfNode? (source.node S.program) = some s
  held : Held (S.inUnit s before) {} (S.inUnit s before).base a

def CompileContext.nodes (c : CompileContext) (sources : List UnitSource) : List NodeId :=
  sources.map fun source => source.node c.program

/-- Units of a program in order, each with what it was made from.  Every unit that one of them names
comes before it. -/
structure Setting.Completes (S : Setting) (sources : List UnitSource) (units : List CompiledUnit)
    (t : Tables) : Prop where
  assembles : List.Forall₂ (fun u source => ∃ s before a, S.Assembles u source s before a)
    units sources
  links : S.surveyed → ∀ i u, units[i]? = some u → ∀ e ∈ u.code,
    t.Links (S.NamesOneOf e.nodes (sources.take i)) e.instruction

/-- A compilation has come so far; the nodes on the stack are those whose units are being made. -/
structure Setting.Orders (S : Setting) (stack : List NodeId) (sources : List UnitSource)
    (t : Tables) (p : Progress) : Prop where
  tables : t.Le p.assembler.tables
  met : ∀ node, node ∈ p.met ↔ node ∈ S.nodes sources ++ stack
  distinct : (S.nodes sources ++ stack).Nodup
  completes : S.Completes sources p.units.toList p.assembler.tables

/-! ## Steps of the compilation -/

/-- From a state with `pre`, a step fails tolerably or ends in a state with `post`. -/
structure Compiles {α : Type} (S : Setting) (pre : Progress → Prop) (m : Compile α)
    (post : α → Progress → Prop) : Prop where
  outcome : ∀ p, pre p →
    match m.run p with
    | .ok (x, q) => post x q
    | .error failure => S.Tolerates failure

namespace Compiles

variable {α β : Type} {pre : Progress → Prop} {mid : α → Progress → Prop}
  {post : β → Progress → Prop}

theorem pure {x : β} (h : ∀ p, pre p → post x p) : Compiles S pre (Pure.pure x) post :=
  ⟨h⟩

theorem bind {m : Compile α} {f : α → Compile β} (first : Compiles S pre m mid)
    (next : ∀ x, Compiles S (mid x) (f x) post) : Compiles S pre (m >>= f) post := by
  refine ⟨fun p before => ?_⟩
  have step := first.outcome p before
  rw [StateT.run_bind]
  cases run : m.run p with
  | error failure =>
    rw [run] at step
    exact step
  | ok result =>
    rw [run] at step
    exact (next result.1).outcome result.2 step

theorem weaken {pre' : Progress → Prop} {post' : β → Progress → Prop} {m : Compile β}
    (h : Compiles S pre m post) (before : ∀ p, pre' p → pre p)
    (after : ∀ x q, post x q → post' x q) : Compiles S pre' m post' := by
  refine ⟨fun p start => ?_⟩
  have step := h.outcome p (before p start)
  cases run : m.run p with
  | error failure =>
    rw [run] at step
    exact step
  | ok result =>
    rw [run] at step
    exact after result.1 result.2 step

theorem of_eq {m : Compile β} (h : ∀ p, pre p → Compiles S (· = p) m post) :
    Compiles S pre m post :=
  ⟨fun p before => (h p before).outcome p rfl⟩

theorem get {f : Progress → Compile β} (h : ∀ p, pre p → Compiles S (· = p) (f p) post) :
    Compiles S pre (MonadState.get >>= f) post :=
  ⟨fun p before => (h p before).outcome p rfl⟩

theorem update {f : Progress → Progress} {m : Unit → Compile β}
    (next : Compiles S (· = f p) (m ()) post) : Compiles S (· = p) (modify f >>= m) post := by
  refine ⟨fun q same => ?_⟩
  subst same
  exact next.outcome (f q) rfl

theorem ask {x : Except Failure α} {f : α → Compile β}
    (failed : ∀ failure, x = .error failure → S.Tolerates failure)
    (h : ∀ y, x = .ok y → Compiles S pre (f y) post) : Compiles S pre (liftM x >>= f) post := by
  refine ⟨fun p before => ?_⟩
  cases answer : x with
  | error failure => exact failed failure answer
  | ok y => exact (h y answer).outcome p before

end Compiles

/-! ## One unit -/

theorem held_nextUnit {a : Assembler} (same : S.tables = a.tables) : Held S {} 0 a.nextUnit := by
  refine ⟨rfl, rfl, rfl, ⟨{}, fun _ => 0, ?_⟩, fun _ => ?_, ?_⟩
  · refine ⟨.refl _, nofun, nofun, ⟨rfl, ?_, ?_⟩, rfl, ?_⟩
    · intro i e found
      simp [Assembler.nextUnit] at found
    · intro i e found
      simp [Assembler.nextUnit] at found
    · intro i region found
      simp [Assembler.nextUnit] at found
  · simp [Assembler.nextUnit]
  · refine ⟨?_, fun _ => ?_, ?_⟩
    · rw [same]
      exact .refl _
    · simp [Assembler.nextUnit]
    · simp [Assembler.nextUnit]

theorem Ledger.Accepts.known {L : Ledger} (h : L.Accepts source) (known : L.surveyed) :
    (∃ name, L.names.get? (source.node L.program) = some name) ∧
      ∃ s, L.survey.tree.scopeOfNode? (source.node L.program) = some s := by
  have of_registers : ∀ {node kind outer inner}, L.Registers node kind outer inner →
      (∃ name, L.names.get? node = some name) ∧ ∃ s, L.survey.tree.scopeOfNode? node = some s :=
    fun registers => ⟨registers.named, _, registers.opened.recorded⟩
  cases source with
  | program => exact ⟨(h.roots known).named, _, (h.roots known).recorded⟩
  | function f owner isStrict =>
    obtain ⟨s, surveyed⟩ : ∃ s, f.Surveyed L s := by
      cases owner with
      | none => exact h
      | some node =>
        obtain ⟨own, s, surveyed⟩ := h
        obtain ⟨place, -, settled⟩ := surveyed.finds.choose ⟨0, 0, 0⟩
        exact ⟨place.scope, (settled.constructor own).2⟩
    obtain ⟨inner, registers⟩ := surveyed.registers known
    exact of_registers registers
  | defaultConstructor node id =>
    obtain ⟨-, own, s, surveyed⟩ := h
    obtain ⟨place, placed⟩ := surveyed.finds.1 known
    obtain rfl : place.constructor = id := Option.some.inj (placed.recorded.symm.trans (own known))
    exact of_registers placed.registers

theorem tolerates_unitName (accepted : S.Accepts source) :
    ∀ failure, S.unitName (source.node S.program) = .error failure → S.Tolerates failure := by
  intro failure failed known _
  obtain ⟨⟨name, named⟩, -⟩ := accepted.known known
  simp [CompileContext.unitName, named] at failed

theorem tolerates_scopeOf (accepted : S.Accepts source) :
    ∀ failure, S.survey.scopeOf (source.node S.program) = .error failure →
      S.Tolerates failure := by
  intro failure failed known _
  obtain ⟨-, s, recorded⟩ := accepted.known known
  simp [Survey.scopeOf, recorded] at failed

theorem assemble_outcome (accepted : S.Accepts source) (before : Assembler) :
    match S.assemble before source with
    | .ok a => ∃ s, S.tree.scopeOfNode? (source.node S.program) = some s ∧
        Held (S.inUnit s before) {} (S.inUnit s before).base a
    | .error failure => S.Tolerates failure := by
  cases scope : S.survey.scopeOf (source.node S.program) with
  | error failure =>
    have failed : S.assemble before source = .error failure := by
      rw [CompileContext.assemble, scope]
      rfl
    rw [failed]
    exact tolerates_scopeOf accepted failure scope
  | ok s =>
    have recorded : S.tree.scopeOfNode? (source.node S.program) = some s := by
      unfold Survey.scopeOf at scope
      split at scope
      · cases scope
        assumption
      · cases scope
    have spec := (spec_unitCode (S := S.inUnit s before) accepted recorded).outcome _
      (held_nextUnit rfl)
    have same : unitCode (S.inUnit s before).program source ((S.inUnit s before).env source s) =
        unitCode S.program source (S.env source s) := rfl
    rw [show (S.inUnit s before).functionScope = s from rfl, same] at spec
    have result : S.assemble before source =
        ((unitCode S.program source (S.env source s)).run before.nextUnit).map Prod.snd := by
      rw [CompileContext.assemble, scope]
      show ((unitCode S.program source (S.env source s)).run before.nextUnit >>= fun x =>
        pure x.2) = _
      cases (unitCode S.program source (S.env source s)).run before.nextUnit <;> rfl
    rw [result]
    cases run : (unitCode S.program source (S.env source s)).run before.nextUnit with
    | error failure =>
      rw [run] at spec
      exact spec
    | ok result =>
      rw [run] at spec
      exact ⟨s, recorded, spec⟩

theorem tolerates_parameterCount (accepted : S.Accepts source) :
    ∀ failure, S.parameterCount (source.node S.program) = .error failure →
      S.Tolerates failure := by
  intro failure failed
  unfold CompileContext.parameterCount at failed
  cases scope : S.survey.scopeOf (source.node S.program) with
  | error other =>
    rw [scope] at failed
    cases failed
    exact tolerates_scopeOf accepted _ scope
  | ok s =>
    rw [scope] at failed
    cases data : S.survey.tree.variableScope? s with
    | none =>
      simp only [bind, Except.bind, data] at failed
      cases failed
      exact Setting.tolerates_of_tolerable .broken
    | some data' =>
      simp only [bind, Except.bind, data] at failed
      cases failed

theorem tolerates_annotate {name : String} {count : Nat} {unit : AssembledUnit} :
    ∀ failure, S.annotate source name count unit = .error failure → S.Tolerates failure := by
  intro failure failed
  unfold CompileContext.annotate Emitted.annotate at failed
  split at failed
  · cases failed
  · cases failed
    exact Setting.tolerates_of_tolerable .broken

theorem name_of_annotate {name : String} {count : Nat} {unit : AssembledUnit}
    (annotated : S.annotate source name count unit = .ok u) : u.name = name := by
  unfold CompileContext.annotate at annotated
  cases placed : Emitted.annotate (source.position S.program) S.options.debugMode unit.code with
  | error failure =>
    rw [placed] at annotated
    cases annotated
  | ok code =>
    rw [placed] at annotated
    cases annotated
    rfl

/-! ## All units -/

section Units

variable {sources : List UnitSource} {units : List CompiledUnit} {t : Tables}
  {stack : List NodeId} {source : UnitSource}

theorem Setting.Completes.mono {t' : Tables} (h : S.Completes sources units t) (le : t.Le t') :
    S.Completes sources units t' :=
  ⟨h.assembles, fun known i u found e mem =>
    (h.links known i u found e mem).mono le fun _ named => named⟩

theorem Setting.Completes.assembled (h : S.Completes sources units t) {i : Nat}
    (found : units[i]? = some u) :
    ∃ source s before a, sources[i]? = some source ∧ S.Assembles u source s before a := by
  obtain ⟨inside, rfl⟩ := List.getElem?_eq_some_iff.mp found
  have inside' : i < sources.length := h.assembles.length_eq ▸ inside
  obtain ⟨s, before, a, assembled⟩ := h.assembles.get inside inside'
  exact ⟨sources[i], s, before, a, List.getElem?_eq_getElem inside', assembled⟩

theorem Setting.Completes.concat
    (h : S.Completes sources units t) {s : ScopeId} {before a : Assembler}
    (assembled : S.Assembles u source s before a) (le : a.tables.Le t)
    (made : S.surveyed → ∀ unit ∈ a.units, unit.node S.program ∈ S.nodes sources) :
    S.Completes (sources ++ [source]) (units ++ [u]) t := by
  have length := h.assembles.length_eq
  refine ⟨List.rel_append h.assembles (.cons ⟨s, before, a, assembled⟩ .nil), ?_⟩
  intro known i v found e mem
  rw [List.getElem?_append] at found
  split at found
  · rename_i inside
    rw [List.take_append_of_le_length (by omega)]
    exact h.links known i v found e mem
  · rename_i outside
    obtain ⟨last, rfl⟩ : i - units.length = 0 ∧ u = v := by
      rw [List.getElem?_singleton] at found
      split at found
      · exact ⟨‹_›, Option.some.inj found⟩
      · cases found
    have all : (sources ++ [source]).take i = sources := by
      rw [show i = sources.length by omega, List.take_left]
    obtain ⟨k, place⟩ := List.getElem?_of_mem mem
    obtain ⟨e', emitted, same, site, -⟩ := assembled.built.emitted place
    have nodes : e'.nodes = e.nodes := by rw [Emitted.nodes, Emitted.nodes, site]
    have links := assembled.held.linked.links known e' (Array.mem_of_getElem? emitted)
    rw [all, ← same, ← nodes]
    refine links.mono le fun name ⟨unit, waits, named⟩ => ?_
    obtain ⟨other, inside, node⟩ := List.mem_map.mp (made known unit (by simpa using waits))
    exact ⟨other, inside, node ▸ named⟩

def Setting.Above (S : Setting) (stack : List NodeId) (node : NodeId) : Prop :=
  S.surveyed → ∀ other ∈ stack, ∀ s s' : Nat, S.tree.scopeOfNode? other = some s →
    S.tree.scopeOfNode? node = some s' → s < s'

/-- The unit of a source has been made, now or before. -/
def Setting.Adds (S : Setting) (stack : List NodeId) (sources : List UnitSource) (t : Tables)
    (source : UnitSource) (q : Progress) : Prop :=
  ∃ more, S.Orders stack (sources ++ more) t q ∧
    (S.surveyed → source.node S.program ∈ S.nodes sources ∨ ∃ front, more = front ++ [source])

theorem Setting.Adds.mem {q : Progress} (h : S.Adds stack sources t source q) :
    ∃ more, S.Orders stack (sources ++ more) t q ∧
      (S.surveyed → source.node S.program ∈ S.nodes (sources ++ more)) := by
  obtain ⟨more, orders, added⟩ := h
  refine ⟨more, orders, fun known => ?_⟩
  rw [CompileContext.nodes, List.map_append]
  rcases added known with before | ⟨front, rfl⟩
  · exact List.mem_append_left _ before
  · exact List.mem_append_right _ (by simp)

theorem compiles_forM {f : UnitSource → Compile Unit} {waiting : List UnitSource}
    (each : ∀ unit ∈ waiting, ∀ sources,
      Compiles S (S.Orders stack sources t) (f unit) fun _ => S.Adds stack sources t unit)
    (sources : List UnitSource) :
    Compiles S (S.Orders stack sources t) (waiting.forM f) fun _ q =>
      ∃ more, S.Orders stack (sources ++ more) t q ∧
        (S.surveyed → ∀ unit ∈ waiting, unit.node S.program ∈ S.nodes (sources ++ more)) := by
  induction waiting generalizing sources with
  | nil =>
    refine .pure fun q orders => ⟨[], ?_, fun _ => nofun⟩
    rw [List.append_nil]
    exact orders
  | cons unit rest ih =>
    refine (each unit (.head _) sources).bind fun _ => .of_eq fun p added => ?_
    obtain ⟨more, orders, made⟩ := added.mem
    have others := ih (fun unit mem => each unit (.tail _ mem)) (sources ++ more)
    refine others.weaken (fun _ same => same ▸ orders) fun _ q ⟨later, orders', made'⟩ => ?_
    refine ⟨more ++ later, by rwa [← List.append_assoc], fun known => ?_⟩
    rw [← List.append_assoc]
    refine List.forall_mem_cons.mpr ⟨?_, made' known⟩
    rw [CompileContext.nodes, List.map_append]
    exact List.mem_append_left _ (made known)

theorem Setting.Orders.made (h : S.Orders stack sources t p) (accepted : S.Accepts source)
    (above : S.Above stack (source.node S.program)) (met : source.node S.program ∈ p.met) :
    S.Adds stack sources t source p := by
  refine ⟨[], by rwa [List.append_nil], fun known => .inl ?_⟩
  rcases List.mem_append.mp ((h.met _).mp met) with made | open_
  · exact made
  · obtain ⟨-, s, recorded⟩ := accepted.known known
    exact absurd (above known _ open_ s s recorded recorded) (Nat.lt_irrefl s)

theorem Setting.Orders.begin (h : S.Orders stack sources t p) (new : source.node S.program ∉ p.met)
    {a : Assembler} (le : p.assembler.tables.Le a.tables) :
    S.Orders (source.node S.program :: stack) sources a.tables
      { p with met := source.node S.program :: p.met, assembler := a } := by
  refine ⟨.refl _, fun node => ?_, ?_, h.completes.mono le⟩
  · have before := h.met node
    simp only [List.mem_append, List.mem_cons] at before ⊢
    rw [before]
    tauto
  · rw [List.nodup_middle, List.nodup_cons]
    exact ⟨fun mem => new ((h.met _).mpr mem), h.distinct⟩

theorem Setting.Orders.done {q : Progress} {a before : Assembler}
    (h : S.Orders (source.node S.program :: stack) sources a.tables q)
    (start : t.Le a.tables)
    {s : ScopeId} (assembled : S.Assembles u source s before a)
    (made : S.surveyed → ∀ unit ∈ a.units, unit.node S.program ∈ S.nodes sources) :
    S.Orders stack (sources ++ [source]) t { q with units := q.units.push u } := by
  have same : S.nodes (sources ++ [source]) ++ stack =
      S.nodes sources ++ source.node S.program :: stack := by
    simp [CompileContext.nodes]
  refine ⟨start.trans h.tables, fun node => ?_, ?_, ?_⟩
  · rw [same]
    exact h.met node
  · rw [same]
    exact h.distinct
  · rw [Array.toList_push]
    exact h.completes.concat assembled h.tables made

theorem compiles_compileUnit
    (depth : Nat) (accepted : S.Accepts source) (above : S.Above stack (source.node S.program)) :
    Compiles S (S.Orders stack sources t) (S.compileUnit depth source)
      fun _ => S.Adds stack sources t source := by
  induction depth generalizing source stack sources t with
  | zero => exact ⟨fun _ _ => Setting.tolerates_of_tolerable .broken⟩
  | succ depth ih =>
    unfold CompileContext.compileUnit
    refine .get fun p orders => ?_
    split
    · rename_i met
      exact .pure fun q same => same ▸ orders.made accepted above met
    · rename_i new
      refine .update (.ask (tolerates_unitName accepted) fun name named => .get fun p' same => ?_)
      subst same
      have outcome := assemble_outcome accepted p.assembler
      refine .ask (fun failure failed => ?_) fun a assembled => ?_
      · rw [failed] at outcome
        exact outcome
      rw [assembled] at outcome
      obtain ⟨s, recorded, held⟩ := outcome
      refine .ask (tolerates_parameterCount accepted) fun count _ =>
        .ask (fun failure failed => ?_) fun unit finished => ?_
      · unfold Assembler.finish at failed
        split at failed
        · cases failed
          exact Setting.tolerates_of_tolerable (.leaked _)
        · cases failed
      -- the units that wait have scopes after those of this unit and of the stack
      have higher : ∀ other ∈ a.units.toList,
          S.Above (source.node S.program :: stack) (other.node S.program) := by
        intro other mem known
        have defers := held.linked.units other (by simpa using mem)
        refine List.forall_mem_cons.mpr
          ⟨fun r r' own theirs => ?_, fun node inside r r' own theirs => ?_⟩
        · rw [recorded] at own
          cases own
          exact defers.below known r' theirs
        · exact Nat.lt_trans (above known node inside r s own recorded)
            (defers.below known r' theirs)
      have others : Compiles S (S.Orders (source.node S.program :: stack) sources a.tables) _ _ :=
        compiles_forM (fun other mem _ =>
          ih (held.linked.units other (by simpa using mem)).accepted (higher other mem)) sources
      refine .update (.bind (others.weaken (fun q same => ?_) fun _ _ h => h) fun _ =>
        .of_eq fun q built => ?_)
      · subst same
        exact orders.begin new held.linked.tables
      · obtain ⟨more, made, all⟩ := built
        refine .ask tolerates_annotate fun u annotated => ⟨fun r same => ?_⟩
        subst same
        have unit : S.Assembles u source s p.assembler a := by
          refine ⟨accepted, ⟨assembled, unit, name, count, finished, annotated⟩, ?_, recorded, held⟩
          rw [name_of_annotate annotated]
          unfold CompileContext.unitName at named
          split at named
          · cases named
            assumption
          · cases named
        refine ⟨more ++ [source], ?_, fun _ => .inr ⟨more, rfl⟩⟩
        rw [← List.append_assoc]
        exact made.done (orders.tables.trans held.linked.tables) unit
          fun known other mem => all known other (by simpa using mem)

end Units

theorem run_outcome (root : S.toLedger.SurveyedRoot) : match S.run with
    | .ok result => ∃ sources, S.Completes sources result.units result.tables ∧
        (S.nodes sources).Nodup ∧ (S.surveyed → ∃ front, sources = front ++ [.program])
    | .error failure => S.Tolerates failure := by
  have accepted : S.Accepts .program := root
  have start : S.Orders [] [] {} { assembler := .ofOptions S.options } := by
    refine ⟨⟨List.nil_prefix, List.nil_prefix⟩, fun node => Iff.rfl, List.nodup_nil, ⟨.nil, ?_⟩⟩
    intro _ i u found
    simp at found
  have outcome := (compiles_compileUnit S.toCompileContext.depth accepted
    fun _ _ mem => absurd mem List.not_mem_nil).outcome _ start
  have result : S.run =
      ((S.compileUnit S.toCompileContext.depth .program).run
        { assembler := .ofOptions S.options }).map fun x =>
        { units := x.2.units.toList
          strings := x.2.assembler.strings
          literals := x.2.assembler.literals.toList
          moduleRecord := S.survey.moduleRecord } := by
    unfold CompileContext.run
    cases (S.compileUnit S.toCompileContext.depth .program).run
      { assembler := .ofOptions S.options } <;> rfl
  rw [result]
  cases run : (S.compileUnit S.toCompileContext.depth .program).run
      { assembler := .ofOptions S.options } with
  | error failure =>
    rw [run] at outcome
    exact outcome
  | ok result =>
    rw [run] at outcome
    obtain ⟨sources, orders, last⟩ := outcome
    have distinct := orders.distinct
    rw [List.append_nil] at distinct
    refine ⟨sources, orders.completes, distinct, fun known => ?_⟩
    exact (last known).resolve_left List.not_mem_nil

theorem eq_ok_of_toOption {α : Type} {x : Except Failure α} {a : α} (h : x.toOption = some a) :
    x = .ok a := by
  cases x with
  | error failure => cases h
  | ok b => exact congrArg Except.ok (Option.some.inj h)

theorem exists_of_compiled {α : Type} {program : Program} {options : Options} {types : TypeTable}
    {view : CompileContext → CompiledProgram → α} {x : α}
    (computed : ((CompileContext.ofProgram program options types).bind fun c =>
      c.run.map (view c)).toOption = some x) :
    ∃ c result, CompileContext.ofProgram program options types = .ok c ∧ c.run = .ok result ∧
      view c result = x := by
  cases analyzed : CompileContext.ofProgram program options types with
  | error failure =>
    rw [analyzed] at computed
    cases computed
  | ok c =>
    rw [analyzed] at computed
    cases compiled : c.run with
    | error failure =>
      simp only [Except.bind, compiled] at computed
      cases computed
    | ok result =>
      simp only [Except.bind, compiled] at computed
      exact ⟨c, result, rfl, compiled, Option.some.inj computed⟩

theorem collector_compiles :
    ∃ c result, CompileContext.ofProgram .collector {} (fun _ => none) = .ok c ∧
      c.run = .ok result ∧ result.units.length = 5 :=
  have units : ((CompileContext.ofProgram .collector {} (fun _ => none)).bind fun c =>
      c.run.map fun result => result.units.length).toOption = some 5 := by
    decide +kernel
  exists_of_compiled units

end AccScript
