import AccScript.Proofs.Lowering.Access

/-!
# Variables and functions

Access to variables is calm, and every slot is addressed through the environments that are open at
that place.  A function may be defined wherever the same environments are open as in the scope in
which it was surveyed.
-/

namespace AccScript

open Asm Lower

variable {α : Type} {S : Setting} {env : Env} {ls : List Label} {f : FunctionNode} {name : String}
  {v : VariableId} {key : Lower KeyOperand} {Γ : Frame} {subject : Subject} {s : ScopeId}
  {level slot : Nat} {i : Instruction} {n : Nat} {m : Lower α} {L : Ledger}

/-! ## Results of calm code -/

/-- Calm code whose result has a property. -/
def Yields (S : Setting) (env : Env) (ls : List Label) (P : α → Prop) (m : Lower α) : Prop :=
  ∀ Γ n, S.Aligned env Γ.boundaries → (∀ l ∈ ls, Γ.depths.label l = some n) →
    Spec S (Held S Γ n) (m env) (fun x a => P x ∧ Held S Γ n a)

namespace Yields

variable {β : Type} {P : α → Prop}

theorem pure {x : α} (h : P x) : Yields S env ls P (Pure.pure x) :=
  fun _ _ _ _ => Spec.pure fun _ held => ⟨h, held⟩

theorem throw {failure : Failure} (h : S.Tolerates failure) :
    Yields S env ls P (MonadExcept.throw failure : Lower α) :=
  fun _ _ _ _ => Spec.throw h

theorem anchored (h : S.Anchors env → Yields S env ls P m) : Yields S env ls P m :=
  fun Γ n aligned known => h aligned.anchors Γ n aligned known

theorem read {f : Env → Lower α} (h : Yields S env ls P (f env)) :
    Yields S env ls P (MonadReader.read >>= f) :=
  h

theorem ask {x : Except Failure α} (failed : ∀ failure, x = .error failure → S.Tolerates failure)
    (h : ∀ y, x = .ok y → P y) : Yields S env ls P (liftM x : Lower α) :=
  fun _ _ _ _ => Spec.liftExcept failed fun y answer _ held => ⟨h y answer, held⟩

/-- A value that may be missing. -/
theorem orBroken {x : Option α} (h : ∀ y, x = some y → P y) :
    Yields S env ls P (liftM (AccScript.orBroken x) : Lower α) := by
  cases x with
  | none => exact throw (Setting.tolerates_of_tolerable .broken)
  | some y => exact pure (h y rfl)

theorem after {m : Lower β} {f : β → Lower α} (first : Calm S env ls m)
    (next : ∀ x, Yields S env ls P (f x)) : Yields S env ls P (m >>= f) :=
  fun Γ n aligned known => (first Γ n aligned known).bind fun x => next x Γ n aligned known

theorem bind {Q : β → Prop} {f : α → Lower β} (first : Yields S env ls P m)
    (next : ∀ x, P x → Yields S env ls Q (f x)) : Yields S env ls Q (m >>= f) := by
  intro Γ n aligned known
  show Spec S (Held S Γ n) (m env >>= fun x => f x env) _
  refine (first Γ n aligned known).bind fun x => ⟨fun a held => ?_⟩
  exact (next x held.1 Γ n aligned known).outcome a held.2

theorem step {f : α → Lower β} (first : Yields S env ls P m)
    (next : ∀ x, P x → Calm S env ls (f x)) : Calm S env ls (m >>= f) := by
  intro Γ n aligned known
  show Spec S (Held S Γ n) (m env >>= fun x => f x env) _
  refine (first Γ n aligned known).bind fun x => ⟨fun a held => ?_⟩
  exact (next x held.1 Γ n aligned known).outcome a held.2

theorem calm (h : Yields S env ls P m) : Calm S env ls m :=
  fun Γ n aligned known => (h Γ n aligned known).weaken (fun _ held => held) fun _ _ held => held.2

end Yields

/-! ## Instructions with a site -/

theorem spec_emitNaming {n m : Nat} (fits : ∀ origin, S.FitsAt Γ.depths n
      ⟨i, origin, { site := some (env.site subject Γ.boundaries), boundaries := Γ.boundaries }⟩)
    (moves : i.Moves n m)
    (site : S.surveyed → ∀ origin, S.SiteFits
      ⟨i, origin, { site := some (env.site subject Γ.boundaries), boundaries := Γ.boundaries }⟩) :
    Spec S
      (fun a => Held S Γ n a ∧
        (S.surveyed → a.tables.Links (S.NamesOneOf subject.nodes (a.units.toList ++ Γ.promised)) i))
      (emitAt subject i env) (fun _ => Held S Γ m) := by
  refine ⟨fun a ⟨held, links⟩ => ?_⟩
  have same : a.placement (some (env.site subject a.boundaries)) =
      { site := some (env.site subject Γ.boundaries), boundaries := Γ.boundaries } := by
    rw [Assembler.placement, held.boundaries]
  refine held.push ?_ moves ?_ links
  · rw [same]
    exact fits a.origin
  · intro known
    rw [same]
    exact site known a.origin

theorem spec_emitAt {n m : Nat} (nameless : i.function? = none)
    (fits : ∀ origin, S.FitsAt Γ.depths n
      ⟨i, origin, { site := some (env.site subject Γ.boundaries), boundaries := Γ.boundaries }⟩)
    (moves : i.Moves n m)
    (site : S.surveyed → ∀ origin, S.SiteFits
      ⟨i, origin, { site := some (env.site subject Γ.boundaries), boundaries := Γ.boundaries }⟩) :
    Spec S (Held S Γ n) (emitAt subject i env) (fun _ => Held S Γ m) :=
  (spec_emitNaming fits moves site).weaken
    (fun _ held => ⟨held, fun _ => Tables.links_of_none nameless⟩) fun _ _ held => held

/-- What a resolution promises about a slot. -/
def Setting.Sees (S : Setting) (s : ScopeId) : Resolution → Prop
  | .lexical v level slot =>
      ∃ data, S.tree.var? v = some data ∧ data.slot = some slot ∧
        data.scope ∈ S.tree.ancestors s ∧ level = S.tree.level s v
  | _ => True

theorem Setting.Aligned.counts {boundaries : List Boundary} (aligned : S.Aligned env boundaries)
    (known : S.surveyed) (subject : Subject) : S.tree.Counts (env.site subject boundaries) := by
  have grounded := aligned.grounded known
  have counted := aligned.counted known
  rw [← aligned.anchors.functionScope] at grounded counted
  exact ⟨grounded, counted⟩

theorem addresses_of_sees (known : S.surveyed) {boundaries : List Boundary}
    (about : subject = .variable v ∨ subject = .iteration)
    (sees : S.Sees env.scope (.lexical v level slot)) :
    S.Addresses (env.site subject boundaries) level slot := by
  obtain ⟨data, found, captured, visible, rfl⟩ := sees
  obtain ⟨owner, bound⟩ :=
    ScopeTree.environments_of_captured (S.wellFormed known) found captured visible
  exact ⟨v, data, about, found, captured, bound, owner⟩

theorem calm_slotAccess {i : Instruction} (shape : i = .ldLexVar level slot ∨ i = .stLexVar level slot)
    (addresses : S.surveyed → ∀ boundaries, S.Addresses (env.site subject boundaries) level slot) :
    Calm S env ls (emitAt subject i) := by
  intro Γ n aligned _
  rcases shape with rfl | rfl
  all_goals
    refine spec_emitAt rfl (fun _ _ => trivial) (.inr rfl) fun known _ => ?_
    exact ⟨_, rfl, aligned.anchors.functionScope, aligned.counts known _, addresses known _⟩

theorem calm_loadSlotOf (sees : S.surveyed → S.Sees env.scope (.lexical v level slot)) :
    Calm S env ls (loadSlotOf v level slot) :=
  calm_slotAccess (.inl rfl) fun known _ => addresses_of_sees known (.inl rfl) (sees known)

theorem calm_storeSlotOf (sees : S.surveyed → S.Sees env.scope (.lexical v level slot)) :
    Calm S env ls (storeSlotOf v level slot) :=
  calm_slotAccess (.inr rfl) fun known _ => addresses_of_sees known (.inl rfl) (sees known)

/-! ## Questions -/

theorem yields_variableData (v : VariableId) :
    Yields S env ls (fun data => env.tree.var? v = some data) (variableData v) :=
  .read (.orBroken fun _ found => found)

theorem calm_variableData (v : VariableId) : Calm S env ls (variableData v) :=
  (yields_variableData v).calm

theorem calm_mayBeUninitialized (v : VariableId) : Calm S env ls (mayBeUninitialized v) :=
  (calm_variableData v).bind fun _ => .get fun _ => .pure _

theorem yields_resolveName
    (reached : S.surveyed → S.discipline = .lawful → S.Reaches env.scope name) :
    Yields S env ls (fun r => S.surveyed → S.Sees env.scope r) (resolveName name) := by
  refine .anchored fun anchors => .ask ?_ ?_
  · intro failure failed known lawful
    rw [Env.tree, anchors.survey, anchors.options] at failed
    rw [reached known lawful failure failed]
    exact .broken
  · intro r answer known
    rw [Env.tree, anchors.survey, anchors.options] at answer
    cases r with
    | lexical v level slot => exact ScopeTree.resolve_eq_lexical (S.wellFormed known) answer
    | _ => trivial

/-! ## Variables of the unit -/

/-- A variable of a scope around is reached without its name. -/
theorem yields_localResolution
    (visible : S.surveyed → ∀ data, S.tree.var? v = some data →
      data.scope ∈ S.tree.ancestors env.scope) :
    Yields S env ls (fun r => S.surveyed → S.Sees env.scope r) (localResolution v) := by
  refine .anchored fun anchors => ?_
  have tree : env.tree = S.tree := by rw [Env.tree, anchors.survey, Setting.tree]
  refine .read ((yields_variableData v).bind fun data found => ?_)
  rw [tree] at found ⊢
  cases captured : data.slot with
  | none => exact .pure fun _ => trivial
  | some slot => exact .pure fun known => ⟨data, found, captured, visible known data found, rfl⟩

/-! ## Units that are named -/

theorem CompileContext.NamesOneOf.mono
    {c : CompileContext} {nodes : List NodeId} {units more : List UnitSource}
    (h : c.NamesOneOf nodes units name) (sub : units ⊆ more) : c.NamesOneOf nodes more name := by
  obtain ⟨unit, mem, named⟩ := h
  exact ⟨unit, sub mem, named⟩

/-- Units that have been named and will wait for their code. -/
def Frame.promise (Γ : Frame) (units : List UnitSource) : Frame :=
  { Γ with promised := units ++ Γ.promised }

theorem Held.promise {a : Assembler} (held : Held S Γ n a) (units : List UnitSource) :
    Held S (Γ.promise units) n a := by
  obtain ⟨δ, d, assigned⟩ := held.assigns
  refine ⟨held.boundaries, held.breakables, held.continuables, ⟨δ, d, { assigned with }⟩,
    held.sites, { held.linked with links := fun known e mem => ?_ }⟩
  refine (held.linked.links known e mem).mono (.refl _) fun name named => named.mono ?_
  exact List.append_subset.mpr ⟨List.subset_append_left _ _,
    fun unit mem => List.mem_append_right _ (List.mem_append_right _ mem)⟩

theorem spec_emitPromising {n m : Nat} {units : List UnitSource}
    (fits : ∀ origin, S.FitsAt Γ.depths n
      ⟨i, origin, { site := some (env.site subject Γ.boundaries), boundaries := Γ.boundaries }⟩)
    (moves : i.Moves n m)
    (site : S.surveyed → ∀ origin, S.SiteFits
      ⟨i, origin, { site := some (env.site subject Γ.boundaries), boundaries := Γ.boundaries }⟩) :
    Spec S (fun a => Held S Γ n a ∧ (S.surveyed → a.tables.Links (S.NamesOneOf subject.nodes units) i))
      (emitAt subject i env) (fun _ => Held S (Γ.promise units) m) := by
  have emits : Spec S _ (emitAt subject i env) (fun _ => Held S (Γ.promise units) m) :=
    spec_emitNaming fits moves site
  refine emits.weaken (fun a ⟨held, links⟩ => ⟨held.promise units, fun known => ?_⟩) fun _ _ h => h
  exact (links known).mono (.refl _) fun _ named => named.mono fun unit mem =>
    List.mem_append_right _ (List.mem_append_left _ mem)

theorem spec_defer {unit : UnitSource} (defers : S.Defers unit) (rest : List UnitSource) :
    Spec S (Held S (Γ.promise (unit :: rest)) n) (defer unit)
      (fun _ => Held S (Γ.promise rest) n) := by
  refine ⟨fun a held => ?_⟩
  obtain ⟨δ, d, assigned⟩ := held.assigns
  refine ⟨held.boundaries, held.breakables, held.continuables, ⟨δ, d, ?_⟩, held.sites,
    { held.linked with links := fun known e mem => ?_, units := fun waiting mem => ?_ }⟩
  · exact ⟨assigned.le, assigned.labels, assigned.regions, assigned.graded, assigned.depth,
      assigned.tables⟩
  · refine (held.linked.links known e mem).mono (.refl _) fun name named => named.mono fun other => ?_
    simp only [Frame.promise, List.mem_append, List.mem_cons, Array.toList_push]
    rintro (waiting | (rfl | other) | other)
    · exact .inl (.inl waiting)
    · exact .inl (.inr (.inl rfl))
    · exact .inr (.inl other)
    · exact .inr (.inr other)
  · rcases Array.mem_push.mp mem with mem | rfl
    · exact held.linked.units waiting mem
    · exact defers

theorem spec_intern (s : String) {kept : Tables → Prop}
    (stays : ∀ t u : Tables, t.Le u → kept t → kept u) :
    Spec S (fun a => Held S Γ n a ∧ kept a.tables) (intern s)
      (fun id a => Held S Γ n a ∧ kept a.tables ∧ a.tables.strings[id.index]? = some s) := by
  refine ⟨fun a ⟨held, before⟩ => ⟨?_, stays _ _ (Tables.le_intern a s) before, ?_⟩⟩
  · exact ((plain_intern s).held Γ n).outcome a held
  · exact Tables.getElem?_insertNew a.strings s

theorem spec_addLiteral (buffer : LiteralBuffer) : Spec S (Held S Γ n) (addLiteral buffer)
      (fun k a => Held S Γ n a ∧ a.tables.literals[k]? = some buffer) := by
  refine ⟨fun a held => ⟨?_, ?_⟩⟩
  · exact ((plain_addLiteral buffer).held Γ n).outcome a held
  · show (a.literals.push buffer).toList[a.literals.size]? = some buffer
    simp

/-! ## Functions -/

section Questions

variable {pre : Assembler → Prop} {node : NodeId}

theorem spec_internalName
    (anchors : S.Anchors env) (named : S.surveyed → ∃ name, S.names.get? node = some name) :
    Spec S pre (internalName node env) (fun name a => S.names.get? node = some name ∧ pre a) := by
  refine .consult ?_
  rw [anchors.names]
  cases found : S.names.get? node with
  | some name => exact .pure fun _ before => ⟨rfl, before⟩
  | none =>
    refine .throw fun known _ => ?_
    obtain ⟨name, some⟩ := named known
    rw [found] at some
    cases some

theorem spec_functionFacts (anchors : S.Anchors env)
    (recorded : S.surveyed → ∃ facts, S.survey.functions.get? node = some facts) :
    Spec S pre (liftM (env.survey.functionFacts node) : Asm FunctionFacts) (fun _ => pre) := by
  refine .liftExcept ?_ fun _ _ _ before => before
  intro failure failed known _
  obtain ⟨facts, some⟩ := recorded known
  rw [anchors.survey, Survey.functionFacts, some] at failed
  cases failed

theorem yields_internalName
    (named : S.surveyed → ∃ name, S.names.get? node = some name) :
    Yields S env ls (fun name => S.names.get? node = some name) (internalName node) :=
  fun _ _ aligned _ => spec_internalName aligned.anchors named

theorem calm_functionFacts
    (recorded : S.surveyed → ∃ facts, S.survey.functions.get? node = some facts) :
    Calm S env ls (liftM (env.survey.functionFacts node)) :=
  fun _ _ aligned _ => spec_functionFacts aligned.anchors recorded

end Questions

/-- A function can be defined here: it was surveyed below the same environments, in a scope of the
unit. -/
structure Setting.HostsFrom (S : Setting) (env : Env) (f : FunctionNode) (s : ScopeId) : Prop where
  surveyed : f.Surveyed S.toLedger s
  environments : S.surveyed → S.tree.environments env.scope = S.tree.environments s
  below : S.Anchors env → S.surveyed → S.functionScope ≤ s

def Setting.Hosts (S : Setting) (env : Env) (f : FunctionNode) : Prop :=
  ∃ s, S.HostsFrom env f s

theorem Setting.Hosts.of_surveyed (h : f.Surveyed S.toLedger env.scope) : S.Hosts env f :=
  ⟨env.scope, h, fun _ => rfl, Setting.Anchors.below⟩

theorem FunctionNode.Surveyed.registers (h : f.Surveyed L s) (known : L.surveyed) :
    ∃ inner, L.Registers f.id f.kind s inner := by
  cases f
  simp only [FunctionNode.Surveyed] at h
  obtain ⟨inner, declares⟩ := h.2.1 known
  exact ⟨inner, declares.registers⟩

theorem FunctionNode.Surveyed.facts (h : f.Surveyed L s) (known : L.surveyed) :
    ∃ facts, L.survey.functions.get? f.id = some facts := by
  obtain ⟨inner, registers⟩ := h.registers known
  obtain ⟨facts, found, -⟩ := registers.facts
  exact ⟨facts, found⟩

theorem FunctionNode.Surveyed.named (h : f.Surveyed L s) (known : L.surveyed) :
    ∃ name, L.names.get? f.id = some name := by
  obtain ⟨inner, registers⟩ := h.registers known
  exact registers.named

theorem CompileContext.Opens.parent?_eq
    {c : CompileContext} {node : NodeId} {kind : ScopeKind} {outer inner : ScopeId}
    (h : c.Opens node kind outer inner) : c.survey.tree.parent? inner = some outer := by
  obtain ⟨scope, found, -, -, parent⟩ := h.scope
  rw [ScopeTree.parent?, found]
  exact parent

theorem CompileContext.Opens.lt {node : NodeId} {kind : ScopeKind} {outer inner : ScopeId}
    (h : S.Opens node kind outer inner) (known : S.surveyed) : outer < inner :=
  (S.wellFormed known).ordered inner outer h.parent?_eq

theorem Setting.defers_of_opens {unit : UnitSource} (accepted : S.Accepts unit)
    (opened : S.surveyed → ∃ kind outer inner,
      S.Opens (unit.node S.program) kind outer inner ∧ S.functionScope ≤ outer) :
    S.Defers unit := by
  refine ⟨accepted, fun known s recorded => ?_⟩
  obtain ⟨kind, outer, inner, opens, below⟩ := opened known
  obtain rfl : inner = s := Option.some.inj (opens.recorded.symm.trans recorded)
  exact Nat.lt_of_le_of_lt below (opens.lt known)

theorem FunctionNode.Surveyed.defers (h : f.Surveyed S.toLedger s)
    (below : S.surveyed → S.functionScope ≤ s) (isStrict : Bool) :
    S.Defers (.function f none isStrict) := by
  refine Setting.defers_of_opens ⟨s, h⟩ fun known => ?_
  obtain ⟨inner, registers⟩ := h.registers known
  exact ⟨_, s, inner, registers.opened, below known⟩

theorem Setting.HostsFrom.captures (hosts : S.HostsFrom env f s) (known : S.surveyed)
    (subject : Subject) (boundaries : List Boundary) :
    S.Captures (env.site subject boundaries) [f.id] := by
  intro node mem
  obtain ⟨inner, registers⟩ := hosts.surveyed.registers known
  have opened := registers.opened
  rw [List.mem_singleton.mp mem]
  exact ⟨inner, s, opened.recorded, opened.parent?_eq, hosts.environments known⟩

theorem calm_definition (hosts : S.Hosts env f)
    {i : StringId → Nat → Instruction}
    (defines : ∀ name length, i name length = .defineFunc name length ∨
      i name length = .defineMethod name length) (isStrict : Bool) :
    Calm S env ls (do
      let facts ← env.survey.functionFacts f.id
      let name ← internalName f.id
      emitAt (.functions [f.id]) (i (← intern name) facts.length)
      defer (.function f none isStrict)) := by
  obtain ⟨s, hosts⟩ := hosts
  refine (calm_functionFacts hosts.surveyed.facts).bind fun facts => ?_
  refine (yields_internalName hosts.surveyed.named).step fun name named => ?_
  intro Γ n aligned _
  have waits : S.NamesOneOf [f.id] [.function f none isStrict] name :=
    ⟨_, List.mem_singleton_self _, List.mem_singleton_self _, named⟩
  have interned := spec_intern (S := S) (Γ := Γ) (n := n) name (fun _ _ _ _ => trivial)
  show Spec S (Held S Γ n) (intern name >>= fun index =>
    emitAt (.functions [f.id]) (i index facts.length) env >>= fun _ =>
      defer (.function f none isStrict)) _
  refine Spec.bind (interned.weaken (fun _ held => ⟨held, trivial⟩) fun _ _ post => post)
    fun index => ?_
  -- the instruction names the unit before it waits
  have emits : Spec S
      (fun a => Held S Γ n a ∧
        (S.surveyed → a.tables.Links
          (S.NamesOneOf (Subject.functions [f.id]).nodes [.function f none isStrict])
          (i index facts.length)))
      (emitAt (.functions [f.id]) (i index facts.length) env)
      (fun _ => Held S (Γ.promise [.function f none isStrict]) n) := by
    rcases defines index facts.length with same | same <;> rw [same] <;>
      refine spec_emitPromising (fun _ _ => trivial) (.inr rfl) fun known _ => ?_ <;>
      exact ⟨_, [f.id], rfl, rfl, aligned.counts known _, hosts.captures known _ _⟩
  refine Spec.bind (emits.weaken (fun a post => ⟨post.1, fun _ => ?_⟩) fun _ _ held => held)
    fun _ => spec_defer (hosts.surveyed.defers (hosts.below aligned.anchors) isStrict) []
  rcases defines index facts.length with same | same <;> rw [same] <;>
    exact Tables.links_of_string rfl rfl post.2.2 waits

theorem calm_defineFunction (hosts : S.Hosts env f) :
    Calm S env ls (defineFunction f) :=
  .read (calm_definition hosts (fun _ _ => .inl rfl) _)

theorem calm_defineMethod (hosts : S.Hosts env f) (isStrict : Bool) :
    Calm S env ls (defineMethod f isStrict) :=
  .read (calm_definition hosts (fun _ _ => .inr rfl) _)

end AccScript
