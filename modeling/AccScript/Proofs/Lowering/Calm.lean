import AccScript.Proofs.Scope.Growth
import AccScript.Proofs.Lowering.Frame

/-!
# Calm code

Most code neither enters nor leaves an environment, and jumps only to labels of its own depth: the
code of expressions, of references and of patterns.  Such code is *calm*: it keeps the assembler in
its frame and at its depth.  Calm code is closed under sequencing, so one short lemma for each
combinator carries the fact from the primitive steps to whole expressions.

`Plain` is the notion for steps of the assembler, `Calm` the one for lowering; the list of labels
holds those that the code may place or jump to.
-/

namespace AccScript

variable {α β : Type} {S : Setting} {env : Env} {ls : List Label} {f : α → Lower β} {m : Asm α}
  {l : Label} {Γ : Frame}

/-! ## Emission -/

/-- Instructions that neither move between depths nor depend on environments. -/
def Instruction.isPlain : Instruction → Bool
  | .label _ | .jmp _ | .jeqz _ | .jnez _ | .return | .returnUndefined | .newLexEnv _
  | .newLexEnvWithName _ _ | .popLexEnv | .ldLexVar _ _ | .stLexVar _ _ | .defineFunc _ _
  | .defineMethod _ _ | .defineClassWithBuffer _ _ _ _ => false
  | _ => true

theorem Held.push {n m : Nat} {a : Assembler} (h : Held S Γ n a) {e : Emitted}
    (fits : S.FitsAt Γ.depths n e) (moves : e.instruction.Moves n m)
    (site : S.surveyed → S.SiteFits e)
    (links : S.surveyed →
      a.tables.Links (S.NamesOneOf e.nodes (a.units.toList ++ Γ.promised)) e.instruction) :
    Held S Γ m { a with code := a.code.push e } := by
  obtain ⟨δ, d, assigned⟩ := h.assigns
  have graded : S.Graded δ (a.code.push e) (fun i => if i = a.code.size + 1 then m else d i) := by
    apply assigned.graded.push
    · rw [assigned.depth]
      exact fits.mono assigned.le
    · rw [assigned.depth]
      exact moves
  refine ⟨h.boundaries, h.breakables, h.continuables,
    ⟨δ, fun i => if i = a.code.size + 1 then m else d i, ?_⟩, ?_, { h.linked with links := ?_ }⟩
  · exact
      { le := assigned.le
        labels := assigned.labels
        regions := assigned.regions
        graded
        depth := by simp
        tables := assigned.tables }
  · intro known e' mem
    rcases Array.mem_push.mp mem with mem | rfl
    · exact h.sites known e' mem
    · exact site known
  · intro known e' mem
    rcases Array.mem_push.mp mem with mem | rfl
    · exact h.linked.links known e' mem
    · exact links known

theorem spec_emit {n m : Nat} {i : Instruction} (nameless : i.function? = none)
    (fits : ∀ origin, S.FitsAt Γ.depths n ⟨i, origin, { boundaries := Γ.boundaries }⟩)
    (moves : i.Moves n m)
    (site : ∀ origin, S.SiteFits ⟨i, origin, { boundaries := Γ.boundaries }⟩) :
    Spec S (Held S Γ n) (Asm.emit i) (fun _ => Held S Γ m) := by
  refine ⟨fun a h => ?_⟩
  have same : a.placement none = { boundaries := Γ.boundaries } := by
    rw [Assembler.placement, h.boundaries]
  refine h.push ?_ moves (fun _ => ?_) fun _ => Tables.links_of_none nameless
  · rw [same]
    exact fits a.origin
  · rw [same]
    exact site a.origin

/-! ## Fresh labels -/

/-- A label gets its depth. -/
def Frame.setLabel (Γ : Frame) (l : Label) (k : Nat) : Frame :=
  { Γ with depths := Γ.depths.setLabel l k }

theorem Held.setLabel {n : Nat} {a : Assembler} (h : Held S Γ n a) (k : Nat) :
    Held S (Γ.setLabel ⟨a.nextLabel⟩ k) n { a with nextLabel := a.nextLabel + 1 } := by
  obtain ⟨δ, d, assigned⟩ := h.assigns
  have free : δ.label ⟨a.nextLabel⟩ = none := by
    refine Option.eq_none_iff_forall_ne_some.mpr fun k' known => ?_
    exact Nat.lt_irrefl _ (assigned.labels _ k' known)
  have wider := Depths.le_setLabel free k
  refine ⟨h.boundaries, h.breakables, h.continuables, ⟨δ.setLabel ⟨a.nextLabel⟩ k, d, ?_⟩,
    h.sites, { h.linked with }⟩
  constructor
  · exact Depths.setLabel_mono assigned.le _ k
  · intro l k' known
    by_cases same : l = ⟨a.nextLabel⟩
    · subst same
      exact Nat.lt_succ_self _
    · rw [Depths.setLabel_label_of_ne _ _ same] at known
      exact Nat.lt_succ_of_lt (assigned.labels l k' known)
  · exact assigned.regions
  · exact assigned.graded.mono wider
  · exact assigned.depth
  · intro i region found
    obtain ⟨⟨k', start, hi, handler, begin, hk⟩, closed⟩ := assigned.tables i region found
    exact ⟨⟨k', start, wider.region i k' hi, wider.label _ k' handler, begin,
      wider.label start k' hk⟩, closed⟩

theorem spec_fresh {n : Nat} (k : Nat) {f : Label → Asm β} {post : β → Assembler → Prop}
    (h : ∀ l, Γ.depths.label l = none → Spec S (Held S (Γ.setLabel l k) n) (f l) post) :
    Spec S (Held S Γ n) (Asm.freshLabel >>= f) post := by
  refine ⟨fun a held => ?_⟩
  have unknown : Γ.depths.label ⟨a.nextLabel⟩ = none := by
    refine Option.eq_none_iff_forall_ne_some.mpr fun k' known => ?_
    exact Nat.lt_irrefl _ (held.label_lt known)
  exact (h ⟨a.nextLabel⟩ unknown).outcome _ (held.setLabel k)

/-! ## Plain steps -/

/-- A step keeps frame and depth; it may use the labels of the given list at that depth. -/
def Plain (S : Setting) (ls : List Label) (m : Asm α) : Prop :=
  ∀ Γ n, (∀ l ∈ ls, Γ.depths.label l = some n) →
    Spec S (Held S Γ n) m (fun _ => Held S Γ n)

namespace Plain

/-- A step that uses no labels. -/
theorem held (h : Plain S [] m) (Γ : Frame) (n : Nat) :
    Spec S (Held S Γ n) m (fun _ => Held S Γ n) :=
  h Γ n nofun

theorem pure (x : α) : Plain S ls (Pure.pure x) :=
  fun _ _ _ => Spec.pure fun _ h => h

theorem bind {f : α → Asm β} (first : Plain S ls m) (next : ∀ x, Plain S ls (f x)) :
    Plain S ls (m >>= f) :=
  fun Γ n known => (first Γ n known).bind fun x => next x Γ n known

theorem get : Plain S ls MonadState.get :=
  fun _ _ _ => ⟨fun _ held => held⟩

/-- A step that leaves alone what frames talk about. -/
theorem of_sameControl {m : Asm β}
    (h : ∀ a, ∃ x b, m.run a = .ok (x, b) ∧ SameControl a b) : Plain S ls m := by
  intro Γ n _
  refine Spec.of_run fun a held => ?_
  obtain ⟨x, b, run, same⟩ := h a
  exact ⟨x, b, run, held.congr same⟩

end Plain

theorem Plain.then {m' : Asm β} (first : Plain S ls m) (next : Plain S ls m') :
    Plain S ls (m >>= fun _ => m') :=
  first.bind fun _ => next

/-! ## Calm code -/

/-- The environments that are open at some boundaries are those of some scope. -/
def Setting.Grounded (S : Setting) (boundaries : List Boundary) : Prop :=
  S.surveyed → ∃ s, boundaries.filterMap Boundary.loop? ++ S.tree.environments S.functionScope =
    S.tree.environments s

/-- Code runs wherever the open environments are those of some scope. -/
def Setting.Portable (S : Setting) (code : Code) : Prop :=
  ∀ Γ n, S.Grounded Γ.boundaries → Spec S (Held S Γ n) code (fun _ => Held S Γ n)

def ScopeTree.BelongsTo (t : ScopeTree) (unit s : ScopeId) : Prop :=
  ∃ inner outer, t.ancestors s = inner ++ unit :: outer ∧
    ∀ r ∈ inner, t.kindIs (· = .function) r = false

/-- An environment of lowering belongs to a setting. -/
structure Setting.Anchors (S : Setting) (env : Env) : Prop where
  survey : env.survey = S.survey
  options : env.options = S.options
  names : env.names = S.names
  functionScope : env.functionScope = S.functionScope
  fieldInit : S.Portable env.fieldInit
  belongs : S.surveyed → S.tree.BelongsTo S.functionScope env.scope

/-- Scopes inside of a unit come after its own. -/
theorem Setting.Anchors.below (anchors : S.Anchors env) (known : S.surveyed) :
    S.functionScope ≤ env.scope := by
  obtain ⟨inner, outer, ancestors, -⟩ := anchors.belongs known
  have mem : S.functionScope ∈ S.tree.ancestors env.scope := by simp [ancestors]
  exact ScopeTree.mem_ancestors_le (S.wellFormed known).ordered mem

/-- Code belongs to a setting, and the environments that it counts at some boundaries are those of its
own scope. -/
structure Setting.Aligned (S : Setting) (env : Env) (boundaries : List Boundary) : Prop where
  anchors : S.Anchors env
  grounded : S.Grounded boundaries
  counted : S.surveyed → countedLoops env.inFields boundaries ++
    S.tree.environments S.functionScope = S.tree.environments env.scope

/-- Code keeps frame and depth; it may use the labels of the given list at that depth. -/
def Calm (S : Setting) (env : Env) (ls : List Label) (m : Lower α) : Prop :=
  ∀ Γ n, S.Aligned env Γ.boundaries → (∀ l ∈ ls, Γ.depths.label l = some n) →
    Spec S (Held S Γ n) (m env) (fun _ => Held S Γ n)

theorem Plain.calm (h : Plain S ls m) : Calm S env ls (liftM m) :=
  fun Γ n _ known => h Γ n known

theorem Plain.step (first : Plain S ls m)
    (next : ∀ x, Calm S env ls (f x)) : Calm S env ls (liftM m >>= f) :=
  fun Γ n aligned known => (first Γ n known).bind fun x => next x Γ n aligned known

theorem Plain.before {m' : Lower β} (first : Plain S ls m) (next : Calm S env ls m') :
    Calm S env ls (liftM m >>= fun _ => m') :=
  first.step fun _ => next

namespace Calm

theorem pure (x : α) : Calm S env ls (Pure.pure x) :=
  fun _ _ _ _ => Spec.pure fun _ h => h

theorem bind {m : Lower α} (first : Calm S env ls m)
    (next : ∀ x, Calm S env ls (f x)) : Calm S env ls (m >>= f) :=
  fun Γ n aligned known => (first Γ n aligned known).bind fun x => next x Γ n aligned known

theorem read {f : Env → Lower β} (h : Calm S env ls (f env)) :
    Calm S env ls (MonadReader.read >>= f) :=
  h

theorem get {f : Assembler → Lower β} (h : ∀ a, Calm S env ls (f a)) :
    Calm S env ls (MonadState.get >>= f) :=
  fun Γ n aligned known => ⟨fun a held => (h a Γ n aligned known).outcome a held⟩

theorem throw {failure : Failure} (h : S.Tolerates failure) :
    Calm S env ls (MonadExcept.throw failure : Lower β) :=
  fun _ _ _ _ => Spec.throw h

theorem ite {p : Prop} [Decidable p] {m m' : Lower β} (h : p → Calm S env ls m)
    (h' : ¬p → Calm S env ls m') : Calm S env ls (if p then m else m') := by
  split
  · exact h ‹p›
  · exact h' ‹¬p›

theorem mono {ls' : List Label} {m : Lower β} (h : Calm S env ls m) (sub : ls ⊆ ls') :
    Calm S env ls' m :=
  fun Γ n aligned known => h Γ n aligned fun l mem => known l (sub mem)

theorem skip {m : Lower β} (h : Calm S env ls m) : Calm S env (l :: ls) m :=
  h.mono (List.subset_cons_self l ls)

theorem sequence {codes : List (Lower Unit)} (h : ∀ code ∈ codes, Calm S env ls code) :
    Calm S env ls (Lower.sequence codes) := by
  induction codes with
  | nil => exact pure ()
  | cons code rest ih =>
    have first := h code (.head _)
    have others := ih fun code mem => h code (.tail _ mem)
    exact first.bind fun _ => others

end Calm

theorem Calm.then {m : Lower α} {m' : Lower β} (first : Calm S env ls m) (next : Calm S env ls m') :
    Calm S env ls (m >>= fun _ => m') :=
  first.bind fun _ => next

/-! ## Steps of the assembler -/

section Steps

open Asm

variable (v : VariableId) (r : Register)

theorem plain_modify {f : Assembler → Assembler} (h : ∀ a, SameControl a (f a)) :
    Plain S ls (modify f) :=
  .of_sameControl fun a => ⟨(), f a, rfl, h a⟩

theorem plain_emit {i : Instruction} (plain : i.isPlain = true) : Plain S ls (emit i) := by
  intro Γ n _
  apply spec_emit
  · cases i <;> simp_all [Instruction.function?, Instruction.isPlain]
  · intro origin
    cases i <;> simp_all [Setting.FitsAt, Instruction.isPlain, Emitted.site]
  · cases i <;> simp_all [Instruction.Moves, Instruction.isPlain]
  · intro origin
    cases i <;> simp_all [Setting.SiteFits, Instruction.isPlain]

theorem plain_label (mem : l ∈ ls) : Plain S ls (label l) :=
  fun _ _ known => spec_emit rfl (fun _ _ => known l mem) (.inr rfl) fun _ => trivial

theorem plain_branch (mem : l ∈ ls) : Plain S ls (branch l) :=
  fun _ _ known => spec_emit rfl (fun _ _ => known l mem) (.inr rfl) fun _ => trivial

theorem plain_jeqz (mem : l ∈ ls) : Plain S ls (emit (.jeqz l)) :=
  fun _ _ known => spec_emit rfl (fun _ _ => known l mem) (.inr rfl) fun _ => trivial

theorem plain_jnez (mem : l ∈ ls) : Plain S ls (emit (.jnez l)) :=
  fun _ _ known => spec_emit rfl (fun _ _ => known l mem) (.inr rfl) fun _ => trivial

theorem plain_intern (s : String) : Plain S ls (intern s) :=
  .of_sameControl fun a =>
    ⟨_, _, rfl, ⟨rfl, Tables.le_intern a s⟩, rfl⟩

theorem plain_addLiteral (buffer : LiteralBuffer) : Plain S ls (addLiteral buffer) :=
  .of_sameControl fun a =>
    ⟨a.literals.size, { a with literals := a.literals.push buffer }, rfl,
      ⟨rfl, Tables.le_addLiteral a buffer⟩, rfl⟩

theorem plain_setOrigin (origin : Origin) : Plain S ls (setOrigin origin) :=
  plain_modify fun _ => ⟨⟨rfl, .refl _⟩, rfl⟩

theorem plain_atPosition (position : Position) : Plain S ls (atPosition position) :=
  plain_setOrigin (.source position)

theorem plain_isTerminated : Plain S ls isTerminated :=
  Plain.get.bind fun a => .pure a.isTerminated

theorem plain_allocateRegister : Plain S ls allocateRegister :=
  .of_sameControl fun a =>
    ⟨⟨a.nextRegister⟩, { a with nextRegister := a.nextRegister + 1 }, rfl,
      ⟨rfl, .refl _⟩, rfl⟩

theorem plain_markInitialized : Plain S ls (markInitialized v) :=
  plain_modify fun _ => ⟨⟨rfl, .refl _⟩, rfl⟩

theorem plain_setLocal : Plain S ls (setLocal v r) :=
  plain_modify fun _ => ⟨⟨rfl, .refl _⟩, rfl⟩

theorem plain_recordRegisters : Plain S ls recordRegisters :=
  plain_modify fun _ => ⟨⟨rfl, .refl _⟩, rfl⟩

theorem plain_bindParameter : Plain S ls (bindParameter v) :=
  plain_allocateRegister.bind fun r => (plain_setLocal v r).then <|
    (plain_markInitialized v).then <| plain_recordRegisters.then <| .pure r

theorem plain_registerFor : Plain S ls (registerFor v) := by
  refine Plain.get.bind fun a => ?_
  cases a.locals.get? v with
  | some r => exact .pure r
  | none =>
    exact plain_allocateRegister.bind fun r => (plain_setLocal v r).then <|
      plain_recordRegisters.then <| .pure r

theorem plain_unusedRegister : Plain S ls unusedRegister := by
  refine .of_sameControl fun a => ?_
  cases h : a.freeTemps with
  | nil =>
    refine ⟨⟨a.nextRegister⟩, { a with nextRegister := a.nextRegister + 1 }, ?_,
      ⟨rfl, .refl _⟩, rfl⟩
    simp [unusedRegister, h, allocateRegister]
    rfl
  | cons r rest =>
    refine ⟨r, { a with freeTemps := rest }, ?_, ⟨rfl, .refl _⟩, rfl⟩
    simp [unusedRegister, h]
    rfl

theorem plain_holdTemp : Plain S ls (holdTemp r) :=
  plain_modify fun _ => ⟨⟨rfl, .refl _⟩, rfl⟩

theorem plain_getTemp : Plain S ls getTemp :=
  plain_unusedRegister.bind fun r => (plain_holdTemp r).then <|
    plain_recordRegisters.then <| .pure r

theorem plain_freeTemps (temps : List Register) : Plain S ls (freeTemps temps) := by
  intro Γ n _
  refine .get fun a held => ?_
  split
  · exact .throw (Setting.tolerates_of_tolerable .broken)
  · refine Spec.bind ⟨fun b same => ?_⟩ fun _ => plain_recordRegisters Γ n (by assumption)
    exact held.congr ⟨⟨rfl, .refl _⟩, rfl⟩

theorem plain_lda : Plain S ls (lda r) :=
  plain_emit rfl

theorem plain_sta : Plain S ls (sta r) :=
  plain_emit rfl

theorem plain_storeTemp : Plain S ls storeTemp :=
  plain_getTemp.bind fun r => (plain_sta r).then <| .pure r

theorem plain_constant (value : Constant) : Plain S ls (constant value) :=
  plain_emit rfl

theorem plain_enterScope (scope : ScopeId) : Plain S ls (enterScope scope) := by
  refine plain_modify fun a => ?_
  split <;> exact ⟨⟨rfl, .refl _⟩, rfl⟩

theorem plain_exitScope : Plain S ls exitScope := by
  refine plain_modify fun a => ?_
  split
  · split <;> exact ⟨⟨rfl, .refl _⟩, rfl⟩
  · exact ⟨⟨rfl, .refl _⟩, rfl⟩

end Steps

end AccScript
