import AccScript.Lower.Unit
import AccScript.Proofs.Assembly.Moves
import AccScript.Proofs.Metadata.Binding

/-!
# Code and its echo

Positions and types accompany code without having a say in it.  To see this, code is run twice: once
as it is, and once from a bare assembler, in an environment without types.  `Echo` says that the
second run does the same as the first, on the bare side, and that the first consists of moves that
have at hand what they need.  `Echoes` says so of lowering in any two environments that match, and
`Resounds` whatever is at hand.

The list of resources in front is what the code may rely on; the one behind, what it leaves.
-/

namespace AccScript

open Asm Lower

/-! ## Bare assemblers -/

def Origin.bare : Origin → Origin
  | .source _ => .source .bare
  | origin => origin

def Emitted.bare (e : Emitted) : Emitted :=
  { e with origin := e.origin.bare }

def UnitSource.bare : UnitSource → UnitSource
  | .program => .program
  | .function f owner isStrict => .function f.bare (owner.map ClassNode.bare) isStrict
  | .defaultConstructor owner id => .defaultConstructor owner.bare id

namespace Assembler

/-- An assembler without positions. -/
def bare (a : Assembler) : Assembler :=
  { a with
    code := a.code.map Emitted.bare
    origin := a.origin.bare
    units := a.units.map UnitSource.bare }

variable (a : Assembler)

@[simp] theorem size_code_bare : a.bare.code.size = a.code.size := by
  simp [bare]

theorem bare_push (e : Emitted) :
    bare { a with code := a.code.push e } = { a.bare with code := a.bare.code.push e.bare } := by
  simp [bare]

@[simp] theorem isTerminated_bare : a.bare.isTerminated = a.isTerminated := by
  have last : a.bare.code.back? = a.code.back?.map Emitted.bare := by
    rw [Array.back?, Array.back?, size_code_bare]
    exact Array.getElem?_map
  rw [isTerminated, last, isTerminated]
  cases a.code.back? <;> rfl

end Assembler

/-- An environment without types, with other code in it. -/
def Env.recast (env : Env) (finalizers : List Code) (fieldInit : Code) : Env :=
  { env with survey := env.survey.untyped, finalizers, fieldInit }

theorem inDerivedConstructor_recast (env : Env) (finalizers : List Code) (fieldInit : Code) :
    (env.recast finalizers fieldInit).inDerivedConstructor = env.inDerivedConstructor := by
  have same : (env.recast finalizers fieldInit).tree.nearestNonArrowScope
      (env.recast finalizers fieldInit).scope = env.tree.nearestNonArrowScope env.scope :=
    env.tree.nearestNonArrowScope_untyped _
  rw [Env.inDerivedConstructor, same]
  rfl

/-! ## The judgements -/

/-- Code that leaves nothing at hand. -/
abbrev nothing {α : Type} : α → List Resource :=
  fun _ => []

abbrev temps (registers : List Register) : List Resource :=
  registers.map .temp

def Echo {α : Type} (E : VariableId → Prop) (Γ : List Resource) (m m' : Asm α)
    (out : α → List Resource := nothing) : Prop :=
  ∀ a : Assembler, (∀ x ∈ Γ, a.Has E x) →
    Agrees (fun p q => q = (p.1, p.2.bare) ∧ a.Moves E p.2 ∧ ∀ x ∈ out p.1, p.2.Has E x)
      (m.run a) (m'.run a.bare)

/-- Two environments that differ in types, and in code that echoes.  Variables in `E` are ready
wherever they are used. -/
structure Env.Matches (E : VariableId → Prop) (Γ : List Resource) (env env' : Env) : Prop where
  same : env' = env.recast env'.finalizers env'.fieldInit
  finalizers : List.Forall₂ (fun c c' => Echo E Γ c c') env.finalizers env'.finalizers
  fieldInit : Echo E Γ env.fieldInit env'.fieldInit
  exempt : ∀ v data, env.tree.var? v = some data →
    data.startsInitialized = true ∨ data.isModule = true → E v
  parameters : ∀ data, env.tree.variableScope? env.functionScope = some data →
    ∀ v ∈ data.parameters, E v

/-- Lowering and its echo, in any two environments that match. -/
def Echoes {α : Type} (E : VariableId → Prop) (Γ : List Resource) (m m' : Lower α)
    (out : α → List Resource := nothing) : Prop :=
  ∀ Δ env env', Γ ⊆ Δ → env.Matches E Δ env' → Echo E Δ (m env) (m' env') out

/-- Lowering and its echo, whatever is at hand. -/
def Resounds {α : Type} (E : VariableId → Prop) (m m' : Lower α)
    (out : α → List Resource := nothing) : Prop :=
  ∀ Γ, Echoes E Γ m m' out

/-- Code of the assembler that is its own echo. -/
abbrev OwnEcho {α : Type} (E : VariableId → Prop) (Γ : List Resource) (m : Asm α)
    (out : α → List Resource := nothing) : Prop :=
  Echo E Γ m m out

abbrev OwnEchoes {α : Type} (E : VariableId → Prop) (Γ : List Resource) (m : Lower α)
    (out : α → List Resource := nothing) : Prop :=
  Echoes E Γ m m out

/-- Lowering that is its own echo, whatever is at hand. -/
abbrev Resonates {α : Type} (E : VariableId → Prop) (m : Lower α)
    (out : α → List Resource := nothing) : Prop :=
  Resounds E m m out

/-- Pieces of code and their echoes. -/
abbrev ResoundsEach (E : VariableId → Prop) : List (Lower Unit) → List (Lower Unit) → Prop :=
  List.Forall₂ fun c c' => Resounds E c c'

variable {α β : Type} {E : VariableId → Prop} {Γ Δ : List Resource} {out : α → List Resource}
  {out' : β → List Resource}

/-! ## Code of the assembler -/

namespace Echo

variable {m m' : Asm α} {f f' : α → Asm β}

theorem weaken (h : Echo E Γ m m' out) (more : Γ ⊆ Δ) : Echo E Δ m m' out :=
  fun a given => h a fun x mem => given x (more mem)

/-- What is at hand stays so. -/
theorem keep {kept : α → List Resource} (h : Echo E Γ m m' out) (more : ∀ x, kept x ⊆ out x ++ Γ) :
    Echo E Γ m m' kept := by
  refine fun a given => (h a given).mono fun p _ _ post => ⟨post.1, post.2.1, fun y mem => ?_⟩
  exact (List.mem_append.mp (more p.1 mem)).elim (post.2.2 y) fun old =>
    post.2.1.has (given y old)

theorem pure {x : α} (has : ∀ y ∈ out x, y ∈ Γ) : OwnEcho E Γ (Pure.pure x) out :=
  fun _ given => .ok ⟨rfl, .refl, fun y mem => given y (has y mem)⟩

theorem done {x : α} : OwnEcho E Γ (Pure.pure x) :=
  pure nofun

theorem bind (first : Echo E Γ m m' out)
    (next : ∀ x, Echo E (out x ++ Γ) (f x) (f' x) out') : Echo E Γ (m >>= f) (m' >>= f') out' := by
  intro a given
  refine (first a given).bind ?_
  rintro ⟨x, b⟩ _ ⟨rfl, moves, has⟩
  have given' : ∀ y ∈ out x ++ Γ, b.Has E y := by
    intro y mem
    exact (List.mem_append.mp mem).elim (has y) fun old => moves.has (given y old)
  exact (next x b given').mono fun _ _ _ post => ⟨post.1, moves.trans post.2.1, post.2.2⟩

theorem bind_of (f f' : α → Asm β) (first : Echo E Γ m m' out)
    (next : ∀ x, Echo E (out x ++ Γ) (f x) (f' x) out') : Echo E Γ (m >>= f) (m' >>= f') out' :=
  first.bind next

/-- Code behind code that leaves nothing. -/
theorem seq (first : Echo E Γ m m')
    (next : ∀ x, Echo E Γ (f x) (f' x) out') : Echo E Γ (m >>= f) (m' >>= f') out' :=
  first.bind next

theorem throw {failure failure' : Failure} (same : failure.variant = failure'.variant) :
    Echo E Γ (MonadExcept.throw failure : Asm α) (MonadExcept.throw failure') out :=
  fun _ _ => .error same

theorem get {f f' : Assembler → Asm β} (h : ∀ a : Assembler, Echo E Γ (f a) (f' a.bare) out') :
    Echo E Γ (MonadState.get >>= f) (MonadState.get >>= f') out' :=
  fun a given => h a a given

theorem ite {p : Prop} [Decidable p] {m m' n n' : Asm α} (h : p → Echo E Γ m m' out)
    (h' : ¬p → Echo E Γ n n' out) : Echo E Γ (if p then m else n) (if p then m' else n') out := by
  split
  · exact h ‹p›
  · exact h' ‹¬p›

/-- A value that must be there. -/
theorem required {γ : Type} {R : γ → γ → Prop} {x x' : Option γ} (related : Option.Rel R x x')
    {f f' : γ → Asm β} (next : ∀ y y', R y y' → Echo E Γ (f y) (f' y') out') :
    Echo E Γ (liftM (orBroken x) >>= f) (liftM (orBroken x') >>= f') out' := by
  cases related with
  | none => exact fun _ _ => .error rfl
  | some related => exact next _ _ related

theorem of_move {f : Assembler → α × Assembler} (run : ∀ a : Assembler, f a.bare = ((f a).1, (f a).2.bare))
    (move : ∀ a : Assembler, (∀ x ∈ Γ, a.Has E x) → a.Move E (f a).2)
    (has : ∀ a : Assembler, ∀ x ∈ out (f a).1, (f a).2.Has E x) : OwnEcho E Γ (modifyGet f) out :=
  fun a given => .ok ⟨run a, .single (move a given), has a⟩

/-- A change that moves do not notice. -/
theorem idle {f f' : Assembler → Assembler} (run : ∀ a : Assembler, f' a.bare = (f a).bare)
    (same : ∀ a : Assembler, (f a).ledger = a.ledger) :
    Echo E Γ (modify f : Code) (modify f') :=
  fun a _ => .ok ⟨congrArg (Prod.mk ()) (run a), .single (.idle (same a)), by simp⟩

end Echo

theorem Echo.then {m m' : Asm α} {n n' : Asm β} (first : Echo E Γ m m')
    (next : Echo E Γ n n' out') : Echo E Γ (m >>= fun _ => n) (m' >>= fun _ => n') out' :=
  first.seq fun _ => next

/-! ## Environments -/

namespace Env.Matches

variable {env env' : Env}

theorem weaken (h : env.Matches E Γ env') (more : Γ ⊆ Δ) : env.Matches E Δ env' where
  same := h.same
  finalizers := h.finalizers.imp (fun _ _ echo => echo.weaken more)
  fieldInit := h.fieldInit.weaken more
  exempt := h.exempt
  parameters := h.parameters

theorem withScope (h : env.Matches E Γ env') (scope : ScopeId) :
    Matches E Γ { env with scope } { env' with scope } :=
  { h with same := congrArg (fun env : Env => { env with scope }) h.same }

theorem within (h : env.Matches E Γ env') (enclosure : Enclosure) :
    Matches E Γ { env with enclosing := enclosure :: env.enclosing }
      { env' with enclosing := enclosure :: env'.enclosing } :=
  { h with
    same := congrArg (fun env : Env => { env with enclosing := enclosure :: env.enclosing }) h.same }

theorem inFields (h : env.Matches E Γ env') :
    Matches E Γ { env with scope := env.functionScope, inFields := true }
      { env' with scope := env'.functionScope, inFields := true } :=
  { h with
    same := congrArg (fun env : Env => { env with scope := env.functionScope, inFields := true })
      h.same }

theorem withFinalizer (h : env.Matches E Γ env') {code code' : Code}
    (echo : Echo E Γ code code') :
    Matches E Γ { env with finalizers := env.finalizers ++ [code] }
      { env' with finalizers := env'.finalizers ++ [code'] } :=
  { h with
    same := congrArg (fun env : Env => { env with finalizers := env'.finalizers ++ [code'] }) h.same
    finalizers := List.rel_append h.finalizers (.cons echo .nil) }

end Env.Matches

/-! ## Lowering -/

theorem Resource.append_subset_append {more : List Resource} (h : Γ ⊆ Δ) : more ++ Γ ⊆ more ++ Δ :=
  List.append_subset.mpr ⟨List.subset_append_left _ _, List.subset_append_of_subset_right _ h⟩

variable {f f' : α → Lower β}

theorem Echo.step (first : Echo E Γ m m' out)
    (next : ∀ x, Echoes E (out x ++ Γ) (f x) (f' x) out') :
    Echoes E Γ (liftM m >>= f) (liftM m' >>= f') out' :=
  fun Δ env env' more matched => Echo.bind_of (fun x => f x env) (fun x => f' x env')
    (first.weaken more) fun x => next x (out x ++ Δ) env env'
      (Resource.append_subset_append more) (matched.weaken (List.subset_append_right _ _))

/-- A step that leaves nothing. -/
theorem Echo.next (first : Echo E Γ m m') (next : ∀ x, Echoes E Γ (f x) (f' x) out') :
    Echoes E Γ (liftM m >>= f) (liftM m' >>= f') out' :=
  first.step next

theorem Echo.before {n n' : Lower β} (first : Echo E Γ m m') (next : Echoes E Γ n n' out') :
    Echoes E Γ (liftM m >>= fun _ => n) (liftM m' >>= fun _ => n') out' :=
  first.next fun _ => next

theorem Echo.lift (h : Echo E Γ m m' out) : Echoes E Γ (liftM m) (liftM m') out :=
  fun _ _ _ more _ => h.weaken more

namespace Echoes

variable {m m' : Lower α}

theorem bind (first : Echoes E Γ m m' out) (next : ∀ x, Echoes E (out x ++ Γ) (f x) (f' x) out') :
    Echoes E Γ (m >>= f) (m' >>= f') out' :=
  fun Δ env env' more matched => Echo.bind_of (fun x => f x env) (fun x => f' x env')
    (first Δ env env' more matched) fun x => next x (out x ++ Δ) env env'
      (Resource.append_subset_append more) (matched.weaken (List.subset_append_right _ _))

theorem seq (first : Echoes E Γ m m')
    (next : ∀ x, Echoes E Γ (f x) (f' x) out') : Echoes E Γ (m >>= f) (m' >>= f') out' :=
  first.bind next

theorem done {x : α} : OwnEchoes E Γ (Pure.pure x) :=
  Echo.done.lift

theorem throw {failure failure' : Failure} (same : failure.variant = failure'.variant) :
    Echoes E Γ (MonadExcept.throw failure : Lower α) (MonadExcept.throw failure') out :=
  fun _ _ _ _ _ => Echo.throw same

theorem inspect {f f' : Assembler → Lower β} (h : ∀ a : Assembler, Echoes E Γ (f a) (f' a.bare) out') :
    Echoes E Γ (MonadState.get >>= f) (MonadState.get >>= f') out' :=
  fun Δ env env' more matched => Echo.get fun a => h a Δ env env' more matched

theorem read {f f' : Env → Lower β} (h : ∀ (env : Env) (finalizers : List Code) (fieldInit : Code),
      finalizers.length = env.finalizers.length →
        Echoes E Γ (f env) (f' (env.recast finalizers fieldInit)) out') :
    Echoes E Γ (MonadReader.read >>= f) (MonadReader.read >>= f') out' := by
  intro Δ env env' more matched
  have count : env'.finalizers.length = env.finalizers.length := matched.finalizers.length_eq.symm
  have inner := h env env'.finalizers env'.fieldInit count Δ env env' more matched
  rw [← matched.same] at inner
  exact inner

theorem ite {p : Prop} [Decidable p] {m m' n n' : Lower α} (h : p → Echoes E Γ m m' out)
    (h' : ¬p → Echoes E Γ n n' out) : Echoes E Γ (if p then m else n) (if p then m' else n') out := by
  split
  · exact h ‹p›
  · exact h' ‹¬p›

theorem ask (x : Except Failure α) (next : ∀ y, Echoes E Γ (f y) (f' y) out') :
    Echoes E Γ (liftM x >>= f) (liftM x >>= f') out' := by
  cases x with
  | error failure => exact fun _ _ _ _ _ _ _ => .error rfl
  | ok y => exact next y

theorem lift (x : Except Failure α) : OwnEchoes E Γ (liftM x) := by
  cases x with
  | error failure => exact fun _ _ _ _ _ _ _ => .error rfl
  | ok y => exact done

theorem withScope (h : Echoes E Γ m m' out) (scope : ScopeId) :
    Echoes E Γ (Lower.withScope scope m) (Lower.withScope scope m') out :=
  fun Δ _ _ more matched => h Δ _ _ more (matched.withScope scope)

theorem within (h : Echoes E Γ m m' out) (enclosure : Enclosure) :
    Echoes E Γ (Lower.within enclosure m) (Lower.within enclosure m') out :=
  fun Δ _ _ more matched => h Δ _ _ more (matched.within enclosure)

theorem withFinalizer {code code' : Lower Unit}
    (echo : Echoes E Γ code code') (region : Nat) (kind : FinalizerKind)
    (h : Echoes E Γ m m' out) (next : ∀ x, Echoes E (out x ++ Γ) (f x) (f' x) out') :
    Echoes E Γ (Lower.close code >>= fun c => Lower.withFinalizer region kind c m >>= f)
      (Lower.close code' >>= fun c => Lower.withFinalizer region kind c m' >>= f') out' := by
  intro Δ env env' more matched
  have scope : env'.scope = env.scope := (congrArg Env.scope matched.same).trans rfl
  have guarded := (matched.withFinalizer (echo Δ env env' more matched)).within
    (.guarded region kind env.scope)
  have inside : ∀ s, s = env.scope → Echo E Δ (Lower.withFinalizer region kind (code env) m env)
      (Lower.within (.guarded region kind s) m'
        { env' with finalizers := env'.finalizers ++ [code' env'] }) out := by
    rintro _ rfl
    exact h Δ _ _ more guarded
  exact Echo.bind_of (fun x => f x env) (fun x => f' x env') (inside _ scope)
    fun x => next x (out x ++ Δ) env env' (Resource.append_subset_append more)
      (matched.weaken (List.subset_append_right _ _))

theorem variableData (v : VariableId) {f f' : Variable → Lower β}
    (h : ∀ data : Variable, (data.startsInitialized = true ∨ data.isModule = true → E v) →
      Echoes E Γ (f data) (f' data.untyped) out') :
    Echoes E Γ (Lower.variableData v >>= f) (Lower.variableData v >>= f') out' := by
  intro Δ env env' more matched
  have found' : env'.tree.var? v = (env.tree.var? v).map Variable.untyped := by
    rw [matched.same]
    exact env.tree.var?_untyped v
  show Echo E Δ (liftM (orBroken (env.tree.var? v)) >>= fun data => f data env)
    (liftM (orBroken (env'.tree.var? v)) >>= fun data => f' data env') out'
  rw [found']
  cases found : env.tree.var? v with
  | none => exact fun _ _ => .error rfl
  | some data => exact h data (matched.exempt v data found) Δ env env' more matched

theorem unitVariableScope {f f' : VariableScope → Lower β}
    (h : ∀ data : VariableScope, (∀ v ∈ data.parameters, E v) →
      Echoes E Γ (f data) (f' data) out') :
    Echoes E Γ (Lower.unitVariableScope >>= f) (Lower.unitVariableScope >>= f') out' := by
  intro Δ env env' more matched
  have found' : env'.tree.variableScope? env'.functionScope =
      env.tree.variableScope? env.functionScope := by
    rw [matched.same]
    exact env.tree.variableScope?_untyped env.functionScope
  show Echo E Δ
    (liftM (orBroken (env.tree.variableScope? env.functionScope)) >>= fun data => f data env)
    (liftM (orBroken (env'.tree.variableScope? env'.functionScope)) >>= fun data => f' data env') out'
  rw [found']
  cases found : env.tree.variableScope? env.functionScope with
  | none => exact fun _ _ => .error rfl
  | some data => exact h data (matched.parameters data found) Δ env env' more matched

end Echoes

variable {m m' : Lower α} {n n' : Lower β}

theorem Echoes.then (first : Echoes E Γ m m') (next : Echoes E Γ n n' out') :
    Echoes E Γ (m >>= fun _ => n) (m' >>= fun _ => n') out' :=
  first.seq fun _ => next

namespace Resounds

theorem seq (first : Resounds E m m')
    (next : ∀ x, Echoes E Γ (f x) (f' x) out') : Echoes E Γ (m >>= f) (m' >>= f') out' :=
  (first Γ).seq next

theorem each {f f' : α → Lower Unit} {g : α → α} (h : ∀ x, Resounds E (f x) (f' (g x)))
    (items : List α) : ResoundsEach E (items.map f) ((items.map g).map f') := by
  induction items with
  | nil => exact .nil
  | cons x rest ih => exact .cons (h x) ih

theorem sequence {codes codes' : List (Lower Unit)} (h : ResoundsEach E codes codes') :
    Resounds E (Lower.sequence codes) (Lower.sequence codes') := by
  intro Γ
  induction h with
  | nil => exact .done
  | cons first _ ih => exact first.seq fun _ => ih

end Resounds

theorem Resounds.then (first : Resounds E m m') (next : Echoes E Γ n n' out') :
    Echoes E Γ (m >>= fun _ => n) (m' >>= fun _ => n') out' :=
  (first Γ).then next

end AccScript
