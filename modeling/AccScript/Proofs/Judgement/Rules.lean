import AccScript.Proofs.Assembly.Access
import AccScript.Proofs.Lowering.Calm
import AccScript.Proofs.Metadata.Echo

/-!
# Judgements about lowering

The code of an expression gives back the registers it takes, it keeps its frame and its depth, and
it echoes the code of the bare expression.  All of this is seen in the same way, by following the
code from stage to stage.  A `Judgement` is such a property: a relation between code and its bare
form, with the rules by which code is put together.  What follows from the rules is proved once,
for every judgement.

Code of the assembler is part of lowering; `Does` and `Keeps` speak of it.
-/

namespace AccScript

open Asm Lower

/-- Failures that no judgement minds. -/
structure Failure.Excused (failure : Failure) : Prop where
  blameless : ¬failure.Blames
  tolerable : failure.Tolerable

/-- A property of code, along the stages that the code leads through.  The first code runs in the
given environment, and the second, its bare form, in one without types. -/
structure Judgement where
  /-- What is known about the program. -/
  ledger : Ledger
  Leads {α : Type} (env : Env) (σ : Stage) (m m' : Lower α) (τ : α → Stage) : Prop
  ret {α env τ} (x : α) : Leads env (τ x) (pure x) (pure x) τ
  chain {α β : Type} {env σ τ υ} {m m' : Lower α} {f f' : α → Lower β}
    (first : Leads env σ m m' τ) (next : ∀ x, Leads env (τ x) (f x) (f' x) υ) :
    Leads env σ (m >>= f) (m' >>= f') υ
  fail {α env σ failure failure'} {τ : α → Stage}
    (excused : failure.Excused) (same : failure.variant = failure'.variant) :
    Leads env σ (throw failure) (throw failure') τ
  inspect {α env σ τ} {f f' : Assembler → Lower α}
    (h : ∀ a : Assembler, Leads env σ (f a) (f' a.bare) τ) : Leads env σ (get >>= f) (get >>= f') τ
  consult {α env σ τ} {f f' : Env → Lower α}
    (h : ∀ finalizers fieldInit, Leads env σ (f env) (f' (env.recast finalizers fieldInit)) τ) :
    Leads env σ (read >>= f) (read >>= f') τ
  /-- A survey that was made from the program is that of the environment. -/
  anchor {α env σ m m'} {τ : α → Stage}
    (h : (ledger.surveyed → env.survey = ledger.survey) → Leads env σ m m' τ) : Leads env σ m m' τ
  fresh {env σ} : Leads env σ (liftM freshLabel) (liftM freshLabel) σ.expect
  /-- A label that has no use. -/
  skip {env σ} : Leads env σ (liftM freshLabel) (liftM freshLabel) fun _ => σ
  mark {env σ} {l : Label} (index : Nat) (h : σ.labels[index]? = some l) :
    Leads env σ (liftM (label l)) (liftM (label l)) fun _ => σ.mark index l
  forget {α env σ m m'} {τ : α → Stage} (l : Label)
    (h : Leads env σ m m' fun x => (τ x).know l) : Leads env σ m m' τ
  use {env σ} {i : Instruction} {rs : List Register} (mem : ∀ r ∈ rs, r ∈ σ.temps)
    (needs : i.needs = temps rs) (plain : i.isPlain = true) :
    Leads env σ (liftM (emit i)) (liftM (emit i)) fun _ => σ
  jump {env σ} {i : Instruction} {l : Label} (knows : σ.Knows l)
    (target : i.target? = some l) : Leads env σ (liftM (emit i)) (liftM (emit i)) fun _ => σ
  take {env σ} : Leads env σ (liftM getTemp) (liftM getTemp) fun r => σ.hold [r]
  give {env σ} {given rest : List Register} (same : σ.temps.Perm (given ++ rest)) :
    Leads env σ (liftM (freeTemps given)) (liftM (freeTemps given)) fun _ =>
      { σ with temps := rest }
  /-- An instruction with a name, which is interned before other code. -/
  named {env σ} (s : String) {i : StringId → Instruction} {rs : List Register}
    (mem : ∀ r ∈ rs, r ∈ σ.temps)
    (fits : ∀ id, (i id).needs = temps rs ++ [.string id] ∧ (i id).isPlain = true)
    {m m' : Lower Unit} (h : Leads env σ m m' fun _ => σ) :
    Leads env σ (liftM (intern s) >>= fun id => m >>= fun _ => liftM (emit (i id)))
      (liftM (intern s) >>= fun id => m' >>= fun _ => liftM (emit (i id))) fun _ => σ
  literal {env σ} (buffer : LiteralBuffer) {i : Nat → Instruction}
    (fits : ∀ k, (i k).needs = [.literal k] ∧ (i k).isPlain = true) :
    Leads env σ (liftM (addLiteral buffer) >>= fun k => liftM (emit (i k)))
      (liftM (addLiteral buffer) >>= fun k => liftM (emit (i k))) fun _ => σ
  position {env σ} (p : Position) :
    Leads env σ (liftM (atPosition p)) (liftM (atPosition .bare)) fun _ => σ
  /-- Code that tells where a variable is. -/
  Finds (env : Env) (m : Lower Resolution) : Prop
  /-- What is known of a place that such code tells. -/
  Holds (env : Env) (place : Resolution) : Prop
  find {α env σ τ} {m : Lower Resolution}
    {f f' : Resolution → Lower α} (finds : Finds env m)
    (h : ∀ place, Holds env place → Leads env σ (f place) (f' place) τ) :
    Leads env σ (m >>= f) (m >>= f') τ
  finds {env} {name : String} (sees : ledger.surveyed → ledger.Reaches env.scope name) :
    Finds env (resolveName name)
  /-- Variables that hold a value wherever they are used. -/
  Ready (v : VariableId) : Prop
  modules {α env σ m m'} {τ : α → Stage}
    (h : (∀ v data, env.tree.var? v = some data → data.isModule = true → Ready v) →
      Leads env σ m m' τ) : Leads env σ m m' τ
  settle {env σ} {v : VariableId} (ready : Ready v) :
    Leads env σ (liftM (markInitialized v)) (liftM (markInitialized v)) fun _ => σ
  loadSlot {env σ} {v : VariableId} {level slot : Nat}
    (holds : Holds env (.lexical v level slot)) :
    Leads env σ (loadSlotOf v level slot) (loadSlotOf v level slot) fun _ => σ
  storeSlot {env σ} {v : VariableId} {level slot : Nat}
    (holds : Holds env (.lexical v level slot)) :
    Leads env σ (storeSlotOf v level slot) (storeSlotOf v level slot) fun _ => σ
  /-- The register of a variable is loaded where it holds a value. -/
  loadOwn {env σ} (v : VariableId) {m m' : Lower Unit}
    (h : Leads env σ m m' fun _ => σ) :
    Leads env σ (mayBeUninitialized v >>= fun hole => if hole then m else liftM (registerFor v >>= lda))
      (mayBeUninitialized v >>= fun hole => if hole then m' else liftM (registerFor v >>= lda))
      fun _ => σ
  storeOwn {env σ} (v : VariableId) :
    Leads env σ (liftM (registerFor v >>= sta)) (liftM (registerFor v >>= sta)) fun _ => σ
  initOwn {env σ} (v : VariableId) :
    Leads env σ (liftM (registerFor v >>= fun r => do sta r; markInitialized v))
      (liftM (registerFor v >>= fun r => do sta r; markInitialized v)) fun _ => σ
  /-- What follows a call of the super constructor. -/
  fields {env σ} {m m' : Lower Unit} {τ} (h : Leads env σ m m' τ) :
    Leads env σ
      (read >>= fun env => if env.callsOwnConstructor then liftM env.fieldInit >>= fun _ => m else m)
      (read >>= fun env => if env.callsOwnConstructor then liftM env.fieldInit >>= fun _ => m' else m')
      τ
  /-- A function can be defined here. -/
  Hosts (env : Env) (f : FunctionNode) : Prop
  hosts {env} {f : FunctionNode} (h : f.Surveyed ledger env.scope) : Hosts env f
  function {env σ} {f : FunctionNode} (h : Hosts env f) :
    Leads env σ (defineFunction f) (defineFunction f.bare) fun _ => σ
  method {env σ} {f : FunctionNode} (isStrict : Bool)
    (h : f.Surveyed ledger env.scope) :
    Leads env σ (defineMethod f isStrict) (defineMethod f.bare isStrict) fun _ => σ
  /-- A class, whose members belong to a scope of its own. -/
  classDef {env σ} {c : ClassNode} (surveyed : c.Surveyed ledger env.scope)
    {base base' : Option (Lower Unit)} {parts parts' : List MemberPart} {binding : Option String}
    (bases : ∀ σ, Leads env σ (base.getD (constant .hole)) (base'.getD (constant .hole)) fun _ => σ)
    (bound : ∀ name ∈ binding, ∀ σ,
      Leads env σ (declareVariable name) (declareVariable name) fun _ => σ)
    (inside : ∀ place : ClassPlace,
      (ledger.surveyed → ledger.Places c.id c.name c.isExpression env.scope place) →
      ∀ object σ, object ∈ σ.temps → Leads { env with scope := place.scope } σ
        (classScopeCode c object parts) (classScopeCode c.bare object parts') fun _ => σ) :
    Leads env σ (defineClass c base parts binding) (defineClass c.bare base' parts' binding)
      fun _ => σ

namespace Judgement

section

variable {α β γ : Type} {J : Judgement} {env : Env} {σ : Stage} {τ : α → Stage} {υ : β → Stage}
  {m m' : Lower α} {f f' : α → Lower β} {owned : α → List Register}

/-- Code that ends at the stage where it began, whichever that is. -/
def Steady (J : Judgement) (env : Env) (m m' : Lower α) : Prop :=
  ∀ σ, J.Leads env σ m m' fun _ => σ

/-- Code that takes registers for its result. -/
def Takes (J : Judgement) (env : Env) (m m' : Lower α) (owned : α → List Register) : Prop :=
  ∀ σ, J.Leads env σ m m' fun x => σ.hold (owned x)

/-- Code of the assembler. -/
def Does (J : Judgement) (env : Env) (σ : Stage) (m m' : Asm α) (τ : α → Stage) : Prop :=
  J.Leads env σ (liftM m) (liftM m') τ

/-- Code of the assembler that is its own bare form and ends at the stage where it began. -/
abbrev Keeps (J : Judgement) (env : Env) (σ : Stage) (m : Asm α) : Prop :=
  J.Does env σ m m fun _ => σ

/-- A name can be resolved. -/
def Sees (J : Judgement) (env : Env) (name : String) : Prop :=
  J.ledger.surveyed → J.ledger.Reaches env.scope name

/-! ## Sequences -/

namespace Leads

theorem bind (first : J.Leads env σ m m' τ) (next : ∀ x, J.Leads env (τ x) (f x) (f' x) υ) :
    J.Leads env σ (m >>= f) (m' >>= f') υ :=
  J.chain first next

theorem ite {p : Prop} [Decidable p] {n n' : Lower α} (h : p → J.Leads env σ m m' τ)
    (h' : ¬p → J.Leads env σ n n' τ) : J.Leads env σ (if p then m else n) (if p then m' else n') τ := by
  split
  · exact h ‹p›
  · exact h' ‹¬p›

theorem assoc {g g' : β → Lower γ} {ρ : γ → Stage}
    (h : J.Leads env σ ((m >>= f) >>= g) ((m' >>= f') >>= g') ρ) :
    J.Leads env σ (m >>= fun x => f x >>= g) (m' >>= fun x => f' x >>= g') ρ := by
  rwa [bind_assoc, bind_assoc] at h

end Leads

theorem Leads.then {ρ : Stage} {n n' : Lower β} (first : J.Leads env σ m m' fun _ => ρ)
    (next : J.Leads env ρ n n' υ) : J.Leads env σ (m >>= fun _ => n) (m' >>= fun _ => n') υ :=
  first.bind fun _ => next

theorem Takes.bind (first : J.Takes env m m' owned)
    (next : ∀ x, J.Leads env (σ.hold (owned x)) (f x) (f' x) υ) :
    J.Leads env σ (m >>= f) (m' >>= f') υ :=
  (first σ).bind next

namespace Steady

theorem bind (first : J.Steady env m m') (next : ∀ x, J.Leads env σ (f x) (f' x) υ) :
    J.Leads env σ (m >>= f) (m' >>= f') υ :=
  (first σ).bind next

theorem pure (x : α) : J.Steady env (Pure.pure x) (Pure.pure x) :=
  fun σ => J.ret (τ := fun _ => σ) x

end Steady

theorem Leads.sequence {codes codes' : List (Lower Unit)}
    (h : List.Forall₂ (fun c c' => J.Leads env σ c c' fun _ => σ) codes codes') :
    J.Leads env σ (Lower.sequence codes) (Lower.sequence codes') fun _ => σ := by
  induction h with
  | nil => exact Steady.pure () σ
  | cons first _ ih => exact first.then ih

theorem Steady.then {n n' : Lower β} (first : J.Steady env m m') (next : J.Leads env σ n n' υ) :
    J.Leads env σ (m >>= fun _ => n) (m' >>= fun _ => n') υ :=
  first.bind fun _ => next

theorem Takes.pure {x : α} (none : owned x = []) :
    J.Takes env (Pure.pure x) (Pure.pure x) owned := by
  intro σ
  have same : σ = σ.hold (owned x) := by simp [Stage.hold, none]
  nth_rewrite 1 [same]
  exact J.ret (τ := fun x => σ.hold (owned x)) x

theorem leads_return (owned : α → List Register) (x : α) :
    J.Leads env (σ.hold (owned x)) (Pure.pure x) (Pure.pure x) fun x => σ.hold (owned x) :=
  J.ret (τ := fun x => σ.hold (owned x)) x

namespace Does

variable {m m' : Asm α} {ρ : Stage}

theorem bind {f f' : α → Asm β} (first : J.Does env σ m m' τ)
    (next : ∀ x, J.Does env (τ x) (f x) (f' x) υ) : J.Does env σ (m >>= f) (m' >>= f') υ :=
  J.chain first next

theorem step (first : J.Does env σ m m' τ) (next : ∀ x, J.Leads env (τ x) (f x) (f' x) υ) :
    J.Leads env σ (liftM m >>= f) (liftM m' >>= f') υ :=
  J.chain first next

theorem before {n n' : Lower β} (first : J.Does env σ m m' fun _ => ρ)
    (next : J.Leads env ρ n n' υ) :
    J.Leads env σ (liftM m >>= fun _ => n) (liftM m' >>= fun _ => n') υ :=
  first.step fun _ => next

theorem ite {p : Prop} [Decidable p] {n n' : Asm α} (h : p → J.Does env σ m m' τ)
    (h' : ¬p → J.Does env σ n n' τ) : J.Does env σ (if p then m else n) (if p then m' else n') τ := by
  split
  · exact h ‹p›
  · exact h' ‹¬p›

theorem done {x : α} : J.Keeps env σ (Pure.pure x) :=
  J.ret (τ := fun _ => σ) x

/-- A result in registers that have been taken. -/
theorem result (owned : α → List Register) (x : α) :
    J.Does env (σ.hold (owned x)) (Pure.pure x) (Pure.pure x) fun x => σ.hold (owned x) :=
  J.ret (τ := fun x => σ.hold (owned x)) x

theorem throw {failure failure' : Failure} (excused : failure.Excused)
    (same : failure.variant = failure'.variant) :
    J.Does env σ (MonadExcept.throw failure : Asm α) (MonadExcept.throw failure') τ :=
  J.fail excused same

/-- A question outside of the assembler. -/
theorem ask {x x' : Except Failure α} (same : Agrees Eq x x')
    (excused : ∀ failure, x = .error failure → failure.Excused) {f f' : α → Asm β}
    (next : ∀ y, J.Does env σ (f y) (f' y) υ) : J.Does env σ (liftM x >>= f) (liftM x' >>= f') υ := by
  cases same with
  | error same => exact J.chain (τ := fun _ => σ) (J.fail (excused _ rfl) same) next
  | @ok y _ same =>
    subst same
    exact J.chain (τ := fun _ => σ) (J.ret (τ := fun _ => σ) y) next

end Does

theorem Does.then {m m' : Asm α} {n n' : Asm β} {ρ : Stage} (first : J.Does env σ m m' fun _ => ρ)
    (next : J.Does env ρ n n' υ) : J.Does env σ (m >>= fun _ => n) (m' >>= fun _ => n') υ :=
  first.bind fun _ => next

end

/-! ## Steps of the assembler -/

section

variable {J : Judgement} {env : Env} {σ : Stage} {i : Instruction} {l : Label} {r : Register}
  {given : List Register}

theorem keeps_emit (rs : List Register) (mem : ∀ r ∈ rs, r ∈ σ.temps)
    (needs : i.needs = temps rs) (plain : i.isPlain = true) : J.Keeps env σ (emit i) :=
  J.use mem needs plain

/-- An instruction without operands that matter. -/
theorem keeps_plain (needs : i.needs = []) (plain : i.isPlain = true) : J.Keeps env σ (emit i) :=
  keeps_emit [] (List.forall_mem_nil _) needs plain

theorem keeps_jump (l : Label) (knows : σ.Knows l) (target : i.target? = some l) :
    J.Keeps env σ (emit i) :=
  J.jump knows target

theorem does_freshLabel : J.Does env σ freshLabel freshLabel σ.expect :=
  J.fresh

theorem does_mark (index : Nat) (h : σ.labels[index]? = some l) :
    J.Does env σ (label l) (label l) fun _ => σ.mark index l :=
  J.mark index h

theorem does_label (index : Nat) (h : σ.labels[index]? = some l) :
    J.Does env σ (label l) (label l) fun _ => σ.place index :=
  J.forget l (J.mark index h)

theorem does_getTemp : J.Does env σ getTemp getTemp fun r => σ.hold [r] :=
  J.take

theorem does_free (rest : List Register) (same : σ.temps.Perm (given ++ rest)) :
    J.Does env σ (freeTemps given) (freeTemps given) fun _ => { σ with temps := rest } :=
  J.give same

theorem does_freeTemps (count : Nat) (same : (σ.temps.take count).Perm given) :
    J.Does env σ (freeTemps given) (freeTemps given) fun _ => σ.release count := by
  refine does_free _ ?_
  conv_lhs => rw [← List.take_append_drop count σ.temps]
  exact same.append_right _

theorem does_freeHeld {held : List Register} (same : held.Perm given) :
    J.Does env (σ.hold held) (freeTemps given) (freeTemps given) fun _ => σ :=
  does_free σ.temps (same.append_right σ.temps)

theorem keeps_lda (mem : r ∈ σ.temps) : J.Keeps env σ (lda r) :=
  keeps_emit [r] (by simpa using mem) rfl rfl

theorem keeps_sta (mem : r ∈ σ.temps) : J.Keeps env σ (sta r) :=
  keeps_emit [r] (by simpa using mem) rfl rfl

theorem does_storeTemp : J.Does env σ storeTemp storeTemp fun r => σ.hold [r] :=
  does_getTemp.bind fun r => (keeps_sta (by simp)).then <| .result (fun r => [r]) r

theorem keeps_named (s : String) {i : StringId → Instruction} (rs : List Register)
    (mem : ∀ r ∈ rs, r ∈ σ.temps)
    (fits : ∀ id, (i id).needs = temps rs ++ [.string id] ∧ (i id).isPlain = true) :
    J.Keeps env σ (intern s >>= fun id => emit (i id)) :=
  J.named s mem fits (m := pure ()) (J.ret (τ := fun _ => σ) ())

/-- The register is loaded between the name and the instruction. -/
theorem keeps_namedAfter (s : String) {i : StringId → Instruction} (mem : r ∈ σ.temps)
    (fits : ∀ id, (i id).needs = [.string id] ∧ (i id).isPlain = true) :
    J.Keeps env σ (intern s >>= fun id => lda r >>= fun _ => emit (i id)) :=
  J.named s (List.forall_mem_nil _) fits (m := liftM (lda r)) (keeps_lda mem)

theorem keeps_literal (buffer : LiteralBuffer) {i : Nat → Instruction}
    (fits : ∀ k, (i k).needs = [.literal k] ∧ (i k).isPlain = true) :
    J.Keeps env σ (addLiteral buffer >>= fun k => emit (i k)) :=
  J.literal buffer fits

theorem does_atPosition (p : Position) :
    J.Does env σ (atPosition p) (atPosition .bare) fun _ => σ :=
  J.position p

end

/-! ## Short sequences -/

section

variable {J : Judgement} {env : Env} {σ : Stage} {target : Label} {object : Register}
  {key : KeyOperand} (name : String)

theorem keeps_constant (value : Constant) : J.Keeps env σ (constant value) :=
  keeps_plain rfl rfl

theorem keeps_loadString (s : String) : J.Keeps env σ (loadString s) :=
  keeps_named s [] nofun fun _ => ⟨rfl, rfl⟩

theorem keeps_loadNumber (value : Binary64) : J.Keeps env σ (loadNumber value) := by
  unfold loadNumber
  split <;> exact keeps_plain rfl rfl

theorem keeps_loadNat (n : Nat) : J.Keeps env σ (loadNat n) :=
  keeps_loadNumber _

theorem keeps_loadBigInt (literal : String) : J.Keeps env σ (loadBigInt literal) := by
  unfold loadBigInt
  split
  · exact keeps_named _ [] nofun fun _ => ⟨rfl, rfl⟩
  · exact .throw ⟨Failure.not_blames_internal (c := 'm') (by simp) rfl, .bigInt literal⟩ rfl

theorem keeps_loadProperty (own : object ∈ σ.temps) (keys : ∀ r ∈ key.temps, r ∈ σ.temps) :
    J.Keeps env σ (loadProperty object key) := by
  cases key with
  | name name => exact keeps_namedAfter name own fun _ => ⟨rfl, rfl⟩
  | index index => exact (keeps_lda own).then (keeps_plain rfl rfl)
  | value key =>
    exact (keeps_lda (keys key (.head _))).then <| keeps_emit [object] (by simpa using own) rfl rfl

theorem keeps_storeProperty (own : object ∈ σ.temps) (keys : ∀ r ∈ key.temps, r ∈ σ.temps) :
    J.Keeps env σ (storeProperty object key) := by
  cases key with
  | name name => exact keeps_named name [object] (by simpa using own) fun _ => ⟨rfl, rfl⟩
  | index index => exact keeps_emit [object] (by simpa using own) rfl rfl
  | value key => exact keeps_emit [object, key] (by simpa [KeyOperand.temps, own] using keys) rfl rfl

theorem keeps_storeOwnProperty (own : object ∈ σ.temps) (keys : ∀ r ∈ key.temps, r ∈ σ.temps) :
    J.Keeps env σ (storeOwnProperty object key) := by
  cases key with
  | name name => exact keeps_named name [object] (by simpa using own) fun _ => ⟨rfl, rfl⟩
  | index index => exact keeps_emit [object] (by simpa using own) rfl rfl
  | value key => exact keeps_emit [object, key] (by simpa [KeyOperand.temps, own] using keys) rfl rfl

theorem keeps_binary (op : BinaryOp) {lhs : Register} (own : lhs ∈ σ.temps) :
    J.Keeps env σ (binary op lhs) :=
  keeps_emit [lhs] (by simpa using own) rfl rfl

theorem keeps_unary (op : AccumulatorOp) : J.Keeps env σ (unary op) :=
  keeps_plain rfl rfl

theorem keeps_branch (known : σ.Knows target) : J.Keeps env σ (branch target) :=
  keeps_jump target known rfl

theorem keeps_condition (op : BinaryOp) {lhs : Register} (own : lhs ∈ σ.temps)
    (known : σ.Knows target) : J.Keeps env σ (condition op lhs target) :=
  (keeps_binary op own).then <| keeps_jump target known rfl

theorem keeps_jumpIfFalse (known : σ.Knows target) : J.Keeps env σ (jumpIfFalse target) :=
  (keeps_unary _).then <| keeps_jump target known rfl

theorem keeps_jumpIfTrue (known : σ.Knows target) : J.Keeps env σ (jumpIfTrue target) :=
  (keeps_unary _).then <| keeps_jump target known rfl

theorem keeps_branchIfNullish {value : Register} (own : value ∈ σ.temps) (known : σ.Knows target) :
    J.Keeps env σ (branchIfNullish value target) :=
  does_getTemp.bind fun compare => (keeps_constant _).then <| (keeps_sta (by simp)).then <|
    (keeps_lda (by simp [own])).then <| (keeps_binary _ (by simp)).then <|
    Does.bind (keeps_jump target known rfl) fun _ => does_freeTemps 1 (.refl _)

theorem keeps_loadViaDebugger (throws : Bool) : J.Keeps env σ (loadViaDebugger name throws) :=
  does_getTemp.bind fun getter => (keeps_constant _).then <| (keeps_sta (by simp)).then <|
    (keeps_loadProperty (by simp) (by simp [KeyOperand.temps])).then <|
    (keeps_sta (by simp)).then <| does_getTemp.bind fun argument => (keeps_loadString _).then <|
    (keeps_sta (by simp)).then <| does_getTemp.bind fun flag => (keeps_constant _).then <|
    (keeps_sta (by simp)).then <| (keeps_lda (by simp)).then <|
    Does.bind (keeps_emit [argument, flag] (by simp) rfl rfl) fun _ =>
    does_freeTemps 3 (List.reverse_perm [getter, argument, flag])

end

end Judgement

end AccScript
