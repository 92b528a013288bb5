import AccScript.Proofs.Assembly.Access
import AccScript.Proofs.Metadata.Echo

/-!
# The echo of short sequences

Each step of the assembler does the same to a bare assembler, and is a move.  So are the short
sequences that control is made of.
-/

namespace AccScript

open Asm

variable {E : VariableId → Prop} {Γ : List Resource} {i : Instruction} {v : VariableId}
  (target : Label)

/-! ## Strings, literals and labels -/

theorem echo_intern (s : String) : OwnEcho E Γ (intern s) fun id => [.string id] := by
  refine .of_move (fun _ => rfl) (fun _ _ => .intern s) fun a x mem => ?_
  obtain rfl := List.mem_singleton.mp mem
  exact ⟨s, .head _⟩

theorem echo_addLiteral (buffer : LiteralBuffer) :
    OwnEcho E Γ (addLiteral buffer) fun index => [.literal index] := by
  refine .of_move (fun _ => rfl) (fun _ _ => .addLiteral buffer) fun a x mem => ?_
  obtain rfl := List.mem_singleton.mp mem
  exact Nat.lt_of_lt_of_eq (Nat.lt_succ_self _) (Array.size_push buffer).symm

theorem echo_freshLabel : OwnEcho E Γ freshLabel :=
  .of_move (fun _ => rfl) (fun _ _ => .idle rfl) (by simp)

/-! ## Emission -/

theorem echo_setOrigin (origin : Origin) :
    Echo E Γ (setOrigin origin) (setOrigin origin.bare) :=
  .idle (fun _ => rfl) fun _ => rfl

theorem echo_atPosition (position : Position) :
    Echo E Γ (atPosition position) (atPosition .bare) :=
  echo_setOrigin (.source position)

theorem echo_push (has : ∀ x ∈ i.needs, x ∈ Γ) (site site' : Assembler → Option Site)
    (same : ∀ a : Assembler, site' a.bare = site a) :
    Echo E Γ (modify fun a => { a with code := a.code.push ⟨i, a.origin, a.placement (site a)⟩ })
      (modify fun a => { a with code := a.code.push ⟨i, a.origin, a.placement (site' a)⟩ }) := by
  intro a given
  refine .ok ⟨congrArg (Prod.mk ()) ?_, .single (.emit (site a) fun x mem => given x (has x mem)),
    by simp⟩
  rw [Assembler.bare_push, ← same]
  rfl

theorem echo_emit (needs : List Resource) (same : i.needs = needs)
    (has : ∀ x ∈ needs, x ∈ Γ) : OwnEcho E Γ (emit i) :=
  echo_push (same ▸ has) (fun _ => none) (fun _ => none) fun _ => rfl

theorem echo_plain (same : i.needs = []) : OwnEcho E Γ (emit i) :=
  echo_emit [] same nofun

theorem echoes_emitAt (subject : Subject) (needs : List Resource)
    (same : i.needs = needs) (has : ∀ x ∈ needs, x ∈ Γ) :
    OwnEchoes E Γ (Lower.emitAt subject i) := by
  intro Δ env env' more matched
  refine echo_push (fun x mem => more (has x (same ▸ mem)))
    (fun a => some (env.site subject a.boundaries)) (fun a => some (env'.site subject a.boundaries))
    fun a => ?_
  rw [matched.same]
  rfl

theorem echoes_plainAt (subject : Subject) (needs : i.needs = []) :
    OwnEchoes E Γ (Lower.emitAt subject i) :=
  echoes_emitAt subject [] needs (by simp)

theorem echo_label (l : Label) : OwnEcho E Γ (label l) :=
  echo_plain rfl

theorem echo_isTerminated : OwnEcho E Γ isTerminated :=
  .get fun a => by
    rw [Assembler.isTerminated_bare]
    exact .done

/-! ## Registers -/

theorem echo_getTemp : OwnEcho E Γ getTemp fun r => [.temp r] := by
  intro a _
  have taken : ∀ (r : Register) (b : Assembler), b.live = r :: a.live →
      ∀ x ∈ [Resource.temp r], b.Has E x := by
    intro r b live x mem
    obtain rfl := List.mem_singleton.mp mem
    exact .inl (live ▸ List.mem_cons_self)
  rw [getTemp, StateT.run_bind, StateT.run_bind]
  cases free : a.freeTemps with
  | nil =>
    rw [run_unusedRegister_nil free, run_unusedRegister_nil (a := a.bare) free]
    exact .ok ⟨rfl, .tail (.single .take) (.idle rfl), taken _ _ rfl⟩
  | cons r rest =>
    rw [run_unusedRegister_cons free, run_unusedRegister_cons (a := a.bare) free]
    exact .ok ⟨rfl, .tail (.single (.retake free)) (.idle rfl), taken _ _ rfl⟩

theorem echo_freeTemps {registers : List Register} (has : ∀ x ∈ temps registers, x ∈ Γ) :
    OwnEcho E Γ (freeTemps registers) := by
  intro a given
  have held : ∀ r ∈ registers, a.Has E (.temp r) :=
    fun r mem => given _ (has _ (List.mem_map_of_mem mem))
  show Agrees _ ((ite (a.liveTemps < _) _ _ : Code).run a)
    ((ite (a.liveTemps < _) _ _ : Code).run a.bare)
  split
  · exact .error rfl
  · exact .ok ⟨rfl, .tail (.single (.release held)) (.idle rfl), by simp⟩

theorem echo_lda {r : Register} (has : .temp r ∈ Γ) : OwnEcho E Γ (lda r) :=
  echo_emit [.temp r] rfl (by simpa using has)

theorem echo_sta {r : Register} (has : .temp r ∈ Γ) : OwnEcho E Γ (sta r) :=
  echo_emit [.temp r] rfl (by simpa using has)

theorem echo_storeTemp : OwnEcho E Γ storeTemp fun r => [.temp r] :=
  echo_getTemp.bind fun _ => (echo_sta (by simp)).then <| .pure (by simp)

/-! ## Registers of variables -/

theorem registerFor_moves (v : VariableId) (a : Assembler) :
    ∃ r b, (registerFor v).run a = .ok (r, b) ∧ (registerFor v).run a.bare = .ok (r, b.bare) ∧
      a.Moves E b ∧ b.locals.get? v = some r ∧ b.code = a.code := by
  rw [registerFor, StateT.run_bind, StateT.run_bind, StateT.run_get, StateT.run_get, pure_bind,
    pure_bind]
  rw [show a.bare.locals = a.locals from rfl]
  cases found : a.locals.get? v with
  | some r => exact ⟨r, a, rfl, rfl, .refl, found, rfl⟩
  | none =>
    refine ⟨_, _, rfl, rfl, .tail (.single (.bind (.inl found))) (.idle rfl), ?_, rfl⟩
    rw [OrderedMap.get?_insert, if_pos rfl]

theorem echo_loadRegister (ready : .ready v ∈ Γ) : OwnEcho E Γ (registerFor v >>= lda) := by
  intro a given
  obtain ⟨r, b, run, run', moves, bound, -⟩ := registerFor_moves (E := E) v a
  rw [StateT.run_bind, StateT.run_bind, run, run']
  refine .ok ⟨congrArg (Prod.mk ()) (b.bare_push ⟨.lda r, b.origin, b.placement none⟩).symm,
      moves.tail (.load bound ?_), by simp⟩
  exact moves.has (given _ ready)

theorem echo_storeRegister (v : VariableId) : OwnEcho E Γ (registerFor v >>= sta) := by
  intro a _
  obtain ⟨r, b, run, run', moves, bound, -⟩ := registerFor_moves (E := E) v a
  rw [StateT.run_bind, StateT.run_bind, run, run']
  exact .ok ⟨congrArg (Prod.mk ()) (b.bare_push ⟨.sta r, b.origin, b.placement none⟩).symm,
      moves.tail (.store bound), by simp⟩

theorem echo_initializeRegister (v : VariableId) :
    OwnEcho E Γ (do sta (← registerFor v); markInitialized v) := by
  intro a _
  obtain ⟨r, b, run, run', moves, bound, -⟩ := registerFor_moves (E := E) v a
  rw [StateT.run_bind, StateT.run_bind, run, run']
  have stored : ∃ e ∈ b.code.push ⟨.sta r, b.origin, b.placement none⟩, e.instruction = .sta r :=
    ⟨_, Array.mem_push_self, rfl⟩
  refine .ok ⟨?_, (moves.tail (.store bound)).tail (.settle (.inr ⟨r, bound, stored⟩)), by simp⟩
  exact congrArg (fun b : Assembler => ((), { b with initialized := insertNew b.initialized v }))
    (b.bare_push ⟨.sta r, b.origin, b.placement none⟩).symm

theorem echo_markInitialized (exempt : E v) : OwnEcho E Γ (markInitialized v) :=
  fun _ _ => .ok ⟨rfl, .single (.settle (.inl (.inr exempt))), by simp⟩

theorem echo_bindParameter (exempt : E v) : OwnEcho E Γ (bindParameter v) :=
  fun _ _ => .ok ⟨rfl,
    .tail (.tail (.single (.bind (.inr exempt))) (.settle (.inl (.inr exempt)))) (.idle rfl),
    by simp⟩

theorem echo_constant (value : Constant) : OwnEcho E Γ (constant value) :=
  echo_plain rfl

/-! ## Properties -/

section Properties

variable {object : Register} {key : KeyOperand}

theorem echo_loadProperty (own : .temp object ∈ Γ) (keys : ∀ x ∈ temps key.temps, x ∈ Γ) :
    OwnEcho E Γ (loadProperty object key) := by
  cases key with
  | name name =>
    exact (echo_intern name).bind fun id => (echo_lda (by simp [own])).then <|
      echo_emit [.string id] rfl (by simp)
  | index index => exact (echo_lda own).then <| echo_plain rfl
  | value key =>
    have own_key : .temp key ∈ Γ := keys _ (.head _)
    exact (echo_lda own_key).then <| echo_emit [.temp object] rfl (by simp [own])

end Properties

/-! ## Operators and jumps -/

theorem echo_binary (op : BinaryOp) {lhs : Register} (own : .temp lhs ∈ Γ) :
    OwnEcho E Γ (binary op lhs) :=
  echo_emit [.temp lhs] rfl (by simp [own])

theorem echo_unary (op : AccumulatorOp) : OwnEcho E Γ (unary op) :=
  echo_plain rfl

theorem echo_branch : OwnEcho E Γ (branch target) :=
  echo_plain rfl

theorem echo_jumpIfTrue : OwnEcho E Γ (jumpIfTrue target) :=
  (echo_unary _).then <| echo_plain rfl

/-! ## Environments -/

theorem echo_environmentInstruction (slotNames : List String) :
    OwnEcho E Γ (environmentInstruction slotNames) Instruction.needs := by
  refine .get fun a => .ite (fun _ => ?_) fun _ => ?_
  · exact (echo_addLiteral _).bind fun literal => .pure fun x mem => List.mem_append_left _ mem
  · exact .pure nofun

theorem echo_popEnvironment : OwnEcho E Γ popEnvironment :=
  echo_plain rfl

/-! ## Boundaries and protected ranges -/

theorem echo_startBoundary (boundary : Boundary) : OwnEcho E Γ (startBoundary boundary) :=
  .idle (fun _ => rfl) fun _ => rfl

theorem echo_endBoundary (boundary : Boundary) : OwnEcho E Γ (endBoundary boundary) := by
  intro a _
  rw [endBoundary, StateT.run_bind, StateT.run_bind, StateT.run_get, StateT.run_get, pure_bind,
    pure_bind]
  rw [show a.bare.boundaries = a.boundaries from rfl]
  cases a.boundaries with
  | nil => exact .error rfl
  | cons top rest =>
    show Agrees _ ((ite (top = boundary) _ _ : Code).run a) ((ite (top = boundary) _ _ : Code).run a.bare)
    split
    · exact .ok ⟨rfl, .single (.idle rfl), by simp⟩
    · exact .error rfl

theorem echo_beginBreakable (names : List String) (acceptsUnlabelled : Bool) :
    OwnEcho E Γ (beginBreakable target names acceptsUnlabelled) :=
  .seq (.idle (fun _ => rfl) fun _ => rfl) fun _ => echo_startBoundary _

theorem echo_endBreakable : OwnEcho E Γ endBreakable :=
  (echo_endBoundary _).then <| .idle (fun _ => rfl) fun _ => rfl

theorem echo_beginContinuable (names : List String) :
    OwnEcho E Γ (beginContinuable target names) :=
  .seq (.idle (fun _ => rfl) fun _ => rfl) fun _ => echo_startBoundary _

theorem echo_endContinuable : OwnEcho E Γ endContinuable :=
  (echo_endBoundary _).then <| .idle (fun _ => rfl) fun _ => rfl

theorem echo_beginTry (handler : Label) : OwnEcho E Γ (beginTry handler) :=
  echo_freshLabel.seq fun start => (echo_label start).then <| .get fun a =>
    .seq (.idle (fun _ => rfl) fun _ => rfl) fun _ =>
    (echo_startBoundary (.region a.regions.size)).then .done

theorem echo_closeTry (index : Nat) : OwnEcho E Γ (closeTry index) := by
  refine .get fun a => ?_
  dsimp only [Assembler.bare]
  cases a.regions[index]? with
  | none => exact .throw rfl
  | some region =>
    dsimp only
    cases region.opened with
    | none => exact .done
    | some start =>
      exact echo_freshLabel.seq fun stop => (echo_label stop).then <|
        .idle (fun _ => rfl) fun _ => rfl

theorem echo_resumeTry (index : Nat) : OwnEcho E Γ (resumeTry index) := by
  refine .get fun a => ?_
  dsimp only [Assembler.bare]
  cases a.regions[index]? with
  | none => exact .throw rfl
  | some region =>
    dsimp only
    cases region.opened with
    | some _ => exact .done
    | none =>
      exact echo_freshLabel.seq fun start => (echo_label start).then <|
        .idle (fun _ => rfl) fun _ => rfl

theorem echo_endTry (index : Nat) : OwnEcho E Γ (endTry index) :=
  (echo_endBoundary _).then <| echo_closeTry index

theorem echo_noteCopy (region : Nat) (kind : FinalizerKind) (scope : ScopeId) (start : Nat) :
    OwnEcho E Γ (noteCopy region kind scope start) :=
  .idle (fun a => by rw [Assembler.size_code_bare]; rfl) fun _ => rfl

theorem echo_noteVisit (before : ControlState) (scope : ScopeId) :
    OwnEcho E Γ (noteVisit before scope) :=
  .idle (fun _ => rfl) fun _ => rfl

theorem echo_enterScope (scope : ScopeId) : OwnEcho E Γ (enterScope scope) := by
  refine .idle (fun a => ?_) fun a => by split <;> rfl
  rw [Assembler.size_code_bare]
  show (if a.debugMode then _ else _) = _
  split <;> rfl

theorem echo_exitScope : OwnEcho E Γ exitScope := by
  refine .idle (fun a => ?_) fun a => ?_
  · rw [Assembler.size_code_bare]
    rw [show a.bare.openScopes = a.openScopes from rfl, show a.bare.debugMode = a.debugMode from rfl]
    split
    · cases a.openScopes <;> rfl
    · rfl
  · split
    · split <;> rfl
    · rfl

theorem echo_defer (unit : UnitSource) : Echo E Γ (defer unit) (defer unit.bare) :=
  .idle (fun a => by simp [Assembler.bare]) fun _ => rfl

end AccScript
