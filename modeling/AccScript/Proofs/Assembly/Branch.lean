import AccScript.Proofs.Assembly.Jump
import AccScript.Proofs.Metadata.Outcome

/-!
# Blocks, branches, labels and protected statements

Each statement settles if its parts do.  A finalizer is run under two kinds of stages: at the stage
of its statement, where it follows the protected code, and at that of a jump, where the boundaries
of the statement and of all inside of it have been left.
-/

namespace AccScript

open Asm Lower

variable {G : Guard} {σ : Stage} {env : Env} {watched : Prop} {code : Lower Unit}
  {pairs : List (CasePart × Label)} (node : NodeId)

/-! ## Stages of parts -/

theorem Serves.enter {finalizers : List Code} (h : Serves watched finalizers σ) {b : Boundary}
    (plain : ∀ i, b ≠ .finalizer i) : Serves watched finalizers (σ.enter [b]) := by
  intro i rest suffix
  rcases List.suffix_cons_iff.mp suffix with same | inside
  · exact absurd (List.cons.inj same).1.symm (plain i)
  · exact h i rest inside

theorem Serves.guard {finalizers : List Code} (h : Serves watched finalizers σ) {code : Code}
    (run : ∀ (G : Guard) (τ : Stage), (G.watched → watched) → τ.boundaries = σ.boundaries →
      σ.temps ⊆ τ.temps → σ.made ⊆ τ.made → (G.watched → τ.KnowsTargets) →
      Flows G τ code fun _ => τ) :
    Serves watched (finalizers ++ [code]) (σ.enter [.finalizer finalizers.length]) := by
  intro i rest suffix
  rcases List.suffix_cons_iff.mp suffix with same | inside
  · obtain ⟨head, rfl⟩ := List.cons.inj same
    cases head
    exact ⟨code, List.getElem?_concat_length, run⟩
  · obtain ⟨code', found, run'⟩ := h i rest inside
    have bound := (List.getElem?_eq_some_iff.mp found).1
    exact ⟨code', (List.getElem?_append_left bound).trans found, run'⟩

namespace Suits

theorem withScope (h : Suits watched env σ) (scope : ScopeId) :
    Suits watched { env with scope } σ :=
  ⟨h.fields, h.serves, h.known, h.mirrors, h.crosses⟩

theorem make (h : Suits watched env σ) (region : Nat) : Suits watched env (σ.make region) :=
  h.mono rfl rfl rfl (List.Subset.refl _) (List.subset_cons_self _ _) fun _ => id

theorem breakable (h : Suits watched env σ) {l : Label} (known : σ.Knows l) (names : List String)
    (acceptsUnlabelled : Bool) :
    Suits watched
      { env with enclosing := .breakable l names acceptsUnlabelled :: env.enclosing }
      (σ.breakable l names acceptsUnlabelled) where
  fields := h.fields
  serves := h.serves.enter nofun
  known w := List.forall_mem_cons.mpr ⟨known, h.known w⟩
  mirrors w := (h.mirrors w).breakable l names acceptsUnlabelled
  crosses w := (h.crosses w).breakable l names acceptsUnlabelled

theorem continuable
    (h : Suits watched env σ) {l : Label} (known : σ.Knows l) (names : List String) :
    Suits watched { env with enclosing := .continuable l names :: env.enclosing }
      (σ.continuable l names) where
  fields := h.fields
  serves := h.serves.enter nofun
  known w target mem := by
    rcases List.mem_append.mp mem with old | mem
    · exact h.known w target (List.mem_append_left _ old)
    · rcases List.mem_cons.mp mem with rfl | old
      · exact known
      · exact h.known w target (List.mem_append_right _ old)
  mirrors w := (h.mirrors w).continuable l names
  crosses w := (h.crosses w).continuable l names

theorem iteration (h : Suits watched env σ) (scope : ScopeId) :
    Suits watched { env with enclosing := .iteration scope :: env.enclosing }
      (σ.enter [.environment scope]) where
  fields := h.fields
  serves := h.serves.enter nofun
  known := h.known
  mirrors w := (h.mirrors w).iteration scope
  crosses w := (h.crosses w).iteration scope

theorem region (h : Suits watched env σ) (i : Nat) : Suits watched env (σ.enter [.region i]) where
  fields := h.fields
  serves := h.serves.enter nofun
  known := h.known
  mirrors w := (h.mirrors w).region i
  crosses w := (h.crosses w).region i

theorem trailing (h : Suits watched env σ) (region : Nat) :
    Suits watched { env with enclosing := .finalizer region false :: env.enclosing } σ where
  fields := h.fields
  serves := h.serves
  known := h.known
  mirrors w := (h.mirrors w).trailing region
  crosses w := (h.crosses w).copied region false

theorem guarded (h : Suits watched env σ) {region : Nat} (made : region ∈ σ.made)
    (outside : watched → .region region ∉ σ.boundaries) (kind : FinalizerKind)
    {finalizer : Lower Unit} (closes : ∀ r, kind = .closing r → finalizer = emit (.closeIterator r))
    (finalizes : ∀ (G : Guard) (τ : Stage), σ.temps ⊆ τ.temps →
      Suits G.watched { env with enclosing := .finalizer region true :: env.enclosing } τ →
      Flows G τ (within (.finalizer region true) finalizer env) fun _ => τ) :
    Suits watched
      { env with
        finalizers := env.finalizers ++ [copyOf region kind true finalizer env]
        enclosing := .guarded region kind env.scope :: env.enclosing }
      ((σ.enter [.finalizer env.finalizers.length]).enter [.region region]) where
  fields := h.fields
  serves := by
    refine (h.serves.guard fun G τ watches boundaries temps makes known => ?_).enter nofun
    refine flows_copyOf (makes made) (fun w => boundaries ▸ outside (watches w)) closes ?_
    refine finalizes (G.shutting region) τ temps ⟨h.fields, ?_, known, fun _ => ?_, fun w => ?_⟩
    · exact h.serves.mono watches boundaries temps makes
    · exact .inlined region env.enclosing τ.boundaries τ.breakables τ.continuables
    · rw [boundaries]
      exact (h.crosses (watches w)).copied region true
  known := h.known
  mirrors w := .region region (.guarded List.getElem?_concat_length ((h.mirrors w).append _))
  crosses w := .region region (.guarded List.getElem?_concat_length ((h.crosses w).append _))

end Suits

/-! ## Blocks -/

theorem Settles.bind {first second : Lower Unit} (h : Settles first) (h' : Settles second) :
    Settles (do
      first
      second) :=
  fun env G σ suits => (h env G σ suits).then <| h' env G σ suits

theorem Settles.inScopeOf (h : Settles code) (node : NodeId) :
    Settles (Lower.inScopeOf node code) :=
  fun _ G σ suits => (neutral_scopeOf node).follow fun scope => h _ G σ (suits.withScope scope)

theorem Settles.inVisibleScope (h : Settles code) (node : NodeId) :
    Settles (Lower.inVisibleScope node code) :=
  fun _ G σ suits => (neutral_scopeOf node).follow fun scope =>
    .withScope <| (h _ G σ (suits.withScope scope)).visibly scope

/-- A statement leaves control as it found it. -/
theorem Settles.visiting (h : Settles code) : Settles (Lower.visiting code) := by
  intro env G σ suits
  refine ⟨fun a sound => ?_⟩
  show Ends (code env >>= fun _ => noteVisit (a.control env.scope) env.scope) a _
  refine ((h env G σ suits).ends a sound).bind fun _ b post => .of_run rfl ⟨?_, ?_⟩
  · refine ⟨post.1.boundaries, post.1.breakables, post.1.continuables,
      post.1.allocates.congr rfl rfl rfl, fun watched => ?_⟩
    refine { post.1.watches watched with visits := fun v mem => ?_ }
    rcases Array.mem_push.mp mem with old | rfl
    · exact (post.1.watches watched).visits v old
    · exact sound.control_eq post.1 post.2 watched env.scope
  · exact post.2.trans (.of_same_code rfl (fun _ mem => mem)
      (fun _ region found => ⟨region, found, rfl⟩) rfl fun v mem => Array.mem_push.mpr (.inl mem))

theorem settles_blockOf (functions : List Statement) {body : Lower Unit}
    (h : Settles body) : Settles (blockOf node functions body) :=
  Settles.inVisibleScope ((tame_instantiateFunctions functions).settles.bind h) node

/-! ## Branches -/

theorem flows_elseBranch {otherwise : Label} {alternate : Lower Unit} (h : Settles alternate)
    (suits : Suits G.watched env σ) :
    Flows G (σ.expect otherwise) (elseBranch otherwise alternate env) fun _ => σ := by
  refine flows_freshLabel.step fun done => neutral_isTerminated.step fun _ => ?_
  have rest : Flows G ((σ.expect otherwise).expect done) ((do
      label otherwise
      alternate
      label done : Lower Unit) env) fun _ => σ :=
    (flows_label 1 rfl).before <| (h env G _ (suits.expect done)).then <| flows_label 0 rfl
  refine .choose (fun _ => ?_) fun _ => rest
  exact (flows_branch (by simp [Stage.Knows])).before rest

theorem settles_ifElse (functions : List Statement) {test : Label → Lower Unit}
    (tests : TameTest test)
    {consequent : Lower Unit} (first : Settles consequent) {alternate : Option (Lower Unit)}
    (second : ∀ code ∈ alternate, Settles code) :
    Settles (ifElse node functions test consequent alternate) := by
  refine Settles.inScopeOf (fun env G σ suits => ?_) node
  refine (tame_instantiateFunctions functions env suits.fields).then <|
    flows_freshLabel.step fun otherwise =>
    (tests env suits.fields otherwise G _ (by simp [Stage.Knows])).then <|
    (first env G _ (suits.expect otherwise)).then ?_
  cases alternate with
  | none => exact flows_label 0 rfl
  | some alternate => exact flows_elseBranch (second alternate rfl) suits

/-! ## Switches -/

/-- With labels to be placed, of which the first was made first. -/
def Stage.expectAll (σ : Stage) (ls : List Label) : Stage :=
  { σ with labels := ls.reverse ++ σ.labels }

theorem Stage.place_expectAll (σ : Stage) (l : Label) (ls : List Label) :
    (σ.expectAll (l :: ls)).place ls.length = σ.expectAll ls := by
  have erased : (ls.reverse ++ l :: σ.labels).eraseIdx ls.length = ls.reverse ++ σ.labels := by
    rw [List.eraseIdx_append_of_length_le (by simp)]
    simp
  simp [Stage.place, Stage.expectAll, erased]

theorem Suits.expectAll (h : Suits watched env σ) (ls : List Label) :
    Suits watched env (σ.expectAll ls) :=
  h.mono rfl rfl rfl (List.Subset.refl _) (List.Subset.refl _)
    fun _ known => known.imp (List.mem_append_right _) id

theorem flows_freshLabels {α : Type} (items : List α) :
    Flows G σ (freshLabels items) σ.expectAll := by
  induction items generalizing σ with
  | nil => exact .pure (υ := σ.expectAll) []
  | cons item rest ih =>
    refine flows_freshLabel.bind fun l => ih.bind fun ls => ?_
    have same : (σ.expect l).expectAll ls = σ.expectAll (l :: ls) := by
      simp [Stage.expect, Stage.expectAll]
    rw [same]
    exact .pure (υ := σ.expectAll) (l :: ls)

theorem length_freshLabels {α : Type} (items : List α) {a b : Assembler} {ls : List Label}
    (run : (freshLabels items).run a = .ok (ls, b)) : ls.length = items.length := by
  induction items generalizing a b ls with
  | nil =>
    cases run
    rfl
  | cons item rest ih =>
    obtain ⟨⟨ls, c⟩, made, ⟨⟩⟩ := exists_of_bind_eq_ok run
    exact congrArg (· + 1) (ih made)

theorem flows_caseTests {value : Register} (own : value ∈ σ.temps)
    (h : ∀ pair ∈ pairs, ∀ test ∈ pair.1.test, Neutral (test env))
    (known : ∀ pair ∈ pairs, σ.Knows pair.2) (default : Option Label)
    (default_known : ∀ l ∈ default, σ.Knows l) {next : Option Label → Lower Unit} {τ : Stage}
    (after : ∀ l, (∀ l' ∈ l, σ.Knows l') → Flows G σ (next l env) fun _ => τ) :
    Flows G σ ((caseTests value default pairs >>= next) env) fun _ => τ := by
  induction pairs generalizing default with
  | nil => exact after default default_known
  | cons pair rest ih =>
    obtain ⟨part, target⟩ := pair
    have others := ih (fun pair mem => h pair (.tail _ mem))
      (fun pair mem => known pair (.tail _ mem))
    have here := known (part, target) (.head _)
    unfold caseTests
    cases found : part.test with
    | none => exact others _ fun l same => by cases same; exact here
    | some test =>
      have tests := h (part, target) (.head _) test found
      simp only [bind_assoc]
      exact tests.then <| (flows_binary _ own).before <|
        Flows.step (flows_jump target here rfl rfl rfl) fun _ => others default default_known

theorem flows_caseBodies (suits : Suits G.watched env σ) (h : ∀ pair ∈ pairs, Settles pair.1.body) :
    Flows G (σ.expectAll (pairs.map Prod.snd)) (caseBodies pairs env) fun _ => σ := by
  induction pairs with
  | nil => exact Neutral.pure () G σ
  | cons pair rest ih =>
    obtain ⟨part, target⟩ := pair
    have others := ih fun pair mem => h pair (.tail _ mem)
    have body := h (part, target) (.head _) env G _ (suits.expectAll (rest.map Prod.snd))
    have here : (σ.expectAll (target :: rest.map Prod.snd)).labels[(rest.map Prod.snd).length]? =
        some target := by
      simp [Stage.expectAll]
    refine (flows_label _ here).before ?_
    rw [Stage.place_expectAll]
    exact body.then others

theorem settles_switchOn
    (names : List String) {discriminant : Lower Unit} (values : Tame discriminant)
    (functions : List Statement) {parts : List CasePart}
    (tests : ∀ part ∈ parts, ∀ test ∈ part.test, Tame test)
    (bodies : ∀ part ∈ parts, Settles part.body) :
    Settles (switchOn node names discriminant functions parts) := by
  intro env G σ suits
  refine (values env suits.fields).then <| flows_storeTemp.step fun value =>
    Flows.follow (m := inScopeOf node _) (τ := fun _ => σ.hold [value]) ?_ fun _ =>
    flows_freeTemps 1 (.refl _)
  refine (neutral_scopeOf node).follow fun scope => .withScope ?_
  have suits := (suits.hold [value]).withScope scope
  refine flows_freshLabel.step fun done => (flows_beginBreakable done names true).before <|
    (tame_instantiateFunctions functions _ suits.fields).then <|
    (flows_freshLabels parts).step_of (fun ls a b => length_freshLabels parts) fun targets length => ?_
  have firsts : ∀ pair ∈ parts.zip targets, pair.1 ∈ parts := fun pair mem => (List.of_mem_zip mem).1
  have same : (parts.zip targets).map Prod.snd = targets :=
    List.map_snd_zip (Nat.le_of_eq length)
  refine flows_caseTests (by simp [Stage.expectAll])
    (fun pair mem test found => tests pair.1 (firsts pair mem) test found _ suits.fields)
    (fun pair mem => .inl ?_) none nofun fun default known => ?_
  · have mem := (List.of_mem_zip mem).2
    exact List.mem_append_left _ (List.mem_reverse.mpr mem)
  · have start : (((σ.hold [value]).expect done).breakable done names true |>.expectAll
        targets).Knows (default.getD done) := by
      cases default with
      | none => exact .inl (List.mem_append_right _ (.head _))
      | some l => exact known l rfl
    have inside := (suits.expect done).breakable (l := done) (.inl (.head _)) names true
    have body := flows_caseBodies inside fun pair mem => bodies pair.1 (firsts pair mem)
    rw [same] at body
    exact (flows_branch start).before <| Flows.follow (m := within _ _) body fun _ =>
      flows_endBreakable.before <| flows_label 0 rfl

theorem settles_labelledBlock (names : List String) {body : Lower Unit} (h : Settles body) :
    Settles (labelledBlock names body) := by
  intro env G σ suits
  refine flows_freshLabel.step fun done => ?_
  have inside := (suits.expect done).breakable (l := done) (.inl (.head _)) names false
  exact (flows_beginBreakable done names false).before <|
    Flows.follow (m := within _ body) (h _ G _ inside) fun _ =>
    flows_endBreakable.before <| flows_label 0 rfl

/-! ## Protected statements -/

theorem flows_rethrowAfter (h : ∀ r, Flows G (σ.hold [r]) (code env) fun _ => σ.hold [r]) :
    Flows G σ (rethrowAfter code env) fun _ => σ :=
  flows_storeTemp.step fun exception => (h exception).then <|
    (flows_lda (by simp)).before <| (neutral_emit rfl).before <| flows_freeTemps 1 (.refl _)

theorem settles_tryCatch {block handler : Lower Unit} (h : Settles block) (h' : Settles handler) :
    Settles (tryCatch block handler) := by
  intro env G σ suits
  refine flows_freshLabel.step fun onThrow => flows_freshLabel.step fun done =>
    (flows_beginTry (by simp [Stage.Knows])).step fun region => Flows.unmake region ?_
  have inside := (((suits.expect onThrow).expect done).make region).region region
  refine (h env G _ inside).then <| neutral_isTerminated.step fun _ =>
    flows_endTry.before ?_
  have rest : Flows G (((σ.expect onThrow).expect done).make region) ((do
      label onThrow
      handler
      label done : Lower Unit) env) fun _ => σ.make region :=
    (flows_label 1 rfl).before <| (h' env G _ ((suits.expect done).make region)).then <|
      flows_label 0 rfl
  refine .choose (fun _ => ?_) fun _ => rest
  exact (flows_branch (by simp [Stage.Knows])).before rest

theorem flows_trailingCopy (suits : Suits G.watched env σ) {region : Nat} (made : region ∈ σ.made)
    (outside : G.watched → .region region ∉ σ.boundaries) {finalizer : Lower Unit}
    (h : Settles finalizer) : Flows G σ (copyOf region .block false finalizer env) fun _ => σ :=
  flows_copyOf made outside nofun (h _ (G.shutting region) σ (suits.trailing region))

theorem settles_tryFinally {body finalizer : Lower Unit} (h : Settles body)
    (h' : Settles finalizer) : Settles (tryFinally body finalizer) := by
  intro env G σ suits
  refine .read <| flows_freshLabel.step fun onThrow => flows_freshLabel.step fun done =>
    (flows_startBoundary (.finalizer env.finalizers.length) (by simp)).before <|
    (flows_beginTry (by simp [Stage.Knows])).step fun region =>
    .given (fun _ sound w => sound.region_not_mem w) fun apart => Flows.unmake region ?_
  have outside : G.watched → .region region ∉ σ.boundaries :=
    fun w mem => apart w (.tail _ mem)
  have around := (((suits.expect onThrow).expect done).make region)
  have inside := around.guarded (.head _) outside .block (by simp)
    fun G τ _ suits => h' _ G τ suits
  refine .close <| Flows.follow (m := withFinalizer region .block _ body) (h _ G _ inside)
    fun _ => neutral_isTerminated.step fun _ => flows_endTry.before <|
    Flows.step (flows_endBoundary (σ := ((σ.expect onThrow).expect done).make region)
      (.finalizer env.finalizers.length) (by simp)) fun _ => ?_
  have rest : Flows G (((σ.expect onThrow).expect done).make region) ((do
      label onThrow
      rethrowAfter (copyOf region .block false finalizer)
      label done : Lower Unit) env) fun _ => σ.make region := by
    have copy : ∀ r, Flows G (((σ.expect done).make region).hold [r])
        (copyOf region .block false finalizer env) fun _ => ((σ.expect done).make region).hold [r] :=
      fun r => flows_trailingCopy (((suits.expect done).make region).hold [r]) (.head _)
        outside h'
    exact (flows_label 1 rfl).before <| (flows_rethrowAfter copy).then <| flows_label 0 rfl
  refine .choose (fun _ => ?_) fun _ => rest
  refine Flows.follow (m := finalizeNormally (copyOf region .block false finalizer) done)
    (τ := fun _ => ((σ.expect onThrow).expect done).make region) ?_ fun _ => rest
  refine (flows_trailingCopy around (.head _) outside h').then <|
    neutral_isTerminated.step fun _ => .choose (fun _ => ?_) fun _ => Neutral.pure () G _
  exact flows_branch (by simp [Stage.Knows])

theorem settles_tryStatement
    {block : Lower Unit} (h : Settles block) {handler finalizer : Option (Lower Unit)}
    (handlers : ∀ code ∈ handler, Settles code) (finalizers : ∀ code ∈ finalizer, Settles code) :
    Settles (tryStatement block handler finalizer) := by
  cases handler with
  | some handler =>
    have handled := settles_tryCatch h (handlers handler rfl)
    cases finalizer with
    | none => exact handled
    | some finalizer => exact settles_tryFinally handled (finalizers finalizer rfl)
  | none =>
    cases finalizer with
    | none =>
      exact fun _ _ _ _ => .throw (Failure.not_blames_internal (c := 't') (by simp) rfl)
    | some finalizer => exact settles_tryFinally h (finalizers finalizer rfl)

theorem settles_catchHandler
    (position : Position) {bind body : Lower Unit} (binds : Tame bind)
    (h : Settles body) : Settles (catchHandler node position bind body) := by
  intro env G σ suits
  refine (neutral_scopeOf node).follow fun scope =>
    .withScope <| (neutral_atPosition position).before ?_
  have handled : Flows G σ (bind { env with scope } >>= fun _ => body { env with scope }) fun _ => σ :=
    (binds { env with scope } suits.fields).seq <| h _ G σ (suits.withScope scope)
  have visible := handled.visibly scope
  simp only [bind_assoc] at visible
  exact visible

end AccScript
