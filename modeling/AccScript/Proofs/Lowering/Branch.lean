import AccScript.Proofs.Lowering.Jump

/-!
# Blocks, branches and protected statements

Statements that open a boundary around others.  For each kind of boundary one lemma says what
statements inside of it may rely on.
-/

namespace AccScript

open Asm Lower

variable {α β : Type} {S : Setting} {ctx : JumpContext} {pending : List String} {env : Env}
  {ls : List Label} {Γ : Frame} {n : Nat} {names : List String} {node : NodeId}
  {inOrder : ScopeId → Prop} {m : Lower α} {functions : List Statement} {boundaries : List Boundary}
  {target : Label} {ctx' : JumpContext} {code : Lower Unit} {body : Lower Unit} {kind : ScopeKind}
  {f : α → Lower β} {cases : List (CasePart × Label)} {statements : List Statement}

/-! ## Inside of boundaries -/

theorem Covers.cons
    {Δ : Frame} {targets : List JumpTarget} {allowed allowed' : Option String → Prop}
    (h : Covers S Γ targets allowed) (suffix : Γ.boundaries <:+ Δ.boundaries)
    (le : Γ.depths.Le Δ.depths) {target : JumpTarget} (valid : S.Valid Δ target)
    (covered : ∀ name, allowed' name → target.Accepts name ∨ allowed name) :
    Covers S Δ (target :: targets) allowed' := by
  refine ⟨fun lawful name may => ?_, fun contained => ?_⟩
  · rcases covered name may with accepts | old
    · exact ⟨target, .head _, valid.depth_lt, accepts⟩
    · obtain ⟨t, mem, inside, accepts⟩ := h.found lawful name old
      exact ⟨t, .tail _ mem, Nat.lt_of_lt_of_le inside suffix.length_le, accepts⟩
  · obtain ⟨current, stale, same, valid', complete⟩ := h.valid contained
    refine ⟨target :: current, stale, by rw [same, List.cons_append], ?_, ?_⟩
    · exact List.forall_mem_cons.mpr ⟨valid, fun t mem => (valid' t mem).mono suffix le⟩
    · refine complete.imp id fun all name may => ?_
      rcases covered name may with accepts | old
      · exact ⟨target, .head _, accepts⟩
      · obtain ⟨t, mem, accepts⟩ := all name old
        exact ⟨t, .tail _ mem, accepts⟩

/-- The regions and finalizers around are still there inside of another boundary. -/
theorem suffix_of_cons {b head : Boundary} {rest boundaries : List Boundary}
    (h : b :: rest <:+ head :: boundaries) (other : b ≠ head) : b :: rest <:+ boundaries := by
  rcases List.suffix_cons_iff.mp h with same | within
  · exact absurd (List.cons.inj same).1 other
  · exact within

theorem accepts_or_canBreak {target : JumpTarget} (own : target.names = names)
    (unchecked : ctx'.isUnchecked = ctx.isUnchecked) (labels : ctx'.labels = ctx.labels)
    (unlabelled : ctx'.inBreakable = true →
      target.acceptsUnlabelled = true ∨ ctx.inBreakable = true)
    {name : Option String} (may : ctx'.CanBreak name) :
    target.Accepts name ∨ ctx.CanBreak name ∧ ∀ x ∈ names, name ≠ some x := by
  cases name with
  | none =>
    rcases may with anything | inside
    · exact .inr ⟨.inl (unchecked ▸ anything), nofun⟩
    · exact (unlabelled inside).imp id fun outside => ⟨.inr outside, nofun⟩
  | some name =>
    by_cases mem : name ∈ names
    · exact .inl (by simpa [JumpTarget.Accepts, own] using mem)
    · refine .inr ⟨may.imp (unchecked ▸ ·) (labels ▸ ·), fun x inside same => ?_⟩
      cases same
      exact mem inside

theorem Ready.openBreak (h : Ready S ctx names Γ env) {acceptsUnlabelled : Bool}
    (depth : Γ.depths.label target = some (S.depth Γ.boundaries))
    (unchecked : ctx'.isUnchecked = ctx.isUnchecked) (labels : ctx'.labels = ctx.labels)
    (unlabelled : ctx'.inBreakable = true → acceptsUnlabelled = true ∨ ctx.inBreakable = true)
    (continues : ∀ name, ctx'.CanContinue name → ctx.CanContinue name) :
    Ready S ctx' [] (Γ.openBreak target names acceptsUnlabelled) env := by
  have suffix : Γ.boundaries <:+ .breakTarget :: Γ.boundaries := List.suffix_cons _ _
  refine ⟨?_, ?_, ?_, ?_, h.this⟩
  · refine h.breaks.cons (Δ := Γ.openBreak target names acceptsUnlabelled) suffix (.refl _) ?_
      fun name may => accepts_or_canBreak rfl unchecked labels unlabelled may.1
    exact ⟨.breakTarget :: Γ.boundaries, List.suffix_refl _, rfl, depth⟩
  · exact h.continues.mono suffix (.refl _) continues
  · exact fun i rest within => h.regions i rest (suffix_of_cons within (by simp))
  · intro i rest within
    obtain ⟨code, found, closes⟩ := h.finalizers i rest (suffix_of_cons within (by simp))
    exact ⟨code, found,
      closes.mono (.refl _) (List.subset_cons_self _ _) (List.Subset.refl _)⟩

theorem Ready.openSwitch (h : Ready S ctx names Γ env)
    (depth : Γ.depths.label target = some (S.depth Γ.boundaries)) :
    Ready S ctx.switch [] (Γ.openBreak target names true) env :=
  h.openBreak depth rfl rfl (fun _ => .inl rfl) fun _ may => may

/-- Inside of a statement that only jumps with its labels leave. -/
theorem Ready.openLabelled (h : Ready S ctx names Γ env)
    (depth : Γ.depths.label target = some (S.depth Γ.boundaries)) :
    Ready S ctx [] (Γ.openBreak target names false) env :=
  h.openBreak depth rfl rfl .inr fun _ may => may

theorem Ready.openContinue (h : Ready S ctx.switch pending Γ env)
    (depth : Γ.depths.label target = some (S.depth Γ.boundaries)) (names : List String) :
    Ready S (ctx.loop names) pending (Γ.openContinue target names) env := by
  have suffix : Γ.boundaries <:+ .continueTarget :: Γ.boundaries := List.suffix_cons _ _
  refine ⟨?_, ?_, ?_, ?_, h.this⟩
  · exact h.breaks.mono suffix (.refl _) fun _ may => may
  · refine h.continues.cons (Δ := Γ.openContinue target names) suffix (.refl _) ?_ ?_
    · exact ⟨.continueTarget :: Γ.boundaries, List.suffix_refl _, rfl, depth⟩
    · rintro name (anything | inside)
      · exact .inr (.inl anything)
      · cases name with
        | none => exact .inl rfl
        | some name =>
          rcases List.mem_append.mp inside with own | outside
          · exact .inl (by simpa [JumpTarget.Accepts] using own)
          · exact .inr (.inr outside)
  · exact fun i rest within => h.regions i rest (suffix_of_cons within (by simp))
  · intro i rest within
    obtain ⟨code, found, closes⟩ := h.finalizers i rest (suffix_of_cons within (by simp))
    exact ⟨code, found,
      closes.mono (.refl _) (List.Subset.refl _) (List.subset_cons_self _ _)⟩

theorem Ready.pushEnvironment (h : Ready S ctx pending Γ env) (loop : ScopeId) :
    Ready S ctx pending (Γ.push (.environment loop)) env := by
  have suffix : Γ.boundaries <:+ .environment loop :: Γ.boundaries := List.suffix_cons _ _
  refine ⟨?_, ?_, ?_, ?_, h.this⟩
  · exact h.breaks.mono suffix (.refl _) fun _ may => may
  · exact h.continues.mono suffix (.refl _) fun _ may => may
  · exact fun i rest within => h.regions i rest (suffix_of_cons within (by simp))
  · exact fun i rest within => h.finalizers i rest (suffix_of_cons within (by simp))

theorem Ready.openRegion
    (h : Ready S ctx pending Γ env) {i : Nat} (new : Γ.depths.region i = none) :
    Ready S ctx pending (Γ.openRegion i (S.depth Γ.boundaries)) env := by
  have suffix : Γ.boundaries <:+ .region i :: Γ.boundaries := List.suffix_cons _ _
  have wider := Depths.le_setRegion new (S.depth Γ.boundaries)
  refine ⟨?_, ?_, ?_, ?_, h.this⟩
  · exact h.breaks.mono suffix wider fun _ may => may
  · exact h.continues.mono suffix wider fun _ may => may
  · intro j rest within
    rcases List.suffix_cons_iff.mp within with same | within
    · obtain ⟨head, rfl⟩ := List.cons.inj same
      cases head
      exact Depths.setRegion_region_self _ _ _
    · exact wider.region j _ (h.regions j rest within)
  · intro j rest within
    obtain ⟨code, found, closes⟩ := h.finalizers j rest (suffix_of_cons within (by simp))
    exact ⟨code, found, closes.mono wider (List.Subset.refl _) (List.Subset.refl _)⟩

theorem Ready.pushFinalizer
    (h : Ready S ctx pending Γ env) {code : Code} (closes : Closes S Γ Γ.boundaries code) :
    Ready S ctx pending (Γ.push (.finalizer env.finalizers.length))
      { env with finalizers := env.finalizers ++ [code] } := by
  have suffix : Γ.boundaries <:+ .finalizer env.finalizers.length :: Γ.boundaries :=
    List.suffix_cons _ _
  refine ⟨?_, ?_, ?_, ?_, h.this⟩
  · exact h.breaks.mono suffix (.refl _) fun _ may => may
  · exact h.continues.mono suffix (.refl _) fun _ may => may
  · exact fun i rest within => h.regions i rest (suffix_of_cons within (by simp))
  · intro i rest within
    rcases List.suffix_cons_iff.mp within with same | within
    · obtain ⟨head, rfl⟩ := List.cons.inj same
      cases head
      exact ⟨code, by simp, closes⟩
    · obtain ⟨own, found, closes'⟩ := h.finalizers i rest within
      refine ⟨own, ?_, closes'⟩
      rw [List.getElem?_append_left (List.getElem?_eq_some_iff.mp found).1]
      exact found

/-- Targets of jumps in a finalizer, out of which a contained program makes none. -/
theorem Covers.finalizer {targets targets' : List JumpTarget} {allowed allowed' : Option String → Prop}
    (h : Covers S Γ targets allowed) {Δ : Frame} (boundaries : Δ.boundaries = Γ.boundaries)
    (more : targets ⊆ targets') (nothing : S.discipline = .contained → ∀ name, ¬allowed' name)
    (same : S.discipline = .lawful → ∀ name, allowed' name → allowed name) :
    Covers S Δ targets' allowed' := by
  refine ⟨fun lawful name may => ?_, fun contained => ⟨[], targets', rfl, nofun, .inr fun name may => ?_⟩⟩
  · obtain ⟨t, mem, inside, accepts⟩ := h.found lawful name (same lawful name may)
    exact ⟨t, more mem, boundaries ▸ inside, accepts⟩
  · exact absurd may (nothing contained name)

/-- What a copy of a finalizer can rely on, wherever it runs. -/
theorem Ready.finalizer
    (h : Ready S ctx [] Γ env) {Δ : Frame} (boundaries : Δ.boundaries = Γ.boundaries)
    (le : Γ.depths.Le Δ.depths) (breakables : Γ.breakables ⊆ Δ.breakables)
    (continuables : Γ.continuables ⊆ Δ.continuables) :
    Ready S (S.discipline.rules.finalizer ctx) [] Δ env := by
  refine ⟨?_, ?_, ?_, ?_, h.this⟩
  · refine h.breaks.finalizer boundaries breakables (fun contained name may => ?_)
      fun lawful name may => by rwa [lawful] at may
    rw [contained] at may
    rcases may.1 with unchecked | allowed
    · cases unchecked
    · cases name <;> simp [Discipline.rules, JumpRules.contained] at allowed
  · refine h.continues.finalizer boundaries continuables (fun contained name may => ?_)
      fun lawful name may => by rwa [lawful] at may
    rw [contained] at may
    rcases may with unchecked | allowed
    · cases unchecked
    · cases name <;> simp [Discipline.rules, JumpRules.contained] at allowed
  · intro i rest within
    rw [boundaries] at within
    exact le.region i _ (h.regions i rest within)
  · intro i rest within
    rw [boundaries] at within
    obtain ⟨code, found, closes⟩ := h.finalizers i rest within
    exact ⟨code, found, closes.mono le breakables continuables⟩

/-! ## Inside of scopes -/

theorem Setting.Inhabits.block (h : S.Inhabits env boundaries) {inner : ScopeId}
    (opens : S.surveyed → S.Opens node .block env.scope inner) :
    S.Inhabits { env with scope := inner } boundaries where
  anchors := h.anchors.withScope opens nofun
  outside := h.outside
  opened known := (h.opened known).trans (environments_of_opens known (opens known)).symm

theorem Ready.setLabel
    (h : Ready S ctx pending Γ env) {l : Label} (unknown : Γ.depths.label l = none) (k : Nat) :
    Ready S ctx pending (Γ.setLabel l k) env :=
  h.mono rfl rfl rfl (Depths.le_setLabel unknown k)

theorem Ready.withScope (h : Ready S ctx pending Γ env) (scope : ScopeId) :
    Ready S ctx pending Γ { env with scope } :=
  ⟨h.breaks, h.continues, h.regions, h.finalizers, h.this⟩

/-- What encloses code in the source matters to its sites only. -/
theorem Ready.within (h : Ready S ctx pending Γ env) (enclosing : List Enclosure) :
    Ready S ctx pending Γ { env with enclosing } :=
  ⟨h.breaks, h.continues, h.regions, h.finalizers, h.this⟩

theorem Setting.Inhabits.within (h : S.Inhabits env boundaries) (enclosing : List Enclosure) :
    S.Inhabits { env with enclosing } boundaries :=
  ⟨{ h.anchors with }, h.outside, h.opened⟩

theorem Steady.within (h : ∀ enclosing, Steady S ctx pending { env with enclosing } ls m)
    (enclosure : Enclosure) : Steady S ctx pending env ls (Lower.within enclosure m) :=
  fun Γ ready inhabits known => h _ Γ (ready.within _) (inhabits.within _) known

theorem Steady.anchored (h : S.Anchors env → Steady S ctx pending env ls m) :
    Steady S ctx pending env ls m :=
  fun Γ ready inhabits => h inhabits.anchors Γ ready inhabits

theorem Yields.steady {P : α → Prop} (first : Yields S env ls P m)
    (next : ∀ x, P x → Steady S ctx pending env ls (f x)) :
    Steady S ctx pending env ls (m >>= f) := by
  intro Γ ready inhabits known
  refine Spec.follow (first Γ _ inhabits.aligned known) fun x => ⟨fun a held => ?_⟩
  exact (next x held.1 Γ ready inhabits known).outcome a held.2

theorem Calm.inhabited (h : Calm S env [] m) (inhabits : S.Inhabits env Γ.boundaries) :
    Spec S (Held S Γ n) (m env) (fun _ => Held S Γ n) :=
  h Γ n inhabits.aligned nofun

theorem Plain.steady {m : Asm α} (first : Plain S ls m)
    (next : ∀ x, Steady S ctx pending env ls (f x)) :
    Steady S ctx pending env ls (liftM m >>= f) :=
  .bind (.of_calm first.calm) next

theorem Calm.steady (first : Calm S env ls m)
    (next : ∀ x, Steady S ctx pending env ls (f x)) : Steady S ctx pending env ls (m >>= f) :=
  .bind (.of_calm first) next

theorem Steady.inScope
    (finds : S.Finds (S.Opens node .block env.scope) inOrder) {f : ScopeId → Lower α}
    (h : ∀ inner, inOrder inner → Steady S ctx pending { env with scope := inner } ls (f inner)) :
    Steady S ctx pending env ls (scopeOf node >>= fun scope => Lower.withScope scope (f scope)) := by
  refine (yields_scopeOf finds.1).steady fun inner opened => ?_
  intro Γ ready inhabits known
  exact h inner (finds.2 inner opened.2) Γ (ready.withScope inner) (inhabits.block opened.2) known

/-! ## Blocks -/

theorem Statement.SurveyedList.of_mem {L : Ledger} {s : ScopeId}
    (h : Statement.SurveyedList L s statements) :
    ∀ statement ∈ statements, statement.Surveyed L s := by
  induction statements with
  | nil => nofun
  | cons first rest ih => exact List.forall_mem_cons.mpr ⟨h.1, ih h.2⟩

theorem calm_instantiateFunctions
    (h : ∀ statement ∈ statements, statement.Surveyed S.toLedger env.scope) :
    Calm S env ls (instantiateFunctions statements) :=
  .of_steady (Judgement.steady_instantiateFunctions h)

theorem steady_blockOf (finds : S.Finds (S.Opens node .block env.scope) inOrder)
    (functions_surveyed : ∀ inner, inOrder inner →
      ∀ statement ∈ functions, statement.Surveyed S.toLedger inner)
    (h : ∀ inner, inOrder inner → Steady S ctx pending { env with scope := inner } ls body) :
    Steady S ctx pending env ls (blockOf node functions body) := by
  refine .inScope finds fun inner ok => .anchored fun anchors => ?_
  have functions : Calm S { env with scope := inner } ls (instantiateFunctions functions) :=
    calm_instantiateFunctions (functions_surveyed inner ok)
  refine (plain_enterScope inner).steady fun _ => ?_
  exact .bind (functions.steady fun _ => h inner ok) fun _ => .of_calm plain_exitScope.calm

/-! ## Branches -/

theorem steady_elseBranch {otherwise : Label} {alternate : Lower Unit} (mem : otherwise ∈ ls)
    (h : Steady S ctx pending env ls alternate) :
    Steady S ctx pending env ls (elseBranch otherwise alternate) := by
  refine .fresh fun done => plain_isTerminated.steady fun terminated => ?_
  have rest : Steady S ctx pending env (done :: ls) (do
      label otherwise
      alternate
      label done) :=
    (plain_label (.tail _ mem)).steady fun _ => h.skip.then <|
      .of_calm (plain_label (.head _)).calm
  exact .ite (fun _ => (plain_branch (.head _)).steady fun _ => rest) fun _ => rest

theorem steady_ifElse (finds : S.Finds (S.Opens node .block env.scope) inOrder)
    {test : Label → Lower Unit} {consequent : Lower Unit} {alternate : Option (Lower Unit)}
    (functions_surveyed : ∀ inner, inOrder inner →
      ∀ statement ∈ functions, statement.Surveyed S.toLedger inner)
    (tests : ∀ inner, inOrder inner → ∀ l, Calm S { env with scope := inner } [l] (test l))
    (consequents : ∀ inner, inOrder inner →
      Steady S ctx pending { env with scope := inner } [] consequent)
    (alternates : ∀ inner, inOrder inner → ∀ code ∈ alternate,
      Steady S ctx pending { env with scope := inner } [] code) :
    Steady S ctx pending env [] (ifElse node functions test consequent alternate) := by
  refine .inScope finds fun inner ok => ?_
  refine (calm_instantiateFunctions (functions_surveyed inner ok)).steady fun _ => ?_
  refine .fresh fun otherwise => (tests inner ok otherwise).steady fun _ => ?_
  refine (consequents inner ok).skip.then ?_
  cases alternate with
  | none => exact .of_calm (plain_label (.head _)).calm
  | some code => exact steady_elseBranch (.head _) (alternates inner ok code rfl).skip

/-! ## Statements that a jump leaves -/

theorem Setting.Inhabits.push (h : S.Inhabits env boundaries) {boundary : Boundary}
    (plain : boundary.loop? = none) : S.Inhabits env (boundary :: boundaries) := by
  refine ⟨h.anchors, h.outside, fun known => ?_⟩
  rw [List.filterMap_cons_none plain]
  exact h.opened known

theorem depth_push (boundaries : List Boundary) {boundary : Boundary}
    (plain : boundary.loop? = none) : S.depth (boundary :: boundaries) = S.depth boundaries := by
  simp [depth_cons, plain]

theorem Steady.breakable {acceptsUnlabelled : Bool} {done : Label}
    (mem : done ∈ ls) (h : Steady S ctx' [] env ls body)
    (opens : ∀ Γ, Ready S ctx names Γ env →
      Γ.depths.label done = some (S.depth Γ.boundaries) →
      Ready S ctx' [] (Γ.openBreak done names acceptsUnlabelled) env) :
    Steady S ctx names env ls (do
      beginBreakable done names acceptsUnlabelled
      body
      endBreakable
      label done) := by
  intro Γ ready inhabits known
  have own := known done mem
  have runs := h _ (opens Γ ready own) (inhabits.push rfl) known
  exact (spec_beginBreakable done names acceptsUnlabelled).before <| runs.follow fun _ =>
    spec_endBreakable.before <| spec_label own

theorem steady_labelledBlock (h : ∀ enclosing, Steady S ctx [] { env with enclosing } [] body) :
    Steady S ctx names env [] (labelledBlock names body) :=
  .fresh fun _ => .breakable (.head _) (Steady.within h _).skip fun _ ready own =>
    ready.openLabelled own

/-! ## Switches -/

theorem Steady.freshLabels {γ : Type} (items : List γ) {f : List Label → Lower β}
    (h : ∀ targets, Steady S ctx pending env (targets ++ ls) (f targets)) :
    Steady S ctx pending env ls (liftM (Lower.freshLabels items) >>= f) := by
  induction items generalizing ls f with
  | nil => exact h []
  | cons item rest ih =>
    have first : Steady S ctx pending env ls (do
        let l ← freshLabel
        let targets ← Lower.freshLabels rest
        f (l :: targets)) := by
      refine .fresh fun l => ih fun targets => (h (l :: targets)).mono ?_
      intro l' mem
      simp only [List.mem_append, List.mem_cons] at mem ⊢
      tauto
    simpa only [Lower.freshLabels, liftM_bind, liftM_pure, bind_assoc, pure_bind] using first

/-- The code of a case in the scope of its `switch`. -/
structure CasePart.IsSteady (S : Setting) (ctx : JumpContext) (env : Env) (part : CasePart) :
    Prop where
  test : ∀ code ∈ part.test, Calm S env [] code
  body : ∀ enclosing, Steady S ctx [] { env with enclosing } [] part.body

theorem yields_caseTests (value : Register) {default : Option Label}
    (chosen : ∀ l ∈ default, l ∈ ls)
    (h : ∀ c ∈ cases, c.1.IsSteady S ctx env ∧ c.2 ∈ ls) :
    Yields S env ls (fun result => ∀ l ∈ result, l ∈ ls) (caseTests value default cases) := by
  induction cases generalizing default with
  | nil => exact .pure chosen
  | cons first rest ih =>
    obtain ⟨part, target⟩ := first
    obtain ⟨⟨steady, mem⟩, others⟩ := List.forall_mem_cons.mp h
    unfold caseTests
    cases test : part.test with
    | none =>
      exact ih (by rintro l ⟨⟩; exact mem) others
    | some code =>
      have tests := (steady.test code test).mono (List.nil_subset ls)
      exact .after tests fun _ => .after (plain_binary _ value).calm fun _ =>
        .after (plain_jnez mem).calm fun _ => ih chosen others

theorem steady_caseBodies (h : ∀ c ∈ cases, c.1.IsSteady S ctx env ∧ c.2 ∈ ls)
    (enclosing : List Enclosure) :
    Steady S ctx [] { env with enclosing } ls (caseBodies cases) := by
  induction cases with
  | nil => exact .pure ()
  | cons first rest ih =>
    obtain ⟨part, target⟩ := first
    obtain ⟨⟨steady, mem⟩, others⟩ := List.forall_mem_cons.mp h
    exact (plain_label mem).steady fun _ =>
      ((steady.body enclosing).mono (List.nil_subset ls)).then <| ih others

theorem steady_switchOn {discriminant : Lower Unit} (value : Calm S env [] discriminant)
    (finds : S.Finds (S.Opens node .block env.scope) inOrder)
    (functions_surveyed : ∀ inner, inOrder inner →
      ∀ statement ∈ functions, statement.Surveyed S.toLedger inner)
    {parts : List CasePart}
    (h : ∀ inner, inOrder inner →
      ∀ part ∈ parts, part.IsSteady S ctx.switch { env with scope := inner }) :
    Steady S ctx names env [] (switchOn node names discriminant functions parts) := by
  refine value.steady fun _ => plain_storeTemp.steady fun r => ?_
  refine .bind (.inScope finds fun inner ok => ?_) fun _ =>
    .of_calm (plain_freeTemps _).calm
  refine .fresh fun done => ?_
  have code : Steady S ctx.switch [] { env with scope := inner } [done] (do
      instantiateFunctions functions
      let targets ← Lower.freshLabels parts
      let default ← caseTests r none (parts.zip targets)
      branch (default.getD done)
      within (.breakable done names true) (caseBodies (parts.zip targets))) := by
    refine (calm_instantiateFunctions (functions_surveyed inner ok)).steady fun _ => ?_
    refine .freshLabels parts fun targets => ?_
    have steady : ∀ c ∈ parts.zip targets,
        c.1.IsSteady S ctx.switch { env with scope := inner } ∧ c.2 ∈ targets ++ [done] := by
      intro c mem
      have both := List.of_mem_zip (a := c.1) (b := c.2) mem
      exact ⟨h inner ok c.1 both.1, List.mem_append_left _ both.2⟩
    have start : ∀ l ∈ (none : Option Label), l ∈ targets ++ [done] := nofun
    refine (yields_caseTests r start steady).steady fun default chosen => ?_
    have mem : default.getD done ∈ targets ++ [done] := by
      cases default with
      | none => exact List.mem_append_right _ (.head _)
      | some l => exact chosen l rfl
    exact (plain_branch mem).steady fun _ => .within (steady_caseBodies steady) _
  have opens : ∀ Γ, Ready S ctx names Γ { env with scope := inner } →
      Γ.depths.label done = some (S.depth Γ.boundaries) →
      Ready S ctx.switch [] (Γ.openBreak done names true) { env with scope := inner } :=
    fun _ ready own => ready.openSwitch own
  simpa only [bind_assoc] using Steady.breakable (.head _) code opens

/-! ## Protected statements -/

theorem spec_rethrowAfter (h : Spec S (Held S Γ n) (code env) (fun _ => Held S Γ n)) :
    Spec S (Held S Γ n) (rethrowAfter code env) (fun _ => Held S Γ n) :=
  (plain_storeTemp.spec Γ n).step fun exception => h.follow fun _ =>
    ((plain_lda exception).spec Γ n).before <| ((plain_emit rfl).spec Γ n).before <|
    (plain_freeTemps _).spec Γ n

theorem steady_tryCatch {block handler : Lower Unit} (protects : Steady S ctx pending env [] block)
    (handles : Steady S ctx pending env [] handler) :
    Steady S ctx pending env [] (tryCatch block handler) := by
  refine .fresh fun onThrow => .fresh fun done => ?_
  have finish : Steady S ctx pending env [done, onThrow] (do
      label onThrow
      handler
      label done) :=
    (plain_label (by simp)).steady fun _ => handles.skip.skip.then <|
      .of_calm (plain_label (by simp)).calm
  have leave : ∀ fallsThrough : Bool, Steady S ctx pending env [done, onThrow] (do
      if fallsThrough then branch done
      label onThrow
      handler
      label done) :=
    fun _ => .ite (fun _ => (plain_branch (by simp)).steady fun _ => finish) fun _ => finish
  intro Γ ready inhabits known
  refine (spec_beginTry (known onThrow (by simp))).step fun region => .given fun new => ?_
  have inside := protects _ (ready.openRegion new) (inhabits.push rfl) nofun
  refine inside.follow fun _ => (plain_isTerminated.spec _ _).step fun terminated => ?_
  exact (spec_endTry new).before <| leave (!terminated) Γ ready inhabits known

theorem Ready.closes
    (ready : Ready S ctx [] Γ env) (inhabits : S.Inhabits env Γ.boundaries) {finalizer : Lower Unit}
    (h : Steady S (S.discipline.rules.finalizer ctx) [] env [] finalizer) :
    Closes S Γ Γ.boundaries (finalizer env) := by
  intro Δ boundaries le breakables continuables
  have runs := h Δ (ready.finalizer boundaries le breakables continuables)
    (boundaries ▸ inhabits) nofun
  rwa [boundaries] at runs

theorem Steady.of_finalizer (h : Steady S (S.discipline.rules.finalizer ctx) [] env ls m) :
    Steady S ctx [] env ls m :=
  fun Γ ready => h Γ (ready.finalizer rfl (.refl _) (List.Subset.refl _) (List.Subset.refl _))

theorem Spec.close {f : Code → Lower β} {pre : Assembler → Prop} {post : β → Assembler → Prop}
    (h : Spec S pre (f (code env) env) post) : Spec S pre ((Lower.close code >>= f) env) post :=
  h

theorem plain_noteCopy (region : Nat) (kind : FinalizerKind) (scope : ScopeId) (start : Nat) :
    Plain S ls (noteCopy region kind scope start) :=
  fun _ _ _ => ⟨fun _ h => h.rebound rfl h.boundaries h.breakables h.continuables rfl⟩

theorem steady_copyOf
    {finalizer : Lower Unit} (h : ∀ enclosing, Steady S ctx pending { env with enclosing } ls finalizer)
    (region : Nat) (kind : FinalizerKind) (isInlined : Bool) :
    Steady S ctx pending env ls (copyOf region kind isInlined finalizer) :=
  .read <| .get fun _ => (Steady.within h _).then <| .of_calm (plain_noteCopy _ _ _ _).calm

theorem plain_noteVisit (before : ControlState) (scope : ScopeId) :
    Plain S ls (noteVisit before scope) :=
  plain_modify fun _ => ⟨⟨rfl, .refl _⟩, rfl⟩

theorem Steady.visiting (h : Steady S ctx pending env ls code) :
    Steady S ctx pending env ls (visiting code) :=
  .read <| .get fun _ => h.then <| .of_calm (plain_noteVisit _ _).calm

theorem steady_finalize
    {copy : Lower Unit} {onThrow done : Label} (h : Steady S ctx [] env [done, onThrow] copy)
    (fallsThrough : Bool) :
    Steady S ctx [] env [done, onThrow] (do
      if fallsThrough then finalizeNormally copy done
      label onThrow
      rethrowAfter copy
      label done) := by
  have rethrows : Steady S ctx [] env [done, onThrow] (rethrowAfter copy) :=
    fun Γ ready inhabits known => spec_rethrowAfter (h Γ ready inhabits known)
  have finish : Steady S ctx [] env [done, onThrow] (do
      label onThrow
      rethrowAfter copy
      label done) :=
    (plain_label (by simp)).steady fun _ => rethrows.then <| .of_calm (plain_label (by simp)).calm
  have normally : Steady S ctx [] env [done, onThrow] (finalizeNormally copy done) :=
    h.then <| plain_isTerminated.steady fun _ =>
      .ite (fun _ => .of_calm (plain_branch (by simp)).calm) fun _ => .pure ()
  exact .ite (fun _ => normally.then finish) fun _ => finish

theorem steady_tryFinally {body finalizer : Lower Unit} (protects : ∀ finalizers enclosing,
      Steady S ctx [] { env with finalizers, enclosing } [] body)
    (finalizes : ∀ enclosing,
      Steady S (S.discipline.rules.finalizer ctx) [] { env with enclosing } [] finalizer) :
    Steady S ctx [] env [] (tryFinally body finalizer) := by
  refine .read (.fresh fun onThrow => .fresh fun done => ?_)
  have copies : ∀ region isInlined,
      Steady S (S.discipline.rules.finalizer ctx) [] env []
        (copyOf region .block isInlined finalizer) :=
    fun region isInlined => steady_copyOf finalizes region .block isInlined
  intro Γ ready inhabits known
  have handles : (Γ.push (.finalizer env.finalizers.length)).depths.label onThrow =
      some (S.depth Γ.boundaries) := known onThrow (by simp)
  refine (spec_startBoundary (.finalizer env.finalizers.length)).before <|
    (spec_beginTry handles).step fun region => .given fun new => ?_
  have under := (ready.pushFinalizer (ready.closes inhabits (copies region true))).openRegion new
  have inhabited : S.Inhabits
      { env with finalizers := env.finalizers ++ [copyOf region .block true finalizer env] }
      (.finalizer env.finalizers.length :: Γ.boundaries) :=
    ⟨{ inhabits.anchors with }, inhabits.outside, (inhabits.push rfl).opened⟩
  have inside : Spec S _ (withFinalizer region .block (copyOf region .block true finalizer env) body env) _ :=
    protects _ _ _ (under.within _) ((inhabited.push rfl).within _) nofun
  refine .close <| Spec.follow inside fun _ => (plain_isTerminated.spec _ _).step fun terminated =>
    (spec_endTry new).before <|
    (spec_endBoundary _).before ?_
  exact steady_finalize (copies region false).of_finalizer.skip.skip (!terminated) Γ ready inhabits known

theorem steady_tryStatement {block : Lower Unit} {handler finalizer : Option (Lower Unit)}
    (protects : ∀ finalizers enclosing,
      Steady S ctx [] { env with finalizers, enclosing } [] block)
    (handles : ∀ finalizers enclosing, ∀ code ∈ handler,
      Steady S ctx [] { env with finalizers, enclosing } [] code)
    (finalizes : ∀ enclosing, ∀ code ∈ finalizer,
      Steady S (S.discipline.rules.finalizer ctx) [] { env with enclosing } [] code) :
    Steady S ctx [] env [] (tryStatement block handler finalizer) := by
  cases handler with
  | none =>
    cases finalizer with
    | none => exact .of_calm (.throw (Setting.tolerates_of_tolerable .bareTry))
    | some finalizer => exact steady_tryFinally protects fun _ => finalizes _ finalizer rfl
  | some handler =>
    cases finalizer with
    | none =>
      exact steady_tryCatch (protects env.finalizers env.enclosing)
        (handles env.finalizers env.enclosing handler rfl)
    | some finalizer =>
      have handled : ∀ finalizers enclosing, Steady S ctx []
          { env with finalizers, enclosing } [] (tryCatch block handler) :=
        fun _ _ => steady_tryCatch (protects _ _) (handles _ _ handler rfl)
      exact steady_tryFinally handled fun _ => finalizes _ finalizer rfl

theorem steady_catchHandler {position : Position} {bind body : Lower Unit}
    (finds : S.Finds (S.Opens node .block env.scope) inOrder)
    (binds : ∀ inner, inOrder inner → Calm S { env with scope := inner } [] bind)
    (h : ∀ inner, inOrder inner → Steady S ctx pending { env with scope := inner } [] body) :
    Steady S ctx pending env [] (catchHandler node position bind body) := by
  refine .inScope finds fun inner ok => ?_
  exact (plain_atPosition position).steady fun _ => (plain_enterScope inner).steady fun _ =>
    (binds inner ok).steady fun _ => (h inner ok).then <| .of_calm plain_exitScope.calm

end AccScript
